/-
# Computations that keep a log

`Traced ι ε α` is a computation in `Except ε α` together with the events it goes through, the
first one first; a computation that stops keeps the events up to there.

* `result` forgets the log, and is a map of monads (`bind_result`, `forLoop_result`): to show
  that a traced program computes what the plain one does, its steps are compared one by one.
* `Every P x` says that all events are in `P`.  Over a sequence or a loop it comes apart into
  what the steps do from the states they are reached in (`every_bind_iff`,
  `every_forLoop_iff`), in both directions.
-/
import Philix.Lib.Loop

structure Traced (ι ε α : Type) where
  log : List ι
  result : Except ε α

namespace Traced

variable {ι ε σ α β : Type}

instance : Monad (Traced ι ε) where
  pure a := ⟨[], .ok a⟩
  bind x f :=
    match x.result with
    | .error e => ⟨x.log, .error e⟩
    | .ok a => ⟨x.log ++ (f a).log, (f a).result⟩

/-- One event. -/
def emit (i : ι) : Traced ι ε Unit := ⟨[i], .ok ()⟩

/-- A step without events. -/
def lift (r : Except ε α) : Traced ι ε α := ⟨[], r⟩

/-- `n` rounds, the first with the counter at `i`. -/
def forLoop (body : Nat → σ → Traced ι ε σ) : Nat → Nat → σ → Traced ι ε σ
  | 0, _, s => pure s
  | n + 1, i, s => do forLoop body n (i + 1) (← body i s)

/-- All events are in `P`. -/
def Every (P : ι → Prop) (x : Traced ι ε α) : Prop := ∀ i ∈ x.log, P i

/-! ## 1. Results -/

section Result

variable {x : Traced ι ε α} {f : α → Traced ι ε β} {body : Nat → σ → Traced ι ε σ}

@[simp] theorem pure_result (a : α) : (pure a : Traced ι ε α).result = .ok a := rfl

@[simp] theorem emit_result (i : ι) : (emit i : Traced ι ε Unit).result = .ok () := rfl

@[simp] theorem lift_result (r : Except ε α) : (lift r : Traced ι ε α).result = r := rfl

@[simp] theorem bind_result : (x >>= f).result = x.result >>= fun a => (f a).result := by
  obtain ⟨log, r⟩ := x
  cases r with
  | error e => rfl
  | ok a => rfl

theorem bind_result_eq {r : Except ε α} {g : α → Except ε β} (hx : x.result = r)
    (hf : ∀ a, (f a).result = g a) : (x >>= f).result = r >>= g := by
  rw [bind_result, hx]
  exact congrArg (r >>= ·) (funext hf)

/-- A traced loop computes what the plain loop does. -/
theorem forLoop_result : ∀ (n i : Nat) (s : σ),
    (forLoop body n i s).result = Loop.forLoop (fun j s => (body j s).result) n i s
  | 0, _, _ => rfl
  | n + 1, i, _ => bind_result_eq rfl fun s' => forLoop_result n (i + 1) s'

/-- What follows a computation that completes. -/
theorem bind_of_ok {log : List ι} {a : α} (h : x = ⟨log, .ok a⟩) :
    x >>= f = ⟨log ++ (f a).log, (f a).result⟩ := by
  rw [h]
  rfl

end Result

/-! ## 2. Events -/

section Every

variable {P Q : ι → Prop} {x : Traced ι ε α} {f : α → Traced ι ε β}
  {body : Nat → σ → Traced ι ε σ}

@[simp] theorem every_pure (a : α) : Every P (pure a : Traced ι ε α) := by
  intro i hi
  cases hi

@[simp] theorem every_lift (r : Except ε α) : Every P (lift r) := by
  intro i hi
  cases hi

@[simp] theorem every_emit_iff {i : ι} : Every P (emit i : Traced ι ε Unit) ↔ P i := by
  unfold Every emit
  exact List.forall_mem_singleton

/-- **Sequence.**  The second computation counts only from results of the first. -/
theorem every_bind_iff :
    Every P (x >>= f) ↔ Every P x ∧ ∀ a, x.result = .ok a → Every P (f a) := by
  obtain ⟨log, r⟩ := x
  cases r with
  | error e => exact ⟨fun h => ⟨h, fun a ha => nomatch ha⟩, fun h => h.1⟩
  | ok a =>
    have happ : Every P ((⟨log, .ok a⟩ : Traced ι ε α) >>= f) ↔
        (∀ i ∈ log, P i) ∧ Every P (f a) := List.forall_mem_append
    rw [happ]
    refine and_congr_right fun _ => ⟨?_, fun h => h a rfl⟩
    intro h b hb
    obtain rfl := Except.ok.inj hb
    exact h

/-- After a step whose result is known. -/
theorem every_bind_ok_iff {a : α} (hx : x.result = .ok a) :
    Every P (x >>= f) ↔ Every P x ∧ Every P (f a) := by
  rw [every_bind_iff]
  refine and_congr_right fun _ => ⟨fun h => h a hx, ?_⟩
  intro h b hb
  obtain rfl := Except.ok.inj (hx.symm.trans hb)
  exact h

@[simp] theorem every_emit_bind_iff {i : ι} {f : Unit → Traced ι ε β} :
    Every P (emit i >>= f) ↔ P i ∧ Every P (f ()) := by
  rw [every_bind_ok_iff (emit_result i), every_emit_iff]

theorem every_lift_bind_iff {r : Except ε α} :
    Every P (lift r >>= f) ↔ ∀ a, r = .ok a → Every P (f a) := by
  rw [every_bind_iff]
  exact and_iff_right (every_lift r)

/-- **Loop.**  Each round counts, from the state the rounds before it end in. -/
theorem every_forLoop_iff : ∀ {n i : Nat} {s : σ}, Every P (forLoop body n i s) ↔
    ∀ k < n, ∀ s', Loop.forLoop (fun j s => (body j s).result) k i s = .ok s' →
      Every P (body (i + k) s')
  | 0, _, s => ⟨fun _ k hk => absurd hk (Nat.not_lt_zero k), fun _ => every_pure s⟩
  | n + 1, i, s => by
    rw [forLoop, every_bind_iff]
    constructor
    · rintro ⟨hfirst, hrest⟩ k hk s' hs'
      cases k with
      | zero =>
        obtain rfl := Except.ok.inj hs'
        exact hfirst
      | succ k =>
        obtain ⟨s₁, h₁, h₂⟩ := Loop.bind_eq_ok_iff.mp hs'
        have := every_forLoop_iff.mp (hrest s₁ h₁) k (Nat.lt_of_succ_lt_succ hk) s' h₂
        rwa [Nat.add_assoc, Nat.add_comm 1] at this
    · intro h
      refine ⟨h 0 (Nat.succ_pos n) s rfl, fun s₁ h₁ => every_forLoop_iff.mpr ?_⟩
      intro k hk s' hs'
      rw [Nat.add_assoc, Nat.add_comm 1]
      exact h (k + 1) (Nat.succ_lt_succ hk) s' (Loop.bind_eq_ok_iff.mpr ⟨s₁, h₁, hs'⟩)

end Every

end Traced
