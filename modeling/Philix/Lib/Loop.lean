/-
# Loops in `Except` and `Option`

`forLoop body n i s` is `for (; n > 0; n--, i++) s = body(i, s)`, where the body may stop the
program.  Two rules: `forLoop_ok`, for a body that never stops, gives the invariant at the
end; `forLoop_of_ok`, for a loop that is known to have completed, gives it too.

`Barring e x P` says that `x` completes in `P` unless it stops with `e`: a total
postcondition that sets one kind of stop aside.  `Alike R x y` says that `x` and `y` stop in
the same way, or both complete, with results related by `R`.
-/
import Mathlib.Tactic.Common

namespace Loop

variable {ε σ α β : Type}

/-! ## 1. `Except` as a monad -/

@[simp] theorem ok_bind (a : α) (f : α → Except ε β) : (Except.ok a >>= f) = f a := rfl

@[simp] theorem error_bind (e : ε) (f : α → Except ε β) : (Except.error e >>= f) = .error e := rfl

@[simp] theorem pure_eq_ok (a : α) : (pure a : Except ε α) = .ok a := rfl

theorem bind_eq_ok_iff {x : Except ε α} {f : α → Except ε β} {b : β} :
    (x >>= f) = .ok b ↔ ∃ a, x = .ok a ∧ f a = .ok b := by
  cases x <;> simp

/-! ## 2. Folds in `Option` -/

section Folds

variable {f : β → α → Option β} {x : α} {xs : List α} {b c : β}

theorem foldlM_cons_of_some (h : f b x = some c) (xs : List α) :
    (x :: xs).foldlM f b = xs.foldlM f c := by
  rw [List.foldlM_cons, h, Option.bind_eq_bind, Option.bind_some]

theorem foldlM_append_of_some (h : xs.foldlM f b = some c) (ys : List α) :
    (xs ++ ys).foldlM f b = ys.foldlM f c := by
  rw [List.foldlM_append, h, Option.bind_eq_bind, Option.bind_some]

end Folds

/-! ## 3. The loop -/

/-- `n` rounds, the first with the counter at `i`. -/
def forLoop (body : Nat → σ → Except ε σ) : Nat → Nat → σ → Except ε σ
  | 0, _, s => .ok s
  | n + 1, i, s => do forLoop body n (i + 1) (← body i s)

variable {f : Nat → σ → Except ε σ} {I : Nat → σ → Prop}

@[simp] theorem forLoop_zero (i : Nat) (s : σ) : forLoop f 0 i s = .ok s := rfl

theorem forLoop_succ (n i : Nat) (s : σ) :
    forLoop f (n + 1) i s = f i s >>= forLoop f n (i + 1) := rfl

/-- The loop goes over the list of its counters. -/
theorem forLoop_eq_foldlM : ∀ (n i : Nat) (s : σ),
    forLoop f n i s = (List.range' i n).foldlM (fun s j => f j s) s
  | 0, _, _ => rfl
  | n + 1, i, s => by
    rw [forLoop_succ, List.range'_succ, List.foldlM_cons]
    exact congrArg (f i s >>= ·) (funext fun s => forLoop_eq_foldlM n (i + 1) s)

/-- **Total rule.**  Every round completes and keeps the invariant. -/
theorem forLoop_ok : ∀ (n i : Nat) (s : σ), I i s →
    (∀ j s, i ≤ j → j < i + n → I j s → ∃ s', f j s = .ok s' ∧ I (j + 1) s') →
    ∃ s', forLoop f n i s = .ok s' ∧ I (i + n) s'
  | 0, _, s, hs, _ => ⟨s, rfl, hs⟩
  | n + 1, i, s, hs, hbody => by
    obtain ⟨s₁, h₁, hs₁⟩ := hbody i s (Nat.le_refl i) (by omega) hs
    obtain ⟨s₂, h₂, hs₂⟩ := forLoop_ok n (i + 1) s₁ hs₁ fun j s hj hjn =>
      hbody j s (by omega) (by omega)
    refine ⟨s₂, by rw [forLoop_succ, h₁, ok_bind, h₂], ?_⟩
    rwa [Nat.add_assoc, Nat.add_comm 1] at hs₂

/-- **Partial rule.**  Every round that completes keeps the invariant. -/
theorem forLoop_of_ok : ∀ {n i : Nat} {s s' : σ}, forLoop f n i s = .ok s' → I i s →
    (∀ j s s', i ≤ j → j < i + n → f j s = .ok s' → I j s → I (j + 1) s') → I (i + n) s'
  | 0, _, _, _, h, hs, _ => by
    obtain rfl := Except.ok.inj h
    exact hs
  | n + 1, i, s, s', h, hs, hbody => by
    obtain ⟨s₁, h₁, h₂⟩ := bind_eq_ok_iff.mp h
    have := forLoop_of_ok (n := n) h₂ (hbody i s s₁ (Nat.le_refl i) (by omega) h₁ hs)
      fun j s s' hj hjn => hbody j s s' (by omega) (by omega)
    rwa [Nat.add_assoc, Nat.add_comm 1] at this

/-- Whether a loop completes, when what a round does to that does not depend on the state. -/
theorem forLoop_completes_iff {C : Nat → Prop} (hC : ∀ j s, (∃ s', f j s = .ok s') ↔ C j) :
    ∀ {n i : Nat} {s : σ}, (∃ s', forLoop f n i s = .ok s') ↔ ∀ k < n, C (i + k)
  | 0, _, s => ⟨fun _ k hk => absurd hk (Nat.not_lt_zero k), fun _ => ⟨s, rfl⟩⟩
  | n + 1, i, s => by
    constructor
    · rintro ⟨s', h⟩ k hk
      obtain ⟨s₁, h₁, h₂⟩ := bind_eq_ok_iff.mp h
      cases k with
      | zero => exact (hC i s).mp ⟨s₁, h₁⟩
      | succ k =>
        rw [Nat.add_comm k, ← Nat.add_assoc]
        exact (forLoop_completes_iff hC).mp ⟨s', h₂⟩ k (Nat.lt_of_succ_lt_succ hk)
    · intro h
      obtain ⟨s₁, h₁⟩ := (hC i s).mpr (h 0 (Nat.succ_pos n))
      obtain ⟨s', h₂⟩ := (forLoop_completes_iff hC (n := n) (i := i + 1) (s := s₁)).mpr
        fun k hk => by
          rw [Nat.add_assoc, Nat.add_comm 1]
          exact h (k + 1) (Nat.succ_lt_succ hk)
      exact ⟨s', bind_eq_ok_iff.mpr ⟨s₁, h₁, h₂⟩⟩

/-! ## 4. Completion, barring one kind of stop -/

/-- `x` stops with `e`, or completes in `P`. -/
def Barring (e : ε) (x : Except ε α) (P : α → Prop) : Prop := x = .error e ∨ ∃ a, x = .ok a ∧ P a

section Barring

variable {e e' : ε} {x : Except ε α} {a : α} {g : α → Except ε β} {P Q : α → Prop} {R : β → Prop}

@[simp] theorem barring_ok_iff : Barring e (.ok a) P ↔ P a := by simp [Barring]

@[simp] theorem barring_error_iff : Barring e (.error e' : Except ε α) P ↔ e' = e := by
  simp [Barring]

theorem Barring.mono (h : Barring e x P) (hPQ : ∀ a, P a → Q a) : Barring e x Q := by
  rcases h with h | ⟨a, h, ha⟩
  · exact Or.inl h
  · exact Or.inr ⟨a, h, hPQ a ha⟩

theorem Barring.bind (h : Barring e x P) (hg : ∀ a, P a → Barring e (g a) R) :
    Barring e (x >>= g) R := by
  rcases h with rfl | ⟨a, rfl, ha⟩
  · exact Or.inl rfl
  · exact hg a ha

theorem Barring.of_ok (h : Barring e x P) (ha : x = .ok a) : P a := by
  rwa [ha, barring_ok_iff] at h

/-- Nothing else stops it. -/
theorem Barring.error_eq (h : Barring e x P) (he : x = .error e') : e' = e := by
  rwa [he, barring_error_iff] at h

end Barring

/-! ## 5. Two computations side by side -/

/-- `x` and `y` stop in the same way, or complete with related results. -/
inductive Alike (R : α → β → Prop) : Except ε α → Except ε β → Prop
  | error (e : ε) : Alike R (.error e) (.error e)
  | ok {a : α} {b : β} (h : R a b) : Alike R (.ok a) (.ok b)

theorem Alike.bind {γ δ : Type} {R : α → β → Prop} {T : γ → δ → Prop} {x : Except ε α}
    {y : Except ε β} {f : α → Except ε γ} {g : β → Except ε δ} (h : Alike R x y)
    (hfg : ∀ a b, R a b → Alike T (f a) (g b)) : Alike T (x >>= f) (y >>= g) := by
  cases h with
  | error e => exact .error e
  | ok hab => exact hfg _ _ hab

/-- If one completes, the other does. -/
theorem Alike.exists_right {R : α → β → Prop} {a : α} {y : Except ε β} (h : Alike R (.ok a) y) :
    ∃ b, y = .ok b ∧ R a b := by
  cases h with
  | ok hab => exact ⟨_, rfl, hab⟩

theorem Alike.exists_left {R : α → β → Prop} {x : Except ε α} {b : β} (h : Alike R x (.ok b)) :
    ∃ a, x = .ok a ∧ R a b := by
  cases h with
  | ok hab => exact ⟨_, rfl, hab⟩

end Loop
