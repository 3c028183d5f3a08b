/-
# Infinite runs, weak fairness, and what a fair run leads to

`Behavior step` is an infinite run of a labelled transition system whose steps may be idle:
a run that ends is one that idles from some point on.  A class of labels is treated fairly
when, from any point on, one of its labels occurs or is at some moment impossible.

One rule carries the later modules, `Behavior.leadsTo`.  While the goal is not reached, a
rank says how much is left to do and `help` names the class that has to do it.  Other steps
may happen meanwhile, as long as they change neither; a step of the class in charge lowers
the rank; and the class in charge can always act.  Then a fair run reaches the goal.
-/
import Philix.Lib.Lts

namespace Lts

variable {σ ε κ : Type}

/-- An infinite run.  The label of an idle step is `none`. -/
structure Behavior (step : σ → ε → σ → Prop) where
  state : Nat → σ
  label : Nat → Option ε
  next : ∀ i, match label i with
    | some e => step (state i) e (state (i + 1))
    | none => state (i + 1) = state i

/-- Some label of the class can occur. -/
def Enabled (step : σ → ε → σ → Prop) (A : ε → Prop) (s : σ) : Prop :=
  ∃ e t, A e ∧ step s e t

/-- A label of the class occurs at time `i`. -/
def Behavior.Occurs {step : σ → ε → σ → Prop} (b : Behavior step) (A : ε → Prop) (i : Nat) : Prop :=
  ∃ e, b.label i = some e ∧ A e

/-- **Weak fairness.**  From every time on, the class acts or is at some moment unable to. -/
def Behavior.WeakFair {step : σ → ε → σ → Prop} (b : Behavior step) (A : ε → Prop) : Prop :=
  ∀ i, ∃ j, i ≤ j ∧ (Enabled step A (b.state j) → b.Occurs A j)

section

variable {step : σ → ε → σ → Prop} {b : Behavior step}

theorem Behavior.next_cases (b : Behavior step) (i : Nat) :
    b.state (i + 1) = b.state i ∨
      ∃ e, b.label i = some e ∧ step (b.state i) e (b.state (i + 1)) := by
  have hnext := b.next i
  cases hl : b.label i with
  | none =>
    simp only [hl] at hnext
    exact Or.inl hnext
  | some e =>
    simp only [hl] at hnext
    exact Or.inr ⟨e, rfl, hnext⟩

/-! ## 1. Invariants of an infinite run -/

/-- What every step with a label in `C` keeps, a behavior with such labels keeps. -/
theorem Behavior.keeps_of {I : σ → Prop} {C : ε → Prop} (hC : ∀ i e, b.label i = some e → C e)
    (hstep : ∀ s e t, I s → C e → step s e t → I t) {i j : Nat} (hij : i ≤ j)
    (hi : I (b.state i)) : I (b.state j) := by
  induction hij with
  | refl => exact hi
  | @step j _ ih =>
    rcases b.next_cases j with hidle | ⟨e, hl, hst⟩
    · exact hidle ▸ ih
    · exact hstep _ _ _ ih (hC j e hl) hst

/-- What every step keeps holds from any time on at which it holds. -/
theorem Behavior.keeps {I : σ → Prop} (hstep : ∀ s e t, I s → step s e t → I t) {i j : Nat}
    (hij : i ≤ j) (hi : I (b.state i)) : I (b.state j) :=
  b.keeps_of (C := fun _ => True) (fun _ _ _ => trivial)
    (fun s e t hs _ hst => hstep s e t hs hst) hij hi

/-- One step more at the front. -/
def Behavior.cons {s : σ} {e : ε} (b : Behavior step) (hst : step s e (b.state 0)) :
    Behavior step where
  state
    | 0 => s
    | i + 1 => b.state i
  label
    | 0 => some e
    | i + 1 => b.label i
  next
    | 0 => hst
    | i + 1 => b.next i

/-- Idle from the start. -/
def Behavior.rest (s : σ) : Behavior step where
  state _ := s
  label _ := none
  next _ := rfl

/-- Idling is fair to what cannot act. -/
theorem Behavior.weakFair_rest {A : ε → Prop} {s : σ} (hdis : ¬ Enabled step A s) :
    (Behavior.rest s : Behavior step).WeakFair A :=
  fun i => ⟨i, Nat.le_refl i, fun hen => absurd hen hdis⟩

/-- Fairness is about what comes later. -/
theorem Behavior.WeakFair.cons {A : ε → Prop} {s : σ} {e : ε} (hfair : b.WeakFair A)
    (hst : step s e (b.state 0)) : (b.cons hst).WeakFair A := by
  intro i
  obtain ⟨j, hij, hact⟩ := hfair i
  exact ⟨j + 1, by omega, hact⟩

/-- A finite run that ends where nothing need act, as a fair infinite one. -/
theorem Run.exists_fair {A : κ → ε → Prop} {s t : σ} {es : List ε} (h : Run step s es t)
    (hdis : ∀ k, ¬ Enabled step (A k) t) :
    ∃ b : Behavior step, b.state 0 = s ∧ (∀ k, b.WeakFair (A k)) ∧
      ∀ i e, b.label i = some e → e ∈ es := by
  induction h with
  | refl s =>
    refine ⟨.rest s, rfl, fun k => Behavior.weakFair_rest (hdis k), ?_⟩
    simp [Behavior.rest]
  | @cons s t u e es hst _ ih =>
    obtain ⟨b, rfl, hfair, hlabel⟩ := ih hdis
    refine ⟨b.cons hst, rfl, fun k => (hfair k).cons hst, ?_⟩
    intro i e' he'
    cases i with
    | zero =>
      obtain rfl : e = e' := by simpa [Behavior.cons] using he'
      exact List.mem_cons_self
    | succ i => exact List.mem_cons_of_mem _ (hlabel i e' he')

/-! ## 2. Progress -/

/-- A step of the class in charge comes, or the goal does. -/
theorem Behavior.leadsTo_act {A : ε → Prop} {P Q : σ → Prop} (hfair : b.WeakFair A)
    (hstep : ∀ s e t, P s → step s e t → Q t ∨ P t)
    (henabled : ∀ s, P s → Enabled step A s) {i : Nat} (hi : P (b.state i)) :
    ∃ j, i ≤ j ∧ (Q (b.state j) ∨ P (b.state j) ∧ b.Occurs A j) := by
  by_cases hgoal : ∃ j, i ≤ j ∧ Q (b.state j)
  · obtain ⟨j, hij, hQ⟩ := hgoal
    exact ⟨j, hij, Or.inl hQ⟩
  · have hstay : ∀ j, i ≤ j → P (b.state j) := by
      intro j hij
      induction hij with
      | refl => exact hi
      | @step j hij ih =>
        rcases b.next_cases j with hidle | ⟨e, -, hst⟩
        · exact hidle ▸ ih
        · exact (hstep _ _ _ ih hst).resolve_left fun hQ =>
            hgoal ⟨j + 1, Nat.le_succ_of_le hij, hQ⟩
    obtain ⟨j, hij, hact⟩ := hfair i
    have hP : P (b.state j) := hstay j hij
    exact ⟨j, hij, Or.inr ⟨hP, hact (henabled _ hP)⟩⟩

/-- **The leads-to rule.**  A rank that no step raises while the goal is not reached, and a
class of labels in charge at each rank, which can act and lowers the rank when it does. -/
theorem Behavior.leadsTo {A : κ → ε → Prop} {P Q : σ → Prop} {rank : σ → Nat} {help : σ → κ}
    (hfair : ∀ k, b.WeakFair (A k))
    (hstep : ∀ s e t, P s → step s e t → Q t ∨
      P t ∧ (rank t < rank s ∨ rank t = rank s ∧ help t = help s ∧ ¬ A (help s) e))
    (henabled : ∀ s, P s → Enabled step (A (help s)) s) {i : Nat} (hi : P (b.state i)) :
    ∃ j, i ≤ j ∧ Q (b.state j) := by
  -- by induction on the rank; the goal of one stage is a lower rank
  induction hr : rank (b.state i) using Nat.strongRecOn generalizing i with
  | ind r ih =>
    obtain ⟨k, hk⟩ : ∃ k, help (b.state i) = k := ⟨_, rfl⟩
    have hstage : ∀ s e t, (P s ∧ rank s = r ∧ help s = k) → step s e t →
        (Q t ∨ P t ∧ rank t < r) ∨ (P t ∧ rank t = r ∧ help t = k) := by
      rintro s e t ⟨hP, rfl, rfl⟩ hst
      rcases hstep s e t hP hst with hQ | ⟨hP', hlt | ⟨heq, hhelp, -⟩⟩
      · exact Or.inl (Or.inl hQ)
      · exact Or.inl (Or.inr ⟨hP', hlt⟩)
      · exact Or.inr ⟨hP', heq, hhelp⟩
    obtain ⟨j, hij, hact⟩ := Behavior.leadsTo_act (hfair k) hstage
      (fun s hs => hs.2.2 ▸ henabled s hs.1) ⟨hi, hr, hk⟩
    -- the class in charge acts at `j`, unless the stage is over by then
    have hlower : ∃ m, i ≤ m ∧ (Q (b.state m) ∨ P (b.state m) ∧ rank (b.state m) < r) := by
      rcases hact with hdone | ⟨⟨hP, hrj, hkj⟩, e, hl, he⟩
      · exact ⟨j, hij, hdone⟩
      · have hnext := b.next j
        simp only [hl] at hnext
        refine ⟨j + 1, by omega, ?_⟩
        rcases hstep _ _ _ hP hnext with hQ | ⟨hP', hlt | ⟨-, -, hnot⟩⟩
        · exact Or.inl hQ
        · exact Or.inr ⟨hP', hrj ▸ hlt⟩
        · exact absurd (hkj ▸ he) hnot
    obtain ⟨m, him, hQ | ⟨hP, hlt⟩⟩ := hlower
    · exact ⟨m, him, hQ⟩
    · obtain ⟨n, hmn, hQ⟩ := ih _ hlt hP rfl
      exact ⟨n, Nat.le_trans him hmn, hQ⟩

end

/-! ## 3. The behavior of an abstraction -/

section Image

variable {τ δ : Type} {step : σ → ε → σ → Prop} {abstract : τ → δ → τ → Prop}
  {b : Behavior step}

/-- A step with the label, or none. -/
def Moves (step : σ → ε → σ → Prop) (s : σ) : Option ε → σ → Prop
  | some e, t => step s e t
  | none, t => t = s

/-- What a behavior is under a map of its states, where each step is one of the abstraction or
leaves it where it is. -/
def Behavior.image (b : Behavior step) (f : σ → τ) (lab : ε → Option δ)
    (hstep : ∀ i e, b.label i = some e →
      Moves abstract (f (b.state i)) (lab e) (f (b.state (i + 1)))) : Behavior abstract where
  state i := f (b.state i)
  label i := (b.label i).bind lab
  next i := by
    have hnext := b.next i
    cases hl : b.label i with
    | none =>
      simp only [hl] at hnext
      exact congrArg f hnext
    | some e =>
      have hmoves := hstep i e hl
      rw [Option.bind_some]
      cases hd : lab e with
      | none =>
        rw [hd] at hmoves
        exact hmoves
      | some d =>
        rw [hd] at hmoves
        exact hmoves

/-- **Fairness carries over** to the abstraction, if wherever a class of it can act, its class
below can, and acts in it when it does. -/
theorem Behavior.WeakFair.image {f : σ → τ} {lab : ε → Option δ}
    {hstep : ∀ i e, b.label i = some e →
      Moves abstract (f (b.state i)) (lab e) (f (b.state (i + 1)))}
    {A : ε → Prop} {A' : δ → Prop} (hfair : b.WeakFair A)
    (henabled : ∀ i, Enabled abstract A' (f (b.state i)) → Enabled step A (b.state i) ∧
      ∀ e t, A e → step (b.state i) e t → ∃ d, lab e = some d ∧ A' d) :
    (b.image f lab hstep).WeakFair A' := by
  intro i
  obtain ⟨j, hij, hact⟩ := hfair i
  refine ⟨j, hij, fun hen => ?_⟩
  obtain ⟨hen', hlab⟩ := henabled j hen
  obtain ⟨e, hl, he⟩ := hact hen'
  have hnext := b.next j
  simp only [hl] at hnext
  obtain ⟨d, hd, hA⟩ := hlab e _ he hnext
  have hlabel : (b.image f lab hstep).label j = (b.label j).bind lab := rfl
  exact ⟨d, by rw [hlabel, hl, Option.bind_some, hd], hA⟩

end Image

end Lts
