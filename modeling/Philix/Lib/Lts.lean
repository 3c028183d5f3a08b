/-
# Labelled transition systems: runs, and what a run preserves

A system is a relation `step : σ → ε → σ → Prop`: the state before, the label, the state
after.  `Run step s es t` is a finite run from `s` to `t` with the labels `es`.

Three rules carry most of the later modules:

* `Run.preserves`: a predicate kept by every step is kept by a run;
* `Restrict`: the same system with a guard on its steps, so that "every step of this run
  meets the condition" is `Run (Restrict step C)`;
* `run_target_iff_run_guard`: when, from every good state, a step lands in `P` exactly when
  it meets the guard `C`, the runs that stay in `P` are the runs whose steps meet `C`.

`Run.simulate` carries a simulation, one step by any number of steps, over to runs.
-/
import Mathlib.Tactic.Common

namespace Lts

variable {σ ε : Type}

/-- A finite run, with the labels of its steps in order. -/
inductive Run (step : σ → ε → σ → Prop) : σ → List ε → σ → Prop
  | refl (s : σ) : Run step s [] s
  | cons {s t u : σ} {e : ε} {es : List ε} :
      step s e t → Run step t es u → Run step s (e :: es) u

/-- The steps of a system that meet a condition on the state before and the label. -/
def Restrict (step : σ → ε → σ → Prop) (C : σ → ε → Prop) : σ → ε → σ → Prop :=
  fun s e t => step s e t ∧ C s e

/-- The steps of a system that land in `P`. -/
def Into (step : σ → ε → σ → Prop) (P : σ → Prop) : σ → ε → σ → Prop :=
  fun s e t => step s e t ∧ P t

variable {step step' : σ → ε → σ → Prop} {s t u : σ} {es es' : List ε} {e : ε}

/-! ## 1. Building and splitting runs -/

@[simp] theorem run_nil_iff : Run step s [] t ↔ s = t := by
  constructor
  · intro h
    cases h
    rfl
  · rintro rfl
    exact Run.refl s

@[simp] theorem run_cons_iff : Run step s (e :: es) u ↔ ∃ t, step s e t ∧ Run step t es u := by
  constructor
  · intro h
    cases h with
    | cons h1 h2 => exact ⟨_, h1, h2⟩
  · rintro ⟨t, h1, h2⟩
    exact Run.cons h1 h2

theorem run_append_iff : Run step s (es ++ es') u ↔ ∃ t, Run step s es t ∧ Run step t es' u := by
  induction es generalizing s with
  | nil => simp
  | cons e es ih =>
    simp only [List.cons_append, run_cons_iff, ih]
    constructor
    · rintro ⟨t, h1, v, h2, h3⟩
      exact ⟨v, ⟨t, h1, h2⟩, h3⟩
    · rintro ⟨v, ⟨t, h1, h2⟩, h3⟩
      exact ⟨t, h1, v, h2, h3⟩

theorem Run.append (h : Run step s es t) (h' : Run step t es' u) : Run step s (es ++ es') u :=
  run_append_iff.mpr ⟨t, h, h'⟩

theorem Run.snoc (h : Run step s es t) (h' : step t e u) : Run step s (es ++ [e]) u :=
  h.append (Run.cons h' (Run.refl u))

/-- A system with more steps has more runs. -/
theorem Run.mono (hsub : ∀ s e t, step s e t → step' s e t) (h : Run step s es t) :
    Run step' s es t := by
  induction h with
  | refl s => exact Run.refl s
  | cons h1 _ ih => exact Run.cons (hsub _ _ _ h1) ih

/-! ## 2. What a run preserves -/

/-- **Invariant rule.**  What every step keeps, a run keeps. -/
theorem Run.preserves {I : σ → Prop} (hstep : ∀ s e t, I s → step s e t → I t)
    (h : Run step s es t) (hs : I s) : I t := by
  induction h with
  | refl _ => exact hs
  | cons h1 _ ih => exact ih (hstep _ _ _ hs h1)

/-! ## 3. Guards and targets -/

/-- **Guard rule.**  `I` holds at the start and survives every step that meets `C`; from a
state in `I`, a step lands in `P` exactly when it meets `C`.  Then a run stays in `P` iff
all its steps meet `C`. -/
theorem run_target_iff_run_guard {I P : σ → Prop} {C : σ → ε → Prop}
    (hkeep : ∀ s e t, I s → step s e t → C s e → I t)
    (hiff : ∀ s e t, I s → step s e t → (P t ↔ C s e)) (hs : I s) :
    Run (Into step P) s es t ↔ Run (Restrict step C) s es t := by
  induction es generalizing s with
  | nil => simp
  | cons e es ih =>
    simp only [run_cons_iff, Into, Restrict]
    constructor
    · rintro ⟨v, ⟨h1, hP⟩, h2⟩
      have hC : C s e := (hiff s e v hs h1).mp hP
      exact ⟨v, ⟨h1, hC⟩, (ih (hkeep s e v hs h1 hC)).mp h2⟩
    · rintro ⟨v, ⟨h1, hC⟩, h2⟩
      exact ⟨v, ⟨h1, (hiff s e v hs h1).mpr hC⟩, (ih (hkeep s e v hs h1 hC)).mpr h2⟩

/-- The labels of a run all of whose steps meet a condition on them meet it. -/
theorem Run.labels {C : ε → Prop} (h : Run (Restrict step fun _ e => C e) s es t) :
    ∀ e ∈ es, C e := by
  induction h with
  | refl s => exact fun _ he => absurd he List.not_mem_nil
  | cons h1 _ ih =>
    intro e he
    rcases List.mem_cons.mp he with rfl | he
    · exact h1.2
    · exact ih e he

/-! ## 4. Simulation -/

/-- **Simulation rule.**  If each step from a state related to `u` is matched by a run from
`u`, with the labels `lab` gives, then so is each run. -/
theorem Run.simulate {τ δ : Type} {abstract : τ → δ → τ → Prop} {R : σ → τ → Prop}
    {lab : ε → List δ} (hsim : ∀ s e t u, R s u → step s e t →
      ∃ u', Run abstract u (lab e) u' ∧ R t u')
    (h : Run step s es t) {u : τ} (hs : R s u) :
    ∃ u', Run abstract u (es.flatMap lab) u' ∧ R t u' := by
  induction h generalizing u with
  | refl s => exact ⟨u, Run.refl u, hs⟩
  | cons h1 _ ih =>
    obtain ⟨v, hv, hR⟩ := hsim _ _ _ _ hs h1
    obtain ⟨w, hw, hR'⟩ := ih hR
    exact ⟨w, hv.append hw, hR'⟩

end Lts
