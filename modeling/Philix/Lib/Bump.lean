/-
# Regions laid out one after another

An allocator that only moves forward: it hands out the address it stands at and moves on by
`adv n` for a region of `n` bytes.  `layout_separate_iff` is the whole of its correctness: the
regions are apart, and the allocator has moved past them, exactly when it never moves on by
less than it was asked for.
-/
import Mathlib.Tactic.Common

namespace Bump

/-- A half-open region, `size` addresses from `base` on. -/
structure Block where
  base : Nat
  size : Nat
  deriving DecidableEq, Repr

def Block.stop (b : Block) : Nat := b.base + b.size

def Block.Mem (b : Block) (x : Nat) : Prop := b.base ≤ x ∧ x < b.stop

/-- No address is in both. -/
def Apart (b c : Block) : Prop := ∀ x, b.Mem x → ¬ c.Mem x

/-- The regions for the sizes, from `start` on. -/
def layout (adv : Nat → Nat) : Nat → List Nat → List Block
  | _, [] => []
  | start, n :: ns => ⟨start, n⟩ :: layout adv (start + adv n) ns

/-- Where the allocator stands in the end. -/
def final (adv : Nat → Nat) : Nat → List Nat → Nat
  | start, [] => start
  | start, n :: ns => final adv (start + adv n) ns

/-- The regions are pairwise apart and all behind the end. -/
def Separate (adv : Nat → Nat) (start : Nat) (ns : List Nat) : Prop :=
  (layout adv start ns).Pairwise Apart ∧
    ∀ b ∈ layout adv start ns, b.stop ≤ final adv start ns

variable {adv : Nat → Nat} {b c : Block} {start d n : Nat} {ns : List Nat}

/-! ## 1. Two regions -/

theorem apart_of_le (h : b.stop ≤ c.base) : Apart b c := fun _ hb hc =>
  Nat.not_lt.mpr (Nat.le_trans h hc.1) hb.2

/-- A region that is apart from one around its base is empty. -/
theorem size_eq_zero_of_apart (h : Apart b c) (hbase : b.Mem c.base) : c.size = 0 := by
  by_contra hpos
  exact h c.base hbase ⟨Nat.le_refl _, Nat.lt_add_of_pos_right (Nat.pos_of_ne_zero hpos)⟩

/-! ## 2. All of them -/

theorem le_final (ns : List Nat) (start : Nat) : start ≤ final adv start ns := by
  induction ns generalizing start with
  | nil => exact Nat.le_refl start
  | cons n ns ih => exact Nat.le_trans (Nat.le_add_right start (adv n)) (ih (start + adv n))

theorem le_base_of_mem (h : b ∈ layout adv start ns) : start ≤ b.base := by
  induction ns generalizing start with
  | nil => cases h
  | cons n ns ih =>
    rcases List.mem_cons.mp h with rfl | h
    · exact Nat.le_refl start
    · exact Nat.le_trans (Nat.le_add_right start (adv n)) (ih h)

theorem map_size_layout (ns : List Nat) (start : Nat) :
    (layout adv start ns).map Block.size = ns := by
  induction ns generalizing start with
  | nil => rfl
  | cons n ns ih => exact congrArg (n :: ·) (ih (start + adv n))

/-- Multiples of `d` all along. -/
theorem dvd_base (hadv : ∀ n ∈ ns, d ∣ adv n) (hstart : d ∣ start) (h : b ∈ layout adv start ns) :
    d ∣ b.base := by
  induction ns generalizing start with
  | nil => cases h
  | cons n ns ih =>
    rcases List.mem_cons.mp h with rfl | h
    · exact hstart
    · exact ih (fun n hn => hadv n (List.mem_cons_of_mem _ hn))
        ((Nat.dvd_add_iff_right hstart).mp (hadv n List.mem_cons_self)) h

/-- From inside a region, regions apart from it do not lead out: they are all empty. -/
theorem final_of_apart (hzero : adv 0 = 0) (hin : b.Mem start)
    (h : ∀ c ∈ layout adv start ns, Apart b c) : final adv start ns = start := by
  induction ns with
  | nil => rfl
  | cons n ns ih =>
    have hn : n = 0 := size_eq_zero_of_apart (h ⟨start, n⟩ List.mem_cons_self) hin
    rw [hn, layout, hzero, Nat.add_zero] at h
    rw [hn, final, hzero, Nat.add_zero]
    exact ih fun c hc => h c (List.mem_cons_of_mem _ hc)

/-- The first region, and the others. -/
theorem separate_cons : Separate adv start (n :: ns) ↔
    ((∀ c ∈ layout adv (start + adv n) ns, Apart ⟨start, n⟩ c) ∧
      start + n ≤ final adv (start + adv n) ns) ∧ Separate adv (start + adv n) ns := by
  rw [Separate, Separate, layout, final, List.pairwise_cons, List.forall_mem_cons]
  exact ⟨fun ⟨⟨h₁, h₂⟩, h₃, h₄⟩ => ⟨⟨h₁, h₃⟩, h₂, h₄⟩,
    fun ⟨⟨h₁, h₃⟩, h₂, h₄⟩ => ⟨⟨h₁, h₂⟩, h₃, h₄⟩⟩

/-- **The regions are apart and behind the end** exactly when no move is too short. -/
theorem layout_separate_iff (hzero : adv 0 = 0) :
    Separate adv start ns ↔ ∀ n ∈ ns, n ≤ adv n := by
  induction ns generalizing start with
  | nil =>
    exact ⟨fun _ => List.forall_mem_nil _,
      fun _ => ⟨List.Pairwise.nil, List.forall_mem_nil _⟩⟩
  | cons n ns ih =>
    rw [separate_cons, ih, List.forall_mem_cons]
    refine and_congr_left fun _ => ⟨?_, fun hn => ⟨fun c hc => ?_, ?_⟩⟩
    · rintro ⟨hapart, hend⟩
      by_contra hshort
      have hin : Block.Mem ⟨start, n⟩ (start + adv n) :=
        ⟨Nat.le_add_right _ _, Nat.add_lt_add_left (Nat.not_le.mp hshort) start⟩
      rw [final_of_apart hzero hin hapart] at hend
      exact hshort (Nat.le_of_add_le_add_left hend)
    · exact apart_of_le (Nat.le_trans (Nat.add_le_add_left hn start) (le_base_of_mem hc))
    · exact Nat.le_trans (Nat.add_le_add_left hn start) (le_final ns _)

end Bump
