/-
# Packed structs in a byte memory

A packed struct is its members in order with their sizes in bytes.  The offset of a member is
the size of all before it, nothing is between two of them, and a member is read and written as
a little-endian word.

Two members never overlap (`offsetOf_disjoint`), so that a store into one is read back from it
and leaves the others (`get_set_self`, `get_set_of_ne`).
-/
import Philix.Lib.ByteMem

namespace Packed

open ByteMem

variable {α : Type} [DecidableEq α] {f g : α} {l : List (α × Nat)}

/-! ## 1. The layout -/

/-- The bytes in front of a member. -/
def offsetOf (f : α) : List (α × Nat) → Nat
  | [] => 0
  | (g, n) :: l => if f = g then 0 else n + offsetOf f l

/-- The bytes of a member. -/
def sizeOf (f : α) : List (α × Nat) → Nat
  | [] => 0
  | (g, n) :: l => if f = g then n else sizeOf f l

/-- The bytes of the struct. -/
def total : List (α × Nat) → Nat
  | [] => 0
  | (_, n) :: l => n + total l

theorem offsetOf_add_sizeOf_le (f : α) (l : List (α × Nat)) :
    offsetOf f l + sizeOf f l ≤ total l := by
  induction l with
  | nil => exact Nat.le_refl 0
  | cons p l ih =>
    obtain ⟨g, n⟩ := p
    rw [offsetOf, sizeOf, total]
    by_cases h : f = g
    · rw [if_pos h, if_pos h]
      omega
    · rw [if_neg h, if_neg h]
      omega

/-- **Members do not overlap.** -/
theorem offsetOf_disjoint (h : f ≠ g) (l : List (α × Nat)) :
    offsetOf f l + sizeOf f l ≤ offsetOf g l ∨ offsetOf g l + sizeOf g l ≤ offsetOf f l := by
  induction l with
  | nil => exact Or.inl (Nat.le_refl 0)
  | cons p l ih =>
    obtain ⟨k, n⟩ := p
    simp only [offsetOf, sizeOf]
    by_cases hf : f = k
    · rw [if_pos hf, if_pos hf, if_neg fun hg => h (hf.trans hg.symm)]
      exact Or.inl (by omega)
    · rw [if_neg hf, if_neg hf]
      by_cases hg : g = k
      · rw [if_pos hg, if_pos hg]
        exact Or.inr (by omega)
      · rw [if_neg hg, if_neg hg]
        omega

/-! ## 2. Reading and writing members -/

/-- The member `f` of the struct at `base`. -/
def get (l : List (α × Nat)) (m : Mem) (base : Nat) (f : α) : Nat :=
  readLE m (sizeOf f l) (base + offsetOf f l)

def set (l : List (α × Nat)) (base : Nat) (f : α) (v : Nat) (m : Mem) : Mem :=
  writeLE (sizeOf f l) (base + offsetOf f l) v m

section Access

variable {m m' : Mem} {base v x : Nat}

/-- The bytes of a member are bytes of the struct. -/
theorem range_member (h : Range (base + offsetOf f l) (sizeOf f l) x) : Range base (total l) x :=
  h.mono (offsetOf_add_sizeOf_le f l)

/-- A read of the struct depends on its bytes only. -/
theorem get_congr (h : Agree (Range base (total l)) m m') (f : α) :
    get l m base f = get l m' base f :=
  readLE_congr (h.mono fun _ hx => range_member hx)

theorem set_of_not_range (h : ¬ Range base (total l) x) : set l base f v m x = m x :=
  writeLE_of_not_range fun hx => h (range_member hx)

theorem get_set_self (hsize : base + total l ≤ 18446744073709551616) :
    get l (set l base f v m) base f = v % 256 ^ sizeOf f l := by
  have hle := offsetOf_add_sizeOf_le f l
  exact readLE_writeLE (by omega)

theorem get_set_of_ne (hsize : base + total l ≤ 18446744073709551616) (h : g ≠ f) :
    get l (set l base f v m) base g = get l m base g := by
  have hf := offsetOf_add_sizeOf_le f l
  have hg := offsetOf_add_sizeOf_le g l
  refine readLE_congr fun x hx => writeLE_of_not_range fun hx' => ?_
  rw [range_iff (by omega)] at hx hx'
  have hdis := offsetOf_disjoint h l
  omega

end Access

end Packed
