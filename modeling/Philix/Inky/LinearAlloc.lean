/-
# Memory for the segments: `linear_alloc`

`linear_alloc` moves `phys_alloc_start` on by the pages of a segment, but counts them in 32 bits
and multiplies in 32 bits.  From 4 GiB on it moves on by too little, and the next segment is
given memory that the one before it has.
-/
import Philix.Lib.Bump
import Philix.Inky.Loader
import Mathlib.Algebra.GroupWithZero.Nat

namespace Philix.Inky

open ByteMem Loop Bump

/-- The arguments of a call: `base`, `size` and `flags`. -/
structure Request where
  base : Nat
  size : Nat
  flags : Nat

/-- Calls one after another: the regions that they return, and the state they leave. -/
def allocAll {ε σ : Type} (alloc : Allocator ε σ) : List Request → σ → Except ε (List Block × σ)
  | [], s => .ok ([], s)
  | r :: rs, s => do
    let (ret, s) ← alloc s r.base r.size r.flags
    let (bs, s) ← allocAll alloc rs s
    pure (⟨ret, r.size⟩ :: bs, s)

/-- A size rounded up to whole pages. -/
def pageBytes (size : Nat) : Nat := (size + (basePageSize - 1)) / basePageSize * basePageSize

/-! ## 1. How far one call moves on -/

theorem allocSize_zero : allocSize 0 = 0 := rfl

theorem allocSize_eq (size : Nat) : allocSize size = pageBytes size % 2 ^ 32 := by
  simp only [allocSize, pageBytes, basePageSize, wrap]
  omega

theorem allocSize_le (size : Nat) : allocSize size ≤ pageBytes size := by
  rw [allocSize_eq]
  exact Nat.mod_le _ _

theorem dvd_allocSize (size : Nat) : basePageSize ∣ allocSize size := by
  simp only [allocSize, basePageSize]
  omega

/-- Far enough for the segment, unless its pages make up 4 GiB. -/
theorem le_allocSize_iff (size : Nat) : size ≤ allocSize size ↔ size ≤ 0xFFFFF000 := by
  rw [allocSize_eq]
  simp only [pageBytes, basePageSize]
  omega

/-! ## 2. Many calls -/

/-- **Calls whose pages fit behind `phys_alloc_start`** lay out the segments. -/
theorem allocAll_linearAlloc {rs : List Request} {start : Nat}
    (h : start + (rs.map fun r => pageBytes r.size).sum < 2 ^ 64) :
    allocAll linearAlloc rs start =
      .ok (layout allocSize start (rs.map Request.size),
        final allocSize start (rs.map Request.size)) := by
  induction rs generalizing start with
  | nil => rfl
  | cons r rs ih =>
    rw [List.map_cons, List.sum_cons] at h
    have hle := allocSize_le r.size
    have hrest : allocAll linearAlloc rs (start + allocSize r.size) = _ := ih (by omega)
    have hcall : linearAlloc start r.base r.size r.flags =
        .ok (start, start + allocSize r.size) := by
      rw [linearAlloc, wrap_of_lt (by omega)]
    rw [allocAll, hcall, ok_bind]
    dsimp only
    rw [hrest]
    rfl

/-- **Successive allocations are apart** exactly when the pages of each segment make up less than
4 GiB. -/
theorem linear_alloc_separate_iff (rs : List Request)
    (htotal : (rs.map fun r => pageBytes r.size).sum < 2 ^ 64 - kernelStart) :
    ∃ bs physAllocStart, allocAll linearAlloc rs kernelStart = .ok (bs, physAllocStart) ∧
      bs.map Block.size = rs.map Request.size ∧
      ((bs.Pairwise Apart ∧ (∀ b ∈ bs, b.base % basePageSize = 0) ∧
          ∀ b ∈ bs, b.stop ≤ physAllocStart) ↔
        ∀ r ∈ rs, r.size ≤ 0xFFFFF000) := by
  have hstart : kernelStart = 0x1000000 := rfl
  refine ⟨_, _, allocAll_linearAlloc (by omega), map_size_layout _ _, ?_⟩
  have haligned : ∀ b ∈ layout allocSize kernelStart (rs.map Request.size),
      b.base % basePageSize = 0 := fun b hb =>
    Nat.mod_eq_zero_of_dvd (dvd_base (fun n _ => dvd_allocSize n) (by decide) hb)
  have hseparate : Separate allocSize kernelStart (rs.map Request.size) ↔ _ :=
    layout_separate_iff allocSize_zero
  rw [List.forall_mem_map] at hseparate
  rw [and_iff_right haligned, ← Separate, hseparate]
  exact forall₂_congr fun r _ => le_allocSize_iff r.size

/-- A page of code and less than a page of data. -/
theorem linear_alloc_separate_two_segments :
    ∃ bs physAllocStart,
      allocAll linearAlloc [⟨0, 0x1000, 5⟩, ⟨0x1000, 0x801, 6⟩] kernelStart =
        .ok (bs, physAllocStart) ∧
      bs.map Block.size = [0x1000, 0x801] ∧
      ((bs.Pairwise Apart ∧ (∀ b ∈ bs, b.base % basePageSize = 0) ∧
          ∀ b ∈ bs, b.stop ≤ physAllocStart) ↔
        ∀ r ∈ [(⟨0, 0x1000, 5⟩ : Request), ⟨0x1000, 0x801, 6⟩], r.size ≤ 0xFFFFF000) :=
  linear_alloc_separate_iff [⟨0, 0x1000, 5⟩, ⟨0x1000, 0x801, 6⟩] (by decide)

/-- A segment of 4 GiB does not move `phys_alloc_start`; the next one starts where it does. -/
theorem four_gib_overlapped :
    allocAll linearAlloc [⟨0, 0x100000000, 6⟩, ⟨0x100000000, 0x1000, 5⟩] kernelStart =
      .ok ([⟨0x1000000, 0x100000000⟩, ⟨0x1000000, 0x1000⟩], 0x1001000) ∧
    pageBytes 0x100000000 + pageBytes 0x1000 < 2 ^ 64 - kernelStart ∧
    ¬ Apart ⟨0x1000000, 0x100000000⟩ ⟨0x1000000, 0x1000⟩ ∧
    ¬ Block.stop ⟨0x1000000, 0x100000000⟩ ≤ 0x1001000 := by
  refine ⟨by decide, by decide, fun h => ?_, by decide⟩
  exact h 0x1000000 ⟨Nat.le_refl _, by decide⟩ ⟨Nat.le_refl _, by decide⟩

end Philix.Inky
