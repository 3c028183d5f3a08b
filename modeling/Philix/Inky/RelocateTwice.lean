/-
# Relocating twice

`elf64_relocate` adds to the word of a relative entry and overwrites the word of an absolute
one.  When no two entries store in the same place, an image moved from `src` to `mid` and then
from `mid` to `dst` is the image moved from `src` to `dst`: the entries of the two runs can be
interleaved, and the two visits of one entry compose, `dst - mid` and `mid - src` to
`dst - src`.
-/
import Philix.Inky.Sample

namespace Philix.Inky

open ByteMem

/-! ## 1. What one entry stores -/

section Entry

variable (m₀ : Mem) (base abase rela symtab symsize start vbase : Nat)

/-- The entry has a target: its type is not `R_X86_64_NONE`. -/
def HasTarget (i : Nat) : Prop :=
  rType m₀ (entry rela i) = rX866464 ∨ rType m₀ (entry rela i) = rX8664Relative

/-- The word the entry leaves in its target, when `old` was there. -/
def newWord (i old : Nat) : Nat :=
  if rType m₀ (entry rela i) = rX866464 then entryValue m₀ abase rela symtab i
  else wrap (old + base)

/-- The addresses of the two tables. -/
def TableBytes (size x : Nat) : Prop :=
  Range rela (sizeofRela * (size / sizeofRela)) x ∨
    Range symtab (sizeofSym * (symsize / sizeofSym)) x

/-- A table `elf64_relocate` gets through without disturbing itself: fewer than `2^31`
entries, of the three types and with symbols in range, whose targets are disjoint from one
another and from the two tables. -/
structure Relocatable (size : Nat) : Prop where
  count_lt : size / sizeofRela < 2147483648
  ok : ∀ i < size / sizeofRela, EntryOk m₀ rela symsize i
  targets : ∀ j < size / sizeofRela, ∀ i < j, HasTarget m₀ rela i → HasTarget m₀ rela j →
    ∀ x, Range (entryAddr m₀ rela start vbase j) 8 x →
      ¬ Range (entryAddr m₀ rela start vbase i) 8 x
  tables : ∀ i < size / sizeofRela, HasTarget m₀ rela i →
    ∀ x, Range (entryAddr m₀ rela start vbase i) 8 x →
      ¬ TableBytes rela symtab symsize size x

end Entry

section Compose

variable {m₀ m : Mem} {base base₁ base₂ abase abase₁ rela symtab symsize start vbase n i j : Nat}

theorem Active.hasTarget (h : Active m₀ base rela i) : HasTarget m₀ rela i := h.imp id And.left

theorem applyEntry_of_hasTarget (h : HasTarget m₀ rela i) (m : Mem) :
    applyEntry m₀ base abase rela symtab start vbase i m =
      writeLE 8 (entryAddr m₀ rela start vbase i)
        (newWord m₀ base abase rela symtab i
          (readLE m 8 (entryAddr m₀ rela start vbase i))) m := by
  unfold applyEntry newWord
  rcases h with h | h
  · rw [if_pos h, if_pos h]
  · have hne : rType m₀ (entry rela i) ≠ rX866464 := by
      rw [h]
      decide
    rw [if_neg hne, if_pos h, if_neg hne]

theorem applyEntry_of_not_hasTarget (h : ¬ HasTarget m₀ rela i) (m : Mem) :
    applyEntry m₀ base abase rela symtab start vbase i m = m := by
  rw [HasTarget, not_or] at h
  rw [applyEntry, if_neg h.1, if_neg h.2]

/-! ## 2. One entry visited twice -/

theorem newWord_comp (hbase : wrap (base₁ + base₂) = wrap base) (old : Nat) :
    newWord m₀ base₂ abase rela symtab i
        (newWord m₀ base₁ abase₁ rela symtab i old % 256 ^ 8) =
      newWord m₀ base abase rela symtab i old := by
  unfold newWord
  split
  · rfl
  · have hpow : wrap (old + base₁) % 256 ^ 8 = wrap (old + base₁) := wrap_wrap _
    rw [hpow, wrap_add_left, Nat.add_assoc, Nat.add_comm old, ← wrap_add_left, hbase,
      wrap_add_left, Nat.add_comm]

/-- **The two visits of an entry compose.** -/
theorem applyEntry_comp (hbase : wrap (base₁ + base₂) = wrap base) (i : Nat) (m : Mem) :
    applyEntry m₀ base₂ abase rela symtab start vbase i
        (applyEntry m₀ base₁ abase₁ rela symtab start vbase i m) =
      applyEntry m₀ base abase rela symtab start vbase i m := by
  by_cases h : HasTarget m₀ rela i
  · rw [applyEntry_of_hasTarget h, applyEntry_of_hasTarget h, applyEntry_of_hasTarget h,
      readLE_writeLE (by decide), newWord_comp hbase, writeLE_writeLE]
  · rw [applyEntry_of_not_hasTarget h, applyEntry_of_not_hasTarget h, applyEntry_of_not_hasTarget h]

/-! ## 3. Entries of the two runs interleaved -/

/-- Entries with disjoint targets commute. -/
theorem applyEntry_comm (hdis : HasTarget m₀ rela i → HasTarget m₀ rela j →
      ∀ x, Range (entryAddr m₀ rela start vbase j) 8 x →
        ¬ Range (entryAddr m₀ rela start vbase i) 8 x) (m : Mem) :
    applyEntry m₀ base₁ abase₁ rela symtab start vbase j
        (applyEntry m₀ base₂ abase rela symtab start vbase i m) =
      applyEntry m₀ base₂ abase rela symtab start vbase i
        (applyEntry m₀ base₁ abase₁ rela symtab start vbase j m) := by
  by_cases hi : HasTarget m₀ rela i
  · by_cases hj : HasTarget m₀ rela j
    · have hd := hdis hi hj
      have hd' : ∀ x, Range (entryAddr m₀ rela start vbase i) 8 x →
          ¬ Range (entryAddr m₀ rela start vbase j) 8 x := fun x hx hx' => hd x hx' hx
      -- neither reads what the other writes
      have hread : ∀ {a b : Nat} (v : Nat), (∀ x, Range a 8 x → ¬ Range b 8 x) →
          readLE (writeLE 8 b v m) 8 a = readLE m 8 a := fun v h =>
        readLE_congr fun x hx => writeLE_of_not_range (h x hx)
      rw [applyEntry_of_hasTarget hi, applyEntry_of_hasTarget hj, applyEntry_of_hasTarget hj,
        applyEntry_of_hasTarget hi, hread _ hd, hread _ hd', writeLE_comm hd]
    · rw [applyEntry_of_not_hasTarget hj, applyEntry_of_not_hasTarget hj]
  · rw [applyEntry_of_not_hasTarget hi, applyEntry_of_not_hasTarget hi]

/-- The first visit of an entry can wait for the second visits of the entries before it. -/
theorem applyEntry_applyEntries (hdis : ∀ i < n, HasTarget m₀ rela i → HasTarget m₀ rela j →
      ∀ x, Range (entryAddr m₀ rela start vbase j) 8 x →
        ¬ Range (entryAddr m₀ rela start vbase i) 8 x) (m : Mem) :
    applyEntries m₀ base₂ abase rela symtab start vbase n
        (applyEntry m₀ base₁ abase₁ rela symtab start vbase j m) =
      applyEntry m₀ base₁ abase₁ rela symtab start vbase j
        (applyEntries m₀ base₂ abase rela symtab start vbase n m) := by
  induction n with
  | zero => rfl
  | succ n ih =>
    have ih := ih fun i hi => hdis i (Nat.lt_succ_of_lt hi)
    rw [applyEntries, applyEntries, ih, applyEntry_comm (hdis n (Nat.lt_succ_self n))]

/-- **The two runs compose**, entry by entry. -/
theorem applyEntries_comp (hbase : wrap (base₁ + base₂) = wrap base)
    (hdis : ∀ j < n, ∀ i < j, HasTarget m₀ rela i → HasTarget m₀ rela j →
      ∀ x, Range (entryAddr m₀ rela start vbase j) 8 x →
        ¬ Range (entryAddr m₀ rela start vbase i) 8 x) (m : Mem) :
    applyEntries m₀ base₂ abase rela symtab start vbase n
        (applyEntries m₀ base₁ abase₁ rela symtab start vbase n m) =
      applyEntries m₀ base abase rela symtab start vbase n m := by
  induction n with
  | zero => rfl
  | succ n ih =>
    have ih := ih fun j hj => hdis j (Nat.lt_succ_of_lt hj)
    calc applyEntries m₀ base₂ abase rela symtab start vbase (n + 1)
          (applyEntries m₀ base₁ abase₁ rela symtab start vbase (n + 1) m)
        = applyEntry m₀ base₂ abase rela symtab start vbase n
            (applyEntry m₀ base₁ abase₁ rela symtab start vbase n
              (applyEntries m₀ base₂ abase rela symtab start vbase n
                (applyEntries m₀ base₁ abase₁ rela symtab start vbase n m))) := by
          rw [applyEntries, applyEntries,
            applyEntry_applyEntries (hdis n (Nat.lt_succ_self n))]
      _ = applyEntry m₀ base abase rela symtab start vbase n
            (applyEntries m₀ base abase rela symtab start vbase n m) := by
          rw [ih, applyEntry_comp hbase]

/-! ## 4. The function, run twice -/

theorem sub64_add_sub64 {src mid dst : Nat} (hmid : mid < 18446744073709551616) :
    wrap (sub64 mid src + sub64 dst mid) = wrap (sub64 dst src) := by
  simp only [sub64, wrap]
  omega

theorem Relocatable.storesAvoid {size : Nat}
    (R : Relocatable m rela symtab symsize start vbase size) (base : Nat) :
    StoresAvoid (TableBytes rela symtab symsize size) m base rela symsize start vbase
      (size / sizeofRela) :=
  fun i hi _ hact x hx => R.tables i hi hact.hasTarget x hx

/-- The entries and their symbols are in the tables. -/
theorem coversEntries_tableBytes {size : Nat} :
    CoversEntries (TableBytes rela symtab symsize size) m rela (size / sizeofRela) symtab
      symsize := by
  rintro i hi x (hx | ⟨-, hs, hx | hx⟩)
  · exact Or.inl (hx.element (j := 0) hi (by decide))
  · exact Or.inr (hx.element hs (by decide))
  · exact Or.inl (hx.element hi (by decide))

/-- **Relocating twice is relocating once.**  From `src` to `mid` and from there to `dst`, with
the same tables, leaves the memory that one run from `src` to `dst` leaves; it differs from
the memory before in the targets only. -/
theorem relocate_twice (src mid dst start vbase rela size symtab symsize : Nat) (m : Mem)
    (hmid : mid < 18446744073709551616)
    (R : Relocatable m rela symtab symsize start vbase size) :
    ∃ m₁ m₂, elf64Relocate mid src rela size symtab symsize start vbase m = .ok m₁ ∧
      elf64Relocate dst mid rela size symtab symsize start vbase m₁ = .ok m₂ ∧
      elf64Relocate dst src rela size symtab symsize start vbase m = .ok m₂ ∧
      ∀ x, (∀ i < size / sizeofRela, HasTarget m rela i →
        ¬ Range (entryAddr m rela start vbase i) 8 x) → m₂ x = m x := by
  have C := @coversEntries_tableBytes m rela symtab symsize size
  have hag : Agree (TableBytes rela symtab symsize size) m m := Agree.refl _ m
  have hone : ∀ b a, elf64Relocate b a rela size symtab symsize start vbase m =
      .ok (applyEntries m (sub64 b a) (sub64 b start) rela symtab start vbase
        (size / sizeofRela) m) :=
    fun _ _ => (relocate_iff C hag (R.storesAvoid _)).mpr ⟨R.ok, rfl⟩
  have hag₁ : Agree (TableBytes rela symtab symsize size) m
      (applyEntries m (sub64 mid src) (sub64 mid start) rela symtab start vbase
        (size / sizeofRela) m) :=
    applyEntries_agree (R.storesAvoid _) R.ok hag
  refine ⟨_, _, hone mid src, ?_, hone dst src, ?_⟩
  · -- the tables are as they were, so the second run reads the same entries
    refine (relocate_iff C hag₁ (R.storesAvoid _)).mpr ⟨R.ok, ?_⟩
    exact applyEntries_comp (sub64_add_sub64 hmid) R.targets m
  · intro x hx
    exact applyEntries_frame fun i hi hact => hx i hi hact.hasTarget

end Compose

/-- Two relocations, an absolute one with the second symbol and a relative one, then the two
symbols; the targets come after. -/
def twoEntries : Mem :=
  asMem (leBytes 8 8 ++ leBytes 8 0x100000001 ++ leBytes 8 5 ++
    leBytes 8 16 ++ leBytes 8 8 ++ leBytes 8 0 ++
    leBytes 24 0 ++ leBytes 8 0 ++ leBytes 8 0x400123 ++ leBytes 8 0 ++ leBytes 24 0)

theorem relocatable_twoEntries : Relocatable twoEntries 0 48 48 0 96 48 := by
  have h₀ : entryAddr twoEntries 0 0 96 0 = 104 := by decide
  have h₁ : entryAddr twoEntries 0 0 96 1 = 112 := by decide
  have hn : 48 / sizeofRela = 2 := rfl
  refine ⟨by decide, ?_, ?_, ?_⟩
  · intro i hi
    rw [hn] at hi
    obtain rfl | rfl : i = 0 ∨ i = 1 := by omega
    · exact Or.inr (Or.inl (by decide))
    · exact Or.inr (Or.inr (by decide))
  · intro j hj i hij _ _ x hx
    obtain ⟨rfl, rfl⟩ : i = 0 ∧ j = 1 := by omega
    rw [h₁, range_iff (by decide)] at hx
    rw [h₀, range_iff (by decide)]
    omega
  · intro i hi _ x hx
    rw [TableBytes, range_iff (by decide), range_iff (by decide)]
    have hsizes : sizeofRela * (48 / sizeofRela) = 48 ∧ sizeofSym * (48 / sizeofSym) = 48 :=
      ⟨rfl, rfl⟩
    rw [hn] at hi
    obtain rfl | rfl : i = 0 ∨ i = 1 := by omega
    · rw [h₀, range_iff (by decide)] at hx
      omega
    · rw [h₁, range_iff (by decide)] at hx
      omega

theorem relocate_twice_two_entries :
    ∃ m₁ m₂, elf64Relocate 0x800000 0x400000 0 48 48 48 0 96 twoEntries = .ok m₁ ∧
      elf64Relocate 0x200000 0x800000 0 48 48 48 0 96 m₁ = .ok m₂ ∧
      elf64Relocate 0x200000 0x400000 0 48 48 48 0 96 twoEntries = .ok m₂ ∧
      ∀ x, (∀ i < 48 / sizeofRela, HasTarget twoEntries 0 i →
        ¬ Range (entryAddr twoEntries 0 0 96 i) 8 x) → m₂ x = twoEntries x :=
  relocate_twice 0x400000 0x800000 0x200000 0 96 0 48 48 48 twoEntries (by decide)
    relocatable_twoEntries

end Philix.Inky
