/-
# Loading with the headers and tables of an untouched image

`elf64_load` reads its headers and tables again and again while it writes memory.  The
definitions here read them all from one memory `m₀`, the one it was called with, and only
write the other.  As long as no write falls on what is still to be read, the two do the same:
`relocate_iff`, `place_iff` and `loadSegment_iff`.

What is still to be read gets less from header to header.  `StillRead i` is what the loop reads
from the round of header `i` on, and `RestReads` what a round reads once it has begun to write.
A family of sets `S i` with all of it (`Covers`) is what a proof keeps unchanged.
-/
import Philix.Inky.Elf64
import Philix.Lib.Lts

namespace Philix.Inky

open ByteMem Loop

/-! ## 1. Relocation entries -/

section Entries

variable (m₀ : Mem) (base abase rela symtab symsize start vbase : Nat)

/-- The `i`th relocation. -/
def entry (i : Nat) : Nat := rela + sizeofRela * i

/-- The entry has one of the three types, and a valid symbol when it needs one. -/
def EntryOk (i : Nat) : Prop :=
  rType m₀ (entry rela i) = rX8664None ∨
    rType m₀ (entry rela i) = rX866464 ∧ rSym m₀ (entry rela i) < symsize / sizeofSym ∨
    rType m₀ (entry rela i) = rX8664Relative

/-- Where the entry stores. -/
def entryAddr (i : Nat) : Nat := sub64 (vbase + rOffset m₀ (entry rela i)) start

/-- What an `R_X86_64_64` entry stores. -/
def entryValue (i : Nat) : Nat :=
  wrap (abase + stValue m₀ (symtab + sizeofSym * rSym m₀ (entry rela i)) +
    rAddend m₀ (entry rela i))

def applyEntry (i : Nat) (m : Mem) : Mem :=
  if rType m₀ (entry rela i) = rX866464 then
    writeLE 8 (entryAddr m₀ rela start vbase i) (entryValue m₀ abase rela symtab i) m
  else if rType m₀ (entry rela i) = rX8664Relative then
    writeLE 8 (entryAddr m₀ rela start vbase i)
      (wrap (readLE m 8 (entryAddr m₀ rela start vbase i) + base)) m
  else m

/-- The first `n` entries in order. -/
def applyEntries : Nat → Mem → Mem
  | 0, m => m
  | n + 1, m =>
    applyEntry m₀ base abase rela symtab start vbase n (applyEntries n m)

/-- The entry changes memory. -/
def Active (i : Nat) : Prop :=
  rType m₀ (entry rela i) = rX866464 ∨ rType m₀ (entry rela i) = rX8664Relative ∧ base ≠ 0

end Entries

section Relocate

variable {S : Nat → Prop} {m₀ m m' : Mem} {base abase rela symtab symsize start vbase n i : Nat}

theorem wrap_readLE (m : Mem) (a : Nat) : wrap (readLE m 8 a) = readLE m 8 a :=
  wrap_of_lt (readLE_lt 8 a)

/-- An entry writes its own eight bytes at most, and nothing when it is not active. -/
theorem applyEntry_frame {x : Nat}
    (hx : Active m₀ base rela i → ¬ Range (entryAddr m₀ rela start vbase i) 8 x) :
    applyEntry m₀ base abase rela symtab start vbase i m x = m x := by
  rw [applyEntry]
  split
  case isTrue h => exact writeLE_of_not_range (hx (Or.inl h))
  case isFalse h =>
    split
    case isTrue h' =>
      by_cases hbase : base = 0
      · rw [hbase, Nat.add_zero, wrap_readLE, writeLE_readLE]
      · exact writeLE_of_not_range (hx (Or.inr ⟨h', hbase⟩))
    case isFalse => rfl

theorem applyEntries_frame {x : Nat} : ∀ {n : Nat}, (∀ i < n, Active m₀ base rela i →
    ¬ Range (entryAddr m₀ rela start vbase i) 8 x) →
    applyEntries m₀ base abase rela symtab start vbase n m x = m x
  | 0, _ => rfl
  | n + 1, hx => by
    rw [applyEntries, applyEntry_frame (hx n (by omega)),
      applyEntries_frame fun i hi => hx i (by omega)]

/-- What is read for the `i`th relocation: its offset and its type; for an `R_X86_64_64` one with
a symbol of the table, also the value of the symbol and the addend. -/
def EntryReads (m₀ : Mem) (rela symtab symsize i x : Nat) : Prop :=
  Range (entry rela i) 16 x ∨
    rType m₀ (entry rela i) = rX866464 ∧ rSym m₀ (entry rela i) < symsize / sizeofSym ∧
      (Range (symtab + sizeofSym * rSym m₀ (entry rela i) + 8) 8 x ∨ Range (entry rela i + 16) 8 x)

/-- `S` holds what is read for the first `n` relocations. -/
def CoversEntries (S : Nat → Prop) (m₀ : Mem) (rela n symtab symsize : Nat) : Prop :=
  ∀ i < n, ∀ x, EntryReads m₀ rela symtab symsize i x → S x

/-- The offset, the type and the symbol of an untouched entry. -/
theorem entry_frozen (C : ∀ x, EntryReads m₀ rela symtab symsize i x → S x)
    (hag : Agree S m₀ m) : rOffset m (entry rela i) = rOffset m₀ (entry rela i) ∧
      rType m (entry rela i) = rType m₀ (entry rela i) ∧
      rSym m (entry rela i) = rSym m₀ (entry rela i) := by
  have hinfo : rInfo m (entry rela i) = rInfo m₀ (entry rela i) :=
    hag.readLE fun x hx => C x (Or.inl (hx.mono (by decide)))
  refine ⟨hag.readLE fun x hx => C x (Or.inl (hx.of_le (by decide))), ?_, ?_⟩
  · rw [rType, hinfo, rType]
  · rw [rSym, hinfo, rSym]

/-- One round with an untouched entry. -/
theorem relocateEntry_iff (C : ∀ x, EntryReads m₀ rela symtab symsize i x → S x)
    (hag : Agree S m₀ m) :
    relocateEntry base abase rela symtab symsize start vbase i m = .ok m' ↔
      EntryOk m₀ rela symsize i ∧
        applyEntry m₀ base abase rela symtab start vbase i m = m' := by
  obtain ⟨hoff, htype, hsym⟩ := entry_frozen C hag
  have hadd : rType m₀ (entry rela i) = rX866464 →
      rSym m₀ (entry rela i) < symsize / sizeofSym →
      rAddend m (entry rela i) = rAddend m₀ (entry rela i) := fun h1 hs =>
    hag.readLE fun x hx => C x (Or.inr ⟨h1, hs, Or.inr hx⟩)
  have hval : rType m₀ (entry rela i) = rX866464 →
      rSym m₀ (entry rela i) < symsize / sizeofSym →
      stValue m (symtab + sizeofSym * rSym m₀ (entry rela i)) =
        stValue m₀ (symtab + sizeofSym * rSym m₀ (entry rela i)) := fun h1 hs =>
    hag.readLE fun x hx => C x (Or.inr ⟨h1, hs, Or.inl hx⟩)
  have hr : rela + sizeofRela * i = entry rela i := rfl
  simp only [relocateEntry, hr, htype, hsym, hoff, EntryOk, applyEntry, entryAddr, entryValue]
  by_cases h0 : rType m₀ (entry rela i) = rX8664None
  · simp [h0, rX8664None, rX866464, rX8664Relative]
  by_cases h1 : rType m₀ (entry rela i) = rX866464
  · by_cases hs : rSym m₀ (entry rela i) < symsize / sizeofSym
    · simp [h1, hs, hval h1 hs, hadd h1 hs, assert_of, rX8664None, rX866464]
    · simp [h1, hs, assert, rX8664None, rX866464, rX8664Relative]
  by_cases h8 : rType m₀ (entry rela i) = rX8664Relative
  · simp [h8, rX8664None, rX866464, rX8664Relative]
  · simp [h0, h1, h8]

/-- No active entry stores into `S`, up to one that stops the loader. -/
def StoresAvoid (S : Nat → Prop) (m₀ : Mem) (base rela symsize start vbase n : Nat) : Prop :=
  ∀ i < n, (∀ j ≤ i, EntryOk m₀ rela symsize j) → Active m₀ base rela i →
    ∀ x, Range (entryAddr m₀ rela start vbase i) 8 x → ¬ S x

theorem applyEntries_agree (hst : StoresAvoid S m₀ base rela symsize start vbase n)
    (hok : ∀ i < n, EntryOk m₀ rela symsize i) (hag : Agree S m₀ m) :
    Agree S m₀ (applyEntries m₀ base abase rela symtab start vbase n m) :=
  hag.frame fun x hx => applyEntries_frame fun i hi hact hr =>
    hst i hi (fun j hj => hok j (Nat.lt_of_le_of_lt hj hi)) hact x hr hx

/-- The first `i` rounds of `elf64_relocate` on an untouched table. -/
theorem relocateEntries_iff (C : CoversEntries S m₀ rela n symtab symsize) (hag : Agree S m₀ m)
    (hst : StoresAvoid S m₀ base rela symsize start vbase n) (hi : i ≤ n) :
    forLoop (relocateEntry base abase rela symtab symsize start vbase) i 0 m = .ok m' ↔
      (∀ j < i, EntryOk m₀ rela symsize j) ∧
        applyEntries m₀ base abase rela symtab start vbase i m = m' := by
  have hround : ∀ j m₁ m₂, j < n → (∀ k < j, EntryOk m₀ rela symsize k) →
      applyEntries m₀ base abase rela symtab start vbase j m = m₁ →
      (relocateEntry base abase rela symtab symsize start vbase j m₁ = .ok m₂ ↔
        EntryOk m₀ rela symsize j ∧
        applyEntries m₀ base abase rela symtab start vbase (j + 1) m = m₂) := by
    rintro j m₁ m₂ hj hok rfl
    exact relocateEntry_iff (C j hj)
      (applyEntries_agree (fun k hk => hst k (Nat.lt_trans hk hj)) hok hag)
  constructor
  · intro h
    have hend := forLoop_of_ok (I := fun j m₁ => (∀ k < j, EntryOk m₀ rela symsize k) ∧
      applyEntries m₀ base abase rela symtab start vbase j m = m₁) h
      ⟨by omega, rfl⟩ fun j m₁ m₂ _ hj hbody hI => by
        obtain ⟨hokj, hm₂⟩ := (hround j m₁ m₂ (by omega) hI.1 hI.2).mp hbody
        refine ⟨fun k hk => ?_, hm₂⟩
        rcases Nat.lt_succ_iff_lt_or_eq.mp hk with hk | rfl
        · exact hI.1 k hk
        · exact hokj
    rwa [Nat.zero_add] at hend
  · rintro ⟨hok, rfl⟩
    obtain ⟨m₁, h, hm₁⟩ := forLoop_ok (I := fun j m₁ =>
      applyEntries m₀ base abase rela symtab start vbase j m = m₁)
      (f := relocateEntry base abase rela symtab symsize start vbase)
      i 0 m rfl fun j m₁ _ hj hI =>
        ⟨_, (hround j m₁ _ (by omega) (fun k hk => hok k (by omega)) hI).mpr
          ⟨hok j (by omega), rfl⟩, rfl⟩
    rw [Nat.zero_add] at hm₁
    rw [h, hm₁]

/-- **`elf64_relocate` on an untouched table.** -/
theorem relocate_iff {dst src size : Nat}
    (C : CoversEntries S m₀ rela (size / sizeofRela) symtab symsize) (hag : Agree S m₀ m)
    (hst : StoresAvoid S m₀ (sub64 dst src) rela symsize start vbase (size / sizeofRela)) :
    elf64Relocate dst src rela size symtab symsize start vbase m = .ok m' ↔
      (∀ i < size / sizeofRela, EntryOk m₀ rela symsize i) ∧
        applyEntries m₀ (sub64 dst src) (sub64 dst start) rela symtab start vbase
          (size / sizeofRela) m = m' :=
  relocateEntries_iff C hag hst (Nat.le_refl _)

end Relocate

/-! ## 2. Segments -/

section Segments

variable (m₀ : Mem) (base : Nat) (t : Tables)

/-- Memory after the copy of the segment of `p`. -/
def copied (m : Mem) (base p dest : Nat) : Mem :=
  copy (pFilesz m p) dest (wrap (base + pOffset m p)) m

/-- Memory after the zero fill behind the copy; the sizes are read again. -/
def filled (m : Mem) (base p dest : Nat) : Mem :=
  fill 0 (sub64 (pMemsz (copied m base p dest) p) (pFilesz (copied m base p dest) p))
    (wrap (dest + pFilesz (copied m base p dest) p)) (copied m base p dest)

/-- The `i`th program header. -/
def phdr (i : Nat) : Nat := wrap (base + ePhoff m₀ base) + sizeofPhdr * i

/-- The first relocation. -/
def relaTable : Nat := wrap (base + shOffset m₀ t.rela)

/-- The first symbol. -/
def symTable : Nat := wrap (base + shOffset m₀ t.symtab)

/-- How many relocations are applied. -/
def relaCount : Nat := if t.rela ≠ 0 ∧ t.symtab ≠ 0 then t.relaSize / sizeofRela else 0

/-- Where the bytes of the segment are in the file. -/
def fileStart (p : Nat) : Nat := wrap (base + pOffset m₀ p)

/-- How many bytes of the segment are filled with zeroes. -/
def zeroSize (p : Nat) : Nat := sub64 (pMemsz m₀ p) (pFilesz m₀ p)

/-- Where the relocation stores while the segment of `p` is placed at `dest`. -/
def storeAddr (p dest i : Nat) : Nat := entryAddr m₀ (relaTable m₀ base t) (pVaddr m₀ p) dest i

/-- The segment of `p` at `dest` once it is copied and zero filled. -/
def fillSegment (p dest : Nat) (m : Mem) : Mem :=
  fill 0 (zeroSize m₀ p) (wrap (dest + pFilesz m₀ p))
    (copy (pFilesz m₀ p) dest (fileStart m₀ base p) m)

/-- The segment of `p` placed at `dest`. -/
def place (p dest : Nat) (m : Mem) : Mem :=
  applyEntries m₀ 0 0 (relaTable m₀ base t) (symTable m₀ base t) (pVaddr m₀ p) dest
    (relaCount t) (fillSegment m₀ base p dest m)

/-- Placing the segment does not stop the loader. -/
def PlaceOk (p dest : Nat) : Prop :=
  NoOverlap dest (fileStart m₀ base p) (pFilesz m₀ p) ∧
    ∀ i < relaCount t, EntryOk m₀ (relaTable m₀ base t) (shSize m₀ t.symtab) i

/-- What is read of the tables while a segment is relocated. -/
def TableReads (x : Nat) : Prop :=
  (t.rela ≠ 0 ∧ t.symtab ≠ 0) ∧ (Range (t.rela + 24) 8 x ∨ Range (t.symtab + 24) 16 x ∨
    ∃ i < relaCount t,
      EntryReads m₀ (relaTable m₀ base t) (symTable m₀ base t) (shSize m₀ t.symtab) i x)

/-- What is read in the round of the program header `p`, the file bytes of its segment apart. -/
def RoundReads (p x : Nat) : Prop :=
  Range p 4 x ∨ pType m₀ p = ptTls ∧ (Range (p + 16) 8 x ∨ Range (p + 32) 16 x) ∨
    pType m₀ p = ptLoad ∧ (Range (p + 4) 20 x ∨ Range (p + 32) 16 x ∨ TableReads m₀ base t x)

/-- What of it is read after the first write. -/
def RestReads (p x : Nat) : Prop :=
  Range (p + 32) 16 x ∨ (t.rela ≠ 0 ∧ t.symtab ≠ 0) ∧ Range (p + 16) 8 x ∨ TableReads m₀ base t x

/-- What the loop reads from the round of header `i` on, and what is read when it is done. -/
def StillRead (i x : Nat) : Prop :=
  Range (base + 24) 8 x ∨ Range (base + 56) 2 x ∨
    ∃ j, i ≤ j ∧ j < ePhnum m₀ base ∧ RoundReads m₀ base t (phdr m₀ base j) x

/-- `S i` holds what is still to be read when the loop gets to header `i`. -/
structure Covers (S : Nat → Nat → Prop) : Prop where
  still : ∀ {i x}, StillRead m₀ base t i x → S i x
  anti : ∀ {i x}, S (i + 1) x → S i x

/-- What is still to be read once the round of header `i` has begun to write. -/
def Later (S : Nat → Nat → Prop) (i x : Nat) : Prop :=
  RestReads m₀ base t (phdr m₀ base i) x ∨ S (i + 1) x

/-- What placing the segment of `p` at `dest` changes, as far as it gets. -/
def Overwrites (p dest x : Nat) : Prop :=
  NoOverlap dest (fileStart m₀ base p) (pFilesz m₀ p) ∧
    (Range dest (pFilesz m₀ p) x ∨ Range (wrap (dest + pFilesz m₀ p)) (zeroSize m₀ p) x ∨
      ∃ i < relaCount t,
        (∀ j ≤ i, EntryOk m₀ (relaTable m₀ base t) (shSize m₀ t.symtab) j) ∧
          rType m₀ (entry (relaTable m₀ base t) i) = rX866464 ∧
          Range (storeAddr m₀ base t p dest i) 8 x)

/-- None of it is in `S`. -/
def Apart (S : Nat → Prop) (p dest : Nat) : Prop := ∀ x, Overwrites m₀ base t p dest x → ¬ S x

end Segments

section Place

variable {S : Nat → Prop} {m₀ m m' : Mem} {base : Nat} {t : Tables} {i p dest : Nat}

theorem sub64_self {a : Nat} (h : a ≤ 18446744073709551616) : sub64 a a = 0 := by
  rw [sub64, Nat.add_sub_cancel' h]
  rfl

theorem StillRead.anti {x : Nat} (h : StillRead m₀ base t (i + 1) x) : StillRead m₀ base t i x := by
  rcases h with h | h | ⟨j, hij, hj, h⟩
  · exact Or.inl h
  · exact Or.inr (Or.inl h)
  · exact Or.inr (Or.inr ⟨j, Nat.le_of_succ_le hij, hj, h⟩)

/-- All that is read after the first write counts as read in the round. -/
theorem RestReads.round {x : Nat} (hload : pType m₀ p = ptLoad) (h : RestReads m₀ base t p x) :
    RoundReads m₀ base t p x := by
  rcases h with h | ⟨-, h⟩ | h
  · exact Or.inr (Or.inr ⟨hload, Or.inr (Or.inl h)⟩)
  · exact Or.inr (Or.inr ⟨hload, Or.inl (h.mono (k := 12) (by decide))⟩)
  · exact Or.inr (Or.inr ⟨hload, Or.inr (Or.inr h)⟩)

section Covers

variable {S : Nat → Nat → Prop} (C : Covers m₀ base t S)

include C

theorem Covers.ePhnum_eq (hag : Agree (S i) m₀ m) : ePhnum m base = ePhnum m₀ base :=
  hag.readLE fun _ hx => C.still (Or.inr (Or.inl hx))

theorem Covers.eEntry_eq (hag : Agree (S i) m₀ m) : eEntry m base = eEntry m₀ base :=
  hag.readLE fun _ hx => C.still (Or.inl hx)

/-- What the next round reads has not changed. -/
theorem Covers.round (hag : Agree (S i) m₀ m) (hi : i < ePhnum m₀ base) :
    Agree (RoundReads m₀ base t (phdr m₀ base i)) m₀ m :=
  hag.mono fun _ hx => C.still (Or.inr (Or.inr ⟨i, Nat.le_refl i, hi, hx⟩))

/-- What is read after the first write of a round counts as still to be read. -/
theorem Covers.of_later {x : Nat} (hi : i < ePhnum m₀ base)
    (hload : pType m₀ (phdr m₀ base i) = ptLoad) (h : Later m₀ base t S i x) : S i x := by
  rcases h with h | h
  · exact C.still (Or.inr (Or.inr ⟨i, Nat.le_refl i, hi, h.round hload⟩))
  · exact C.anti h

end Covers

/-- Fields of a header in its round. -/
theorem pType_frozen (hag : Agree (RoundReads m₀ base t p) m₀ m) : pType m p = pType m₀ p :=
  hag.readLE fun _ hx => Or.inl hx

theorem load_field (hag : Agree (RoundReads m₀ base t p) m₀ m) (hload : pType m₀ p = ptLoad)
    {k j : Nat} (hkj : 4 ≤ j ∧ j + k ≤ 24 ∨ 32 ≤ j ∧ j + k ≤ 48) :
    readLE m k (p + j) = readLE m₀ k (p + j) := by
  refine hag.readLE fun x hx => Or.inr (Or.inr ⟨hload, ?_⟩)
  rcases hkj with ⟨hj, hk⟩ | ⟨hj, hk⟩
  · rw [← Nat.add_sub_cancel' hj, ← Nat.add_assoc] at hx
    exact Or.inl (hx.mono (by omega))
  · rw [← Nat.add_sub_cancel' hj, ← Nat.add_assoc] at hx
    exact Or.inr (Or.inl (hx.mono (by omega)))

theorem tls_field (hag : Agree (RoundReads m₀ base t p) m₀ m) (htls : pType m₀ p = ptTls)
    {k j : Nat} (hkj : 16 ≤ j ∧ j + k ≤ 24 ∨ 32 ≤ j ∧ j + k ≤ 48) :
    readLE m k (p + j) = readLE m₀ k (p + j) := by
  refine hag.readLE fun x hx => Or.inr (Or.inl ⟨htls, ?_⟩)
  rcases hkj with ⟨hj, hk⟩ | ⟨hj, hk⟩
  · rw [← Nat.add_sub_cancel' hj, ← Nat.add_assoc] at hx
    exact Or.inl (hx.mono (by omega))
  · rw [← Nat.add_sub_cancel' hj, ← Nat.add_assoc] at hx
    exact Or.inr (hx.mono (by omega))

/-- The sizes of a segment, when the rest of its round is untouched. -/
theorem rest_field (hag : Agree (RestReads m₀ base t p) m₀ m) {k j : Nat} (hj : 32 ≤ j)
    (hk : j + k ≤ 48) : readLE m k (p + j) = readLE m₀ k (p + j) := by
  refine hag.readLE fun x hx => Or.inl ?_
  rw [← Nat.add_sub_cancel' hj, ← Nat.add_assoc] at hx
  exact hx.mono (by omega)

theorem Apart.mono {S' : Nat → Prop} (A : Apart m₀ base t S p dest) (h : ∀ x, S' x → S x) :
    Apart m₀ base t S' p dest := fun x hx => mt (h x) (A x hx)

section Apart

variable (A : Apart m₀ base t S p dest)
  (hno : NoOverlap dest (fileStart m₀ base p) (pFilesz m₀ p))

include A hno

theorem Apart.copyFill : (∀ x, Range dest (pFilesz m₀ p) x → ¬ S x) ∧
    ∀ x, Range (wrap (dest + pFilesz m₀ p)) (zeroSize m₀ p) x → ¬ S x :=
  ⟨fun x hx => A x ⟨hno, Or.inl hx⟩, fun x hx => A x ⟨hno, Or.inr (Or.inl hx)⟩⟩

theorem Apart.storesAvoid : StoresAvoid S m₀ 0 (relaTable m₀ base t) (shSize m₀ t.symtab)
    (pVaddr m₀ p) dest (relaCount t) := by
  rintro i hi hok (h | ⟨-, h⟩) x hx
  · exact A x ⟨hno, Or.inr (Or.inr ⟨i, hi, hok, h, hx⟩)⟩
  · exact absurd rfl h

end Apart

theorem fillSegment_agree (hcopy : ∀ x, Range dest (pFilesz m₀ p) x → ¬ S x)
    (hfill : ∀ x, Range (wrap (dest + pFilesz m₀ p)) (zeroSize m₀ p) x → ¬ S x)
    (hag : Agree S m₀ m) : Agree S m₀ (fillSegment m₀ base p dest m) :=
  (hag.copy hcopy _).fill hfill 0

theorem place_agree (A : Apart m₀ base t S p dest) (hok : PlaceOk m₀ base t p dest)
    (hag : Agree S m₀ m) : Agree S m₀ (place m₀ base t p dest m) :=
  applyEntries_agree (A.storesAvoid hok.1) hok.2
    (fillSegment_agree (A.copyFill hok.1).1 (A.copyFill hok.1).2 hag)

/-- The entries that are applied are among what is read of the tables. -/
theorem coversEntries_of_table (hS : ∀ x, TableReads m₀ base t x → S x)
    (ht : t.rela ≠ 0 ∧ t.symtab ≠ 0) :
    CoversEntries S m₀ (relaTable m₀ base t) (relaCount t) (symTable m₀ base t)
      (shSize m₀ t.symtab) :=
  fun i hi x hx => hS x ⟨ht, Or.inr (Or.inr ⟨i, hi, hx⟩)⟩

/-- The fields that say where the tables are. -/
theorem table_fields (hag : Agree (TableReads m₀ base t) m₀ m)
    (ht : t.rela ≠ 0 ∧ t.symtab ≠ 0) : shOffset m t.rela = shOffset m₀ t.rela ∧
      shOffset m t.symtab = shOffset m₀ t.symtab ∧ shSize m t.symtab = shSize m₀ t.symtab :=
  ⟨hag.readLE fun _ hx => ⟨ht, Or.inl hx⟩,
    hag.readLE fun _ hx => ⟨ht, Or.inr (Or.inl (hx.of_le (by decide)))⟩,
    hag.readLE fun _ hx => ⟨ht, Or.inr (Or.inl (hx.mono (k := 8) (by decide)))⟩⟩

/-- The relocations of a segment, when the rest of its round is untouched. -/
theorem relocateSegment_iff (hrest : ∀ x, RestReads m₀ base t p x → S x) (hag : Agree S m₀ m)
    (hst : StoresAvoid S m₀ 0 (relaTable m₀ base t) (shSize m₀ t.symtab) (pVaddr m₀ p) dest
      (relaCount t)) :
    (if t.rela ≠ 0 ∧ t.symtab ≠ 0 then
        elf64Relocate (pVaddr m p) (pVaddr m p) (wrap (base + shOffset m t.rela)) t.relaSize
          (wrap (base + shOffset m t.symtab)) (shSize m t.symtab) (pVaddr m p) dest m
      else pure m) = .ok m' ↔
      (∀ i < relaCount t, EntryOk m₀ (relaTable m₀ base t) (shSize m₀ t.symtab) i) ∧
        applyEntries m₀ 0 0 (relaTable m₀ base t) (symTable m₀ base t) (pVaddr m₀ p) dest
          (relaCount t) m = m' := by
  by_cases ht : t.rela ≠ 0 ∧ t.symtab ≠ 0
  · have hcount : relaCount t = t.relaSize / sizeofRela := if_pos ht
    have hself : sub64 (pVaddr m₀ p) (pVaddr m₀ p) = 0 := sub64_self (Nat.le_of_lt (readLE_lt 8 _))
    have htable : ∀ x, TableReads m₀ base t x → S x := fun x hx => hrest x (Or.inr (Or.inr hx))
    obtain ⟨hrela, hsymtab, hsymsize⟩ := table_fields (hag.mono htable) ht
    have hvaddr : pVaddr m p = pVaddr m₀ p :=
      hag.readLE fun x hx => hrest x (Or.inr (Or.inl ⟨ht, hx⟩))
    have C := coversEntries_of_table htable ht
    rw [hcount] at C
    rw [if_pos ht, hvaddr, hrela, hsymtab, hsymsize, hcount, ← relaTable, ← symTable,
      relocate_iff C hag (by rwa [hself, ← hcount]), hself]
  · have hcount : relaCount t = 0 := if_neg ht
    rw [if_neg ht, hcount, applyEntries, pure_eq_ok, Except.ok.injEq]
    exact (and_iff_right fun i hi => absurd hi (by omega)).symm

/-- Placing a segment is copying it, filling it up and relocating it. -/
theorem placeSegment_eq_ok_iff : placeSegment base t p dest m = .ok m' ↔
    NoOverlap dest (wrap (base + pOffset m p)) (pFilesz m p) ∧
      (if t.rela ≠ 0 ∧ t.symtab ≠ 0 then
          elf64Relocate (pVaddr (filled m base p dest) p) (pVaddr (filled m base p dest) p)
            (wrap (base + shOffset (filled m base p dest) t.rela)) t.relaSize
            (wrap (base + shOffset (filled m base p dest) t.symtab))
            (shSize (filled m base p dest) t.symtab) (pVaddr (filled m base p dest) p) dest
            (filled m base p dest)
        else pure (filled m base p dest)) = .ok m' := by
  rw [placeSegment, bind_eq_ok_iff]
  constructor
  · rintro ⟨m₁, hcopy, h⟩
    obtain ⟨hno, rfl⟩ := memcpy_eq_ok_iff.mp hcopy
    exact ⟨hno, h⟩
  · rintro ⟨hno, h⟩
    exact ⟨_, memcpy_of_noOverlap hno, h⟩

section Frozen

variable (hload : pType m₀ p = ptLoad) (hround : Agree (RoundReads m₀ base t p) m₀ m)
  (hrest : ∀ x, RestReads m₀ base t p x → S x) (hag : Agree S m₀ m)

include hload hround

theorem fileStart_frozen : wrap (base + pOffset m p) = fileStart m₀ base p := by
  have hoff : pOffset m p = pOffset m₀ p := load_field hround hload (by decide)
  rw [hoff, fileStart]

theorem pFilesz_frozen : pFilesz m p = pFilesz m₀ p := load_field hround hload (by decide)

include hrest hag

section Copied

variable (hcopy : ∀ x, Range dest (pFilesz m₀ p) x → ¬ S x)

include hcopy

/-- The copy leaves the sizes in the header as they are. -/
theorem copied_sizes : pFilesz (copied m base p dest) p = pFilesz m₀ p ∧
    pMemsz (copied m base p dest) p = pMemsz m₀ p := by
  rw [copied, fileStart_frozen hload hround, pFilesz_frozen hload hround]
  have hagree := (hag.copy hcopy (fileStart m₀ base p)).mono hrest
  exact ⟨rest_field hagree (by decide) (by decide), rest_field hagree (by decide) (by decide)⟩

theorem filled_frozen : filled m base p dest = fillSegment m₀ base p dest m := by
  obtain ⟨hfilesz, hmemsz⟩ := copied_sizes hload hround hrest hag hcopy
  rw [filled, hfilesz, hmemsz, copied, fileStart_frozen hload hround, pFilesz_frozen hload hround]
  rfl

end Copied

variable (A : Apart m₀ base t S p dest)

include A

/-- **Placing a segment of an untouched image**: its header and the tables are as in `m₀`, and no
write falls on what of them is still to be read. -/
theorem place_iff : placeSegment base t p dest m = .ok m' ↔
    PlaceOk m₀ base t p dest ∧ place m₀ base t p dest m = m' := by
  rw [placeSegment_eq_ok_iff, fileStart_frozen hload hround, pFilesz_frozen hload hround, PlaceOk,
    and_assoc]
  refine and_congr_right fun hno => ?_
  obtain ⟨hcopy, hfill⟩ := A.copyFill hno
  rw [filled_frozen hload hround hrest hag hcopy]
  exact relocateSegment_iff hrest (fillSegment_agree hcopy hfill hag) (A.storesAvoid hno)

end Frozen

end Place

/-! ## 3. One program header -/

section Header

variable {ε σ : Type}

/-- The allocator returns `dest` for the segment of `p`. -/
def Gets (alloc : Allocator ε σ) (p : Nat) (s : LoadState σ) (dest : Nat) : Prop :=
  pType s.mem p = ptLoad ∧ ∃ a,
    alloc s.alloc (pVaddr s.mem p) (pMemsz s.mem p) (pFlags s.mem p) = .ok (dest, a)

/-- One round of the loop over the program headers, with everything read from `m₀`. -/
def Loads (alloc : Allocator ε σ) (m₀ : Mem) (base : Nat) (t : Tables) (p : Nat)
    (s s' : LoadState σ) : Prop :=
  if pType m₀ p = ptLoad then
    ∃ dest a, alloc s.alloc (pVaddr m₀ p) (pMemsz m₀ p) (pFlags m₀ p) = .ok (dest, a) ∧
      dest ≠ 0 ∧ PlaceOk m₀ base t p dest ∧
      s' = { s with mem := place m₀ base t p dest s.mem, alloc := a }
  else if pType m₀ p = ptTls then
    pVaddr m₀ p ≠ 0 ∧ s.tlsBase = 0 ∧
      s' = { s with
        tlsBase := pVaddr m₀ p
        tlsInitLen := pFilesz m₀ p
        tlsTotalLen := pMemsz m₀ p }
  else s' = s

variable {alloc : Allocator ε σ} {S : Nat → Prop} {m₀ : Mem} {base : Nat} {t : Tables} {p : Nat}
  {s s' : LoadState σ}

theorem assert_bind_eq_ok_iff {α : Type} {p : Prop} [Decidable p] {f : Unit → Except Halt α}
    {a : α} : (assert p >>= f) = .ok a ↔ p ∧ f () = .ok a := by
  by_cases h : p
  · rw [assert_of h, ok_bind]
    exact (and_iff_right h).symm
  · rw [assert_of_not h, error_bind]
    simp [h]

/-- **One round of the loop on an untouched image**, when the memory it is given is apart from
what is still to be read. -/
theorem loadSegment_iff (hround : Agree (RoundReads m₀ base t p) m₀ s.mem)
    (hrest : ∀ x, RestReads m₀ base t p x → S x) (hag : pType m₀ p = ptLoad → Agree S m₀ s.mem)
    (A : ∀ dest a, pType m₀ p = ptLoad →
      alloc s.alloc (pVaddr m₀ p) (pMemsz m₀ p) (pFlags m₀ p) = .ok (dest, a) → dest ≠ 0 →
      Apart m₀ base t S p dest) :
    loadSegment alloc base t p s = .ok (s', none) ↔ Loads alloc m₀ base t p s s' := by
  rw [loadSegment, Loads, pType_frozen hround]
  by_cases hload : pType m₀ p = ptLoad
  · have hvaddr : pVaddr s.mem p = pVaddr m₀ p := load_field hround hload (by decide)
    have hmemsz : pMemsz s.mem p = pMemsz m₀ p := load_field hround hload (by decide)
    have hflags : pFlags s.mem p = pFlags m₀ p := load_field hround hload (by decide)
    rw [if_pos hload, if_pos hload, hvaddr, hmemsz, hflags]
    cases halloc : alloc s.alloc (pVaddr m₀ p) (pMemsz m₀ p) (pFlags m₀ p) with
    | error e => simp
    | ok r =>
      obtain ⟨dest, a⟩ := r
      have hplace : dest ≠ 0 → ∀ m', placeSegment base t p dest s.mem = .ok m' ↔
          PlaceOk m₀ base t p dest ∧ place m₀ base t p dest s.mem = m' := fun hne _ =>
        place_iff hload hround hrest (hag hload) (A dest a hload halloc hne)
      dsimp only
      rw [assert_bind_eq_ok_iff, bind_eq_ok_iff]
      simp only [pure_eq_ok, Except.ok.injEq, Prod.mk.injEq, and_true]
      constructor
      · rintro ⟨hne, m', hm', rfl⟩
        obtain ⟨hok, rfl⟩ := (hplace hne m').mp hm'
        exact ⟨dest, a, ⟨rfl, rfl⟩, hne, hok, rfl⟩
      · rintro ⟨_, _, ⟨rfl, rfl⟩, hne, hok, rfl⟩
        exact ⟨hne, _, (hplace hne _).mpr ⟨hok, rfl⟩, rfl⟩
  · rw [if_neg hload, if_neg hload]
    by_cases htls : pType m₀ p = ptTls
    · have hvaddr : pVaddr s.mem p = pVaddr m₀ p := tls_field hround htls (by decide)
      have hfilesz : pFilesz s.mem p = pFilesz m₀ p := tls_field hround htls (by decide)
      have hmemsz : pMemsz s.mem p = pMemsz m₀ p := tls_field hround htls (by decide)
      rw [if_pos htls, if_pos htls, hvaddr, hfilesz, hmemsz]
      simp only [assert_bind_eq_ok_iff, pure_eq_ok, Except.ok.injEq, Prod.mk.injEq, and_true]
      exact and_congr_right fun _ => and_congr_right fun _ => eq_comm
    · rw [if_neg htls, if_neg htls]
      simp only [pure_eq_ok, Except.ok.injEq, Prod.mk.injEq, and_true]
      exact eq_comm

end Header

/-! ## 4. The loop as a system of steps -/

section Steps

variable {ε σ : Type}

/-- A round of the loop that goes on to the next header; the state has the header's number. -/
def HeaderStep (alloc : Allocator ε σ) (base : Nat) (t : Tables) (phead : Nat)
    (s : Nat × LoadState σ) (_ : Unit) (s' : Nat × LoadState σ) : Prop :=
  s.1 < ePhnum s.2.mem base ∧
    loadSegment alloc base t (phead + sizeofPhdr * s.1) s.2 = .ok (s'.2, none) ∧ s'.1 = s.1 + 1

variable {alloc : Allocator ε σ} {base phead : Nat} {t : Tables}

/-- A loop that completes is a run past the last header. -/
theorem run_of_loadSegments (i : Nat) (s s' : LoadState σ)
    (h : loadSegments alloc base t phead i s = .ok (s', none)) :
    ∃ n es, Lts.Run (HeaderStep alloc base t phead) (i, s) es (n, s') ∧
      ¬ n < ePhnum s'.mem base := by
  rw [loadSegments] at h
  split at h
  case isTrue hi =>
    split at h
    · cases h
    · cases h
    · rename_i s₁ hstep
      have := ePhnum_lt s.mem base
      obtain ⟨n, es, hrun, hn⟩ := run_of_loadSegments (i + 1) s₁ s' h
      exact ⟨n, () :: es, Lts.Run.cons ⟨hi, hstep, rfl⟩ hrun, hn⟩
  case isFalse hi =>
    cases h
    exact ⟨i, [], Lts.Run.refl _, hi⟩
termination_by 65536 - i

/-- A run past the last header is a loop that completes. -/
theorem loadSegments_of_run {es : List Unit} {p q : Nat × LoadState σ}
    (h : Lts.Run (HeaderStep alloc base t phead) p es q) (hn : ¬ q.1 < ePhnum q.2.mem base) :
    loadSegments alloc base t phead p.1 p.2 = .ok (q.2, none) := by
  induction h with
  | refl q => rw [loadSegments, if_neg hn]
  | @cons p p' q e es hstep _ ih =>
    obtain ⟨hi, hload, hnext⟩ := hstep
    rw [loadSegments, if_pos hi, hload]
    dsimp only
    rw [← hnext]
    exact ih hn

/-- **The images `elf64_load` accepts**: the checks pass, and the loop gets past the last
header. -/
theorem elf64Load_eq_ok_iff {emMachine size : Nat} {state : σ} {m : Mem} {s : LoadState σ}
    {l : Loaded} :
    elf64Load emMachine alloc state base size m = .ok (s, .ok l) ↔
      (size ≠ 0 ∧ HeaderOk m base emMachine ∧ ProghdrOk m base size) ∧
      ∃ t, selectTables m base = .ok t ∧
        (∃ n es, Lts.Run (HeaderStep alloc base t (wrap (base + ePhoff m base)))
          (0, ⟨m, state, 0, 0, 0⟩) es (n, s) ∧ ¬ n < ePhnum s.mem base) ∧
        l = ⟨eEntry s.mem base, s.tlsBase, s.tlsInitLen, s.tlsTotalLen⟩ := by
  rw [elf64Load]
  constructor
  · intro h
    split at h
    · cases h
    · rename_i hsize
      split at h
      · cases h
      · rename_i hheader
        split at h
        · cases h
        · rename_i hproghdr
          obtain ⟨t, ht, h⟩ := bind_eq_ok_iff.mp h
          obtain ⟨⟨s₁, e⟩, hloop, h⟩ := bind_eq_ok_iff.mp h
          cases e with
          | some e => cases h
          | none =>
            have hres := Prod.mk.inj (Except.ok.inj h)
            rw [hres.1] at hloop h
            have hl := Except.ok.inj (Prod.mk.inj (Except.ok.inj h)).2
            exact ⟨⟨hsize, not_not.mp hheader, not_not.mp hproghdr⟩, t, ht,
              run_of_loadSegments _ _ _ hloop, hl.symm⟩
  · rintro ⟨⟨hsize, hheader, hproghdr⟩, t, ht, ⟨n, es, hrun, hn⟩, rfl⟩
    have hloop := loadSegments_of_run hrun hn
    rw [if_neg hsize, if_neg (not_not.mpr hheader), if_neg (not_not.mpr hproghdr), ht, ok_bind,
      hloop]
    rfl

end Steps

end Philix.Inky
