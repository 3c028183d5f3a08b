/-
# Sections by name: `elf64_find_section_header_name` and `strcmp`

The search compares strings where they are, in memory, and takes the first string table of the
file for the one with the names; `e_shstrndx` is not read.  For names that are terminated in
that table it comes to an end, with the first section of the name or with `NULL`.
-/
import Philix.Inky.Sample

namespace Philix.Inky

open ByteMem

/-! ## 1. Strings in memory -/

/-- The terminated string `s` is at `a`. -/
def StringAt (m : Mem) : Nat → List UInt8 → Prop
  | a, [] => readByte m a = 0
  | a, c :: s => readByte m a = c ∧ c ≠ 0 ∧ StringAt m (a + 1) s

/-- A `char`, which is signed. -/
def char (c : UInt8) : Int := c.toInt8.toInt

/-- `strcmp`, as far as `fuel` goes. -/
def strcmp (m : Mem) : Nat → Nat → Nat → Option Int
  | 0, _, _ => none
  | fuel + 1, a, b =>
    if readByte m a = readByte m b ∧ readByte m a ≠ 0 then strcmp m fuel (a + 1) (b + 1)
    else some (char (readByte m a) - char (readByte m b))

theorem char_sub_eq_zero_iff {c d : UInt8} : char c - char d = 0 ↔ c = d := by
  rw [char, char, Int.sub_eq_zero, Int8.toInt_inj]
  constructor
  · intro h
    have := congrArg Int8.toUInt8 h
    simpa using this
  · rintro rfl
    rfl

/-- **`strcmp` on two strings** ends within the first of them, and tells if they are the
same. -/
theorem strcmp_spec {m : Mem} : ∀ {s t : List UInt8} {a b fuel : Nat}, StringAt m a s →
    StringAt m b t → s.length < fuel → ∃ d, strcmp m fuel a b = some d ∧ (d = 0 ↔ s = t)
  | [], [], a, b, fuel + 1, hs, ht, _ => by
    have hs : readByte m a = 0 := hs
    have ht : readByte m b = 0 := ht
    refine ⟨_, if_neg fun h => h.2 hs, ?_⟩
    rw [char_sub_eq_zero_iff, hs, ht]
    simp
  | [], d :: t, a, b, fuel + 1, hs, ht, _ => by
    have hs : readByte m a = 0 := hs
    refine ⟨_, if_neg fun h => h.2 hs, ?_⟩
    rw [char_sub_eq_zero_iff, hs, ht.1]
    simp [ht.2.1.symm]
  | c :: s, [], a, b, fuel + 1, hs, ht, _ => by
    have ht : readByte m b = 0 := ht
    have hne : ¬ (readByte m a = readByte m b ∧ readByte m a ≠ 0) := by
      rw [hs.1, ht]
      exact fun h => h.2 h.1
    refine ⟨_, if_neg hne, ?_⟩
    rw [char_sub_eq_zero_iff, hs.1, ht]
    simp [hs.2.1]
  | c :: s, d :: t, a, b, fuel + 1, hs, ht, hlen => by
    by_cases hcd : c = d
    · subst hcd
      obtain ⟨r, hr, hiff⟩ := strcmp_spec hs.2.2 ht.2.2 (Nat.lt_of_succ_lt_succ hlen)
      refine ⟨r, ?_, by rw [hiff, List.cons_inj_right]⟩
      rw [strcmp, if_pos ⟨hs.1.trans ht.1.symm, hs.1 ▸ hs.2.1⟩, hr]
    · have hne : ¬ (readByte m a = readByte m b ∧ readByte m a ≠ 0) := by
        rw [hs.1, ht.1]
        exact fun h => hcd h.1
      refine ⟨_, if_neg hne, ?_⟩
      rw [char_sub_eq_zero_iff, hs.1, ht.1, List.cons.injEq]
      exact ⟨fun h => absurd h hcd, fun h => absurd h.1 hcd⟩

/-! ## 2. The search -/

def shName (m : Mem) (s : Nat) : Nat := readLE m 4 s

def shtStrtab : Nat := 3

/-- `IS_ELF`, and the class. -/
def IsElf64 (m : Mem) (head elfBytes : Nat) : Prop :=
  ¬ elfBytes < 64 ∧
  (eIdent m head 0 = 0x7f ∧ eIdent m head 1 = 69 ∧ eIdent m head 2 = 76 ∧ eIdent m head 3 = 70) ∧
  eIdent m head 4 = 2

instance (m : Mem) (head elfBytes : Nat) : Decidable (IsElf64 m head elfBytes) :=
  inferInstanceAs (Decidable (_ ∧ _))

/-- The loop, over `n` section headers. -/
def findNamed (m : Mem) (fuel strings name : Nat) : Nat → Nat → Option Nat
  | 0, _ => some 0
  | n + 1, s => do
    if (← strcmp m fuel name (wrap (strings + shName m s))) = 0 then some (wrap s)
    else findNamed m fuel strings name n (s + sizeofShdr)

/-- The table of the section headers. -/
def sections (m : Mem) (head : Nat) : Nat := wrap (head + eShoff m head)

/-- The string table that the names are taken from. -/
def stringTable (m : Mem) (head : Nat) : Nat :=
  elf64FindSectionHeaderType m (sections m head) (eShnum m head) shtStrtab

/-- Its contents. -/
def strings (m : Mem) (head : Nat) : Nat := wrap (head + shOffset m (stringTable m head))

/-- `elf64_find_section_header_name` -/
def elf64FindSectionHeaderName (m : Mem) (fuel elfBase elfBytes sectionName : Nat) : Option Nat :=
  if ¬ IsElf64 m elfBase elfBytes then some 0
  else if stringTable m elfBase = 0 then some 0
  else findNamed m fuel (strings m elfBase) sectionName (eShnum m elfBase) (sections m elfBase)

/-- `r` points to the first of `n` headers from `s` on that has the name, or is `NULL` as there
is none. -/
inductive FirstNamed (names : Nat → List UInt8) (name : List UInt8) (n s : Nat) : Nat → Prop
  | found {i : Nat} (hi : i < n) (h : names i = name) (hfirst : ∀ j < i, names j ≠ name) :
      FirstNamed names name n s (wrap (s + sizeofShdr * i))
  | missing (h : ∀ i < n, names i ≠ name) : FirstNamed names name n s 0

section Search

variable {m : Mem} {fuel table name : Nat} {nm : List UInt8}

theorem findNamed_spec (hname : StringAt m name nm) (hfuel : nm.length < fuel) :
    ∀ {n s : Nat} {names : Nat → List UInt8},
      (∀ i < n, StringAt m (wrap (table + shName m (s + sizeofShdr * i))) (names i)) →
      ∃ r, findNamed m fuel table name n s = some r ∧ FirstNamed names nm n s r
  | 0, _, _, _ => ⟨0, rfl, .missing fun _ hi => absurd hi (Nat.not_lt_zero _)⟩
  | n + 1, s, names, hnames => by
    obtain ⟨d, hd, hiff⟩ := strcmp_spec hname (hnames 0 (Nat.succ_pos n)) hfuel
    rw [Nat.mul_zero, Nat.add_zero] at hd
    rw [findNamed, hd, Option.bind_eq_bind, Option.bind_some]
    by_cases h0 : d = 0
    · refine ⟨_, if_pos h0, ?_⟩
      exact .found (i := 0) (Nat.succ_pos n) (hiff.mp h0).symm fun j hj => absurd hj (by omega)
    · have hne : names 0 ≠ nm := fun h => h0 (hiff.mpr h.symm)
      have hrest : ∀ i < n,
          StringAt m (wrap (table + shName m (s + sizeofShdr + sizeofShdr * i))) (names (i + 1)) :=
        fun i hi => stride_succ ▸ hnames (i + 1) (Nat.succ_lt_succ hi)
      obtain ⟨r, hr, hfirst⟩ := findNamed_spec hname hfuel hrest
      refine ⟨r, (if_neg h0).trans hr, ?_⟩
      cases hfirst with
      | @found i hi h hbefore =>
        rw [← stride_succ]
        refine .found (Nat.succ_lt_succ hi) h fun j hj => ?_
        cases j with
        | zero => exact hne
        | succ j => exact hbefore j (Nat.lt_of_succ_lt_succ hj)
      | missing h =>
        refine .missing fun i hi => ?_
        cases i with
        | zero => exact hne
        | succ i => exact h i (Nat.lt_of_succ_lt_succ hi)

end Search

/-- **The section of a name.**  For a terminated name, and section names that are terminated in
the table the search uses, it ends: with `NULL` if the file is no ELF64 file or has no string
table, and else with the first section of that name, or `NULL` where there is none. -/
theorem find_section_header_name (m : Mem) (fuel elfBase elfBytes sectionName : Nat)
    (nm : List UInt8) (names : Nat → List UInt8) (hname : StringAt m sectionName nm)
    (hfuel : nm.length < fuel)
    (hnames : IsElf64 m elfBase elfBytes → stringTable m elfBase ≠ 0 →
      ∀ i < eShnum m elfBase, StringAt m
        (wrap (strings m elfBase + shName m (sections m elfBase + sizeofShdr * i))) (names i)) :
    ∃ r, elf64FindSectionHeaderName m fuel elfBase elfBytes sectionName = some r ∧
      if IsElf64 m elfBase elfBytes ∧ stringTable m elfBase ≠ 0 then
        FirstNamed names nm (eShnum m elfBase) (sections m elfBase) r
      else r = 0 := by
  rw [elf64FindSectionHeaderName]
  by_cases helf : IsElf64 m elfBase elfBytes
  · rw [if_neg (not_not.mpr helf)]
    by_cases htable : stringTable m elfBase = 0
    · exact ⟨0, if_pos htable, by rw [if_neg fun h => h.2 htable]⟩
    · obtain ⟨r, hr, hfirst⟩ := findNamed_spec hname hfuel (hnames helf htable)
      refine ⟨r, (if_neg htable).trans hr, ?_⟩
      rw [if_pos ⟨helf, htable⟩]
      exact hfirst
  · exact ⟨0, if_pos helf, by rw [if_neg fun h => helf h.1]⟩

/-- A file with a string table and a section `.b`. -/
def twoSections : Mem :=
  asMem (ehdrBytes 0 64 0 2 ++ leBytes 4 1 ++ (shdrBytes 3 192 7).drop 4 ++ leBytes 4 4 ++
    (shdrBytes 1 0 0).drop 4 ++ [0, 46, 97, 0, 46, 98, 0])

theorem find_section_header_name_second :
    ∃ r, elf64FindSectionHeaderName twoSections 3 0 199 196 = some r ∧
      if IsElf64 twoSections 0 199 ∧ stringTable twoSections 0 ≠ 0 then
        FirstNamed (fun i => if i = 0 then [46, 97] else [46, 98]) [46, 98]
          (eShnum twoSections 0) (sections twoSections 0) r
      else r = 0 := by
  refine find_section_header_name twoSections 3 0 199 196 [46, 98]
    (fun i => if i = 0 then [46, 97] else [46, 98]) ⟨rfl, by decide, rfl, by decide, rfl⟩
    (by decide) fun _ _ i hi => ?_
  have hi : i < 2 := hi
  match i, hi with
  | 0, _ => exact ⟨rfl, by decide, rfl, by decide, rfl⟩
  | 1, _ => exact ⟨rfl, by decide, rfl, by decide, rfl⟩

end Philix.Inky
