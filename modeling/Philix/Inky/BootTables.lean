/-
# The boot loader's page tables: `prepare_long_mode`

The seven pages at `pgtable` are filled with 32-bit stores, half an entry at a time.  Six are
cleared first; of the seventh, both halves of every entry are stored.  `quad_pageTables` says
what all of them hold in the end, and the walk reads nothing else.

The rest of `prepare_long_mode` (the descriptor table, the control registers and the jump)
does not touch these pages.
-/
import Philix.Lib.PageWalk
import Philix.Lib.StoreLoop

namespace Philix.Inky

open ByteMem StoreLoop PageWalk

/-! ## 1. The code that builds them -/

section Build

variable (pgtable : Nat) (m : Mem)

/-- "Initialize Page tables to 0" -/
def clearTables : Mem :=
  let edi := pgtable
  let eax := 0
  let ecx := 4096 * 6 / 4
  storeLoop 4 0 ecx edi eax m

/-- "Build Level 4" -/
def buildLevel4 : Mem :=
  let edi := add32 pgtable 0
  let eax := add32 edi 0x1007
  writeLE 4 edi eax m

/-- "Build Level 3" -/
def buildLevel3 : Mem :=
  let edi := add32 pgtable 0x1000
  let eax := add32 edi 0x1007
  let ecx := 4
  storeLoop 8 0x1000 ecx edi eax m

/-- "Build Level 2" -/
def buildLevel2 : Mem :=
  let edi := add32 pgtable 0x2000
  let eax := 0x183
  let ecx := 2048
  storeLoop 8 0x200000 ecx edi eax m

/-- "Build Level 3", for the "serial out" -/
def buildLevel3Serial : Mem :=
  let edi := add32 pgtable 0x1000
  let eax := add32 edi 0x5007
  let edi := add32 edi 256
  writeLE 4 edi eax m

/-- "Build Level 2", for the "serial out" -/
def buildLevel2Serial : Mem :=
  let edi := add32 pgtable 0x6000
  let eax := 0x183
  let ecx := 512
  storeLoop 8 0x200000 ecx edi eax m

/-- "Build Level 2 - high part" -/
def buildLevel2High : Mem :=
  let edi := add32 pgtable 0x6000
  let edi := add32 edi 4
  let ecx := 512
  storeLoop 8 0 ecx edi 0x8 m

/-- What `prepare_long_mode` does to the memory of the tables. -/
def pageTables : Mem :=
  let m := clearTables pgtable m
  let m := buildLevel4 pgtable m
  let m := buildLevel3 pgtable m
  let m := buildLevel2 pgtable m
  let m := buildLevel3Serial pgtable m
  let m := buildLevel2Serial pgtable m
  buildLevel2High pgtable m

end Build

/-! ## 2. What each part stores -/

/-- `pgtable` is aligned to a page, and its seven pages are below 4 GiB. -/
structure Placed32 (pgtable : Nat) : Prop where
  aligned : pgtable % 4096 = 0
  below : pgtable + 4 * 7168 ≤ 4294967296

section Parts

variable {pgtable k : Nat} {m : Mem}

theorem dword_clearTables (P : Placed32 pgtable) (hk : k < 7168) :
    dword (clearTables pgtable m) pgtable k = if k < 6144 then 0 else dword m pgtable k := by
  have hlt := P.below
  have heq : clearTables pgtable m =
      storeLoop (4 * 1) 0 6144 ((pgtable + 4 * 0) % 4294967296) 0 m := by
    rw [Nat.mul_zero, Nat.add_zero, Nat.mod_eq_of_lt (by omega)]
    rfl
  rw [heq]
  by_cases hin : k < 6144
  · have h : dword (storeLoop (4 * 1) 0 6144 ((pgtable + 4 * 0) % 4294967296) 0 m) pgtable
        (0 + 1 * k) = (0 + 0 * k) % 4294967296 :=
      dword_storeLoop_hit P.below Nat.one_pos hin fun i hi => by omega
    rw [Nat.zero_add, Nat.one_mul] at h
    rw [if_pos hin, h, Nat.zero_mul]
  · rw [if_neg hin, dword_storeLoop_miss P.below hk]
    intro i hi
    omega

/-- One dword that is stored. -/
theorem dword_store {j v : Nat} (P : Placed32 pgtable) (hj : j < 7168) (hk : k < 7168)
    (hv : v < 4294967296) :
    dword (writeLE 4 (pgtable + 4 * j) v m) pgtable k = if k = j then v else dword m pgtable k := by
  by_cases h : k = j
  · rw [if_pos h, h, dword_writeLE_same, Nat.mod_eq_of_lt hv]
  · rw [if_neg h, dword_writeLE_of_ne P.below hj hk h]

theorem dword_buildLevel4 (P : Placed32 pgtable) (hk : k < 7168) :
    dword (buildLevel4 pgtable m) pgtable k =
      if k = 0 then pgtable + 0x1007 else dword m pgtable k := by
  have hlt := P.below
  have heq : buildLevel4 pgtable m = writeLE 4 (pgtable + 4 * 0) (pgtable + 0x1007) m := by
    simp only [buildLevel4, add32]
    rw [Nat.add_zero, Nat.mod_eq_of_lt (by omega), Nat.mod_eq_of_lt (by omega)]
  rw [heq]
  exact dword_store P (by decide) hk (by omega)

theorem dword_buildLevel3 (P : Placed32 pgtable) (hk : k < 7168) :
    dword (buildLevel3 pgtable m) pgtable k =
      if 1024 ≤ k ∧ k < 1024 + 2 * 4 ∧ (k - 1024) % 2 = 0 then
        pgtable + 0x2007 + 0x1000 * ((k - 1024) / 2)
      else dword m pgtable k := by
  have hlt := P.below
  have heax : add32 (add32 pgtable 0x1000) 0x1007 = pgtable + 0x2007 := by
    simp only [add32]
    omega
  have hedi : add32 pgtable 0x1000 = (pgtable + 4 * 1024) % 4294967296 := by
    simp only [add32]
  rw [buildLevel3, heax, hedi]
  exact dword_quads P.below (by decide) hk fun i hi => by omega

theorem dword_buildLevel2 (P : Placed32 pgtable) (hk : k < 7168) :
    dword (buildLevel2 pgtable m) pgtable k =
      if 2048 ≤ k ∧ k < 2048 + 2 * 2048 ∧ (k - 2048) % 2 = 0 then
        0x183 + 0x200000 * ((k - 2048) / 2)
      else dword m pgtable k := by
  have hedi : add32 pgtable 0x2000 = (pgtable + 4 * 2048) % 4294967296 := by
    simp only [add32]
  rw [buildLevel2, hedi]
  exact dword_quads P.below (by decide) hk fun i hi => by omega

theorem dword_buildLevel3Serial (P : Placed32 pgtable) (hk : k < 7168) :
    dword (buildLevel3Serial pgtable m) pgtable k =
      if k = 1088 then pgtable + 0x6007 else dword m pgtable k := by
  have hlt := P.below
  have hedi : add32 (add32 pgtable 0x1000) 256 = pgtable + 4 * 1088 := by
    simp only [add32]
    omega
  have heax : add32 (add32 pgtable 0x1000) 0x5007 = pgtable + 0x6007 := by
    simp only [add32]
    omega
  rw [buildLevel3Serial, hedi, heax]
  exact dword_store P (by decide) hk (by omega)

theorem dword_buildLevel2Serial (P : Placed32 pgtable) (hk : k < 7168) :
    dword (buildLevel2Serial pgtable m) pgtable k =
      if 6144 ≤ k ∧ k < 6144 + 2 * 512 ∧ (k - 6144) % 2 = 0 then
        0x183 + 0x200000 * ((k - 6144) / 2)
      else dword m pgtable k := by
  have hedi : add32 pgtable 0x6000 = (pgtable + 4 * 6144) % 4294967296 := by
    simp only [add32]
  rw [buildLevel2Serial, hedi]
  exact dword_quads P.below (by decide) hk fun i hi => by omega

theorem dword_buildLevel2High (P : Placed32 pgtable) (hk : k < 7168) :
    dword (buildLevel2High pgtable m) pgtable k =
      if 6145 ≤ k ∧ k < 6145 + 2 * 512 ∧ (k - 6145) % 2 = 0 then 8 + 0 * ((k - 6145) / 2)
      else dword m pgtable k := by
  have hlt := P.below
  have hedi : add32 (add32 pgtable 0x6000) 4 = (pgtable + 4 * 6145) % 4294967296 := by
    simp only [add32]
    omega
  rw [buildLevel2High, hedi]
  exact dword_quads P.below (by decide) hk fun i hi => by omega

/-! ## 3. What they hold -/

/-- **The tables**, entry by entry, whatever was there before. -/
theorem quad_pageTables (P : Placed32 pgtable) (hk : k < 3584) :
    readLE (pageTables pgtable m) 8 (pgtable + 8 * k) =
      if k = 0 then pgtable + 0x1007
      else if 512 ≤ k ∧ k < 516 then pgtable + 0x2007 + 0x1000 * (k - 512)
      else if k = 544 then pgtable + 0x6007
      else if 1024 ≤ k ∧ k < 3072 then 0x183 + 0x200000 * (k - 1024)
      else if 3072 ≤ k then 0x800000183 + 0x200000 * (k - 3072)
      else 0 := by
  have h0 : 2 * k < 7168 := by omega
  have h1 : 2 * k + 1 < 7168 := by omega
  simp only [readLE_eight, pageTables, dword_buildLevel2High P h0, dword_buildLevel2High P h1,
    dword_buildLevel2Serial P h0, dword_buildLevel2Serial P h1, dword_buildLevel3Serial P h0,
    dword_buildLevel3Serial P h1, dword_buildLevel2 P h0, dword_buildLevel2 P h1,
    dword_buildLevel3 P h0, dword_buildLevel3 P h1, dword_buildLevel4 P h0, dword_buildLevel4 P h1,
    dword_clearTables P h0, dword_clearTables P h1]
  rcases Nat.lt_or_ge k 1024 with hk₃ | hk₃
  · by_cases hzero : k = 0
    · subst hzero
      simp
    · by_cases hlow : 512 ≤ k ∧ k < 516
      · simp (disch := omega) only [if_pos, if_neg]
        omega
      · by_cases hserial : k = 544
        · subst hserial
          simp
        · simp (disch := omega) only [if_pos, if_neg]
  · by_cases hend : k < 3072
    · simp (disch := omega) only [if_pos, if_neg]
      omega
    · simp (disch := omega) only [if_pos, if_neg]
      omega

/-! ## 4. The walk -/

/-- The entry of the table `j` pages into `pgtable`. -/
theorem entryAt_pageTables (pgtable : Nat) (m : Mem) (level j v : Nat) :
    entryAt (readLE (pageTables pgtable m) 8) level (pgtable + 4096 * j) v =
      readLE (pageTables pgtable m) 8 (pgtable + 8 * (512 * j + index level v)) := by
  rw [entryAt]
  congr 1
  omega

/-- An entry that points to the table `j` pages into `pgtable`. -/
theorem walk_next (P : Placed32 pgtable) {level table j v : Nat} (hj : j < 7)
    (he : entryAt (readLE (pageTables pgtable m) 8) (level + 1) table v =
      pgtable + 4096 * j + 7) :
    walk (readLE (pageTables pgtable m) 8) (level + 1) table v =
      walk (readLE (pageTables pgtable m) 8) level (pgtable + 4096 * j) v := by
  have hal := P.aligned
  have hlt := P.below
  exact walk_to_table (by omega) (by omega) (by decide) (by decide) (by decide) he

/-- The entry of the page of `v` itself. -/
theorem walk_page_self {j v : Nat} (hlt : v < 2 ^ 52)
    (he : entryAt (readLE (pageTables pgtable m) 8) 1 (pgtable + 4096 * j) v =
      0x183 + 0x200000 * (v / 0x200000)) :
    MapsToItself (walk (readLE (pageTables pgtable m) 8) 1 (pgtable + 4096 * j) v) 21 v :=
  mapsToItself_of_entry hlt (by decide) (by decide) (by decide) (by decide) he

/-- The root has one table of 512 GiB. -/
theorem walk_root (P : Placed32 pgtable) (v : Nat) (hv : v < 2 ^ 48) :
    walk (readLE (pageTables pgtable m) 8) 3 pgtable v =
      if v < 2 ^ 39 then
        walk (readLE (pageTables pgtable m) 8) 2 (pgtable + 4096 * 1) v
      else .notPresent := by
  have hindex : index 3 v = v / 549755813888 % 512 := rfl
  have he : entryAt (readLE (pageTables pgtable m) 8) 3 pgtable v = _ :=
    entryAt_pageTables pgtable m 3 0 v
  rw [quad_pageTables P (by omega)] at he
  by_cases hroot : v < 2 ^ 39
  · rw [if_pos (by omega)] at he
    rw [if_pos hroot]
    exact walk_next P (by decide) he
  · simp (disch := omega) only [if_neg] at he
    rw [if_neg hroot, walk_notPresent he (by decide)]

/-- Its first four entries and its 33rd have tables of 1 GiB. -/
theorem walk_level2 (P : Placed32 pgtable) (v : Nat) (hv : v < 2 ^ 39) :
    walk (readLE (pageTables pgtable m) 8) 2 (pgtable + 4096 * 1) v =
      if v < 2 ^ 32 then
        walk (readLE (pageTables pgtable m) 8) 1 (pgtable + 4096 * (2 + v / 1073741824)) v
      else if 2 ^ 35 ≤ v ∧ v < 2 ^ 35 + 2 ^ 30 then
        walk (readLE (pageTables pgtable m) 8) 1 (pgtable + 4096 * 6) v
      else .notPresent := by
  have hindex : index 2 v = v / 1073741824 % 512 := rfl
  have he := entryAt_pageTables pgtable m 2 1 v
  rw [quad_pageTables P (by omega)] at he
  by_cases hlow : v < 2 ^ 32
  · simp (disch := omega) only [if_pos, if_neg] at he
    rw [if_pos hlow]
    exact walk_next P (by omega) (he.trans (by omega))
  · rw [if_neg hlow]
    by_cases hserial : 2 ^ 35 ≤ v ∧ v < 2 ^ 35 + 2 ^ 30
    · simp (disch := omega) only [if_pos, if_neg] at he
      rw [if_pos hserial]
      exact walk_next P (by omega) (he.trans (by omega))
    · simp (disch := omega) only [if_neg] at he
      rw [if_neg hserial, walk_notPresent he (by decide)]

/-- **The boot page tables are an identity map.**  Wherever the seven pages are below 4 GiB and
whatever they held, the walk takes each address of the first 4 GiB and of the GiB from 32 GiB on
to itself, through writable pages of 2 MiB, and any other address of 48 bits ends in an entry
that is not present. -/
theorem boot_tables_identity (pgtable : Nat) (m : Mem) (v : Nat) (P : Placed32 pgtable)
    (hv : v < 2 ^ 48) :
    if v < 2 ^ 32 ∨ 2 ^ 35 ≤ v ∧ v < 2 ^ 35 + 2 ^ 30 then
      MapsToItself (walk (readLE (pageTables pgtable m) 8) 3 pgtable v) 21 v
    else walk (readLE (pageTables pgtable m) 8) 3 pgtable v = .notPresent := by
  have hindex : index 1 v = v / 2097152 % 512 := rfl
  by_cases hlow : v < 2 ^ 32
  · -- entry `v / 2 MiB` of the four tables, which follow one another
    have he := entryAt_pageTables pgtable m 1 (2 + v / 1073741824) v
    rw [quad_pageTables P (by omega)] at he
    simp (disch := omega) only [if_pos, if_neg] at he
    rw [if_pos (Or.inl hlow), walk_root P v hv, if_pos (by omega), walk_level2 P v (by omega),
      if_pos hlow]
    exact walk_page_self (by omega) (he.trans (by omega))
  · by_cases hserial : 2 ^ 35 ≤ v ∧ v < 2 ^ 35 + 2 ^ 30
    · have he := entryAt_pageTables pgtable m 1 6 v
      rw [quad_pageTables P (by omega)] at he
      simp (disch := omega) only [if_pos, if_neg] at he
      rw [if_pos (Or.inr hserial), walk_root P v hv, if_pos (by omega),
        walk_level2 P v (by omega), if_neg hlow, if_pos hserial]
      exact walk_page_self (by omega) (he.trans (by omega))
    · rw [if_neg (by omega), walk_root P v hv]
      split
      case isTrue hroot => rw [walk_level2 P v hroot, if_neg hlow, if_neg hserial]
      case isFalse => rfl

end Parts

/-- At 1 MiB, in memory full of ones: the first status register of the SBOX. -/
theorem boot_tables_identity_sbox :
    0x100000 % 4096 = 0 ∧
    MapsToItself (walk (readLE (pageTables 0x100000 fun _ => 255) 8) 3 0x100000 0x8007DAB40) 21
      0x8007DAB40 := by
  have h := boot_tables_identity 0x100000 (fun _ => 255) 0x8007DAB40 ⟨rfl, by decide⟩ (by decide)
  rw [if_pos (by decide)] at h
  exact ⟨rfl, h⟩

end Philix.Inky
