/-
# The kernel's page tables: `paging_setup` and the SBOX

The kernel's entry code stores into four pages, which `linker.lds` sets aside: entries of eight
bytes for the tables above, a loop of 32-bit stores for the first GiB, whose high halves stay as
they were loaded, and two more entries for the registers of the SBOX.

The latter are one too low, in both tables: the window starts 32 GiB and 3 pages of 2 MiB up,
the code stores entry 31 and entry 2.  `walk_kernelTables` says where the walk ends for every
address of 48 bits.

The rest of `kernel_entry` (the stack, `EFER`, `CR0`) does not touch these pages.  `CR3` is not
loaded anywhere, so that the processor walks the tables of the boot loader; what follows is about
the walk from `pml4`.
-/
import Philix.Lib.PageWalk
import Philix.Lib.StoreLoop

namespace Philix.Winky

open ByteMem StoreLoop PageWalk

/-! ## 1. The code that builds them -/

/-- `PHI_SBOX_BASE`. -/
def phiSboxBase : Nat := 0x8007D0000

/-- `PHI_SBOX_SIZE`. -/
def phiSboxSize : Nat := 64 * 1024

/-- A page below 4 GiB. -/
structure Table where
  addr : Nat
  aligned : addr % 4096 = 0
  below : addr + 4096 ≤ 4294967296

/-- The symbols of `linker.lds`. -/
structure Placement where
  pml4 : Table
  pdpt : Table
  pd : Table
  pdSbox : Table
  apart : [pml4.addr, pdpt.addr, pd.addr, pdSbox.addr].Nodup

section Build

variable (T : Placement) (m : Mem)

/-- "PML4[0] -> PDPT" -/
def linkPml4 : Mem :=
  let rax := T.pdpt.addr ||| 0x3
  let rbx := T.pml4.addr
  writeLE 8 rbx rax m

/-- "PDPT[0] -> PDT" -/
def linkPdpt : Mem :=
  let rax := T.pd.addr ||| 0x3
  let rbx := T.pdpt.addr
  writeLE 8 rbx rax m

/-- "Identity map the first GB" -/
def writePde : Mem :=
  let ecx := 512
  let edx := T.pd.addr
  let eax := 0x83
  storeLoop 8 0x200000 ecx edx eax m

/-- `paging_setup`. -/
def pagingSetup : Mem :=
  let m := linkPml4 T m
  let m := linkPdpt T m
  writePde T m

/-- "PDPT[31] -> PDT_SBOX" -/
def linkSbox : Mem :=
  let rax := T.pdSbox.addr ||| 0x3
  let rbx := T.pdpt.addr
  let rcx := 31
  writeLE 8 (rbx + 8 * rcx) rax m

/-- "PDT_SBOX[2] -> MAPPED" -/
def mapSbox : Mem :=
  let rax := T.pdSbox.addr
  let rbx := 2
  let rcx := 0x8007D0000 ||| 0x93
  writeLE 8 (rax + 8 * rbx) rcx m

/-- What `kernel_entry` does to the memory of the tables. -/
def kernelTables : Mem :=
  let m := pagingSetup T m
  let m := linkSbox T m
  mapSbox T m

end Build

/-! ## 2. One store into a table -/

/-- Entry `k` of the table. -/
def Table.entry (t : Table) (m : Mem) (k : Nat) : Nat := readLE m 8 (t.addr + 8 * k)

/-- The page holds zeroes. -/
def Table.Zeroed (t : Table) (m : Mem) : Prop := ∀ x, Range t.addr 4096 x → m x = 0

section Stores

variable {m : Mem} {t u : Table} {j k v : Nat}

theorem Table.entry_zeroed (h : t.Zeroed m) (hk : k < 512) : t.entry m k = 0 :=
  readLE_eq_zero fun x hx => h x (hx.mono (by omega))

/-- One entry that is stored. -/
theorem Table.entry_store (hj : j < 512) (hk : k < 512) (hv : v < 2 ^ 64) :
    t.entry (writeLE 8 (u.addr + 8 * j) v m) k =
      if u.addr = t.addr ∧ k = j then v else t.entry m k := by
  have ht := t.aligned
  have ht' := t.below
  have hu := u.aligned
  have hu' := u.below
  rw [Table.entry]
  by_cases h : u.addr = t.addr ∧ k = j
  · rw [if_pos h, h.1, h.2, readLE_writeLE (by decide)]
    exact Nat.mod_eq_of_lt hv
  · rw [if_neg h]
    refine readLE_congr fun x hx => writeLE_of_not_range fun hx' => h ?_
    rw [range_iff (by omega)] at hx hx'
    omega

/-- The loop stores the low halves of a table's entries. -/
theorem Table.entry_storeLoop {step eax : Nat} (hv : ∀ i < 512, eax + step * i < 4294967296)
    (hk : k < 512) :
    t.entry (storeLoop 8 step 512 u.addr eax m) k =
      if u.addr = t.addr then eax + step * k + 4294967296 * (t.entry m k / 4294967296)
      else t.entry m k := by
  have ht := t.aligned
  have ht' := t.below
  have hu := u.aligned
  have hu' := u.below
  by_cases h : u.addr = t.addr
  · have hsize : t.addr + 4 * 1024 ≤ 4294967296 := by omega
    have hstart : t.addr = (t.addr + 4 * 0) % 4294967296 := by omega
    have hlow : dword m t.addr (2 * k) < 256 ^ 4 := readLE_lt 4 _
    have heven : dword (storeLoop 8 step 512 ((t.addr + 4 * 0) % 4294967296) eax m) t.addr (2 * k) =
        _ := dword_quads hsize (by decide) (by omega) hv
    have hodd : dword (storeLoop 8 step 512 ((t.addr + 4 * 0) % 4294967296) eax m) t.addr
        (2 * k + 1) = _ := dword_quads hsize (by decide) (by omega) hv
    rw [← hstart, if_pos (by omega)] at heven
    rw [← hstart, if_neg (by omega)] at hodd
    rw [if_pos h, h, Table.entry, Table.entry, readLE_eight, readLE_eight, heven, hodd,
      Nat.sub_zero, Nat.mul_div_cancel_left k (by decide)]
    omega
  · rw [if_neg h]
    refine readLE_congr fun x hx => storeLoop_of_not_range (by decide) (by omega) fun hx' => h ?_
    rw [range_iff (by omega)] at hx hx'
    omega

/-- The flags of an aligned address do not overlap it. -/
theorem Table.or_flags (t : Table) {flags : Nat} (hf : flags < 4096) :
    t.addr ||| flags = t.addr + flags := by
  have haddr : t.addr = 2 ^ 12 * (t.addr / 4096) := by
    have := t.aligned
    omega
  rw [haddr]
  exact (Nat.two_pow_add_eq_or_of_lt hf _).symm

end Stores

/-! ## 3. What the tables hold -/

/-- The loader cleared the four pages. -/
def Placement.Zeroed (T : Placement) (m : Mem) : Prop :=
  T.pml4.Zeroed m ∧ T.pdpt.Zeroed m ∧ T.pd.Zeroed m ∧ T.pdSbox.Zeroed m

section Entries

variable {T : Placement} {m : Mem} {t : Table} {k : Nat}

theorem entry_linkPml4 (hk : k < 512) :
    t.entry (linkPml4 T m) k =
      if T.pml4.addr = t.addr ∧ k = 0 then T.pdpt.addr + 3 else t.entry m k := by
  have hlt := T.pdpt.below
  have heq : linkPml4 T m = writeLE 8 (T.pml4.addr + 8 * 0) (T.pdpt.addr + 3) m := by
    rw [linkPml4, T.pdpt.or_flags (by decide), Nat.mul_zero, Nat.add_zero T.pml4.addr]
  rw [heq, Table.entry_store (by decide) hk (by omega)]

theorem entry_linkPdpt (hk : k < 512) :
    t.entry (linkPdpt T m) k =
      if T.pdpt.addr = t.addr ∧ k = 0 then T.pd.addr + 3 else t.entry m k := by
  have hlt := T.pd.below
  have heq : linkPdpt T m = writeLE 8 (T.pdpt.addr + 8 * 0) (T.pd.addr + 3) m := by
    rw [linkPdpt, T.pd.or_flags (by decide), Nat.mul_zero, Nat.add_zero T.pdpt.addr]
  rw [heq, Table.entry_store (by decide) hk (by omega)]

theorem entry_writePde (hk : k < 512) :
    t.entry (writePde T m) k =
      if T.pd.addr = t.addr then 0x83 + 0x200000 * k + 4294967296 * (t.entry m k / 4294967296)
      else t.entry m k := by
  rw [writePde, Table.entry_storeLoop (fun i hi => by omega) hk]

theorem entry_linkSbox (hk : k < 512) :
    t.entry (linkSbox T m) k =
      if T.pdpt.addr = t.addr ∧ k = 31 then T.pdSbox.addr + 3 else t.entry m k := by
  have hlt := T.pdSbox.below
  have heq : linkSbox T m = writeLE 8 (T.pdpt.addr + 8 * 31) (T.pdSbox.addr + 3) m := by
    rw [linkSbox, T.pdSbox.or_flags (by decide)]
  rw [heq, Table.entry_store (by decide) hk (by omega)]

theorem entry_mapSbox (hk : k < 512) :
    t.entry (mapSbox T m) k =
      if T.pdSbox.addr = t.addr ∧ k = 2 then 0x8007D0093 else t.entry m k := by
  have hflags : 0x8007D0000 ||| 0x93 = 0x8007D0093 := by decide
  rw [mapSbox, hflags, Table.entry_store (by decide) hk (by decide)]

/-- The four tables after the code ran. -/
structure Built (T : Placement) (m : Mem) : Prop where
  pml4 : ∀ k < 512, T.pml4.entry m k = if k = 0 then T.pdpt.addr + 3 else 0
  pdpt : ∀ k < 512, T.pdpt.entry m k =
    if k = 0 then T.pd.addr + 3 else if k = 31 then T.pdSbox.addr + 3 else 0
  pd : ∀ k < 512, T.pd.entry m k = 0x83 + 0x200000 * k
  pdSbox : ∀ k < 512, T.pdSbox.entry m k = if k = 2 then 0x8007D0093 else 0

/-- **The tables**, entry by entry. -/
theorem built_kernelTables (hz : T.Zeroed m) : Built T (kernelTables T m) := by
  obtain ⟨hpml4, hpdpt, hpd, hsbox⟩ := hz
  have hapart := T.apart
  simp only [List.nodup_cons, List.mem_cons, List.not_mem_nil, or_false, not_or] at hapart
  obtain ⟨⟨h₁₂, h₁₃, h₁₄⟩, ⟨h₂₃, h₂₄⟩, h₃₄, -⟩ := hapart
  constructor <;> intro k hk <;>
    simp only [kernelTables, pagingSetup, entry_mapSbox hk, entry_linkSbox hk, entry_writePde hk,
      entry_linkPdpt hk, entry_linkPml4 hk]
  case pml4 =>
    simp only [Ne.symm h₁₂, Ne.symm h₁₃, Ne.symm h₁₄, false_and, if_false, true_and,
      Table.entry_zeroed hpml4 hk]
  case pdpt =>
    simp only [h₁₂, Ne.symm h₂₃, Ne.symm h₂₄, false_and, if_false, true_and,
      Table.entry_zeroed hpdpt hk]
    by_cases hlink : k = 0
    · rw [if_neg (by omega), if_pos hlink, if_pos hlink]
    · rw [if_neg hlink, if_neg hlink]
  case pd =>
    simp only [h₁₃, h₂₃, Ne.symm h₃₄, false_and, if_false, if_true,
      Table.entry_zeroed hpd hk, Nat.zero_div, Nat.mul_zero, Nat.add_zero]
  case pdSbox =>
    simp only [h₁₄, h₂₄, h₃₄, false_and, if_false, true_and, Table.entry_zeroed hsbox hk]

end Entries

/-! ## 4. The walk -/

section Walk

variable {T : Placement} {m : Mem} {t : Table} {level v : Nat}

theorem entryAt_table (m : Mem) (t : Table) (level v : Nat) :
    entryAt (readLE m 8) level t.addr v = t.entry m (index level v) := rfl

/-- An entry that points to the table `t`. -/
theorem walk_link {table : Nat} (he : entryAt (readLE m 8) (level + 1) table v = t.addr + 3) :
    walk (readLE m 8) (level + 1) table v = walk (readLE m 8) level t.addr v := by
  have hlt := t.below
  exact walk_to_table t.aligned (by omega) (by decide) (by decide) (by decide) he

/-- The root has one table of 512 GiB. -/
theorem walk_pml4 (B : Built T m) (hv : v < 2 ^ 48) :
    walk (readLE m 8) 3 T.pml4.addr v =
      if v < 2 ^ 39 then walk (readLE m 8) 2 T.pdpt.addr v else .notPresent := by
  have hindex : index 3 v = v / 549755813888 % 512 := rfl
  have he := entryAt_table m T.pml4 3 v
  rw [B.pml4 _ (by omega)] at he
  by_cases hroot : v < 2 ^ 39
  · rw [if_pos (by omega)] at he
    rw [if_pos hroot, walk_link he]
  · rw [if_neg (by omega)] at he
    rw [if_neg hroot, walk_notPresent he (by decide)]

/-- Its first entry and its 32nd have tables of 1 GiB. -/
theorem walk_pdpt (B : Built T m) (hv : v < 2 ^ 39) :
    walk (readLE m 8) 2 T.pdpt.addr v =
      if v < 2 ^ 30 then walk (readLE m 8) 1 T.pd.addr v
      else if v / 2 ^ 30 = 31 then walk (readLE m 8) 1 T.pdSbox.addr v
      else .notPresent := by
  have hindex : index 2 v = v / 1073741824 % 512 := rfl
  have he := entryAt_table m T.pdpt 2 v
  rw [B.pdpt _ (by omega)] at he
  by_cases hlow : v < 2 ^ 30
  · rw [if_pos (by omega)] at he
    rw [if_pos hlow, walk_link he]
  · rw [if_neg (by omega)] at he
    rw [if_neg hlow]
    by_cases hsbox : v / 2 ^ 30 = 31
    · rw [if_pos (by omega)] at he
      rw [if_pos hsbox, walk_link he]
    · rw [if_neg (by omega)] at he
      rw [if_neg hsbox, walk_notPresent he (by decide)]

/-- The first GiB. -/
theorem walk_pd (B : Built T m) (hv : v < 2 ^ 30) :
    MapsToItself (walk (readLE m 8) 1 T.pd.addr v) 21 v := by
  have hindex : index 1 v = v / 2097152 := Nat.mod_eq_of_lt (by simp only [pageBits]; omega)
  have he := entryAt_table m T.pd 1 v
  rw [B.pd _ (by omega), hindex] at he
  exact mapsToItself_of_entry (by omega) (by decide) (by decide) (by decide) (by decide) he

/-- The base of the SBOX is not that of a page of 2 MiB: bits 16 and 18 to 20 are reserved. -/
theorem walk_pdSbox (B : Built T m) (v : Nat) :
    walk (readLE m 8) 1 T.pdSbox.addr v =
      if v / 2 ^ 21 % 512 = 2 then .malformed else .notPresent := by
  have hindex : index 1 v = v / 2 ^ 21 % 512 := rfl
  have he := entryAt_table m T.pdSbox 1 v
  rw [B.pdSbox _ (by omega), hindex] at he
  by_cases hentry : v / 2 ^ 21 % 512 = 2
  · rw [if_pos hentry] at he
    rw [if_pos hentry, walk_malformed he (by decide) (by decide) (by decide)]
  · rw [if_neg hentry] at he
    rw [if_neg hentry, walk_notPresent he (by decide)]

/-- **Where the walk ends**, for every address of 48 bits: the first GiB is mapped to itself,
the page 31 GiB and 4 MiB up has the entry meant for the SBOX, which is malformed, and there is
nothing else. -/
theorem walk_kernelTables (hz : T.Zeroed m) (hv : v < 2 ^ 48) :
    if v < 2 ^ 30 then MapsToItself (walk (readLE (kernelTables T m) 8) 3 T.pml4.addr v) 21 v
    else walk (readLE (kernelTables T m) 8) 3 T.pml4.addr v =
      if v / 2 ^ 21 = 31 * 512 + 2 then .malformed else .notPresent := by
  have B := built_kernelTables hz
  rw [walk_pml4 B hv]
  by_cases hlow : v < 2 ^ 30
  · rw [if_pos hlow, if_pos (by omega), walk_pdpt B (by omega), if_pos hlow]
    exact walk_pd B hlow
  · rw [if_neg hlow]
    by_cases hroot : v < 2 ^ 39
    · rw [if_pos hroot, walk_pdpt B hroot, if_neg hlow]
      by_cases hsbox : v / 2 ^ 30 = 31
      · rw [if_pos hsbox, walk_pdSbox B]
        by_cases hentry : v / 2 ^ 21 % 512 = 2
        · rw [if_pos hentry, if_pos (by omega)]
        · rw [if_neg hentry, if_neg (by omega)]
      · rw [if_neg hsbox, if_neg (by omega)]
    · rw [if_neg hroot, if_neg (by omega)]

/-- No address of the SBOX has a page. -/
theorem walk_sbox (hz : T.Zeroed m) (hbase : phiSboxBase ≤ v)
    (hend : v < phiSboxBase + phiSboxSize) :
    walk (readLE (kernelTables T m) 8) 3 T.pml4.addr v = .notPresent := by
  unfold phiSboxBase phiSboxSize at *
  have h := walk_kernelTables (v := v) hz (by omega)
  rwa [if_neg (by omega), if_neg (by omega)] at h

/-- **What the kernel uses is mapped up to 1 GiB only.**  Wherever the four pages are, an address
of the first GiB or of the SBOX's window is mapped to itself, through a well-formed entry of a
page of 2 MiB, exactly when it is one of the first GiB. -/
theorem kernel_tables_map_iff (T : Placement) (m : Mem) (v : Nat) (hz : T.Zeroed m)
    (huse : v < 2 ^ 30 ∨ phiSboxBase ≤ v ∧ v < phiSboxBase + phiSboxSize) :
    MapsToItself (walk (readLE (kernelTables T m) 8) 3 T.pml4.addr v) 21 v ↔ v < 2 ^ 30 := by
  constructor
  · intro hself
    refine huse.resolve_right fun hsbox => ?_
    rw [walk_sbox hz hsbox.1 hsbox.2] at hself
    exact hself.ne_notPresent rfl
  · intro hlow
    have h := walk_kernelTables (v := v) hz (by omega)
    rwa [if_pos hlow] at h

end Walk

/-- The kernel is linked at 16 MiB, and its `.boot` starts with less than a page of code. -/
def linked16M : Placement where
  pml4 := ⟨0x1001000, rfl, by decide⟩
  pdpt := ⟨0x1002000, rfl, by decide⟩
  pd := ⟨0x1003000, rfl, by decide⟩
  pdSbox := ⟨0x1004000, rfl, by decide⟩
  apart := by decide

theorem linked16M_zeroed : linked16M.Zeroed fun _ => 0 :=
  ⟨fun _ _ => rfl, fun _ _ => rfl, fun _ _ => rfl, fun _ _ => rfl⟩

/-- The end of the boot stack. -/
theorem kernel_tables_map_iff_stack :
    (linked16M.Zeroed fun _ => 0) ∧
    (MapsToItself (walk (readLE (kernelTables linked16M fun _ => 0) 8) 3 linked16M.pml4.addr
      0x1206000) 21 0x1206000 ↔ 0x1206000 < 2 ^ 30) :=
  ⟨linked16M_zeroed,
    kernel_tables_map_iff linked16M (fun _ => 0) 0x1206000 linked16M_zeroed (Or.inl (by decide))⟩

/-- The first register of the SBOX. -/
theorem sbox_base_not_mapped :
    (linked16M.Zeroed fun _ => 0) ∧
    phiSboxBase < phiSboxBase + phiSboxSize ∧
    walk (readLE (kernelTables linked16M fun _ => 0) 8) 3 linked16M.pml4.addr phiSboxBase =
      .notPresent ∧
    ¬ MapsToItself (walk (readLE (kernelTables linked16M fun _ => 0) 8) 3 linked16M.pml4.addr
      phiSboxBase) 21 phiSboxBase := by
  have h := walk_sbox linked16M_zeroed (Nat.le_refl phiSboxBase) (by decide)
  exact ⟨linked16M_zeroed, by decide, h, fun hself => hself.ne_notPresent h⟩

end Philix.Winky
