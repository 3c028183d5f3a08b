/-
# From `startup_32` to `loader`: `boot.S`

The boot loader is linked at 0 and runs wherever it has been loaded.  `startup_32` finds out
where, with a stack of eight bytes in the boot parameters; `prepare_long_mode` builds the page
tables and jumps into 64-bit code through that stack; `startup_64` sets up the real stack and
calls `loader`.

Each jump goes to an address that the code has computed or read back from memory.  `enter`
follows the code as long as that is the address of the next piece, for the last jump as long
as the processor is set up for 64-bit code, and past `ltr` when it does not fault;
`boot_to_loader` says that it gets to the call, wherever the loader is, and what holds there.

`%eax`, `%ecx`, `%edx`, `%edi` and `%ebp` carry nothing from one piece to the next.  The data
segment registers, of no use to 64-bit code, are left out.
-/
import Philix.Inky.BootTables
import Philix.Inky.BootParams

namespace Philix.Inky

open ByteMem StoreLoop PageWalk Loop

/-! ## 1. The code -/

/-- The processor.  `gdtr` is the limit and the base. -/
structure Cpu where
  ebx : Nat
  esi : Nat
  esp : Nat
  cs : Nat
  cr0 : Nat
  cr3 : Nat
  cr4 : Nat
  efer : Nat
  gdtr : Nat × Nat
  mem : Mem

/-- Link addresses: `one` is the label `1` of `startup_32`, `called` what follows the call of
`loader`. -/
structure Symbols where
  one : Nat
  prepareLongMode : Nat
  startup64 : Nat
  called : Nat
  gdt : Nat
  bootStackEnd : Nat
  pgtable : Nat

/-- `BP_SCRATCH` -/
def bpScratch : Nat := 484

/-- `LONG_MODE_CS` -/
def longModeCs : Nat := 0x10

/-- 32-bit subtraction. -/
def sub32 (a b : Nat) : Nat := add32 a (4294967296 - b)

def Cpu.pushl (v : Nat) (c : Cpu) : Cpu :=
  let esp := sub32 c.esp 4
  { c with esp, mem := writeLE 4 esp v c.mem }

def Cpu.popl (c : Cpu) : Nat × Cpu := (readLE c.mem 4 c.esp, { c with esp := add32 c.esp 4 })

/-- `startup_32`, loaded at `load`, and where it jumps to. -/
def startup32 (S : Symbols) (load : Nat) (c : Cpu) : Nat × Cpu :=
  let c := { c with esp := add32 c.esi (bpScratch + 4) }
  -- "call 1f; 1: popl %ebp"
  let c := c.pushl (add32 S.one load)
  let (ebp, c) := c.popl
  let ebp := sub32 ebp S.one
  let c := { c with ebx := ebp }
  (add32 S.prepareLongMode c.ebx, c)

/-- "Load new GDT with the 64bit segments" -/
def loadGdt (S : Symbols) (c : Cpu) : Cpu :=
  let eax := add32 S.gdt c.ebx
  let m := writeLE 4 (add32 (S.gdt + 2) c.ebx) eax c.mem
  { c with
    gdtr := (readLE m 2 (add32 S.gdt c.ebx), readLE m 4 (add32 (S.gdt + 2) c.ebx))
    mem := m }

/-- `prepare_long_mode`, and where its `lret` goes to. -/
def prepareLongMode (S : Symbols) (c : Cpu) : Nat × Cpu :=
  let c := loadGdt S c
  let c := { c with cr4 := c.cr4 ||| 0x20 }
  let c := { c with mem := pageTables (add32 S.pgtable c.ebx) c.mem }
  let c := { c with cr3 := add32 S.pgtable c.ebx }
  let c := { c with efer := c.efer ||| 1 <<< 8 }
  let c := c.pushl longModeCs
  let c := c.pushl (add32 S.startup64 c.ebx)
  let c := { c with cr0 := c.cr0 ||| (0x80000000 ||| 0x00000001) }
  -- "lret"
  let (eip, c) := c.popl
  let (cs, c) := c.popl
  (eip, { c with cs })

/-- What `loader` is called with. -/
structure LoaderCall where
  rdi : Nat
  rsi : Nat
  rsp : Nat
  cpu : Cpu

/-- The memory after `ltr`: the descriptor is marked busy. -/
def Cpu.ltr (sel : Nat) (c : Cpu) : Mem :=
  let typ := wrap (c.gdtr.2 + sel + 5)
  writeByte c.mem typ (readByte c.mem typ ||| 2)

/-- `startup_64`, up to the call. -/
def startup64 (S : Symbols) (c : Cpu) : LoaderCall :=
  let m := c.ltr 0x20
  let rsp := wrap (S.bootStackEnd + c.ebx)
  -- "pushq $0; popf"
  let m := writeLE 8 (sub64 rsp 8) 0 m
  -- "call loader"
  let m := writeLE 8 (sub64 rsp 8) (wrap (S.called + c.ebx)) m
  { rdi := k1omBootMagic, rsi := c.esi, rsp := sub64 rsp 8, cpu := { c with mem := m } }

/-! ## 2. Getting into 64-bit code -/

/-- A present code segment for 64-bit code: `P`, `S`, `E` and `L` are set, `D` is clear. -/
def Code64 (d : Nat) : Prop :=
  d.testBit 47 ∧ d.testBit 44 ∧ d.testBit 43 ∧ d.testBit 53 ∧ ¬ d.testBit 54

instance (d : Nat) : Decidable (Code64 d) := inferInstanceAs (Decidable (_ ∧ _))

/-- The processor runs 64-bit code: protection and paging, physical address extension and long
mode are enabled, and `%cs` is within the table and names a segment for such code. -/
def LongMode (c : Cpu) : Prop :=
  c.cr0.testBit 0 ∧ c.cr0.testBit 31 ∧ c.cr4.testBit 5 ∧ c.efer.testBit 8 ∧
    c.cs + 7 ≤ c.gdtr.1 ∧ Code64 (readLE c.mem 8 (c.gdtr.2 + c.cs))

instance (c : Cpu) : Decidable (LongMode c) := inferInstanceAs (Decidable (_ ∧ _))

/-- `ltr` takes the selector: it is within the table and names a present, available task state
segment. -/
def AvailableTss (sel : Nat) (c : Cpu) : Prop :=
  let d := readLE c.mem 8 (c.gdtr.2 + sel)
  sel + 15 ≤ c.gdtr.1 ∧ d.testBit 47 ∧ ¬ d.testBit 44 ∧ d / 2 ^ 40 % 16 = 9

instance (sel : Nat) (c : Cpu) : Decidable (AvailableTss sel c) :=
  inferInstanceAs (Decidable (_ ∧ _))

/-- From `startup_32` to the call of `loader`. -/
def enter (S : Symbols) (load : Nat) (c : Cpu) : Option LoaderCall :=
  let (eip, c) := startup32 S load c
  if eip = add32 S.prepareLongMode load then
    let (eip, c) := prepareLongMode S c
    if eip = add32 S.startup64 load ∧ LongMode c ∧ AvailableTss 0x20 c then
      some (startup64 S c)
    else none
  else none

/-! ## 3. Page tables that stay -/

section Tables

variable {pgtable v : Nat} {m m' : Mem}

/-- The seven pages. -/
def TablePages (pgtable x : Nat) : Prop := Range pgtable 28672 x

/-- A store into the pages. -/
theorem writeLE_tables {j w x : Nat} (P : Placed32 pgtable) (hj : j < 7168)
    (hx : ¬ TablePages pgtable x) : writeLE 4 ((pgtable + 4 * j) % 4294967296) w m x = m x := by
  have hlt := P.below
  refine writeLE_of_not_range fun h => hx ?_
  rw [Nat.mod_eq_of_lt (by omega)] at h
  exact h.mono (by omega)

/-- A loop of stores into the pages. -/
theorem storeLoop_tables {stride step n j eax x : Nat} (P : Placed32 pgtable) (hs : 4 ≤ stride)
    (hj : 4 * j + stride * (n - 1) + 4 ≤ 28672) (hx : ¬ TablePages pgtable x) :
    storeLoop stride step n ((pgtable + 4 * j) % 4294967296) eax m x = m x := by
  cases n with
  | zero => rfl
  | succ n =>
    have hlt := P.below
    rw [Nat.add_sub_cancel] at hj
    rw [Nat.mod_eq_of_lt (by omega)]
    exact storeLoop_succ_of_not_range hs (by omega) fun h => hx (h.mono (by omega))

/-- Nothing else changes. -/
theorem pageTables_of_not_tables (P : Placed32 pgtable) {x : Nat} (hx : ¬ TablePages pgtable x) :
    pageTables pgtable m x = m x := by
  have hlt := P.below
  have hclear : clearTables pgtable m x = m x := by
    have heq : clearTables pgtable m =
        storeLoop 4 0 6144 ((pgtable + 4 * 0) % 4294967296) 0 m := by
      rw [Nat.mul_zero, Nat.add_zero, Nat.mod_eq_of_lt (by omega)]
      rfl
    rw [heq]
    exact storeLoop_tables P (by decide) (by decide) hx
  have h4 : ∀ m : Mem, buildLevel4 pgtable m x = m x := fun m =>
    writeLE_tables (j := 0) P (by decide) hx
  have h3 : ∀ m : Mem, buildLevel3 pgtable m x = m x := by
    intro m
    have hedi : add32 pgtable 0x1000 = (pgtable + 4 * 1024) % 4294967296 := by simp only [add32]
    rw [buildLevel3, hedi]
    exact storeLoop_tables P (by decide) (by decide) hx
  have h2 : ∀ m : Mem, buildLevel2 pgtable m x = m x := by
    intro m
    have hedi : add32 pgtable 0x2000 = (pgtable + 4 * 2048) % 4294967296 := by simp only [add32]
    rw [buildLevel2, hedi]
    exact storeLoop_tables P (by decide) (by decide) hx
  have h3s : ∀ m : Mem, buildLevel3Serial pgtable m x = m x := by
    intro m
    have hedi : add32 (add32 pgtable 0x1000) 256 = (pgtable + 4 * 1088) % 4294967296 := by
      simp only [add32]
      omega
    rw [buildLevel3Serial, hedi]
    exact writeLE_tables P (by decide) hx
  have h2s : ∀ m : Mem, buildLevel2Serial pgtable m x = m x := by
    intro m
    have hedi : add32 pgtable 0x6000 = (pgtable + 4 * 6144) % 4294967296 := by simp only [add32]
    rw [buildLevel2Serial, hedi]
    exact storeLoop_tables P (by decide) (by decide) hx
  have h2h : ∀ m : Mem, buildLevel2High pgtable m x = m x := by
    intro m
    have hedi : add32 (add32 pgtable 0x6000) 4 = (pgtable + 4 * 6145) % 4294967296 := by
      simp only [add32]
      omega
    rw [buildLevel2High, hedi]
    exact storeLoop_tables P (by decide) (by decide) hx
  rw [pageTables, h2h, h2s, h3s, h2, h3, h4, hclear]

/-- Memory with the tables in it is what building them once more would leave. -/
theorem pageTables_eq_self (P : Placed32 pgtable)
    (h : Agree (TablePages pgtable) (pageTables pgtable m) m') : pageTables pgtable m' = m' := by
  funext x
  by_cases hx : TablePages pgtable x
  · have hlt := P.below
    have hin := (range_iff (by omega)).mp hx
    have hquad : readLE (pageTables pgtable m') 8 (pgtable + 8 * ((x - pgtable) / 8)) =
        readLE m' 8 (pgtable + 8 * ((x - pgtable) / 8)) := by
      rw [quad_pageTables P (by omega), ← quad_pageTables (m := m) P (by omega)]
      exact readLE_congr (h.mono fun y hy => hy.mono (by omega))
    refine agree_of_readLE_eq hquad x ?_
    rw [range_iff (by omega)]
    omega
  · exact pageTables_of_not_tables P hx

/-- The walk takes each address of the first 4 GiB to itself. -/
theorem walk_low (P : Placed32 pgtable) (hv : v < 2 ^ 32) :
    MapsToItself (walk (readLE (pageTables pgtable m) 8) 3 pgtable v) 21 v := by
  have hindex : index 1 v = v / 2097152 % 512 := rfl
  have he := entryAt_pageTables pgtable m 1 (2 + v / 1073741824) v
  rw [quad_pageTables P (by omega)] at he
  simp (disch := omega) only [if_pos, if_neg] at he
  rw [walk_root P v (by omega), if_pos (by omega), walk_level2 P v (by omega), if_pos hv]
  exact walk_page_self (by omega) (he.trans (by omega))

/-- And each address of the GiB from 32 GiB on. -/
theorem walk_serial (P : Placed32 pgtable) (hlow : 2 ^ 35 ≤ v) (hhigh : v < 2 ^ 35 + 2 ^ 30) :
    MapsToItself (walk (readLE (pageTables pgtable m) 8) 3 pgtable v) 21 v := by
  have hindex : index 1 v = v / 2097152 % 512 := rfl
  have he := entryAt_pageTables pgtable m 1 6 v
  rw [quad_pageTables P (by omega)] at he
  simp (disch := omega) only [if_pos, if_neg] at he
  rw [walk_root P v (by omega), if_pos (by omega), walk_level2 P v (by omega), if_neg (by omega),
    if_pos ⟨hlow, hhigh⟩]
  exact walk_page_self (by omega) (he.trans (by omega))

end Tables

/-! ## 4. The loader in memory -/

/-- The descriptors behind the first eight bytes of `gdt`, which are the operand of `lgdt`. -/
def gdtQuads : List Nat :=
  [0x0000000000000000, 0x00af9a000000ffff, 0x00cf92000000ffff, 0x0080890000000000,
   0x0000000000000000]

/-- `gdt_end - gdt` -/
def gdtSize : Nat := 8 + 8 * gdtQuads.length

/-- `BOOT_STACK_SIZE` -/
def bootStackSize : Nat := 0x4000

/-- The loader has been loaded at `load`, below 4 GiB, and started with the boot parameters at
`%esi`.  The stack follows the descriptors; neither they nor the parameters nor the page
tables overlap. -/
structure Loaded32 (S : Symbols) (load : Nat) (c : Cpu) : Prop where
  load_lt : load < 4294967296
  one_lt : S.one < 4294967296
  tables : Placed32 (load + S.pgtable)
  aligned : (load + S.gdt) % 16 = 0
  stack : S.bootStackEnd = S.gdt + gdtSize + bootStackSize
  data_le : load + S.bootStackEnd ≤ 4294967296
  params_le : c.esi + 609 ≤ 4294967296
  limit : readLE c.mem 2 (load + S.gdt) = gdtSize
  quads : ∀ i (h : i < gdtQuads.length), readLE c.mem 8 (load + S.gdt + 8 + 8 * i) = gdtQuads[i]
  data_tables : S.bootStackEnd ≤ S.pgtable ∨ S.pgtable + 28672 ≤ S.gdt
  params_data : c.esi + 609 ≤ load + S.gdt ∨ load + S.bootStackEnd ≤ c.esi
  params_tables : c.esi + 609 ≤ load + S.pgtable ∨ load + S.pgtable + 28672 ≤ c.esi

/-- What the code up to the jump into 64-bit code writes. -/
def Written32 (S : Symbols) (load : Nat) (c : Cpu) (x : Nat) : Prop :=
  Range (c.esi + 480) 8 x ∨ Range (load + S.gdt + 2) 4 x ∨ TablePages (load + S.pgtable) x

/-- What all of it writes: also the type of the task state segment, and the top of the stack. -/
def Written (S : Symbols) (load : Nat) (c : Cpu) (x : Nat) : Prop :=
  Written32 S load c x ∨ x = load + S.gdt + 37 ∨ Range (load + S.bootStackEnd - 8) 8 x

section Entry

variable {S : Symbols} {load : Nat} {c : Cpu}

theorem add32_of_lt {a b : Nat} (h : a + b < 4294967296) : add32 a b = a + b := Nat.mod_eq_of_lt h

theorem sub32_of_le {a b : Nat} (hb : b ≤ a) (ha : a < 4294967296) : sub32 a b = a - b := by
  rw [sub32, add32]
  omega

/-- Where it is: `startup_32` gets `load` into `%ebx`. -/
theorem startup32_eq (L : Loaded32 S load c) :
    startup32 S load c = (add32 S.prepareLongMode load, { c with
      ebx := load
      esp := c.esi + 488
      mem := writeLE 4 (c.esi + 484) (add32 S.one load) c.mem }) := by
  have h₁ := L.load_lt
  have h₂ := L.one_lt
  have h₃ := L.params_le
  have hesp : add32 c.esi (bpScratch + 4) = c.esi + 488 := add32_of_lt (by rw [bpScratch]; omega)
  have hpush : sub32 (c.esi + 488) 4 = c.esi + 484 := sub32_of_le (by omega) (by omega)
  have hpop : add32 (c.esi + 484) 4 = c.esi + 488 := add32_of_lt (by omega)
  have hebp : sub32 (add32 S.one load % 256 ^ 4) S.one = load := by
    simp only [sub32, add32]
    omega
  simp only [startup32, Cpu.pushl, Cpu.popl, hesp, hpush, hpop]
  rw [readLE_writeLE (by decide), hebp]

/-- The operand of `lgdt`: the limit is that of the image, the base has just been stored. -/
theorem loadGdt_eq (L : Loaded32 S load c) {c' : Cpu} (hebx : c'.ebx = load)
    (hlimit : readLE c'.mem 2 (load + S.gdt) = gdtSize) :
    loadGdt S c' = { c' with
      gdtr := (gdtSize, load + S.gdt)
      mem := writeLE 4 (load + S.gdt + 2) (load + S.gdt) c'.mem } := by
  have h₁ := L.data_le
  have h₂ := L.stack
  have hsize : gdtSize = 48 := rfl
  have heax : add32 S.gdt load = load + S.gdt := by
    rw [add32_of_lt (by omega), Nat.add_comm]
  have hbase : add32 (S.gdt + 2) load = load + S.gdt + 2 := by
    rw [add32_of_lt (by omega)]
    omega
  have hread : readLE (writeLE 4 (load + S.gdt + 2) (load + S.gdt) c'.mem) 2 (load + S.gdt) =
      gdtSize := by
    rw [← hlimit]
    refine readLE_congr fun x hx => writeLE_of_not_range fun hx' => ?_
    rw [range_iff (by omega)] at hx hx'
    omega
  simp only [loadGdt, hebx, heax, hbase, hread]
  rw [readLE_writeLE (by decide), Nat.mod_eq_of_lt (by omega)]

/-- The memory that `prepare_long_mode` leaves. -/
def preparedMem (S : Symbols) (load esi : Nat) (m : Mem) : Mem :=
  writeLE 4 (esi + 480) (add32 S.startup64 load) (writeLE 4 (esi + 484) longModeCs
    (pageTables (load + S.pgtable) (writeLE 4 (load + S.gdt + 2) (load + S.gdt) m)))

/-- The far return finds on the stack what has been pushed. -/
theorem prepareLongMode_eq (L : Loaded32 S load c) {c' : Cpu} (hebx : c'.ebx = load)
    (hesp : c'.esp = c.esi + 488) (hlimit : readLE c'.mem 2 (load + S.gdt) = gdtSize) :
    prepareLongMode S c' = (add32 S.startup64 load, { c' with
      esp := c.esi + 488
      cs := longModeCs
      cr0 := c'.cr0 ||| (0x80000000 ||| 0x00000001)
      cr3 := load + S.pgtable
      cr4 := c'.cr4 ||| 0x20
      efer := c'.efer ||| 1 <<< 8
      gdtr := (gdtSize, load + S.gdt)
      mem := preparedMem S load c.esi c'.mem }) := by
  have h₁ := L.params_le
  have h₂ := L.tables.below
  have hpg : add32 S.pgtable load = load + S.pgtable := by
    rw [add32_of_lt (by omega), Nat.add_comm]
  have hpush₁ : sub32 (c.esi + 488) 4 = c.esi + 484 := sub32_of_le (by omega) (by omega)
  have hpush₂ : sub32 (c.esi + 484) 4 = c.esi + 480 := sub32_of_le (by omega) (by omega)
  have hpop₁ : add32 (c.esi + 480) 4 = c.esi + 484 := add32_of_lt (by omega)
  have hpop₂ : add32 (c.esi + 484) 4 = c.esi + 488 := add32_of_lt (by omega)
  have heip : readLE (preparedMem S load c.esi c'.mem) 4 (c.esi + 480) =
      add32 S.startup64 load := by
    rw [preparedMem, readLE_writeLE (by decide)]
    exact Nat.mod_mod _ _
  have hcs : readLE (preparedMem S load c.esi c'.mem) 4 (c.esi + 484) = longModeCs := by
    have hbelow : Agree (Range (c.esi + 484) 4) (preparedMem S load c.esi c'.mem)
        (writeLE 4 (c.esi + 484) longModeCs (pageTables (load + S.pgtable)
          (writeLE 4 (load + S.gdt + 2) (load + S.gdt) c'.mem))) := by
      intro x hx
      refine writeLE_of_not_range fun hx' => ?_
      rw [range_iff (by omega)] at hx hx'
      omega
    rw [readLE_congr hbelow, readLE_writeLE (by decide)]
    rfl
  rw [preparedMem] at heip hcs
  simp only [prepareLongMode, Cpu.pushl, Cpu.popl, loadGdt_eq L hebx hlimit, hebx, hesp, hpg,
    hpush₁, hpush₂, hpop₁, hpop₂, heip, hcs, preparedMem]

/-- What it has written. -/
theorem preparedMem_of_not_written (L : Loaded32 S load c) (m : Mem) {x : Nat}
    (hx : ¬ Written32 S load c x) : preparedMem S load c.esi m x = m x := by
  simp only [Written32, not_or] at hx
  obtain ⟨hstack, hgdt, htables⟩ := hx
  rw [preparedMem, writeLE_of_not_range fun h => hstack (h.of_le (by omega)),
    writeLE_of_not_range fun h => hstack (h.mono (j := 4) (k := 4) (by omega)),
    pageTables_of_not_tables L.tables htables, writeLE_of_not_range hgdt]

/-- The processor when it gets into 64-bit code. -/
def switched (S : Symbols) (load : Nat) (c : Cpu) : Cpu := { c with
  ebx := load
  esp := c.esi + 488
  cs := longModeCs
  cr0 := c.cr0 ||| (0x80000000 ||| 0x00000001)
  cr3 := load + S.pgtable
  cr4 := c.cr4 ||| 0x20
  efer := c.efer ||| 1 <<< 8
  gdtr := (gdtSize, load + S.gdt)
  mem := preparedMem S load c.esi (writeLE 4 (c.esi + 484) (add32 S.one load) c.mem) }

theorem switched_mem (L : Loaded32 S load c) :
    Agree (fun x => ¬ Written32 S load c x) (switched S load c).mem c.mem := by
  intro x hx
  have hstack : ¬ Range (c.esi + 484) 4 x := fun h =>
    hx (Or.inl (h.mono (j := 4) (k := 4) (by omega)))
  exact (preparedMem_of_not_written L _ hx).trans (writeLE_of_not_range hstack)

/-- The descriptors are still those of the image. -/
theorem switched_quad (L : Loaded32 S load c) {i : Nat} (hi : i < gdtQuads.length) :
    readLE (switched S load c).mem 8 (load + S.gdt + 8 + 8 * i) = gdtQuads[i] := by
  have h₁ := L.stack
  have h₂ := L.data_le
  have h₃ := L.data_tables
  have h₄ := L.params_data
  have h₅ := L.params_le
  have h₆ := L.tables.below
  have hsize : gdtSize = 48 := rfl
  have hlen : gdtQuads.length = 5 := rfl
  rw [← L.quads i hi]
  refine readLE_congr ((switched_mem L).mono fun x hx => ?_)
  rw [range_iff (by omega)] at hx
  simp only [Written32, TablePages, not_or]
  refine ⟨fun h => ?_, fun h => ?_, fun h => ?_⟩ <;>
  · rw [range_iff (by omega)] at h
    omega

theorem longMode_switched (L : Loaded32 S load c) : LongMode (switched S load c) := by
  have hwithin : longModeCs + 7 ≤ gdtSize := by decide
  refine ⟨?_, ?_, ?_, ?_, hwithin, ?_⟩
  · exact (Nat.testBit_or ..).trans (Bool.or_eq_true_iff.mpr (Or.inr (by decide)))
  · exact (Nat.testBit_or ..).trans (Bool.or_eq_true_iff.mpr (Or.inr (by decide)))
  · exact (Nat.testBit_or ..).trans (Bool.or_eq_true_iff.mpr (Or.inr (by decide)))
  · exact (Nat.testBit_or ..).trans (Bool.or_eq_true_iff.mpr (Or.inr (by decide)))
  · have hcode : readLE (switched S load c).mem 8 (load + S.gdt + 16) = 0x00af9a000000ffff :=
      switched_quad L (i := 1) (by decide)
    change Code64 (readLE (switched S load c).mem 8 (load + S.gdt + 16))
    rw [hcode]
    decide

theorem availableTss_switched (L : Loaded32 S load c) :
    AvailableTss 0x20 (switched S load c) := by
  have htss : readLE (switched S load c).mem 8 (load + S.gdt + 32) = 0x0080890000000000 :=
    switched_quad L (i := 3) (by decide)
  change 0x20 + 15 ≤ gdtSize ∧
    (readLE (switched S load c).mem 8 (load + S.gdt + 32)).testBit 47 = true ∧
    ¬ (readLE (switched S load c).mem 8 (load + S.gdt + 32)).testBit 44 = true ∧
    readLE (switched S load c).mem 8 (load + S.gdt + 32) / 2 ^ 40 % 16 = 9
  rw [htss]
  decide

/-- The memory after the two pushes of `startup_64`. -/
def calledMem (S : Symbols) (load : Nat) (m : Mem) : Mem :=
  writeLE 8 (load + S.bootStackEnd - 8) (wrap (S.called + load))
    (writeLE 8 (load + S.bootStackEnd - 8) 0 m)

/-- The call of `loader`. -/
def called (S : Symbols) (load : Nat) (c : Cpu) : LoaderCall where
  rdi := k1omBootMagic
  rsi := c.esi
  rsp := load + S.bootStackEnd - 8
  cpu := { switched S load c with mem := calledMem S load ((switched S load c).ltr 0x20) }

theorem startup64_eq (L : Loaded32 S load c) :
    startup64 S (switched S load c) = called S load c := by
  have h₁ := L.stack
  have h₂ := L.data_le
  have hsize : gdtSize = 48 := rfl
  have hebx : (switched S load c).ebx = load := rfl
  have hesi : (switched S load c).esi = c.esi := rfl
  have hrsp : sub64 (wrap (S.bootStackEnd + load)) 8 = load + S.bootStackEnd - 8 := by
    rw [sub64, wrap, wrap]
    omega
  simp only [startup64, called, calledMem, hebx, hesi, hrsp]

/-- **The run.**  Every jump lands, wherever the loader has been loaded. -/
theorem enter_eq (L : Loaded32 S load c) :
    enter S load c = some (called S load c) := by
  have h₁ := L.stack
  have h₂ := L.data_le
  have h₃ := L.params_data
  have h₄ := L.params_le
  have hsize : gdtSize = 48 := rfl
  have hlimit : readLE (writeLE 4 (c.esi + 484) (add32 S.one load) c.mem) 2 (load + S.gdt) =
      gdtSize := by
    rw [← L.limit]
    refine readLE_congr fun x hx => writeLE_of_not_range fun hx' => ?_
    rw [range_iff (by omega)] at hx hx'
    omega
  have hprepare := @prepareLongMode_eq _ _ _ L { c with
    ebx := load
    esp := c.esi + 488
    mem := writeLE 4 (c.esi + 484) (add32 S.one load) c.mem } rfl rfl hlimit
  rw [enter, startup32_eq L]
  dsimp only
  rw [if_pos rfl, hprepare]
  have hcond : add32 S.startup64 load = add32 S.startup64 load ∧ LongMode (switched S load c) ∧
      AvailableTss 0x20 (switched S load c) :=
    ⟨rfl, longMode_switched L, availableTss_switched L⟩
  rw [← startup64_eq L]
  exact if_pos hcond

/-! ## 5. The call -/

/-- What `loader` finds when it is called: its arguments, the address to return to on an
aligned stack, the first 4 GiB mapped to themselves, the boot parameters as they were but for
the scratch area, and the rest of memory too. -/
structure AtLoader (S : Symbols) (load : Nat) (c : Cpu) (r : LoaderCall) : Prop where
  magic : r.rdi = k1omBootMagic
  params : r.rsi = c.esi
  stack : r.rsp + 8 = load + S.bootStackEnd
  aligned : (r.rsp + 8) % 16 = 0
  returns : readLE r.cpu.mem 8 r.rsp = wrap (S.called + load)
  identity : ∀ v < 2 ^ 32, MapsToItself (walk (readLE r.cpu.mem 8) 3 r.cpu.cr3 v) 21 v
  fields : ∀ f, f ≠ .scratch → f ≠ .pad6 → field r.cpu.mem c.esi f = field c.mem c.esi f
  kept : ∀ x, ¬ Written S load c x → r.cpu.mem x = c.mem x

/-- The memory at the call, from that of the switch on. -/
theorem called_mem (L : Loaded32 S load c) {x : Nat} (htss : x ≠ load + S.gdt + 37)
    (hstack : ¬ Range (load + S.bootStackEnd - 8) 8 x) :
    (called S load c).cpu.mem x = (switched S load c).mem x := by
  have h₁ := L.stack
  have h₂ := L.data_le
  have hsize : gdtSize = 48 := rfl
  have htyp : wrap (load + S.gdt + 0x20 + 5) = load + S.gdt + 37 := wrap_of_lt (by omega)
  have hltr : (switched S load c).ltr 0x20 x = (switched S load c).mem x := by
    refine writeByte_of_ne (fun h => htss ?_) _
    rw [h, wrap_wrap]
    exact htyp
  rw [called]
  dsimp only
  rw [calledMem, writeLE_of_not_range hstack, writeLE_of_not_range hstack, hltr]

theorem called_kept (L : Loaded32 S load c) {x : Nat} (hx : ¬ Written S load c x) :
    (called S load c).cpu.mem x = c.mem x := by
  simp only [Written, not_or] at hx
  obtain ⟨hx, htss, hstack⟩ := hx
  rw [called_mem L htss hstack]
  exact switched_mem L x hx

/-- The members of the block that the stack is not in. -/
theorem called_field (L : Loaded32 S load c) {f : Member} (hs : f ≠ .scratch)
    (hp : f ≠ .pad6) :
    field (called S load c).cpu.mem c.esi f = field c.mem c.esi f := by
  have h₁ := L.stack
  have h₂ := L.data_le
  have h₃ := L.params_data
  have h₄ := L.params_le
  have h₅ := L.params_tables
  have h₆ := L.tables.below
  have hsize : gdtSize = 48 := rfl
  have hstack : bootStackSize = 0x4000 := rfl
  have hend := Packed.offsetOf_add_sizeOf_le f xeonPhiBootParams
  have hdis₁ := Packed.offsetOf_disjoint hs xeonPhiBootParams
  have hdis₂ := Packed.offsetOf_disjoint hp xeonPhiBootParams
  have hoff₁ : Packed.offsetOf .scratch xeonPhiBootParams = 480 := by decide
  have hoff₂ : Packed.offsetOf .pad6 xeonPhiBootParams = 484 := by decide
  have hsize₁ : Packed.sizeOf .scratch xeonPhiBootParams = 4 := by decide
  have hsize₂ : Packed.sizeOf .pad6 xeonPhiBootParams = 13 := by decide
  rw [total_bootParams] at hend
  refine readLE_congr fun x hx => called_kept L ?_
  rw [range_iff (by omega)] at hx
  simp only [Written, Written32, TablePages, not_or]
  refine ⟨⟨fun h => ?_, fun h => ?_, fun h => ?_⟩, by omega, fun h => ?_⟩ <;>
  · rw [range_iff (by omega)] at h
    omega

/-- The tables are those that `prepare_long_mode` has built. -/
theorem called_tables (L : Loaded32 S load c) :
    pageTables (load + S.pgtable) (called S load c).cpu.mem =
      (called S load c).cpu.mem := by
  have h₁ := L.stack
  have h₂ := L.data_le
  have h₃ := L.data_tables
  have h₄ := L.params_le
  have h₅ := L.params_tables
  have h₆ := L.tables.below
  have hsize : gdtSize = 48 := rfl
  have hstack : bootStackSize = 0x4000 := rfl
  refine pageTables_eq_self (m := writeLE 4 (load + S.gdt + 2) (load + S.gdt)
    (writeLE 4 (c.esi + 484) (add32 S.one load) c.mem)) L.tables fun x hx => ?_
  have hin := (range_iff (by omega)).mp hx
  have hout : ¬ Range (load + S.bootStackEnd - 8) 8 x := by
    rw [range_iff (by omega)]
    omega
  have hstack₁ : ¬ Range (c.esi + 480) 4 x := by
    rw [range_iff (by omega)]
    omega
  have hstack₂ : ¬ Range (c.esi + 484) 4 x := by
    rw [range_iff (by omega)]
    omega
  rw [called_mem L (by omega) hout, switched]
  dsimp only
  rw [preparedMem, writeLE_of_not_range hstack₁, writeLE_of_not_range hstack₂]

theorem atLoader (L : Loaded32 S load c) : AtLoader S load c (called S load c) := by
  have h₁ := L.stack
  have h₂ := L.data_le
  have h₃ := L.aligned
  have hsize : gdtSize = 48 := rfl
  have hstack : bootStackSize = 0x4000 := rfl
  have hrsp : (called S load c).rsp = load + S.bootStackEnd - 8 := rfl
  have hcr3 : (called S load c).cpu.cr3 = load + S.pgtable := rfl
  constructor
  case magic => rfl
  case params => rfl
  case stack => omega
  case aligned => omega
  case returns =>
    rw [hrsp, called]
    dsimp only
    rw [calledMem, readLE_writeLE (by decide)]
    exact Nat.mod_mod _ _
  case identity =>
    intro v hv
    rw [hcr3, ← called_tables L]
    exact walk_low L.tables hv
  case fields => exact fun f hs hp => called_field L hs hp
  case kept => exact fun x hx => called_kept L hx

end Entry

/-- The members that the loader uses are not in the scratch area. -/
theorem AtLoader.ofMem_eq {S : Symbols} {load : Nat} {c : Cpu} {r : LoaderCall}
    (h : AtLoader S load c r) : BootParams.ofMem r.cpu.mem c.esi = .ofMem c.mem c.esi := by
  simp (disch := decide) only [BootParams.ofMem, h.fields]

/-- **From the entry point to the loader.**  Wherever the boot loader is in the first 4 GiB and
whatever the registers and the rest of memory hold, the code gets to the call of `loader` in
64-bit mode.  There `AtLoader` holds; the loader's two checks pass, and what it does with the
boot parameters is what the model does with those it was started with. -/
theorem boot_to_loader (S : Symbols) (load : Nat) (c : Cpu) (L : Loaded32 S load c) :
    ∃ r, enter S load c = some r ∧ AtLoader S load c r ∧
      ∀ endBootloader mbi, Clear endBootloader c.esi (.ofMem c.mem c.esi) →
        Alike (SameSetup c.esi r.cpu.mem)
          (prepareInPlace endBootloader r.rdi r.rsi mbi r.cpu.mem)
          (do
            let (start, bp, m) ← moveImage endBootloader (.ofMem c.mem c.esi)
              (printStatus 83 (printStatus 83 r.cpu.mem))
            locate c.esi start bp mbi m) := by
  have hr := atLoader L
  refine ⟨_, enter_eq L, hr, fun endBootloader mbi C => ?_⟩
  have hle := L.params_le
  have hparams := hr.ofMem_eq
  have hcheck : ¬ c.esi / 4294967296 ≠ 0 := not_not.mpr (Nat.div_eq_of_lt (by omega))
  rw [hr.magic, hr.params, ← hparams, prepareInPlace]
  dsimp only
  rw [if_neg (not_not.mpr rfl), if_neg hcheck]
  exact move_and_locate (by rwa [hparams]) (by omega)

/-- The loader at 1 MiB, with a small image: the descriptors, and the parameters of
`farBlock`. -/
def lowImage : Mem := fun x =>
  if x < 0x101000 then farBlock x
  else match x - 0x101000 with
    | 0 => 48
    | 16 | 17 | 24 | 25 => 0xff
    | 21 => 0x9a
    | 22 => 0xaf
    | 29 => 0x92
    | 30 => 0xcf
    | 37 => 0x89
    | 38 => 0x80
    | _ => 0

def lowSymbols : Symbols :=
  { one := 0xf, prepareLongMode := 0x20, startup64 := 0x140, called := 0x170, gdt := 0x1000,
    bootStackEnd := 0x5030, pgtable := 0x6000 }

def lowCpu : Cpu :=
  { ebx := 0, esi := 0x8f000, esp := 0, cs := 0, cr0 := 1, cr3 := 0, cr4 := 0, efer := 0,
    gdtr := (0, 0), mem := lowImage }

theorem loaded_low : Loaded32 lowSymbols 0x100000 lowCpu where
  load_lt := by decide
  one_lt := by decide
  tables := ⟨by decide, by decide⟩
  aligned := by decide
  stack := by decide
  data_le := by decide
  params_le := by decide
  limit := by decide
  quads := by decide
  data_tables := by decide
  params_data := by decide
  params_tables := by decide

theorem boot_to_loader_low :
    ∃ r, enter lowSymbols 0x100000 lowCpu = some r ∧ AtLoader lowSymbols 0x100000 lowCpu r ∧
      ∀ endBootloader mbi, Clear endBootloader 0x8f000 (.ofMem lowImage 0x8f000) →
        Alike (SameSetup 0x8f000 r.cpu.mem)
          (prepareInPlace endBootloader r.rdi r.rsi mbi r.cpu.mem)
          (do
            let (start, bp, m) ← moveImage endBootloader (.ofMem lowImage 0x8f000)
              (printStatus 83 (printStatus 83 r.cpu.mem))
            locate 0x8f000 start bp mbi m) :=
  boot_to_loader lowSymbols 0x100000 lowCpu loaded_low

end Philix.Inky
