/-
# The kernel's entry code: `kernel_entry`

The boot loader jumps to `kernel_entry` with its magic in `%rax` and the multiboot information
in `%rbx`, and the code passes them to `main`, on a stack of its own.  On the way it calls
`paging_setup`, which stores into the pages that `linker.lds` sets aside and enables what has to
be enabled already for this code to run.  `CR3` is not loaded: `main` runs on the page tables of
the boot loader.

`%rcx` and `%rdx` carry nothing from one piece to the next.
-/
import Philix.Inky.Lib
import Philix.Winky.BootTables

namespace Philix.Winky

open ByteMem StoreLoop Inky

/-! ## 1. The code -/

/-- The processor, in 64-bit code. -/
structure Machine where
  rax : Nat
  rbx : Nat
  rdi : Nat
  rsi : Nat
  rsp : Nat
  cr0 : Nat
  cr3 : Nat
  efer : Nat
  mem : Mem

/-- Addresses of the kernel; `afterPaging` and `afterMain` are what follows the two calls.  From
`pml4` on `linker.lds` has the pages of the four tables, a page of buffer, 2 MiB of stack, and
another page of buffer. -/
structure Labels where
  kernelEntry : Nat
  afterPaging : Nat
  afterMain : Nat
  pml4 : Nat
  afterPaging_lt : afterPaging < 4294967296
  afterMain_lt : afterMain < 4294967296
  aligned : pml4 % 4096 = 0
  below : pml4 + 0x206000 ≤ 4294967296

def Labels.bootStackEnd (K : Labels) : Nat := K.pml4 + 0x205000

def Labels.placement (K : Labels) : Placement :=
  have haligned := K.aligned
  have hbelow := K.below
  { pml4 := ⟨K.pml4, haligned, by omega⟩
    pdpt := ⟨K.pml4 + 0x1000, by omega, by omega⟩
    pd := ⟨K.pml4 + 0x2000, by omega, by omega⟩
    pdSbox := ⟨K.pml4 + 0x3000, by omega, by omega⟩
    apart := by
      simp only [List.nodup_cons, List.mem_cons, List.not_mem_nil, or_false, List.nodup_nil,
        not_false_eq_true, and_true]
      omega }

/-- A 32-bit register of what is in the 64-bit one. -/
def low32 (v : Nat) : Nat := v % 4294967296

def Machine.pushq (v : Nat) (c : Machine) : Machine :=
  let rsp := sub64 c.rsp 8
  { c with rsp, mem := writeLE 8 rsp v c.mem }

def Machine.popq (c : Machine) : Nat × Machine :=
  (readLE c.mem 8 c.rsp, { c with rsp := wrap (c.rsp + 8) })

/-- "enable lme bit in MSR" -/
def Machine.enableLme (c : Machine) : Machine :=
  let eax := low32 c.efer
  let edx := low32 (c.efer / 4294967296)
  let rax := eax ||| 1 <<< 8
  { c with efer := low32 rax + 4294967296 * edx }

/-- "paging enable": `orl` clears the high half. -/
def Machine.enablePaging (c : Machine) : Machine :=
  let rax := low32 (c.cr0 ||| 1 <<< 31)
  { c with cr0 := rax }

/-- `paging_setup`, and where its `ret` goes to. -/
def Machine.pagingSetup (K : Labels) (c : Machine) : Nat × Machine :=
  let c := { c with mem := Winky.pagingSetup K.placement c.mem }
  let c := c.enableLme
  let c := c.enablePaging
  c.popq

/-- `kernel_entry`, up to the call of `main`, which it gets to if `paging_setup` returns. -/
def kernelEntry (K : Labels) (c : Machine) : Option Machine :=
  let c := { c with rdi := low32 c.rbx }
  let c := { c with rsi := low32 c.rax }
  let c := { c with rsp := K.bootStackEnd }
  let (rip, c) := (c.pushq K.afterPaging).pagingSetup K
  if rip = K.afterPaging then
    let c := { c with mem := linkSbox K.placement c.mem }
    let c := { c with mem := mapSbox K.placement c.mem }
    some (c.pushq K.afterMain)
  else none

/-! ## 2. What it enables is enabled -/

section Enabled

variable {c : Machine} {v : Nat}

theorem or_bit {k : Nat} (h : v.testBit k) : v ||| 1 <<< k = v := by
  refine Nat.eq_of_testBit_eq fun i => ?_
  rw [Nat.testBit_or, Nat.one_shiftLeft, Nat.testBit_two_pow]
  by_cases hi : k = i
  · rw [← hi, h, Bool.true_or]
  · rw [decide_eq_false hi, Bool.or_false]

theorem testBit_low32 {k : Nat} (hk : k < 32) : (low32 v).testBit k = v.testBit k := by
  have h := Nat.testBit_mod_two_pow v 32 k
  rwa [decide_eq_true hk, Bool.true_and] at h

theorem enableLme_eq (h : c.efer.testBit 8) (hlt : c.efer < 2 ^ 64) : c.enableLme = c := by
  have hbit : (low32 c.efer).testBit 8 := (testBit_low32 (by decide)).trans h
  have hefer : low32 (low32 c.efer) + 4294967296 * low32 (c.efer / 4294967296) = c.efer := by
    simp only [low32]
    omega
  rw [Machine.enableLme, or_bit hbit, hefer]

theorem enablePaging_eq (h : c.cr0.testBit 31) (hlt : c.cr0 < 2 ^ 32) : c.enablePaging = c := by
  have hcr0 : low32 c.cr0 = c.cr0 := Nat.mod_eq_of_lt hlt
  rw [Machine.enablePaging, or_bit h, hcr0]

end Enabled

/-! ## 3. What it writes -/

section Writes

variable {K : Labels} {c : Machine} {m m' : Mem} {x : Nat}

/-- The four pages. -/
def Labels.Pages (K : Labels) (x : Nat) : Prop := Range K.pml4 0x4000 x

/-- The return address at the top of the stack. -/
def Labels.Top (K : Labels) (x : Nat) : Prop := Range (K.bootStackEnd - 8) 8 x

theorem Labels.pages_iff : K.Pages x ↔ K.pml4 ≤ x ∧ x < K.pml4 + 0x4000 := by
  have hbelow := K.below
  exact range_iff (by omega)

theorem Labels.top_iff : K.Top x ↔ K.pml4 + 0x204ff8 ≤ x ∧ x < K.pml4 + 0x205000 := by
  have hbelow := K.below
  rw [Labels.Top, Labels.bootStackEnd, range_iff (by omega)]
  omega

theorem Labels.not_pages_of_top (h : K.Top x) : ¬ K.Pages x := by
  rw [Labels.top_iff] at h
  rw [Labels.pages_iff]
  omega

theorem pagingSetup_of_not_pages (h : ¬ K.Pages x) :
    Winky.pagingSetup K.placement m x = m x := by
  have hbelow := K.below
  have hpml4 : ¬ Range K.pml4 8 x := fun hx => h (hx.of_le (by decide))
  have hpdpt : ¬ Range (K.pml4 + 0x1000) 8 x := fun hx => h (hx.mono (by decide))
  have hpd : ¬ Range (K.pml4 + 0x2000) (8 * 512) x := fun hx => h (hx.mono (by decide))
  have hend : K.pml4 + 0x2000 + 8 * 512 ≤ 4294967296 := by omega
  calc Winky.pagingSetup K.placement m x
    _ = linkPdpt K.placement (linkPml4 K.placement m) x :=
      storeLoop_of_not_range (by decide) hend hpd
    _ = linkPml4 K.placement m x := writeLE_of_not_range hpdpt
    _ = m x := writeLE_of_not_range hpml4

theorem kernelTables_of_not_pages (h : ¬ K.Pages x) : kernelTables K.placement m x = m x := by
  have hlink : ¬ Range (K.pml4 + 0x1000 + 8 * 31) 8 x := fun hx => h <| by
    rw [Nat.add_assoc] at hx
    exact hx.mono (by decide)
  have hmap : ¬ Range (K.pml4 + 0x3000 + 8 * 2) 8 x := fun hx => h <| by
    rw [Nat.add_assoc] at hx
    exact hx.mono (by decide)
  calc kernelTables K.placement m x
    _ = linkSbox K.placement (Winky.pagingSetup K.placement m) x := writeLE_of_not_range hmap
    _ = Winky.pagingSetup K.placement m x := writeLE_of_not_range hlink
    _ = m x := pagingSetup_of_not_pages h

/-- The memory at the call of `main`. -/
def entryMem (K : Labels) (m : Mem) : Mem :=
  writeLE 8 (K.bootStackEnd - 8) K.afterMain
    (kernelTables K.placement (writeLE 8 (K.bootStackEnd - 8) K.afterPaging m))

theorem entryMem_of_not (hp : ¬ K.Pages x) (ht : ¬ K.Top x) : entryMem K m x = m x := by
  rw [entryMem, writeLE_of_not_range ht, kernelTables_of_not_pages hp, writeLE_of_not_range ht]

/-- `ret` finds the address that `call` has pushed. -/
theorem readLE_pushed : readLE (Winky.pagingSetup K.placement
    (writeLE 8 (K.bootStackEnd - 8) K.afterPaging m)) 8 (K.bootStackEnd - 8) = K.afterPaging := by
  have hlt := K.afterPaging_lt
  have hkept : Agree K.Top (Winky.pagingSetup K.placement
      (writeLE 8 (K.bootStackEnd - 8) K.afterPaging m))
      (writeLE 8 (K.bootStackEnd - 8) K.afterPaging m) :=
    fun x hx => pagingSetup_of_not_pages (Labels.not_pages_of_top hx)
  rw [readLE_congr hkept, readLE_writeLE (by decide), Nat.mod_eq_of_lt (by omega)]

/-- The enabling has no effect when it is done already. -/
theorem Machine.pagingSetup_eq (hcr0 : c.cr0.testBit 31) (hcr0_lt : c.cr0 < 2 ^ 32)
    (hefer : c.efer.testBit 8) (hefer_lt : c.efer < 2 ^ 64) :
    c.pagingSetup K = Machine.popq { c with mem := Winky.pagingSetup K.placement c.mem } := by
  have hlme := enableLme_eq (c := { c with mem := Winky.pagingSetup K.placement c.mem }) hefer
    hefer_lt
  have hpaging := enablePaging_eq (c := { c with mem := Winky.pagingSetup K.placement c.mem }) hcr0
    hcr0_lt
  rw [Machine.pagingSetup]
  rw [hlme, hpaging]

/-- **The run of the entry code**, with paging and long mode enabled. -/
theorem kernelEntry_eq (hcr0 : c.cr0.testBit 31) (hcr0_lt : c.cr0 < 2 ^ 32)
    (hefer : c.efer.testBit 8) (hefer_lt : c.efer < 2 ^ 64) :
    kernelEntry K c = some { c with
      rdi := low32 c.rbx
      rsi := low32 c.rax
      rsp := K.bootStackEnd - 8
      mem := entryMem K c.mem } := by
  have hbelow := K.below
  have hend : K.bootStackEnd = K.pml4 + 0x205000 := rfl
  have hpush : sub64 K.bootStackEnd 8 = K.bootStackEnd - 8 := by
    rw [sub64, wrap]
    omega
  have hpop : wrap (K.bootStackEnd - 8 + 8) = K.bootStackEnd := by
    rw [wrap]
    omega
  have hret := Machine.pagingSetup_eq (K := K) (c := Machine.pushq K.afterPaging { c with
    rdi := low32 c.rbx
    rsi := low32 c.rax
    rsp := K.bootStackEnd }) hcr0 hcr0_lt hefer hefer_lt
  rw [kernelEntry]
  dsimp only
  rw [hret]
  simp only [Machine.pushq, Machine.popq, hpush, hpop, readLE_pushed, if_true]
  rfl

/-! ## 4. The tables it builds -/

theorem Built.congr (h : Agree K.Pages m m') (B : Built K.placement m) :
    Built K.placement m' := by
  have hentry : ∀ {t : Table} {k : Nat}, k < 512 → K.pml4 ≤ t.addr →
      t.addr + 0x1000 ≤ K.pml4 + 0x4000 → t.entry m' k = t.entry m k := by
    intro t k hk hlow hhigh
    have hbelow := t.below
    refine (readLE_congr (h.mono fun x hx => ?_)).symm
    rw [range_iff (by omega)] at hx
    rw [Labels.pages_iff]
    omega
  have hpml4 : K.placement.pml4.addr = K.pml4 := rfl
  have hpdpt : K.placement.pdpt.addr = K.pml4 + 0x1000 := rfl
  have hpd : K.placement.pd.addr = K.pml4 + 0x2000 := rfl
  have hsbox : K.placement.pdSbox.addr = K.pml4 + 0x3000 := rfl
  constructor
  case pml4 => exact fun k hk => (hentry hk (by omega) (by omega)).trans (B.pml4 k hk)
  case pdpt => exact fun k hk => (hentry hk (by omega) (by omega)).trans (B.pdpt k hk)
  case pd => exact fun k hk => (hentry hk (by omega) (by omega)).trans (B.pd k hk)
  case pdSbox => exact fun k hk => (hentry hk (by omega) (by omega)).trans (B.pdSbox k hk)

/-- The tables, for pages that held zeroes. -/
theorem built_entryMem (hz : ∀ x, K.Pages x → m x = 0) :
    Built K.placement (entryMem K m) := by
  have htop : ∀ {v : Nat} {m : Mem} {x : Nat}, K.Pages x →
      writeLE 8 (K.bootStackEnd - 8) v m x = m x := fun hx =>
    writeLE_of_not_range fun ht => Labels.not_pages_of_top ht hx
  have hzero : ∀ x, K.Pages x → writeLE 8 (K.bootStackEnd - 8) K.afterPaging m x = 0 :=
    fun x hx => (htop hx).trans (hz x hx)
  have hzeroed : K.placement.Zeroed (writeLE 8 (K.bootStackEnd - 8) K.afterPaging m) :=
    ⟨fun x hx => hzero x (Range.of_le hx (by decide)),
      fun x hx => hzero x (Range.mono hx (by decide)),
      fun x hx => hzero x (Range.mono hx (by decide)),
      fun x hx => hzero x (Range.mono hx (by decide))⟩
  exact Built.congr (fun x hx => (htop hx).symm) (built_kernelTables hzeroed)

end Writes

end Philix.Winky
