/-
# From `startup_32` to the kernel's `main`

`startup_32` gets to `loader`; `loader` moves the image of the modules and loads the kernel, and
the tail of `startup_64` jumps to it; its entry code gets to `main`.  What ties the three
together is the page tables: the boot loader builds them, moving and loading have to leave them
alone, and the kernel stays on them, since it loads no others.

They are what `main` reaches the SBOX through.  The kernel's own tables, built and never used,
have nothing there.
-/
import Philix.BootChain
import Philix.Inky.Entry
import Philix.Inky.Placement
import Philix.Winky.Entry

namespace Philix

open Inky Winky ByteMem Loop PageWalk

/-! ## 1. What the boot loader leaves alone -/

section Frame

variable {endBootloader bpAddr entry : Nat} {bp bp' : BootParams} {mbi : MultibootInfo}
  {m m' : Mem} {c : Setup} {t : Tables} {R : Nat → Prop} {x start : Nat}

theorem le_cmdlineStart (D : Movable endBootloader bp) :
    endBootloader ≤ cmdlineStart endBootloader := by
  have hlt := D.loader_lt
  have hround := roundUp_two_pow (n := endBootloader) (k := 12) (by omega) (by omega)
  have hpage : basePageSize = 2 ^ 12 := by decide
  rw [cmdlineStart, hpage, hround]
  omega

/-- The move writes behind the boot loader. -/
theorem moveImage_frame (D : Movable endBootloader bp)
    (h : moveImage endBootloader bp m = .ok (start, bp', m')) (hx : x < endBootloader)
    (hport : x ≠ statusPort) : m' x = m x := by
  have h1 := D.cmdline_le
  have h2 := D.image_le
  have h3 := cmdline_end_le D
  have h4 := le_cmdlineStart D
  rw [moveImage, bind_eq_ok_iff] at h
  obtain ⟨m₁, hm₁, h⟩ := h
  obtain ⟨⟨o, m₂⟩, hm₂, h⟩ := bind_eq_ok_iff.mp h
  obtain ⟨m₃, hm₃, h⟩ := bind_eq_ok_iff.mp h
  cases h
  obtain ⟨-, rfl⟩ := memcpy_eq_ok_iff.mp hm₁
  obtain ⟨-, rfl⟩ := memcpy_eq_ok_iff.mp hm₃
  rw [copy_frame (by omega) (Or.inl (by omega)), bounce_frame D hm₂ (by omega) hport,
    copy_frame (by omega) (Or.inl (by omega))]

/-- `loader`, up to the call of `elf64_load`. -/
theorem prepareInPlace_frame (hbp : bpAddr < 4294967296)
    (C : Clear endBootloader bpAddr (.ofMem m bpAddr))
    (D : Movable endBootloader (.ofMem m bpAddr))
    (h : prepareInPlace endBootloader k1omBootMagic bpAddr mbi m = .ok c)
    (hblock : ¬ Block bpAddr x) (hx : x < endBootloader) (hport : x ≠ statusPort) :
    c.mem x = m x := by
  have halike : Alike (SameSetup bpAddr m)
      (prepareInPlace endBootloader k1omBootMagic bpAddr mbi m) _ := prepareInPlace_alike C hbp
  rw [h] at halike
  obtain ⟨cv, hcv, same⟩ := halike.exists_right
  obtain ⟨moved, -, -, bp', hmove, hlocate⟩ := prepare_eq_ok_iff.mp hcv
  rw [same.mem.rest x hblock, locate_mem hlocate, printStatus_of_ne hport, printStatus_of_ne hport,
    printStatus_of_ne hport, moveImage_frame D hmove hx hport, printStatus_of_ne hport,
    printStatus_of_ne hport]

/-- Loading the kernel. -/
theorem startKernel_frame (E : Enters c t) (U : Undisturbed R c t)
    (h : startKernel c = .ok (entry, m')) (hx : R x) (hport : x ≠ statusPort) :
    m' x = c.mem x := by
  obtain ⟨s, l, hload, -, hmem⟩ := startKernel_eq_ok h
  obtain ⟨-, hag, -⟩ := loaded_of_accepted E (covers_kept R) (fun _ => U.nextApart) hload
  exact (hmem x hport).trans (hag x (Or.inl hx)).symm

/-- A kernel linked at `kernelStart` is entered where it is linked to be. -/
theorem entry_of_linked (E : Enters c t) (U : Undisturbed R c t) (N : Linked c)
    (h : startKernel c = .ok (entry, m')) : entry = eEntry c.mem c.base := by
  obtain ⟨s, l, hload, hentry, -⟩ := startKernel_eq_ok h
  obtain ⟨-, hag, hl⟩ := loaded_of_accepted E (covers_kept R) (fun _ => U.nextApart) hload
  have hlt : eEntry c.mem c.base < 18446744073709551616 := readLE_lt 8 _
  rw [hentry, hl, elfVirtualBase64_kept hag, N.elfbase_eq, sub64, wrap, wrap, kernelStart]
  omega

end Frame

/-! ## 2. The jump -/

/-- The processor when `loader` returns to the call `r`, with memory `m`; the other registers
may hold anything. -/
structure Returned (r : LoaderCall) (m : Mem) (q : Machine) : Prop where
  cr0 : q.cr0 = r.cpu.cr0
  cr3 : q.cr3 = r.cpu.cr3
  efer : q.efer = r.cpu.efer
  mem : q.mem = m

/-- "jump to the kernel entry point", from the two variables that `loader` has left. -/
def jumpToKernel (multibootInfo kernelEntry : Nat) (q : Machine) : Nat × Machine :=
  let q := { q with rax := k1omBootMagic }
  let q := { q with rbx := multibootInfo }
  let rcx := kernelEntry
  (rcx, q)

/-- From the return of `loader` to the call of `main`. -/
def startMain (K : Labels) (multibootInfo entry : Nat) (q : Machine) : Option Machine :=
  let (rip, q) := jumpToKernel multibootInfo entry q
  if rip = K.kernelEntry then Winky.kernelEntry K q else none

/-- The kernel `c`: `elf64_load` takes it, it is linked at `kernelStart` with its segments one
after another, and one of them has the pages of the tables, with zeroes, and the stack.  Loading
it overwrites neither what is still to be read nor `R`, which has the boot loader's page tables. -/
structure Bootable (K : Labels) (pgtable : Nat) (c : Setup) (t : Tables) (R : Nat → Prop) :
    Prop where
  enters : Enters c t
  linked : Linked c
  packed : Packed c
  undisturbed : Undisturbed R c t
  tables : ∀ x, TablePages pgtable x → R x
  entry : eEntry c.mem c.base = K.kernelEntry
  holds : ∃ i, c.Seg i ∧ pVaddr c.mem (c.hdr i) ≤ K.pml4 ∧
    K.bootStackEnd ≤ pVaddr c.mem (c.hdr i) + pMemsz c.mem (c.hdr i) ∧
    ∀ x, K.Pages x → ¬ Relocated c t x ∧
      segByte c.mem c.base (c.hdr i) (x - pVaddr c.mem (c.hdr i)) = 0

/-- What `main` finds when it is called: its arguments, the address to return to on an aligned
stack, paging and long mode as they were, the first 4 GiB and the registers of the SBOX mapped
to themselves, the kernel's own tables, and the kernel where it is linked. -/
structure AtMain (K : Labels) (multibootInfo : Nat) (r : LoaderCall) (c : Setup) (t : Tables)
    (q : Machine) : Prop where
  mbd : q.rdi = low32 multibootInfo
  magic : q.rsi = k1omBootMagic
  stack : q.rsp + 8 = K.bootStackEnd
  aligned : (q.rsp + 8) % 16 = 0
  returns : readLE q.mem 8 q.rsp = K.afterMain
  enabled : q.cr0 = r.cpu.cr0 ∧ q.cr3 = r.cpu.cr3 ∧ q.efer = r.cpu.efer
  mapped : ∀ v, v < 2 ^ 32 ∨ phiSboxBase ≤ v ∧ v < phiSboxBase + phiSboxSize →
    MapsToItself (walk (readLE q.mem 8) 3 q.cr3 v) 21 v
  tables : Built K.placement q.mem
  bytes : ∀ i k, c.Seg i → k < pMemsz c.mem (c.hdr i) →
    ¬ Relocated c t (pVaddr c.mem (c.hdr i) + k) → ¬ K.Pages (pVaddr c.mem (c.hdr i) + k) →
    ¬ K.Top (pVaddr c.mem (c.hdr i) + k) →
    q.mem (pVaddr c.mem (c.hdr i) + k) = segByte c.mem c.base (c.hdr i) k

section Bootable

variable {K : Labels} {pgtable entry x : Nat} {c : Setup} {t : Tables} {R : Nat → Prop} {m : Mem}
  (B : Bootable K pgtable c t R)

include B

/-- What the entry code writes is in a segment, and not in what is kept. -/
theorem Bootable.not_read (hx : K.pml4 ≤ x) (hend : x < K.bootStackEnd) : ¬ R x := by
  obtain ⟨i, hi, hlow, hhigh, -⟩ := B.holds
  have hle := B.linked.pages_le hi
  have hplaced : pVaddr c.mem (c.hdr i) = segStart c.mem c.base i := B.packed i hi
  refine fun hR => B.undisturbed.apart hi x ?_ (Or.inr (Or.inl hR))
  rw [pageEnd] at hle
  rw [← hplaced, range_iff (by omega)]
  omega

theorem Bootable.entryMem_of_read (hR : R x) : entryMem K m x = m x := by
  have hstack : K.bootStackEnd = K.pml4 + 0x205000 := rfl
  refine entryMem_of_not (fun hp => ?_) fun ht => ?_
  · rw [Labels.pages_iff] at hp
    exact B.not_read hp.1 (by omega) hR
  · rw [Labels.top_iff] at ht
    exact B.not_read (by omega) (by omega) hR

/-- The kernel's pages hold zeroes once it is loaded. -/
theorem Bootable.pages_zero (P : PlacedAtVaddr c t entry m) (hx : K.Pages x) : m x = 0 := by
  have hstack : K.bootStackEnd = K.pml4 + 0x205000 := rfl
  obtain ⟨i, hi, hlow, hhigh, hzero⟩ := B.holds
  obtain ⟨hrel, hbyte⟩ := hzero x hx
  rw [Labels.pages_iff] at hx
  have hsum : pVaddr c.mem (c.hdr i) + (x - pVaddr c.mem (c.hdr i)) = x := by omega
  have h := P.bytes i (x - pVaddr c.mem (c.hdr i)) hi (by omega) (by rwa [hsum])
  rw [hsum] at h
  exact h.trans hbyte

end Bootable

/-! ## 3. The way to `main` -/

section Way

variable {S : Symbols} {load endBootloader entry x : Nat} {c₀ : Cpu} {mbi : MultibootInfo}
  {c : Setup} {m : Mem} {K : Labels} {t : Tables} {R : Nat → Prop} {q : Machine}
  (L : Loaded32 S load c₀)

include L

/-- What is as it was at the call of `loader` when the kernel is loaded. -/
theorem memory_kept (C : Clear endBootloader c₀.esi (.ofMem c₀.mem c₀.esi))
    (D : Movable endBootloader (.ofMem c₀.mem c₀.esi))
    (hprep : prepareInPlace endBootloader (called S load c₀).rdi (called S load c₀).rsi mbi
      (called S load c₀).cpu.mem = .ok c) (hstart : startKernel c = .ok (entry, m))
    (B : Bootable K (load + S.pgtable) c t R) (hR : R x) (hblock : ¬ Block c₀.esi x)
    (hx : x < endBootloader) (hport : x ≠ statusPort) :
    m x = (called S load c₀).cpu.mem x := by
  have hr := atLoader L
  have hbp := L.params_le
  rw [hr.magic, hr.params] at hprep
  rw [← hr.ofMem_eq] at C D
  rw [startKernel_frame B.enters B.undisturbed hstart hR hport]
  exact prepareInPlace_frame (by omega) C D hprep hblock hx hport

/-- The parameters are not among the tables. -/
theorem not_block_of_tables (hx : TablePages (load + S.pgtable) x) : ¬ Block c₀.esi x := by
  have hbelow := L.tables.below
  have hbp := L.params_le
  have hapart := L.params_tables
  have hin := (range_iff (by omega)).mp hx
  rw [Block, range_iff (by omega)]
  omega

/-- As long as the tables are what they were at that call, the first 4 GiB and the registers of
the SBOX are mapped to themselves. -/
theorem mapped_of_tables (hkept : ∀ x, TablePages (load + S.pgtable) x →
      m x = (called S load c₀).cpu.mem x) {v : Nat}
    (hv : v < 2 ^ 32 ∨ phiSboxBase ≤ v ∧ v < phiSboxBase + phiSboxSize) :
    MapsToItself (walk (readLE m 8) 3 (load + S.pgtable) v) 21 v := by
  have hagree : Agree (TablePages (load + S.pgtable))
      (pageTables (load + S.pgtable) (called S load c₀).cpu.mem) m := fun x hx => by
    rw [called_tables L, hkept x hx]
  rw [← pageTables_eq_self L.tables hagree]
  rcases hv with hv | ⟨hlow, hhigh⟩
  · exact walk_low L.tables hv
  · unfold phiSboxBase at hlow hhigh
    unfold phiSboxSize at hhigh
    exact walk_serial L.tables (by omega) (by omega)

/-- **The jump, and the run of the kernel's entry code.** -/
theorem startMain_eq (hcr0 : c₀.cr0 < 2 ^ 32) (hefer : c₀.efer < 2 ^ 64)
    (hentry : entry = K.kernelEntry) (multibootInfo : Nat)
    (hq : Returned (called S load c₀) m q) :
    startMain K multibootInfo entry q = some { q with
      rax := k1omBootMagic
      rbx := multibootInfo
      rdi := low32 multibootInfo
      rsi := k1omBootMagic
      rsp := K.bootStackEnd - 8
      mem := entryMem K m } := by
  have hlong := longMode_switched L
  have hcr0' : q.cr0 < 2 ^ 32 := by
    rw [hq.cr0]
    exact Nat.or_lt_two_pow hcr0 (by decide)
  have hefer' : q.efer < 2 ^ 64 := by
    rw [hq.efer]
    exact Nat.or_lt_two_pow hefer (by decide)
  have hrun := @kernelEntry_eq K { q with rax := k1omBootMagic, rbx := multibootInfo }
    (hq.cr0 ▸ hlong.2.1) hcr0' (hq.efer ▸ hlong.2.2.2.1) hefer'
  rw [← hq.mem]
  exact (if_pos hentry).trans hrun

end Way

/-- A segment for the code, the pages and the stack. -/
def stackKernel : Mem := asMem (ehdrBytes 0x1000000 0 1 0 ++ loadBytes 0 0x1000000 0 0x207000)

def stackLabels : Labels :=
  { kernelEntry := 0x1000000, afterPaging := 0x1000020, afterMain := 0x1000080, pml4 := 0x1001000
    afterPaging_lt := by decide
    afterMain_lt := by decide
    aligned := by decide
    below := by decide }

/-- The boot loader at 1 MiB, and a ramdisk with the kernel. -/
def bootImage : Mem := fun x => if 0x4000000 ≤ x then stackKernel (x - 0x4000000) else lowImage x

def bootCpu : Cpu := { lowCpu with mem := bootImage }

theorem loaded_boot : Loaded32 lowSymbols 0x100000 bootCpu where
  load_lt := by decide
  one_lt := by decide
  tables := ⟨by decide, by decide⟩
  aligned := by decide
  stack := by decide
  data_le := by decide
  params_le := by decide
  limit := by decide
  quads := by decide
  data_tables := by decide
  params_data := by decide
  params_tables := by decide

theorem ofMem_boot : BootParams.ofMem bootImage 0x8f000 = farRamdisk := by decide

theorem movable_boot : Movable 0x700000 farRamdisk := by constructor <;> decide

theorem plain_stackKernel : Plain stackKernel 1 := by constructor <;> decide

section StackKernel

variable {c : Setup} {i : Nat} (H : Called c stackKernel)

include H

theorem stackKernel_seg_iff : c.Seg i ↔ i = 0 := by
  have F := plain_stackKernel
  rw [Setup.Seg, LoadAt, F.phnum_eq H.holds]
  constructor
  · rintro ⟨hi, -⟩
    omega
  · rintro rfl
    exact ⟨Nat.one_pos, F.pType_eq H.holds H.base_lt Nat.one_pos⟩

theorem stackKernel_pVaddr : pVaddr c.mem (c.hdr 0) = 0x1000000 :=
  (plain_stackKernel.field H.holds H.base_lt Nat.one_pos (by decide)).trans (by decide)

theorem stackKernel_pMemsz : pMemsz c.mem (c.hdr 0) = 0x207000 :=
  (plain_stackKernel.field H.holds H.base_lt Nat.one_pos (by decide)).trans (by decide)

theorem stackKernel_pFilesz : pFilesz c.mem (c.hdr 0) = 0 :=
  (plain_stackKernel.field H.holds H.base_lt Nat.one_pos (by decide)).trans (by decide)

/-- What is below the kernel, and the module. -/
theorem stackKernel_undisturbed :
    Undisturbed (fun x => x < 0x1000000 ∨ c.Module x) c noTables := by
  have F := plain_stackKernel
  have hmodule : ∀ x, Range c.base 0x1000 x → x < 0x1000000 ∨ c.Module x := fun x hx => by
    rw [Setup.Module, H.size_eq]
    exact Or.inr hx
  have W : WellFormed (fun x => x < 0x1000000 ∨ c.Module x) c noTables := by
    refine ⟨fun x hx => hmodule x (F.reads H.holds H.base_lt hx), fun hi => ?_,
      fun _ _ hx => absurd hx not_stored_plain⟩
    obtain rfl := (stackKernel_seg_iff H).mp hi
    rw [stackKernel_pFilesz H]
    exact Nat.zero_le _
  refine W.undisturbed (fun x hx => hmodule x (F.virtualBaseReads H.holds H.base_lt hx))
    (fun hi x hx => ?_) fun hi x hx hR => ?_
  · obtain rfl := (stackKernel_seg_iff H).mp hi
    rw [stackKernel_pFilesz H, range_zero] at hx
    exact hx.elim
  · obtain rfl := (stackKernel_seg_iff H).mp hi
    have hstart : segStart c.mem c.base 0 = 0x1000000 := rfl
    rw [hstart, stackKernel_pMemsz H, range_iff (by decide)] at hx
    rw [H.module_iff] at hR
    omega

theorem stackKernel_linked : Linked c where
  pages_le hi := by
    obtain rfl := (stackKernel_seg_iff H).mp hi
    rw [pageEnd, stackKernel_pVaddr H, stackKernel_pMemsz H]
    decide
  pages_disjoint hi hj hij :=
    absurd (((stackKernel_seg_iff H).mp hi).trans ((stackKernel_seg_iff H).mp hj).symm) hij
  lowest := ⟨0, (stackKernel_seg_iff H).mpr rfl, stackKernel_pVaddr H⟩
  above hi := by
    obtain rfl := (stackKernel_seg_iff H).mp hi
    rw [stackKernel_pVaddr H]
    decide

theorem stackKernel_enters : Enters c noTables :=
  (plain_stackKernel.enters_iff H.holds H.base_lt H.size_eq).mpr rfl

theorem stackKernel_bootable : Bootable stackLabels 0x106000 c noTables
    (fun x => x < 0x1000000 ∨ c.Module x) where
  enters := stackKernel_enters H
  linked := stackKernel_linked H
  packed i hi := by
    obtain rfl := (stackKernel_seg_iff H).mp hi
    exact stackKernel_pVaddr H
  undisturbed := stackKernel_undisturbed H
  tables x hx := by
    have hin := (range_iff (by decide)).mp hx
    exact Or.inl (by omega)
  entry := (H.holds.readLE_eq (by decide) (by decide)).trans (by decide)
  holds := by
    refine ⟨0, (stackKernel_seg_iff H).mpr rfl, ?_, ?_, fun x _ => ⟨?_, ?_⟩⟩
    · rw [stackKernel_pVaddr H]
      decide
    · rw [stackKernel_pVaddr H, stackKernel_pMemsz H]
      decide
    · rintro ⟨e, he, -⟩
      exact absurd he (Nat.not_lt_zero e)
    · rw [segByte, stackKernel_pFilesz H]
      exact if_neg (Nat.not_lt_zero _)

theorem stackKernel_started : ∃ entry m, startKernel c = .ok (entry, m) := by
  have U := stackKernel_undisturbed H
  have hone : ePhnum c.mem c.base = 1 := plain_stackKernel.phnum_eq H.holds
  have hpass : ∀ j < ePhnum c.mem c.base, Passes c.mem c.base noTables j := by
    intro j hj
    obtain rfl : j = 0 := by omega
    have hstart : segStart c.mem c.base 0 = 0x1000000 := rfl
    have htype : pType c.mem (c.hdr 0) = ptLoad :=
      plain_stackKernel.pType_eq H.holds H.base_lt Nat.one_pos
    have hoff : pOffset c.mem (c.hdr 0) = 0 :=
      (plain_stackKernel.field H.holds H.base_lt Nat.one_pos (by decide)).trans (by decide)
    refine passes_iff.mpr ⟨fun _ => ⟨hstart ▸ (by decide), ?_, fun e he =>
      absurd he (Nat.not_lt_zero e)⟩, fun htls => ?_⟩
    · rw [stackKernel_pFilesz H, hstart, fileStart, hoff, H.base_eq]
      decide
    · exact absurd (htype.symm.trans htls) (by decide)
  obtain ⟨s, l, hload⟩ := accepted_of_passes (stackKernel_enters H) (covers_kept _) hpass
    fun j hj => U.nextApart hj
  exact started_of_accepted hload

end StackKernel

/-- The kernel gets from the ramdisk to `elf64_load`, after the switch to long mode. -/
theorem boot_called : ∃ c, prepareInPlace 0x700000 (called lowSymbols 0x100000 bootCpu).rdi
    (called lowSymbols 0x100000 bootCpu).rsi sampleMbi
    (called lowSymbols 0x100000 bootCpu).cpu.mem = .ok c ∧ Called c stackKernel := by
  have A := atLoader loaded_boot
  have hparams : BootParams.ofMem (called lowSymbols 0x100000 bootCpu).cpu.mem 0x8f000 =
      farRamdisk := A.ofMem_eq.trans ofMem_boot
  have hdisk : farRamdisk.ramdiskImage.toNat = 0x4000000 := by decide
  have hfile : ∀ k < 0x1000, (called lowSymbols 0x100000 bootCpu).cpu.mem
      (farRamdisk.ramdiskImage.toNat + k) = stackKernel k := by
    intro k hk
    have hload : 0x100000 + lowSymbols.gdt = 0x101000 := rfl
    have hstack : 0x100000 + lowSymbols.bootStackEnd = 0x105030 := rfl
    have hpg : 0x100000 + lowSymbols.pgtable = 0x106000 := rfl
    have hesi : bootCpu.esi = 0x8f000 := rfl
    have hmem : bootCpu.mem (0x4000000 + k) = stackKernel k := by
      change (if 0x4000000 ≤ 0x4000000 + k then stackKernel (0x4000000 + k - 0x4000000) else _) = _
      rw [if_pos (Nat.le_add_right _ _), Nat.add_sub_cancel_left]
    rw [hdisk, A.kept, hmem]
    simp only [Written, Written32, TablePages, hload, hstack, hpg, hesi, not_or]
    rw [range_iff (by decide), range_iff (by decide), range_iff (by decide),
      range_iff (by decide)]
    omega
  obtain ⟨moved, cv, harr, Hv⟩ := @arrives_of_holds 0x700000 0x8f000 farRamdisk _ _
    (by decide) movable_boot (by decide) (by decide) (by decide) (by decide) hfile
  have hclear := clear_farRamdisk movable_boot (by decide) (by decide)
  rw [← hparams] at harr hclear
  have halike := @prepareInPlace_alike _ _ _ sampleMbi hclear (by decide)
  rw [prepare_eq_ok_iff.mpr ⟨moved, harr⟩] at halike
  obtain ⟨c, hc, same⟩ := halike.exists_left
  have hbase : c.base = 0x800000 := by rw [Setup.base, same.kernel, ← Setup.base, Hv.base_eq]
  refine ⟨c, hc, ⟨fun k hk => ?_, hbase, same.kernel ▸ Hv.size_eq⟩⟩
  have hblock : ¬ Block 0x8f000 (wrap (0x800000 + k)) := by
    rw [Block, range_iff (by decide), wrap_of_lt (by omega)]
    omega
  rw [hbase, same.mem.rest _ hblock, ← Hv.base_eq]
  exact Hv.holds k hk

end Philix
