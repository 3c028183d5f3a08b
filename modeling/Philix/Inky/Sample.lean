/-
# Kernels given by the bytes of their file

`HoldsAt m base n f`: the `n` bytes from `base` on are those of `f`.  The headers of an image in
memory are then those of the file, read at `0`, where they can be computed.  `arrives_with` takes
such a file through the boot loader to the call of `elf64_load`.
-/
import Philix.Inky.KernelLoad

namespace Philix.Inky

open ByteMem Loop Lts

/-- The memory that holds `bytes` from `0` on. -/
def asMem (bytes : List UInt8) : Mem := fun a => bytes.getD a 0

/-- `n` bytes, the lowest first. -/
def leBytes : Nat → Nat → List UInt8
  | 0, _ => []
  | n + 1, v => .ofNat (v % 256) :: leBytes n (v / 256)

/-- A header for K1OM: its entry point, the program headers behind it, then the sections. -/
def ehdrBytes (entry shoff phnum shnum : Nat) : List UInt8 :=
  [0x7f, 69, 76, 70, 2, 1, 1, 0, 0, 0, 0, 0, 0, 0, 0, 0] ++ leBytes 2 2 ++ leBytes 2 181 ++
    leBytes 4 1 ++ leBytes 8 entry ++ leBytes 8 64 ++ leBytes 8 shoff ++ leBytes 4 0 ++
    leBytes 2 64 ++ leBytes 2 56 ++ leBytes 2 phnum ++ leBytes 2 64 ++ leBytes 2 shnum ++
    leBytes 2 0

/-- A program header that loads a segment. -/
def loadBytes (offset vaddr filesz memsz : Nat) : List UInt8 :=
  leBytes 4 1 ++ leBytes 4 7 ++ leBytes 8 offset ++ leBytes 8 vaddr ++ leBytes 8 vaddr ++
    leBytes 8 filesz ++ leBytes 8 memsz ++ leBytes 8 4096

/-- A section header. -/
def shdrBytes (type offset size : Nat) : List UInt8 :=
  leBytes 4 0 ++ leBytes 4 type ++ leBytes 8 0 ++ leBytes 8 0 ++ leBytes 8 offset ++
    leBytes 8 size ++ leBytes 4 0 ++ leBytes 4 0 ++ leBytes 8 8 ++ leBytes 8 24

def HoldsAt (m : Mem) (base n : Nat) (f : Mem) : Prop := ∀ k < n, m (wrap (base + k)) = f k

section Holds

variable {m f : Mem} {base n : Nat}

theorem HoldsAt.readLE_eq (h : HoldsAt m base n f) (hn : n ≤ 18446744073709551616) {j k : Nat}
    (hjk : j + k ≤ n) : readLE m k (base + j) = readLE f k j :=
  readLE_ext fun l hl => by
    rw [Nat.add_assoc, h _ (by omega), wrap_of_lt (by omega)]

theorem HoldsAt.eIdent_eq (h : HoldsAt m base n f) (hn : n ≤ 18446744073709551616) {k : Nat}
    (hk : k < n) : eIdent m base k = eIdent f 0 k := by
  rw [eIdent, readByte, h k hk, eIdent, readByte, Nat.zero_add, wrap_of_lt (by omega)]

variable (h : HoldsAt m base n f) (hn : n ≤ 18446744073709551616)

include h hn

theorem HoldsAt.headerOk {em : Nat} (hsize : 64 ≤ n) (hf : HeaderOk f 0 em) :
    HeaderOk m base em := by
  have htype : eType m base = eType f 0 := h.readLE_eq hn (by omega)
  have hmachine : eMachine m base = eMachine f 0 := h.readLE_eq hn (by omega)
  have hversion : eVersion m base = eVersion f 0 := h.readLE_eq hn (by omega)
  rw [HeaderOk, htype, hmachine, hversion]
  repeat rw [h.eIdent_eq hn (by omega)]
  exact hf

theorem HoldsAt.ePhoff_eq (hsize : 64 ≤ n) : ePhoff m base = ePhoff f 0 :=
  h.readLE_eq hn (by omega)

theorem HoldsAt.eShoff_eq (hsize : 64 ≤ n) : eShoff m base = eShoff f 0 :=
  h.readLE_eq hn (by omega)

theorem HoldsAt.ePhnum_eq (hsize : 64 ≤ n) : ePhnum m base = ePhnum f 0 :=
  h.readLE_eq hn (by omega)

theorem HoldsAt.eShnum_eq (hsize : 64 ≤ n) : eShnum m base = eShnum f 0 :=
  h.readLE_eq hn (by omega)

theorem HoldsAt.proghdrOk {size : Nat} (hsize : 64 ≤ n) (hf : ProghdrOk f 0 size) :
    ProghdrOk m base size := by
  have hentsize : ePhentsize m base = ePhentsize f 0 := h.readLE_eq hn (by omega)
  rw [ProghdrOk, hentsize, h.ePhoff_eq hn hsize, h.ePhnum_eq hn hsize]
  exact hf

omit h hn

end Holds

/-! ## 1. Getting a file to `elf64_load` -/

/-- A ramdisk at 256 MiB. -/
def sampleParams (size : UInt32) : BootParams :=
  { cmdlinePtr := 0x4000, cmdlineSize := 16, ramdiskImage := 0x10000000, ramdiskSize := size,
    xeonPhiId := 0 }

/-- One module, the first page of the ramdisk. -/
def sampleMbi : MultibootInfo :=
  { flags := 0, memLower := 0, memUpper := 0, cmdline := 0, configTable := 0, xeonPhiId := 0
    mods := [⟨0, 0x1000, ['k', 'e', 'r', 'n', 'e', 'l']⟩] }

/-- The ramdisk in memory. -/
def ramdiskMem (f : Mem) : Mem := fun a => if 0x10000000 ≤ a then f (a - 0x10000000) else 0

theorem ramdiskMem_add (f : Mem) (k : Nat) : ramdiskMem f (0x10000000 + k) = f k := by
  rw [ramdiskMem, if_pos (Nat.le_add_right _ _), Nat.add_sub_cancel_left]

/-- The file is at the start of the ramdisk. -/
theorem holdsAt_ramdisk (f : Mem) {n : Nat} (hn : 0x10000000 + n ≤ 18446744073709551616) :
    HoldsAt (ramdiskMem f) 0x10000000 n f := by
  intro k hk
  rw [wrap_of_lt (by omega), ramdiskMem_add]

theorem mbImgStart_sample (size : UInt32) : mbImgStart 0x700000 (sampleParams size) = 0x800000 := by
  change roundUp (wrap (cmdlineStart 0x700000 + 16)) (1 <<< 20) = 0x800000
  decide

theorem movable_sample {size : UInt32} (hsize : size.toNat ≤ 0x900000) :
    Movable 0x700000 (sampleParams size) := by
  have hstart := mbImgStart_sample size
  have hcmdline : cmdlineStart 0x700000 = 0x700000 := by decide
  have hptr : (sampleParams size).cmdlinePtr.toNat = 0x4000 := rfl
  have hcsize : (sampleParams size).cmdlineSize.toNat = 16 := rfl
  have himage : (sampleParams size).ramdiskImage.toNat = 0x10000000 := rfl
  have hrsize : (sampleParams size).ramdiskSize.toNat = size.toNat := rfl
  constructor <;> omega

/-- `elf64_load` is called with the file, in a page at 8 MiB. -/
structure Called (c : Setup) (f : Mem) : Prop where
  holds : HoldsAt c.mem c.base 0x1000 f
  base_eq : c.base = 0x800000
  size_eq : c.kernel.size = 0x1000

/-- **A file gets to `elf64_load` as it is**, in the first page of an image that is moved to
8 MiB without a bounce. -/
theorem arrives_of_holds {endBootloader bpAddr : Nat} {bp : BootParams} {m f : Mem}
    (hbp : bpAddr < 4294967296) (hD : Movable endBootloader bp)
    (hstart : mbImgStart endBootloader bp = 0x800000) (hpage : 0x1000 ≤ bp.ramdiskSize.toNat)
    (hfar : 0x800000 + bp.ramdiskSize.toNat ≤ bp.ramdiskImage.toNat) (hcmd : bp.cmdlineSize ≠ 0)
    (hf : ∀ k < 0x1000, m (bp.ramdiskImage.toNat + k) = f k) :
    ∃ moved c, Arrives endBootloader k1omBootMagic bpAddr bp sampleMbi m moved c ∧ Called c f := by
  obtain ⟨bp', moved, hmove, hbytes⟩ :=
    (moved_iff_of_not_lt (m := printStatus 83 (printStatus 83 m)) hD (by omega)).mpr
      ⟨fun h => absurd h hcmd, by omega⟩
  have hport : statusPort = 0x6a6a6a := rfl
  have hmoved : ∀ k < 0x1000, moved (0x800000 + k) = f k := fun k hk => by
    have h := hbytes k (by omega)
    rw [hstart] at h
    rw [h, printStatus_of_ne (by omega), printStatus_of_ne (by omega), hf k hk]
  have hloc : ∃ c, locate bpAddr (mbImgStart endBootloader bp) bp' sampleMbi moved = .ok c ∧
      c.base = 0x800000 ∧ c.kernel.size = 0x1000 := by
    rw [hstart]
    refine ⟨_, rfl, ?_, ?_⟩
    · change ((0 : UInt32) + .ofNat 0x800000).toNat = 0x800000
      decide
    · change ((0x1000 + .ofNat 0x800000 : UInt32) - (0 + .ofNat 0x800000)).toNat = 0x1000
      decide
  obtain ⟨c, hc, hbase, hksize⟩ := hloc
  refine ⟨moved, c, ⟨rfl, Nat.div_eq_of_lt hbp, bp', hmove, hc⟩, fun k hk => ?_, hbase, hksize⟩
  have hne : 0x800000 + k ≠ statusPort := by omega
  rw [hbase, locate_mem hc, wrap_of_lt (by omega), printStatus_of_ne hne, printStatus_of_ne hne,
    printStatus_of_ne hne, hmoved k (by omega)]

/-- The file at the start of the sample's ramdisk. -/
theorem arrives_with (f : Mem) {n : UInt32} (hpage : 0x1000 ≤ n.toNat)
    (hsize : n.toNat ≤ 0x900000) :
    ∃ moved c, Arrives 0x700000 k1omBootMagic 0 (sampleParams n) sampleMbi (ramdiskMem f)
      moved c ∧ Called c f := by
  have himage : (sampleParams n).ramdiskImage.toNat = 0x10000000 := rfl
  have hrsize : (sampleParams n).ramdiskSize.toNat = n.toNat := rfl
  refine arrives_of_holds (by decide) (movable_sample hsize) (mbImgStart_sample n) hpage
    (by omega) (by change ¬ (16 : UInt32) = 0; decide) fun k _ => ?_
  rw [himage, ramdiskMem_add]

section Called

variable {c : Setup} {f : Mem} (H : Called c f)

include H

theorem Called.base_lt : c.base + 64 < 18446744073709551616 := by
  rw [H.base_eq]
  decide

theorem Called.module_iff {x : Nat} : c.Module x ↔ 0x800000 ≤ x ∧ x < 0x801000 := by
  rw [Setup.Module, H.base_eq, H.size_eq]
  exact range_iff (by decide)

end Called

/-- The moved image of the sample. -/
theorem image_sample_iff {size : UInt32} (hsize : size.toNat ≤ 0x900000) {x : Nat} :
    Image 0x700000 (sampleParams size) x ↔ 0x800000 ≤ x ∧ x < 0x800000 + size.toNat := by
  rw [Image, mbImgStart_sample]
  exact range_iff (by change 0x800000 + size.toNat ≤ _; omega)

/-! ## 2. Kernels without sections -/

/-- A file of one page with `n` segments to load and no sections. -/
structure Plain (f : Mem) (n : Nat) : Prop where
  header : HeaderOk f 0 emK1om
  proghdr : ProghdrOk f 0 0x1000
  phoff : ePhoff f 0 = 64
  phnum : ePhnum f 0 = n
  shnum : eShnum f 0 = 0
  load : ∀ i < n, pType f (64 + 56 * i) = ptLoad
  small : n ≤ 72

/-- No relocations are applied. -/
def noTables : Tables := ⟨0, 0, 0⟩

theorem findDynamic_none {m : Mem} {base shead : Nat} {t : Tables} : ∀ {n p : Nat},
    (∀ i < n, pType m (p + sizeofPhdr * i) ≠ ptDynamic) → findDynamic m base shead n p t = .ok t
  | 0, _, _ => rfl
  | n + 1, p, h => by
    have hfirst : pType m p ≠ ptDynamic := h 0 (by omega)
    rw [findDynamic, if_neg hfirst]
    refine findDynamic_none fun i hi => ?_
    rw [← stride_succ]
    exact h (i + 1) (by omega)

theorem selectTables_plain {m : Mem} {base : Nat} (hshnum : eShnum m base = 0)
    (hdyn : ∀ i < ePhnum m base, pType m (phdr m base i) ≠ ptDynamic) :
    selectTables m base = .ok noTables := by
  rw [selectTables, hshnum]
  exact findDynamic_none hdyn

section Plain

variable {m f : Mem} {base n i : Nat} (F : Plain f n) (h : HoldsAt m base 0x1000 f)
  (hb : base + 64 < 18446744073709551616)

include F h

theorem Plain.phnum_eq : ePhnum m base = n :=
  (h.ePhnum_eq (by decide) (by decide)).trans F.phnum

include hb

theorem Plain.phdr_eq : phdr m base i = base + (64 + 56 * i) := by
  rw [phdr, h.ePhoff_eq (by decide) (by decide), F.phoff, wrap_of_lt hb, Nat.add_assoc]
  rfl

theorem Plain.field (hi : i < n) {j k : Nat} (hjk : j + k ≤ 56) :
    readLE m k (phdr m base i + j) = readLE f k (64 + 56 * i + j) := by
  have := F.small
  rw [F.phdr_eq h hb, Nat.add_assoc]
  exact h.readLE_eq (by decide) (by omega)

theorem Plain.pType_eq (hi : i < n) : pType m (phdr m base i) = ptLoad := by
  have := F.field h hb hi (j := 0) (k := 4) (by decide)
  rw [Nat.add_zero, Nat.add_zero] at this
  exact this.trans (F.load i hi)

/-- The headers are in the page. -/
theorem Plain.phdr_range (hi : i < n) {j k x : Nat} (hjk : j + k ≤ 56)
    (hx : Range (phdr m base i + j) k x) : Range base 0x1000 x := by
  have := F.small
  rw [F.phdr_eq h hb, Nat.add_assoc] at hx
  exact hx.mono (by omega)

/-- What is read is in the page. -/
theorem Plain.reads {x : Nat} (hx : StillRead m base noTables 0 x) : Range base 0x1000 x := by
  rcases hx with hx | hx | ⟨i, -, hi, hx | ⟨-, hx | hx⟩ | ⟨-, hx | hx | hx⟩⟩
  · exact hx.mono (by decide)
  · exact hx.mono (by decide)
  all_goals rw [F.phnum_eq h] at hi
  · exact F.phdr_range h hb hi (j := 0) (k := 4) (by decide) (by rwa [Nat.add_zero])
  · exact F.phdr_range h hb hi (by decide) hx
  · exact F.phdr_range h hb hi (by decide) hx
  · exact F.phdr_range h hb hi (by decide) hx
  · exact F.phdr_range h hb hi (by decide) hx
  · exact absurd rfl hx.1.1

theorem Plain.virtualBaseReads {x : Nat} (hx : VirtualBaseReads m base x) :
    Range base 0x1000 x := by
  rcases hx with hx | hx | ⟨i, hi, hx | ⟨-, hx⟩⟩
  · exact hx.mono (by decide)
  · exact hx.mono (by decide)
  all_goals rw [F.phnum_eq h] at hi
  · exact F.phdr_range h hb hi (j := 0) (k := 4) (by decide) (by rwa [Nat.add_zero])
  · exact F.phdr_range h hb hi (by decide) hx

omit F h hb

theorem not_stored_plain {p d x : Nat} : ¬ StoredAt m base noTables p d x := by
  rintro ⟨e, he, -⟩
  exact absurd he (Nat.not_lt_zero e)

/-- The tables `elf64_load` selects. -/
theorem Plain.enters_iff {c : Setup} {t : Tables} (F : Plain f n)
    (h : HoldsAt c.mem c.base 0x1000 f) (hb : c.base + 64 < 18446744073709551616)
    (hsize : c.kernel.size = 0x1000) : Enters c t ↔ t = noTables := by
  have htables : selectTables c.mem c.base = .ok noTables := by
    refine selectTables_plain ((h.eShnum_eq (by decide) (by decide)).trans F.shnum) fun i hi => ?_
    rw [F.phnum_eq h] at hi
    rw [F.pType_eq h hb hi]
    decide
  constructor
  · intro E
    have := E.tables
    rw [htables] at this
    cases this
    rfl
  · rintro rfl
    refine ⟨by rw [hsize]; decide, h.headerOk (by decide) (by decide) F.header, ?_, htables⟩
    rw [hsize]
    exact h.proghdrOk (by decide) (by decide) F.proghdr

end Plain

/-! ## 3. Kernels of zero pages -/

/-- A kernel whose segments are pages of zeroes, linked at the given addresses. -/
def zeroPages (vaddrs : List Nat) : Mem :=
  asMem (ehdrBytes 0x1000000 0 vaddrs.length 0 ++ vaddrs.flatMap fun v => loadBytes 0 v 0 0x1000)

/-- The file has such segments. -/
structure Pages (f : Mem) (vaddrs : List Nat) : Prop extends Plain f vaddrs.length where
  offset : ∀ i < vaddrs.length, pOffset f (64 + 56 * i) = 0
  filesz : ∀ i < vaddrs.length, pFilesz f (64 + 56 * i) = 0
  memsz : ∀ i < vaddrs.length, pMemsz f (64 + 56 * i) = 0x1000
  vaddr : ∀ i < vaddrs.length, pVaddr f (64 + 56 * i) = vaddrs.getD i 0

section Pages

variable {f : Mem} {vaddrs : List Nat} {c : Setup} {i : Nat} (F : Pages f vaddrs)
  (H : Called c f)

include F H

theorem Pages.seg_iff : c.Seg i ↔ i < vaddrs.length := by
  rw [Setup.Seg, LoadAt, F.phnum_eq H.holds]
  exact ⟨fun h => h.1, fun h => ⟨h, F.pType_eq H.holds H.base_lt h⟩⟩

theorem Pages.fileStart_eq (hi : i < vaddrs.length) :
    fileStart c.mem c.base (c.hdr i) = 0x800000 := by
  have hoff : pOffset c.mem (c.hdr i) = 0 :=
    (F.field H.holds H.base_lt hi (by decide)).trans (F.offset i hi)
  rw [fileStart, hoff, H.base_eq]
  rfl

theorem Pages.pFilesz_eq (hi : i < vaddrs.length) : pFilesz c.mem (c.hdr i) = 0 :=
  (F.field H.holds H.base_lt hi (by decide)).trans (F.filesz i hi)

theorem Pages.pMemsz_eq (hi : i < vaddrs.length) : pMemsz c.mem (c.hdr i) = 0x1000 :=
  (F.field H.holds H.base_lt hi (by decide)).trans (F.memsz i hi)

theorem Pages.pVaddr_eq (hi : i < vaddrs.length) :
    pVaddr c.mem (c.hdr i) = vaddrs.getD i 0 :=
  (F.field H.holds H.base_lt hi (by decide)).trans (F.vaddr i hi)

theorem Pages.enters_iff {t : Tables} : Enters c t ↔ t = noTables :=
  F.toPlain.enters_iff H.holds H.base_lt H.size_eq

/-- The pages go to the memory from `kernelStart` on, one after the other. -/
theorem Pages.segStart_eq (hi : i ≤ vaddrs.length) :
    segStart c.mem c.base i = 0x1000000 + 0x1000 * i := by
  induction i with
  | zero => rfl
  | succ i ih =>
    have hsmall := F.small
    have hload : pType c.mem (c.hdr i) = ptLoad := F.pType_eq H.holds H.base_lt (by omega)
    have hmemsz : pMemsz c.mem (c.hdr i) = 0x1000 := F.pMemsz_eq H (by omega)
    have hsize : allocSize 0x1000 = 0x1000 := by decide
    rw [segStart_succ, if_pos hload, hmemsz, hsize, ih (by omega), wrap_of_lt (by omega)]
    omega

theorem Pages.passes (hi : i < vaddrs.length) : Passes c.mem c.base noTables i := by
  have hsmall := F.small
  have hstart := F.segStart_eq H (Nat.le_of_lt hi)
  refine passes_iff.mpr
    ⟨fun _ => ⟨by omega, ?_, fun e he => absurd he (Nat.not_lt_zero e)⟩, fun htls => ?_⟩
  · rw [F.pFilesz_eq H hi, F.fileStart_eq H hi, hstart,
      noOverlap_iff (by omega) (by omega)]
    omega
  · have : pType c.mem (c.hdr i) = ptLoad := F.pType_eq H.holds H.base_lt hi
    rw [htls] at this
    exact absurd this (by decide)

theorem Pages.wellFormed {S : Nat → Prop} (hS : ∀ x, Range c.base 0x1000 x → S x) :
    WellFormed S c noTables where
  reads x hx := hS x (F.reads H.holds H.base_lt hx)
  sizes hi := by
    have hi' := (F.seg_iff H).mp hi
    rw [F.pFilesz_eq H hi']
    exact Nat.zero_le _
  stores _ _ hx := absurd hx not_stored_plain

end Pages

theorem pages_one : Pages (zeroPages [0x1000000]) [0x1000000] := by
  constructor <;> first | decide | constructor <;> decide

theorem pages_gap : Pages (zeroPages [0x1000000, 0x1002000]) [0x1000000, 0x1002000] := by
  constructor <;> first | decide | constructor <;> decide

end Philix.Inky
