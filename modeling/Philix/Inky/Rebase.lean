/-
# Whether the relocations match the rebased entry point

`loader` moves the entry point by the displacement of the kernel, from where it is linked to
`kernelStart`.  `elf64_load` relocates each segment from its own address to its own address, and
the pass that would relocate the kernel is compiled out: relocated words are the ones for where
the kernel is linked.
-/
import Philix.Inky.Placement

namespace Philix.Inky

open ByteMem Loop Lts

/-- `kernel_start - elfbase` -/
def displacement (c : Setup) : Nat := sub64 kernelStart (elfVirtualBase64 c.mem c.base)

/-- The relocations in the table that was selected. -/
def relaEntries (t : Tables) : Nat := if t.rela ≠ 0 then t.relaSize / sizeofRela else 0

/-- The relocation changes a word. -/
def Relocates (c : Setup) (t : Tables) (e : Nat) : Prop :=
  e < relaEntries t ∧ (rType c.mem (c.reloc t e) = rX866464 ∨
    rType c.mem (c.reloc t e) = rX8664Relative)

/-- The word of the relocation is in the segment of header `i`, as it is linked. -/
def Targets (c : Setup) (t : Tables) (e i : Nat) : Prop :=
  c.Seg i ∧ pVaddr c.mem (c.hdr i) ≤ rOffset c.mem (c.reloc t e) ∧
    rOffset c.mem (c.reloc t e) + 8 ≤ pVaddr c.mem (c.hdr i) + pMemsz c.mem (c.hdr i)

/-- A kernel all of whose segments are placed at the same displacement from where they are
linked, with relocations of words of its segments. -/
structure Rebased (c : Setup) (t : Tables) : Prop where
  displaced : ∀ {i}, c.Seg i →
    segStart c.mem c.base i = wrap (pVaddr c.mem (c.hdr i) + displacement c)
  types : ∀ e < relaEntries t, Relocates c t e ∨ rType c.mem (c.reloc t e) = rX8664None
  symbols : ∀ e < relaEntries t, rType c.mem (c.reloc t e) = rX866464 →
    t.symtab ≠ 0 ∧ rSym c.mem (c.reloc t e) < shSize c.mem t.symtab / sizeofSym
  targets : ∀ {e}, Relocates c t e → ∃ i, Targets c t e i
  targets_disjoint : ∀ {e f}, Relocates c t e → Relocates c t f → e ≠ f →
    ∀ x, Range (rOffset c.mem (c.reloc t e)) 8 x → ¬ Range (rOffset c.mem (c.reloc t f)) 8 x

/-- The memory that is handed out for the segments neither goes round nor overlaps. -/
structure Spread (c : Setup) : Prop where
  memory : ∀ {i}, c.Seg i → kernelStart ≤ segStart c.mem c.base i ∧
    segStart c.mem c.base i + pMemsz c.mem (c.hdr i) ≤ 18446744073709551616
  disjoint : ∀ {i j}, c.Seg i → c.Seg j → i ≠ j →
    ∀ x, Range (segStart c.mem c.base i) (pMemsz c.mem (c.hdr i)) x →
      ¬ Range (segStart c.mem c.base j) (pMemsz c.mem (c.hdr j)) x

/-- The word at a virtual address of the segment of header `i`, as it is in the file. -/
def initialWord (c : Setup) (i v : Nat) : Nat :=
  readLE (segByte c.mem c.base (c.hdr i)) 8 (v - pVaddr c.mem (c.hdr i))

/-- The entry point and the relocated words are those of the kernel at its displacement. -/
structure RelocatedAsRebased (c : Setup) (t : Tables) (kernelEntry : Nat) (m' : Mem) : Prop where
  entry : kernelEntry = wrap (eEntry c.mem c.base + displacement c)
  absolute : ∀ e < relaEntries t, rType c.mem (c.reloc t e) = rX866464 →
    readLE m' 8 (rOffset c.mem (c.reloc t e) + displacement c) =
      wrap (stValue c.mem (symTable c.mem c.base t + sizeofSym * rSym c.mem (c.reloc t e)) +
        rAddend c.mem (c.reloc t e) + displacement c)
  relative : ∀ e < relaEntries t, rType c.mem (c.reloc t e) = rX8664Relative →
    ∀ i, Targets c t e i →
    readLE m' 8 (rOffset c.mem (c.reloc t e) + displacement c) =
      wrap (initialWord c i (rOffset c.mem (c.reloc t e)) + displacement c)

section Rebase

variable {S : Nat → Prop} {c : Setup} {t : Tables} {e i : Nat}

/-! ## 1. Displaced ranges -/

/-- Ranges that are disjoint are disjoint at a displacement. -/
theorem disjoint_displaced {a b j k d : Nat} (h : ∀ x, Range a j x → ¬ Range b k x) :
    ∀ x, Range (wrap (a + d)) j x → ¬ Range (wrap (b + d)) k x := by
  rintro _ ⟨p, hp, rfl⟩ ⟨q, hq, heq⟩
  rw [wrap_add_left, wrap_add_left] at heq
  refine h _ (range_add hp) ⟨q, hq, ?_⟩
  simp only [wrap] at heq ⊢
  omega

theorem relaCount_le (t : Tables) : relaCount t ≤ relaEntries t := by
  rw [relaCount, relaEntries]
  split
  · rename_i h
    exact Nat.le_of_eq (if_pos h.1).symm
  · exact Nat.zero_le _

theorem Rebased.relaCount_of_absolute (R : Rebased c t) (he : e < relaEntries t)
    (htype : rType c.mem (c.reloc t e) = rX866464) : e < relaCount t := by
  have hsym := (R.symbols e he htype).1
  rw [relaEntries] at he
  split at he
  · rename_i hrela
    rwa [relaCount, if_pos ⟨hrela, hsym⟩]
  · omega

/-- The word of a relocation, where its segment is placed. -/
theorem Rebased.target_range (R : Rebased c t) (h : Targets c t e i) {x : Nat}
    (hx : Range (wrap (rOffset c.mem (c.reloc t e) + displacement c)) 8 x) :
    Range (segStart c.mem c.base i) (pMemsz c.mem (c.hdr i)) x := by
  obtain ⟨hi, hlow, hhigh⟩ := h
  rw [R.displaced hi, range_wrap]
  rw [range_wrap, ← Nat.add_sub_cancel' hlow, Nat.add_right_comm] at hx
  exact hx.mono (by omega)

theorem Rebased.storeAddr_eq (R : Rebased c t) (hi : c.Seg i) :
    storeAddr c.mem c.base t (c.hdr i) (segStart c.mem c.base i) e =
      wrap (rOffset c.mem (c.reloc t e) + displacement c) :=
  storeAddr_displaced (R.displaced hi)

/-- What is stored while any of the segments is relocated. -/
theorem Rebased.stored (R : Rebased c t) (hi : c.Seg i) {x : Nat}
    (h : StoredAt c.mem c.base t (c.hdr i) (segStart c.mem c.base i) x) :
    ∃ f, Relocates c t f ∧ rType c.mem (c.reloc t f) = rX866464 ∧
      Range (wrap (rOffset c.mem (c.reloc t f) + displacement c)) 8 x := by
  obtain ⟨f, hf, htype, hx⟩ := h
  rw [R.storeAddr_eq hi] at hx
  exact ⟨f, ⟨Nat.lt_of_lt_of_le hf (relaCount_le t), Or.inl htype⟩, htype, hx⟩

/-! ## 2. The words after loading -/

/-- A word that is relocated is the value of its symbol, wherever the kernel is placed. -/
theorem Rebased.absolute_word (R : Rebased c t) (he : e < relaEntries t)
    (htype : rType c.mem (c.reloc t e) = rX866464) :
    readLE (memAt c.mem c.base t (segStart c.mem c.base) (ePhnum c.mem c.base)) 8
        (wrap (rOffset c.mem (c.reloc t e) + displacement c)) =
      wrap (stValue c.mem (symTable c.mem c.base t + sizeofSym * rSym c.mem (c.reloc t e)) +
        rAddend c.mem (c.reloc t e)) := by
  obtain ⟨i, hi, -⟩ := R.targets ⟨he, Or.inl htype⟩
  rw [memAt_relocated (R.relaCount_of_absolute he htype) htype (fun j hj => R.storeAddr_eq hj)
    (fun j hj f hf hfe hft => ?_) (Nat.le_refl _) hi, entryValue, Nat.zero_add]
  rw [R.storeAddr_eq hj]
  exact disjoint_displaced (R.targets_disjoint ⟨he, Or.inl htype⟩
    ⟨Nat.lt_of_lt_of_le hf (relaCount_le t), Or.inl hft⟩ (Ne.symm hfe))

/-- A word with a relative relocation is the one in the file. -/
theorem Rebased.relative_word (R : Rebased c t) (U : Undisturbed S c t) (D : Spread c)
    (he : e < relaEntries t)
    (htype : rType c.mem (c.reloc t e) = rX8664Relative) (h : Targets c t e i) :
    readLE (memAt c.mem c.base t (segStart c.mem c.base) (ePhnum c.mem c.base)) 8
        (wrap (rOffset c.mem (c.reloc t e) + displacement c)) =
      initialWord c i (rOffset c.mem (c.reloc t e)) := by
  have hmemsz := pMemsz_lt c.mem (c.hdr i)
  obtain ⟨hi, hlow, hhigh⟩ := h
  rw [initialWord]
  refine readLE_ext fun k hk => ?_
  have haddr : wrap (wrap (rOffset c.mem (c.reloc t e) + displacement c) + k) =
      wrap (segStart c.mem c.base i +
        (rOffset c.mem (c.reloc t e) - pVaddr c.mem (c.hdr i) + k)) := by
    rw [wrap_add_left, R.displaced hi, wrap_add_left]
    exact congrArg wrap (by omega)
  have hin : rOffset c.mem (c.reloc t e) - pVaddr c.mem (c.hdr i) + k < pMemsz c.mem (c.hdr i) := by
    omega
  rw [haddr, memAt_segment (U.laid D.disjoint) (Nat.le_refl _) hi hin fun j hj hst => ?_,
    wrap_of_lt (by omega)]
  obtain ⟨f, hf, hft, hr⟩ := R.stored hj hst
  rw [← haddr] at hr
  refine disjoint_displaced (R.targets_disjoint ⟨he, Or.inr htype⟩ hf fun hef => ?_) _
    (range_add hk) hr
  rw [hef, hft] at htype
  exact absurd htype (by decide)

/-- The words are not changed any more once the segments are loaded. -/
theorem Rebased.word_of_started (R : Rebased c t) (U : Undisturbed S c t) (D : Spread c)
    (E : Enters c t) {kernelEntry : Nat} {m' : Mem} (hrun : startKernel c = .ok (kernelEntry, m'))
    (h : Relocates c t e) :
    readLE m' 8 (rOffset c.mem (c.reloc t e) + displacement c) =
      readLE (memAt c.mem c.base t (segStart c.mem c.base) (ePhnum c.mem c.base)) 8
        (wrap (rOffset c.mem (c.reloc t e) + displacement c)) := by
  obtain ⟨s, l, hload, -, hmem⟩ := startKernel_eq_ok hrun
  obtain ⟨T, -, -⟩ := loaded_of_accepted E (covers_kept S) (fun _ => U.nextApart) hload
  obtain ⟨i, hi⟩ := R.targets h
  have hmemory := D.memory hi.1
  have hport : statusPort < kernelStart := by decide
  rw [← readLE_wrap, ← T.mem]
  refine readLE_congr fun x hx => hmem x ?_
  have := R.target_range hi hx
  rw [range_iff hmemory.2] at this
  omega

theorem Undisturbed.entry_eq (U : Undisturbed S c t) (E : Enters c t) {kernelEntry : Nat} {m' : Mem}
    (hrun : startKernel c = .ok (kernelEntry, m')) :
    kernelEntry = wrap (eEntry c.mem c.base + displacement c) := by
  obtain ⟨s, l, hload, hentry, -⟩ := startKernel_eq_ok hrun
  obtain ⟨-, hag, hl⟩ := loaded_of_accepted E (covers_kept S) (fun _ => U.nextApart) hload
  rw [hentry, hl, elfVirtualBase64_kept hag, displacement]
  have hlt : kernelStart < 18446744073709551616 := by decide
  simp only [sub64, wrap]
  omega

theorem eq_zero_of_wrap_add {a d : Nat} (hd : d < 18446744073709551616)
    (h : wrap a = wrap (a + d)) : d = 0 := by
  simp only [wrap] at h
  omega

/-- With a displacement, no relocated word is right. -/
theorem Rebased.no_relocation (R : Rebased c t) (U : Undisturbed S c t) (D : Spread c)
    (E : Enters c t) {kernelEntry : Nat} {m' : Mem}
    (hrun : startKernel c = .ok (kernelEntry, m')) (hd : displacement c ≠ 0)
    (P : RelocatedAsRebased c t kernelEntry m') : ¬ Relocates c t e := by
  intro h
  have hlt : displacement c < 18446744073709551616 := wrap_lt _
  have hword := R.word_of_started U D E hrun h
  obtain ⟨he, htype | htype⟩ := h
  · rw [P.absolute e he htype, R.absolute_word he htype] at hword
    exact hd (eq_zero_of_wrap_add hlt hword.symm)
  · obtain ⟨i, hi⟩ := R.targets ⟨he, Or.inr htype⟩
    rw [P.relative e he htype i hi, R.relative_word U D he htype hi,
      ← wrap_of_lt (show initialWord c i _ < _ from readLE_lt 8 _)] at hword
    rw [wrap_add_left] at hword
    exact hd (eq_zero_of_wrap_add hlt hword.symm)

/-- With none, or nothing to relocate, they all are. -/
theorem Rebased.relocated (R : Rebased c t) (U : Undisturbed S c t) (D : Spread c)
    (E : Enters c t) {kernelEntry : Nat} {m' : Mem}
    (hrun : startKernel c = .ok (kernelEntry, m'))
    (h : displacement c = 0 ∨ ∀ e < relaEntries t, rType c.mem (c.reloc t e) = rX8664None) :
    RelocatedAsRebased c t kernelEntry m' := by
  refine ⟨U.entry_eq E hrun, fun e he htype => ?_, fun e he htype i hi => ?_⟩
  · rcases h with hd | hnone
    · rw [R.word_of_started U D E hrun ⟨he, Or.inl htype⟩, R.absolute_word he htype, hd,
        Nat.add_zero]
    · rw [hnone e he] at htype
      exact absurd htype (by decide)
  · rcases h with hd | hnone
    · rw [R.word_of_started U D E hrun ⟨he, Or.inr htype⟩, R.relative_word U D he htype hi, hd,
        Nat.add_zero, wrap_of_lt (show initialWord c i _ < _ from readLE_lt 8 _)]
    · rw [hnone e he] at htype
      exact absurd htype (by decide)

/-- **The relocations match the rebased entry point exactly when the kernel is not displaced,
or there is nothing to relocate**, as long as loading does not overwrite what it reads or has
loaded. -/
theorem relocated_iff {endBootloader magic bpAddr kernelEntry : Nat} {bp : BootParams}
    {mbi : MultibootInfo} {m m' : Mem}
    (_hprep : prepare endBootloader magic bpAddr bp mbi m = .ok c)
    (hrun : startKernel c = .ok (kernelEntry, m')) (E : Enters c t) (R : Rebased c t) :
    ((displacement c = 0 ∨ ∀ e < relaEntries t, rType c.mem (c.reloc t e) = rX8664None) ∧
        Undisturbed S c t ∧ Spread c → RelocatedAsRebased c t kernelEntry m') ∧
      (RelocatedAsRebased c t kernelEntry m' ∧ Undisturbed S c t ∧ Spread c →
        displacement c = 0 ∨ ∀ e < relaEntries t, rType c.mem (c.reloc t e) = rX8664None) := by
  constructor
  · rintro ⟨h, U, D⟩
    exact R.relocated U D E hrun h
  · rintro ⟨P, U, D⟩
    by_cases hd : displacement c = 0
    · exact Or.inl hd
    · exact Or.inr fun e he => (R.types e he).resolve_left (R.no_relocation U D E hrun hd P)

end Rebase

/-! ## 3. A kernel with one relocation -/

def relaBytes (offset sym type addend : Nat) : List UInt8 :=
  leBytes 8 offset ++ leBytes 4 type ++ leBytes 4 sym ++ leBytes 8 addend

def symBytes (value : Nat) : List UInt8 :=
  leBytes 4 0 ++ leBytes 4 0 ++ leBytes 8 value ++ leBytes 8 0

/-- A page of zeroes linked at `link`, whose first word is relocated to its own address. -/
def selfKernel (link : Nat) : Mem :=
  asMem (ehdrBytes link 120 1 2 ++ loadBytes 0 link 0 0x1000 ++ shdrBytes 4 248 24 ++
    shdrBytes 2 272 24 ++ relaBytes link 0 1 0 ++ symBytes link)

/-- The file is such a kernel. -/
structure SelfKernel (f : Mem) (link : Nat) : Prop where
  header : HeaderOk f 0 emK1om
  proghdr : ProghdrOk f 0 0x1000
  phoff : ePhoff f 0 = 64
  phnum : ePhnum f 0 = 1
  shoff : eShoff f 0 = 120
  shnum : eShnum f 0 = 2
  load : pType f 64 = ptLoad
  offset : pOffset f 64 = 0
  filesz : pFilesz f 64 = 0
  memsz : pMemsz f 64 = 0x1000
  vaddr : pVaddr f 64 = link
  rela : shType f 120 = shtRela
  relaOffset : shOffset f 120 = 248
  relaSize : shSize f 120 = 24
  symtab : shType f 184 = shtSymtab
  symOffset : shOffset f 184 = 272
  symSize : shSize f 184 = 24
  target : rOffset f 248 = link
  info : rInfo f 248 = 1
  link_pos : 0 < link
  link_lt : link < 4294967296

theorem selfKernel_linked : SelfKernel (selfKernel 0x1000000) 0x1000000 := by
  constructor <;> decide

theorem selfKernel_displaced : SelfKernel (selfKernel 0x2000000) 0x2000000 := by
  constructor <;> decide

/-- The tables of the kernel, when it is called. -/
def selfTables : Tables := ⟨0x800078, 24, 0x8000b8⟩

section SelfKernel

variable {f : Mem} {link : Nat} {c : Setup} (F : SelfKernel f link) (H : Called c f)

include H

/-- A field of the file, where it is in memory. -/
theorem Called.read_eq {j k : Nat} (hjk : j + k ≤ 0x1000) :
    readLE c.mem k (0x800000 + j) = readLE f k j := by
  rw [← H.base_eq]
  exact H.holds.readLE_eq (by decide) hjk

theorem Called.in_module {j k x : Nat} (hjk : j + k ≤ 0x1000)
    (hx : Range (0x800000 + j) k x) : c.Module x := by
  rw [Setup.Module, H.base_eq, H.size_eq]
  exact hx.mono hjk

include F

theorem SelfKernel.phdr_eq : c.hdr 0 = 0x800040 := by
  rw [Setup.hdr, phdr, H.holds.ePhoff_eq (by decide) (by decide), F.phoff, H.base_eq]
  rfl

theorem SelfKernel.phnum_eq : ePhnum c.mem c.base = 1 :=
  (H.holds.ePhnum_eq (by decide) (by decide)).trans F.phnum

theorem SelfKernel.pType_eq : pType c.mem (c.hdr 0) = ptLoad := by
  rw [F.phdr_eq H]
  exact (H.read_eq (j := 64) (by decide)).trans F.load

theorem SelfKernel.pVaddr_eq : pVaddr c.mem (c.hdr 0) = link := by
  rw [F.phdr_eq H]
  exact (H.read_eq (j := 80) (by decide)).trans F.vaddr

theorem SelfKernel.pFilesz_eq : pFilesz c.mem (c.hdr 0) = 0 := by
  rw [F.phdr_eq H]
  exact (H.read_eq (j := 96) (by decide)).trans F.filesz

theorem SelfKernel.pMemsz_eq : pMemsz c.mem (c.hdr 0) = 0x1000 := by
  rw [F.phdr_eq H]
  exact (H.read_eq (j := 104) (by decide)).trans F.memsz

theorem SelfKernel.fileStart_eq : fileStart c.mem c.base (c.hdr 0) = 0x800000 := by
  have hoff : pOffset c.mem (c.hdr 0) = 0 := by
    rw [F.phdr_eq H]
    exact (H.read_eq (j := 72) (by decide)).trans F.offset
  rw [fileStart, hoff, H.base_eq]
  rfl

theorem SelfKernel.seg_iff {i : Nat} : c.Seg i ↔ i = 0 := by
  rw [Setup.Seg, LoadAt, F.phnum_eq H]
  constructor
  · rintro ⟨hi, -⟩
    omega
  · rintro rfl
    exact ⟨by decide, F.pType_eq H⟩

theorem SelfKernel.selectTables_eq : selectTables c.mem c.base = .ok selfTables := by
  have hshead : wrap (c.base + eShoff c.mem c.base) = 0x800078 := by
    rw [H.holds.eShoff_eq (by decide) (by decide), F.shoff, H.base_eq]
    rfl
  have hrela : shType c.mem 0x800078 = shtRela :=
    (H.read_eq (j := 124) (by decide)).trans F.rela
  have hsymtab : shType c.mem 0x8000b8 = shtSymtab :=
    (H.read_eq (j := 188) (by decide)).trans F.symtab
  have hsize : shSize c.mem 0x800078 = 24 := (H.read_eq (j := 152) (by decide)).trans F.relaSize
  have hfirst : elf64FindSectionHeaderType c.mem 0x800078 2 shtRela = 0x800078 := by
    rw [elf64FindSectionHeaderType, findSection, hrela]
    rfl
  have hsecond : elf64FindSectionHeaderType c.mem 0x800078 2 shtSymtab = 0x8000b8 := by
    rw [elf64FindSectionHeaderType, findSection, hrela, if_neg (by decide), findSection,
      if_pos (by
        change (shType c.mem 0x8000b8 == shtSymtab) = true
        rw [hsymtab]
        rfl)]
    rfl
  rw [selectTables, H.holds.eShnum_eq (by decide) (by decide), F.shnum, hshead,
    hfirst, hsecond, hsize, if_pos (by decide)]
  refine findDynamic_none fun i hi => ?_
  rw [F.phnum_eq H] at hi
  obtain rfl : i = 0 := by omega
  have := F.pType_eq H
  rw [Setup.hdr, phdr] at this
  rw [this]
  decide

theorem SelfKernel.enters : Enters c selfTables where
  size_ne := by
    rw [H.size_eq]
    decide
  header := H.holds.headerOk (by decide) (by decide) F.header
  proghdr := by
    rw [H.size_eq]
    exact H.holds.proghdrOk (by decide) (by decide) F.proghdr
  tables := F.selectTables_eq H

theorem SelfKernel.reloc_eq : c.reloc selfTables 0 = 0x8000f8 := by
  have hoff : shOffset c.mem 0x800078 = 248 :=
    (H.read_eq (j := 144) (by decide)).trans F.relaOffset
  change wrap (c.base + shOffset c.mem 0x800078) + sizeofRela * 0 = 0x8000f8
  rw [hoff, H.base_eq]
  rfl

theorem SelfKernel.symTable_eq : symTable c.mem c.base selfTables = 0x800110 := by
  have hoff : shOffset c.mem 0x8000b8 = 272 :=
    (H.read_eq (j := 208) (by decide)).trans F.symOffset
  change wrap (c.base + shOffset c.mem 0x8000b8) = 0x800110
  rw [hoff, H.base_eq]
  rfl

theorem SelfKernel.symsize_eq : shSize c.mem selfTables.symtab = 24 :=
  (H.read_eq (j := 216) (by decide)).trans F.symSize

theorem SelfKernel.rOffset_eq : rOffset c.mem (c.reloc selfTables 0) = link := by
  rw [F.reloc_eq H]
  exact (H.read_eq (j := 248) (by decide)).trans F.target

theorem SelfKernel.rInfo_eq : rInfo c.mem (c.reloc selfTables 0) = 1 := by
  rw [F.reloc_eq H]
  exact (H.read_eq (j := 256) (by decide)).trans F.info

theorem SelfKernel.rType_eq : rType c.mem (c.reloc selfTables 0) = rX866464 := by
  rw [rType, F.rInfo_eq H]
  rfl

theorem SelfKernel.rSym_eq : rSym c.mem (c.reloc selfTables 0) = 0 := by
  rw [rSym, F.rInfo_eq H]

theorem SelfKernel.relocates : Relocates c selfTables 0 := ⟨by decide, Or.inl (F.rType_eq H)⟩

theorem SelfKernel.displacement_eq : displacement c = sub64 0x1000000 link := by
  have hbase : elfVirtualBase64 c.mem c.base = link := by
    have hp : wrap (c.base + ePhoff c.mem c.base) + sizeofPhdr * 0 = c.hdr 0 := rfl
    refine virtualBase_of_lowest (Nat.ne_of_gt F.link_pos) (fun i hi _ => ?_)
      ⟨0, by rw [F.phnum_eq H]; decide, by rw [hp]; exact F.pType_eq H, by
        rw [hp]; exact F.pVaddr_eq H⟩
    rw [F.phnum_eq H] at hi
    obtain rfl : i = 0 := by omega
    rw [hp]
    exact Nat.le_of_eq (F.pVaddr_eq H).symm
  rw [displacement, hbase]
  rfl

theorem SelfKernel.hdr_in_module {i j k x : Nat} (hi : i < ePhnum c.mem c.base) (hjk : j + k ≤ 56)
    (hx : Range (c.hdr i + j) k x) : c.Module x := by
  rw [F.phnum_eq H] at hi
  obtain rfl := Nat.lt_one_iff.mp hi
  rw [F.phdr_eq H] at hx
  exact H.in_module (j := 64) (k := 56) (by decide) (hx.mono hjk)

/-- What is read of the tables is in the module. -/
theorem SelfKernel.tables_in_module {x : Nat} (hx : TableReads c.mem c.base selfTables x) :
    c.Module x := by
  rcases hx with ⟨-, hx | hx | ⟨e, he, hx⟩⟩
  · exact H.in_module (j := 144) (by decide) hx
  · exact H.in_module (j := 208) (by decide) hx
  · have hreloc : entry (relaTable c.mem c.base selfTables) 0 = 0x8000f8 := F.reloc_eq H
    have hcount : relaCount selfTables = 1 := by decide
    obtain rfl : e = 0 := by omega
    rcases hx with hx | ⟨-, -, hx | hx⟩
    · rw [hreloc] at hx
      exact H.in_module (j := 248) (by decide) hx
    · have hsym : rSym c.mem (entry (relaTable c.mem c.base selfTables) 0) = 0 := F.rSym_eq H
      rw [F.symTable_eq H, hsym] at hx
      exact H.in_module (j := 280) (by decide) hx
    · rw [hreloc] at hx
      exact H.in_module (j := 264) (by decide) hx

theorem SelfKernel.reads {x : Nat} (hx : StillRead c.mem c.base selfTables 0 x) : c.Module x := by
  rcases hx with hx | hx | ⟨i, -, hi, hx | ⟨-, hx | hx⟩ | ⟨-, hx | hx | hx⟩⟩
  · exact H.in_module (j := 24) (by decide) (H.base_eq ▸ hx)
  · exact H.in_module (j := 56) (by decide) (H.base_eq ▸ hx)
  · exact F.hdr_in_module H hi (j := 0) (k := 4) (by decide) (by rwa [Nat.add_zero])
  · exact F.hdr_in_module H hi (by decide) hx
  · exact F.hdr_in_module H hi (by decide) hx
  · exact F.hdr_in_module H hi (by decide) hx
  · exact F.hdr_in_module H hi (by decide) hx
  · exact F.tables_in_module H hx

theorem SelfKernel.virtualBaseReads {x : Nat} (hx : VirtualBaseReads c.mem c.base x) :
    c.Module x := by
  rcases hx with hx | hx | ⟨i, hi, hx | ⟨-, hx⟩⟩
  · exact H.in_module (j := 32) (by decide) (H.base_eq ▸ hx)
  · exact H.in_module (j := 56) (by decide) (H.base_eq ▸ hx)
  · exact F.hdr_in_module H hi (j := 0) (k := 4) (by decide) (by rwa [Nat.add_zero])
  · exact F.hdr_in_module H hi (by decide) hx

theorem SelfKernel.rebased : Rebased c selfTables := by
  have hpos := F.link_pos
  have hlt := F.link_lt
  have hcount : relaEntries selfTables = 1 := by decide
  have hreloc0 : ∀ {e}, Relocates c selfTables e → e = 0 := fun h => by
    have := h.1
    omega
  have htargets : Targets c selfTables 0 0 := ⟨(F.seg_iff H).mpr rfl,
    Nat.le_of_eq ((F.pVaddr_eq H).trans (F.rOffset_eq H).symm), by
    rw [F.pVaddr_eq H, F.rOffset_eq H, F.pMemsz_eq H]
    omega⟩
  have hstart : segStart c.mem c.base 0 = 0x1000000 := rfl
  refine {
    displaced := fun {i} hi => ?_, types := fun e he => ?_, symbols := fun e he _ => ?_
    targets := fun {e} he => ?_, targets_disjoint := fun {e f} he hf hef => ?_ }
  · obtain rfl := (F.seg_iff H).mp hi
    rw [hstart, F.pVaddr_eq H, F.displacement_eq H]
    simp only [sub64, wrap]
    omega
  · obtain rfl : e = 0 := by omega
    exact Or.inl (F.relocates H)
  · obtain rfl : e = 0 := by omega
    rw [F.rSym_eq H, F.symsize_eq H]
    decide
  · obtain rfl := hreloc0 he
    exact ⟨0, htargets⟩
  · exact absurd ((hreloc0 he).trans (hreloc0 hf).symm) hef

/-- Its page. -/
theorem SelfKernel.segment_iff {i x : Nat} (hi : c.Seg i) :
    Range (segStart c.mem c.base i) (pMemsz c.mem (c.hdr i)) x ↔
      0x1000000 ≤ x ∧ x < 0x1001000 := by
  obtain rfl := (F.seg_iff H).mp hi
  have hstart : segStart c.mem c.base 0 = 0x1000000 := rfl
  rw [hstart, F.pMemsz_eq H, range_iff (by decide)]

theorem SelfKernel.wellFormed : WellFormed c.Module c selfTables where
  reads _ hx := F.reads H hx
  sizes hi := by
    obtain rfl := (F.seg_iff H).mp hi
    rw [F.pFilesz_eq H]
    exact Nat.zero_le _
  stores hi x hx := by
    have R := F.rebased H
    obtain ⟨f, hf, -, hr⟩ := R.stored hi hx
    obtain ⟨j, hj⟩ := R.targets hf
    have := (F.segment_iff H hj.1).mp (R.target_range hj hr)
    rw [H.module_iff]
    omega

theorem SelfKernel.undisturbed : Undisturbed c.Module c selfTables := by
  refine (F.wellFormed H).undisturbed (fun _ hx => F.virtualBaseReads H hx) (fun hi x hx => ?_)
    fun hi x hx => ?_
  · obtain rfl := (F.seg_iff H).mp hi
    rw [F.pFilesz_eq H, range_zero] at hx
    exact hx.elim
  · have := (F.segment_iff H hi).mp hx
    rw [H.module_iff]
    omega

theorem SelfKernel.spread : Spread c where
  memory hi := by
    obtain rfl := (F.seg_iff H).mp hi
    have hstart : segStart c.mem c.base 0 = 0x1000000 := rfl
    rw [hstart, F.pMemsz_eq H]
    decide
  disjoint hi hj hij := by
    rw [F.seg_iff H] at hi hj
    exact absurd (hi.trans hj.symm) hij

/-- The kernel is started. -/
theorem SelfKernel.started : ∃ entry m', startKernel c = .ok (entry, m') := by
  have U := F.undisturbed H
  have hseg : ∀ {j}, j < ePhnum c.mem c.base → j = 0 := fun hj => by
    rw [F.phnum_eq H] at hj
    omega
  have hstart : segStart c.mem c.base 0 = 0x1000000 := rfl
  have hpasses : Passes c.mem c.base selfTables 0 := by
    refine passes_iff.mpr ⟨fun _ => ⟨by rw [hstart]; decide, ?_, fun e he => ?_⟩, fun htls => ?_⟩
    · rw [F.pFilesz_eq H, F.fileStart_eq H, hstart]
      decide
    · obtain rfl : e = 0 := by
        have : relaCount selfTables = 1 := by decide
        omega
      refine Or.inr (Or.inl ⟨F.rType_eq H, ?_⟩)
      rw [F.symsize_eq H]
      change rSym c.mem (c.reloc selfTables 0) < _
      rw [F.rSym_eq H]
      decide
    · have := F.pType_eq H
      rw [Setup.hdr, htls] at this
      exact absurd this (by decide)
  obtain ⟨s, l, h⟩ := accepted_of_passes (F.enters H) (covers_kept c.Module)
    (fun j hj => hseg hj ▸ hpasses) fun j hj => U.nextApart hj
  exact started_of_accepted h

end SelfKernel

/-- Linked at `kernelStart`, the kernel is relocated as its entry point is. -/
theorem relocated_iff_linked : ∃ c kernelEntry m',
    prepare 0x700000 k1omBootMagic 0 (sampleParams 0x1000) sampleMbi
      (ramdiskMem (selfKernel 0x1000000)) = .ok c ∧
    startKernel c = .ok (kernelEntry, m') ∧ RelocatedAsRebased c selfTables kernelEntry m' := by
  obtain ⟨moved, c, harr, H⟩ := arrives_with (selfKernel 0x1000000) (n := 0x1000)
    (by decide) (by decide)
  have F := selfKernel_linked
  have hprep := prepare_eq_ok_iff.mpr ⟨moved, harr⟩
  obtain ⟨kernelEntry, m', hrun⟩ := F.started H
  refine ⟨c, kernelEntry, m', hprep, hrun,
    (relocated_iff hprep hrun (F.enters H) (F.rebased H)).1
      ⟨Or.inl ?_, F.undisturbed H, F.spread H⟩⟩
  rw [F.displacement_eq H]
  decide

/-- Linked at 32 MiB, it is entered at `kernelStart` but relocated for 32 MiB. -/
theorem displaced_not_relocated : ∃ c kernelEntry m',
    prepare 0x700000 k1omBootMagic 0 (sampleParams 0x1000) sampleMbi
      (ramdiskMem (selfKernel 0x2000000)) = .ok c ∧
    startKernel c = .ok (kernelEntry, m') ∧ Enters c selfTables ∧ Rebased c selfTables ∧
    Undisturbed c.Module c selfTables ∧ Spread c ∧
      ¬ RelocatedAsRebased c selfTables kernelEntry m' := by
  obtain ⟨moved, c, harr, H⟩ := arrives_with (selfKernel 0x2000000) (n := 0x1000)
    (by decide) (by decide)
  have F := selfKernel_displaced
  have hprep := prepare_eq_ok_iff.mpr ⟨moved, harr⟩
  obtain ⟨kernelEntry, m', hrun⟩ := F.started H
  have U := F.undisturbed H
  have D := F.spread H
  refine ⟨c, kernelEntry, m', hprep, hrun, F.enters H, F.rebased H, U, D, fun P => ?_⟩
  refine (F.rebased H).no_relocation U D (F.enters H) hrun ?_ P (F.relocates H)
  rw [F.displacement_eq H]
  decide

end Philix.Inky
