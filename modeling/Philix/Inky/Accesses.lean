/-
# The accesses of `elf64_load`

The loader of `Elf64` with a log of what it does to memory.  Whatever it takes from the image
comes from `read`, as often as the code looks at it and no further than a condition is
evaluated; a copy reads its source and writes its destination.  Apart from the log this is the
loader of `Elf64` (`Logged.elf64Load_result`).

The word that `*addr += base` reads is one of a segment, not of the image, and is not logged.
-/
import Philix.Inky.Frozen
import Philix.Lib.Traced

namespace Philix.Inky

open ByteMem Traced

/-- What `elf64_load` does to memory: `n` bytes from `a` on. -/
inductive Access
  /-- image data that is read -/
  | read (a n : Nat)
  /-- a copy, a zero fill or a relocation -/
  | write (a n : Nat)
  /-- handed out by the allocator -/
  | given (a n : Nat)
  /-- the store of `bad()` -/
  | bad
  deriving DecidableEq, Repr

abbrev Logged (α : Type) := Traced Access Halt α

namespace Logged

/-! ## 1. Library routines -/

/-- A word of image data. -/
def read (m : Mem) (a n : Nat) : Logged Nat := do
  emit (.read a n)
  pure (readLE m n a)

/-- `memcpy`, out of the image. -/
def memcpy (dst src len : Nat) (m : Mem) : Logged Mem := do
  lift (assert (NoOverlap dst src len))
  emit (.read src len)
  emit (.write dst len)
  pure (copy len dst src m)

def memset (s : Nat) (c : UInt8) (n : Nat) (m : Mem) : Logged Mem := do
  emit (.write s n)
  pure (fill c n s m)

/-! ## 2. The header, and finding sections -/

/-- A check of a field of the ELF header, given by its offset and its length. -/
structure Check where
  off : Nat
  len : Nat
  ok : Nat → Bool

/-- The checks of the ELF header, in the order in which the code makes them. -/
def headerChecks (emMachine : Nat) : List Check :=
  [⟨0, 1, (· == 0x7f)⟩, ⟨1, 1, (· == 69)⟩, ⟨2, 1, (· == 76)⟩, ⟨3, 1, (· == 70)⟩,
    ⟨4, 1, (· == 2)⟩, ⟨5, 1, (· == 1)⟩, ⟨6, 1, (· == 1)⟩, ⟨7, 1, (· == 0)⟩, ⟨8, 1, (· == 0)⟩,
    ⟨16, 2, fun type => type == 2 || type == 3⟩, ⟨18, 2, (· == emMachine)⟩, ⟨20, 4, (· == 1)⟩]

/-- Making checks up to the first that fails. -/
def passes (m : Mem) (head : Nat) : List Check → Logged Bool
  | [] => pure true
  | c :: cs => do
    let v ← read m (head + c.off) c.len
    if c.ok v then passes m head cs else pure false

def proghdrOk (m : Mem) (head size : Nat) : Logged Bool := do
  let phoff ← read m (head + 32) 8
  let phentsize ← read m (head + 54) 2
  let phnum ← read m (head + 56) 2
  if wrap (phoff + phentsize * phnum) ≤ size then do
    let phentsize ← read m (head + 54) 2
    pure (phentsize == sizeofPhdr)
  else pure false

/-- A pointer to the first of `n` section headers whose field at `off` is `v`, or `NULL`. -/
def findSection (m : Mem) (off len v : Nat) : Nat → Nat → Logged Nat
  | 0, _ => pure 0
  | n + 1, s => do
    let field ← read m (s + off) len
    if field = v then pure (wrap s) else findSection m off len v n (s + sizeofShdr)

def elf64FindSectionHeaderType (m : Mem) (shdr entries type : Nat) : Logged Nat :=
  findSection m 4 4 type entries shdr

def elf64FindSectionHeaderVaddr (m : Mem) (shdr entries addr : Nat) : Logged Nat :=
  findSection m 16 8 addr entries shdr

/-! ## 3. Relocation -/

def relocateEntry (base abase rela symtab symsize start vbase i : Nat) (m : Mem) :
    Logged Mem := do
  let r := rela + sizeofRela * i
  let info ← read m (r + 8) 8
  let offset ← read m r 8
  let addr := sub64 (vbase + offset) start
  if info % 4294967296 = rX8664None then pure m
  else if info % 4294967296 = rX866464 then do
    let info ← read m (r + 8) 8
    lift (assert (info / 4294967296 < symsize / sizeofSym))
    let value ← read m (symtab + sizeofSym * (info / 4294967296) + 8) 8
    let addend ← read m (r + 16) 8
    emit (.write addr 8)
    pure (writeLE 8 addr (wrap (abase + value + addend)) m)
  else if info % 4294967296 = rX8664Relative then do
    emit (.write addr 8)
    pure (writeLE 8 addr (wrap (readLE m 8 addr + base)) m)
  else lift (.error (.aborted 'E' 'x'))

def elf64Relocate (dst src rela size symtab symsize start vbase : Nat) (m : Mem) : Logged Mem :=
  forLoop (relocateEntry (sub64 dst src) (sub64 dst start) rela symtab symsize start vbase)
    (size / sizeofRela) 0 m

/-! ## 4. Choosing the tables -/

def dynamicEntry (m : Mem) (base shead d : Nat) (s : Dynamic) : Logged Dynamic := do
  let tag ← read m d 8
  if tag = dtRela then do
    let shnum ← read m (base + 60) 2
    let val ← read m (d + 8) 8
    let newRela ← elf64FindSectionHeaderVaddr m shead shnum val
    pure { s with newRela }
  else if tag = dtRelasz then do
    let newRelaSize ← read m (d + 8) 8
    pure { s with newRelaSize }
  else if tag = dtSymtab then do
    let shnum ← read m (base + 60) 2
    let val ← read m (d + 8) 8
    let symtab ← elf64FindSectionHeaderVaddr m shead shnum val
    pure { s with symtab }
  else if tag = dtSyment then do
    let val ← read m (d + 8) 8
    lift (assert (val = sizeofSym))
    pure s
  else pure s

def applyDynamic (m : Mem) (base shead p : Nat) (t : Tables) : Logged Tables := do
  let offset ← read m (p + 8) 8
  let filesz ← read m (p + 32) 8
  let d ← forLoop (fun j => dynamicEntry m base shead (base + offset + sizeofDyn * j))
    (nDynamic filesz) 0 ⟨0, 0, t.symtab⟩
  if d.newRela ≠ 0 then do
    lift (assert (d.newRelaSize ≠ 0))
    pure ⟨d.newRela, d.newRelaSize, d.symtab⟩
  else pure { t with symtab := d.symtab }

/-- The loop that looks for a `PT_DYNAMIC` header, with `n` headers to go. -/
def findDynamic (m : Mem) (base shead : Nat) : Nat → Nat → Tables → Logged Tables
  | 0, _, t => do
    let _ ← read m (base + 56) 2
    pure t
  | n + 1, p, t => do
    let _ ← read m (base + 56) 2
    let type ← read m p 4
    if type = ptDynamic then applyDynamic m base shead p t
    else findDynamic m base shead n (p + sizeofPhdr) t

def selectTables (m : Mem) (base : Nat) : Logged Tables := do
  let shoff ← read m (base + 40) 8
  let shead := wrap (base + shoff)
  let shnum ← read m (base + 60) 2
  let rela ← elf64FindSectionHeaderType m shead shnum shtRela
  let shnum ← read m (base + 60) 2
  let symtab ← elf64FindSectionHeaderType m shead shnum shtSymtab
  let relaSize ← if rela ≠ 0 then read m (rela + 32) 8 else pure 0
  let phoff ← read m (base + 32) 8
  findDynamic m base shead (ePhnum m base) (wrap (base + phoff)) ⟨rela, relaSize, symtab⟩

/-! ## 5. Loading -/

section Load

variable {ε σ : Type}

def placeSegment (base : Nat) (t : Tables) (p dest : Nat) (m : Mem) : Logged Mem := do
  let offset ← read m (p + 8) 8
  let filesz ← read m (p + 32) 8
  let m ← memcpy dest (wrap (base + offset)) filesz m
  let filesz ← read m (p + 32) 8
  let memsz ← read m (p + 40) 8
  let m ← memset (wrap (dest + filesz)) 0 (sub64 memsz filesz) m
  if t.rela ≠ 0 ∧ t.symtab ≠ 0 then do
    let vaddr ← read m (p + 16) 8
    let relaOffset ← read m (t.rela + 24) 8
    let symOffset ← read m (t.symtab + 24) 8
    let symSize ← read m (t.symtab + 32) 8
    elf64Relocate vaddr vaddr (wrap (base + relaOffset)) t.relaSize (wrap (base + symOffset))
      symSize vaddr dest m
  else pure m

def loadSegment (alloc : Allocator ε σ) (base : Nat) (t : Tables) (p : Nat) (s : LoadState σ) :
    Logged (LoadState σ × Option (ElfErr ε)) := do
  let type ← read s.mem p 4
  if type = ptLoad then do
    let vaddr ← read s.mem (p + 16) 8
    let memsz ← read s.mem (p + 40) 8
    let flags ← read s.mem (p + 4) 4
    match alloc s.alloc vaddr memsz flags with
    | .error e => pure (s, some (.allocate e))
    | .ok (dest, a) => do
      emit (.given dest memsz)
      lift (assert (dest ≠ 0))
      let m ← placeSegment base t p dest s.mem
      pure ({ s with mem := m, alloc := a }, none)
  else if type = ptTls then do
    let vaddr ← read s.mem (p + 16) 8
    lift (assert (vaddr ≠ 0))
    lift (assert (s.tlsBase = 0))
    let tlsBase ← read s.mem (p + 16) 8
    let tlsInitLen ← read s.mem (p + 32) 8
    let tlsTotalLen ← read s.mem (p + 40) 8
    pure ({ s with tlsBase, tlsInitLen, tlsTotalLen }, none)
  else pure (s, none)

/-- The loop over the program headers, from the `i`th on. -/
def loadSegments (alloc : Allocator ε σ) (base : Nat) (t : Tables) (phead i : Nat)
    (s : LoadState σ) : Logged (LoadState σ × Option (ElfErr ε)) := do
  emit (.read (base + 56) 2)
  if i < ePhnum s.mem base then do
    let (s', e) ← loadSegment alloc base t (phead + sizeofPhdr * i) s
    match e with
    | some e => pure (s', some e)
    | none => loadSegments alloc base t phead (i + 1) s'
  else pure (s, none)
termination_by 65536 - i
decreasing_by
  have := ePhnum_lt s.mem base
  omega

def elf64Load (emMachine : Nat) (alloc : Allocator ε σ) (state : σ) (base size : Nat) (m : Mem) :
    Logged (LoadState σ × Except (ElfErr ε) Loaded) := do
  let s : LoadState σ := ⟨m, state, 0, 0, 0⟩
  if size = 0 then do
    emit .bad
    pure ({ s with mem := bad m }, .error .filesz)
  else do
    let ok ← passes m base (headerChecks emMachine)
    if ¬ ok then pure (s, .error .header)
    else do
      let ok ← proghdrOk m base size
      if ¬ ok then pure (s, .error .proghdr)
      else do
        let t ← selectTables m base
        let (s, e) ← loadSegments alloc base t (wrap (base + ePhoff m base)) 0 s
        match e with
        | some e => pure (s, .error e)
        | none => do
          let entry ← read s.mem (base + 24) 8
          pure (s, .ok ⟨entry, s.tlsBase, s.tlsInitLen, s.tlsTotalLen⟩)

end Load

/-! ## 6. Apart from the log -/

section Result

variable {m : Mem} {base : Nat} {t : Tables}

@[simp] theorem read_result (a n : Nat) : (read m a n).result = .ok (readLE m n a) := rfl

theorem memcpy_result (dst src len : Nat) :
    (memcpy dst src len m).result = Inky.memcpy dst src len m := by
  unfold memcpy Inky.memcpy
  simp

theorem passes_result (head : Nat) : ∀ cs : List Check,
    (passes m head cs).result = .ok (cs.all fun c => c.ok (readLE m c.len (head + c.off)))
  | [] => rfl
  | c :: cs => by
    unfold passes
    rw [bind_result, read_result, Loop.ok_bind, List.all_cons]
    cases hc : c.ok (readLE m c.len (head + c.off)) with
    | false => rfl
    | true => exact passes_result head cs

theorem readLE_one (a : Nat) : readLE m 1 a = (readByte m a).toNat := by simp [readLE]

theorem eIdent_iff {h k : Nat} {v : UInt8} :
    readLE m 1 (h + k) = v.toNat ↔ eIdent m h k = v := by
  rw [readLE_one]
  exact UInt8.toNat_inj

theorem headerChecks_iff {head emMachine : Nat} :
    (headerChecks emMachine).all (fun c => c.ok (readLE m c.len (head + c.off))) = true ↔
      HeaderOk m head emMachine := by
  unfold headerChecks HeaderOk
  simp only [List.all_cons, List.all_nil, Bool.and_true, Bool.and_eq_true, Bool.or_eq_true,
    beq_iff_eq, eType, eMachine, eVersion, ← eIdent_iff, and_assoc]
  rfl

theorem proghdrOk_result (head size : Nat) :
    (proghdrOk m head size).result = .ok (decide (ProghdrOk m head size)) := by
  unfold proghdrOk ProghdrOk ePhoff ePhentsize ePhnum
  simp only [bind_result, read_result, Loop.ok_bind]
  split
  case isTrue h => simp [h, BEq.beq]
  case isFalse h => simp [h]

theorem findSection_result {off len v : Nat} {ok : Nat → Bool}
    (hok : ∀ s, ok s = true ↔ readLE m len (s + off) = v) : ∀ n s,
    (findSection m off len v n s).result = .ok (Inky.findSection ok n s)
  | 0, _ => rfl
  | n + 1, s => by
    unfold findSection Inky.findSection
    rw [bind_result, read_result, Loop.ok_bind]
    by_cases h : readLE m len (s + off) = v
    · rw [if_pos h, if_pos ((hok s).mpr h), pure_result]
    · rw [if_neg h, if_neg (mt (hok s).mp h), findSection_result hok n]

theorem findType_result (shdr entries type : Nat) :
    (elf64FindSectionHeaderType m shdr entries type).result =
      .ok (Inky.elf64FindSectionHeaderType m shdr entries type) :=
  findSection_result (fun _ => beq_iff_eq) entries shdr

theorem findVaddr_result (shdr entries addr : Nat) :
    (elf64FindSectionHeaderVaddr m shdr entries addr).result =
      .ok (Inky.elf64FindSectionHeaderVaddr m shdr entries addr) :=
  findSection_result (fun _ => beq_iff_eq) entries shdr

theorem relocateEntry_result (b abase rela symtab symsize start vbase i : Nat) :
    (relocateEntry b abase rela symtab symsize start vbase i m).result =
      Inky.relocateEntry b abase rela symtab symsize start vbase i m := by
  unfold relocateEntry Inky.relocateEntry rType rSym rInfo rOffset rAddend stValue
  simp only [bind_result, read_result, Loop.ok_bind]
  split
  · rfl
  · split
    · simp only [bind_result, read_result, lift_result, emit_result, Loop.ok_bind, pure_result,
        Loop.pure_eq_ok]
    · split
      · rfl
      · rfl

theorem elf64Relocate_result (dst src rela size symtab symsize start vbase : Nat) :
    (elf64Relocate dst src rela size symtab symsize start vbase m).result =
      Inky.elf64Relocate dst src rela size symtab symsize start vbase m := by
  unfold elf64Relocate Inky.elf64Relocate
  rw [forLoop_result]
  simp only [relocateEntry_result]

theorem dynamicEntry_result (shead d : Nat) (s : Dynamic) :
    (dynamicEntry m base shead d s).result =
      Inky.dynamicEntry m shead (eShnum m base) d s := by
  unfold dynamicEntry Inky.dynamicEntry dTag dVal eShnum
  simp only [bind_result, read_result, Loop.ok_bind]
  repeat' split
  all_goals simp only [bind_result, read_result, lift_result, findVaddr_result, Loop.ok_bind,
    pure_result, Loop.pure_eq_ok]

theorem applyDynamic_result (shead p : Nat) :
    (applyDynamic m base shead p t).result = Inky.applyDynamic m base shead p t := by
  unfold applyDynamic Inky.applyDynamic pOffset pFilesz
  simp only [bind_result, read_result, Loop.ok_bind, forLoop_result, dynamicEntry_result]
  refine congrArg (_ >>= ·) (funext fun d => ?_)
  split
  · simp only [bind_result, lift_result, pure_result, Loop.pure_eq_ok]
  · rfl

theorem findDynamic_result (shead : Nat) : ∀ n p,
    (findDynamic m base shead n p t).result = Inky.findDynamic m base shead n p t
  | 0, _ => rfl
  | n + 1, p => by
    unfold findDynamic Inky.findDynamic pType
    simp only [bind_result, read_result, Loop.ok_bind]
    split
    · exact applyDynamic_result shead p
    · exact findDynamic_result shead n (p + sizeofPhdr)

theorem selectTables_result : (selectTables m base).result = Inky.selectTables m base := by
  unfold selectTables Inky.selectTables shSize eShoff eShnum ePhoff
  simp only [bind_result, read_result, findType_result, Loop.ok_bind]
  split
  · simp only [bind_result, read_result, Loop.ok_bind, findDynamic_result]
  · simp only [bind_result, read_result, pure_result, Loop.ok_bind, findDynamic_result]

section Load

variable {ε σ : Type} {alloc : Allocator ε σ}

theorem placeSegment_result (p dest : Nat) :
    (placeSegment base t p dest m).result = Inky.placeSegment base t p dest m := by
  unfold placeSegment Inky.placeSegment pOffset pFilesz pMemsz
  simp only [bind_result, read_result, memcpy_result, Loop.ok_bind]
  refine congrArg (_ >>= ·) (funext fun m₁ => ?_)
  unfold memset Inky.memset pVaddr shOffset shSize
  simp only [bind_result, emit_result, pure_result, Loop.ok_bind]
  split
  · simp only [bind_result, read_result, Loop.ok_bind, elf64Relocate_result]
  · rfl

theorem loadSegment_result (p : Nat) (s : LoadState σ) :
    (loadSegment alloc base t p s).result = Inky.loadSegment alloc base t p s := by
  unfold loadSegment Inky.loadSegment pType pVaddr pMemsz pFlags pFilesz
  simp only [bind_result, read_result, Loop.ok_bind]
  split
  · simp only [bind_result, read_result, Loop.ok_bind]
    cases alloc s.alloc (readLE s.mem 8 (p + 16)) (readLE s.mem 8 (p + 40))
        (readLE s.mem 4 (p + 4)) with
    | error e => rfl
    | ok r =>
      simp only [bind_result, emit_result, lift_result, placeSegment_result, pure_result,
        Loop.ok_bind, Loop.pure_eq_ok]
  · split
    · simp only [bind_result, read_result, lift_result, pure_result, Loop.ok_bind,
        Loop.pure_eq_ok]
    · rfl

theorem loadSegments_result (phead i : Nat) (s : LoadState σ) :
    (loadSegments alloc base t phead i s).result = Inky.loadSegments alloc base t phead i s := by
  unfold loadSegments Inky.loadSegments
  rw [bind_result, emit_result, Loop.ok_bind]
  split
  case isTrue hi =>
    have := ePhnum_lt s.mem base
    rw [bind_result, loadSegment_result]
    cases Inky.loadSegment alloc base t (phead + sizeofPhdr * i) s with
    | error h => rfl
    | ok r =>
      obtain ⟨s', e⟩ := r
      cases e with
      | some e => rfl
      | none => exact loadSegments_result phead (i + 1) s'
  case isFalse => rfl
termination_by 65536 - i

/-- **The log aside, this is `elf64_load`.** -/
theorem elf64Load_result (emMachine : Nat) (state : σ) (size : Nat) :
    (elf64Load emMachine alloc state base size m).result =
      Inky.elf64Load emMachine alloc state base size m := by
  unfold elf64Load Inky.elf64Load
  dsimp only
  split
  · rfl
  · rw [bind_result, passes_result, Loop.ok_bind]
    by_cases hhead : HeaderOk m base emMachine
    · rw [if_neg (not_not.mpr (headerChecks_iff.mpr hhead)), if_neg (not_not.mpr hhead),
        bind_result, proghdrOk_result, Loop.ok_bind]
      by_cases hprog : ProghdrOk m base size
      · rw [if_neg (by simpa using hprog), if_neg (not_not.mpr hprog), bind_result,
          selectTables_result]
        refine congrArg (_ >>= ·) (funext fun t => ?_)
        rw [bind_result, loadSegments_result]
        refine congrArg (_ >>= ·) (funext fun r => ?_)
        obtain ⟨s, e⟩ := r
        cases e with
        | some e => rfl
        | none => rfl
      · rw [if_pos (by simpa using hprog), if_pos hprog]
        rfl
    · rw [if_pos (mt headerChecks_iff.mp hhead), if_pos hhead]
      rfl

end Load

end Result

end Logged

end Philix.Inky
