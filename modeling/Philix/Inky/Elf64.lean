/-
# The ELF64 loader, `elf64.c`

Headers and tables are read where they are, in memory, field by field and each time the code
does so: the loader writes memory in between.  A pointer is its address and `NULL` is `0`.
The status prints of `elf64_relocate` go to registers of the card and are left out.
-/
import Philix.Inky.Lib

namespace Philix.Inky

open ByteMem Loop

/-! ## 1. Fields of the file's structures -/

/-- `e_ident[k]` -/
def eIdent (m : Mem) (h k : Nat) : UInt8 := readByte m (h + k)

def eType (m : Mem) (h : Nat) : Nat := readLE m 2 (h + 16)

def eMachine (m : Mem) (h : Nat) : Nat := readLE m 2 (h + 18)

def eVersion (m : Mem) (h : Nat) : Nat := readLE m 4 (h + 20)

def eEntry (m : Mem) (h : Nat) : Nat := readLE m 8 (h + 24)

def ePhoff (m : Mem) (h : Nat) : Nat := readLE m 8 (h + 32)

def eShoff (m : Mem) (h : Nat) : Nat := readLE m 8 (h + 40)

def ePhentsize (m : Mem) (h : Nat) : Nat := readLE m 2 (h + 54)

def ePhnum (m : Mem) (h : Nat) : Nat := readLE m 2 (h + 56)

def eShnum (m : Mem) (h : Nat) : Nat := readLE m 2 (h + 60)

def pType (m : Mem) (p : Nat) : Nat := readLE m 4 p

def pFlags (m : Mem) (p : Nat) : Nat := readLE m 4 (p + 4)

def pOffset (m : Mem) (p : Nat) : Nat := readLE m 8 (p + 8)

def pVaddr (m : Mem) (p : Nat) : Nat := readLE m 8 (p + 16)

def pFilesz (m : Mem) (p : Nat) : Nat := readLE m 8 (p + 32)

def pMemsz (m : Mem) (p : Nat) : Nat := readLE m 8 (p + 40)

def shType (m : Mem) (s : Nat) : Nat := readLE m 4 (s + 4)

def shAddr (m : Mem) (s : Nat) : Nat := readLE m 8 (s + 16)

def shOffset (m : Mem) (s : Nat) : Nat := readLE m 8 (s + 24)

def shSize (m : Mem) (s : Nat) : Nat := readLE m 8 (s + 32)

def dTag (m : Mem) (d : Nat) : Nat := readLE m 8 d

def dVal (m : Mem) (d : Nat) : Nat := readLE m 8 (d + 8)

def rOffset (m : Mem) (r : Nat) : Nat := readLE m 8 r

def rInfo (m : Mem) (r : Nat) : Nat := readLE m 8 (r + 8)

def rAddend (m : Mem) (r : Nat) : Nat := readLE m 8 (r + 16)

/-- `ELF64_R_TYPE(r->r_info)` -/
def rType (m : Mem) (r : Nat) : Nat := rInfo m r % 4294967296

/-- `ELF64_R_SYM(r->r_info)` -/
def rSym (m : Mem) (r : Nat) : Nat := rInfo m r / 4294967296

def stValue (m : Mem) (s : Nat) : Nat := readLE m 8 (s + 8)

def sizeofPhdr : Nat := 56

def sizeofShdr : Nat := 64

def sizeofDyn : Nat := 16

def sizeofRela : Nat := 24

def sizeofSym : Nat := 24

def ptLoad : Nat := 1

def ptDynamic : Nat := 2

def ptTls : Nat := 7

def shtSymtab : Nat := 2

def shtRela : Nat := 4

def shtDynsym : Nat := 11

def dtSymtab : Nat := 6

def dtRela : Nat := 7

def dtRelasz : Nat := 8

def dtSyment : Nat := 11

def rX8664None : Nat := 0

def rX866464 : Nat := 1

def rX8664Relative : Nat := 8

def emK1om : Nat := 181

/-! ## 2. The header, and finding sections -/

/-- The checks of the ELF header. -/
def HeaderOk (m : Mem) (head emMachine : Nat) : Prop :=
  (eIdent m head 0 = 0x7f ∧ eIdent m head 1 = 69 ∧ eIdent m head 2 = 76 ∧ eIdent m head 3 = 70) ∧
  eIdent m head 4 = 2 ∧ eIdent m head 5 = 1 ∧ eIdent m head 6 = 1 ∧ eIdent m head 7 = 0 ∧
  eIdent m head 8 = 0 ∧ (eType m head = 2 ∨ eType m head = 3) ∧ eMachine m head = emMachine ∧
  eVersion m head = 1

instance (m : Mem) (head emMachine : Nat) : Decidable (HeaderOk m head emMachine) :=
  inferInstanceAs (Decidable (_ ∧ _))

/-- The checks of the program header table. -/
def ProghdrOk (m : Mem) (head size : Nat) : Prop :=
  wrap (ePhoff m head + ePhentsize m head * ePhnum m head) ≤ size ∧ ePhentsize m head = sizeofPhdr

instance (m : Mem) (head size : Nat) : Decidable (ProghdrOk m head size) :=
  inferInstanceAs (Decidable (_ ∧ _))

/-- A pointer to the first of `n` section headers that is `ok`, or `NULL`. -/
def findSection (ok : Nat → Bool) : Nat → Nat → Nat
  | 0, _ => 0
  | n + 1, s => if ok s then wrap s else findSection ok n (s + sizeofShdr)

def elf64FindSectionHeaderType (m : Mem) (shdr entries type : Nat) : Nat :=
  findSection (fun s => shType m s == type) entries shdr

def elf64FindSectionHeaderVaddr (m : Mem) (shdr entries addr : Nat) : Nat :=
  findSection (fun s => shAddr m s == addr) entries shdr

/-- The loop of `elf_virtual_base64`, over `n` program headers. -/
def virtualBase (m : Mem) : Nat → Nat → Nat → Nat
  | 0, _, retval => retval
  | n + 1, p, retval =>
    virtualBase m n (p + sizeofPhdr) <|
      if pType m p = ptLoad then
        let retval := if retval = 0 then pVaddr m p else retval
        if pVaddr m p < retval then pVaddr m p else retval
      else retval

def elfVirtualBase64 (m : Mem) (ehead : Nat) : Nat :=
  virtualBase m (ePhnum m ehead) (wrap (ehead + ePhoff m ehead)) 0

/-! ## 3. Relocation -/

/-- One round of the loop of `elf64_relocate`. -/
def relocateEntry (base abase rela symtab symsize start vbase i : Nat) (m : Mem) :
    Except Halt Mem :=
  let r := rela + sizeofRela * i
  let addr := sub64 (vbase + rOffset m r) start
  if rType m r = rX8664None then pure m
  else if rType m r = rX866464 then do
    assert (rSym m r < symsize / sizeofSym)
    let value := abase + stValue m (symtab + sizeofSym * rSym m r) + rAddend m r
    pure (writeLE 8 addr (wrap value) m)
  else if rType m r = rX8664Relative then
    pure (writeLE 8 addr (wrap (readLE m 8 addr + base)) m)
  else .error (.aborted 'E' 'x')

def elf64Relocate (dst src rela size symtab symsize start vbase : Nat) (m : Mem) :
    Except Halt Mem :=
  forLoop (relocateEntry (sub64 dst src) (sub64 dst start) rela symtab symsize start vbase)
    (size / sizeofRela) 0 m

/-! ## 4. Choosing the tables -/

/-- The relocation section, the size of the relocations, the symbol table. -/
structure Tables where
  rela : Nat
  relaSize : Nat
  symtab : Nat
  deriving DecidableEq, Repr

/-- What the loop over the dynamic entries has found. -/
structure Dynamic where
  newRela : Nat
  newRelaSize : Nat
  symtab : Nat
  deriving DecidableEq, Repr

/-- The `switch` over `d_tag`. -/
def dynamicEntry (m : Mem) (shead shnum d : Nat) (s : Dynamic) : Except Halt Dynamic :=
  if dTag m d = dtRela then
    pure { s with newRela := elf64FindSectionHeaderVaddr m shead shnum (dVal m d) }
  else if dTag m d = dtRelasz then pure { s with newRelaSize := dVal m d }
  else if dTag m d = dtSymtab then
    pure { s with symtab := elf64FindSectionHeaderVaddr m shead shnum (dVal m d) }
  else if dTag m d = dtSyment then do
    assert (dVal m d = sizeofSym)
    pure s
  else pure s

/-- `int n_dynamic`, as the number of rounds of its loop. -/
def nDynamic (filesz : Nat) : Nat :=
  let n := filesz / sizeofDyn % 4294967296
  if n < 2147483648 then n else 0

/-- What the first `PT_DYNAMIC` header does to the tables. -/
def applyDynamic (m : Mem) (base shead p : Nat) (t : Tables) : Except Halt Tables := do
  let dynamic := base + pOffset m p
  let d ← forLoop (fun j => dynamicEntry m shead (eShnum m base) (dynamic + sizeofDyn * j))
    (nDynamic (pFilesz m p)) 0 ⟨0, 0, t.symtab⟩
  if d.newRela ≠ 0 then do
    assert (d.newRelaSize ≠ 0)
    pure ⟨d.newRela, d.newRelaSize, d.symtab⟩
  else pure { t with symtab := d.symtab }

/-- The loop that looks for a `PT_DYNAMIC` header. -/
def findDynamic (m : Mem) (base shead : Nat) : Nat → Nat → Tables → Except Halt Tables
  | 0, _, t => pure t
  | n + 1, p, t =>
    if pType m p = ptDynamic then applyDynamic m base shead p t
    else findDynamic m base shead n (p + sizeofPhdr) t

/-- The tables `elf64_load` goes on to use. -/
def selectTables (m : Mem) (base : Nat) : Except Halt Tables :=
  let shead := wrap (base + eShoff m base)
  let rela := elf64FindSectionHeaderType m shead (eShnum m base) shtRela
  let symtab := elf64FindSectionHeaderType m shead (eShnum m base) shtSymtab
  let relaSize := if rela ≠ 0 then shSize m rela else 0
  findDynamic m base shead (ePhnum m base) (wrap (base + ePhoff m base)) ⟨rela, relaSize, symtab⟩

/-! ## 5. Loading -/

section Load

variable {ε σ : Type}

/-- `elf_allocator_fn`: from its state and the base, size and flags of a segment to an error,
or an address. -/
abbrev Allocator (ε σ : Type) := σ → Nat → Nat → Nat → Except ε (Nat × σ)

inductive ElfErr (ε : Type)
  | filesz
  | header
  | proghdr
  | allocate (cause : ε)
  deriving DecidableEq, Repr

/-- What the loop over the segments changes. -/
structure LoadState (σ : Type) where
  mem : Mem
  alloc : σ
  tlsBase : Nat
  tlsInitLen : Nat
  tlsTotalLen : Nat

/-- What `elf64_load` returns through its pointers. -/
structure Loaded where
  entry : Nat
  tlsBase : Nat
  tlsInitLen : Nat
  tlsTotalLen : Nat
  deriving DecidableEq, Repr

/-- Copying, zero filling and relocating the segment of header `p` at `dest`. -/
def placeSegment (base : Nat) (t : Tables) (p dest : Nat) (m : Mem) : Except Halt Mem := do
  let m ← memcpy dest (wrap (base + pOffset m p)) (pFilesz m p) m
  let m := memset (wrap (dest + pFilesz m p)) 0 (sub64 (pMemsz m p) (pFilesz m p)) m
  if t.rela ≠ 0 ∧ t.symtab ≠ 0 then
    elf64Relocate (pVaddr m p) (pVaddr m p) (wrap (base + shOffset m t.rela)) t.relaSize
      (wrap (base + shOffset m t.symtab)) (shSize m t.symtab) (pVaddr m p) dest m
  else pure m

/-- One round of the loop over the program headers; the error is one to return at once. -/
def loadSegment (alloc : Allocator ε σ) (base : Nat) (t : Tables) (p : Nat) (s : LoadState σ) :
    Except Halt (LoadState σ × Option (ElfErr ε)) :=
  if pType s.mem p = ptLoad then
    match alloc s.alloc (pVaddr s.mem p) (pMemsz s.mem p) (pFlags s.mem p) with
    | .error e => pure (s, some (.allocate e))
    | .ok (dest, a) => do
      assert (dest ≠ 0)
      let m ← placeSegment base t p dest s.mem
      pure ({ s with mem := m, alloc := a }, none)
  else if pType s.mem p = ptTls then do
    assert (pVaddr s.mem p ≠ 0)
    assert (s.tlsBase = 0)
    pure ({ s with
      tlsBase := pVaddr s.mem p
      tlsInitLen := pFilesz s.mem p
      tlsTotalLen := pMemsz s.mem p }, none)
  else pure (s, none)

theorem ePhnum_lt (m : Mem) (h : Nat) : ePhnum m h < 65536 := readLE_lt 2 _

/-- The loop over the program headers, from the `i`th on. -/
def loadSegments (alloc : Allocator ε σ) (base : Nat) (t : Tables) (phead i : Nat)
    (s : LoadState σ) : Except Halt (LoadState σ × Option (ElfErr ε)) :=
  if i < ePhnum s.mem base then
    match loadSegment alloc base t (phead + sizeofPhdr * i) s with
    | .error h => .error h
    | .ok (s', some e) => .ok (s', some e)
    | .ok (s', none) => loadSegments alloc base t phead (i + 1) s'
  else .ok (s, none)
termination_by 65536 - i
decreasing_by
  have := ePhnum_lt s.mem base
  omega

/-- `bad()`: a four-byte store to the status port. -/
def bad (m : Mem) : Mem := writeLE 4 0x6a6a6a 0xDEADDEAD m

/-- `elf64_load`: the state it leaves, and its error or its results. -/
def elf64Load (emMachine : Nat) (alloc : Allocator ε σ) (state : σ) (base size : Nat) (m : Mem) :
    Except Halt (LoadState σ × Except (ElfErr ε) Loaded) :=
  let s : LoadState σ := ⟨m, state, 0, 0, 0⟩
  if size = 0 then pure ({ s with mem := bad m }, .error .filesz)
  else if ¬ HeaderOk m base emMachine then pure (s, .error .header)
  else if ¬ ProghdrOk m base size then pure (s, .error .proghdr)
  else do
    let t ← selectTables m base
    let (s, e) ← loadSegments alloc base t (wrap (base + ePhoff m base)) 0 s
    match e with
    | some e => pure (s, .error e)
    | none => pure (s, .ok ⟨eEntry s.mem base, s.tlsBase, s.tlsInitLen, s.tlsTotalLen⟩)

end Load

end Philix.Inky
