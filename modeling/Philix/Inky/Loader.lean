/-
# The boot loader, `loader.c`

`loader` in three parts: moving the image (`moveImage`), finding the kernel among the modules
(`locate`), loading and entering it (`startKernel`).  The multiboot information is a record,
with the modules as a list; a C string is the list of its characters.  `loader` returns the
`kernel_entry` it leaves for `boot.S`.
-/
import Philix.Inky.Elf64
import Philix.Inky.Move

namespace Philix.Inky

open ByteMem Loop

/-- `struct multiboot_modinfo` -/
structure ModInfo where
  modStart : UInt32
  modEnd : UInt32
  string : List Char
  deriving DecidableEq, Repr

/-- The fields of `struct multiboot_info` the loader reads or writes. -/
structure MultibootInfo where
  flags : UInt32
  memLower : UInt32
  memUpper : UInt32
  cmdline : UInt32
  mods : List ModInfo
  configTable : UInt32
  xeonPhiId : UInt8
  deriving DecidableEq, Repr

def k1omBootMagic : Nat := 0xB001B001

/-- The hardcoded `phys_alloc_start`. -/
def kernelStart : Nat := 0x1000000

/-! ## 1. Memory for the segments -/

/-- `npages * BASE_PAGE_SIZE` of `linear_alloc`, with `npages` and the product in 32 bits. -/
def allocSize (size : Nat) : Nat :=
  let npages := wrap (size + basePageSize - 1) / basePageSize % 4294967296
  npages * basePageSize % 4294967296

/-- `linear_alloc`; its state is `phys_alloc_start`. -/
def linearAlloc : Allocator Empty Nat :=
  fun physAllocStart _ size _ => .ok (physAllocStart, wrap (physAllocStart + allocSize size))

/-! ## 2. Finding a module -/

/-- The loop of `strrchr`, which does not look at position `0`.  A `char` is signed; the
comparison is one of `int`s, and `c` is not converted. -/
def strrchrFrom (s : List Int8) (c : Int32) : Nat → Option Nat
  | 0 => none
  | i + 1 => if s[i + 1]?.map Int8.toInt32 = some c then some (i + 1) else strrchrFrom s c i

/-- `strrchr`, as a position. -/
def strrchr (s : List Int8) (c : Int32) : Option Nat :=
  if s.length = 0 then none else strrchrFrom s c ((s.length - 1) % 4294967296)

/-- The byte of a character.  (What is no byte goes to the last one, for which no search is.) -/
def charByte (c : Char) : Int8 := .ofNat (min c.toNat 255)

/-- The value of a character as an `int`: the bytes from `128` on are negative. -/
def charInt (c : Char) : Int :=
  if 128 ≤ c.toNat ∧ c.toNat < 256 then c.toNat - 256 else c.toNat

def charAt (s : List Char) : Int := charInt (s.headD '\x00')

def strncmp : List Char → List Char → Nat → Int
  | _, _, 0 => 0
  | s1, s2, n + 1 =>
    if charAt s2 - charAt s1 ≠ 0 then charAt s2 - charAt s1
    else if charAt s1 = 0 ∨ charAt s2 = 0 then 0
    else strncmp s1.tail s2.tail n

/-- `modname`: behind the last `/` that `strrchr` finds. -/
def modname (string : List Char) : List Char :=
  match strrchr (string.map charByte) 47 with
  | none => string
  | some i => string.drop (i + 1)

def multibootFindModule (mods : List ModInfo) (basename : List Char) : Option ModInfo :=
  mods.find? fun mod => strncmp (modname mod.string) basename basename.length = 0

/-- `mod_start += mb_img_start` and `mod_end += mb_img_start`, for all modules. -/
def adjustMods (start : Nat) (mods : List ModInfo) : List ModInfo :=
  mods.map fun mod => { mod with
    modStart := mod.modStart + .ofNat start
    modEnd := mod.modEnd + .ofNat start }

/-! ## 3. The loader -/

/-- What `loader` has when it calls `elf64_load`. -/
structure Setup where
  bp : BootParams
  mbi : MultibootInfo
  kernel : ModInfo
  mem : Mem

/-- `MULTIBOOT_MODULE_SIZE` -/
def ModInfo.size (mod : ModInfo) : Nat := (mod.modEnd - mod.modStart).toNat

/-- `kernel->mod_start`, as an address. -/
def Setup.base (c : Setup) : Nat := c.kernel.modStart.toNat

/-- From the adjustment of the modules to the call of `elf64_load`.  The status bytes printed
are `S`, `Z` and the low byte of the card's number. -/
def locate (bpAddr start : Nat) (bp : BootParams) (mbi : MultibootInfo) (m : Mem) :
    Except Halt Setup :=
  let mods := adjustMods start mbi.mods
  let m := printStatus 83 m
  match (multibootFindModule mods ['c', 'p', 'u']).or
      (multibootFindModule mods ['k', 'e', 'r', 'n', 'e', 'l']) with
  | none => .error (.aborted 'E' '3')
  | some kernel =>
    let bp := { bp with ramdiskImage := .ofNat start }
    .ok {
      bp, kernel
      mbi := {
        flags := mbi.flags ||| 0x004 ||| 0x001 ||| 0x100
        memLower := bp.ramdiskImage
        memUpper := bp.ramdiskImage + bp.ramdiskSize
        cmdline := bp.cmdlinePtr
        mods
        configTable := .ofNat bpAddr
        xeonPhiId := bp.xeonPhiId.toUInt8 }
      mem := printStatus bp.xeonPhiId.toUInt8 (printStatus 90 m) }

/-- The call of `elf64_load`. -/
def loadKernel (c : Setup) : Except Halt (LoadState Nat × Except (ElfErr Empty) Loaded) :=
  elf64Load emK1om linearAlloc kernelStart c.base c.kernel.size c.mem

/-- From the call of `elf64_load` on: `kernel_entry` and the memory. -/
def startKernel (c : Setup) : Except Halt (Nat × Mem) := do
  let (s, r) ← loadKernel c
  match r with
  | .error _ => .error (.aborted 'E' '5')
  | .ok l =>
    let cpuHead := c.base
    let symhead := wrap (cpuHead + eShoff s.mem cpuHead)
    let elfbase := elfVirtualBase64 s.mem cpuHead
    let rela := elf64FindSectionHeaderType s.mem symhead (eShnum s.mem cpuHead) shtRela
    let symtab := elf64FindSectionHeaderType s.mem symhead (eShnum s.mem cpuHead) shtDynsym
    let m := if rela = 0 then printStatus 78 s.mem else s.mem
    let m := if symtab = 0 then printStatus 78 m else m
    pure (wrap (sub64 l.entry elfbase + kernelStart), m)

/-- `loader`, up to the call of `elf64_load`. -/
def prepare (endBootloader magic bpAddr : Nat) (bp : BootParams) (mbi : MultibootInfo) (m : Mem) :
    Except Halt Setup := do
  let m := printStatus 83 m
  if magic ≠ k1omBootMagic then .error (.aborted 'E' '0')
  else if bpAddr / 4294967296 ≠ 0 then .error (.aborted 'E' 'a')
  else do
    let (start, bp, m) ← moveImage endBootloader bp (printStatus 83 m)
    locate bpAddr start bp mbi m

def loader (endBootloader magic bpAddr : Nat) (bp : BootParams) (mbi : MultibootInfo) (m : Mem) :
    Except Halt (Nat × Setup) := do
  let c ← prepare endBootloader magic bpAddr bp mbi m
  let (entry, m) ← startKernel c
  pure (entry, { c with mem := m })

/-! ## 4. Getting to `elf64_load` -/

/-- The image after the move. -/
def Image (endBootloader : Nat) (bp : BootParams) (x : Nat) : Prop :=
  Range (mbImgStart endBootloader bp) bp.ramdiskSize.toNat x

/-- `loader` has moved the image, leaving the memory `moved`, and calls `elf64_load` with the
memory and the kernel of `c`. -/
def Arrives (endBootloader magic bpAddr : Nat) (bp : BootParams) (mbi : MultibootInfo) (m : Mem)
    (moved : Mem) (c : Setup) : Prop :=
  magic = k1omBootMagic ∧ bpAddr / 4294967296 = 0 ∧
    ∃ bp', moveImage endBootloader bp (printStatus 83 (printStatus 83 m)) =
        .ok (mbImgStart endBootloader bp, bp', moved) ∧
      locate bpAddr (mbImgStart endBootloader bp) bp' mbi moved = .ok c

section Arrives

variable {m moved : Mem} {c : Setup}

theorem printStatus_of_ne {a : UInt8} {x : Nat} (h : x ≠ statusPort) : printStatus a m x = m x :=
  writeByte_of_ne h a

theorem printStatus_self (a : UInt8) : printStatus a m statusPort = a := writeByte_self _ _

/-- `prepare` gets to `elf64_load` exactly when `loader` does. -/
theorem prepare_eq_ok_iff {endBootloader magic bpAddr : Nat} {bp : BootParams}
    {mbi : MultibootInfo} :
    prepare endBootloader magic bpAddr bp mbi m = .ok c ↔
      ∃ moved, Arrives endBootloader magic bpAddr bp mbi m moved c := by
  rw [prepare]
  constructor
  · intro h
    dsimp only at h
    split at h
    · cases h
    · rename_i hmagic
      split at h
      · cases h
      · rename_i haddr
        obtain ⟨⟨start, bp', moved⟩, hmove, hlocate⟩ := bind_eq_ok_iff.mp h
        have hstart : start = mbImgStart endBootloader bp := by
          rw [moveImage, bind_eq_ok_iff] at hmove
          obtain ⟨_, -, hmove⟩ := hmove
          obtain ⟨_, -, hmove⟩ := bind_eq_ok_iff.mp hmove
          obtain ⟨_, -, hmove⟩ := bind_eq_ok_iff.mp hmove
          cases hmove
          rfl
        subst hstart
        exact ⟨moved, not_not.mp hmagic, not_not.mp haddr, bp', hmove, hlocate⟩
  · rintro ⟨moved, hmagic, haddr, bp', hmove, hlocate⟩
    dsimp only
    rw [if_neg (not_not.mpr hmagic), if_neg (not_not.mpr haddr), hmove, ok_bind]
    exact hlocate

/-- The memory `elf64_load` is called with. -/
theorem locate_mem {bpAddr start : Nat} {bp : BootParams} {mbi : MultibootInfo}
    (h : locate bpAddr start bp mbi moved = .ok c) :
    c.mem = printStatus c.bp.xeonPhiId.toUInt8 (printStatus 90 (printStatus 83 moved)) := by
  rw [locate] at h
  dsimp only at h
  split at h
  · cases h
  · cases h
    rfl

end Arrives

end Philix.Inky
