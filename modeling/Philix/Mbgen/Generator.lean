/-
# The multiboot generator

`inky_mbgen` reads a menu file line by line and writes the C source of `get_multiboot`.  The
parse loop carries `offset`, `length` and what it has collected from line to line; `cmd`, `image`
and `args` start empty on each.  The output is a list of statements, one for each `fprintf`, with
the texts of its conversions.  A string that does not fit its buffer stops the model, as does the
assertion on the number of modules; variables that the C program does not initialise hold what
`Undef` says.  The progress messages on the terminal are left out.
-/
import Philix.Lib.CLiteral
import Philix.Lib.Loop

namespace Philix.Mbgen

open Scan CLiteral Loop

/-! ## 1. Reading lines -/

def maxLineSize : Nat := 2048
def maxCmdSize : Nat := 64
def maxArgsSize : Nat := 1024
def maxImageSize : Nat := 256
def maxModules : Nat := 256

/-- `fgets` for at most `n` characters: the line, the rest of the file, and whether it came to
the end of the file.  An empty line is the `NULL` it returns there. -/
def fgets : Nat → List Char → List Char × List Char × Bool
  | 0, s => ([], s, false)
  | _ + 1, [] => ([], [], true)
  | n + 1, c :: s =>
    if c = '\n' then ([c], s, false)
    else
      let (line, rest, eof) := fgets n s
      (c :: line, rest, eof)

/-- A string in a buffer, up to its terminating zero. -/
def cString (s : List Char) : List Char := s.takeWhile (· ≠ '\x00')

theorem fgets_append (n : Nat) (s : List Char) : (fgets n s).1 ++ (fgets n s).2.1 = s := by
  induction n generalizing s with
  | zero => rfl
  | succ n ih =>
    cases s with
    | nil => rfl
    | cons c s =>
      rw [fgets]
      split
      · rfl
      · exact congrArg (c :: ·) (ih s)

/-! ## 2. The state of the parse loop -/

inductive Fault
  /-- A string longer than the buffer it is read into. -/
  | overflow
  /-- `assert(n_modules < MAX_MODULES)` -/
  | tooManyModules
  /-- `NULL` printed with `%s` -/
  | nullString
  deriving DecidableEq

/-- Contents of uninitialised variables: `offset` and `length` at the start, and `type` at the
`mmap` line of each number. -/
structure Undef where
  offset : UInt64
  length : UInt64
  type : Nat → Int

/-- They may happen to be zero. -/
def zeroed : Undef := ⟨0, 0, fun _ => 0⟩

/-- What is written to the file. -/
inductive Stmt
  /-- `static uint64_t mbi_mmap%d[] = {0x%lx, 0x%lx, %d};` -/
  | mmapArray (i base length type : List Char)
  /-- `static struct multiboot_modinfo mbi_mods[%d];` -/
  | modsDecl (n : List Char)
  /-- `static struct multiboot_mmap mbi_mmaps[%d];` -/
  | mmapsDecl (n : List Char)
  /-- `mbi.flags |= MULTIBOOT_INFO_FLAG_...;` -/
  | flag (bit : UInt32)
  /-- `mbi.cmdline = (uint32_t)(uint64_t) "%s";`, from the quote on -/
  | cmdline (literal : List Char)
  /-- `mbi.mods_count = %d;` -/
  | modsCount (n : List Char)
  /-- `mbi.mods_addr = (uint32_t)(uint64_t) mbi_mods;` -/
  | modsAddr
  /-- `mbi_mods[%d].mod_start = (uint32_t) 0x%x;` -/
  | modStart (i start : List Char)
  /-- `mbi_mods[%d].mod_end = (uint32_t) 0x%x;` -/
  | modEnd (i stop : List Char)
  /-- `mbi_mods[%d].string = (uint32_t)(uint64_t) "%s";`, from the quote on -/
  | modString (i literal : List Char)
  /-- `mbi.mmap_length = sizeof(mbi_mmaps);` -/
  | mmapsLength
  /-- `mbi.mmap_addr = (uint32_t)(uint64_t) mbi_mmaps;` -/
  | mmapsAddr
  /-- `mbi_mmaps[%d].size = sizeof(struct multiboot_mmap);` -/
  | mmapSize (i : List Char)
  /-- `mbi_mmaps[%d].base_addr = mbi_mmap%d[0];` -/
  | mmapBase (i j : List Char)
  /-- `mbi_mmaps[%d].length = mbi_mmap%d[1];` -/
  | mmapLength (i j : List Char)
  /-- `mbi_mmaps[%d].type = (int)mbi_mmap%d[2];` -/
  | mmapType (i j : List Char)
  deriving DecidableEq

/-- One index of `module_offset`, `module_length` and `module_cmd_line`. -/
structure Module where
  offset : UInt32
  length : UInt32
  cmdLine : List Char
  deriving DecidableEq

/-- The variables of `main` that outlive a line, and the output so far. -/
structure Menu where
  offset : UInt64
  length : UInt64
  kernelCmdLine : Option (List Char)
  kernelOffset : UInt32
  kernelLength : UInt32
  /-- `n_modules` of them -/
  modules : List Module
  nMmaps : Nat
  out : List Stmt
  deriving DecidableEq

def start (u : Undef) : Menu :=
  { offset := u.offset, length := u.length, kernelCmdLine := none, kernelOffset := 0
    kernelLength := 0, modules := [], nMmaps := 0, out := [] }

/-! ## 3. The parse loop -/

/-- `%s %s %lu %lu %[^\n]` -/
def menuFormat : List Conv := [.str, .str, .ulong, .ulong, .line]

/-- `%s %s %lx %lx %i` -/
def mmapFormat : List Conv := [.str, .str, .hex, .hex, .int]

/-- `%i` -/
def typeFormat : List Conv := [.int]

def kernelCmd : List Char := ['k', 'e', 'r', 'n', 'e', 'l']
def moduleCmd : List Char := ['m', 'o', 'd', 'u', 'l', 'e']
def mmapCmd : List Char := ['m', 'm', 'a', 'p']

/-- What is in a buffer of `size` characters after the scan. -/
def store (size : Nat) (v : Option Value) (old : List Char) : Except Fault (List Char) :=
  match v with
  | some (.text s) => if s.length < size then .ok s else .error .overflow
  | _ => .ok old

/-- The variables after the first scan of a line. -/
structure Fields where
  cmd : List Char
  image : List Char
  offset : UInt64
  length : UInt64
  args : List Char
  deriving DecidableEq

/-- The first `sscanf` of a line, with the `offset` and `length` left from the lines before. -/
def scanLine (offset length : UInt64) (line : List Char) : Except Fault Fields := do
  let vs := sscanf menuFormat line
  let cmd ← store maxCmdSize vs[0]? []
  let image ← store maxImageSize vs[1]? []
  let args ← store maxArgsSize vs[4]? []
  pure { cmd, image, offset := ulongOr vs[2]? offset, length := ulongOr vs[3]? length, args }

/-- `sprintf(.., "%s %s", image, args)` -/
def commandLine (image args : List Char) : List Char := image ++ ' ' :: args

/-- The `mmap` line, scanned again. -/
def parseMmap (u : Undef) (g : Menu) (f : Fields) (line : List Char) : Except Fault Menu := do
  let vs := sscanf mmapFormat line
  let _ ← store maxCmdSize vs[0]? f.cmd
  let _ ← store maxImageSize vs[1]? f.image
  let offset := ulongOr vs[2]? f.offset
  let length := ulongOr vs[3]? f.length
  let type := intOr vs[4]? (u.type g.nMmaps)
  let type := intOr (sscanf typeFormat f.args)[0]? type
  let stmt := Stmt.mmapArray (printInt g.nMmaps) (printHex offset.toNat) (printHex length.toNat)
    (printInt type)
  pure { g with offset, length, nMmaps := g.nMmaps + 1, out := g.out ++ [stmt] }

/-- The body of the parse loop, for a line that was read. -/
def parseLine (u : Undef) (g : Menu) (line : List Char) : Except Fault Menu := do
  let line := cString line
  let f ← scanLine g.offset g.length line
  let g := { g with offset := f.offset, length := f.length }
  if f.cmd = kernelCmd then
    pure { g with
      kernelLength := f.length.toUInt32
      kernelOffset := f.offset.toUInt32
      kernelCmdLine := some (commandLine f.image f.args) }
  else if f.cmd = moduleCmd then
    if g.modules.length < maxModules then
      pure { g with modules := g.modules ++
        [⟨f.offset.toUInt32, f.length.toUInt32, commandLine f.image f.args⟩] }
    else .error .tooManyModules
  else if f.cmd = mmapCmd then parseMmap u g f line
  else pure g

/-- The parse loop, from the rest of the file. -/
def parse (u : Undef) (g : Menu) (file : List Char) : Except Fault Menu :=
  if h : (fgets (maxLineSize - 1) file).1 = [] then .ok g
  else do
    let g ← parseLine u g (fgets (maxLineSize - 1) file).1
    if (fgets (maxLineSize - 1) file).2.2 then pure g
    else parse u g (fgets (maxLineSize - 1) file).2.1
termination_by file.length
decreasing_by
  have hlen := congrArg List.length (fgets_append (maxLineSize - 1) file)
  have hpos := List.length_pos_iff.mpr h
  rw [List.length_append] at hlen
  omega

/-! ## 4. Emission -/

def emitModule (i : Nat) (m : Module) : List Stmt :=
  [.modStart (printInt i) (printHex m.offset.toNat),
    .modEnd (printInt i) (printHex (m.offset + m.length).toNat),
    .modString (printInt i) (quoted m.cmdLine)]

/-- The loop over the modules, from module `i - 1` on. -/
def emitModules : Nat → List Module → List Stmt
  | _, [] => []
  | i, m :: ms => emitModule i m ++ emitModules (i + 1) ms

def emitMmap (i : Nat) : List Stmt :=
  [.mmapSize (printInt i), .mmapBase (printInt i) (printInt i),
    .mmapLength (printInt i) (printInt i), .mmapType (printInt i) (printInt i)]

/-- The loop over the memory map, `n` rounds from `i` on. -/
def emitMmaps : Nat → Nat → List Stmt
  | _, 0 => []
  | i, n + 1 => emitMmap i ++ emitMmaps (i + 1) n

def flagHasCmdline : UInt32 := 0x004
def flagHasMods : UInt32 := 0x008
def flagHasElfSyms : UInt32 := 0x020
def flagHasMmap : UInt32 := 0x040

/-- The statements written after the parse loop. -/
def emit (g : Menu) : Except Fault (List Stmt) :=
  match g.kernelCmdLine with
  | none => .error .nullString
  | some kernel => .ok (
      [.modsDecl (printInt (g.modules.length + 1)), .mmapsDecl (printInt g.nMmaps),
        .flag flagHasCmdline, .flag flagHasMods, .flag flagHasElfSyms, .flag flagHasMmap,
        .cmdline (quoted kernel),
        .modsCount (printInt (g.modules.length + 1)), .modsAddr] ++
      emitModule 0 ⟨g.kernelOffset, g.kernelLength, kernel⟩ ++
      emitModules 1 g.modules ++
      [.mmapsLength, .mmapsAddr] ++
      emitMmaps 0 g.nMmaps)

/-- The output for a menu file. -/
def main (u : Undef) (file : List Char) : Except Fault (List Stmt) := do
  let g ← parse u (start u) file
  let stmts ← emit g
  pure (g.out ++ stmts)

end Philix.Mbgen
