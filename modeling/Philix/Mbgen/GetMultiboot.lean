/-
# What the generated source computes

`getMultiboot` runs the statements of an output: the declarations give arrays of zeros, and the
assignments fill them in.  It fails where C would not compile or would leave an array: a
literal that does not end where its statement does, an index that is too large, an array that is
not declared.  `getMultiboot_emit` is the structure that comes out of the generator.
-/
import Philix.Mbgen.Entries
import Philix.Inky.Loader

namespace Philix.Mbgen

open Scan CLiteral Loop Inky

/-! ## 1. The structure -/

/-- `struct multiboot_mmap` -/
structure Mmap where
  size : UInt32
  baseAddr : UInt64
  length : UInt64
  type : UInt32
  deriving DecidableEq

def sizeofMmap : Nat := 24

/-- The numbers of an array `mbi_mmap%d`. -/
structure MmapArray where
  base : UInt64
  length : UInt64
  type : UInt64
  deriving DecidableEq

/-- The variables of the generated source: the fields of `mbi`, and the arrays. -/
structure Mbi where
  flags : UInt32
  cmdline : List Char
  modsCount : UInt32
  /-- `mbi_mods` -/
  mods : List ModInfo
  /-- whether `mods_addr` is `mbi_mods` -/
  hasMods : Bool
  /-- `mbi_mmaps` -/
  mmaps : List Mmap
  hasMmaps : Bool
  mmapLength : UInt32
  /-- `mbi_mmap%d` -/
  arrays : Int → Option MmapArray

def Mbi.zero : Mbi :=
  { flags := 0, cmdline := [], modsCount := 0, mods := [], hasMods := false, mmaps := []
    hasMmaps := false, mmapLength := 0, arrays := fun _ => none }

/-- A literal and the end of the statement. -/
def readString (literal : List Char) : Option (List Char) :=
  match readLiteral literal with
  | some (s, rest) => if rest = [';', '\n'] then some s else none
  | none => none

/-- Assignment to a field of an array of structures. -/
def assign {α : Type} (xs : List α) (i : List Char) (f : α → α) : Option (List α) :=
  if (readInt i).toNat < xs.length ∧ 0 ≤ readInt i then some (xs.modify (readInt i).toNat f)
  else none

/-- The declaration of an array. -/
def declare (arrays : Int → Option MmapArray) (i : Int) (a : MmapArray) :
    Int → Option MmapArray := fun j => if j = i then some a else arrays j

/-- One statement. -/
def exec (e : Mbi) : Stmt → Option Mbi
  | .mmapArray i base length type =>
    let a : MmapArray :=
      ⟨.ofNat (value 16 base), .ofNat (value 16 length), .ofInt (readInt type)⟩
    some { e with arrays := declare e.arrays (readInt i) a }
  | .modsDecl n => some { e with mods := List.replicate (readInt n).toNat ⟨0, 0, []⟩ }
  | .mmapsDecl n => some { e with mmaps := List.replicate (readInt n).toNat ⟨0, 0, 0, 0⟩ }
  | .flag bit => some { e with flags := e.flags ||| bit }
  | .cmdline literal => do some { e with cmdline := ← readString literal }
  | .modsCount n => some { e with modsCount := .ofInt (readInt n) }
  | .modsAddr => some { e with hasMods := true }
  | .modStart i start => do
    some { e with mods := ← assign e.mods i ({ · with modStart := .ofNat (value 16 start) }) }
  | .modEnd i stop => do
    some { e with mods := ← assign e.mods i ({ · with modEnd := .ofNat (value 16 stop) }) }
  | .modString i literal => do
    let s ← readString literal
    some { e with mods := ← assign e.mods i ({ · with string := s }) }
  | .mmapsLength => some { e with mmapLength := .ofNat (sizeofMmap * e.mmaps.length) }
  | .mmapsAddr => some { e with hasMmaps := true }
  | .mmapSize i => do
    some { e with mmaps := ← assign e.mmaps i ({ · with size := .ofNat sizeofMmap }) }
  | .mmapBase i j => do
    let a ← e.arrays (readInt j)
    some { e with mmaps := ← assign e.mmaps i ({ · with baseAddr := a.base }) }
  | .mmapLength i j => do
    let a ← e.arrays (readInt j)
    some { e with mmaps := ← assign e.mmaps i ({ · with length := a.length }) }
  | .mmapType i j => do
    let a ← e.arrays (readInt j)
    some { e with mmaps := ← assign e.mmaps i ({ · with type := a.type.toUInt32 }) }

/-- `get_multiboot` of an output, if the output compiles. -/
def getMultiboot (out : List Stmt) : Option Mbi := out.foldlM exec .zero

/-! ## 2. Running the statements of the generator -/

/-- The element of `mbi_mods` for a module. -/
def Module.info (m : Module) : ModInfo := ⟨m.offset, m.offset + m.length, m.cmdLine⟩

/-- The literal of the module denotes its command line. -/
def Module.Plain (m : Module) : Prop := '\n' ∉ m.cmdLine ∧ Verbatim m.cmdLine

/-- What the parse loop has written for an `mmap` line. -/
structure MmapEntry where
  base : UInt64
  length : UInt64
  type : Int
  deriving DecidableEq

def MmapEntry.array (a : MmapEntry) : MmapArray := ⟨a.base, a.length, .ofInt a.type⟩

/-- The element of `mbi_mmaps` for it. -/
def MmapEntry.mmap (a : MmapEntry) : Mmap :=
  ⟨.ofNat sizeofMmap, a.base, a.length, (UInt64.ofInt a.type).toUInt32⟩

def arrayStmt (i : Nat) (a : MmapEntry) : Stmt :=
  .mmapArray (printInt i) (printHex a.base.toNat) (printHex a.length.toNat) (printInt a.type)

/-- The arrays from number `i` on. -/
def arrayStmts : Nat → List MmapEntry → List Stmt
  | _, [] => []
  | i, a :: as => arrayStmt i a :: arrayStmts (i + 1) as

section Run

variable {e : Mbi} {m : Module}

theorem readString_quoted {s : List Char} (hnl : '\n' ∉ s) (h : Verbatim s) :
    readString (quoted s) = some s := by
  rw [readString, (readLiteral_quoted_iff hnl).mpr h]
  rfl

theorem modify_append {α : Type} (x : α) (rest : List α) (f : α → α) : ∀ done : List α,
    (done ++ x :: rest).modify done.length f = done ++ f x :: rest
  | [] => rfl
  | y :: done => congrArg (y :: ·) (modify_append x rest f done)

/-- Assignment to the first element behind `done`. -/
theorem assign_append {α : Type} (done : List α) (x : α) (rest : List α) (f : α → α) :
    assign (done ++ x :: rest) (printInt done.length) f = some (done ++ f x :: rest) := by
  have hlt : done.length < (done ++ x :: rest).length := by
    rw [List.length_append, List.length_cons]
    omega
  rw [assign, readInt_printInt, Int.toNat_natCast, if_pos ⟨hlt, Int.natCast_nonneg _⟩,
    modify_append]

theorem exec_emitModule (hm : m.Plain) {done rest : List ModInfo} {x : ModInfo}
    (he : e.mods = done ++ x :: rest) :
    (emitModule done.length m).foldlM exec e = some { e with mods := done ++ m.info :: rest } := by
  have hstart : exec e (.modStart (printInt done.length) (printHex m.offset.toNat)) =
      some { e with mods := done ++ { x with modStart := m.offset } :: rest } := by
    rw [exec, he, assign_append, value_printHex, UInt32.ofNat_toNat]
    rfl
  have hstop : exec { e with mods := done ++ { x with modStart := m.offset } :: rest }
      (.modEnd (printInt done.length) (printHex (m.offset + m.length).toNat)) =
      some { e with mods := done ++ ⟨m.offset, m.offset + m.length, x.string⟩ :: rest } := by
    rw [exec, assign_append, value_printHex, UInt32.ofNat_toNat]
    rfl
  have hstring : exec { e with mods := done ++ ⟨m.offset, m.offset + m.length, x.string⟩ :: rest }
      (.modString (printInt done.length) (quoted m.cmdLine)) =
      some { e with mods := done ++ m.info :: rest } := by
    rw [exec, readString_quoted hm.1 hm.2, Option.bind_eq_bind, Option.bind_some, assign_append]
    rfl
  rw [emitModule, foldlM_cons_of_some hstart, foldlM_cons_of_some hstop,
    foldlM_cons_of_some hstring]
  rfl

/-- The loop over the modules fills in one element after the other. -/
theorem exec_emitModules : ∀ (ms : List Module) (done rest : List ModInfo) (e : Mbi),
    (∀ m ∈ ms, m.Plain) → rest.length = ms.length → e.mods = done ++ rest →
    (emitModules done.length ms).foldlM exec e = some { e with mods := done ++ ms.map Module.info }
  | [], done, rest, e, _, hlen, he => by
    rw [List.length_eq_zero_iff.mp hlen, List.append_nil] at he
    rw [List.map_nil, List.append_nil, ← he]
    rfl
  | m :: ms, done, x :: rest, e, hplain, hlen, he => by
    have hm : m.Plain := hplain m List.mem_cons_self
    have hnext : done.length + 1 = (done ++ [m.info]).length := by
      rw [List.length_append, List.length_singleton]
    have ih := exec_emitModules ms (done ++ [m.info]) rest { e with mods := done ++ m.info :: rest }
      (fun m hm => hplain m (List.mem_cons_of_mem _ hm)) (Nat.succ.inj hlen)
      (by rw [List.append_assoc]; rfl)
    rw [emitModules, foldlM_append_of_some (exec_emitModule hm he), hnext, ih, List.append_assoc]
    rfl

theorem exec_emitMmap {done rest : List Mmap} {x : Mmap} {a : MmapEntry}
    (he : e.mmaps = done ++ x :: rest) (ha : e.arrays done.length = some a.array) :
    (emitMmap done.length).foldlM exec e = some { e with mmaps := done ++ a.mmap :: rest } := by
  have hsize : exec e (.mmapSize (printInt done.length)) =
      some { e with mmaps := done ++ { x with size := .ofNat sizeofMmap } :: rest } := by
    rw [exec, he, assign_append]
    rfl
  have hbase : exec { e with mmaps := done ++ { x with size := .ofNat sizeofMmap } :: rest }
      (.mmapBase (printInt done.length) (printInt done.length)) =
      some { e with mmaps := done ++ ⟨.ofNat sizeofMmap, a.base, x.length, x.type⟩ :: rest } := by
    rw [exec, readInt_printInt, ha, Option.bind_eq_bind, Option.bind_some, assign_append]
    rfl
  have hlength : exec { e with
        mmaps := done ++ ⟨.ofNat sizeofMmap, a.base, x.length, x.type⟩ :: rest }
      (.mmapLength (printInt done.length) (printInt done.length)) =
      some { e with mmaps := done ++ ⟨.ofNat sizeofMmap, a.base, a.length, x.type⟩ :: rest } := by
    rw [exec, readInt_printInt, ha, Option.bind_eq_bind, Option.bind_some, assign_append]
    rfl
  have htype : exec { e with
        mmaps := done ++ ⟨.ofNat sizeofMmap, a.base, a.length, x.type⟩ :: rest }
      (.mmapType (printInt done.length) (printInt done.length)) =
      some { e with mmaps := done ++ a.mmap :: rest } := by
    rw [exec, readInt_printInt, ha, Option.bind_eq_bind, Option.bind_some, assign_append]
    rfl
  rw [emitMmap, foldlM_cons_of_some hsize, foldlM_cons_of_some hbase, foldlM_cons_of_some hlength,
    foldlM_cons_of_some htype]
  rfl

/-- The loop over the memory map, from arrays that are declared. -/
theorem exec_emitMmaps : ∀ (as : List MmapEntry) (done rest : List Mmap) (e : Mbi),
    (∀ j a, as[j]? = some a → e.arrays ↑(done.length + j) = some a.array) →
    rest.length = as.length → e.mmaps = done ++ rest →
    (emitMmaps done.length as.length).foldlM exec e =
      some { e with mmaps := done ++ as.map MmapEntry.mmap }
  | [], done, rest, e, _, hlen, he => by
    rw [List.length_eq_zero_iff.mp hlen, List.append_nil] at he
    rw [List.map_nil, List.append_nil, ← he]
    rfl
  | a :: as, done, x :: rest, e, harrays, hlen, he => by
    have ha : e.arrays done.length = some a.array := harrays 0 a rfl
    have hnext : done.length + 1 = (done ++ [a.mmap]).length := by
      rw [List.length_append, List.length_singleton]
    have ih := exec_emitMmaps as (done ++ [a.mmap]) rest { e with mmaps := done ++ a.mmap :: rest }
      (fun j b hb => by
        rw [← hnext, Nat.add_assoc, Nat.add_comm 1 j]
        exact harrays (j + 1) b hb) (Nat.succ.inj hlen) (by rw [List.append_assoc]; rfl)
    rw [List.length_cons, emitMmaps, foldlM_append_of_some (exec_emitMmap he ha), hnext, ih,
      List.append_assoc]
    rfl

/-- The arrays are declared one after the other. -/
theorem exec_arrayStmts : ∀ (as : List MmapEntry) (k : Nat) (e : Mbi), ∃ arrays,
    (arrayStmts k as).foldlM exec e = some { e with arrays := arrays } ∧
      (∀ j a, as[j]? = some a → arrays ↑(k + j) = some a.array) ∧
      ∀ i : Nat, i < k → arrays i = e.arrays i
  | [], k, e => ⟨e.arrays, rfl, fun _ _ h => (by cases h), fun _ _ => rfl⟩
  | a :: as, k, e => by
    have hfirst : exec e (arrayStmt k a) =
        some { e with arrays := declare e.arrays k a.array } := by
      rw [arrayStmt, exec, readInt_printInt, readInt_printInt, value_printHex, value_printHex,
        UInt64.ofNat_toNat, UInt64.ofNat_toNat]
      rfl
    obtain ⟨arrays, hrun, hnew, hold⟩ :=
      exec_arrayStmts as (k + 1) { e with arrays := declare e.arrays k a.array }
    refine ⟨arrays, ?_, fun j b hb => ?_, fun i hi => ?_⟩
    · rw [arrayStmts, foldlM_cons_of_some hfirst, hrun]
    · cases j with
      | zero =>
        obtain rfl := Option.some.inj hb
        rw [Nat.add_zero, hold k (Nat.lt_succ_self k)]
        exact if_pos rfl
      | succ j =>
        have hj : k + (j + 1) = k + 1 + j := by omega
        rw [hj]
        exact hnew j b hb
    · have hne : ¬ (i : Int) = k := by omega
      rw [hold i (Nat.lt_succ_of_lt hi)]
      exact if_neg hne

end Run

/-! ## 3. The structure of an output -/

/-- **`get_multiboot` of an output** has the kernel and the modules, and the memory map. -/
theorem getMultiboot_emit {g : Menu} {kernel : Module} {as : List MmapEntry} {stmts : List Stmt}
    (hkernel : kernelOf g = some kernel) (hemit : emit g = .ok stmts)
    (hout : g.out = arrayStmts 0 as) (hcount : g.nMmaps = as.length)
    (hplain : ∀ m ∈ kernel :: g.modules, m.Plain) :
    ∃ mbi, getMultiboot (g.out ++ stmts) = some mbi ∧
      mbi.flags = flagHasCmdline ||| flagHasMods ||| flagHasElfSyms ||| flagHasMmap ∧
      mbi.cmdline = kernel.cmdLine ∧
      mbi.modsCount = .ofInt (g.modules.length + 1) ∧ mbi.hasMods = true ∧
      mbi.mods = (kernel :: g.modules).map Module.info ∧
      mbi.hasMmaps = true ∧ mbi.mmaps = as.map MmapEntry.mmap ∧
      mbi.mmapLength = .ofNat (sizeofMmap * as.length) := by
  have hk : kernel.Plain := hplain kernel List.mem_cons_self
  obtain ⟨arrays, harrays, hnew, -⟩ := exec_arrayStmts as 0 .zero
  let e₁ : Mbi :=
    { flags := flagHasCmdline ||| flagHasMods ||| flagHasElfSyms ||| flagHasMmap
      cmdline := kernel.cmdLine, modsCount := .ofInt (g.modules.length + 1)
      mods := List.replicate (g.modules.length + 1) ⟨0, 0, []⟩, hasMods := true
      mmaps := List.replicate as.length ⟨0, 0, 0, 0⟩, hasMmaps := false, mmapLength := 0
      arrays := arrays }
  have hhead : [Stmt.modsDecl (printInt (g.modules.length + 1)), .mmapsDecl (printInt g.nMmaps),
      .flag flagHasCmdline, .flag flagHasMods, .flag flagHasElfSyms, .flag flagHasMmap,
      .cmdline (quoted kernel.cmdLine), .modsCount (printInt (g.modules.length + 1)),
      .modsAddr].foldlM exec { Mbi.zero with arrays := arrays } = some e₁ := by
    simp only [List.foldlM_cons, List.foldlM_nil, exec, readInt_printInt, hcount,
      readString_quoted hk.1 hk.2, Option.bind_eq_bind, Option.bind_some]
    rfl
  have hmodules := exec_emitModules (kernel :: g.modules) [] e₁.mods e₁ hplain
    List.length_replicate rfl
  let e₂ : Mbi := { e₁ with mods := (kernel :: g.modules).map Module.info }
  have hlast : [Stmt.mmapsLength, .mmapsAddr].foldlM exec e₂ =
      some { e₂ with hasMmaps := true, mmapLength := .ofNat (sizeofMmap * as.length) } := by
    simp only [List.foldlM_cons, List.foldlM_nil, exec, Option.bind_eq_bind, Option.bind_some, e₂,
      e₁, List.length_replicate]
    rfl
  have hmmaps := exec_emitMmaps as [] e₁.mmaps
    { e₂ with hasMmaps := true, mmapLength := .ofNat (sizeofMmap * as.length) }
    (fun j a ha => hnew j a ha) List.length_replicate rfl
  rw [emit_eq hkernel] at hemit
  refine ⟨{ e₂ with
    mmaps := as.map MmapEntry.mmap
    hasMmaps := true
    mmapLength := .ofNat (sizeofMmap * as.length) }, ?_, rfl, rfl, rfl, rfl, rfl, rfl, rfl, rfl⟩
  have hmodules₂ : (emitModules 0 (kernel :: g.modules)).foldlM exec e₁ = some e₂ := hmodules
  rw [getMultiboot, ← Except.ok.inj hemit, hout, foldlM_append_of_some harrays,
    foldlM_append_of_some hhead, foldlM_append_of_some hmodules₂, foldlM_append_of_some hlast,
    hcount]
  exact hmmaps

end Philix.Mbgen
