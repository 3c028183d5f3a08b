/-
# The entries of the generated structure

Entry `0` of `mbi_mods` is the kernel and the others are the modules in order.  `entryOf` looks up
in the output what is written for an entry, and `lineEntry` what is written for a line of the
menu file: the kernel's entry goes to the last kernel line.  `lineEntry_eq_some` says where it
comes from: the line itself, and the `offset` and `length` at the time it is parsed.
`lineEntry_isSome_iff` says which lines have one.
-/
import Philix.Mbgen.Lines

namespace Philix.Mbgen

open Scan CLiteral Loop

/-! ## 1. What is written for an entry -/

/-- The texts of the start, the end and the string of an entry. -/
structure Entry where
  start : List Char
  stop : List Char
  literal : List Char
  deriving DecidableEq

def startText : Stmt → Option (List Char × List Char)
  | .modStart i start => some (i, start)
  | _ => none

def stopText : Stmt → Option (List Char × List Char)
  | .modEnd i stop => some (i, stop)
  | _ => none

def stringText : Stmt → Option (List Char × List Char)
  | .modString i literal => some (i, literal)
  | _ => none

def cmdlineText : Stmt → Option (List Char)
  | .cmdline literal => some literal
  | _ => none

def entryOf (out : List Stmt) (i : Nat) : Option Entry := do
  let start ← (out.filterMap startText).lookup (printInt i)
  let stop ← (out.filterMap stopText).lookup (printInt i)
  let literal ← (out.filterMap stringText).lookup (printInt i)
  pure { start, stop, literal }

/-- The texts of a module or of the kernel. -/
def Module.entry (m : Module) : Entry :=
  ⟨printHex m.offset.toNat, printHex (m.offset + m.length).toNat, quoted m.cmdLine⟩

section Lookup

variable {sel : Stmt → Option (List Char × List Char)} {f : Module → List Char}
  {u : Undef} {file : List Char} {g : Menu} {out stmts : List Stmt} {kernel : Module}

theorem printInt_inj {m n : Int} (h : printInt m = printInt n) : m = n := by
  rw [← readInt_printInt m, h, readInt_printInt]

/-- The statements of the modules, as pairs of an index and a text. -/
theorem lookup_emitModules (hsel : ∀ i m, (emitModule i m).filterMap sel = [(printInt i, f m)]) :
    ∀ (ms : List Module) (k i : Nat), k ≤ i →
      ((emitModules k ms).filterMap sel).lookup (printInt i) = (ms[i - k]?).map f
  | [], _, _, _ => rfl
  | m :: ms, k, i, hi => by
    rw [emitModules, List.filterMap_append, hsel, List.singleton_append, List.lookup_cons]
    rcases Nat.eq_or_lt_of_le hi with rfl | hlt
    · rw [beq_self_eq_true, Nat.sub_self]
      rfl
    · have hne : (printInt i == printInt k) = false := by
        rw [beq_eq_false_iff_ne]
        intro h
        have := printInt_inj h
        omega
      have hsub : i - k = i - (k + 1) + 1 := by omega
      rw [hne, lookup_emitModules hsel ms (k + 1) i hlt, hsub]
      rfl

theorem filterMap_emitMmaps {β : Type} {sel : Stmt → Option β}
    (hsel : ∀ i, (emitMmap i).filterMap sel = []) : ∀ n k, (emitMmaps k n).filterMap sel = []
  | 0, _ => rfl
  | n + 1, k => by
    rw [emitMmaps, List.filterMap_append, hsel, filterMap_emitMmaps hsel n]
    rfl

theorem emit_eq (hkernel : kernelOf g = some kernel) : emit g = .ok (
    [.modsDecl (printInt (g.modules.length + 1)), .mmapsDecl (printInt g.nMmaps),
      .flag flagHasCmdline, .flag flagHasMods, .flag flagHasElfSyms, .flag flagHasMmap,
      .cmdline (quoted kernel.cmdLine),
      .modsCount (printInt (g.modules.length + 1)), .modsAddr] ++
    (emitModules 0 (kernel :: g.modules) ++
    ([.mmapsLength, .mmapsAddr] ++ emitMmaps 0 g.nMmaps))) := by
  obtain ⟨cmdLine, hcmd, rfl⟩ := Option.map_eq_some_iff.mp hkernel
  simp only [emit, hcmd, emitModules, List.append_assoc]

theorem main_eq_ok_iff : main u file = .ok out ↔
    ∃ g stmts, parse u (start u) file = .ok g ∧ emit g = .ok stmts ∧ out = g.out ++ stmts := by
  rw [main, bind_eq_ok_iff]
  constructor
  · rintro ⟨g, hparse, h⟩
    obtain ⟨stmts, hemit, hout⟩ := bind_eq_ok_iff.mp h
    exact ⟨g, stmts, hparse, hemit, (Except.ok.inj hout).symm⟩
  · rintro ⟨g, stmts, hparse, hemit, rfl⟩
    exact ⟨g, hparse, bind_eq_ok_iff.mpr ⟨stmts, hemit, rfl⟩⟩

theorem kernelOf_of_emit (h : emit g = .ok stmts) : ∃ kernel, kernelOf g = some kernel := by
  rw [emit] at h
  split at h
  · cases h
  · rename_i cmdLine hcmd
    exact ⟨_, by rw [kernelOf, hcmd]; rfl⟩

/-- **What is written for an entry.** -/
theorem lookup_emit (hout : ∀ s ∈ g.out, IsMmapArray s) (hkernel : kernelOf g = some kernel)
    (hemit : emit g = .ok stmts)
    (hsel : ∀ i m, (emitModule i m).filterMap sel = [(printInt i, f m)])
    (hmmap : ∀ i, (emitMmap i).filterMap sel = []) (harray : ∀ s, IsMmapArray s → sel s = none)
    (hfix : ∀ n k literal, [Stmt.modsDecl n, .mmapsDecl k, .flag flagHasCmdline, .flag flagHasMods,
      .flag flagHasElfSyms, .flag flagHasMmap, .cmdline literal, .modsCount n,
      .modsAddr].filterMap sel = [])
    (hlast : [Stmt.mmapsLength, .mmapsAddr].filterMap sel = []) (i : Nat) :
    ((g.out ++ stmts).filterMap sel).lookup (printInt i) =
      ((kernel :: g.modules)[i]?).map f := by
  have hnil : g.out.filterMap sel = [] :=
    List.filterMap_eq_nil_iff.mpr fun s hs => harray s (hout s hs)
  rw [emit_eq hkernel] at hemit
  rw [← Except.ok.inj hemit, List.filterMap_append, hnil, List.filterMap_append, hfix,
    List.filterMap_append, List.filterMap_append, hlast, filterMap_emitMmaps hmmap,
    List.append_nil, List.append_nil, List.nil_append, List.nil_append,
    lookup_emitModules hsel _ 0 i (Nat.zero_le i), Nat.sub_zero]

theorem entryOf_emit (hout : ∀ s ∈ g.out, IsMmapArray s) (hkernel : kernelOf g = some kernel)
    (hemit : emit g = .ok stmts) (i : Nat) :
    entryOf (g.out ++ stmts) i = ((kernel :: g.modules)[i]?).map Module.entry := by
  have harray : ∀ {sel : Stmt → Option (List Char × List Char)},
      (∀ i b n t, sel (.mmapArray i b n t) = none) → ∀ s, IsMmapArray s → sel s = none := by
    rintro sel h s ⟨i, b, n, t, rfl⟩
    exact h i b n t
  rw [entryOf, lookup_emit hout hkernel hemit (fun _ _ => rfl) (fun _ => rfl)
      (harray fun _ _ _ _ => rfl) (fun _ _ _ => rfl) rfl,
    lookup_emit hout hkernel hemit (fun _ _ => rfl) (fun _ => rfl)
      (harray fun _ _ _ _ => rfl) (fun _ _ _ => rfl) rfl,
    lookup_emit hout hkernel hemit (fun _ _ => rfl) (fun _ => rfl)
      (harray fun _ _ _ _ => rfl) (fun _ _ _ => rfl) rfl]
  cases (kernel :: g.modules)[i]? <;> rfl

/-- The kernel's string is written a second time, for the command line. -/
theorem cmdline_emit (hout : ∀ s ∈ g.out, IsMmapArray s) (hkernel : kernelOf g = some kernel)
    (hemit : emit g = .ok stmts) :
    (g.out ++ stmts).filterMap cmdlineText = [quoted kernel.cmdLine] := by
  have hnil : g.out.filterMap cmdlineText = [] := by
    refine List.filterMap_eq_nil_iff.mpr fun s hs => ?_
    obtain ⟨i, b, n, t, rfl⟩ := hout s hs
    rfl
  have hmodules : ∀ (ms : List Module) (k : Nat),
      (emitModules k ms).filterMap cmdlineText = [] := by
    intro ms
    induction ms with
    | nil => exact fun _ => rfl
    | cons m ms ih =>
      intro k
      rw [emitModules, List.filterMap_append, ih]
      rfl
  rw [emit_eq hkernel] at hemit
  rw [← Except.ok.inj hemit, List.filterMap_append, hnil, List.filterMap_append,
    List.filterMap_append, List.filterMap_append, hmodules, filterMap_emitMmaps fun _ => rfl]
  rfl

end Lookup

/-! ## 2. The entry of a line -/

def NoKernel (ls : List (List Char)) : Prop := ∀ l ∈ ls, lineCmd l ≠ kernelCmd

instance (ls : List (List Char)) : Decidable (NoKernel ls) :=
  inferInstanceAs (Decidable (∀ l ∈ ls, _))

/-- The number of the entry of line `k`: a kernel line has none when another one follows. -/
def lineIndex (ls : List (List Char)) (k : Nat) : Option Nat :=
  ls[k]?.bind fun l =>
    if lineCmd l = moduleCmd then some (1 + moduleLines (ls.take k))
    else if lineCmd l = kernelCmd ∧ NoKernel (ls.drop (k + 1)) then some 0
    else none

/-- What is written for line `k` of a file, if the generator gets to the end. -/
def lineEntry (u : Undef) (file : List Char) (k : Nat) : Option Entry :=
  match main u file with
  | .error _ => none
  | .ok out => (lineIndex (menuLines file) k).bind (entryOf out)

section Lines

variable {u : Undef} {file : List Char} {k i : Nat} {l : List Char} {ls : List (List Char)}
  {g g' : Menu} {e : Entry} {out : List Stmt}

theorem take_concat (hl : ls[k]? = some l) : ls = ls.take k ++ l :: ls.drop (k + 1) := by
  obtain ⟨hk, rfl⟩ := List.getElem?_eq_some_iff.mp hl
  rw [← List.drop_eq_getElem_cons hk, List.take_append_drop]

/-- **Of the states of a run, the one before line `k`** decides its entry. -/
theorem run_entry {kernel : Module} (hrun : ls.foldlM (parseLine u) (start u) = .ok g')
    (hl : ls[k]? = some l) (hi : lineIndex ls k = some i) (hkernel : kernelOf g' = some kernel) :
    ∃ g, (ls.take k).foldlM (parseLine u) (start u) = .ok g ∧ Fits l ∧
      (kernel :: g'.modules)[i]? = some (lineModule g l) := by
  rw [take_concat hl, List.foldlM_append] at hrun
  obtain ⟨g, hbefore, hrun⟩ := bind_eq_ok_iff.mp hrun
  rw [List.foldlM_cons] at hrun
  obtain ⟨g₁, hline, hafter⟩ := bind_eq_ok_iff.mp hrun
  have hparsed := parsed hline
  refine ⟨g, hbefore, hparsed.fits, ?_⟩
  rw [lineIndex, hl, Option.bind_some] at hi
  split at hi
  · rename_i hmodule
    obtain rfl := Option.some.inj hi
    have hcount : g.modules.length = moduleLines (ls.take k) := by
      rw [(run_modules hbefore).2, start, List.length_nil, Nat.zero_add]
    have hmodules : g₁.modules = g.modules ++ [lineModule g l] := by
      rw [hparsed.modules, if_pos hmodule]
    obtain ⟨rest, hrest⟩ := (run_modules hafter).1
    rw [Nat.add_comm, List.getElem?_cons_succ, ← hrest, hmodules, ← hcount, List.append_assoc,
      List.getElem?_append_right (Nat.le_refl _), Nat.sub_self]
    rfl
  · split at hi
    · rename_i hk
      obtain rfl := Option.some.inj hi
      have hsame : kernelOf g' = some (lineModule g l) := by
        rw [run_kernel hafter hk.2, hparsed.kernel, if_pos hk.1]
      rw [hkernel] at hsame
      exact hsame
    · cases hi

/-- The entry of line `k`, when the generator gets to the end. -/
theorem lineEntry_eq {kernel : Module} (hlines : menuLines file = ls)
    (hrun : ls.foldlM (parseLine u) (start u) = .ok g') (hkernel : kernelOf g' = some kernel)
    (hi : lineIndex ls k = some i) :
    lineEntry u file k = ((kernel :: g'.modules)[i]?).map Module.entry := by
  have hemit := emit_eq hkernel
  have hparse := parse_eq u (start u) file
  rw [hlines, hrun] at hparse
  have hmain := main_eq_ok_iff.mpr ⟨g', _, hparse, hemit, rfl⟩
  rw [lineEntry, hmain]
  dsimp only
  rw [hlines, hi, Option.bind_some, entryOf_emit (run_out hrun (by simp [start])) hkernel hemit]

/-- **Where an entry comes from.** -/
theorem lineEntry_eq_some (hl : (menuLines file)[k]? = some l) (h : lineEntry u file k = some e) :
    ∃ g, ((menuLines file).take k).foldlM (parseLine u) (start u) = .ok g ∧ Fits l ∧
      e = (lineModule g l).entry := by
  rw [lineEntry] at h
  split at h
  · cases h
  · rename_i out hmain
    obtain ⟨i, hi, hentry⟩ := Option.bind_eq_some_iff.mp h
    obtain ⟨g', stmts, hparse, hemit, rfl⟩ := main_eq_ok_iff.mp hmain
    obtain ⟨kernel, hkernel⟩ := kernelOf_of_emit hemit
    rw [parse_eq] at hparse
    obtain ⟨g, hbefore, hfits, hget⟩ := run_entry hparse hl hi hkernel
    rw [entryOf_emit (run_out hparse (by simp [start])) hkernel hemit, hget] at hentry
    exact ⟨g, hbefore, hfits, (Option.some.inj hentry).symm⟩

/-- After a run there is a kernel exactly when there was one or there is a line for it. -/
theorem run_kernel_isSome (h : ls.foldlM (parseLine u) g = .ok g') :
    (∃ kernel, kernelOf g' = some kernel) ↔
      (∃ kernel, kernelOf g = some kernel) ∨ ¬ NoKernel ls := by
  induction ls generalizing g with
  | nil =>
    obtain rfl := Except.ok.inj h
    simp [NoKernel]
  | cons l ls ih =>
    rw [List.foldlM_cons] at h
    obtain ⟨g₁, hline, hrest⟩ := bind_eq_ok_iff.mp h
    rw [ih hrest, (parsed hline).kernel, NoKernel, NoKernel, List.forall_mem_cons]
    by_cases hkernel : lineCmd l = kernelCmd
    · simp [hkernel]
    · simp [hkernel]

/-- **Which files the generator accepts.** -/
theorem main_ok_iff : (∃ out, main u file = .ok out) ↔
    (∀ l ∈ menuLines file, Fits l) ∧ moduleLines (menuLines file) ≤ maxModules ∧
      ¬ NoKernel (menuLines file) := by
  have hrun : (∃ g', (menuLines file).foldlM (parseLine u) (start u) = .ok g') ↔
      (∀ l ∈ menuLines file, Fits l) ∧ moduleLines (menuLines file) ≤ maxModules := by
    rw [run_ok_iff (Nat.zero_le _), start, List.length_nil, Nat.zero_add]
  have hstart : ¬ ∃ kernel, kernelOf (start u) = some kernel := by
    rintro ⟨kernel, h⟩
    cases h
  rw [← and_assoc, ← hrun]
  constructor
  · rintro ⟨out, h⟩
    obtain ⟨g, stmts, hparse, hemit, -⟩ := main_eq_ok_iff.mp h
    rw [parse_eq] at hparse
    have hkernel := (run_kernel_isSome hparse).mp (kernelOf_of_emit hemit)
    exact ⟨⟨g, hparse⟩, hkernel.resolve_left hstart⟩
  · rintro ⟨⟨g, hg⟩, hkernel⟩
    obtain ⟨kernel, hk⟩ := (run_kernel_isSome hg).mpr (Or.inr hkernel)
    exact ⟨_, main_eq_ok_iff.mpr ⟨g, _, (parse_eq u (start u) file).trans hg, emit_eq hk, rfl⟩⟩

/-- **Which lines have an entry**, of the kernel and module lines. -/
theorem lineEntry_isSome_iff (hl : (menuLines file)[k]? = some l)
    (hcmd : lineCmd l = kernelCmd ∨ lineCmd l = moduleCmd) :
    (∃ e, lineEntry u file k = some e) ↔ (∃ out, main u file = .ok out) ∧
      (lineCmd l = kernelCmd → NoKernel ((menuLines file).drop (k + 1))) := by
  constructor
  · rintro ⟨e, h⟩
    rw [lineEntry] at h
    split at h
    · cases h
    · rename_i out hmain
      refine ⟨⟨out, hmain⟩, fun hkernel => ?_⟩
      obtain ⟨i, hi, -⟩ := Option.bind_eq_some_iff.mp h
      have hmodule : lineCmd l ≠ moduleCmd := by
        rw [hkernel]
        decide
      rw [lineIndex, hl, Option.bind_some, if_neg hmodule] at hi
      split at hi
      · rename_i hk
        exact hk.2
      · cases hi
  · rintro ⟨⟨out, hmain⟩, hlast⟩
    obtain ⟨i, hi⟩ : ∃ i, lineIndex (menuLines file) k = some i := by
      rw [lineIndex, hl, Option.bind_some]
      rcases hcmd with hkernel | hmodule
      · have hmodule : lineCmd l ≠ moduleCmd := by
          rw [hkernel]
          decide
        rw [if_neg hmodule, if_pos ⟨hkernel, hlast hkernel⟩]
        exact ⟨0, rfl⟩
      · rw [if_pos hmodule]
        exact ⟨_, rfl⟩
    obtain ⟨g', stmts, hparse, hemit, -⟩ := main_eq_ok_iff.mp hmain
    obtain ⟨kernel, hkernel⟩ := kernelOf_of_emit hemit
    rw [parse_eq] at hparse
    obtain ⟨g, -, -, hget⟩ := run_entry hparse hl hi hkernel
    exact ⟨_, by rw [lineEntry_eq rfl hparse hkernel hi, hget]; rfl⟩

end Lines

end Philix.Mbgen
