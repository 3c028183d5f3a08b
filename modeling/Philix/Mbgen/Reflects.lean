/-
# The generated structure reflects the menu file

For a menu file of well-formed lines the generator completes, its output compiles, and
`get_multiboot` has the last kernel line, the module lines in order and the memory map in order
(`get_multiboot_reflects_menu`).  `Collected` is the invariant of the parse loop: what it has
collected is what the lines so far say.  The type of an `mmap` line is read with `%i`, so it is
taken as decimal only if it is written as a decimal constant of C.
-/
import Philix.Mbgen.GetMultiboot
import Philix.Mbgen.RoundTrip

namespace Philix.Mbgen

open Scan CLiteral Loop Inky

/-! ## 1. What the menu file says -/

/-- What the line of a module or kernel is parsed to. -/
def EntryLine.toModule (e : EntryLine) : Module :=
  ⟨(toULong false (value 10 e.offset)).toUInt32, (toULong false (value 10 e.length)).toUInt32,
    commandLine e.image e.args⟩

/-- The element of `mbi_mods` it stands for: it starts at `OFFSET` and ends at
`OFFSET + LENGTH`. -/
def EntryLine.info (e : EntryLine) : ModInfo :=
  ⟨.ofNat (value 10 e.offset), .ofNat (value 10 e.offset + value 10 e.length),
    e.image ++ ' ' :: e.args⟩

def MmapLine.toEntry (m : MmapLine) : MmapEntry :=
  ⟨toULong false (hexValue m.base), toULong false (hexValue m.length), value 10 m.type⟩

/-- The element of `mbi_mmaps` an `mmap` line stands for. -/
def MmapLine.mmap (m : MmapLine) : Mmap :=
  ⟨.ofNat sizeofMmap, .ofNat (hexValue m.base), .ofNat (hexValue m.length),
    .ofNat (value 10 m.type)⟩

def kernelLine? : MenuLine → Option EntryLine
  | .entry e => if e.kernel then some e else none
  | _ => none

def moduleLine? : MenuLine → Option EntryLine
  | .entry e => if e.kernel then none else some e
  | _ => none

def mmapLine? : MenuLine → Option MmapLine
  | .mmap m => some m
  | _ => none

/-- The numbers are in range, the strings are plain, and the type is a decimal constant. -/
def MenuLine.InRange : MenuLine → Prop
  | .entry e => value 10 e.offset + value 10 e.length < 2 ^ 32 ∧
      Verbatim (e.image ++ ' ' :: e.args)
  | .mmap m => hexValue m.base < 2 ^ 64 ∧ hexValue m.length < 2 ^ 64 ∧ DecimalConst m.type ∧
      value 10 m.type < 2 ^ 31
  | .other _ _ => True

structure MenuLine.WellFormed (l : MenuLine) : Prop where
  textLine : TextLine l.text
  fits : Fits l.text
  inRange : l.InRange

section Values

variable {n : Nat} {e : EntryLine} {m : MmapLine}

theorem toULong_of_lt (hn : n < 2 ^ 64) : toULong false n = .ofNat n := by
  rw [toULong, if_neg (Nat.not_le.mpr hn), if_neg Bool.false_ne_true]

theorem EntryLine.info_toModule (h : value 10 e.offset + value 10 e.length < 2 ^ 32) :
    e.toModule.info = e.info := by
  rw [Module.info, EntryLine.info, EntryLine.toModule, toULong_of_lt (by omega),
    toULong_of_lt (by omega), UInt64.toUInt32_ofNat', UInt64.toUInt32_ofNat', UInt32.ofNat_add]
  rfl

theorem ofInt_natCast (n : Nat) : UInt64.ofInt n = .ofNat n := by
  rw [UInt64.ofInt, ← UInt64.toNat_inj, UInt64.toNat_ofNat', UInt64.toNat_ofNat']
  omega

theorem MmapLine.mmap_toEntry (hbase : hexValue m.base < 2 ^ 64)
    (hlength : hexValue m.length < 2 ^ 64) : m.toEntry.mmap = m.mmap := by
  rw [MmapEntry.mmap, MmapLine.mmap, MmapLine.toEntry, toULong_of_lt hbase, toULong_of_lt hlength,
    ofInt_natCast, UInt64.toUInt32_ofNat']

theorem arrayStmts_concat : ∀ (as : List MmapEntry) (k : Nat) (a : MmapEntry),
    arrayStmts k (as ++ [a]) = arrayStmts k as ++ [arrayStmt (k + as.length) a]
  | [], _, _ => rfl
  | b :: as, k, a => by
    have hk : k + (as.length + 1) = k + 1 + as.length := by omega
    rw [List.cons_append, arrayStmts, arrayStmts_concat as (k + 1) a, arrayStmts, List.length_cons,
      hk]
    rfl

theorem filterMap_concat {α β : Type} (f : α → Option β) (as : List α) (a : α) :
    (as ++ [a]).filterMap f = as.filterMap f ++ (f a).toList := by
  rw [List.filterMap_append]
  cases h : f a with
  | none => rw [List.filterMap_cons_none h]; rfl
  | some b => rw [List.filterMap_cons_some h]; rfl

end Values

/-! ## 2. The parse loop -/

/-- The parse loop has collected what the lines say. -/
structure Collected (ls : List MenuLine) (g : Menu) : Prop where
  modules : g.modules = (ls.filterMap moduleLine?).map EntryLine.toModule
  kernel : kernelOf g = (ls.filterMap kernelLine?).getLast?.map EntryLine.toModule
  out : g.out = arrayStmts 0 ((ls.filterMap mmapLine?).map MmapLine.toEntry)
  count : g.nMmaps = (ls.filterMap mmapLine?).length

section Parse

variable {u : Undef} {g : Menu} {ls : List MenuLine} {l : MenuLine}

theorem collected_start (u : Undef) : Collected [] (start u) := ⟨rfl, rfl, rfl, rfl⟩

/-- What a pass of the loop has to add for its line. -/
theorem Collected.concat {g' : Menu} (hg : Collected ls g)
    (hmodules : g'.modules = g.modules ++ ((moduleLine? l).map EntryLine.toModule).toList)
    (hkernel : kernelOf g' = ((kernelLine? l).map EntryLine.toModule).or (kernelOf g))
    (hout : g'.out = g.out ++ ((mmapLine? l).map fun m => arrayStmt g.nMmaps m.toEntry).toList)
    (hcount : g'.nMmaps = g.nMmaps + (mmapLine? l).toList.length) :
    Collected (ls ++ [l]) g' := by
  refine ⟨?_, ?_, ?_, ?_⟩
  · rw [hmodules, hg.modules, filterMap_concat, List.map_append, Option.toList_map]
  · rw [hkernel, hg.kernel, filterMap_concat]
    cases kernelLine? l with
    | none => rw [Option.toList_none, List.append_nil]; rfl
    | some e => rw [Option.toList_some, List.getLast?_concat]; rfl
  · rw [hout, hg.out, hg.count, filterMap_concat, List.map_append]
    cases mmapLine? l with
    | none => rw [Option.toList_none, List.map_nil, List.append_nil]; exact List.append_nil _
    | some m => rw [Option.toList_some, List.map_singleton, arrayStmts_concat, List.length_map,
        Nat.zero_add]; rfl
  · rw [hcount, hg.count, filterMap_concat, List.length_append]

theorem EntryLine.lineModule_text (e : EntryLine) (h : TextLine e.text) (g : Menu) :
    lineModule g e.text = e.toModule := by
  rw [lineModule, e.lineOffset_text h.2.1, e.lineLength_text h.2.1, e.lineImage_text h.2.1,
    e.lineArgs_text h.2.1 h.1]
  rfl

/-- The array of an `mmap` line. -/
theorem MmapLine.arrayStmt_text (m : MmapLine) (h : TextLine m.text) (hconst : DecimalConst m.type)
    (htype : value 10 m.type < 2 ^ 31) (g : Menu) :
    arrayStmt g.nMmaps ⟨mmapBaseOf g m.text, mmapLengthOf g m.text, mmapTypeOf u g m.text⟩ =
      arrayStmt g.nMmaps m.toEntry := by
  have hscan := m.mmapScanned_text h.2.1 hconst htype
  have hbase : mmapBaseOf g m.text = m.toEntry.base := by
    rw [mmapBaseOf, hscan]
    rfl
  have hlength : mmapLengthOf g m.text = m.toEntry.length := by
    rw [mmapLengthOf, hscan]
    rfl
  have htypeOf : mmapTypeOf u g m.text = m.toEntry.type := by
    rw [mmapTypeOf, hscan]
    exact m.type_kept h.2.1 h.1 hconst htype
  rw [hbase, hlength, htypeOf]

/-- **One line.** -/
theorem collected_line (hg : Collected ls g) (hl : l.WellFormed)
    (hroom : ((ls ++ [l]).filterMap moduleLine?).length ≤ maxModules) :
    ∃ g', parseLine u g l.text = .ok g' ∧ Collected (ls ++ [l]) g' := by
  obtain ⟨htext, hfits, hrange⟩ := hl
  cases l with
  | entry e =>
    have hcmd : lineCmd e.text = e.cmd := e.lineCmd_text htext.2.1
    have hmodule := e.lineModule_text htext g
    cases hkernel : e.kernel with
    | true =>
      have hk : kernelLine? (.entry e) = some e := if_pos hkernel
      have hm : moduleLine? (.entry e) = none := if_pos hkernel
      have hc : e.cmd = kernelCmd := if_pos hkernel
      refine ⟨_, parseLine_kernel hfits (hcmd.trans hc), hg.concat ?_ ?_ ?_ rfl⟩
      · rw [hm]
        exact (List.append_nil _).symm
      · rw [hk, Option.map_some, Option.some_or, ← hmodule]
        rfl
      · exact (List.append_nil _).symm
    | false =>
      have hno : ¬ e.kernel = true := by rw [hkernel]; exact Bool.false_ne_true
      have hk : kernelLine? (.entry e) = none := if_neg hno
      have hm : moduleLine? (.entry e) = some e := if_neg hno
      have hc : e.cmd = moduleCmd := if_neg hno
      have hlt : g.modules.length < maxModules := by
        rw [filterMap_concat, hm, List.length_append] at hroom
        rw [hg.modules, List.length_map]
        exact hroom
      refine ⟨_, (parseLine_module hfits (hcmd.trans hc)).trans (if_pos hlt),
        hg.concat ?_ ?_ ?_ rfl⟩
      · rw [hm, Option.map_some, ← hmodule]
        rfl
      · rw [hk]
        rfl
      · exact (List.append_nil _).symm
  | mmap m =>
    obtain ⟨-, -, hconst, htype⟩ := hrange
    refine ⟨_, parseLine_mmap hfits (m.lineCmd_text htext.2.1), hg.concat ?_ rfl ?_ rfl⟩
    · exact (List.append_nil _).symm
    · exact congrArg (g.out ++ [·]) (m.arrayStmt_text htext hconst htype g)
  | other text hcmd =>
    simp only [List.mem_cons, List.not_mem_nil, or_false, not_or] at hcmd
    refine ⟨_, parseLine_other hfits hcmd.1 hcmd.2.1 hcmd.2.2, hg.concat ?_ rfl ?_ rfl⟩
    · exact (List.append_nil _).symm
    · exact (List.append_nil _).symm

/-- **The whole file.** -/
theorem collected_run : ∀ (rest ls : List MenuLine) (g : Menu), Collected ls g →
    (∀ l ∈ rest, l.WellFormed) → ((ls ++ rest).filterMap moduleLine?).length ≤ maxModules →
    ∃ g', (rest.map MenuLine.text).foldlM (parseLine u) g = .ok g' ∧ Collected (ls ++ rest) g'
  | [], ls, g, hg, _, _ => ⟨g, rfl, by rwa [List.append_nil]⟩
  | l :: rest, ls, g, hg, hwf, hroom => by
    have happend : ls ++ l :: rest = ls ++ [l] ++ rest := by rw [List.append_assoc]; rfl
    have hfirst : ((ls ++ [l]).filterMap moduleLine?).length ≤ maxModules := by
      rw [happend, List.filterMap_append, List.length_append] at hroom
      omega
    obtain ⟨g₁, hline, hg₁⟩ := collected_line hg (hwf l List.mem_cons_self) hfirst
    obtain ⟨g', hrun, hg'⟩ := collected_run rest (ls ++ [l]) g₁ hg₁
      (fun l hl => hwf l (List.mem_cons_of_mem _ hl)) (happend ▸ hroom)
    refine ⟨g', ?_, happend ▸ hg'⟩
    rw [List.map_cons, List.foldlM_cons, hline, ok_bind, hrun]

end Parse

/-! ## 3. The structure -/

section Structure

variable {u : Undef} {ls : List MenuLine} {l : MenuLine} {e : EntryLine}

theorem mem_of_kernelLine (h : e ∈ ls.filterMap kernelLine?) : .entry e ∈ ls := by
  obtain ⟨l, hl, he⟩ := List.mem_filterMap.mp h
  cases l with
  | entry f =>
    simp only [kernelLine?] at he
    split at he
    · rwa [← Option.some.inj he]
    · cases he
  | mmap m => cases he
  | other text hcmd => cases he

theorem mem_of_moduleLine (h : e ∈ ls.filterMap moduleLine?) : .entry e ∈ ls := by
  obtain ⟨l, hl, he⟩ := List.mem_filterMap.mp h
  cases l with
  | entry f =>
    simp only [moduleLine?] at he
    split at he
    · cases he
    · rwa [← Option.some.inj he]
  | mmap m => cases he
  | other text hcmd => cases he

theorem mem_of_mmapLine {m : MmapLine} (h : m ∈ ls.filterMap mmapLine?) : .mmap m ∈ ls := by
  obtain ⟨l, hl, he⟩ := List.mem_filterMap.mp h
  cases l with
  | entry e => cases he
  | mmap m' => rwa [← Option.some.inj he]
  | other text hcmd => cases he

/-- The module of a well-formed line has a plain string. -/
theorem plain_of_wellFormed (h : (MenuLine.entry e).WellFormed) : e.toModule.Plain := by
  refine ⟨?_, h.inRange.2⟩
  rw [← e.lineModule_text h.textLine (start zeroed)]
  exact commandLine_newline e.text

/-- **The generated structure reflects the menu file**: the last kernel line, the module lines and
the `mmap` lines, in order, with their numbers and strings. -/
theorem get_multiboot_reflects_menu (hwf : ∀ l ∈ ls, l.WellFormed)
    (hkernel : ls.filterMap kernelLine? ≠ [])
    (hmodules : (ls.filterMap moduleLine?).length ≤ maxModules) :
    ∃ out mbi, main u (joinLines (ls.map MenuLine.text)) = .ok out ∧
      getMultiboot out = some mbi ∧
      mbi.modsCount.toNat = 1 + (ls.filterMap moduleLine?).length ∧ mbi.hasMods = true ∧
      mbi.mods = ((ls.filterMap kernelLine?).getLast hkernel :: ls.filterMap moduleLine?).map
        EntryLine.info ∧
      mbi.hasMmaps = true ∧ mbi.mmaps = (ls.filterMap mmapLine?).map MmapLine.mmap := by
  obtain ⟨g, hrun, hg⟩ := collected_run ls [] (start u) (collected_start u) hwf hmodules
  rw [List.nil_append] at hg
  let kernel := (ls.filterMap kernelLine?).getLast hkernel
  have hk : kernelOf g = some kernel.toModule := by
    rw [hg.kernel, List.getLast?_eq_some_getLast hkernel]
    rfl
  have hmem : ∀ e ∈ kernel :: ls.filterMap moduleLine?, (MenuLine.entry e).WellFormed := by
    intro e he
    rcases List.mem_cons.mp he with rfl | he
    · exact hwf _ (mem_of_kernelLine (List.getLast_mem hkernel))
    · exact hwf _ (mem_of_moduleLine he)
  have hplain : ∀ m ∈ kernel.toModule :: g.modules, m.Plain := by
    intro m hm
    rw [hg.modules, ← List.map_cons] at hm
    obtain ⟨e, he, rfl⟩ := List.mem_map.mp hm
    exact plain_of_wellFormed (hmem e he)
  have hlines : ∀ t ∈ ls.map MenuLine.text, TextLine t := by
    intro t ht
    obtain ⟨l, hl, rfl⟩ := List.mem_map.mp ht
    exact (hwf l hl).textLine
  have hparse := parse_joinLines u hlines (start u)
  rw [hrun] at hparse
  have hemit := emit_eq hk
  obtain ⟨mbi, hget, -, -, hcount, hhas, hmods, hhasMmaps, hmmaps, -⟩ :=
    getMultiboot_emit hk hemit hg.out (by rw [hg.count, List.length_map]) hplain
  refine ⟨_, mbi, main_eq_ok_iff.mpr ⟨g, _, hparse, hemit, rfl⟩, hget, ?_, hhas, ?_, hhasMmaps, ?_⟩
  · have hlen : g.modules.length = (ls.filterMap moduleLine?).length := by
      rw [hg.modules, List.length_map]
    have hmax : (ls.filterMap moduleLine?).length ≤ 256 := hmodules
    rw [hcount, hlen, UInt32.ofInt, UInt32.toNat_ofNat']
    omega
  · rw [hmods, hg.modules, ← List.map_cons, List.map_map]
    exact List.map_congr_left fun e he => e.info_toModule (hmem e he).inRange.1
  · rw [hmmaps, List.map_map]
    refine List.map_congr_left fun m hm => ?_
    obtain ⟨hbase, hlength, -⟩ := (hwf _ (mem_of_mmapLine hm)).inRange
    exact m.mmap_toEntry hbase hlength

end Structure

/-! ## 4. A menu file, and a type that is not a decimal constant -/

/-- `kernel cpu 0 7 a=4`, with a tab behind the command -/
def sampleKernel : EntryLine where
  kernel := true
  image := ['c', 'p', 'u']
  offset := ['0']
  length := ['7']
  args := ['a', '=', '4']
  gap₀ := []
  gap₁ := ['\t']
  gap₂ := [' ']
  gap₃ := [' ']
  gap₄ := [' ']
  image_token := by decide
  offset_digits := by decide
  length_digits := by decide
  gaps := by decide
  args_start := by decide

/-- `module init 8 16` -/
def sampleModule : EntryLine where
  kernel := false
  image := ['i', 'n', 'i', 't']
  offset := ['8']
  length := ['1', '6']
  args := []
  gap₀ := []
  gap₁ := [' ']
  gap₂ := [' ']
  gap₃ := [' ']
  gap₄ := []
  image_token := by decide
  offset_digits := by decide
  length_digits := by decide
  gaps := by decide
  args_start := by decide

/-- `mmap map 0x0F 10 1`, with a blank at the end -/
def sampleMmap : MmapLine where
  name := ['m', 'a', 'p']
  base := ['0', 'x', '0', 'F']
  length := ['1', '0']
  type := ['1']
  gap₀ := []
  gap₁ := [' ']
  gap₂ := [' ']
  gap₃ := [' ']
  gap₄ := [' ']
  gap₅ := [' ']
  name_token := by decide
  base_hex := by decide
  length_hex := by decide
  type_digits := by decide
  gaps := by decide

/-- `# map` -/
def sampleComment : MenuLine := .other ['#', ' ', 'm', 'a', 'p'] (by decide)

def sampleMenu : List MenuLine :=
  [.entry sampleModule, .entry sampleKernel, sampleComment, .mmap sampleMmap]

theorem wellFormed_sampleMenu : ∀ l ∈ sampleMenu, l.WellFormed := by
  intro l hl
  simp only [sampleMenu, List.mem_cons, List.not_mem_nil, or_false] at hl
  rcases hl with rfl | rfl | rfl | rfl
  · exact ⟨by decide, by decide, by decide, by decide⟩
  · exact ⟨by decide, by decide, by decide, by decide⟩
  · exact ⟨by decide, by decide, trivial⟩
  · exact ⟨by decide, by decide, by decide, by decide, by decide, by decide⟩

theorem get_multiboot_reflects_sample :
    ∃ out mbi, main zeroed (joinLines (sampleMenu.map MenuLine.text)) = .ok out ∧
      getMultiboot out = some mbi ∧
      mbi.mods = [⟨0, 7, ['c', 'p', 'u', ' ', 'a', '=', '4']⟩,
        ⟨8, 24, ['i', 'n', 'i', 't', ' ']⟩] ∧
      mbi.mmaps = [⟨24, 0x0F, 0x10, 1⟩] := by
  obtain ⟨out, mbi, hmain, hget, -, -, hmods, -, hmmaps⟩ :=
    get_multiboot_reflects_menu (u := zeroed) wellFormed_sampleMenu (by decide) (by decide)
  exact ⟨out, mbi, hmain, hget, hmods, hmmaps⟩

/-- `kernel k 0 0` -/
def octalKernel : List Char := kernelCmd ++ [' ', 'k', ' ', '0', ' ', '0']

/-- `mmap m 0 1 010` -/
def octalMmap : List Char := mmapCmd ++ [' ', 'm', ' ', '0', ' ', '1', ' ', '0', '1', '0']

/-- `kernel k 0 0 ??=` -/
def trigraphKernel : List Char := octalKernel ++ [' ', '?', '?', '=']

/-- `%i` takes the type `010` for 8. -/
theorem octal_type :
    ∃ out mbi, main zeroed (joinLines [octalKernel, octalMmap]) = .ok out ∧
      getMultiboot out = some mbi ∧ mbi.mmaps = [⟨24, 0, 1, 8⟩] ∧
      mbi.mmaps ≠ [⟨24, 0, 1, .ofNat (value 10 ['0', '1', '0'])⟩] := by
  have htext : ∀ l ∈ [octalKernel, octalMmap], TextLine l := by decide
  have hrun : ∃ g, [octalKernel, octalMmap].foldlM (parseLine zeroed) (start zeroed) = .ok g ∧
      kernelOf g = some ⟨0, 0, ['k', ' ']⟩ ∧ g.modules = [] ∧ g.nMmaps = 1 ∧
      g.out = arrayStmts 0 [⟨0, 1, 8⟩] := by
    rw [List.foldlM_cons, parseLine_kernel (by decide) (by decide), ok_bind, List.foldlM_cons,
      parseLine_mmap (by decide) (by decide)]
    exact ⟨_, rfl, by decide, rfl, rfl, by decide⟩
  obtain ⟨g, hrun, hkernel, hmodules, hcount, hout⟩ := hrun
  have hparse := parse_joinLines zeroed htext (start zeroed)
  rw [hrun] at hparse
  have hemit := emit_eq hkernel
  have hplain : ∀ m ∈ (⟨0, 0, ['k', ' ']⟩ : Module) :: g.modules, m.Plain := by
    rw [hmodules]
    intro m hm
    rw [List.mem_singleton.mp hm]
    exact ⟨by decide, by decide⟩
  obtain ⟨mbi, hget, -, -, -, -, -, -, hmmaps, -⟩ :=
    getMultiboot_emit hkernel hemit hout hcount hplain
  exact ⟨_, mbi, main_eq_ok_iff.mpr ⟨g, _, hparse, hemit, rfl⟩, hget, hmmaps.trans (by decide), by
    rw [hmmaps]
    decide⟩

/-- The compiler takes the argument `??=` for `#`. -/
theorem trigraph_argument :
    ∃ out e, main zeroed trigraphKernel = .ok out ∧ entryOf out 0 = some e ∧
      commandLine (lineImage trigraphKernel) (lineArgs trigraphKernel) = ['k', ' ', '?', '?', '='] ∧
      readLiteral e.literal = some (['k', ' ', '#'], [';', '\n']) := by
  obtain ⟨hlines, hi, out, hmain⟩ :=
    main_kernel (u := zeroed) (l := trigraphKernel) (by decide) (by decide) (by decide)
  have hl : (menuLines trigraphKernel)[0]? = some trigraphKernel := by
    rw [hlines]
    rfl
  have hstring : commandLine (lineImage trigraphKernel) (lineArgs trigraphKernel) =
      ['k', ' ', '?', '?', '='] := by decide
  obtain ⟨e, he, hliteral, -⟩ := literal_of_line hmain hl hi
  refine ⟨out, e, hmain, he, hstring, ?_⟩
  have htri : trigraphs (quoted ['k', ' ', '?', '?', '=']) =
      '\x22' :: ['k', ' ', '#'] ++ '\x22' :: [';', '\n'] := by decide
  rw [hliteral, hstring, readLiteral, htri]
  exact strings_straight ⟨by decide, by decide⟩ (by decide) (by decide)

/-- Neither the type nor the argument is what the menu file says. -/
theorem octal_type_and_trigraph :
    (∃ out mbi, main zeroed (joinLines [octalKernel, octalMmap]) = .ok out ∧
      getMultiboot out = some mbi ∧ mbi.mmaps = [⟨24, 0, 1, 8⟩] ∧
      mbi.mmaps ≠ [⟨24, 0, 1, .ofNat (value 10 ['0', '1', '0'])⟩]) ∧
    ∃ out e, main zeroed trigraphKernel = .ok out ∧ entryOf out 0 = some e ∧
      commandLine (lineImage trigraphKernel) (lineArgs trigraphKernel) = ['k', ' ', '?', '?', '='] ∧
      readLiteral e.literal = some (['k', ' ', '#'], [';', '\n']) :=
  ⟨octal_type, trigraph_argument⟩

end Philix.Mbgen
