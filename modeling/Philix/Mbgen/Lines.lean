/-
# The lines of a menu file

`menuLines` is the file cut into lines as `fgets` cuts it, without their newlines; the parse loop
goes over them (`parse_eq`).  What a line does depends on its own fields, `lineCmd`, `lineImage`
and `lineArgs`, and on `offset` and `length`: there is one rule for each command, and `parsed`
says what any line that is accepted does to the modules and the kernel.
-/
import Philix.Mbgen.Generator

namespace Philix.Mbgen

open Scan CLiteral Loop

/-! ## 1. Cutting the file -/

/-- A line without its newline. -/
def chomp (l : List Char) : List Char := l.takeWhile (· ≠ '\n')

/-- The results of `fgets`, up to the end of the file. -/
def readLines (file : List Char) : List (List Char) :=
  if h : (fgets (maxLineSize - 1) file).1 = [] then []
  else (fgets (maxLineSize - 1) file).1 ::
    if (fgets (maxLineSize - 1) file).2.2 then []
    else readLines (fgets (maxLineSize - 1) file).2.1
termination_by file.length
decreasing_by
  have hlen := congrArg List.length (fgets_append (maxLineSize - 1) file)
  have hpos := List.length_pos_iff.mpr h
  rw [List.length_append] at hlen
  omega

def menuLines (file : List Char) : List (List Char) := (readLines file).map chomp

/-- The lines of a text file, put together. -/
def joinLines : List (List Char) → List Char
  | [] => []
  | [l] => l
  | l :: ls => l ++ '\n' :: joinLines ls

/-- A line that `fgets` reads whole, with its newline. -/
def TextLine (l : List Char) : Prop := '\n' ∉ l ∧ '\x00' ∉ l ∧ l.length ≤ 2046

instance (l : List Char) : Decidable (TextLine l) := inferInstanceAs (Decidable (_ ∧ _ ∧ _))

section Cutting

variable {u : Undef} {g : Menu} {n : Nat} {l s file : List Char} {ls : List (List Char)}

theorem chomp_of_not_mem (h : '\n' ∉ l) : chomp l = l := by
  refine List.takeWhile_eq_self_iff.mpr fun c hc => decide_eq_true ?_
  rintro rfl
  exact h hc

theorem chomp_newline (h : '\n' ∉ l) : chomp (l ++ ['\n']) = l := by
  have htake := takeWhile_newline (p := (· ≠ '\n')) (by decide) l
  exact htake.trans (chomp_of_not_mem h)

/-- A line that was read has a newline at its end, or none. -/
theorem fgets_line : ∀ (n : Nat) (s : List Char),
    ∃ l, '\n' ∉ l ∧ ((fgets n s).1 = l ∨ (fgets n s).1 = l ++ ['\n'])
  | 0, _ => ⟨[], List.not_mem_nil, Or.inl rfl⟩
  | _ + 1, [] => ⟨[], List.not_mem_nil, Or.inl rfl⟩
  | n + 1, c :: s => by
    rw [fgets]
    split
    · rename_i hc
      exact ⟨[], List.not_mem_nil, Or.inr (by rw [hc]; rfl)⟩
    · rename_i hc
      obtain ⟨l, hl, h⟩ := fgets_line n s
      refine ⟨c :: l, List.not_mem_cons_of_ne_of_not_mem (Ne.symm hc) hl, ?_⟩
      exact h.imp (congrArg (c :: ·)) (congrArg (c :: ·))

theorem cString_newline (l : List Char) :
    cString (l ++ ['\n']) = cString l ∨ cString (l ++ ['\n']) = cString l ++ ['\n'] := by
  unfold cString
  rw [List.takeWhile_append]
  split
  · rename_i hlen
    right
    have hsame : l.takeWhile (· ≠ '\x00') = l := (List.takeWhile_prefix _).eq_of_length hlen
    rw [hsame]
    rfl
  · exact Or.inl rfl

/-- The newline of a line is not seen. -/
theorem parseLine_newline (u : Undef) (g : Menu) (l : List Char) :
    parseLine u g (l ++ ['\n']) = parseLine u g l := by
  rcases cString_newline l with h | h
  · rw [parseLine, parseLine, h]
  · simp only [parseLine, h, scanLine, parseMmap, sscanf_newline]

theorem parseLine_chomp (u : Undef) (g : Menu) (n : Nat) (s : List Char) :
    parseLine u g (chomp (fgets n s).1) = parseLine u g (fgets n s).1 := by
  obtain ⟨l, hl, h | h⟩ := fgets_line n s
  · rw [h, chomp_of_not_mem hl]
  · rw [h, chomp_newline hl, parseLine_newline]

/-- **The parse loop goes over the lines.** -/
theorem parse_eq (u : Undef) (g : Menu) (file : List Char) :
    parse u g file = (menuLines file).foldlM (parseLine u) g := by
  induction hn : file.length using Nat.strong_induction_on generalizing file g with
  | _ n ih =>
    subst hn
    rw [parse, menuLines, readLines]
    split
    · rfl
    · rename_i hline
      rw [List.map_cons, List.foldlM_cons, parseLine_chomp]
      refine bind_congr fun g => ?_
      split
      · rfl
      · have hlen := congrArg List.length (fgets_append (maxLineSize - 1) file)
        have hpos := List.length_pos_iff.mpr hline
        rw [List.length_append] at hlen
        exact ih _ (by omega) g _ rfl

theorem fgets_newline : ∀ {n : Nat} {l : List Char}, '\n' ∉ l → l.length < n → ∀ s,
    fgets n (l ++ '\n' :: s) = (l ++ ['\n'], s, false)
  | n + 1, [], _, _, s => by
    rw [List.nil_append, fgets, if_pos rfl]
    rfl
  | n + 1, c :: l, h, hn, s => by
    rw [List.mem_cons, not_or] at h
    rw [List.cons_append, fgets, if_neg (Ne.symm h.1),
      fgets_newline h.2 (Nat.lt_of_succ_lt_succ hn)]
    rfl

theorem fgets_last : ∀ {n : Nat} {l : List Char}, '\n' ∉ l → l.length ≤ n →
    (fgets n l).1 = l ∧ (fgets n l).2.1 = []
  | 0, l, _, hn => by
    obtain rfl := List.length_eq_zero_iff.mp (Nat.le_zero.mp hn)
    exact ⟨rfl, rfl⟩
  | n + 1, [], _, _ => ⟨rfl, rfl⟩
  | n + 1, c :: l, h, hn => by
    rw [List.mem_cons, not_or] at h
    obtain ⟨hline, hrest⟩ := fgets_last h.2 (Nat.le_of_succ_le_succ hn)
    rw [fgets, if_neg (Ne.symm h.1)]
    exact ⟨congrArg (c :: ·) hline, hrest⟩

theorem readLines_nil : readLines [] = [] := by
  have hget : (fgets (maxLineSize - 1) []).1 = [] := rfl
  rw [readLines, dif_pos hget]

/-- The last line, without a newline behind it. -/
theorem menuLines_last (h : '\n' ∉ l) (hn : l.length ≤ 2047) (hne : l ≠ []) :
    menuLines l = [l] := by
  obtain ⟨hline, hrest⟩ :
      (fgets (maxLineSize - 1) l).1 = l ∧ (fgets (maxLineSize - 1) l).2.1 = [] := fgets_last h hn
  have hread : readLines l = [l] := by
    rw [readLines, hline, hrest, dif_neg hne, readLines_nil, ite_self]
  rw [menuLines, hread, List.map_singleton, chomp_of_not_mem h]

theorem menuLines_cons (h : '\n' ∉ l) (hn : l.length ≤ 2046) (s : List Char) :
    menuLines (l ++ '\n' :: s) = l :: menuLines s := by
  have hget : fgets (maxLineSize - 1) (l ++ '\n' :: s) = (l ++ ['\n'], s, false) :=
    fgets_newline h (Nat.lt_succ_of_le hn) s
  have hne : l ++ ['\n'] ≠ [] := by simp
  have hread : readLines (l ++ '\n' :: s) = (l ++ ['\n']) :: readLines s := by
    rw [readLines, hget, dif_neg hne]
    rfl
  rw [menuLines, hread, List.map_cons, chomp_newline h, menuLines]

theorem menuLines_newline (hl : l ∈ menuLines file) : '\n' ∉ l := by
  obtain ⟨s, -, rfl⟩ := List.mem_map.mp hl
  intro hmem
  exact absurd (List.mem_takeWhile_imp hmem) (by decide)

/-- **A text file of short lines is read line by line.** -/
theorem parse_joinLines (u : Undef) (h : ∀ l ∈ ls, TextLine l) (g : Menu) :
    parse u g (joinLines ls) = ls.foldlM (parseLine u) g := by
  rw [parse_eq]
  induction ls generalizing g with
  | nil =>
    rw [joinLines, menuLines, readLines_nil]
    rfl
  | cons l ls ih =>
    obtain ⟨hnl, -, hlen⟩ := h l List.mem_cons_self
    cases ls with
    | nil =>
      rw [joinLines]
      by_cases hne : l = []
      · rw [hne, menuLines, readLines_nil]
        rfl
      · rw [menuLines_last hnl (Nat.le_succ_of_le hlen) hne]
    | cons l' ls =>
      rw [joinLines, menuLines_cons hnl hlen, List.foldlM_cons, List.foldlM_cons]
      · exact bind_congr fun g => ih (fun l hl => h l (List.mem_cons_of_mem _ hl)) g
      · exact List.cons_ne_nil l' ls

end Cutting

/-! ## 2. The fields of a line -/

def textOf : Option Value → List Char
  | some (.text s) => s
  | _ => []

/-- The values of the first scan. -/
def scanned (l : List Char) : List Value := sscanf menuFormat (cString l)

def lineCmd (l : List Char) : List Char := textOf (scanned l)[0]?
def lineImage (l : List Char) : List Char := textOf (scanned l)[1]?
def lineArgs (l : List Char) : List Char := textOf (scanned l)[4]?

/-- The texts of the line fit their buffers. -/
def Fits (l : List Char) : Prop :=
  (lineCmd l).length < maxCmdSize ∧ (lineImage l).length < maxImageSize ∧
    (lineArgs l).length < maxArgsSize

instance (l : List Char) : Decidable (Fits l) := inferInstanceAs (Decidable (_ ∧ _ ∧ _))

/-- The `offset` that the line gives, if `n` is the one before. -/
def lineOffset (l : List Char) (n : UInt64) : UInt64 := ulongOr (scanned l)[2]? n
def lineLength (l : List Char) (n : UInt64) : UInt64 := ulongOr (scanned l)[3]? n

/-- The module or kernel of the line. -/
def lineModule (g : Menu) (l : List Char) : Module :=
  ⟨(lineOffset l g.offset).toUInt32, (lineLength l g.length).toUInt32,
    commandLine (lineImage l) (lineArgs l)⟩

section Fields

variable {u : Undef} {g g' : Menu} {l : List Char}

theorem textOf_newline {cs : List Conv} {s : List Char} (n : Nat) :
    '\n' ∉ textOf (sscanf cs s)[n]? := by
  cases h : (sscanf cs s)[n]? with
  | none => exact List.not_mem_nil
  | some v =>
    cases v with
    | text t => exact sscanf_text_newline (List.mem_of_getElem? h)
    | ulong n => exact List.not_mem_nil
    | int n => exact List.not_mem_nil

theorem commandLine_newline (l : List Char) : '\n' ∉ commandLine (lineImage l) (lineArgs l) := by
  rw [commandLine, List.mem_append, List.mem_cons, not_or, not_or]
  exact ⟨textOf_newline 1, by decide, textOf_newline 4⟩

theorem store_nil_eq (size : Nat) (v : Option Value) (hpos : 0 < size) :
    store size v [] = if (textOf v).length < size then .ok (textOf v) else .error .overflow := by
  have hnil : ([] : List Char).length < size := hpos
  match v with
  | some (.text s) => rfl
  | some (.ulong n) => exact (if_pos hnil).symm
  | some (.int n) => exact (if_pos hnil).symm
  | none => exact (if_pos hnil).symm

/-- **The first scan of a line.** -/
theorem scanLine_eq (offset length : UInt64) (l : List Char) :
    scanLine offset length (cString l) =
      if Fits l then .ok ⟨lineCmd l, lineImage l, lineOffset l offset, lineLength l length,
        lineArgs l⟩
      else .error .overflow := by
  have hcmd : store maxCmdSize (sscanf menuFormat (cString l))[0]? [] =
      if (lineCmd l).length < maxCmdSize then .ok (lineCmd l) else .error .overflow :=
    store_nil_eq _ _ (by decide)
  have himage : store maxImageSize (sscanf menuFormat (cString l))[1]? [] =
      if (lineImage l).length < maxImageSize then .ok (lineImage l) else .error .overflow :=
    store_nil_eq _ _ (by decide)
  have hargs : store maxArgsSize (sscanf menuFormat (cString l))[4]? [] =
      if (lineArgs l).length < maxArgsSize then .ok (lineArgs l) else .error .overflow :=
    store_nil_eq _ _ (by decide)
  rw [scanLine, hcmd, himage, hargs]
  by_cases h1 : (lineCmd l).length < maxCmdSize
  · by_cases h2 : (lineImage l).length < maxImageSize
    · by_cases h3 : (lineArgs l).length < maxArgsSize
      · rw [if_pos h1, if_pos h2, if_pos h3, if_pos (show Fits l from ⟨h1, h2, h3⟩)]
        rfl
      · rw [if_pos h1, if_pos h2, if_neg h3, if_neg fun h : Fits l => h3 h.2.2]
        rfl
    · rw [if_pos h1, if_neg h2, if_neg fun h : Fits l => h2 h.2.1]
      rfl
  · rw [if_neg h1, if_neg fun h : Fits l => h1 h.1]
    rfl

/-- The fields that outlive a line, after the first scan. -/
def afterScan (g : Menu) (l : List Char) : Menu :=
  { g with offset := lineOffset l g.offset, length := lineLength l g.length }

/-- A kernel line. -/
theorem parseLine_kernel (hfits : Fits l) (hcmd : lineCmd l = kernelCmd) :
    parseLine u g l = .ok { afterScan g l with
      kernelLength := (lineModule g l).length
      kernelOffset := (lineModule g l).offset
      kernelCmdLine := some (lineModule g l).cmdLine } := by
  rw [parseLine, scanLine_eq, if_pos hfits, ok_bind, if_pos hcmd]
  rfl

/-- A module line. -/
theorem parseLine_module (hfits : Fits l) (hcmd : lineCmd l = moduleCmd) :
    parseLine u g l = if g.modules.length < maxModules then
        .ok { afterScan g l with modules := g.modules ++ [lineModule g l] }
      else .error .tooManyModules := by
  have hkernel : ¬ lineCmd l = kernelCmd := by
    rw [hcmd]
    decide
  rw [parseLine, scanLine_eq, if_pos hfits, ok_bind, if_neg hkernel, if_pos hcmd]
  rfl

/-- A line with another command, or none. -/
theorem parseLine_other (hfits : Fits l) (hkernel : lineCmd l ≠ kernelCmd)
    (hmodule : lineCmd l ≠ moduleCmd) (hmmap : lineCmd l ≠ mmapCmd) :
    parseLine u g l = .ok (afterScan g l) := by
  rw [parseLine, scanLine_eq, if_pos hfits, ok_bind, if_neg hkernel, if_neg hmodule, if_neg hmmap]
  rfl

/-- The `mmap` format starts as the other one does. -/
theorem sscanf_mmap_texts (s : List Char) :
    (sscanf mmapFormat s)[0]? = (sscanf menuFormat s)[0]? ∧
      (sscanf mmapFormat s)[1]? = (sscanf menuFormat s)[1]? := by
  rw [mmapFormat, menuFormat, sscanf, sscanf]
  cases convert .str s with
  | none => exact ⟨rfl, rfl⟩
  | some x =>
    dsimp only
    rw [sscanf, sscanf]
    cases convert .str x.2 with
    | none => exact ⟨rfl, rfl⟩
    | some y => exact ⟨rfl, rfl⟩

theorem store_of_lt {size : Nat} {v : Option Value} {old : List Char}
    (h : (textOf v).length < size) : ∃ s, store size v old = .ok s := by
  match v, h with
  | some (.text s), h => exact ⟨s, if_pos h⟩
  | some (.ulong n), _ => exact ⟨old, rfl⟩
  | some (.int n), _ => exact ⟨old, rfl⟩
  | none, _ => exact ⟨old, rfl⟩

/-- The values of the second scan of an `mmap` line. -/
def mmapScanned (l : List Char) : List Value := sscanf mmapFormat (cString l)

def mmapBaseOf (g : Menu) (l : List Char) : UInt64 :=
  ulongOr (mmapScanned l)[2]? (lineOffset l g.offset)

def mmapLengthOf (g : Menu) (l : List Char) : UInt64 :=
  ulongOr (mmapScanned l)[3]? (lineLength l g.length)

/-- The type, from the second scan and then from the third. -/
def mmapTypeOf (u : Undef) (g : Menu) (l : List Char) : Int :=
  intOr (sscanf typeFormat (lineArgs l))[0]? (intOr (mmapScanned l)[4]? (u.type g.nMmaps))

/-- An `mmap` line.  The buffers that hold its texts hold them again. -/
theorem parseLine_mmap (hfits : Fits l) (hcmd : lineCmd l = mmapCmd) :
    parseLine u g l = .ok { g with
      offset := mmapBaseOf g l
      length := mmapLengthOf g l
      nMmaps := g.nMmaps + 1
      out := g.out ++ [.mmapArray (printInt g.nMmaps) (printHex (mmapBaseOf g l).toNat)
        (printHex (mmapLengthOf g l).toNat) (printInt (mmapTypeOf u g l))] } := by
  have hkernel : ¬ lineCmd l = kernelCmd := by
    rw [hcmd]
    decide
  have hmodule : ¬ lineCmd l = moduleCmd := by
    rw [hcmd]
    decide
  obtain ⟨htext0, htext1⟩ := sscanf_mmap_texts (cString l)
  obtain ⟨s, hs⟩ :
      ∃ s, store maxCmdSize (sscanf mmapFormat (cString l))[0]? (lineCmd l) = .ok s :=
    store_of_lt (htext0 ▸ hfits.1)
  obtain ⟨t, ht⟩ :
      ∃ t, store maxImageSize (sscanf mmapFormat (cString l))[1]? (lineImage l) = .ok t :=
    store_of_lt (htext1 ▸ hfits.2.1)
  rw [parseLine, scanLine_eq, if_pos hfits, ok_bind, if_neg hkernel, if_neg hmodule, if_pos hcmd,
    parseMmap, hs, ht]
  rfl

theorem parseLine_unfit (h : ¬ Fits l) : parseLine u g l = .error .overflow := by
  rw [parseLine, scanLine_eq, if_neg h]
  rfl

end Fields

/-! ## 3. What an accepted line does -/

/-- The kernel, if there was a line for it. -/
def kernelOf (g : Menu) : Option Module :=
  g.kernelCmdLine.map fun cmdLine => ⟨g.kernelOffset, g.kernelLength, cmdLine⟩

def IsMmapArray (s : Stmt) : Prop := ∃ i base length type, s = .mmapArray i base length type

/-- The effect of a line on the modules, the kernel and the output. -/
structure Parsed (g : Menu) (l : List Char) (g' : Menu) : Prop where
  fits : Fits l
  modules : g'.modules = g.modules ++ if lineCmd l = moduleCmd then [lineModule g l] else []
  kernel : kernelOf g' = if lineCmd l = kernelCmd then some (lineModule g l) else kernelOf g
  out : ∀ s ∈ g'.out, s ∈ g.out ∨ IsMmapArray s

section Run

variable {u : Undef} {g g' : Menu} {l : List Char} {ls : List (List Char)}

theorem parsed (h : parseLine u g l = .ok g') : Parsed g l g' := by
  by_cases hfits : Fits l
  · by_cases hkernel : lineCmd l = kernelCmd
    · have hmodule : lineCmd l ≠ moduleCmd := by
        rw [hkernel]
        decide
      rw [parseLine_kernel hfits hkernel] at h
      obtain rfl := Except.ok.inj h
      exact ⟨hfits, by rw [if_neg hmodule, List.append_nil]; rfl, by rw [if_pos hkernel]; rfl,
        fun s hs => Or.inl hs⟩
    by_cases hmodule : lineCmd l = moduleCmd
    · rw [parseLine_module hfits hmodule] at h
      split at h
      · obtain rfl := Except.ok.inj h
        exact ⟨hfits, by rw [if_pos hmodule], by rw [if_neg hkernel]; rfl, fun s hs => Or.inl hs⟩
      · cases h
    by_cases hmmap : lineCmd l = mmapCmd
    · rw [parseLine_mmap hfits hmmap] at h
      obtain rfl := Except.ok.inj h
      refine ⟨hfits, by rw [if_neg hmodule, List.append_nil], by rw [if_neg hkernel]; rfl, ?_⟩
      intro s hs
      rcases List.mem_append.mp hs with hs | hs
      · exact Or.inl hs
      · exact Or.inr ⟨_, _, _, _, List.mem_singleton.mp hs⟩
    · rw [parseLine_other hfits hkernel hmodule hmmap] at h
      obtain rfl := Except.ok.inj h
      exact ⟨hfits, by rw [if_neg hmodule, List.append_nil]; rfl, by rw [if_neg hkernel]; rfl,
        fun s hs => Or.inl hs⟩
  · rw [parseLine_unfit hfits] at h
    cases h

/-- How many module lines there are. -/
def moduleLines (ls : List (List Char)) : Nat := ls.countP fun l => lineCmd l = moduleCmd

/-- A run adds one module for each module line. -/
theorem run_modules (h : ls.foldlM (parseLine u) g = .ok g') :
    g.modules <+: g'.modules ∧ g'.modules.length = g.modules.length + moduleLines ls := by
  induction ls generalizing g with
  | nil =>
    obtain rfl := Except.ok.inj h
    exact ⟨List.prefix_rfl, rfl⟩
  | cons l ls ih =>
    rw [List.foldlM_cons] at h
    obtain ⟨g₁, hline, hrest⟩ := bind_eq_ok_iff.mp h
    obtain ⟨hlead, hlen⟩ := ih hrest
    have hmodules := (parsed hline).modules
    refine ⟨(List.prefix_append _ _).trans (hmodules ▸ hlead), ?_⟩
    rw [hlen, hmodules, moduleLines, moduleLines, List.countP_cons, List.length_append]
    by_cases hmodule : lineCmd l = moduleCmd
    · simp only [hmodule, decide_true, if_true, List.length_singleton]
      omega
    · simp only [hmodule, decide_false, if_false, List.length_nil, Bool.false_eq_true]
      omega

theorem parseLine_ok_iff : (∃ g', parseLine u g l = .ok g') ↔
    Fits l ∧ (lineCmd l = moduleCmd → g.modules.length < maxModules) := by
  constructor
  · rintro ⟨g', h⟩
    have hfits := (parsed h).fits
    refine ⟨hfits, fun hmodule => ?_⟩
    rw [parseLine_module hfits hmodule] at h
    split at h
    · assumption
    · cases h
  · rintro ⟨hfits, hroom⟩
    by_cases hkernel : lineCmd l = kernelCmd
    · exact ⟨_, parseLine_kernel hfits hkernel⟩
    by_cases hmodule : lineCmd l = moduleCmd
    · exact ⟨_, (parseLine_module hfits hmodule).trans (if_pos (hroom hmodule))⟩
    by_cases hmmap : lineCmd l = mmapCmd
    · exact ⟨_, parseLine_mmap hfits hmmap⟩
    · exact ⟨_, parseLine_other hfits hkernel hmodule hmmap⟩

theorem moduleLines_cons (l : List Char) (ls : List (List Char)) :
    moduleLines (l :: ls) = moduleLines ls + if lineCmd l = moduleCmd then 1 else 0 := by
  rw [moduleLines, moduleLines, List.countP_cons]
  simp only [decide_eq_true_eq]

/-- **Which runs are accepted**: the texts of every line fit, and there are not too many modules. -/
theorem run_ok_iff (hmax : g.modules.length ≤ maxModules) :
    (∃ g', ls.foldlM (parseLine u) g = .ok g') ↔
      (∀ l ∈ ls, Fits l) ∧ g.modules.length + moduleLines ls ≤ maxModules := by
  induction ls generalizing g with
  | nil => exact ⟨fun _ => ⟨by simp, hmax⟩, fun _ => ⟨g, rfl⟩⟩
  | cons l ls ih =>
    rw [moduleLines_cons, List.forall_mem_cons, List.foldlM_cons]
    constructor
    · rintro ⟨g', h⟩
      obtain ⟨g₁, hline, hrest⟩ := bind_eq_ok_iff.mp h
      obtain ⟨hfits, hroom⟩ := parseLine_ok_iff.mp ⟨g₁, hline⟩
      have hlen := congrArg List.length (parsed hline).modules
      rw [List.length_append] at hlen
      by_cases hmodule : lineCmd l = moduleCmd
      · rw [if_pos hmodule, List.length_singleton] at hlen
        obtain ⟨hall, hcount⟩ := (ih (by have := hroom hmodule; omega)).mp ⟨g', hrest⟩
        exact ⟨⟨hfits, hall⟩, by rw [if_pos hmodule]; omega⟩
      · rw [if_neg hmodule, List.length_nil] at hlen
        obtain ⟨hall, hcount⟩ := (ih (by omega)).mp ⟨g', hrest⟩
        exact ⟨⟨hfits, hall⟩, by rw [if_neg hmodule]; omega⟩
    · rintro ⟨⟨hfits, hall⟩, hcount⟩
      have hroom : lineCmd l = moduleCmd → g.modules.length < maxModules := by
        intro hmodule
        rw [if_pos hmodule] at hcount
        omega
      obtain ⟨g₁, hline⟩ := parseLine_ok_iff.mpr ⟨hfits, hroom⟩
      have hlen := congrArg List.length (parsed hline).modules
      rw [List.length_append] at hlen
      have hcount₁ : g₁.modules.length + moduleLines ls ≤ maxModules := by
        by_cases hmodule : lineCmd l = moduleCmd
        · rw [if_pos hmodule, List.length_singleton] at hlen
          rw [if_pos hmodule] at hcount
          omega
        · rw [if_neg hmodule, List.length_nil] at hlen
          rw [if_neg hmodule] at hcount
          omega
      obtain ⟨g', hrest⟩ := (ih (by omega)).mpr ⟨hall, hcount₁⟩
      exact ⟨g', bind_eq_ok_iff.mpr ⟨g₁, hline, hrest⟩⟩

/-- A run without kernel lines keeps the kernel. -/
theorem run_kernel (h : ls.foldlM (parseLine u) g = .ok g')
    (hno : ∀ l ∈ ls, lineCmd l ≠ kernelCmd) : kernelOf g' = kernelOf g := by
  induction ls generalizing g with
  | nil =>
    obtain rfl := Except.ok.inj h
    rfl
  | cons l ls ih =>
    rw [List.foldlM_cons] at h
    obtain ⟨g₁, hline, hrest⟩ := bind_eq_ok_iff.mp h
    rw [ih hrest fun l hl => hno l (List.mem_cons_of_mem _ hl), (parsed hline).kernel,
      if_neg (hno l List.mem_cons_self)]

/-- The parse loop writes the arrays of the memory map and nothing else. -/
theorem run_out (h : ls.foldlM (parseLine u) g = .ok g') (hout : ∀ s ∈ g.out, IsMmapArray s) :
    ∀ s ∈ g'.out, IsMmapArray s := by
  induction ls generalizing g with
  | nil =>
    obtain rfl := Except.ok.inj h
    exact hout
  | cons l ls ih =>
    rw [List.foldlM_cons] at h
    obtain ⟨g₁, hline, hrest⟩ := bind_eq_ok_iff.mp h
    exact ih hrest fun s hs => ((parsed hline).out s hs).elim (hout s) id

end Run

end Philix.Mbgen
