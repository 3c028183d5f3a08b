/-
# Entries and the lines before them

`offset` and `length` are the only variables of the parse loop that a line does not reset.  Where
the scan of a kernel or module line stops before both are converted, its entry is built from what
an earlier line, of any command, has left in them, or from what the uninitialised variables
hold.  `Converts` is the condition under which this cannot happen.

Whether a line has an entry depends on its own texts, and on the other lines only within `Allows`:
the generator stops at a text that does not fit, at module line `MAX_MODULES + 1` and in a file
without a kernel line, and of two kernel lines it takes the second.
-/
import Philix.Mbgen.Entries
import Philix.Mbgen.MenuFile

namespace Philix.Mbgen

open Scan CLiteral Loop

/-- The scan of the line gets as far as `LENGTH`. -/
def Converts (l : List Char) : Prop :=
  ∃ o n, (scanned l)[2]? = some (.ulong o) ∧ (scanned l)[3]? = some (.ulong n)

/-- What the lines of a file keep to where line `k` has an entry, unless its own texts do not
fit. -/
structure Allows (ls : List (List Char)) (k : Nat) : Prop where
  fits : ∀ i l, i ≠ k → ls[i]? = some l → Fits l
  modules : moduleLines ls ≤ maxModules
  kernel : ¬ NoKernel ls
  last : ∀ l, ls[k]? = some l → lineCmd l = kernelCmd → NoKernel (ls.drop (k + 1))

section Stale

variable {l : List Char}

theorem ulongOr_cases (v : Option Value) :
    (∃ n, v = some (.ulong n)) ∨ ∀ old, ulongOr v old = old := by
  match v with
  | some (.ulong n) => exact Or.inl ⟨n, rfl⟩
  | some (.text s) => exact Or.inr fun _ => rfl
  | some (.int n) => exact Or.inr fun _ => rfl
  | none => exact Or.inr fun _ => rfl

@[simp] theorem ulongOr_some (n old : UInt64) : ulongOr (some (.ulong n)) old = n := rfl

/-- The entry of a line that converts both numbers is the same in every state. -/
theorem lineModule_of_converts (h : Converts l) (g g' : Menu) :
    lineModule g l = lineModule g' l := by
  obtain ⟨o, n, ho, hn⟩ := h
  simp only [lineModule, lineOffset, lineLength, ho, hn, ulongOr_some]

theorem printHex_inj {m n : Nat} (h : printHex m = printHex n) : m = n := by
  rw [← value_printHex m, h, value_printHex]

/-- A line that does not shows in its entry which state it is parsed in. -/
theorem entry_ne_of_not_converts (h : ¬ Converts l) {g₀ g₁ : Menu} (ho₀ : g₀.offset = 0)
    (hn₀ : g₀.length = 0) (ho₁ : g₁.offset = 1) (hn₁ : g₁.length = 1) :
    (lineModule g₀ l).entry ≠ (lineModule g₁ l).entry := by
  intro heq
  have hstart := printHex_inj (congrArg Entry.start heq)
  have hstop := printHex_inj (congrArg Entry.stop heq)
  simp only [lineModule, lineOffset, lineLength, ho₀, hn₀, ho₁, hn₁] at hstart hstop
  rcases ulongOr_cases (scanned l)[2]? with ⟨o, ho⟩ | ho
  · rcases ulongOr_cases (scanned l)[3]? with ⟨n, hn⟩ | hn
    · exact h ⟨o, n, ho, hn⟩
    · -- the same start, and ends one apart
      simp only [ho, hn, ulongOr_some] at hstop
      have hsum : o.toUInt32 + (0 : UInt64).toUInt32 = o.toUInt32 + (1 : UInt64).toUInt32 :=
        UInt32.toNat_inj.mp hstop
      exact absurd ((UInt32.add_right_inj _).mp hsum) (by decide)
  · rw [ho, ho] at hstart
    exact absurd hstart (by decide)

/-- **Which lines have an entry**: those whose texts fit, in files that allow for it. -/
theorem lineEntry_isSome_iff_allows {u : Undef} {file : List Char} {k : Nat}
    (hl : (menuLines file)[k]? = some l) (hcmd : lineCmd l = kernelCmd ∨ lineCmd l = moduleCmd) :
    (∃ e, lineEntry u file k = some e) ↔ Fits l ∧ Allows (menuLines file) k := by
  rw [lineEntry_isSome_iff hl hcmd, main_ok_iff]
  constructor
  · rintro ⟨⟨hall, hmodules, hkernel⟩, hlast⟩
    refine ⟨hall l (List.mem_of_getElem? hl), ⟨?_, hmodules, hkernel, ?_⟩⟩
    · exact fun i l' _ hl' => hall l' (List.mem_of_getElem? hl')
    · intro l' hl' hk
      obtain rfl := Option.some.inj (hl.symm.trans hl')
      exact hlast hk
  · rintro ⟨hfits, hallows⟩
    refine ⟨⟨fun l' hl' => ?_, hallows.modules, hallows.kernel⟩, hallows.last l hl⟩
    obtain ⟨i, hi⟩ := List.mem_iff_getElem?.mp hl'
    by_cases hik : i = k
    · subst hik
      obtain rfl := Option.some.inj (hl.symm.trans hi)
      exact hfits
    · exact hallows.fits i l' hik hi

end Stale

/-! ## 1. Two files for one line -/

/-- A kernel line that leaves `0`, or `1`, in both variables. -/
def kernelLine (d : Char) : List Char := kernelCmd ++ [' ', 'k', ' ', d, ' ', d]

section Files

variable {u : Undef} {l : List Char} {d : Char} {n : UInt64}

theorem parseLine_kernelLine (h : scanned (kernelLine d) =
      [.text kernelCmd, .text ['k'], .ulong n, .ulong n]) (g : Menu) :
    ∃ g', parseLine u g (kernelLine d) = .ok g' ∧ g'.offset = n ∧ g'.length = n ∧
      g'.modules = g.modules := by
  have hfits : Fits (kernelLine d) := by
    unfold Fits lineCmd lineImage lineArgs
    rw [h]
    exact ⟨(by decide : kernelCmd.length < maxCmdSize), (by decide : ['k'].length < maxImageSize),
      (by decide : ([] : List Char).length < maxArgsSize)⟩
  have hcmd : lineCmd (kernelLine d) = kernelCmd := by
    rw [lineCmd, h]
    rfl
  refine ⟨_, parseLine_kernel hfits hcmd, ?_, ?_, rfl⟩
  · rw [afterScan, lineOffset, h]
    rfl
  · rw [afterScan, lineLength, h]
    rfl

/-- The last of the two lines has an entry. -/
theorem lineIndex_behind (hcmd : lineCmd l = kernelCmd ∨ lineCmd l = moduleCmd)
    (l₀ : List Char) : ∃ i, lineIndex [l₀, l] 1 = some i := by
  rcases hcmd with hcmd | hcmd
  · have hmodule : ¬ lineCmd l = moduleCmd := by
      rw [hcmd]
      decide
    exact ⟨0, (if_neg hmodule).trans (if_pos ⟨hcmd, by simp [NoKernel]⟩)⟩
  · exact ⟨_, if_pos hcmd⟩

/-- Behind such a line, the line has an entry. -/
theorem lineEntry_behind (hnl : '\n' ∉ l) (hlen : l.length ≤ 2047) (hfits : Fits l)
    (hcmd : lineCmd l = kernelCmd ∨ lineCmd l = moduleCmd)
    (h : scanned (kernelLine d) = [.text kernelCmd, .text ['k'], .ulong n, .ulong n])
    (hline : '\n' ∉ kernelLine d) :
    ∃ g, g.offset = n ∧ g.length = n ∧
      (menuLines (kernelLine d ++ '\n' :: l))[1]? = some l ∧
      lineEntry u (kernelLine d ++ '\n' :: l) 1 = some (lineModule g l).entry := by
  have hfirst : lineCmd (kernelLine d) = kernelCmd := by
    rw [lineCmd, h]
    rfl
  have hne : l ≠ [] := by
    rintro rfl
    exact absurd hcmd (by decide)
  have hlines : menuLines (kernelLine d ++ '\n' :: l) = [kernelLine d, l] := by
    rw [menuLines_cons hline (by decide : 12 ≤ 2046), menuLines_last hnl hlen hne]
  obtain ⟨g, hg, ho, hn, hmodules⟩ := parseLine_kernelLine h (start u)
  obtain ⟨g', hg'⟩ : ∃ g', parseLine u g l = .ok g' := by
    rcases hcmd with hcmd | hcmd
    · exact ⟨_, parseLine_kernel hfits hcmd⟩
    · have hroom : g.modules.length < maxModules := by
        rw [hmodules]
        exact (by decide : ([] : List Module).length < maxModules)
      exact ⟨_, (parseLine_module hfits hcmd).trans (if_pos hroom)⟩
  obtain ⟨kernel, hkernel⟩ : ∃ kernel, kernelOf g' = some kernel := by
    rw [(parsed hg').kernel, (parsed hg).kernel, if_pos hfirst]
    split
    · exact ⟨_, rfl⟩
    · exact ⟨_, rfl⟩
  obtain ⟨i, hi⟩ := lineIndex_behind hcmd (kernelLine d)
  have hrun : [kernelLine d, l].foldlM (parseLine u) (start u) = .ok g' := by
    rw [List.foldlM_cons, hg, ok_bind, List.foldlM_cons, hg']
    rfl
  obtain ⟨g₀, hbefore, -, hget⟩ := run_entry hrun rfl hi hkernel
  have hsame : g₀ = g := by
    rw [List.take_succ_cons, List.take_zero, List.foldlM_cons, hg] at hbefore
    exact (Except.ok.inj hbefore).symm
  refine ⟨g, ho, hn, by rw [hlines]; rfl, ?_⟩
  rw [lineEntry_eq hlines hrun hkernel hi, hget, hsame]
  rfl

end Files

/-! ## 2. When entries are independent of the other lines -/

/-- **The entry of a kernel or module line is the same in all files** that have the line, or there
is none in all of them, exactly when its scan converts both `OFFSET` and `LENGTH` (or its texts do
not fit); the files are those whose other lines allow for an entry, and in these the line has one
if and only if its texts fit. -/
theorem entry_independent_iff {l : List Char} (hnl : '\n' ∉ l) (hlen : l.length ≤ 2047)
    (hcmd : lineCmd l = kernelCmd ∨ lineCmd l = moduleCmd) :
    ((∀ u u' file file' k k', (menuLines file)[k]? = some l → (menuLines file')[k']? = some l →
      Allows (menuLines file) k → Allows (menuLines file') k' →
      lineEntry u file k = lineEntry u' file' k') ↔ (Fits l → Converts l)) ∧
    ∀ u file k, (menuLines file)[k]? = some l →
      ((∃ e, lineEntry u file k = some e) ↔ Fits l ∧ Allows (menuLines file) k) := by
  refine ⟨⟨?_, ?_⟩, fun u file k hl => lineEntry_isSome_iff_allows hl hcmd⟩
  · intro h hfits
    by_contra hno
    obtain ⟨g₀, ho₀, hn₀, hl₀, he₀⟩ := lineEntry_behind (u := zeroed) (d := '0') (n := 0) hnl hlen
      hfits hcmd (by decide) (by decide)
    obtain ⟨g₁, ho₁, hn₁, hl₁, he₁⟩ := lineEntry_behind (u := zeroed) (d := '1') (n := 1) hnl hlen
      hfits hcmd (by decide) (by decide)
    have hallows₀ := ((lineEntry_isSome_iff_allows hl₀ hcmd).mp ⟨_, he₀⟩).2
    have hallows₁ := ((lineEntry_isSome_iff_allows hl₁ hcmd).mp ⟨_, he₁⟩).2
    have hsame := h zeroed zeroed _ _ 1 1 hl₀ hl₁ hallows₀ hallows₁
    rw [he₀, he₁, Option.some.injEq] at hsame
    exact entry_ne_of_not_converts hno ho₀ hn₀ ho₁ hn₁ hsame
  · intro h u u' file file' k k' hl hl' hallows hallows'
    by_cases hfits : Fits l
    · obtain ⟨e, he⟩ := (lineEntry_isSome_iff_allows (u := u) hl hcmd).mpr ⟨hfits, hallows⟩
      obtain ⟨e', he'⟩ := (lineEntry_isSome_iff_allows (u := u') hl' hcmd).mpr ⟨hfits, hallows'⟩
      obtain ⟨g, -, -, rfl⟩ := lineEntry_eq_some hl he
      obtain ⟨g', -, -, rfl⟩ := lineEntry_eq_some hl' he'
      rw [he, he', lineModule_of_converts (h hfits) g g']
    · have hnone : ∀ u file k, (menuLines file)[k]? = some l → lineEntry u file k = none := by
        intro u file k hl
        by_contra hne
        obtain ⟨e, he⟩ := Option.ne_none_iff_exists'.mp hne
        exact hfits ((lineEntry_isSome_iff_allows hl hcmd).mp ⟨e, he⟩).1
      rw [hnone u file k hl, hnone u' file' k' hl']

/-- A well-formed line is such a line. -/
theorem EntryLine.converts (e : EntryLine) (hnul : '\x00' ∉ e.text) : Converts e.text := by
  refine ⟨toULong false (value 10 e.offset), toULong false (value 10 e.length), ?_, ?_⟩
  · rw [e.scanned_text hnul]
    rfl
  · rw [e.scanned_text hnul]
    rfl

/-- `module a 0 1` -/
def pairLine : List Char := moduleCmd ++ [' ', 'a', ' ', '0', ' ', '1']

/-- It has the same entry behind each of the two kernel lines. -/
theorem entry_independent_module :
    Converts pairLine ∧ ∃ e, lineEntry zeroed (kernelLine '0' ++ '\n' :: pairLine) 1 = some e ∧
      lineEntry zeroed (kernelLine '1' ++ '\n' :: pairLine) 1 = some e := by
  have hconverts : Converts pairLine := ⟨0, 1, by decide, by decide⟩
  obtain ⟨hsame, hsome⟩ := entry_independent_iff (l := pairLine) (by decide) (by decide) (by decide)
  obtain ⟨g₀, -, -, hl₀, he₀⟩ := lineEntry_behind (u := zeroed) (l := pairLine) (d := '0') (n := 0)
    (by decide) (by decide) (by decide) (by decide) (by decide) (by decide)
  obtain ⟨g₁, -, -, hl₁, he₁⟩ := lineEntry_behind (u := zeroed) (l := pairLine) (d := '1') (n := 1)
    (by decide) (by decide) (by decide) (by decide) (by decide) (by decide)
  have hallows₀ := ((hsome zeroed _ 1 hl₀).mp ⟨_, he₀⟩).2
  have hallows₁ := ((hsome zeroed _ 1 hl₁).mp ⟨_, he₁⟩).2
  refine ⟨hconverts, _, he₀, ?_⟩
  rw [← he₀]
  exact (hsame.mpr (fun _ => hconverts) zeroed zeroed _ _ 1 1 hl₀ hl₁ hallows₀ hallows₁).symm

/-- The module line `module a` in two files that differ in their kernel line: its entry has the
numbers of the kernel. -/
theorem module_takes_kernel_numbers :
    lineEntry zeroed (kernelLine '0' ++ '\n' :: (moduleCmd ++ [' ', 'a'])) 1 =
      some ⟨['0'], ['0'], quoted ['a', ' ']⟩ ∧
    lineEntry zeroed (kernelLine '1' ++ '\n' :: (moduleCmd ++ [' ', 'a'])) 1 =
      some ⟨['1'], ['2'], quoted ['a', ' ']⟩ := by
  have hscan : scanned (moduleCmd ++ [' ', 'a']) = [.text moduleCmd, .text ['a']] := by decide
  have hmodule : ∀ g : Menu, lineModule g (moduleCmd ++ [' ', 'a']) =
      ⟨g.offset.toUInt32, g.length.toUInt32, ['a', ' ']⟩ := by
    intro g
    unfold lineModule lineOffset lineLength lineImage lineArgs
    rw [hscan]
    rfl
  constructor
  · obtain ⟨g, ho, hn, -, he⟩ := lineEntry_behind (u := zeroed) (l := moduleCmd ++ [' ', 'a'])
      (d := '0') (n := 0) (by decide) (by decide) (by decide) (by decide) (by decide) (by decide)
    rw [he, hmodule, ho, hn]
    rfl
  · obtain ⟨g, ho, hn, -, he⟩ := lineEntry_behind (u := zeroed) (l := moduleCmd ++ [' ', 'a'])
      (d := '1') (n := 1) (by decide) (by decide) (by decide) (by decide) (by decide) (by decide)
    rw [he, hmodule, ho, hn]
    rfl

end Philix.Mbgen
