/-
# Command lines as C string literals

The string of an entry is written between two quotes as it is, for the kernel at two places.  Read
back as C source, the literal denotes the string exactly when nothing in it has a meaning of its
own in a literal: no quote, no backslash and no trigraph (`literal_denotes_iff`).
-/
import Philix.Mbgen.Entries
import Philix.Mbgen.MenuFile

namespace Philix.Mbgen

open Scan CLiteral Loop

/-! ## 1. What the literal denotes -/

section Literal

variable {u : Undef} {file l : List Char} {out : List Stmt} {k i : Nat}

/-- The literals that are written for a line. -/
theorem literal_of_line (hmain : main u file = .ok out) (hl : (menuLines file)[k]? = some l)
    (hi : lineIndex (menuLines file) k = some i) :
    ∃ e, entryOf out i = some e ∧ e.literal = quoted (commandLine (lineImage l) (lineArgs l)) ∧
      (i = 0 → out.filterMap cmdlineText = [e.literal]) := by
  obtain ⟨g', stmts, hparse, hemit, rfl⟩ := main_eq_ok_iff.mp hmain
  obtain ⟨kernel, hkernel⟩ := kernelOf_of_emit hemit
  rw [parse_eq] at hparse
  have hout := run_out hparse (by simp [start])
  obtain ⟨g, -, -, hget⟩ := run_entry hparse hl hi hkernel
  refine ⟨(lineModule g l).entry, ?_, rfl, ?_⟩
  · rw [entryOf_emit hout hkernel hemit, hget]
    rfl
  · rintro rfl
    have hsame : kernel = lineModule g l := Option.some.inj hget
    rw [cmdline_emit hout hkernel hemit, hsame]
    rfl

/-- **The literal of a kernel or module line denotes `IMAGE`, a space and `ARGS`** exactly when
they have no quote, no backslash and no trigraph.  The kernel's is written twice. -/
theorem literal_denotes_iff (hmain : main u file = .ok out) (hl : (menuLines file)[k]? = some l)
    (hi : lineIndex (menuLines file) k = some i) :
    (∃ e, entryOf out i = some e ∧ (i = 0 → out.filterMap cmdlineText = [e.literal]) ∧
      (readLiteral e.literal = some (commandLine (lineImage l) (lineArgs l), [';', '\n']) ↔
        Verbatim (commandLine (lineImage l) (lineArgs l)))) ∧
    ∀ f : EntryLine, l = f.text → '\x00' ∉ l → lineImage l = f.image ∧ lineArgs l = f.args := by
  obtain ⟨e, he, hliteral, hcmdline⟩ := literal_of_line hmain hl hi
  refine ⟨⟨e, he, hcmdline, ?_⟩, ?_⟩
  · rw [hliteral]
    exact readLiteral_quoted_iff (commandLine_newline l)
  · rintro f rfl hnul
    exact ⟨f.lineImage_text hnul,
      f.lineArgs_text hnul (menuLines_newline (List.mem_of_getElem? hl))⟩

/-- A file of one kernel line. -/
theorem main_kernel (htext : TextLine l) (hfits : Fits l) (hcmd : lineCmd l = kernelCmd) :
    menuLines l = [l] ∧ lineIndex (menuLines l) 0 = some 0 ∧ ∃ out, main u l = .ok out := by
  have hne : l ≠ [] := by
    rintro rfl
    exact absurd hcmd (by decide)
  have hmodule : ¬ lineCmd l = moduleCmd := by
    rw [hcmd]
    decide
  have hlines : menuLines l = [l] := menuLines_last htext.1 (Nat.le_succ_of_le htext.2.2) hne
  have hparse := parse_eq u (start u) l
  rw [hlines, List.foldlM_cons, parseLine_kernel hfits hcmd] at hparse
  refine ⟨hlines, ?_, ?_⟩
  · rw [hlines]
    exact (if_neg hmodule).trans (if_pos ⟨hcmd, by simp [NoKernel]⟩)
  · exact ⟨_, main_eq_ok_iff.mpr ⟨_, _, hparse, emit_eq rfl, rfl⟩⟩

end Literal

/-- `kernel k 0 0 a` -/
def plainLine : List Char := kernelCmd ++ [' ', 'k', ' ', '0', ' ', '0', ' ', 'a']

/-- `kernel k 0 0 a"b`, with a quote in its argument. -/
def quoteLine : List Char := plainLine ++ ['\x22', 'b']

theorem literal_denotes_plain : ∃ out e, main zeroed plainLine = .ok out ∧
    entryOf out 0 = some e ∧ readLiteral e.literal = some (['k', ' ', 'a'], [';', '\n']) := by
  obtain ⟨hlines, hi, out, hmain⟩ :=
    main_kernel (u := zeroed) (l := plainLine) (by decide) (by decide) (by decide)
  have hl : (menuLines plainLine)[0]? = some plainLine := by
    rw [hlines]
    rfl
  obtain ⟨⟨e, he, -, hread⟩, -⟩ := literal_denotes_iff hmain hl hi
  exact ⟨out, e, hmain, he, hread.mpr (by decide)⟩

/-- The quote in the argument ends the literal: `k a` is left of the string `k a"b`. -/
theorem quote_ends_literal : ∃ out e, main zeroed quoteLine = .ok out ∧
    entryOf out 0 = some e ∧
    commandLine (lineImage quoteLine) (lineArgs quoteLine) = ['k', ' ', 'a', '\x22', 'b'] ∧
    readLiteral e.literal = some (['k', ' ', 'a'], ['b', '\x22', ';', '\n']) := by
  obtain ⟨hlines, hi, out, hmain⟩ :=
    main_kernel (u := zeroed) (l := quoteLine) (by decide) (by decide) (by decide)
  have hl : (menuLines quoteLine)[0]? = some quoteLine := by
    rw [hlines]
    rfl
  have hstring : commandLine (lineImage quoteLine) (lineArgs quoteLine) =
      ['k', ' ', 'a', '\x22', 'b'] := by decide
  obtain ⟨e, he, hliteral, -⟩ := literal_of_line hmain hl hi
  refine ⟨out, e, hmain, he, hstring, ?_⟩
  have htri : trigraphs (quoted ['k', ' ', 'a', '\x22', 'b']) =
      '\x22' :: ['k', ' ', 'a'] ++ '\x22' :: ['b', '\x22', ';', '\n'] := by decide
  rw [hliteral, hstring, readLiteral, htri]
  exact strings_straight ⟨by decide, by decide⟩ (by decide) (by decide)

end Philix.Mbgen
