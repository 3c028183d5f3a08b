/-
# Well-formed menu files

`EntryLine` is a kernel or module line `CMD IMAGE OFFSET LENGTH [ARGS]`, `MmapLine` a line
`mmap NAME BASE LEN TYPE`; every other line has another command, or none.  The format of the first
scan is right for an entry line, whose fields it gives (`scanned_text`).  On an `mmap` line it
takes hexadecimal text for decimal numbers and stops somewhere in it: what is left for `args` is
then the type itself, or begins with a letter (`mmap_type`).
-/
import Philix.Mbgen.Lines

namespace Philix.Mbgen

open Scan CLiteral Loop

/-! ## 1. Lines -/

/-- The white space between two fields. -/
def Gap (b : List Char) : Prop := b ≠ [] ∧ Blank b

instance (b : List Char) : Decidable (Gap b) := inferInstanceAs (Decidable (_ ∧ Blank b))

/-- A kernel or module line, with the white space before each field and behind the numbers. -/
structure EntryLine where
  kernel : Bool
  image : List Char
  offset : List Char
  length : List Char
  args : List Char
  gap₀ : List Char
  gap₁ : List Char
  gap₂ : List Char
  gap₃ : List Char
  gap₄ : List Char
  image_token : Token image
  offset_digits : Digits 10 offset
  length_digits : Digits 10 length
  gaps : Blank gap₀ ∧ Gap gap₁ ∧ Gap gap₂ ∧ Gap gap₃ ∧ Blank gap₄
  args_start : args = [] ∨ gap₄ ≠ [] ∧ Ends isSpace args

def EntryLine.cmd (e : EntryLine) : List Char := if e.kernel then kernelCmd else moduleCmd

def EntryLine.text (e : EntryLine) : List Char :=
  e.gap₀ ++ (e.cmd ++ (e.gap₁ ++ (e.image ++ (e.gap₂ ++ (e.offset ++ (e.gap₃ ++ (e.length ++
    (e.gap₄ ++ e.args))))))))

/-- A line of the memory map. -/
structure MmapLine where
  name : List Char
  base : List Char
  length : List Char
  type : List Char
  gap₀ : List Char
  gap₁ : List Char
  gap₂ : List Char
  gap₃ : List Char
  gap₄ : List Char
  gap₅ : List Char
  name_token : Token name
  base_hex : HexNumber base
  length_hex : HexNumber length
  type_digits : Digits 10 type
  gaps : Blank gap₀ ∧ Gap gap₁ ∧ Gap gap₂ ∧ Gap gap₃ ∧ Gap gap₄ ∧ Blank gap₅

def MmapLine.text (m : MmapLine) : List Char :=
  m.gap₀ ++ (mmapCmd ++ (m.gap₁ ++ (m.name ++ (m.gap₂ ++ (m.base ++ (m.gap₃ ++ (m.length ++
    (m.gap₄ ++ (m.type ++ m.gap₅)))))))))

inductive MenuLine
  | entry (e : EntryLine)
  | mmap (m : MmapLine)
  /-- A comment, a blank line or another command. -/
  | other (text : List Char) (cmd_ne : lineCmd text ∉ [kernelCmd, moduleCmd, mmapCmd])

def MenuLine.text : MenuLine → List Char
  | .entry e => e.text
  | .mmap m => m.text
  | .other text _ => text

/-! ## 2. The scan of an entry line -/

theorem cString_of_not_mem {s : List Char} (h : '\x00' ∉ s) : cString s = s := by
  refine List.takeWhile_eq_self_iff.mpr fun c hc => decide_eq_true ?_
  rintro rfl
  exact h hc

section Entry

variable {p : Char → Bool} {b r : List Char}

theorem Gap.ends (hb : Gap b) : Ends (!isSpace ·) (b ++ r) :=
  ends_append_of_ne_nil hb.1 (gap_of_blank hb.2)

theorem Gap.endsDigits {base : Nat} (hbase : base ≤ 16) (hb : Gap b) :
    Ends (isDigit base) (b ++ r) :=
  ends_isDigit_of_gap hbase hb.ends

theorem EntryLine.cmd_token (e : EntryLine) : Token e.cmd := by
  unfold EntryLine.cmd
  split <;> decide

/-- What stands behind the numbers ends them. -/
theorem EntryLine.ends_tail (e : EntryLine) : Ends (!isSpace ·) (e.gap₄ ++ e.args) := by
  obtain ⟨-, -, -, -, hgap⟩ := e.gaps
  rcases e.args_start with h | h
  · rw [h, List.append_nil]
    exact gap_of_blank hgap
  · exact ends_append_of_ne_nil h.1 (gap_of_blank hgap)

theorem EntryLine.convert_args (e : EntryLine) (hnl : '\n' ∉ e.args) :
    textOf (sscanf [.line] (e.gap₄ ++ e.args))[0]? = e.args := by
  obtain ⟨-, -, -, -, hgap⟩ := e.gaps
  by_cases hargs : e.args = []
  · rw [hargs, List.append_nil, sscanf, convert_line_blank hgap]
    rfl
  · have hend : Ends (· ≠ '\n') [] := fun c hc => by cases hc
    have hconv := convert_line hgap hargs (e.args_start.resolve_left hargs).2 hnl hend
    rw [List.append_nil] at hconv
    rw [sscanf, hconv]
    rfl

/-- **The first scan of an entry line** gives its fields. -/
theorem EntryLine.sscanf_text (e : EntryLine) : sscanf menuFormat e.text =
    .text e.cmd :: .text e.image :: .ulong (toULong false (value 10 e.offset)) ::
      .ulong (toULong false (value 10 e.length)) :: sscanf [.line] (e.gap₄ ++ e.args) := by
  obtain ⟨h₀, h₁, h₂, h₃, h₄⟩ := e.gaps
  have hend : Ends (isDigit 10) (e.gap₄ ++ e.args) := ends_isDigit_of_gap (by decide) e.ends_tail
  rw [menuFormat, EntryLine.text, sscanf, convert_str h₀ e.cmd_token h₁.ends]
  dsimp only
  rw [sscanf, convert_str h₁.2 e.image_token h₂.ends]
  dsimp only
  rw [sscanf, convert_ulong h₂.2 e.offset_digits (h₃.endsDigits (by decide))]
  dsimp only
  rw [sscanf, convert_ulong h₃.2 e.length_digits hend]

variable (e : EntryLine)

theorem EntryLine.args_subset {c : Char} (hc : c ∈ e.args) : c ∈ e.text := by
  unfold EntryLine.text
  simp only [List.mem_append, hc, or_true]

theorem EntryLine.scanned_text (hnul : '\x00' ∉ e.text) : scanned e.text =
    .text e.cmd :: .text e.image :: .ulong (toULong false (value 10 e.offset)) ::
      .ulong (toULong false (value 10 e.length)) :: sscanf [.line] (e.gap₄ ++ e.args) := by
  rw [scanned, cString_of_not_mem hnul, e.sscanf_text]

theorem EntryLine.lineCmd_text (hnul : '\x00' ∉ e.text) : lineCmd e.text = e.cmd := by
  rw [lineCmd, e.scanned_text hnul]
  rfl

theorem EntryLine.lineImage_text (hnul : '\x00' ∉ e.text) : lineImage e.text = e.image := by
  rw [lineImage, e.scanned_text hnul]
  rfl

theorem EntryLine.lineArgs_text (hnul : '\x00' ∉ e.text) (hnl : '\n' ∉ e.text) :
    lineArgs e.text = e.args := by
  rw [lineArgs, e.scanned_text hnul]
  exact e.convert_args fun h => hnl (e.args_subset h)

theorem EntryLine.lineOffset_text (hnul : '\x00' ∉ e.text) (n : UInt64) :
    lineOffset e.text n = toULong false (value 10 e.offset) := by
  rw [lineOffset, e.scanned_text hnul]
  rfl

theorem EntryLine.lineLength_text (hnul : '\x00' ∉ e.text) (n : UInt64) :
    lineLength e.text n = toULong false (value 10 e.length) := by
  rw [lineLength, e.scanned_text hnul]
  rfl

end Entry

/-! ## 3. The scans of an `mmap` line -/

/-- A character that neither begins a decimal number nor is skipped before one. -/
def NoNumber (c : Char) : Prop := (!isSpace c) ∧ c ≠ '-' ∧ c ≠ '+' ∧ !isDigit 10 c

section Mmap

variable {b r s t : List Char} {c : Char}

theorem noNumber_of_mem (h : HexNumber t) (hc : c ∈ t) (hdigit : !isDigit 10 c) : NoNumber c := by
  refine ⟨(token_hexNumber h).2 c hc, ?_, ?_, hdigit⟩
  · rintro rfl
    exact absurd (mem_hexNumber h hc) (by decide)
  · rintro rfl
    exact absurd (mem_hexNumber h hc) (by decide)

theorem noNumber_append {e : List Char} (he : ∀ c ∈ e.head?, NoNumber c) (hne : e ≠ []) :
    ∀ c ∈ (e ++ r).head?, NoNumber c := by
  cases e with
  | nil => exact absurd rfl hne
  | cons c e => exact he

/-- `%lu` on a hexadecimal number reads the decimal digits it begins with, if there are any, and
stops at the end or at a letter. -/
theorem convert_ulong_hexNumber (hb : Blank b) (h : HexNumber t) (hr : Ends (!isSpace ·) r) :
    convert .ulong (b ++ (t ++ r)) = none ∨
      ∃ v e, convert .ulong (b ++ (t ++ r)) = some (v, e ++ r) ∧ ∀ c ∈ e.head?, NoNumber c := by
  have hsplit : t.takeWhile (isDigit 10) ++ t.dropWhile (isDigit 10) = t :=
    List.takeWhile_append_dropWhile
  have hletter : ∀ c ∈ (t.dropWhile (isDigit 10)).head?, NoNumber c := by
    intro c hc
    have hno : isDigit 10 c = false := by
      have hhead := List.head?_dropWhile_not (isDigit 10) t
      rw [hc] at hhead
      simpa using hhead
    have hmem : c ∈ t := by
      rw [← hsplit]
      exact List.mem_append_right _ (List.mem_of_mem_head? hc)
    exact noNumber_of_mem h hmem (by rw [hno]; rfl)
  by_cases hdigits : t.takeWhile (isDigit 10) = []
  · left
    rw [hdigits, List.nil_append] at hsplit
    rw [hsplit] at hletter
    have hhead : ∀ c ∈ (t ++ r).head?, NoNumber c := noNumber_append hletter (token_hexNumber h).1
    exact convert_ulong_none hb (fun c hc => (hhead c hc).1) fun c hc => (hhead c hc).2
  · right
    have hd : Digits 10 (t.takeWhile (isDigit 10)) :=
      ⟨hdigits, fun c hc => List.mem_takeWhile_imp hc⟩
    have hend : Ends (isDigit 10) (t.dropWhile (isDigit 10) ++ r) := by
      cases hrest : t.dropWhile (isDigit 10) with
      | nil => exact ends_isDigit_of_gap (by decide) hr
      | cons c e =>
        rw [hrest] at hletter
        exact fun x hx => (hletter x hx).2.2.2
    refine ⟨.ulong (toULong false (value 10 (t.takeWhile (isDigit 10)))), _, ?_, hletter⟩
    conv_lhs => rw [← hsplit]
    rw [List.append_assoc, convert_ulong hb hd hend]

/-- A letter at the start of `args` is no number for `%i` either. -/
theorem sscanf_type_none (h : NoNumber c) : sscanf typeFormat (c :: s) = [] := by
  rw [typeFormat, sscanf, convert_int_none h.1 h.2.1 h.2.2.1 h.2.2.2]

/-- The rest of a line, taken for `args`, begins where the scan has stopped. -/
theorem head_line (hc : !isSpace c) : (textOf (sscanf [.line] (c :: s))[0]?).head? = some c := by
  have hspace : ¬ isSpace c = true := by simpa using hc
  have hnl : decide (c ≠ '\n') = true := by
    refine decide_eq_true ?_
    rintro rfl
    exact hspace (by decide)
  have hskip : skipSpace (c :: s) = c :: s := List.dropWhile_cons_of_neg hspace
  have htake : (c :: s).takeWhile (· ≠ '\n') = c :: s.takeWhile (· ≠ '\n') :=
    List.takeWhile_cons_of_pos hnl
  have hconv : convert .line (c :: s) =
      some (.text (c :: s.takeWhile (· ≠ '\n')), (c :: s).dropWhile (· ≠ '\n')) := by
    simp only [convert, hskip, if_neg (List.cons_ne_nil c s), htake]
  rw [sscanf, hconv]
  rfl

variable (m : MmapLine)

theorem MmapLine.sscanf_text : sscanf menuFormat m.text = .text mmapCmd :: .text m.name ::
    sscanf [.ulong, .ulong, .line] (m.gap₂ ++ (m.base ++ (m.gap₃ ++ (m.length ++ (m.gap₄ ++
      (m.type ++ m.gap₅)))))) := by
  obtain ⟨h₀, h₁, h₂, -⟩ := m.gaps
  have hcmd : Token mmapCmd := by decide
  rw [menuFormat, MmapLine.text, sscanf, convert_str h₀ hcmd h₁.ends]
  dsimp only
  rw [sscanf, convert_str h₁.2 m.name_token h₂.ends]

theorem MmapLine.scanned_text (hnul : '\x00' ∉ m.text) : scanned m.text =
    .text mmapCmd :: .text m.name :: sscanf [.ulong, .ulong, .line] (m.gap₂ ++ (m.base ++
      (m.gap₃ ++ (m.length ++ (m.gap₄ ++ (m.type ++ m.gap₅)))))) := by
  rw [scanned, cString_of_not_mem hnul, m.sscanf_text]

theorem MmapLine.lineCmd_text (hnul : '\x00' ∉ m.text) : lineCmd m.text = mmapCmd := by
  rw [lineCmd, m.scanned_text hnul]
  rfl

/-- **The second scan of an `mmap` line** gives its fields. -/
theorem MmapLine.mmapScanned_text (hnul : '\x00' ∉ m.text) (hconst : DecimalConst m.type)
    (htype : value 10 m.type < 2 ^ 31) : mmapScanned m.text =
      [.text mmapCmd, .text m.name, .ulong (toULong false (hexValue m.base)),
        .ulong (toULong false (hexValue m.length)), .int (value 10 m.type)] := by
  obtain ⟨h₀, h₁, h₂, h₃, h₄, h₅⟩ := m.gaps
  have hcmd : Token mmapCmd := by decide
  have hlast := convert_int h₄.2 m.type_digits hconst htype (gap_of_blank h₅)
  rw [mmapScanned, cString_of_not_mem hnul, mmapFormat, MmapLine.text, sscanf,
    convert_str h₀ hcmd h₁.ends]
  dsimp only
  rw [sscanf, convert_str h₁.2 m.name_token h₂.ends]
  dsimp only
  rw [sscanf, convert_hex h₂.2 m.base_hex h₃.ends]
  dsimp only
  rw [sscanf, convert_hex h₃.2 m.length_hex h₄.ends]
  dsimp only
  rw [sscanf, hlast]
  rfl

/-- The end of the line, taken for `args`. -/
theorem MmapLine.convert_type (hnl : '\n' ∉ m.text) :
    convert .line (m.gap₄ ++ (m.type ++ m.gap₅)) = some (.text (m.type ++ m.gap₅), []) := by
  obtain ⟨-, -, -, -, h₄, -⟩ := m.gaps
  have hsub : '\n' ∉ m.type ++ m.gap₅ := by
    intro h
    refine hnl ?_
    unfold MmapLine.text
    rcases List.mem_append.mp h with h | h
    · simp only [List.mem_append, h, true_or, or_true]
    · simp only [List.mem_append, h, or_true]
  have hne : m.type ++ m.gap₅ ≠ [] := fun h => m.type_digits.1 (List.append_eq_nil_iff.mp h).1
  have hstart : Ends isSpace (m.type ++ m.gap₅) := ends_isSpace_digits (by decide) m.type_digits
  have hend : Ends (· ≠ '\n') [] := fun c hc => by cases hc
  have hconv := convert_line h₄.2 hne hstart hsub hend
  rwa [List.append_nil] at hconv

/-- **What the first scan leaves for `args`**: nothing, or a text that begins with a letter, or
the type. -/
theorem MmapLine.args_text (hnul : '\x00' ∉ m.text) (hnl : '\n' ∉ m.text) :
    (∀ c ∈ (lineArgs m.text).head?, NoNumber c) ∨ lineArgs m.text = m.type ++ m.gap₅ := by
  obtain ⟨-, -, h₂, h₃, h₄, -⟩ := m.gaps
  have hnil : Blank [] := by simp [Blank]
  have hstop : ∀ {e r : List Char}, (∀ c ∈ e.head?, NoNumber c) → e ≠ [] →
      convert .ulong (e ++ r) = none := by
    intro e r he hne
    have hhead : ∀ c ∈ (e ++ r).head?, NoNumber c := noNumber_append he hne
    have hconv := convert_ulong_none hnil (fun c hc => (hhead c hc).1) fun c hc => (hhead c hc).2
    rwa [List.nil_append] at hconv
  have hargs : lineArgs m.text = textOf (sscanf [.ulong, .ulong, .line] (m.gap₂ ++ (m.base ++
      (m.gap₃ ++ (m.length ++ (m.gap₄ ++ (m.type ++ m.gap₅)))))))[2]? := by
    rw [lineArgs, m.scanned_text hnul]
    rfl
  rw [hargs, sscanf]
  rcases convert_ulong_hexNumber h₂.2 m.base_hex h₃.ends with hconv | ⟨v, e, hconv, he⟩
  · rw [hconv]
    exact Or.inl fun c hc => by cases hc
  rw [hconv]
  dsimp only
  rw [sscanf]
  by_cases hne : e = []
  · rw [hne, List.nil_append]
    rcases convert_ulong_hexNumber h₃.2 m.length_hex h₄.ends with hconv | ⟨v', e', hconv, he'⟩
    · rw [hconv]
      exact Or.inl fun c hc => by cases hc
    rw [hconv]
    dsimp only
    rw [List.getElem?_cons_succ, List.getElem?_cons_succ]
    cases e' with
    | cons c e' =>
      left
      have hc : NoNumber c := he' c rfl
      rw [List.cons_append, head_line hc.1]
      exact fun x hx => Option.some.inj hx ▸ hc
    | nil =>
      right
      rw [List.nil_append, sscanf, m.convert_type hnl]
      rfl
  · rw [hstop he hne]
    exact Or.inl fun c hc => by cases hc

/-- The third scan leaves the type as the second one read it. -/
theorem MmapLine.type_kept (hnul : '\x00' ∉ m.text) (hnl : '\n' ∉ m.text)
    (hconst : DecimalConst m.type) (htype : value 10 m.type < 2 ^ 31) :
    intOr (sscanf typeFormat (lineArgs m.text))[0]? (value 10 m.type) = value 10 m.type := by
  obtain ⟨-, -, -, -, -, h₅⟩ := m.gaps
  rcases m.args_text hnul hnl with hargs | hargs
  · cases hl : lineArgs m.text with
    | nil => rfl
    | cons c s =>
      rw [hl] at hargs
      rw [sscanf_type_none (hargs c rfl)]
      rfl
  · have hnil : Blank [] := by simp [Blank]
    have hconv := convert_int hnil m.type_digits hconst htype (gap_of_blank h₅)
    rw [List.nil_append] at hconv
    rw [hargs, typeFormat, sscanf, hconv]
    rfl

end Mmap

end Philix.Mbgen
