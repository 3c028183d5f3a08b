/-
# Reading fields with `sscanf`

The conversions `%s`, `%lu`, `%lx`, `%i` and `%[^\n]` of the C standard on a string of characters,
and `sscanf`, which stops at the first of them that fails.  A conversion that skips white space
skips it with or without a space before it in the format, so the format is the list of its
conversions.  Each has a rule for a field with blanks before it and a character behind it that
ends it; `sscanf_newline` says that a newline at the end of the string is not seen.  Numbers printed
with `%x` and `%d` are read back (`value_printHex`, `readInt_printInt`).
-/
import Mathlib.Algebra.Group.Int.Defs
import Mathlib.Algebra.Group.Nat.Defs
import Mathlib.Tactic.Common
import Mathlib.Data.List.Induction
import Mathlib.Data.List.TakeWhile

namespace Scan

/-! ## 1. Characters and digits -/

/-- `isspace`, in the C locale. -/
def isSpace (c : Char) : Bool := c ∈ [' ', '\t', '\n', '\x0b', '\x0c', '\r']

/-- The value of a digit, up to `f`; `16` for the other characters. -/
def digitVal (c : Char) : Nat :=
  if '0' ≤ c ∧ c ≤ '9' then c.toNat - 48
  else if 'a' ≤ c ∧ c ≤ 'f' then c.toNat - 87
  else if 'A' ≤ c ∧ c ≤ 'F' then c.toNat - 55
  else 16

def isDigit (base : Nat) (c : Char) : Bool := digitVal c < base

/-- The number that a string of digits denotes. -/
def value (base : Nat) (s : List Char) : Nat := s.foldl (fun n c => base * n + digitVal c) 0

/-! ## 2. Conversions -/

def skipSpace (s : List Char) : List Char := s.dropWhile isSpace

/-- An optional sign: is it a minus, and what follows it. -/
def sign : List Char → Bool × List Char
  | '-' :: s => (true, s)
  | '+' :: s => (false, s)
  | s => (false, s)

/-- What follows `0x` or `0X`. -/
def hexPrefix : List Char → Option (List Char)
  | '0' :: x :: s => if x = 'x' ∨ x = 'X' then some s else none
  | _ => none

/-- At least one digit. -/
def digits (base : Nat) (s : List Char) : Option (Nat × List Char) :=
  if s.takeWhile (isDigit base) = [] then none
  else some (value base (s.takeWhile (isDigit base)), s.dropWhile (isDigit base))

/-- `strtoul` with base 16. -/
def hexDigits (s : List Char) : Option (Nat × List Char) :=
  match hexPrefix s with
  | some r => digits 16 r
  | none => digits 16 s

/-- `strtol` with base 0: the base is that of a constant of C. -/
def constDigits (s : List Char) : Option (Nat × List Char) :=
  match hexPrefix s with
  | some r => digits 16 r
  | none => digits (if s.head? = some '0' then 8 else 10) s

/-- The result of `strtoul`. -/
def toULong (neg : Bool) (n : Nat) : UInt64 :=
  if 2 ^ 64 ≤ n then .ofNat (2 ^ 64 - 1) else if neg then -.ofNat n else .ofNat n

/-- The result of `strtol`, stored in an `int`. -/
def toInt (neg : Bool) (n : Nat) : Int :=
  (max (-2 ^ 63) (min (if neg then -(n : Int) else n) (2 ^ 63 - 1))).bmod (2 ^ 32)

inductive Conv
  /-- `%s` -/
  | str
  /-- `%lu` -/
  | ulong
  /-- `%lx` -/
  | hex
  /-- `%i` -/
  | int
  /-- ` %[^\n]`, with the space before it -/
  | line
  deriving DecidableEq

inductive Value
  | text (s : List Char)
  | ulong (n : UInt64)
  | int (n : Int)
  deriving DecidableEq

/-- One conversion: the value and the rest of the string, or nothing if it fails. -/
def convert (c : Conv) (s : List Char) : Option (Value × List Char) :=
  let t := skipSpace s
  let (neg, u) := sign t
  match c with
  | .str => if t = [] then none
      else some (.text (t.takeWhile (!isSpace ·)), t.dropWhile (!isSpace ·))
  | .ulong => (digits 10 u).map fun (n, r) => (.ulong (toULong neg n), r)
  | .hex => (hexDigits u).map fun (n, r) => (.ulong (toULong neg n), r)
  | .int => (constDigits u).map fun (n, r) => (.int (toInt neg n), r)
  | .line => if t = [] then none
      else some (.text (t.takeWhile (· ≠ '\n')), t.dropWhile (· ≠ '\n'))

/-- The values stored, up to the first conversion that fails. -/
def sscanf : List Conv → List Char → List Value
  | [], _ => []
  | c :: cs, s =>
    match convert c s with
    | none => []
    | some (v, r) => v :: sscanf cs r

theorem sscanf_cons {c : Conv} {s r : List Char} {v : Value} (h : convert c s = some (v, r))
    (cs : List Conv) : sscanf (c :: cs) s = v :: sscanf cs r := by
  rw [sscanf, h]

/-- What is in a `uint64_t` after the scan. -/
def ulongOr : Option Value → UInt64 → UInt64
  | some (.ulong n), _ => n
  | _, old => old

/-- What is in an `int` after the scan. -/
def intOr : Option Value → Int → Int
  | some (.int n), _ => n
  | _, old => old

/-! ## 3. Fields -/

/-- Blanks before a field. -/
def Blank (b : List Char) : Prop := ∀ c ∈ b, isSpace c

/-- A field of `%s`. -/
def Token (t : List Char) : Prop := t ≠ [] ∧ ∀ c ∈ t, !isSpace c

def Digits (base : Nat) (d : List Char) : Prop := d ≠ [] ∧ ∀ c ∈ d, isDigit base c

/-- The string is at its end, or goes on with a character outside `p`. -/
def Ends (p : Char → Bool) (r : List Char) : Prop := ∀ c ∈ r.head?, !p c

-- by a walk along the list, not along all the characters there are
instance (b : List Char) : Decidable (Blank b) := List.decidableBAll _ b

instance (t : List Char) : Decidable (Token t) :=
  have : Decidable (∀ c ∈ t, !isSpace c) := List.decidableBAll _ t
  inferInstanceAs (Decidable (_ ∧ _))

instance (base : Nat) (d : List Char) : Decidable (Digits base d) :=
  have : Decidable (∀ c ∈ d, isDigit base c) := List.decidableBAll _ d
  inferInstanceAs (Decidable (_ ∧ _))

instance (p : Char → Bool) (r : List Char) : Decidable (Ends p r) :=
  Option.decidableForallMem r.head?

section Fields

variable {p : Char → Bool} {base : Nat} {a b d t r s : List Char}

theorem takeWhile_of_ends (ha : ∀ c ∈ a, p c) (hr : Ends p r) : (a ++ r).takeWhile p = a := by
  rw [List.takeWhile_append_of_pos ha]
  cases r with
  | nil => rw [List.takeWhile_nil, List.append_nil]
  | cons c r =>
    have hc : ¬ p c = true := by simpa using hr c rfl
    rw [List.takeWhile_cons_of_neg hc, List.append_nil]

theorem dropWhile_of_ends (ha : ∀ c ∈ a, p c) (hr : Ends p r) : (a ++ r).dropWhile p = r := by
  rw [List.dropWhile_append_of_pos ha]
  cases r with
  | nil => rfl
  | cons c r =>
    have hc : ¬ p c = true := by simpa using hr c rfl
    rw [List.dropWhile_cons_of_neg hc]

theorem skipSpace_blank (hb : Blank b) (hs : Ends isSpace s) : skipSpace (b ++ s) = s :=
  dropWhile_of_ends hb hs

theorem ends_append_of_ne_nil (ha : a ≠ []) (h : Ends p a) : Ends p (a ++ r) := by
  cases a with
  | nil => exact absurd rfl ha
  | cons c a => exact h

theorem ends_of_forall (h : ∀ c ∈ a, !p c) : Ends p a := fun c hc => h c (List.mem_of_mem_head? hc)

theorem digitVal_of_isSpace {c : Char} (h : isSpace c) : digitVal c = 16 := by
  rw [isSpace, decide_eq_true_eq] at h
  simp only [List.mem_cons, List.not_mem_nil, or_false] at h
  rcases h with rfl | rfl | rfl | rfl | rfl | rfl <;> rfl

/-- A digit is no blank. -/
theorem not_isSpace_of_isDigit {c : Char} (hbase : base ≤ 16) (hc : isDigit base c) :
    !isSpace c := by
  rw [Bool.not_eq_true', Bool.eq_false_iff]
  intro hspace
  rw [isDigit, decide_eq_true_eq, digitVal_of_isSpace hspace] at hc
  omega

theorem ends_isSpace_digits (hbase : base ≤ 16) (hd : Digits base d) : Ends isSpace (d ++ r) :=
  ends_append_of_ne_nil hd.1 (ends_of_forall fun c hc => not_isSpace_of_isDigit hbase (hd.2 c hc))

theorem sign_of_head {c : Char} (hminus : c ≠ '-') (hplus : c ≠ '+') :
    sign (c :: s) = (false, c :: s) := by
  rw [sign]
  · exact fun s h => hminus (List.cons.inj h).1
  · exact fun s h => hplus (List.cons.inj h).1

/-- A string that starts with a digit has no sign. -/
theorem sign_digits (hbase : base ≤ 16) (hd : Digits base d) : sign (d ++ r) = (false, d ++ r) := by
  cases d with
  | nil => exact absurd rfl hd.1
  | cons c d =>
    have hc : digitVal c < base := by simpa [isDigit] using hd.2 c List.mem_cons_self
    have hminus : c ≠ '-' := by
      rintro rfl
      have h16 : digitVal '-' = 16 := by decide
      omega
    have hplus : c ≠ '+' := by
      rintro rfl
      have h16 : digitVal '+' = 16 := by decide
      omega
    exact sign_of_head hminus hplus

theorem digits_eq (hd : Digits base d) (hr : Ends (isDigit base) r) :
    digits base (d ++ r) = some (value base d, r) := by
  rw [digits, takeWhile_of_ends hd.2 hr, dropWhile_of_ends hd.2 hr, if_neg hd.1]

theorem digits_eq_none (hr : Ends (isDigit base) r) : digits base r = none := by
  have htake : r.takeWhile (isDigit base) = [] := takeWhile_of_ends (a := []) (by simp) hr
  rw [digits, if_pos htake]

theorem gap_of_blank (hb : Blank b) : Ends (!isSpace ·) b :=
  ends_of_forall fun c hc => by simpa using hb c hc

theorem ends_isDigit_of_gap (hbase : base ≤ 16) (hr : Ends (!isSpace ·) r) :
    Ends (isDigit base) r := by
  intro c hc
  have hspace : isSpace c = true := by simpa using hr c hc
  rw [Bool.not_eq_true', Bool.eq_false_iff]
  intro hdigit
  have hno := not_isSpace_of_isDigit hbase hdigit
  rw [hspace] at hno
  cases hno

/-! ## 4. One rule for each conversion -/

theorem convert_str (hb : Blank b) (ht : Token t) (hr : Ends (!isSpace ·) r) :
    convert .str (b ++ (t ++ r)) = some (.text t, r) := by
  have hskip : skipSpace (b ++ (t ++ r)) = t ++ r :=
    skipSpace_blank hb (ends_append_of_ne_nil ht.1 (ends_of_forall ht.2))
  have hne : t ++ r ≠ [] := fun h => ht.1 (List.append_eq_nil_iff.mp h).1
  simp only [convert, hskip, if_neg hne, takeWhile_of_ends ht.2 hr, dropWhile_of_ends ht.2 hr]

theorem convert_ulong (hb : Blank b) (hd : Digits 10 d) (hr : Ends (isDigit 10) r) :
    convert .ulong (b ++ (d ++ r)) = some (.ulong (toULong false (value 10 d)), r) := by
  have hskip : skipSpace (b ++ (d ++ r)) = d ++ r :=
    skipSpace_blank hb (ends_isSpace_digits (by decide) hd)
  simp only [convert, hskip, sign_digits (by decide) hd, digits_eq hd hr, Option.map_some]

/-- Nothing but a digit or a sign begins a number. -/
theorem convert_ulong_none (hb : Blank b) (hs : Ends isSpace s)
    (hr : ∀ c ∈ s.head?, c ≠ '-' ∧ c ≠ '+' ∧ !isDigit 10 c) : convert .ulong (b ++ s) = none := by
  have hsign : sign s = (false, s) := by
    cases s with
    | nil => rfl
    | cons c s => exact sign_of_head (hr c rfl).1 (hr c rfl).2.1
  have hdigits : digits 10 s = none := digits_eq_none fun c hc => (hr c hc).2.2
  simp only [convert, skipSpace_blank hb hs, hsign, hdigits, Option.map_none]

theorem convert_line (hb : Blank b) (ha : a ≠ []) (hs : Ends isSpace a)
    (hnl : '\n' ∉ a) (hr : Ends (· ≠ '\n') r) :
    convert .line (b ++ (a ++ r)) = some (.text a, r) := by
  have hskip : skipSpace (b ++ (a ++ r)) = a ++ r :=
    skipSpace_blank hb (ends_append_of_ne_nil ha hs)
  have hne : a ++ r ≠ [] := fun h => ha (List.append_eq_nil_iff.mp h).1
  have hall : ∀ c ∈ a, decide (c ≠ '\n') := fun c hc =>
    decide_eq_true fun h => hnl (h ▸ hc)
  simp only [convert, hskip, if_neg hne, takeWhile_of_ends hall hr, dropWhile_of_ends hall hr]

theorem convert_line_blank (hb : Blank b) : convert .line b = none := by
  have hskip : skipSpace b = [] := List.dropWhile_eq_nil_iff.mpr hb
  simp only [convert, hskip, if_true]

end Fields

/-! ## 5. Hexadecimal numbers, and numbers in the notation of C -/

/-- Hexadecimal digits, with or without `0x`. -/
def HexNumber (t : List Char) : Prop := Digits 16 ((hexPrefix t).getD t)

instance (t : List Char) : Decidable (HexNumber t) := inferInstanceAs (Decidable (Digits 16 _))

def hexValue (t : List Char) : Nat := value 16 ((hexPrefix t).getD t)

/-- A decimal number that `%i` reads as one: `0` in front of it would make it octal. -/
def DecimalConst (d : List Char) : Prop := d.head? ≠ some '0' ∨ value 10 d < 8

instance (d : List Char) : Decidable (DecimalConst d) := inferInstanceAs (Decidable (_ ∨ _))

section Numbers

variable {base : Nat} {b d t r s : List Char} {c : Char}

theorem value_append_singleton (d : List Char) (c : Char) :
    value base (d ++ [c]) = base * value base d + digitVal c := by
  rw [value, List.foldl_append]
  rfl

/-- **A number below 8 is the same in base 8 and base 10**, with any zeros in front. -/
theorem value_eight (h : value 10 d < 8) (hd : ∀ c ∈ d, isDigit 10 c) :
    value 8 d = value 10 d ∧ ∀ c ∈ d, isDigit 8 c := by
  induction d using List.reverseRecOn with
  | nil => exact ⟨rfl, by simp⟩
  | append_singleton d c ih =>
    rw [value_append_singleton] at h
    obtain ⟨hval, hall⟩ := ih (by omega) fun x hx => hd x (List.mem_append_left _ hx)
    refine ⟨?_, fun x hx => ?_⟩
    · rw [value_append_singleton, value_append_singleton, hval]
      omega
    · rcases List.mem_append.mp hx with hx | hx
      · exact hall x hx
      · rw [List.mem_singleton.mp hx, isDigit, decide_eq_true_eq]
        omega

theorem hexPrefix_of_head_ne (hc : c ≠ '0') : hexPrefix (c :: s) = none := by
  unfold hexPrefix
  split
  · rename_i heq
    exact absurd (List.cons.inj heq).1 hc
  · rfl

theorem hexPrefix_of_second_ne {x : Char} (hx : ¬ (x = 'x' ∨ x = 'X')) :
    hexPrefix (c :: x :: s) = none := by
  unfold hexPrefix
  split
  · rename_i heq
    obtain ⟨-, rfl, -⟩ : c = '0' ∧ x = _ ∧ s = _ := by simpa using heq
    exact if_neg hx
  · rfl

/-- Digits in front of a blank have no `0x`. -/
theorem hexPrefix_digits (hd : Digits 16 d) (hr : Ends (!isSpace ·) r) :
    hexPrefix (d ++ r) = none := by
  have hx : ∀ x : Char, x = 'x' ∨ x = 'X' → isDigit 16 x = false ∧ isSpace x = false := by
    rintro x (rfl | rfl) <;> decide
  match d, r, hd, hr with
  | [], _, hd, _ => exact absurd rfl hd.1
  | c :: x :: d, r, hd, _ =>
    refine hexPrefix_of_second_ne fun h => ?_
    have hdigit := hd.2 x (List.mem_cons_of_mem _ List.mem_cons_self)
    rw [(hx x h).1] at hdigit
    cases hdigit
  | [c], [], _, _ =>
    unfold hexPrefix
    split
    · rename_i heq
      cases (List.cons.inj heq).2
    · rfl
  | [c], x :: r, _, hr =>
    refine hexPrefix_of_second_ne fun h => ?_
    have hspace : (!!isSpace x) = true := hr x rfl
    rw [(hx x h).2] at hspace
    cases hspace

theorem hexPrefix_eq_some (h : hexPrefix t = some d) :
    ∃ x, (x = 'x' ∨ x = 'X') ∧ t = '0' :: x :: d := by
  unfold hexPrefix at h
  split at h
  · rename_i x s
    split at h
    · rename_i hx
      exact ⟨x, hx, by rw [Option.some.inj h]⟩
    · cases h
  · cases h

/-- The characters of a hexadecimal number. -/
theorem mem_hexNumber (h : HexNumber t) (hc : c ∈ t) : isDigit 16 c ∨ c = 'x' ∨ c = 'X' := by
  unfold HexNumber at h
  cases hp : hexPrefix t with
  | none =>
    rw [hp] at h
    exact Or.inl (h.2 c hc)
  | some d =>
    rw [hp] at h
    obtain ⟨x, hx, rfl⟩ := hexPrefix_eq_some hp
    rcases List.mem_cons.mp hc with rfl | hc
    · exact Or.inl (by decide)
    · rcases List.mem_cons.mp hc with rfl | hc
      · exact Or.inr hx
      · exact Or.inl (h.2 c hc)

theorem token_hexNumber (h : HexNumber t) : Token t := by
  refine ⟨?_, fun c hc => ?_⟩
  · rintro rfl
    exact h.1 rfl
  · rcases mem_hexNumber h hc with hc | rfl | rfl
    · exact not_isSpace_of_isDigit (by decide) hc
    · decide
    · decide

theorem hexDigits_eq (h : HexNumber t) (hr : Ends (!isSpace ·) r) :
    hexDigits (t ++ r) = some (hexValue t, r) := by
  have hend : Ends (isDigit 16) r := ends_isDigit_of_gap (by decide) hr
  unfold HexNumber at h
  unfold hexValue
  cases hp : hexPrefix t with
  | none =>
    rw [hp] at h
    have hno : hexPrefix (t ++ r) = none := hexPrefix_digits h hr
    rw [hexDigits, hno]
    exact digits_eq h hend
  | some d =>
    rw [hp] at h
    obtain ⟨x, hx, rfl⟩ := hexPrefix_eq_some hp
    have hsome : hexPrefix ('0' :: x :: d ++ r) = some (d ++ r) := if_pos hx
    rw [hexDigits, hsome]
    exact digits_eq h hend

theorem head_hexNumber (h : HexNumber t) : ∃ c s, t = c :: s ∧ isDigit 16 c := by
  unfold HexNumber at h
  cases hp : hexPrefix t with
  | none =>
    rw [hp] at h
    cases t with
    | nil => exact absurd rfl h.1
    | cons c s => exact ⟨c, s, rfl, h.2 c List.mem_cons_self⟩
  | some d =>
    obtain ⟨x, -, rfl⟩ := hexPrefix_eq_some hp
    exact ⟨'0', x :: d, rfl, by decide⟩

theorem sign_hexNumber (h : HexNumber t) : sign (t ++ r) = (false, t ++ r) := by
  obtain ⟨c, s, rfl, hc⟩ := head_hexNumber h
  have hdigits : Digits 16 [c] := ⟨by simp, by simpa using hc⟩
  exact sign_digits (d := [c]) (by decide) hdigits

theorem convert_hex (hb : Blank b) (h : HexNumber t) (hr : Ends (!isSpace ·) r) :
    convert .hex (b ++ (t ++ r)) = some (.ulong (toULong false (hexValue t)), r) := by
  have ht := token_hexNumber h
  have hskip : skipSpace (b ++ (t ++ r)) = t ++ r :=
    skipSpace_blank hb (ends_append_of_ne_nil ht.1 (ends_of_forall ht.2))
  simp only [convert, hskip, sign_hexNumber h, hexDigits_eq h hr, Option.map_some]

theorem constDigits_eq (hd : Digits 10 d) (hconst : DecimalConst d) (hr : Ends (!isSpace ·) r) :
    constDigits (d ++ r) = some (value 10 d, r) := by
  have hd16 : Digits 16 d := ⟨hd.1, fun c hc => by
    have := hd.2 c hc
    rw [isDigit, decide_eq_true_eq] at this ⊢
    omega⟩
  have hhead : (d ++ r).head? = d.head? := by
    cases d with
    | nil => exact absurd rfl hd.1
    | cons c d => rfl
  rw [constDigits, hexPrefix_digits hd16 hr, hhead]
  dsimp only
  split
  · rename_i hzero
    obtain ⟨hval, hall⟩ := value_eight (hconst.resolve_left (not_not.mpr hzero)) hd.2
    rw [digits_eq ⟨hd.1, hall⟩ (ends_isDigit_of_gap (by decide) hr), hval]
  · exact digits_eq hd (ends_isDigit_of_gap (by decide) hr)

theorem toInt_of_lt {n : Nat} (hn : n < 2 ^ 31) : toInt false n = n := by
  have hclamp : max (-2 ^ 63) (min (n : Int) (2 ^ 63 - 1)) = n := by omega
  unfold toInt
  rw [if_neg Bool.false_ne_true, hclamp, Int.bmod_def]
  omega

theorem convert_int (hb : Blank b) (hd : Digits 10 d) (hconst : DecimalConst d)
    (hn : value 10 d < 2 ^ 31) (hr : Ends (!isSpace ·) r) :
    convert .int (b ++ (d ++ r)) = some (.int (value 10 d), r) := by
  have hskip : skipSpace (b ++ (d ++ r)) = d ++ r :=
    skipSpace_blank hb (ends_isSpace_digits (by decide) hd)
  simp only [convert, hskip, sign_digits (by decide) hd, constDigits_eq hd hconst hr,
    Option.map_some, toInt_of_lt hn]

/-- A letter begins no number. -/
theorem convert_int_none (hspace : !isSpace c) (hminus : c ≠ '-') (hplus : c ≠ '+')
    (hdigit : !isDigit 10 c) : convert .int (c :: s) = none := by
  have hskip : skipSpace (c :: s) = c :: s := List.dropWhile_cons_of_neg (by simpa using hspace)
  have hsign : sign (c :: s) = (false, c :: s) := sign_of_head hminus hplus
  have hzero : c ≠ '0' := by
    rintro rfl
    exact absurd hdigit (by decide)
  have hlead : hexPrefix (c :: s) = none := hexPrefix_of_head_ne hzero
  have hhead : (c :: s).head? ≠ some '0' := fun h => hzero (Option.some.inj h)
  have hdigits : digits 10 (c :: s) = none := digits_eq_none fun x hx => by
    rw [← Option.some.inj hx]
    exact hdigit
  simp only [convert, hskip, hsign, constDigits, hlead, if_neg hhead, hdigits, Option.map_none]

end Numbers

/-! ## 6. Printing a number, and reading it back -/

/-- `%x` -/
def printHex (n : Nat) : List Char := Nat.toDigits 16 n

/-- `%d` -/
def printInt (n : Int) : List Char :=
  if n < 0 then '-' :: Nat.toDigits 10 n.natAbs else Nat.toDigits 10 n.natAbs

/-- The value of a decimal constant, perhaps with a minus. -/
def readInt (s : List Char) : Int :=
  if s.head? = some '-' then -(value 10 s.tail) else value 10 s

theorem value_toDigits {base : Nat} (hlow : 1 < base) (hhigh : base ≤ 16) (n : Nat) :
    value base (Nat.toDigits base n) = n := by
  have hdigit : ∀ d < 16, digitVal (Nat.digitChar d) = d := by decide
  induction n using Nat.strong_induction_on with
  | _ n ih =>
    rw [Nat.toDigits_eq_if hlow]
    split
    · rename_i hn
      have hone : value base [Nat.digitChar n] =
          base * value base [] + digitVal (Nat.digitChar n) :=
        value_append_singleton [] (Nat.digitChar n)
      rw [hone, hdigit n (by omega), value, List.foldl_nil, Nat.mul_zero, Nat.zero_add]
    · rename_i hn
      have hlt : n / base < n := Nat.div_lt_self (by omega) hlow
      have hmod : n % base < base := Nat.mod_lt n (by omega)
      rw [value_append_singleton, ih (n / base) hlt, hdigit (n % base) (by omega)]
      exact Nat.div_add_mod n base

@[simp] theorem value_printHex (n : Nat) : value 16 (printHex n) = n :=
  value_toDigits (by decide) (by decide) n

theorem digits_toDigits {base : Nat} (hlow : 1 < base) (hhigh : base ≤ 16) (n : Nat) :
    Digits base (Nat.toDigits base n) := by
  have hdigit : ∀ d < 16, digitVal (Nat.digitChar d) = d := by decide
  have hone : ∀ d < base, isDigit base (Nat.digitChar d) := fun d hd => by
    rw [isDigit, hdigit d (by omega)]
    exact decide_eq_true hd
  induction n using Nat.strong_induction_on with
  | _ n ih =>
    rw [Nat.toDigits_eq_if hlow]
    split
    · rename_i hn
      exact ⟨by simp, fun c hc => by rw [List.mem_singleton.mp hc]; exact hone n hn⟩
    · rename_i hn
      have hlt : n / base < n := Nat.div_lt_self (by omega) hlow
      refine ⟨by simp, fun c hc => ?_⟩
      rcases List.mem_append.mp hc with hc | hc
      · exact (ih (n / base) hlt).2 c hc
      · rw [List.mem_singleton.mp hc]
        exact hone _ (Nat.mod_lt n (by omega))

/-- `%08x` -/
def printHex08 (n : Nat) : List Char :=
  List.replicate (8 - (printHex n).length) '0' ++ printHex n

theorem value_replicate_zero (base k : Nat) (d : List Char) :
    value base (List.replicate k '0' ++ d) = value base d := by
  induction k with
  | zero => rfl
  | succ k ih => exact ih

theorem hexNumber_of_digits {d : List Char} (hd : Digits 16 d) :
    HexNumber d ∧ hexValue d = value 16 d := by
  have hno := hexPrefix_digits (r := []) hd fun c hc => absurd hc (by simp)
  rw [List.append_nil] at hno
  rw [HexNumber, hexValue, hno]
  exact ⟨hd, rfl⟩

theorem digits_printHex08 (n : Nat) : Digits 16 (printHex08 n) := by
  have hd : Digits 16 (printHex n) := digits_toDigits (by decide) (by decide) n
  refine ⟨by simp [printHex08, hd.1], fun c hc => ?_⟩
  rcases List.mem_append.mp hc with hc | hc
  · rw [List.eq_of_mem_replicate hc]
    decide
  · exact hd.2 c hc

theorem hexNumber_printHex08 (n : Nat) :
    HexNumber (printHex08 n) ∧ hexValue (printHex08 n) = n := by
  obtain ⟨h, hval⟩ := hexNumber_of_digits (digits_printHex08 n)
  rw [hval, printHex08, value_replicate_zero, value_printHex]
  exact ⟨h, rfl⟩

@[simp] theorem readInt_printInt (n : Int) : readInt (printInt n) = n := by
  have hval : value 10 (Nat.toDigits 10 n.natAbs) = n.natAbs :=
    value_toDigits (by decide) (by decide) n.natAbs
  have hhead : (Nat.toDigits 10 n.natAbs).head? ≠ some '-' := by
    intro h
    have hdigit := Nat.isDigit_of_mem_toDigits (by decide) (by decide) (List.mem_of_mem_head? h)
    exact absurd hdigit (by decide)
  unfold printInt
  split
  · rename_i hneg
    rw [readInt, List.head?_cons, if_pos rfl, List.tail_cons, hval]
    omega
  · rename_i hpos
    rw [readInt, if_neg hhead, hval]
    omega

/-! ## 7. A newline at the end -/

section Newline

variable {p : Char → Bool} {base : Nat} {s t r : List Char}

theorem takeWhile_newline (hp : p '\n' = false) (s : List Char) :
    (s ++ ['\n']).takeWhile p = s.takeWhile p := by
  have hno : ¬ p '\n' = true := by rw [hp]; exact Bool.false_ne_true
  rw [List.takeWhile_append, List.takeWhile_cons_of_neg hno, List.append_nil]
  split
  · rename_i hlen
    exact ((List.takeWhile_prefix p).eq_of_length hlen).symm
  · rfl

theorem dropWhile_newline (hp : p '\n' = false) (s : List Char) :
    (s ++ ['\n']).dropWhile p = s.dropWhile p ++ ['\n'] := by
  have hno : ¬ p '\n' = true := by rw [hp]; exact Bool.false_ne_true
  rw [List.dropWhile_append, List.dropWhile_cons_of_neg hno]
  split
  · rename_i hnil
    rw [List.isEmpty_iff.mp hnil]
    rfl
  · rfl

theorem skipSpace_newline (s : List Char) :
    skipSpace (s ++ ['\n']) = if skipSpace s = [] then [] else skipSpace s ++ ['\n'] := by
  unfold skipSpace
  rw [List.dropWhile_append]
  simp only [List.isEmpty_iff]
  rfl

theorem sign_newline (s : List Char) : sign (s ++ ['\n']) = ((sign s).1, (sign s).2 ++ ['\n']) := by
  cases s with
  | nil => rfl
  | cons c s =>
    by_cases hminus : c = '-'
    · rw [hminus]
      rfl
    · by_cases hplus : c = '+'
      · rw [hplus]
        rfl
      · rw [List.cons_append, sign_of_head hminus hplus, sign_of_head hminus hplus]
        rfl

theorem hexPrefix_newline (s : List Char) :
    hexPrefix (s ++ ['\n']) = (hexPrefix s).map (· ++ ['\n']) := by
  cases s with
  | nil => rfl
  | cons c s =>
    by_cases hc : c = '0'
    · rw [hc]
      cases s with
      | nil => rfl
      | cons x s =>
        rw [List.cons_append, List.cons_append, hexPrefix, hexPrefix]
        split <;> rfl
    · rw [List.cons_append, hexPrefix_of_head_ne hc, hexPrefix_of_head_ne hc]
      rfl

theorem digits_newline (hbase : base ≤ 16) (s : List Char) :
    digits base (s ++ ['\n']) = (digits base s).map fun nr => (nr.1, nr.2 ++ ['\n']) := by
  have hnl : isDigit base '\n' = false := by
    have h16 : digitVal '\n' = 16 := by decide
    rw [isDigit, h16, decide_eq_false_iff_not]
    omega
  rw [digits, takeWhile_newline hnl, dropWhile_newline hnl, digits]
  split <;> rfl

theorem hexDigits_newline (s : List Char) :
    hexDigits (s ++ ['\n']) = (hexDigits s).map fun nr => (nr.1, nr.2 ++ ['\n']) := by
  rw [hexDigits, hexPrefix_newline, hexDigits]
  cases hexPrefix s with
  | none => exact digits_newline (by decide) s
  | some r => exact digits_newline (by decide) r

theorem constDigits_newline (s : List Char) :
    constDigits (s ++ ['\n']) = (constDigits s).map fun nr => (nr.1, nr.2 ++ ['\n']) := by
  have hhead : (s ++ ['\n']).head? = some '0' ↔ s.head? = some '0' := by
    cases s with
    | nil => decide
    | cons c s => exact Iff.rfl
  rw [constDigits, hexPrefix_newline, constDigits]
  simp only [hhead]
  cases hexPrefix s with
  | none =>
    dsimp only [Option.map_none]
    split
    · exact digits_newline (by decide) s
    · exact digits_newline (by decide) s
  | some r => exact digits_newline (by decide) r

/-- The conversion gives the same with a newline at the end, which may stay behind it. -/
theorem convert_newline (c : Conv) (s : List Char) :
    convert c (s ++ ['\n']) = convert c s ∨
      convert c (s ++ ['\n']) = (convert c s).map fun vr => (vr.1, vr.2 ++ ['\n']) := by
  have hskip := skipSpace_newline s
  split at hskip
  · rename_i hnil
    left
    simp only [convert, hskip, hnil]
  · rename_i hne
    right
    have hne' : skipSpace s ++ ['\n'] ≠ [] := by simp
    cases c with
    | str =>
      have htake := takeWhile_newline (p := (!isSpace ·)) (by decide) (skipSpace s)
      have hdrop := dropWhile_newline (p := (!isSpace ·)) (by decide) (skipSpace s)
      simp only [convert, hskip, if_neg hne, if_neg hne', htake, hdrop, Option.map_some]
    | ulong =>
      simp only [convert, hskip, sign_newline, digits_newline (by decide : 10 ≤ 16), Option.map_map]
      rfl
    | hex =>
      simp only [convert, hskip, sign_newline, hexDigits_newline, Option.map_map]
      rfl
    | int =>
      simp only [convert, hskip, sign_newline, constDigits_newline, Option.map_map]
      rfl
    | line =>
      have htake := takeWhile_newline (p := (· ≠ '\n')) (by decide) (skipSpace s)
      have hdrop := dropWhile_newline (p := (· ≠ '\n')) (by decide) (skipSpace s)
      simp only [convert, hskip, if_neg hne, if_neg hne', htake, hdrop, Option.map_some]

/-- **A newline at the end of the string is not seen.** -/
theorem sscanf_newline : ∀ (cs : List Conv) (s : List Char), sscanf cs (s ++ ['\n']) = sscanf cs s
  | [], _ => rfl
  | c :: cs, s => by
    rw [sscanf, sscanf]
    rcases convert_newline c s with h | h
    · rw [h]
    · rw [h]
      cases convert c s with
      | none => rfl
      | some vr => exact congrArg (vr.1 :: ·) (sscanf_newline cs vr.2)

theorem text_newline (hp : p '\n' = false)
    (h : (if s = [] then none else some (Value.text (s.takeWhile p), s.dropWhile p)) =
      some (.text t, r)) : '\n' ∉ t := by
  split at h
  · cases h
  · obtain ⟨ht, -⟩ := Prod.mk.inj (Option.some.inj h)
    rw [← Value.text.inj ht]
    intro hmem
    have hnl : p '\n' = true := List.mem_takeWhile_imp hmem
    rw [hp] at hnl
    cases hnl

/-- No text that is read has a newline. -/
theorem convert_text_newline {c : Conv} (h : convert c s = some (.text t, r)) : '\n' ∉ t := by
  unfold convert at h
  cases c with
  | str => exact text_newline (p := (!isSpace ·)) (by decide) h
  | ulong =>
    obtain ⟨x, -, hx⟩ := Option.map_eq_some_iff.mp h
    cases (Prod.mk.inj hx).1
  | hex =>
    obtain ⟨x, -, hx⟩ := Option.map_eq_some_iff.mp h
    cases (Prod.mk.inj hx).1
  | int =>
    obtain ⟨x, -, hx⟩ := Option.map_eq_some_iff.mp h
    cases (Prod.mk.inj hx).1
  | line => exact text_newline (p := (· ≠ '\n')) (by decide) h

theorem sscanf_text_newline {cs : List Conv} (h : .text t ∈ sscanf cs s) : '\n' ∉ t := by
  induction cs generalizing s with
  | nil => cases h
  | cons c cs ih =>
    rw [sscanf] at h
    split at h
    · cases h
    · rename_i v r hconv
      rcases List.mem_cons.mp h with rfl | h
      · exact convert_text_newline hconv
      · exact ih h

end Newline

end Scan
