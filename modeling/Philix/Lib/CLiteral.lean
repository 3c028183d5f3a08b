/-
# String literals of C

`readLiteral` reads the string literals at the start of a text as a C compiler does: trigraphs are
replaced, escape sequences stand for the characters they denote, and adjacent literals are one
string.  A string written between two quotes as it is reads back as itself exactly when it has
no trigraph, no backslash and no quote (`readLiteral_quoted_iff`): whatever is replaced denotes
less than it takes to write.
-/
import Philix.Lib.Scan
import Mathlib.Data.List.Infix

namespace CLiteral

open Scan

/-! ## 1. Translation phase 1 -/

/-- What a trigraph with this last character stands for. -/
def trigraph : Char → Option Char
  | '=' => some '#'
  | '/' => some '\\'
  | '\x27' => some '^'
  | '(' => some '['
  | ')' => some ']'
  | '!' => some '|'
  | '<' => some '\x7b'
  | '>' => some '\x7d'
  | '-' => some '~'
  | _ => none

def trigraphs : List Char → List Char
  | '?' :: '?' :: c :: s =>
    match trigraph c with
    | some d => d :: trigraphs s
    | none => '?' :: trigraphs ('?' :: c :: s)
  | c :: s => c :: trigraphs s
  | [] => []
termination_by structural s => s

/-- No trigraph anywhere in the string. -/
def NoTrigraph (s : List Char) : Prop := ∀ c ∈ s, (trigraph c).isSome → ¬ ['?', '?', c] <:+: s

instance (s : List Char) : Decidable (NoTrigraph s) := List.decidableBAll _ s

/-! ## 2. Literals -/

def simpleEscape : Char → Option Char
  | 'a' => some '\x07'
  | 'b' => some '\x08'
  | 't' => some '\t'
  | 'n' => some '\n'
  | 'v' => some '\x0b'
  | 'f' => some '\x0c'
  | 'r' => some '\r'
  | '\x22' => some '\x22'
  | '\x27' => some '\x27'
  | '?' => some '?'
  | '\\' => some '\\'
  | _ => none

/-- A universal character name of `n` digits, in UTF-8. -/
def universal (n : Nat) (t : List Char) : Option (List Char × List Char) :=
  if n ≤ t.length ∧ (t.take n).all (isDigit 16) then
    some ((String.utf8EncodeChar (.ofNat (value 16 (t.take n)))).map (.ofNat ·.toNat), t.drop n)
  else none

/-- An escape sequence behind its backslash: the characters it denotes, and the rest. -/
def escape : List Char → Option (List Char × List Char)
  | [] => none
  | c :: t =>
    match simpleEscape c with
    | some d => some ([d], t)
    | none =>
      if isDigit 8 c then
        let o := ((c :: t).take 3).takeWhile (isDigit 8)
        some ([.ofNat (value 8 o % 256)], (c :: t).drop o.length)
      else if c = 'x' then
        (digits 16 t).map fun x => ([.ofNat (x.1 % 256)], x.2)
      else if c = 'u' then universal 4 t
      else if c = 'U' then universal 8 t
      else none

theorem universal_length {n : Nat} {t d r : List Char} (hn : 4 ≤ n)
    (h : universal n t = some (d, r)) : d.length + r.length ≤ t.length := by
  unfold universal at h
  split at h
  · rename_i ht
    obtain ⟨rfl, rfl⟩ := Prod.mk.inj (Option.some.inj h)
    have hsize := Char.utf8Size_le_four (.ofNat (value 16 (t.take n)))
    rw [List.length_map, String.length_utf8EncodeChar, List.length_drop]
    omega
  · cases h

/-- An escape sequence is no shorter than what it denotes, its backslash aside. -/
theorem escape_length {t d r : List Char} (h : escape t = some (d, r)) :
    d.length + r.length ≤ t.length := by
  cases t with
  | nil => cases h
  | cons c t =>
    rw [escape] at h
    split at h
    · obtain ⟨rfl, rfl⟩ := Prod.mk.inj (Option.some.inj h)
      rw [List.length_cons, List.length_cons, List.length_nil]
      omega
    split at h
    · rename_i hc
      obtain ⟨rfl, rfl⟩ := Prod.mk.inj (Option.some.inj h)
      have hone : 1 ≤ (((c :: t).take 3).takeWhile (isDigit 8)).length := by
        rw [List.take_succ_cons, List.takeWhile_cons_of_pos hc, List.length_cons]
        omega
      rw [List.length_drop, List.length_cons, List.length_cons, List.length_nil]
      omega
    split at h
    · obtain ⟨x, hdigits, heq⟩ := Option.map_eq_some_iff.mp h
      obtain ⟨rfl, rfl⟩ := Prod.mk.inj heq
      unfold digits at hdigits
      split at hdigits
      · cases hdigits
      · obtain rfl := Option.some.inj hdigits
        have hrest := (List.dropWhile_suffix (l := t) (isDigit 16)).length_le
        rw [List.length_cons, List.length_cons, List.length_nil]
        dsimp only
        omega
    split at h
    · exact Nat.le_succ_of_le (universal_length (by decide) h)
    split at h
    · exact Nat.le_succ_of_le (universal_length (by decide) h)
    · cases h

/-- The characters up to the closing quote, and what follows it. -/
def body : List Char → Option (List Char × List Char)
  | [] => none
  | c :: t =>
    if c = '\x22' then some ([], t)
    else if c = '\n' then none
    else if c = '\\' then
      match h : escape t with
      | none => none
      | some (d, r) =>
        have : r.length < t.length + 1 := by
          have := escape_length h
          omega
        (body r).map fun x => (d ++ x.1, x.2)
    else (body t).map fun x => (c :: x.1, x.2)
termination_by t => t.length

/-- No character that means something else in a literal. -/
def Straight (d : List Char) : Prop := '\x22' ∉ d ∧ '\\' ∉ d

section Body

variable {t d k : List Char} {c : Char}

theorem straight_cons (hquote : c ≠ '\x22') (hslash : c ≠ '\\') (hd : Straight d) :
    Straight (c :: d) :=
  ⟨List.not_mem_cons_of_ne_of_not_mem hquote.symm hd.1,
    List.not_mem_cons_of_ne_of_not_mem hslash.symm hd.2⟩

theorem body_quote (t : List Char) : body ('\x22' :: t) = some ([], t) := by
  rw [body, if_pos rfl]

theorem body_escape (t : List Char) : body ('\\' :: t) =
    (escape t).bind fun e => (body e.2).map fun x => (e.1 ++ x.1, x.2) := by
  have hquote : ¬ '\\' = '\x22' := by decide
  have hnl : ¬ '\\' = '\n' := by decide
  rw [body, if_neg hquote, if_neg hnl, if_pos rfl]
  split
  · rename_i hnone
    rw [hnone]
    rfl
  · rename_i hsome
    conv_rhs => rw [hsome]
    rfl

theorem body_cons (hquote : c ≠ '\x22') (hnl : c ≠ '\n') (hslash : c ≠ '\\') (t : List Char) :
    body (c :: t) = (body t).map fun x => (c :: x.1, x.2) := by
  rw [body, if_neg hquote, if_neg hnl, if_neg hslash]

/-- A literal denotes what is between the quotes, or something shorter. -/
theorem body_eq_some (h : body t = some (d, k)) :
    (t = d ++ '\x22' :: k ∧ Straight d) ∨ d.length + k.length + 1 < t.length := by
  induction hn : t.length using Nat.strong_induction_on generalizing t d with
  | _ n ih =>
    subst hn
    cases t with
    | nil => simp [body] at h
    | cons c t =>
      by_cases hquote : c = '\x22'
      · rw [hquote, body_quote] at h
        obtain ⟨rfl, rfl⟩ := Prod.mk.inj (Option.some.inj h)
        exact Or.inl ⟨by rw [hquote]; rfl, List.not_mem_nil, List.not_mem_nil⟩
      by_cases hnl : c = '\n'
      · rw [body, if_neg hquote, if_pos hnl] at h
        cases h
      by_cases hslash : c = '\\'
      · rw [hslash, body_escape] at h
        obtain ⟨e, hesc, hrest⟩ := Option.bind_eq_some_iff.mp h
        obtain ⟨x, hx, heq⟩ := Option.map_eq_some_iff.mp hrest
        obtain ⟨rfl, rfl⟩ := Prod.mk.inj heq
        have hlen : e.1.length + e.2.length ≤ t.length := escape_length hesc
        have hle : x.1.length + x.2.length + 1 ≤ e.2.length := by
          rcases ih _ (by rw [List.length_cons]; omega) hx rfl with ⟨he, -⟩ | hlt
          · rw [he, List.length_append, List.length_cons]
            omega
          · exact Nat.le_of_lt hlt
        right
        rw [List.length_append, List.length_cons]
        omega
      rw [body_cons hquote hnl hslash] at h
      obtain ⟨x, hx, heq⟩ := Option.map_eq_some_iff.mp h
      obtain ⟨rfl, rfl⟩ := Prod.mk.inj heq
      rcases ih _ (by rw [List.length_cons]; omega) hx rfl with ⟨rfl, hs⟩ | hlt
      · exact Or.inl ⟨rfl, straight_cons hquote hslash hs⟩
      · right
        rw [List.length_cons, List.length_cons]
        omega

theorem body_straight (hd : Straight d) (hnl : '\n' ∉ d) (k : List Char) :
    body (d ++ '\x22' :: k) = some (d, k) := by
  induction d with
  | nil => exact body_quote k
  | cons c d ih =>
    obtain ⟨hquote, hslash⟩ := hd
    rw [List.mem_cons, not_or] at hquote hslash hnl
    rw [List.cons_append, body_cons (Ne.symm hquote.1) (Ne.symm hnl.1) (Ne.symm hslash.1),
      ih ⟨hquote.2, hslash.2⟩ hnl.2]
    rfl

theorem body_length (h : body t = some (d, k)) : d.length + k.length < t.length := by
  rcases body_eq_some h with ⟨rfl, -⟩ | hlt
  · rw [List.length_append, List.length_cons]
    omega
  · omega

end Body

/-! ## 3. Reading the strings -/

/-- The literals at the start of the text, with white space between them, as one string. -/
def strings : List Char → Option (List Char × List Char)
  | [] => none
  | c :: t =>
    if c = '\x22' then
      match h : body t with
      | none => none
      | some (d, k) =>
        have : (skipSpace k).length < t.length + 1 := by
          have hbody := body_length h
          have hskip := (List.dropWhile_suffix (l := k) isSpace).length_le
          rw [skipSpace]
          omega
        if (skipSpace k).head? = some '\x22' then
          (strings (skipSpace k)).map fun x => (d ++ x.1, x.2)
        else some (d, k)
    else none
termination_by t => t.length

/-- The strings at the start of a text, and the rest of it. -/
def readLiteral (t : List Char) : Option (List Char × List Char) := strings (trigraphs t)

/-- What is written for a string: a quote, the string, a quote, and the end of the statement. -/
def quoted (s : List Char) : List Char := '\x22' :: s ++ ['\x22', ';', '\n']

/-- The string denotes itself between quotes. -/
def Verbatim (s : List Char) : Prop := Straight s ∧ NoTrigraph s

instance (s : List Char) : Decidable (Verbatim s) :=
  inferInstanceAs (Decidable ((_ ∧ _) ∧ NoTrigraph s))

section Strings

variable {s t d k : List Char}

/-- The strings of a text are one literal that denotes what is between its quotes, or they are
shorter than the literals. -/
theorem strings_eq_some (h : strings t = some (d, k)) :
    (t = '\x22' :: d ++ '\x22' :: k ∧ Straight d) ∨ d.length + k.length + 2 < t.length := by
  induction hn : t.length using Nat.strong_induction_on generalizing t d with
  | _ n ih =>
    subst hn
    cases t with
    | nil => simp [strings] at h
    | cons c t =>
      rw [strings] at h
      split at h
      · rename_i hquote
        split at h
        · cases h
        · rename_i d₁ k₁ hbody
          have hskip := (List.dropWhile_suffix (l := k₁) isSpace).length_le
          have hlen : d₁.length + k₁.length < t.length := body_length hbody
          split at h
          · obtain ⟨x, hx, heq⟩ := Option.map_eq_some_iff.mp h
            obtain ⟨rfl, rfl⟩ := Prod.mk.inj heq
            have hle : x.1.length + x.2.length + 2 ≤ (skipSpace k₁).length := by
              rcases ih _ (by rw [List.length_cons, skipSpace]; omega) hx rfl with ⟨he, -⟩ | hlt
              · rw [he, List.length_append, List.length_cons, List.length_cons]
                omega
              · exact Nat.le_of_lt hlt
            right
            rw [skipSpace] at hle
            rw [List.length_append, List.length_cons]
            omega
          · obtain ⟨rfl, rfl⟩ := Prod.mk.inj (Option.some.inj h)
            rcases body_eq_some hbody with ⟨rfl, hs⟩ | hlt
            · exact Or.inl ⟨by rw [hquote]; rfl, hs⟩
            · right
              rw [List.length_cons]
              omega
      · cases h

theorem strings_straight (hd : Straight d) (hnl : '\n' ∉ d)
    (hk : (skipSpace k).head? ≠ some '\x22') :
    strings ('\x22' :: d ++ '\x22' :: k) = some (d, k) := by
  have hbody := body_straight hd hnl k
  rw [List.cons_append, strings, if_pos rfl]
  split
  · rename_i hnone
    rw [hbody] at hnone
    cases hnone
  · rename_i d₁ k₁ hsome
    rw [hbody] at hsome
    obtain ⟨rfl, rfl⟩ := Prod.mk.inj (Option.some.inj hsome)
    exact if_neg hk

theorem mem_of_trigraph {c : Char} (h : ['?', '?', c] <:+: s) : c ∈ s := h.subset (by simp)

theorem noTrigraph_cons {a : Char} : NoTrigraph (a :: s) ↔
    (∀ c, (trigraph c).isSome → ¬ ['?', '?', c] <+: a :: s) ∧ NoTrigraph s := by
  constructor
  · intro h
    refine ⟨fun c hc hpre => ?_, fun c hmem hc hinf => ?_⟩
    · exact h c (mem_of_trigraph hpre.isInfix) hc hpre.isInfix
    · exact h c (List.mem_cons_of_mem _ hmem) hc (List.infix_cons hinf)
  · rintro ⟨hpre, hrest⟩ c - hc hinf
    rcases List.infix_cons_iff.mp hinf with h | h
    · exact hpre c hc h
    · exact hrest c (mem_of_trigraph h) hc h

theorem trigraph_eq_of_lead {c e : Char} (h : ['?', '?', e] <+: '?' :: '?' :: c :: s) : e = c := by
  simpa using h

/-- Replacing trigraphs shortens a string, unless it has none. -/
theorem trigraphs_length (s : List Char) :
    (trigraphs s = s ∧ NoTrigraph s) ∨ (trigraphs s).length < s.length := by
  induction s using trigraphs.induct with
  | case1 c s d hc ih =>
    right
    have hle : (trigraphs s).length ≤ s.length := by
      rcases ih with ⟨hsame, -⟩ | hlt
      · rw [hsame]
      · exact Nat.le_of_lt hlt
    rw [trigraphs, hc, List.length_cons, List.length_cons, List.length_cons, List.length_cons]
    omega
  | case2 c s hc ih =>
    rw [trigraphs, hc]
    rcases ih with ⟨hsame, hno⟩ | hlt
    · refine Or.inl ⟨congrArg ('?' :: ·) hsame, noTrigraph_cons.mpr ⟨fun e he hpre => ?_, hno⟩⟩
      rw [trigraph_eq_of_lead hpre, hc] at he
      cases he
    · right
      rw [List.length_cons, List.length_cons]
      exact Nat.succ_lt_succ hlt
  | case3 c s hno ih =>
    rw [trigraphs]
    · rcases ih with ⟨hsame, hrest⟩ | hlt
      · refine Or.inl ⟨congrArg (c :: ·) hsame, noTrigraph_cons.mpr ⟨fun e _ hpre => ?_, hrest⟩⟩
        obtain ⟨r, hr⟩ := hpre
        exact hno e r (List.cons.inj hr).1.symm (List.cons.inj hr).2.symm
      · right
        rw [List.length_cons, List.length_cons]
        exact Nat.succ_lt_succ hlt
    · exact hno
  | case4 => exact Or.inl ⟨rfl, by decide⟩

theorem trigraphs_of_none (h : NoTrigraph s) : trigraphs s = s := by
  induction s using trigraphs.induct with
  | case1 c s d hc ih =>
    have hpre : ['?', '?', c] <+: '?' :: '?' :: c :: s := ⟨s, rfl⟩
    exact absurd hpre ((noTrigraph_cons.mp h).1 c (by rw [hc]; rfl))
  | case2 c s hc ih =>
    rw [trigraphs, hc]
    exact congrArg ('?' :: ·) (ih (noTrigraph_cons.mp h).2)
  | case3 c s hno ih =>
    rw [trigraphs]
    · exact congrArg (c :: ·) (ih (noTrigraph_cons.mp h).2)
    · exact hno
  | case4 => rfl

theorem trigraphs_append_quote (s : List Char) :
    trigraphs (s ++ ['\x22', ';', '\n']) = trigraphs s ++ ['\x22', ';', '\n'] := by
  induction s using trigraphs.induct with
  | case1 c s d hc ih =>
    rw [List.cons_append, List.cons_append, List.cons_append, trigraphs, trigraphs, hc, ih]
    rfl
  | case2 c s hc ih =>
    rw [List.cons_append, List.cons_append, List.cons_append, trigraphs, trigraphs, hc]
    exact congrArg ('?' :: ·) ih
  | case3 c s hno ih =>
    by_cases hmark : c = '?' ∧ s = ['?']
    · rw [hmark.1, hmark.2]
      rfl
    · rw [List.cons_append, trigraphs, trigraphs, ih]
      · rfl
      · exact hno
      · intro x r hc hr
        match s, hno, hmark, hr with
        | [], _, _, hr => cases (List.cons.inj hr).1
        | [y], _, hmark, hr => exact hmark ⟨hc, by rw [(List.cons.inj hr).1]⟩
        | y :: z :: s, hno, _, hr => exact hno z s hc (by rw [(List.cons.inj hr).1])
  | case4 => rfl

/-- A quote ends whatever could be a trigraph. -/
theorem trigraphs_quoted (s : List Char) :
    trigraphs (quoted s) = '\x22' :: trigraphs s ++ ['\x22', ';', '\n'] := by
  rw [quoted, List.cons_append, List.cons_append, ← trigraphs_append_quote, trigraphs]
  intro x r h
  exact absurd h (by decide)

/-- **A string in quotes reads back as itself** exactly when it has no quotes, no backslashes
and no trigraphs. -/
theorem readLiteral_quoted_iff (hnl : '\n' ∉ s) :
    readLiteral (quoted s) = some (s, [';', '\n']) ↔ Verbatim s := by
  rw [readLiteral, trigraphs_quoted]
  constructor
  · intro h
    have htri := trigraphs_length s
    rcases strings_eq_some h with ⟨heq, hs⟩ | hlt
    · have hsame : trigraphs s = s := List.append_cancel_right (List.cons.inj heq).2
      rcases htri with ⟨-, hno⟩ | hlt
      · exact ⟨hs, hno⟩
      · rw [hsame] at hlt
        exact absurd hlt (Nat.lt_irrefl _)
    · have hle : (trigraphs s).length ≤ s.length := by
        rcases htri with ⟨hsame, -⟩ | hlt
        · rw [hsame]
        · exact Nat.le_of_lt hlt
      rw [List.length_append, List.length_cons, List.length_cons, List.length_cons,
        List.length_cons, List.length_nil] at hlt
      rw [List.length_cons, List.length_cons, List.length_nil] at hlt
      omega
  · rintro ⟨hs, hno⟩
    rw [trigraphs_of_none hno]
    exact strings_straight hs hnl (by decide)

end Strings

end CLiteral
