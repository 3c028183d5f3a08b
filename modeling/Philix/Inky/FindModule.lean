/-
# Finding a module by the name of its image

The command line of a module is its image path, a space and its arguments.
`multiboot_find_module` does not take the two apart: `strrchr` looks for the last `/` of the
whole line, and not at its first character, and `strncmp` reads on from the path into the
arguments.  `findByPath` is the search by the path alone; `Misread` says of a line and a name
when the two disagree on it.
-/
import Philix.Inky.Loader
import Philix.Lib.AfterLast
import Mathlib.Data.List.Find

namespace Philix.Inky

open AfterLast

/-! ## 1. The search by the path -/

/-- The command line up to its first space. -/
def imagePath (line : List Char) : List Char := line.takeWhile (· ≠ ' ')

/-- The rest of it: nothing, or a space and the arguments. -/
def arguments (line : List Char) : List Char := line.dropWhile (· ≠ ' ')

/-- The last component of the image path. -/
def imageName (line : List Char) : List Char := afterLast '/' (imagePath line)

/-- The first module whose image path has a last component that begins with the name. -/
def findByPath (mods : List ModInfo) (name : List Char) : Option ModInfo :=
  mods.find? fun mod => decide (name <+: imageName mod.string)

/-- The characters of a command line: a string of C, without its terminating zero. -/
def CString (s : List Char) : Prop := '\x00' ∉ s ∧ s.length < 4294967296

/-! ## 2. What the functions of `lib.c` compute -/

section Lib

theorem charInt_inj {x y : Char} (h : charInt x = charInt y) : x = y := by
  rw [charInt, charInt] at h
  refine Char.toNat_inj.mp ?_
  split_ifs at h <;> omega

theorem charAt_cons (x : Char) (s : List Char) : charAt (x :: s) = charInt x := rfl

theorem charAt_eq_zero {s : List Char} (h : '\x00' ∉ s) (h0 : charAt s = 0) : s = [] := by
  cases s with
  | nil => rfl
  | cons x s =>
    have hnul : x = '\x00' := charInt_inj h0
    exact absurd (hnul ▸ List.mem_cons_self) h

/-- **`strncmp` over a whole string** tests for a prefix. -/
theorem strncmp_eq_zero_iff : ∀ {s₂ s₁ : List Char}, '\x00' ∉ s₁ → '\x00' ∉ s₂ →
    (strncmp s₁ s₂ s₂.length = 0 ↔ s₂ <+: s₁)
  | [], s₁, _, _ => by simp [strncmp]
  | y :: s₂, s₁, h₁, h₂ => by
    have hy : charAt (y :: s₂) ≠ 0 := fun h => by cases charAt_eq_zero h₂ h
    rw [List.length_cons, strncmp]
    cases s₁ with
    | nil =>
      have hne : charAt (y :: s₂) - charAt [] ≠ 0 := by
        have h0 : charAt [] = 0 := rfl
        rwa [h0, Int.sub_zero]
      rw [if_pos hne]
      exact ⟨fun h => absurd h hne, fun h => by simp at h⟩
    | cons x s₁ =>
      rw [List.mem_cons, not_or] at h₁ h₂
      have ih := strncmp_eq_zero_iff h₁.2 h₂.2
      rw [List.prefix_cons_iff]
      by_cases hxy : y = x
      · subst hxy
        have hsame : ¬ charAt (y :: s₂) - charAt (y :: s₁) ≠ 0 := not_not.mpr (Int.sub_self _)
        have hone : ¬ (charAt (y :: s₁) = 0 ∨ charAt (y :: s₂) = 0) :=
          fun h => hy (or_self_iff.mp h)
        rw [if_neg hsame, if_neg hone, List.tail_cons, List.tail_cons, ih]
        constructor
        · intro h
          exact Or.inr ⟨s₂, rfl, h⟩
        · rintro (h | ⟨t, h, ht⟩)
          · cases h
          · rwa [(List.cons.inj h).2]
      · have hne : charAt (y :: s₂) - charAt (x :: s₁) ≠ 0 := by
          rw [charAt_cons, charAt_cons]
          intro h
          exact hxy (charInt_inj (Int.eq_of_sub_eq_zero h))
        rw [if_pos hne]
        constructor
        · intro h
          exact absurd h hne
        · rintro (h | ⟨t, h, -⟩)
          · cases h
          · exact absurd (List.cons.inj h).1 hxy

end Lib

section Strrchr

variable {s : List Int8} {c : Int32} {x : Int8} {t : List Int8} {n i : Nat}

theorem strrchrFrom_eq_some : ∀ {n : Nat}, strrchrFrom s c n = some i →
    0 < i ∧ i ≤ n ∧ s[i]?.map Int8.toInt32 = some c ∧
      ∀ j, i < j → j ≤ n → s[j]?.map Int8.toInt32 ≠ some c
  | n + 1, h => by
    rw [strrchrFrom] at h
    split at h
    · rename_i hc
      obtain rfl := Option.some.inj h
      exact ⟨Nat.succ_pos n, Nat.le_refl _, hc, fun j hj hjn => absurd hj (by omega)⟩
    · rename_i hc
      obtain ⟨hpos, hle, hi, hlast⟩ := strrchrFrom_eq_some h
      refine ⟨hpos, Nat.le_succ_of_le hle, hi, fun j hj hjn => ?_⟩
      rcases Nat.lt_or_eq_of_le hjn with hjn | rfl
      · exact hlast j hj (Nat.le_of_lt_succ hjn)
      · exact hc

theorem strrchrFrom_eq_none : ∀ {n : Nat}, strrchrFrom s c n = none →
    ∀ j, 0 < j → j ≤ n → s[j]?.map Int8.toInt32 ≠ some c
  | 0, _, j, hj, hjn => absurd hj (by omega)
  | n + 1, h, j, hj, hjn => by
    rw [strrchrFrom] at h
    split at h
    · cases h
    · rename_i hc
      rcases Nat.lt_or_eq_of_le hjn with hjn | rfl
      · exact strrchrFrom_eq_none h j hj (Nat.le_of_lt_succ hjn)
      · exact hc

/-- The loop starts at the last character. -/
theorem strrchr_cons (hlen : (x :: t).length ≤ 4294967296) :
    strrchr (x :: t) c = strrchrFrom (x :: t) c t.length := by
  rw [List.length_cons] at hlen
  rw [strrchr, List.length_cons, if_neg (Nat.succ_ne_zero _), Nat.add_sub_cancel,
    Nat.mod_eq_of_lt (by omega)]

/-- Nothing found: no character behind the first one has the value `c`. -/
theorem ne_of_strrchrFrom (h : strrchrFrom (x :: t) c t.length = none) :
    ∀ y ∈ t, y.toInt32 ≠ c := by
  intro y hy hc
  obtain ⟨j, hj⟩ := List.mem_iff_getElem?.mp hy
  have hlt := (List.getElem?_eq_some_iff.mp hj).1
  refine strrchrFrom_eq_none h (j + 1) (Nat.succ_pos j) hlt ?_
  rw [List.getElem?_cons_succ, hj, Option.map_some, hc]

/-- A position found is behind the first character, and no later character has the value `c`. -/
theorem last_of_strrchrFrom (h : strrchrFrom (x :: t) c t.length = some i) :
    ∃ k y, i = k + 1 ∧ t[k]? = some y ∧ y.toInt32 = c ∧
      ∀ j z, k < j → t[j]? = some z → z.toInt32 ≠ c := by
  obtain ⟨hpos, -, hi, hno⟩ := strrchrFrom_eq_some h
  obtain ⟨k, rfl⟩ := Nat.exists_eq_succ_of_ne_zero (Nat.ne_of_gt hpos)
  rw [List.getElem?_cons_succ, Option.map_eq_some_iff] at hi
  obtain ⟨y, hy, hc⟩ := hi
  refine ⟨k, y, rfl, hy, hc, fun j z hj hz hzc => ?_⟩
  have hlt := (List.getElem?_eq_some_iff.mp hz).1
  refine hno (j + 1) (Nat.succ_lt_succ hj) hlt ?_
  rw [List.getElem?_cons_succ, hz, Option.map_some, hzc]

/-- `r` is the position of the last `c` of the string, or there is none. -/
def IsLast (s : List Int8) (c : Int8) : Option Nat → Prop
  | none => c ∉ s
  | some i => s[i]? = some c ∧ c ∉ s.drop (i + 1)

instance (s : List Int8) (c : Int8) : ∀ r, Decidable (IsLast s c r)
  | none => inferInstanceAs (Decidable (c ∉ s))
  | some _ => inferInstanceAs (Decidable (_ ∧ _))

/-- **`strrchr` finds the last `c`**, the `int` converted to a `char`, exactly when there is
none, or the conversion keeps the value and one stands behind the first character. -/
theorem strrchr_last_iff (s : List Int8) (c : Int32) (hnul : 0 ∉ s)
    (hlen : s.length < 4294967296) :
    IsLast s c.toInt8 (strrchr s c) ↔
      c.toInt8 ∉ s ∨ c.toInt8.toInt32 = c ∧ c.toInt8 ∈ s.tail := by
  cases s with
  | nil => exact ⟨Or.inl, fun _ => List.not_mem_nil⟩
  | cons x t =>
    rw [strrchr_cons (Nat.le_of_lt hlen), List.tail_cons]
    cases hr : strrchrFrom (x :: t) c t.length with
    | none => exact ⟨Or.inl, fun h => h.resolve_right fun h => ne_of_strrchrFrom hr _ h.2 h.1⟩
    | some i =>
      obtain ⟨k, y, rfl, hy, rfl, hno⟩ := last_of_strrchrFrom hr
      rw [Int8.toInt8_toInt32]
      have hmem : y ∈ t := List.mem_iff_getElem?.mpr ⟨k, hy⟩
      refine ⟨fun _ => Or.inr ⟨rfl, hmem⟩, fun _ => ⟨by simpa using hy, fun hrest => ?_⟩⟩
      obtain ⟨j, hj⟩ := List.mem_iff_getElem?.mp hrest
      rw [List.drop_succ_cons, List.getElem?_drop] at hj
      exact hno _ y (by omega) hj rfl

/-- The last `/` of `/bin/c`. -/
theorem strrchr_last_iff_path :
    IsLast [47, 98, 105, 110, 47, 99] (Int32.toInt8 47) (strrchr [47, 98, 105, 110, 47, 99] 47) ↔
      Int32.toInt8 47 ∉ [47, 98, 105, 110, 47, 99] ∨
        (Int32.toInt8 47).toInt32 = 47 ∧ Int32.toInt8 47 ∈ [98, 105, 110, 47, 99] :=
  strrchr_last_iff [47, 98, 105, 110, 47, 99] 47 (by decide) (by simp)

/-- The loop ends before it comes to position `0`, the `/` of `/c`, and a byte from `128` on
(here `0xE9`, behind `ab`) is never equal to the `int` it comes from. -/
theorem strrchr_misses :
    strrchr [47, 99] 47 = none ∧ ¬ IsLast [47, 99] (Int32.toInt8 47) (strrchr [47, 99] 47) ∧
    strrchr [97, 98, -23] 0xE9 = none ∧ (Int32.toInt8 0xE9) = -23 ∧
    ¬ IsLast [97, 98, -23] (Int32.toInt8 0xE9) (strrchr [97, 98, -23] 0xE9) := by
  decide

end Strrchr

section Modname

variable {s : List Char}

theorem charByte_eq_slash (x : Char) : (charByte x).toInt32 = 47 ↔ x = '/' := by
  have hmin : (((min x.toNat 255 : Nat) : Int).bmod 256 = 47) ↔ x.toNat = 47 := by
    rw [Int.bmod_def]
    omega
  rw [charByte, ← Int32.toInt_inj, Int8.toInt_toInt32, Int8.toInt_ofNat', ← Char.toNat_inj]
  exact hmin

/-- **The name in a command line, as the code sees it**: what follows the last `/` after the
first character, or all of the line. -/
theorem modname_eq (hlen : s.length ≤ 4294967296) :
    modname s = if '/' ∈ s.tail then afterLast '/' s else s := by
  cases s with
  | nil => rfl
  | cons x t =>
    have hlen' : (charByte x :: t.map charByte).length ≤ 4294967296 := by simpa using hlen
    rw [modname, List.map_cons, strrchr_cons hlen', List.tail_cons]
    cases hr : strrchrFrom (charByte x :: t.map charByte) 47 (t.map charByte).length with
    | none =>
      have hslash : '/' ∉ t := fun h =>
        ne_of_strrchrFrom hr _ (List.mem_map_of_mem h) ((charByte_eq_slash '/').mpr rfl)
      rw [if_neg hslash]
    | some i =>
      obtain ⟨k, y, rfl, hy, hc, hno⟩ := last_of_strrchrFrom hr
      rw [List.getElem?_map, Option.map_eq_some_iff] at hy
      obtain ⟨z, hz, rfl⟩ := hy
      obtain rfl := (charByte_eq_slash z).mp hc
      have hlast : ∀ j, k + 1 < j → (x :: t)[j]? ≠ some '/' := by
        intro j hj h
        obtain ⟨j, rfl⟩ := Nat.exists_eq_succ_of_ne_zero (Nat.ne_of_gt (Nat.zero_lt_of_lt hj))
        rw [List.getElem?_cons_succ] at h
        refine hno j (charByte '/') (Nat.lt_of_succ_lt_succ hj) ?_ ((charByte_eq_slash '/').mpr rfl)
        rw [List.getElem?_map, h, Option.map_some]
      rw [if_pos (List.mem_iff_getElem?.mpr ⟨k, hz⟩), afterLast_eq_drop (by simpa using hz) hlast]

end Modname

/-! ## 3. Where the two searches differ -/

/-- The name stands where one of the two searches looks for it: at the start of the path's last
component, or behind the last `/` of the line after its first character (at its start, if there
is none). -/
def Candidate (name line : List Char) : Prop :=
  name <+: imageName line ∨ name <+: if '/' ∈ line.tail then afterLast '/' line else line

instance (name line : List Char) : Decidable (Candidate name line) :=
  inferInstanceAs (Decidable (_ ∨ _))

/-- The searches disagree on a line:

* with a `/` in the arguments, when the name begins what follows it or the last component, and
  not the other;
* with a path whose only `/` comes first, when it begins the line or the last component, and
  is not empty;
* otherwise, when it goes past the path into the arguments. -/
def Misread (name line : List Char) : Prop :=
  if '/' ∈ arguments line then ¬ (name <+: afterLast '/' line ↔ name <+: imageName line)
  else if (imagePath line).head? = some '/' ∧ '/' ∉ (imagePath line).tail then
    name ≠ [] ∧ (name <+: line ∨ name <+: imageName line)
  else imageName line ++ [' '] <+: name ∧ name <+: imageName line ++ arguments line

section Misread

variable {name line : List Char}

theorem path_append_arguments (line : List Char) : imagePath line ++ arguments line = line :=
  List.takeWhile_append_dropWhile

/-- The arguments start with the space. -/
theorem arguments_cases (line : List Char) :
    arguments line = [] ∨ ∃ args, arguments line = ' ' :: args := by
  induction line with
  | nil => exact Or.inl rfl
  | cons x line ih =>
    rw [arguments, List.dropWhile_cons]
    by_cases hx : x = ' '
    · subst hx
      exact Or.inr ⟨line, by simp⟩
    · rw [if_pos (by simpa using hx)]
      exact ih

/-- A name that begins the component and what is behind it stays in the component, or goes past
its end. -/
theorem prefix_component_iff {a r : List Char} (hr : r = [] ∨ ∃ args, r = ' ' :: args) :
    name <+: a ++ r ↔ name <+: a ∨ a ++ [' '] <+: name ∧ name <+: a ++ r := by
  rcases hr with rfl | ⟨args, rfl⟩
  · rw [List.append_nil]
    exact ⟨Or.inl, fun h => h.elim id And.right⟩
  · exact isPrefix_append_iff

theorem not_prefix_of_past {a p : List Char} {x : Char} (h : a ++ [x] <+: p) : ¬ p <+: a := by
  intro h'
  have h1 := h.length_le
  have h2 := h'.length_le
  rw [List.length_append, List.length_singleton] at h1
  omega

/-- Where the code looks is the last component and then the arguments, when these have no `/`
and the path has none or one after its first character. -/
theorem searched_eq (harg : '/' ∉ arguments line)
    (hpath : ¬ ((imagePath line).head? = some '/' ∧ '/' ∉ (imagePath line).tail)) :
    (if '/' ∈ line.tail then afterLast '/' line else line) = imageName line ++ arguments line := by
  have hafter : afterLast '/' line = imageName line ++ arguments line := by
    rw [imageName, ← afterLast_append harg, path_append_arguments]
  split
  case isTrue => exact hafter
  case isFalse htail =>
    have hmem : '/' ∉ line := by
      intro h
      cases hline : line with
      | nil =>
        rw [hline] at h
        exact absurd h List.not_mem_nil
      | cons x t =>
        rw [hline, List.tail_cons] at htail
        rw [hline, List.mem_cons] at h
        obtain rfl := h.resolve_right htail
        refine hpath ⟨?_, ?_⟩
        · rw [hline, imagePath, List.takeWhile_cons, if_pos (by decide)]
          rfl
        · rw [hline, imagePath, List.takeWhile_cons, if_pos (by decide), List.tail_cons]
          exact fun h => htail (List.takeWhile_subset _ h)
    rw [← hafter, afterLast_of_not_mem hmem]

/-- A `/` in the arguments is not the line's first character. -/
theorem slash_mem_tail (harg : '/' ∈ arguments line) : '/' ∈ line.tail := by
  rcases arguments_cases line with h | ⟨args, h⟩
  · rw [h] at harg
    exact absurd harg List.not_mem_nil
  · have hargs : '/' ∈ args := by
      rw [h, List.mem_cons] at harg
      exact harg.resolve_left (by decide)
    rw [← path_append_arguments line, h]
    cases imagePath line with
    | nil => exact hargs
    | cons x p => simp [hargs]

/-- A line whose only `/` is its first character. -/
theorem rooted_line (harg : '/' ∉ arguments line)
    (hpath : (imagePath line).head? = some '/' ∧ '/' ∉ (imagePath line).tail) :
    line = '/' :: line.tail ∧ '/' ∉ line.tail ∧ '/' ∉ imageName line := by
  obtain ⟨hhead, htail⟩ := hpath
  have hline := path_append_arguments line
  cases hp : imagePath line with
  | nil =>
    rw [hp] at hhead
    cases hhead
  | cons x p =>
    rw [hp, List.head?_cons] at hhead
    obtain rfl := Option.some.inj hhead
    rw [hp, List.tail_cons] at htail
    rw [hp, List.cons_append] at hline
    refine ⟨?_, ?_, ?_⟩
    · rw [← hline, List.tail_cons]
    · rw [← hline, List.tail_cons, List.mem_append, not_or]
      exact ⟨htail, harg⟩
    · rwa [imageName, hp, afterLast, if_neg htail, if_pos rfl]

/-- **On one line**: the two searches disagree exactly when it is misread. -/
theorem misread_iff (name line : List Char) :
    ((name <+: if '/' ∈ line.tail then afterLast '/' line else line) ↔ name <+: imageName line) ↔
      ¬ Misread name line := by
  unfold Misread
  by_cases harg : '/' ∈ arguments line
  · rw [if_pos harg, if_pos (slash_mem_tail harg), not_not]
  rw [if_neg harg]
  by_cases hpath : (imagePath line).head? = some '/' ∧ '/' ∉ (imagePath line).tail
  · rw [if_pos hpath]
    -- the line starts with a `/` that the code does not see
    obtain ⟨hline, htail, hno⟩ := rooted_line harg hpath
    rw [if_neg htail]
    cases name with
    | nil => simp
    | cons y name =>
      have hnot : ¬ (y :: name <+: line ∧ y :: name <+: imageName line) := by
        rintro ⟨h1, h2⟩
        rw [hline, List.cons_prefix_cons] at h1
        exact hno (h1.1 ▸ h2.subset List.mem_cons_self)
      simp only [ne_eq, reduceCtorEq, not_false_eq_true, true_and, not_or]
      constructor
      · intro h
        exact ⟨fun h1 => hnot ⟨h1, h.mp h1⟩, fun h2 => hnot ⟨h.mpr h2, h2⟩⟩
      · rintro ⟨h1, h2⟩
        exact ⟨fun h => absurd h h1, fun h => absurd h h2⟩
  · have hparts : name <+: imageName line ++ arguments line ↔ _ :=
      prefix_component_iff (arguments_cases line)
    rw [if_neg hpath, searched_eq harg hpath]
    constructor
    · rintro h ⟨hpast, hpre⟩
      exact not_prefix_of_past hpast (h.mp hpre)
    · intro h
      exact ⟨fun h' => (hparts.mp h').resolve_right h, fun h' => hparts.mpr (Or.inl h')⟩

end Misread

/-! ## 4. The search through the table -/

section Table

variable {mods : List ModInfo} {name : List Char}

/-- The search of the code, as a search for a prefix. -/
theorem multibootFindModule_eq (hname : '\x00' ∉ name) (hmods : ∀ mod ∈ mods, CString mod.string) :
    multibootFindModule mods name = mods.find? fun mod =>
      decide (name <+: if '/' ∈ mod.string.tail then afterLast '/' mod.string
        else mod.string) := by
  refine List.find?_congr fun mod hmod => ?_
  have hline := hmods mod hmod
  have hnul : '\x00' ∉ modname mod.string := by
    intro h
    rw [modname] at h
    split at h
    · exact hline.1 h
    · exact hline.1 (List.mem_of_mem_drop h)
  rw [decide_eq_decide, strncmp_eq_zero_iff hnul hname, modname_eq (Nat.le_of_lt hline.2)]

/-- A name without a space, arguments without a `/`, and no path whose only `/` comes first:
nothing is misread. -/
theorem find_module_of_plain (hname : '\x00' ∉ name) (hmods : ∀ mod ∈ mods, CString mod.string)
    (hspace : ' ' ∉ name) (hargs : ∀ mod ∈ mods, '/' ∉ arguments mod.string)
    (hpaths : ∀ mod ∈ mods, ¬ ((imagePath mod.string).head? = some '/' ∧
      '/' ∉ (imagePath mod.string).tail)) :
    multibootFindModule mods name = findByPath mods name := by
  rw [multibootFindModule_eq hname hmods, findByPath]
  refine List.find?_congr fun mod hmod => ?_
  have hread : ¬ Misread name mod.string := by
    rw [Misread, if_neg (hargs mod hmod), if_neg (hpaths mod hmod)]
    rintro ⟨h, -⟩
    exact hspace (h.subset (List.mem_append_right _ (List.mem_singleton.mpr rfl)))
  rw [decide_eq_decide]
  exact (misread_iff name mod.string).mpr hread

end Table

/-- **When the search finds the module it should.**  For every table and every name: the module
found is the first whose image path has a last component that begins with the name, if and only
if the first module that is a candidate, if there is one, has a line that is not misread. -/
theorem find_module_iff (mods : List ModInfo) (name : List Char) (hname : '\x00' ∉ name)
    (hmods : ∀ mod ∈ mods, CString mod.string) :
    multibootFindModule mods name = findByPath mods name ↔
      ∀ mod, (mods.find? fun mod => decide (Candidate name mod.string)) = some mod →
        ¬ Misread name mod.string := by
  have hcand : (mods.find? fun mod => decide (Candidate name mod.string)) =
      mods.find? fun mod =>
        decide (name <+: if '/' ∈ mod.string.tail then afterLast '/' mod.string else mod.string) ||
          decide (name <+: imageName mod.string) := by
    refine List.find?_congr fun mod _ => ?_
    rw [← Bool.decide_or, decide_eq_decide, Candidate, or_comm]
  rw [multibootFindModule_eq hname hmods, findByPath, find?_eq_find?_iff, hcand]
  refine forall_congr' fun mod => imp_congr_right fun _ => ?_
  rw [decide_eq_true_eq, decide_eq_true_eq]
  exact misread_iff name mod.string

/-- `/sbin/cpu loglevel=4` -/
def cpuModule : ModInfo :=
  ⟨0, 0x1000, ['/', 's', 'b', 'i', 'n', '/', 'c', 'p', 'u', ' ', 'l', 'o', 'g', 'l', 'e', 'v',
    'e', 'l', '=', '4']⟩

theorem find_module_iff_cpu :
    multibootFindModule [cpuModule] ['c', 'p', 'u'] = findByPath [cpuModule] ['c', 'p', 'u'] ↔
      ∀ mod, ([cpuModule].find? fun mod => decide (Candidate ['c', 'p', 'u'] mod.string)) =
        some mod → ¬ Misread ['c', 'p', 'u'] mod.string :=
  find_module_iff [cpuModule] ['c', 'p', 'u'] (by decide) fun mod hmod => by
    obtain rfl := List.mem_singleton.mp hmod
    exact ⟨by decide, by decide⟩

/-- `/sbin/cpu root=/dev/sda` -/
def rootModule : ModInfo :=
  ⟨0, 0x1000, ['/', 's', 'b', 'i', 'n', '/', 'c', 'p', 'u', ' ', 'r', 'o', 'o', 't', '=', '/',
    'd', 'e', 'v', '/', 's', 'd', 'a']⟩

/-- A path in the arguments hides the module; its last component stands for the module's. -/
theorem argument_hides_module :
    multibootFindModule [rootModule] ['c', 'p', 'u'] = none ∧
    findByPath [rootModule] ['c', 'p', 'u'] = some rootModule ∧
    multibootFindModule [rootModule] ['s', 'd', 'a'] = some rootModule ∧
    findByPath [rootModule] ['s', 'd', 'a'] = none := by
  decide

end Philix.Inky
