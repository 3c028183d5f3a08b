/-
# The part of a list after the last occurrence of an element

`afterLast c s` is what follows the last `c` of `s`, and all of `s` when it has none.  With it
come the two facts about searching a list that go with taking names apart: where a prefix of a
concatenation ends (`isPrefix_append_iff`), and when two searches find the same element
(`find?_eq_find?_iff`).
-/
import Mathlib.Tactic.Common

namespace AfterLast

variable {α : Type} [DecidableEq α]

def afterLast (c : α) : List α → List α
  | [] => []
  | x :: xs => if c ∈ xs then afterLast c xs else if x = c then xs else x :: xs

variable {c : α} {s a b : List α}

/-! ## 1. Where it starts -/

theorem afterLast_of_not_mem : ∀ {s : List α}, c ∉ s → afterLast c s = s
  | [], _ => rfl
  | x :: xs, h => by
    rw [List.mem_cons, not_or] at h
    rw [afterLast, if_neg h.2, if_neg (Ne.symm h.1)]

theorem not_mem_afterLast : ∀ s : List α, c ∉ afterLast c s
  | [] => List.not_mem_nil
  | x :: xs => by
    rw [afterLast]
    split
    · exact not_mem_afterLast xs
    · rename_i hxs
      split
      · exact hxs
      · rename_i hx
        rw [List.mem_cons, not_or]
        exact ⟨Ne.symm hx, hxs⟩

/-- Nothing comes after it when it is the last element. -/
theorem afterLast_eq_nil_iff : ∀ {s : List α}, afterLast c s = [] ↔ s = [] ∨ s.getLast? = some c
  | [] => by simp [afterLast]
  | x :: xs => by
    rw [afterLast]
    split
    · rename_i hxs
      have hne : xs ≠ [] := List.ne_nil_of_mem hxs
      rw [afterLast_eq_nil_iff, List.getLast?_cons_of_ne_nil hne]
      simp [hne]
    · rename_i hxs
      split
      · rename_i hx
        rw [hx]
        cases xs with
        | nil => simp
        | cons y ys =>
          have hlast : (y :: ys).getLast? ≠ some c := fun h => hxs (List.mem_of_getLast? h)
          simpa using hlast
      · rename_i hx
        have hlast : (x :: xs).getLast? ≠ some c := fun h => by
          rcases List.mem_cons.mp (List.mem_of_getLast? h) with h | h
          · exact hx h.symm
          · exact hxs h
        simp [hlast]

/-- The last occurrence, by its position. -/
theorem afterLast_eq_drop : ∀ {s : List α} {i : Nat}, s[i]? = some c →
    (∀ j, i < j → s[j]? ≠ some c) → afterLast c s = s.drop (i + 1)
  | x :: xs, 0, hi, hlast => by
    have hx : x = c := by simpa using hi
    have hxs : c ∉ xs := by
      intro h
      obtain ⟨j, hj⟩ := List.mem_iff_getElem?.mp h
      exact hlast (j + 1) (Nat.succ_pos j) (by simpa using hj)
    rw [afterLast, if_neg hxs, if_pos hx]
    rfl
  | x :: xs, i + 1, hi, hlast => by
    have hi : xs[i]? = some c := by simpa using hi
    have hxs : c ∈ xs := List.mem_iff_getElem?.mpr ⟨i, hi⟩
    have ih := afterLast_eq_drop hi fun j hj => by
      have h := hlast (j + 1) (Nat.succ_lt_succ hj)
      simpa using h
    rw [afterLast, if_pos hxs, ih]
    rfl

/-- What comes behind without the element stays behind. -/
theorem afterLast_append (hb : c ∉ b) : ∀ a : List α, afterLast c (a ++ b) = afterLast c a ++ b
  | [] => afterLast_of_not_mem hb
  | x :: xs => by
    have hmem : c ∈ xs ++ b ↔ c ∈ xs := by simp [hb]
    rw [List.cons_append, afterLast, afterLast, afterLast_append hb xs]
    simp only [hmem]
    split
    · rfl
    · split
      · rfl
      · rfl

/-! ## 2. Searching -/

/-- A prefix of a concatenation is a prefix of the first part, or goes past it. -/
theorem isPrefix_append_iff {β : Type} {p a b : List β} {x : β} :
    p <+: a ++ x :: b ↔ p <+: a ∨ a ++ [x] <+: p ∧ p <+: a ++ x :: b := by
  constructor
  · intro h
    rcases Nat.lt_or_ge a.length p.length with hlt | hge
    · have hsplit : a ++ x :: b = a ++ [x] ++ b := by simp
      refine Or.inr ⟨?_, h⟩
      refine List.prefix_of_prefix_length_le (hsplit ▸ List.prefix_append _ b) h ?_
      rw [List.length_append, List.length_singleton]
      exact hlt
    · exact Or.inl (List.prefix_of_prefix_length_le h (List.prefix_append a _) hge)
  · rintro (h | ⟨-, h⟩)
    · exact h.trans (List.prefix_append a _)
    · exact h

/-- **Two searches find the same** iff the first element that either accepts is accepted by
both. -/
theorem find?_eq_find?_iff {β : Type} {p q : β → Bool} : ∀ {l : List β},
    l.find? p = l.find? q ↔
      ∀ x, (l.find? fun x => p x || q x) = some x → (p x = true ↔ q x = true)
  | [] => by simp
  | x :: l => by
    have ih := find?_eq_find?_iff (p := p) (q := q) (l := l)
    simp only [List.find?_cons]
    cases hp : p x with
    | true =>
      cases hq : q x with
      | true => simp [hp, hq]
      | false =>
        simp only [Bool.or_false, Option.some.injEq]
        constructor
        · intro h
          -- `x` itself is found, so `q` accepts it after all
          have hx := List.find?_some h.symm
          rw [hq] at hx
          cases hx
        · intro h
          have hx := (h x rfl).mp hp
          rw [hq] at hx
          cases hx
    | false =>
      cases hq : q x with
      | true =>
        simp only [Bool.or_true, Option.some.injEq]
        constructor
        · intro h
          have hx := List.find?_some h
          rw [hp] at hx
          cases hx
        · intro h
          have hx := (h x rfl).mpr hq
          rw [hp] at hx
          cases hx
      | false =>
        simp only [Bool.or_false]
        exact ih

end AfterLast
