/-
# Which entries choose the tables

`elf64_load` goes through all the entries of the `PT_DYNAMIC` segment and keeps the last value
of each of three tags; `elf.h` calls `DT_NULL` the terminating entry, but the loop does not stop
there.  `chooseTables` is the choice as a function of the list of entries, with the rest of the
image fixed.  It is read off from `lastVal` and `Wrong`, so the order of entries with distinct
tags does not matter; what stands after the terminator does.  `imageTables` is what is selected
in the end, as a function of the image.
-/
import Philix.Inky.Sample
import Mathlib.Data.List.Nodup
import Mathlib.Data.List.TakeWhile

namespace Philix.Inky

open ByteMem Loop

def dtNull : Nat := 0

/-! ## 1. The choice, from a list of entries -/

/-- The first `PT_DYNAMIC` header of `n`. -/
def firstDynamic (m : Mem) : Nat → Nat → Option Nat
  | 0, _ => none
  | n + 1, p => if pType m p = ptDynamic then some p else firstDynamic m n (p + sizeofPhdr)

def dynamicHeader (m : Mem) (base : Nat) : Option Nat :=
  firstDynamic m (ePhnum m base) (wrap (base + ePhoff m base))

/-- The entries of the segment of `p`, each a tag and a value. -/
def dynEntries (m : Mem) (base p : Nat) : List (Nat × Nat) :=
  (List.range (nDynamic (pFilesz m p))).map fun j =>
    (dTag m (base + pOffset m p + sizeofDyn * j), dVal m (base + pOffset m p + sizeofDyn * j))

/-- The entries before the terminating one. -/
def beforeNull (es : List (Nat × Nat)) : List (Nat × Nat) := es.takeWhile (·.1 ≠ dtNull)

/-- One round of the loop over the entries; `find` looks up a section by its address. -/
def chooseStep (find : Nat → Nat) (s : Dynamic) (e : Nat × Nat) : Except Halt Dynamic :=
  if e.1 = dtRela then pure { s with newRela := find e.2 }
  else if e.1 = dtRelasz then pure { s with newRelaSize := e.2 }
  else if e.1 = dtSymtab then pure { s with symtab := find e.2 }
  else if e.1 = dtSyment then do
    assert (e.2 = sizeofSym)
    pure s
  else pure s

/-- The section header table of an image. -/
def sectionHeaders (m : Mem) (base : Nat) : Nat := wrap (base + eShoff m base)

def findVaddr (m : Mem) (base : Nat) : Nat → Nat :=
  elf64FindSectionHeaderVaddr m (sectionHeaders m base) (eShnum m base)

/-- The tables found by section type. -/
def tablesByType (m : Mem) (base : Nat) : Tables :=
  let rela := elf64FindSectionHeaderType m (sectionHeaders m base) (eShnum m base) shtRela
  let symtab := elf64FindSectionHeaderType m (sectionHeaders m base) (eShnum m base) shtSymtab
  ⟨rela, if rela ≠ 0 then shSize m rela else 0, symtab⟩

/-- The tables, if the `PT_DYNAMIC` segment had the entries `es`. -/
def chooseTables (m : Mem) (base : Nat) (es : List (Nat × Nat)) : Except Halt Tables := do
  let t := tablesByType m base
  let d ← es.foldlM (chooseStep (findVaddr m base)) ⟨0, 0, t.symtab⟩
  if d.newRela ≠ 0 then do
    assert (d.newRelaSize ≠ 0)
    pure ⟨d.newRela, d.newRelaSize, d.symtab⟩
  else pure { t with symtab := d.symtab }

section Entries

variable {m : Mem} {base shead p : Nat} {t : Tables}

theorem findDynamic_eq : ∀ (n p : Nat), findDynamic m base shead n p t =
    match firstDynamic m n p with
    | some p => applyDynamic m base shead p t
    | none => .ok t
  | 0, _ => rfl
  | n + 1, p => by
    rw [findDynamic, firstDynamic]
    split
    · rfl
    · exact findDynamic_eq n (p + sizeofPhdr)

/-- **The code's choice** is that of its entries. -/
theorem selectTables_eq (hp : dynamicHeader m base = some p) :
    selectTables m base = chooseTables m base (dynEntries m base p) := by
  have hloop : forLoop (fun j => dynamicEntry m (sectionHeaders m base) (eShnum m base)
        (base + pOffset m p + sizeofDyn * j)) (nDynamic (pFilesz m p)) 0
        ⟨0, 0, (tablesByType m base).symtab⟩ =
      (dynEntries m base p).foldlM (chooseStep (findVaddr m base))
        ⟨0, 0, (tablesByType m base).symtab⟩ := by
    rw [forLoop_eq_foldlM, dynEntries, List.range_eq_range', List.foldlM_map]
    rfl
  have hheader : firstDynamic m (ePhnum m base) (wrap (base + ePhoff m base)) = some p := hp
  have hselect : selectTables m base = findDynamic m base (sectionHeaders m base) (ePhnum m base)
      (wrap (base + ePhoff m base)) (tablesByType m base) := rfl
  rw [hselect, findDynamic_eq, hheader]
  dsimp only
  rw [applyDynamic, chooseTables, hloop]

end Entries

/-! ## 2. What of the entries counts -/

/-- The value of the last entry with the tag. -/
def lastVal (tag : Nat) : List (Nat × Nat) → Option Nat
  | [] => none
  | e :: es => (lastVal tag es).or (if e.1 = tag then some e.2 else none)

/-- Some `DT_SYMENT` does not have the size of a symbol. -/
def Wrong (es : List (Nat × Nat)) : Prop := ∃ e ∈ es, e.1 = dtSyment ∧ e.2 ≠ sizeofSym

instance (es : List (Nat × Nat)) : Decidable (Wrong es) :=
  inferInstanceAs (Decidable (∃ e ∈ es, _))

/-- None of the four tags the loop looks for. -/
def Idle (e : Nat × Nat) : Prop :=
  e.1 ≠ dtRela ∧ e.1 ≠ dtRelasz ∧ e.1 ≠ dtSymtab ∧ e.1 ≠ dtSyment

section Counts

variable {find : Nat → Nat} {tag : Nat} {m : Mem} {base : Nat} {es es' a b r : List (Nat × Nat)}

theorem lastVal_append (tag : Nat) : ∀ a b : List (Nat × Nat),
    lastVal tag (a ++ b) = (lastVal tag b).or (lastVal tag a)
  | [], b => by rw [List.nil_append, lastVal, Option.or_none]
  | e :: a, b => by
    rw [List.cons_append, lastVal, lastVal_append tag a b, lastVal, Option.or_assoc]

theorem lastVal_eq_none (h : ∀ e ∈ r, e.1 ≠ tag) : lastVal tag r = none := by
  induction r with
  | nil => rfl
  | cons e r ih =>
    rw [lastVal, ih fun e he => h e (List.mem_cons_of_mem _ he), if_neg (h e List.mem_cons_self)]
    rfl

theorem mem_of_lastVal {v : Nat} : ∀ {es : List (Nat × Nat)},
    lastVal tag es = some v → (tag, v) ∈ es
  | e :: es, h => by
    rw [lastVal, Option.or_eq_some_iff] at h
    rcases h with h | ⟨-, h⟩
    · exact List.mem_cons_of_mem _ (mem_of_lastVal h)
    · split at h
      · rename_i he
        obtain rfl := Option.some.inj h
        exact he ▸ List.mem_cons_self
      · cases h

/-- With distinct tags the last value is the only one. -/
theorem lastVal_eq_some_iff {v : Nat} (hnd : (es.map Prod.fst).Nodup) :
    lastVal tag es = some v ↔ (tag, v) ∈ es := by
  refine ⟨mem_of_lastVal, fun h => ?_⟩
  cases hlast : lastVal tag es with
  | some w =>
    have heq := List.inj_on_of_nodup_map hnd (mem_of_lastVal hlast) h rfl
    rw [(Prod.mk.inj heq).2]
  | none =>
    have hno : ∀ {es : List (Nat × Nat)}, lastVal tag es = none → (tag, v) ∉ es := by
      intro es
      induction es with
      | nil => exact fun _ => List.not_mem_nil
      | cons e es ih =>
        intro hnone hmem
        rw [lastVal, Option.or_eq_none_iff] at hnone
        rcases List.mem_cons.mp hmem with rfl | hmem
        · simp at hnone
        · exact ih hnone.1 hmem
    exact absurd h (hno hlast)

theorem lastVal_perm (hperm : es'.Perm es) (hnd : (es.map Prod.fst).Nodup) (tag : Nat) :
    lastVal tag es' = lastVal tag es := by
  have hnd' : (es'.map Prod.fst).Nodup := (hperm.map Prod.fst).nodup_iff.mpr hnd
  refine Option.ext fun v => ?_
  rw [lastVal_eq_some_iff hnd', lastVal_eq_some_iff hnd, hperm.mem_iff]

theorem wrong_append : Wrong (a ++ b) ↔ Wrong a ∨ Wrong b := by
  simp only [Wrong, List.mem_append, or_and_right, exists_or]

theorem not_wrong_of_idle (h : ∀ e ∈ r, Idle e) : ¬ Wrong r := by
  rintro ⟨e, he, htag, -⟩
  exact (h e he).2.2.2 htag

/-- One round: each of three tags sets its own field, and the fourth is checked. -/
theorem chooseStep_eq (s : Dynamic) (e : Nat × Nat) :
    chooseStep find s e =
      if e.1 = dtSyment ∧ e.2 ≠ sizeofSym then .error .assertFailed
      else .ok ⟨if e.1 = dtRela then find e.2 else s.newRela,
        if e.1 = dtRelasz then e.2 else s.newRelaSize,
        if e.1 = dtSymtab then find e.2 else s.symtab⟩ := by
  have hne : dtRela ≠ dtRelasz ∧ dtRela ≠ dtSymtab ∧ dtRela ≠ dtSyment ∧ dtRelasz ≠ dtSymtab ∧
      dtRelasz ≠ dtSyment ∧ dtSymtab ≠ dtSyment := by decide
  obtain ⟨h12, h13, h14, h23, h24, h34⟩ := hne
  rw [chooseStep]
  by_cases h1 : e.1 = dtRela
  · simp only [h1, h12, h13, h14, if_true, if_false, false_and, pure_eq_ok]
  by_cases h2 : e.1 = dtRelasz
  · simp only [h2, h12.symm, h23, h24, if_true, if_false, false_and, pure_eq_ok]
  by_cases h3 : e.1 = dtSymtab
  · simp only [h3, h13.symm, h23.symm, h34, if_true, if_false, false_and, pure_eq_ok]
  simp only [h1, h2, h3, if_false]
  by_cases h4 : e.1 = dtSyment
  · by_cases hsize : e.2 = sizeofSym
    · rw [if_pos h4, if_neg fun h => h.2 hsize, assert_of hsize]
      rfl
    · rw [if_pos h4, if_pos ⟨h4, hsize⟩, assert_of_not hsize]
      rfl
  · rw [if_neg h4, if_neg fun h => h4 h.1]
    rfl

/-- What an entry sets stays unless a later one sets it again. -/
theorem getD_lastVal_cons (f : Nat → Nat) (e : Nat × Nat) (x : Nat) :
    ((lastVal tag es).map f).getD (if e.1 = tag then f e.2 else x) =
      ((lastVal tag (e :: es)).map f).getD x := by
  rw [lastVal]
  cases lastVal tag es with
  | some v => rfl
  | none =>
    rw [Option.none_or]
    split
    · rfl
    · rfl

/-- **The loop over the entries**, in closed form. -/
theorem chooseStep_foldlM : ∀ (es : List (Nat × Nat)) (s : Dynamic),
    es.foldlM (chooseStep find) s =
      if Wrong es then .error .assertFailed
      else .ok ⟨((lastVal dtRela es).map find).getD s.newRela,
        (lastVal dtRelasz es).getD s.newRelaSize,
        ((lastVal dtSymtab es).map find).getD s.symtab⟩
  | [], s => by
    have hnot : ¬ Wrong [] := by simp [Wrong]
    rw [if_neg hnot]
    rfl
  | e :: es, s => by
    have hcons : Wrong (e :: es) ↔ (e.1 = dtSyment ∧ e.2 ≠ sizeofSym) ∨ Wrong es := by
      simp only [Wrong, List.mem_cons, exists_eq_or_imp]
    have hrelasz : (lastVal dtRelasz es).getD (if e.1 = dtRelasz then e.2 else s.newRelaSize) =
        (lastVal dtRelasz (e :: es)).getD s.newRelaSize := by
      simpa only [Option.map_id, id_eq] using getD_lastVal_cons id e s.newRelaSize
    rw [List.foldlM_cons, chooseStep_eq]
    by_cases he : e.1 = dtSyment ∧ e.2 ≠ sizeofSym
    · rw [if_pos he, error_bind, if_pos (hcons.mpr (Or.inl he))]
    · rw [if_neg he, ok_bind, chooseStep_foldlM es]
      simp only [hcons, he, false_or, getD_lastVal_cons, hrelasz]

/-- The choice depends on the three last values and on `Wrong`. -/
theorem chooseTables_congr (hrela : lastVal dtRela es' = lastVal dtRela es)
    (hrelasz : lastVal dtRelasz es' = lastVal dtRelasz es)
    (hsymtab : lastVal dtSymtab es' = lastVal dtSymtab es) (hwrong : Wrong es' ↔ Wrong es) :
    chooseTables m base es' = chooseTables m base es := by
  rw [chooseTables, chooseTables, chooseStep_foldlM, chooseStep_foldlM, hrela, hrelasz, hsymtab]
  simp only [hwrong]

theorem chooseTables_wrong (h : Wrong es) : chooseTables m base es = .error .assertFailed := by
  rw [chooseTables, chooseStep_foldlM, if_pos h]
  rfl

/-- Idle entries at the end change nothing. -/
theorem chooseTables_append_idle (h : ∀ e ∈ r, Idle e) :
    chooseTables m base (es ++ r) = chooseTables m base es := by
  refine chooseTables_congr ?_ ?_ ?_ ?_
  · rw [lastVal_append, lastVal_eq_none fun e he => (h e he).1, Option.none_or]
  · rw [lastVal_append, lastVal_eq_none fun e he => (h e he).2.1, Option.none_or]
  · rw [lastVal_append, lastVal_eq_none fun e he => (h e he).2.2.1, Option.none_or]
  · rw [wrong_append]
    exact or_iff_left (not_wrong_of_idle h)

end Counts

/-! ## 3. What is selected -/

section Selected

variable (m : Mem) (base : Nat)

/-- The entries the loop goes through. -/
def dynamicEntries : List (Nat × Nat) := ((dynamicHeader m base).map (dynEntries m base)).getD []

/-- The section the `DT_RELA` entry names. -/
def dynamicRela : Nat := ((lastVal dtRela (dynamicEntries m base)).map (findVaddr m base)).getD 0

/-- The assertions about the entries hold. -/
def TablesOk : Prop :=
  ¬ Wrong (dynamicEntries m base) ∧
    (dynamicRela m base ≠ 0 → (lastVal dtRelasz (dynamicEntries m base)).getD 0 ≠ 0)

/-- The tables of an image: those of its dynamic entries, else those found by section type. -/
def imageTables : Tables :=
  let t := tablesByType m base
  let symtab :=
    ((lastVal dtSymtab (dynamicEntries m base)).map (findVaddr m base)).getD t.symtab
  if dynamicRela m base ≠ 0 then
    ⟨dynamicRela m base, (lastVal dtRelasz (dynamicEntries m base)).getD 0, symtab⟩
  else ⟨t.rela, t.relaSize, symtab⟩

end Selected

section Selected

variable {m : Mem} {base : Nat} {t : Tables}

theorem chooseTables_eq_ok_iff : chooseTables m base (dynamicEntries m base) = .ok t ↔
    TablesOk m base ∧ imageTables m base = t := by
  rw [chooseTables, chooseStep_foldlM, TablesOk, imageTables]
  by_cases hwrong : Wrong (dynamicEntries m base)
  · rw [if_pos hwrong, error_bind]
    simp [hwrong]
  rw [if_neg hwrong, ok_bind, ← dynamicRela]
  by_cases hrela : dynamicRela m base = 0
  · simp [hrela, hwrong]
  · rw [if_pos hrela, if_pos hrela, assert_bind_eq_ok_iff]
    simp [hrela, hwrong]

/-- **The tables `elf64_load` goes on to use** are those of the image. -/
theorem selectTables_eq_ok_iff :
    selectTables m base = .ok t ↔ TablesOk m base ∧ imageTables m base = t := by
  rw [← chooseTables_eq_ok_iff, dynamicEntries]
  cases hp : dynamicHeader m base with
  | some p => rw [selectTables_eq hp, Option.map_some, Option.getD_some]
  | none =>
    have hheader : firstDynamic m (ePhnum m base) (wrap (base + ePhoff m base)) = none := hp
    have hselect : selectTables m base = findDynamic m base (sectionHeaders m base)
        (ePhnum m base) (wrap (base + ePhoff m base)) (tablesByType m base) := rfl
    rw [hselect, findDynamic_eq, hheader]
    rfl

theorem findSection_eq {ok : Nat → Bool} : ∀ {n s : Nat}, findSection ok n s ≠ 0 →
    ∃ k < n, findSection ok n s = wrap (s + sizeofShdr * k)
  | 0, _, h => absurd rfl h
  | n + 1, s, h => by
    rw [findSection] at h ⊢
    split
    · exact ⟨0, Nat.succ_pos n, by rw [Nat.mul_zero, Nat.add_zero]⟩
    · rename_i hno
      rw [if_neg hno] at h
      obtain ⟨k, hk, he⟩ := findSection_eq h
      exact ⟨k + 1, Nat.succ_lt_succ hk, by rw [he, stride_succ]⟩

/-- A table of the image is a section of it. -/
theorem imageTables_section {s : Nat} (hs : s ≠ 0)
    (h : s = (imageTables m base).rela ∨ s = (imageTables m base).symtab) :
    ∃ k < eShnum m base, s = wrap (sectionHeaders m base + sizeofShdr * k) := by
  have hfound : ∀ o : Option Nat, ∀ d, (∃ ok, d = findSection ok (eShnum m base)
      (sectionHeaders m base)) ∨ d = 0 → (o.map (findVaddr m base)).getD d ≠ 0 →
      ∃ k < eShnum m base, (o.map (findVaddr m base)).getD d =
        wrap (sectionHeaders m base + sizeofShdr * k) := by
    intro o d hd hne
    cases o with
    | some v => exact findSection_eq hne
    | none =>
      rcases hd with ⟨ok, rfl⟩ | rfl
      · exact findSection_eq hne
      · exact absurd rfl hne
  rw [imageTables] at h
  split at h
  · rcases h with rfl | rfl
    · exact hfound _ 0 (Or.inr rfl) hs
    · exact hfound _ _ (Or.inl ⟨_, rfl⟩) hs
  · rcases h with rfl | rfl
    · exact findSection_eq hs
    · exact hfound _ _ (Or.inl ⟨_, rfl⟩) hs

end Selected

/-! ## 4. What stands behind the terminator -/

section Terminator

variable {m : Mem} {base p : Nat} {es es' pre pre' r : List (Nat × Nat)}

theorem beforeNull_append_drop (es : List (Nat × Nat)) :
    beforeNull es ++ es.drop (beforeNull es).length = es := by
  have hsplit : beforeNull es ++ es.dropWhile (·.1 ≠ dtNull) = es :=
    List.takeWhile_append_dropWhile
  have hdrop : es.drop (beforeNull es).length = es.dropWhile (·.1 ≠ dtNull) := by
    conv_lhs => arg 2; rw [← hsplit]
    rw [List.drop_left]
  rw [hdrop, hsplit]

theorem tag_ne_of_mem_beforeNull {e : Nat × Nat} (he : e ∈ beforeNull es) : e.1 ≠ dtNull := by
  simpa using List.mem_takeWhile_imp he

theorem beforeNull_append (v : Nat) (r : List (Nat × Nat)) :
    beforeNull (beforeNull es ++ (dtNull, v) :: r) = beforeNull es := by
  rw [beforeNull, List.takeWhile_append_of_pos, List.takeWhile_cons_of_neg, List.append_nil]
  · simp
  · intro e he
    simpa using tag_ne_of_mem_beforeNull he

/-- The entry that ends the others has the terminating tag. -/
theorem head_tag_of_drop {e : Nat × Nat} (h : es.drop (beforeNull es).length = e :: r) :
    e.1 = dtNull := by
  have hes := beforeNull_append_drop es
  rw [h] at hes
  by_contra hne
  have htake : beforeNull (beforeNull es ++ e :: r) = beforeNull es ++ e :: beforeNull r := by
    rw [beforeNull, List.takeWhile_append_of_pos, List.takeWhile_cons_of_pos]
    · rfl
    · simpa using hne
    · intro e he
      simpa using tag_ne_of_mem_beforeNull he
  rw [hes] at htake
  have hlen := congrArg List.length htake
  rw [List.length_append, List.length_cons] at hlen
  omega

theorem wrong_beforeNull (h : Wrong (beforeNull es)) : Wrong es := by
  rw [← beforeNull_append_drop es]
  exact wrong_append.mpr (Or.inl h)

/-- At most the terminator behind the entries: it is idle. -/
theorem idle_of_short (h : es.length ≤ (beforeNull es).length + 1) :
    ∀ e ∈ es.drop (beforeNull es).length, Idle e := by
  intro e he
  have hlen : (es.drop (beforeNull es).length).length ≤ 1 := by
    rw [List.length_drop]
    omega
  cases hdrop : es.drop (beforeNull es).length with
  | nil =>
    rw [hdrop] at he
    cases he
  | cons x r =>
    rw [hdrop, List.length_cons] at hlen
    rw [hdrop, List.length_eq_zero_iff.mp (by omega : r.length = 0), List.mem_singleton] at he
    have hnull : e.1 = dtNull := he ▸ head_tag_of_drop hdrop
    unfold Idle
    rw [hnull]
    decide

/-- Then the choice is that of the entries before the terminator. -/
theorem chooseTables_beforeNull (h : ∀ e ∈ es.drop (beforeNull es).length, Idle e) :
    chooseTables m base es = chooseTables m base (beforeNull es) := by
  have happend : chooseTables m base (beforeNull es ++ es.drop (beforeNull es).length) =
      chooseTables m base (beforeNull es) := chooseTables_append_idle h
  rwa [beforeNull_append_drop] at happend

theorem settled_of_before (h : es.length ≤ (beforeNull es).length + 1 ∨ Wrong (beforeNull es))
    (hlen : es'.length = es.length) (hpre : beforeNull es' = beforeNull es) :
    chooseTables m base es' = chooseTables m base es := by
  rcases h with h | h
  · have h' : es'.length ≤ (beforeNull es').length + 1 := by rwa [hlen, hpre]
    rw [chooseTables_beforeNull (idle_of_short h), chooseTables_beforeNull (idle_of_short h'), hpre]
  · have h' : Wrong es' := wrong_beforeNull (hpre.symm ▸ h)
    rw [chooseTables_wrong h', chooseTables_wrong (wrong_beforeNull h)]

/-- Two entries behind the terminator decide between a failed assertion and a success. -/
theorem before_of_settled (h : ∀ es', es'.length = es.length → beforeNull es' = beforeNull es →
      chooseTables m base es' = chooseTables m base es) :
    es.length ≤ (beforeNull es).length + 1 ∨ Wrong (beforeNull es) := by
  by_contra hno
  rw [not_or, Nat.not_le] at hno
  obtain ⟨hlong, hright⟩ := hno
  obtain ⟨k, hk⟩ : ∃ k, es.length = (beforeNull es).length + (2 + k) :=
    ⟨es.length - ((beforeNull es).length + 2), by omega⟩
  let behind (e : Nat × Nat) := (dtNull, 0) :: e :: List.replicate k (dtNull, 0)
  have hlen : ∀ e, (beforeNull es ++ behind e).length = es.length := by
    intro e
    rw [hk, List.length_append, List.length_cons, List.length_cons, List.length_replicate]
    omega
  have hfail := h _ (hlen (dtSyment, 0)) (beforeNull_append 0 _)
  have hpass := h _ (hlen (dtRelasz, 1)) (beforeNull_append 0 _)
  have hwrong : Wrong (behind (dtSyment, 0)) := ⟨(dtSyment, 0), by simp [behind], rfl, by decide⟩
  rw [chooseTables_wrong (wrong_append.mpr (Or.inr hwrong))] at hfail
  have hfine : ¬ Wrong (beforeNull es ++ behind (dtRelasz, 1)) := by
    rw [wrong_append, not_or]
    refine ⟨hright, ?_⟩
    rintro ⟨e, he, htag, -⟩
    simp only [behind, List.mem_cons, List.mem_replicate] at he
    rcases he with rfl | rfl | ⟨-, rfl⟩ <;> exact absurd htag (by decide)
  have hsize : lastVal dtRelasz (beforeNull es ++ behind (dtRelasz, 1)) = some 1 := by
    have hrest : lastVal dtRelasz (List.replicate k ((dtNull, 0) : Nat × Nat)) = none :=
      lastVal_eq_none fun e he => by
        rw [List.eq_of_mem_replicate he]
        decide
    rw [lastVal_append, lastVal, lastVal, hrest]
    rfl
  rw [← hfail, chooseTables, chooseStep_foldlM, if_neg hfine, hsize, ok_bind] at hpass
  dsimp only at hpass
  split at hpass
  · cases hpass
  · cases hpass

/-- **The tables are those of the entries before the terminator** exactly when nothing stands
behind it, or the load fails on an entry before it: then, and only then, other entries behind it
choose the same tables.  The order of entries with distinct tags never matters. -/
theorem tables_before_null_iff (hp : dynamicHeader m base = some p) :
    (∀ pre', pre'.Perm (beforeNull (dynEntries m base p)) →
      ((beforeNull (dynEntries m base p)).map Prod.fst).Nodup →
      chooseTables m base
          (pre' ++ (dynEntries m base p).drop (beforeNull (dynEntries m base p)).length) =
        selectTables m base) ∧
    ((∀ es', es'.length = (dynEntries m base p).length →
        beforeNull es' = beforeNull (dynEntries m base p) →
        chooseTables m base es' = selectTables m base) ↔
      (dynEntries m base p).length ≤ (beforeNull (dynEntries m base p)).length + 1 ∨
        Wrong (beforeNull (dynEntries m base p))) ∧
    ((∀ e ∈ (dynEntries m base p).drop (beforeNull (dynEntries m base p)).length, Idle e) →
      selectTables m base = chooseTables m base (beforeNull (dynEntries m base p))) := by
  rw [selectTables_eq hp]
  refine ⟨fun pre' hperm hnd => ?_, ⟨before_of_settled, fun h es' => settled_of_before h⟩,
    chooseTables_beforeNull⟩
  have hlast : ∀ tag, lastVal tag
      (pre' ++ (dynEntries m base p).drop (beforeNull (dynEntries m base p)).length) =
      lastVal tag (dynEntries m base p) := by
    intro tag
    conv_rhs => rw [← beforeNull_append_drop (dynEntries m base p)]
    rw [lastVal_append, lastVal_append, lastVal_perm hperm hnd]
  refine chooseTables_congr (hlast _) (hlast _) (hlast _) ?_
  conv_rhs => rw [← beforeNull_append_drop (dynEntries m base p)]
  rw [wrong_append, wrong_append]
  have hsame : Wrong pre' ↔ Wrong (beforeNull (dynEntries m base p)) := by
    simp only [Wrong, hperm.mem_iff]
  rw [hsame]

end Terminator

/-! ## 5. An image with padding behind the terminator -/

/-- An image of three dynamic entries, `DT_SYMTAB`, `DT_NULL` and one of the tag `tag`, with a
section at `0x100` and one at `0x200`. -/
def paddedImage (tag : Nat) : Mem :=
  asMem (ehdrBytes 0 168 1 2 ++
    (leBytes 4 ptDynamic ++ leBytes 4 6 ++ leBytes 8 120 ++ leBytes 16 0 ++ leBytes 8 48 ++
      leBytes 16 0) ++
    (leBytes 8 dtSymtab ++ leBytes 8 0x100 ++ leBytes 16 dtNull ++ leBytes 8 tag ++
      leBytes 8 0x200) ++
    (leBytes 16 0 ++ leBytes 8 0x100 ++ leBytes 40 0) ++
    (leBytes 16 0 ++ leBytes 8 0x200 ++ leBytes 40 0))

theorem dynamicHeader_paddedImage : dynamicHeader (paddedImage dtSymtab) 0 = some 64 := by decide

theorem dynEntries_paddedImage :
    dynEntries (paddedImage dtSymtab) 0 64 =
      [(dtSymtab, 0x100), (dtNull, 0), (dtSymtab, 0x200)] := by
  decide

theorem tables_before_null_padded :
    ¬ ∀ es', es'.length = (dynEntries (paddedImage dtSymtab) 0 64).length →
      beforeNull es' = beforeNull (dynEntries (paddedImage dtSymtab) 0 64) →
      chooseTables (paddedImage dtSymtab) 0 es' = selectTables (paddedImage dtSymtab) 0 := by
  rw [(tables_before_null_iff dynamicHeader_paddedImage).2.1, dynEntries_paddedImage]
  decide

/-- The images agree up to `DT_NULL`; the symbol table is at `0x100` in one of them, and in the
other the entry behind the terminator moves it to `0x200`. -/
theorem padding_moves_symtab :
    (dynamicHeader (paddedImage dtNull) 0 = some 64 ∧
      dynamicHeader (paddedImage dtSymtab) 0 = some 64) ∧
    beforeNull (dynEntries (paddedImage dtNull) 0 64) =
      beforeNull (dynEntries (paddedImage dtSymtab) 0 64) ∧
    selectTables (paddedImage dtNull) 0 = .ok ⟨0, 0, 168⟩ ∧
    selectTables (paddedImage dtSymtab) 0 = .ok ⟨0, 0, 232⟩ := by
  decide

end Philix.Inky
