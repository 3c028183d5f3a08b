/-
# The link base: `elf_virtual_base64`

`elf_virtual_base64` looks for the lowest address of a loadable segment.  Its result is `0` as
long as it has not seen a segment, so a segment at `0` makes it start again: what it returns is
the lowest of the addresses behind the last `0` (`tableBase_eq`).  That is the lowest of all only
when none is `0` or the last one is, and it depends on the order of the headers.
-/
import Philix.Inky.Elf64
import Philix.Lib.AfterLast
import Mathlib.Data.List.Perm.Basic

namespace Philix.Inky

open ByteMem AfterLast

/-! ## 1. The table of program headers -/

/-- The type and the address of each of the `n` program headers from `p` on. -/
def headersAt (m : Mem) : Nat → Nat → List (Nat × Nat)
  | 0, _ => []
  | n + 1, p => (pType m p, pVaddr m p) :: headersAt m n (p + sizeofPhdr)

/-- Those of an image. -/
def programHeaders (m : Mem) (ehead : Nat) : List (Nat × Nat) :=
  headersAt m (ePhnum m ehead) (wrap (ehead + ePhoff m ehead))

/-- The addresses of the loadable segments. -/
def loadAddrs (hs : List (Nat × Nat)) : List Nat := (hs.filter (·.1 = ptLoad)).map (·.2)

/-- The lowest address, or `0` if there is none. -/
def lowest (vs : List Nat) : Nat := vs.min?.getD 0

/-- One round of the loop, at a loadable segment. -/
def baseStep (retval vaddr : Nat) : Nat :=
  let retval := if retval = 0 then vaddr else retval
  if vaddr < retval then vaddr else retval

/-- The loop, over the addresses. -/
def tableBase (hs : List (Nat × Nat)) : Nat := (loadAddrs hs).foldl baseStep 0

section Table

variable {hs hs' : List (Nat × Nat)} {vs vs' : List Nat}

theorem loadAddrs_cons (h : Nat × Nat) (hs : List (Nat × Nat)) :
    loadAddrs (h :: hs) = if h.1 = ptLoad then h.2 :: loadAddrs hs else loadAddrs hs := by
  unfold loadAddrs
  by_cases hload : h.1 = ptLoad
  · rw [if_pos hload, List.filter_cons_of_pos (by simpa using hload), List.map_cons]
  · rw [if_neg hload, List.filter_cons_of_neg (by simpa using hload)]

theorem loadAddrs_append (hs hs' : List (Nat × Nat)) :
    loadAddrs (hs ++ hs') = loadAddrs hs ++ loadAddrs hs' := by
  rw [loadAddrs, List.filter_append, List.map_append]
  rfl

theorem loadAddrs_perm (h : hs'.Perm hs) : (loadAddrs hs').Perm (loadAddrs hs) :=
  (h.filter _).map _

theorem mem_loadAddrs {v : Nat} : v ∈ loadAddrs hs ↔ (ptLoad, v) ∈ hs := by
  unfold loadAddrs
  constructor
  · intro h
    obtain ⟨⟨type, vaddr⟩, hmem, rfl⟩ := List.mem_map.mp h
    obtain ⟨hmem, htype⟩ := List.mem_filter.mp hmem
    rwa [← of_decide_eq_true htype]
  · intro h
    exact List.mem_map.mpr ⟨_, List.mem_filter.mpr ⟨h, decide_eq_true rfl⟩, rfl⟩

/-- The headers by their numbers. -/
theorem headersAt_eq_map (m : Mem) (n p : Nat) :
    headersAt m n p =
      (List.range n).map fun i =>
        (pType m (p + sizeofPhdr * i), pVaddr m (p + sizeofPhdr * i)) := by
  induction n generalizing p with
  | zero => rfl
  | succ n ih =>
    rw [headersAt, ih, List.range_succ_eq_map, List.map_cons, List.map_map]
    simp only [← stride_succ]
    rfl

theorem mem_loadAddrs_headersAt {m : Mem} {n p v : Nat} :
    v ∈ loadAddrs (headersAt m n p) ↔
      ∃ i < n, pType m (p + sizeofPhdr * i) = ptLoad ∧ pVaddr m (p + sizeofPhdr * i) = v := by
  simp only [mem_loadAddrs, headersAt_eq_map, List.mem_map, List.mem_range, Prod.mk.injEq]

theorem virtualBase_eq_foldl (m : Mem) (n p retval : Nat) :
    virtualBase m n p retval = (loadAddrs (headersAt m n p)).foldl baseStep retval := by
  induction n generalizing p retval with
  | zero => rfl
  | succ n ih =>
    rw [virtualBase, headersAt, loadAddrs_cons, ih]
    split
    · rfl
    · rfl

/-- It depends on the types of the headers and the addresses of loadable segments only. -/
theorem virtualBase_congr {m m' : Mem} {n p r : Nat}
    (h : ∀ i < n, pType m (p + sizeofPhdr * i) = pType m' (p + sizeofPhdr * i) ∧
      (pType m' (p + sizeofPhdr * i) = ptLoad →
        pVaddr m (p + sizeofPhdr * i) = pVaddr m' (p + sizeofPhdr * i))) :
    virtualBase m n p r = virtualBase m' n p r := by
  induction n generalizing p r with
  | zero => rfl
  | succ n ih =>
    have hrest : ∀ r, virtualBase m n (p + sizeofPhdr) r = virtualBase m' n (p + sizeofPhdr) r :=
      fun _ => ih fun i hi => by
        rw [← stride_succ]
        exact h (i + 1) (Nat.succ_lt_succ hi)
    obtain ⟨htype, hvaddr⟩ : pType m p = pType m' p ∧
        (pType m' p = ptLoad → pVaddr m p = pVaddr m' p) := h 0 (Nat.succ_pos n)
    rw [virtualBase, virtualBase, hrest, htype]
    split
    case isTrue hload => rw [hvaddr hload]
    case isFalse => rfl

/-- **`elf_virtual_base64`** is a function of the table. -/
theorem elfVirtualBase64_eq (m : Mem) (ehead : Nat) :
    elfVirtualBase64 m ehead = tableBase (programHeaders m ehead) :=
  virtualBase_eq_foldl _ _ _ _

/-! ## 2. What the loop returns -/

theorem lowest_cons (v : Nat) (vs : List Nat) : lowest (v :: vs) = vs.foldl min v := by
  rw [lowest, List.min?_cons']
  rfl

theorem lowest_eq_iff {v : Nat} (hne : vs ≠ []) :
    lowest vs = v ↔ v ∈ vs ∧ ∀ w ∈ vs, v ≤ w := by
  rw [← List.min?_eq_some_iff, lowest]
  obtain ⟨w, hw⟩ := Option.ne_none_iff_exists'.mp (mt List.min?_eq_none_iff.mp hne)
  rw [hw, Option.getD_some, Option.some.injEq]

theorem lowest_eq_zero_iff : lowest vs = 0 ↔ vs = [] ∨ 0 ∈ vs := by
  by_cases hne : vs = []
  · rw [hne]
    exact ⟨fun _ => Or.inl rfl, fun _ => rfl⟩
  · rw [lowest_eq_iff hne, or_iff_right hne]
    exact and_iff_left fun w _ => Nat.zero_le w

theorem lowest_perm (h : vs'.Perm vs) : lowest vs' = lowest vs := by
  by_cases hne : vs = []
  · subst hne
    rw [h.eq_nil]
  · have hne' : vs' ≠ [] := fun h' => hne (h' ▸ h.symm : vs.Perm []).eq_nil
    obtain ⟨hmem, hle⟩ := (lowest_eq_iff hne).mp rfl
    exact (lowest_eq_iff hne').mpr ⟨h.mem_iff.mpr hmem, fun w hw => hle w (h.mem_iff.mp hw)⟩

/-- Without a `0` the loop takes the minimum. -/
theorem foldl_baseStep_min {retval : Nat} (hr : retval ≠ 0) (h : 0 ∉ vs) :
    vs.foldl baseStep retval = vs.foldl min retval := by
  induction vs generalizing retval with
  | nil => rfl
  | cons v vs ih =>
    rw [List.mem_cons, not_or] at h
    have hstep : baseStep retval v = min retval v := by
      simp only [baseStep, if_neg hr]
      split <;> omega
    have hne : min retval v ≠ 0 := by omega
    rw [List.foldl_cons, List.foldl_cons, hstep, ih hne h.2]

/-- A `0` makes it start again. -/
theorem foldl_baseStep {retval : Nat} (h : retval = 0 ∨ 0 ∈ vs) :
    vs.foldl baseStep retval = lowest (afterLast 0 vs) := by
  induction vs generalizing retval with
  | nil => exact h.resolve_right List.not_mem_nil
  | cons v vs ih =>
    rw [List.foldl_cons, afterLast]
    by_cases hrest : 0 ∈ vs
    · rw [if_pos hrest, ih (Or.inr hrest)]
    · rw [if_neg hrest]
      by_cases hv : v = 0
      · have hstep : baseStep retval v = 0 := by
          rw [hv, baseStep]
          by_cases hr : retval = 0
          · rw [if_pos hr]
            rfl
          · rw [if_neg hr]
            exact if_pos (Nat.pos_of_ne_zero hr)
        rw [if_pos hv, hstep, ih (Or.inl rfl), afterLast_of_not_mem hrest]
      · have hr : retval = 0 := h.resolve_right fun h => by
          rcases List.mem_cons.mp h with h | h
          · exact hv h.symm
          · exact hrest h
        have hstep : baseStep retval v = v := by
          simp only [baseStep, hr, if_true, if_neg (Nat.lt_irrefl v)]
        rw [if_neg hv, hstep, lowest_cons, foldl_baseStep_min hv hrest]

/-- **The result** is the lowest address behind the last `0`. -/
theorem tableBase_eq (hs : List (Nat × Nat)) :
    tableBase hs = lowest (afterLast 0 (loadAddrs hs)) := foldl_baseStep (Or.inl rfl)

theorem tableBase_eq_lowest_iff :
    tableBase hs = lowest (loadAddrs hs) ↔
      0 ∉ loadAddrs hs ∨ (loadAddrs hs).getLast? = some 0 := by
  rw [tableBase_eq]
  by_cases hzero : 0 ∈ loadAddrs hs
  · have hlow : lowest (loadAddrs hs) = 0 := lowest_eq_zero_iff.mpr (Or.inr hzero)
    rw [hlow, lowest_eq_zero_iff, or_iff_left (not_mem_afterLast _), afterLast_eq_nil_iff,
      or_iff_right (List.ne_nil_of_mem hzero), or_iff_right (not_not.mpr hzero)]
  · rw [afterLast_of_not_mem hzero]
    exact ⟨fun _ => Or.inl hzero, fun _ => rfl⟩

/-- The lowest address, when no segment is at `0`. -/
theorem virtualBase_of_lowest {m : Mem} {n p v : Nat} (hv : v ≠ 0)
    (hle : ∀ i < n, pType m (p + sizeofPhdr * i) = ptLoad → v ≤ pVaddr m (p + sizeofPhdr * i))
    (hex : ∃ i < n, pType m (p + sizeofPhdr * i) = ptLoad ∧ pVaddr m (p + sizeofPhdr * i) = v) :
    virtualBase m n p 0 = v := by
  have hmem : v ∈ loadAddrs (headersAt m n p) := mem_loadAddrs_headersAt.mpr hex
  have hlow : ∀ w ∈ loadAddrs (headersAt m n p), v ≤ w := by
    intro w hw
    obtain ⟨i, hi, hload, rfl⟩ := mem_loadAddrs_headersAt.mp hw
    exact hle i hi hload
  have hzero : 0 ∉ loadAddrs (headersAt m n p) := fun h => hv (Nat.le_zero.mp (hlow 0 h))
  have hbase : virtualBase m n p 0 = lowest (loadAddrs (headersAt m n p)) :=
    (virtualBase_eq_foldl m n p 0).trans (tableBase_eq_lowest_iff.mpr (Or.inl hzero))
  rw [hbase, lowest_eq_iff (List.ne_nil_of_mem hmem)]
  exact ⟨hmem, hlow⟩

/-! ## 3. The order of the headers -/

/-- A header of a loadable segment at `0`. -/
def LoadsZero (h : Nat × Nat) : Prop := h = (ptLoad, 0)

instance (h : Nat × Nat) : Decidable (LoadsZero h) := inferInstanceAs (Decidable (_ = _))

theorem loadAddrs_zeros (hs : List (Nat × Nat)) :
    ∀ v ∈ loadAddrs (hs.filter LoadsZero), v = 0 := by
  intro v hv
  have h := List.of_mem_filter (mem_loadAddrs.mp hv)
  exact (Prod.mk.inj (of_decide_eq_true h)).2

theorem zero_not_mem_others (hs : List (Nat × Nat)) :
    0 ∉ loadAddrs (hs.filter fun h => !decide (LoadsZero h)) := by
  intro h
  have hno := List.of_mem_filter (mem_loadAddrs.mp h)
  simp [LoadsZero] at hno

theorem mem_loadAddrs_filter {p : Nat × Nat → Bool} {v : Nat} (hv : v ∈ loadAddrs hs)
    (hp : p (ptLoad, v)) : v ∈ loadAddrs (hs.filter p) :=
  mem_loadAddrs.mpr (List.mem_filter.mpr ⟨mem_loadAddrs.mp hv, hp⟩)

theorem getLast?_of_forall_zero (hne : vs ≠ []) (h : ∀ v ∈ vs, v = 0) : vs.getLast? = some 0 := by
  rw [List.getLast?_eq_some_getLast hne, h _ (List.getLast_mem hne)]

/-- With the headers at `0` in front, the loop returns the lowest of the others. -/
theorem tableBase_zeros_front {v : Nat} (hv : v ∈ loadAddrs hs) (hne : v ≠ 0) :
    tableBase (hs.filter LoadsZero ++ hs.filter fun h => !decide (LoadsZero h)) ≠ 0 := by
  have hother : v ∈ loadAddrs (hs.filter fun h => !decide (LoadsZero h)) :=
    mem_loadAddrs_filter hv (by simpa [LoadsZero] using hne)
  have hmem : v ∈ afterLast 0 (loadAddrs (hs.filter LoadsZero) ++
      loadAddrs (hs.filter fun h => !decide (LoadsZero h))) := by
    rw [afterLast_append (zero_not_mem_others hs)]
    exact List.mem_append_right _ hother
  rw [tableBase_eq, loadAddrs_append, Ne, lowest_eq_zero_iff, not_or]
  exact ⟨List.ne_nil_of_mem hmem, not_mem_afterLast _⟩

/-- With one of them at the end, it returns `0`. -/
theorem tableBase_zeros_behind (hzero : 0 ∈ loadAddrs hs) :
    tableBase ((hs.filter fun h => !decide (LoadsZero h)) ++ hs.filter LoadsZero) = 0 := by
  have hmem : 0 ∈ loadAddrs (hs.filter LoadsZero) :=
    mem_loadAddrs_filter hzero (decide_eq_true rfl)
  have hlast : (loadAddrs (hs.filter LoadsZero)).getLast? = some 0 :=
    getLast?_of_forall_zero (List.ne_nil_of_mem hmem) (loadAddrs_zeros hs)
  rw [tableBase_eq, loadAddrs_append, lowest_eq_zero_iff, afterLast_eq_nil_iff]
  refine Or.inl (Or.inr ?_)
  rw [List.getLast?_append, hlast]
  rfl

/-- **The order does not matter** exactly when no loadable segment is at `0`, or all are. -/
theorem tableBase_perm_iff :
    (∀ hs', hs'.Perm hs → tableBase hs' = tableBase hs) ↔
      0 ∉ loadAddrs hs ∨ ∀ v ∈ loadAddrs hs, v = 0 := by
  constructor
  · intro h
    by_contra hno
    simp only [not_or, not_not, not_forall] at hno
    obtain ⟨hzero, v, hv, hne⟩ := hno
    have hfront := h _ (List.filter_append_perm (fun h => decide (LoadsZero h)) hs)
    have hbehind := h _ (List.perm_append_comm.trans
      (List.filter_append_perm (fun h => decide (LoadsZero h)) hs))
    rw [tableBase_zeros_behind hzero] at hbehind
    exact tableBase_zeros_front hv hne (hfront.trans hbehind.symm)
  · -- the property is one of every order, and then the result is the lowest address
    intro h hs' hperm
    have hloads := loadAddrs_perm hperm
    have hlow : ∀ {hs : List (Nat × Nat)}, 0 ∉ loadAddrs hs ∨ (∀ v ∈ loadAddrs hs, v = 0) →
        tableBase hs = lowest (loadAddrs hs) := by
      intro hs h
      rw [tableBase_eq_lowest_iff]
      by_cases hne : loadAddrs hs = []
      · exact Or.inl (hne ▸ List.not_mem_nil)
      · exact h.imp id (getLast?_of_forall_zero hne)
    have h' : 0 ∉ loadAddrs hs' ∨ ∀ v ∈ loadAddrs hs', v = 0 := by
      simpa only [hloads.mem_iff] using h
    rw [hlow h, hlow h', lowest_perm hloads]

end Table

/-! ## 4. An image for a table -/

/-- The types and the addresses of a table, written to the `n` headers from `p` on. -/
def putHeaders : List (Nat × Nat) → Nat → Mem → Mem
  | [], _, m => m
  | h :: hs, p, m => putHeaders hs (p + sizeofPhdr) (writeLE 8 (p + 16) h.2 (writeLE 4 p h.1 m))

/-- An image with the table behind its header. -/
def imageOf (hs : List (Nat × Nat)) : Mem :=
  putHeaders hs 64 (writeLE 2 56 hs.length (writeLE 8 32 64 fun _ => 0))

section Image

variable {hs : List (Nat × Nat)} {m : Mem} {p : Nat}

theorem putHeaders_frame {x : Nat} (hx : x < p)
    (hp : p + sizeofPhdr * hs.length ≤ 18446744073709551616) : putHeaders hs p m x = m x := by
  induction hs generalizing p m with
  | nil => rfl
  | cons h hs ih =>
    rw [List.length_cons, sizeofPhdr] at hp
    rw [putHeaders, ih (by omega) (by rw [sizeofPhdr]; omega), writeLE_of_not_range,
      writeLE_of_not_range]
    · rw [range_iff (by omega)]
      omega
    · rw [range_iff (by omega)]
      omega

/-- A field in front of the table. -/
theorem readLE_putHeaders {n a : Nat} (ha : a + n ≤ p)
    (hp : p + sizeofPhdr * hs.length ≤ 18446744073709551616) :
    readLE (putHeaders hs p m) n a = readLE m n a := by
  refine readLE_congr fun x hx => ?_
  rw [range_iff (by omega)] at hx
  exact putHeaders_frame (by omega) hp

theorem headersAt_putHeaders (hrange : ∀ h ∈ hs, h.1 < 2 ^ 32 ∧ h.2 < 2 ^ 64)
    (hp : p + sizeofPhdr * hs.length ≤ 18446744073709551616) :
    headersAt (putHeaders hs p m) hs.length p = hs := by
  induction hs generalizing p m with
  | nil => rfl
  | cons h hs ih =>
    obtain ⟨⟨htype, hvaddr⟩, hrest⟩ := List.forall_mem_cons.mp hrange
    rw [List.length_cons, sizeofPhdr] at hp
    have hp' : p + sizeofPhdr + sizeofPhdr * hs.length ≤ 18446744073709551616 := by
      rw [sizeofPhdr]
      omega
    have hv : pVaddr (putHeaders (h :: hs) p m) p = h.2 := by
      rw [pVaddr, putHeaders, readLE_putHeaders (by rw [sizeofPhdr]; omega) hp',
        readLE_writeLE (by decide)]
      exact Nat.mod_eq_of_lt hvaddr
    have ht : pType (putHeaders (h :: hs) p m) p = h.1 := by
      have hother : readLE (writeLE 8 (p + 16) h.2 (writeLE 4 p h.1 m)) 4 p =
          readLE (writeLE 4 p h.1 m) 4 p := readLE_congr fun x hx => by
        rw [range_iff (by omega)] at hx
        refine writeLE_of_not_range ?_
        rw [range_iff (by omega)]
        omega
      rw [pType, putHeaders, readLE_putHeaders (by rw [sizeofPhdr]; omega) hp', hother,
        readLE_writeLE (by decide)]
      exact Nat.mod_eq_of_lt htype
    rw [List.length_cons, headersAt, ht, hv, putHeaders, ih hrest hp']

/-- Every table that fits its fields is that of an image. -/
theorem programHeaders_imageOf (hlen : hs.length < 65536)
    (hrange : ∀ h ∈ hs, h.1 < 2 ^ 32 ∧ h.2 < 2 ^ 64) : programHeaders (imageOf hs) 0 = hs := by
  have hp : 64 + sizeofPhdr * hs.length ≤ 18446744073709551616 := by
    rw [sizeofPhdr]
    omega
  have hphnum : ePhnum (imageOf hs) 0 = hs.length := by
    rw [ePhnum, imageOf, readLE_putHeaders (by decide) hp, readLE_writeLE (by decide)]
    exact Nat.mod_eq_of_lt hlen
  have hphoff : ePhoff (imageOf hs) 0 = 64 := by
    have hother : readLE (writeLE 2 56 hs.length (writeLE 8 32 64 fun _ => 0)) 8 (0 + 32) =
        readLE (writeLE 8 32 64 fun _ => 0) 8 32 := readLE_congr fun x hx => by
      rw [range_iff (by decide)] at hx
      refine writeLE_of_not_range ?_
      rw [range_iff (by decide)]
      omega
    rw [ePhoff, imageOf, readLE_putHeaders (by decide) hp, hother, readLE_writeLE (by decide)]
    rfl
  rw [programHeaders, hphnum, hphoff]
  exact headersAt_putHeaders hrange hp

theorem headersAt_length (m : Mem) (n p : Nat) : (headersAt m n p).length = n := by
  rw [headersAt_eq_map, List.length_map, List.length_range]

theorem headersAt_range {n : Nat} : ∀ h ∈ headersAt m n p, h.1 < 2 ^ 32 ∧ h.2 < 2 ^ 64 := by
  intro h hmem
  rw [headersAt_eq_map] at hmem
  obtain ⟨i, -, rfl⟩ := List.mem_map.mp hmem
  exact ⟨readLE_lt 4 _, readLE_lt 8 _⟩

/-- So is every order of the table of an image. -/
theorem programHeaders_of_perm {ehead : Nat} (h : hs.Perm (programHeaders m ehead)) :
    programHeaders (imageOf hs) 0 = hs := by
  refine programHeaders_imageOf ?_ fun x hx => headersAt_range x (h.mem_iff.mp hx)
  rw [h.length_eq, programHeaders, headersAt_length]
  exact ePhnum_lt m ehead

end Image

/-- **When `elf_virtual_base64` returns the lowest address** of a loadable segment: when none is at
`0` or the last one is.  And when all images with the same headers, in any order, have the same
base: when none is at `0` or all are. -/
theorem virtual_base_lowest_iff (m : Mem) (ehead : Nat) :
    (elfVirtualBase64 m ehead = lowest (loadAddrs (programHeaders m ehead)) ↔
      0 ∉ loadAddrs (programHeaders m ehead) ∨
        (loadAddrs (programHeaders m ehead)).getLast? = some 0) ∧
    ((∀ m' ehead', (programHeaders m' ehead').Perm (programHeaders m ehead) →
        elfVirtualBase64 m' ehead' = elfVirtualBase64 m ehead) ↔
      0 ∉ loadAddrs (programHeaders m ehead) ∨
        ∀ v ∈ loadAddrs (programHeaders m ehead), v = 0) := by
  refine ⟨by rw [elfVirtualBase64_eq, tableBase_eq_lowest_iff], ?_⟩
  rw [← tableBase_perm_iff]
  simp only [elfVirtualBase64_eq]
  constructor
  · intro h hs hperm
    have himage := programHeaders_of_perm hperm
    have hsame := h (imageOf hs) 0
    rw [himage] at hsame
    exact hsame hperm
  · intro h m' ehead' hperm
    exact h _ hperm

/-- A segment at `0` in front of one at `0x1000`: the base is `0x1000`, and `0` in the other
order. -/
theorem zero_segment_skipped :
    elfVirtualBase64 (imageOf [(ptLoad, 0), (ptLoad, 0x1000)]) 0 = 0x1000 ∧
    elfVirtualBase64 (imageOf [(ptLoad, 0x1000), (ptLoad, 0)]) 0 = 0 ∧
    lowest (loadAddrs (programHeaders (imageOf [(ptLoad, 0), (ptLoad, 0x1000)]) 0)) = 0 := by
  have hfirst : programHeaders (imageOf [(ptLoad, 0), (ptLoad, 0x1000)]) 0 =
      [(ptLoad, 0), (ptLoad, 0x1000)] := programHeaders_imageOf (by decide) (by decide)
  have hsecond : programHeaders (imageOf [(ptLoad, 0x1000), (ptLoad, 0)]) 0 =
      [(ptLoad, 0x1000), (ptLoad, 0)] := programHeaders_imageOf (by decide) (by decide)
  rw [elfVirtualBase64_eq, elfVirtualBase64_eq, hfirst, hsecond]
  decide

end Philix.Inky
