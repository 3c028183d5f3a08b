/-
# Half-circular doubly linked lists in an explicit heap

The cells run from a head by `next` to a last cell whose `next` is null; `prev` goes the
other way, and the head's own `prev` goes round to the last cell.  So both ends are one
load away from the head pointer.

`Linked h head l hp` says that the heap `h` holds exactly the cells `l` (address and
payload, head first), linked in that order from `head`, with `hp` as the head's `prev`.
`Ring h head l` is the closed form: `hp` is the last cell.  An update goes through states
in which the ring is open, which is why `hp` is a parameter.

* `Linked.cell_at` reads a cell by its position, `Linked.path` follows the `next` links;
* `Linked.push` links a new cell in front, `Linked.dropLast` takes the last cell out.

`Chain h head l` is what is left to rely on in the middle of such an update: the cells of `l`
are linked in order from `head`, the head's `prev` is anything, and the heap may hold more.
-/
import Mathlib.Tactic.Common
import Mathlib.Data.List.Nodup
import Mathlib.Data.List.Basic

namespace HalfRing

variable {κ α : Type}

/-- A cell: a payload and two nullable links. -/
structure Node (κ α : Type) where
  val : α
  next : Option κ
  prev : Option κ

/-- The live cells of the heap, by address. -/
abbrev Heap (κ α : Type) := κ → Option (Node κ α)

/-- The address of the `i`-th cell, null past the end. -/
def addrAt (l : List (κ × α)) (i : Nat) : Option κ := l[i]?.map Prod.fst

/-- The address of the last cell. -/
def lastAddr (l : List (κ × α)) : Option κ := l.getLast?.map Prod.fst

/-- The `prev` link of the `i`-th cell when the head's own is `hp`. -/
def prevAt (l : List (κ × α)) (hp : Option κ) : Nat → Option κ
  | 0 => hp
  | i + 1 => addrAt l i

/-- The heap holds exactly the cells of `l`, linked in order from `head`. -/
structure Linked (h : Heap κ α) (head : Option κ) (l : List (κ × α)) (hp : Option κ) : Prop where
  head_eq : head = addrAt l 0
  nodup : (l.map Prod.fst).Nodup
  cell : ∀ i (hi : i < l.length), h l[i].1 = some ⟨l[i].2, addrAt l (i + 1), prevAt l hp i⟩
  frame : ∀ a, a ∉ l.map Prod.fst → h a = none

/-- The closed list: the head's `prev` is the last cell. -/
def Ring (h : Heap κ α) (head : Option κ) (l : List (κ × α)) : Prop :=
  Linked h head l (lastAddr l)

/-! ## 1. Addresses by position -/

@[simp] theorem addrAt_nil (i : Nat) : addrAt ([] : List (κ × α)) i = none := by simp [addrAt]

@[simp] theorem addrAt_cons_zero (x : κ × α) (l : List (κ × α)) :
    addrAt (x :: l) 0 = some x.1 := rfl

@[simp] theorem addrAt_cons_succ (x : κ × α) (l : List (κ × α)) (i : Nat) :
    addrAt (x :: l) (i + 1) = addrAt l i := by simp [addrAt]

theorem addrAt_of_lt {l : List (κ × α)} {i : Nat} (hi : i < l.length) :
    addrAt l i = some l[i].1 := by simp [addrAt, hi]

theorem addrAt_eq_none_iff {l : List (κ × α)} {i : Nat} : addrAt l i = none ↔ l.length ≤ i := by
  simp [addrAt]

theorem lastAddr_eq (l : List (κ × α)) : lastAddr l = addrAt l (l.length - 1) := by
  simp [lastAddr, addrAt, List.getLast?_eq_getElem?]

@[simp] theorem lastAddr_cons_cons (x y : κ × α) (l : List (κ × α)) :
    lastAddr (x :: y :: l) = lastAddr (y :: l) := by simp [lastAddr, List.getLast?_cons_cons]

@[simp] theorem lastAddr_concat (l : List (κ × α)) (x : κ × α) :
    lastAddr (l ++ [x]) = some x.1 := by simp [lastAddr]

theorem mem_of_addrAt {l : List (κ × α)} {i : Nat} {a : κ} (h : addrAt l i = some a) :
    a ∈ l.map Prod.fst := by
  simp only [addrAt, Option.map_eq_some_iff] at h
  obtain ⟨x, hx, rfl⟩ := h
  exact List.mem_map.mpr ⟨x, List.mem_of_getElem? hx, rfl⟩

/-- Distinct cells have distinct addresses, so an address determines its position. -/
theorem addrAt_inj {l : List (κ × α)} (hnd : (l.map Prod.fst).Nodup) {i j : Nat} {a : κ}
    (hi : addrAt l i = some a) (hj : addrAt l j = some a) : i = j := by
  simp only [addrAt, ← List.getElem?_map] at hi hj
  obtain ⟨hi', hia⟩ := List.getElem?_eq_some_iff.mp hi
  obtain ⟨hj', hja⟩ := List.getElem?_eq_some_iff.mp hj
  exact (hnd.getElem_inj_iff).mp (hia.trans hja.symm)

theorem exists_addrAt_of_mem {l : List (κ × α)} {a : κ} (h : a ∈ l.map Prod.fst) :
    ∃ i, i < l.length ∧ addrAt l i = some a := by
  obtain ⟨x, hx, rfl⟩ := List.mem_map.mp h
  obtain ⟨i, hi, rfl⟩ := List.getElem_of_mem hx
  exact ⟨i, hi, addrAt_of_lt hi⟩

/-! ## 2. Reading a linked list -/

section Read

variable {h : Heap κ α} {head hp : Option κ} {l : List (κ × α)}

theorem Linked.live_iff (H : Linked h head l hp) {a : κ} :
    h a ≠ none ↔ a ∈ l.map Prod.fst := by
  constructor
  · intro ha
    by_contra hmem
    exact ha (H.frame a hmem)
  · intro ha
    obtain ⟨x, hx, rfl⟩ := List.mem_map.mp ha
    obtain ⟨i, hi, rfl⟩ := List.getElem_of_mem hx
    rw [H.cell i hi]
    simp

theorem Linked.head_none_iff (H : Linked h head l hp) : head = none ↔ l = [] := by
  rw [H.head_eq, addrAt_eq_none_iff]
  simp

/-- The cell at position `i`, read through its address. -/
theorem Linked.cell_at (H : Linked h head l hp) {i : Nat} {a : κ} (ha : addrAt l i = some a) :
    ∃ x, l[i]? = some x ∧ x.1 = a ∧ h a = some ⟨x.2, addrAt l (i + 1), prevAt l hp i⟩ := by
  obtain ⟨x, hx, rfl⟩ := Option.map_eq_some_iff.mp ha
  obtain ⟨hi, rfl⟩ := List.getElem?_eq_some_iff.mp hx
  exact ⟨l[i], hx, rfl, H.cell i hi⟩

/-- Following `next` from a pointer visits exactly the cells of the list and ends in null. -/
inductive Path (h : Heap κ α) : Option κ → List (κ × α) → Prop
  | null : Path h none []
  | cell {a : κ} {n : Node κ α} {l : List (κ × α)} :
      h a = some n → Path h n.next l → Path h (some a) ((a, n.val) :: l)

/-- The cells on a path are live. -/
theorem Path.live {h : Heap κ α} {p : Option κ} {l : List (κ × α)} (H : Path h p l) {a : κ}
    (ha : a ∈ l.map Prod.fst) : h a ≠ none := by
  induction H with
  | null => simp at ha
  | cell hn _ ih =>
    rcases List.mem_cons.mp ha with rfl | ha
    · simp [hn]
    · exact ih ha

theorem path_of_cells {h : Heap κ α} {l : List (κ × α)} {f : Nat → Option κ}
    (hcell : ∀ i (hi : i < l.length), h l[i].1 = some ⟨l[i].2, addrAt l (i + 1), f i⟩) :
    Path h (addrAt l 0) l := by
  induction l generalizing f with
  | nil => exact Path.null
  | cons x l ih =>
    have h0 := hcell 0 (by simp)
    rw [List.getElem_cons_zero, addrAt_cons_succ] at h0
    refine Path.cell (n := ⟨x.2, addrAt l 0, f 0⟩) h0 (ih (f := fun i => f (i + 1)) ?_)
    intro i hi
    have hi' := hcell (i + 1) (by simpa using hi)
    rwa [addrAt_cons_succ] at hi'

theorem Linked.path (H : Linked h head l hp) : Path h head l :=
  H.head_eq ▸ path_of_cells H.cell

/-- In a linked list the `next` of a cell has that cell as its `prev`. -/
theorem Linked.prev_of_next (H : Linked h head l hp) {a b : κ} {n m : Node κ α}
    (ha : h a = some n) (hn : n.next = some b) (hb : h b = some m) : m.prev = some a := by
  obtain ⟨i, -, hai⟩ := exists_addrAt_of_mem (H.live_iff.mp (by simp [ha] : h a ≠ none))
  obtain ⟨x, -, -, hx⟩ := H.cell_at hai
  obtain rfl := Option.some.inj (ha.symm.trans hx)
  obtain ⟨y, -, -, hy⟩ := H.cell_at hn
  obtain rfl := Option.some.inj (hb.symm.trans hy)
  exact hai

/-- The head's `prev`. -/
theorem Linked.head_prev (H : Linked h head l hp) {a : κ} {n : Node κ α}
    (hh : head = some a) (ha : h a = some n) : n.prev = hp := by
  obtain ⟨x, -, -, hx⟩ := H.cell_at (H.head_eq ▸ hh)
  obtain rfl := Option.some.inj (ha.symm.trans hx)
  rfl

end Read

/-! ## 3. Linking a cell in front, taking the last one out -/

/-- **Push.**  `h'` has a new cell at the free address `a` whose `next` is the old head, and
the old head's `prev` is `a`; nothing else moved. -/
theorem Linked.push {h h' : Heap κ α} {p hp hp' : Option κ} {l : List (κ × α)} {a : κ} {v : α}
    (H : Linked h p l hp) (hfree : h a = none)
    (hnew : h' a = some ⟨v, p, hp'⟩)
    (hhead : ∀ b c, p = some b → h b = some c → h' b = some { c with prev := some a })
    (hrest : ∀ b, b ≠ a → p ≠ some b → h' b = h b) :
    Linked h' (some a) ((a, v) :: l) hp' := by
  have hal : a ∉ l.map Prod.fst := fun hmem => H.live_iff.mpr hmem hfree
  refine ⟨rfl, ?_, ?_, ?_⟩
  · simpa using ⟨by simpa using hal, H.nodup⟩
  · intro i hi
    cases i with
    | zero => simp [hnew, prevAt, H.head_eq]
    | succ i =>
      have hi' : i < l.length := by simpa using hi
      have hai := addrAt_of_lt hi'
      have hne : l[i].1 ≠ a := fun e => hal (e ▸ mem_of_addrAt hai)
      simp only [List.getElem_cons_succ, addrAt_cons_succ]
      cases i with
      | zero =>
        rw [hhead _ _ (H.head_eq.trans hai) (H.cell 0 hi')]
        simp [prevAt]
      | succ i =>
        have hnh : p ≠ some l[i + 1].1 := by
          rw [H.head_eq]
          intro e
          exact absurd (addrAt_inj H.nodup e hai) (by omega)
        rw [hrest _ hne hnh, H.cell (i + 1) hi']
        simp [prevAt]
  · intro b hb
    simp only [List.map_cons, List.mem_cons, not_or] at hb
    have hnh : p ≠ some b := fun e => hb.2 (mem_of_addrAt (H.head_eq ▸ e))
    rw [hrest b hb.1 hnh]
    exact H.frame b hb.2

/-- **Take the last cell out.**  `h'` has no cell at the last address and a null `next` in
the cell before it; the head's `prev` is left alone, so the list comes out open. -/
theorem Linked.dropLast {h h' : Heap κ α} {head hp : Option κ} {l : List (κ × α)} {x : κ × α}
    (H : Linked h head (l ++ [x]) hp) (hl : l ≠ [])
    (hgone : h' x.1 = none)
    (hlast : ∀ b c, lastAddr l = some b → h b = some c → h' b = some { c with next := none })
    (hrest : ∀ b, b ≠ x.1 → lastAddr l ≠ some b → h' b = h b) :
    Linked h' head l hp := by
  have hpos : 0 < l.length := List.length_pos_iff.mpr hl
  have hnd : (l.map Prod.fst).Nodup ∧ x.1 ∉ l.map Prod.fst := by
    have := H.nodup
    rw [List.map_append, List.nodup_append'] at this
    exact ⟨this.1, fun hm => this.2.2 hm (by simp)⟩
  have hget : ∀ i, i < l.length → addrAt (l ++ [x]) i = addrAt l i := by
    intro i hi
    simp [addrAt, List.getElem?_append_left hi]
  refine ⟨?_, hnd.1, ?_, ?_⟩
  · rw [H.head_eq, hget 0 hpos]
  · intro i hi
    have hi' : i < (l ++ [x]).length := by simp; omega
    have hcell := H.cell i hi'
    rw [List.getElem_append_left hi] at hcell
    have hai := addrAt_of_lt hi
    have hprev : prevAt (l ++ [x]) hp i = prevAt l hp i := by
      cases i with
      | zero => rfl
      | succ i => exact hget i (by omega)
    rw [hprev] at hcell
    by_cases hlast' : i + 1 = l.length
    · have hil : lastAddr l = some l[i].1 := by
        rw [lastAddr_eq, ← hai]
        congr 1
        omega
      rw [hlast _ _ hil hcell, addrAt_eq_none_iff.mpr (by omega : l.length ≤ i + 1)]
    · have hne : l[i].1 ≠ x.1 := fun e => hnd.2 (e ▸ mem_of_addrAt hai)
      have hnl : lastAddr l ≠ some l[i].1 := by
        rw [lastAddr_eq]
        intro e
        exact absurd (addrAt_inj hnd.1 e hai) (by omega)
      rw [hrest _ hne hnl, hcell, hget (i + 1) (by omega)]
  · intro b hb
    by_cases hbx : b = x.1
    · rw [hbx, hgone]
    · have hnl : lastAddr l ≠ some b := by
        intro e
        rw [lastAddr_eq] at e
        exact hb (mem_of_addrAt e)
      rw [hrest b hbx hnl]
      refine H.frame b ?_
      simp only [List.map_append, List.map_cons, List.map_nil, List.mem_append,
        List.mem_singleton, not_or]
      exact ⟨hb, hbx⟩

/-! ## 4. Chains: what survives in the middle of an update -/

/-- The heap holds at least the cells of `l`, linked in order from `head`; the head's own
`prev` is left open. -/
structure Chain (h : Heap κ α) (head : Option κ) (l : List (κ × α)) : Prop where
  head_eq : head = addrAt l 0
  nodup : (l.map Prod.fst).Nodup
  cell : ∀ i (hi : i < l.length), ∃ hp, h l[i].1 = some ⟨l[i].2, addrAt l (i + 1), prevAt l hp i⟩

section Chain

variable {h h' : Heap κ α} {head hp : Option κ} {l : List (κ × α)} {a : κ} {x : κ × α}

theorem Linked.chain (H : Linked h head l hp) : Chain h head l :=
  ⟨H.head_eq, H.nodup, fun i hi => ⟨hp, H.cell i hi⟩⟩

theorem Chain.head_live (H : Chain h head l) (hh : head = some a) : ∃ n, h a = some n := by
  obtain ⟨hi, hx⟩ : ∃ hi : 0 < l.length, l[0].1 = a := by
    cases l with
    | nil => simp [H.head_eq] at hh
    | cons x l => exact ⟨Nat.succ_pos _, by simpa [H.head_eq] using hh⟩
  obtain ⟨hp, hcell⟩ := H.cell 0 hi
  exact ⟨_, hx ▸ hcell⟩

/-- Where the head's `prev` does not count. -/
theorem Chain.cell_succ (H : Chain h head l) {i : Nat} (hi : i + 1 < l.length) :
    h l[i + 1].1 = some ⟨l[i + 1].2, addrAt l (i + 2), addrAt l i⟩ := by
  obtain ⟨hp, hcell⟩ := H.cell (i + 1) hi
  exact hcell

/-- The cells outside the chain, and the head's `prev`, may change. -/
theorem Chain.congr (H : Chain h head l)
    (hsame : ∀ a, a ∈ l.map Prod.fst → head ≠ some a → h' a = h a)
    (hhead : ∀ a n, head = some a → h a = some n → ∃ p, h' a = some { n with prev := p }) :
    Chain h' head l := by
  refine ⟨H.head_eq, H.nodup, fun i hi => ?_⟩
  have hai := addrAt_of_lt hi
  obtain ⟨hp, hcell⟩ := H.cell i hi
  cases i with
  | zero =>
    obtain ⟨p, hp'⟩ := hhead _ _ (H.head_eq.trans hai) hcell
    exact ⟨p, hp'⟩
  | succ i =>
    have hne : head ≠ some l[i + 1].1 := by
      rw [H.head_eq]
      intro e
      exact absurd (addrAt_inj H.nodup e hai) (by omega)
    exact ⟨hp, (hsame _ (mem_of_addrAt hai) hne).trans hcell⟩

/-- A change outside the chain. -/
theorem Chain.frame (H : Chain h head l) (hsame : ∀ a, a ∈ l.map Prod.fst → h' a = h a) :
    Chain h' head l := by
  refine H.congr (fun a ha _ => hsame a ha) fun a n hh ha => ⟨n.prev, ?_⟩
  rw [hsame a (mem_of_addrAt (H.head_eq ▸ hh)), ha]

/-- Cutting the last cell off shortens the chain; the cell itself may stay. -/
theorem Chain.cut (H : Chain h head (l ++ [x])) (hl : l ≠ [])
    (hlast : ∀ b n, lastAddr l = some b → h b = some n → h' b = some { n with next := none })
    (hrest : ∀ b, b ∈ l.map Prod.fst → lastAddr l ≠ some b → h' b = h b) :
    Chain h' head l := by
  have hpos : 0 < l.length := List.length_pos_iff.mpr hl
  have hnd : (l.map Prod.fst).Nodup := by
    have hall := H.nodup
    rw [List.map_append, List.nodup_append'] at hall
    exact hall.1
  have hget : ∀ i, i < l.length → addrAt (l ++ [x]) i = addrAt l i := by
    intro i hi
    simp [addrAt, List.getElem?_append_left hi]
  refine ⟨by rw [H.head_eq, hget 0 hpos], hnd, fun i hi => ?_⟩
  have hai := addrAt_of_lt hi
  obtain ⟨hp, hcell⟩ := H.cell i (by simp; omega)
  rw [List.getElem_append_left hi] at hcell
  have hprev : prevAt (l ++ [x]) hp i = prevAt l hp i := by
    cases i with
    | zero => rfl
    | succ i => exact hget i (by omega)
  rw [hprev] at hcell
  refine ⟨hp, ?_⟩
  by_cases hlast' : i + 1 = l.length
  · have hil : lastAddr l = some l[i].1 := by
      rw [lastAddr_eq, ← hai]
      congr 1
      omega
    rw [hlast _ _ hil hcell, addrAt_eq_none_iff.mpr (by omega : l.length ≤ i + 1)]
  · have hnl : lastAddr l ≠ some l[i].1 := by
      rw [lastAddr_eq]
      intro e
      exact absurd (addrAt_inj hnd e hai) (by omega)
    rw [hrest _ (mem_of_addrAt hai) hnl, hcell, hget (i + 1) (by omega)]

end Chain

end HalfRing
