/-
# The page walk of long mode

Four levels of tables with 512 entries of eight bytes.  Level `3` is the root; an entry of
level `2` or `1` may map a large page, and one of level `0` always maps a page.  `walk` gets the
entries from a function `rd` that reads the eight bytes at a physical address.

A lookup is put together from the rules for one level: `walk_notPresent`, `walk_table`,
`walk_large`, `walk_malformed`; those of section 5 take an entry apart into an address and flags.
-/
import Mathlib.Algebra.Group.Nat.Defs
import Mathlib.Tactic.Common

namespace PageWalk

/-! ## 1. Entries -/

def Present (e : Nat) : Prop := e % 2 = 1

def Writable (e : Nat) : Prop := e / 2 % 2 = 1

/-- The page size bit. -/
def Large (e : Nat) : Prop := e / 128 % 2 = 1

instance (e : Nat) : Decidable (Present e) := inferInstanceAs (Decidable (_ = _))

instance (e : Nat) : Decidable (Writable e) := inferInstanceAs (Decidable (_ = _))

instance (e : Nat) : Decidable (Large e) := inferInstanceAs (Decidable (_ = _))

/-- The width of an address within what an entry of a level maps. -/
def pageBits (level : Nat) : Nat := 12 + 9 * level

/-- Which entry of a table of that level an address selects. -/
def index (level v : Nat) : Nat := v / 2 ^ pageBits level % 512

/-- The table an entry points to: bits 12 to 51. -/
def tableOf (e : Nat) : Nat := e / 2 ^ 12 % 2 ^ 40 * 2 ^ 12

/-- The page an entry of that level maps: the bits from the page's width to 51. -/
def frameOf (level e : Nat) : Nat :=
  e / 2 ^ pageBits level % 2 ^ (52 - pageBits level) * 2 ^ pageBits level

/-- An entry of level `1` or `2` that maps a page is reserved to have zeroes from bit 13 up to
the page's width; at level `3` it may not map a page. -/
def WellFormed (level e : Nat) : Prop :=
  level ≤ 2 ∧ e / 2 ^ 13 % 2 ^ (pageBits level - 13) = 0

instance (level e : Nat) : Decidable (WellFormed level e) := inferInstanceAs (Decidable (_ ∧ _))

/-! ## 2. The walk -/

/-- Where a lookup ends. -/
structure Page where
  frame : Nat
  bits : Nat
  writable : Bool
  deriving DecidableEq, Repr

inductive Outcome
  | notPresent
  | malformed
  | page (p : Page)
  deriving DecidableEq, Repr

/-- A page is writable when the entries above it are too. -/
def Outcome.through (e : Nat) : Outcome → Outcome
  | .page p => .page { p with writable := p.writable && decide (Writable e) }
  | r => r

/-- The entry of the table at `table` for the address `v`. -/
def entryAt (rd : Nat → Nat) (level table v : Nat) : Nat := rd (table + 8 * index level v)

/-- The walk from the table at `table`. -/
def walk (rd : Nat → Nat) : Nat → Nat → Nat → Outcome
  | 0, table, v =>
    let e := entryAt rd 0 table v
    if Present e then .page ⟨frameOf 0 e, pageBits 0, decide (Writable e)⟩ else .notPresent
  | level + 1, table, v =>
    let e := entryAt rd (level + 1) table v
    if Present e then
      if Large e then
        if WellFormed (level + 1) e then
          .page ⟨frameOf (level + 1) e, pageBits (level + 1), decide (Writable e)⟩
        else .malformed
      else (walk rd level (tableOf e) v).through e
    else .notPresent

/-- The address the walk ends in is `v` itself, through a writable page of `2 ^ bits` bytes. -/
def MapsToItself (r : Outcome) (bits v : Nat) : Prop :=
  ∃ p, r = .page p ∧ p.bits = bits ∧ p.writable = true ∧ p.frame + v % 2 ^ p.bits = v

theorem MapsToItself.ne_notPresent {r : Outcome} {bits v : Nat} (h : MapsToItself r bits v) :
    r ≠ .notPresent := by
  obtain ⟨p, rfl, -⟩ := h
  exact Outcome.noConfusion

/-! ## 3. One level -/

section Levels

variable {rd : Nat → Nat} {level table v e : Nat}

theorem walk_notPresent (he : entryAt rd (level + 1) table v = e) (hp : ¬ Present e) :
    walk rd (level + 1) table v = .notPresent := by
  simp only [walk, he, if_neg hp]

theorem walk_table (he : entryAt rd (level + 1) table v = e) (hp : Present e) (hl : ¬ Large e) :
    walk rd (level + 1) table v = (walk rd level (tableOf e) v).through e := by
  simp only [walk, he, if_pos hp, if_neg hl]

theorem walk_large (he : entryAt rd (level + 1) table v = e) (hp : Present e) (hl : Large e)
    (hw : WellFormed (level + 1) e) :
    walk rd (level + 1) table v =
      .page ⟨frameOf (level + 1) e, pageBits (level + 1), decide (Writable e)⟩ := by
  simp only [walk, he, if_pos hp, if_pos hl, if_pos hw]

theorem walk_malformed (he : entryAt rd (level + 1) table v = e) (hp : Present e) (hl : Large e)
    (hw : ¬ WellFormed (level + 1) e) : walk rd (level + 1) table v = .malformed := by
  simp only [walk, he, if_pos hp, if_pos hl, if_neg hw]

/-- Writable entries above a page leave it as it is. -/
theorem Outcome.through_writable (hw : Writable e) (r : Outcome) : r.through e = r := by
  cases r with
  | page p => simp [Outcome.through, hw]
  | _ => rfl

end Levels

/-! ## 4. Entries put together from a table or a page and flags -/

section Flags

variable {t flags : Nat}

/-- An entry with an aligned table and flags below bit 7. -/
theorem table_entry (ht : t % 4096 = 0) (hlt : t < 2 ^ 52) (hf : flags < 128) :
    (Present (t + flags) ↔ Present flags) ∧ (Writable (t + flags) ↔ Writable flags) ∧
      ¬ Large (t + flags) ∧ tableOf (t + flags) = t := by
  unfold Present Writable Large tableOf
  omega

/-- An entry with an aligned page of 2 MiB and flags below bit 12. -/
theorem page_entry (ht : t % 2097152 = 0) (hlt : t < 2 ^ 52) (hf : flags < 4096) :
    (Present (t + flags) ↔ Present flags) ∧ (Writable (t + flags) ↔ Writable flags) ∧
      (Large (t + flags) ↔ Large flags) ∧ WellFormed 1 (t + flags) ∧ frameOf 1 (t + flags) = t := by
  simp only [Present, Writable, Large, WellFormed, frameOf, pageBits]
  omega

end Flags

/-! ## 5. The walk through such entries -/

section Through

variable {rd : Nat → Nat} {level table v t flags : Nat}

/-- An entry that points to the table `t`. -/
theorem walk_to_table (ht : t % 4096 = 0) (hlt : t < 2 ^ 52) (hf : flags < 128)
    (hp : Present flags) (hw : Writable flags) (he : entryAt rd (level + 1) table v = t + flags) :
    walk rd (level + 1) table v = walk rd level t v := by
  obtain ⟨hpresent, hwritable, hlarge, htable⟩ := table_entry ht hlt hf
  rw [walk_table he (hpresent.mpr hp) hlarge, htable,
    Outcome.through_writable (hwritable.mpr hw)]

/-- An entry of level `1` that maps the page at `t`. -/
theorem walk_to_page (ht : t % 2097152 = 0) (hlt : t < 2 ^ 52) (hf : flags < 4096)
    (hp : Present flags) (hl : Large flags) (hw : Writable flags)
    (he : entryAt rd 1 table v = t + flags) : walk rd 1 table v = .page ⟨t, 21, true⟩ := by
  obtain ⟨hpresent, hwritable, hlarge, hwell, hframe⟩ := page_entry ht hlt hf
  rw [walk_large he (hpresent.mpr hp) (hlarge.mpr hl) hwell, hframe,
    decide_eq_true (hwritable.mpr hw)]
  rfl

/-- The entry of the page of `v` itself. -/
theorem mapsToItself_of_entry (hlt : v < 2 ^ 52) (hf : flags < 4096) (hp : Present flags)
    (hl : Large flags) (hw : Writable flags)
    (he : entryAt rd 1 table v = flags + 0x200000 * (v / 0x200000)) :
    MapsToItself (walk rd 1 table v) 21 v := by
  rw [walk_to_page (Nat.mul_mod_right _ _) (by omega) hf hp hl hw (he.trans (Nat.add_comm _ _))]
  exact ⟨_, rfl, rfl, rfl, Nat.div_add_mod v 2097152⟩

end Through

end PageWalk
