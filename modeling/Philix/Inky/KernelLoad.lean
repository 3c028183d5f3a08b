/-
# Loading the kernel with `linear_alloc`

`linear_alloc` hands out the memory from `kernelStart` on, page by page, in the order of the
headers (`segStart_succ`).  What is still to be read while the kernel is loaded is what the loop
reads, the bytes of the segments to come, and what `elf_virtual_base64` reads once more at the end
(`LeftToRead`); `Undisturbed` says that no round writes it.
-/
import Philix.Inky.Rounds
import Philix.Inky.Loader
import Philix.Inky.VirtualBase

namespace Philix.Inky

open ByteMem Loop Lts

section Kernel

variable (m₀ : Mem) (base : Nat) (t : Tables)

/-- Where the segment of header `i` goes: `phys_alloc_start` when the loop gets to it. -/
abbrev segStart : Nat → Nat := Rounds.destAt linearAlloc kernelStart m₀ base

/-- The loop gets past header `i`, if it gets to it. -/
abbrev Passes : Nat → Prop := Rounds.Passes linearAlloc kernelStart m₀ base t

/-- What the loop has when it gets to header `i`. -/
abbrev Tracks : Nat → LoadState Nat → Prop := Rounds.Tracks linearAlloc kernelStart m₀ base t

/-- The loop gets to header `i` with this state. -/
abbrev Reached : Nat → LoadState Nat → Prop := Rounds.Reached linearAlloc kernelStart m₀ base t

/-- The loop gets to header `i`, if it reads what is in `m₀`. -/
abbrev GetsTo : Nat → Prop := Rounds.GetsTo linearAlloc kernelStart m₀ base t

/-- The segment of header `i`, if it has one, goes apart from what is still to be read. -/
abbrev NextApart (S : Nat → Nat → Prop) : Nat → Prop :=
  Rounds.NextApart linearAlloc kernelStart m₀ base t S

/-- What `elf_virtual_base64` reads. -/
def VirtualBaseReads (x : Nat) : Prop :=
  Range (base + 32) 8 x ∨ Range (base + 56) 2 x ∨ ∃ i < ePhnum m₀ base,
    Range (phdr m₀ base i) 4 x ∨
      pType m₀ (phdr m₀ base i) = ptLoad ∧ Range (phdr m₀ base i + 16) 8 x

/-- What is still to be read when the loop gets to header `i`. -/
def LeftToRead (i x : Nat) : Prop :=
  StillRead m₀ base t i x ∨ VirtualBaseReads m₀ base x ∨
    ∃ j, i ≤ j ∧ LoadAt m₀ base (ePhnum m₀ base) j ∧
      Range (fileStart m₀ base (phdr m₀ base j)) (pFilesz m₀ (phdr m₀ base j)) x

/-- What is to be kept when the loop gets to header `i`: that, and `R`. -/
def KeptAt (R : Nat → Prop) (i x : Nat) : Prop := R x ∨ LeftToRead m₀ base t i x

end Kernel

variable {S : Nat → Nat → Prop} {m₀ m : Mem} {base : Nat} {t : Tables} {i : Nat}
  {s s' : LoadState Nat}

/-! ## 1. Where the segments go -/

/-- Each segment takes its size, rounded up to pages. -/
theorem segStart_succ : segStart m₀ base (i + 1) =
    if pType m₀ (phdr m₀ base i) = ptLoad then
      wrap (segStart m₀ base i + allocSize (pMemsz m₀ (phdr m₀ base i)))
    else segStart m₀ base i := by
  change Rounds.allocAt linearAlloc kernelStart m₀ base (i + 1) = _
  rw [Rounds.allocAt]
  rfl

theorem passes_iff : Passes m₀ base t i ↔
    (pType m₀ (phdr m₀ base i) = ptLoad → segStart m₀ base i ≠ 0 ∧
      PlaceOk m₀ base t (phdr m₀ base i) (segStart m₀ base i)) ∧
    (pType m₀ (phdr m₀ base i) = ptTls →
      pVaddr m₀ (phdr m₀ base i) ≠ 0 ∧ (Rounds.tlsAt m₀ base i).1 = 0) :=
  Iff.rfl

theorem alloc_of_tracks (T : Tracks m₀ base t i s) : s.alloc = segStart m₀ base i := T.allocator

theorem nextApart_iff : NextApart m₀ base t S i ↔
    (pType m₀ (phdr m₀ base i) = ptLoad → segStart m₀ base i ≠ 0 →
      Apart m₀ base t (Later m₀ base t S i) (phdr m₀ base i) (segStart m₀ base i)) := by
  constructor
  · intro h hload hne
    exact h _ (Rounds.replies_destAt hload hne) hne
  · intro h d hreply hne
    obtain rfl := hreply.destAt_eq
    exact h hreply.1 hne

/-! ## 2. What is kept -/

theorem elfVirtualBase64_frozen (hag : Agree (VirtualBaseReads m₀ base) m₀ m) :
    elfVirtualBase64 m base = elfVirtualBase64 m₀ base := by
  have hphoff : ePhoff m base = ePhoff m₀ base := hag.readLE fun _ hx => Or.inl hx
  have hphnum : ePhnum m base = ePhnum m₀ base := hag.readLE fun _ hx => Or.inr (Or.inl hx)
  rw [elfVirtualBase64, elfVirtualBase64, hphnum, hphoff]
  refine virtualBase_congr fun i hi => ⟨?_, fun hload => ?_⟩
  · exact hag.readLE fun _ hx => Or.inr (Or.inr ⟨i, hi, Or.inl hx⟩)
  · exact hag.readLE fun _ hx => Or.inr (Or.inr ⟨i, hi, Or.inr ⟨hload, hx⟩⟩)

theorem elfVirtualBase64_kept {R : Nat → Prop} (hag : Agree (KeptAt m₀ base t R i) m₀ m) :
    elfVirtualBase64 m base = elfVirtualBase64 m₀ base :=
  elfVirtualBase64_frozen (hag.mono fun _ hx => Or.inr (Or.inr (Or.inl hx)))

theorem covers_kept (R : Nat → Prop) : Covers m₀ base t (KeptAt m₀ base t R) where
  still h := Or.inr (Or.inl h)
  anti := by
    rintro i x (h | h | h | ⟨j, hij, hj, h⟩)
    · exact Or.inl h
    · exact Or.inr (Or.inl h.anti)
    · exact Or.inr (Or.inr (Or.inl h))
    · exact Or.inr (Or.inr (Or.inr ⟨j, Nat.le_of_succ_le hij, hj, h⟩))

/-- A set that has all that the loop reads is one to keep throughout. -/
theorem covers_const {S : Nat → Prop} (h : ∀ x, StillRead m₀ base t 0 x → S x) :
    Covers m₀ base t fun _ => S where
  still {i x} hx := by
    refine h x ?_
    induction i with
    | zero => exact hx
    | succ i ih => exact ih hx.anti
  anti := id

/-! ## 3. `elf64_load` as a run -/

/-- `elf64_load` gets to its loop over the segments, with the tables `t`. -/
structure Enters (c : Setup) (t : Tables) : Prop where
  size_ne : c.kernel.size ≠ 0
  header : HeaderOk c.mem c.base emK1om
  proghdr : ProghdrOk c.mem c.base c.kernel.size
  tables : selectTables c.mem c.base = .ok t

/-- **The kernel is accepted** exactly when the loop runs past the last header. -/
theorem loadKernel_eq_ok_iff {c : Setup} {l : Loaded} :
    loadKernel c = .ok (s, .ok l) ↔ ∃ t, Enters c t ∧
      (∃ n, Reached c.mem c.base t n s ∧ ¬ n < ePhnum s.mem c.base) ∧
      l = ⟨eEntry s.mem c.base, s.tlsBase, s.tlsInitLen, s.tlsTotalLen⟩ := by
  rw [loadKernel, elf64Load_eq_ok_iff]
  constructor
  · rintro ⟨⟨hsize, hheader, hproghdr⟩, t, ht, ⟨n, es, hrun, hn⟩, hl⟩
    exact ⟨t, ⟨hsize, hheader, hproghdr, ht⟩, ⟨n, ⟨es, hrun⟩, hn⟩, hl⟩
  · rintro ⟨t, E, ⟨n, ⟨es, hrun⟩, hn⟩, hl⟩
    exact ⟨⟨E.size_ne, E.header, E.proghdr⟩, t, E.tables, ⟨n, es, hrun, hn⟩, hl⟩

theorem Enters.unique {c : Setup} {t t' : Tables} (E : Enters c t) (E' : Enters c t') : t = t' := by
  have := E.tables
  rw [E'.tables] at this
  exact (Except.ok.inj this).symm

/-- Header `i` of the kernel. -/
abbrev Setup.hdr (c : Setup) (i : Nat) : Nat := phdr c.mem c.base i

/-- Header `i` of the kernel loads a segment. -/
abbrev Setup.Seg (c : Setup) (i : Nat) : Prop := LoadAt c.mem c.base (ePhnum c.mem c.base) i

/-- The memory of the module. -/
def Setup.Module (c : Setup) (x : Nat) : Prop := Range c.base c.kernel.size x

/-- The `e`th relocation that is applied. -/
abbrev Setup.reloc (c : Setup) (t : Tables) (e : Nat) : Nat := entry (relaTable c.mem c.base t) e

/-- The segments of the module are no longer in the file than in memory, what is read of its
headers and tables is in `S`, and its relocations, applied where the segments go, store nothing
there. -/
structure WellFormed (S : Nat → Prop) (c : Setup) (t : Tables) : Prop where
  reads : ∀ x, StillRead c.mem c.base t 0 x → S x
  sizes : ∀ {i}, c.Seg i → pFilesz c.mem (c.hdr i) ≤ pMemsz c.mem (c.hdr i)
  stores : ∀ {i}, c.Seg i →
    ∀ x, StoredAt c.mem c.base t (c.hdr i) (segStart c.mem c.base i) x → ¬ S x

section WellFormed

variable {S : Nat → Prop} {c : Setup} (W : WellFormed S c t)

include W

theorem WellFormed.covers : Covers c.mem c.base t fun _ => S := covers_const W.reads

/-- The next segment goes apart from `S` when its place is not in it. -/
theorem WellFormed.nextApart (hi : i < ePhnum c.mem c.base)
    (h : pType c.mem (c.hdr i) = ptLoad →
      ∀ x, Range (segStart c.mem c.base i) (pMemsz c.mem (c.hdr i)) x → ¬ S x) :
    NextApart c.mem c.base t (fun _ => S) i := by
  refine nextApart_iff.mpr fun hload _ => ?_
  exact apart_of_disjoint (W.sizes ⟨hi, hload⟩)
    (fun x hx hS => h hload x hx (W.covers.of_later hi hload hS))
    fun x hx hS => W.stores ⟨hi, hload⟩ x hx (W.covers.of_later hi hload hS)

end WellFormed

/-- Loading the kernel overwrites neither `R` nor what is still to be read: the segments go apart
from it, each also from its own bytes in the file, and so do the words that are relocated. -/
structure Undisturbed (R : Nat → Prop) (c : Setup) (t : Tables) : Prop where
  sizes : ∀ {i}, c.Seg i → pFilesz c.mem (c.hdr i) ≤ pMemsz c.mem (c.hdr i)
  own : ∀ {i}, c.Seg i → CopiesApart c.mem c.base (c.hdr i) (segStart c.mem c.base i)
  apart : ∀ {i}, c.Seg i → ∀ x, Range (segStart c.mem c.base i) (pMemsz c.mem (c.hdr i)) x →
    ¬ Later c.mem c.base t (KeptAt c.mem c.base t R) i x
  stores : ∀ {i}, c.Seg i →
    ∀ x, StoredAt c.mem c.base t (c.hdr i) (segStart c.mem c.base i) x →
      ¬ Later c.mem c.base t (KeptAt c.mem c.base t R) i x

/-- A kernel all of which is in `S`, with its segments apart from it. -/
theorem WellFormed.undisturbed {S : Nat → Prop} {c : Setup} (W : WellFormed S c t)
    (hbase : ∀ x, VirtualBaseReads c.mem c.base x → S x)
    (hfiles : ∀ {i}, c.Seg i →
      ∀ x, Range (fileStart c.mem c.base (c.hdr i)) (pFilesz c.mem (c.hdr i)) x → S x)
    (hapart : ∀ {i}, c.Seg i →
      ∀ x, Range (segStart c.mem c.base i) (pMemsz c.mem (c.hdr i)) x → ¬ S x) :
    Undisturbed S c t := by
  have hkept : ∀ {i x}, KeptAt c.mem c.base t S i x → S x := by
    rintro i x (h | h | h | ⟨j, -, hj, h⟩)
    · exact h
    · exact W.covers.still h
    · exact hbase x h
    · exact hfiles hj x h
  have hlater : ∀ {i x}, c.Seg i → Later c.mem c.base t (KeptAt c.mem c.base t S) i x → S x :=
    fun hi hx => hkept ((covers_kept S).of_later hi.1 hi.2 hx)
  exact ⟨W.sizes, fun hi x hx hf => hapart hi x (hx.of_le (W.sizes hi)) (hfiles hi x hf),
    fun hi x hx hS => hapart hi x hx (hlater hi hS),
    fun hi x hx hS => W.stores hi x hx (hlater hi hS)⟩

section Undisturbed

variable {R : Nat → Prop} {c : Setup} (U : Undisturbed R c t)

include U

theorem Undisturbed.nextApart (hi : i < ePhnum c.mem c.base) :
    NextApart c.mem c.base t (KeptAt c.mem c.base t R) i :=
  nextApart_iff.mpr fun hload _ => apart_of_disjoint (U.sizes ⟨hi, hload⟩) (U.apart ⟨hi, hload⟩)
    (U.stores ⟨hi, hload⟩)

/-- Segments that do not overlap are laid out well. -/
theorem Undisturbed.laid (hdis : ∀ {i j}, c.Seg i → c.Seg j → i ≠ j →
      ∀ x, Range (segStart c.mem c.base i) (pMemsz c.mem (c.hdr i)) x →
        ¬ Range (segStart c.mem c.base j) (pMemsz c.mem (c.hdr j)) x) :
    Laid (KeptAt c.mem c.base t R) c.mem c.base t (segStart c.mem c.base)
      (ePhnum c.mem c.base) where
  sizes := U.sizes
  anti := (covers_kept R).anti
  files {i} hi _ hx := Or.inr (Or.inr (Or.inr ⟨i, Nat.le_refl i, hi, hx⟩))
  own := U.own
  apart hi x hx hS := U.apart hi x hx (Or.inr hS)
  stores hi x hx hS := U.stores hi x hx (Or.inr hS)
  disjoint := hdis

end Undisturbed

/-- **What an accepted kernel leaves**, when every segment goes apart from what is still to be
read. -/
theorem loaded_of_accepted {c : Setup} {l : Loaded} (E : Enters c t)
    (C : Covers c.mem c.base t S)
    (A : ∀ j < ePhnum c.mem c.base, NextApart c.mem c.base t S j)
    (h : loadKernel c = .ok (s, .ok l)) :
    Tracks c.mem c.base t (ePhnum c.mem c.base) s ∧ Agree (S (ePhnum c.mem c.base)) c.mem s.mem ∧
      l.entry = eEntry c.mem c.base := by
  obtain ⟨t', E', ⟨n, hreached, hn⟩, rfl⟩ := loadKernel_eq_ok_iff.mp h
  obtain rfl := E.unique E'
  obtain ⟨T, hag⟩ := Rounds.tracks_of_reached C (fun j _ _ _ _ hj => A j hj) hreached
  rw [C.ePhnum_eq hag] at hn
  obtain rfl : n = ePhnum c.mem c.base := Nat.le_antisymm T.le (Nat.not_lt.mp hn)
  exact ⟨T, hag, C.eEntry_eq hag⟩

/-- A kernel is accepted when all its headers let the loop pass. -/
theorem accepted_of_passes {c : Setup} (E : Enters c t) (C : Covers c.mem c.base t S)
    (hp : ∀ j < ePhnum c.mem c.base, Passes c.mem c.base t j)
    (A : ∀ j < ePhnum c.mem c.base, NextApart c.mem c.base t S j) :
    ∃ s l, loadKernel c = .ok (s, .ok l) := by
  obtain ⟨s, hreached, -, hag⟩ :=
    Rounds.reached_of_passes C (Nat.le_refl _) hp fun j hj _ _ _ _ => A j hj
  exact ⟨s, _, loadKernel_eq_ok_iff.mpr ⟨t, E, ⟨_, hreached, by
    rw [C.ePhnum_eq hag]
    exact Nat.lt_irrefl _⟩, rfl⟩⟩

/-! ## 4. The jump -/

/-- **A kernel that is started** has been loaded; after that only the status byte changes. -/
theorem startKernel_eq_ok {c : Setup} {entry : Nat} {m' : Mem}
    (h : startKernel c = .ok (entry, m')) :
    ∃ s l, loadKernel c = .ok (s, .ok l) ∧
      entry = wrap (sub64 l.entry (elfVirtualBase64 s.mem c.base) + kernelStart) ∧
      ∀ x, x ≠ statusPort → m' x = s.mem x := by
  obtain ⟨⟨s, r⟩, hload, h⟩ := bind_eq_ok_iff.mp h
  cases r with
  | error e => cases h
  | ok l =>
    simp only [pure_eq_ok, Except.ok.injEq, Prod.mk.injEq] at h
    obtain ⟨hentry, hmem⟩ := h
    refine ⟨s, l, hload, hentry.symm, fun x hx => ?_⟩
    rw [← hmem]
    split <;> split <;> simp only [printStatus_of_ne hx]

theorem started_of_accepted {c : Setup} {l : Loaded} (h : loadKernel c = .ok (s, .ok l)) :
    ∃ entry m', startKernel c = .ok (entry, m') := by
  rw [startKernel, h, ok_bind]
  exact ⟨_, _, rfl⟩

end Philix.Inky
