/-
# Which images are read inside their bounds

`elf64_load` checks that the program headers end inside the image, with a sum that wraps, and
nothing else: not that the ELF header does (the check is commented out), nor the sections, the
dynamic entries, the file bytes of a segment, the relocations and the symbols.  No image is
rejected for one of these that lies outside.  So an image is read inside its bounds when it is
refused on the fields inside it, or all that is looked at happens to lie there
(`LooksInside`), provided that loading does not write what is still to be read (`RoundsApart`).
-/
import Philix.Inky.RoundAccesses
import Philix.Inky.DynamicChoice

namespace Philix.Inky

open ByteMem Loop Lts Traced

/-- The `n` bytes from `a` on are in the image. -/
def Inside (base size a n : Nat) : Prop := ∀ x, Range a n x → Range base size x

/-- Image data is read at offsets below `size` only. -/
def ReadsInside (base size : Nat) (log : List Access) : Prop :=
  ∀ a n, .read a n ∈ log → Inside base size a n

/-- One of the errors for files that are not well formed. -/
def Rejected {ε σ : Type} (r : Except Halt (LoadState σ × Except (ElfErr ε) Loaded)) : Prop :=
  ∃ s e, r = .ok (s, .error e) ∧ (e = .filesz ∨ e = .header ∨ e = .proghdr)

/-- The file is refused on what is found at offsets below `size`. -/
def RejectedInside (emMachine base size : Nat) (m : Mem) : Prop :=
  size = 0 ∨
  (∃ c ∈ Logged.headerChecks emMachine,
    c.off + c.len ≤ size ∧ c.ok (readLE m c.len (base + c.off)) = false) ∨
  58 ≤ size ∧ HeaderOk m base emMachine ∧ ¬ ProghdrOk m base size

/-- The parts of an image that are looked at lie inside it, as the image is given: the ELF header
up to `e_shnum`; the section headers and dynamic entries that choose the tables; and for every
program header its fields, the bytes of its segment, and the relocations and symbols. -/
structure LooksInside (base size : Nat) (m : Mem) : Prop where
  header : 62 ≤ size
  tables : TablesIn (Inside base size) m base
  rounds : ∀ i < ePhnum m base,
    RoundWithin (Range base size) m base (imageTables m base) (phdr m base i)

/-- No segment, and no word that is relocated, goes where something is still to be read. -/
def RoundsApart {ε σ : Type} (alloc : Allocator ε σ) (state : σ) (base : Nat) (m : Mem) : Prop :=
  ∀ i, Rounds.GetsTo alloc state m base (imageTables m base) i →
    Rounds.NextApart alloc state m base (imageTables m base)
      (StillRead m base (imageTables m base)) i

/-- Every table, and every segment in the file, ends before the image does. -/
structure SelfContained (base size : Nat) (m : Mem) : Prop where
  header : 64 ≤ size
  phdrs : ePhoff m base + sizeofPhdr * ePhnum m base ≤ size
  shdrs : eShoff m base + sizeofShdr * eShnum m base ≤ size
  segments : ∀ i < ePhnum m base,
    pType m (phdr m base i) = ptLoad ∨ pType m (phdr m base i) = ptDynamic →
    pOffset m (phdr m base i) + pFilesz m (phdr m base i) ≤ size
  relocations : relaCount (imageTables m base) ≠ 0 →
    shOffset m (imageTables m base).rela + (imageTables m base).relaSize ≤ size
  symbols : relaCount (imageTables m base) ≠ 0 →
    shOffset m (imageTables m base).symtab + shSize m (imageTables m base).symtab ≤ size

/-- What is read in a run of `elf64_load` is in the image: the checked fields of the ELF header;
if they pass, the rest of it up to `e_phnum`, and if that passes, up to `e_shnum`, what chooses
the tables, and what is read for every program header the loop gets to. -/
structure ImageBounds {ε σ : Type} (emMachine : Nat) (alloc : Allocator ε σ) (state : σ)
    (base size : Nat) (m : Mem) : Prop where
  checks : ChecksIn (Inside base size) m base (Logged.headerChecks emMachine)
  phnum : HeaderOk m base emMachine → 58 ≤ size
  shnum : HeaderOk m base emMachine → ProghdrOk m base size → 62 ≤ size
  tables : HeaderOk m base emMachine → ProghdrOk m base size → TablesIn (Inside base size) m base
  segments : HeaderOk m base emMachine → ProghdrOk m base size →
    ∀ t, selectTables m base = .ok t →
      EachHeader alloc base t (wrap (base + ePhoff m base)) ⟨m, state, 0, 0, 0⟩
        (SegmentReads (Inside base size) alloc base t)

/-- The reads of a log. -/
def OnlyReads (In : Nat → Nat → Prop) : Access → Prop
  | .read a n => In a n
  | _ => True

/-! ## 1. What is refused -/

section Header

variable {m : Mem} {base size emMachine : Nat}

/-- A field of the header is in the image when it ends there. -/
theorem inside_head {o n : Nat} (hn : 0 < n) (hle : o + n ≤ 64) :
    Inside base size (base + o) n ↔ o + n ≤ size := by
  constructor
  · intro hin
    obtain ⟨k, hk, e⟩ := hin _ (range_add (Nat.sub_one_lt_of_lt hn))
    simp only [wrap] at e
    omega
  · intro hle x hx
    exact hx.mono hle

theorem checksIn_of_all : ∀ {cs : List Logged.Check},
    (∀ c ∈ cs, Inside base size (base + c.off) c.len) → ChecksIn (Inside base size) m base cs
  | [], _ => trivial
  | c :: _, h =>
    ⟨h c List.mem_cons_self, fun _ => checksIn_of_all fun d hd => h d (List.mem_cons_of_mem c hd)⟩

/-- Checks that do not all pass are made up to the first that fails.  Where the fields are in
order, the bytes of that one are the last. -/
theorem checksIn_iff_of_fails : ∀ {cs : List Logged.Check},
    (∀ c ∈ cs, 0 < c.len ∧ c.off + c.len ≤ 64) →
    cs.Pairwise (fun c d => c.off + c.len ≤ d.off + d.len) →
    (∃ c ∈ cs, c.ok (readLE m c.len (base + c.off)) = false) →
    (ChecksIn (Inside base size) m base cs ↔
      ∃ c ∈ cs, c.off + c.len ≤ size ∧ c.ok (readLE m c.len (base + c.off)) = false)
  | [], _, _, h => absurd h (by simp)
  | c :: cs, hfield, hsorted, hfails => by
    obtain ⟨hpos, hle⟩ := hfield c List.mem_cons_self
    obtain ⟨hfirst, hsorted⟩ := List.pairwise_cons.mp hsorted
    unfold ChecksIn
    rw [inside_head hpos hle]
    by_cases hc : c.ok (readLE m c.len (base + c.off)) = true
    · have hrest : ∀ {Q : Logged.Check → Prop}, (∃ d ∈ c :: cs, Q d ∧
          d.ok (readLE m d.len (base + d.off)) = false) →
          ∃ d ∈ cs, Q d ∧ d.ok (readLE m d.len (base + d.off)) = false := by
        rintro Q ⟨d, hd, hQ, hfail⟩
        rcases List.mem_cons.mp hd with rfl | hd
        · rw [hc] at hfail
          cases hfail
        · exact ⟨d, hd, hQ, hfail⟩
      obtain ⟨d, hd, -, hfail⟩ :=
        hrest (Q := fun _ => True) (hfails.imp fun d h => ⟨h.1, trivial, h.2⟩)
      rw [checksIn_iff_of_fails (fun d hd => hfield d (List.mem_cons_of_mem c hd)) hsorted
        ⟨d, hd, hfail⟩]
      constructor
      · rintro ⟨-, h⟩
        obtain ⟨d, hd, hin⟩ := h hc
        exact ⟨d, List.mem_cons_of_mem c hd, hin⟩
      · intro h
        obtain ⟨d, hd, hin⟩ := hrest h
        exact ⟨Nat.le_trans (hfirst d hd) hin.1, fun _ => ⟨d, hd, hin⟩⟩
    · have hfail : c.ok (readLE m c.len (base + c.off)) = false := Bool.not_eq_true _ ▸ hc
      constructor
      · rintro ⟨hin, -⟩
        exact ⟨c, List.mem_cons_self, hin, hfail⟩
      · rintro ⟨d, hd, hin, -⟩
        refine ⟨?_, fun h => absurd h hc⟩
        rcases List.mem_cons.mp hd with rfl | hd
        · exact hin
        · exact Nat.le_trans (hfirst d hd) hin

theorem headerChecks_fields : ∀ c ∈ Logged.headerChecks emMachine,
    0 < c.len ∧ c.off + c.len ≤ 24 := by
  simp [Logged.headerChecks]

theorem headerChecks_sorted :
    (Logged.headerChecks emMachine).Pairwise fun c d => c.off + c.len ≤ d.off + d.len := by
  simp [Logged.headerChecks]

theorem passes_of_headerOk (h : HeaderOk m base emMachine) :
    ∀ c ∈ Logged.headerChecks emMachine, c.ok (readLE m c.len (base + c.off)) = true :=
  List.all_eq_true.mp (Logged.headerChecks_iff.mpr h)

/-- A header that is refused is read inside the image exactly when a check fails there. -/
theorem refusedChecks_iff (h : ¬ HeaderOk m base emMachine) :
    ChecksIn (Inside base size) m base (Logged.headerChecks emMachine) ↔
      ∃ c ∈ Logged.headerChecks emMachine,
        c.off + c.len ≤ size ∧ c.ok (readLE m c.len (base + c.off)) = false := by
  refine checksIn_iff_of_fails (fun c hc => ?_) headerChecks_sorted ?_
  · obtain ⟨hpos, hle⟩ := headerChecks_fields c hc
    exact ⟨hpos, by omega⟩
  · rw [← Logged.headerChecks_iff, List.all_eq_true] at h
    simpa using h

/-- The checks of an image that is long enough. -/
theorem checksIn_of_size (h : 24 ≤ size) :
    ChecksIn (Inside base size) m base (Logged.headerChecks emMachine) := by
  refine checksIn_of_all fun c hc => ?_
  obtain ⟨hpos, hle⟩ := headerChecks_fields c hc
  exact (inside_head hpos (by omega)).mpr (by omega)

end Header

section Rejected

variable {ε σ : Type} {alloc : Allocator ε σ} {state : σ} {emMachine base size : Nat} {m : Mem}

/-- The errors of the loop over the program headers are the allocator's. -/
theorem loadSegment_error {t : Tables} {p : Nat} {s s' : LoadState σ} {e : ElfErr ε}
    (h : loadSegment alloc base t p s = .ok (s', some e)) : ∃ cause, e = .allocate cause := by
  rw [loadSegment] at h
  split at h
  · split at h
    · obtain ⟨-, he⟩ := Prod.mk.inj (Except.ok.inj h)
      exact ⟨_, (Option.some.inj he).symm⟩
    · obtain ⟨-, h⟩ := assert_bind_eq_ok_iff.mp h
      obtain ⟨m', -, h⟩ := bind_eq_ok_iff.mp h
      cases h
  · split at h
    · obtain ⟨-, h⟩ := assert_bind_eq_ok_iff.mp h
      obtain ⟨-, h⟩ := assert_bind_eq_ok_iff.mp h
      cases h
    · cases h

theorem loadSegments_error {t : Tables} {phead : Nat} (i : Nat) (s s' : LoadState σ)
    {e : ElfErr ε} (h : loadSegments alloc base t phead i s = .ok (s', some e)) :
    ∃ cause, e = .allocate cause := by
  rw [loadSegments] at h
  split at h
  case isTrue hi =>
    split at h
    · cases h
    · rename_i hround
      obtain ⟨-, he⟩ := Prod.mk.inj (Except.ok.inj h)
      obtain rfl := Option.some.inj he
      exact loadSegment_error hround
    · have := ePhnum_lt s.mem base
      exact loadSegments_error (i + 1) _ s' h
  case isFalse => cases h
termination_by 65536 - i

/-- **The files that are rejected** are those that fail one of the three checks. -/
theorem rejected_iff : Rejected (elf64Load emMachine alloc state base size m) ↔
    size = 0 ∨ ¬ HeaderOk m base emMachine ∨ ¬ ProghdrOk m base size := by
  rw [elf64Load]
  by_cases hsize : size = 0
  · rw [if_pos hsize]
    exact iff_of_true ⟨_, _, rfl, Or.inl rfl⟩ (Or.inl hsize)
  by_cases hhead : HeaderOk m base emMachine
  swap
  · rw [if_neg hsize, if_pos hhead]
    exact iff_of_true ⟨_, _, rfl, Or.inr (Or.inl rfl)⟩ (Or.inr (Or.inl hhead))
  by_cases hprog : ProghdrOk m base size
  swap
  · rw [if_neg hsize, if_neg (not_not.mpr hhead), if_pos hprog]
    exact iff_of_true ⟨_, _, rfl, Or.inr (Or.inr rfl)⟩ (Or.inr (Or.inr hprog))
  rw [if_neg hsize, if_neg (not_not.mpr hhead), if_neg (not_not.mpr hprog)]
  refine iff_of_false ?_ fun h => h.elim hsize fun h => h.elim (absurd hhead) (absurd hprog)
  rintro ⟨s, e, h, herr⟩
  obtain ⟨t, -, h⟩ := bind_eq_ok_iff.mp h
  obtain ⟨⟨s', e'⟩, hloop, h⟩ := bind_eq_ok_iff.mp h
  cases e' with
  | none => cases h
  | some e' =>
    obtain ⟨cause, rfl⟩ := loadSegments_error 0 _ s' hloop
    cases h
    rcases herr with h | h | h <;> cases h

end Rejected

/-! ## 2. The whole image -/

section Image

variable {ε σ α : Type} {In : Nat → Nat → Prop} {base size : Nat}

theorem every_onlyReads_iff {x : Logged α} :
    Every (OnlyReads In) x ↔ ∀ a n, .read a n ∈ x.log → In a n := by
  constructor
  · intro h a n ha
    exact h _ ha
  · intro h i hi
    cases i with
    | read a n => exact h a n hi
    | write | given | bad => trivial

theorem every_inside_iff (emMachine : Nat) (alloc : Allocator ε σ) (state : σ) (m : Mem) :
    Every (OnlyReads (Inside base size)) (Logged.elf64Load emMachine alloc state base size m) ↔
      size = 0 ∨ ImageBounds emMachine alloc state base size m := by
  have hhead : 62 ≤ size → ∀ o n, o + n ≤ 62 → Inside base size (base + o) n :=
    fun hsize o n hon x hx => hx.mono (by omega)
  rw [Logged.every_elf64Load_iff]
  constructor
  · rintro ⟨-, h⟩
    by_cases hsize : size = 0
    · exact Or.inl hsize
    obtain ⟨hchecks, hrest⟩ := h hsize
    have hphnum : HeaderOk m base emMachine → 58 ≤ size := fun hok =>
      (inside_head (by decide) (by decide)).mp (hrest hok).1.2.2
    have hshnum : HeaderOk m base emMachine → ProghdrOk m base size → 62 ≤ size := by
      intro hok hprog
      have hsel := ((hrest hok).2 hprog).1
      unfold Logged.selectTables at hsel
      rw [Logged.every_read_bind_iff, Logged.every_read_bind_iff] at hsel
      exact (inside_head (by decide) (by decide)).mp hsel.2.1
    refine Or.inr ⟨hchecks, hphnum, hshnum, fun hok hprog => ?_, fun hok hprog t ht => ?_⟩
    · exact (Logged.every_selectTables_iff (hhead (hshnum hok hprog))).mp
        ((hrest hok).2 hprog).1
    · have hseg := (Logged.every_loadSegments_iff 0 _).mp (((hrest hok).2 hprog).2 t ht).1
      intro es i s hrun hi
      exact (Logged.every_loadSegment_iff.mp (hseg.2 es i s hrun hi)).1
  · intro h
    refine ⟨fun _ => trivial, fun hsize => ?_⟩
    have B := h.resolve_left hsize
    refine ⟨B.checks, fun hok => ?_⟩
    have h58 := B.phnum hok
    refine ⟨⟨(inside_head (by decide) (by decide)).mpr (by omega),
      (inside_head (by decide) (by decide)).mpr (by omega),
      (inside_head (by decide) (by decide)).mpr (by omega)⟩, fun hprog => ?_⟩
    have hin := hhead (B.shnum hok hprog)
    refine ⟨(Logged.every_selectTables_iff hin).mpr (B.tables hok hprog), fun t ht => ?_⟩
    refine ⟨(Logged.every_loadSegments_iff 0 _).mpr ⟨hin 56 2 (by decide), ?_⟩,
      fun _ _ => hin 24 8 (by decide)⟩
    intro es i s hrun hi
    exact Logged.every_loadSegment_iff.mpr ⟨B.segments hok hprog t ht es i s hrun hi,
      fun d hd hne => ⟨fun _ => trivial, fun _ => trivial, fun _ _ i hi m' hm hst => trivial⟩,
      fun d hd => trivial⟩

theorem readsInside_iff {emMachine : Nat} {alloc : Allocator ε σ} {state : σ} {m : Mem} :
    ReadsInside base size (Logged.elf64Load emMachine alloc state base size m).log ↔
      size = 0 ∨ ImageBounds emMachine alloc state base size m := by
  rw [← every_inside_iff, every_onlyReads_iff]
  rfl

end Image

/-! ## 3. The image as it is given -/

section Given

variable {ε σ : Type} {alloc : Allocator ε σ} {state : σ} {emMachine base size : Nat} {m : Mem}

theorem covers_stillRead {t : Tables} : Covers m base t (StillRead m base t) := ⟨id, StillRead.anti⟩

/-- What the loop has when it gets to a header, as long as it does not overwrite what it reads. -/
theorem RoundsApart.tracks (A : RoundsApart alloc state base m) {i : Nat} {s : LoadState σ}
    (h : Rounds.Reached alloc state m base (imageTables m base) i s) :
    Rounds.Tracks alloc state m base (imageTables m base) i s ∧
      Agree (StillRead m base (imageTables m base) i) m s.mem :=
  Rounds.tracks_of_reached covers_stillRead (fun j _ _ T _ hj => A j ⟨hj, T.passed⟩) h

theorem LooksInside.imageBounds (L : LooksInside base size m) (A : RoundsApart alloc state base m) :
    ImageBounds emMachine alloc state base size m := by
  have hsize := L.header
  refine ⟨checksIn_of_size (by omega), fun _ => by omega, fun _ _ => hsize, fun _ _ => L.tables,
    fun _ _ t ht es i s hrun hi => ?_⟩
  obtain ⟨-, rfl⟩ := selectTables_eq_ok_iff.mp ht
  obtain ⟨T, hag⟩ := A.tracks ⟨es, hrun⟩
  rw [covers_stillRead.ePhnum_eq hag] at hi
  exact segmentReads_of covers_stillRead T hag hi (A i ⟨hi, T.passed⟩) (L.rounds i hi)

/-- All the parts of an image that is accepted are read. -/
theorem ImageBounds.looksInside (B : ImageBounds emMachine alloc state base size m)
    (A : RoundsApart alloc state base m)
    (h : ∃ s l, elf64Load emMachine alloc state base size m = .ok (s, .ok l)) :
    LooksInside base size m := by
  obtain ⟨s, l, h⟩ := h
  obtain ⟨⟨-, hhead, hprog⟩, t, ht, ⟨n, es, hrun, hn⟩, -⟩ := elf64Load_eq_ok_iff.mp h
  obtain ⟨-, rfl⟩ := selectTables_eq_ok_iff.mp ht
  obtain ⟨T, hag⟩ := A.tracks ⟨es, hrun⟩
  rw [covers_stillRead.ePhnum_eq hag] at hn
  refine ⟨B.shnum hhead hprog, B.tables hhead hprog, fun i hi => ?_⟩
  have hpassed : ∀ j ≤ i, Rounds.Passes alloc state m base (imageTables m base) j :=
    fun j hj => T.passed j (by omega)
  obtain ⟨s', ⟨fs, hrun'⟩, T', hag'⟩ := Rounds.reached_of_passes covers_stillRead (Nat.le_of_lt hi)
    (fun j hj => hpassed j (Nat.le_of_lt hj)) fun j hj _ _ Tj _ => A j ⟨by omega, Tj.passed⟩
  have hi' := hi
  rw [← covers_stillRead.ePhnum_eq hag'] at hi'
  exact of_segmentReads covers_stillRead T' hag' hi (A i ⟨hi, T'.passed⟩)
    (hpassed i (Nat.le_refl i)) (B.segments hhead hprog _ ht fs i s' hrun' hi')

/-- A file that is rejected is read inside its bounds when what it is rejected for is there. -/
theorem readsInside_iff_of_rejected
    (h : Rejected (elf64Load emMachine alloc state base size m)) :
    ReadsInside base size (Logged.elf64Load emMachine alloc state base size m).log ↔
      RejectedInside emMachine base size m := by
  rw [readsInside_iff, RejectedInside]
  rw [rejected_iff] at h
  by_cases hsize : size = 0
  · exact iff_of_true (Or.inl hsize) (Or.inl hsize)
  have h := h.resolve_left hsize
  refine or_congr_right ?_
  by_cases hhead : HeaderOk m base emMachine
  · have hprog := h.resolve_left (not_not.mpr hhead)
    constructor
    · intro B
      exact Or.inr ⟨B.phnum hhead, hhead, hprog⟩
    · rintro (⟨c, hc, -, hfail⟩ | ⟨h58, -, -⟩)
      · rw [passes_of_headerOk hhead c hc] at hfail
        cases hfail
      · exact ⟨checksIn_of_size (by omega), fun _ => h58, fun _ hp => absurd hp hprog,
          fun _ hp => absurd hp hprog, fun _ hp => absurd hp hprog⟩
  · constructor
    · intro B
      exact Or.inl ((refusedChecks_iff hhead).mp B.checks)
    · rintro (hfail | ⟨-, hh, -⟩)
      · exact ⟨(refusedChecks_iff hhead).mpr hfail, fun hh => absurd hh hhead,
          fun hh => absurd hh hhead, fun hh => absurd hh hhead, fun hh => absurd hh hhead⟩
      · exact absurd hh hhead

theorem RejectedInside.rejected (h : RejectedInside emMachine base size m) :
    Rejected (elf64Load emMachine alloc state base size m) := by
  rw [rejected_iff]
  rcases h with h | ⟨c, hc, -, hfail⟩ | ⟨-, -, hprog⟩
  · exact Or.inl h
  · refine Or.inr (Or.inl fun hhead => ?_)
    rw [passes_of_headerOk hhead c hc] at hfail
    cases hfail
  · exact Or.inr (Or.inr hprog)

end Given

/-! ## 4. Offsets and sizes -/

section Offsets

variable {base size : Nat} {m : Mem}

/-- A part of the image that ends before it does. -/
theorem inside_of_le {o n : Nat} (h : o + n ≤ size) : Inside base size (wrap (base + o)) n :=
  fun _ hx => (range_wrap.mp hx).mono h

theorem nDynamic_le (f : Nat) : sizeofDyn * nDynamic f ≤ f := by
  unfold nDynamic sizeofDyn
  dsimp only
  split <;> omega

section SelfContained

variable (C : SelfContained base size m)

include C

theorem SelfContained.section {k j n : Nat} (hk : k < eShnum m base) (hjn : j + n ≤ 64) :
    Inside base size (sectionHeaders m base + sizeofShdr * k + j) n :=
  fun x hx => inside_of_le C.shdrs x (hx.element hk hjn)

theorem SelfContained.table {s j n : Nat} (hs : s ≠ 0)
    (h : s = (imageTables m base).rela ∨ s = (imageTables m base).symtab) (hjn : j + n ≤ 64) :
    Inside base size (s + j) n := by
  obtain ⟨k, hk, rfl⟩ := imageTables_section hs h
  intro x hx
  rw [← range_wrap, wrap_add_left, range_wrap] at hx
  exact C.section hk hjn x hx

theorem SelfContained.phdr {i j n : Nat} (hi : i < ePhnum m base) (hjn : j + n ≤ 56) :
    Inside base size (phdr m base i + j) n :=
  fun x hx => inside_of_le C.phdrs x (hx.element hi hjn)

theorem SelfContained.phdr_type {i : Nat} (hi : i < ePhnum m base) :
    Inside base size (Inky.phdr m base i) 4 := by
  have htype := C.phdr (j := 0) (n := 4) hi (by decide)
  rwa [Nat.add_zero] at htype

theorem SelfContained.scan {off len v : Nat} (h : off + len ≤ 64) :
    ScanIn (Inside base size) m off len v (eShnum m base) (sectionHeaders m base) :=
  fun _ hi _ => C.section hi h

theorem SelfContained.tables : TablesIn (Inside base size) m base where
  sections _ _ := C.scan (by decide)
  relaSize hne := by
    obtain ⟨k, hk, he⟩ := findSection_eq hne
    intro x hx
    rw [elf64FindSectionHeaderType, he, ← range_wrap, wrap_add_left, range_wrap] at hx
    exact C.section hk (by decide) x hx
  phdrs i hi _ := by
    refine ⟨C.phdr_type hi, fun hdyn => ⟨C.phdr hi (by decide), C.phdr hi (by decide),
      fun j hj _ => ?_⟩⟩
    have hin : ∀ {o n : Nat}, o + n ≤ 16 → Inside base size
        (base + pOffset m (Inky.phdr m base i) + sizeofDyn * j + o) n := by
      intro o n hon x hx
      have hsize := C.segments i hi (Or.inr hdyn)
      have hle := nDynamic_le (pFilesz m (Inky.phdr m base i))
      have hentries : Inside base size (wrap (base + pOffset m (Inky.phdr m base i)))
          (sizeofDyn * nDynamic (pFilesz m (Inky.phdr m base i))) := inside_of_le (by omega)
      exact hentries x (range_wrap.mpr (hx.element hj hon))
    have htag := hin (o := 0) (n := 8) (by decide)
    rw [Nat.add_zero] at htag
    exact ⟨htag, fun _ => hin (by decide), fun _ => C.scan (by decide)⟩

theorem SelfContained.tableReads {x : Nat}
    (h : TableReads m base (imageTables m base) x) : Range base size x := by
  obtain ⟨ht, h⟩ := h
  rcases h with h | h | ⟨e, he, h⟩
  · exact C.table ht.1 (Or.inl rfl) (by decide) x h
  · exact C.table ht.2 (Or.inr rfl) (by decide) x h
  have hcount : relaCount (imageTables m base) ≠ 0 := by omega
  have hrela := C.relocations hcount
  have hsymbols := C.symbols hcount
  rw [relaCount, if_pos ht] at he
  have hentries : sizeofRela * ((imageTables m base).relaSize / sizeofRela) ≤
      (imageTables m base).relaSize := Nat.mul_div_le _ _
  have hentry : ∀ {j k : Nat}, j + k ≤ 24 →
      Inside base size (entry (relaTable m base (imageTables m base)) e + j) k :=
    fun hjk x hx => inside_of_le (by omega) x (hx.element he hjk)
  have hstart := hentry (j := 0) (k := 16) (by decide)
  rw [Nat.add_zero] at hstart
  rcases h with h | ⟨-, hsym, h | h⟩
  · exact hstart x h
  · have hle : sizeofSym * (shSize m (imageTables m base).symtab / sizeofSym) ≤
        shSize m (imageTables m base).symtab := Nat.mul_div_le _ _
    exact inside_of_le (o := shOffset m (imageTables m base).symtab) (by omega) x
      (h.element hsym (by decide))
  · exact hentry (by decide) x h

/-- **An image that contains all its tables and segments** is one that is looked at inside. -/
theorem SelfContained.looksInside : LooksInside base size m where
  header := Nat.le_trans (by decide) C.header
  tables := C.tables
  rounds i hi := by
    refine ⟨fun x hx => ?_, fun hload => inside_of_le (C.segments i hi (Or.inl hload))⟩
    rcases hx with hx | ⟨-, hx | hx⟩ | ⟨-, hx | hx | hx⟩
    · exact C.phdr_type hi x hx
    · exact C.phdr hi (by decide) x hx
    · exact C.phdr hi (by decide) x hx
    · exact C.phdr hi (by decide) x hx
    · exact C.phdr hi (by decide) x hx
    · exact C.tableReads hx

end SelfContained

end Offsets

/-- **When an image is read inside its bounds**, and is rejected if that cannot be done.  It is
enough that it is rejected on what is inside, or all its parts are inside and no round writes what
is still to be read; and the one or the other half is needed.  Of an accepted image all parts are
read.  Offsets and sizes that end before the image does put its parts inside. -/
theorem reads_inside_iff {ε σ : Type} (emMachine : Nat) (alloc : Allocator ε σ) (state : σ)
    (base size : Nat) (m : Mem) :
    (RejectedInside emMachine base size m ∨
        LooksInside base size m ∧ RoundsApart alloc state base m →
      ReadsInside base size (Logged.elf64Load emMachine alloc state base size m).log ∧
        (¬ LooksInside base size m → Rejected (elf64Load emMachine alloc state base size m))) ∧
    (ReadsInside base size (Logged.elf64Load emMachine alloc state base size m).log ∧
        (¬ LooksInside base size m → Rejected (elf64Load emMachine alloc state base size m)) →
      RejectedInside emMachine base size m ∨ LooksInside base size m) ∧
    (RoundsApart alloc state base m →
      (∃ s l, elf64Load emMachine alloc state base size m = .ok (s, .ok l)) →
      (ReadsInside base size (Logged.elf64Load emMachine alloc state base size m).log ↔
        LooksInside base size m)) ∧
    (SelfContained base size m → LooksInside base size m) := by
  refine ⟨?_, ?_, fun A haccepted => ⟨fun h => ?_, fun L => ?_⟩, SelfContained.looksInside⟩
  · rintro (hrej | ⟨L, A⟩)
    · exact ⟨(readsInside_iff_of_rejected hrej.rejected).mpr hrej, fun _ => hrej.rejected⟩
    · exact ⟨readsInside_iff.mpr (Or.inr (L.imageBounds A)), fun hL => absurd L hL⟩
  · rintro ⟨hreads, hrejected⟩
    by_cases L : LooksInside base size m
    · exact Or.inr L
    · exact Or.inl ((readsInside_iff_of_rejected (hrejected L)).mp hreads)
  · rcases readsInside_iff.mp h with h0 | B
    · obtain ⟨s, l, hl⟩ := haccepted
      exact absurd h0 (elf64Load_eq_ok_iff.mp hl).1.1
    · exact B.looksInside A haccepted
  · exact readsInside_iff.mpr (Or.inr (L.imageBounds A))

/-! ## 5. A kernel of one page -/

section OnePage

/-- A ramdisk with a kernel of one page. -/
abbrev onePage : Mem := ramdiskMem (zeroPages [0x1000000])

theorem holdsAt_onePage : HoldsAt onePage 0x10000000 0x1000 (zeroPages [0x1000000]) :=
  holdsAt_ramdisk _ (by decide)

theorem imageTables_onePage : imageTables onePage 0x10000000 = noTables := by
  have h := holdsAt_onePage
  have F := pages_one.toPlain
  refine (selectTables_eq_ok_iff.mp (selectTables_plain ?_ fun i hi => ?_)).2
  · exact (h.eShnum_eq (by decide) (by decide)).trans F.shnum
  · rw [F.phnum_eq h] at hi
    rw [F.pType_eq h (by decide) hi]
    decide

theorem selfContained_onePage : SelfContained 0x10000000 0x1000 onePage := by
  have h := holdsAt_onePage
  have F := pages_one
  have hphnum := F.phnum_eq h
  have hcount : relaCount (imageTables onePage 0x10000000) = 0 := by
    rw [imageTables_onePage]
    rfl
  refine ⟨by decide, ?_, ?_, fun i hi _ => ?_, fun hne => absurd hcount hne,
    fun hne => absurd hcount hne⟩
  · rw [hphnum, h.ePhoff_eq (by decide) (by decide), F.phoff]
    decide
  · rw [h.eShnum_eq (by decide) (by decide), F.shnum, h.eShoff_eq (by decide) (by decide)]
    decide
  · rw [hphnum] at hi
    have hoff := F.toPlain.field h (by decide) hi (j := 8) (k := 8) (by decide)
    have hfilesz := F.toPlain.field h (by decide) hi (j := 32) (k := 8) (by decide)
    rw [pOffset, pFilesz, hoff, hfilesz, ← pOffset, ← pFilesz, F.offset i hi, F.filesz i hi]
    decide

/-- The page goes to `kernelStart`, apart from the ramdisk. -/
theorem roundsApart_onePage : RoundsApart linearAlloc kernelStart 0x10000000 onePage := by
  have h := holdsAt_onePage
  have F := pages_one
  rw [RoundsApart, imageTables_onePage]
  rintro i ⟨hi, -⟩ d hreply -
  rw [F.phnum_eq h] at hi
  obtain rfl : i = 0 := by simpa using hi
  obtain rfl := hreply.destAt_eq
  have hstart : Rounds.destAt linearAlloc kernelStart onePage 0x10000000 0 = 0x1000000 := rfl
  have hfilesz : pFilesz onePage (phdr onePage 0x10000000 0) = 0 :=
    (F.toPlain.field h (by decide) hi (by decide)).trans (F.filesz 0 hi)
  have hmemsz : pMemsz onePage (phdr onePage 0x10000000 0) = 0x1000 :=
    (F.toPlain.field h (by decide) hi (by decide)).trans (F.memsz 0 hi)
  refine apart_of_disjoint (by omega) (fun x hx hS => ?_) fun x hx => absurd hx not_stored_plain
  have hpage := F.toPlain.reads h (by decide)
    (covers_stillRead.of_later (by rw [F.phnum_eq h]; exact hi) hreply.1 hS)
  rw [hstart, hmemsz, range_iff (by decide)] at hx
  rw [range_iff (by decide)] at hpage
  omega

/-- Such a kernel is read inside its bounds. -/
theorem reads_inside_one_page : ReadsInside 0x10000000 0x1000
    (Logged.elf64Load emK1om linearAlloc kernelStart 0x10000000 0x1000 onePage).log :=
  have H := reads_inside_iff emK1om linearAlloc kernelStart 0x10000000 0x1000 onePage
  (H.1 (Or.inr ⟨H.2.2.2 selfContained_onePage, roundsApart_onePage⟩)).1

end OnePage

/-! ## 6. A file without its section headers -/

/-- The header of a file of 64 bytes; its one section header would be at 1 MiB. -/
def shortFile : Mem := asMem (ehdrBytes 0 0x100000 0 1)

theorem holdsAt_short : HoldsAt (ramdiskMem shortFile) 0x10000000 64 shortFile :=
  holdsAt_ramdisk shortFile (by decide)

theorem shoff_short :
    wrap (0x10000000 + eShoff (ramdiskMem shortFile) 0x10000000) = 0x10100000 := by
  rw [holdsAt_short.eShoff_eq (by decide) (by decide)]
  decide

/-- The section header of this file is read, 1 MiB behind the end, and the file is loaded. -/
theorem section_header_read_outside :
    ¬ ReadsInside 0x10000000 64 (Logged.elf64Load emK1om linearAlloc kernelStart 0x10000000 64
        (ramdiskMem shortFile)).log ∧
      ∃ s l, elf64Load emK1om linearAlloc kernelStart 0x10000000 64 (ramdiskMem shortFile) =
        .ok (s, .ok l) := by
  have hhead : HeaderOk (ramdiskMem shortFile) 0x10000000 emK1om :=
    holdsAt_short.headerOk (by decide) (by decide) (by decide)
  have hprog : ProghdrOk (ramdiskMem shortFile) 0x10000000 64 :=
    holdsAt_short.proghdrOk (by decide) (by decide) (by decide)
  have hphnum : ePhnum (ramdiskMem shortFile) 0x10000000 = 0 :=
    holdsAt_short.ePhnum_eq (by decide) (by decide)
  have hshnum : eShnum (ramdiskMem shortFile) 0x10000000 = 1 :=
    holdsAt_short.eShnum_eq (by decide) (by decide)
  constructor
  · intro h
    have B := ((every_inside_iff emK1om linearAlloc kernelStart _).mp
      (every_onlyReads_iff.mpr h)).resolve_left (by decide)
    have hscan := (B.tables hhead hprog).sections shtRela List.mem_cons_self
    rw [hshnum, shoff_short] at hscan
    have hin : Range 0x10000000 64 0x10100004 :=
      hscan 0 (by decide) (fun j hj => absurd hj (Nat.not_lt_zero j)) 0x10100004
        ((range_iff (by decide)).mpr (by decide))
    rw [range_iff (by decide)] at hin
    exact absurd hin.2 (by decide)
  · have htables : selectTables (ramdiskMem shortFile) 0x10000000 = .ok noTables := by
      have htype : shType (ramdiskMem shortFile) 0x10100000 = 0 := by decide
      rw [selectTables, shoff_short, hshnum, hphnum]
      simp [elf64FindSectionHeaderType, findSection, htype, shtRela, shtSymtab, findDynamic,
        noTables]
    refine ⟨⟨ramdiskMem shortFile, kernelStart, 0, 0, 0⟩,
      ⟨eEntry (ramdiskMem shortFile) 0x10000000, 0, 0, 0⟩, ?_⟩
    unfold elf64Load
    rw [if_neg (by decide), if_neg (not_not.mpr hhead), if_neg (not_not.mpr hprog), htables,
      ok_bind, loadSegments, hphnum, if_neg (by decide), ok_bind]
    rfl

end Philix.Inky
