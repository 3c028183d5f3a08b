/-
# The accesses of a round, from the given image

`Bounds` has the reads and writes of a round in terms of the memory it starts from.  As long as
no round writes what is still to be read, they are those that the given image says: the bytes of
`RoundReads` and of the file are read (`segmentReads_of`, `of_segmentReads`), and the copy, the
fill and the stores of the relocations are written (`placeWrites_of`, `of_placeWrites`).
-/
import Philix.Inky.Bounds
import Philix.Inky.Rounds

namespace Philix.Inky

open ByteMem Loop

/-- The `n` bytes from `a` on are in `R`. -/
def Within (R : Nat → Prop) (a n : Nat) : Prop := ∀ x, Range a n x → R x

/-- The bytes that the round of `p` reads are in `R`, and those of its segment in the file. -/
def RoundWithin (R : Nat → Prop) (m₀ : Mem) (base : Nat) (t : Tables) (p : Nat) : Prop :=
  (∀ x, RoundReads m₀ base t p x → R x) ∧
    (pType m₀ p = ptLoad → Within R (fileStart m₀ base p) (pFilesz m₀ p))

/-- The relocation stores a word. -/
def Storing (m₀ : Mem) (base : Nat) (t : Tables) (e : Nat) : Prop :=
  Stores m₀ (shSize m₀ t.symtab) (entry (relaTable m₀ base t) e)

/-- The bytes that are written to place the segment of `p` at `dest` are in `R`. -/
def PlacedWithin (R : Nat → Prop) (m₀ : Mem) (base : Nat) (t : Tables) (p dest : Nat) : Prop :=
  Within R dest (pFilesz m₀ p) ∧ Within R (wrap (dest + pFilesz m₀ p)) (zeroSize m₀ p) ∧
    ∀ e < relaCount t, (∀ j < e, EntryOk m₀ (relaTable m₀ base t) (shSize m₀ t.symtab) j) →
      Storing m₀ base t e → Within R (storeAddr m₀ base t p dest e) 8

variable {R S : Nat → Prop} {m₀ m : Mem} {base p d e : Nat} {t : Tables}

/-! ## 1. Relocations -/

section Entry

variable {rela symtab symsize e : Nat} (C : ∀ x, EntryReads m₀ rela symtab symsize e x → S x)
  (hag : Agree S m₀ m)

include C hag

/-- What is read for an untouched entry. -/
theorem entryIn_frozen : EntryIn (Within R) m symtab symsize (entry rela e) ↔
    ∀ x, EntryReads m₀ rela symtab symsize e x → R x := by
  obtain ⟨-, htype, hsym⟩ := entry_frozen C hag
  constructor
  · rintro h x (hx | ⟨h64, hs, hx | hx⟩)
    · have hparts : Range (entry rela e) (8 + 8) x := hx
      rcases range_append.mp hparts with hx | hx
      · exact h.offset x hx
      · exact h.info x hx
    · rw [← hsym] at hs hx
      exact (h.symbol (htype.trans h64) hs).1 x hx
    · rw [← hsym] at hs
      exact (h.symbol (htype.trans h64) hs).2 x hx
  · intro h
    refine ⟨fun x hx => h x (Or.inl (hx.mono (by decide))),
      fun x hx => h x (Or.inl (hx.of_le (by decide))), fun h64 hs => ?_⟩
    rw [htype] at h64
    rw [hsym] at hs ⊢
    exact ⟨fun x hx => h x (Or.inr ⟨h64, hs, Or.inl hx⟩),
      fun x hx => h x (Or.inr ⟨h64, hs, Or.inr hx⟩)⟩

/-- Whether an untouched entry stores a word. -/
theorem stores_frozen : Stores m symsize (entry rela e) ↔ Stores m₀ symsize (entry rela e) := by
  obtain ⟨-, htype, hsym⟩ := entry_frozen C hag
  rw [Stores, Stores, htype, hsym]

end Entry

section SegmentEntries

variable (hrest : ∀ x, RestReads m₀ base t p x → S x) (hag : Agree S m₀ m)

include hrest hag

/-- Rounds of the pass over the relocations of a segment. -/
theorem segmentEntries_iff {n : Nat} {m' : Mem} (ht : t.rela ≠ 0 ∧ t.symtab ≠ 0)
    (hst : StoresAvoid S m₀ 0 (relaTable m₀ base t) (shSize m₀ t.symtab) (pVaddr m₀ p) d n)
    (hn : n ≤ relaCount t) :
    forLoop (relocateEntry (sub64 (pVaddr m p) (pVaddr m p)) (sub64 (pVaddr m p) (pVaddr m p))
      (wrap (base + shOffset m t.rela)) (wrap (base + shOffset m t.symtab)) (shSize m t.symtab)
      (pVaddr m p) d) n 0 m = .ok m' ↔
      (∀ j < n, EntryOk m₀ (relaTable m₀ base t) (shSize m₀ t.symtab) j) ∧
        applyEntries m₀ 0 0 (relaTable m₀ base t) (symTable m₀ base t) (pVaddr m₀ p) d n m =
          m' := by
  have hself : sub64 (pVaddr m₀ p) (pVaddr m₀ p) = 0 := sub64_self (Nat.le_of_lt (readLE_lt 8 _))
  have htable : ∀ x, TableReads m₀ base t x → S x := fun x hx => hrest x (Or.inr (Or.inr hx))
  obtain ⟨hrela, hsymtab, hsymsize⟩ := table_fields (hag.mono htable) ht
  have hvaddr : pVaddr m p = pVaddr m₀ p :=
    hag.readLE fun x hx => hrest x (Or.inr (Or.inl ⟨ht, hx⟩))
  rw [hvaddr, hrela, hsymtab, hsymsize, hself, ← relaTable, ← symTable]
  refine relocateEntries_iff (fun j hj => ?_) hag hst (Nat.le_refl n)
  exact coversEntries_of_table htable ht j (Nat.lt_of_lt_of_le hj hn)

variable {Q : Nat → Mem → Prop} (ht : t.rela ≠ 0 ∧ t.symtab ≠ 0)

include ht

theorem eachSegmentEntry_of
    (hst : StoresAvoid S m₀ 0 (relaTable m₀ base t) (shSize m₀ t.symtab) (pVaddr m₀ p) d
      (relaCount t))
    (h : ∀ e < relaCount t,
      (∀ j < e, EntryOk m₀ (relaTable m₀ base t) (shSize m₀ t.symtab) j) →
        Q (entry (relaTable m₀ base t) e) (applyEntries m₀ 0 0 (relaTable m₀ base t)
          (symTable m₀ base t) (pVaddr m₀ p) d e m)) : EachSegmentEntry m base t p d Q := by
  have hcount : relaCount t = t.relaSize / sizeofRela := if_pos ht
  have htable : ∀ x, TableReads m₀ base t x → S x := fun x hx => hrest x (Or.inr (Or.inr hx))
  obtain ⟨hrela, -, -⟩ := table_fields (hag.mono htable) ht
  intro e he m' hm'
  rw [← hcount] at he
  obtain ⟨hok, rfl⟩ := (segmentEntries_iff hrest hag ht
    (fun j hj => hst j (Nat.lt_trans hj he)) (Nat.le_of_lt he)).mp hm'
  rw [hrela]
  exact h e he hok

/-- A relocation that the pass gets to. -/
theorem of_eachSegmentEntry (he : e < relaCount t)
    (hst : StoresAvoid S m₀ 0 (relaTable m₀ base t) (shSize m₀ t.symtab) (pVaddr m₀ p) d e)
    (hok : ∀ j < e, EntryOk m₀ (relaTable m₀ base t) (shSize m₀ t.symtab) j)
    (h : EachSegmentEntry m base t p d Q) :
    Q (entry (relaTable m₀ base t) e) (applyEntries m₀ 0 0 (relaTable m₀ base t)
      (symTable m₀ base t) (pVaddr m₀ p) d e m) := by
  have hcount : relaCount t = t.relaSize / sizeofRela := if_pos ht
  have htable : ∀ x, TableReads m₀ base t x → S x := fun x hx => hrest x (Or.inr (Or.inr hx))
  obtain ⟨hrela, -, -⟩ := table_fields (hag.mono htable) ht
  have hentry := h e (hcount ▸ he) _
    ((segmentEntries_iff hrest hag ht hst (Nat.le_of_lt he)).mpr ⟨hok, rfl⟩)
  rwa [hrela] at hentry

end SegmentEntries

/-! ## 2. Placing a segment -/

/-- A relocation of type `R_X86_64_64` that does not stop the loader stores. -/
theorem storing_of_r64 (hok : EntryOk m₀ (relaTable m₀ base t) (shSize m₀ t.symtab) e)
    (h64 : rType m₀ (entry (relaTable m₀ base t) e) = rX866464) : Storing m₀ base t e :=
  hok.resolve_left fun hnone => absurd (hnone.symm.trans h64) (by decide)

/-- Whatever is placed within a set that is apart from `S` is apart from `S`. -/
theorem PlacedWithin.apart (hRS : ∀ x, R x → ¬ S x)
    (h : NoOverlap d (fileStart m₀ base p) (pFilesz m₀ p) → PlacedWithin R m₀ base t p d) :
    Apart m₀ base t S p d := by
  rintro x ⟨hno, hx | hx | ⟨e, he, hok, h64, hx⟩⟩
  · exact hRS x ((h hno).1 x hx)
  · exact hRS x ((h hno).2.1 x hx)
  · have hbefore : ∀ j < e, EntryOk m₀ (relaTable m₀ base t) (shSize m₀ t.symtab) j :=
      fun j hj => hok j (Nat.le_of_lt hj)
    exact hRS x ((h hno).2.2 e he hbefore (storing_of_r64 (hok e (Nat.le_refl e)) h64) x hx)

section Store

variable {m' : Mem} (hrest : ∀ x, RestReads m₀ base t p x → S x) (hag : Agree S m₀ m)

include hrest hag

/-- The table of symbols, when the rest of the round is untouched. -/
theorem symbols_frozen (ht : t.rela ≠ 0 ∧ t.symtab ≠ 0) :
    wrap (base + shOffset m t.symtab) = symTable m₀ base t ∧
      shSize m t.symtab = shSize m₀ t.symtab := by
  obtain ⟨-, hsymtab, hsymsize⟩ :=
    table_fields (hag.mono fun x hx => hrest x (Or.inr (Or.inr hx))) ht
  rw [hsymtab]
  exact ⟨rfl, hsymsize⟩

/-- Whether a relocation stores, and where. -/
theorem store_frozen (ht : t.rela ≠ 0 ∧ t.symtab ≠ 0) (he : e < relaCount t)
    (hag' : Agree S m₀ m') :
    (Stores m' (shSize m t.symtab) (entry (relaTable m₀ base t) e) ↔ Storing m₀ base t e) ∧
      sub64 (d + rOffset m' (entry (relaTable m₀ base t) e)) (pVaddr m p) =
        storeAddr m₀ base t p d e := by
  have hentry := coversEntries_of_table (fun x hx => hrest x (Or.inr (Or.inr hx))) ht e he
  have hvaddr : pVaddr m p = pVaddr m₀ p :=
    hag.readLE fun x hx => hrest x (Or.inr (Or.inl ⟨ht, hx⟩))
  rw [(symbols_frozen hrest hag ht).2, hvaddr, (entry_frozen hentry hag').1]
  exact ⟨stores_frozen hentry hag', rfl⟩

end Store

section Place

variable (hload : pType m₀ p = ptLoad) (hround : Agree (RoundReads m₀ base t p) m₀ m)

include hload hround

/-- The assertion of the copy. -/
theorem noOverlap_frozen : NoOverlap d (wrap (base + pOffset m p)) (pFilesz m p) ↔
    NoOverlap d (fileStart m₀ base p) (pFilesz m₀ p) := by
  rw [fileStart_frozen hload hround, pFilesz_frozen hload hround]

variable (hrest : ∀ x, RestReads m₀ base t p x → S x) (hag : Agree S m₀ m)

include hrest hag

section Apart

variable (A : Apart m₀ base t S p d)

include A

theorem filled_agree (hno : NoOverlap d (fileStart m₀ base p) (pFilesz m₀ p)) :
    filled m base p d = fillSegment m₀ base p d m ∧ Agree S m₀ (fillSegment m₀ base p d m) := by
  obtain ⟨hcopy, hfill⟩ := A.copyFill hno
  exact ⟨filled_frozen hload hround hrest hag hcopy, fillSegment_agree hcopy hfill hag⟩

/-- **What is read to place a segment**, when that is in `R`. -/
theorem placeReads_of (h : RoundWithin R m₀ base t p) : PlaceReads (Within R) m base t p d := by
  obtain ⟨hreads, hfile⟩ := h
  have hmiddle : ∀ {j k}, 4 ≤ j → j + k ≤ 24 → Within R (p + j) k := fun {j k} hj hk x hx => by
    rw [← Nat.add_sub_cancel' hj, ← Nat.add_assoc] at hx
    exact hreads x (Or.inr (Or.inr ⟨hload, Or.inl (hx.mono (by omega))⟩))
  have hsizes : ∀ x, Range (p + 32) 16 x → R x := fun x hx =>
    hreads x (Or.inr (Or.inr ⟨hload, Or.inr (Or.inl hx)⟩))
  have htable : ∀ x, TableReads m₀ base t x → R x := fun x hx =>
    hreads x (Or.inr (Or.inr ⟨hload, Or.inr (Or.inr hx)⟩))
  refine ⟨hmiddle (by decide) (by decide), fun x hx => hsizes x (hx.of_le (by decide)),
    fun _ => ⟨?_, fun x hx => hsizes x (hx.mono (k := 8) (by decide))⟩, fun _ ht => ?_,
    fun hno ht => ?_⟩
  · rw [fileStart_frozen hload hround, pFilesz_frozen hload hround]
    exact hfile hload
  · exact ⟨hmiddle (by decide) (by decide), fun x hx => htable x ⟨ht, Or.inl hx⟩,
      fun x hx => htable x ⟨ht, Or.inr (Or.inl (hx.of_le (by decide)))⟩,
      fun x hx => htable x ⟨ht, Or.inr (Or.inl (hx.mono (k := 8) (by decide)))⟩⟩
  · rw [noOverlap_frozen hload hround] at hno
    obtain ⟨hfilled, hagf⟩ := filled_agree hload hround hrest hag A hno
    obtain ⟨hsymtab, hsymsize⟩ := symbols_frozen hrest hagf ht
    rw [hfilled, hsymtab, hsymsize]
    refine eachSegmentEntry_of hrest hagf ht (A.storesAvoid hno) fun e he hok => ?_
    have hentry := coversEntries_of_table (fun x hx => hrest x (Or.inr (Or.inr hx))) ht e he
    exact (entryIn_frozen hentry (applyEntries_agree
      (fun j hj => A.storesAvoid hno j (Nat.lt_trans hj he)) hok hagf)).mpr
      (coversEntries_of_table htable ht e he)

/-- All of it is read when nothing stops the loader. -/
theorem of_placeReads (hok : PlaceOk m₀ base t p d) (h : PlaceReads (Within R) m base t p d) :
    Within R (fileStart m₀ base p) (pFilesz m₀ p) ∧ Within R (p + 8) 8 ∧ Within R (p + 32) 16 ∧
      ∀ x, TableReads m₀ base t x → R x := by
  have hno := (noOverlap_frozen hload hround).mpr hok.1
  obtain ⟨hfile, hmemsz⟩ := h.file hno
  rw [fileStart_frozen hload hround, pFilesz_frozen hload hround] at hfile
  refine ⟨hfile, h.offset, fun x hx => ?_, fun x hx => ?_⟩
  · have hparts : Range (p + 32) (8 + 8) x := hx
    exact (range_append.mp hparts).elim (h.filesz x) (hmemsz x)
  · obtain ⟨ht, hx⟩ := hx
    obtain ⟨-, hrela, hoff, hsize⟩ := h.tables hno ht
    rcases hx with hx | hx | ⟨e, he, hx⟩
    · exact hrela x hx
    · have hparts : Range (t.symtab + 24) (8 + 8) x := hx
      exact (range_append.mp hparts).elim (hoff x) (hsize x)
    · have hbefore : ∀ j < e, EntryOk m₀ (relaTable m₀ base t) (shSize m₀ t.symtab) j :=
        fun j hj => hok.2 j (Nat.lt_trans hj he)
      have hst : StoresAvoid S m₀ 0 (relaTable m₀ base t) (shSize m₀ t.symtab) (pVaddr m₀ p) d e :=
        fun j hj => A.storesAvoid hok.1 j (Nat.lt_trans hj he)
      obtain ⟨hfilled, hagf⟩ := filled_agree hload hround hrest hag A hok.1
      obtain ⟨hsymtab, hsymsize⟩ := symbols_frozen hrest hagf ht
      have hall := h.entries hno ht
      rw [hfilled, hsymtab, hsymsize] at hall
      have hentry := coversEntries_of_table (fun x hx => hrest x (Or.inr (Or.inr hx))) ht e he
      exact (entryIn_frozen hentry (applyEntries_agree hst hbefore hagf)).mp
        (of_eachSegmentEntry hrest hagf ht he hst hbefore hall) x hx

/-- **What is written to place a segment**, when that is in `R`. -/
theorem placeWrites_of
    (h : NoOverlap d (fileStart m₀ base p) (pFilesz m₀ p) → PlacedWithin R m₀ base t p d) :
    PlaceWrites (Within R) m base t p d := by
  refine ⟨fun hno => ?_, fun hno => ?_, fun hno ht => ?_⟩
  all_goals rw [noOverlap_frozen hload hround] at hno
  · rw [pFilesz_frozen hload hround]
    exact (h hno).1
  · obtain ⟨hfilesz, hmemsz⟩ := copied_sizes hload hround hrest hag (A.copyFill hno).1
    rw [hfilesz, hmemsz]
    exact (h hno).2.1
  · obtain ⟨hfilled, hagf⟩ := filled_agree hload hround hrest hag A hno
    rw [hfilled]
    refine eachSegmentEntry_of hrest hagf ht (A.storesAvoid hno) fun e he hok hstores => ?_
    have hst : StoresAvoid S m₀ 0 (relaTable m₀ base t) (shSize m₀ t.symtab) (pVaddr m₀ p) d e :=
      fun j hj => A.storesAvoid hno j (Nat.lt_trans hj he)
    obtain ⟨hstoring, haddr⟩ := store_frozen hrest hagf ht he (applyEntries_agree hst hok hagf)
    rw [haddr]
    exact (h hno).2.2 e he hok (hstoring.mp hstores)

end Apart

/-- All of it is written up to where the loader stops, and none of that is still to be read. -/
theorem of_placeWrites (hRS : ∀ x, R x → ¬ S x) (h : PlaceWrites (Within R) m base t p d)
    (hno : NoOverlap d (fileStart m₀ base p) (pFilesz m₀ p)) : PlacedWithin R m₀ base t p d := by
  have hno' := (noOverlap_frozen hload hround).mpr hno
  have hcopy : Within R d (pFilesz m₀ p) := by
    rw [← pFilesz_frozen hload hround]
    exact h.copy hno'
  have hcopyS : ∀ x, Range d (pFilesz m₀ p) x → ¬ S x := fun x hx => hRS x (hcopy x hx)
  have hfill : Within R (wrap (d + pFilesz m₀ p)) (zeroSize m₀ p) := by
    obtain ⟨hfilesz, hmemsz⟩ := copied_sizes hload hround hrest hag hcopyS
    rw [zeroSize, ← hfilesz, ← hmemsz]
    exact h.fill hno'
  refine ⟨hcopy, hfill, fun e => ?_⟩
  have hagf : Agree S m₀ (fillSegment m₀ base p d m) :=
    fillSegment_agree hcopyS (fun x hx => hRS x (hfill x hx)) hag
  have hstores := h.stores hno'
  rw [filled_frozen hload hround hrest hag hcopyS] at hstores
  -- the entries before `e` have stored in `R`, so that `e` is applied as it was
  induction e using Nat.strongRecOn with
  | ind e ih =>
    intro he hok hstoring
    have ht : t.rela ≠ 0 ∧ t.symtab ≠ 0 := by
      by_contra hnot
      rw [relaCount, if_neg hnot] at he
      exact absurd he (Nat.not_lt_zero e)
    have hst : StoresAvoid S m₀ 0 (relaTable m₀ base t) (shSize m₀ t.symtab) (pVaddr m₀ p) d e := by
      rintro j hj hokj (h64 | ⟨-, h0⟩) x hx
      · have hbefore : ∀ k < j, EntryOk m₀ (relaTable m₀ base t) (shSize m₀ t.symtab) k :=
          fun k hk => hokj k (Nat.le_of_lt hk)
        have hstore := storing_of_r64 (hokj j (Nat.le_refl j)) h64
        exact hRS x (ih j hj (Nat.lt_trans hj he) hbefore hstore x hx)
      · exact absurd rfl h0
    obtain ⟨hiff, haddr⟩ := store_frozen hrest hagf ht he (applyEntries_agree hst hok hagf)
    rw [← haddr]
    exact of_eachSegmentEntry hrest hagf ht he hst hok (hstores ht) (hiff.mpr hstoring)

end Place

/-! ## 3. A round -/

section Round

variable {ε σ : Type} {alloc : Allocator ε σ} {state : σ} {S : Nat → Nat → Prop} {i : Nat}
  {s : LoadState σ} (C : Covers m₀ base t S) (T : Rounds.Tracks alloc state m₀ base t i s)
  (hag : Agree (S i) m₀ s.mem) (hi : i < ePhnum m₀ base)
  (A : Rounds.NextApart alloc state m₀ base t S i)

include C T hag hi A

/-- **What is read in a round**, when that is in `R`. -/
theorem segmentReads_of (h : RoundWithin R m₀ base t (phdr m₀ base i)) :
    SegmentReads (Within R) alloc base t (phdr m₀ base i) s := by
  have hround := C.round hag hi
  refine ⟨fun x hx => h.1 x (Or.inl hx), fun hload => ?_, fun d hd hne => ?_, fun htls => ?_⟩
  · rw [pType_frozen hround] at hload
    refine ⟨fun x hx => ?_, fun x hx => ?_, fun x hx => ?_⟩
    · exact h.1 x (Or.inr (Or.inr ⟨hload, Or.inl (hx.mono (k := 12) (by decide))⟩))
    · exact h.1 x (Or.inr (Or.inr ⟨hload, Or.inr (Or.inl (hx.mono (k := 8) (by decide)))⟩))
    · exact h.1 x (Or.inr (Or.inr ⟨hload, Or.inl (hx.of_le (by decide))⟩))
  · have hreply := (Rounds.gets_iff C T hag hi).mp hd
    exact placeReads_of hreply.1 hround (fun x hx => Or.inl hx)
      (hag.mono fun x hx => C.of_later hi hreply.1 hx) (A d hreply hne) h
  · rw [pType_frozen hround] at htls
    refine ⟨fun x hx => h.1 x (Or.inr (Or.inl ⟨htls, Or.inl hx⟩)), fun _ _ => ⟨?_, ?_⟩⟩
    · exact fun x hx => h.1 x (Or.inr (Or.inl ⟨htls, Or.inr (hx.of_le (by decide))⟩))
    · exact fun x hx => h.1 x (Or.inr (Or.inl ⟨htls, Or.inr (hx.mono (k := 8) (by decide))⟩))

/-- All of it is read when the loop gets past the header. -/
theorem of_segmentReads (hp : Rounds.Passes alloc state m₀ base t i)
    (h : SegmentReads (Within R) alloc base t (phdr m₀ base i) s) :
    RoundWithin R m₀ base t (phdr m₀ base i) := by
  have hround := C.round hag hi
  have htype : pType s.mem (phdr m₀ base i) = pType m₀ (phdr m₀ base i) := pType_frozen hround
  have hplace : pType m₀ (phdr m₀ base i) = ptLoad → _ := fun hload => by
    obtain ⟨hne, hok⟩ := hp.1 hload
    have hreply := Rounds.replies_destAt hload hne
    exact of_placeReads hload hround (fun x hx => Or.inl hx)
      (hag.mono fun x hx => C.of_later hi hload hx) (A _ hreply hne) hok
      (h.place _ ((Rounds.gets_iff C T hag hi).mpr hreply) hne)
  refine ⟨fun x hx => ?_, fun hload => (hplace hload).1⟩
  rcases hx with hx | ⟨htls, hx⟩ | ⟨hload, hx⟩
  · exact h.type x hx
  · obtain ⟨hne, h0⟩ := hp.2 htls
    rw [← T.tls] at h0
    have hvaddr : pVaddr s.mem (phdr m₀ base i) = pVaddr m₀ (phdr m₀ base i) :=
      tls_field hround htls (by decide)
    obtain ⟨hvaddr', hsizes⟩ := h.tls (htype.trans htls)
    obtain ⟨hfilesz, hmemsz⟩ := hsizes (hvaddr.trans_ne hne) h0
    rcases hx with hx | hx
    · exact hvaddr' x hx
    · have hparts : Range (phdr m₀ base i + 32) (8 + 8) x := hx
      exact (range_append.mp hparts).elim (hfilesz x) (hmemsz x)
  · obtain ⟨-, hoff, hsizes, htables⟩ := hplace hload
    obtain ⟨hvaddr, -, hflags⟩ := h.load (htype.trans hload)
    rcases hx with hx | hx | hx
    · have hparts : Range (phdr m₀ base i + 4) (4 + (8 + 8)) x := hx
      rcases range_append.mp hparts with hx | hx
      · exact hflags x hx
      · exact (range_append.mp hx).elim (hoff x) (hvaddr x)
    · exact hsizes x hx
    · exact htables x hx

end Round

end Philix.Inky
