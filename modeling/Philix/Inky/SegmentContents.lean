/-
# What is in memory when an image without relocations is loaded

Every allocator is allowed that returns disjoint regions, apart from the image.  As long as no
region meets what is still to be read of the headers (`e_phnum` is read again in every round),
they end up with the contents of the segments, whatever the order of the headers, and nothing
else changes.  Headers in the image are safe, but `elf64_load` also takes images whose headers
are not in the image.
-/
import Philix.Inky.Placement
import Philix.Inky.RegionWrites

namespace Philix.Inky

open ByteMem Loop Lts

section Definitions

variable {ε σ : Type} (alloc : Allocator ε σ) (state : σ) (m₀ : Mem) (base : Nat) (t : Tables)

/-- The allocator returns `n` bytes at `d` for header `i`. -/
def Region (i d n : Nat) : Prop :=
  ∃ es s, Run (HeaderStep alloc base t (wrap (base + ePhoff m₀ base))) (0, ⟨m₀, state, 0, 0, 0⟩)
    es (i, s) ∧ i < ePhnum s.mem base ∧ Gets alloc (phdr m₀ base i) s d ∧
      n = pMemsz s.mem (phdr m₀ base i)

/-- An image that is accepted, without relocations, with well formed segments, and an allocator
that returns disjoint regions apart from the image. -/
structure LoadedApart (emMachine size : Nat) (s : LoadState σ) (l : Loaded) : Prop where
  accepted : elf64Load emMachine alloc state base size m₀ = .ok (s, .ok l)
  selected : selectTables m₀ base = .ok t
  no_tables : t.rela = 0 ∨ t.symtab = 0
  sizes : ∀ {i}, LoadAt m₀ base (ePhnum m₀ base) i →
    pFilesz m₀ (phdr m₀ base i) ≤ pMemsz m₀ (phdr m₀ base i)
  files : ∀ {i}, LoadAt m₀ base (ePhnum m₀ base) i → ∀ x,
    Range (fileStart m₀ base (phdr m₀ base i)) (pFilesz m₀ (phdr m₀ base i)) x → Range base size x
  one_tls : ∀ i < ePhnum m₀ base, ∀ j < ePhnum m₀ base, pType m₀ (phdr m₀ base i) = ptTls →
    pType m₀ (phdr m₀ base j) = ptTls → i = j
  tls_vaddr : ∀ i < ePhnum m₀ base, pType m₀ (phdr m₀ base i) = ptTls →
    pVaddr m₀ (phdr m₀ base i) ≠ 0
  image : ∀ {i d n}, Region alloc state m₀ base t i d n → ∀ x, Range d n x → ¬ Range base size x
  disjoint : ∀ {i j d d' n n'}, Region alloc state m₀ base t i d n →
    Region alloc state m₀ base t j d' n' → i ≠ j → ∀ x, Range d n x → ¬ Range d' n' x

/-- No region meets what is still to be read when its round has begun to write. -/
def HeadersApart : Prop :=
  ∀ i d n, i < ePhnum m₀ base → Region alloc state m₀ base t i d n →
    ∀ x, Range d n x → ¬ Later m₀ base t (StillRead m₀ base t) i x

/-- The segments are in their regions, nothing else has changed, and the results are those of
the headers. -/
structure SegmentsLoaded (s : LoadState σ) (l : Loaded) : Prop where
  contents : ∀ i, LoadAt m₀ base (ePhnum m₀ base) i →
    ∃ d, Region alloc state m₀ base t i d (pMemsz m₀ (phdr m₀ base i)) ∧
      ∀ k < pMemsz m₀ (phdr m₀ base i), s.mem (wrap (d + k)) = segByte m₀ base (phdr m₀ base i) k
  unchanged : ∀ x, (∀ i d n, Region alloc state m₀ base t i d n → ¬ Range d n x) →
    s.mem x = m₀ x
  entry : l.entry = eEntry m₀ base
  tls : ∀ i < ePhnum m₀ base, pType m₀ (phdr m₀ base i) = ptTls →
    l.tlsBase = pVaddr m₀ (phdr m₀ base i) ∧ l.tlsInitLen = pFilesz m₀ (phdr m₀ base i) ∧
      l.tlsTotalLen = pMemsz m₀ (phdr m₀ base i)
  no_tls : (∀ i < ePhnum m₀ base, pType m₀ (phdr m₀ base i) ≠ ptTls) →
    l.tlsBase = 0 ∧ l.tlsInitLen = 0 ∧ l.tlsTotalLen = 0

/-- What is still to be read when the loop gets to header `i`, and the image. -/
def Source (size i x : Nat) : Prop := StillRead m₀ base t i x ∨ Range base size x

end Definitions

variable {ε σ : Type} {alloc : Allocator ε σ} {state : σ} {m₀ : Mem} {base size emMachine : Nat}
  {t : Tables} {s s' : LoadState σ} {l : Loaded} {i d : Nat}

/-! ## 1. The rounds -/

theorem not_stored_of_no_tables {p d x : Nat} (ht : t.rela = 0 ∨ t.symtab = 0) :
    ¬ StoredAt m₀ base t p d x := by
  rintro ⟨e, he, -⟩
  have hcount : relaCount t = 0 := if_neg fun h => ht.elim h.1 h.2
  rw [hcount] at he
  exact absurd he (Nat.not_lt_zero e)

theorem covers_source (size : Nat) : Covers m₀ base t (Source m₀ base t size) where
  still := Or.inl
  anti := Or.imp_left StillRead.anti

/-- The results for thread-local storage are those of the only header for it. -/
theorem tlsAt_of_one (htls : pType m₀ (phdr m₀ base i) = ptTls) : ∀ {n : Nat}, i < n →
    (∀ j < n, pType m₀ (phdr m₀ base j) = ptTls → j = i) →
    Rounds.tlsAt m₀ base n =
      (pVaddr m₀ (phdr m₀ base i), pFilesz m₀ (phdr m₀ base i), pMemsz m₀ (phdr m₀ base i))
  | 0, hi, _ => absurd hi (Nat.not_lt_zero i)
  | n + 1, hi, hone => by
    rw [Rounds.tlsAt]
    split
    case isTrue hn => rw [hone n (Nat.lt_succ_self n) hn]
    case isFalse hn =>
      have hin : i ≠ n := fun e => hn (e ▸ htls)
      exact tlsAt_of_one htls (by omega) fun j hj => hone j (Nat.lt_succ_of_lt hj)

theorem tlsAt_of_none : ∀ {n : Nat}, (∀ j < n, pType m₀ (phdr m₀ base j) ≠ ptTls) →
    Rounds.tlsAt m₀ base n = (0, 0, 0)
  | 0, _ => rfl
  | n + 1, h => by
    rw [Rounds.tlsAt, if_neg (h n (Nat.lt_succ_self n))]
    exact tlsAt_of_none fun j hj => h j (Nat.lt_succ_of_lt hj)

/-- The region of a header, where the loop has what `m₀` says. -/
theorem region_of_tracks {S : Nat → Nat → Prop} (C : Covers m₀ base t S)
    (hreached : Rounds.Reached alloc state m₀ base t i s)
    (T : Rounds.Tracks alloc state m₀ base t i s) (hag : Agree (S i) m₀ s.mem)
    (hi : i < ePhnum m₀ base) (hreply : Rounds.Replies alloc state m₀ base i d) :
    Region alloc state m₀ base t i d (pMemsz m₀ (phdr m₀ base i)) := by
  obtain ⟨es, hrun⟩ := hreached
  have hmemsz : pMemsz s.mem (phdr m₀ base i) = pMemsz m₀ (phdr m₀ base i) :=
    load_field (C.round hag hi) hreply.1 (by decide)
  refine ⟨es, s, hrun, ?_, (Rounds.gets_iff C T hag hi).mpr hreply, hmemsz.symm⟩
  rwa [C.ePhnum_eq hag]

section Run

variable (L : LoadedApart alloc state m₀ base t emMachine size s' l)
  (hapart : HeadersApart alloc state m₀ base t)

include L hapart

/-- The region of a segment is apart from what is read from then on. -/
theorem LoadedApart.region_apart (hi : LoadAt m₀ base (ePhnum m₀ base) i)
    (h : Region alloc state m₀ base t i d (pMemsz m₀ (phdr m₀ base i))) :
    ∀ x, Range d (pMemsz m₀ (phdr m₀ base i)) x →
      ¬ Later m₀ base t (Source m₀ base t size) i x := by
  rintro x hx (hrest | hstill | himage)
  · exact hapart i d _ hi.1 h x hx (Or.inl hrest)
  · exact hapart i d _ hi.1 h x hx (Or.inr hstill)
  · exact L.image h x hx himage

theorem LoadedApart.nextApart (hreached : Rounds.Reached alloc state m₀ base t i s)
    (T : Rounds.Tracks alloc state m₀ base t i s)
    (hag : Agree (Source m₀ base t size i) m₀ s.mem) (hi : i < ePhnum m₀ base) :
    Rounds.NextApart alloc state m₀ base t (Source m₀ base t size) i := fun _ hreply _ =>
  apart_of_disjoint (L.sizes ⟨hi, hreply.1⟩) (L.region_apart hapart ⟨hi, hreply.1⟩
    (region_of_tracks (covers_source size) hreached T hag hi hreply)) fun _ hx =>
      absurd hx (not_stored_of_no_tables L.no_tables)

/-- **The loop** goes past all headers. -/
theorem LoadedApart.tracks : Rounds.Tracks alloc state m₀ base t (ePhnum m₀ base) s' ∧
    l = ⟨eEntry m₀ base, s'.tlsBase, s'.tlsInitLen, s'.tlsTotalLen⟩ := by
  obtain ⟨t', ht', ⟨n, es, hrun, hn⟩, rfl⟩ := (elf64Load_eq_ok_iff.mp L.accepted).2
  obtain rfl := Except.ok.inj (L.selected.symm.trans ht')
  obtain ⟨T, hag⟩ := Rounds.tracks_of_reached (covers_source size)
    (fun _ _ => L.nextApart hapart) ⟨es, hrun⟩
  rw [(covers_source size).ePhnum_eq hag] at hn
  obtain rfl : n = ePhnum m₀ base := Nat.le_antisymm T.le (Nat.le_of_not_lt hn)
  rw [(covers_source size).eEntry_eq hag]
  exact ⟨T, rfl⟩

/-- Every segment gets its region. -/
theorem LoadedApart.region (hi : LoadAt m₀ base (ePhnum m₀ base) i) :
    Region alloc state m₀ base t i (Rounds.destAt alloc state m₀ base i)
      (pMemsz m₀ (phdr m₀ base i)) := by
  have hpassed := (L.tracks hapart).1.passed
  obtain ⟨s, hreached, T, hag⟩ := Rounds.reached_of_passes (covers_source size)
    (Nat.le_of_lt hi.1) (fun j hj => hpassed j (Nat.lt_trans hj hi.1))
    fun j hj _ hreached T hag => L.nextApart hapart hreached T hag (Nat.lt_trans hj hi.1)
  exact region_of_tracks (covers_source size) hreached T hag hi.1
    (Rounds.replies_destAt hi.2 ((hpassed i hi.1).1 hi.2).1)

/-- **The regions hold the segments** once an image is loaded. -/
theorem LoadedApart.segmentsLoaded : SegmentsLoaded alloc state m₀ base t s' l := by
  obtain ⟨T, rfl⟩ := L.tracks hapart
  have hlaid : Laid (Source m₀ base t size) m₀ base t (Rounds.destAt alloc state m₀ base)
      (ePhnum m₀ base) :=
    ⟨L.sizes, (covers_source size).anti, fun hi x hx => Or.inr (L.files hi x hx),
      fun hi x hx hf => L.image (L.region hapart hi) x (hx.of_le (L.sizes hi)) (L.files hi x hf),
      fun hi x hx hS => L.region_apart hapart hi (L.region hapart hi) x hx (Or.inr hS),
      fun _ _ hx => absurd hx (not_stored_of_no_tables L.no_tables),
      fun hi hj hne => L.disjoint (L.region hapart hi) (L.region hapart hj) hne⟩
  refine ⟨fun i hi => ⟨_, L.region hapart hi, fun k hk => ?_⟩, fun x hx => ?_, rfl,
    fun i hi htls => ?_, fun hnone => ?_⟩
  · rw [T.mem]
    exact memAt_segment hlaid (Nat.le_refl _) hi hk fun _ _ =>
      not_stored_of_no_tables L.no_tables
  · rw [T.mem]
    have hout : Agree (fun x => ∀ i d n, Region alloc state m₀ base t i d n → ¬ Range d n x) m₀
        (memAt m₀ base t (Rounds.destAt alloc state m₀ base) (ePhnum m₀ base)) :=
      memAt_agree (S := fun _ x => ∀ i d n, Region alloc state m₀ base t i d n → ¬ Range d n x)
        id L.sizes (fun hi _ hy hno => hno _ _ _ (L.region hapart hi) hy)
        (fun _ _ hy => absurd hy (not_stored_of_no_tables L.no_tables)) (Nat.le_refl _)
    exact (hout x hx).symm
  · have h := T.tls.trans (tlsAt_of_one htls hi fun j hj htls' => L.one_tls j hj i hi htls' htls)
    simpa only [Prod.mk.injEq] using h
  · simpa only [Prod.mk.injEq] using T.tls.trans (tlsAt_of_none hnone)

end Run

/-! ## 2. Headers in the image -/

/-- **The missing checks**: with the ELF header and the program headers in the image, a region
apart from the image is apart from them. -/
theorem LoadedApart.headersApart (L : LoadedApart alloc state m₀ base t emMachine size s l)
    (hsize : 58 ≤ size)
    (hphdrs : ePhoff m₀ base + sizeofPhdr * ePhnum m₀ base < 18446744073709551616) :
    HeadersApart alloc state m₀ base t := by
  have hprog : ProghdrOk m₀ base size := (elf64Load_eq_ok_iff.mp L.accepted).1.2.2
  have hfit := hprog.1
  rw [hprog.2, wrap_of_lt hphdrs] at hfit
  have hphdr : ∀ {j o n x}, j < ePhnum m₀ base → o + n ≤ sizeofPhdr →
      Range (phdr m₀ base j + o) n x → Range base size x := by
    intro j o n x hj hon hx
    have hall := hx.element hj hon
    rw [range_wrap] at hall
    exact hall.mono hfit
  have hnone : ∀ {x}, ¬ TableReads m₀ base t x := fun h => L.no_tables.elim h.1.1 h.1.2
  rintro i d n hi hregion x hx (hrest | hstill)
  · refine L.image hregion x hx ?_
    rcases hrest with h | ⟨ht, -⟩ | h
    · exact hphdr hi (by decide) h
    · exact absurd ht fun h => L.no_tables.elim h.1 h.2
    · exact absurd h hnone
  · refine L.image hregion x hx ?_
    rcases hstill with h | h | ⟨j, -, hj, h | ⟨-, h | h⟩ | ⟨-, h | h | h⟩⟩
    · exact h.mono (by omega)
    · exact h.mono (by omega)
    · exact hphdr hj (o := 0) (n := 4) (by decide) (by rwa [Nat.add_zero])
    · exact hphdr hj (by decide) h
    · exact hphdr hj (by decide) h
    · exact hphdr hj (by decide) h
    · exact hphdr hj (by decide) h
    · exact absurd h hnone

/-- **Segment contents**, when no region meets what is still to be read of the headers. -/
theorem segments_loaded (emMachine size : Nat) (alloc : Allocator ε σ) (state : σ) (m₀ : Mem)
    (base : Nat) (t : Tables) (s : LoadState σ) (l : Loaded)
    (L : LoadedApart alloc state m₀ base t emMachine size s l)
    (hapart : HeadersApart alloc state m₀ base t) :
    SegmentsLoaded alloc state m₀ base t s l :=
  L.segmentsLoaded hapart

section Pages

variable {f : Mem} {vaddrs : List Nat} {c : Setup} (F : Pages f vaddrs) (H : Called c f)

include F H

theorem Pages.region_eq {d n : Nat}
    (h : Region linearAlloc kernelStart c.mem c.base noTables i d n) :
    i < vaddrs.length ∧ d = 0x1000000 + 0x1000 * i ∧ n = 0x1000 := by
  obtain ⟨es, s, hrun, hi, ⟨-, a, halloc⟩, hn⟩ := h
  have U := F.undisturbed H
  have C := @covers_kept c.mem c.base noTables c.Module
  obtain ⟨T, hag⟩ := Rounds.tracks_of_reached C (fun _ _ _ _ _ => U.nextApart) ⟨es, hrun⟩
  rw [C.ePhnum_eq hag] at hi
  have hload : pType c.mem (c.hdr i) = ptLoad := by
    rw [F.phnum_eq H.holds] at hi
    exact F.pType_eq H.holds H.base_lt hi
  have hmemsz : pMemsz s.mem (c.hdr i) = pMemsz c.mem (c.hdr i) :=
    load_field (C.round hag hi) hload (by decide)
  rw [F.phnum_eq H.holds] at hi
  rw [linearAlloc, alloc_of_tracks T, F.segStart_eq H (Nat.le_of_lt hi)] at halloc
  cases halloc
  exact ⟨hi, rfl, hn.trans (hmemsz.trans (F.pMemsz_eq H hi))⟩

theorem Pages.loadedApart : ∃ s l,
    LoadedApart linearAlloc kernelStart c.mem c.base noTables emK1om 0x1000 s l := by
  have U := F.undisturbed H
  have hsmall := F.small
  have E := (F.enters_iff H).mpr rfl
  obtain ⟨s, l, h⟩ := accepted_of_passes E (covers_kept c.Module)
    (fun j hj => F.passes H (by rwa [F.phnum_eq H.holds] at hj)) fun j hj => U.nextApart hj
  rw [loadKernel, H.size_eq] at h
  have hnot : ∀ j < ePhnum c.mem c.base, pType c.mem (phdr c.mem c.base j) ≠ ptTls := by
    intro j hj
    rw [F.phnum_eq H.holds] at hj
    rw [F.pType_eq H.holds H.base_lt hj]
    decide
  refine ⟨s, l, h, E.tables, Or.inl rfl, U.sizes, fun hi x hx => ?_,
    fun i hi _ _ htls => absurd htls (hnot i hi), fun i hi htls => absurd htls (hnot i hi), ?_, ?_⟩
  · rw [F.pFilesz_eq H ((F.seg_iff H).mp hi), range_zero] at hx
    exact hx.elim
  · intro i d n hregion x hx
    obtain ⟨hi, rfl, rfl⟩ := F.region_eq H hregion
    rw [range_iff (by omega)] at hx
    rw [H.base_eq, range_iff (by decide)]
    omega
  · intro i j d d' n n' hregion hregion' hne x hx
    obtain ⟨hi, rfl, rfl⟩ := F.region_eq H hregion
    obtain ⟨hj, rfl, rfl⟩ := F.region_eq H hregion'
    rw [range_iff (by omega)] at hx ⊢
    omega

end Pages

/-- Two pages of zeroes. -/
theorem segments_loaded_two_pages : ∃ (c : Setup) (s : LoadState Nat) (l : Loaded),
    LoadedApart linearAlloc kernelStart c.mem c.base noTables emK1om 0x1000 s l ∧
      SegmentsLoaded linearAlloc kernelStart c.mem c.base noTables s l := by
  obtain ⟨moved, c, -, H⟩ := arrives_with (zeroPages [0x1000000, 0x1002000]) (n := 0x1000)
    (by decide) (by decide)
  have F := pages_gap
  obtain ⟨s, l, L⟩ := F.loadedApart H
  have hphdrs : ePhoff c.mem c.base + sizeofPhdr * ePhnum c.mem c.base < 18446744073709551616 := by
    rw [H.holds.ePhoff_eq (by decide) (by decide), F.phoff, F.phnum_eq H.holds]
    decide
  exact ⟨c, s, l, L, segments_loaded emK1om 0x1000 linearAlloc kernelStart c.mem c.base noTables s l
    L (L.headersApart (by decide) hphdrs)⟩

/-! ## 3. Headers in front of the image -/

/-- Two program headers, for a segment of four zeroes and for thread-local storage, and behind
them an ELF header that has them 112 bytes before itself: the check of the program headers goes
round. -/
def frontBytes : List UInt8 :=
  loadBytes 0 0x1000000 0 4 ++
    (leBytes 4 7 ++ leBytes 4 4 ++ leBytes 8 0 ++ leBytes 8 0x5000 ++ leBytes 8 0x5000 ++
      leBytes 8 8 ++ leBytes 8 16 ++ leBytes 8 16) ++
    ((ehdrBytes 0x1000000 0 2 0).take 32 ++ leBytes 8 (18446744073709551616 - 112) ++
      (ehdrBytes 0x1000000 0 2 0).drop 40)

/-- The ELF header is at 256 MiB. -/
def frontMem : Mem := fun a => if 0xFFFFF90 ≤ a then asMem frontBytes (a - 0xFFFFF90) else 0

/-- An allocator that returns the memory of the second program header. -/
def frontAlloc : Allocator Empty Unit := fun _ _ _ _ => .ok (0xFFFFFC8, ())

/-- What the headers say, computed from their bytes. -/
theorem front_fields :
    (HeaderOk frontMem 0x10000000 emK1om ∧ ProghdrOk frontMem 0x10000000 64) ∧
    wrap (0x10000000 + ePhoff frontMem 0x10000000) = 0xFFFFF90 ∧
    (ePhnum frontMem 0x10000000 = 2 ∧ eShnum frontMem 0x10000000 = 0) ∧
    (pType frontMem 0xFFFFF90 = ptLoad ∧ pFilesz frontMem 0xFFFFF90 = 0 ∧
      pMemsz frontMem 0xFFFFF90 = 4 ∧ pOffset frontMem 0xFFFFF90 = 0) ∧
    pType frontMem 0xFFFFFC8 = ptTls ∧ pVaddr frontMem 0xFFFFFC8 = 0x5000 := by
  decide +kernel

theorem front_header : HeaderOk frontMem 0x10000000 emK1om ∧ ProghdrOk frontMem 0x10000000 64 :=
  front_fields.1

theorem front_phead : wrap (0x10000000 + ePhoff frontMem 0x10000000) = 0xFFFFF90 :=
  front_fields.2.1

theorem front_phnum : ePhnum frontMem 0x10000000 = 2 := front_fields.2.2.1.1

theorem front_phdr_zero : phdr frontMem 0x10000000 0 = 0xFFFFF90 := by rw [phdr, front_phead]; rfl

theorem front_phdr_one : phdr frontMem 0x10000000 1 = 0xFFFFFC8 := by rw [phdr, front_phead]; rfl

theorem front_load : pType frontMem 0xFFFFF90 = ptLoad ∧ pFilesz frontMem 0xFFFFF90 = 0 ∧
    pMemsz frontMem 0xFFFFF90 = 4 ∧ pOffset frontMem 0xFFFFF90 = 0 :=
  front_fields.2.2.2.1

theorem front_tls : pType frontMem 0xFFFFFC8 = ptTls ∧ pVaddr frontMem 0xFFFFFC8 = 0x5000 :=
  front_fields.2.2.2.2

theorem front_type (h : i < 2) : i = 0 ∧ pType frontMem (phdr frontMem 0x10000000 i) = ptLoad ∨
    i = 1 ∧ pType frontMem (phdr frontMem 0x10000000 i) = ptTls := by
  rcases Nat.lt_succ_iff_lt_or_eq.mp h with h | rfl
  · obtain rfl := Nat.lt_one_iff.mp h
    rw [front_phdr_zero]
    exact Or.inl ⟨rfl, front_load.1⟩
  · rw [front_phdr_one]
    exact Or.inr ⟨rfl, front_tls.1⟩

/-- The memory after the first round: the type of the second header is gone. -/
def frontAfter : Mem := fill 0 4 0xFFFFFC8 frontMem

theorem front_filled : filled frontMem 0x10000000 0xFFFFF90 0xFFFFFC8 = frontAfter := by
  have hcopied : copied frontMem 0x10000000 0xFFFFF90 0xFFFFFC8 = frontMem := by
    rw [copied, front_load.2.1]
    rfl
  rw [filled, hcopied, front_load.2.1, front_load.2.2.1]
  rfl

theorem front_after : pType frontAfter 0xFFFFFC8 = 0 ∧ ePhnum frontAfter 0x10000000 = 2 := by
  decide +kernel

/-- The loop, with the memory in between. -/
def frontState (m : Mem) : LoadState Unit := ⟨m, (), 0, 0, 0⟩

theorem front_first {s' : LoadState Unit} : loadSegment frontAlloc 0x10000000 noTables 0xFFFFF90
    (frontState frontMem) = .ok (s', none) ↔ s' = frontState frontAfter := by
  have hno : NoOverlap 0xFFFFFC8 (wrap (0x10000000 + pOffset frontMem 0xFFFFF90))
      (pFilesz frontMem 0xFFFFF90) := by
    rw [front_load.2.1, front_load.2.2.2]
    decide
  have htype : pType (frontState frontMem).mem 0xFFFFF90 = ptLoad := front_load.1
  rw [loadSegment_no_tables_iff htype rfl]
  constructor
  · rintro ⟨-, -, rfl⟩
    exact congrArg frontState front_filled
  · rintro rfl
    exact ⟨by decide, hno, (congrArg frontState front_filled).symm⟩

theorem front_second {s' : LoadState Unit} : loadSegment frontAlloc 0x10000000 noTables 0xFFFFFC8
    (frontState frontAfter) = .ok (s', none) ↔ s' = frontState frontAfter := by
  have htype : pType (frontState frontAfter).mem 0xFFFFFC8 = 0 := front_after.1
  rw [loadSegment, htype, if_neg (by decide), if_neg (by decide)]
  constructor
  · intro h
    exact (Prod.mk.inj (Except.ok.inj h)).1.symm
  · rintro rfl
    rfl

/-- The states the loop gets to. -/
theorem front_reached {es : List Unit} {n : Nat} {s : LoadState Unit}
    (h : Run (HeaderStep frontAlloc 0x10000000 noTables 0xFFFFF90) (0, frontState frontMem) es
      (n, s)) :
    n = 0 ∧ s = frontState frontMem ∨ 0 < n ∧ n ≤ 2 ∧ s = frontState frontAfter := by
  refine h.preserves (I := fun q => q.1 = 0 ∧ q.2 = frontState frontMem ∨
    0 < q.1 ∧ q.1 ≤ 2 ∧ q.2 = frontState frontAfter) ?_ (Or.inl ⟨rfl, rfl⟩)
  rintro ⟨j, s₁⟩ e ⟨k, s₂⟩ hI ⟨hj, hload, hk⟩
  dsimp only at hI hj hload hk ⊢
  subst hk
  rcases hI with ⟨rfl, rfl⟩ | ⟨hpos, hle, rfl⟩
  · exact Or.inr ⟨Nat.one_pos, by decide, front_first.mp hload⟩
  · have hphnum : ePhnum (frontState frontAfter).mem 0x10000000 = 2 := front_after.2
    rw [hphnum] at hj
    obtain rfl : j = 1 := by omega
    exact Or.inr ⟨by decide, by decide, front_second.mp hload⟩

theorem front_region {d n : Nat}
    (h : Region frontAlloc () frontMem 0x10000000 noTables i d n) :
    i = 0 ∧ d = 0xFFFFFC8 ∧ n = 4 := by
  obtain ⟨es, s, hrun, hi, ⟨htype, a, halloc⟩, hn⟩ := h
  rw [front_phead] at hrun
  rcases front_reached hrun with ⟨rfl, rfl⟩ | ⟨hpos, -, rfl⟩
  · cases halloc
    rw [front_phdr_zero] at hn
    exact ⟨rfl, rfl, hn.trans front_load.2.2.1⟩
  · have hphnum : ePhnum (frontState frontAfter).mem 0x10000000 = 2 := front_after.2
    rw [hphnum] at hi
    obtain rfl : i = 1 := by omega
    rw [front_phdr_one] at htype
    exact absurd (front_after.1.symm.trans htype) (by decide)

theorem front_loadAt (h : LoadAt frontMem 0x10000000 (ePhnum frontMem 0x10000000) i) : i = 0 := by
  obtain ⟨hi, htype⟩ := h
  rw [front_phnum] at hi
  rcases front_type hi with ⟨h, -⟩ | ⟨-, h⟩
  · exact h
  · rw [h] at htype
    exact absurd htype (by decide)

theorem front_tlsAt (hi : i < ePhnum frontMem 0x10000000)
    (htype : pType frontMem (phdr frontMem 0x10000000 i) = ptTls) : i = 1 := by
  rw [front_phnum] at hi
  rcases front_type hi with ⟨-, h⟩ | ⟨h, -⟩
  · rw [h] at htype
    exact absurd htype (by decide)
  · exact h

theorem front_tables : selectTables frontMem 0x10000000 = .ok noTables := by
  refine selectTables_plain front_fields.2.2.1.2 fun i hi => ?_
  rw [front_phnum] at hi
  rcases front_type hi with ⟨-, h⟩ | ⟨-, h⟩
  · rw [h]
    decide
  · rw [h]
    decide

theorem front_accepted : elf64Load emK1om frontAlloc () 0x10000000 64 frontMem =
    .ok (frontState frontAfter, .ok ⟨eEntry frontAfter 0x10000000, 0, 0, 0⟩) := by
  have hrun : Run (HeaderStep frontAlloc 0x10000000 noTables 0xFFFFF90) (0, frontState frontMem)
      [(), ()] (2, frontState frontAfter) := by
    refine Run.cons (t := (1, frontState frontAfter)) ⟨?_, front_first.mpr rfl, rfl⟩
      (Run.cons ⟨?_, front_second.mpr rfl, rfl⟩ (Run.refl _))
    · exact front_phnum.symm ▸ (by decide : 0 < 2)
    · exact front_after.2.symm ▸ (by decide : 1 < 2)
  refine elf64Load_eq_ok_iff.mpr ⟨⟨by decide, front_header⟩, noTables, front_tables,
    ⟨2, _, by rw [front_phead]; exact hrun, ?_⟩, rfl⟩
  exact front_after.2.symm ▸ Nat.lt_irrefl 2

theorem front_loadedApart : LoadedApart frontAlloc () frontMem 0x10000000 noTables emK1om 64
    (frontState frontAfter) ⟨eEntry frontAfter 0x10000000, 0, 0, 0⟩ where
  accepted := front_accepted
  selected := front_tables
  no_tables := Or.inl rfl
  sizes {i} hi := by
    obtain rfl := front_loadAt hi
    rw [front_phdr_zero, front_load.2.1]
    exact Nat.zero_le _
  files {i} hi x hx := by
    obtain rfl := front_loadAt hi
    rw [front_phdr_zero, front_load.2.1, range_zero] at hx
    exact hx.elim
  one_tls i hi j hj htls htls' := by rw [front_tlsAt hi htls, front_tlsAt hj htls']
  tls_vaddr i hi htls := by
    obtain rfl := front_tlsAt hi htls
    rw [front_phdr_one, front_tls.2]
    decide
  image {i d n} h x hx := by
    obtain ⟨-, rfl, rfl⟩ := front_region h
    rw [range_iff (by decide)] at hx ⊢
    omega
  disjoint h h' hne := absurd ((front_region h).1.trans (front_region h').1.symm) hne

/-- The zeroes of the segment overwrite the second program header, and its thread-local storage
is not reported. -/
theorem front_headers_overwritten : ∃ (s : LoadState Unit) (l : Loaded),
    LoadedApart frontAlloc () frontMem 0x10000000 noTables emK1om 64 s l ∧
      ¬ SegmentsLoaded frontAlloc () frontMem 0x10000000 noTables s l := by
  refine ⟨_, _, front_loadedApart, fun h => ?_⟩
  have htls := (h.tls 1 (front_phnum.symm ▸ (by decide : 1 < 2))
    (by rw [front_phdr_one]; exact front_tls.1)).1
  rw [front_phdr_one, front_tls.2] at htls
  exact absurd htls (by decide)

end Philix.Inky
