/-
# Whether loading writes into the memory it was given only

`elf64_load` trusts the sizes of a segment and the offsets of the relocations.  With a
`p_filesz` above `p_memsz` the copy runs over the end of the region and the zero fill, whose
size has gone round, over the rest of the address space; a relocation stores wherever
`r_offset` is, relative to the segment it is applied to.  All writes stay in the regions the
allocator returned when neither happens (`SegmentsFit`) and nothing that is still to be read is
written (`RoundsApart`); and only then, if no region has anything that is read.
-/
import Philix.Inky.ImageReads

namespace Philix.Inky

open ByteMem Loop Lts Traced

/-- The allocator has returned a region with the address `x`. -/
def Given (log : List Access) (x : Nat) : Prop := ∃ a n, .given a n ∈ log ∧ Range a n x

/-- Every byte that is written is in a region that the allocator returned. -/
def WritesGiven (log : List Access) : Prop :=
  ∀ a n, .write a n ∈ log → ∀ x, Range a n x → Given log x

/-- The writes of a log. -/
def OnlyWrites (W : Nat → Nat → Prop) : Access → Prop
  | .write a n => W a n
  | _ => True

section Definitions

variable {ε σ : Type} (alloc : Allocator ε σ) (state : σ) (m : Mem) (base : Nat) (t : Tables)

/-- The allocator returns a region with the address `x` for one of the headers of the image. -/
def Regions (x : Nat) : Prop :=
  ∃ i d, Rounds.GetsTo alloc state m base t i ∧ Rounds.Replies alloc state m base i d ∧
    Range d (pMemsz m (phdr m base i)) x

/-- Every segment that is placed is no longer in the file than in memory, and the words that are
relocated with it are in the regions. -/
def SegmentsFit : Prop :=
  ∀ i d, Rounds.GetsTo alloc state m base t i → Rounds.Replies alloc state m base i d → d ≠ 0 →
    NoOverlap d (fileStart m base (phdr m base i)) (pFilesz m (phdr m base i)) →
    pFilesz m (phdr m base i) ≤ pMemsz m (phdr m base i) ∧
      ∀ e < relaCount t, (∀ j < e, EntryOk m (relaTable m base t) (shSize m t.symtab) j) →
        Storing m base t e →
        Within (Regions alloc state m base t) (storeAddr m base t (phdr m base i) d e) 8

/-- The allocator returns a region with the address `x` in one of the rounds of a run. -/
def HandedOut (phead : Nat) (s₀ : LoadState σ) (x : Nat) : Prop :=
  ∃ es i s, Run (HeaderStep alloc base t phead) (0, s₀) es (i, s) ∧ i < ePhnum s.mem base ∧
    ∃ dest, Gets alloc (phead + sizeofPhdr * i) s dest ∧
      Range dest (pMemsz s.mem (phead + sizeofPhdr * i)) x

end Definitions

/-- If `elf64_load` gets to its loop over the program headers, then what the image says fits into
the regions it asks for, and goes apart from what is still to be read. -/
def ImageFits {ε σ : Type} (emMachine : Nat) (alloc : Allocator ε σ) (state : σ) (base size : Nat)
    (m : Mem) : Prop :=
  size ≠ 0 → HeaderOk m base emMachine → ProghdrOk m base size → TablesOk m base →
    SegmentsFit alloc state m base (imageTables m base) ∧ RoundsApart alloc state base m

/-! ## 1. The copy and the fill -/

theorem pFilesz_lt (m : Mem) (p : Nat) : pFilesz m p < 18446744073709551616 := readLE_lt 8 _

/-- A copy that is longer than the segment, and the fill behind it, hit every address. -/
theorem copy_fill_all {d f z x : Nat} (hf : f < 18446744073709551616) (hzf : z < f)
    (hx : x < 18446744073709551616) : Range d f x ∨ Range (wrap (d + f)) (sub64 z f) x := by
  have hcount : sub64 z f = 18446744073709551616 + z - f := by
    rw [sub64, wrap]
    omega
  have hk : ∃ k < 18446744073709551616, x = wrap (d + k) :=
    ⟨(x + (18446744073709551616 - d % 18446744073709551616)) % 18446744073709551616,
      Nat.mod_lt _ (by omega), by simp only [wrap]; omega⟩
  obtain ⟨k, hk, rfl⟩ := hk
  by_cases hkf : k < f
  · exact Or.inl (range_add hkf)
  · refine Or.inr (range_wrap.mpr ⟨k - f, by omega, ?_⟩)
    rw [Nat.add_assoc, Nat.add_sub_cancel' (by omega)]

/-- Only a segment no longer than its memory is copied and filled within a part of it. -/
theorem PlacedWithin.sizes {R : Nat → Prop} {m : Mem} {base p d x : Nat} {t : Tables}
    (h : PlacedWithin R m base t p d) (hx : x < 18446744073709551616) (hR : ¬ R x) :
    pFilesz m p ≤ pMemsz m p := by
  by_contra hlt
  rcases copy_fill_all (d := d) (pFilesz_lt m p) (Nat.lt_of_not_le hlt) hx with hx | hx
  · exact hR (h.1 x hx)
  · exact hR (h.2.1 x hx)

/-! ## 2. What reads do not matter to -/

section Reads

variable {In : Nat → Nat → Prop} {m : Mem} {base : Nat} (h : ∀ a n, In a n)

include h

theorem checksIn_all {head : Nat} : ∀ {cs : List Logged.Check}, ChecksIn In m head cs
  | [] => trivial
  | _ :: _ => ⟨h _ _, fun _ => checksIn_all⟩

theorem tablesIn_all : TablesIn In m base where
  sections _ _ _ _ _ := h _ _
  relaSize _ := h _ _
  phdrs _ _ _ := ⟨h _ _, fun _ => ⟨h _ _, h _ _, fun _ _ _ =>
    ⟨h _ _, fun _ => h _ _, fun _ _ _ _ => h _ _⟩⟩⟩

theorem segmentReads_all {ε σ : Type} {alloc : Allocator ε σ} {t : Tables} {p : Nat}
    {s : LoadState σ} : SegmentReads In alloc base t p s where
  type := h _ _
  load _ := ⟨h _ _, h _ _, h _ _⟩
  place _ _ _ := ⟨h _ _, h _ _, fun _ => ⟨h _ _, h _ _⟩,
    fun _ _ => ⟨h _ _, h _ _, h _ _, h _ _⟩,
    fun _ _ _ _ _ _ => ⟨h _ _, h _ _, fun _ _ => ⟨h _ _, h _ _⟩⟩⟩
  tls _ := ⟨h _ _, fun _ _ => ⟨h _ _, h _ _⟩⟩

end Reads

section Load

variable {ε σ : Type} {alloc : Allocator ε σ} {state : σ} {emMachine base size : Nat} {m : Mem}
  {P : Access → Prop}

/-- The accesses of `elf64_load` other than reads. -/
theorem every_of_reads (h : ∀ a n, P (.read a n)) :
    Every P (Logged.elf64Load emMachine alloc state base size m) ↔ (size = 0 → P .bad) ∧
      (size ≠ 0 → HeaderOk m base emMachine → ProghdrOk m base size →
        ∀ t, selectTables m base = .ok t →
          EachHeader alloc base t (wrap (base + ePhoff m base)) ⟨m, state, 0, 0, 0⟩ fun p s =>
            SegmentWrites (OnWrites P) alloc base t p s ∧
              ∀ dest, Gets alloc p s dest → P (.given dest (pMemsz s.mem p))) := by
  rw [Logged.every_elf64Load_iff]
  refine and_congr_right fun _ => forall_congr' fun _ => ?_
  refine (and_iff_right (checksIn_all h)).trans (forall_congr' fun _ => ?_)
  refine (and_iff_right ⟨h _ _, h _ _, h _ _⟩).trans (forall_congr' fun _ => ?_)
  refine (and_iff_right ((Logged.every_selectTables_iff fun _ _ _ => h _ _).mpr
    (tablesIn_all h))).trans (forall_congr' fun t => forall_congr' fun _ => ?_)
  refine (and_iff_left fun _ _ => h _ _).trans ((Logged.every_loadSegments_iff 0 _).trans ?_)
  refine (and_iff_right (h _ _)).trans ?_
  unfold EachHeader
  refine forall_congr' fun es => forall_congr' fun i => forall_congr' fun s =>
    forall_congr' fun _ => forall_congr' fun _ => ?_
  rw [Logged.every_loadSegment_iff]
  exact and_iff_right (segmentReads_all h)

/-- Whether the store of `bad()` is made. -/
theorem bad_mem_iff :
    .bad ∈ (Logged.elf64Load emMachine alloc state base size m).log ↔ size = 0 := by
  have hne : Every (fun i => i ≠ .bad) (Logged.elf64Load emMachine alloc state base size m) ↔
      size ≠ 0 := by
    rw [every_of_reads fun a n => by simp]
    constructor
    · rintro ⟨h, -⟩ h0
      exact h h0 rfl
    · intro h0
      refine ⟨fun h => absurd h h0, fun _ _ _ t _ es i s _ _ => ?_⟩
      exact ⟨fun d _ _ => ⟨fun _ => nofun, fun _ => nofun, fun _ _ _ _ _ _ _ => nofun⟩,
        fun _ _ => nofun⟩
  constructor
  · intro hmem
    by_contra h0
    exact hne.mpr h0 _ hmem rfl
  · rintro rfl
    exact List.mem_singleton.mpr rfl

variable {t : Tables} (hsize : size ≠ 0) (hhead : HeaderOk m base emMachine)
  (hprog : ProghdrOk m base size) (ht : selectTables m base = .ok t)

include hsize hhead hprog ht

/-- The regions in the log are those of the rounds. -/
theorem given_iff {x : Nat} :
    Given (Logged.elf64Load emMachine alloc state base size m).log x ↔
      HandedOut alloc base t (wrap (base + ePhoff m base)) ⟨m, state, 0, 0, 0⟩ x := by
  constructor
  · rintro ⟨a, n, hmem, hx⟩
    by_contra hno
    have hne : Every (fun i => i ≠ .given a n)
        (Logged.elf64Load emMachine alloc state base size m) := by
      rw [every_of_reads fun a n => by simp]
      refine ⟨fun _ => nofun, fun _ _ _ t' ht' es i s hrun hi => ?_⟩
      obtain rfl := Except.ok.inj (ht.symm.trans ht')
      refine ⟨fun d _ _ => ⟨fun _ => nofun, fun _ => nofun, fun _ _ _ _ _ _ _ => nofun⟩, ?_⟩
      intro d hd he
      obtain ⟨rfl, rfl⟩ := Access.given.inj he
      exact hno ⟨es, i, s, hrun, hi, d, hd, hx⟩
    exact hne _ hmem rfl
  · rintro ⟨es, i, s, hrun, hi, d, hd, hx⟩
    by_contra hno
    have hne : Every (fun i => ∀ a n, i = .given a n → ¬ Range a n x)
        (Logged.elf64Load emMachine alloc state base size m) := by
      rintro _ hj a n rfl hr
      exact hno ⟨a, n, hj, hr⟩
    rw [every_of_reads fun a n => by simp] at hne
    exact (hne.2 hsize hhead hprog t ht es i s hrun hi).2 d hd d _ rfl hx

omit hsize hhead hprog ht

theorem every_onlyWrites_iff {α : Type} {W : Nat → Nat → Prop} {x : Logged α} :
    Every (OnlyWrites W) x ↔ ∀ a n, .write a n ∈ x.log → W a n := by
  constructor
  · intro h a n ha
    exact h _ ha
  · intro h i hi
    cases i with
    | write a n => exact h a n hi
    | read | given | bad => trivial

theorem writesGiven_iff :
    WritesGiven (Logged.elf64Load emMachine alloc state base size m).log ↔
      (size ≠ 0 → HeaderOk m base emMachine → ProghdrOk m base size →
        ∀ t, selectTables m base = .ok t →
          EachHeader alloc base t (wrap (base + ePhoff m base)) ⟨m, state, 0, 0, 0⟩
            (SegmentWrites (Within (Given (Logged.elf64Load emMachine alloc state base size m).log))
              alloc base t)) := by
  have hlog : WritesGiven (Logged.elf64Load emMachine alloc state base size m).log ↔
      Every (OnlyWrites (Within (Given (Logged.elf64Load emMachine alloc state base size m).log)))
        (Logged.elf64Load emMachine alloc state base size m) := every_onlyWrites_iff.symm
  rw [hlog, every_of_reads fun _ _ => trivial]
  refine (and_iff_right fun _ => trivial).trans ?_
  unfold EachHeader
  refine forall_congr' fun _ => forall_congr' fun _ => forall_congr' fun _ =>
    forall_congr' fun t => forall_congr' fun _ => forall_congr' fun es => forall_congr' fun i =>
    forall_congr' fun s => forall_congr' fun _ => forall_congr' fun _ => ?_
  exact and_iff_left fun _ _ => trivial

end Load

/-! ## 3. The image as it is given -/

section Fits

variable {ε σ : Type} {alloc : Allocator ε σ} {state : σ} {emMachine base size i d : Nat} {m : Mem}

/-- The regions in the log of a load. -/
abbrev GivenIn (emMachine : Nat) (alloc : Allocator ε σ) (state : σ) (base size : Nat) (m : Mem) :
    Nat → Prop :=
  Given (Logged.elf64Load emMachine alloc state base size m).log

section Loop

variable (hsize : size ≠ 0) (hhead : HeaderOk m base emMachine) (hprog : ProghdrOk m base size)
  (htables : TablesOk m base) (A : RoundsApart alloc state base m)

include A

/-- The loop does get to the headers that it gets to in the image as it is given. -/
theorem RoundsApart.reached (hi : Rounds.GetsTo alloc state m base (imageTables m base) i) :
    ∃ s, Rounds.Reached alloc state m base (imageTables m base) i s ∧
      Rounds.Tracks alloc state m base (imageTables m base) i s ∧
      Agree (StillRead m base (imageTables m base) i) m s.mem :=
  Rounds.reached_of_passes covers_stillRead (Nat.le_of_lt hi.1) hi.2
    fun j hj _ _ T _ => A j ⟨Nat.lt_trans hj hi.1, T.passed⟩

include hsize hhead hprog htables

/-- The regions of the headers are those in the log. -/
theorem RoundsApart.regions_iff {x : Nat} :
    GivenIn emMachine alloc state base size m x ↔
      Regions alloc state m base (imageTables m base) x := by
  have hselect := selectTables_eq_ok_iff.mpr ⟨htables, rfl⟩
  rw [GivenIn, given_iff hsize hhead hprog hselect]
  constructor
  · rintro ⟨es, i, s, hrun, hi, d, hd, hx⟩
    obtain ⟨T, hag⟩ := A.tracks ⟨es, hrun⟩
    rw [covers_stillRead.ePhnum_eq hag] at hi
    have hreply := (Rounds.gets_iff covers_stillRead T hag hi).mp hd
    have hmemsz : pMemsz s.mem (phdr m base i) = pMemsz m (phdr m base i) :=
      load_field (covers_stillRead.round hag hi) hreply.1 (by decide)
    exact ⟨i, d, ⟨hi, T.passed⟩, hreply, hmemsz ▸ hx⟩
  · rintro ⟨i, d, hi, hreply, hx⟩
    obtain ⟨s, ⟨es, hrun⟩, T, hag⟩ := A.reached hi
    have hmemsz : pMemsz s.mem (phdr m base i) = pMemsz m (phdr m base i) :=
      load_field (covers_stillRead.round hag hi.1) hreply.1 (by decide)
    refine ⟨es, i, s, hrun, ?_, d, (Rounds.gets_iff covers_stillRead T hag hi.1).mpr hreply,
      hmemsz.symm ▸ hx⟩
    rw [covers_stillRead.ePhnum_eq hag]
    exact hi.1

end Loop

/-- An image that fits is loaded within the regions. -/
theorem ImageFits.writesGiven (F : ImageFits emMachine alloc state base size m) :
    WritesGiven (Logged.elf64Load emMachine alloc state base size m).log := by
  refine writesGiven_iff.mpr fun hsize hhead hprog t ht es i s hrun hi d hd hne => ?_
  obtain ⟨htables, rfl⟩ := selectTables_eq_ok_iff.mp ht
  obtain ⟨hfit, A⟩ := F hsize hhead hprog htables
  obtain ⟨T, hag⟩ := A.tracks ⟨es, hrun⟩
  rw [covers_stillRead.ePhnum_eq hag] at hi
  have hreply := (Rounds.gets_iff covers_stillRead T hag hi).mp hd
  have hgets : Rounds.GetsTo alloc state m base (imageTables m base) i := ⟨hi, T.passed⟩
  refine placeWrites_of hreply.1 (covers_stillRead.round hag hi) (fun x hx => Or.inl hx)
    (hag.mono fun x hx => covers_stillRead.of_later hi hreply.1 hx) (A i hgets d hreply hne)
    fun hno => ?_
  obtain ⟨hle, hstores⟩ := hfit i d hgets hreply hne hno
  have hgiven : ∀ {x}, Regions alloc state m base (imageTables m base) x →
      GivenIn emMachine alloc state base size m x := (A.regions_iff hsize hhead hprog htables).mpr
  exact ⟨fun x hx => hgiven ⟨i, d, hgets, hreply, (segment_range hle).mpr (Or.inl hx)⟩,
    fun x hx => hgiven ⟨i, d, hgets, hreply, (segment_range hle).mpr (Or.inr hx)⟩,
    fun e he hok hst x hx => hgiven (hstores e he hok hst x hx)⟩

section Given

variable (h : WritesGiven (Logged.elf64Load emMachine alloc state base size m).log)
  (hgiven : ∀ x, GivenIn emMachine alloc state base size m x →
    ¬ StillRead m base (imageTables m base) 0 x)
  (hsize : size ≠ 0) (hhead : HeaderOk m base emMachine) (hprog : ProghdrOk m base size)
  (htables : TablesOk m base)

include h hgiven hsize hhead hprog htables

/-- A round of a load within regions that are apart from what is read. -/
theorem placedWithin_of_writesGiven {s : LoadState σ}
    (hreached : Rounds.Reached alloc state m base (imageTables m base) i s)
    (T : Rounds.Tracks alloc state m base (imageTables m base) i s)
    (hag : Agree (StillRead m base (imageTables m base) i) m s.mem) (hi : i < ePhnum m base)
    (hreply : Rounds.Replies alloc state m base i d) (hne : d ≠ 0) :
    NoOverlap d (fileStart m base (phdr m base i)) (pFilesz m (phdr m base i)) →
      PlacedWithin (GivenIn emMachine alloc state base size m) m base (imageTables m base)
        (phdr m base i) d := by
  obtain ⟨es, hrun⟩ := hreached
  have hselect := selectTables_eq_ok_iff.mpr ⟨htables, rfl⟩
  have hwrites := writesGiven_iff.mp h hsize hhead hprog _ hselect es i s hrun
    (by rwa [covers_stillRead.ePhnum_eq hag]) d
    ((Rounds.gets_iff covers_stillRead T hag hi).mpr hreply) hne
  have hlater : ∀ x, Later m base (imageTables m base) (StillRead m base (imageTables m base)) i x →
      StillRead m base (imageTables m base) i x :=
    fun x hx => covers_stillRead.of_later hi hreply.1 hx
  refine of_placeWrites hreply.1 (covers_stillRead.round hag hi) (fun x hx => Or.inl hx)
    (hag.mono hlater) (fun x hx hS => hgiven x hx ?_) hwrites
  exact (covers_const fun _ hx => hx).still (hlater x hS)

theorem nextApart_of_writesGiven {s : LoadState σ}
    (hreached : Rounds.Reached alloc state m base (imageTables m base) i s)
    (T : Rounds.Tracks alloc state m base (imageTables m base) i s)
    (hag : Agree (StillRead m base (imageTables m base) i) m s.mem) (hi : i < ePhnum m base) :
    Rounds.NextApart alloc state m base (imageTables m base)
      (StillRead m base (imageTables m base)) i := by
  intro d hreply hne
  refine PlacedWithin.apart (fun x hx hS => hgiven x hx ?_)
    (placedWithin_of_writesGiven h hgiven hsize hhead hprog htables hreached T hag hi hreply hne)
  exact (covers_const fun _ hx => hx).still (covers_stillRead.of_later hi hreply.1 hS)

/-- No round of it writes what is still to be read. -/
theorem roundsApart_of_writesGiven : RoundsApart alloc state base m := by
  intro i hi
  obtain ⟨s, hreached, T, hag⟩ := Rounds.reached_of_passes covers_stillRead (Nat.le_of_lt hi.1)
    hi.2 fun j hj s hreached T hag => nextApart_of_writesGiven h hgiven hsize hhead hprog htables
      hreached T hag (Nat.lt_trans hj hi.1)
  exact nextApart_of_writesGiven h hgiven hsize hhead hprog htables hreached T hag hi.1

/-- The regions it asks for are long enough. -/
theorem segmentsFit_of_writesGiven : SegmentsFit alloc state m base (imageTables m base) := by
  intro i d hi hreply hne hno
  have A := roundsApart_of_writesGiven h hgiven hsize hhead hprog htables
  obtain ⟨s, hreached, T, hag⟩ := A.reached hi
  have hplaced := placedWithin_of_writesGiven h hgiven hsize hhead hprog htables hreached T hag hi.1
    hreply hne hno
  refine ⟨hplaced.sizes (wrap_lt (base + 24)) fun hx => hgiven _ hx ?_, fun e he hok hst x hx => ?_⟩
  · exact Or.inl (range_add (k := 0) (by decide))
  · exact (A.regions_iff hsize hhead hprog htables).mp (hplaced.2.2 e he hok hst x hx)

end Given

/-- **When loading writes into the memory it was given only.**  It is enough that the image fits
the regions it asks for; it has to, when no region that is handed out has what is read of the
image.  The debugging store of `bad()` is none of the loader's copies, fills and relocations. -/
theorem writes_given_iff {ε σ : Type} (emMachine : Nat) (alloc : Allocator ε σ) (state : σ)
    (base size : Nat) (m : Mem) :
    (ImageFits emMachine alloc state base size m →
      WritesGiven (Logged.elf64Load emMachine alloc state base size m).log) ∧
    ((∀ x, Given (Logged.elf64Load emMachine alloc state base size m).log x →
        ¬ StillRead m base (imageTables m base) 0 x) →
      WritesGiven (Logged.elf64Load emMachine alloc state base size m).log →
        ImageFits emMachine alloc state base size m) ∧
    (.bad ∈ (Logged.elf64Load emMachine alloc state base size m).log ↔ size = 0) :=
  ⟨ImageFits.writesGiven, fun hgiven h hsize hhead hprog htables =>
    ⟨segmentsFit_of_writesGiven h hgiven hsize hhead hprog htables,
      roundsApart_of_writesGiven h hgiven hsize hhead hprog htables⟩, bad_mem_iff⟩

end Fits

/-- The kernel of one page is loaded within its region. -/
theorem writes_given_one_page : WritesGiven
    (Logged.elf64Load emK1om linearAlloc kernelStart 0x10000000 0x1000 onePage).log := by
  refine (writes_given_iff emK1om linearAlloc kernelStart 0x10000000 0x1000 onePage).1
    fun _ _ _ _ => ⟨?_, roundsApart_onePage⟩
  rw [SegmentsFit, imageTables_onePage]
  rintro i d ⟨hi, -⟩ - - -
  rw [pages_one.phnum_eq holdsAt_onePage] at hi
  have hfilesz : pFilesz onePage (phdr onePage 0x10000000 i) = 0 :=
    (pages_one.field holdsAt_onePage (by decide) hi (by decide)).trans (pages_one.filesz i hi)
  rw [hfilesz]
  exact ⟨Nat.zero_le _, fun e he => absurd he (Nat.not_lt_zero e)⟩

/-! ## 4. A segment longer in the file than in memory -/

/-- The file of a kernel whose one segment has 32 bytes in the file and 16 in memory. -/
def longFile : Mem := asMem (ehdrBytes 0x1000000 0 1 0 ++ loadBytes 0 0x1000000 32 16)

theorem holdsAt_long : HoldsAt (ramdiskMem longFile) 0x10000000 0x1000 longFile :=
  holdsAt_ramdisk longFile (by decide)

theorem plain_long : Plain longFile 1 where
  header := by decide
  proghdr := by decide
  phoff := by decide
  phnum := by decide
  shnum := by decide
  load i hi := by
    obtain rfl : i = 0 := Nat.lt_one_iff.mp hi
    decide
  small := by decide

/-- Where its program header is. -/
theorem phdr_long : phdr (ramdiskMem longFile) 0x10000000 0 = 0x10000040 :=
  plain_long.phdr_eq holdsAt_long (by decide)

/-- Its program header. -/
theorem field_long {j k : Nat} (hjk : j + k ≤ 56) :
    readLE (ramdiskMem longFile) k (0x10000040 + j) = readLE longFile k (64 + j) := by
  rw [← phdr_long]
  exact plain_long.field holdsAt_long (by decide) Nat.one_pos hjk

theorem pFilesz_long : pFilesz (ramdiskMem longFile) 0x10000040 = 32 :=
  (field_long (by decide)).trans (by decide)

theorem pMemsz_long : pMemsz (ramdiskMem longFile) 0x10000040 = 16 :=
  (field_long (by decide)).trans (by decide)

theorem pOffset_long : pOffset (ramdiskMem longFile) 0x10000040 = 0 :=
  (field_long (by decide)).trans (by decide)

/-- The copy does not meet the sizes in the header. -/
theorem copied_long {j : Nat} (hj : j + 8 ≤ 56) :
    readLE (copied (ramdiskMem longFile) 0x10000000 0x10000040 kernelStart) 8 (0x10000040 + j) =
      readLE (ramdiskMem longFile) 8 (0x10000040 + j) := by
  refine readLE_congr fun x hx => copy_of_not_range fun h => ?_
  rw [range_iff (by omega)] at hx
  rw [pFilesz_long, range_iff (by decide), kernelStart] at h
  omega

/-- Nothing is left of the image once the segment is placed. -/
theorem ePhnum_filled_long :
    ePhnum (filled (ramdiskMem longFile) 0x10000000 0x10000040 kernelStart) 0x10000000 = 0 := by
  have hzero : ∀ x, Range 0x10000038 2 x →
      filled (ramdiskMem longFile) 0x10000000 0x10000040 kernelStart x = 0 := by
    intro x hx
    rw [range_iff (by decide)] at hx
    refine fill_of_range ?_
    have hfilesz : pFilesz (copied (ramdiskMem longFile) 0x10000000 0x10000040 kernelStart)
        0x10000040 = 32 := (copied_long (by decide)).trans pFilesz_long
    have hmemsz : pMemsz (copied (ramdiskMem longFile) 0x10000000 0x10000040 kernelStart)
        0x10000040 = 16 := (copied_long (by decide)).trans pMemsz_long
    rw [hfilesz, hmemsz, range_wrap]
    have hcount : sub64 16 32 = 18446744073709551600 := by decide
    rw [hcount, kernelStart]
    refine ⟨x - 0x1000020, by omega, ?_⟩
    rw [wrap_of_lt (by omega)]
    omega
  have hread : readLE _ 2 0x10000038 = readLE (fun _ => 0) 2 0x10000038 := readLE_congr hzero
  exact hread.trans (by decide)

/-- A segment without relocations is copied and filled. -/
theorem loadSegment_no_tables_iff {ε σ : Type} {alloc : Allocator ε σ} {base p dest : Nat} {a : σ}
    {s s' : LoadState σ} (htype : pType s.mem p = ptLoad)
    (halloc : alloc s.alloc (pVaddr s.mem p) (pMemsz s.mem p) (pFlags s.mem p) = .ok (dest, a)) :
    loadSegment alloc base noTables p s = .ok (s', none) ↔
      dest ≠ 0 ∧ NoOverlap dest (wrap (base + pOffset s.mem p)) (pFilesz s.mem p) ∧
        s' = { s with mem := filled s.mem base p dest, alloc := a } := by
  have hplace : ∀ m', placeSegment base noTables p dest s.mem = .ok m' ↔
      NoOverlap dest (wrap (base + pOffset s.mem p)) (pFilesz s.mem p) ∧
        filled s.mem base p dest = m' := fun m' => by
    rw [placeSegment_eq_ok_iff, if_neg fun ht => ht.1 rfl, pure_eq_ok, Except.ok.injEq]
  rw [loadSegment, if_pos htype, halloc]
  dsimp only
  rw [assert_bind_eq_ok_iff, bind_eq_ok_iff]
  refine and_congr_right fun _ => ?_
  simp only [hplace, pure_eq_ok, Except.ok.injEq, Prod.mk.injEq, and_true]
  constructor
  · rintro ⟨m', ⟨hno, rfl⟩, rfl⟩
    exact ⟨hno, rfl⟩
  · rintro ⟨hno, rfl⟩
    exact ⟨_, ⟨hno, rfl⟩, rfl⟩

theorem pType_long : pType (ramdiskMem longFile) 0x10000040 = ptLoad :=
  (field_long (j := 0) (by decide)).trans (by decide)

theorem phead_long : wrap (0x10000000 + ePhoff (ramdiskMem longFile) 0x10000000) = 0x10000040 :=
  phdr_long

theorem phnum_long : ePhnum (ramdiskMem longFile) 0x10000000 = 1 := plain_long.phnum_eq holdsAt_long

theorem tables_long : selectTables (ramdiskMem longFile) 0x10000000 = .ok noTables := by
  refine selectTables_plain (holdsAt_long.eShnum_eq (by decide) (by decide)) fun i hi => ?_
  rw [phnum_long] at hi
  rw [plain_long.pType_eq holdsAt_long (by decide) hi]
  decide

/-- There is one round, and its region is 16 bytes long. -/
theorem handedOut_long {x : Nat} (h : HandedOut linearAlloc 0x10000000 noTables 0x10000040
    ⟨ramdiskMem longFile, kernelStart, 0, 0, 0⟩ x) : Range kernelStart 16 x := by
  obtain ⟨es, i, s, hrun, hi, d, ⟨-, a, halloc⟩, hx⟩ := h
  cases hrun with
  | refl =>
    cases halloc
    rwa [Nat.mul_zero, Nat.add_zero, pMemsz_long] at hx
  | @cons _ q _ _ _ h1 h2 =>
    obtain ⟨-, hround, -⟩ := h1
    have hplaced := (loadSegment_no_tables_iff (s := ⟨_, kernelStart, 0, 0, 0⟩) pType_long rfl).mp
      hround
    have hzero : ePhnum q.2.mem 0x10000000 = 0 := by
      rw [hplaced.2.2]
      dsimp only
      exact ePhnum_filled_long
    cases h2 with
    | refl =>
      rw [hzero] at hi
      exact absurd hi (Nat.not_lt_zero _)
    | cons h3 _ =>
      have hlt := h3.1
      rw [hzero] at hlt
      exact absurd hlt (Nat.not_lt_zero _)

/-- The copy of this segment runs over the end of the region it was given. -/
theorem long_segment_overruns :
    ¬ WritesGiven (Logged.elf64Load emK1om linearAlloc kernelStart 0x10000000 0x1000
      (ramdiskMem longFile)).log := by
  intro h
  have hhead : HeaderOk (ramdiskMem longFile) 0x10000000 emK1om :=
    holdsAt_long.headerOk (by decide) (by decide) plain_long.header
  have hprog : ProghdrOk (ramdiskMem longFile) 0x10000000 0x1000 :=
    holdsAt_long.proghdrOk (by decide) (by decide) plain_long.proghdr
  have hwrites := writesGiven_iff.mp h (by decide) hhead hprog noTables tables_long
  rw [phead_long] at hwrites
  have W := hwrites [] 0 _ (Run.refl _) (by rw [phnum_long]; decide) kernelStart
    ⟨pType_long, _, rfl⟩ (by decide)
  have hno : NoOverlap kernelStart (wrap (0x10000000 + pOffset (ramdiskMem longFile) 0x10000040))
      (pFilesz (ramdiskMem longFile) 0x10000040) := by
    rw [pOffset_long, pFilesz_long]
    decide
  -- the byte behind the region
  have hbyte : Range kernelStart (pFilesz (ramdiskMem longFile) 0x10000040) 0x1000010 := by
    rw [pFilesz_long, range_iff (by decide), kernelStart]
    omega
  have hgiven := (given_iff (by decide) hhead hprog tables_long).mp (W.copy hno _ hbyte)
  rw [phead_long] at hgiven
  have hregion := handedOut_long hgiven
  rw [range_iff (by decide), kernelStart] at hregion
  omega

end Philix.Inky
