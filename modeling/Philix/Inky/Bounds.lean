/-
# What the accesses of the loader are

For each function of the loader, which accesses it makes, as conditions over two predicates:
`In a n` for reading image data and `W a n` for writing.  The `every_..._iff` lemmas say that
all accesses of the function's log are in `P` exactly when its conditions hold of
`OnReads P` and `OnWrites P`.

The conditions are about the memory a function starts from.  Where it loops, they are about
the memory each round starts from, if the round is reached.
-/
import Philix.Inky.Accesses

namespace Philix.Inky

open ByteMem Traced

abbrev OnReads (P : Access → Prop) (a n : Nat) : Prop := P (.read a n)

abbrev OnWrites (P : Access → Prop) (a n : Nat) : Prop := P (.write a n)

/-- `Q` holds of the first `n` of the addresses `s`, `s + stride`, ..., up to the first at which
the search stops. -/
def UpTo (stride : Nat) (stop Q : Nat → Prop) (n s : Nat) : Prop :=
  ∀ i < n, (∀ j < i, ¬ stop (s + stride * j)) → Q (s + stride * i)

theorem upTo_zero {stride s : Nat} {stop Q : Nat → Prop} : UpTo stride stop Q 0 s :=
  fun i hi => absurd hi (Nat.not_lt_zero i)

theorem upTo_succ {stride n s : Nat} {stop Q : Nat → Prop} :
    UpTo stride stop Q (n + 1) s ↔ Q s ∧ (¬ stop s → UpTo stride stop Q n (s + stride)) := by
  constructor
  · intro h
    refine ⟨h 0 (Nat.succ_pos n) fun j hj => absurd hj (Nat.not_lt_zero j), ?_⟩
    intro hne i hi hbefore
    rw [← stride_succ]
    refine h (i + 1) (Nat.succ_lt_succ hi) fun j hj => ?_
    cases j with
    | zero => exact hne
    | succ j =>
      rw [stride_succ]
      exact hbefore j (Nat.lt_of_succ_lt_succ hj)
  · rintro ⟨hfirst, hrest⟩ i hi hbefore
    cases i with
    | zero => exact hfirst
    | succ i =>
      rw [stride_succ]
      refine hrest (hbefore 0 (Nat.succ_pos i)) i (Nat.lt_of_succ_lt_succ hi) fun j hj => ?_
      rw [← stride_succ]
      exact hbefore (j + 1) (Nat.succ_lt_succ hj)

section Conditions

variable (In W : Nat → Nat → Prop) (m : Mem)

/-- The checks are made up to the first that fails. -/
def ChecksIn (head : Nat) : List Logged.Check → Prop
  | [] => True
  | c :: cs =>
    In (head + c.off) c.len ∧ (c.ok (readLE m c.len (head + c.off)) = true → ChecksIn head cs)

/-- Section headers are looked at up to the first whose field at `off` is `v`. -/
def ScanIn (off len v : Nat) : Nat → Nat → Prop :=
  UpTo sizeofShdr (fun s => readLE m len (s + off) = v) fun s => In (s + off) len

/-- The assertion of the dynamic entry at `d` holds. -/
def SymentOk (d : Nat) : Prop := dTag m d = dtSyment → dVal m d = sizeofSym

/-- The dynamic entry at `d`, and the sections its address is looked up in. -/
structure DynamicIn (shead shnum d : Nat) : Prop where
  tag : In d 8
  val : dTag m d ∈ [dtRela, dtRelasz, dtSymtab, dtSyment] → In (d + 8) 8
  sections : dTag m d ∈ [dtRela, dtSymtab] → ScanIn In m 16 8 (dVal m d) shnum shead

/-- The `PT_DYNAMIC` header `p` and its entries, up to one whose assertion fails. -/
structure DynamicSegmentIn (base shead p : Nat) : Prop where
  offset : In (p + 8) 8
  filesz : In (p + 32) 8
  entries : ∀ j < nDynamic (pFilesz m p),
    (∀ k < j, SymentOk m (base + pOffset m p + sizeofDyn * k)) →
      DynamicIn In m shead (eShnum m base) (base + pOffset m p + sizeofDyn * j)

/-- Program headers are looked at up to the first `PT_DYNAMIC` one. -/
def FindDynamicIn (base shead : Nat) : Nat → Nat → Prop :=
  UpTo sizeofPhdr (fun p => pType m p = ptDynamic) fun p =>
    In p 4 ∧ (pType m p = ptDynamic → DynamicSegmentIn In m base shead p)

/-- Choosing the tables. -/
structure TablesIn (base : Nat) : Prop where
  sections : ∀ type ∈ [shtRela, shtSymtab],
    ScanIn In m 4 4 type (eShnum m base) (wrap (base + eShoff m base))
  relaSize :
    elf64FindSectionHeaderType m (wrap (base + eShoff m base)) (eShnum m base) shtRela ≠ 0 →
    In (elf64FindSectionHeaderType m (wrap (base + eShoff m base)) (eShnum m base) shtRela + 32) 8
  phdrs : FindDynamicIn In m base (wrap (base + eShoff m base)) (ePhnum m base)
    (wrap (base + ePhoff m base))

/-- The relocation at `r`, and its symbol. -/
structure EntryIn (symtab symsize r : Nat) : Prop where
  info : In (r + 8) 8
  offset : In r 8
  symbol : rType m r = rX866464 → rSym m r < symsize / sizeofSym →
    In (symtab + sizeofSym * rSym m r + 8) 8 ∧ In (r + 16) 8

/-- The relocation at `r` stores a word. -/
def Stores (symsize r : Nat) : Prop :=
  rType m r = rX866464 ∧ rSym m r < symsize / sizeofSym ∨ rType m r = rX8664Relative

/-- `Q r m'` holds of every relocation `r` the loop gets to, in memory `m'`. -/
def EachEntry (dst src rela size symtab symsize start vbase : Nat) (Q : Nat → Mem → Prop) : Prop :=
  ∀ i < size / sizeofRela, ∀ m',
    Loop.forLoop (relocateEntry (sub64 dst src) (sub64 dst start) rela symtab symsize start vbase)
      i 0 m = .ok m' → Q (rela + sizeofRela * i) m'

/-- `Q` holds of every relocation that is applied to the segment of `p`. -/
def EachSegmentEntry (base : Nat) (t : Tables) (p dest : Nat) (Q : Nat → Mem → Prop) : Prop :=
  EachEntry m (pVaddr m p) (pVaddr m p) (wrap (base + shOffset m t.rela)) t.relaSize
    (wrap (base + shOffset m t.symtab)) (shSize m t.symtab) (pVaddr m p) dest Q

/-- What is read to place the segment of `p` at `dest`. -/
structure PlaceReads (base : Nat) (t : Tables) (p dest : Nat) : Prop where
  offset : In (p + 8) 8
  filesz : In (p + 32) 8
  file : NoOverlap dest (wrap (base + pOffset m p)) (pFilesz m p) →
    In (wrap (base + pOffset m p)) (pFilesz m p) ∧ In (p + 40) 8
  tables : NoOverlap dest (wrap (base + pOffset m p)) (pFilesz m p) → t.rela ≠ 0 ∧ t.symtab ≠ 0 →
    In (p + 16) 8 ∧ In (t.rela + 24) 8 ∧ In (t.symtab + 24) 8 ∧ In (t.symtab + 32) 8
  entries : NoOverlap dest (wrap (base + pOffset m p)) (pFilesz m p) → t.rela ≠ 0 ∧ t.symtab ≠ 0 →
    EachSegmentEntry (filled m base p dest) base t p dest fun r m' =>
      EntryIn In m' (wrap (base + shOffset (filled m base p dest) t.symtab))
        (shSize (filled m base p dest) t.symtab) r

/-- What is written to place the segment of `p` at `dest`. -/
structure PlaceWrites (base : Nat) (t : Tables) (p dest : Nat) : Prop where
  copy : NoOverlap dest (wrap (base + pOffset m p)) (pFilesz m p) → W dest (pFilesz m p)
  fill : NoOverlap dest (wrap (base + pOffset m p)) (pFilesz m p) →
    W (wrap (dest + pFilesz (copied m base p dest) p))
      (sub64 (pMemsz (copied m base p dest) p) (pFilesz (copied m base p dest) p))
  stores : NoOverlap dest (wrap (base + pOffset m p)) (pFilesz m p) → t.rela ≠ 0 ∧ t.symtab ≠ 0 →
    EachSegmentEntry (filled m base p dest) base t p dest fun r m' =>
      Stores m' (shSize (filled m base p dest) t.symtab) r →
        W (sub64 (dest + rOffset m' r) (pVaddr (filled m base p dest) p)) 8

section Load

variable {ε σ : Type} (alloc : Allocator ε σ) (base : Nat) (t : Tables)

/-- What is read in one round of the loop over the program headers. -/
structure SegmentReads (p : Nat) (s : LoadState σ) : Prop where
  type : In p 4
  load : pType s.mem p = ptLoad → In (p + 16) 8 ∧ In (p + 40) 8 ∧ In (p + 4) 4
  place : ∀ dest, Gets alloc p s dest → dest ≠ 0 → PlaceReads In s.mem base t p dest
  tls : pType s.mem p = ptTls → In (p + 16) 8 ∧
    (pVaddr s.mem p ≠ 0 → s.tlsBase = 0 → In (p + 32) 8 ∧ In (p + 40) 8)

/-- What is written in one round of the loop over the program headers. -/
def SegmentWrites (p : Nat) (s : LoadState σ) : Prop :=
  ∀ dest, Gets alloc p s dest → dest ≠ 0 → PlaceWrites W s.mem base t p dest

/-- `Q p s` holds of every program header `p` the loop gets to, in state `s`. -/
def EachHeader (phead : Nat) (s₀ : LoadState σ) (Q : Nat → LoadState σ → Prop) : Prop :=
  ∀ es i s, Lts.Run (HeaderStep alloc base t phead) (0, s₀) es (i, s) →
    i < ePhnum s.mem base → Q (phead + sizeofPhdr * i) s

end Load

end Conditions

variable {P : Access → Prop} {m : Mem}

namespace Logged

/-! ## 1. The header, and finding sections -/

theorem every_read_iff {a n : Nat} : Every P (read m a n) ↔ P (.read a n) := by
  unfold read
  rw [every_emit_bind_iff]
  exact and_iff_left (every_pure _)

theorem every_read_bind_iff {a n : Nat} {α : Type} {f : Nat → Logged α} :
    Every P (read m a n >>= f) ↔ P (.read a n) ∧ Every P (f (readLE m n a)) := by
  rw [every_bind_ok_iff (read_result a n), every_read_iff]

theorem every_assert_bind_iff {p : Prop} [Decidable p] {α : Type} {f : Unit → Logged α} :
    Every P (lift (assert p) >>= f) ↔ (p → Every P (f ())) := by
  rw [every_lift_bind_iff]
  constructor
  · intro h hp
    exact h () (assert_of hp)
  · intro h u hu
    by_cases hp : p
    · exact h hp
    · rw [assert_of_not hp] at hu
      cases hu

theorem every_passes_iff {head : Nat} : ∀ {cs : List Check},
    Every P (passes m head cs) ↔ ChecksIn (OnReads P) m head cs
  | [] => iff_of_true (every_pure true) trivial
  | c :: cs => by
    unfold passes ChecksIn
    rw [every_read_bind_iff]
    refine and_congr_right fun _ => ?_
    by_cases hc : c.ok (readLE m c.len (head + c.off)) = true
    · rw [if_pos hc, every_passes_iff]
      exact ⟨fun h _ => h, fun h => h hc⟩
    · rw [if_neg hc]
      exact iff_of_true (every_pure false) fun h => absurd h hc

theorem every_findSection_iff {off len v : Nat} : ∀ {n s : Nat},
    Every P (findSection m off len v n s) ↔ ScanIn (OnReads P) m off len v n s
  | 0, _ => iff_of_true (every_pure 0) upTo_zero
  | n + 1, s => by
    unfold findSection
    rw [every_read_bind_iff, ScanIn, upTo_succ]
    refine and_congr_right fun _ => ?_
    by_cases hv : readLE m len (s + off) = v
    · rw [if_pos hv]
      exact iff_of_true (every_pure _) fun hne => absurd hv hne
    · rw [if_neg hv, every_findSection_iff]
      exact ⟨fun h _ => h, fun h => h hv⟩

/-! ## 2. Choosing the tables -/

section Tables

variable {base shead p : Nat} {t : Tables}

theorem every_dynamicEntry_iff (hshnum : P (.read (base + 60) 2)) {d : Nat} {s : Dynamic} :
    Every P (dynamicEntry m base shead d s) ↔
      DynamicIn (OnReads P) m shead (eShnum m base) d := by
  have hlookup : ∀ f : Nat → Dynamic,
      Every P (do
        let shnum ← read m (base + 60) 2
        let val ← read m (d + 8) 8
        let sec ← elf64FindSectionHeaderVaddr m shead shnum val
        pure (f sec)) ↔
      P (.read (d + 8) 8) ∧
        ScanIn (OnReads P) m 16 8 (dVal m d) (eShnum m base) shead := by
    intro f
    rw [every_read_bind_iff, every_read_bind_iff, every_bind_iff]
    simp only [hshnum, true_and, every_pure, implies_true, and_true]
    exact and_congr_right fun _ => every_findSection_iff
  have hsplit : DynamicIn (OnReads P) m shead (eShnum m base) d ↔ P (.read d 8) ∧
      (dTag m d ∈ [dtRela, dtRelasz, dtSymtab, dtSyment] → P (.read (d + 8) 8)) ∧
      (dTag m d ∈ [dtRela, dtSymtab] →
        ScanIn (OnReads P) m 16 8 (dVal m d) (eShnum m base) shead) :=
    ⟨fun h => ⟨h.tag, h.val, h.sections⟩, fun h => ⟨h.1, h.2.1, h.2.2⟩⟩
  unfold dynamicEntry
  rw [every_read_bind_iff, hsplit, show readLE m 8 d = dTag m d from rfl]
  refine and_congr_right fun _ => ?_
  by_cases hrela : dTag m d = dtRela
  · rw [if_pos hrela, hlookup]
    simp [hrela]
  rw [if_neg hrela]
  by_cases hrelasz : dTag m d = dtRelasz
  · rw [if_pos hrelasz, every_read_bind_iff]
    simp [hrelasz, dtRela, dtRelasz, dtSymtab]
  rw [if_neg hrelasz]
  by_cases hsymtab : dTag m d = dtSymtab
  · rw [if_pos hsymtab, hlookup]
    simp [hsymtab]
  rw [if_neg hsymtab]
  by_cases hsyment : dTag m d = dtSyment
  · rw [if_pos hsyment, every_read_bind_iff, every_assert_bind_iff]
    simp [hsyment, dtRela, dtSymtab, dtSyment]
  · rw [if_neg hsyment]
    simp [hrela, hrelasz, hsymtab, hsyment]

theorem dynamicEntry_completes_iff {shnum d : Nat} (s : Dynamic) :
    (∃ s', Inky.dynamicEntry m shead shnum d s = .ok s') ↔ SymentOk m d := by
  unfold Inky.dynamicEntry SymentOk
  by_cases hsyment : dTag m d = dtSyment
  · simp only [hsyment, dtSyment, dtRela, dtRelasz, dtSymtab, Nat.reduceEqDiff, if_false, if_true,
      assert_bind_eq_ok_iff, true_imp_iff]
    constructor
    · rintro ⟨-, hsize, -⟩
      exact hsize
    · intro hsize
      exact ⟨s, hsize, rfl⟩
  · simp only [hsyment, if_false, false_imp_iff, iff_true]
    repeat' split
    all_goals exact ⟨_, rfl⟩

theorem every_applyDynamic_iff (hshnum : P (.read (base + 60) 2)) :
    Every P (applyDynamic m base shead p t) ↔
      DynamicSegmentIn (OnReads P) m base shead p := by
  have hend : ∀ d : Dynamic, Every P (do
      if d.newRela ≠ 0 then do
        lift (assert (d.newRelaSize ≠ 0))
        pure ⟨d.newRela, d.newRelaSize, d.symtab⟩
      else pure { t with symtab := d.symtab } : Logged Tables) := by
    intro d
    split
    · rw [every_assert_bind_iff]
      exact fun _ => every_pure _
    · exact every_pure _
  unfold applyDynamic
  rw [every_read_bind_iff, every_read_bind_iff, every_bind_iff, every_forLoop_iff]
  simp only [hend, implies_true, and_true, dynamicEntry_result, Nat.zero_add,
    every_dynamicEntry_iff hshnum]
  have hloop : ∀ k, (∃ d, Loop.forLoop (fun j => Inky.dynamicEntry m shead (eShnum m base)
      (base + pOffset m p + sizeofDyn * j)) k 0 ⟨0, 0, t.symtab⟩ = .ok d) ↔
      ∀ j < k, SymentOk m (base + pOffset m p + sizeofDyn * j) := by
    intro k
    have hrounds := Loop.forLoop_completes_iff (n := k) (i := 0) (s := ⟨0, 0, t.symtab⟩)
      fun j s => (dynamicEntry_completes_iff s : (∃ s', Inky.dynamicEntry m shead (eShnum m base)
        (base + pOffset m p + sizeofDyn * j) s = .ok s') ↔ _)
    simpa only [Nat.zero_add] using hrounds
  constructor
  · rintro ⟨hoff, hsz, h⟩
    refine ⟨hoff, hsz, fun j hj hbefore => ?_⟩
    obtain ⟨d, hd⟩ := (hloop j).mpr hbefore
    exact h j hj d hd
  · rintro ⟨hoff, hsz, h⟩
    refine ⟨hoff, hsz, fun j hj d hd => ?_⟩
    exact h j hj ((hloop j).mp ⟨d, hd⟩)

theorem every_findDynamic_iff (hshnum : P (.read (base + 60) 2))
    (hphnum : P (.read (base + 56) 2)) : ∀ {n p : Nat},
    Every P (findDynamic m base shead n p t) ↔
      FindDynamicIn (OnReads P) m base shead n p
  | 0, p => by
    unfold findDynamic
    rw [every_read_bind_iff]
    exact iff_of_true ⟨hphnum, every_pure t⟩ upTo_zero
  | n + 1, p => by
    unfold findDynamic
    rw [every_read_bind_iff, every_read_bind_iff, FindDynamicIn, upTo_succ, and_assoc]
    refine (and_iff_right hphnum).trans (and_congr_right fun _ => ?_)
    rw [show readLE m 4 p = pType m p from rfl]
    by_cases htype : pType m p = ptDynamic
    · rw [if_pos htype, every_applyDynamic_iff hshnum]
      exact ⟨fun h => ⟨fun _ => h, fun hne => absurd htype hne⟩, fun h => h.1 htype⟩
    · rw [if_neg htype, every_findDynamic_iff hshnum hphnum]
      exact ⟨fun h => ⟨fun he => absurd he htype, fun _ => h⟩, fun h => h.2 htype⟩

theorem every_findType_bind_iff {shdr entries type : Nat} {α : Type} {f : Nat → Logged α} :
    Every P (elf64FindSectionHeaderType m shdr entries type >>= f) ↔
      ScanIn (OnReads P) m 4 4 type entries shdr ∧
        Every P (f (Inky.elf64FindSectionHeaderType m shdr entries type)) := by
  rw [every_bind_ok_iff (findType_result shdr entries type)]
  exact and_congr_left fun _ => every_findSection_iff

/-- **Choosing the tables**, when the header is in up to `e_shnum`. -/
theorem every_selectTables_iff (hhead : ∀ o n, o + n ≤ 62 → P (.read (base + o) n)) :
    Every P (selectTables m base) ↔ TablesIn (OnReads P) m base := by
  have hshnum := hhead 60 2 (by decide)
  have hphoff := hhead 32 8 (by decide)
  have hfind : ∀ {shead p : Nat} {t : Tables},
      Every P (findDynamic m base shead (ePhnum m base) p t) ↔
        FindDynamicIn (OnReads P) m base shead (ePhnum m base) p :=
    every_findDynamic_iff hshnum (hhead 56 2 (by decide))
  have hsections : (∀ type ∈ [shtRela, shtSymtab],
      ScanIn (OnReads P) m 4 4 type (eShnum m base) (wrap (base + eShoff m base))) ↔
      ScanIn (OnReads P) m 4 4 shtRela (eShnum m base) (wrap (base + eShoff m base)) ∧
        ScanIn (OnReads P) m 4 4 shtSymtab (eShnum m base) (wrap (base + eShoff m base)) := by
    rw [List.forall_mem_cons, List.forall_mem_singleton]
  unfold selectTables
  rw [every_read_bind_iff, every_read_bind_iff, every_findType_bind_iff, every_read_bind_iff,
    every_findType_bind_iff, show readLE m 8 (base + 40) = eShoff m base from rfl,
    show readLE m 2 (base + 60) = eShnum m base from rfl]
  constructor
  · rintro ⟨-, -, hrela, -, hsymtab, h⟩
    split at h
    case isTrue hne =>
      rw [every_read_bind_iff, every_read_bind_iff, hfind] at h
      exact ⟨hsections.mpr ⟨hrela, hsymtab⟩, fun _ => h.1, h.2.2⟩
    case isFalse heq =>
      rw [every_bind_ok_iff (pure_result 0), every_read_bind_iff, hfind] at h
      exact ⟨hsections.mpr ⟨hrela, hsymtab⟩, fun hne => absurd hne heq, h.2.2⟩
  · rintro ⟨hall, hsize, hphdrs⟩
    obtain ⟨hrela, hsymtab⟩ := hsections.mp hall
    refine ⟨hhead 40 8 (by decide), hshnum, hrela, hshnum, hsymtab, ?_⟩
    split
    case isTrue hne =>
      rw [every_read_bind_iff, every_read_bind_iff, hfind]
      exact ⟨hsize hne, hphoff, hphdrs⟩
    case isFalse =>
      rw [every_bind_ok_iff (pure_result 0), every_read_bind_iff, hfind]
      exact ⟨every_pure 0, hphoff, hphdrs⟩

end Tables

/-! ## 3. Relocation -/

section Place

variable {base : Nat} {t : Tables} {p dest : Nat}

theorem every_relocateEntry_iff {b abase rela symtab symsize start vbase i : Nat} :
    Every P (relocateEntry b abase rela symtab symsize start vbase i m) ↔
      EntryIn (OnReads P) m symtab symsize (rela + sizeofRela * i) ∧
        (Stores m symsize (rela + sizeofRela * i) →
          P (.write (sub64 (vbase + rOffset m (rela + sizeofRela * i)) start) 8)) := by
  unfold relocateEntry
  dsimp only
  rw [every_read_bind_iff, every_read_bind_iff]
  generalize rela + sizeofRela * i = r
  have hsplit : EntryIn (OnReads P) m symtab symsize r ↔ P (.read (r + 8) 8) ∧ P (.read r 8) ∧
      (rType m r = rX866464 → rSym m r < symsize / sizeofSym →
        P (.read (symtab + sizeofSym * rSym m r + 8) 8) ∧ P (.read (r + 16) 8)) :=
    ⟨fun h => ⟨h.info, h.offset, h.symbol⟩, fun h => ⟨h.1, h.2.1, h.2.2⟩⟩
  rw [hsplit, and_assoc, and_assoc, show readLE m 8 (r + 8) % 4294967296 = rType m r from rfl,
    show readLE m 8 r = rOffset m r from rfl]
  refine and_congr_right fun hinfo => and_congr_right fun _ => ?_
  unfold Stores
  by_cases hnone : rType m r = rX8664None
  · rw [if_pos hnone]
    simp [hnone, rX8664None, rX866464, rX8664Relative]
  rw [if_neg hnone]
  by_cases h64 : rType m r = rX866464
  · rw [if_pos h64, every_read_bind_iff, every_assert_bind_iff,
      show readLE m 8 (r + 8) / 4294967296 = rSym m r from rfl]
    simp only [every_read_bind_iff, every_emit_bind_iff, every_pure, and_true, h64, true_imp_iff,
      true_and]
    constructor
    · rintro ⟨-, h⟩
      refine ⟨fun hs => ⟨(h hs).1, (h hs).2.1⟩, ?_⟩
      rintro (hs | hrel)
      · exact (h hs).2.2
      · exact absurd hrel (by decide)
    · rintro ⟨hread, hwrite⟩
      exact ⟨hinfo, fun hs => ⟨(hread hs).1, (hread hs).2, hwrite (Or.inl hs)⟩⟩
  rw [if_neg h64]
  by_cases hrel : rType m r = rX8664Relative
  · rw [if_pos hrel, every_emit_bind_iff]
    simp [hrel, rX866464, rX8664Relative]
  · rw [if_neg hrel]
    simp [h64, hrel]

theorem every_relocate_iff {dst src rela size symtab symsize start vbase : Nat} :
    Every P (elf64Relocate dst src rela size symtab symsize start vbase m) ↔
      EachEntry m dst src rela size symtab symsize start vbase fun r m' =>
        EntryIn (OnReads P) m' symtab symsize r ∧
          (Stores m' symsize r → P (.write (sub64 (vbase + rOffset m' r) start) 8)) := by
  unfold elf64Relocate EachEntry
  rw [every_forLoop_iff]
  simp only [relocateEntry_result, Nat.zero_add, every_relocateEntry_iff]

/-! ## 4. Segments -/

theorem every_memcpy_bind_iff {dst src len : Nat} {α : Type} {f : Mem → Logged α} :
    Every P (memcpy dst src len m >>= f) ↔ (NoOverlap dst src len →
      P (.read src len) ∧ P (.write dst len) ∧ Every P (f (copy len dst src m))) := by
  by_cases h : NoOverlap dst src len
  · have hres : (memcpy dst src len m).result = .ok (copy len dst src m) := by
      rw [memcpy_result, memcpy_of_noOverlap h]
    rw [every_bind_ok_iff hres, and_assoc.symm]
    unfold memcpy
    rw [every_assert_bind_iff, every_emit_bind_iff, every_emit_bind_iff]
    simp only [h, true_imp_iff, every_pure, and_true]
  · refine iff_of_true ?_ fun h' => absurd h' h
    rw [every_bind_iff, memcpy_result, memcpy_of_overlap h]
    constructor
    · unfold memcpy
      rw [every_assert_bind_iff]
      exact fun h' => absurd h' h
    · intro _ he
      cases he

theorem every_memset_bind_iff {a n : Nat} {c : UInt8} {α : Type} {f : Mem → Logged α} :
    Every P (memset a c n m >>= f) ↔ P (.write a n) ∧ Every P (f (fill c n a m)) := by
  have hres : (memset a c n m).result = .ok (fill c n a m) := rfl
  rw [every_bind_ok_iff hres]
  unfold memset
  rw [every_emit_bind_iff]
  exact and_congr_left fun _ => and_iff_left (every_pure _)

/-- The relocations of a segment that is copied and filled. -/
theorem every_relocateSegment_iff :
    Every P (if t.rela ≠ 0 ∧ t.symtab ≠ 0 then do
        let vaddr ← read m (p + 16) 8
        let relaOffset ← read m (t.rela + 24) 8
        let symOffset ← read m (t.symtab + 24) 8
        let symSize ← read m (t.symtab + 32) 8
        elf64Relocate vaddr vaddr (wrap (base + relaOffset)) t.relaSize (wrap (base + symOffset))
          symSize vaddr dest m
      else pure m) ↔
    (t.rela ≠ 0 ∧ t.symtab ≠ 0 →
      P (.read (p + 16) 8) ∧ P (.read (t.rela + 24) 8) ∧ P (.read (t.symtab + 24) 8) ∧
        P (.read (t.symtab + 32) 8)) ∧
    (t.rela ≠ 0 ∧ t.symtab ≠ 0 → EachSegmentEntry m base t p dest fun r m' =>
      EntryIn (OnReads P) m' (wrap (base + shOffset m t.symtab)) (shSize m t.symtab) r) ∧
    (t.rela ≠ 0 ∧ t.symtab ≠ 0 → EachSegmentEntry m base t p dest fun r m' =>
      Stores m' (shSize m t.symtab) r →
        P (.write (sub64 (dest + rOffset m' r) (pVaddr m p)) 8)) := by
  by_cases ht : t.rela ≠ 0 ∧ t.symtab ≠ 0
  · rw [if_pos ht, every_read_bind_iff, every_read_bind_iff, every_read_bind_iff,
      every_read_bind_iff, every_relocate_iff]
    simp only [ht, true_imp_iff, ne_eq, not_false_eq_true, and_self]
    constructor
    · rintro ⟨hvaddr, hrela, hoff, hsize, h⟩
      exact ⟨⟨hvaddr, hrela, hoff, hsize⟩, fun i hi m' hm => (h i hi m' hm).1,
        fun i hi m' hm => (h i hi m' hm).2⟩
    · rintro ⟨⟨hvaddr, hrela, hoff, hsize⟩, hin, hout⟩
      exact ⟨hvaddr, hrela, hoff, hsize, fun i hi m' hm => ⟨hin i hi m' hm, hout i hi m' hm⟩⟩
  · rw [if_neg ht]
    exact iff_of_true (every_pure m)
      ⟨fun h => absurd h ht, fun h => absurd h ht, fun h => absurd h ht⟩

/-- **Placing a segment.** -/
theorem every_placeSegment_iff : Every P (placeSegment base t p dest m) ↔
    PlaceReads (OnReads P) m base t p dest ∧ PlaceWrites (OnWrites P) m base t p dest := by
  unfold placeSegment
  simp only [every_read_bind_iff, every_memcpy_bind_iff, every_memset_bind_iff,
    every_relocateSegment_iff]
  constructor
  · rintro ⟨hoff, hsz, h⟩
    exact ⟨⟨hoff, hsz, fun hno => ⟨(h hno).1, (h hno).2.2.2.1⟩,
        fun hno => (h hno).2.2.2.2.2.1, fun hno => (h hno).2.2.2.2.2.2.1⟩,
      ⟨fun hno => (h hno).2.1, fun hno => (h hno).2.2.2.2.1,
        fun hno => (h hno).2.2.2.2.2.2.2⟩⟩
  · rintro ⟨R, W⟩
    exact ⟨R.offset, R.filesz, fun hno => ⟨(R.file hno).1, W.copy hno, R.filesz, (R.file hno).2,
      W.fill hno, R.tables hno, R.entries hno, W.stores hno⟩⟩

end Place

section Load

variable {ε σ : Type} {alloc : Allocator ε σ} {base p : Nat} {t : Tables} {s : LoadState σ}

/-- What is written, read and handed out for a segment. -/
theorem every_load_iff (hload : pType s.mem p = ptLoad) :
    Every P (do
      match alloc s.alloc (pVaddr s.mem p) (pMemsz s.mem p) (pFlags s.mem p) with
      | .error e => pure (s, some (.allocate e))
      | .ok (dest, a) => do
        emit (.given dest (pMemsz s.mem p))
        lift (assert (dest ≠ 0))
        let m ← placeSegment base t p dest s.mem
        pure ({ s with mem := m, alloc := a }, none) :
        Logged (LoadState σ × Option (ElfErr ε))) ↔
      ∀ dest, Gets alloc p s dest → P (.given dest (pMemsz s.mem p)) ∧
        (dest ≠ 0 → PlaceReads (OnReads P) s.mem base t p dest ∧
          PlaceWrites (OnWrites P) s.mem base t p dest) := by
  unfold Gets
  cases halloc : alloc s.alloc (pVaddr s.mem p) (pMemsz s.mem p) (pFlags s.mem p) with
  | error e =>
    refine iff_of_true (every_pure _) ?_
    rintro dest ⟨-, a, ha⟩
    cases ha
  | ok r =>
    obtain ⟨dest, a⟩ := r
    dsimp only
    rw [every_emit_bind_iff, every_assert_bind_iff]
    simp only [every_bind_iff, every_pure, implies_true, and_true, every_placeSegment_iff]
    constructor
    · rintro h _ ⟨-, _, he⟩
      cases he
      exact h
    · intro h
      exact h dest ⟨hload, a, rfl⟩

/-- **One round of the loop over the program headers.** -/
theorem every_loadSegment_iff : Every P (loadSegment alloc base t p s) ↔
    SegmentReads (OnReads P) alloc base t p s ∧ SegmentWrites (OnWrites P) alloc base t p s ∧
      ∀ dest, Gets alloc p s dest → P (.given dest (pMemsz s.mem p)) := by
  unfold loadSegment
  rw [every_read_bind_iff, show readLE s.mem 4 p = pType s.mem p from rfl]
  by_cases hload : pType s.mem p = ptLoad
  · have hnot : pType s.mem p ≠ ptTls := by
      rw [hload]
      decide
    rw [if_pos hload, every_read_bind_iff, every_read_bind_iff, every_read_bind_iff]
    constructor
    · rintro ⟨htype, hvaddr, hmemsz, hflags, h⟩
      have h := (every_load_iff hload).mp h
      exact ⟨⟨htype, fun _ => ⟨hvaddr, hmemsz, hflags⟩, fun d hd hne => ((h d hd).2 hne).1,
          fun htls => absurd htls hnot⟩,
        fun d hd hne => ((h d hd).2 hne).2, fun d hd => (h d hd).1⟩
    · rintro ⟨R, hwrites, hgiven⟩
      obtain ⟨hvaddr, hmemsz, hflags⟩ := R.load hload
      refine ⟨R.type, hvaddr, hmemsz, hflags, (every_load_iff hload).mpr fun d hd => ?_⟩
      exact ⟨hgiven d hd, fun hne => ⟨R.place d hd hne, hwrites d hd hne⟩⟩
  · have hnone : ∀ d, ¬ Gets alloc p s d := fun d hd => hload hd.1
    rw [if_neg hload]
    by_cases htls : pType s.mem p = ptTls
    · rw [if_pos htls, every_read_bind_iff, every_assert_bind_iff, every_assert_bind_iff,
        every_read_bind_iff, every_read_bind_iff, every_read_bind_iff]
      constructor
      · rintro ⟨htype, hvaddr, h⟩
        exact ⟨⟨htype, fun h => absurd h hload, fun d hd => absurd hd (hnone d),
            fun _ => ⟨hvaddr, fun hne h0 => ⟨(h hne h0).2.1, (h hne h0).2.2.1⟩⟩⟩,
          fun d hd => absurd hd (hnone d), fun d hd => absurd hd (hnone d)⟩
      · rintro ⟨R, -, -⟩
        obtain ⟨hvaddr, h⟩ := R.tls htls
        exact ⟨R.type, hvaddr, fun hne h0 =>
          ⟨hvaddr, (h hne h0).1, (h hne h0).2, every_pure _⟩⟩
    · rw [if_neg htls]
      constructor
      · rintro ⟨htype, -⟩
        exact ⟨⟨htype, fun h => absurd h hload, fun d hd => absurd hd (hnone d),
            fun h => absurd h htls⟩,
          fun d hd => absurd hd (hnone d), fun d hd => absurd hd (hnone d)⟩
      · rintro ⟨R, -, -⟩
        exact ⟨R.type, every_pure _⟩

/-- **The loop over the program headers**, from the `i`th on: every round it gets to counts,
from the state it is reached in. -/
theorem every_loadSegments_iff {phead : Nat} (i : Nat) (s : LoadState σ) :
    Every P (loadSegments alloc base t phead i s) ↔
      P (.read (base + 56) 2) ∧ ∀ es k s',
        Lts.Run (HeaderStep alloc base t phead) (i, s) es (k, s') → k < ePhnum s'.mem base →
          Every P (loadSegment alloc base t (phead + sizeofPhdr * k) s') := by
  have hstep : i < ePhnum s.mem base → (Every P (loadSegments alloc base t phead i s) ↔
      P (.read (base + 56) 2) ∧ Every P (loadSegment alloc base t (phead + sizeofPhdr * i) s) ∧
        ∀ s', Inky.loadSegment alloc base t (phead + sizeofPhdr * i) s = .ok (s', none) →
          Every P (loadSegments alloc base t phead (i + 1) s')) := by
    intro hi
    rw [loadSegments, every_emit_bind_iff, if_pos hi, every_bind_iff, loadSegment_result]
    refine and_congr_right fun _ => and_congr_right fun _ => ⟨fun h s' hs' => h _ hs', ?_⟩
    rintro h ⟨s', e⟩ hs'
    cases e with
    | some e => exact every_pure _
    | none => exact h s' hs'
  by_cases hi : i < ePhnum s.mem base
  · have := ePhnum_lt s.mem base
    rw [hstep hi]
    constructor
    · rintro ⟨hphnum, hround, hrest⟩
      refine ⟨hphnum, ?_⟩
      rintro es k s' hrun hk
      cases hrun with
      | refl => exact hround
      | cons h1 h2 =>
        rename_i q _ _
        obtain ⟨j, s₁⟩ := q
        obtain ⟨-, hload, rfl⟩ := h1
        exact ((every_loadSegments_iff (i + 1) s₁).mp (hrest s₁ hload)).2 _ k s' h2 hk
    · rintro ⟨hphnum, h⟩
      refine ⟨hphnum, h [] i s (Lts.Run.refl _) hi, fun s₁ hload => ?_⟩
      refine (every_loadSegments_iff (i + 1) s₁).mpr ⟨hphnum, fun es k s' hrun hk => ?_⟩
      exact h (() :: es) k s' (Lts.Run.cons ⟨hi, hload, rfl⟩ hrun) hk
  · rw [loadSegments, every_emit_bind_iff, if_neg hi]
    refine and_congr_right fun _ => iff_of_true (every_pure _) ?_
    rintro es k s' hrun hk
    cases hrun with
    | refl => exact absurd hk hi
    | cons h1 h2 => exact absurd h1.1 hi
termination_by 65536 - i

theorem every_proghdrOk_iff {size : Nat} : Every P (proghdrOk m base size) ↔
    P (.read (base + 32) 8) ∧ P (.read (base + 54) 2) ∧ P (.read (base + 56) 2) := by
  unfold proghdrOk
  rw [every_read_bind_iff, every_read_bind_iff, every_read_bind_iff]
  refine and_congr_right fun _ => and_congr_right fun hphentsize => and_iff_left ?_
  split
  · rw [every_read_bind_iff]
    exact ⟨hphentsize, every_pure _⟩
  · exact every_pure _

/-- **The whole of `elf64_load`.** -/
theorem every_elf64Load_iff {emMachine size : Nat} {state : σ} :
    Every P (elf64Load emMachine alloc state base size m) ↔ (size = 0 → P .bad) ∧ (size ≠ 0 →
      ChecksIn (OnReads P) m base (headerChecks emMachine) ∧
      (HeaderOk m base emMachine →
        (P (.read (base + 32) 8) ∧ P (.read (base + 54) 2) ∧ P (.read (base + 56) 2)) ∧
        (ProghdrOk m base size → Every P (selectTables m base) ∧
          ∀ t, Inky.selectTables m base = .ok t →
            Every P (loadSegments alloc base t (wrap (base + ePhoff m base)) 0
              ⟨m, state, 0, 0, 0⟩) ∧
            ∀ s, Inky.loadSegments alloc base t (wrap (base + ePhoff m base)) 0
              ⟨m, state, 0, 0, 0⟩ = .ok (s, none) → P (.read (base + 24) 8)))) := by
  unfold elf64Load
  dsimp only
  by_cases hsize : size = 0
  · rw [if_pos hsize, every_emit_bind_iff]
    exact ⟨fun h => ⟨fun _ => h.1, fun hne => absurd hsize hne⟩,
      fun h => ⟨h.1 hsize, every_pure _⟩⟩
  rw [if_neg hsize, every_bind_ok_iff (passes_result base _), every_passes_iff]
  simp only [hsize, false_imp_iff, true_and, ne_eq, not_false_eq_true, true_imp_iff]
  refine and_congr_right fun _ => ?_
  by_cases hhead : HeaderOk m base emMachine
  swap
  · rw [if_pos (mt headerChecks_iff.mp hhead)]
    exact iff_of_true (every_pure _) fun h => absurd h hhead
  rw [if_neg (not_not.mpr (headerChecks_iff.mpr hhead)),
    every_bind_ok_iff (proghdrOk_result base size), every_proghdrOk_iff]
  simp only [hhead, true_imp_iff]
  refine and_congr_right fun _ => ?_
  by_cases hprog : ProghdrOk m base size
  swap
  · rw [if_pos (by simpa using hprog)]
    exact iff_of_true (every_pure _) fun h => absurd h hprog
  rw [if_neg (by simpa using hprog), every_bind_iff, selectTables_result]
  simp only [hprog, true_imp_iff]
  refine and_congr_right fun _ => forall_congr' fun t => forall_congr' fun _ => ?_
  rw [every_bind_iff, loadSegments_result]
  refine and_congr_right fun _ => ⟨fun h s hs => ?_, ?_⟩
  · have := h (s, none) hs
    rw [every_read_bind_iff] at this
    exact this.1
  · rintro h ⟨s, e⟩ hs
    cases e with
    | some e => exact every_pure _
    | none =>
      rw [every_read_bind_iff]
      exact ⟨h s hs, every_pure _⟩

end Load

end Logged

end Philix.Inky
