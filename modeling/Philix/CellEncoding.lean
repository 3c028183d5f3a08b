/-
# Cells on the way to the host

The device packs a character and the colour into a cell; the host takes the low byte for the
character and the high byte for the colour.  `make_vgaentry` extends the sign of the character,
so a byte from 128 on fills the colour with ones.  Every cell that the host can see was made by
`make_vgaentry` with the terminal's colour (`Encodes`), so this is all that can go wrong: the
cells survive exactly when no such byte is left among them.
-/
import Philix.Display

namespace Philix

open Console Winky HalfRing Loop
open Mailbox (Post)

/-- A cell as the host decodes it: its character and its colour. -/
def decodeCell (entry : UInt16) : UInt8 × UInt8 := (cellChar entry, (entry >>> 8).toUInt8)

def decodeLine (line : Line) : Fin 80 → UInt8 × UInt8 := fun j => decodeCell (line j)

/-- The characters of a row, each with the colour. -/
def coloured (color : UInt8) (row : Fin 80 → UInt8) : Fin 80 → UInt8 × UInt8 :=
  fun j => (row j, color)

/-! ## 1. One cell -/

theorem highByte_makeVgaentry (c color : UInt8) :
    (makeVgaentry c color >>> 8).toUInt8 = if c.toBitVec.msb then 255 else color := by
  apply UInt8.toBitVec_inj.mp
  have hchar : (c.toInt8.toInt16.toUInt16).toBitVec = c.toBitVec.signExtend 16 := rfl
  have hcolor : (color.toUInt16 <<< 8).toBitVec = color.toBitVec.setWidth 16 <<< 8 := rfl
  simp only [makeVgaentry, UInt16.toBitVec_toUInt8, UInt16.toBitVec_shiftRight,
    UInt16.toBitVec_or, hchar, hcolor]
  ext i hi
  have hin : 8 + i < 16 := by omega
  have hsign : (BitVec.signExtend 16 c.toBitVec)[8 + i] = c.toBitVec.msb := by
    rw [BitVec.getElem_signExtend, dif_neg (by omega)]
  cases hm : c.toBitVec.msb with
  | true =>
    have hones : (255#8)[i] = true := BitVec.getElem_allOnes i hi
    simp [hm ▸ hsign, hin, hones]
  | false => simp [hm ▸ hsign, hin, hi]

theorem msb_iff (c : UInt8) : c.toBitVec.msb = true ↔ ¬ c < 128 := by
  rw [BitVec.msb_eq_decide, decide_eq_true_eq, UInt8.lt_iff_toNat_lt]
  show 128 ≤ c.toNat ↔ ¬ c.toNat < 128
  omega

/-- **A cell decodes to what it was made from** iff the byte is below 128; the exception is the
colour that is all ones anyway. -/
theorem decodeCell_makeVgaentry {c color : UInt8} (hcolor : color ≠ 255) :
    decodeCell (makeVgaentry c color) = (c, color) ↔ c < 128 := by
  rw [decodeCell, cellChar_makeVgaentry, highByte_makeVgaentry, Prod.mk.injEq]
  by_cases hm : c.toBitVec.msb = true
  · have hc := (msb_iff c).mp hm
    rw [if_pos hm]
    exact ⟨fun h => absurd h.2.symm hcolor, fun h => absurd h hc⟩
  · have hc : c < 128 := not_not.mp fun h => hm ((msb_iff c).mpr h)
    rw [if_neg hm]
    exact ⟨fun _ => hc, fun _ => ⟨rfl, rfl⟩⟩

/-! ## 2. Every cell of the framebuffer -/

/-- A cell made with the colour. -/
def MadeWith (color : UInt8) (entry : UInt16) : Prop := entry = makeVgaentry (cellChar entry) color

theorem madeWith_makeVgaentry (c color : UInt8) : MadeWith color (makeVgaentry c color) := by
  rw [MadeWith, cellChar_makeVgaentry]

/-- All cells of a framebuffer are. -/
def AllMadeWith (color : UInt8) (fb : Framebuffer) : Prop :=
  ∀ k < vgaHeight * vgaWidth, MadeWith color (fb k)

theorem AllMadeWith.scrolled {color : UInt8} {fb : Framebuffer} (h : AllMadeWith color fb) :
    AllMadeWith color (scrolled fb (blank color)) := by
  intro k hk
  rw [Winky.scrolled]
  by_cases hup : k < (vgaHeight - 1) * vgaWidth
  · rw [if_pos hup]
    exact h _ (by simp only [vgaHeight, vgaWidth] at *; omega)
  · rw [if_neg hup, if_pos hk]
    exact madeWith_makeVgaentry _ _

/-- The colour is the one of `term_init`, and every cell of the framebuffer has it, now and at
each post. -/
structure Encodes (t : Term) : Prop where
  color : t.color = makeColor colorLightGrey colorBlack
  buf : AllMadeWith t.color t.buf
  posts : ∀ x ∈ t.posts, AllMadeWith t.color x.2

section Device

variable {t t' : Term} {fb : Framebuffer}

theorem encodes_termInit (h : termInit fb = .ok t) : Encodes t := by
  rw [termInit_eq] at h
  obtain rfl := Except.ok.inj h
  have hbuf : AllMadeWith (makeColor colorLightGrey colorBlack)
      (fill fb 0 (vgaHeight * vgaWidth) (blank (makeColor colorLightGrey colorBlack))) := by
    intro k hk
    rw [fill, if_pos ⟨Nat.zero_le k, by omega⟩]
    exact madeWith_makeVgaentry _ _
  refine ⟨rfl, hbuf, ?_⟩
  intro x hx
  obtain rfl := List.mem_singleton.mp hx
  exact hbuf

theorem Encodes.store {c : UInt8} {index : Nat} (E : Encodes t)
    (h : t.store index (makeVgaentry c t.color) = .ok t') : Encodes t' := by
  unfold Term.store at h
  split at h
  case isTrue =>
    obtain rfl := Except.ok.inj h
    refine ⟨E.color, ?_, E.posts⟩
    intro k hk
    by_cases hat : k = index
    · subst hat
      simp only [Function.update_self]
      exact madeWith_makeVgaentry _ _
    · simp only [Function.update_of_ne hat]
      exact E.buf k hk
  case isFalse => cases h

theorem Encodes.endLine (E : Encodes t) (h : endLine t = .ok t') : Encodes t' := by
  rw [endLine_eq] at h
  obtain rfl := Except.ok.inj h
  have hscrolled := E.buf.scrolled
  split
  · refine ⟨E.color, hscrolled, ?_⟩
    intro x hx
    rcases List.mem_append.mp hx with hx | hx
    · exact E.posts x hx
    · simp only [List.mem_cons, List.not_mem_nil, or_false] at hx
      rcases hx with rfl | rfl | rfl
      · exact E.buf
      · exact E.buf
      · exact hscrolled
  · refine ⟨E.color, E.buf, ?_⟩
    intro x hx
    rcases List.mem_append.mp hx with hx | hx
    · exact E.posts x hx
    · obtain rfl := List.mem_singleton.mp hx
      exact E.buf

/-- **The step lemma: one byte.** -/
theorem Encodes.put {c : UInt8} (E : Encodes t) (h : putchar c t = .ok t') : Encodes t' := by
  unfold putchar at h
  split at h
  · exact E.endLine h
  · obtain ⟨t₁, h₁, h⟩ := bind_eq_ok_iff.mp h
    have E₁ : Encodes t₁ := E.store h₁
    have E₂ : Encodes { t₁ with col := t₁.col + 1 } := ⟨E₁.color, E₁.buf, E₁.posts⟩
    dsimp only at h
    split at h
    · exact E₂.endLine h
    · obtain rfl := Except.ok.inj h
      exact E₂

/-- The run lemma: any bytes. -/
theorem Encodes.puts : ∀ {cs : List UInt8} {t : Term}, Encodes t → putchars cs t = .ok t' →
    Encodes t'
  | [], _, E, h => by
    obtain rfl := Except.ok.inj h
    exact E
  | _ :: _, _, E, h => by
    obtain ⟨_, h₁, h⟩ := bind_eq_ok_iff.mp h
    exact (E.put h₁).puts h

theorem Encodes.calls : ∀ {calls : List Call} {t : Term}, Encodes t →
    calls.foldlM (fun t call => call.run t) t = .ok t' → Encodes t'
  | [], _, E, h => by
    obtain rfl := Except.ok.inj h
    exact E
  | call :: calls, t, E, h => by
    rw [List.foldlM_cons] at h
    obtain ⟨t₁, h₁, h⟩ := bind_eq_ok_iff.mp h
    rw [call_run_eq] at h₁
    exact (E.puts h₁).calls h

theorem deviceRun_encodes {calls : List Call} (h : deviceRun fb calls = .ok t) : Encodes t := by
  obtain ⟨t₀, h₀, h⟩ := bind_eq_ok_iff.mp h
  exact (encodes_termInit h₀).calls h

end Device

/-! ## 3. Every cell the host has -/

/-- The rows the host has: the saved lines, oldest first, then those of the framebuffer. -/
def hostRows (l : List (Addr × Line)) (fb : Framebuffer) : List Line :=
  l.reverse.map Prod.snd ++ (List.range vgaHeight).map (fbLine fb)

/-- The rows of a sheet that are still in the history or on the screen. -/
def keptRows (S : Sheet) : List (Fin 80 → UInt8) := S.lines.drop (S.above - maxHistLines)

/-- The rows decode to the bytes of the sheet, each with the colour. -/
def Survives (rows : List Line) (S : Sheet) (color : UInt8) : Prop :=
  rows.map decodeLine = (keptRows S).map (coloured color)

section Host

variable {t : Term} {S : Sheet} {more : List (Addr × Line)}

theorem madeWith_fbLine {color : UInt8} {fb : Framebuffer} (h : AllMadeWith color fb) {i : Nat}
    (hi : i < vgaHeight) (j : Fin 80) : MadeWith color (fbLine fb i j) := by
  have hj := j.isLt
  refine h _ ?_
  simp only [vgaHeight, vgaWidth, phiFbWidth] at *
  omega

/-- A saved line is the first row of the framebuffer at some post. -/
theorem madeWith_hostRows (E : Encodes t) (hmore : more.map Prod.snd = scrolledLines t.posts) :
    ∀ r ∈ hostRows (newest more) t.buf, ∀ j, MadeWith t.color (r j) := by
  intro r hr j
  rcases List.mem_append.mp hr with hr | hr
  · obtain ⟨x, hx, rfl⟩ := List.mem_map.mp hr
    have hmem : x.2 ∈ scrolledLines t.posts := by
      rw [← hmore]
      exact List.mem_map_of_mem
        (List.mem_reverse.mp (List.mem_of_mem_take (List.mem_reverse.mp hx)))
    obtain ⟨y, hy, hline⟩ := List.mem_filterMap.mp hmem
    split at hline
    · rw [← Option.some.inj hline]
      exact madeWith_fbLine (E.posts y hy) (by decide) j
    · cases hline
  · obtain ⟨i, hi, rfl⟩ := List.mem_map.mp hr
    exact madeWith_fbLine E.buf (List.mem_range.mp hi) j

theorem hostRows_chars (W : Window t S) (hmore : more.map Prod.snd = scrolledLines t.posts) :
    (hostRows (newest more) t.buf).map lineChars = keptRows S := by
  rw [keptRows, ← transcript_chars W hmore, hostRows, List.map_append, List.map_map, List.map_map]
  rfl

/-- Rows made with a colour decode to their characters with it, iff the characters are below
128. -/
theorem map_decode_iff {color : UInt8} (hcolor : color ≠ 255) : ∀ {rows : List Line},
    (∀ r ∈ rows, ∀ j, MadeWith color (r j)) →
    (rows.map decodeLine = (rows.map lineChars).map (coloured color) ↔
      ∀ r ∈ rows.map lineChars, ∀ j, r j < 128)
  | [], _ => by simp only [List.map_nil, List.not_mem_nil, false_implies, implies_true]
  | r :: rows, h => by
    have ih := map_decode_iff hcolor fun r hr => h r (List.mem_cons_of_mem _ hr)
    have hr := h r List.mem_cons_self
    have hrow : decodeLine r = coloured color (lineChars r) ↔ ∀ j, lineChars r j < 128 := by
      rw [funext_iff]
      refine forall_congr' fun j => ?_
      have hcell : decodeLine r j = decodeCell (makeVgaentry (lineChars r j) color) :=
        congrArg decodeCell (hr j)
      rw [hcell]
      exact decodeCell_makeVgaentry hcolor
    simp only [List.map_cons, List.cons.injEq, List.forall_mem_cons, hrow, ih]

/-- **What survives**, in a terminal that shows a sheet. -/
theorem survives_iff (E : Encodes t) (W : Window t S)
    (hmore : more.map Prod.snd = scrolledLines t.posts) :
    Survives (hostRows (newest more) t.buf) S t.color ↔ ∀ r ∈ keptRows S, ∀ j, r j < 128 := by
  have hcolor : t.color ≠ 255 := by
    rw [E.color]
    decide
  rw [Survives, ← hostRows_chars W hmore]
  exact map_decode_iff hcolor (madeWith_hostRows E hmore)

end Host

/-! ## 4. End to end -/

/-- **Which cells survive the trip.**  Whatever is printed after `term_init`, as long as the
allocator does not fail: every cell the host has in its history or in the framebuffer decodes
to the byte last printed there, or a blank, and to the terminal's colour, if and only if no byte
from 128 on was printed to a row it still has. -/
theorem cells_survive_iff (o : Opts) (fb₀ : Framebuffer) (env : Nat → Env) (calls : List Call)
    (halloc : ∀ t, deviceRun fb₀ calls = .ok t →
      ¬ AllocFails o (hostEvents env t.posts 0) (consoleInit fb₀)) :
    ∃ t s l, deviceRun fb₀ calls = .ok t ∧
      runEvents o (hostEvents env t.posts 0) (consoleInit fb₀) = .ok s ∧
      Path s.heap s.lineHist l ∧
      (Survives (hostRows l t.buf) (render (calls.flatMap Call.bytes)) t.color ↔
        ∀ r ∈ keptRows (render (calls.flatMap Call.bytes)), ∀ j, r j < 128) := by
  obtain ⟨t, s, more, ht, W, hrun, hpath, hmore⟩ := transcript_run o fb₀ env calls halloc
  exact ⟨t, s, _, ht, hrun, hpath, survives_iff (deviceRun_encodes ht) W hmore⟩

theorem cells_survive_iff_27_lines :
    ∃ t s l, deviceRun (fun _ => 0) longOutput = .ok t ∧
      runEvents ⟨true, true⟩ (hostEvents (fun i => { malloc := some i }) t.posts 0)
        (consoleInit fun _ => 0) = .ok s ∧
      Path s.heap s.lineHist l ∧
      (Survives (hostRows l t.buf) (render (longOutput.flatMap Call.bytes)) t.color ↔
        ∀ r ∈ keptRows (render (longOutput.flatMap Call.bytes)), ∀ j, r j < 128) :=
  cells_survive_iff ⟨true, true⟩ (fun _ => 0) _ _ (not_allocFails_calls _ _ _)

/-- One byte, 128, in the first cell: it comes out in colour 255. -/
theorem byte_128_changes_colour :
    ∃ t s l, deviceRun (fun _ => 0) [.putchar 128] = .ok t ∧
      runEvents ⟨true, true⟩ (hostEvents (fun i => { malloc := some i }) t.posts 0)
        (consoleInit fun _ => 0) = .ok s ∧
      Path s.heap s.lineHist l ∧ t.color = 7 ∧ decodeCell (t.buf 0) = (128, 255) ∧
      ¬ Survives (hostRows l t.buf) (render [128]) t.color := by
  obtain ⟨t, s, more, ht, W, hrun, hpath, hmore⟩ :=
    transcript_run ⟨true, true⟩ (fun _ => 0) (fun i => { malloc := some i }) [.putchar 128]
      (not_allocFails_calls _ _ _)
  have E := deviceRun_encodes ht
  have hcolor : t.color = 7 := E.color
  have hchar : cellChar (t.buf 0) = 128 := W.cells 0 0 (by decide) (by decide)
  have hcell : t.buf 0 = makeVgaentry 128 7 := by
    rw [← hcolor, ← hchar]
    exact E.buf 0 (by decide)
  refine ⟨t, s, _, ht, hrun, hpath, hcolor, by rw [hcell]; rfl, ?_⟩
  intro h
  have h := (survives_iff E W hmore).mp h
  have hrow : (fun j : Fin 80 => (render [128]).cell 0 j) ∈ keptRows (render [128]) := by
    have hkept : keptRows (render [128]) = (List.range 25).map (render [128]).line := rfl
    rw [hkept]
    exact List.mem_map.mpr ⟨0, by decide, rfl⟩
  exact absurd (h _ hrow 0) (by decide)

end Philix
