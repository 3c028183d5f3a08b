/-
# Drawing the output window: `draw_fb`, `draw_hist_buf`, `draw_output_win`

A drawing function is modelled by the calls it makes, in order: `draw_line_buf` with the
buffer it is passed, a framebuffer row or the line of a node, and the window row.
-/
import Philix.Console.Scroll

namespace Philix.Console

open HalfRing Loop

/-- The buffer argument of `draw_line_buf`. -/
inductive LineSrc
  | fb (row : Nat)
  | hist (node : Addr)
  deriving DecidableEq, Repr

/-- One drawing call: a whole line, or the single cell of `handle_char_update`. -/
inductive DrawCall
  | line (buf : LineSrc) (row : Nat)
  | cell (x y : Nat)
  deriving DecidableEq, Repr

/-- `draw_line_buf`. -/
def drawLineBuf (buf : LineSrc) (row : Nat) : Except Stop (List DrawCall) := do
  assert (row < phiFbHeight)
  pure [.line buf row]

/-- The loop of `draw_fb`: `n` rows left, at framebuffer row `i` and window row `offset`. -/
def drawFbLoop : Nat → Nat → Nat → Except Stop (List DrawCall)
  | 0, _, _ => .ok []
  | n + 1, i, offset => do
    let d ← drawLineBuf (.fb i) offset
    pure (d ++ (← drawFbLoop n (i + 1) (offset + 1)))

/-- `draw_fb`. -/
def drawFb (offset nlines : Nat) : Except Stop (List DrawCall) := do
  assert (nlines ≤ phiFbHeight)
  assert (offset < phiFbHeight)
  assert (nlines + offset ≤ phiFbHeight)
  drawFbLoop nlines 0 offset

/-- The loop of `draw_hist_buf`; it stops at null and at the newest line, which it leaves
out. -/
def drawHistBufLoop (s : Cons) : Nat → Ptr → Nat → Except Stop (List DrawCall)
  | 0, _, _ => .ok []
  | n + 1, head, offset =>
    match head with
    | none => .ok []
    | some a =>
      if s.lineHist = some a then .ok []
      else do
        let e ← s.heap.load (some a)
        let d ← drawLineBuf (.hist a) offset
        pure (d ++ (← drawHistBufLoop s n e.prev (offset + 1)))

/-- `draw_hist_buf`. -/
def drawHistBuf (s : Cons) (head : Ptr) (offset nlines : Nat) : Except Stop (List DrawCall) := do
  assert (nlines ≤ phiFbHeight)
  assert (offset < phiFbHeight)
  assert (nlines + offset ≤ phiFbHeight)
  drawHistBufLoop s nlines head offset

/-- `draw_output_win`. -/
def drawOutputWin (s : Cons) : Except Stop (List DrawCall) :=
  if s.lineIdx = 0 then drawFb 0 phiFbHeight
  else if (phiFbHeight : Int) ≤ s.lineIdx then drawHistBuf s s.winPtr 0 phiFbHeight
  else do
    let d ← drawHistBuf s s.winPtr 0 (toUnsigned s.lineIdx)
    pure (d ++ (← drawFb (toUnsigned s.lineIdx) (toUnsigned (phiFbHeight - s.lineIdx))))

/-- The buffer a window row shows after the calls: that of the last one to draw the row. -/
def rowShown (log : List DrawCall) (r : Nat) : Option LineSrc :=
  (log.filterMap fun
    | .line buf row => if row = r then some buf else none
    | .cell _ _ => none).getLast?

/-! ## 1. What the loops draw -/

/-- The lines `g 0, g 1, ..` at window rows `offset, offset + 1, ..`. -/
def rowCalls (g : Nat → Option LineSrc) (n offset : Nat) : List DrawCall :=
  (List.range n).filterMap fun j => (g j).map fun b => .line b (offset + j)

theorem rowCalls_succ (g : Nat → Option LineSrc) (n offset : Nat) :
    rowCalls g (n + 1) offset =
      ((g 0).map fun b => DrawCall.line b offset).toList ++
        rowCalls (fun j => g (j + 1)) n (offset + 1) := by
  simp only [rowCalls, List.range_succ_eq_map, List.filterMap_cons, List.filterMap_map,
    Nat.add_zero]
  have hrest : (List.range n).filterMap
        ((fun j => (g j).map fun b => DrawCall.line b (offset + j)) ∘ Nat.succ) =
      (List.range n).filterMap fun j => (g (j + 1)).map fun b => .line b (offset + 1 + j) :=
    List.filterMap_congr fun j _ => by
      simp only [Function.comp_apply, Nat.succ_eq_add_one]
      rw [show offset + (j + 1) = offset + 1 + j by omega]
  rw [hrest]
  cases g 0 <;> rfl

theorem rowCalls_concat (g : Nat → Option LineSrc) (n offset : Nat) :
    rowCalls g (n + 1) offset = rowCalls g n offset ++
      ((g n).map fun b => DrawCall.line b (offset + n)).toList := by
  simp only [rowCalls, List.range_succ, List.filterMap_append]
  cases hg : g n <;> simp [hg]

theorem rowShown_append (d d' : List DrawCall) (r : Nat) :
    rowShown (d ++ d') r = (rowShown d' r).or (rowShown d r) := by
  simp [rowShown, List.filterMap_append, List.getLast?_append]

theorem line_of_mem_rowCalls {g : Nat → Option LineSrc} {n offset : Nat} {b : LineSrc} {r : Nat}
    (h : .line b r ∈ rowCalls g n offset) : ∃ j, g j = some b := by
  obtain ⟨j, -, hj⟩ := List.mem_filterMap.mp h
  obtain ⟨b', hb', hcall⟩ := Option.map_eq_some_iff.mp hj
  cases hcall
  exact ⟨j, hb'⟩

/-- Each of the rows shows its own line; no other row is touched. -/
theorem rowShown_rowCalls (g : Nat → Option LineSrc) (n offset r : Nat) :
    rowShown (rowCalls g n offset) r =
      if offset ≤ r ∧ r < offset + n then g (r - offset) else none := by
  induction n with
  | zero =>
    rw [if_neg (by omega)]
    rfl
  | succ n ih =>
    rw [rowCalls_concat, rowShown_append, ih]
    by_cases hr : r = offset + n
    · subst hr
      cases hg : g n <;> simp [rowShown, hg]
    · have hnone :
          rowShown (((g n).map fun b => DrawCall.line b (offset + n)).toList) r = none := by
        cases g n <;> simp [rowShown, Ne.symm hr]
      rw [hnone, Option.none_or]
      by_cases hin : offset ≤ r ∧ r < offset + n
      · rw [if_pos hin, if_pos ⟨hin.1, by omega⟩]
      · rw [if_neg hin, if_neg (by omega)]

/-- What a row shows was drawn there. -/
theorem mem_of_rowShown {d : List DrawCall} {r : Nat} {b : LineSrc} (h : rowShown d r = some b) :
    .line b r ∈ d := by
  obtain ⟨c, hc, hcb⟩ := List.mem_filterMap.mp (List.mem_of_getLast? h)
  cases c with
  | line b' row =>
    simp only [Option.ite_none_right_eq_some, Option.some.injEq] at hcb
    obtain ⟨rfl, rfl⟩ := hcb
    exact hc
  | cell x y => simp at hcb

theorem drawFbLoop_eq : ∀ (n i offset : Nat), n + offset ≤ phiFbHeight →
    drawFbLoop n i offset = .ok (rowCalls (fun j => some (.fb (i + j))) n offset)
  | 0, _, _, _ => rfl
  | n + 1, i, offset, h => by
    have hlt : offset < phiFbHeight := by omega
    rw [drawFbLoop, drawFbLoop_eq n (i + 1) (offset + 1) (by omega), rowCalls_succ]
    simp [drawLineBuf, hlt, Nat.add_assoc, Nat.add_comm 1]

theorem drawFb_eq {n offset : Nat} (hlt : offset < phiFbHeight) (h : n + offset ≤ phiFbHeight) :
    drawFb offset n = .ok (rowCalls (fun j => some (.fb j)) n offset) := by
  have hn : n ≤ phiFbHeight := by omega
  simp [drawFb, hlt, h, hn, drawFbLoop_eq n 0 offset h]

section Hist

variable {s : Cons} {l : List (Addr × Line)}

/-- The node `j` places towards the newest from position `p`. -/
def histLine (l : List (Addr × Line)) (p j : Nat) : Option LineSrc :=
  (addrAt l (p - j)).map .hist

/-- **From position `p` the history part draws towards the newest line, and stops short of
it.**  So it draws `min n p` rows, not `n`. -/
theorem drawHistBufLoop_eq (H : Ring s.heap s.lineHist l) :
    ∀ (n p offset : Nat), p < l.length → n + offset ≤ phiFbHeight →
      drawHistBufLoop s n (addrAt l p) offset = .ok (rowCalls (histLine l p) (min n p) offset)
  | 0, p, offset, _, _ => by simp [drawHistBufLoop, rowCalls]
  | n + 1, 0, offset, hp, _ => by
    rw [addrAt_of_lt hp, drawHistBufLoop, H.head_eq, addrAt_of_lt hp]
    simp [rowCalls]
  | n + 1, p + 1, offset, hp, h => by
    have hlt : offset < phiFbHeight := by omega
    have hne : s.lineHist ≠ some l[p + 1].1 := by
      rw [H.head_eq]
      intro e
      exact absurd (addrAt_inj H.nodup e (addrAt_of_lt hp)) (by omega)
    have hrest : (fun j => histLine l (p + 1) (j + 1)) = histLine l p := by
      funext j
      rw [histLine, histLine, show p + 1 - (j + 1) = p - j by omega]
    rw [addrAt_of_lt hp, drawHistBufLoop, show min (n + 1) (p + 1) = min n p + 1 by omega,
      rowCalls_succ, hrest]
    simp only [hne, if_false, load_some (H.cell (p + 1) hp), ok_bind, drawLineBuf, hlt,
      decide_true, assert_true, pure_eq_ok, prevAt]
    rw [drawHistBufLoop_eq H n p (offset + 1) (by omega) (by omega)]
    simp [histLine, addrAt_of_lt hp]

theorem drawHistBuf_eq (H : Ring s.heap s.lineHist l) {n p o : Nat} (hp : p < l.length)
    (hlt : o < phiFbHeight) (h : n + o ≤ phiFbHeight) :
    drawHistBuf s (addrAt l p) o n = .ok (rowCalls (histLine l p) (min n p) o) := by
  have hn : n ≤ phiFbHeight := by omega
  simp [drawHistBuf, hlt, h, hn, drawHistBufLoop_eq H n p o hp h]

/-- Whatever the pointer, the loop draws only nodes, never the newest, and its first row is
the node it was given. -/
theorem mem_drawHistBufLoop {s : Cons} : ∀ {n : Nat} {head : Ptr} {offset : Nat}
    {log : List DrawCall} {c : DrawCall}, drawHistBufLoop s n head offset = .ok log → c ∈ log →
      ∃ a r, c = .line (.hist a) r ∧ s.lineHist ≠ some a ∧ offset ≤ r ∧ (r = offset → head = some a)
  | 0, head, offset, log, c, h, hc => by
    obtain rfl := Except.ok.inj h
    simp at hc
  | n + 1, none, offset, log, c, h, hc => by
    obtain rfl := Except.ok.inj h
    simp at hc
  | n + 1, some a, offset, log, c, h, hc => by
    rw [drawHistBufLoop] at h
    split at h
    · obtain rfl := Except.ok.inj h
      simp at hc
    · rename_i hne
      obtain ⟨e, -, h1⟩ := bind_eq_ok_iff.mp h
      obtain ⟨d, hd, h2⟩ := bind_eq_ok_iff.mp h1
      obtain ⟨d', hd', h3⟩ := bind_eq_ok_iff.mp h2
      obtain rfl := Except.ok.inj h3
      rcases List.mem_append.mp hc with hc | hc
      · obtain ⟨-, -, hd⟩ := bind_eq_ok_iff.mp hd
        obtain rfl := Except.ok.inj hd
        rw [List.mem_singleton] at hc
        exact ⟨a, offset, hc, hne, Nat.le_refl _, fun _ => rfl⟩
      · obtain ⟨b, r, rfl, hb, hr, -⟩ := mem_drawHistBufLoop hd' hc
        exact ⟨b, r, rfl, hb, by omega, fun e => by omega⟩

theorem mem_drawHistBuf {s : Cons} {n : Nat} {head : Ptr} {offset : Nat} {log : List DrawCall}
    {c : DrawCall} (h : drawHistBuf s head offset n = .ok log) (hc : c ∈ log) :
    ∃ a r, c = .line (.hist a) r ∧ s.lineHist ≠ some a ∧ offset ≤ r ∧
      (r = offset → head = some a) := by
  obtain ⟨-, -, h⟩ := bind_eq_ok_iff.mp h
  obtain ⟨-, -, h⟩ := bind_eq_ok_iff.mp h
  obtain ⟨-, -, h⟩ := bind_eq_ok_iff.mp h
  exact mem_drawHistBufLoop h hc

end Hist

end Philix.Console
