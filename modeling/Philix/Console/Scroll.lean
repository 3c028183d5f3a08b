/-
# Moving the view: `scroll_output_win`, `scroll_page`, `scroll_top`, `scroll_bottom`

The view is kept twice: `win_ptr` is a node of the history (or null) and `line_idx` counts
how many lines the window is scrolled back.  The scroll loops move both.
-/
import Philix.Console.Scrollup

namespace Philix.Console

open HalfRing Loop

/-- C's conversion of an `int` to `unsigned`. -/
def toUnsigned (x : Int) : Nat := (x % 4294967296).toNat

/-- The loop of `scroll_output_win` for `nlines > 0`, with `n` lines left to go: the node and
the offset it ends with. -/
def scrollBackLoop (heap : Heap) (histCnt : Nat) : Nat → Ptr → Int → Except Stop (Ptr × Int)
  | 0, line, idx => .ok (line, idx)
  | n + 1, line, idx =>
    if idx < (maxHistLines : Int) ∧ toUnsigned idx < histCnt then do
      match (← heap.load line).next with
      | some next => scrollBackLoop heap histCnt n (some next) (idx + 1)
      | none => .ok (line, idx + 1)
    else .ok (line, idx)

/-- The loop of `scroll_output_win` for `nlines < 0`. -/
def scrollForwardLoop (heap : Heap) : Nat → Ptr → Int → Except Stop (Ptr × Int)
  | 0, line, idx => .ok (line, idx)
  | n + 1, line, idx =>
    if line.isSome ∧ 0 < idx then do
      scrollForwardLoop heap n (← heap.load line).prev (idx - 1)
    else .ok (line, idx)

/-- `scroll_output_win`. -/
def scrollOutputWin (nlines : Int) (s : Cons) : Except Stop Cons := do
  let line := if s.winPtr = none then s.lineHist else s.winPtr
  assert line.isSome
  if 0 < nlines then
    if (maxHistLines : Int) ≤ s.lineIdx then .ok s
    else do
      let (line, idx) ← scrollBackLoop s.heap s.histCnt nlines.toNat line s.lineIdx
      pure { s with winPtr := line, lineIdx := idx }
  else if nlines < 0 then
    if s.lineIdx = 0 then .ok s
    else do
      let (line, idx) ← scrollForwardLoop s.heap (-nlines).toNat line s.lineIdx
      pure { s with winPtr := line, lineIdx := idx }
  else .ok s

/-- `scroll_page`: `1` is back, `0` is forward. -/
def scrollPage (dir : UInt8) (s : Cons) : Except Stop Cons :=
  if dir = 1 then scrollOutputWin phiFbHeight s
  else if dir = 0 then scrollOutputWin (-(phiFbHeight : Int)) s
  else .ok s

/-- `scroll_top`. -/
def scrollTop (s : Cons) : Except Stop Cons :=
  if s.lineHist.isSome then do
    let prev := (← s.heap.load s.lineHist).prev
    if prev.isSome then pure { s with winPtr := prev, lineIdx := s.histCnt } else pure s
  else .ok s

/-- `scroll_bottom`. -/
def scrollBottom (s : Cons) : Cons := { s with winPtr := none, lineIdx := 0 }

/-! ## 1. The loops, by position -/

theorem toUnsigned_natCast {k : Nat} (hk : k ≤ maxHistLines) : toUnsigned (k : Int) = k := by
  simp only [toUnsigned, maxHistLines] at *
  omega

section Loops

variable {h : Heap} {head : Ptr} {l : List (Addr × Line)}

/-- **Scrolling back from the line at position `p` with offset `k`.**  The offset stops at the
number of lines.  The node stops at the oldest line, and reaching it ends the loop, so the
two need not move by the same amount. -/
theorem scrollBackLoop_spec (H : Ring h head l) (hle : l.length ≤ maxHistLines) :
    ∀ (n p k : Nat), p < l.length → k ≤ l.length →
      scrollBackLoop h l.length n (addrAt l p) k =
        .ok (addrAt l (min (p + min n (l.length - k)) (l.length - 1)),
          ((k + min (min n (l.length - k)) (l.length - p) : Nat) : Int))
  | 0, p, k, hp, hk => by
    have h1 : min p (l.length - 1) = p := by omega
    simp [scrollBackLoop, h1]
  | n + 1, p, k, hp, hk => by
    rw [scrollBackLoop, toUnsigned_natCast (by omega)]
    by_cases hkl : k < l.length
    · have hc : (k : Int) < (maxHistLines : Int) ∧ k < l.length := ⟨by omega, hkl⟩
      rw [if_pos hc, addrAt_of_lt hp, load_some (H.cell p hp), ok_bind]
      by_cases hp1 : p + 1 < l.length
      · rw [addrAt_of_lt hp1]
        simp only [← addrAt_of_lt hp1]
        have ih := scrollBackLoop_spec H hle n (p + 1) (k + 1) hp1 hkl
        rw [Int.natCast_succ] at ih
        rw [ih]
        congr 3 <;> omega
      · rw [addrAt_eq_none_iff.mpr (by omega : l.length ≤ p + 1)]
        have h1 : min (p + min (n + 1) (l.length - k)) (l.length - 1) = p := by omega
        have h2 : min (min (n + 1) (l.length - k)) (l.length - p) = 1 := by omega
        rw [h1, h2, addrAt_of_lt hp, Int.natCast_succ]
    · have hc : ¬((k : Int) < (maxHistLines : Int) ∧ k < l.length) := fun hc => hkl hc.2
      have h1 : min (p + min (n + 1) (l.length - k)) (l.length - 1) = p := by omega
      have h2 : min (min (n + 1) (l.length - k)) (l.length - p) = 0 := by omega
      rw [if_neg hc, h1, h2, Nat.add_zero]

/-- **Scrolling forward.**  From a position `p` that is at most one short of the offset, the
loop takes `min n k` steps towards the head; the step that leaves the head goes round to the
oldest line, and it can only be the last one. -/
theorem scrollForwardLoop_spec (H : Ring h head l) :
    ∀ (n p k : Nat), p < l.length → k ≤ p + 1 →
      scrollForwardLoop h n (addrAt l p) k =
        .ok (if min n k ≤ p then addrAt l (p - min n k) else lastAddr l,
          ((k - min n k : Nat) : Int))
  | 0, p, k, hp, hk => by simp [scrollForwardLoop]
  | n + 1, p, 0, hp, hk => by simp [scrollForwardLoop]
  | n + 1, p, k + 1, hp, hk => by
    have hc : (addrAt l p).isSome = true ∧ (0 : Int) < ((k + 1 : Nat) : Int) :=
      ⟨by simp [addrAt_of_lt hp], by omega⟩
    have hk1 : ((k + 1 : Nat) : Int) - 1 = (k : Int) := by omega
    rw [scrollForwardLoop, if_pos hc, addrAt_of_lt hp, load_some (H.cell p hp), ok_bind, hk1]
    cases p with
    | zero =>
      -- the last step: the head's `prev` is the oldest line
      obtain rfl : k = 0 := by omega
      have h1 : ∀ q, scrollForwardLoop h n q 0 = .ok (q, 0) := by
        intro q
        cases n <;> simp [scrollForwardLoop]
      rw [prevAt, Int.natCast_zero, h1]
      simp
    | succ p =>
      rw [prevAt, scrollForwardLoop_spec H n p k (by omega) (by omega)]
      by_cases hm : min n k ≤ p
      · rw [if_pos hm, if_pos (by omega)]
        congr 3 <;> omega
      · rw [if_neg hm, if_neg (by omega)]
        congr 3
        omega

end Loops

end Philix.Console
