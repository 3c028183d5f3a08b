/-
# The device terminal: `cga.c`

The terminal writes cells into the memory at `VGA_BASE_ADDR` and posts an update after each
line, scroll or redraw.  Memory is addressed in cells from there on, and an access past the
2000 cells of the framebuffer stops the program: the control registers come right after.

A notification is modelled by an entry of the log `posts`: the update, and the framebuffer at
the moment it is posted, which is what the host sees while the device waits.
-/
import Philix.Mailbox.Protocol

namespace Philix.Winky

open Philix.Console (Framebuffer UpdateType phiFbWidth phiFbHeight)
open Philix.Mailbox (Post)
open Loop

/-! ## 1. The terminal -/

def vgaWidth : Nat := 80
def vgaHeight : Nat := 25

/-- The colours `term_init` uses. -/
def colorBlack : UInt8 := 0
def colorLightGrey : UInt8 := 7

/-- An access to a cell outside the framebuffer. -/
inductive Fault
  | outside (index : Nat)
  deriving DecidableEq, Repr

/-- `struct term_info`, the memory `buf` points to, and the notifications so far, oldest
first. -/
structure Term where
  row : Nat
  col : Nat
  color : UInt8
  buf : Framebuffer
  posts : List (Post × Framebuffer)

/-- `make_vgaentry`; `char` is signed, so the conversion of `c` extends its sign. -/
def makeVgaentry (c : UInt8) (color : UInt8) : UInt16 :=
  c.toInt8.toInt16.toUInt16 ||| color.toUInt16 <<< 8

/-- `make_color`. -/
def makeColor (fg bg : UInt8) : UInt8 := fg ||| bg <<< 4

def blank (color : UInt8) : UInt16 := makeVgaentry 32 color

/-- `term.buf[index]`, read. -/
def Term.load (t : Term) (index : Nat) : Except Fault UInt16 :=
  if index < vgaHeight * vgaWidth then .ok (t.buf index) else .error (.outside index)

/-- `term.buf[index] = v`. -/
def Term.store (t : Term) (index : Nat) (v : UInt16) : Except Fault Term :=
  if index < vgaHeight * vgaWidth then .ok { t with buf := Function.update t.buf index v }
  else .error (.outside index)

/-- The `phi_notify_*` functions, up to the host's answer. -/
def Term.notify (t : Term) (p : Post) : Term := { t with posts := t.posts ++ [(p, t.buf)] }

/-! ## 2. Its operations -/

/-- `term_init`, on the memory `fb`. -/
def termInit (fb : Framebuffer) : Except Fault Term := do
  let t : Term := ⟨0, 0, makeColor colorLightGrey colorBlack, fb, []⟩
  let t ← forLoop (fun y t =>
    forLoop (fun x t => t.store (y * vgaWidth + x) (blank t.color)) vgaWidth 0 t) vgaHeight 0 t
  pure (t.notify .redraw)

/-- `term_putc`. -/
def termPutc (c color : UInt8) (x y : Nat) (t : Term) : Except Fault Term :=
  t.store (y * vgaWidth + x) (makeVgaentry c color)

/-- `term_clear`. -/
def termClear (t : Term) : Except Fault Term := do
  let t ← forLoop (fun i t => t.store i (blank t.color)) (vgaHeight * vgaWidth) 0 t
  pure (t.notify .redraw)

/-- `*pos = *(pos + lpl)` for the `i`-th `long` of the framebuffer: eight bytes, or four
cells, are read and then written. -/
def copyLong (lpl i : Nat) (t : Term) : Except Fault Term := do
  let a ← t.load (4 * (i + lpl))
  let b ← t.load (4 * (i + lpl) + 1)
  let c ← t.load (4 * (i + lpl) + 2)
  let d ← t.load (4 * (i + lpl) + 3)
  let t ← t.store (4 * i) a
  let t ← t.store (4 * i + 1) b
  let t ← t.store (4 * i + 2) c
  t.store (4 * i + 3) d

/-- `term_scrollup`. -/
def termScrollup (t : Term) : Except Fault Term := do
  let n := (vgaHeight - 1) * vgaWidth * 2 / 8
  let lpl := vgaWidth * 2 / 8
  let t := t.notify .scrollup
  let t ← forLoop (copyLong lpl) n 0 t
  let index := (vgaHeight - 1) * vgaWidth
  let t ← forLoop (fun i t => t.store (index + i) (blank t.color)) vgaWidth 0 t
  pure (t.notify .redraw)

/-- The end of a line, in both branches of `putchar`. -/
def endLine (t : Term) : Except Fault Term := do
  let t := { t with col := 0 }.notify (.lineDraw (.ofNat t.row))
  let t := { t with row := t.row + 1 }
  if t.row = vgaHeight then
    let t ← termScrollup t
    pure { t with row := t.row - 1 }
  else pure t

/-- `putchar`. -/
def putchar (c : UInt8) (t : Term) : Except Fault Term :=
  if c = 10 then endLine t
  else do
    let t ← termPutc c t.color t.col t.row t
    let t := { t with col := t.col + 1 }
    if t.col = vgaWidth then endLine t else pure t

/-- `putchar` on each byte in turn. -/
def putchars : List UInt8 → Term → Except Fault Term
  | [], t => .ok t
  | c :: cs, t => do putchars cs (← putchar c t)

/-- The bytes of a string argument, up to its terminating zero. -/
def cString (s : List UInt8) : List UInt8 := s.takeWhile (· ≠ 0)

/-- `puts`. -/
def puts (s : List UInt8) (t : Term) : Except Fault Term := do
  putchar 10 (← putchars (cString s) t)

/-- `term_print`, with the `unsigned` length it prints. -/
def termPrint (data : List UInt8) (t : Term) : Except Fault Term :=
  putchars ((cString data).take ((cString data).length % 4294967296)) t

/-- A call that prints. -/
inductive Call
  | putchar (c : UInt8)
  | puts (s : List UInt8)
  | termPrint (data : List UInt8)

def Call.run : Call → Term → Except Fault Term
  | .putchar c => Winky.putchar c
  | .puts s => Winky.puts s
  | .termPrint data => Winky.termPrint data

/-- The bytes a call prints. -/
def Call.bytes : Call → List UInt8
  | .putchar c => [c]
  | .puts s => cString s ++ [10]
  | .termPrint data => (cString data).take ((cString data).length % 4294967296)

/-- `term_init`, then the calls. -/
def deviceRun (fb : Framebuffer) (calls : List Call) : Except Fault Term := do
  calls.foldlM (fun t call => call.run t) (← termInit fb)

/-! ## 3. What the loops leave in the framebuffer -/

/-- `n` cells from `lo` on hold `v`. -/
def fill (buf : Framebuffer) (lo n : Nat) (v : UInt16) : Framebuffer :=
  fun k => if lo ≤ k ∧ k < lo + n then v else buf k

/-- The framebuffer moved up by one row, its last row blank. -/
def scrolled (buf : Framebuffer) (v : UInt16) : Framebuffer :=
  fun k => if k < (vgaHeight - 1) * vgaWidth then buf (k + vgaWidth)
    else if k < vgaHeight * vgaWidth then v else buf k

section Loops

variable {t : Term} {index : Nat} {v : UInt16}

theorem load_eq (h : index < vgaHeight * vgaWidth) : t.load index = .ok (t.buf index) := if_pos h

theorem store_eq (h : index < vgaHeight * vgaWidth) :
    t.store index v = .ok { t with buf := Function.update t.buf index v } := if_pos h

theorem update_fill (buf : Framebuffer) (lo n : Nat) (v : UInt16) :
    Function.update (fill buf lo n v) (lo + n) v = fill buf lo (n + 1) v := by
  funext k
  by_cases hk : k = lo + n
  · rw [hk, Function.update_self, fill, if_pos (by omega)]
  · rw [Function.update_of_ne hk, fill, fill]
    by_cases hin : lo ≤ k ∧ k < lo + n
    · rw [if_pos hin, if_pos (by omega)]
    · rw [if_neg hin, if_neg (by omega)]

theorem fill_zero (buf : Framebuffer) (lo : Nat) (v : UInt16) : fill buf lo 0 v = buf := by
  funext k
  rw [fill, if_neg (by omega)]

theorem fill_fill (buf : Framebuffer) (lo n m : Nat) (v : UInt16) :
    fill (fill buf lo n v) (lo + n) m v = fill buf lo (n + m) v := by
  funext k
  simp only [fill]
  by_cases hm : lo + n ≤ k ∧ k < lo + n + m
  · rw [if_pos hm, if_pos (by omega)]
  · rw [if_neg hm]
    by_cases hn : lo ≤ k ∧ k < lo + n
    · rw [if_pos hn, if_pos (by omega)]
    · rw [if_neg hn, if_neg (by omega)]

/-- A loop that stores its blank cell at `lo`, `lo + 1`, .. -/
theorem forLoop_store (lo n : Nat) (h : lo + n ≤ vgaHeight * vgaWidth) :
    forLoop (fun i (t : Term) => t.store (lo + i) (blank t.color)) n 0 t =
      .ok { t with buf := fill t.buf lo n (blank t.color) } := by
  obtain ⟨t', ht', rfl⟩ := forLoop_ok
    (f := fun i (t : Term) => t.store (lo + i) (blank t.color))
    (I := fun i t' => t' = { t with buf := fill t.buf lo i (blank t.color) }) n 0 t
    (by rw [fill_zero])
    (by
      rintro j _ - hj rfl
      refine ⟨_, store_eq (by omega), ?_⟩
      simp only [update_fill])
  rw [ht', Nat.zero_add]

/-- The first `m` cells have moved up by one row. -/
def shifted (buf : Framebuffer) (m : Nat) : Framebuffer :=
  fun k => if k < m then buf (k + vgaWidth) else buf k

theorem update_shifted (buf : Framebuffer) (m : Nat) :
    Function.update (shifted buf m) m (buf (m + vgaWidth)) = shifted buf (m + 1) := by
  funext k
  by_cases hk : k = m
  · rw [hk, Function.update_self, shifted, if_pos (by omega)]
  · rw [Function.update_of_ne hk, shifted, shifted]
    by_cases hlt : k < m
    · rw [if_pos hlt, if_pos (by omega)]
    · rw [if_neg hlt, if_neg (by omega)]

/-- One round of the scroll: its four sources still hold what they held. -/
theorem copyLong_eq {i : Nat} (hi : i < 480) :
    copyLong 20 i { t with buf := shifted t.buf (4 * i) } =
      .ok { t with buf := shifted t.buf (4 * (i + 1)) } := by
  have hsrc : ∀ j, j < 4 →
      shifted t.buf (4 * i) (4 * (i + 20) + j) = t.buf (4 * i + j + vgaWidth) := by
    intro j hj
    rw [shifted, if_neg (by omega)]
    congr 1
    simp only [vgaWidth]
    omega
  have h0 : shifted t.buf (4 * i) (4 * (i + 20)) = t.buf (4 * i + vgaWidth) := hsrc 0 (by omega)
  have hin : ∀ k, k < 2000 → k < vgaHeight * vgaWidth := fun k hk => hk
  rw [copyLong, load_eq (hin _ (by omega)), ok_bind, load_eq (hin _ (by omega)), ok_bind,
    load_eq (hin _ (by omega)), ok_bind, load_eq (hin _ (by omega)), ok_bind,
    store_eq (hin _ (by omega)), ok_bind, store_eq (hin _ (by omega)), ok_bind,
    store_eq (hin _ (by omega)), ok_bind, store_eq (hin _ (by omega))]
  simp only [h0, hsrc 1 (by omega), hsrc 2 (by omega), hsrc 3 (by omega)]
  rw [update_shifted t.buf (4 * i), update_shifted t.buf (4 * i + 1),
    update_shifted t.buf (4 * i + 2), update_shifted t.buf (4 * i + 3)]
  rfl

theorem forLoop_copyLong :
    forLoop (copyLong 20) 480 0 t = .ok { t with buf := shifted t.buf 1920 } := by
  obtain ⟨t', ht', rfl⟩ := forLoop_ok (f := copyLong 20)
    (I := fun i t' => t' = { t with buf := shifted t.buf (4 * i) }) 480 0 t
    (by
      have : shifted t.buf 0 = t.buf := funext fun k => if_neg (by omega)
      rw [Nat.mul_zero, this])
    (by
      rintro j _ - hj rfl
      exact ⟨_, copyLong_eq (by omega), rfl⟩)
  exact ht'

theorem fill_shifted (buf : Framebuffer) (v : UInt16) :
    fill (shifted buf 1920) 1920 80 v = scrolled buf v := by
  funext k
  simp only [fill, shifted, scrolled]
  rw [show (vgaHeight - 1) * vgaWidth = 1920 from rfl, show vgaHeight * vgaWidth = 2000 from rfl]
  by_cases h1 : k < 1920
  · rw [if_neg (by omega), if_pos h1, if_pos h1]
  · rw [if_neg h1, if_neg h1]
    by_cases h2 : k < 2000
    · rw [if_pos (by omega), if_pos h2]
    · rw [if_neg (by omega), if_neg h2]

/-! ## 4. The operations, in one step -/

/-- **`term_scrollup`** posts the scroll before it moves anything, and a redraw after. -/
theorem termScrollup_eq (t : Term) :
    termScrollup t = .ok { t with
      buf := scrolled t.buf (blank t.color)
      posts := t.posts ++ [(.scrollup, t.buf), (.redraw, scrolled t.buf (blank t.color))] } := by
  have hcopy := forLoop_copyLong (t := t.notify .scrollup)
  have hfill := forLoop_store (t := { t.notify .scrollup with buf := shifted t.buf 1920 }) 1920 80
    (by decide)
  simp only [fill_shifted] at hfill
  have hgoal : termScrollup t = (forLoop (copyLong 20) 480 0 (t.notify .scrollup) >>= fun t =>
      forLoop (fun i (t : Term) => t.store (1920 + i) (blank t.color)) 80 0 t >>= fun t =>
        pure (t.notify .redraw)) := rfl
  rw [hgoal, hcopy, ok_bind]
  refine (congrArg (· >>= fun t => pure (t.notify .redraw)) hfill).trans ?_
  simp [Term.notify]

/-- **`term_clear`.** -/
theorem termClear_eq (t : Term) :
    termClear t = .ok ({ t with
      buf := fill t.buf 0 (vgaHeight * vgaWidth) (blank t.color) }.notify .redraw) := by
  have h := forLoop_store (t := t) 0 (vgaHeight * vgaWidth) (Nat.le_refl _)
  simp only [Nat.zero_add] at h
  rw [termClear, h]
  rfl

/-- **`term_init`** clears the framebuffer, row by row. -/
theorem termInit_eq (fb : Framebuffer) :
    termInit fb = .ok (Term.notify ⟨0, 0, makeColor colorLightGrey colorBlack,
      fill fb 0 (vgaHeight * vgaWidth) (blank (makeColor colorLightGrey colorBlack)), []⟩
        .redraw) := by
  obtain ⟨t', ht', rfl⟩ := forLoop_ok
    (f := fun y (t : Term) => forLoop (fun x (t : Term) =>
      t.store (y * vgaWidth + x) (blank t.color)) vgaWidth 0 t)
    (I := fun y t' => t' = (⟨0, 0, makeColor colorLightGrey colorBlack,
      fill fb 0 (y * vgaWidth) (blank (makeColor colorLightGrey colorBlack)), []⟩ : Term))
    vgaHeight 0 ⟨0, 0, makeColor colorLightGrey colorBlack, fb, []⟩
    (by rw [Nat.zero_mul, fill_zero])
    (by
      rintro y _ - hy rfl
      have hrow : y * vgaWidth + vgaWidth ≤ vgaHeight * vgaWidth := by
        simp only [vgaHeight, vgaWidth] at *
        omega
      refine ⟨_, forLoop_store (y * vgaWidth) vgaWidth hrow, ?_⟩
      have := fill_fill fb 0 (y * vgaWidth) vgaWidth (blank (makeColor colorLightGrey colorBlack))
      rw [Nat.zero_add] at this
      simp only [this, Nat.succ_mul])
  rw [termInit, ht', ok_bind, Nat.zero_add]
  rfl

/-- **The end of a line** above the last row moves the cursor down; on the last row it scrolls
and the cursor stays. -/
theorem endLine_eq :
    endLine t = .ok (if t.row + 1 = vgaHeight then
      { t with
        col := 0
        buf := scrolled t.buf (blank t.color)
        posts := t.posts ++ [(.lineDraw (.ofNat t.row), t.buf), (.scrollup, t.buf),
          (.redraw, scrolled t.buf (blank t.color))] }
      else { t with
        row := t.row + 1
        col := 0
        posts := t.posts ++ [(.lineDraw (.ofNat t.row), t.buf)] }) := by
  by_cases hlast : t.row + 1 = vgaHeight
  · simp only [endLine, Term.notify, hlast, if_true, termScrollup_eq, ok_bind, pure_eq_ok,
      List.append_assoc, List.cons_append, List.nil_append]
    rw [← hlast, Nat.add_sub_cancel]
  · simp [endLine, Term.notify, hlast]

theorem endLine_col (k : Nat) : endLine { t with col := k } = endLine t := by
  rw [endLine_eq, endLine_eq]

theorem termPutc_eq (c : UInt8) (hrow : t.row < vgaHeight) (hcol : t.col < vgaWidth) :
    termPutc c t.color t.col t.row t = .ok { t with
      buf := Function.update t.buf (t.row * vgaWidth + t.col) (makeVgaentry c t.color) } := by
  refine store_eq ?_
  simp only [vgaHeight, vgaWidth] at *
  omega

end Loops

end Philix.Winky
