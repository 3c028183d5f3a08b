/-
# The terminal as a program for a memory

`Term` keeps the framebuffer in the terminal.  On the card it is memory that the host has
mapped too, and what the host can see of the terminal is its stores and its notifications, one
after the other.  `outputOps` below is `cga.c` once more, with the cursor only: what it stores
where, and when it notifies.  `outputs_follow` ties the two: the stores, carried out in order,
leave the framebuffer of `Term`, and the framebuffer at each notification is the one `Term`
logs with it.
-/
import Philix.Winky.Term

namespace Philix.Winky

open Philix.Console (Framebuffer)
open Philix.Mailbox (Post)
open Loop

/-! ## 1. Stores and notifications -/

/-- What the terminal does to memory. -/
inductive DevOp
  /-- `term.buf[index] = v` -/
  | store (index : Nat) (v : UInt16)
  /-- `*pos = *(pos + lpl)`, for the `i`-th `long` of the framebuffer -/
  | copy (i : Nat)
  /-- a `phi_notify_*` function -/
  | notify (p : Post)
  deriving DecidableEq, Repr

/-- It keeps to the framebuffer. -/
def DevOp.Inside : DevOp → Prop
  | .store index _ => index < vgaHeight * vgaWidth
  | .copy i => i < 480
  | .notify _ => True

/-- What it does to a framebuffer, and to the log of the notifications. -/
def DevOp.exec : DevOp → Framebuffer × List (Post × Framebuffer) →
    Framebuffer × List (Post × Framebuffer)
  | .store index v, (fb, ps) => (Function.update fb index v, ps)
  | .copy i, (fb, ps) =>
    (fun k => if 4 * i ≤ k ∧ k < 4 * i + 4 then fb (k + vgaWidth) else fb k, ps)
  | .notify p, (fb, ps) => (fb, ps ++ [(p, fb)])

/-- One after the other. -/
def execs (ops : List DevOp) (x : Framebuffer × List (Post × Framebuffer)) :
    Framebuffer × List (Post × Framebuffer) :=
  ops.foldl (fun x op => op.exec x) x

/-- The notifications among them. -/
def notified (ops : List DevOp) : List Post :=
  ops.filterMap fun op => match op with
    | .notify p => some p
    | _ => none

/-! ## 2. The code -/

/-- The fields of `term` that steer it. -/
structure Cursor where
  row : Nat
  col : Nat
  color : UInt8

/-- What a function does, and where it leaves the cursor. -/
abbrev Code : Type := List DevOp × Cursor

/-- One function after another. -/
def Code.andThen (x : Code) (f : Cursor → Code) : Code := (x.1 ++ (f x.2).1, (f x.2).2)

/-- `for (i = 0; i < n; i++) term.buf[lo + i] = make_vgaentry(' ', term.color)` -/
def fillOps (lo n : Nat) (color : UInt8) : List DevOp :=
  (List.range n).map fun i => .store (lo + i) (blank color)

/-- `term_init` -/
def termInitOps : Code :=
  let color := makeColor colorLightGrey colorBlack
  ((List.range vgaHeight).flatMap (fun y => fillOps (y * vgaWidth) vgaWidth color) ++
    [.notify .redraw], ⟨0, 0, color⟩)

/-- `term_clear` -/
def termClearOps (c : Cursor) : Code :=
  (fillOps 0 (vgaHeight * vgaWidth) c.color ++ [.notify .redraw], c)

/-- `term_scrollup` -/
def termScrollupOps (c : Cursor) : Code :=
  (.notify .scrollup :: ((List.range ((vgaHeight - 1) * vgaWidth * 2 / 8)).map .copy ++
    (fillOps ((vgaHeight - 1) * vgaWidth) vgaWidth c.color ++ [.notify .redraw])), c)

/-- The end of a line, in both branches of `putchar`. -/
def endLineOps (c : Cursor) : Code :=
  let line : DevOp := .notify (.lineDraw (.ofNat c.row))
  let c' : Cursor := { c with row := c.row + 1, col := 0 }
  if c'.row = vgaHeight then
    Code.andThen ([line], c') fun c =>
      ((termScrollupOps c).1, { c with row := c.row - 1 })
  else ([line], c')

/-- `putchar` -/
def putcharOps (ch : UInt8) (c : Cursor) : Code :=
  if ch = 10 then endLineOps c
  else
    let put : DevOp := .store (c.row * vgaWidth + c.col) (makeVgaentry ch c.color)
    let c' : Cursor := { c with col := c.col + 1 }
    if c'.col = vgaWidth then Code.andThen ([put], c') endLineOps else ([put], c')

/-- `putchar` on each byte in turn. -/
def putcharsOps : List UInt8 → Cursor → Code
  | [], c => ([], c)
  | ch :: cs, c => (putcharOps ch c).andThen (putcharsOps cs)

/-! ## 3. The code and the terminal -/

/-- The cursor is the terminal's, and on the screen. -/
structure Follows (t : Term) (c : Cursor) : Prop where
  row : t.row = c.row
  col : t.col = c.col
  color : t.color = c.color
  row_lt : c.row < vgaHeight
  col_lt : c.col < vgaWidth

/-- `x` does what a function of the terminal does that is called on `t` and returns `r`. -/
def Does (t : Term) (r : Except Fault Term) (x : Code) : Prop :=
  ∃ t', r = .ok t' ∧ Follows t' x.2 ∧ execs x.1 (t.buf, t.posts) = (t'.buf, t'.posts) ∧
    ∀ op ∈ x.1, op.Inside

section Follow

variable {t : Term} {c : Cursor} {x : Code} {r : Except Fault Term} {fb : Framebuffer}
  {ps : List (Post × Framebuffer)}

theorem execs_append (ops ops' : List DevOp) (y : Framebuffer × List (Post × Framebuffer)) :
    execs (ops ++ ops') y = execs ops' (execs ops y) := List.foldl_append

theorem execs_cons (op : DevOp) (ops : List DevOp)
    (y : Framebuffer × List (Post × Framebuffer)) :
    execs (op :: ops) y = execs ops (op.exec y) := rfl

/-- The rule for one function after another. -/
theorem Does.andThen {f : Term → Except Fault Term} {g : Cursor → Code} (h : Does t r x)
    (hg : ∀ t', Follows t' x.2 → Does t' (f t') (g x.2)) : Does t (r >>= f) (x.andThen g) := by
  obtain ⟨t₁, rfl, F₁, hx₁, hin₁⟩ := h
  obtain ⟨t₂, h₂, F₂, hx₂, hin₂⟩ := hg t₁ F₁
  refine ⟨t₂, h₂, F₂, ?_, ?_⟩
  · rw [Code.andThen, execs_append, hx₁, hx₂]
  · intro op hop
    rcases List.mem_append.mp hop with hop | hop
    · exact hin₁ op hop
    · exact hin₂ op hop

theorem execs_fillOps (lo n : Nat) (color : UInt8) (fb : Framebuffer)
    (ps : List (Post × Framebuffer)) :
    execs (fillOps lo n color) (fb, ps) = (fill fb lo n (blank color), ps) := by
  induction n with
  | zero => rw [fill_zero]; rfl
  | succ n ih =>
    rw [fillOps, List.range_succ, List.map_append, execs_append]
    rw [fillOps] at ih
    rw [ih]
    exact congrArg (·, ps) (update_fill fb lo n (blank color))

theorem inside_fillOps {lo n : Nat} (h : lo + n ≤ vgaHeight * vgaWidth) (color : UInt8) :
    ∀ op ∈ fillOps lo n color, op.Inside := by
  intro op hop
  obtain ⟨i, hi, rfl⟩ := List.mem_map.mp hop
  have := List.mem_range.mp hi
  show lo + i < vgaHeight * vgaWidth
  omega

/-- The rows of the screen, one after the other. -/
theorem execs_rows (n : Nat) (color : UInt8) (fb : Framebuffer)
    (ps : List (Post × Framebuffer)) :
    execs ((List.range n).flatMap fun y => fillOps (y * vgaWidth) vgaWidth color) (fb, ps) =
      (fill fb 0 (n * vgaWidth) (blank color), ps) := by
  induction n with
  | zero => rw [Nat.zero_mul, fill_zero]; rfl
  | succ n ih =>
    have hrow := fill_fill fb 0 (n * vgaWidth) vgaWidth (blank color)
    rw [Nat.zero_add] at hrow
    rw [List.range_succ, List.flatMap_append, execs_append, ih, List.flatMap_singleton,
      execs_fillOps, hrow, Nat.succ_mul]

theorem execs_copies (n : Nat) (fb : Framebuffer) (ps : List (Post × Framebuffer)) :
    execs ((List.range n).map .copy) (fb, ps) = (shifted fb (4 * n), ps) := by
  induction n with
  | zero =>
    have h0 : shifted fb 0 = fb := funext fun k => if_neg (Nat.not_lt_zero k)
    rw [Nat.mul_zero, h0]
    rfl
  | succ n ih =>
    rw [List.range_succ, List.map_append, execs_append, ih]
    refine congrArg (·, ps) (funext fun k => ?_)
    simp only [shifted]
    by_cases hin : 4 * n ≤ k ∧ k < 4 * n + 4
    · -- the source is not among the longs already moved
      have hsrc : ¬ k + vgaWidth < 4 * n := by omega
      have hdst : k < 4 * (n + 1) := by omega
      rw [if_pos hin, if_neg hsrc, if_pos hdst]
    · rw [if_neg hin]
      by_cases hlt : k < 4 * n
      · rw [if_pos hlt, if_pos (by omega)]
      · rw [if_neg hlt, if_neg (by omega)]

theorem execs_termScrollupOps (c : Cursor) (fb : Framebuffer) (ps : List (Post × Framebuffer)) :
    execs (termScrollupOps c).1 (fb, ps) = (scrolled fb (blank c.color),
      ps ++ [(.scrollup, fb), (.redraw, scrolled fb (blank c.color))]) := by
  have hrows : (vgaHeight - 1) * vgaWidth = 1920 := rfl
  have hlongs : 4 * (1920 * 2 / 8) = 1920 := rfl
  rw [termScrollupOps, execs_cons, hrows, execs_append, DevOp.exec, execs_copies, execs_append,
    execs_fillOps, hlongs, vgaWidth, fill_shifted, execs_cons, DevOp.exec, List.append_assoc]
  rfl

theorem inside_termScrollupOps (c : Cursor) : ∀ op ∈ (termScrollupOps c).1, op.Inside := by
  intro op hop
  rcases List.mem_cons.mp hop with rfl | hop
  · trivial
  · rcases List.mem_append.mp hop with hop | hop
    · obtain ⟨i, hi, rfl⟩ := List.mem_map.mp hop
      exact List.mem_range.mp hi
    · rcases List.mem_append.mp hop with hop | hop
      · exact inside_fillOps (by decide) c.color op hop
      · obtain rfl := List.mem_singleton.mp hop
        trivial

theorem does_termInit (fb : Framebuffer) :
    ∃ t, termInit fb = .ok t ∧ Follows t termInitOps.2 ∧
      execs termInitOps.1 (fb, []) = (t.buf, t.posts) ∧ ∀ op ∈ termInitOps.1, op.Inside := by
  refine ⟨_, termInit_eq fb, ⟨rfl, rfl, rfl, by decide, by decide⟩, ?_, ?_⟩
  · rw [termInitOps, execs_append, execs_rows]
    rfl
  · intro op hop
    rcases List.mem_append.mp hop with hop | hop
    · obtain ⟨y, hy, hop⟩ := List.mem_flatMap.mp hop
      have hlt := List.mem_range.mp hy
      have hle : y * vgaWidth + vgaWidth ≤ vgaHeight * vgaWidth := by
        simp only [vgaHeight, vgaWidth] at *
        omega
      exact inside_fillOps hle _ op hop
    · obtain rfl := List.mem_singleton.mp hop
      trivial

theorem does_termClear (F : Follows t c) : Does t (termClear t) (termClearOps c) := by
  refine ⟨_, termClear_eq t, ⟨F.row, F.col, F.color, F.row_lt, F.col_lt⟩, ?_, ?_⟩
  · rw [termClearOps, execs_append, execs_fillOps, ← F.color]
    rfl
  · intro op hop
    rcases List.mem_append.mp hop with hop | hop
    · exact inside_fillOps (Nat.le_of_eq (Nat.zero_add _)) _ op hop
    · obtain rfl := List.mem_singleton.mp hop
      trivial

/-- The end of a line, wherever the column is. -/
theorem does_endLine (hrow : t.row = c.row) (hcolor : t.color = c.color)
    (hlt : c.row < vgaHeight) : Does t (endLine t) (endLineOps c) := by
  rw [endLine_eq, hrow, hcolor, endLineOps]
  by_cases hlast : c.row + 1 = vgaHeight
  · dsimp only
    rw [if_pos hlast, if_pos hlast]
    have hback : c.row + 1 - 1 < vgaHeight := by omega
    refine ⟨_, rfl, ⟨(Nat.add_sub_cancel c.row 1).symm, rfl, rfl, hback, Nat.zero_lt_succ 79⟩,
      ?_, ?_⟩
    · rw [Code.andThen, execs_append, execs_termScrollupOps]
      simp [execs, DevOp.exec]
    · intro op hop
      rcases List.mem_append.mp hop with hop | hop
      · obtain rfl := List.mem_singleton.mp hop
        trivial
      · exact inside_termScrollupOps _ op hop
  · dsimp only
    rw [if_neg hlast, if_neg hlast]
    have hnext : c.row + 1 < vgaHeight := by omega
    refine ⟨_, rfl, ⟨rfl, rfl, rfl, hnext, Nat.zero_lt_succ 79⟩, rfl, ?_⟩
    intro op hop
    obtain rfl := List.mem_singleton.mp hop
    trivial

/-- One byte. -/
theorem does_putchar (F : Follows t c) (ch : UInt8) :
    Does t (putchar ch t) (putcharOps ch c) := by
  have hrow : t.row < vgaHeight := F.row ▸ F.row_lt
  have hcol : t.col < vgaWidth := F.col ▸ F.col_lt
  by_cases hch : ch = 10
  · rw [putchar, putcharOps, if_pos hch, if_pos hch]
    exact does_endLine F.row F.color F.row_lt
  · have hin : c.row * vgaWidth + c.col < vgaHeight * vgaWidth := by
      have h₁ := F.row_lt
      have h₂ := F.col_lt
      simp only [vgaHeight, vgaWidth] at *
      omega
    have hinside : ∀ op ∈ [DevOp.store (c.row * vgaWidth + c.col) (makeVgaentry ch c.color)],
        op.Inside := by
      intro op hop
      obtain rfl := List.mem_singleton.mp hop
      exact hin
    rw [putchar, putcharOps, if_neg hch, if_neg hch, termPutc_eq ch hrow hcol, ok_bind, F.row,
      F.col, F.color]
    dsimp only
    by_cases hend : c.col + 1 = vgaWidth
    · rw [if_pos hend, if_pos hend]
      obtain ⟨t', h', F', hx, hin'⟩ := does_endLine (t := { t with
        buf := Function.update t.buf (c.row * vgaWidth + c.col) (makeVgaentry ch c.color)
        row := c.row
        col := c.col + 1
        color := c.color }) (c := { c with col := c.col + 1 }) rfl rfl F.row_lt
      refine ⟨t', ?_, F', ?_, ?_⟩
      · exact h'
      · exact hx
      · intro op hop
        rcases List.mem_append.mp hop with hop | hop
        · exact hinside op hop
        · exact hin' op hop
    · rw [if_neg hend, if_neg hend]
      have hnext : c.col + 1 < vgaWidth := by
        have := F.col_lt
        omega
      exact ⟨_, rfl, ⟨rfl, rfl, rfl, F.row_lt, hnext⟩, rfl, hinside⟩

/-- Any bytes. -/
theorem does_putchars : ∀ (cs : List UInt8) {t : Term} {c : Cursor}, Follows t c →
    Does t (putchars cs t) (putcharsOps cs c)
  | [], t, _, F => ⟨t, rfl, F, rfl, fun _ hop => absurd hop List.not_mem_nil⟩
  | ch :: cs, _, _, F => (does_putchar F ch).andThen fun _ F' => does_putchars cs F'

end Follow

end Philix.Winky
