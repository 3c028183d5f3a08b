/-
# The console mailbox: two processes over the control registers

The device posts an update by writing its type to `OUTPUT_AVAIL` and waits for the host to
set `OUTPUT_DRAWN`; the host polls `OUTPUT_AVAIL`, handles what it finds, and answers.  The
two run freely.  One step is one register access of one of them, or the host running a case
of its update switch, which reads at most one parameter register.

Three fields of the state are history only, and no step looks at them: the updates posted,
the updates handled, and how many calls of the device have returned.
-/
import Philix.Console.State
import Philix.Lib.Lts

namespace Philix.Mailbox

open Philix.Console (UpdateType)

/-! ## 1. Updates -/

/-- The value of `OUTPUT_AVAIL` as the host's switch reads it. -/
def typeOf (v : UInt32) : UpdateType :=
  match v.toNat with
  | 0 => .noUpdate
  | 1 => .charDrawn
  | 2 => .lineDrawn
  | 3 => .cursorUpdate
  | 4 => .screenRedraw
  | 5 => .consoleShutdown
  | 6 => .scrollup
  | _ => .inval

/-- The parameter registers. -/
inductive ParamReg
  | char | line
  deriving DecidableEq, Repr

/-- The calls by which the device posts an update: `phi_notify_redraw`,
`phi_notify_scrollup`, `phi_notify_char_write`, `phi_notify_line_draw`,
`phi_send_cons_shutdown`. -/
inductive Post
  | redraw
  | scrollup
  | charWrite (x y : UInt16)
  | lineDraw (row : UInt32)
  | shutdown
  deriving DecidableEq, Repr

/-- What the call writes to `OUTPUT_AVAIL`. -/
def Post.type : Post → UpdateType
  | .redraw => .screenRedraw
  | .scrollup => .scrollup
  | .charWrite _ _ => .charDrawn
  | .lineDraw _ => .lineDrawn
  | .shutdown => .consoleShutdown

/-- The parameter the call writes first, if any. -/
def Post.param : Post → Option (ParamReg × UInt32)
  | .charWrite x y => some (.char, x.toUInt32 ||| y.toUInt32 <<< 16)
  | .lineDraw row => some (.line, row)
  | _ => none

def Post.avail (p : Post) : UInt32 := .ofNat p.type.code

theorem Post.avail_ne_zero (p : Post) : p.avail ≠ 0 := by
  cases p <;> simp [Post.avail, Post.type, UpdateType.code]

@[simp] theorem typeOf_avail (p : Post) : typeOf p.avail = p.type := by
  cases p <;> rfl

theorem Post.type_ne (p : Post) : p.type ≠ .noUpdate ∧ p.type ≠ .inval := by
  cases p <;> simp [Post.type]

/-! ## 2. States -/

/-- Where the host is: in `wait_for_cons_update`, at the update switch with the value it
returned (and, for the history, the post that wrote it), before the write to `OUTPUT_AVAIL`,
before `draw_done`, or out of its loop. -/
inductive HostPc
  | polling
  | switching (u : UpdateType) (nth : Nat)
  | clearing (u : UpdateType)
  | acking (u : UpdateType)
  | stopped
  deriving DecidableEq, Repr

/-- Where the device is: between calls, before the write to `OUTPUT_AVAIL`, in the spin of
`wait_for_out_cmpl`, or before its write. -/
inductive DevPc
  | idle
  | posting (p : Post)
  | spinning
  | clearing
  deriving DecidableEq, Repr

/-- An update the host ran the case of: which post it read, as what type, and the value of
the parameter register the case read. -/
structure Handled where
  nth : Nat
  type : UpdateType
  param : Option UInt32
  deriving DecidableEq, Repr

structure State where
  avail : UInt32
  drawn : UInt32
  charReg : UInt32
  lineReg : UInt32
  host : HostPc
  dev : DevPc
  posted : List Post
  handled : List Handled
  returned : Nat
  deriving DecidableEq, Repr

/-- Both registers clear, the host polling, the device between calls. -/
def State.init : State where
  avail := 0
  drawn := 0
  charReg := 0
  lineReg := 0
  host := .polling
  dev := .idle
  posted := []
  handled := []
  returned := 0

/-- The write to a parameter register. -/
def State.writeParam (s : State) : ParamReg × UInt32 → State
  | (.char, v) => { s with charReg := v }
  | (.line, v) => { s with lineReg := v }

/-- The write to `OUTPUT_AVAIL`; the device spins after it. -/
def State.post (s : State) (p : Post) : State :=
  { s with avail := p.avail, dev := .spinning, posted := s.posted ++ [p] }

/-- What the case for `u` reads: with curses, the parameter registers of the two drawing
updates. -/
def State.readParam (s : State) (nocurses : Bool) (u : UpdateType) : Option UInt32 :=
  match nocurses, u with
  | false, .charDrawn => some s.charReg
  | false, .lineDrawn => some s.lineReg
  | _, _ => none

/-- The host has run the case for `u`, read from the `nth` post. -/
def State.handle (s : State) (nocurses : Bool) (u : UpdateType) (nth : Nat) (pc : HostPc) :
    State :=
  { s with host := pc, handled := s.handled ++ [⟨nth, u, s.readParam nocurses u⟩] }

/-! ## 3. Steps -/

/-- Who does what.  `giveUp` is the poll that returns `TYPE_NO_UPDATE`; `fail` is a case that
returns from the main loop or fails an assertion. -/
inductive Act
  | poll | giveUp | run | fail | clear | ack
  | call (p : Post) | post | spin | clearDrawn
  deriving DecidableEq, Repr

inductive Step (nocurses : Bool) : State → Act → State → Prop
  /-- `wait_for_cons_update` reads `OUTPUT_AVAIL` as clear and goes on polling. -/
  | pollEmpty {s : State} : s.host = .polling → s.avail = 0 → Step nocurses s .poll s
  /-- It reads an update and returns it. -/
  | pollFull {s : State} : s.host = .polling → s.avail ≠ 0 →
      Step nocurses s .poll { s with host := .switching (typeOf s.avail) (s.posted.length - 1) }
  /-- It reads `OUTPUT_AVAIL` as clear and its delay count is used up. -/
  | giveUp {s : State} : s.host = .polling → s.avail = 0 →
      Step nocurses s .giveUp { s with host := .switching .noUpdate 0 }
  /-- The empty case of `TYPE_NO_UPDATE`. -/
  | runNothing {s : State} {nth : Nat} : s.host = .switching .noUpdate nth →
      Step nocurses s .run { s with host := .clearing .noUpdate }
  /-- The case of an update. -/
  | run {s : State} {u : UpdateType} {nth : Nat} : s.host = .switching u nth →
      u ≠ .noUpdate → u ≠ .inval →
      Step nocurses s .run (s.handle nocurses u nth (.clearing u))
  /-- The handler of an update, when it does not complete. -/
  | fail {s : State} {u : UpdateType} {nth : Nat} : s.host = .switching u nth →
      u ≠ .noUpdate → u ≠ .inval → u ≠ .consoleShutdown →
      Step nocurses s .fail (s.handle nocurses u nth .stopped)
  /-- The default case. -/
  | failUnknown {s : State} {nth : Nat} : s.host = .switching .inval nth →
      Step nocurses s .fail { s with host := .stopped }
  /-- `OUTPUT_AVAIL := 0`. -/
  | clear {s : State} {u : UpdateType} : s.host = .clearing u →
      Step nocurses s .clear { s with avail := 0, host := .acking u }
  /-- `draw_done`; after a shutdown the host exits. -/
  | ack {s : State} {u : UpdateType} : s.host = .acking u →
      Step nocurses s .ack
        { s with drawn := 1, host := if u = .consoleShutdown then .stopped else .polling }
  /-- A call without a parameter starts with the write to `OUTPUT_AVAIL`. -/
  | call {s : State} {p : Post} : s.dev = .idle → p.param = none →
      Step nocurses s (.call p) (s.post p)
  /-- Any other call starts with the write of its parameter. -/
  | callParam {s : State} {p : Post} {w : ParamReg × UInt32} : s.dev = .idle →
      p.param = some w → Step nocurses s (.call p) { s.writeParam w with dev := .posting p }
  | post {s : State} {p : Post} : s.dev = .posting p → Step nocurses s .post (s.post p)
  | spinAgain {s : State} : s.dev = .spinning → s.drawn = 0 → Step nocurses s .spin s
  | spinDone {s : State} : s.dev = .spinning → s.drawn ≠ 0 →
      Step nocurses s .spin { s with dev := .clearing }
  /-- `OUTPUT_DRAWN := 0`, and the call returns. -/
  | clearDrawn {s : State} : s.dev = .clearing →
      Step nocurses s .clearDrawn
        { s with drawn := 0, dev := .idle, returned := s.returned + 1 }

end Philix.Mailbox
