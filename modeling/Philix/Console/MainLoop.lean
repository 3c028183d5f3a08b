/-
# The main loops, one event at a time

`curses_main_loop` and `nocurses_main_loop` take an update from the mailbox, handle it, and
(with curses) handle a key.  An event is one of these two halves of a round, or the device
writing its framebuffer; a round in which nothing was posted or pressed is no event.
-/
import Philix.Console.Draw
import Philix.Console.Dump
import Philix.Lib.Lts

namespace Philix.Console

open Loop

/-- The command line options the loops read. -/
structure Opts where
  nocurses : Bool
  dumponexit : Bool

/-- The keys `curses_main_loop` tells apart in what it does to the console; `other` stands for
the keys that leave it alone. -/
inductive Key
  | up | down | npage | ppage | g | shiftG | o | other
  deriving DecidableEq, Repr

/-- What the environment answers during an event: the block `malloc` would hand out, and
whether `fopen` succeeds. -/
structure Env where
  malloc : Ptr := none
  fopen : Bool := true

inductive Event
  | device (fb : Framebuffer)
  | update (u : UpdateType) (reg : UInt32) (env : Env)
  | key (k : Key) (env : Env)

/-- The dump, with enough fuel for the walks. -/
def dump (env : Env) (s : Cons) : Except Stop (List UInt8) :=
  dumpConsoleToFile env.fopen (s.histCnt + 1) s

/-- `handle_char_update`, with the value of `CHAR_REG`. -/
def handleCharUpdate (cinfo : UInt32) : List DrawCall :=
  [.cell (cinfo &&& 0xff).toNat (cinfo >>> 16).toNat]

/-- `handle_line_update`, with the value of `LINE_REG`. -/
def handleLineUpdate (row : UInt32) (s : Cons) : Except Stop (List DrawCall) := do
  assert (row.toNat < phiFbHeight)
  drawOutputWin s

/-- The `TYPE_SCROLLUP` case of both loops. -/
def scrollupCase (env : Env) (s : Cons) : Except Stop Cons := do
  let (r, s) ← handleScrollup env.malloc s
  if r ≠ 0 then .error .returned else pure s

/-- The update switch of `nocurses_main_loop`. -/
def nocursesUpdate (u : UpdateType) (env : Env) (s : Cons) : Except Stop (Cons × List DrawCall) :=
  match u with
  | .noUpdate | .charDrawn | .lineDrawn | .screenRedraw | .cursorUpdate => .ok (s, [])
  | .consoleShutdown => do
    let _ ← dump env s
    .error .exited
  | .scrollup => do pure (← scrollupCase env s, [])
  | .inval => .error .returned

/-- The update switch of `curses_main_loop`. -/
def cursesUpdate (o : Opts) (u : UpdateType) (reg : UInt32) (env : Env) (s : Cons) :
    Except Stop (Cons × List DrawCall) :=
  match u with
  | .noUpdate | .cursorUpdate => .ok (s, [])
  | .charDrawn => .ok (s, handleCharUpdate reg)
  | .lineDrawn => do pure (s, ← handleLineUpdate reg s)
  | .screenRedraw => do pure (s, ← drawOutputWin s)
  | .consoleShutdown => do
    if o.dumponexit then
      let _ ← dump env s
    .error .exited
  | .scrollup => do pure (← scrollupCase env s, [])
  | .inval => .error .returned

/-- Move the view, then redraw. -/
def viewKey (move : Cons → Except Stop Cons) (s : Cons) : Except Stop (Cons × List DrawCall) := do
  let s ← move s
  pure (s, ← drawOutputWin s)

/-- The key switch of `curses_main_loop`. -/
def handleKey (k : Key) (env : Env) (s : Cons) : Except Stop (Cons × List DrawCall) :=
  match k with
  | .up => viewKey (scrollOutputWin 1) s
  | .down => viewKey (scrollOutputWin (-1)) s
  | .npage => viewKey (scrollPage 0) s
  | .ppage => viewKey (scrollPage 1) s
  | .g => viewKey scrollTop s
  | .shiftG => viewKey (fun s => .ok (scrollBottom s)) s
  | .o => do
    let _ ← dump env s
    pure (s, [])
  | .other => .ok (s, [])

/-- One event: the console after it and what it drew.  Without curses no key is read. -/
def step (o : Opts) (s : Cons) : Event → Except Stop (Cons × List DrawCall)
  | .device fb => .ok ({ s with fb }, [])
  | .update u reg env => if o.nocurses then nocursesUpdate u env s else cursesUpdate o u reg env s
  | .key k env => if o.nocurses then .ok (s, []) else handleKey k env s

/-- The console runs on: the event neither ends the program nor faults. -/
def Step (o : Opts) (s : Cons) (e : Event) (s' : Cons) : Prop :=
  ∃ d, step o s e = .ok (s', d)

/-- One event after the other. -/
def runEvents (o : Opts) : List Event → Cons → Except Stop Cons
  | [], s => .ok s
  | e :: es, s => do
    let (s, _) ← step o s e
    runEvents o es s

theorem runEvents_cons_ok {o : Opts} {e : Event} {es : List Event} {s s' : Cons}
    {d : List DrawCall} (h : step o s e = .ok (s', d)) :
    runEvents o (e :: es) s = runEvents o es s' := by
  rw [runEvents, h]
  rfl

end Philix.Console
