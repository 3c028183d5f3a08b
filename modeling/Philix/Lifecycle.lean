/-
# The life of the card under `philix`

`main` boots the card through the control file of its driver (`boot_phi`), hands over to the
main loop, and resets the card when it ends: `console_init` registers an exit handler, and
handlers for `^C` and for a fault.  Here is what the card gets to see of that, in order: reads
of its state, resets, and boot commands.

The handlers differ.  With curses both of them call `exit`.  In batch mode the one for `^C`
dumps the console, resets the card and returns to the loop, and the one for a fault resets the
card and returns to the access that faulted.  An assertion that fails ends the program without
the exit handler.  `card_life` says how every run goes.
-/
import Mathlib.Data.Nat.Find
import Philix.Console.ScrollSafe
import Philix.Lib.Traced

namespace Philix.Card

open Console Loop Lts

/-! ## 1. Booting -/

/-- What `philix` does to the card. -/
inductive CardAct
  /-- the word read from the state file -/
  | state (word : List Char)
  /-- `reset_phi` -/
  | reset
  /-- the command written to the state file -/
  | boot (command : List Char)
  deriving DecidableEq, Repr

/-- What stops `boot_phi`. -/
inductive BootStop
  /-- it returns `-1` -/
  | failed
  /-- a buffer is too small -/
  | overrun
  /-- the card has not become ready in as many reads as the model follows -/
  | waiting
  deriving DecidableEq, Repr

/-- The arguments of `boot_phi`, and its surroundings: whether the files are there, and the word
each read of the state file gives. -/
structure BootEnv where
  bpath : List Char
  kpath : List Char
  micnum : List Char
  bstat : Bool
  kstat : Bool
  states : Nat → List Char

def phiBootStr : List Char := "boot:linux:".toList

def phiBasePath : List Char := "/sys/class/mic/mic".toList

def phiStateFile : List Char := "/state".toList

/-- `strcat` of the parts, one after the other, to a cleared buffer. -/
def strcats (size : Nat) (parts : List (List Char)) : Traced CardAct BootStop (List Char) :=
  .lift (if parts.flatten.length < size then .ok parts.flatten else .error .overrun)

/-- `strncmp(phi_state, "ready", 5) == 0` -/
def ready (phiState : List Char) : Bool := phiState.take 5 == "ready".toList

/-- The `i`th `fscanf(fd, "%s", phi_state)`. -/
def readState (B : BootEnv) (i : Nat) : Traced CardAct BootStop (List Char) := do
  .emit (.state (B.states i))
  strcats 64 [B.states i]

/-- `reset_phi` -/
def resetPhi (B : BootEnv) : Traced CardAct BootStop Unit := do
  let _ ← strcats 128 ["micctrl --reset mic".toList, B.micnum, "\n".toList]
  .emit .reset

/-- The loop that waits for the card, from the `i`th read on. -/
def waitReady (B : BootEnv) : Nat → Nat → List Char → Traced CardAct BootStop Unit
  | 0, _, phiState => if ready phiState then pure () else .lift (.error .waiting)
  | fuel + 1, i, phiState =>
    if ready phiState then pure ()
    else do waitReady B fuel (i + 1) (← readState B i)

/-- `boot_phi` -/
def bootPhi (B : BootEnv) (fuel : Nat) : Traced CardAct BootStop Unit :=
  if ¬ B.bstat then .lift (.error .failed)
  else if ¬ B.kstat then .lift (.error .failed)
  else do
    let bootStr ← strcats 128 [phiBootStr, B.bpath, [':'], B.kpath]
    let _phiPath ← strcats 128 [phiBasePath, B.micnum, phiStateFile]
    let phiState ← readState B 0
    if ready phiState then .emit (.boot bootStr)
    else do
      resetPhi B
      waitReady B fuel 1 phiState
      .emit (.boot bootStr)

/-! ## 2. Running -/

/-- What happens to the running program: an event of the main loop, or `^C` between two. -/
inductive Happening
  | event (e : Event)
  | sigint (env : Env)

/-- The program. -/
inductive Proc
  /-- in `boot_phi` -/
  | booting
  /-- in the main loop -/
  | running (s : Cons)
  /-- `exit`, or `main` has returned -/
  | ended
  /-- `abort`, without the exit handler -/
  | aborted
  /-- a fault whose handler returns to it -/
  | faulting
  /-- a load through a dangling pointer, or a buffer overrun -/
  | undefined

/-- What becomes of it when the main loop or a handler stops. -/
def stopped (o : Opts) : Stop → Proc × List CardAct
  | .exited | .returned => (.ended, [.reset])
  | .assertFailed => (.aborted, [])
  | .nullDeref => if o.nocurses then (.faulting, [.reset]) else (.ended, [.reset])
  | .useAfterFree | .diverged => (.undefined, [])

/-- `curses_sigint_handler`, `nocurses_sigint_handler` -/
def sigint (o : Opts) (env : Env) (s : Cons) : Proc × List CardAct :=
  if o.nocurses then
    match dump env s with
    | .ok _ => (.running s, [.reset])
    | .error stop => stopped o stop
  else (.ended, [.reset])

/-- One happening. -/
def happen (o : Opts) : Proc → Happening → Proc × List CardAct
  | .running s, .event e =>
    match step o s e with
    | .ok (s', _) => (.running s', [])
    | .error stop => stopped o stop
  | .running s, .sigint env => sigint o env s
  | .faulting, _ => (.faulting, [.reset])
  | p, _ => (p, [])

/-- One after the other. -/
def happenAll (o : Opts) : Proc → List Happening → Proc × List CardAct
  | p, [] => (p, [])
  | p, x :: xs =>
    let r := happen o p x
    let rest := happenAll o r.1 xs
    (rest.1, r.2 ++ rest.2)

/-- `main`, after the options: `screenOk` is whether the terminal is large enough and the
windows could be set up, `fb₀` what is in the framebuffer when the console is initialised. -/
def philix (o : Opts) (B : BootEnv) (fuel : Nat) (screenOk : Bool) (fb₀ : Framebuffer)
    (hs : List Happening) : Proc × List CardAct :=
  let b := bootPhi B fuel
  match b.result with
  | .error .failed => (.ended, b.log)
  | .error .overrun => (.undefined, b.log)
  | .error .waiting => (.booting, b.log)
  | .ok () =>
    if ¬ o.nocurses ∧ ¬ screenOk then (.ended, b.log ++ [.reset])
    else
      let (p, acts) := happenAll o (.running (consoleInit fb₀)) hs
      (p, b.log ++ acts)

/-! ## 3. What `boot_phi` does -/

/-- The buffers are large enough. -/
structure Fits (B : BootEnv) : Prop where
  command : B.bpath.length + B.kpath.length < 116
  path : B.micnum.length < 104
  word : ∀ i, (B.states i).length < 64

/-- The card is ready at the `n`th read, and not before. -/
def ReadyAt (B : BootEnv) (n : Nat) : Prop :=
  ready (B.states n) ∧ ∀ i < n, ¬ ready (B.states i)

def bootCommand (B : BootEnv) : List Char := phiBootStr ++ (B.bpath ++ (':' :: B.kpath))

/-- The reads from the `i`th on, `n` of them. -/
def reads (B : BootEnv) (i n : Nat) : List CardAct :=
  (List.range' i n).map fun k => .state (B.states k)

/-- A boot: a card that is not ready at once is reset, and read until it is; the command follows
the read that has found it ready. -/
def bootLog (B : BootEnv) (n : Nat) : List CardAct :=
  if n = 0 then [.state (B.states 0), .boot (bootCommand B)]
  else .state (B.states 0) :: .reset :: (reads B 1 n ++ [.boot (bootCommand B)])

section Boot

variable {B : BootEnv} {fuel i n : Nat}

theorem strcats_of_lt {size : Nat} {parts : List (List Char)} (h : parts.flatten.length < size) :
    strcats size parts = ⟨[], .ok parts.flatten⟩ := by
  rw [strcats, if_pos h]
  rfl

theorem readState_eq (F : Fits B) (i : Nat) :
    readState B i = ⟨[.state (B.states i)], .ok (B.states i)⟩ := by
  have hflat : [B.states i].flatten = B.states i := List.flatten_singleton
  have hword := F.word i
  rw [readState, strcats_of_lt (by rwa [hflat]), hflat]
  rfl

theorem resetPhi_eq (F : Fits B) : resetPhi B = ⟨[.reset], .ok ()⟩ := by
  have hpath := F.path
  have hlen : ["micctrl --reset mic".toList, B.micnum, "\n".toList].flatten.length < 128 := by
    simp only [List.flatten_cons, List.flatten_nil, List.length_append, List.length_nil]
    have h₁ : "micctrl --reset mic".toList.length = 19 := by decide
    have h₂ : "\n".toList.length = 1 := by decide
    omega
  rw [resetPhi, strcats_of_lt hlen]
  rfl

theorem waitReady_of_ready : ∀ {n fuel i : Nat}, Fits B → n ≤ fuel → ready (B.states (i + n)) →
    (∀ k < n, ¬ ready (B.states (i + k))) →
    waitReady B fuel (i + 1) (B.states i) = ⟨reads B (i + 1) n, .ok ()⟩
  | 0, 0, i, _, _, hready, _ => by
    rw [Nat.add_zero] at hready
    rw [waitReady, if_pos hready]
    rfl
  | 0, fuel + 1, i, _, _, hready, _ => by
    rw [Nat.add_zero] at hready
    rw [waitReady, if_pos hready]
    rfl
  | n + 1, fuel + 1, i, F, hle, hready, hbefore => by
    have hfirst : ¬ ready (B.states i) := hbefore 0 (Nat.succ_pos n)
    have hrest := waitReady_of_ready (i := i + 1) F (Nat.le_of_succ_le_succ hle)
      (by rwa [Nat.add_assoc, Nat.add_comm 1])
      (fun k hk => by
        rw [Nat.add_assoc, Nat.add_comm 1]
        exact hbefore (k + 1) (Nat.succ_lt_succ hk))
    rw [waitReady, if_neg hfirst, Traced.bind_of_ok (readState_eq F (i + 1)), hrest]
    rfl

theorem waitReady_of_not_ready : ∀ {fuel i : Nat}, Fits B →
    (∀ k ≤ fuel, ¬ ready (B.states (i + k))) →
    waitReady B fuel (i + 1) (B.states i) = ⟨reads B (i + 1) fuel, .error .waiting⟩
  | 0, i, _, h => by
    have hfirst : ¬ ready (B.states i) := h 0 (Nat.le_refl 0)
    rw [waitReady, if_neg hfirst]
    rfl
  | fuel + 1, i, F, h => by
    have hfirst : ¬ ready (B.states i) := h 0 (Nat.zero_le _)
    have hrest : waitReady B fuel (i + 2) (B.states (i + 1)) =
        ⟨reads B (i + 2) fuel, .error .waiting⟩ :=
      waitReady_of_not_ready F fun k hk => by
        rw [Nat.add_assoc, Nat.add_comm 1]
        exact h (k + 1) (Nat.succ_le_succ hk)
    rw [waitReady, if_neg hfirst, Traced.bind_of_ok (readState_eq F (i + 1)), hrest]
    rfl

/-- Both strings fit, so that `boot_phi` gets to its first read. -/
theorem bootPhi_eq (F : Fits B) (hb : B.bstat) (hk : B.kstat) :
    bootPhi B fuel = (do
      let phiState ← readState B 0
      if ready phiState then .emit (.boot (bootCommand B))
      else do
        resetPhi B
        waitReady B fuel 1 phiState
        .emit (.boot (bootCommand B))) := by
  have hcommand : [phiBootStr, B.bpath, [':'], B.kpath].flatten = bootCommand B := by
    simp only [List.flatten_cons, List.flatten_nil, List.append_nil, bootCommand,
      List.singleton_append]
  have hlen₁ : (bootCommand B).length < 128 := by
    have hstr : phiBootStr.length = 11 := by decide
    have h := F.command
    simp only [bootCommand, List.length_append, List.length_cons, hstr]
    omega
  have hlen₂ : [phiBasePath, B.micnum, phiStateFile].flatten.length < 128 := by
    have hbase : phiBasePath.length = 18 := by decide
    have hfile : phiStateFile.length = 6 := by decide
    have h := F.path
    simp only [List.flatten_cons, List.flatten_nil, List.append_nil, List.length_append, hbase,
      hfile]
    omega
  rw [bootPhi, if_neg (not_not.mpr hb), if_neg (not_not.mpr hk),
    strcats_of_lt (by rwa [hcommand]), strcats_of_lt hlen₂, hcommand]
  rfl

/-- **A card that gets ready.** -/
theorem bootPhi_of_ready (F : Fits B) (hb : B.bstat) (hk : B.kstat) (hn : ReadyAt B n)
    (hle : n ≤ fuel) : bootPhi B fuel = ⟨bootLog B n, .ok ()⟩ := by
  rw [bootPhi_eq F hb hk, Traced.bind_of_ok (readState_eq F 0), bootLog]
  cases n with
  | zero =>
    rw [if_pos hn.1, if_pos rfl]
    rfl
  | succ n =>
    have hwait := waitReady_of_ready (i := 0) F hle (by rw [Nat.zero_add]; exact hn.1)
      fun k hk => by rw [Nat.zero_add]; exact hn.2 k hk
    rw [if_neg (hn.2 0 (Nat.succ_pos n)), if_neg (Nat.succ_ne_zero n),
      Traced.bind_of_ok (resetPhi_eq F), Traced.bind_of_ok hwait]
    rfl

/-- **A card that does not.** -/
theorem bootPhi_of_not_ready (F : Fits B) (hb : B.bstat) (hk : B.kstat)
    (h : ∀ i ≤ fuel, ¬ ready (B.states i)) :
    bootPhi B fuel = ⟨.state (B.states 0) :: .reset :: reads B 1 fuel, .error .waiting⟩ := by
  have hwait := waitReady_of_not_ready (i := 0) F fun k hk => by rw [Nat.zero_add]; exact h k hk
  rw [bootPhi_eq F hb hk, Traced.bind_of_ok (readState_eq F 0),
    if_neg (h 0 (Nat.zero_le _)), Traced.bind_of_ok (resetPhi_eq F), hwait]
  rfl

theorem bootPhi_of_missing (h : ¬ (B.bstat ∧ B.kstat)) :
    bootPhi B fuel = ⟨[], .error .failed⟩ := by
  rw [bootPhi]
  by_cases hb : B.bstat
  · rw [if_neg (not_not.mpr hb), if_pos fun hk => h ⟨hb, hk⟩]
    rfl
  · rw [if_pos hb]
    rfl

end Boot

/-! ## 4. How the running program can end -/

/-- A dump faults: it gets its file, and there is no line to start from. -/
def DumpFaults (s : Cons) (env : Env) : Prop := env.fopen = true ∧ s.histCnt = 0

/-- The program ends by `exit`, or by `main` returning. -/
def Ends (o : Opts) (s : Cons) : Happening → Prop
  | .event (.update .consoleShutdown _ env) => o.nocurses = false ∨ ¬ DumpFaults s env
  | .event (.update .scrollup _ env) => Heap.malloc s.heap env.malloc = none
  | .event (.update .inval _ _) => True
  | .event (.key .o env) => o.nocurses = false ∧ (env.fopen = false ∨ s.histCnt = 0)
  | .sigint env => o.nocurses = false ∨ env.fopen = false
  | _ => False

/-- It faults in batch mode: a dump of the console as it starts. -/
def Faults (o : Opts) (s : Cons) : Happening → Prop
  | .event (.update .consoleShutdown _ env) => o.nocurses = true ∧ DumpFaults s env
  | .sigint env => o.nocurses = true ∧ DumpFaults s env
  | _ => False

/-- The keys that scroll by lines. -/
def scrolls : Key → Bool
  | .up | .down | .npage | .ppage => true
  | _ => false

/-- An assertion fails, with curses: a scroll with no line saved, or a row off the screen. -/
def Aborts (o : Opts) (s : Cons) : Happening → Prop
  | .event (.key k _) => o.nocurses = false ∧ scrolls k = true ∧ s.histCnt = 0
  | .event (.update .lineDrawn reg _) => o.nocurses = false ∧ phiFbHeight ≤ reg.toNat
  | _ => False

/-- What is left of the program otherwise: it goes on, and a `^C` has reset the card; or, with
curses only, it has followed a dangling pointer. -/
def GoesOn (o : Opts) (s : Cons) (x : Happening) (r : Proc × List CardAct) : Prop :=
  (∃ e s', x = .event e ∧ Step o s e s' ∧ r = (.running s', [])) ∨
  (∃ env, x = .sigint env ∧ o.nocurses = true ∧ r = (.running s, [.reset])) ∨
  (o.nocurses = false ∧ r = (.undefined, []))

section Step

variable {o : Opts} {s : Cons} {x : Happening} {e : Event} {env : Env}

/-- What a dump comes to. -/
theorem dump_eq (hs : Reached s) (env : Env) :
    (env.fopen = false ∧ dump env s = .error .exited) ∨
    (DumpFaults s env ∧ dump env s = .error .nullDeref) ∨
    (env.fopen = true ∧ s.histCnt ≠ 0 ∧ ∃ bytes, dump env s = .ok bytes) := by
  obtain ⟨⟨l, H, -⟩, -⟩ := hs
  have hnil : l = [] ↔ s.histCnt = 0 := by rw [H.cnt, List.length_eq_zero_iff]
  have hfuel : l.length < s.histCnt + 1 := by rw [H.cnt]; exact Nat.lt_succ_self _
  have hfile := dumpConsoleToFile_eq H.ring hfuel
  rw [dump]
  cases hopen : env.fopen with
  | false => exact Or.inl ⟨rfl, rfl⟩
  | true =>
    by_cases hl : l = []
    · rw [if_pos hl] at hfile
      exact Or.inr (Or.inl ⟨⟨hopen, hnil.mp hl⟩, hfile⟩)
    · rw [if_neg hl] at hfile
      exact Or.inr (Or.inr ⟨rfl, mt hnil.mpr hl, _, hfile⟩)

theorem happen_of_error {stop : Stop} (h : step o s e = .error stop) :
    happen o (.running s) (.event e) = stopped o stop := by
  rw [happen, h]

theorem happen_of_ok {s' : Cons} {d : List DrawCall} (h : step o s e = .ok (s', d)) :
    happen o (.running s) (.event e) = (.running s', []) := by
  rw [happen, h]

/-- An event that stops, if at all, at a dangling pointer, and only with curses. -/
theorem goesOn_of_barring (h : Barring .useAfterFree (step o s e) fun _ => True)
    (hc : ∀ stop, step o s e = .error stop → o.nocurses = false) :
    GoesOn o s (.event e) (happen o (.running s) (.event e)) := by
  rcases h with h | ⟨⟨s', d⟩, h, -⟩
  · exact Or.inr (Or.inr ⟨hc _ h, happen_of_error h⟩)
  · exact Or.inl ⟨e, s', rfl, ⟨d, h⟩, happen_of_ok h⟩

theorem goesOn_of_ok {s' : Cons} {d : List DrawCall} (h : step o s e = .ok (s', d)) :
    GoesOn o s (.event e) (happen o (.running s) (.event e)) :=
  Or.inl ⟨e, s', rfl, ⟨d, h⟩, happen_of_ok h⟩

/-- A redraw. -/
theorem drawOutputWin_barring (hs : Reached s) :
    Barring .useAfterFree (do pure (s, ← drawOutputWin s) : Except Stop (Cons × List DrawCall))
      fun _ => True := by
  obtain ⟨⟨l, -, h0, -⟩, -⟩ := hs
  refine (drawOutputWin_rows h0).bind fun d _ => ?_
  rw [pure_eq_ok, barring_ok_iff]
  trivial

/-- `x` ends the program, faults in batch mode, aborts, or none of these. -/
inductive Outcome (o : Opts) (s : Cons) (x : Happening) : Proc × List CardAct → Prop
  | ends (h : Ends o s x) : Outcome o s x (.ended, [.reset])
  | faults (h : Faults o s x) : Outcome o s x (.faulting, [.reset])
  | aborts (h : Aborts o s x) : Outcome o s x (.aborted, [])
  | goesOn {r : Proc × List CardAct} (he : ¬ Ends o s x) (hf : ¬ Faults o s x)
      (ha : ¬ Aborts o s x) (h : GoesOn o s x r) : Outcome o s x r

/-- A dump before the program exits. -/
theorem outcome_shutdown (hs : Reached s) (reg : UInt32) (env : Env) :
    Outcome o s (.event (.update .consoleShutdown reg env))
      (happen o (.running s) (.event (.update .consoleShutdown reg env))) := by
  cases hc : o.nocurses with
  | true =>
    have hstep : step o s (.update .consoleShutdown reg env) =
        dump env s >>= fun _ => .error .exited := by
      rw [step, if_pos hc]
      rfl
    rcases dump_eq hs env with ⟨hopen, hd⟩ | ⟨hf, hd⟩ | ⟨-, hne, bytes, hd⟩
    · rw [happen_of_error (hstep.trans (by rw [hd, error_bind])), stopped]
      exact .ends (Or.inr fun hf => by simp [hf.1] at hopen)
    · rw [happen_of_error (hstep.trans (by rw [hd, error_bind])), stopped, if_pos hc]
      exact .faults ⟨hc, hf⟩
    · rw [happen_of_error (hstep.trans (by rw [hd, ok_bind])), stopped]
      exact .ends (Or.inr fun hf => hne hf.2)
  | false =>
    have hstop : ∃ stop, step o s (.update .consoleShutdown reg env) = .error stop ∧
        stopped o stop = (.ended, [.reset]) := by
      rw [step, if_neg (by simp [hc]), cursesUpdate]
      by_cases hdump : o.dumponexit = true
      · rw [if_pos hdump]
        rcases dump_eq hs env with ⟨-, hd⟩ | ⟨-, hd⟩ | ⟨-, -, bytes, hd⟩
        · exact ⟨.exited, by rw [hd]; rfl, rfl⟩
        · refine ⟨.nullDeref, by rw [hd]; rfl, ?_⟩
          rw [stopped, if_neg (by simp [hc])]
        · exact ⟨.exited, by rw [hd]; rfl, rfl⟩
      · rw [if_neg hdump]
        exact ⟨.exited, rfl, rfl⟩
    obtain ⟨stop, hstep, hstop⟩ := hstop
    rw [happen_of_error hstep, hstop]
    exact .ends (Or.inl hc)

theorem outcome_scrollup (hs : Reached s) (reg : UInt32) (env : Env) :
    Outcome o s (.event (.update .scrollup reg env))
      (happen o (.running s) (.event (.update .scrollup reg env))) := by
  obtain ⟨⟨l, H, -⟩, -⟩ := hs
  cases ha : Heap.malloc s.heap env.malloc with
  | none =>
    have hcase : scrollupCase env s = .error .returned := by
      rcases handleScrollup_spec H env.malloc with ⟨-, hr⟩ | ⟨a, s', hm, hfree, -⟩
      · rw [scrollupCase, hr]
        rfl
      · rw [malloc_eq_some_iff.mpr ⟨hm, hfree⟩] at ha
        cases ha
    have hstep : step o s (.update .scrollup reg env) = .error .returned := by
      rw [step]
      split
      · rw [nocursesUpdate, hcase]
        rfl
      · rw [cursesUpdate, hcase]
        rfl
    rw [happen_of_error hstep, stopped]
    exact .ends ha
  | some a =>
    obtain ⟨s', hstep, -⟩ := H.step_malloc o reg env ha
    exact .goesOn (by simp [Ends, ha]) (by simp [Faults]) (by simp [Aborts]) (goesOn_of_ok hstep)

/-- `o`: a dump, with curses. -/
theorem outcome_o (hs : Reached s) (hc : o.nocurses = false) (env : Env) :
    Outcome o s (.event (.key .o env)) (happen o (.running s) (.event (.key .o env))) := by
  have hstep : step o s (.key .o env) = dump env s >>= fun _ => .ok (s, []) := by
    rw [step, if_neg (by simp [hc])]
    rfl
  rcases dump_eq hs env with ⟨hopen, hd⟩ | ⟨hf, hd⟩ | ⟨hopen, hne, bytes, hd⟩
  · rw [happen_of_error (hstep.trans (by rw [hd, error_bind])), stopped]
    exact .ends ⟨hc, Or.inl hopen⟩
  · rw [happen_of_error (hstep.trans (by rw [hd, error_bind])), stopped, if_neg (by simp [hc])]
    exact .ends ⟨hc, Or.inr hf.2⟩
  · exact .goesOn (by simp [Ends, hopen, hne]) (by simp [Faults]) (by simp [Aborts, scrolls])
      (goesOn_of_ok (hstep.trans (by rw [hd, ok_bind])))

/-- A key that moves the view, with curses. -/
theorem outcome_view (hs : Reached s) (hc : o.nocurses = false) {k : Key}
    (hk : k.movesView = true) (env : Env) :
    Outcome o s (.event (.key k env)) (happen o (.running s) (.event (.key k env))) := by
  have hstep : step o s (.key k env) = handleKey k env s := by
    rw [step, if_neg (by simp [hc])]
  have hends : ¬ Ends o s (.event (.key k env)) := by
    intro h
    cases k <;> first | exact h | cases hk
  by_cases habort : scrolls k = true ∧ s.histCnt = 0
  · have hg : k ≠ .g ∧ k ≠ .shiftG := by
      constructor <;>
      · rintro rfl
        exact absurd habort.1 (by decide)
    have herr : handleKey k env s = .error .assertFailed :=
      hs.press_empty hk habort.2 hg.1 hg.2
    rw [happen_of_error (hstep.trans herr), stopped]
    exact .aborts ⟨hc, habort⟩
  · have hcond : s.histCnt ≠ 0 ∨ k = .g ∨ k = .shiftG := by
      by_cases h0 : s.histCnt = 0
      · cases k with
        | g => exact Or.inr (Or.inl rfl)
        | shiftG => exact Or.inr (Or.inr rfl)
        | o => cases hk
        | other => cases hk
        | _ => exact absurd ⟨rfl, h0⟩ habort
      · exact Or.inl h0
    have hbar : Barring .useAfterFree (handleKey k env s) _ := hs.press hk hcond
    rw [← hstep] at hbar
    exact .goesOn hends (by simp [Faults]) (fun h => habort h.2)
      (goesOn_of_barring hbar fun _ _ => hc)

theorem outcome_inval (reg : UInt32) (env : Env) :
    Outcome o s (.event (.update .inval reg env))
      (happen o (.running s) (.event (.update .inval reg env))) := by
  have hstep : step o s (.update .inval reg env) = .error .returned := by
    rw [step]
    split <;> rfl
  rw [happen_of_error hstep, stopped]
  exact .ends trivial

/-- An update in batch mode: all but three are dropped. -/
theorem outcome_update_batch (hs : Reached s) (hc : o.nocurses = true) (u : UpdateType)
    (reg : UInt32) (env : Env) :
    Outcome o s (.event (.update u reg env))
      (happen o (.running s) (.event (.update u reg env))) := by
  have hstep : step o s (.update u reg env) = nocursesUpdate u env s := by rw [step, if_pos hc]
  cases u with
  | consoleShutdown => exact outcome_shutdown hs reg env
  | scrollup => exact outcome_scrollup hs reg env
  | inval => exact outcome_inval reg env
  | lineDrawn => exact .goesOn id id (by simp [Aborts, hc]) (goesOn_of_ok hstep)
  | _ => exact .goesOn id id id (goesOn_of_ok hstep)

/-- An update with curses: a row is asserted to be one of the screen before all is redrawn. -/
theorem outcome_update_curses (hs : Reached s) (hc : o.nocurses = false) (u : UpdateType)
    (reg : UInt32) (env : Env) :
    Outcome o s (.event (.update u reg env))
      (happen o (.running s) (.event (.update u reg env))) := by
  have hstep : step o s (.update u reg env) = cursesUpdate o u reg env s := by
    rw [step, if_neg (by simp [hc])]
  cases u with
  | consoleShutdown => exact outcome_shutdown hs reg env
  | scrollup => exact outcome_scrollup hs reg env
  | inval => exact outcome_inval reg env
  | lineDrawn =>
    by_cases hrow : reg.toNat < phiFbHeight
    · have hline : step o s (.update .lineDrawn reg env) =
          (do pure (s, ← drawOutputWin s)) := by
        rw [hstep, cursesUpdate, handleLineUpdate, Console.assert, if_pos (decide_eq_true hrow)]
        rfl
      have hbar := drawOutputWin_barring hs
      rw [← hline] at hbar
      exact .goesOn id id (fun h => absurd h.2 (Nat.not_le.mpr hrow))
        (goesOn_of_barring hbar fun _ _ => hc)
    · have hline : step o s (.update .lineDrawn reg env) = .error .assertFailed := by
        rw [hstep, cursesUpdate, handleLineUpdate, Console.assert, if_neg (by simpa using hrow)]
        rfl
      rw [happen_of_error hline, stopped]
      exact .aborts ⟨hc, Nat.not_lt.mp hrow⟩
  | screenRedraw =>
    have hbar := drawOutputWin_barring hs
    exact .goesOn id id id (goesOn_of_barring (by rwa [hstep]) fun _ _ => hc)
  | _ => exact .goesOn id id id (goesOn_of_ok hstep)

/-- **One happening**, in every console reached. -/
theorem happen_outcome (hs : Reached s) (x : Happening) :
    Outcome o s x (happen o (.running s) x) := by
  cases x with
  | sigint env =>
    have hsig : happen o (.running s) (.sigint env) = sigint o env s := rfl
    rw [hsig, sigint]
    cases hc : o.nocurses with
    | false => exact .ends (Or.inl hc)
    | true =>
      rw [if_pos rfl]
      rcases dump_eq hs env with ⟨hopen, hd⟩ | ⟨hf, hd⟩ | ⟨hopen, hne, bytes, hd⟩
      · rw [hd]
        exact .ends (Or.inr hopen)
      · rw [hd]
        dsimp only
        rw [stopped, if_pos hc]
        exact .faults ⟨hc, hf⟩
      · rw [hd]
        refine .goesOn ?_ (fun hf => hne hf.2.2) id (Or.inr (Or.inl ⟨env, rfl, hc, rfl⟩))
        rintro (h | h)
        · simp [hc] at h
        · simp [hopen] at h
  | event e =>
    cases e with
    | device fb => exact .goesOn id id id (goesOn_of_ok rfl)
    | update u reg env =>
      cases hc : o.nocurses with
      | true => exact outcome_update_batch hs hc u reg env
      | false => exact outcome_update_curses hs hc u reg env
    | key k env =>
      cases hc : o.nocurses with
      | true =>
        have hstep : step o s (.key k env) = .ok (s, []) := by rw [step, if_pos hc]
        refine .goesOn ?_ id (by simp [Aborts, hc]) (goesOn_of_ok hstep)
        cases k <;> simp [Ends, hc]
      | false =>
        cases k with
        | o => exact outcome_o hs hc env
        | other =>
          have hstep : step o s (.key .other env) = .ok (s, []) := by
            rw [step, if_neg (by simp [hc])]
            rfl
          exact .goesOn id id (by simp [Aborts, scrolls]) (goesOn_of_ok hstep)
        | _ => exact outcome_view hs hc rfl env

end Step

/-! ## 5. Runs -/

/-- The events of the main loop. -/
def events : List Happening → List Event
  | [] => []
  | .event e :: xs => e :: events xs
  | .sigint _ :: xs => events xs

/-- How often `^C` has been caught. -/
def caught : List Happening → Nat
  | [] => 0
  | .event _ :: xs => caught xs
  | .sigint _ :: xs => caught xs + 1

/-- The program still runs after `xs`: the console has gone through their events, and each `^C`
was one of batch mode. -/
def Outlives (o : Opts) (s₀ : Cons) (xs : List Happening) (s : Cons) : Prop :=
  Run (Step o) s₀ (events xs) s ∧ (caught xs ≠ 0 → o.nocurses = true)

/-- How the run `xs` from `s₀` goes: `xs₁` are the happenings before the one that ends it. -/
inductive Fate (o : Opts) (s₀ : Cons) : List Happening → Proc × List CardAct → Prop
  | running {xs : List Happening} {s : Cons} (h : Outlives o s₀ xs s) :
      Fate o s₀ xs (.running s, List.replicate (caught xs) .reset)
  | ended {xs₁ xs₂ : List Happening} {x : Happening} {s : Cons} (h : Outlives o s₀ xs₁ s)
      (hx : Ends o s x) :
      Fate o s₀ (xs₁ ++ x :: xs₂) (.ended, List.replicate (caught xs₁ + 1) .reset)
  | aborted {xs₁ xs₂ : List Happening} {x : Happening} {s : Cons} (h : Outlives o s₀ xs₁ s)
      (hx : Aborts o s x) :
      Fate o s₀ (xs₁ ++ x :: xs₂) (.aborted, List.replicate (caught xs₁) .reset)
  | faulting {xs₁ xs₂ : List Happening} {x : Happening} {s : Cons} (h : Outlives o s₀ xs₁ s)
      (hx : Faults o s x) :
      Fate o s₀ (xs₁ ++ x :: xs₂)
        (.faulting, List.replicate (caught xs₁ + 1 + xs₂.length) .reset)
  | undefined {xs₁ xs₂ : List Happening} {x : Happening} {s : Cons} (h : Outlives o s₀ xs₁ s)
      (hc : o.nocurses = false) :
      Fate o s₀ (xs₁ ++ x :: xs₂) (.undefined, List.replicate (caught xs₁) .reset)

section Runs

variable {o : Opts} {s s₀ s' : Cons} {x : Happening} {xs : List Happening}
  {r : Proc × List CardAct}

/-- Nothing happens to a program that has ended. -/
theorem happenAll_of_settled {p : Proc} (h : ∀ x, happen o p x = (p, [])) :
    ∀ xs, happenAll o p xs = (p, [])
  | [] => rfl
  | x :: xs => by
    rw [happenAll, h x, happenAll_of_settled h xs]
    rfl

theorem happenAll_faulting : ∀ xs,
    happenAll o .faulting xs = (.faulting, List.replicate xs.length .reset)
  | [] => rfl
  | x :: xs => by
    have h : happen o .faulting x = (.faulting, [.reset]) := rfl
    rw [happenAll, h, happenAll_faulting xs]
    rfl

theorem Outlives.cons_event {e : Event} (hstep : Step o s₀ e s) (h : Outlives o s xs s') :
    Outlives o s₀ (.event e :: xs) s' := ⟨.cons hstep h.1, h.2⟩

theorem Outlives.cons_sigint (env : Env) (hc : o.nocurses = true) (h : Outlives o s xs s') :
    Outlives o s (.sigint env :: xs) s' := ⟨h.1, fun _ => hc⟩

/-- What an event that the program survives puts in front of a run. -/
theorem Fate.cons_event {e : Event} (hstep : Step o s₀ e s) (h : Fate o s xs r) :
    Fate o s₀ (.event e :: xs) r := by
  cases h with
  | running h => exact .running (h.cons_event hstep)
  | ended h hx => exact .ended (h.cons_event hstep) hx
  | aborted h hx => exact .aborted (h.cons_event hstep) hx
  | faulting h hx => exact .faulting (h.cons_event hstep) hx
  | undefined h hc => exact .undefined (h.cons_event hstep) hc

/-- What a `^C` of batch mode does. -/
theorem Fate.cons_sigint (env : Env) (hc : o.nocurses = true) (h : Fate o s xs r) :
    Fate o s (.sigint env :: xs) (r.1, .reset :: r.2) := by
  cases h with
  | running h => exact .running (h.cons_sigint env hc)
  | ended h hx => exact .ended (h.cons_sigint env hc) hx
  | aborted h hx => exact .aborted (h.cons_sigint env hc) hx
  | @faulting xs₁ xs₂ x _ h hx =>
    have hlen : caught (.sigint env :: xs₁) + 1 + xs₂.length =
        caught xs₁ + 1 + xs₂.length + 1 := by
      rw [caught]
      omega
    have hfate : Fate o s (.sigint env :: (xs₁ ++ x :: xs₂))
        (.faulting, List.replicate (caught (.sigint env :: xs₁) + 1 + xs₂.length) .reset) :=
      .faulting (h.cons_sigint env hc) hx
    rw [hlen] at hfate
    exact hfate
  | undefined h hc' => exact .undefined (h.cons_sigint env hc) hc'

theorem Outlives.nil (o : Opts) (s : Cons) : Outlives o s [] s :=
  ⟨.refl s, fun h => absurd rfl h⟩

/-- **Every run**, from any console reached. -/
theorem fate_of_reached : ∀ (xs : List Happening) {s : Cons}, Reached s →
    Fate o s xs (happenAll o (.running s) xs)
  | [], s, _ => .running (.nil o s)
  | x :: xs, s, hs => by
    have hout := happen_outcome (o := o) hs x
    rw [happenAll]
    generalize happen o (.running s) x = r at hout
    cases hout with
    | ends hx =>
      dsimp only
      rw [happenAll_of_settled fun _ => rfl]
      exact @Fate.ended o s [] xs x s (.nil o s) hx
    | aborts hx =>
      dsimp only
      rw [happenAll_of_settled fun _ => rfl]
      exact @Fate.aborted o s [] xs x s (.nil o s) hx
    | faults hx =>
      dsimp only
      rw [happenAll_faulting]
      have hlen : caught [] + 1 + xs.length = xs.length + 1 := by
        rw [caught]
        omega
      have hfate : Fate o s (x :: xs)
          (.faulting, List.replicate (caught [] + 1 + xs.length) .reset) :=
        @Fate.faulting o s [] xs x s (.nil o s) hx
      rw [hlen] at hfate
      exact hfate
    | goesOn _ _ _ h =>
      rcases h with ⟨e, s', rfl, hstep, rfl⟩ | ⟨env, rfl, hc, rfl⟩ | ⟨hc, rfl⟩
      · exact (fate_of_reached xs (hs.step hstep)).cons_event hstep
      · exact (fate_of_reached xs hs).cons_sigint env hc
      · dsimp only
        rw [happenAll_of_settled fun _ => rfl]
        exact @Fate.undefined o s [] xs x s (.nil o s) hc

end Runs

/-! ## 6. From the boot to the end -/

/-- How the program goes: what is left of it, and what the card has been through. -/
inductive Life (o : Opts) (B : BootEnv) (fuel : Nat) (screenOk : Bool) (fb₀ : Framebuffer)
    (hs : List Happening) : Proc × List CardAct → Prop
  /-- A file is missing: the card is not touched, and the exit handler is not there yet. -/
  | refused (h : ¬ (B.bstat ∧ B.kstat)) : Life o B fuel screenOk fb₀ hs (.ended, [])
  /-- The card does not get ready: it has been reset once, and no command is written. -/
  | waiting (hfiles : B.bstat ∧ B.kstat) (h : ∀ i ≤ fuel, ¬ ready (B.states i)) :
      Life o B fuel screenOk fb₀ hs
        (.booting, .state (B.states 0) :: .reset :: reads B 1 fuel)
  /-- Booted, and reset again as there is no screen to show it on. -/
  | noScreen {n : Nat} (hfiles : B.bstat ∧ B.kstat) (hn : ReadyAt B n)
      (h : ¬ o.nocurses ∧ ¬ screenOk) :
      Life o B fuel screenOk fb₀ hs (.ended, bootLog B n ++ [.reset])
  /-- Booted, and watched until the program stops. -/
  | watched {n : Nat} {p : Proc} {acts : List CardAct} (hfiles : B.bstat ∧ B.kstat)
      (hn : ReadyAt B n) (h : o.nocurses ∨ screenOk)
      (hfate : Fate o (consoleInit fb₀) hs (p, acts)) :
      Life o B fuel screenOk fb₀ hs (p, bootLog B n ++ acts)

/-- A card is ready at some first read, or at none of those followed. -/
theorem readyAt_or (B : BootEnv) (fuel : Nat) :
    (∃ n ≤ fuel, ReadyAt B n) ∨ ∀ i ≤ fuel, ¬ ready (B.states i) := by
  by_cases h : ∃ i, i ≤ fuel ∧ ready (B.states i)
  · obtain ⟨hle, hready⟩ := Nat.find_spec h
    refine Or.inl ⟨Nat.find h, hle, hready, fun i hi hr => ?_⟩
    exact Nat.find_min h hi ⟨Nat.le_of_lt (Nat.lt_of_lt_of_le hi hle), hr⟩
  · exact Or.inr fun i hi hr => h ⟨i, hi, hr⟩

/-- **The life of the card**: what `philix` does to it, and in which order, in every run. -/
theorem card_life {B : BootEnv} (F : Fits B) (o : Opts) (fuel : Nat) (screenOk : Bool)
    (fb₀ : Framebuffer) (hs : List Happening) :
    Life o B fuel screenOk fb₀ hs (philix o B fuel screenOk fb₀ hs) := by
  rw [philix]
  by_cases hfiles : B.bstat ∧ B.kstat
  · rcases readyAt_or B fuel with ⟨n, hle, hn⟩ | hnever
    · rw [bootPhi_of_ready F hfiles.1 hfiles.2 hn hle]
      dsimp only
      by_cases hscreen : ¬ o.nocurses ∧ ¬ screenOk
      · rw [if_pos hscreen]
        exact .noScreen hfiles hn hscreen
      · rw [if_neg hscreen]
        have hinit : Reached (consoleInit fb₀) := @reached_of_run o _ fb₀ [] (.refl _)
        exact .watched hfiles hn (by tauto) (fate_of_reached hs hinit)
    · rw [bootPhi_of_not_ready F hfiles.1 hfiles.2 hnever]
      exact .waiting hfiles hnever
  · rw [bootPhi_of_missing hfiles]
    exact .refused hfiles

/-- A card that is ready at its third read, in batch mode. -/
def thirdRead : BootEnv where
  bpath := "inky".toList
  kpath := "kernel".toList
  micnum := ['0']
  bstat := true
  kstat := true
  states i := if i < 2 then "online".toList else "ready".toList

theorem fits_thirdRead : Fits thirdRead where
  command := by decide
  path := by decide
  word i := by
    rw [thirdRead]
    dsimp only
    split <;> decide

/-- A line is scrolled away, `^C` dumps it and resets the card, and a shutdown of the console ends
the program. -/
theorem card_life_thirdRead :
    Life ⟨true, false⟩ thirdRead 8 false (fun _ => 0)
      [.event (.update .scrollup 0 { malloc := some 1 }), .sigint {},
        .event (.update .consoleShutdown 0 {})]
      (.ended, [.state "online".toList, .reset, .state "online".toList,
        .state "ready".toList, .boot "boot:linux:inky:kernel".toList, .reset, .reset]) :=
  card_life fits_thirdRead ⟨true, false⟩ 8 false (fun _ => 0) _

end Philix.Card
