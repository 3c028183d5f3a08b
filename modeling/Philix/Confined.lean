/-
# The terminal keeps to its framebuffer

The control registers start at the byte after the last cell, so a store one cell too far
would post an update.  Every operation of the terminal completes, and none that completes has
reached a cell past the framebuffer.  The rows it posts are on the screen, and so is whatever
the host reads from `LINE_REG` when it comes to draw a line, in any interleaving of the two.
-/
import Philix.Display

namespace Philix

open Console Winky Lts Loop
open Mailbox (Post ParamReg Act State)

/-! ## 1. Cells and registers -/

def vgaBaseAddr : Nat := 0xb8000
def phiFbCtrlRegAddr : Nat := 0xb8fa0

/-- The address of a cell, two bytes wide. -/
def cellAddr (index : Nat) : Nat := vgaBaseAddr + 2 * index

/-- The framebuffer ends where the control registers start. -/
theorem cell_below_ctrlReg {index : Nat} :
    index < vgaHeight * vgaWidth ↔ cellAddr index + 2 ≤ phiFbCtrlRegAddr := by
  simp only [vgaHeight, vgaWidth, cellAddr, vgaBaseAddr, phiFbCtrlRegAddr]
  omega

/-- No cell from the control registers on differs from the memory `fb`. -/
def Confined (fb : Framebuffer) (t : Term) : Prop :=
  ∀ k, phiFbCtrlRegAddr ≤ cellAddr k → t.buf k = fb k

/-- An access completes on the cells below the control registers, and there only. -/
theorem access_completes_iff {t : Term} {index : Nat} {v : UInt16} :
    ((∃ t', t.store index v = .ok t') ↔ cellAddr index + 2 ≤ phiFbCtrlRegAddr) ∧
    ((∃ w, t.load index = .ok w) ↔ cellAddr index + 2 ≤ phiFbCtrlRegAddr) := by
  rw [← cell_below_ctrlReg]
  unfold Term.store Term.load
  by_cases hin : index < vgaHeight * vgaWidth
  · simp [hin]
  · simp [hin]

theorem not_lt_of_ctrlReg {k : Nat} (hk : phiFbCtrlRegAddr ≤ cellAddr k) :
    ¬ k < vgaHeight * vgaWidth := by
  rw [cell_below_ctrlReg]
  omega

/-! ## 2. The operations -/

section Device

variable {t t' : Term} {fb : Framebuffer}

/-- **A store that completes** is below the control registers. -/
theorem Confined.store {index : Nat} {v : UInt16} (C : Confined fb t)
    (h : t.store index v = .ok t') : Confined fb t' := by
  have hin : index < vgaHeight * vgaWidth :=
    cell_below_ctrlReg.mpr (access_completes_iff.1.mp ⟨t', h⟩)
  rw [store_eq hin] at h
  obtain rfl := Except.ok.inj h
  intro k hk
  have hne : k ≠ index := by
    rintro rfl
    exact not_lt_of_ctrlReg hk hin
  exact (Function.update_of_ne hne _ _).trans (C k hk)

theorem Confined.fill (C : Confined fb t) (lo n : Nat) (v : UInt16)
    (hn : lo + n ≤ vgaHeight * vgaWidth) : Confined fb { t with buf := fill t.buf lo n v } := by
  intro k hk
  have hout := not_lt_of_ctrlReg hk
  show Winky.fill t.buf lo n v k = fb k
  rw [Winky.fill, if_neg (by omega)]
  exact C k hk

theorem Confined.scrolled (C : Confined fb t) (v : UInt16) :
    Confined fb { t with buf := scrolled t.buf v } := by
  intro k hk
  have hout := not_lt_of_ctrlReg hk
  have hup : ¬ k < (vgaHeight - 1) * vgaWidth := fun h => hout (Nat.lt_trans h (by decide))
  show Winky.scrolled t.buf v k = fb k
  rw [Winky.scrolled, if_neg hup, if_neg hout]
  exact C k hk

theorem confined_termInit (h : termInit fb = .ok t) : Confined fb t := by
  rw [termInit_eq] at h
  obtain rfl := Except.ok.inj h
  have C₀ : Confined fb ⟨0, 0, makeColor colorLightGrey colorBlack, fb, []⟩ := fun _ _ => rfl
  exact C₀.fill 0 _ _ (Nat.le_refl _)

theorem Confined.endLine (C : Confined fb t) (h : endLine t = .ok t') : Confined fb t' := by
  rw [endLine_eq] at h
  obtain rfl := Except.ok.inj h
  split
  · exact C.scrolled _
  · exact C

/-- **The step lemma: one byte.** -/
theorem Confined.put {c : UInt8} (C : Confined fb t) (h : putchar c t = .ok t') :
    Confined fb t' := by
  unfold putchar at h
  split at h
  · exact C.endLine h
  · obtain ⟨t₁, h₁, h⟩ := bind_eq_ok_iff.mp h
    have C₁ : Confined fb t₁ := C.store h₁
    dsimp only at h
    split at h
    · exact Confined.endLine C₁ h
    · obtain rfl := Except.ok.inj h
      exact C₁

/-- The run lemma: any bytes. -/
theorem Confined.puts : ∀ {cs : List UInt8} {t : Term}, Confined fb t →
    putchars cs t = .ok t' → Confined fb t'
  | [], _, C, h => by
    obtain rfl := Except.ok.inj h
    exact C
  | _ :: _, _, C, h => by
    obtain ⟨_, h₁, h⟩ := bind_eq_ok_iff.mp h
    exact (C.put h₁).puts h

theorem Confined.output {out : Output} (C : Confined fb t) (h : out.run t = .ok t') :
    Confined fb t' := by
  cases out with
  | clear =>
    have h : termClear t = .ok t' := h
    rw [termClear_eq] at h
    obtain rfl := Except.ok.inj h
    exact C.fill 0 _ _ (Nat.le_refl _)
  | print call =>
    rw [Output.run, call_run_eq] at h
    exact C.puts h

theorem Confined.outputs : ∀ {outs : List Output} {t : Term}, Confined fb t →
    outs.foldlM (fun t out => out.run t) t = .ok t' → Confined fb t'
  | [], _, C, h => by
    obtain rfl := Except.ok.inj h
    exact C
  | _ :: _, _, C, h => by
    rw [List.foldlM_cons] at h
    obtain ⟨_, h₁, h⟩ := bind_eq_ok_iff.mp h
    exact (C.output h₁).outputs h

theorem outputRun_confined {outs : List Output} (h : outputRun fb outs = .ok t) :
    Confined fb t := by
  obtain ⟨t₀, h₀, h⟩ := bind_eq_ok_iff.mp h
  exact (confined_termInit h₀).outputs h

end Device

/-! ## 3. What the host reads -/

/-- The posts the device calls for, in order. -/
def calls (as : List Act) : List Post :=
  as.filterMap fun a => match a with
    | .call p => some p
    | _ => none

/-- Both processes before their first step; `OUTPUT_DRAWN` and the parameter registers hold
anything. -/
def bootState (drawn char line : UInt32) : State :=
  { State.init with drawn := drawn, charReg := char, lineReg := line }

/-- `LINE_REG` holds a row below `n` from the write before a `LINE_DRAWN` is posted to its
case, and the cases that ran have read such rows. -/
structure RowsBelow (n : Nat) (s : State) : Prop where
  posting : ∀ row, s.dev = .posting (.lineDraw row) → s.lineReg.toNat < n
  avail : Mailbox.typeOf s.avail = .lineDrawn → s.lineReg.toNat < n
  switching : ∀ nth, s.host = .switching .lineDrawn nth → s.lineReg.toNat < n
  handled : ∀ x ∈ s.handled, x.type = .lineDrawn → ∀ v, x.param = some v → v.toNat < n

/-- The row of a call, if it draws a line, is below `n`. -/
def RowBelow (n : Nat) (p : Post) : Prop := ∀ row, p = .lineDraw row → row.toNat < n

section Mailbox

variable {nocurses : Bool} {n : Nat} {s s' : State} {a : Act} {p : Post}

theorem type_eq_lineDrawn (h : p.type = .lineDrawn) : ∃ row, p = .lineDraw row := by
  cases p with
  | lineDraw row => exact ⟨row, rfl⟩
  | _ => cases h

/-- A post keeps it: a line's row is in its register by then. -/
theorem RowsBelow.post (R : RowsBelow n s)
    (hp : ∀ row, p = .lineDraw row → s.lineReg.toNat < n) : RowsBelow n (s.post p) := by
  refine ⟨?_, ?_, R.switching, R.handled⟩
  · intro row h
    cases h
  · intro h
    rw [State.post, Mailbox.typeOf_avail] at h
    obtain ⟨row, rfl⟩ := type_eq_lineDrawn h
    exact hp row rfl

theorem RowsBelow.writeParam (R : RowsBelow n s) (hp : RowBelow n p) {w : ParamReg × UInt32}
    (hw : p.param = some w) : RowsBelow n { s.writeParam w with dev := .posting p } := by
  cases p with
  | lineDraw row =>
    obtain rfl := Option.some.inj hw
    have hrow : row.toNat < n := hp row rfl
    exact ⟨fun _ _ => hrow, fun _ => hrow, fun _ _ => hrow, R.handled⟩
  | charWrite x y =>
    obtain rfl := Option.some.inj hw
    refine ⟨?_, R.avail, R.switching, R.handled⟩
    intro row h
    cases h
  | _ => cases hw

/-- The case of an update reads the register while it holds such a row. -/
theorem RowsBelow.handle (R : RowsBelow n s) {u : UpdateType} {nth : Nat}
    (hpc : s.host = .switching u nth) {pc : Mailbox.HostPc}
    (hnot : ∀ u' k, pc ≠ .switching u' k) : RowsBelow n (s.handle nocurses u nth pc) := by
  refine ⟨R.posting, R.avail, fun k h => absurd h (hnot _ k), ?_⟩
  intro x hx htype v hv
  rcases List.mem_append.mp hx with hx | hx
  · exact R.handled x hx htype v hv
  · rw [List.mem_singleton] at hx
    subst hx
    obtain rfl : u = .lineDrawn := htype
    cases nocurses with
    | true => cases hv
    | false =>
      obtain rfl := Option.some.inj hv
      exact R.switching nth hpc

/-- **The step lemma.** -/
theorem RowsBelow.step (R : RowsBelow n s) (h : Mailbox.Step nocurses s a s')
    (ha : ∀ p, a = .call p → RowBelow n p) : RowsBelow n s' := by
  cases h with
  | pollEmpty => exact R
  | pollFull hpc hne =>
    refine ⟨R.posting, R.avail, ?_, R.handled⟩
    intro nth h
    exact R.avail (Mailbox.HostPc.switching.inj h).1
  | giveUp =>
    refine ⟨R.posting, R.avail, ?_, R.handled⟩
    intro nth h
    cases h
  | runNothing =>
    refine ⟨R.posting, R.avail, ?_, R.handled⟩
    intro nth h
    cases h
  | run hpc =>
    refine R.handle hpc ?_
    rintro _ _ ⟨⟩
  | fail hpc =>
    refine R.handle hpc ?_
    rintro _ _ ⟨⟩
  | failUnknown =>
    refine ⟨R.posting, R.avail, ?_, R.handled⟩
    intro nth h
    cases h
  | clear =>
    refine ⟨R.posting, ?_, ?_, R.handled⟩
    · intro h
      cases h
    · intro nth h
      cases h
  | @ack u hpc =>
    refine ⟨R.posting, R.avail, ?_, R.handled⟩
    intro nth h
    dsimp only at h
    split at h <;> cases h
  | @call p hdev hparam =>
    refine R.post ?_
    rintro row rfl
    cases hparam
  | callParam hdev hw => exact R.writeParam (ha _ rfl) hw
  | post hdev =>
    refine R.post ?_
    rintro row rfl
    exact R.posting row hdev
  | spinAgain => exact R
  | spinDone =>
    refine ⟨?_, R.avail, R.switching, R.handled⟩
    intro row h
    cases h
  | clearDrawn =>
    refine ⟨?_, R.avail, R.switching, R.handled⟩
    intro row h
    cases h

theorem mem_calls {as : List Act} (h : Act.call p ∈ as) : p ∈ calls as :=
  List.mem_filterMap.mpr ⟨_, h, rfl⟩

theorem rowsBelow_boot (drawn char line : UInt32) : RowsBelow n (bootState drawn char line) := by
  refine ⟨?_, ?_, ?_, ?_⟩
  · intro row h
    cases h
  · intro h
    cases h
  · intro nth h
    cases h
  · intro x hx
    cases hx

/-- The run lemma. -/
theorem RowsBelow.run : ∀ {as : List Act} {s s' : State}, RowsBelow n s →
    Run (Mailbox.Step nocurses) s as s' → (∀ p ∈ calls as, RowBelow n p) → RowsBelow n s'
  | _, _, _, R, .refl _, _ => R
  | a :: as, _, _, R, .cons h₁ h, hcalls => by
    have hrest : ∀ p ∈ calls as, RowBelow n p := by
      intro p hp
      obtain ⟨b, hb, hbp⟩ := List.mem_filterMap.mp hp
      exact hcalls p (List.mem_filterMap.mpr ⟨b, List.mem_cons_of_mem _ hb, hbp⟩)
    have R₁ := R.step h₁ fun p hp => hcalls p (mem_calls (hp ▸ List.mem_cons_self))
    exact R₁.run h hrest

end Mailbox

/-! ## 4. Every output, every interleaving -/

theorem handleLineUpdate_of_lt {row : UInt32} (hrow : row.toNat < phiFbHeight) (s : Cons) :
    handleLineUpdate row s = drawOutputWin s := by
  simp [handleLineUpdate, hrow]

/-- **The terminal stays inside its framebuffer.**  `term_init` and any calls after it complete,
so no access has left the cells below the control registers, and memory from those registers
on is as it was.  The cursor is on the screen.  Every row posted is, and wherever the host is
in its handling of these posts, each line it has been told to draw passed its assertion. -/
theorem terminal_stays_in_framebuffer (fb : Framebuffer) (outs : List Output) :
    ∃ t, outputRun fb outs = .ok t ∧
      t.row < vgaHeight ∧ t.col < vgaWidth ∧
      (∀ k, phiFbCtrlRegAddr ≤ cellAddr k → t.buf k = fb k) ∧
      (∀ x ∈ t.posts, RowBelow phiFbHeight x.1) ∧
      ∀ nocurses drawn char line as m,
        Run (Mailbox.Step nocurses) (bootState drawn char line) as m →
        calls as <+: t.posts.map Prod.fst →
        ∀ x ∈ m.handled, x.type = .lineDrawn → ∀ row, x.param = some row → ∀ s : Cons,
          handleLineUpdate row s = drawOutputWin s := by
  obtain ⟨t, ht, D⟩ := outputRun_drawn fb outs
  have hposts : ∀ x ∈ t.posts, RowBelow phiFbHeight x.1 := by
    intro x hx row hrow
    rcases D.posts x hx with h | h
    · rw [hrow] at h
      exact h
    · rw [h] at hrow
      cases hrow
  refine ⟨t, ht, D.row_lt, D.col_lt, outputRun_confined ht, hposts, ?_⟩
  intro nocurses drawn char line as m hrun hcalls x hx htype row hparam s
  have hrows : ∀ p ∈ calls as, RowBelow phiFbHeight p := by
    intro p hp
    obtain ⟨y, hy, rfl⟩ := List.mem_map.mp (hcalls.subset hp)
    exact hposts y hy
  have R := (rowsBelow_boot drawn char line).run hrun hrows
  exact handleLineUpdate_of_lt (R.handled x hx htype row hparam) s

end Philix
