import Veryl.Pretty.BrokenGroup

/-!
The law of the groups over whole runs: where the renderer is inside a line that has room,
and each turn on the line has the room that the look-ahead did not ask for, a flat group
is within the width; where each turn writes what was measured, a broken group is not.
-/

namespace Veryl.Pretty

open Veryl.Library List

/-- A flat group also fits behind the indent that is due, and what the look-ahead leaves
out has room on the line. -/
structure Foreseen (opts : RenderOpts) (state : State) (indent : ℤ) (inner : Doc)
    (stack : List Frame) : Prop where
  col : state.col = column state.out
  fits : fitsFrames (⟨indent, .flat, inner⟩ :: stack) ((opts.maxWidth : ℤ) - state.due) = true
  accounted : ∀ state' frame stack',
    OnLine opts state (⟨indent, .flat, inner⟩ :: stack) state' (frame :: stack') →
      Accounted opts state' frame stack'

/-- The room on the line is a number of 63 bits, and everything that the look-ahead measures is
written on the line, until the width is exceeded. -/
structure Needed (opts : RenderOpts) (state : State) (indent : ℤ) (inner : Doc)
    (stack : List Frame) : Prop where
  col : state.col = column state.out
  room : opts.maxWidth - state.col < 2 ^ 63
  counted : ∀ state' frame stack',
    OnLine opts state (⟨indent, .flat, inner⟩ :: stack) state' (frame :: stack') →
      column state'.out ≤ opts.maxWidth → Counted opts state' frame

/-- An indent is due, and a break swallowed, only at the start of a line. -/
structure Startable (state : State) : Prop where
  pending : state.pendingIndent.isSome = true → column state.out = 0
  parked : Parked state

section Starts

variable {opts : RenderOpts} {state : State} {s : Text}

theorem Startable.of_inside (h : Inside state) : Startable state := by
  obtain ⟨hpending, hswallow⟩ := h
  refine ⟨fun h => ?_, fun h => ?_⟩
  · rw [hpending] at h
    cases h
  · rw [hswallow] at h
    cases h

theorem pending_flush (state : State) : state.flushPending.pendingIndent = none := by
  cases hpending : state.pendingIndent <;> simp [State.flushPending, hpending]

theorem pending_flushWithIndent (state : State) (indent : ℤ) (opts : RenderOpts) :
    (state.flushPendingWithIndent indent opts).pendingIndent = none := by
  cases hpending : state.pendingIndent <;> simp [State.flushPendingWithIndent, hpending]

theorem startable_put (h : state.pendingIndent = none) (s : Text) : Startable (state.put s) :=
  .of_inside ⟨h, rfl⟩

theorem startable_putLines (h : state.pendingIndent = none) (s : Text) :
    Startable (state.putLines s) := by
  refine .of_inside ⟨?_, (putLines_out state s).2.2⟩
  simp only [State.putLines]
  split <;> exact h

theorem Startable.emitBreak (h : Startable state) (indent : ℤ) (opts : RenderOpts) :
    Startable (state.emitBreak indent opts) := by
  cases hs : state.swallowNextBreak with
  | true =>
    have hbreak : state.emitBreak indent opts = { state with
        swallowNextBreak := false, pendingIndent := some (padFor indent opts) } := by
      simp [State.emitBreak, hs]
    rw [hbreak]
    exact ⟨fun _ => h.pending (h.parked hs), fun h => absurd h Bool.false_ne_true⟩
  | false =>
    have hbreak : state.emitBreak indent opts = { state.emitNewline opts with
        pendingIndent := some (padFor indent opts) } := by
      simp [State.emitBreak, hs]
    rw [hbreak]
    exact ⟨fun _ => column_newline state.out opts.newline, fun _ => rfl⟩

theorem Startable.dedent (h : Startable state) (level : ℕ) (opts : RenderOpts) :
    Startable (state.dedent level opts) := by
  simp only [State.dedent]
  split
  · rename_i hdedent
    obtain ⟨-, hpending, -⟩ := hdedent
    refine ⟨fun hp => ?_, h.parked⟩
    rw [show _ = none from hpending] at hp
    cases hp
  · exact h

theorem startable_comment (state : State) (indent : ℤ) (opts : RenderOpts) (c : CommentDoc) :
    Startable (state.renderComment indent opts c) := by
  have hstart : Inside (state.startComment c (padFor indent opts) opts) := by
    refine ⟨?_, startComment_swallow state c _ opts⟩
    simp only [State.startComment]
    split
    · rename_i hinline
      have hnone : state.pendingIndent = none := by simpa using hinline.2.2
      split <;> exact hnone
    · rfl
  have hemit : ∀ start : State, Inside start →
      Startable (start.emitComment c (padFor indent opts) opts) := by
    intro start hin
    simp only [State.emitComment]
    split
    · exact ⟨fun _ => column_newline (start.out ++ c.text) opts.newline, fun _ => rfl⟩
    · split <;> exact .of_inside hin
  simp only [State.renderComment]
  split
  · exact hemit _ hstart
  · exact hemit _ hstart

theorem Startable.comments (h : Startable state) (cs : List CommentDoc) (indent : ℤ)
    (opts : RenderOpts) : Startable (state.renderComments cs indent opts) := by
  induction cs generalizing state with
  | nil => exact h
  | cons c cs ih => exact ih (startable_comment state indent opts c)

theorem Startable.turn (h : Startable state) (frame : Frame) (stack : List Frame) :
    Startable (renderFrame frame opts state stack).1 := by
  obtain ⟨indent, mode, doc⟩ := frame
  have hflush := pending_flush state
  have hflush' := pending_flushWithIndent state indent opts
  cases doc with
  | text s => exact startable_putLines hflush' s
  | line sep =>
    cases mode with
    | flat => exact startable_put hflush sep
    | «break» => exact h.emitBreak indent opts
  | hardline =>
    cases mode with
    | flat => exact startable_put hflush _
    | «break» => exact h.emitBreak indent opts
  | dedentHardline level =>
    cases mode with
    | flat => exact startable_put hflush _
    | «break» => exact (h.dedent level opts).emitBreak indent opts
  | comments cs => exact h.comments cs indent opts
  | anchored a =>
    have hanchor : ((state.flushPendingWithIndent indent opts).addAnchor a.srcLine a.srcColumn
        a.text).pendingIndent = none := hflush'
    exact startable_putLines hanchor a.text
  | ifBreak s =>
    simp only [renderFrame]
    split
    · exact startable_put hflush' s
    · exact h
  | ifBreakPad width | pad width | ifFlatPad width =>
    simp only [renderFrame]
    split
    · exact startable_put hflush' _
    · exact h
  | nil | concat | indent | group | forceFlat => exact h

theorem Reaches.startable {doc : Doc} {stack : List Frame} (h : Reaches opts doc state stack) :
    Startable state := by
  induction h with
  | start => exact .of_inside ⟨rfl, rfl⟩
  | turn _ ih => exact ih.turn _ _

end Starts

section Law

variable {opts : RenderOpts} {state : State} {indent : ℤ} {inner : Doc} {stack : List Frame}

theorem Foreseen.within (h : Foreseen opts state indent inner stack) (hstart : Startable state)
    (hlayered : Layered stack) : Within opts state (⟨indent, .flat, inner⟩ :: stack) := by
  have hpromised : Promised opts state (⟨indent, .flat, inner⟩ :: stack) :=
    ⟨hstart.parked, ⟨h.col, hstart.pending⟩, h.fits⟩
  exact hpromised.within (hlayered.flat indent inner) h.accounted

theorem Needed.not_within (h : Needed opts state indent inner stack) (hstart : Startable state)
    (hbelow : ∀ below ∈ stack, below.mode = .break) (hlayered : Layered stack)
    (hfit : fitsFlat inner stack (asIsize (opts.maxWidth - state.col)) = false)
    (hforced : ¬ inner.Forced) : ¬ Within opts state (⟨indent, .flat, inner⟩ :: stack) := by
  obtain ⟨hcol, hwords, hcounted⟩ := h
  by_cases hroom : state.col ≤ opts.maxWidth
  · rw [asIsize, if_pos hwords, fitsFlat_eq hbelow indent, Int.ofNat_sub hroom] at hfit
    have hfree : ∀ frame ∈ (⟨indent, .flat, inner⟩ :: stack : List Frame),
        frame.mode = .flat → ¬ frame.doc.Forced := by
      intro frame hframe hmode
      rcases mem_cons.1 hframe with rfl | hframe
      · exact hforced
      · rw [hbelow frame hframe] at hmode
        cases hmode
    have hover : Over opts state (⟨indent, .flat, inner⟩ :: stack) :=
      ⟨⟨hcol, hstart.pending⟩, hfit, hfree, hlayered.flat indent inner⟩
    exact hover.not_within hcounted
  · intro hwithin
    have hcolumn := (hwithin state _ .here).1
    rw [← hcol] at hcolumn
    exact hroom hcolumn

end Law

def narrow : RenderOpts := ⟨5, 4, .lf, true⟩

def ab : Doc := .text ['a', 'b']

def lineComments : List CommentDoc := [⟨['/', '/'], 0, true, 0, 0⟩]

/-- A group on the indented line behind a line comment, which it fills up to the width. -/
def commentedGroup : Doc :=
  .indent 1 (.concat [.comments lineComments, .group (.text ['a']), .hardline])

/-- What is left when the group is laid out. -/
def commentedState : State := State.init.renderComments lineComments 1 narrow

/-- A group that takes one column more than the width. -/
def wideGroup : Doc := .concat [ab, .line [' '], .text ['c', 'd', 'e']]

/-- A group at the start of an indented line. -/
def indentedGroup : Doc := .indent 1 (.concat [.hardline, .group ab])

end Veryl.Pretty
