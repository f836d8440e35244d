import Veryl.Pretty.FlatGroup

/-!
A group that is broken. What the look-ahead measured to be too long is too long: every
turn on the line writes at least what was measured, until the width is exceeded.
-/

namespace Veryl.Pretty

open Veryl.Library List

variable {state₁ : State} {width' : ℕ} {stack' frames stack : List Frame}

variable {state' : State} {s : Text} {width : ℕ}

/-- A comment takes a space and its text at least: it stands behind content, or is indented. -/
def CountedComment (opts : RenderOpts) (state : State) (indent : ℤ) (c : CommentDoc) : Prop :=
  (Inside state ∧ 0 < state.col ∧ c.leadingNewlines = 0) ∨
    (state.pendingIndent.isSome = true ∧ 0 < padFor indent opts ∧ c.leadingNewlines ≤ 1)

/-- What the look-ahead measures is written, and on the line. -/
def Counted (opts : RenderOpts) (state : State) (frame : Frame) : Prop :=
  match frame.doc with
  | .text s => '\n' ∉ s
  | .anchored a => '\n' ∉ a.text
  | .line sep => frame.mode = .flat → '\n' ∉ sep
  | .ifBreak s => frame.mode = .break → '\n' ∉ s
  | .ifFlatPad width => frame.mode = .break → width = 0
  | .forceFlat inner => frame.mode = .break → ¬ inner.Forced
  | .comments cs =>
    (∀ c ∈ cs.head?, CountedComment opts state frame.indent c) ∧
      (∀ c ∈ cs.tail, c.leadingNewlines = 0) ∧ ∀ c ∈ cs, '\n' ∉ c.text
  | _ => True

/-- What the frames write on the line has no room. -/
structure Over (opts : RenderOpts) (state : State) (stack : List Frame) : Prop where
  tracks : Tracks state
  fits : fitsFrames stack ((opts.maxWidth : ℤ) - state.col) = false
  free : ∀ frame ∈ stack, frame.mode = .flat → ¬ frame.doc.Forced
  layered : Layered stack

/-- At least a width is written on the line. -/
structure Moves (state state' : State) (width : ℕ) : Prop where
  tracks : Tracks state'
  count : state'.out.count '\n' = state.out.count '\n'
  col : state.col + width ≤ state'.col

section Moves

variable {state : State}

theorem Moves.refl (h : Tracks state) : Moves state state 0 := ⟨h, rfl, Nat.le_refl _⟩

theorem Moves.trans {state₂ : State} (h : Moves state state₁ width)
    (h' : Moves state₁ state₂ width') : Moves state state₂ (width + width') := by
  refine ⟨h'.tracks, h'.count.trans h.count, ?_⟩
  have hcol := h.col
  have hcol' := h'.col
  omega

theorem Moves.weaken (h : Moves state state' width)
    (hle : width' ≤ width) : Moves state state' width' :=
  ⟨h.tracks, h.count, Nat.le_trans (Nat.add_le_add_left hle _) h.col⟩

theorem Flushed.moves (h : Flushed state state₁) : Moves state state₁ 0 := by
  obtain ⟨n, hout, -⟩ := h.out
  refine ⟨h.tracks, ?_, h.col⟩
  rw [hout, count_append, count_eq_zero.2 (newline_notMem_spaces n), Nat.add_zero]

section

variable (h : Tracks state)

include h

theorem moves_put (hpending : state.pendingIndent = none)
    (hfeed : '\n' ∉ s) : Moves state (state.put s) s.length := by
  refine ⟨⟨?_, ?_⟩, ?_, Nat.le_refl _⟩
  · simp [State.put, h.col, column_of_notMem hfeed]
  · simp [State.put, hpending]
  · simp [State.put, count_eq_zero.2 hfeed]

theorem moves_putLines (hpending : state.pendingIndent = none)
    (hfeed : '\n' ∉ s) : Moves state (state.putLines s) s.length := by
  have hput : state.putLines s = state.put s := by
    simp [State.putLines, count_eq_zero.2 hfeed]
  rw [hput]
  exact moves_put h hpending hfeed

theorem moves_text (indent : ℤ) (opts : RenderOpts) (hfeed : '\n' ∉ s) :
    Moves state ((state.flushPendingWithIndent indent opts).put s) s.length := by
  have hflush := flushed_flushPendingWithIndent h indent opts
  have hmoves := hflush.moves.trans (moves_put hflush.tracks hflush.pending hfeed)
  rwa [Nat.zero_add] at hmoves

theorem moves_spaces (indent : ℤ) (opts : RenderOpts) (width : ℕ) :
    Moves state ((state.flushPendingWithIndent indent opts).put (spaces width)) width := by
  have hmoves := moves_text h indent opts (newline_notMem_spaces width)
  rwa [spaces, length_replicate] at hmoves

theorem moves_comment (opts : RenderOpts) (indent : ℤ) {c : CommentDoc}
    (hcounted : CountedComment opts state indent c) (hfeed : '\n' ∉ c.text)
    (hblock : c.isLineComment = false) :
    Moves state (state.renderComment indent opts c) (c.text.length + 1) ∧
      Inside (state.renderComment indent opts c) := by
  obtain ⟨lead, hlead, hline, hout, hcol, hin⟩ : ∃ lead : Text, 0 < lead.length ∧ '\n' ∉ lead ++ c.text ∧
      (state.renderComment indent opts c).out = state.out ++ (lead ++ c.text) ∧
      (state.renderComment indent opts c).col = state.col + (lead ++ c.text).length ∧
      Inside (state.renderComment indent opts c) := by
    obtain ⟨hin, hpos, hleading⟩ | ⟨hpending, hpad, hleading⟩ := hcounted
    · refine ⟨[' '], Nat.one_pos, by simpa using hfeed, ?_⟩
      simp only [State.renderComment, State.startComment, State.emitComment, hin.1, hin.2, hleading,
        hblock, hpos, count_eq_zero.2 hfeed, Option.isSome_none]
      by_cases hsrc : c.srcLine ≠ 0 ∧ c.srcColumn ≠ 0 <;>
        simp [Inside, State.addAnchor, hsrc, Nat.add_comm, Nat.add_left_comm]
    · have hzero : state.col = 0 := h.col.trans (h.pending hpending)
      have hlines : max c.leadingNewlines 1 - 1 = 0 := by omega
      refine ⟨spaces (padFor indent opts), by simpa [spaces] using hpad, by
        simpa [hfeed] using newline_notMem_spaces (padFor indent opts), ?_⟩
      simp only [State.renderComment, State.startComment, State.emitComment, hpending, hblock,
        count_eq_zero.2 hfeed, hlines, not_true_eq_false, and_false, if_false, or_true, if_true,
        State.emitNewlines, hzero]
      by_cases hsrc : c.srcLine ≠ 0 ∧ c.srcColumn ≠ 0 <;>
        simp [Inside, State.addAnchor, hsrc, spaces]
  refine ⟨⟨⟨?_, by simp [hin.1]⟩, ?_, ?_⟩, hin⟩
  · rw [hcol, hout, column_of_notMem hline, h.col]
  · rw [hout, count_append, count_eq_zero.2 hline, Nat.add_zero]
  · rw [hcol, length_append]
    omega

theorem moves_inside (opts : RenderOpts) (indent : ℤ) {cs : List CommentDoc} (hin : Inside state)
    (hcol : 0 < state.col) (hleading : ∀ c ∈ cs, c.leadingNewlines = 0)
    (hfeed : ∀ c ∈ cs, '\n' ∉ c.text) (hblock : ∀ c ∈ cs, c.isLineComment = false) :
    Moves state (state.renderComments cs indent opts) (cs.map fun c => c.text.length + 1).sum := by
  induction cs generalizing state with
  | nil => exact Moves.refl h
  | cons c cs ih =>
    obtain ⟨hmoves, hin'⟩ := moves_comment h opts indent
      (.inl ⟨hin, hcol, hleading c mem_cons_self⟩) (hfeed c mem_cons_self) (hblock c mem_cons_self)
    have hcol' := hmoves.col
    exact hmoves.trans (ih hmoves.tracks hin' (by omega)
      (fun c' hc' => hleading c' (mem_cons_of_mem _ hc'))
      (fun c' hc' => hfeed c' (mem_cons_of_mem _ hc'))
      fun c' hc' => hblock c' (mem_cons_of_mem _ hc'))

theorem moves_comments (opts : RenderOpts) (indent : ℤ) {cs : List CommentDoc}
    (hfirst : ∀ c ∈ cs.head?, CountedComment opts state indent c)
    (hleading : ∀ c ∈ cs.tail, c.leadingNewlines = 0) (hfeed : ∀ c ∈ cs, '\n' ∉ c.text)
    (hblock : ∀ c ∈ cs, c.isLineComment = false) :
    Moves state (state.renderComments cs indent opts) (cs.map fun c => c.text.length + 1).sum := by
  cases cs with
  | nil => exact Moves.refl h
  | cons c cs =>
    obtain ⟨hmoves, hin⟩ := moves_comment h opts indent (hfirst c rfl) (hfeed c mem_cons_self)
      (hblock c mem_cons_self)
    have hcol := hmoves.col
    exact hmoves.trans (moves_inside hmoves.tracks opts indent hin (by omega) hleading
      (fun c' hc' => hfeed c' (mem_cons_of_mem _ hc'))
      fun c' hc' => hblock c' (mem_cons_of_mem _ hc'))

end

end Moves

section Runs

variable {opts : RenderOpts} {state : State}

theorem forcedAny_iff {items : List Doc} : Doc.ForcedAny items ↔ ∃ item ∈ items, item.Forced := by
  induction items with
  | nil => simp [Doc.ForcedAny]
  | cons item items ih => simp [Doc.ForcedAny, ih]

theorem Moves.over (hmoves : Moves state state' width)
    (hfits : fitsFrames stack' ((opts.maxWidth : ℤ) - state.col - width) = false)
    (hfree : ∀ frame ∈ stack', frame.mode = .flat → ¬ frame.doc.Forced)
    (hlayered : Layered stack') : Over opts state' stack' := by
  refine ⟨hmoves.tracks, ?_, hfree, hlayered⟩
  cases hfit : fitsFrames stack' ((opts.maxWidth : ℤ) - state'.col) with
  | false => rfl
  | true =>
    have hcol := hmoves.col
    rw [← hfits, fitsFrames_mono hfit (by omega)]

theorem Replaces.free {indent : ℤ} {mode : Mode} {doc : Doc}
    (h : Replaces indent mode doc frames) (hfree : mode = .flat → ¬ doc.Forced)
    (hcounted : Counted opts state ⟨indent, mode, doc⟩)
    (hgroup : ∀ inner, doc = .group inner → mode = .break → frames = [⟨indent, .break, inner⟩]) :
    ∀ frame ∈ frames, frame.mode = .flat → ¬ frame.doc.Forced := by
  cases h with
  | done => simp
  | concat items =>
    intro frame hframe hflat hforced
    obtain ⟨item, hitem, rfl⟩ := mem_map.1 hframe
    exact hfree hflat (forcedAny_iff.2 ⟨item, hitem, hforced⟩)
  | indent off inner =>
    intro frame hframe hflat
    rw [mem_singleton.1 hframe] at hflat ⊢
    exact hfree hflat
  | group inner =>
    intro frame hframe hflat
    rw [mem_singleton.1 hframe] at hflat ⊢
    exact hfree hflat
  | groupFlat inner =>
    intro frame hframe _
    rw [mem_singleton.1 hframe]
    cases mode with
    | flat => exact hfree rfl
    | «break» => cases hgroup inner rfl rfl
  | forceFlat inner =>
    intro frame hframe _
    rw [mem_singleton.1 hframe]
    cases mode with
    | flat => exact hfree rfl
    | «break» => exact hcounted rfl

theorem Over.turn {frame : Frame} {stack : List Frame} (h : Over opts state (frame :: stack))
    (hroom : state.col ≤ opts.maxWidth) (hcounted : Counted opts state frame) :
    ¬ frame.doc.HasLineComment ∧ KeepsLine opts state frame stack ∧
      Over opts (renderFrame frame opts state stack).1
        ((renderFrame frame opts state stack).2 ++ stack) := by
  have hremaining : ((opts.maxWidth - state.col : ℕ) : ℤ) = (opts.maxWidth : ℤ) - state.col := by
    omega
  have hfits := h.fits
  obtain ⟨indent, mode, doc⟩ := frame
  simp only [fitsFrames] at hfits
  rw [fitsItem.eq_def] at hfits
  dsimp only at hfits
  rw [if_neg (by omega)] at hfits
  have hgroup : ∀ inner, doc = .group inner → mode = .break →
      fitsFlat inner stack (asIsize (opts.maxWidth - state.col)) = false := by
    rintro inner rfl rfl
    have hflat : fitsFrames (⟨indent, .flat, inner⟩ :: stack)
        ((opts.maxWidth : ℤ) - state.col) = false := fitsFrames_flat hfits
    have hcast : asIsize (opts.maxWidth - state.col) ≤ (opts.maxWidth : ℤ) - state.col := by
      rw [← hremaining, asIsize]
      split <;> omega
    rw [fitsFlat_eq (h.layered.below rfl) indent]
    by_contra hfit
    rw [fitsFrames_mono (by simpa using hfit) hcast] at hflat
    cases hflat
  have hlayered := h.layered.turn opts state
  have hfree : ∀ frame' ∈ (renderFrame ⟨indent, mode, doc⟩ opts state stack).2 ++ stack,
      frame'.mode = .flat → ¬ frame'.doc.Forced := by
    intro frame' hframe'
    rcases mem_append.1 hframe' with hframe' | hframe'
    · refine (renderFrame_replaces opts state indent mode doc stack).free
        (h.free _ mem_cons_self) hcounted ?_ frame' hframe'
      rintro inner rfl rfl
      simp [renderFrame, hgroup inner rfl rfl]
    · exact h.free frame' (mem_cons_of_mem _ hframe')
  -- It suffices to say how much is written, and that it is what was measured.
  suffices hturn : ¬ doc.HasLineComment ∧ ∃ width,
      Moves state (renderFrame ⟨indent, mode, doc⟩ opts state stack).1 width ∧
        fitsFrames ((renderFrame ⟨indent, mode, doc⟩ opts state stack).2 ++ stack)
          ((opts.maxWidth : ℤ) - state.col - width) = false by
    obtain ⟨hcomment, width, hmoves, hleft⟩ := hturn
    exact ⟨hcomment, hmoves.count, hmoves.over hleft hfree hlayered⟩
  have hstay := Moves.refl h.tracks
  have hzero : ∀ {stack' : List Frame},
      fitsFrames stack' ((opts.maxWidth : ℤ) - state.col) = false →
        fitsFrames stack' ((opts.maxWidth : ℤ) - state.col - (0 : ℕ)) = false := by
    intro stack' hleft
    show fitsFrames stack' (_ - (0 : ℤ)) = false
    rwa [Int.sub_zero]
  cases doc with
  | nil => exact ⟨id, 0, hstay, hzero hfits⟩
  | text s =>
    have hflush := flushed_flushPendingWithIndent h.tracks indent opts
    have hmoves := hflush.moves.trans (moves_putLines hflush.tracks hflush.pending hcounted)
    rw [Nat.zero_add] at hmoves
    exact ⟨id, s.length, hmoves, hfits⟩
  | concat items =>
    refine ⟨id, 0, hstay, hzero ?_⟩
    show fitsFrames (items.map (Frame.mk indent mode) ++ stack) _ = false
    rw [fitsFrames_items]
    exact hfits
  | indent off inner => exact ⟨id, 0, hstay, hzero hfits⟩
  | group inner =>
    cases mode with
    | flat => exact ⟨id, 0, hstay, hzero hfits⟩
    | «break» =>
      simp only [renderFrame, reduceCtorEq, if_false, hgroup inner rfl rfl, Bool.false_eq_true]
      exact ⟨id, 0, hstay, hzero hfits⟩
  | forceFlat inner =>
    cases mode with
    | flat => exact ⟨id, 0, hstay, hzero hfits⟩
    | «break» => exact ⟨id, 0, hstay, hzero (fitsFrames_flat hfits)⟩
  | line sep =>
    cases mode with
    | flat =>
      have hflush := flushed_flushPending h.tracks
      have hmoves := hflush.moves.trans (moves_put hflush.tracks hflush.pending (hcounted rfl))
      rw [Nat.zero_add] at hmoves
      exact ⟨id, sep.length, hmoves, hfits⟩
    | «break» => cases hfits
  | hardline =>
    cases mode with
    | flat => exact absurd trivial (h.free _ mem_cons_self rfl)
    | «break» => cases hfits
  | dedentHardline level =>
    cases mode with
    | flat => exact absurd trivial (h.free _ mem_cons_self rfl)
    | «break» => cases hfits
  | comments cs =>
    have hcomment : ¬ (Doc.comments cs).HasLineComment := by
      intro hline
      cases mode with
      | flat => exact h.free _ mem_cons_self rfl hline
      | «break» =>
        have hany : cs.any (·.isLineComment) = true := any_eq_true.2 hline
        simp [hany] at hfits
    have hblock : ∀ c ∈ cs, c.isLineComment = false := by
      intro c hc
      by_contra hline
      exact hcomment ⟨c, hc, by simpa using hline⟩
    have hany : cs.any (·.isLineComment) = false := by
      rw [any_eq_false]
      intro c hc
      simp [hblock c hc]
    obtain ⟨hfirst, hleading, hfeed⟩ := hcounted
    have hleft : fitsFrames stack ((opts.maxWidth : ℤ) - state.col -
        ((cs.map fun c => c.text.length + 1).sum : ℕ)) = false := by
      simpa [hany] using hfits
    exact ⟨hcomment, _, moves_comments h.tracks opts indent hfirst hleading hfeed hblock, hleft⟩
  | ifBreak s =>
    cases mode with
    | flat => exact ⟨id, 0, hstay, hzero hfits⟩
    | «break» =>
      have hmoves := moves_text h.tracks indent opts (hcounted rfl)
      exact ⟨id, 0, hmoves.weaken (Nat.zero_le _), hzero hfits⟩
  | ifBreakPad width =>
    refine ⟨id, 0, ?_, ?_⟩
    · simp only [renderFrame]
      split
      · exact (moves_spaces h.tracks indent opts width).weaken (Nat.zero_le _)
      · exact hstay
    · simp only [renderFrame]
      split <;> exact hzero hfits
  | pad width =>
    simp only [renderFrame]
    split
    · exact ⟨id, width, moves_spaces h.tracks indent opts width, hfits⟩
    · rename_i hwidth
      obtain rfl : width = 0 := by omega
      exact ⟨id, 0, hstay, hfits⟩
  | ifFlatPad width =>
    simp only [renderFrame]
    split
    · exact ⟨id, width, moves_spaces h.tracks indent opts width, hfits⟩
    · rename_i hwidth
      obtain rfl : width = 0 := by
        cases mode with
        | flat => simpa using hwidth
        | «break» => exact hcounted rfl
      exact ⟨id, 0, hstay, hfits⟩
  | anchored a =>
    have hflush := flushed_flushPendingWithIndent h.tracks indent opts
    have htracks : Tracks ((state.flushPendingWithIndent indent opts).addAnchor a.srcLine
        a.srcColumn a.text) := ⟨hflush.tracks.col, hflush.tracks.pending⟩
    have hanchor := moves_putLines htracks hflush.pending hcounted
    have hmoves := hflush.moves.trans ⟨hanchor.tracks, hanchor.count, hanchor.col⟩
    rw [Nat.zero_add] at hmoves
    exact ⟨id, a.text.length, hmoves, hfits⟩

theorem OnLine.trans {start : State} (h : OnLine opts start frames state stack)
    (h' : OnLine opts state stack state' stack') : OnLine opts start frames state' stack' := by
  induction h' with
  | here => exact h
  | turn _ hcomment hline ih => exact ih.turn hcomment hline

theorem Over.not_within (h : Over opts state stack)
    (hcounted : ∀ state' frame stack', OnLine opts state stack state' (frame :: stack') →
      column state'.out ≤ opts.maxWidth → Counted opts state' frame) :
    ¬ Within opts state stack := by
  intro hwithin
  -- The frames get smaller with every turn.
  induction hsize : Doc.sizeAll (stack.map (·.doc)) using Nat.strong_induction_on
    generalizing state stack with
  | _ size ih =>
    have hroom : state.col ≤ opts.maxWidth := by
      rw [h.tracks.col]
      exact (hwithin state stack .here).1
    cases stack with
    | nil =>
      have hfits := h.fits
      simp only [fitsFrames, decide_eq_false_iff_not] at hfits
      omega
    | cons frame stack =>
      obtain ⟨hcomment, hline, hover⟩ :=
        h.turn hroom (hcounted state frame stack .here (hwithin state _ .here).1)
      have hstep : OnLine opts state (frame :: stack) _ _ := .turn .here hcomment hline
      have hsmaller : Doc.sizeAll ((renderFrame frame opts state stack).2.map (·.doc)) <
          frame.doc.size :=
        (renderFrame_replaces opts state frame.indent frame.mode frame.doc stack).size
      refine ih _ ?_ hover (fun state' frame' stack' h' => hcounted _ _ _ (hstep.trans h'))
        (fun state' stack' h' => hwithin _ _ (hstep.trans h')) rfl
      rw [← hsize, map_append, Doc.sizeAll_append, map_cons, Doc.sizeAll]
      omega

end Runs

end Veryl.Pretty
