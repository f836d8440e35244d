import Veryl.Pretty.RenderSteps

/-!
A whole run of the renderer. Each turn writes a part of the content of its document; the
anchors are exact as long as each is recorded without drift.
-/

namespace Veryl.Pretty

open Veryl.Library List

variable {doc : Doc} {state' : State} {sep : Text}

namespace Doc

theorem contentAll_append (items items' : List Doc) :
    contentAll (items ++ items') = contentAll items ++ contentAll items' := by
  induction items with
  | nil => rfl
  | cons item items ih => simp [contentAll, ih]

theorem sizeAll_append (items items' : List Doc) :
    sizeAll (items ++ items') = sizeAll items + sizeAll items' := by
  induction items with
  | nil => simp [sizeAll]
  | cons item items ih => simp [sizeAll, ih, Nat.add_assoc]

end Doc

namespace Drift

/-- A comment that starts a line has its column. -/
def atComment (drift : Drift) (state : State) (c : CommentDoc) : Drift :=
  if c.leadingNewlines = 0 ∧ ¬ state.swallowNextBreak ∧ ¬ state.pendingIndent.isSome then drift
  else drift.reset

/-- The column kept after a block comment over several lines is that of an empty last line. -/
def afterComment (drift : Drift) (c : CommentDoc) : Drift :=
  if c.isLineComment then drift.reset
  else if '\n' ∈ c.text then { drift with column := decide (lastLine c.text ≠ []) }
  else drift

def afterComments (indent : ℤ) (opts : RenderOpts) : State → Drift → List CommentDoc → Drift
  | _, drift, [] => drift
  | state, drift, c :: cs =>
    afterComments indent opts (state.renderComment indent opts c)
      ((drift.atComment state c).afterComment c) cs

/-- The drift after the turn of a frame. -/
def step (opts : RenderOpts) (drift : Drift) (state : State) (frame : Frame) : Drift :=
  let ⟨indent, mode, doc⟩ := frame
  match doc with
  | .text s => drift.text s
  | .line sep => if mode = .flat then drift.separator sep else drift.atBreak state
  | .hardline => if mode = .flat then drift else drift.atBreak state
  | .dedentHardline _ => if mode = .flat then drift else drift.atBreak state
  | .comments cs => afterComments indent opts state drift cs
  | .ifBreak s => if mode = .break then drift.separator s else drift
  | .anchored a => drift.text a.text
  | _ => drift

end Drift

/-- The anchors of the comments are recorded at their positions. -/
def PlacedComments (indent : ℤ) (opts : RenderOpts) : State → Drift → List CommentDoc → Prop
  | _, _, [] => True
  | state, drift, c :: cs =>
    (c.srcLine ≠ 0 → c.srcColumn ≠ 0 →
      Placed (drift.atComment state c) (state.startComment c (padFor indent opts) opts) c.text) ∧
    PlacedComments indent opts (state.renderComment indent opts c)
      ((drift.atComment state c).afterComment c) cs

/-- The anchors of the turn of a frame are recorded at their positions. -/
def Frame.Placed (opts : RenderOpts) (drift : Drift) (state : State) (frame : Frame) : Prop :=
  let ⟨indent, _, doc⟩ := frame
  match doc with
  | .comments cs => PlacedComments indent opts state drift cs
  | .anchored a => Pretty.Placed drift (state.flushPendingWithIndent indent opts) a.text
  | _ => True

/-- All anchors of a run are recorded at their positions. -/
def PlacedRun (opts : RenderOpts) : ℕ → Drift → State → List Frame → Prop
  | _, _, _, [] => True
  | 0, _, _, _ :: _ => True
  | turns + 1, drift, state, frame :: stack =>
    let next := renderFrame frame opts state stack
    frame.Placed opts drift state ∧
      PlacedRun opts turns (drift.step opts state frame) next.1 (next.2 ++ stack)

section Comments

variable {precise : Prop} {drift : Drift} {emitted : List Piece} {state : State}
  {opts : RenderOpts}

theorem startComment_spec (c : CommentDoc) (pad : ℕ) (opts : RenderOpts)
    (h : Renders precise drift emitted state) (hsettled : precise → Settled state) :
    Renders precise (drift.atComment state c) emitted (state.startComment c pad opts) ∧
      (state.startComment c pad opts).pendingIndent = none := by
  simp only [State.startComment, Drift.atComment]
  split
  · rename_i hinline
    obtain ⟨-, -, hpending⟩ := hinline
    have hnone : state.pendingIndent = none := by simpa using hpending
    split
    · refine ⟨h.space (isSpace_spaces 1) rfl rfl fun hp => ?_, hnone⟩
      have ha := h.aligned hp
      refine ⟨?_, fun hdrift => ?_, by simp [hnone]⟩
      · simp [ha.line]
      · show state.col + 1 = column (state.out ++ [' '])
        rw [column_of_notMem (by simp), ha.col hdrift]
        rfl
    · refine ⟨h.space isSpace_nil (by simp) rfl fun hp => ?_, hnone⟩
      have ha := h.aligned hp
      exact ⟨ha.line, ha.col, ha.pending⟩
  · rename_i hown
    have hstart : Renders precise drift emitted { state with swallowNextBreak := false } := by
      refine h.space isSpace_nil (by simp) rfl fun hp => ?_
      have ha := h.aligned hp
      exact ⟨ha.line, ha.col, ha.pending⟩
    generalize hcount : max c.leadingNewlines 1 - _ = n
    obtain ⟨⟨drift', hlines', hlines⟩, hcolumn⟩ := emitNewlines_spec opts n hstart
    refine ⟨hlines.space (isSpace_spaces pad) rfl rfl fun hp => ?_, rfl⟩
    have ha := hlines.aligned hp
    have hzero := hcolumn (by
      by_cases halready : state.swallowNextBreak = true ∨ state.pendingIndent.isSome = true
      · exact Or.inr (halready.elim (hsettled hp) (h.aligned hp).pending)
      · rw [if_neg halready] at hcount
        omega)
    refine ⟨?_, fun _ => ?_, by simp⟩
    · simp [Drift.reset, ← hlines', ha.line, count_eq_zero.2 (newline_notMem_spaces pad)]
    · show pad = column (_ ++ spaces pad)
      rw [column_of_notMem (newline_notMem_spaces pad), hzero, Nat.zero_add, spaces,
        length_replicate]

/-- The white space that a comment brings with it. -/
def commentEnd (c : CommentDoc) (opts : RenderOpts) : Text :=
  if c.isLineComment then opts.newline.chars else []

theorem emitComment_out (state : State) (c : CommentDoc) (pad : ℕ) (opts : RenderOpts) :
    (state.emitComment c pad opts).out = state.out ++ c.text ++ commentEnd c opts ∧
      (state.emitComment c pad opts).anchors = state.anchors := by
  simp only [State.emitComment, commentEnd]
  split
  · exact ⟨rfl, rfl⟩
  · split <;> exact ⟨(append_nil _).symm, rfl⟩

theorem emitComment_aligned (c : CommentDoc) (pad : ℕ) (opts : RenderOpts)
    (h : Aligned drift state) (hpending : state.pendingIndent = none) :
    Aligned (drift.afterComment c) (state.emitComment c pad opts) := by
  have hline := h.line
  simp only [State.emitComment, Drift.afterComment]
  split
  · have hcolumn := column_newline (state.out ++ c.text) opts.newline
    refine ⟨?_, fun _ => hcolumn.symm, fun _ => hcolumn⟩
    simp only [Drift.reset, count_append, count_newline]
    omega
  · by_cases hmem : '\n' ∈ c.text
    · rw [if_pos (count_pos_iff.2 hmem), if_pos hmem]
      refine ⟨?_, fun hdrift => ?_, by simp [hpending]⟩
      · simp only [count_append]
        omega
      · show 0 = column (state.out ++ c.text)
        have hlast : lastLine c.text = [] := by simpa using hdrift
        rw [column_of_mem hmem, hlast]
        rfl
    · have hcount : ¬ 0 < c.text.count '\n' := fun hpos => hmem (count_pos_iff.1 hpos)
      rw [if_neg hcount, if_neg hmem]
      refine ⟨?_, fun hdrift => ?_, by simp [hpending]⟩
      · simp [hline, count_eq_zero.2 hmem]
      · show state.col + c.text.length = column (state.out ++ c.text)
        rw [column_of_notMem hmem, h.col hdrift]

theorem emitComment_settled (state : State) (c : CommentDoc) (pad : ℕ) (opts : RenderOpts)
    (hswallow : state.swallowNextBreak = false) : Settled (state.emitComment c pad opts) := by
  simp only [State.emitComment]
  split
  · exact fun _ => column_newline (state.out ++ c.text) opts.newline
  · split <;> exact settled_of_not_swallow hswallow

theorem startComment_swallow (state : State) (c : CommentDoc) (pad : ℕ) (opts : RenderOpts) :
    (state.startComment c pad opts).swallowNextBreak = false := by
  have hlines : ∀ n (s : State), (s.emitNewlines opts n).swallowNextBreak = s.swallowNextBreak := by
    intro n
    induction n with
    | zero => exact fun _ => rfl
    | succ n ih => exact fun s => ih (s.emitNewline opts)
  simp only [State.startComment]
  split
  · split <;> rfl
  · exact hlines _ _

theorem renderComment_spec (indent : ℤ) (opts : RenderOpts) (c : CommentDoc)
    (h : Renders precise drift emitted state) (hsettled : precise → Settled state)
    (hplaced : precise → c.srcLine ≠ 0 → c.srcColumn ≠ 0 →
      Placed (drift.atComment state c) (state.startComment c (padFor indent opts) opts) c.text) :
    Renders precise ((drift.atComment state c).afterComment c) (emitted ++ [.ofComment c])
      (state.renderComment indent opts c) ∧ Settled (state.renderComment indent opts c) := by
  obtain ⟨hstart, hpending⟩ := startComment_spec c (padFor indent opts) opts h hsettled
  have hswallow := startComment_swallow state c (padFor indent opts) opts
  simp only [State.renderComment]
  generalize hs : state.startComment c (padFor indent opts) opts = start at *
  have hspace : IsSpace (commentEnd c opts) := by
    rw [commentEnd]
    split
    · exact isSpace_newline _
    · exact isSpace_nil
  have hline : (Piece.ofComment c).isLineComment = true → '\n' ∈ commentEnd c opts := by
    intro hc
    have hc' : c.isLineComment = true := hc
    rw [commentEnd, if_pos hc']
    exact newline_mem _
  have hsolid : precise → Solid (.ofComment c) := by
    intro hp hanchor
    simp only [Piece.ofComment] at hanchor ⊢
    split at hanchor
    · rename_i hsrc
      exact (hplaced hp hsrc.1 hsrc.2).visible
    · cases hanchor
  split
  · rename_i hsrc
    obtain ⟨hout, hanchors⟩ := emitComment_out (start.addAnchor c.srcLine c.srcColumn c.text) c
      (padFor indent opts) opts
    refine ⟨hstart.piece hspace hline hout (fun hp => ?_) (fun hp => ?_) hsolid,
      emitComment_settled _ _ _ _ hswallow⟩
    · rw [hanchors, addAnchor_anchors (hstart.aligned hp) (hplaced hp hsrc.1 hsrc.2)]
      simp [Entry.anchors, Piece.ofComment, hsrc]
    · have ha := hstart.aligned hp
      exact emitComment_aligned c _ _ ⟨ha.line, ha.col, ha.pending⟩ hpending
  · rename_i hsrc
    obtain ⟨hout, hanchors⟩ := emitComment_out start c (padFor indent opts) opts
    refine ⟨hstart.piece hspace hline hout (fun _ => ?_) (fun hp => ?_) hsolid,
      emitComment_settled _ _ _ _ hswallow⟩
    · rw [hanchors]
      simp [Entry.anchors, Piece.ofComment, if_neg hsrc]
    · exact emitComment_aligned c _ _ (hstart.aligned hp) hpending

theorem renderComments_spec (indent : ℤ) (opts : RenderOpts) (cs : List CommentDoc)
    (h : Renders precise drift emitted state) (hsettled : precise → Settled state)
    (hplaced : precise → PlacedComments indent opts state drift cs) :
    Renders precise (drift.afterComments indent opts state cs) (emitted ++ cs.map .ofComment)
      (state.renderComments cs indent opts) ∧
      (precise → Settled (state.renderComments cs indent opts)) := by
  rw [State.renderComments]
  induction cs generalizing state drift emitted with
  | nil => exact ⟨by simpa [Drift.afterComments] using h, hsettled⟩
  | cons c cs ih =>
    obtain ⟨hfirst, hsettled'⟩ :=
      renderComment_spec indent opts c h hsettled fun hp => (hplaced hp).1
    have hrest := ih hfirst (fun _ => hsettled') fun hp => (hplaced hp).2
    simpa [Drift.afterComments] using hrest

end Comments

/-- What is written of the content depends on the layout only in its optional pieces. -/
def Emits (content emitted : List Piece) : Prop :=
  Drops (fun piece => piece.optional = true) (fun _ => True) content emitted

theorem Emits.append {content content' emitted emitted' : List Piece}
    (h : Emits content emitted) (h' : Emits content' emitted') :
    Emits (content ++ content') (emitted ++ emitted') := Drops.append h h'

section Frames

variable {precise : Prop} {drift drift' : Drift} {emitted : List Piece} {state : State}
  {opts : RenderOpts}

/-- What a turn leaves: the pieces that it wrote, and frames for the rest of the content
of its document. -/
structure Turn (precise : Prop) (drift' : Drift) (emitted : List Piece) (doc : Doc)
    (state' : State) (frames : List Frame) : Prop where
  writes : ∃ rest written, doc.content = rest ++ Doc.contentAll (frames.map (·.doc)) ∧
    Emits rest written ∧ Renders precise drift' (emitted ++ written) state'
  settled : precise → Settled state'
  size : Doc.sizeAll (frames.map (·.doc)) + 1 ≤ doc.size

theorem Turn.done (written : List Piece)
    (hemits : Emits doc.content written) (h : Renders precise drift' (emitted ++ written) state')
    (hsettled : precise → Settled state') : Turn precise drift' emitted doc state' [] := by
  refine ⟨⟨doc.content, written, by simp [Doc.contentAll], hemits, h⟩, hsettled, ?_⟩
  cases doc <;> simp [Doc.size, Doc.sizeAll]

theorem Turn.space (hcontent : doc.content = [])
    (h : Renders precise drift' emitted state' ∧ (precise → Settled state')) :
    Turn precise drift' emitted doc state' [] :=
  .done [] (hcontent ▸ Drops.nil) (by simpa using h.1) h.2

theorem Turn.defer {frames : List Frame} (h : Renders precise drift emitted state)
    (hsettled : precise → Settled state)
    (hcontent : doc.content = Doc.contentAll (frames.map (·.doc)))
    (hsize : Doc.sizeAll (frames.map (·.doc)) + 1 ≤ doc.size) :
    Turn precise drift emitted doc state frames :=
  ⟨⟨[], [], by simpa using hcontent, Drops.nil, by simpa using h⟩, hsettled, hsize⟩

theorem put_spaces (indent : ℤ) (opts : RenderOpts) (n : ℕ) (h : Renders precise drift emitted state) :
    Renders precise drift emitted ((state.flushPendingWithIndent indent opts).put (spaces n)) ∧
      (precise → Settled ((state.flushPendingWithIndent indent opts).put (spaces n))) := by
  obtain ⟨hflush, hpending⟩ := flushPendingWithIndent_spec indent opts h
  obtain ⟨hput, hsettled⟩ := put_space hflush hpending (isSpace_spaces n)
  rw [separator_of_notMem drift (newline_notMem_spaces n)] at hput
  exact ⟨hput, fun _ => hsettled⟩

theorem put_collapsed (h : Renders precise drift emitted state) :
    Renders precise drift emitted (state.flushPending.put [' ']) ∧
      (precise → Settled (state.flushPending.put [' '])) := by
  obtain ⟨hflush, hpending⟩ := flushPending_spec h
  obtain ⟨hput, hsettled⟩ := put_space hflush hpending (isSpace_spaces 1)
  rw [separator_of_notMem drift (newline_notMem_spaces 1)] at hput
  exact ⟨hput, fun _ => hsettled⟩

theorem break_turn (indent : ℤ) (opts : RenderOpts) (h : Renders precise drift emitted state)
    (hsettled : precise → Settled state) :
    Renders precise (drift.atBreak state) emitted (state.emitBreak indent opts) ∧
      (precise → Settled (state.emitBreak indent opts)) := by
  obtain ⟨hbreak, hsettled'⟩ := emitBreak_spec indent opts h hsettled
  exact ⟨hbreak, fun _ => hsettled'⟩

theorem dedent_turn (level : ℕ) (indent : ℤ) (opts : RenderOpts)
    (h : Renders precise drift emitted state) (hsettled : precise → Settled state) :
    Renders precise (drift.atBreak state) emitted ((state.dedent level opts).emitBreak indent opts) ∧
      (precise → Settled ((state.dedent level opts).emitBreak indent opts)) := by
  obtain ⟨hdedent, hsettled'⟩ := dedent_spec level opts h
  have hswallow : (state.dedent level opts).swallowNextBreak = state.swallowNextBreak := by
    simp only [State.dedent]
    split <;> rfl
  rw [Drift.atBreak, ← hswallow]
  exact break_turn indent opts hdedent fun hp => hsettled' (hsettled hp)

/-- A separator is white space, or an optional piece. -/
theorem line_turn (h : Renders precise drift emitted state) :
    Turn precise (drift.separator sep) emitted (.line sep) (state.flushPending.put sep) [] := by
  obtain ⟨hflush, hpending⟩ := flushPending_spec h
  by_cases hsep : IsSpace sep
  · obtain ⟨hput, hsettled⟩ := put_space hflush hpending hsep
    exact .space (by simp [Doc.content, hsep]) ⟨hput, fun _ => hsettled⟩
  · obtain ⟨hput, hsettled⟩ := put_piece true sep hflush hpending
    refine .done _ ?_ hput fun _ => hsettled
    simp only [Doc.content, hsep, if_false]
    exact Drops.refl _

theorem line_break (indent : ℤ) (opts : RenderOpts)
    (h : Renders precise drift emitted state) (hsettled : precise → Settled state) :
    Turn precise (drift.atBreak state) emitted (.line sep) (state.emitBreak indent opts) [] := by
  obtain ⟨hbreak, hsettled'⟩ := break_turn indent opts h hsettled
  refine .done [] ?_ (by simpa using hbreak) hsettled'
  simp only [Doc.content]
  split
  · exact Drops.nil
  · exact Drops.drop _ rfl trivial Drops.nil

theorem renderFrame_spec (opts : RenderOpts) (frame : Frame) (stack : List Frame)
    (h : Renders precise drift emitted state) (hsettled : precise → Settled state)
    (hplaced : precise → frame.Placed opts drift state) :
    Turn precise (drift.step opts state frame) emitted frame.doc
      (renderFrame frame opts state stack).1
      (renderFrame frame opts state stack).2 := by
  obtain ⟨indent, mode, doc⟩ := frame
  cases doc with
  | nil => exact .space rfl ⟨h, hsettled⟩
  | text s =>
    obtain ⟨hflush, hpending⟩ := flushPendingWithIndent_spec indent opts h
    obtain ⟨hput, hsettled'⟩ := putLines_piece s hflush hpending
    exact .done _ (Drops.refl _) hput fun _ => hsettled'
  | concat items =>
    have hmap : (items.map (Frame.mk indent mode)).map (·.doc) = items := by
      simp [Function.comp_def]
    show Turn precise drift emitted (.concat items) state (items.map (Frame.mk indent mode))
    refine .defer h hsettled ?_ ?_
    · rw [hmap, Doc.content]
    · rw [hmap, Doc.size]
  | indent off inner =>
    show Turn precise drift emitted (.indent off inner) state [_]
    exact .defer h hsettled (by simp [Doc.content, Doc.contentAll])
      (by simp [Doc.size, Doc.sizeAll])
  | group inner =>
    show Turn precise drift emitted (.group inner) state [_]
    exact .defer h hsettled (by simp [Doc.content, Doc.contentAll])
      (by simp [Doc.size, Doc.sizeAll])
  | forceFlat inner =>
    show Turn precise drift emitted (.forceFlat inner) state [_]
    exact .defer h hsettled (by simp [Doc.content, Doc.contentAll])
      (by simp [Doc.size, Doc.sizeAll])
  | line sep =>
    cases mode with
    | flat => exact line_turn h
    | «break» => exact line_break indent opts h hsettled
  | hardline =>
    cases mode with
    | flat => exact .space rfl (put_collapsed h)
    | «break» => exact .space rfl (break_turn indent opts h hsettled)
  | dedentHardline level =>
    cases mode with
    | flat => exact .space rfl (put_collapsed h)
    | «break» => exact .space rfl (dedent_turn level indent opts h hsettled)
  | comments cs =>
    obtain ⟨hcomments, hsettled'⟩ := renderComments_spec indent opts cs h hsettled hplaced
    exact .done _ (Drops.refl _) hcomments hsettled'
  | ifBreak s =>
    obtain ⟨hflush, hpending⟩ := flushPendingWithIndent_spec indent opts h
    simp only [renderFrame, Drift.step]
    split
    · obtain ⟨hput, hsettled'⟩ := put_piece true s hflush hpending
      exact .done _ (Drops.refl _) hput fun _ => hsettled'
    · exact .done [] (Drops.drop _ rfl trivial Drops.nil) (by simpa using h)
        hsettled
  | ifBreakPad width =>
    simp only [renderFrame]
    split
    · exact .space rfl (put_spaces indent opts width h)
    · exact .space rfl ⟨h, hsettled⟩
  | pad width =>
    simp only [renderFrame]
    split
    · exact .space rfl (put_spaces indent opts width h)
    · exact .space rfl ⟨h, hsettled⟩
  | ifFlatPad width =>
    simp only [renderFrame]
    split
    · exact .space rfl (put_spaces indent opts width h)
    · exact .space rfl ⟨h, hsettled⟩
  | anchored a =>
    obtain ⟨hanchored, hsettled'⟩ := emitAnchored_piece a indent opts h hplaced
    exact .done _ (Drops.refl _) hanchored fun _ => hsettled'

theorem renderLoop_spec (opts : RenderOpts) {turns : ℕ} {stack : List Frame}
    (h : Renders precise drift emitted state) (hsettled : precise → Settled state)
    (hplaced : precise → PlacedRun opts turns drift state stack)
    (hturns : Doc.sizeAll (stack.map (·.doc)) ≤ turns) :
    ∃ state' drift' written, renderLoop opts turns state stack = some state' ∧
      Emits (Doc.contentAll (stack.map (·.doc))) written ∧
      Renders precise drift' (emitted ++ written) state' := by
  induction turns generalizing state drift emitted stack with
  | zero =>
    cases stack with
    | nil => exact ⟨state, drift, [], rfl, Drops.nil, by simpa using h⟩
    | cons frame stack =>
      have hpos : 0 < frame.doc.size := by cases frame.doc <;> simp [Doc.size]
      simp only [map_cons, Doc.sizeAll] at hturns
      omega
  | succ turns ih =>
    cases stack with
    | nil => exact ⟨state, drift, [], rfl, Drops.nil, by simpa using h⟩
    | cons frame stack =>
      have hturn := renderFrame_spec opts frame stack h hsettled fun hp => (hplaced hp).1
      obtain ⟨rest, written, hcontent, hemits, hrenders⟩ := hturn.writes
      have hsize := hturn.size
      simp only [map_cons, Doc.sizeAll] at hturns
      obtain ⟨state', drift', written', hloop, hemits', hrenders'⟩ := ih hrenders hturn.settled
        (fun hp => (hplaced hp).2) (by rw [map_append, Doc.sizeAll_append]; omega)
      refine ⟨state', drift', written ++ written', hloop, ?_, by simpa using hrenders'⟩
      rw [map_append, Doc.contentAll_append] at hemits'
      simp only [map_cons, Doc.contentAll, hcontent, append_assoc]
      exact hemits.append hemits'

end Frames

theorem renders_init (precise : Prop) : Renders precise ⟨0, false⟩ [] .init :=
  ⟨[], laid_nil, fun _ => ⟨rfl, ⟨rfl, fun _ => rfl, by simp [State.init]⟩, by simp⟩⟩

/-- All anchors of a document are recorded at their positions. -/
def Doc.Placed (doc : Doc) (opts : RenderOpts) : Prop :=
  PlacedRun opts doc.size ⟨0, false⟩ .init [⟨0, .break, doc⟩]

theorem renderInner_spec (doc : Doc) (opts : RenderOpts) :
    ∃ rendered emitted, renderInner doc opts = some rendered ∧ Emits doc.content emitted ∧
      Contains emitted rendered.text ∧
      (doc.Placed opts → Laid emitted rendered.text rendered.anchors) := by
  have hturns : Doc.sizeAll ([Frame.mk 0 .break doc].map (·.doc)) ≤ doc.size := by
    simp [Doc.sizeAll]
  obtain ⟨state, drift, emitted, hloop, hemits, anchors, hlaid, hprecise⟩ :=
    renderLoop_spec opts (renders_init (doc.Placed opts)) (fun _ => settled_of_not_swallow rfl)
      id hturns
  simp only [map_cons, map_nil, Doc.contentAll, append_nil, nil_append] at hemits hlaid hprecise
  have hrender : renderInner doc opts = some
      { text := if opts.stripTrailingWhitespace then
            stripTrailingWhitespace state.out opts.newline
          else state.out
        anchors := state.anchors } := by
    simp [renderInner, hloop]
  refine ⟨_, emitted, hrender, hemits, ?_⟩
  split
  · obtain ⟨hcontains, hsolid⟩ := hlaid.drops (drops_strip opts.newline state.out)
    refine ⟨hcontains, fun hp => ?_⟩
    obtain ⟨rfl, -, hall⟩ := hprecise hp
    exact hsolid hall
  · refine ⟨⟨anchors, hlaid⟩, fun hp => ?_⟩
    obtain ⟨rfl, -, -⟩ := hprecise hp
    exact hlaid

end Veryl.Pretty
