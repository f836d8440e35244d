import Veryl.Pretty.GroupLaw
import Veryl.Pretty.RenderRun

/-!
A group that is laid out flat. What was measured at the group is a promise about the
line; a turn on the line either ends it within the width or keeps the promise.
-/

namespace Veryl.Pretty

open Veryl.Library List State
open State (emitNewline renderComment startComment)

variable {stack stack' : List Frame} {state₁ state' state : State} {frame : Frame} {width : ℕ}
  {s : Text} {frames stack : List Frame} {c : CommentDoc} {start : State}

/-- The renderer knows its column, and an indent is due only at the start of a line. -/
structure Tracks (state : State) : Prop where
  col : state.col = column state.out
  pending : state.pendingIndent.isSome = true → column state.out = 0

/-- The column of the next content. -/
def State.due (state : State) : ℕ := state.pendingIndent.getD state.col

/-- A break is swallowed only at the start of a line. -/
def Parked (state : State) : Prop :=
  state.swallowNextBreak = true → state.pendingIndent.isSome = true

/-- What the frames write on the line has room. -/
structure Promised (opts : RenderOpts) (state : State) (stack : List Frame) : Prop where
  parked : Parked state
  tracks : Tracks state
  fits : fitsFrames stack ((opts.maxWidth : ℤ) - state.due) = true

/-- What a turn has to do for the promise. -/
def Kept (opts : RenderOpts) (state state' : State) (stack' : List Frame) : Prop :=
  column state.out + (firstLine (state'.out.drop state.out.length)).length ≤ opts.maxWidth ∧
    (state'.out.count '\n' = state.out.count '\n' → Promised opts state' stack')

/-- What the look-ahead of a group above leaves out has room where it is written, and a
group is also flat behind the indent that is due. Where a break is swallowed the line goes on, and
the rest has room behind the new indent. -/
def Accounted (opts : RenderOpts) (state : State) (frame : Frame) (stack : List Frame) : Prop :=
  let swallowed := frame.mode = .break → state.swallowNextBreak = true →
    fitsFlat .nil stack ((opts.maxWidth : ℤ) - padFor frame.indent opts) = true
  match frame.doc with
  | .line _ => swallowed
  | .hardline => swallowed
  | .dedentHardline _ => swallowed
  | .group inner =>
    frame.mode = .break → fitsFlat inner stack (asIsize (opts.maxWidth - state.col)) = true →
      fitsFlat inner stack (opts.maxWidth - state.due : ℕ) = true
  | .forceFlat inner =>
    frame.mode = .break → fitsFlat inner stack (opts.maxWidth - state.due : ℕ) = true
  | .ifBreak s =>
    frame.mode = .break → fitsFlat (.text s) stack (opts.maxWidth - state.due : ℕ) = true
  | .ifBreakPad width =>
    frame.mode = .break → fitsFlat (.pad width) stack (opts.maxWidth - state.due : ℕ) = true
  | .comments _ =>
    state.pendingIndent.isSome = true → padFor frame.indent opts ≤ state.due
  | _ => True

/-- Below a frame in break mode there are only frames in break mode. -/
def Layered (stack : List Frame) : Prop :=
  stack.Pairwise fun frame below => frame.mode = .break → below.mode = .break

/-- The indent that is due is written, or less of it. -/
structure Flushed (state state' : State) : Prop where
  out : ∃ n, state'.out = state.out ++ spaces n ∧ state'.col = column state.out + n
  pending : state'.pendingIndent = none
  tracks : Tracks state'
  due : state'.col ≤ state.due
  col : state.col ≤ state'.col

section Turns

variable {opts : RenderOpts} {state : State}

theorem State.due_of_none (h : state.pendingIndent = none) : state.due = state.col := by
  simp [State.due, h]

theorem Flushed.refl (h : Tracks state) (hpending : state.pendingIndent = none) :
    Flushed state state := by
  refine ⟨⟨0, (append_nil _).symm, h.col⟩, hpending, h, ?_, Nat.le_refl _⟩
  rw [due_of_none hpending]

theorem Flushed.indent {n pad : ℕ} (h : Tracks state) (hpending : state.pendingIndent = some pad)
    (hle : n ≤ pad) :
    Flushed state { state with pendingIndent := none, out := state.out ++ spaces n, col := n } := by
  have hzero := h.pending (by simp [hpending])
  have hcol : column (state.out ++ spaces n) = n := by
    rw [column_of_notMem (newline_notMem_spaces n), hzero, Nat.zero_add, spaces, length_replicate]
  refine ⟨⟨n, rfl, ?_⟩, rfl, ⟨hcol.symm, by simp⟩, ?_, ?_⟩
  · rw [hzero, Nat.zero_add]
  · simpa [State.due, hpending] using hle
  · rw [h.col, hzero]
    exact Nat.zero_le n

theorem flushed_flushPending (h : Tracks state) : Flushed state state.flushPending := by
  cases hpending : state.pendingIndent with
  | none =>
    have heq : state.flushPending = state := by simp [flushPending, hpending]
    rw [heq]
    exact .refl h hpending
  | some pad =>
    simp only [flushPending, hpending]
    exact .indent h hpending (Nat.le_refl pad)

theorem flushed_flushPendingWithIndent (h : Tracks state) (indent : ℤ) (opts : RenderOpts) :
    Flushed state (state.flushPendingWithIndent indent opts) := by
  cases hpending : state.pendingIndent with
  | none =>
    have heq : state.flushPendingWithIndent indent opts = state := by
      simp [flushPendingWithIndent, hpending]
    rw [heq]
    exact .refl h hpending
  | some pad =>
    simp only [flushPendingWithIndent, hpending]
    exact .indent h hpending (Nat.min_le_right _ _)

theorem Promised.room (h : Promised opts state stack) : column state.out ≤ opts.maxWidth := by
  have hnonneg := fitsFrames_nonneg h.fits
  have hdue := (flushed_flushPending h.tracks).due
  have hcol := (flushed_flushPending h.tracks).col
  rw [← h.tracks.col]
  omega

/-- A turn that writes nothing. -/
theorem Promised.kept_same (h : Promised opts state stack)
    (hfits : fitsFrames stack' ((opts.maxWidth : ℤ) - state.due) = true) :
    Kept opts state state stack' := by
  refine ⟨?_, fun _ => ⟨h.parked, h.tracks, hfits⟩⟩
  rw [drop_length]
  exact h.room

section

variable (h : Flushed state state₁)

include h

theorem Flushed.kept (hout : state'.out = state₁.out ++ s)
    (hinside : '\n' ∉ s → state'.pendingIndent = none ∧ state'.swallowNextBreak = false ∧
      state'.col = state₁.col + s.length)
    (hfits : fitsFrames stack' ((opts.maxWidth : ℤ) - state.due - s.length) = true) :
    Kept opts state state' stack' := by
  have hroom := fitsFrames_nonneg hfits
  have hdue := h.due
  obtain ⟨n, hn, hcol₁⟩ := h.out
  refine ⟨?_, fun hcount => ?_⟩
  · rw [hout, hn, append_assoc, drop_left]
    have hle := firstLine_append_le (spaces n) s
    have hle' := firstLine_length_le s
    rw [spaces, length_replicate] at hle
    rw [spaces]
    omega
  · have hfeed : '\n' ∉ s := by
      rw [hout, hn, count_append, count_append] at hcount
      exact count_eq_zero.1 (by omega)
    obtain ⟨hpending, hswallow, hcol⟩ := hinside hfeed
    have htracks : Tracks state' := by
      refine ⟨?_, by simp [hpending]⟩
      rw [hcol, hout, column_of_notMem hfeed, h.tracks.col]
    refine ⟨fun hs => ?_, htracks, fitsFrames_mono hfits ?_⟩
    · rw [hswallow] at hs
      cases hs
    · rw [due_of_none hpending, hcol]
      omega

theorem Flushed.kept_put
    (hfits : fitsFrames stack' ((opts.maxWidth : ℤ) - state.due - s.length) = true) :
    Kept opts state (state₁.put s) stack' :=
  h.kept rfl (fun _ => ⟨h.pending, rfl, rfl⟩) hfits

theorem Flushed.kept_putLines
    (hfits : fitsFrames stack' ((opts.maxWidth : ℤ) - state.due - s.length) = true) :
    Kept opts state (state₁.putLines s) stack' := by
  refine h.kept (putLines_out state₁ s).1 (fun hfeed => ?_) hfits
  have hput : state₁.putLines s = state₁.put s := by
    simp [putLines, count_eq_zero.2 hfeed]
  rw [hput]
  exact ⟨h.pending, rfl, rfl⟩

theorem Flushed.kept_spaces
    (hfits : fitsFrames stack' ((opts.maxWidth : ℤ) - state.due - width) = true) :
    Kept opts state (state₁.put (spaces width)) stack' := by
  refine h.kept_put ?_
  rw [spaces, length_replicate]
  exact hfits

end

theorem Promised.kept_newline (indent : ℤ)
    (h : Promised opts state stack) (hswallow : state₁.swallowNextBreak = false) {n : ℕ}
    (hout : state₁.out = state.out.take n) (hfeeds : state₁.out.count '\n' = state.out.count '\n') :
    Kept opts state (state₁.emitBreak indent opts) stack' := by
  have hbreak : (state₁.emitBreak indent opts).out = state.out.take n ++ opts.newline.chars := by
    simp [emitBreak, hswallow, emitNewline, hout]
  have hfirst : firstLine ((state₁.emitBreak indent opts).out.drop state.out.length) = [] := by
    have hnil : (state.out.take n).drop state.out.length = [] :=
      drop_eq_nil_of_le (by rw [length_take]; exact Nat.min_le_right _ _)
    rw [hbreak, drop_append, hnil, nil_append]
    generalize state.out.length - (state.out.take n).length = k
    cases opts.newline with
    | lf => rcases k with _ | k <;> simp [Newline.chars, firstLine]
    | crlf => rcases k with _ | _ | k <;> simp [Newline.chars, firstLine]
  refine ⟨?_, fun hcount => ?_⟩
  · rw [hfirst]
    exact h.room
  · rw [hbreak, ← hout, count_append, count_newline] at hcount
    omega

/-- Asking for nothing is asking for the rest. -/
theorem fitsFrames_of_nil {budget : ℤ} (hbelow : ∀ below ∈ stack, below.mode = .break)
    (h : fitsFlat .nil stack budget = true) : fitsFrames stack budget = true := by
  rw [fitsFlat_eq hbelow 0] at h
  have hnonneg := fitsFrames_nonneg h
  simp only [fitsFrames_cons] at h
  rw [fitsItem.eq_def] at h
  dsimp only at h
  rwa [if_neg (Int.not_lt.2 hnonneg)] at h

/-- A break ends the line, or is swallowed at its start. -/
theorem Promised.kept_break (indent : ℤ) (h : Promised opts state stack')
    (hbelow : ∀ below ∈ stack, below.mode = .break) (hswallowed : state.swallowNextBreak = true →
      fitsFlat .nil stack ((opts.maxWidth : ℤ) - padFor indent opts) = true) :
    Kept opts state (state.emitBreak indent opts) stack := by
  cases hs : state.swallowNextBreak with
  | false => exact h.kept_newline indent hs (take_length).symm rfl
  | true =>
    have hzero := h.tracks.pending (h.parked hs)
    have hbreak : state.emitBreak indent opts = { state with
        swallowNextBreak := false, pendingIndent := some (padFor indent opts) } := by
      simp [emitBreak, hs]
    rw [hbreak]
    refine ⟨?_, fun _ => ⟨fun h => absurd h Bool.false_ne_true, ⟨h.tracks.col, fun _ => hzero⟩, ?_⟩⟩
    · show _ + (firstLine (state.out.drop state.out.length)).length ≤ _
      rw [drop_length]
      exact h.room
    · exact fitsFrames_of_nil hbelow (hswallowed hs)

theorem dedent_out (state : State) (level : ℕ) (opts : RenderOpts) :
    ∃ n, (state.dedent level opts).out = state.out.take n ∧
      (state.dedent level opts).swallowNextBreak = state.swallowNextBreak ∧
      (state.dedent level opts).out.count '\n' = state.out.count '\n' := by
  simp only [dedent]
  split
  · rename_i hdedent
    refine ⟨_, rfl, rfl, ?_⟩
    have hsplit := take_append_drop (state.out.length - level * opts.indentWidth) state.out
    have hnone : (state.out.drop (state.out.length - level * opts.indentWidth)).count '\n' = 0 := by
      refine count_eq_zero.2 fun hmem => ?_
      have hspace := all_eq_true.1 hdedent.2.2.2 _ hmem
      simp at hspace
    conv_rhs => rw [← hsplit, count_append, hnone]
    rfl
  · exact ⟨state.out.length, (take_length).symm, rfl, rfl⟩

end Turns

section Comments

variable {opts : RenderOpts}

theorem emitNewlines_grows (opts : RenderOpts) (n : ℕ) (state : State) :
    ∃ s, (state.emitNewlines opts n).out = state.out ++ s := by
  induction n generalizing state with
  | zero => exact ⟨[], (append_nil _).symm⟩
  | succ n ih =>
    obtain ⟨s, hs⟩ := ih (state.emitNewline opts)
    exact ⟨opts.newline.chars ++ s, hs.trans (append_assoc _ _ _)⟩

theorem emitComment_grows (state : State) (c : CommentDoc) (pad : ℕ) (opts : RenderOpts) :
    ∃ s, (state.emitComment c pad opts).out = state.out ++ s := by
  simp only [emitComment]
  split
  · exact ⟨c.text ++ opts.newline.chars, append_assoc _ _ _⟩
  · split <;> exact ⟨c.text, rfl⟩

theorem renderComment_grows (state : State) (indent : ℤ) (opts : RenderOpts) (c : CommentDoc) :
    ∃ s, (state.renderComment indent opts c).out = state.out ++ s := by
  have hstart : ∃ s, (state.startComment c (padFor indent opts) opts).out = state.out ++ s := by
    simp only [startComment]
    split
    · split
      · exact ⟨[' '], rfl⟩
      · exact ⟨[], (append_nil _).symm⟩
    · obtain ⟨s, hs⟩ := emitNewlines_grows opts _ { state with swallowNextBreak := false }
      exact ⟨s ++ spaces (padFor indent opts), by rw [hs, append_assoc]⟩
  obtain ⟨s, hs⟩ := hstart
  simp only [renderComment]
  split
  · obtain ⟨s', hs'⟩ := emitComment_grows ((state.startComment c (padFor indent opts)
      opts).addAnchor c.srcLine c.srcColumn c.text) c (padFor indent opts) opts
    exact ⟨s ++ s', by rw [hs', addAnchor, hs, append_assoc]⟩
  · obtain ⟨s', hs'⟩ := emitComment_grows (state.startComment c (padFor indent opts) opts) c
      (padFor indent opts) opts
    exact ⟨s ++ s', by rw [hs', hs, append_assoc]⟩

theorem renderComments_grows (state : State) (cs : List CommentDoc) (indent : ℤ)
    (opts : RenderOpts) : ∃ s, (state.renderComments cs indent opts).out = state.out ++ s := by
  induction cs generalizing state with
  | nil => exact ⟨[], (append_nil _).symm⟩
  | cons c cs ih =>
    obtain ⟨s, hs⟩ := renderComment_grows state indent opts c
    obtain ⟨s', hs'⟩ := ih (state.renderComment indent opts c)
    refine ⟨s ++ s', ?_⟩
    rw [renderComments, foldl_cons, ← renderComments, hs', hs, append_assoc]

/-- The renderer is inside a line. -/
def Inside (state : State) : Prop := state.pendingIndent = none ∧ state.swallowNextBreak = false

/-- What is written on the line has at most the width, and after it the renderer is still
inside the line or the line has ended. -/
def Measured (state state' : State) (width : ℕ) : Prop :=
  ∃ s, state'.out = state.out ++ s ∧ (firstLine s).length ≤ width ∧
    ('\n' ∉ s → Inside state' ∧ state'.col = state.col + s.length ∧ s.length ≤ width)

theorem emitComment_measured (pad : ℕ) (h : Inside state) (hblock : c.isLineComment = false) :
    Measured state (state.emitComment c pad opts) c.text.length := by
  have hout := (emitComment_out state c pad opts).1
  simp only [commentEnd, hblock, Bool.false_eq_true, if_false, append_nil] at hout
  refine ⟨c.text, hout, firstLine_length_le _, fun hfeed => ?_⟩
  have hcomment : state.emitComment c pad opts =
      { state with out := state.out ++ c.text, col := state.col + c.text.length } := by
    simp [emitComment, hblock, count_eq_zero.2 hfeed]
  rw [hcomment]
  exact ⟨h, rfl, Nat.le_refl _⟩

theorem Measured.trans {state₂ : State} {width' : ℕ} (h : Measured state state₁ width)
    (h' : Inside state₁ → Measured state₁ state₂ width')
    (hgrows : ∃ s, state₂.out = state₁.out ++ s) : Measured state state₂ (width + width') := by
  obtain ⟨s, hout, hfirst, hinside⟩ := h
  by_cases hfeed : '\n' ∈ s
  · obtain ⟨t, ht⟩ := hgrows
    refine ⟨s ++ t, by rw [ht, hout, append_assoc], ?_, fun hnot => ?_⟩
    · rw [firstLine_append hfeed]
      omega
    · exact absurd (mem_append_left _ hfeed) hnot
  · obtain ⟨hin, hcol, hlen⟩ := hinside hfeed
    obtain ⟨t, ht, hfirst', hinside'⟩ := h' hin
    have hle := firstLine_append_le s t
    refine ⟨s ++ t, by rw [ht, hout, append_assoc], by omega, fun hnot => ?_⟩
    obtain ⟨hin', hcol', hlen'⟩ := hinside' fun hmem => hnot (mem_append_right _ hmem)
    refine ⟨hin', ?_, ?_⟩
    · rw [hcol', hcol, length_append, Nat.add_assoc]
    · rw [length_append]
      omega

theorem Measured.of_newline (opts : RenderOpts) (s : Text) (width : ℕ)
    (h : state'.out = state.out ++ (opts.newline.chars ++ s)) : Measured state state' width := by
  refine ⟨_, h, ?_, fun hnot => ?_⟩
  · rw [firstLine_newline]
    exact Nat.zero_le _
  · exact absurd (mem_append_left _ (newline_mem opts.newline)) hnot

theorem Measured.comment {indent : ℤ}
    (hstart : Measured state (state.startComment c (padFor indent opts) opts) width)
    (hblock : c.isLineComment = false) :
    Measured state (state.renderComment indent opts c) (width + c.text.length) := by
  refine hstart.trans (fun hin => ?_) ?_
  · simp only [renderComment]
    split
    · have hin' : Inside ((state.startComment c (padFor indent opts) opts).addAnchor c.srcLine
          c.srcColumn c.text) := hin
      exact emitComment_measured _ hin' hblock
    · exact emitComment_measured _ hin hblock
  · simp only [renderComment]
    split
    · exact emitComment_grows _ _ _ _
    · exact emitComment_grows _ _ _ _

variable (opts) in
theorem renderComment_measured {state : State} (indent : ℤ) {c : CommentDoc} (h : Inside state)
    (hblock : c.isLineComment = false) :
    Measured state (state.renderComment indent opts c) (1 + c.text.length) := by
  have hstart : Measured state (state.startComment c (padFor indent opts) opts) 1 := by
    simp only [startComment, h.1, h.2, Option.isSome_none, Bool.false_eq_true,
      not_false_eq_true, and_true, or_false]
    split
    · split
      · exact ⟨[' '], rfl, by simp [firstLine], fun _ => ⟨⟨rfl, rfl⟩, rfl, Nat.le_refl 1⟩⟩
      · exact ⟨[], (append_nil _).symm, Nat.zero_le _, fun _ => ⟨⟨rfl, rfl⟩, rfl, Nat.zero_le 1⟩⟩
    · rename_i hleading
      obtain ⟨n, hn⟩ : ∃ n, max c.leadingNewlines 1 - 0 = n + 1 :=
        ⟨max c.leadingNewlines 1 - 1, by omega⟩
      simp only [if_neg (not_false), hn]
      obtain ⟨s, hs⟩ := emitNewlines_grows opts n
        (emitNewline { state with swallowNextBreak := false } opts)
      refine Measured.of_newline opts (s ++ spaces (padFor indent opts)) 1 ?_
      simp only [h.1] at hs
      show _ ++ spaces _ = _
      rw [emitNewlines, hs]
      simp [emitNewline]
  exact hstart.comment hblock

variable (opts) in
theorem renderComment_pending {state : State} (indent : ℤ) {c : CommentDoc} (hpending : state.pendingIndent.isSome = true)
    (hcol : state.col = 0) (hblock : c.isLineComment = false) :
    Measured state (state.renderComment indent opts c) (padFor indent opts + c.text.length) := by
  have hstart : Measured state (state.startComment c (padFor indent opts) opts)
      (padFor indent opts) := by
    simp only [startComment, hpending, not_true_eq_false, and_false, if_false, or_true, if_true]
    cases hlines : max c.leadingNewlines 1 - 1 with
    | zero =>
      refine ⟨spaces (padFor indent opts), rfl, ?_, fun _ => ⟨⟨rfl, rfl⟩, ?_, ?_⟩⟩
      · have hle := firstLine_length_le (spaces (padFor indent opts))
        simpa [spaces] using hle
      · simp [hcol, spaces]
      · simp [spaces]
    | succ n =>
      obtain ⟨s, hs⟩ := emitNewlines_grows opts n
        (emitNewline { state with swallowNextBreak := false } opts)
      refine Measured.of_newline opts (s ++ spaces (padFor indent opts)) _ ?_
      show _ ++ spaces _ = _
      rw [emitNewlines, hs]
      simp [emitNewline]
  exact hstart.comment hblock

variable (opts) in
theorem renderComments_measured {state : State} (indent : ℤ) {cs : List CommentDoc}
    (h : Inside state) (hblock : ∀ c ∈ cs, c.isLineComment = false) :
    Measured state (state.renderComments cs indent opts)
      (cs.map fun c => c.text.length + 1).sum := by
  induction cs generalizing state with
  | nil =>
    exact ⟨[], (append_nil _).symm, Nat.zero_le _, fun _ => ⟨h, rfl, Nat.zero_le _⟩⟩
  | cons c cs ih =>
    have hfirst := renderComment_measured opts indent h (hblock c mem_cons_self)
    rw [map_cons, sum_cons, Nat.add_comm c.text.length 1]
    refine hfirst.trans (fun hin => ?_) (renderComments_grows _ cs indent opts)
    exact ih hin fun c' hc' => hblock c' (mem_cons_of_mem _ hc')

end Comments

section Runs

variable {opts : RenderOpts} {state : State}

theorem Layered.below (h : Layered (frame :: stack))
    (hbreak : frame.mode = .break) : ∀ below ∈ stack, below.mode = .break :=
  fun below hbelow => (pairwise_cons.1 h).1 below hbelow hbreak

theorem Layered.flat (h : Layered stack) (indent : ℤ) (inner : Doc) :
    Layered (⟨indent, .flat, inner⟩ :: stack) := by
  refine pairwise_cons.2 ⟨fun _ _ hmode => ?_, h⟩
  cases hmode

/-- What a turn puts in place of its frame: the parts of its document, in its mode or
flat. -/
inductive Replaces (indent : ℤ) (mode : Mode) : Doc → List Frame → Prop
  | done (doc : Doc) : Replaces indent mode doc []
  | concat (items : List Doc) :
      Replaces indent mode (.concat items) (items.map (Frame.mk indent mode))
  | indent (off : ℤ) (inner : Doc) :
      Replaces indent mode (.indent off inner) [⟨indent + off, mode, inner⟩]
  | group (inner : Doc) : Replaces indent mode (.group inner) [⟨indent, mode, inner⟩]
  | groupFlat (inner : Doc) : Replaces indent mode (.group inner) [⟨indent, .flat, inner⟩]
  | forceFlat (inner : Doc) : Replaces indent mode (.forceFlat inner) [⟨indent, .flat, inner⟩]

theorem renderFrame_replaces (opts : RenderOpts) (state : State) (indent : ℤ) (mode : Mode)
    (doc : Doc) (stack : List Frame) :
    Replaces indent mode doc (renderFrame ⟨indent, mode, doc⟩ opts state stack).2 := by
  cases doc with
  | concat items => exact .concat items
  | indent off inner => exact .indent off inner
  | forceFlat inner => exact .forceFlat inner
  | group inner =>
    simp only [renderFrame]
    cases mode with
    | flat => exact .group inner
    | «break» =>
      simp only [reduceCtorEq, if_false]
      split
      · exact .groupFlat inner
      · exact .group inner
  | line sep => cases mode <;> exact .done _
  | hardline => cases mode <;> exact .done _
  | dedentHardline level => cases mode <;> exact .done _
  | ifBreak s =>
    simp only [renderFrame]
    split <;> exact .done _
  | ifBreakPad width =>
    simp only [renderFrame]
    split <;> exact .done _
  | pad width =>
    simp only [renderFrame]
    split <;> exact .done _
  | ifFlatPad width =>
    simp only [renderFrame]
    split <;> exact .done _
  | _ => exact .done _

section Replaces

variable {indent : ℤ} {mode : Mode} {doc : Doc} {frames : List Frame}

section

variable (h : Replaces indent mode doc frames)

include h

theorem Replaces.modes : ∀ frame ∈ frames, frame.mode = .break → mode = .break := by
  cases h with
  | done => simp
  | concat items =>
    intro frame hframe hbreak
    obtain ⟨item, -, rfl⟩ := mem_map.1 hframe
    exact hbreak
  | indent off inner => simp
  | group inner => simp
  | groupFlat inner => simp
  | forceFlat inner => simp

theorem Replaces.layered : Layered frames := by
  cases h with
  | done => exact List.Pairwise.nil
  | concat items =>
    simp only [Layered, pairwise_map]
    exact pairwise_of_forall fun _ _ h => h
  | indent off inner => exact pairwise_singleton _ _
  | group inner => exact pairwise_singleton _ _
  | groupFlat inner => exact pairwise_singleton _ _
  | forceFlat inner => exact pairwise_singleton _ _

/-- A turn takes one node of its document away. -/
theorem Replaces.size : Doc.sizeAll (frames.map (·.doc)) < doc.size := by
  cases h with
  | done =>
    cases doc <;> simp [Doc.sizeAll, Doc.size]
  | concat items =>
    have hitems : (items.map (Frame.mk indent mode)).map (·.doc) = items := by
      simp [Function.comp_def]
    rw [hitems]
    exact Nat.lt_succ_self _
  | indent off inner => simp [Doc.sizeAll, Doc.size]
  | group inner => simp [Doc.sizeAll, Doc.size]
  | groupFlat inner => simp [Doc.sizeAll, Doc.size]
  | forceFlat inner => simp [Doc.sizeAll, Doc.size]

end

end Replaces

theorem Layered.turn (h : Layered (frame :: stack)) (opts : RenderOpts) (state : State) :
    Layered ((renderFrame frame opts state stack).2 ++ stack) := by
  have hturn := renderFrame_replaces opts state frame.indent frame.mode frame.doc stack
  refine pairwise_append.2 ⟨hturn.layered, (pairwise_cons.1 h).2,
    fun frame' hframe' below hbelow hbreak => ?_⟩
  exact h.below (hturn.modes frame' hframe' hbreak) below hbelow

theorem Reaches.layered {doc : Doc} (h : Reaches opts doc state stack) : Layered stack := by
  induction h with
  | start => exact pairwise_singleton _ _
  | turn _ ih => exact ih.turn opts _

theorem OnLine.layered
    (h : OnLine opts start frames state stack) (hstart : Layered frames) : Layered stack := by
  induction h with
  | here => exact hstart
  | turn _ _ _ ih => exact ih.turn opts _

theorem Measured.kept {total : ℕ} (h : Measured state state' width) (htracks : Tracks state)
    (hwidth : state.col + width ≤ state.due + total)
    (hfits : fitsFrames stack' ((opts.maxWidth : ℤ) - state.due - total) = true) :
    Kept opts state state' stack' := by
  obtain ⟨s, hout, hfirst, hinside⟩ := h
  have hroom := fitsFrames_nonneg hfits
  refine ⟨?_, fun hcount => ?_⟩
  · rw [hout, drop_left, ← htracks.col]
    omega
  · have hfeed : '\n' ∉ s := by
      rw [hout, count_append] at hcount
      exact count_eq_zero.1 (by omega)
    obtain ⟨hin, hcol, hlen⟩ := hinside hfeed
    have htracks' : Tracks state' := by
      refine ⟨?_, by simp [hin.1]⟩
      rw [hcol, hout, column_of_notMem hfeed, htracks.col]
    refine ⟨fun hs => ?_, htracks', fitsFrames_mono hfits ?_⟩
    · rw [hin.2] at hs
      cases hs
    · rw [due_of_none hin.1, hcol]
      omega

theorem renderComments_kept {indent : ℤ} {cs : List CommentDoc}
    (htracks : Tracks state) (hparked : Parked state)
    (hblock : ∀ c ∈ cs, c.isLineComment = false)
    (hindent : state.pendingIndent.isSome = true → padFor indent opts ≤ state.due)
    (hfits : fitsFrames stack' ((opts.maxWidth : ℤ) - state.due -
      ((cs.map fun c => c.text.length + 1).sum : ℕ)) = true) :
    Kept opts state (state.renderComments cs indent opts) stack' := by
  cases hpending : state.pendingIndent with
  | none =>
    have hswallow : state.swallowNextBreak = false := by
      by_contra hs
      have hsome := hparked (by simpa using hs)
      simp [hpending] at hsome
    refine (renderComments_measured opts indent ⟨hpending, hswallow⟩ hblock).kept htracks ?_ hfits
    rw [due_of_none hpending]
  | some pad =>
    have hsome : state.pendingIndent.isSome = true := by simp [hpending]
    have hcol : state.col = 0 := htracks.col.trans (htracks.pending hsome)
    cases cs with
    | nil =>
      have hleft : fitsFrames stack' ((opts.maxWidth : ℤ) - state.due) = true := by
        simpa using hfits
      refine ⟨?_, fun _ => ⟨hparked, htracks, hleft⟩⟩
      show _ + (firstLine (state.out.drop state.out.length)).length ≤ _
      rw [drop_length, htracks.pending hsome]
      exact Nat.zero_le _
    | cons c cs =>
      have hfirst := renderComment_pending opts indent hsome hcol (hblock c mem_cons_self)
      have hall := hfirst.trans (fun hin => renderComments_measured opts indent hin
          fun c' hc' => hblock c' (mem_cons_of_mem _ hc'))
        (renderComments_grows _ cs indent opts)
      refine hall.kept htracks ?_ hfits
      have hpad := hindent hsome
      rw [map_cons, sum_cons]
      omega

theorem Promised.turn
    (h : Promised opts state (frame :: stack)) (hlayered : Layered (frame :: stack))
    (haccounted : Accounted opts state frame stack) (hcomment : ¬ frame.doc.HasLineComment) :
    Kept opts state (renderFrame frame opts state stack).1
      ((renderFrame frame opts state stack).2 ++ stack) := by
  obtain ⟨indent, mode, doc⟩ := frame
  have hroom := fitsFrames_nonneg h.fits
  have hflush := flushed_flushPendingWithIndent h.tracks indent opts
  have hfits := h.fits
  simp only [fitsFrames] at hfits
  rw [fitsItem.eq_def] at hfits
  dsimp only at hfits
  rw [if_neg (Int.not_lt.2 hroom)] at hfits
  -- What the look-ahead says of a document in front of the rest of the stack.
  have hasked : ∀ inner, mode = .break →
      fitsFlat inner stack (opts.maxWidth - state.due : ℕ) = true →
        fitsFrames (⟨indent, .flat, inner⟩ :: stack) ((opts.maxWidth : ℤ) - state.due) = true := by
    intro inner hmode hfit
    rwa [fitsFlat_eq (hlayered.below hmode) indent, Int.ofNat_sub (by omega)] at hfit
  cases doc with
  | nil => exact h.kept_same hfits
  | text s =>
    exact hflush.kept_putLines hfits
  | concat items =>
    refine h.kept_same ?_
    show fitsFrames (items.map (Frame.mk indent mode) ++ stack) _ = true
    rw [fitsFrames_items]
    exact hfits
  | indent off inner => exact h.kept_same hfits
  | group inner =>
    cases mode with
    | flat => exact h.kept_same hfits
    | «break» =>
      simp only [renderFrame, reduceCtorEq, if_false]
      split
      · rename_i hfit
        exact h.kept_same (hasked inner rfl (haccounted rfl hfit))
      · exact h.kept_same hfits
  | forceFlat inner =>
    cases mode with
    | flat => exact h.kept_same hfits
    | «break» => exact h.kept_same (hasked inner rfl (haccounted rfl))
  | line sep =>
    cases mode with
    | flat =>
      exact (flushed_flushPending h.tracks).kept_put hfits
    | «break» => exact h.kept_break indent (hlayered.below rfl) (haccounted rfl)
  | hardline =>
    cases mode with
    | flat => cases hfits
    | «break» => exact h.kept_break indent (hlayered.below rfl) (haccounted rfl)
  | dedentHardline level =>
    cases mode with
    | flat => cases hfits
    | «break» =>
      cases hs : state.swallowNextBreak with
      | false =>
        obtain ⟨n, hout, hswallow, hfeeds⟩ := dedent_out state level opts
        exact h.kept_newline indent (hswallow.trans hs) hout hfeeds
      | true =>
        have hsame : state.dedent level opts = state := by
          obtain ⟨pad, hpending⟩ := Option.isSome_iff_exists.1 (h.parked hs)
          simp [dedent, hpending]
        show Kept opts state ((state.dedent level opts).emitBreak indent opts) stack
        rw [hsame]
        exact h.kept_break indent (hlayered.below rfl) (haccounted rfl)
  | comments cs =>
    have hblock : ∀ c ∈ cs, c.isLineComment = false := by
      intro c hc
      by_contra hline
      exact hcomment ⟨c, hc, by simpa using hline⟩
    have hany : cs.any (·.isLineComment) = false := by
      rw [any_eq_false]
      intro c hc
      simp [hblock c hc]
    have hleft : fitsFrames stack ((opts.maxWidth : ℤ) - state.due -
        ((cs.map fun c => c.text.length + 1).sum : ℕ)) = true := by
      simpa [hany] using hfits
    exact renderComments_kept h.tracks h.parked hblock haccounted hleft
  | ifBreak s =>
    cases mode with
    | flat => exact h.kept_same hfits
    | «break» =>
      exact hflush.kept_put (fitsFrames_text (hasked (.text s) rfl (haccounted rfl)))
  | ifBreakPad width =>
    simp only [renderFrame]
    split
    · rename_i hwritten
      obtain ⟨rfl, -⟩ := hwritten
      exact hflush.kept_spaces (fitsFrames_pad (hasked (.pad width) rfl (haccounted rfl)))
    · exact h.kept_same hfits
  | pad width =>
    simp only [renderFrame]
    split
    · exact hflush.kept_spaces hfits
    · exact h.kept_same (fitsFrames_mono hfits (by omega))
  | ifFlatPad width =>
    simp only [renderFrame]
    split
    · exact hflush.kept_spaces hfits
    · exact h.kept_same (fitsFrames_mono hfits (by omega))
  | anchored a =>
    have hanchor : Flushed state ((state.flushPendingWithIndent indent opts).addAnchor a.srcLine
        a.srcColumn a.text) := by
      obtain ⟨hout, hpending, htracks, hdue, hcol⟩ := hflush
      exact ⟨hout, hpending, ⟨htracks.col, htracks.pending⟩, hdue, hcol⟩
    exact hanchor.kept_putLines hfits

theorem OnLine.promised
    (h : OnLine opts start frames state stack) (hstart : Promised opts start frames)
    (hlayered : Layered frames)
    (haccounted : ∀ state frame stack, OnLine opts start frames state (frame :: stack) →
      Accounted opts state frame stack) : Promised opts state stack := by
  induction h with
  | here => exact hstart
  | turn h hcomment hline ih =>
    exact (ih.turn (h.layered hlayered) (haccounted _ _ _ h) hcomment).2 hline

theorem Promised.within (h : Promised opts state stack) (hlayered : Layered stack)
    (haccounted : ∀ state' frame stack', OnLine opts state stack state' (frame :: stack') →
      Accounted opts state' frame stack') : Within opts state stack := by
  intro state' stack' hline
  have hpromised := hline.promised h hlayered haccounted
  refine ⟨hpromised.room, ?_⟩
  rintro frame rest rfl hcomment
  exact (hpromised.turn (hline.layered hlayered) (haccounted _ _ _ hline) hcomment).1

end Runs

end Veryl.Pretty
