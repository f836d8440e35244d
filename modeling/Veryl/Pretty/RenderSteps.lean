import Veryl.Pretty.Layout
import Veryl.Pretty.Strip

/-!
What one turn of the renderer writes: white space, or the pieces of its document.
-/

namespace Veryl.Pretty

open Veryl.Library List
open State (addAnchor emitBreak put putLines)

variable {t : Text} {state' : State}

variable {s : Text}

/-- How the position that the renderer keeps differs from the end of the output: the line feeds
it has not counted, and whether the column is another one. -/
structure Drift where
  lines : ℕ
  column : Bool

namespace Drift

/-- A new line has its column. -/
def reset (drift : Drift) : Drift := { drift with column := false }

/-- Separators are written as if they had no line feed. -/
def separator (drift : Drift) (s : Text) : Drift :=
  ⟨drift.lines + s.count '\n', drift.column || decide ('\n' ∈ s)⟩

def text (drift : Drift) (s : Text) : Drift := if '\n' ∈ s then drift.reset else drift

def atBreak (drift : Drift) (state : State) : Drift :=
  if state.swallowNextBreak then drift else drift.reset

end Drift

/-- The position is the end of the output, but for the drift, and an indent is due only at the
start of a line. -/
structure Aligned (drift : Drift) (state : State) : Prop where
  line : state.currentLine + drift.lines = state.out.count '\n' + 1
  col : drift.column = false → state.col = column state.out
  pending : state.pendingIndent.isSome = true → column state.out = 0

/-- A line that was ended early has ended. -/
def Settled (state : State) : Prop := state.swallowNextBreak = true → column state.out = 0

/-- The output consists of the pieces. Where the run is precise, the anchors are the
positions of the pieces that have one. -/
def Renders (precise : Prop) (drift : Drift) (emitted : List Piece) (state : State) : Prop :=
  ∃ anchors, Laid emitted state.out anchors ∧
    (precise → anchors = state.anchors ∧ Aligned drift state ∧ ∀ piece ∈ emitted, Solid piece)

/-- The anchor of a text that is written now is its position: the position is kept without
drift in 32 bits, and the first line of the text has a visible character. -/
structure Placed (drift : Drift) (state : State) (s : Text) : Prop where
  lines : drift.lines = 0
  column : drift.column = false
  line32 : state.currentLine < 2 ^ 32
  column32 : state.col + 1 < 2 ^ 32
  visible : Visible s

section Steps

variable {precise : Prop} {drift drift' : Drift} {emitted : List Piece} {state : State}
  {opts : RenderOpts}

theorem column_of_notMem (h : '\n' ∉ t) : column (s ++ t) = column s + t.length := by
  rw [column_append, columnFrom_of_notMem h]

theorem column_of_mem (h : '\n' ∈ t) : column (s ++ t) = (lastLine t).length := by
  rw [column_append, columnFrom_of_mem h]
  rfl

theorem column_newline (s : Text) (newline : Newline) : column (s ++ newline.chars) = 0 := by
  rw [column_append]
  cases newline <;> rfl

theorem count_newline (newline : Newline) : newline.chars.count '\n' = 1 := by
  cases newline <;> decide

theorem newline_notMem_spaces (n : ℕ) : '\n' ∉ spaces n := fun h =>
  absurd (eq_of_mem_replicate h) (by decide)

section

variable (h : Renders precise drift emitted state)

include h

theorem Renders.space (hs : IsSpace s) (hout : state'.out = state.out ++ s)
    (hanchors : state'.anchors = state.anchors) (haligned : precise → Aligned drift' state') :
    Renders precise drift' emitted state' := by
  obtain ⟨anchors, hlaid, hprecise⟩ := h
  refine ⟨anchors, hout ▸ hlaid.space hs, fun hp => ?_⟩
  obtain ⟨heq, -, hsolid⟩ := hprecise hp
  exact ⟨heq.trans hanchors.symm, haligned hp, hsolid⟩

theorem Renders.aligned (hp : precise) : Aligned drift state := by
  obtain ⟨anchors, -, hprecise⟩ := h
  exact (hprecise hp).2.1

theorem Renders.piece {piece : Piece} (hs : IsSpace s)
    (hline : piece.isLineComment = true → '\n' ∈ s)
    (hout : state'.out = state.out ++ piece.text ++ s)
    (hanchors : precise → state'.anchors =
      state.anchors ++ Entry.anchors state.out ⟨piece, piece.text, s⟩)
    (haligned : precise → Aligned drift' state') (hsolid : precise → Solid piece) :
    Renders precise drift' (emitted ++ [piece]) state' := by
  obtain ⟨anchors, hlaid, hprecise⟩ := h
  refine ⟨_, hout ▸ hlaid.piece piece hs hline, fun hp => ?_⟩
  obtain ⟨heq, -, hall⟩ := hprecise hp
  refine ⟨by rw [hanchors hp, heq], haligned hp, fun piece' hpiece' => ?_⟩
  rcases mem_append.1 hpiece' with hpiece' | hpiece'
  · exact hall piece' hpiece'
  · rw [mem_singleton.1 hpiece']
    exact hsolid hp

end

theorem indent_spec (n : ℕ) (h : Renders precise drift emitted state)
    (hpending : state.pendingIndent.isSome = true) :
    Renders precise drift emitted
      { state with pendingIndent := none, out := state.out ++ spaces n, col := n } := by
  refine h.space (isSpace_spaces n) rfl rfl fun hp => ?_
  have ha := h.aligned hp
  have hcol := ha.pending hpending
  refine ⟨?_, fun _ => ?_, by simp⟩
  · simp [ha.line, count_eq_zero.2 (newline_notMem_spaces n)]
  · show n = column (state.out ++ spaces n)
    rw [column_of_notMem (newline_notMem_spaces n), hcol, Nat.zero_add, spaces, length_replicate]

theorem flushPending_spec (h : Renders precise drift emitted state) :
    Renders precise drift emitted state.flushPending ∧ state.flushPending.pendingIndent = none := by
  cases hpending : state.pendingIndent with
  | none =>
    have heq : state.flushPending = state := by simp [State.flushPending, hpending]
    rw [heq]
    exact ⟨h, hpending⟩
  | some pad =>
    simp only [State.flushPending, hpending]
    exact ⟨indent_spec pad h (by simp [hpending]), trivial⟩

theorem flushPendingWithIndent_spec (indent : ℤ) (opts : RenderOpts)
    (h : Renders precise drift emitted state) :
    Renders precise drift emitted (state.flushPendingWithIndent indent opts) ∧
      (state.flushPendingWithIndent indent opts).pendingIndent = none := by
  cases hpending : state.pendingIndent with
  | none =>
    have heq : state.flushPendingWithIndent indent opts = state := by
      simp [State.flushPendingWithIndent, hpending]
    rw [heq]
    exact ⟨h, hpending⟩
  | some pad =>
    simp only [State.flushPendingWithIndent, hpending]
    exact ⟨indent_spec _ h (by simp [hpending]), trivial⟩

theorem put_aligned (s : Text) (h : Aligned drift state) (hpending : state.pendingIndent = none) :
    Aligned (drift.separator s) (state.put s) := by
  refine ⟨?_, fun hcol => ?_, by simp [put, hpending]⟩
  · have hline := h.line
    simp only [put, Drift.separator, count_append]
    omega
  · obtain ⟨hcol, hs⟩ := Bool.or_eq_false_iff.1 hcol
    show state.col + s.length = column (state.out ++ s)
    rw [column_of_notMem (of_decide_eq_false hs), h.col hcol]

theorem separator_of_notMem (drift : Drift) (hs : '\n' ∉ s) : drift.separator s = drift := by
  simp [Drift.separator, hs, count_eq_zero.2 hs]

theorem putLines_aligned (h : Aligned drift state) (hpending : state.pendingIndent = none) :
    Aligned (drift.text s) (state.putLines s) := by
  by_cases hs : '\n' ∈ s
  · have hcount : s.count '\n' ≠ 0 := Nat.ne_of_gt (count_pos_iff.2 hs)
    rw [putLines, if_neg hcount, Drift.text, if_pos hs]
    refine ⟨?_, fun _ => (column_of_mem hs).symm, by simp [hpending]⟩
    have hline := h.line
    simp only [Drift.reset, count_append]
    omega
  · rw [putLines, if_pos (count_eq_zero.2 hs), Drift.text, if_neg hs,
      ← separator_of_notMem drift hs]
    exact put_aligned s h hpending

theorem putLines_out (state : State) (s : Text) : (state.putLines s).out = state.out ++ s ∧
    (state.putLines s).anchors = state.anchors ∧ (state.putLines s).swallowNextBreak = false := by
  simp only [putLines]
  split <;> exact ⟨rfl, rfl, rfl⟩

theorem settled_of_not_swallow (h : state.swallowNextBreak = false) : Settled state := by
  intro hs
  simp [h] at hs

theorem put_space (h : Renders precise drift emitted state)
    (hpending : state.pendingIndent = none) (hs : IsSpace s) :
    Renders precise (drift.separator s) emitted (state.put s) ∧ Settled (state.put s) :=
  ⟨h.space hs rfl rfl fun hp => put_aligned s (h.aligned hp) hpending,
    settled_of_not_swallow rfl⟩

theorem put_piece (optional : Bool) (s : Text) (h : Renders precise drift emitted state)
    (hpending : state.pendingIndent = none) :
    Renders precise (drift.separator s) (emitted ++ [⟨s, false, none, optional⟩]) (state.put s) ∧
      Settled (state.put s) := by
  refine ⟨h.piece isSpace_nil (by simp) (by simp [put]) (fun _ => ?_)
    (fun hp => put_aligned s (h.aligned hp) hpending) (fun _ => ?_),
    settled_of_not_swallow rfl⟩
  · simp [put, Entry.anchors]
  · simp [Solid]

theorem putLines_piece (s : Text) (h : Renders precise drift emitted state)
    (hpending : state.pendingIndent = none) :
    Renders precise (drift.text s) (emitted ++ [.ofText s]) (state.putLines s) ∧
      Settled (state.putLines s) := by
  obtain ⟨hout, hanchors, hswallow⟩ := putLines_out state s
  refine ⟨h.piece isSpace_nil (by simp [Piece.ofText]) (by simp [hout, Piece.ofText])
    (fun _ => ?_) (fun hp => putLines_aligned (h.aligned hp) hpending) (fun _ => ?_),
    settled_of_not_swallow hswallow⟩
  · simp [hanchors, Entry.anchors, Piece.ofText]
  · simp [Solid, Piece.ofText]

/-- The anchor of a placed text. -/
theorem addAnchor_anchors (h : Aligned drift state) (hplaced : Placed drift state s)
    (srcLine srcColumn : ℕ) : (state.addAnchor srcLine srcColumn s).anchors = state.anchors ++
      [⟨state.out.count '\n' + 1, column state.out + 1, srcLine, srcColumn, s⟩] := by
  obtain ⟨hlines, hcolumn, hline32, hcolumn32, -⟩ := hplaced
  have hline := h.line
  have hcol := h.col hcolumn
  rw [hlines, Nat.add_zero] at hline
  simp only [addAnchor]
  rw [Nat.mod_eq_of_lt hline32, Nat.mod_eq_of_lt (by omega : state.col < 2 ^ 32),
    Nat.mod_eq_of_lt hcolumn32, hline, hcol]

theorem emitAnchored_piece (a : AnchoredText) (indent : ℤ) (opts : RenderOpts)
    (h : Renders precise drift emitted state)
    (hplaced : precise → Placed drift (state.flushPendingWithIndent indent opts) a.text) :
    Renders precise (drift.text a.text) (emitted ++ [.ofAnchored a])
      (state.emitAnchored a indent opts) ∧ Settled (state.emitAnchored a indent opts) := by
  obtain ⟨hflush, hpending⟩ := flushPendingWithIndent_spec indent opts h
  rw [State.emitAnchored]
  obtain ⟨hout, hanchors, hswallow⟩ := putLines_out
    ((state.flushPendingWithIndent indent opts).addAnchor a.srcLine a.srcColumn a.text) a.text
  refine ⟨hflush.piece isSpace_nil (by simp [Piece.ofAnchored])
    (by rw [hout]; simp [Piece.ofAnchored, addAnchor]) (fun hp => ?_) (fun hp => ?_)
    (fun hp _ => (hplaced hp).visible), settled_of_not_swallow hswallow⟩
  · rw [hanchors, addAnchor_anchors (hflush.aligned hp) (hplaced hp)]
    rfl
  · have ha := hflush.aligned hp
    exact putLines_aligned ⟨ha.line, ha.col, ha.pending⟩ hpending

theorem emitNewline_spec (opts : RenderOpts) (h : Renders precise drift emitted state) :
    Renders precise drift.reset emitted (state.emitNewline opts) ∧
      column (state.emitNewline opts).out = 0 := by
  have hcolumn := column_newline state.out opts.newline
  refine ⟨h.space (isSpace_newline opts.newline) rfl rfl fun hp => ?_, hcolumn⟩
  have hline := (h.aligned hp).line
  refine ⟨?_, fun _ => hcolumn.symm, fun _ => hcolumn⟩
  simp only [State.emitNewline, Drift.reset, count_append, count_newline]
  omega

theorem emitNewlines_spec (opts : RenderOpts) (n : ℕ) (h : Renders precise drift emitted state) :
    (∃ drift', drift'.lines = drift.lines ∧
      Renders precise drift' emitted (state.emitNewlines opts n)) ∧
      (0 < n ∨ column state.out = 0 → column (state.emitNewlines opts n).out = 0) := by
  induction n generalizing state drift with
  | zero => exact ⟨⟨drift, rfl, h⟩, fun hcol => hcol.resolve_left (Nat.lt_irrefl 0)⟩
  | succ n ih =>
    obtain ⟨hnewline, hcol⟩ := emitNewline_spec opts h
    obtain ⟨hrest, hcol'⟩ := ih hnewline
    exact ⟨hrest, fun _ => hcol' (Or.inr hcol)⟩

theorem emitBreak_spec (indent : ℤ) (opts : RenderOpts) (h : Renders precise drift emitted state)
    (hsettled : precise → Settled state) :
    Renders precise (drift.atBreak state) emitted (state.emitBreak indent opts) ∧
      Settled (state.emitBreak indent opts) := by
  have hswallow : (state.emitBreak indent opts).swallowNextBreak = false := by
    simp only [emitBreak]
    cases hs : state.swallowNextBreak with
    | true => simp
    | false => simpa [State.emitNewline] using hs
  refine ⟨?_, settled_of_not_swallow hswallow⟩
  cases hs : state.swallowNextBreak with
  | true =>
    rw [Drift.atBreak, hs, if_pos rfl]
    refine h.space isSpace_nil (by simp [emitBreak, hs]) (by simp [emitBreak, hs]) fun hp => ?_
    have ha := h.aligned hp
    have hcol := hsettled hp hs
    refine ⟨?_, fun hdrift => ?_, fun _ => ?_⟩
    · simp [emitBreak, hs, ha.line]
    · simp [emitBreak, hs, ha.col hdrift]
    · simp [emitBreak, hs, hcol]
  | false =>
    obtain ⟨hnewline, hcol⟩ := emitNewline_spec opts h
    rw [Drift.atBreak, hs, if_neg Bool.false_ne_true]
    refine hnewline.space isSpace_nil (by simp [emitBreak, hs])
      (by simp [emitBreak, hs]) fun hp => ?_
    have ha := hnewline.aligned hp
    refine ⟨?_, fun hdrift => ?_, fun _ => ?_⟩
    · simpa [emitBreak, hs] using ha.line
    · simpa [emitBreak, hs] using ha.col hdrift
    · simpa [emitBreak, hs] using hcol

theorem drops_spaces {newline : Newline} (hs : s.all (· = ' ') = true) :
    Drops IsBlank (Ends newline.chars) s [] := by
  induction s with
  | nil => exact Drops.nil
  | cons c s ih =>
    simp only [all_cons, Bool.and_eq_true, decide_eq_true_eq] at hs
    exact Drops.drop c (Or.inl hs.1) (Or.inl rfl) (ih hs.2)

theorem dedent_spec (level : ℕ) (opts : RenderOpts) (h : Renders precise drift emitted state) :
    Renders precise drift emitted (state.dedent level opts) ∧
      (Settled state → Settled (state.dedent level opts)) := by
  simp only [State.dedent]
  generalize level * opts.indentWidth = want
  split
  · rename_i hdedent
    obtain ⟨hwant, hpending, hlen, hspaces⟩ := hdedent
    obtain ⟨anchors, hlaid, hprecise⟩ := h
    have hsplit := take_append_drop (state.out.length - want) state.out
    have hdrops : Drops IsBlank (Ends opts.newline.chars) state.out
        (state.out.take (state.out.length - want)) := by
      have hjoin : Drops IsBlank (Ends opts.newline.chars)
          (state.out.take (state.out.length - want) ++ state.out.drop (state.out.length - want))
          (state.out.take (state.out.length - want) ++ []) :=
        Drops.append (Drops.refl _) (drops_spaces hspaces)
      rwa [hsplit, append_nil] at hjoin
    have hfeed : '\n' ∉ state.out.drop (state.out.length - want) := by
      intro hmem
      have hspace := all_eq_true.1 hspaces _ hmem
      simp at hspace
    have hcolumn : column state.out = column (state.out.take (state.out.length - want)) + want := by
      have hlength : (state.out.drop (state.out.length - want)).length = want := by
        rw [length_drop]
        omega
      conv_lhs => rw [← hsplit]
      rw [column_of_notMem hfeed, hlength]
    obtain ⟨⟨anchors', hcontains⟩, hlaid'⟩ := hlaid.drops hdrops
    refine ⟨?_, fun hsettled hs => ?_⟩
    · by_cases hp : precise
      · obtain ⟨heq, ha, hsolid⟩ := hprecise hp
        refine ⟨anchors, hlaid' hsolid, fun _ => ⟨heq, ⟨?_, fun hdrift => ?_, ?_⟩, hsolid⟩⟩
        · rw [count_eq_of_drops hdrops]
          exact ha.line
        · have hcol := ha.col hdrift
          show state.col - want = column (state.out.take (state.out.length - want))
          omega
        · simp [hpending]
      · exact ⟨anchors', hcontains, fun hp' => absurd hp' hp⟩
    · have hzero := hsettled hs
      omega
  · exact ⟨h, fun hsettled => hsettled⟩

end Steps

end Veryl.Pretty
