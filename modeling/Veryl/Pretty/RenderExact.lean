import Veryl.Pretty.RenderRun

/-!
Rendering preserves the content of a document, and places the anchors of its tokens.
-/

namespace Veryl.Pretty

open Veryl.Library List

/-- The characters of a text that are not white space. -/
def visible (s : Text) : Text := s.filter (!·.isWhitespace)

namespace Doc

mutual

/-- The document has no `ifBreak`. -/
def NoIfBreak : Doc → Prop
  | .concat items => NoIfBreakAll items
  | .indent _ inner => inner.NoIfBreak
  | .group inner => inner.NoIfBreak
  | .forceFlat inner => inner.NoIfBreak
  | .ifBreak _ => False
  | _ => True

def NoIfBreakAll : List Doc → Prop
  | [] => True
  | item :: items => item.NoIfBreak ∧ NoIfBreakAll items

end

mutual

/-- The separators of the document are white space. -/
def BlankLines : Doc → Prop
  | .concat items => BlankLinesAll items
  | .indent _ inner => inner.BlankLines
  | .group inner => inner.BlankLines
  | .forceFlat inner => inner.BlankLines
  | .line sep => IsSpace sep
  | _ => True

def BlankLinesAll : List Doc → Prop
  | [] => True
  | item :: items => item.BlankLines ∧ BlankLinesAll items

end

mutual

theorem content_required (doc : Doc) (h : doc.NoIfBreak) (hlines : doc.BlankLines) :
    ∀ piece ∈ doc.content, ¬ piece.optional = true := by
  cases doc with
  | text s => simp [content, Piece.ofText]
  | concat items => exact contentAll_required items h hlines
  | indent off inner => exact content_required inner h hlines
  | group inner => exact content_required inner h hlines
  | forceFlat inner => exact content_required inner h hlines
  | line sep =>
    have hsep : IsSpace sep := hlines
    simp [content, hsep]
  | comments cs => simp [content, Piece.ofComment]
  | ifBreak s => exact h.elim
  | anchored a => simp [content, Piece.ofAnchored]
  | _ => simp [content]

theorem contentAll_required (items : List Doc) (h : NoIfBreakAll items)
    (hlines : BlankLinesAll items) :
    ∀ piece ∈ contentAll items, ¬ piece.optional = true := by
  cases items with
  | nil => simp [contentAll]
  | cons item items =>
    intro piece hpiece
    rcases mem_append.1 hpiece with hpiece | hpiece
    · exact content_required item h.1 hlines.1 piece hpiece
    · exact contentAll_required items h.2 hlines.2 piece hpiece

end

end Doc

theorem visible_append (s t : Text) : visible (s ++ t) = visible s ++ visible t :=
  filter_append _ _

theorem visible_of_isSpace {s : Text} (h : IsSpace s) : visible s = [] := by
  rw [visible, filter_eq_nil_iff]
  intro c hc
  simp [h c hc]

theorem visible_trims {s s' : Text} (h : Trims s s') : visible s' = visible s := by
  refine Drops.filter_eq (fun c hc => ?_) h
  rcases hc with rfl | rfl <;> rfl

theorem visible_textOf {entries : List Entry} (h : ∀ e ∈ entries, e.Valid) :
    visible (textOf entries) = (entries.map (·.piece)).flatMap fun piece => visible piece.text := by
  induction entries with
  | nil => rfl
  | cons e entries ih =>
    have he := h e (by simp)
    have hrest := ih fun e' he' => h e' (by simp [he'])
    have htext : visible e.text = visible e.piece.text := by
      rw [Entry.text, visible_append, visible_trims he.body, visible_of_isSpace he.space,
        append_nil]
    rw [textOf_cons, visible_append, htext, hrest]
    rfl

/-- The text consists of the texts, anchored tokens and comments of the document in
order: between them is white space, and each line comment ends its line. -/
def Preserves (doc : Doc) (rendered : Rendered) : Prop :=
  visible rendered.text = (doc.content.flatMap fun piece => visible piece.text) ∧
    Contains doc.content rendered.text

/-- Rendering preserves the content of a document without `ifBreak` whose separators are
white space, whatever the options. -/
theorem renderInner_preserves (doc : Doc) (opts : RenderOpts) (h : doc.NoIfBreak)
    (hlines : doc.BlankLines) :
    ∃ rendered, renderInner doc opts = some rendered ∧ Preserves doc rendered := by
  obtain ⟨rendered, emitted, hrender, hemits, hcontains, -⟩ := renderInner_spec doc opts
  obtain rfl : emitted = doc.content :=
    Drops.eq_of_not_blank hemits (doc.content_required h hlines)
  refine ⟨rendered, hrender, ?_, hcontains⟩
  obtain ⟨anchors, lead, entries, htext, hlead, hvalid, hpieces, -⟩ := hcontains
  rw [htext, visible_append, visible_of_isSpace hlead, nil_append, visible_textOf hvalid, hpieces]

/-- A list of names over two lines, the first with a line comment. -/
def nameList : Doc :=
  .group (.indent 1 (.concat
    [.anchored ⟨['a', ','], 1, 1⟩, .comments [⟨['/', '/', ' ', 'x'], 0, true, 1, 4⟩],
      .line [' '], .anchored ⟨['b'], 2, 1⟩]))

theorem nameList_preserves :
    ∃ rendered, renderInner nameList ⟨80, 4, .lf, true⟩ = some rendered ∧
      Preserves nameList rendered :=
  renderInner_preserves nameList ⟨80, 4, .lf, true⟩
    (by simp [nameList, Doc.NoIfBreak, Doc.NoIfBreakAll])
    (by simp [nameList, Doc.BlankLines, Doc.BlankLinesAll, IsSpace])

/-- A separator that is not white space is written or not, as the widths have it: no
account of the content of a document can be right for all options. -/
theorem separator_not_preserved : ¬ ∃ meaning : Doc → Text, ∀ doc opts rendered, doc.NoIfBreak →
      renderInner doc opts = some rendered → visible rendered.text = meaning doc := by
  rintro ⟨meaning, h⟩
  have hdoc : (Doc.group (.concat [.line ['x'], .text ['a']])).NoIfBreak := by
    simp [Doc.NoIfBreak, Doc.NoIfBreakAll]
  have hflat := h _ ⟨80, 4, .lf, true⟩ ⟨['x', 'a'], []⟩ hdoc rfl
  have hbroken := h _ ⟨0, 4, .lf, true⟩ ⟨['\n', 'a'], []⟩ hdoc rfl
  rw [← hbroken] at hflat
  exact absurd hflat (by decide)

/-- The anchors of a rendered document are the positions in the text of its pieces that
have one. -/
def Located (doc : Doc) (rendered : Rendered) : Prop :=
  ∃ emitted, Emits doc.content emitted ∧ Laid emitted rendered.text rendered.anchors

/-- A block comment over two lines, and tokens on lines of their own, the last of them behind a
separator with a line feed that is broken. -/
def commentedLines : Doc :=
  .concat [.comments [⟨['/', '*', '\n', ' ', '*', '/'], 0, false, 1, 1⟩], .hardline,
    .anchored ⟨['b'], 3, 1⟩, .line ['\n'], .anchored ⟨['c'], 4, 1⟩]

/-- A token behind a block comment over two lines. -/
def afterComment : Doc :=
  .concat [.comments [⟨['/', '*', '\n', ' ', '*', '/'], 0, false, 0, 0⟩], .anchored ⟨['b'], 2, 4⟩]

end Veryl.Pretty
