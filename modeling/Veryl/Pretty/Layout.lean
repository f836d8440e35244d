import Veryl.Library.Lines
import Veryl.Pretty.Render

/-!
What is meant to stand in a rendered text: the pieces of a document in order, each
behind the white space of the one before it, and the positions of those that have an
anchor.
-/

namespace Veryl.Pretty

open Veryl.Library List

variable {s text' : Text} {newline : Newline}

/-- A piece of text. An optional one depends on the layout. -/
structure Piece where
  text : Text
  isLineComment : Bool
  anchor : Option (ℕ × ℕ)
  optional : Bool

namespace Piece

def ofText (s : Text) : Piece := ⟨s, false, none, false⟩

def ofOptional (s : Text) : Piece := ⟨s, false, none, true⟩

def ofAnchored (a : AnchoredText) : Piece := ⟨a.text, false, some (a.srcLine, a.srcColumn), false⟩

/-- A comment without a source position has no anchor. -/
def ofComment (c : CommentDoc) : Piece :=
  ⟨c.text, c.isLineComment,
    if c.srcLine ≠ 0 ∧ c.srcColumn ≠ 0 then some (c.srcLine, c.srcColumn) else none, false⟩

end Piece

def IsSpace (s : Text) : Prop := ∀ c ∈ s, c.isWhitespace = true

instance (s : Text) : Decidable (IsSpace s) := List.decidableBAll _ s

namespace Doc

mutual

/-- The pieces of a document. A separator that is not white space, and the text of an
`ifBreak`, are optional. -/
def content : Doc → List Piece
  | .text s => [.ofText s]
  | .concat items => contentAll items
  | .indent _ inner => inner.content
  | .group inner => inner.content
  | .forceFlat inner => inner.content
  | .line sep => if IsSpace sep then [] else [.ofOptional sep]
  | .comments cs => cs.map .ofComment
  | .ifBreak s => [.ofOptional s]
  | .anchored a => [.ofAnchored a]
  | _ => []

def contentAll : List Doc → List Piece
  | [] => []
  | item :: items => item.content ++ contentAll items

end

end Doc

/-- A piece as it stands in a text, with the white space behind it. -/
structure Entry where
  piece : Piece
  body : Text
  space : Text

namespace Entry

def text (e : Entry) : Text := e.body ++ e.space

/-- The piece has lost at most blanks at the ends of its lines, and a line comment is
followed by the end of its line. -/
structure Valid (e : Entry) : Prop where
  body : Trims e.piece.text e.body
  space : IsSpace e.space
  newline : e.piece.isLineComment = true → '\n' ∈ e.space

/-- The anchor of a piece that stands behind a text. -/
def anchors (pre : Text) (e : Entry) : List RenderedAnchor :=
  match e.piece.anchor with
  | none => []
  | some (srcLine, srcColumn) =>
    [{ dstLine := pre.count '\n' + 1
       dstColumn := column pre + 1
       srcLine := srcLine
       srcColumn := srcColumn
       text := e.piece.text }]

end Entry

def textOf (entries : List Entry) : Text := entries.flatMap Entry.text

/-- The anchors of the pieces that stand behind a text, in order. -/
def anchorsFrom (pre : Text) : List Entry → List RenderedAnchor
  | [] => []
  | e :: entries => e.anchors pre ++ anchorsFrom (pre ++ e.text) entries

@[simp] theorem textOf_nil : textOf [] = [] := rfl

@[simp] theorem textOf_cons (e : Entry) (entries : List Entry) :
    textOf (e :: entries) = e.text ++ textOf entries := rfl

theorem textOf_append (entries entries' : List Entry) :
    textOf (entries ++ entries') = textOf entries ++ textOf entries' :=
  flatMap_append

theorem anchorsFrom_append (pre : Text) (entries entries' : List Entry) :
    anchorsFrom pre (entries ++ entries') =
      anchorsFrom pre entries ++ anchorsFrom (pre ++ textOf entries) entries' := by
  induction entries generalizing pre with
  | nil => simp [anchorsFrom]
  | cons e entries ih => simp [anchorsFrom, ih]

/-- The first line of the text has a visible character. -/
def Visible (s : Text) : Prop :=
  ∃ lead c rest, s = lead ++ c :: rest ∧ (∀ b ∈ lead, IsBlank b) ∧ c.isWhitespace = false

def Solid (piece : Piece) : Prop := piece.anchor.isSome = true → Visible piece.text

/-- The text consists of the pieces, and the anchors are where the pieces stand. -/
structure Laid (pieces : List Piece) (text : Text) (anchors : List RenderedAnchor) : Prop where
  exists_entries : ∃ lead entries, text = lead ++ textOf entries ∧ IsSpace lead ∧
    (∀ e ∈ entries, e.Valid) ∧ entries.map (·.piece) = pieces ∧
    anchors = anchorsFrom lead entries

/-- As `Laid`, but for the positions of the anchors. -/
def Contains (pieces : List Piece) (text : Text) : Prop :=
  ∃ anchors, Laid pieces text anchors

theorem isSpace_append {t : Text} (hs : IsSpace s) (ht : IsSpace t) : IsSpace (s ++ t) := by
  intro c hc
  rcases mem_append.1 hc with hc | hc
  · exact hs c hc
  · exact ht c hc

theorem isSpace_nil : IsSpace [] := by
  intro c hc
  cases hc

theorem isSpace_spaces (n : ℕ) : IsSpace (spaces n) := by
  intro c hc
  rw [eq_of_mem_replicate hc]
  rfl

theorem isSpace_newline (newline : Newline) : IsSpace newline.chars := by
  cases newline <;> decide

theorem newline_mem (newline : Newline) : '\n' ∈ newline.chars := by
  cases newline <;> decide

theorem newline_cases (newline : Newline) :
    newline.chars = ['\n'] ∨ newline.chars = ['\r', '\n'] := by
  cases newline
  · exact Or.inl rfl
  · exact Or.inr rfl

theorem isSpace_of_drops {allowed : Text → Prop} {s' : Text} (h : Drops IsBlank allowed s s')
    (hs : IsSpace s) : IsSpace s' := fun c hc => hs c (h.mem hc)

section Laid

variable {pieces : List Piece} {text : Text} {anchors : List RenderedAnchor}

theorem laid_nil : Laid [] [] [] := ⟨[], [], rfl, isSpace_nil, by simp, rfl, rfl⟩

theorem Laid.space (h : Laid pieces text anchors) (hs : IsSpace s) :
    Laid pieces (text ++ s) anchors := by
  obtain ⟨lead, entries, rfl, hlead, hvalid, hpieces, hanchors⟩ := h
  rcases eq_nil_or_concat entries with rfl | ⟨entries, e, rfl⟩
  · exact ⟨lead ++ s, [], by simp, isSpace_append hlead hs, by simp, hpieces, hanchors⟩
  rw [concat_eq_append] at *
  have he := hvalid e (by simp)
  refine ⟨lead, entries ++ [{ e with space := e.space ++ s }], ?_, hlead, ?_, ?_, ?_⟩
  · simp [textOf_append, Entry.text]
  · intro e' he'
    rcases mem_append.1 he' with he' | he'
    · exact hvalid e' (by simp [he'])
    · rw [mem_singleton.1 he']
      exact ⟨he.body, isSpace_append he.space hs,
        fun hline => mem_append_left _ (he.newline hline)⟩
  · simpa using hpieces
  · rw [hanchors, anchorsFrom_append, anchorsFrom_append]
    rfl

theorem Laid.piece (h : Laid pieces text anchors) (piece : Piece) (hs : IsSpace s)
    (hline : piece.isLineComment = true → '\n' ∈ s) :
    Laid (pieces ++ [piece]) (text ++ piece.text ++ s)
      (anchors ++ Entry.anchors text ⟨piece, piece.text, s⟩) := by
  obtain ⟨lead, entries, rfl, hlead, hvalid, rfl, rfl⟩ := h
  refine ⟨lead, entries ++ [⟨piece, piece.text, s⟩], ?_, hlead, ?_, ?_, ?_⟩
  · simp [textOf_append, Entry.text]
  · intro e he
    rcases mem_append.1 he with he | he
    · exact hvalid e he
    · rw [mem_singleton.1 he]
      exact ⟨Trims.refl _, hs, hline⟩
  · simp
  · rw [anchorsFrom_append]
    simp [anchorsFrom]

theorem Entry.Valid.starts {e : Entry} (h : e.Valid) (hsolid : Solid e.piece)
    (hanchor : e.piece.anchor.isSome = true) :
    ∃ c rest, e.body = c :: rest ∧ c ≠ '\n' ∧ c ≠ '\r' := by
  obtain ⟨lead, c, rest, htext, hlead, hc⟩ := hsolid hanchor
  have hbody : Trims (lead ++ c :: rest) e.body := htext ▸ h.body
  obtain ⟨rest', hrest, -⟩ := hbody.of_visible hlead hc
  cases lead with
  | nil =>
    refine ⟨c, rest', hrest, ?_, ?_⟩ <;> rintro rfl <;> simp [Char.isWhitespace] at hc
  | cons b lead =>
    have hb := hlead b (by simp)
    refine ⟨b, lead ++ c :: rest', hrest, ?_, ?_⟩ <;> rintro rfl <;> exact absurd hb (by decide)

theorem drops_entries {entries : List Entry} {pre pre' : Text}
    (h : Drops IsBlank (Ends newline.chars) (textOf entries) text')
    (hvalid : ∀ e ∈ entries, e.Valid)
    (hpre : Drops IsBlank (fun r => Ends newline.chars (r ++ text')) pre pre') :
    ∃ entries', text' = textOf entries' ∧ (∀ e ∈ entries', e.Valid) ∧
      entries'.map (·.piece) = entries.map (·.piece) ∧
      ((∀ e ∈ entries, Solid e.piece) → anchorsFrom pre' entries' = anchorsFrom pre entries) := by
  induction entries generalizing text' pre pre' with
  | nil => exact ⟨[], h.eq_nil, by simp, rfl, fun _ => rfl⟩
  | cons e entries ih =>
    have he := hvalid e (by simp)
    obtain ⟨x, y, rfl, hx, hy⟩ := h.of_append
    obtain ⟨body, space, rfl, hbody, hspace⟩ := hx.of_append
    have hjoin : Drops IsBlank (fun r => Ends newline.chars (r ++ y)) (pre ++ e.text)
        (pre' ++ (body ++ space)) := by
      refine Drops.append (hpre.mono fun r hr => ?_) hx
      simpa [append_assoc] using hr
    obtain ⟨entries', rfl, hvalid', hpieces, hanchors⟩ :=
      ih hy (fun e' he' => hvalid e' (by simp [he'])) hjoin
    have hvalid₁ : Entry.Valid ⟨e.piece, body, space⟩ := by
      refine ⟨he.body.trans (hbody.mono fun r hr => ?_), isSpace_of_drops hspace he.space,
        fun hline => hspace.mem_of_not_blank (he.newline hline) (by decide)⟩
      rw [append_assoc] at hr
      exact hr.lineEnds (newline_cases newline)
    refine ⟨⟨e.piece, body, space⟩ :: entries', rfl, ?_, by simp [hpieces], fun hsolid => ?_⟩
    · intro e' he'
      rcases mem_cons.1 he' with rfl | he'
      · exact hvalid₁
      · exact hvalid' e' he'
    · have hrest := hanchors fun e' he' => hsolid e' (by simp [he'])
      have hfirst : Entry.anchors pre' ⟨e.piece, body, space⟩ = e.anchors pre := by
        simp only [Entry.anchors]
        cases hanchor : e.piece.anchor with
        | none => rfl
        | some position =>
          obtain ⟨c, rest, rfl, hc⟩ :=
            hvalid₁.starts (hsolid e (by simp)) (by simp [hanchor])
          have hcolumn : column pre' = column pre :=
            columnFrom_eq_of_drops (newline_cases newline) hc
              (hpre.mono fun r hr => by simpa [append_assoc] using hr) 0
          simp only [hcolumn, count_eq_of_drops hpre]
      simp only [anchorsFrom]
      rw [hfirst]
      exact congrArg _ hrest

theorem Laid.drops (h : Laid pieces text anchors)
    (hdrops : Drops IsBlank (Ends newline.chars) text text') :
    Contains pieces text' ∧ ((∀ piece ∈ pieces, Solid piece) → Laid pieces text' anchors) := by
  obtain ⟨lead, entries, rfl, hlead, hvalid, rfl, rfl⟩ := h
  obtain ⟨lead', text', rfl, hlead', htext'⟩ := hdrops.of_append
  obtain ⟨entries', rfl, hvalid', hpieces, hanchors⟩ := drops_entries htext' hvalid hlead'
  have hspace := isSpace_of_drops hlead' hlead
  refine ⟨⟨_, lead', entries', rfl, hspace, hvalid', hpieces, rfl⟩, fun hsolid => ?_⟩
  refine ⟨lead', entries', rfl, hspace, hvalid', hpieces, ?_⟩
  exact (hanchors fun e he => hsolid _ (mem_map_of_mem he)).symm

end Laid

end Veryl.Pretty
