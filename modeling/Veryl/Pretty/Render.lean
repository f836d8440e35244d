import Veryl.Pretty.Doc

/-!
The renderer: a stack of documents, each with its indent and mode. A group is laid out flat when
what follows fits on the line.
-/

namespace Veryl.Pretty

inductive Mode where
  | flat
  | break
  deriving DecidableEq

/-- The two newlines a file can have. -/
inductive Newline where
  | lf
  | crlf
  deriving DecidableEq

def Newline.chars : Newline → Text
  | .lf => ['\n']
  | .crlf => ['\r', '\n']

structure RenderOpts where
  maxWidth : ℕ
  indentWidth : ℕ
  newline : Newline
  stripTrailingWhitespace : Bool

/-- Positions are numbers of 32 bits. -/
structure RenderedAnchor where
  dstLine : ℕ
  dstColumn : ℕ
  srcLine : ℕ
  srcColumn : ℕ
  text : Text
  deriving DecidableEq

structure State where
  out : Text
  col : ℕ
  currentLine : ℕ
  /-- The next hard line does not end the line, which has ended. -/
  swallowNextBreak : Bool
  /-- The spaces before the next content; none in the middle of a line. -/
  pendingIndent : Option ℕ
  anchors : List RenderedAnchor

structure Rendered where
  text : Text
  anchors : List RenderedAnchor

structure Frame where
  indent : ℤ
  mode : Mode
  doc : Doc

def spaces (n : ℕ) : Text := List.replicate n ' '

def padFor (indent : ℤ) (opts : RenderOpts) : ℕ := indent.toNat * opts.indentWidth

/-- The characters after the last line feed. -/
def lastLine (s : Text) : Text := s.rtakeWhile (· ≠ '\n')

namespace State

def flushPending (state : State) : State :=
  match state.pendingIndent with
  | some pad => { state with pendingIndent := none, out := state.out ++ spaces pad, col := pad }
  | none => state

def flushPendingWithIndent (state : State) (frameIndent : ℤ) (opts : RenderOpts) : State :=
  match state.pendingIndent with
  | some pad =>
    let target := min (padFor frameIndent opts) pad
    { state with
      pendingIndent := none
      out := state.out ++ spaces target
      col := target }
  | none => state

/-- Content on the current line; a pending swallow is over. -/
def put (state : State) (s : Text) : State :=
  { state with
    swallowNextBreak := false
    out := state.out ++ s
    col := state.col + s.length }

/-- Content that may contain line feeds. -/
def putLines (state : State) (s : Text) : State :=
  let nls := s.count '\n'
  if nls = 0 then state.put s
  else
    { state with
      swallowNextBreak := false
      out := state.out ++ s
      currentLine := state.currentLine + nls
      col := (lastLine s).length }

def addAnchor (state : State) (srcLine srcColumn : ℕ) (text : Text) : State :=
  { state with
    anchors := state.anchors ++
      [{ dstLine := state.currentLine % 2 ^ 32
         dstColumn := (state.col % 2 ^ 32 + 1) % 2 ^ 32
         srcLine, srcColumn, text }] }

def emitAnchored (state : State) (a : AnchoredText) (indent : ℤ) (opts : RenderOpts) : State :=
  ((state.flushPendingWithIndent indent opts).addAnchor a.srcLine a.srcColumn a.text).putLines
    a.text

def emitNewline (state : State) (opts : RenderOpts) : State :=
  { state with
    out := state.out ++ opts.newline.chars
    currentLine := state.currentLine + 1
    col := 0 }

def emitBreak (state : State) (indent : ℤ) (opts : RenderOpts) : State :=
  let state :=
    if state.swallowNextBreak then { state with swallowNextBreak := false }
    else state.emitNewline opts
  { state with pendingIndent := some (padFor indent opts) }

/-- Drops trailing spaces, so that alignment padding does not survive a dedent. -/
def dedent (state : State) (level : ℕ) (opts : RenderOpts) : State :=
  let want := level * opts.indentWidth
  if 0 < want ∧ state.pendingIndent = none ∧ want ≤ state.out.length ∧
      (state.out.drop (state.out.length - want)).all (· = ' ') then
    { state with out := state.out.take (state.out.length - want), col := state.col - want }
  else state

def emitNewlines (state : State) (opts : RenderOpts) : ℕ → State
  | 0 => state
  | n + 1 => (state.emitNewline opts).emitNewlines opts n

/-- Moves to the place of a comment: behind the content of the line, or to a line of its
own at the indent. -/
def startComment (state : State) (c : CommentDoc) (padWidth : ℕ) (opts : RenderOpts) : State :=
  let preSwallow := state.swallowNextBreak
  let state := { state with swallowNextBreak := false }
  let pending := state.pendingIndent.isSome
  if c.leadingNewlines = 0 ∧ ¬ preSwallow ∧ ¬ pending then
    if 0 < state.col then { state with out := state.out ++ [' '], col := state.col + 1 }
    else state
  else
    let already := if preSwallow ∨ pending then 1 else 0
    let state := state.emitNewlines opts (max c.leadingNewlines 1 - already)
    { state with out := state.out ++ spaces padWidth, col := padWidth, pendingIndent := none }

def emitComment (state : State) (c : CommentDoc) (padWidth : ℕ) (opts : RenderOpts) : State :=
  let nls := c.text.count '\n'
  if c.isLineComment then
    { state with
      out := state.out ++ c.text ++ opts.newline.chars
      currentLine := state.currentLine + (nls + 1)
      col := 0
      pendingIndent := some padWidth
      swallowNextBreak := true }
  else if 0 < nls then
    { state with
      out := state.out ++ c.text
      currentLine := state.currentLine + nls
      col := 0 }
  else { state with out := state.out ++ c.text, col := state.col + c.text.length }

def renderComment (state : State) (indent : ℤ) (opts : RenderOpts) (c : CommentDoc) : State :=
  let padWidth := padFor indent opts
  let state := state.startComment c padWidth opts
  let state :=
    if c.srcLine ≠ 0 ∧ c.srcColumn ≠ 0 then state.addAnchor c.srcLine c.srcColumn c.text
    else state
  state.emitComment c padWidth opts

def renderComments (state : State) (cs : List CommentDoc) (indent : ℤ) (opts : RenderOpts) :
    State :=
  cs.foldl (fun state c => state.renderComment indent opts c) state

end State

/-- How the look-ahead goes on: it is decided, or some of the line is left. -/
inductive Fit where
  | decided (fits : Bool)
  | left (budget : ℤ)

mutual

/-- One document of the look-ahead; `inStart` is inside the group that is laid out. -/
def fitsItem (inStart : Bool) : Doc → ℤ → Fit
  | d, budget =>
    if budget < 0 then .decided false
    else match d with
      | .nil => .left budget
      | .text s => .left (budget - s.length)
      | .concat items => fitsItems inStart items budget
      | .indent _ inner => fitsItem inStart inner budget
      | .group inner => fitsItem inStart inner budget
      | .forceFlat inner => fitsItem inStart inner budget
      | .line sep =>
        if inStart then .left (budget - sep.length)
        -- A break opportunity: the current line ends here.
        else .decided true
      | .hardline => .decided !inStart
      | .dedentHardline _ => .decided !inStart
      | .ifBreak _ => .left budget
      | .ifBreakPad _ => .left budget
      | .pad width => .left (budget - width)
      | .ifFlatPad width => .left (budget - width)
      | .anchored a => .left (budget - a.text.length)
      | .comments cs =>
        -- A line comment ends the line.
        if cs.any (·.isLineComment) then .decided !inStart
        else .left (budget - ((cs.map fun c => c.text.length + 1).sum : ℕ))

def fitsItems (inStart : Bool) : List Doc → ℤ → Fit
  | [], budget => .left budget
  | item :: items, budget =>
    match fitsItem inStart item budget with
    | .decided fits => .decided fits
    | .left budget => fitsItems inStart items budget

end

theorem fitsItem_negative (inStart : Bool) (doc : Doc) {budget : ℤ} (h : budget < 0) :
    fitsItem inStart doc budget = .decided false := by
  rw [fitsItem.eq_def]
  exact if_pos h

/-- Lays out a document flat and goes on into the frames below it until the line
ends. -/
def fitsFlat (d : Doc) (outer : List Frame) (budget : ℤ) : Bool :=
  if budget < 0 then false
  else match fitsItem true d budget with
    | .decided fits => fits
    | .left budget =>
      match fitsItems false (outer.map (·.doc)) budget with
      | .decided fits => fits
      | .left budget => 0 ≤ budget

/-- A word read as a signed number. -/
def asIsize (n : ℕ) : ℤ := if n < 2 ^ 63 then n else n - 2 ^ 64

/-- One turn: the state, and the frames that take the place of the one taken. -/
def renderFrame (frame : Frame) (opts : RenderOpts) (state : State) (stack : List Frame) :
    State × List Frame :=
  let ⟨indent, mode, doc⟩ := frame
  match doc with
  | .nil => (state, [])
  | .text s => ((state.flushPendingWithIndent indent opts).putLines s, [])
  | .concat items => (state, items.map (Frame.mk indent mode))
  | .indent off inner => (state, [⟨indent + off, mode, inner⟩])
  | .group inner =>
    -- A group under `forceFlat` stays flat.
    let chosen :=
      if mode = .flat then .flat
      else
        let remaining := opts.maxWidth - state.col
        if fitsFlat inner stack (asIsize remaining) then .flat else .break
    (state, [⟨indent, chosen, inner⟩])
  | .forceFlat inner => (state, [⟨indent, .flat, inner⟩])
  | .line sep =>
    match mode with
    | .flat => (state.flushPending.put sep, [])
    | .break => (state.emitBreak indent opts, [])
  | .hardline =>
    match mode with
    | .flat => (state.flushPending.put [' '], [])
    | .break => (state.emitBreak indent opts, [])
  | .dedentHardline level =>
    match mode with
    | .flat => (state.flushPending.put [' '], [])
    | .break => ((state.dedent level opts).emitBreak indent opts, [])
  | .comments cs => (state.renderComments cs indent opts, [])
  | .ifBreak s =>
    if mode = .break then ((state.flushPendingWithIndent indent opts).put s, [])
    else (state, [])
  | .ifBreakPad width =>
    if mode = .break ∧ 0 < width then
      ((state.flushPendingWithIndent indent opts).put (spaces width), [])
    else (state, [])
  | .pad width =>
    if 0 < width then ((state.flushPendingWithIndent indent opts).put (spaces width), [])
    else (state, [])
  | .ifFlatPad width =>
    if mode = .flat ∧ 0 < width then
      ((state.flushPendingWithIndent indent opts).put (spaces width), [])
    else (state, [])
  | .anchored a => (state.emitAnchored a indent opts, [])

/-- Frames are taken until the stack is empty; `none` when the turns do not suffice. -/
def renderLoop (opts : RenderOpts) : ℕ → State → List Frame → Option State
  | _, state, [] => some state
  | 0, _, _ :: _ => none
  | turns + 1, state, frame :: stack =>
    let (state, frames) := renderFrame frame opts state stack
    renderLoop opts turns state (frames ++ stack)

/-- A character before the first line. -/
def consLine (c : Char) : List Text → List Text
  | [] => [[c]]
  | line :: lines => (c :: line) :: lines

/-- The lines of a text, which the newlines separate. -/
def splitLines : Newline → Text → List Text
  | _, [] => [[]]
  | .lf, '\n' :: s => [] :: splitLines .lf s
  | .crlf, '\r' :: '\n' :: s => [] :: splitLines .crlf s
  | newline, c :: s => consLine c (splitLines newline s)

def isBlank (c : Char) : Bool := c = ' ' ∨ c = '\t'

def stripTrailingWhitespace (s : Text) (newline : Newline) : Text :=
  newline.chars.intercalate ((splitLines newline s).map (·.rdropWhile isBlank))

def State.init : State where
  out := []
  col := 0
  currentLine := 1
  swallowNextBreak := false
  pendingIndent := none
  anchors := []

def renderInner (doc : Doc) (opts : RenderOpts) : Option Rendered := do
  let state ← renderLoop opts doc.size .init [⟨0, .break, doc⟩]
  let text :=
    if opts.stripTrailingWhitespace then stripTrailingWhitespace state.out opts.newline
    else state.out
  some { text, anchors := state.anchors }

end Veryl.Pretty
