import Veryl.Analyzer.CombLoopDetect.Ssa.Fragments

/-!
Indexed write history of one storage key. Nodes live in an arena and are
referred to by their index; a node lists the layers below it through `prev` and
passes over some of them through `jump`.
-/

namespace Veryl.Analyzer.CombLoopDetect

open Veryl.Library

abbrev VersionId := ℕ

inductive Layer where
  | write (region : PositionDomain) (version : VersionId) (strong : Bool)
  /-- The join of branches that all started from `common`. -/
  | merge (common : ℕ) (branches : List ℕ) (bounds : Option PositionDomain)
  deriving DecidableEq

def Layer.bounds : Layer → Option PositionDomain
  | .write region _ _ => some region
  | .merge _ _ bounds => bounds

structure LogNode where
  prev : Option ℕ
  /-- An ancestor reached by skipping the layers in `bounds`. -/
  jump : Option ℕ
  layer : Option Layer
  base : VersionId
  len : ℕ
  bounds : Option PositionDomain
  deriving DecidableEq

/-- A position range of a read and the version that supplies it. -/
structure Piece where
  version : VersionId
  domain : PositionDomain
  deriving DecidableEq

/-- The nodes in the order of their allocation. -/
abbrev Logs := List LogNode

namespace Logs

def node (logs : Logs) (n : ℕ) : LogNode := logs[n]?.getD ⟨none, none, none, 0, 0, none⟩

def root (logs : Logs) (base : VersionId) : ℕ × Logs :=
  (logs.length, logs ++ [⟨none, none, none, base, 0, none⟩])

/-- The jump of a new layer: over both spans above an equally long pair. -/
def jumpFrom (logs : Logs) (self : ℕ) (own : Option PositionDomain) :
    Option ℕ × Option PositionDomain :=
  let node := logs.node self
  match node.jump with
  | none => (some self, own)
  | some first =>
    match (logs.node first).jump with
    | none => (some self, own)
    | some second =>
      if node.len - (logs.node first).len = (logs.node first).len - (logs.node second).len then
        (some second, hull (hull own node.bounds) (logs.node first).bounds)
      else (some self, own)

def push (logs : Logs) (self : ℕ) (layer : Layer) : ℕ × Logs :=
  let (jump, bounds) := logs.jumpFrom self layer.bounds
  (logs.length, logs ++ [⟨some self, jump, some layer, (logs.node self).base,
    (logs.node self).len + 1, bounds⟩])

/-- Descends from a branch to the length of the common log, with the bounds of
the layers passed; as many turns as there are nodes are enough. -/
def descend (logs : Logs) (common : ℕ) :
    ℕ → ℕ → Option PositionDomain → Option (ℕ × Option PositionDomain)
  | 0, _, _ => none
  | turns + 1, node, bounds =>
    if (logs.node common).len < (logs.node node).len then
      match (logs.node node).prev with
      | none => none
      | some prev => descend logs common turns prev
          (hull bounds ((logs.node node).layer.bind Layer.bounds))
    else some (node, bounds)

/-- The bounds of branches that all extend a common log. -/
def mergeBounds (logs : Logs) (common : ℕ) :
    List ℕ → Option PositionDomain → Option (Option PositionDomain)
  | [], bounds => some bounds
  | branch :: branches, bounds =>
    match logs.descend common (branch + 1) branch bounds with
    | none => none
    | some (node, bounds) =>
      -- logs started at the same unlogged version share their bottom
      if node = common ∨
          (logs.node common).len = 0 ∧ (logs.node node).base = (logs.node common).base then
        mergeBounds logs common branches bounds
      else none

def merge (logs : Logs) (common : ℕ) (branches : List ℕ) : Option (ℕ × Logs) :=
  (logs.mergeBounds common branches none).map fun bounds =>
    logs.push common (.merge common branches bounds)

end Logs

/-- The branches of a join still to walk, from the positions inside it. -/
structure JoinWalk where
  branches : List ℕ
  next : ℕ
  stop : ℕ
  inside : Fragments

/-- One history being walked: from `node` down to the layer at `stop`, supplying
`remaining`, and the join it is inside of, if any. -/
structure WalkFrame where
  node : ℕ
  stop : ℕ
  remaining : Fragments
  join : Option JoinWalk

/-- The frames, the innermost first. -/
structure Walk where
  frames : List WalkFrame
  returned : Option Fragments
  pieces : List Piece

namespace Logs

/-- Positions a branch left unwritten keep the value below the join. -/
def rejoin (remaining : Fragments) : Option Fragments → Metered ℕ Fragments
  | some left => left.boxes.foldlM (fun remaining fragment => remaining.add fragment) remaining
  | none => pure remaining

/-- The ancestor to which the walk of some positions may skip. -/
def skip (logs : Logs) (frame : WalkFrame) : Metered ℕ (Option ℕ) :=
  match (logs.node frame.node).jump with
  | none => pure none
  | some jump =>
    if frame.stop ≤ (logs.node jump).len then do
      let meets ← frame.remaining.overlaps (logs.node frame.node).bounds
      pure (if meets then none else some jump)
    else pure none

/-- The positions a write leaves to the layers below it. -/
def overwrite (remaining : Fragments) (region : PositionDomain) (strong : Bool) :
    Metered ℕ Fragments :=
  if strong then remaining.subtract region else pure remaining

/-- One turn of the loops of a walk: the next branch of a join, the next layer of
a history or the return from one. -/
def turn (logs : Logs) (w : Walk) : Metered ℕ ((Fragments × List Piece) ⊕ Walk) :=
  match w.frames with
  | [] => fun _ => none
  | frame :: rest =>
    match frame.join with
    | some join => do
      let remaining ← rejoin frame.remaining w.returned
      match join.branches[join.next]?, (logs.node frame.node).prev with
      | some branch, _ => pure (.inr ⟨⟨branch, join.stop, join.inside, none⟩ ::
          { frame with
            remaining := remaining
            join := some { join with next := join.next + 1 } } :: rest, none, w.pieces⟩)
      | none, some prev => pure (.inr ⟨⟨prev, frame.stop, remaining, none⟩ :: rest, none, w.pieces⟩)
      | none, none => fun _ => none
    | none =>
      if frame.remaining.isEmpty = false ∧ frame.stop < (logs.node frame.node).len then do
        pay 1
        match ← logs.skip frame with
        | some jump => pure (.inr { w with frames := { frame with node := jump } :: rest })
        | none =>
          match (logs.node frame.node).layer, (logs.node frame.node).prev with
          | some (.write region version strong), some prev => do
            let found ← frame.remaining.overlapping region
            let pieces := found.filterMap fun fragment =>
              (intersection fragment region).map fun domain => ⟨version, domain⟩
            let remaining ← overwrite frame.remaining region strong
            pure (.inr ⟨⟨prev, frame.stop, remaining, none⟩ :: rest, w.returned, w.pieces ++ pieces⟩)
          | some (.merge common branches bounds), some prev => do
            let (inside, remaining) ← frame.remaining.splitOff bounds
            if inside.isEmpty then
              pure (.inr ⟨⟨prev, frame.stop, remaining, none⟩ :: rest, w.returned, w.pieces⟩)
            else
              pure (.inr ⟨⟨frame.node, frame.stop, remaining,
                some ⟨branches, 0, (logs.node common).len, inside⟩⟩ :: rest, w.returned, w.pieces⟩)
          | _, _ => fun _ => none
      else match rest with
        | [] => pure (.inl (frame.remaining, w.pieces))
        | _ :: _ => pure (.inr ⟨rest, some frame.remaining, w.pieces⟩)

/-- Walks until the outermost history is done. -/
def walk (logs : Logs) : ℕ → Walk → Metered ℕ (Fragments × List Piece)
  | 0, _ => fun _ => none
  | turns + 1, w => do
    match ← logs.turn w with
    | .inl done => pure done
    | .inr w => walk logs turns w

/-- A walk of a region from the tip of a log. -/
def start (tip : ℕ) (region : PositionDomain) : Walk :=
  ⟨[⟨tip, 0, Fragments.empty.insert region, none⟩], none, []⟩

/-- The writes that supply a region, including the version below the log. -/
def resolve (logs : Logs) (turns : ℕ) (tip : ℕ) (region : PositionDomain) :
    Metered ℕ (List Piece) := do
  let (remaining, pieces) ← logs.walk turns (start tip region)
  pure (pieces ++ remaining.boxes.map fun domain => ⟨(logs.node tip).base, domain⟩)

end Logs
end Veryl.Analyzer.CombLoopDetect
