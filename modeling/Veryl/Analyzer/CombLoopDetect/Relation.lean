import Veryl.Library.Spans

/-!
Symbolic relations between an anchor position and the current node of a walk.
-/

namespace Veryl.Analyzer.CombLoopDetect

open Veryl.Library

/-- The array and the packed coordinate of a bit. -/
abbrev Position := ℤ × ℤ

inductive Axis where
  | array | packed
  deriving DecidableEq, Repr

def Axis.other : Axis → Axis
  | .array => .packed
  | .packed => .array

def Position.at (p : Position) : Axis → ℤ
  | .array => p.1
  | .packed => p.2

/-- A rectangle of positions. -/
structure PositionDomain where
  arrayStart : ℕ
  arrayLength : ℕ
  packedStart : ℕ
  packedLength : ℕ
  deriving DecidableEq, Repr

/-- How an edge moves a position; `none` forgets it. -/
structure BitDependency where
  array : Option ℤ
  packed : Option ℤ
  deriving DecidableEq, Repr

/-- What a search may still spend. -/
structure SearchBudget where
  remaining : ℕ
  exhausted : Bool
  deriving DecidableEq, Repr

def SearchBudget.spend (b : SearchBudget) (work : ℕ) : Bool × SearchBudget :=
  if b.exhausted || b.remaining < work then (false, { b with exhausted := true })
  else (true, { b with remaining := b.remaining - work })

/-- A range of positions; `none` is all of them. -/
abbrev AxisRange := Option (Span ℤ)

inductive AxisRelation where
  /-- The current position is the anchor plus `offset`. -/
  | linked (offset : ℤ) (start : AxisRange)
  /-- Anchor and current position vary independently. -/
  | unlinked (start current : AxisRange)

structure RelationPiece where
  array : AxisRelation
  packed : AxisRelation

/-- The key of the derived order: variants first, then their fields. -/
def AxisRelation.toKey : AxisRelation →
    (ℤ ×ₗ WithBot (Span ℤ)) ⊕ₗ (WithBot (Span ℤ) ×ₗ WithBot (Span ℤ))
  | .linked offset start => toLex (.inl (toLex (offset, start)))
  | .unlinked start current => toLex (.inr (toLex (start, current)))

instance : LinearOrder AxisRelation :=
  LinearOrder.lift' AxisRelation.toKey fun a b h => by
    cases a <;> cases b <;> simp only [AxisRelation.toKey, EmbeddingLike.apply_eq_iff_eq,
      Sum.inl.injEq, Sum.inr.injEq, reduceCtorEq] at h
    all_goals
      obtain ⟨rfl, rfl⟩ := Prod.mk.inj h
      rfl

instance : LinearOrder RelationPiece :=
  LinearOrder.lift' (fun p => toLex (p.array, p.packed)) fun p q h => by
    cases p
    cases q
    simp_all

def finiteRange (start length : ℕ) : Option AxisRange :=
  if h : 0 < length then some (some ⟨start, start + length, by omega⟩) else none

def translateRange (range : AxisRange) (offset : ℤ) : AxisRange :=
  range.map fun s => ⟨s.start + offset, s.stop + offset, by have := s.lt; omega⟩

def intersectRange : AxisRange → AxisRange → Option AxisRange
  | none, right => some right
  | left, none => some left
  | some left, some right => (left.inter right).map some

def rangeContains : AxisRange → AxisRange → Bool
  | none, _ => true
  | some _, none => false
  | some outer, some inner => outer.start ≤ inner.start && inner.stop ≤ outer.stop

def extendAxis (relation : AxisRelation) (dependency : Option ℤ) (destination : AxisRange) :
    Option AxisRelation :=
  match relation, dependency with
  | .linked offset start, some next => do
    let allowed := translateRange destination (-(offset + next))
    pure (.linked (offset + next) (← intersectRange start allowed))
  | .unlinked start current, some offset => do
    pure (.unlinked start (← intersectRange (translateRange current offset) destination))
  | .linked _ start, none | .unlinked start _, none => some (.unlinked start destination)

def composeAxis : AxisRelation → AxisRelation → Option AxisRelation
  | .linked leftOffset leftStart, .linked rightOffset rightStart => do
    pure (.linked (leftOffset + rightOffset)
      (← intersectRange leftStart (translateRange rightStart (-leftOffset))))
  | .linked offset leftStart, .unlinked rightStart current => do
    pure (.unlinked (← intersectRange leftStart (translateRange rightStart (-offset))) current)
  | .unlinked start leftCurrent, .linked offset rightStart => do
    pure (.unlinked start (translateRange (← intersectRange leftCurrent rightStart) offset))
  | .unlinked start leftCurrent, .unlinked rightStart current => do
    let _ ← intersectRange leftCurrent rightStart
    pure (.unlinked start current)

def axisIntersectsIdentity : AxisRelation → Bool
  | .linked offset _ => offset = 0
  | .unlinked start current => (intersectRange start current).isSome

def axisContainsRelation : AxisRelation → AxisRelation → Bool
  | .linked outerOffset outerStart, .linked innerOffset innerStart =>
    outerOffset = innerOffset && rangeContains outerStart innerStart
  | .unlinked outerStart outerCurrent, .unlinked innerStart innerCurrent =>
    rangeContains outerStart innerStart && rangeContains outerCurrent innerCurrent
  | .unlinked outerStart outerCurrent, .linked offset start =>
    rangeContains outerStart start && rangeContains outerCurrent (translateRange start offset)
  | .linked _ _, .unlinked _ _ => false

def axisStart : AxisRelation → AxisRange
  | .linked _ start | .unlinked start _ => start

def withStart (relation : AxisRelation) (start : AxisRange) : AxisRelation :=
  match relation with
  | .linked offset _ => .linked offset start
  | .unlinked _ current => .unlinked start current

def pieceContains (outer inner : RelationPiece) : Bool :=
  axisContainsRelation outer.array inner.array && axisContainsRelation outer.packed inner.packed

namespace RelationPiece

def axis (p : RelationPiece) : Axis → AxisRelation
  | .array => p.array
  | .packed => p.packed

def withAxis (p : RelationPiece) (axis : Axis) (relation : AxisRelation) : RelationPiece :=
  match axis with
  | .array => { p with array := relation }
  | .packed => { p with packed := relation }

end RelationPiece

/-- The offsets of the linked axes of a piece. -/
abbrev PieceKey := Option ℤ × Option ℤ

def linkedOffset : AxisRelation → Option ℤ
  | .linked offset _ => some offset
  | .unlinked _ _ => none

def pieceKey (p : RelationPiece) : PieceKey := (linkedOffset p.array, linkedOffset p.packed)

/-- The keys of the pieces that may contain a piece with the given key. -/
def coveringKeys (key : PieceKey) : List PieceKey :=
  [(key.1, key.2), (none, key.2), (key.1, none), (none, none)].dedup

/-- The current range of an axis where it does not depend on the anchor: that of
an unlinked axis, or the image of a single anchor. -/
def pointImage (p : RelationPiece) (axis : Axis) : Option (Span ℤ) :=
  match p.axis axis with
  | .unlinked _ current => current
  | .linked offset start => do
    let s ← start
    if s.stop - s.start ≠ 1 then none
    else pure ⟨s.start + offset, s.stop + offset, by have := s.lt; omega⟩

/-- The order of the images of a group. -/
def imageLe (a b : Span ℤ × RelationPiece) : Bool := a.1 < b.1 ∨ a.1 = b.1 ∧ a.2 ≤ b.2

/-- Merges pieces that differ only in a current range that does not depend on the
anchor. -/
def coalescePointsAxis (axis : Axis) (pieces : List RelationPiece) : List RelationPiece :=
  if pieces.length < 2 then pieces
  else
    let images := pieces.filterMap fun p => (pointImage p axis).map fun image => (image, p)
    let key (x : Span ℤ × RelationPiece) : RelationPiece :=
      x.2.withAxis axis (.unlinked (axisStart (x.2.axis axis)) none)
    pieces.filter (fun p => (pointImage p axis).isNone) ++ (groupBy key images).flatMap fun g =>
        (touchingRuns (·.1) (g.2.insertionSort fun a b => imageLe a b)).map fun run =>
          match run.2 with
          | [first] => first.2
          | _ => g.1.withAxis axis (.unlinked (axisStart (g.1.axis axis)) (some run.1))

def coalescePoints (pieces : List RelationPiece) : List RelationPiece :=
  coalescePointsAxis .packed (coalescePointsAxis .array pieces)

/-- Merges pieces that differ only in contiguous start ranges. -/
def coalesceAnchorsAxis (axis : Axis) (pieces : List RelationPiece) : List RelationPiece :=
  if pieces.length < 2 then pieces
  else
    let ranges := pieces.filterMap fun p => (axisStart (p.axis axis)).map fun range => (range, p)
    let key (x : Span ℤ × RelationPiece) : RelationPiece :=
      x.2.withAxis axis (withStart (x.2.axis axis) none)
    pieces.filter (fun p => (axisStart (p.axis axis)).isNone) ++
      (groupBy key ranges).flatMap fun g =>
        (touchingRuns id ((g.2.map (·.1)).insertionSort (· ≤ ·))).map fun run =>
          g.1.withAxis axis (withStart (g.1.axis axis) (some run.1))

def coalesceAnchors (pieces : List RelationPiece) : List RelationPiece :=
  coalesceAnchorsAxis .packed (coalesceAnchorsAxis .array pieces)

structure PositionRelationSet where
  pieces : List RelationPiece
  deriving DecidableEq

namespace PositionRelationSet

/-- Merges, deduplicates and drops covered pieces, as far as the budget pays for
the comparisons. -/
def normalized (pieces : List RelationPiece) (budget : SearchBudget) :
    PositionRelationSet × SearchBudget :=
  if pieces.length < 2 then (⟨pieces⟩, budget)
  else
    let (paid, budget) := budget.spend pieces.length
    if !paid then (⟨pieces⟩, budget)
    else
      let pieces := ((coalesceAnchors (coalescePoints pieces)).insertionSort (· ≤ ·)).dedup
      let group (key : PieceKey) := pieces.filter fun p => pieceKey p = key
      let comparisons :=
        ((pieces.flatMap fun p => coveringKeys (pieceKey p)).map fun k => (group k).length).sum
      let (paid, budget) := budget.spend comparisons
      if !paid then (⟨pieces⟩, budget)
      else
        (⟨pieces.filter fun p => !(coveringKeys (pieceKey p)).any fun k =>
          (group k).any fun outer => outer ≠ p && pieceContains outer p⟩, budget)

def identity (domains : List PositionDomain) (budget : SearchBudget) :
    PositionRelationSet × SearchBudget :=
  let pieces :=
    if domains.isEmpty then [⟨.linked 0 none, .linked 0 none⟩]
    else domains.filterMap fun d => do
      pure ⟨.linked 0 (← finiteRange d.arrayStart d.arrayLength),
        .linked 0 (← finiteRange d.packedStart d.packedLength)⟩
  normalized pieces budget

def thenDependency (set : PositionRelationSet) (dependency : BitDependency)
    (destination : List PositionDomain) (budget : SearchBudget) :
    PositionRelationSet × SearchBudget :=
  let domains : List (AxisRange × AxisRange) :=
    if destination.isEmpty then [(none, none)]
    else destination.filterMap fun d => do
      pure (← finiteRange d.arrayStart d.arrayLength, ← finiteRange d.packedStart d.packedLength)
  let pieces := set.pieces.flatMap fun piece => domains.filterMap fun d => do
    pure ⟨← extendAxis piece.array dependency.array d.1,
      ← extendAxis piece.packed dependency.packed d.2⟩
  normalized pieces budget

def andThen (set next : PositionRelationSet) (budget : SearchBudget) :
    PositionRelationSet × SearchBudget :=
  let pieces := set.pieces.flatMap fun left => next.pieces.filterMap fun right => do
    pure ⟨← composeAxis left.array right.array, ← composeAxis left.packed right.packed⟩
  normalized pieces budget

def intersectsIdentity (set : PositionRelationSet) : Bool :=
  set.pieces.any fun p => axisIntersectsIdentity p.array && axisIntersectsIdentity p.packed

def piecewiseCovers (set other : PositionRelationSet) : Bool :=
  other.pieces.all fun inner => set.pieces.any fun outer => pieceContains outer inner

def unionAll (sets : List PositionRelationSet) (budget : SearchBudget) :
    PositionRelationSet × SearchBudget :=
  normalized (sets.flatMap (·.pieces)) budget

/-- The relation along a path from the domains of its first node. -/
def along (domains : List PositionDomain) (budget : SearchBudget)
    (path : List (BitDependency × List PositionDomain)) : PositionRelationSet × SearchBudget :=
  path.foldl (fun st edge => st.1.thenDependency edge.1 edge.2 st.2) (identity domains budget)

end PositionRelationSet
end Veryl.Analyzer.CombLoopDetect
