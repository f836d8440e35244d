import Veryl.Analyzer.CombLoopDetect.RelationExact
import Veryl.Analyzer.CombLoopDetect.PathCondition
import Veryl.Library.Metered

/-!
The relation pieces that reach one node, each under the condition of the paths that reach it.
-/

namespace Veryl.Analyzer.CombLoopDetect

open Veryl.Library

instance : Purse SearchBudget where
  take work budget := match budget.spend work with
    | (true, budget) => some budget
    | (false, _) => none
  take_take {m n} b _ _ := by
    simp only [SearchBudget.spend, Bool.or_eq_true, decide_eq_true_eq]
    split <;> rename_i h <;> split at h <;> simp_all
    all_goals grind

/-- A part of a search; it stops when the budget is exhausted. -/
abbrev Search := Metered SearchBudget

def spendGuardComparison (p q : PathCondition) : Search Unit :=
  pay (max ((p.workSize + q.workSize) ^ 2) 1)

/-- A piece without its start range on one axis. -/
def RelationPiece.runKey (p : RelationPiece) (a : Axis) : RelationPiece :=
  p.withAxis a (withStart (p.axis a) none)

/-- The piece of a key with a start range. -/
def RelationPiece.withRun (p : RelationPiece) (a : Axis) (run : Span ℤ) : RelationPiece :=
  p.withAxis a (withStart (p.axis a) (some run))

/-- Takes both start ranges on one axis where they differ. -/
def RelationPiece.unionAxis (p q union : RelationPiece) (a : Axis) : RelationPiece :=
  match axisStart (p.axis a), axisStart (q.axis a) with
  | some left, some right =>
    if left ≠ right then union.withAxis a (withStart (p.axis a) (some (left.hull right))) else union
  | _, _ => union

/-- The union of pieces that differ only in touching start ranges of one axis. -/
def RelationPiece.unionContiguous (p q : RelationPiece) : RelationPiece :=
  [Axis.array, Axis.packed].foldl (p.unionAxis q) p

structure PieceStates where
  /-- The recorded conditions of each piece. -/
  pieces : List (RelationPiece × PathCondition)
  groups : List RelationPiece
  /-- The bounded start ranges of the pieces that agree otherwise. -/
  runs : Axis → List ((RelationPiece × PathCondition) × Span ℤ)
  delta : List (RelationPiece × PathCondition)

namespace PieceStates

def empty : PieceStates := ⟨[], [], fun _ => [], []⟩

/-- The conditions a piece is recorded under. -/
def conditions (s : PieceStates) (p : RelationPiece) : List PathCondition :=
  (s.pieces.filter fun e => e.1 = p).map (·.2)

/-- Whether a recorded piece under a covering condition contains this one. -/
def covered (s : PieceStates) (p : RelationPiece) (c : PathCondition) : Search Bool :=
  (coveringKeys (pieceKey p)).anyM fun candidate =>
    (s.groups.filter fun outer => pieceKey outer = candidate).anyM fun outer => do
      pay 1
      if !pieceContains outer p then pure false
      else (s.conditions outer).anyM fun recorded => do
        spendGuardComparison recorded c
        pure (recorded.covers c)

section

-- the lattice of the integers would be found first, and it does not compute
local instance : Preorder ℤ := Int.instLinearOrder.toPreorder

/-- The neighbour of a piece along one axis: its last run that does not start
past the end, where the two touch. -/
def contiguousOn (s : PieceStates) (p : RelationPiece) (c : PathCondition) (a : Axis) :
    Option RelationPiece := do
  let range ← axisStart (p.axis a)
  let run ← ((s.runs a).filter fun r =>
    r.1 = (p.runKey a, c) ∧ r.2.start ≤ range.stop).argmax (·.2.start)
  if range.start ≤ run.2.stop then some ((p.runKey a).withRun a run.2) else none

end

def contiguous (s : PieceStates) (p : RelationPiece) (c : PathCondition) : Option RelationPiece :=
  (s.contiguousOn p c .array).orElse fun _ => s.contiguousOn p c .packed

def add (s : PieceStates) (p : RelationPiece) (c : PathCondition) : PieceStates where
  pieces := s.pieces ++ [(p, c)]
  groups := if p ∈ s.groups then s.groups else s.groups.orderedInsert (· ≤ ·) p
  runs a := match axisStart (p.axis a) with
    | some range => ((s.runs a).filter fun r =>
      ¬ (r.1 = (p.runKey a, c) ∧ r.2.start = range.start)) ++ [((p.runKey a, c), range)]
    | none => s.runs a
  delta := if (p, c) ∈ s.delta then s.delta else s.delta ++ [(p, c)]

def remove (s : PieceStates) (p : RelationPiece) (c : PathCondition) : PieceStates where
  pieces := s.pieces.filter (· ≠ (p, c))
  groups := if (s.conditions p).all (· = c) then s.groups.filter (· ≠ p) else s.groups
  runs a := match axisStart (p.axis a) with
    | some range => (s.runs a).filter fun r => ¬ (r.1 = (p.runKey a, c) ∧ r.2.start = range.start)
    | none => s.runs a
  delta := s.delta.filter (· ≠ (p, c))

/-- Compares with the conditions of an equal piece: drops those covered and
stops at the first one with an exact union. -/
def absorb (p : RelationPiece) (c : PathCondition) :
    List PathCondition → PieceStates → Search (Option PathCondition × PieceStates)
  | [], s => pure (none, s)
  | existing :: recorded, s => do
    spendGuardComparison existing c
    if c.covers existing then absorb p c recorded (s.remove p existing)
    else match existing.disjoinExact c with
      | some union => pure (some union, s.remove p existing)
      | none => absorb p c recorded s

/-- Merges a piece with equal and contiguous ones until neither applies; every
turn but the last removes a recorded piece. -/
def mergeLoop : ℕ → RelationPiece → PathCondition → PieceStates →
    Search (RelationPiece × PathCondition × PieceStates)
  | 0, _, _, _ => fun _ => none
  | turns + 1, p, c, s => do
    match ← absorb p c (s.conditions p) s with
    | (some union, s) => mergeLoop turns p union s
    | (none, s) =>
      match s.contiguous p c with
      | none => pure (p, c, s)
      | some neighbour =>
        pay 1
        mergeLoop turns (p.unionContiguous neighbour) c (s.remove neighbour c)

/-- Adds one piece; whether it needs propagation. -/
def insertPiece (s : PieceStates) (p : RelationPiece) (c : PathCondition) :
    Search (Bool × PieceStates) := do
  pay 1
  if ← s.covered p c then pure (false, s)
  else
    let (p, c, s) ← mergeLoop (s.pieces.length + 1) p c s
    pure (true, s.add p c)

def insert (s : PieceStates) (relation : PositionRelationSet) (c : PathCondition) :
    Search (Bool × PieceStates) :=
  relation.pieces.foldlM (fun st p => do
    let (changed, s) ← st.2.insertPiece p c
    pure (st.1 || changed, s)) (false, s)

/-- The pieces to propagate, grouped by condition. -/
def takeDelta (s : PieceStates) (budget : SearchBudget) :
    List (PathCondition × PositionRelationSet) × SearchBudget × PieceStates :=
  let delta := s.delta.insertionSort fun e e' => toLex e ≤ toLex e'
  let taken := (groupBy (·.2) delta).foldl (fun st g =>
    let (set, budget) := PositionRelationSet.normalized (g.2.map (·.1)) st.2
    (st.1 ++ [(g.1, set)], budget)) (([] : List (PathCondition × PositionRelationSet)), budget)
  (taken.1, taken.2, { s with delta := [] })

end PieceStates
end Veryl.Analyzer.CombLoopDetect
