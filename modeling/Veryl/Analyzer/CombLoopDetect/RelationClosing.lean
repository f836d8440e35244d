import Veryl.Analyzer.CombLoopDetect.Relation

/-!
Whether a relation closes a cycle with a translation that is repeated some number of times,
without walking once for each time.
-/

namespace Veryl.Analyzer.CombLoopDetect

open Veryl.Library

def isizeMax : ℤ := 2 ^ 63 - 1

def isizeMin : ℤ := -2 ^ 63

structure FeasiblePosition where
  array : AxisRange
  packed : AxisRange

/-- Why a piece does not close with a guard: no number of steps does, or a checked operation
has no result. -/
inductive Stop where
  | never
  | overflow
  deriving DecidableEq

/-- The result of a checked operation. -/
def checked (x : ℤ) : Except Stop ℤ :=
  if isizeMin ≤ x ∧ x ≤ isizeMax then .ok x else .error .overflow

def refuseUnless (condition : Prop) [Decidable condition] : Except Stop Unit :=
  if condition then .ok () else .error .never

/-- The number of steps that takes a linked axis back to its anchor, which has to be the one
that is known already. -/
def linkedRepetitionCount (relation : AxisRelation) (translation : ℤ) (count : Option ℤ) :
    Except Stop (Option ℤ) :=
  match relation with
  | .unlinked _ _ => .ok count
  | .linked offset _ =>
    if translation = 0 then do
      refuseUnless (offset = 0)
      pure count
    else do
      let required ← checked (-offset)
      refuseUnless (required.tmod translation = 0)
      let required := required.tdiv translation
      refuseUnless (1 ≤ required ∧ ∀ c ∈ count, c = required)
      pure (some required)

/-- Restricts the number of steps `n` to those with `lower` below `upper`, each a line in `n`
with its slope and its intercept. -/
def constrainStrictInequality (lower upper : ℤ × ℤ) (bounds : ℤ × ℤ) : Except Stop (ℤ × ℤ) := do
  let slope ← checked (lower.1 - upper.1)
  let intercept ← checked (upper.2 - lower.2)
  if slope = 0 then
    refuseUnless (0 < intercept)
    pure bounds
  else if 0 < slope then
    let numerator ← checked (intercept - 1)
    let bounds := (bounds.1, min bounds.2 (numerator / slope))
    refuseUnless (bounds.1 ≤ bounds.2)
    pure bounds
  else
    let divisor ← checked (-slope)
    let numerator ← checked (-intercept)
    let lower ← checked (numerator / divisor + 1)
    let bounds := (max bounds.1 lower, bounds.2)
    refuseUnless (bounds.1 ≤ bounds.2)
    pure bounds

/-- The lines that the guard puts below and above the position at the end of the relation. -/
def guardLines (translation : ℤ) : AxisRange → Except Stop (List (ℤ × ℤ) × List (ℤ × ℤ))
  | none => .ok ([], [])
  | some guard =>
    if 0 ≤ translation then do
      let intercept ← checked (guard.stop + translation)
      pure ([(0, guard.start)], [(-translation, intercept)])
    else do
      let slope ← checked (-translation)
      let intercept ← checked (guard.start + translation)
      pure ([(slope, intercept)], [(0, guard.stop)])

/-- The lines of the anchor that the steps lead back to. -/
def startLines (translation : ℤ) : AxisRange → Except Stop (List (ℤ × ℤ) × List (ℤ × ℤ))
  | none => .ok ([], [])
  | some start => do
    let slope ← checked (-translation)
    pure ([(slope, start.start)], [(slope, start.stop)])

def currentLines : AxisRange → List (ℤ × ℤ) × List (ℤ × ℤ)
  | none => ([], [])
  | some current => ([(0, current.start)], [(0, current.stop)])

/-- Every line of the one list below every line of the other. -/
def constrainAll (lowers uppers : List (ℤ × ℤ)) (bounds : ℤ × ℤ) : Except Stop (ℤ × ℤ) :=
  (lowers.flatMap fun lower => uppers.map fun upper => (lower, upper)).foldlM
    (fun bounds pair => constrainStrictInequality pair.1 pair.2 bounds) bounds

def unlinkedRepetitionBounds (relation : AxisRelation) (translation : ℤ) (guard : AxisRange)
    (bounds : ℤ × ℤ) : Except Stop (ℤ × ℤ) :=
  match relation with
  | .linked _ _ => .ok bounds
  | .unlinked start current => do
    let guardLines ← guardLines translation guard
    let startLines ← startLines translation start
    constrainAll ((currentLines current).1 ++ guardLines.1 ++ startLines.1)
      ((currentLines current).2 ++ guardLines.2 ++ startLines.2) bounds

/-- A range that holds something. -/
def nonemptyRange (start stop : ℤ) : Except Stop AxisRange :=
  if h : start < stop then .ok (some ⟨start, stop, h⟩) else .error .never

/-- The positions of a range from which a shift stays inside. -/
def repeatRange (range : AxisRange) (totalShift : ℤ) : Except Stop AxisRange :=
  match range with
  | none => .ok none
  | some range =>
    if 0 ≤ totalShift then do
      let stop ← checked (range.stop - totalShift)
      nonemptyRange range.start stop
    else do
      let start ← checked (range.start - totalShift)
      nonemptyRange start range.stop

/-- The translation by `count` steps that start inside of the guard. -/
def repeatedTranslation (offset : ℤ × ℤ) (guard : FeasiblePosition) (count : ℤ) :
    Except Stop PositionRelationSet := do
  let repetitions ← checked (count - 1)
  let arrayShift ← checked (offset.1 * repetitions)
  let packedShift ← checked (offset.2 * repetitions)
  let arrayStart ← repeatRange guard.array arrayShift
  let packedStart ← repeatRange guard.packed packedShift
  let arrayOffset ← checked (offset.1 * count)
  let packedOffset ← checked (offset.2 * count)
  pure ⟨[⟨.linked arrayOffset arrayStart, .linked packedOffset packedStart⟩]⟩

/-- The number of steps that is tried for a piece. -/
def repetitionCount (piece : RelationPiece) (offset : ℤ × ℤ) (guard : FeasiblePosition) :
    Except Stop ℤ := do
  let exactCount ← linkedRepetitionCount piece.array offset.1 none
  let exactCount ← linkedRepetitionCount piece.packed offset.2 exactCount
  match exactCount with
  | some count => pure count
  | none =>
    let bounds ← unlinkedRepetitionBounds piece.array offset.1 guard.array (1, isizeMax)
    let bounds ← unlinkedRepetitionBounds piece.packed offset.2 guard.packed bounds
    refuseUnless (bounds.1 ≤ bounds.2)
    pure bounds.1

namespace PositionRelationSet

def closesAfterTranslationCount (set : PositionRelationSet) (offset : ℤ × ℤ)
    (guard : FeasiblePosition) (count : ℤ) (budget : SearchBudget) : Bool × SearchBudget :=
  match repeatedTranslation offset guard count with
  | .error _ => (false, budget)
  | .ok translation =>
    let (paid, budget) := budget.spend (set.pieces.length * translation.pieces.length + 1)
    if !paid then (false, budget)
    else
      let (composed, budget) := set.andThen translation budget
      (composed.intersectsIdentity, budget)

/-- Tries the pieces with the guards until one closes. -/
def closesAnyOf (set : PositionRelationSet) (offset : ℤ × ℤ) :
    List (RelationPiece × FeasiblePosition) → SearchBudget → Bool × SearchBudget
  | [], budget => (false, budget)
  | (piece, guard) :: rest, budget =>
    let (paid, budget) := budget.spend 1
    if !paid then (false, budget)
    else
      match repetitionCount piece offset guard with
      | .error _ => set.closesAnyOf offset rest budget
      | .ok count =>
        let (closes, budget) := set.closesAfterTranslationCount offset guard count budget
        if closes then (true, budget) else set.closesAnyOf offset rest budget

def closesAfterRepeatingTranslation (set : PositionRelationSet) (offset : ℤ × ℤ)
    (guards : List FeasiblePosition) (budget : SearchBudget) : Bool × SearchBudget :=
  set.closesAnyOf offset (set.pieces.flatMap fun piece => guards.map fun guard => (piece, guard))
    budget

end PositionRelationSet
end Veryl.Analyzer.CombLoopDetect
