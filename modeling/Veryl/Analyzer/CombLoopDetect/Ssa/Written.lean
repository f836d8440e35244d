import Veryl.Analyzer.CombLoopDetect.Ssa.Store
import Veryl.Analyzer.CombLoopDetect.DagBuilder

/-!
The positions that a version writes, from the joins and the write histories below it.
-/

namespace Veryl.Analyzer.CombLoopDetect

open Veryl.Library

/-- Positions definitely written, and positions possibly written only. -/
abbrev Regions := List PositionDomain × List PositionDomain

/-- A version and the region to find its writes in. -/
abbrev Part := VersionId × PositionDomain

/-- How a version supplies a region. -/
inductive WrittenParts where
  /-- The inputs of a join without a write history. -/
  | join (inputs : List Part)
  /-- Positions that still hold the entry value, those supplied by the version
  below the history, and its writes. -/
  | logged (entry : List PositionDomain) (below : List Part) (writes : List Piece)
  | leaf

def WrittenParts.dependencies : WrittenParts → List Part
  | .join inputs => inputs
  | .logged _ below _ => below
  | .leaf => []

/-- The regions of the parts that are done. -/
abbrev Written := List (Part × Regions)

/-- The regions of a part; it is done before it is looked up. -/
def Written.regions (results : Written) (part : Part) : Regions :=
  (lookup results part).getD ([], [])

def sortRegions (regions : List PositionDomain) : List PositionDomain :=
  (regions.insertionSort fun a b => a.startKey ≤ b.startKey).dedup

namespace Store

variable {K : Type}

def isEntry (st : Store K) (version : VersionId) : Bool :=
  match st.versions[version]? with
  | some (.entry _) => true
  | _ => false

/-- The write history of a version that regional reads see. -/
def visibleLog (st : Store K) (version : VersionId) : Option ℕ :=
  (lookup st.logs version).filter fun _ => st.logFloor ≤ version

def writtenParts (st : Store K) (walkTurns : ℕ) (part : Part) : Metered ℕ WrittenParts :=
  match st.visibleLog part.1 with
  | none => pure (match st.versions[part.1]? with
    | some (.phi inputs) => .join (inputs.map fun input => (input, part.2))
    | _ => .leaf)
  | some log => do
    let base := (st.nodes.node log).base
    let pieces ← st.nodes.resolve walkTurns log part.2
    let bottom := (pieces.filter fun piece => piece.version = base).map (·.domain)
    let writes := pieces.filter fun piece => piece.version ≠ base
    pure (if st.isEntry base then .logged bottom [] writes
      else .logged [] (bottom.map fun domain => (base, domain)) writes)

/-- A version that is not a join and has no history writes all of the region,
possibly so when it may still hold the entry value. -/
def leafWrittenRegions (st : Store K) (part : Part) (fresh : Bool) : Regions :=
  if st.isEntry part.1 then ([], [])
  else if !fresh && st.mayRetainEntry part.1 then ([], [part.2])
  else ([part.2], [])

/-- Takes over what the version below a history writes, and keeps the rest. -/
def takeBelow (results : Written) (taken : Regions × Fragments) (part : Part) :
    Metered ℕ (Regions × Fragments) := do
  let regions := results.regions part
  pay (regions.1.length + regions.2.length)
  let unwritten := complementAll [part.2] regions.1
  pure ((taken.1.1 ++ regions.1, taken.1.2 ++ regions.2), unwritten.foldl Fragments.insert taken.2)

/-- Cuts a written piece along the positions that may keep the entry value. -/
def takeWrite (kept : Fragments) (regions : Regions) (piece : Piece) : Metered ℕ Regions := do
  let found ← kept.overlapping piece.domain
  let (parts, maybe) := found.foldl (fun (parts, maybe) box =>
    (parts.flatMap fun part => complement part box,
      maybe ++ parts.filterMap fun part => intersection part box)) ([piece.domain], regions.2)
  pure (regions.1 ++ parts, maybe)

/-- The regions of a write history: the writes over the positions that still hold
the entry value or what the version below writes there. -/
def loggedWrittenRegions (st : Store K) (entry : List PositionDomain) (below : List Part)
    (writes : List Piece) (results : Written) (fresh : Bool) : Metered ℕ Regions := do
  let (regions, kept) ← below.foldlM (takeBelow results)
    (([], []), entry.foldl Fragments.insert Fragments.empty)
  let retains := fun piece : Piece => !fresh && st.mayRetainEntry piece.version
  let maybe := regions.2 ++ (writes.filter retains).map (·.domain)
  (writes.filter fun piece => !retains piece).foldlM (takeWrite kept) (regions.1, maybe)

/-- Intersects the definite regions of the inputs and collects all of them. -/
def joinInput (joined : Option (List PositionDomain) × List PositionDomain) (input : Regions) :
    Metered ℕ (Option (List PositionDomain) × List PositionDomain) := do
  pay (input.1.length + input.2.length + 1)
  let touched := joined.2 ++ input.1 ++ input.2
  match joined.1 with
  | none => pure (some input.1, touched)
  | some definite => do
    pay (definite.length * input.1.length)
    pure (some (definite.flatMap fun left => input.1.filterMap (intersection left)), touched)

/-- A position is definitely written by a join only where every input does. -/
def joinedWrittenRegions (inputs : List Regions) : Metered ℕ Regions := do
  let (definite, touched) ← inputs.foldlM joinInput (none, [])
  let definite := definite.getD []
  let maybe ← touched.foldlM (fun maybe part => do
    pay (definite.length + 1)
    pure (maybe ++ complementAll [part] definite)) []
  pure (sortRegions definite, sortRegions maybe)

/-- The regions of a part whose dependencies are done. -/
def regionsOf (st : Store K) (fresh : Bool) (part : Part) (results : Written) :
    WrittenParts → Metered ℕ Regions
  | .join inputs => joinedWrittenRegions (inputs.map results.regions)
  | .logged entry below writes => st.loggedWrittenRegions entry below writes results fresh
  | .leaf => pure (st.leafWrittenRegions part fresh)

/-- Visits the parts of the stack after those they depend on. -/
def settle (st : Store K) (walkTurns : ℕ) (fresh : Bool) :
    ℕ → List Part → Written → Metered ℕ Written
  | _, [], results => pure results
  | 0, _ :: _, _ => fun _ => none
  | turns + 1, part :: stack, results =>
    if (lookup results part).isSome then settle st walkTurns fresh turns stack results
    else do
      pay 1
      let parts ← st.writtenParts walkTurns part
      let missing := parts.dependencies.filter fun dependency => (lookup results dependency).isNone
      if missing.isEmpty = false then
        settle st walkTurns fresh turns (missing.reverse ++ part :: stack) results
      else do
        let regions ← st.regionsOf fresh part results parts
        settle st walkTurns fresh turns stack ((part, regions) :: results)

/-- The positions of an extent that a version definitely overwrites with respect to
the entry value, and those it may overwrite only. -/
def writtenRegions (st : Store K) (walkTurns turns : ℕ) (version : VersionId)
    (extent : PositionDomain) (fresh : Bool) : Metered ℕ Regions := do
  let results ← st.settle walkTurns fresh turns [(version, extent)] []
  match lookup results (version, extent) with
  | none => fun _ => none
  | some regions => pure regions

end Store
end Veryl.Analyzer.CombLoopDetect
