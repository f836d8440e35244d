import Veryl.Analyzer.CombLoopDetect.Ssa.Log

/-!
Statement-ordered SSA state: versions in the order they are made, the indexed
write histories of some of them, and whether they may still hold an entry value.
-/

namespace Veryl.Analyzer.CombLoopDetect

inductive Version (K : Type) where
  | entry (key : K)
  | definition
  | phi (inputs : List VersionId)
  | guarded (source : VersionId)
  | imported
  | projected
  | replicated
  /-- A write: positions come from `above`, and `below` remains at the `retained`
  ones, all of them for a weak write. -/
  | overlay (below : VersionId) (retained : Option (List PositionDomain)) (above : VersionId)
  | restricted (source : VersionId) (domain : PositionDomain)
  deriving DecidableEq

structure Store (K : Type) where
  versions : List (Version K)
  /-- The indexed write histories of overlay versions and joins. -/
  logs : List (VersionId × ℕ)
  nodes : Logs
  /-- Versions below this are opaque to regional reads. -/
  logFloor : VersionId
  /-- Whether a version may still hold an entry value. -/
  retainsEntry : List Bool

namespace Store

variable {K : Type}

def empty : Store K := ⟨[], [], [], 0, []⟩

def mayRetainEntry (st : Store K) (version : VersionId) : Bool :=
  st.retainsEntry[version]?.getD false

def pushVersion (st : Store K) (version : Version K) : Store K :=
  let retains := match version with
    | .entry _ | .imported => true
    | .phi inputs => inputs.any st.mayRetainEntry
    | .overlay below _ above => st.mayRetainEntry below || st.mayRetainEntry above
    | .guarded source | .restricted source _ => st.mayRetainEntry source
    | .definition | .projected | .replicated => false
  { st with
    versions := st.versions ++ [version]
    retainsEntry := st.retainsEntry ++ [retains] }

/-- The log of a version, a new one unless it has a visible history. -/
def log (st : Store K) (nodes : Logs) (version : VersionId) : ℕ × Logs :=
  match lookup st.logs version with
  | some n => if st.logFloor ≤ version then (n, nodes) else nodes.root version
  | none => nodes.root version

/-- Writes `above` at a region over `below`. -/
def overlay (st : Store K) (below above : VersionId) (region extent : PositionDomain)
    (strong : Bool) : VersionId × Store K :=
  let retained := if strong then some (complement extent region) else none
  if retained = some [] then (above, st)
  else
    let (log, nodes) := st.log st.nodes below
    let (log, nodes) := nodes.push log (.write region above strong)
    let version := st.versions.length
    (version, { st.pushVersion (.overlay below retained above) with
      nodes := nodes
      logs := (version, log) :: st.logs })

/-- Joins values; a single one is its own join. -/
def phi (st : Store K) (inputs : List VersionId) : VersionId × Store K :=
  match (inputs.insertionSort (· ≤ ·)).dedup with
  | [input] => (input, st)
  | inputs => (st.versions.length, st.pushVersion (.phi inputs))

/-- The logs of the branches of a join. -/
def branchLogs (st : Store K) : Logs → List VersionId → List ℕ × Logs
  | nodes, [] => ([], nodes)
  | nodes, input :: inputs =>
    let (branch, nodes) := st.log nodes input
    let (branches, nodes) := branchLogs st nodes inputs
    (branch :: branches, nodes)

/-- The joined log of some inputs that all started from a fallback. -/
def mergeLog (st : Store K) (inputs : List VersionId) (fallback : VersionId) : Option (ℕ × Logs) :=
  if inputs.any fun input => (lookup st.logs input).isSome then
    let (common, nodes) := st.log st.nodes fallback
    let (branches, nodes) := st.branchLogs nodes inputs
    nodes.merge common branches
  else none

/-- Merges the values of one key: those bound by some of the branch states, and
the current one unless all states bind it. -/
def merge (st : Store K) (bound : List VersionId) (stateCount : ℕ) (fallback : VersionId) :
    VersionId × Store K :=
  let inputs := if bound.length < stateCount then bound ++ [fallback] else bound
  let (version, joined) := st.phi inputs
  match st.mergeLog inputs fallback with
  | some (log, nodes) =>
    if st.versions.length ≤ version then
      (version, { joined with nodes := nodes, logs := (version, log) :: joined.logs })
    else (version, joined)
  | none => (version, joined)

/-- A step of evaluation; versions are named by their index. -/
inductive Op (K : Type) where
  /-- Any version but an overlay or a join. -/
  | make (version : Version K)
  | phi (inputs : List VersionId)
  | overlay (below above : VersionId) (region extent : PositionDomain) (strong : Bool)
  | merge (bound : List VersionId) (stateCount : ℕ) (fallback : VersionId)
  | raiseLogFloor
  | restoreLogFloor (floor : VersionId)

/-- Makes a step; a version that was not made before is an index error. -/
def step (st : Store K) : Op K → Option (Store K)
  | .make (.overlay ..) | .make (.phi _) => none
  | .make (.guarded source) =>
    if source < st.versions.length then some (st.pushVersion (.guarded source)) else none
  | .make (.restricted source domain) =>
    if source < st.versions.length then some (st.pushVersion (.restricted source domain)) else none
  | .make version => some (st.pushVersion version)
  | .phi inputs =>
    if inputs.all (· < st.versions.length) then some (st.phi inputs).2 else none
  | .overlay below above region extent strong =>
    if below < st.versions.length ∧ above < st.versions.length then
      some (st.overlay below above region extent strong).2
    else none
  | .merge bound stateCount fallback =>
    if bound.all (· < st.versions.length) ∧ fallback < st.versions.length then
      some (st.merge bound stateCount fallback).2
    else none
  | .raiseLogFloor => some { st with logFloor := st.versions.length }
  | .restoreLogFloor floor => some { st with logFloor := floor }

def run (ops : List (Op K)) : Option (Store K) := ops.foldlM step empty

end Store
end Veryl.Analyzer.CombLoopDetect
