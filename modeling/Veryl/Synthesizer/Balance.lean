import Veryl.Synthesizer.PostPassCounts

/-!
Chains of one associative operator rebuilt as trees of least depth: the two operands that arrive
first are paired, again and again.
-/

namespace Veryl.Synthesizer

/-- Narrower chains are left to the compound gates. -/
def minChainLeaves : ℕ := 8

/-- The level of a net that is not resolved yet. -/
def unvisited : ℕ := 2 ^ 32 - 1

/-- One gate after the latest input; a buffer is a wire. -/
def arrival (c : Cell) (level : NetId → ℕ) : ℕ :=
  (c.inputs.map level).foldr max 0 + if c.kind = .buf then 0 else 1

def levelAt (level : NetId → Option ℕ) (n : NetId) : ℕ := (level n).getD unvisited

/-- Resolves what is on the stack, inputs first; none if that takes more than the
turns. -/
def levelsFrom (m : GateModule) : ℕ → (NetId → Option ℕ) → List NetId → Option (NetId → Option ℕ)
  | _, level, [] => some level
  | 0, _, _ :: _ => none
  | turns + 1, level, net :: stack =>
    match m.driverCell net with
    | none => levelsFrom m turns (Function.update level net (some 0)) stack
    | some (_, c) =>
      match c.inputs.find? fun inp => (level inp).isNone with
      | some inp => levelsFrom m turns level (inp :: net :: stack)
      | none =>
        levelsFrom m turns (Function.update level net (some (arrival c (levelAt level)))) stack

def levelsVisit (m : GateModule) (turns : ℕ) (level : NetId → Option ℕ) (start : NetId) :
    Option (NetId → Option ℕ) :=
  if (level start).isSome then some level else levelsFrom m turns level [start]

/-- The longest path of gates to every net; none if a walk takes more than the
turns. -/
def computeLevels (turns : ℕ) (m : GateModule) : Option (NetId → ℕ) :=
  ((List.range m.nets.length).foldlM (levelsVisit m turns) fun _ => none).map levelAt

/-- The sole reader of a net is only meaningful for a net that a single cell
reads. The source counts in 32 bits; here no net has 2 ^ 32 readers. -/
structure Fanout where
  count : NetId → ℕ
  consumerCell : NetId → Option ℕ
  nonCell : NetId → Bool

def readBy (m : GateModule) (n : NetId) (i : ℕ) : Bool :=
  match m.cells[i]? with
  | some c => c.inputs.contains n
  | none => false

def computeFanout (m : GateModule) : Fanout where
  count n := m.reads.count n
  consumerCell n := ((List.range m.cells.length).filter (readBy m n)).getLast?
  nonCell n := m.endpointNets.contains n

namespace Fanout

variable (fanout : Fanout)

/-- The driver of a net is a cell of the chain that nothing else observes. -/
def producerDissolvable (m : GateModule) (net : NetId) (kind : CellKind) : Bool :=
  if fanout.count net ≠ 1 ∨ fanout.nonCell net = true then false
  else
    match m.driverCell net with
    | some (_, d) => d.kind = kind
    | none => false

/-- An enclosing chain will collect the cell. -/
def isInteriorNode (m : GateModule) (i : ℕ) : Bool :=
  match m.cells[i]? with
  | some c =>
    if fanout.count c.output ≠ 1 ∨ fanout.nonCell c.output = true then false
    else
      match (fanout.consumerCell c.output).bind fun j => m.cells[j]? with
      | some consumer => consumer.kind = c.kind
      | none => false
  | none => false

/-- The leaves of a chain, collected from the stack; none if that takes more than
the turns. -/
def collectLeaves (m : GateModule) (kind : CellKind) : ℕ → List NetId → List NetId →
    Option (List NetId)
  | _, [], leaves => some leaves
  | 0, _ :: _, _ => none
  | turns + 1, net :: stack, leaves =>
    match fanout.producerDissolvable m net kind, m.driverCell net with
    | true, some (_, d) => collectLeaves m kind turns (d.inputs.reverse ++ stack) leaves
    | _, _ => collectLeaves m kind turns stack (leaves ++ [net])

end Fanout

/-- Heap order: earlier levels first, then lower nets. -/
def arrivesBefore (a b : ℕ × NetId) : Bool := a.1 < b.1 || (a.1 = b.1 && (a.2 : ℕ) ≤ b.2)

/-- A heap in the order its entries are popped. -/
def toHeap (entries : List (ℕ × NetId)) : List (ℕ × NetId) := entries.mergeSort arrivesBefore

/-- Pairs the two earliest entries; the last pair goes to the root. -/
def mergeHeap (kind : CellKind) (root : ℕ) : ℕ → GateModule → List (ℕ × NetId) → GateModule
  | remaining + 1, m, (la, na) :: (lb, nb) :: heap =>
    if remaining = 0 then m.setCell root kind [na, nb]
    else
      mergeHeap kind root remaining (m.mkCell kind [na, nb]).1
        (toHeap ((max la lb + 1, (m.mkCell kind [na, nb]).2) :: heap))
  | _, m, _ => m

/-- Rebuilds the chain of a root, and whether it did. -/
def rebalanceChain (turns : ℕ) (fanout : Fanout) (level : NetId → ℕ) (m : GateModule) (root : ℕ) :
    Option (GateModule × Bool) :=
  match m.cells[root]? with
  | some c =>
    (fanout.collectLeaves m c.kind turns c.inputs.reverse []).map fun leaves =>
      if leaves.length < minChainLeaves then (m, false)
      else
        (mergeHeap c.kind root (leaves.length - 1) m (toHeap (leaves.map fun n => (level n, n))), true)
  | none => some (m, false)

def isChainRoot (m : GateModule) (i : ℕ) : Bool :=
  match m.cells[i]? with
  | some c => isAssoc c.kind && !(computeFanout m).isInteriorNode m i
  | none => false

/-- The roots, taken before anything changes. -/
def chainRoots (m : GateModule) : List ℕ := (List.range m.cells.length).filter (isChainRoot m)

def rebalanceVisit (turns : ℕ) (fanout : Fanout) (level : NetId → ℕ) (st : GateModule × Bool)
    (root : ℕ) : Option (GateModule × Bool) :=
  (rebalanceChain turns fanout level st.1 root).map fun out => (out.1, st.2 || out.2)

/-- Rebuilds every wide chain, and whether there was one; none if a walk takes
more than the turns. -/
def balanceAssocChains (turns : ℕ) (m : GateModule) : Option (GateModule × Bool) :=
  (computeLevels turns m).bind fun level =>
    (chainRoots m).foldlM (rebalanceVisit turns (computeFanout m) level) (m, false)

end Veryl.Synthesizer
