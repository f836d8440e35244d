import Veryl.Analyzer.Span
import Veryl.Analyzer.CombLoopDetect.Relation
import Veryl.Analyzer.CombLoopDetect.PathCondition
import Veryl.Library.Closure

/-!
Module summaries: the part of a dependency graph between its boundary nodes,
with copies in series left out.
-/

namespace Veryl.Analyzer.CombLoopDetect

open Veryl.Library

structure SummaryRegion where
  id : ℕ
  array : ArraySpan
  packed : PackedSpan
  deriving DecidableEq, Repr

structure GraphNode where
  region : SummaryRegion
  domains : List PositionDomain
  deriving DecidableEq

/-- An edge between nodes given by their indices, with its operation and guard. -/
structure GraphEdge where
  source : ℕ
  target : ℕ
  kind : BitDependency
  condition : PathCondition
  deriving DecidableEq

def BitDependency.identity : BitDependency := ⟨some 0, some 0⟩

def PathCondition.isUnconditional (p : PathCondition) : Bool := p.constraints.isEmpty

structure DependencyGraph where
  nodes : List GraphNode
  edges : List GraphEdge
  source_lt : ∀ e ∈ edges, e.source < nodes.length
  target_lt : ∀ e ∈ edges, e.target < nodes.length

inductive SummaryNodeKind where
  | input | output | interface | internal
  deriving DecidableEq, Repr

structure SummaryNode where
  region : SummaryRegion
  domains : List PositionDomain
  kind : SummaryNodeKind
  deriving DecidableEq

structure ModuleCombSummary where
  nodes : List SummaryNode
  edges : List GraphEdge
  complete : Bool

/-- The edges of a node, the latest first. -/
def outgoing (edges : List GraphEdge) (node : ℕ) : List GraphEdge :=
  (edges.filter fun e => e.source = node).reverse

def incoming (edges : List GraphEdge) (node : ℕ) : List GraphEdge :=
  (edges.filter fun e => e.target = node).reverse

namespace DependencyGraph

variable (g : DependencyGraph)

def domains (node : ℕ) : List PositionDomain := (g.nodes[node]?.map (·.domains)).getD []

/-- The nodes reachable from the seeds along or against the edges. -/
def reachable (seeds : List ℕ) (forward : Bool) : List ℕ :=
  closeLoop (fun node => if forward then (outgoing g.edges node).map (·.target)
    else (incoming g.edges node).map (·.source)) g.nodes.length (seeds, seeds)

section Summarize

-- what each node stands for at the boundary, and the strongly connected
-- components of a graph given by its nodes and edges
variable (kind : ℕ → SummaryNodeKind) (scc : List ℕ → List GraphEdge → List (List ℕ))

def sources : List ℕ :=
  (List.range g.nodes.length).filter fun n => kind n = .input ∨ kind n = .interface

def destinations : List ℕ :=
  (List.range g.nodes.length).filter fun n => kind n = .output ∨ kind n = .interface

/-- The nodes between the boundaries, each under its index in the graph. -/
def retainedNodes : List ℕ :=
  (List.range g.nodes.length).filter fun n =>
    n ∈ g.reachable (g.sources kind) true ∧ n ∈ g.reachable (g.destinations kind) false

def retainedEdges : List GraphEdge :=
  g.edges.filter fun e => e.source ∈ g.retainedNodes kind ∧ e.target ∈ g.retainedNodes kind

/-- The nodes of the components with a cycle. -/
def cyclic : List ℕ :=
  (scc (g.retainedNodes kind) (g.retainedEdges kind)).flatMap fun component =>
    if 1 < component.length ∨ component.head?.any fun n =>
      (outgoing (g.retainedEdges kind) n).any fun e => e.target = n
    then component else []

/-- Whether a copy repeats bounds its only predecessor enforces. -/
def redundantDomain (node : ℕ) : Bool :=
  (g.domains node).isEmpty || ((incoming (g.retainedEdges kind) node).length = 1 &&
      (incoming (g.retainedEdges kind) node).head?.any fun e =>
        e.kind = .identity && g.domains node = g.domains e.source)

def kept (node : ℕ) : Bool :=
  let incoming := incoming (g.retainedEdges kind) node
  let outgoing := outgoing (g.retainedEdges kind) node
  let transparent := outgoing.head?.any fun e =>
    e.kind = .identity && e.condition.isUnconditional
  kind node ≠ .internal || node ∈ g.cyclic kind scc || !g.redundantDomain kind node ||
    incoming.length ≠ 1 || outgoing.length ≠ 1 || !transparent

def keptNodes : List ℕ := (g.retainedNodes kind).filter (g.kept kind scc)

/-- Follows omitted nodes to the next kept one. -/
def follow : ℕ → ℕ → Option ℕ
  | 0, node => if node ∈ g.keptNodes kind scc then some node else none
  | turns + 1, node =>
    if node ∈ g.keptNodes kind scc then some node
    else do
      let next ← (outgoing (g.retainedEdges kind) node).head?
      follow turns next.target

/-- The order of the edges of a summary. -/
def edgeKey (e : GraphEdge) : ℕ ×ₗ ℕ ×ₗ (WithBot ℤ ×ₗ WithBot ℤ) ×ₗ PathCondition :=
  toLex (e.source, toLex (e.target, toLex (toLex (e.kind.array, e.kind.packed), e.condition)))

def summaryNode (n : ℕ) : Option SummaryNode :=
  g.nodes[n]?.map fun node => ⟨node.region, node.domains, kind n⟩

def summarizeGraph : Option ModuleCombSummary := do
  let kept := g.keptNodes kind scc
  let edges ← (kept.flatMap (outgoing (g.retainedEdges kind))).mapM fun e => do
    let node ← g.follow kind scc (g.retainedNodes kind).length e.target
    pure ⟨kept.idxOf e.source, kept.idxOf node, e.kind, e.condition⟩
  pure {
    nodes := kept.filterMap (g.summaryNode kind)
    edges := (edges.insertionSort fun e e' => edgeKey e ≤ edgeKey e').dedup
    complete := true }

end Summarize
end DependencyGraph
end Veryl.Analyzer.CombLoopDetect
