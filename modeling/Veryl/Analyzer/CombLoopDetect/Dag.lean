import Veryl.Analyzer.CombLoopDetect.Relation
import Veryl.Analyzer.CombLoopDetect.PathCondition
import Veryl.Library.Closure
import Veryl.Library.Metered

/-!
Shared dependency graphs. A builder keeps one node for equal operations, drops
aliases and merges nested repetitions; imports of a graph under equal bindings
share their nodes.
-/

namespace Veryl.Analyzer.CombLoopDetect

open Veryl.Library

/-- How an input moves a position; `none` forgets it. -/
abbrev PositionRelation := BitDependency

def PositionRelation.identity : PositionRelation := ⟨some 0, some 0⟩

/-- A condition as the list of its constraints. Renamed branches may coincide,
so a branch can be constrained more than once. -/
abbrev Guard := List BranchConstraint

/-- Zero or more positive translations along one axis. -/
structure Replication where
  axis : Axis
  stride : ℕ
  pos : 0 < stride
  deriving DecidableEq

inductive DependencyDagNode (K : Type) where
  | external (key : K)
  | internal
  | replicated (replication : Replication)
  deriving DecidableEq

structure DependencyDagEdge where
  source : ℕ
  destination : ℕ
  relation : PositionRelation
  condition : Guard

structure DefinitionSite where
  token : ℕ
  dataInputs : List ℕ
  deriving DecidableEq

structure DependencyDag (K : Type) where
  nodes : List (DependencyDagNode K)
  edges : List DependencyDagEdge
  domains : List (List PositionDomain)
  sites : List (ℕ × DefinitionSite)

/-- The nodes of a graph are listed after their inputs. -/
structure DependencyDag.Ordered {K : Type} (g : DependencyDag K) : Prop where
  domains : g.domains.length = g.nodes.length
  forward : ∀ e ∈ g.edges, e.source < e.destination ∧ e.destination < g.nodes.length

def DependencyDag.domain {K : Type} (g : DependencyDag K) (n : ℕ) : List PositionDomain :=
  g.domains[n]?.getD []

def DependencyDag.incoming {K : Type} (g : DependencyDag K) (n : ℕ) : List DependencyDagEdge :=
  g.edges.filter fun e => e.destination = n

/-- A value looked up in a map that is the list of its entries, the latest first. -/
def lookup {α β : Type} [DecidableEq α] (entries : List (α × β)) (key : α) : Option β :=
  (entries.find? fun e => e.1 = key).map (·.2)

/-- A branch renamed by an import. -/
def renamed (branches : List (BranchId × BranchId)) (b : BranchId) : BranchId :=
  (lookup branches b).getD b

def Guard.remapped (branches : List (BranchId × BranchId)) (guard : Guard) : Guard :=
  (guard.map fun c => ⟨renamed branches c.branch, c.allowed⟩).insertionSort fun c d =>
    c.branch ≤ d.branch

def Guard.workSize (guard : Guard) : ℕ := (guard.map fun c => max c.allowed.ranges.length 1).sum

/-- An input of an operation: its node, how positions move, and its guard. -/
abbrev Input := ℕ × PositionRelation × Guard

/-- The order of inputs. -/
def Input.key (i : Input) : ℕ ×ₗ (WithBot ℤ ×ₗ WithBot ℤ) ×ₗ List BranchConstraint :=
  toLex (i.1, toLex (toLex (i.2.1.array, i.2.1.packed), i.2.2))

/-- The order of domains. -/
def PositionDomain.key (d : PositionDomain) : ℕ ×ₗ ℕ ×ₗ ℕ ×ₗ ℕ :=
  toLex (d.arrayStart, toLex (d.arrayLength, toLex (d.packedStart, d.packedLength)))

structure InternalNode where
  inputs : List Input
  domains : List PositionDomain
  site : Option DefinitionSite
  replication : Option Replication
  deriving DecidableEq

structure Builder (K : Type) where
  graph : DependencyDag K
  interned : List (InternalNode × ℕ)
  /-- The seeds of the repetitions of one unchanged input. -/
  replicatedSources : List (ℕ × ℕ)

namespace Builder

variable {K : Type}

def empty : Builder K := ⟨⟨[], [], [], []⟩, [], []⟩

def external (b : Builder K) (key : K) : ℕ × Builder K :=
  (b.graph.nodes.length, { b with graph := { b.graph with
    nodes := b.graph.nodes ++ [.external key]
    domains := b.graph.domains ++ [[]] } })

/-- The source of an unconditional identity without a boundary of its own. -/
def aliasOf (b : Builder K) (key : InternalNode) : Option ℕ :=
  match key.replication, key.site, key.inputs with
  | none, none, [(source, relation, condition)] =>
    if relation = .identity ∧ condition = [] ∧
        (key.domains = [] ∨ key.domains = b.graph.domain source)
    then some source else none
  | _, _, _ => none

/-- The seed and the replication of adjacent whole blocks of a repetition. -/
def collapsed (b : Builder K) (key : InternalNode) : Option (ℕ × Replication) :=
  match key.replication, key.site, key.inputs, key.domains with
  | some ⟨.packed, stride, _⟩, none, [(source, relation, condition)], [outer] => do
    let seed ← lookup b.replicatedSources source
    match b.graph.nodes[source]?, b.graph.domain source with
    | some (.replicated ⟨.packed, inner, pos⟩), [block] =>
      if relation = .identity ∧ condition = [] ∧ lookup b.graph.sites source = none ∧
          b.graph.domain seed ≠ [] ∧
          (∀ d ∈ b.graph.domain seed, d.packedStart + d.packedLength ≤ inner) ∧
          block.arrayStart = outer.arrayStart ∧ block.arrayLength = outer.arrayLength ∧
          block.packedStart = 0 ∧ outer.packedStart = 0 ∧
          block.packedLength = stride ∧ inner ∣ block.packedLength
      then some (seed, ⟨.packed, inner, pos⟩) else none
    | _, _ => none
  | _, _, _, _ => none

/-- Appends a node for an operation. -/
def push (b : Builder K) (key : InternalNode) : Builder K :=
  let node := b.graph.nodes.length
  { graph := {
      nodes := b.graph.nodes ++ [match key.replication with
        | some replication => .replicated replication
        | none => .internal]
      domains := b.graph.domains ++ [key.domains]
      edges := b.graph.edges ++ key.inputs.map fun i => ⟨i.1, node, i.2.1, i.2.2⟩
      sites := match key.site with
        | some site => (node, site) :: b.graph.sites
        | none => b.graph.sites }
    interned := (key, node) :: b.interned
    replicatedSources := match key.replication, key.inputs with
      | some _, [(source, relation, condition)] =>
        if relation = .identity ∧ condition = [] then (node, source) :: b.replicatedSources
        else b.replicatedSources
      | _, _ => b.replicatedSources }

def operation (b : Builder K) (inputs : List Input) (domains : List PositionDomain)
    (site : Option DefinitionSite) (replication : Option Replication) : ℕ × Builder K :=
  let key : InternalNode := {
    inputs := (inputs.insertionSort fun i j => i.key ≤ j.key).dedup
    domains := (domains.insertionSort fun d e => d.key ≤ e.key).dedup
    site := site.map fun s => { s with dataInputs := (s.dataInputs.insertionSort (· ≤ ·)).dedup }
    replication := replication }
  match b.aliasOf key with
  | some source => (source, b)
  | none =>
    let key := match b.collapsed key with
      | some (seed, replication) =>
        { key with inputs := [(seed, .identity, [])], replication := some replication }
      | none => key
    match lookup b.interned key with
    | some node => (node, b)
    | none => (b.graph.nodes.length, b.push key)

end Builder

/-- The sources bound to each key, in the order of the keys. -/
abbrev Bindings (K : Type) := List (K × List (ℕ × PositionRelation))

structure InvocationKey (K : Type) where
  graph : ℕ
  bindings : Bindings K
  branches : List (BranchId × BranchId)
  deriving DecidableEq

structure Invocation (K : Type) where
  bindings : Bindings K
  /-- The node of each imported child. -/
  mapped : List (ℕ × ℕ)

structure Imports (K : Type) where
  /-- The graphs whose incoming edges are listed. -/
  incoming : List ℕ
  identities : List ((ℕ × ℕ × ℕ) × ℕ)
  equivalent : List (InvocationKey K × ℕ)
  invocations : List (Invocation K)

/-- What the shared pointers point to; the graphs are exported ones. -/
structure Heap (K : Type) where
  graph : ℕ → DependencyDag K
  ordered : ∀ pointer, (graph pointer).Ordered
  bindings : ℕ → Bindings K
  branches : ℕ → List (BranchId × BranchId)

/-- The order of bound sources. -/
def sourceKey (s : ℕ × PositionRelation) : ℕ ×ₗ WithBot ℤ ×ₗ WithBot ℤ :=
  toLex (s.1, toLex (s.2.array, s.2.packed))

namespace Imports

variable {K : Type} [DecidableEq K]

def empty : Imports K := ⟨[], [], [], []⟩

/-- The bindings of a call in terms of the nodes of the builder. -/
def mapBindings (parent : ℕ → Option (Option ℕ)) (bindings : Bindings K) : Bindings K :=
  bindings.map fun b => (b.1, ((b.2.filterMap fun s =>
    (parent s.1).join.map fun n => (n, s.2)).insertionSort
      fun s t => sourceKey s ≤ sourceKey t).dedup)

/-- Whether all sources of a call were mapped before. -/
def mappedBefore (parent : ℕ → Option (Option ℕ)) (bindings : Bindings K) : Bool :=
  bindings.all fun b => b.2.all fun s => (parent s.1).isSome

/-- The invocation of a call: the one of the same pointers, else an equivalent
one, else a new one. -/
def invocation (st : Imports K) (heap : Heap K) (graph bindings branches : ℕ)
    (parent : ℕ → Option (Option ℕ)) : Metered ℕ (ℕ × Imports K) :=
  match lookup st.identities (graph, bindings, branches) with
  | some invocation => pure (invocation, st)
  | none => do
    pay ((heap.bindings bindings).length + (heap.branches branches).length +
      ((heap.bindings bindings).map fun b => b.2.length).sum)
    -- a source that is not mapped yet is an index error
    if !mappedBefore parent (heap.bindings bindings) then fun _ => none
    let key : InvocationKey K :=
      ⟨graph, mapBindings parent (heap.bindings bindings), heap.branches branches⟩
    match lookup st.equivalent key with
    | some invocation => pure (invocation,
        { st with identities := ((graph, bindings, branches), invocation) :: st.identities })
    | none =>
      let invocation := st.invocations.length
      pure (invocation, { st with
        identities := ((graph, bindings, branches), invocation) :: st.identities
        equivalent := (key, invocation) :: st.equivalent
        invocations := st.invocations ++ [⟨key.bindings, []⟩] })

/-- The children a root needs that are not imported yet, in order. -/
def retained (g : DependencyDag K) (mapped : List (ℕ × ℕ)) (root : ℕ) : List ℕ :=
  (closeLoop (fun node => ((g.incoming node).map (·.source)).filter fun source =>
    (lookup mapped source).isNone) g.nodes.length ([root], [root])).insertionSort (· ≤ ·)

/-- Imports one child after its inputs. -/
def importChild (g : DependencyDag K) (bindings : Bindings K)
    (branches : List (BranchId × BranchId))
    (st : Builder K × List (ℕ × ℕ)) (child : ℕ) : Metered ℕ (Builder K × List (ℕ × ℕ)) := do
  let inputs := (g.incoming child).filterMap fun e => (lookup st.2 e.source).map fun source =>
    (source, e.relation, e.condition.remapped branches)
  let bound := match g.nodes[child]? with
    | some (.external key) => (lookup bindings key).getD []
    | _ => []
  pay bound.length
  let inputs := inputs ++ bound.map fun s => (s.1, s.2, [])
  let site := (lookup g.sites child).map fun site =>
    { site with dataInputs := site.dataInputs.filterMap (lookup st.2) }
  let replication := match g.nodes[child]? with
    | some (.replicated replication) => some replication
    | _ => none
  let (node, builder) := st.1.operation inputs (g.domain child) site replication
  pure (builder, (child, node) :: st.2)

def inline (st : Imports K) (builder : Builder K) (heap : Heap K) (graph : ℕ) (root : Option ℕ)
    (bindings branches : ℕ) (parent : ℕ → Option (Option ℕ)) :
    Metered ℕ (Option ℕ × Builder K × Imports K) :=
  match root with
  | none => pure (none, builder, st)
  | some root => do
    let (index, st) ← st.invocation heap graph bindings branches parent
    match st.invocations[index]? with
    | none => fun _ => none
    | some invocation =>
      match lookup invocation.mapped root with
      | some node => pure (some node, builder, st)
      | none => do
        let g := heap.graph graph
        if g.nodes.length ≤ root then fun _ => none
        if graph ∈ st.incoming then pure ()
        else pay (g.nodes.length + g.edges.length)
        let retained := retained g invocation.mapped root
        pay (retained.map fun node => (g.domain node).length + 1 +
          ((g.incoming node).map fun e => e.condition.workSize + 1).sum).sum
        let (builder, mapped) ← retained.foldlM
          (importChild g invocation.bindings (heap.branches branches)) (builder, invocation.mapped)
        pure (lookup mapped root, builder, { st with
          incoming := if graph ∈ st.incoming then st.incoming else graph :: st.incoming
          invocations := st.invocations.set index { invocation with mapped := mapped } })

end Imports

/-- A step of an export: an external key, an operation on the results of earlier
steps, or the import of a root of a graph. -/
inductive Op (K : Type) where
  | external (key : K)
  | operation (inputs : List Input) (domains : List PositionDomain) (site : Option DefinitionSite)
      (replication : Option Replication)
  | inline (graph : ℕ) (root : Option ℕ) (bindings branches : ℕ)

structure Session (K : Type) where
  builder : Builder K
  imports : Imports K
  /-- The node of each step, if it has one. -/
  mapped : List (Option ℕ)

namespace Session

variable {K : Type} [DecidableEq K]

def empty : Session K := ⟨.empty, .empty, []⟩

def step (heap : Heap K) (st : Session K) : Op K → Metered ℕ (Session K)
  | .external key =>
    let (node, builder) := st.builder.external key
    pure ⟨builder, st.imports, st.mapped ++ [some node]⟩
  | .operation inputs domains site replication =>
    if inputs.all fun i => st.mapped[i.1]?.isSome then
      let (node, builder) := st.builder.operation
        (inputs.filterMap fun i => st.mapped[i.1]?.join.map fun n => (n, i.2)) domains site replication
      pure ⟨builder, st.imports, st.mapped ++ [some node]⟩
    else fun _ => none
  | .inline graph root bindings branches => do
    let (node, builder, imports) ← st.imports.inline st.builder heap graph root bindings branches
      fun i => st.mapped[i]?
    pure ⟨builder, imports, st.mapped ++ [node]⟩

def run (heap : Heap K) (ops : List (Op K)) : Metered ℕ (Session K) := ops.foldlM (step heap) empty

end Session
end Veryl.Analyzer.CombLoopDetect
