import Veryl.Library.Cuts
import Veryl.Library.Metered
import Veryl.Analyzer.CombLoopDetect.Summary

/-!
Splitting the nodes of a cyclic component at cuts of their positions.
-/

namespace Veryl.Analyzer.CombLoopDetect

open Veryl.Library List

/-- Half-open bounds of an axis. -/
abbrev AxisBounds := ℤ × ℤ

abbrev Box := Axis → AxisBounds

def Box.of (array packed : AxisBounds) : Box
  | .array => array
  | .packed => packed

/-- The sum, when it is an isize. -/
def checkedAdd (a b : ℤ) : Option ℤ :=
  if -2 ^ 63 ≤ a + b ∧ a + b < 2 ^ 63 then some (a + b) else none

namespace BitDependency

def axis (d : BitDependency) : Axis → Option ℤ
  | .array => d.array
  | .packed => d.packed

/-- Whether a position of `source` can reach one of `destination` on an axis. -/
def mayReach (d : BitDependency) (a : Axis) (source : Box) (destination : AxisBounds) : Bool :=
  match d.axis a with
  | none => true
  | some offset =>
    match checkedAdd (source a).1 offset, checkedAdd (source a).2 offset with
    | some low, some high => low < destination.2 && destination.1 < high
    -- beyond isize the answer stays conservative
    | _, _ => true

/-- The bounds that one axis of a box is moved to. -/
def imageAxis (d : BitDependency) (source : Box) (a : Axis) : Option AxisBounds := do
  let offset ← d.axis a
  let start ← checkedAdd (source a).1 offset
  let stop ← checkedAdd (source a).2 offset
  some (start, stop)

/-- The hull of the positions that a box reaches: `none` when it is unbounded or beyond
isize, `some none` when there are none. -/
def image (d : BitDependency) (source : Box) : Option (Option Box) := do
  let array ← d.imageAxis source .array
  let packed ← d.imageAxis source .packed
  some (some (Box.of array packed))

end BitDependency

def boundsRange (start length : ℕ) : Option AxisBounds :=
  if start < 2 ^ 63 ∧ start + length < 2 ^ 63 then some (start, start + length) else none

def domainBounds (domain : PositionDomain) : Option Box := do
  let array ← boundsRange domain.arrayStart domain.arrayLength
  let packed ← boundsRange domain.packedStart domain.packedLength
  some (Box.of array packed)

def boundsDomain (bounds : Box) : Option PositionDomain :=
  let array := bounds .array
  let packed := bounds .packed
  if array.2 ≤ array.1 ∨ packed.2 ≤ packed.1 then none
  else if array.1 < 0 ∨ packed.1 < 0 then none
  else some ⟨array.1.toNat, (array.2 - array.1).toNat, packed.1.toNat, (packed.2 - packed.1).toNat⟩

abbrev NodeKey := ℕ × ArraySpan × ℕ

/-- A node with the region that it stands for in a report. -/
structure ReportNode extends GraphNode where
  diagnostic : Option NodeKey
  deriving DecidableEq

abbrev GraphEdge.key (e : GraphEdge) : ℕ × ℕ × BitDependency := (e.source, e.target, e.kind)

/-- A graph whose edges are found by their ends and their operation. -/
structure ReportGraph where
  nodes : List ReportNode
  edges : List GraphEdge
  source_lt : ∀ e ∈ edges, e.source < nodes.length
  target_lt : ∀ e ∈ edges, e.target < nodes.length
  keys_nodup : (edges.map GraphEdge.key).Nodup

namespace ReportGraph

def domains (g : ReportGraph) (node : ℕ) : List PositionDomain :=
  (g.nodes[node]?.map (·.domains)).getD []

/-- The nodes without an edge. -/
def ofNodes (nodes : List ReportNode) : ReportGraph where
  nodes := nodes
  edges := []
  source_lt := by simp
  target_lt := by simp
  keys_nodup := .nil

/-- An edge with the ends and the operation of the new one takes its condition too. -/
def joinCondition (new e : GraphEdge) : GraphEdge :=
  if e.key = new.key then { e with condition := e.condition.disjoin new.condition } else e

@[simp] theorem source_joinCondition (new e : GraphEdge) :
    (joinCondition new e).source = e.source := by
  unfold joinCondition
  split <;> rfl

@[simp] theorem target_joinCondition (new e : GraphEdge) :
    (joinCondition new e).target = e.target := by
  unfold joinCondition
  split <;> rfl

theorem key_joinCondition (new e : GraphEdge) : (joinCondition new e).key = e.key := by
  unfold joinCondition
  split <;> rfl

/-- Adds an edge between nodes of the graph. -/
def addDependencyEdge (g : ReportGraph) (new : GraphEdge) : ReportGraph :=
  if hends : new.source < g.nodes.length ∧ new.target < g.nodes.length then
    if hkey : new.key ∈ g.edges.map GraphEdge.key then
      { nodes := g.nodes
        edges := g.edges.map (joinCondition new)
        source_lt := by
          intro e he
          obtain ⟨e', he', rfl⟩ := mem_map.1 he
          simpa using g.source_lt e' he'
        target_lt := by
          intro e he
          obtain ⟨e', he', rfl⟩ := mem_map.1 he
          simpa using g.target_lt e' he'
        keys_nodup := by
          have hkeys : GraphEdge.key ∘ joinCondition new = GraphEdge.key :=
            funext (key_joinCondition new)
          rw [map_map, hkeys]
          exact g.keys_nodup }
    else
      { nodes := g.nodes
        edges := g.edges ++ [new]
        source_lt := by
          intro e he
          rcases mem_append.1 he with he | he
          · exact g.source_lt e he
          · obtain rfl := mem_singleton.1 he
            exact hends.1
        target_lt := by
          intro e he
          rcases mem_append.1 he with he | he
          · exact g.target_lt e he
          · obtain rfl := mem_singleton.1 he
            exact hends.2
        keys_nodup := by
          rw [map_append, map_singleton]
          exact nodup_append.2 ⟨g.keys_nodup, nodup_singleton _, by
            rintro a ha b hb rfl
            exact hkey (mem_singleton.1 hb ▸ ha)⟩ }
  else g

end ReportGraph

def nodeBox (node : ReportNode) : Option Box :=
  match node.domains with
  | [domain] => domainBounds domain
  | _ => none

/-- The nodes that replace one node of the graph being split. -/
inductive Pieces where
  /-- Outside the split components. -/
  | dropped
  | whole (node : ℕ) (bounds : Option Box)
  /-- A grid at `cuts`, one node for each cell in array-major order. -/
  | grid (cuts : Axis → List ℤ) (cells : List (ℕ × Box))

namespace Pieces

def nodes : Pieces → List ℕ
  | .dropped => []
  | .whole node _ => [node]
  | .grid _ cells => cells.map (·.1)

/-- The cells of an axis that may contain a position of the range: the first one and the
one after the last. -/
def cellRange (cuts : List ℤ) (reached : AxisBounds) : ℕ × ℕ :=
  (partitionPoint cuts (fun cut => decide (cut ≤ reached.1)) - 1,
    min (partitionPoint cuts (fun cut => decide (cut < reached.2))) (cuts.length - 1))

def indices (range : ℕ × ℕ) : List ℕ := List.range' range.1 (range.2 - range.1)

/-- The pieces that may contain a position of `reached`, or all of them when it is
unbounded. -/
def candidates (reached : Option Box) : Pieces → List (ℕ × Option Box)
  | .dropped => []
  | .whole node bounds => [(node, bounds)]
  | .grid cuts cells =>
    match reached with
    | none => cells.map fun cell => (cell.1, some cell.2)
    | some reached =>
      let width := (cuts .packed).length - 1
      (indices (cellRange (cuts .array) (reached .array))).flatMap fun array =>
        (indices (cellRange (cuts .packed) (reached .packed))).filterMap fun packed =>
          (cells[array * width + packed]?).map fun cell => (cell.1, some cell.2)

end Pieces

/-- The coordinates where each node is to be divided. -/
abbrev Cuts := ℕ → Option (Axis → List ℤ)

def axisCuts (bounds : AxisBounds) (found : List ℤ) : List ℤ :=
  sortedCuts ((found.filter fun cut => bounds.1 < cut && cut < bounds.2) ++ [bounds.1, bounds.2])

/-- The grid that divides a node, if the node is divided at all. -/
def gridOf (g : ReportGraph) (nodes : ℕ → Bool) (cuts : Cuts) (node : ℕ) :
    Option (Axis → List ℤ) := do
  let original ← g.nodes[node]?
  let bounds ← nodeBox original
  let found ← cuts node
  let grid := fun a => axisCuts (bounds a) (found a)
  if nodes node = true ∧ ¬ ((grid .array).length = 2 ∧ (grid .packed).length = 2) then some grid
  else none

/-- The cells of a grid in array-major order. -/
def cellBoxes (grid : Axis → List ℤ) : List Box :=
  (windows (grid .array)).flatMap fun array => (windows (grid .packed)).map (Box.of array)

def packedSpan (start length : ℕ) : Option PackedSpan :=
  if length ≠ 0 ∧ start + length < 2 ^ 64 then some ⟨start, length⟩ else none

/-- The part of a node in a domain. -/
def pieceOf (original : ReportNode) (domain : PositionDomain) : ReportNode where
  region :=
    if original.diagnostic.isSome then
      { original.region with
        array := ⟨domain.arrayStart, domain.arrayLength⟩
        packed := (packedSpan domain.packedStart domain.packedLength).getD original.region.packed }
    else original.region
  domains := [domain]
  diagnostic := original.diagnostic

abbrev Steps := Metered ℕ

/-- No result, whatever the steps. -/
def noSplit {α : Type} : Steps α := fun _ => none

/-- The nodes of the split graph so far, and the pieces of each node. -/
structure Mapping where
  nodes : List ReportNode
  mapped : List Pieces

/-- Adds the nodes of a grid, each for one step. -/
def addCells (original : ReportNode) (boxes : List Box) (nodes : List ReportNode) :
    Steps (List ReportNode × List (ℕ × Box)) :=
  boxes.foldlM (fun (acc : List ReportNode × List (ℕ × Box)) cell =>
    match boundsDomain cell with
    -- the cells between distinct cuts of a domain are domains
    | none => noSplit
    | some domain => do
      pay 1
      pure (acc.1 ++ [pieceOf original domain], acc.2 ++ [(acc.1.length, cell)])) (nodes, [])

def mapNode (g : ReportGraph) (nodes : ℕ → Bool) (cuts : Cuts) (m : Mapping) (node : ℕ) :
    Steps Mapping :=
  match g.nodes[node]? with
  | none => pure m
  | some original =>
    if nodes node = true then
      match gridOf g nodes cuts node with
      | none => pure ⟨m.nodes ++ [original], m.mapped ++ [.whole m.nodes.length (nodeBox original)]⟩
      | some grid => do
        let (nodes, cells) ← addCells original (cellBoxes grid) m.nodes
        pure ⟨nodes, m.mapped ++ [.grid grid cells]⟩
    else pure ⟨m.nodes, m.mapped ++ [.dropped]⟩

def mapNodes (g : ReportGraph) (nodes : ℕ → Bool) (cuts : Cuts) : Steps Mapping :=
  (List.range g.nodes.length).foldlM (mapNode g nodes cuts) ⟨[], []⟩

/-- The pairs of a piece of the source with the pieces of the target that an edge may reach
from it, with the bounds of each. -/
def routesFrom (target : Pieces) (kind : BitDependency) (s : ℕ × Option Box) :
    List ((ℕ × Option Box) × (ℕ × Option Box)) :=
  match s.2.bind kind.image with
  | some none => []
  | some (some reached) => (target.candidates (some reached)).map fun d => (s, d)
  | none => (target.candidates none).map fun d => (s, d)

/-- The pairs of pieces that an edge may join. -/
def routes (mapped : List Pieces) (e : GraphEdge) : List ((ℕ × Option Box) × (ℕ × Option Box)) :=
  ((mapped[e.source]?.getD .dropped).candidates none).flatMap
    (routesFrom (mapped[e.target]?.getD .dropped) e.kind)

def reaches (kind : BitDependency) (s d : Option Box) : Bool :=
  match s, d with
  | some s, some d => kind.mayReach .array s (d .array) && kind.mayReach .packed s (d .packed)
  | _, _ => true

/-- Routes one edge between two pieces for a step. -/
def routeEdge (split : ReportGraph)
    (route : GraphEdge × (ℕ × Option Box) × (ℕ × Option Box)) : Steps ReportGraph := do
  let (e, s, d) := route
  pay 1
  if reaches e.kind s.2 d.2 then
    pure (split.addDependencyEdge { e with source := s.1, target := d.1 })
  else pure split

/-- Divides the nodes of `nodes` at the cuts and keeps those nodes and the edges among
them; stops when no node is divided or when the steps do not pay for it. -/
def splitAtCuts (g : ReportGraph) (nodes : ℕ → Bool) (cuts : Cuts) : Steps ReportGraph :=
  if (List.range g.nodes.length).any fun node => (gridOf g nodes cuts node).isSome then do
    let m ← mapNodes g nodes cuts
    (g.edges.flatMap fun e => (routes m.mapped e).map fun route => (e, route)).foldlM routeEdge
      (ReportGraph.ofNodes m.nodes)
  else noSplit

end Veryl.Analyzer.CombLoopDetect
