import Veryl.Simulator.Opt.Owners

/-!
Cone reorder of the comb schedule. Statements are attributed to the node of the
instance tree they compute, and a topological re-sort of the hazard graph pulls
the statements of each large subtree into contiguous runs.
-/

namespace Veryl.Simulator.Opt.ConeOrder

open Veryl.Analyzer Veryl.Library

/-- A run shorter than this does not count as a segment. -/
def minSegmentStmts : ℕ := 64

/-- A subtree with fewer statements is not worth a cone of its own. -/
def minConeStmts : ℕ := 300

/-- Below this statement count the schedule is left alone. -/
def clusterMinStmts : ℕ := 5000

structure StmtInfo where
  node : ℕ
  inComb : List (ℕ × ℕ)
  inFf : List (ℕ × ℕ)
  outComb : List (ℕ × ℕ)
  outFf : List (ℕ × ℕ)
  /-- A read or write fell outside every known variable, or it writes flip-flops. -/
  unbounded : Bool
  /-- A read fell outside every known variable. -/
  unknownIn : Bool
  deriving DecidableEq, Repr

structure Schedule where
  /-- `order[new] = old`. -/
  order : List ℕ
  /-- `(slot, start, end)` runs of one cone in the new order; slot 0 is outside
  every cone. -/
  bursts : List (ℕ × ℕ × ℕ)
  infos : List StmtInfo
  cones : List ℕ
  /-- Writers of each owner span, in the original order. -/
  writers : List (List ℕ)
  deriving DecidableEq, Repr

section Info

variable (inputs : OwnerInputs)

/-- The owner of a comb offset. -/
def combSpan : VarOffset → Option OwnerSpan
  | .comb x => if 0 ≤ x then inputs.spanIn x.toNat else none
  | .ff _ => none

/-- The element of a flip-flop offset. -/
def ffSpan : VarOffset → Option (ℕ × ℕ)
  | .ff x => if 0 ≤ x then inputs.ffOwner.span x.toNat else none
  | .comb _ => none

def unknown (o : VarOffset) : Bool := (combSpan inputs o).isNone && (ffSpan inputs o).isNone

/-- The node the owned outputs belong to. -/
def outNode (outs : List VarOffset) : Option ℕ :=
  (outs.filterMap (combSpan inputs)).foldl
    (fun node o => some (node.elim o.node fun a => inputs.lca a o.node)) none

def stmtInfo (fold : BigArrayFold) (root : ℕ) (s : ProtoStatement) : StmtInfo :=
  let (ins, outs) := s.gatherVariableOffsetsExpanded fold
  let unknownIn := ins.any (unknown inputs)
  let unbounded := unknownIn || outs.any fun o => o.isFf || unknown inputs o
  let bounds (o : OwnerSpan) : ℕ × ℕ := (o.start, o.stop)
  { node := if unbounded || outs.isEmpty then root else (outNode inputs outs).getD root
    inComb := mergeRanges ((ins.filterMap (combSpan inputs)).map bounds)
    inFf := mergeRanges (ins.filterMap (ffSpan inputs))
    outComb := mergeRanges ((outs.filterMap (combSpan inputs)).map bounds)
    outFf := mergeRanges (outs.filterMap (ffSpan inputs))
    unbounded := unbounded
    unknownIn := unknownIn }

end Info

section Hazards

/-- The statements that write a span, in order. -/
def writersOf (infos : List StmtInfo) (outs : StmtInfo → List (ℕ × ℕ)) (spans : List (ℕ × ℕ))
    (first : ℕ → ℕ) (k : ℕ) : List ℕ :=
  infos.zipIdx.flatMap fun x => (outs x.1).flatMap fun r =>
    (visit spans (first r.1) r.1 r.2).filterMap fun j => if j = k then some x.2 else none

def windows (w : List ℕ) : List (ℕ × ℕ) := w.zip w.tail

/-- Orders a reader after the last writer before it and before the next one after
it. `skip` passes over the reader's own writes. -/
def readerEdges (skip : ℕ → List ℕ → List ℕ) (w : List ℕ) (i : ℕ) : List (ℕ × ℕ) :=
  let k := partitionPoint w fun x => x < i
  (if k = 0 then [] else (w[k - 1]?).toList.map fun p => (p, i)) ++
    (skip i (w.drop k)).head?.toList.map fun q => (i, q)

def skipOne (i : ℕ) (w : List ℕ) : List ℕ := if w.head? = some i then w.tail else w

def skipAll (i : ℕ) (w : List ℕ) : List ℕ := w.dropWhile fun x => x = i

def spanEdges (infos : List StmtInfo) (ins : StmtInfo → List (ℕ × ℕ)) (spans : List (ℕ × ℕ))
    (first : ℕ → ℕ) (writers : ℕ → List ℕ) (skip : ℕ → List ℕ → List ℕ) : List (ℕ × ℕ) :=
  infos.zipIdx.flatMap fun x => (ins x.1).flatMap fun r =>
    (visit spans (first r.1) r.1 r.2).flatMap fun j => readerEdges skip (writers j) x.2

def combSpans (inputs : OwnerInputs) : List (ℕ × ℕ) :=
  inputs.combOwner.map fun o => (o.start, o.stop)

def combWriters (inputs : OwnerInputs) (infos : List StmtInfo) (k : ℕ) : List ℕ :=
  writersOf infos StmtInfo.outComb (combSpans inputs) (firstSpan (combSpans inputs)) k

/-- The flip-flop spans the statements write, sorted and without repetitions. -/
def ffSpans (infos : List StmtInfo) : List (ℕ × ℕ) :=
  ((infos.flatMap StmtInfo.outFf).insertionSort fun a b => rangeLe a b).dedup

def ffFirst (infos : List StmtInfo) : ℕ → ℕ := firstFfSpan (prefixMaxEnd (ffSpans infos))

def ffWriters (infos : List StmtInfo) (k : ℕ) : List ℕ :=
  writersOf infos StmtInfo.outFf (ffSpans infos) (ffFirst infos) k

/-- The statements with untracked footprints or side effects. -/
def specials (stmts : List ProtoStatement) (infos : List StmtInfo) : List ℕ :=
  ((stmts.zip infos).zipIdx.filter fun x => x.1.2.unbounded || hasSideEffects x.1.1).map (·.2)

/-- The constraint edges, in the order they are found: writers of a span, readers
of a comb and of a flip-flop span, and the chain of the untracked statements. -/
def hazards (inputs : OwnerInputs) (stmts : List ProtoStatement) (infos : List StmtInfo) :
    List (ℕ × ℕ) :=
  ((List.range inputs.combOwner.length).flatMap fun k => windows (combWriters inputs infos k)) ++
    spanEdges infos StmtInfo.inComb (combSpans inputs) (firstSpan (combSpans inputs))
      (combWriters inputs infos) skipOne ++
    spanEdges infos StmtInfo.inFf (ffSpans infos) (ffFirst infos) (ffWriters infos) skipAll ++
    windows (specials stmts infos)

def addEdge (edges : List (ℕ × ℕ)) (e : ℕ × ℕ) : List (ℕ × ℕ) :=
  if e ∈ edges then edges else edges ++ [e]

def edgeSet (hazards : List (ℕ × ℕ)) : List (ℕ × ℕ) := hazards.foldl addEdge []

end Hazards

structure KahnState where
  order : List ℕ
  /-- The ready statements of each slot, in order. -/
  ready : ℕ → List ℕ
  cdeg : ℕ → ℕ
  curSlot : ℕ

section Kahn

variable (edges : List (ℕ × ℕ)) (slot : ℕ → ℕ) (nslots n : ℕ)

/-- Stays in a slot while it has ready statements; then the slot outside every
cone comes last. -/
def nextSlot (st : KahnState) : ℕ :=
  if st.ready st.curSlot ≠ [] then st.curSlot
  else
    ((((List.range nslots).drop 1).filter fun sl => st.ready sl ≠ []).argmin
      fun sl => (st.ready sl).headD 0).getD 0

def push (st : KahnState) (i : ℕ) : KahnState :=
  { st with ready := Function.update st.ready (slot i)
              ((st.ready (slot i)).orderedInsert (· ≤ ·) i) }

/-- Removes one edge into `c`. -/
def release (st : KahnState) (c : ℕ) : KahnState :=
  let st := { st with cdeg := Function.update st.cdeg c (st.cdeg c - 1) }
  if st.cdeg c = 0 then push slot st c else st

def successors (i : ℕ) : List ℕ := edges.filterMap fun e => if e.1 = i then some e.2 else none

/-- Emits the first ready statement of the next slot. -/
def kahnStep (st : KahnState) : Option KahnState :=
  let sl := nextSlot nslots st
  match st.ready sl with
  | [] => none
  | i :: rest =>
    some ((successors edges i).foldl (release slot)
      { order := st.order ++ [i]
        ready := Function.update st.ready sl rest
        cdeg := st.cdeg
        curSlot := sl })

def kahnInit : KahnState :=
  let cdeg (i : ℕ) : ℕ := edges.countP (·.2 = i)
  ((List.range n).filter fun i => cdeg i = 0).foldl (push slot)
    { order := [], ready := fun _ => [], cdeg := cdeg, curSlot := 0 }

/-- A sort that stalls keeps the incoming order. -/
def kahnLoop : ℕ → KahnState → List ℕ
  | 0, st => st.order
  | fuel + 1, st =>
    match kahnStep edges slot nslots st with
    | none => List.range n
    | some st => kahnLoop fuel st

def kahn : List ℕ := kahnLoop edges slot nslots n n (kahnInit edges slot n)

end Kahn

/-- The maximal runs `[start, end)` of positions below `n` with one key. -/
def runs {κ : Type} [DecidableEq κ] (key : ℕ → κ) (n : ℕ) : List (ℕ × ℕ) :=
  ((List.range n).foldl (fun (acc : List (ℕ × ℕ) × ℕ) i =>
      if i + 1 = n ∨ key (i + 1) ≠ key acc.2 then (acc.1 ++ [(acc.2, i + 1)], i + 1) else acc)
    ([], 0)).1

section Cones

variable (inputs : OwnerInputs)

/-- A node that no cone may contain: a statement below it has side effects or an
untracked footprint. -/
def poisoned (stmts : List ProtoStatement) (infos : List StmtInfo) (m : ℕ) : Bool :=
  (stmts.zip infos).any fun x =>
    (hasSideEffects x.1 || x.2.unbounded) && (inputs.ancestors x.2.node).contains m

/-- The statements attributed to a node and its descendants. -/
def stmtCount (infos : List StmtInfo) (m : ℕ) : ℕ :=
  (infos.map fun info => (inputs.ancestors info.node).count m).sum

def qualifies (root : ℕ) (stmts : List ProtoStatement) (infos : List StmtInfo) (m : ℕ) : Bool :=
  m ≠ root && !poisoned inputs stmts infos m && minConeStmts ≤ stmtCount inputs infos m

/-- The slot of the deepest cone a node lies in. -/
def coneOf (cones : List ℕ) (m : ℕ) : ℕ :=
  match (inputs.ancestors m).find? fun a => cones.contains a with
  | some a => cones.idxOf a + 1
  | none => 0

end Cones

/-- Reorders the statements so that each cone forms few contiguous runs. -/
def schedule (stmts : List ProtoStatement) (inputs : OwnerInputs) : Option Schedule :=
  let n := stmts.length
  if n = 0 then none
  else do
    let root ← (List.range inputs.nodeParent.length).find? fun i => (inputs.parent i).isNone
    let fold := BigArrayFold.fromStatements stmts
    let infos := stmts.map (stmtInfo inputs fold root)
    let cones := (List.range inputs.nodeParent.length).filter (qualifies inputs root stmts infos)
    if cones.isEmpty then none
    else
      let slot (i : ℕ) : ℕ := coneOf inputs cones ((infos[i]?).elim root StmtInfo.node)
      let writers := (List.range inputs.combOwner.length).map (combWriters inputs infos)
      if n < clusterMinStmts then
        some
          { order := List.range n
            bursts := (runs slot n).map fun r => (slot r.1, r.1, r.2)
            infos := infos, cones := cones, writers := writers }
      else
        let order := kahn (edgeSet (hazards inputs stmts infos)) slot (cones.length + 1) n
        let pinned (i : ℕ) : Bool := (runs slot n).any fun r =>
          slot r.1 ≠ 0 && minSegmentStmts ≤ r.2 - r.1 && r.1 ≤ i && i < r.2
        let at_ (i : ℕ) : ℕ := order.getD i 0
        some
          { order := order
            bursts := (runs (fun i => (slot (at_ i), pinned (at_ i))) n).map
              fun r => (slot (at_ r.1), r.1, r.2)
            infos := infos, cones := cones, writers := writers }

end Veryl.Simulator.Opt.ConeOrder
