import Veryl.Synthesizer.ConvContext

/-!
The worklist simplifier of a gate module: constant folding, local rewrites and
common subexpressions, one cell at a time in any order, and the removal of the
buffers it leaves.
-/

namespace Veryl.Synthesizer

open List

inductive ClockEdge where
  | posedge | negedge
  deriving DecidableEq

inductive ResetPolarity where
  | activeHigh | activeLow
  deriving DecidableEq

/-- The polarity and the kind are those of the reset, where there is one. -/
structure FfCell where
  clock : NetId
  clockEdge : ClockEdge
  reset : Option NetId
  resetPolarity : ResetPolarity
  resetSync : Bool
  d : NetId
  q : NetId
  resetValue : Bool

structure RamReadPort where
  addr : List NetId
  data : List NetId

structure RamWritePort where
  addr : List NetId
  data : List NetId
  enable : NetId
  mask : Option (List NetId)

structure RamBlock where
  clock : NetId
  readPorts : List RamReadPort
  writePorts : List RamWritePort

structure GateModule where
  ports : List (List NetId)
  nets : List NetDriver
  cells : List Cell
  ffs : List FfCell
  ramBlocks : List RamBlock

namespace RamBlock

/-- The nets a block consumes, in the order they are visited. -/
def inputNets (ram : RamBlock) : List NetId :=
  ram.clock ::
    (ram.writePorts.flatMap fun wp => wp.addr ++ wp.data ++ wp.enable :: wp.mask.getD []) ++
    ram.readPorts.flatMap fun rp => rp.addr

def mapInputNets (f : NetId → NetId) (ram : RamBlock) : RamBlock :=
  { clock := f ram.clock
    writePorts := ram.writePorts.map fun wp =>
      ⟨wp.addr.map f, wp.data.map f, f wp.enable, wp.mask.map (List.map f)⟩
    readPorts := ram.readPorts.map fun rp => { rp with addr := rp.addr.map f } }

@[simp] theorem inputNets_mapInputNets (f : NetId → NetId) (ram : RamBlock) :
    (ram.mapInputNets f).inputNets = ram.inputNets.map f := by
  have hmask : ∀ mask : Option (List NetId),
      (mask.map (List.map f)).getD [] = (mask.getD []).map f := by
    intro mask
    cases mask <;> rfl
  simp [inputNets, mapInputNets, map_flatMap, flatMap_map, hmask]

end RamBlock

/-- The padding of a key. -/
def csePad : NetId := 2 ^ 32 - 1

abbrev CseKey := CellKind × List NetId

def sortPair (a b : NetId) : NetId × NetId := if a ≤ b then (a, b) else (b, a)

/-- The key of two commuting pairs that commute themselves. -/
def sortPairs (a b c d : NetId) : List NetId :=
  let ab := sortPair a b
  let cd := sortPair c d
  if ab.1 < cd.1 ∨ (ab.1 = cd.1 ∧ ab.2 ≤ cd.2) then [ab.1, ab.2, cd.1, cd.2]
  else [cd.1, cd.2, ab.1, ab.2]

def sortTriple (a b c : NetId) : List NetId := [a, b, c].mergeSort (· ≤ ·)

/-- Two cells with one key compute the same value; a buffer has no key. -/
def cseKey (kind : CellKind) (inputs : List NetId) : Option CseKey :=
  let n := netAt inputs
  match kind with
  | .buf => none
  | .not => some (kind, [n 0, csePad, csePad, csePad])
  | .and2 | .or2 | .nand2 | .nor2 | .xor2 | .xnor2 =>
    some (kind, [(sortPair (n 0) (n 1)).1, (sortPair (n 0) (n 1)).2, csePad, csePad])
  | .and3 | .or3 | .nand3 | .nor3 => some (kind, sortTriple (n 0) (n 1) (n 2) ++ [csePad])
  | .ao21 | .aoi21 | .oa21 | .oai21 =>
    some (kind, [(sortPair (n 0) (n 1)).1, (sortPair (n 0) (n 1)).2, n 2, csePad])
  | .ao22 | .aoi22 | .oai22 => some (kind, sortPairs (n 0) (n 1) (n 2) (n 3))
  | .ao31 | .aoi31 => some (kind, sortTriple (n 0) (n 1) (n 2) ++ [n 3])
  | .mux2 => some (kind, [n 0, n 1, n 2, csePad])

/-- The kind of a gate followed by an inverter. -/
def CellKind.inverted : CellKind → Option CellKind
  | and2 => some nand2
  | or2 => some nor2
  | xor2 => some xnor2
  | nand2 => some and2
  | nor2 => some or2
  | xnor2 => some xor2
  | and3 => some nand3
  | or3 => some nor3
  | nand3 => some and3
  | nor3 => some or3
  | _ => none

structure SimplifyState where
  cells : List Cell
  /-- The cells that may read a net. -/
  consumers : NetId → List ℕ
  seen : CseKey → Option ℕ
  wl : List ℕ

section Rewrite

variable (nets : List NetDriver)

def constOf (n : NetId) : Option Bool := nets[n]?.bind NetDriver.const?

/-- An inverter of an inverter or of a gate it alone reads, and a multiplexer
with a constant leg. -/
def algebraicFuse (st : SimplifyState) (kind : CellKind) (inputs : List NetId) :
    Option (CellKind × List NetId) :=
  match kind with
  | .not =>
    match nets[netAt inputs 0]? with
    | some (.cell upIdx) =>
      match st.cells[upIdx]? with
      | some up =>
        if up.kind = .not then some (.buf, [netAt up.inputs 0])
        else if (st.consumers up.output).length ≠ 1 then none
        else up.kind.inverted.map fun k => (k, up.inputs)
      | none => none
    | _ => none
  | .mux2 =>
    if constOf nets (netAt inputs 1) = some false then
      some (.and2, [netAt inputs 0, netAt inputs 2])
    else if constOf nets (netAt inputs 2) = some true then
      some (.or2, [netAt inputs 0, netAt inputs 1])
    else none
  | _ => none

/-- The cell with the key of this one; on a miss this one is entered. -/
def cseFold (st : SimplifyState) (idx : ℕ) (cell : Cell) :
    SimplifyState × Option (CellKind × List NetId) :=
  match cseKey cell.kind cell.inputs with
  | none => (st, none)
  | some key =>
    match st.seen key with
    | some other =>
      if other ≠ idx then (st, st.cells[other]?.map fun c => (.buf, [c.output])) else (st, none)
    | none => ({ st with seen := Function.update st.seen key (some idx) }, none)

/-- The new kind and inputs of a visited cell. -/
def chooseRewrite (st : SimplifyState) (idx : ℕ) (cell : Cell) :
    SimplifyState × Option (CellKind × List NetId) :=
  match simplify (cell.inputs.map (constOf nets)) cell.inputs cell.kind with
  | some (.const v) => (st, some (.buf, [if v then netConst1 else netConst0]))
  | some (.aliasTo n) => (st, some (.buf, [n]))
  | some (.invert n) => (st, some (.not, [n]))
  | none =>
    match algebraicFuse nets st cell.kind cell.inputs with
    | some rewrite => (st, some rewrite)
    | none => cseFold st idx cell

end Rewrite

/-- Above this fanout a consumer list is only appended to. -/
def consumerPruneLimit : ℕ := 64

/-- `Vec::swap_remove`: the last element takes the place of the removed one. -/
def swapRemove (xs : List ℕ) (pos : ℕ) : List ℕ :=
  match xs.getLast? with
  | some last => (xs.set pos last).dropLast
  | none => xs

def pruneConsumer (idx : ℕ) (consumers : NetId → List ℕ) (n : NetId) : NetId → List ℕ :=
  if (consumers n).length ≤ consumerPruneLimit then
    match (consumers n).idxOf? idx with
    | some pos => Function.update consumers n (swapRemove (consumers n) pos)
    | none => consumers
  else consumers

def pushConsumer (idx : ℕ) (consumers : NetId → List ℕ) (n : NetId) : NetId → List ℕ :=
  Function.update consumers n (consumers n ++ [idx])

/-- Drops the key of a cell that is about to change, if it is entered for it. -/
def forgetKey (seen : CseKey → Option ℕ) (idx : ℕ) (cell : Cell) : CseKey → Option ℕ :=
  match cseKey cell.kind cell.inputs with
  | some key => if seen key = some idx then Function.update seen key none else seen
  | none => seen

def pushWl (wl : List ℕ) (idx : ℕ) : List ℕ := if idx ∈ wl then wl else wl ++ [idx]

/-- A cell with every read of one net moved to another. -/
def Cell.rewire (out src : NetId) (cell : Cell) : Cell :=
  { cell with inputs := cell.inputs.map fun n => if n = out then src else n }

/-- Moves one reader of a new buffer past it. -/
def rewireConsumer (idx : ℕ) (out src : NetId) (st : SimplifyState) (consumer : ℕ) :
    SimplifyState :=
  if consumer = idx then st
  else
    match st.cells[consumer]? with
    | none => st
    | some cell =>
      -- a stale entry: the cell reads the net no longer
      if out ∉ cell.inputs then st
      else
        { cells := st.cells.set consumer (cell.rewire out src)
          consumers := pushConsumer consumer st.consumers src
          seen := forgetKey st.seen consumer cell
          wl := pushWl st.wl consumer }

def rewireConsumers (idx : ℕ) (out src : NetId) (st : SimplifyState) : SimplifyState :=
  (st.consumers out).foldl (rewireConsumer idx out src)
    { st with consumers := Function.update st.consumers out [] }

/-- Installs the new kind and inputs of a cell. -/
def install (idx : ℕ) (cell : Cell) (kind : CellKind) (inputs : List NetId) (st : SimplifyState) :
    SimplifyState :=
  let st : SimplifyState := { st with
    consumers := inputs.foldl (pushConsumer idx) (cell.inputs.foldl (pruneConsumer idx) st.consumers)
    seen := forgetKey st.seen idx cell
    cells := st.cells.set idx { cell with kind := kind, inputs := inputs } }
  if kind = .buf then rewireConsumers idx cell.output (netAt inputs 0) st
  else { st with wl := (st.consumers cell.output).foldl pushWl (pushWl st.wl idx) }

/-- The visit of a cell that is taken off the worklist. -/
def visit (nets : List NetDriver) (idx : ℕ) (st : SimplifyState) : SimplifyState :=
  match st.cells[idx]? with
  | none => st
  | some cell =>
    if cell.kind = .buf then st
    else
      match chooseRewrite nets st idx cell with
      | (st, some (kind, inputs)) => install idx cell kind inputs st
      | (st, none) => st

/-- Any cell of the worklist may be visited next. -/
inductive Step (nets : List NetDriver) : SimplifyState → SimplifyState → Prop where
  | visit {st : SimplifyState} {idx : ℕ} (h : idx ∈ st.wl) :
      Step nets st (Synthesizer.visit nets idx { st with wl := st.wl.erase idx })

/-- Moves one reader of a buffer of the input past it; nothing is stale yet. -/
def preRewire (idx : ℕ) (out src : NetId) (st : SimplifyState) (consumer : ℕ) : SimplifyState :=
  if consumer = idx then st
  else
    { st with
      cells := st.cells.modify consumer (Cell.rewire out src)
      consumers := pushConsumer consumer st.consumers src
      wl := pushWl st.wl consumer }

def preVisit (st : SimplifyState) (idx : ℕ) : SimplifyState :=
  match st.cells[idx]? with
  | none => st
  | some cell =>
    if cell.kind ≠ .buf ∨ netAt cell.inputs 0 = cell.output then st
    else
      (st.consumers cell.output).foldl (preRewire idx cell.output (netAt cell.inputs 0))
        { st with consumers := Function.update st.consumers cell.output [] }

/-- The cells that read each net. -/
def consumersOf (cells : List Cell) (n : NetId) : List ℕ :=
  (List.range cells.length).flatMap fun i =>
    match cells[i]? with
    | some cell => replicate (cell.inputs.count n) i
    | none => []

def GateModule.start (m : GateModule) : SimplifyState :=
  (List.range m.cells.length).foldl preVisit
    ⟨m.cells, consumersOf m.cells, fun _ => none, List.range m.cells.length⟩

/-- Walks the buffers that drive a net, at most `turns` of them. -/
def resolveAlias (nets : List NetDriver) (cells : List Cell) : ℕ → NetId → NetId
  | 0, n => n
  | turns + 1, n =>
    match nets[n]? with
    | some (.cell idx) =>
      match cells[idx]? with
      | some cell =>
        if cell.kind = .buf then resolveAlias nets cells turns (netAt cell.inputs 0) else n
      | none => n
    | _ => n

def isLive (cell : Cell) : Bool := cell.kind != .buf

/-- The place of a cell after the buffers are removed. -/
def indexMap (cells : List Cell) (idx : ℕ) : Option ℕ :=
  match cells[idx]? with
  | some cell => if isLive cell then some ((cells.take idx).filter isLive).length else none
  | none => none

def compactDriver (cells : List Cell) : NetDriver → NetDriver
  | .cell idx =>
    match indexMap cells idx with
    | some newIdx => .cell newIdx
    | none => .undriven
  | driver => driver

/-- Moves the endpoints past the buffers and removes these. -/
def GateModule.finish (m : GateModule) (cells : List Cell) : GateModule :=
  let resolve := resolveAlias m.nets cells (cells.length + 1)
  { ports := m.ports.map (List.map resolve)
    ffs := m.ffs.map fun ff =>
      { ff with d := resolve ff.d, clock := resolve ff.clock, reset := ff.reset.map resolve }
    ramBlocks := m.ramBlocks.map (RamBlock.mapInputNets resolve)
    cells := cells.filter isLive
    nets := m.nets.map (compactDriver cells) }

/-- A result of the pass: the module after some order of visits that ends with
an empty worklist. -/
def WorklistSimplify (m m' : GateModule) : Prop :=
  ∃ st, Relation.ReflTransGen (Step m.nets) m.start st ∧ st.wl = [] ∧ m' = m.finish st.cells

end Veryl.Synthesizer
