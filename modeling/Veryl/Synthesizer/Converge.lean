import Veryl.Synthesizer.WorklistSimplify

/-!
The sequential optimisation of a gate module: the worklist pass in turn with the
removal of the flip-flops that hold their reset value for ever, until neither
makes the module smaller; and the runs of a module over time.
-/

namespace Veryl.Synthesizer

/-- `d` is `q` itself and there is a reset, so `q` is the reset value. -/
def FfCell.isDq (ff : FfCell) : Bool := ff.d == ff.q && ff.reset.isSome

def FfCell.constNet (ff : FfCell) : NetId := if ff.resetValue then netConst1 else netConst0

/-- The constant that stands for the output of a register that goes. -/
def dqAlias (ffs : List FfCell) : NetId → Option NetId :=
  ffs.foldl (fun aliasOf ff =>
    if ff.isDq then Function.update aliasOf ff.q (some ff.constNet) else aliasOf) fun _ => none

def rename (aliasOf : NetId → Option NetId) (n : NetId) : NetId := (aliasOf n).getD n

def isKept (ff : FfCell) : Bool := !ff.isDq

/-- The place of a flip-flop after the removal. -/
def ffIndexMap (ffs : List FfCell) (idx : ℕ) : Option ℕ :=
  match ffs[idx]? with
  | some ff => if isKept ff then some ((ffs.take idx).filter isKept).length else none
  | none => none

def compactFfDriver (ffs : List FfCell) : NetDriver → NetDriver
  | .ffQ idx =>
    match ffIndexMap ffs idx with
    | some newIdx => .ffQ newIdx
    | none => .undriven
  | driver => driver

def GateModule.dropDqFfs (m : GateModule) : GateModule :=
  let f := rename (dqAlias m.ffs)
  { ports := m.ports.map (List.map f)
    ffs := (m.ffs.filter isKept).map fun ff =>
      { ff with d := f ff.d, clock := f ff.clock, reset := ff.reset.map f }
    ramBlocks := m.ramBlocks.map (RamBlock.mapInputNets f)
    cells := m.cells.map fun c => { c with inputs := c.inputs.map f }
    nets := m.nets.map (compactFfDriver m.ffs) }

def GateModule.eliminateDqFfs (m : GateModule) : GateModule :=
  if m.ffs.any FfCell.isDq then m.dropDqFfs else m

/-- One turn of the loop, for some order of visits. -/
def Round (m m' : GateModule) : Prop := ∃ mid, WorklistSimplify m mid ∧ m' = mid.eliminateDqFfs

def SameSize (m m' : GateModule) : Prop :=
  m'.cells.length = m.cells.length ∧ m'.ffs.length = m.ffs.length

/-- A turn after which the loop goes on. -/
def Again (m m' : GateModule) : Prop := Round m m' ∧ ¬ SameSize m m'

inductive ConvergeSimplify : GateModule → GateModule → Prop where
  | stop {m m' : GateModule} (h : Round m m') (hsame : SameSize m m') : ConvergeSimplify m m'
  | again {m mid m' : GateModule} (h : Again m mid) (rest : ConvergeSimplify mid m') :
      ConvergeSimplify m m'

def ResetPolarity.active : ResetPolarity → Bool → Bool
  | activeHigh, v => v
  | activeLow, v => !v

def ClockEdge.occurs : ClockEdge → Bool → Bool → Bool
  | posedge, before, now => !before && now
  | negedge, before, now => before && !now

/-- What a flip-flop stores: its output, and its clock one step ago. -/
structure FfState where
  q : Bool
  clock : Bool

/-- An asynchronous reset acts at once, a synchronous one at a clock edge. -/
def FfCell.next (ff : FfCell) (d clock : Bool) (reset : Option Bool) (s : FfState) : FfState :=
  let edge := ff.clockEdge.occurs s.clock clock
  let inReset := reset.elim false ff.resetPolarity.active
  { q := if inReset && (edge || !ff.resetSync) then ff.resetValue else if edge then d else s.q
    clock := clock }

/-- The state of the flip-flop that drives a net. -/
abbrev State := NetId → FfState

/-- What surrounds the flip-flops and the cells: the inputs at every step, and
the RAMs, whose reads follow from all their pins so far. -/
structure Environment where
  inputs : ℕ → NetId → Bool
  ram : List (List Bool) → ℕ → ℕ → ℕ → Bool

namespace GateModule

variable (m : GateModule)

/-- The pins of the RAMs up to and at a step. -/
def ramHistory (ρ : ℕ → NetId → Bool) (t : ℕ) : List (List Bool) :=
  (List.range (t + 1)).map fun k => m.ramInputNets.map (ρ k)

/-- The value of a net that no cell drives and no constant. -/
def sourceValue (inputs : NetId → Bool) (ram : ℕ → ℕ → ℕ → Bool) (s : State) (n : NetId) : Bool :=
  match m.nets[n]? with
  | some (.ffQ _) => (s n).q
  | some (.ramRead block port bit) => ram block port bit
  | _ => inputs n

/-- A run from a state: the combinational values at every step over the sources,
and the flip-flops that follow their pins. -/
structure Run (env : Environment) (init : State) (s : ℕ → State) (ρ : ℕ → NetId → Bool) :
    Prop where
  start : s 0 = init
  solves : ∀ t, m.Solves (m.sourceValue (env.inputs t) (env.ram (m.ramHistory ρ t)) (s t)) (ρ t)
  next : ∀ t n i ff, m.nets[n]? = some (.ffQ i) → m.ffs[i]? = some ff →
    s (t + 1) n = ff.next (ρ t ff.d) (ρ t ff.clock) (ff.reset.map (ρ t)) (s t n)

/-- The flip-flops with a reset hold their reset value. -/
def Initial (init : State) : Prop :=
  ∀ ff ∈ m.ffs, ff.reset.isSome → (init ff.q).q = ff.resetValue

/-- The values at the ports over some run from a state. -/
def Shows (env : Environment) (init : State) (out : ℕ → List (List Bool)) : Prop :=
  ∃ s ρ, m.Run env init s ρ ∧ ∀ t, out t = m.ports.map (List.map (ρ t))

/-- The drivers agree with the flip-flops. -/
structure DrivesFfs : Prop where
  ff_of : ∀ (n : NetId) (i : ℕ), m.nets[n]? = some (.ffQ i) →
    ∃ ff, m.ffs[i]? = some ff ∧ ff.q = n
  driver_eq : ∀ (i : ℕ) (ff : FfCell), m.ffs[i]? = some ff → m.nets[ff.q]? = some (.ffQ i)

end GateModule

end Veryl.Synthesizer
