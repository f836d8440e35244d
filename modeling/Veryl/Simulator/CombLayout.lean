import Veryl.Simulator.BigArray
import Veryl.Library.Intervals

/-!
Relayout of the combinational buffer. Storage units are ordered by their first
use in the settled statement order and packed anew, and the statements are
rewritten through the translation of their offsets.
-/

namespace Veryl.Simulator

open Veryl.Analyzer Veryl.Library

def combOnly (os : List VarOffset) : List VarOffset := os.filter fun o => !o.isFf

/-- The inputs of an item, an array by its first and last element. -/
def Visit.summaryInputs (v : Visit) : List VarOffset :=
  v.operands.flatMap (·.gatherVariableOffsets) ++
    match v with
    | .compiled x =>
      combOnly (if x.stmtDeps.isEmpty then x.inputOffsets else x.stmtDeps.flatMap (·.1))
    | _ => []

def Visit.summaryOutputs : Visit → List VarOffset
  | .assign x => [x.dst]
  | .assignDynamic x =>
    x.dstBase :: if 1 < x.dstNumElements then
      [ProtoExpression.lastElement x.dstBase x.dstStride x.dstNumElements] else []
  | .compiled x =>
    combOnly (if x.stmtDeps.isEmpty then x.outputOffsets else x.stmtDeps.flatMap (·.2))
  | .cond _ | .loop _ | .call _ | .tb _ => []

namespace ProtoStatement

section Gather

/- A read inside a block of what the block itself writes is an input only where
it may see bits from outside, which `external` tells. -/
variable (external : List ProtoStatement → VarOffset → Bool)

mutual

/-- The inputs and outputs of a statement. -/
def gatherVariableOffsets : ProtoStatement → List VarOffset × List VarOffset
  | .assign x => ((Visit.assign x).summaryInputs, (Visit.assign x).summaryOutputs)
  | .assignDynamic x =>
    ((Visit.assignDynamic x).summaryInputs, (Visit.assignDynamic x).summaryOutputs)
  | .ifStmt cond t f =>
    let t := gatherBody t
    let f := gatherBody f
    (cond.toList.flatMap (·.gatherVariableOffsets) ++ t.1 ++ f.1, t.2 ++ f.2)
  | .caseStmt arms default =>
    let arms := gatherArms arms
    let default := gatherBody default
    (arms.1 ++ default.1, arms.2 ++ default.2)
  | .forStmt x body =>
    let body := gatherBody body
    ((Visit.loop x).summaryInputs ++ body.1, body.2)
  | .breakStmt => ([], [])
  | .systemFunctionCall x => ((Visit.call x).summaryInputs, [])
  | .compiledBlock x _ => ((Visit.compiled x).summaryInputs, (Visit.compiled x).summaryOutputs)
  | .sequentialBlock body =>
    let inner := gatherBody body
    (inner.1.filter fun o => o ∉ inner.2 || external body o, inner.2)
  | .tbMethodCall _ _ => ([], [])
termination_by structural s => s

def gatherBody : List ProtoStatement → List VarOffset × List VarOffset
  | [] => ([], [])
  | s :: body =>
    let first := s.gatherVariableOffsets
    let rest := gatherBody body
    (first.1 ++ rest.1, first.2 ++ rest.2)
termination_by structural body => body

def gatherArms : List (ProtoExpression × List ProtoStatement) → List VarOffset × List VarOffset
  | [] => ([], [])
  | (cond, body) :: arms =>
    let first := gatherBody body
    let rest := gatherArms arms
    (cond.gatherVariableOffsets ++ first.1 ++ rest.1, first.2 ++ rest.2)
termination_by structural arms => arms

end

/-- Everything a statement names, inputs first. -/
def namedOffsets (s : ProtoStatement) : List VarOffset :=
  (s.gatherVariableOffsets external).1 ++ (s.gatherVariableOffsets external).2

end Gather

mutual

/-- The compiled blocks a list consists of, blocks inside sequences included. -/
def blocks : ProtoStatement → List (CompiledBlockStatement × List ProtoStatement)
  | .compiledBlock x stmts => [(x, stmts)]
  | .sequentialBlock body => blocksBody body
  | _ => []
termination_by structural s => s

def blocksBody : List ProtoStatement → List (CompiledBlockStatement × List ProtoStatement)
  | [] => []
  | s :: body => s.blocks ++ blocksBody body
termination_by structural body => body

end
end ProtoStatement

section Adjust

variable (ffDelta combDelta : ℤ)

def ProtoAssignStatement.adjustOffsets (x : ProtoAssignStatement) : ProtoAssignStatement :=
  { x.remapOffsetsWith (·.adjust ffDelta combDelta) with
    dstFfCurrentOffset :=
      if x.dst.isFf then x.dstFfCurrentOffset + ffDelta else x.dstFfCurrentOffset }

def ProtoAssignDynamicStatement.adjustOffsets (x : ProtoAssignDynamicStatement) :
    ProtoAssignDynamicStatement :=
  { x.remapOffsetsWith (·.adjust ffDelta combDelta) with
    dstFfCurrentBaseOffset :=
      if x.dstBase.isFf then x.dstFfCurrentBaseOffset + ffDelta else x.dstFfCurrentBaseOffset }

def ProtoSystemFunctionCall.adjustOffsets : ProtoSystemFunctionCall → ProtoSystemFunctionCall
  | .readmemh filename elements width =>
    .readmemh filename (elements.map fun e =>
        { current := e.current.adjust ffDelta combDelta
          nextOffset := e.nextOffset.map (· + if e.current.isFf then ffDelta else combDelta) })
      width
  | x => x.remapOffsetsWith (·.adjust ffDelta combDelta)

namespace ProtoStatement

mutual

def adjustOffsets : ProtoStatement → ProtoStatement
  | .assign x => .assign (x.adjustOffsets ffDelta combDelta)
  | .assignDynamic x => .assignDynamic (x.adjustOffsets ffDelta combDelta)
  | .ifStmt cond t e =>
    .ifStmt (cond.map (·.remapOffsetsWith (·.adjust ffDelta combDelta))) (adjustBody t)
      (adjustBody e)
  | .caseStmt arms default => .caseStmt (adjustArms arms) (adjustBody default)
  | .forStmt x body => .forStmt (x.remapOffsetsWith (·.adjust ffDelta combDelta)) (adjustBody body)
  | .breakStmt => .breakStmt
  | .systemFunctionCall x => .systemFunctionCall (x.adjustOffsets ffDelta combDelta)
  | .compiledBlock x stmts => .compiledBlock x stmts
  | .sequentialBlock body => .sequentialBlock (adjustBody body)
  | .tbMethodCall inst method =>
    .tbMethodCall inst (method.remapOffsetsWith (·.adjust ffDelta combDelta))
termination_by structural s => s

def adjustBody : List ProtoStatement → List ProtoStatement
  | [] => []
  | s :: body => s.adjustOffsets :: adjustBody body
termination_by structural body => body

def adjustArms :
    List (ProtoExpression × List ProtoStatement) → List (ProtoExpression × List ProtoStatement)
  | [] => []
  | (cond, body) :: arms =>
    (cond.remapOffsetsWith (·.adjust ffDelta combDelta), adjustBody body) :: adjustArms arms
termination_by structural arms => arms

end
end ProtoStatement
end Adjust

namespace CombLayout

open Veryl.Library

def combRaw : VarOffset → Option ℤ
  | .comb o => some o
  | .ff _ => none

/-- The byte span a block touches. It ends one byte past the last offset, which
is enough to reach into the unit of the last variable. -/
def cbCombSpan (external : List ProtoStatement → VarOffset → Bool) (x : CompiledBlockStatement)
    (originalStmts : List ProtoStatement) : Option (ℤ × ℤ) := do
  let offsets := (x.inputOffsets ++ x.outputOffsets ++
    originalStmts.flatMap (·.namedOffsets external)).filterMap combRaw
  pure (← offsets.min?, (← offsets.max?) + 1)

/-- The footprint of a store, at least a byte. -/
def storeSpan (dst : VarOffset) (dstWidth : ℕ) : List (ℤ × ℤ) :=
  match dst with
  | .comb o => [(o, o + (max (nativeBytes dstWidth) 1 : ℕ))]
  | .ff _ => []

def arraySpan (base : VarOffset) (stride : ℤ) (numElements nb : ℕ) : List (ℤ × ℤ) :=
  match base with
  | .comb o => [stridedSpan o stride numElements nb]
  | .ff _ => []

def writeSpans : Visit → List (ℤ × ℤ)
  | .assign x => storeSpan x.dst x.dstWidth
  | _ => []

mutual

/-- The leaves the collector of extents visits: the index of a select is one
inside a variable, but not inside an array access. -/
def visitedLeaves : ProtoExpression → List ProtoExpression
  | .resize x _ _ _ => visitedLeaves x
  | .variable o sel ds w f c => .variable o sel ds w f c :: visitedSelect ds
  | .value _ _ _ => []
  | .unary _ x _ _ => visitedLeaves x
  | .binary x _ y _ _ => visitedLeaves x ++ visitedLeaves y
  | .concatenation es _ _ => visitedElements es
  | .ternary a b d _ _ => visitedLeaves a ++ visitedLeaves b ++ visitedLeaves d
  | .dynamicVariable o s nb i n sel ds w c =>
    .dynamicVariable o s nb i n sel ds w c :: visitedLeaves i
termination_by structural e => e

def visitedSelect : Option ProtoDynamicBitSelect → List ProtoExpression
  | none => []
  | some (_, e) => visitedLeaves e
termination_by structural ds => ds

def visitedElements : List (ProtoExpression × ℕ × ℕ) → List ProtoExpression
  | [] => []
  | (e, _, _) :: es => visitedLeaves e ++ visitedElements es
termination_by structural es => es

end

/-- The extent of an array access, or of a variable under a dynamic select. -/
def leafSpan : ProtoExpression → List (ℤ × ℤ)
  | .dynamicVariable base stride nb _ n _ _ _ _ => arraySpan base stride n nb
  | .variable o _ (some _) w full _ => storeSpan o (max full w)
  | _ => []

/-- The expressions of an item the collector of extents looks into. -/
def collectedOperands : Visit → List ProtoExpression
  | .cond e => [e]
  | .assign x => x.dynamicSelect.toList.map (·.2) ++ [x.expr]
  | .assignDynamic x => x.dstIndexExpr :: x.expr :: x.dynamicSelect.toList.map (·.2)
  | .loop _ | .call _ | .compiled _ | .tb _ => []

/-- Extents that the summarised gather does not spell out. -/
def dynamicSpans (v : Visit) : List (ℤ × ℤ) :=
  (match v with
    | .assign x => if x.dynamicSelect.isSome then storeSpan x.dst x.dstWidth else []
    | .assignDynamic x =>
      arraySpan x.dstBase x.dstStride x.dstNumElements (max (nativeBytes x.dstWidth) 1)
    | .loop x =>
      match x.varOffset with
      | .comb o => [(o, o + 8)]
      | .ff _ => []
    | _ => []) ++
  (collectedOperands v).flatMap fun e => (visitedLeaves e).flatMap leafSpan

/-- One relocatable region of the old buffer. -/
structure StorageUnit where
  start : ℤ
  stop : ℤ
  /-- First-use index in the settle order. -/
  rank : Option ℕ
  deriving DecidableEq, Repr

def StorageUnit.range (u : StorageUnit) : ℤ × ℤ := (u.start, u.stop)

/-- What the schedule is built from. The events come in their deterministic order. -/
structure Inputs where
  metaUnits : List (ℤ × ℤ)
  unified : List ProtoStatement
  events : List (List ProtoStatement)
  extraOffsets : List VarOffset
  combTotal : ℕ

structure CombLayoutSchedule where
  /-- `(old_start, old_end, new_start)` of every placed unit, by `old_start`. -/
  units : List (ℤ × ℤ × ℤ)
  /-- One past the highest byte a placed unit occupies. -/
  bufferEnd : ℤ
  deriving DecidableEq, Repr

/-- Position of the unit that holds an offset. -/
def locate (units : List StorageUnit) (o : ℤ) : Option ℕ :=
  let i := partitionPoint units fun u => u.start ≤ o
  if i = 0 then none
  else if (units[i - 1]?).any fun u => u.start = o ∨ o < u.stop then some (i - 1) else none

section Schedule

variable (external : List ProtoStatement → VarOffset → Bool) (inp : Inputs)

def Inputs.lists : List (List ProtoStatement) := inp.unified :: inp.events

def seedSpans : List (ℤ × ℤ) :=
  (inp.metaUnits ++ inp.lists.flatMap (fun l => (ProtoStatement.blocksBody l).filterMap fun b =>
      cbCombSpan external b.1 b.2) ++
    inp.lists.flatMap (fun l => (ProtoStatement.walkBody true l).flatMap dynamicSpans) ++
    inp.lists.flatMap (fun l => (ProtoStatement.walkBody true l).flatMap writeSpans)).filter
      fun r => r.1 < r.2

/-- The comb offsets of the statements, in the order of the sweeps. -/
def sweptOffsets : List ℤ :=
  inp.lists.flatMap fun l => l.flatMap fun s => (s.namedOffsets external).filterMap combRaw

/-- Offsets no unit covers, in order. -/
def orphans (units : List StorageUnit) : List ℤ :=
  (((sweptOffsets external inp ++ inp.extraOffsets.filterMap combRaw).filter
    fun o => (locate units o).isNone).dedup).insertionSort (· ≤ ·)

/-- Promotes each orphan to a unit reaching the next known boundary. -/
def promote (starts : List ℤ) (total : ℤ) : List ℤ → Except String (List StorageUnit)
  | [] => .ok []
  | o :: rest => do
    let nextUnit := (starts.find? fun s => o < s).getD total
    let nextOrphan := rest.headD total
    let end_ := min (min nextUnit nextOrphan) total
    if o < end_ then
      let units ← promote starts total rest
      .ok (⟨o, end_, none⟩ :: units)
    else .error "orphan promotion produced an empty unit"

/-- Gives the unit of an offset the next first-use index. -/
def rankStep (st : List StorageUnit × ℕ) (o : ℤ) : List StorageUnit × ℕ :=
  match locate st.1 o with
  | none => st
  | some i =>
    if (st.1[i]?).any fun u => u.rank.isNone then
      (st.1.modify i fun u => { u with rank := some st.2 }, st.2 + 1)
    else st

/-- Units used first come first, unused ones last, both in address order. -/
def rankLe (a b : StorageUnit) : Bool :=
  match a.rank, b.rank with
  | some r, some r' => r < r' ∨ r = r' ∧ a.start ≤ b.start
  | some _, none => true
  | none, some _ => false
  | none, none => a.start ≤ b.start

/-- The alignment of a unit: that of its old place, but no more than its size. -/
def alignOf (start size : ℤ) : ℤ :=
  let fromStart : ℤ :=
    if 8 ∣ start then 8 else if 4 ∣ start then 4 else if 2 ∣ start then 2 else 1
  let fromSize : ℤ := if 8 ≤ size then 8 else if 4 ≤ size then 4 else if 2 ≤ size then 2 else 1
  min fromStart fromSize

def alignUp (a pos : ℤ) : ℤ := (pos + a - 1) / a * a

/-- Places the next unit. -/
def placeStep (st : List (ℤ × ℤ × ℤ) × ℤ) (u : StorageUnit) : List (ℤ × ℤ × ℤ) × ℤ :=
  let pos := alignUp (alignOf u.start (u.stop - u.start)) st.2
  (st.1 ++ [(u.start, u.stop, pos)], pos + (u.stop - u.start))

def startsLe (a b : ℤ × ℤ × ℤ) : Bool := a.1 ≤ b.1

/-- The units of the old buffer. -/
def storageUnits : Except String (List StorageUnit) := do
  let units := (mergeOverlaps (seedSpans external inp)).map fun r => ⟨r.1, r.2, none⟩
  let orphanList := orphans external inp units
  if orphanList.isEmpty then .ok units
  else
    let promoted ← promote (units.map (·.start)) inp.combTotal orphanList
    let units := (units ++ promoted).insertionSort fun a b => a.start ≤ b.start
    if (units.zip units.tail).all fun w => w.1.stop ≤ w.2.start then .ok units
    else .error "promoted orphan units overlap existing units"

/-- Derives the relayout; `none` when there is nothing to move. -/
def buildSchedule : Except String (Option CombLayoutSchedule) :=
  if inp.combTotal = 0 then .ok none
  else do
    let units ← storageUnits external inp
    let (units, _) := (sweptOffsets external inp).foldl rankStep (units, 0)
    let (placed, pos) := (units.insertionSort fun a b => rankLe a b).foldl placeStep ([], 0)
    if placed.all fun u => u.1 = u.2.2 then .ok none
    else .ok (some ⟨placed.insertionSort fun a b => startsLe a b, pos⟩)

end Schedule

namespace CombLayoutSchedule

variable (sched : CombLayoutSchedule)

/-- Where a byte of the old buffer lies in the new one. -/
def translate (x : ℤ) : ℤ :=
  let i := partitionPoint sched.units fun u => u.1 ≤ x
  if i = 0 then x
  else
    match sched.units[i - 1]? with
    | some (s, e, n) => if s = x then n else if x < e then n + (x - s) else x
    | none => x

def translateOff : VarOffset → VarOffset
  | .ff o => .ff o
  | .comb o => .comb (sched.translate o)

end CombLayoutSchedule

section Apply

variable (external : List ProtoStatement → VarOffset → Bool) (sched : CombLayoutSchedule)

/-- Shifts a block as a whole. -/
def rigidShift (x : CompiledBlockStatement) (originalStmts : List ProtoStatement) :
    Except String ProtoStatement :=
  match cbCombSpan external x originalStmts with
  | none => .ok (.compiledBlock x originalStmts)
  | some (lo, hi) =>
    let delta := sched.translate lo - lo
    if sched.translate (hi - 1) - (hi - 1) ≠ delta then
      .error s!"comb relayout: CompiledBlock span [{lo},{hi}) not rigid"
    else if delta = 0 then .ok (.compiledBlock x originalStmts)
    else
      let shift (o : VarOffset) : VarOffset := o.adjust 0 delta
      .ok (.compiledBlock
        { x with
          combDeltaBytes := x.combDeltaBytes + delta
          inputOffsets := x.inputOffsets.map shift
          outputOffsets := x.outputOffsets.map shift
          stmtDeps := x.stmtDeps.map fun d => (d.1.map shift, d.2.map shift) }
        (originalStmts.map (·.adjustOffsets 0 delta)))

mutual

def applyOne : ProtoStatement → Except String ProtoStatement
  | .compiledBlock x stmts => rigidShift external sched x stmts
  | .sequentialBlock body => (applyToStmts body).map .sequentialBlock
  | s =>
    if s.containsCb then .error "CompiledBlock nested under control flow in comb relayout"
    else .ok (s.remapOffsetsWith sched.translateOff)
termination_by structural s => s

/-- Rewrites every comb offset through the schedule. -/
def applyToStmts : List ProtoStatement → Except String (List ProtoStatement)
  | [] => .ok []
  | s :: body => do
    let s ← applyOne s
    let body ← applyToStmts body
    .ok (s :: body)
termination_by structural body => body

end

end Apply

end CombLayout
end Veryl.Simulator
