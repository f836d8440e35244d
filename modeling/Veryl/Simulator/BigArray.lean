import Veryl.Library.Cuts
import Veryl.Simulator.Walk

/-!
Very large arrays indexed at run time are folded onto their base for analysis.
-/

namespace Veryl.Simulator

open Veryl.Analyzer Veryl.Library List

/-- Byte span above which an array folds. -/
def foldSpanBytes : ℕ := 2 ^ 20 * 8

/-- `(is_ff, start, end)` byte ranges, in order. -/
structure BigArrayFold where
  spans : List (Bool × ℤ × ℤ)
  deriving DecidableEq, Repr

/-- The order of the source's sorts on spans: field by field. -/
def spanLe (a b : Bool × ℤ × ℤ) : Bool :=
  a.1 < b.1 ∨ a.1 = b.1 ∧ (a.2.1 < b.2.1 ∨ a.2.1 = b.2.1 ∧ a.2.2 ≤ b.2.2)

namespace BigArrayFold

/-- The range recorded for an access, if it is large enough. -/
def record (base : VarOffset) (stride : ℤ) (numElements : ℕ) : Option (Bool × ℤ × ℤ) :=
  if stride ≤ 0 ∨ numElements ≤ 1 then none
  else
    let span := stride.toNat * numElements
    if span ≤ foldSpanBytes then none
    else some (base.isFf, base.raw, base.raw + span)

/-- Merges the next range in order into those merged so far, the last one first. -/
def mergeStep (merged : List (Bool × ℤ × ℤ)) (s : Bool × ℤ × ℤ) : List (Bool × ℤ × ℤ) :=
  match merged with
  | last :: rest =>
    if last.1 = s.1 ∧ s.2.1 ≤ last.2.2 then (last.1, last.2.1, max last.2.2 s.2.2) :: rest
    else s :: last :: rest
  | [] => [s]

def finish (spans : List (Bool × ℤ × ℤ)) : BigArrayFold :=
  ⟨((spans.insertionSort fun a b => spanLe a b).foldl mergeStep []).reverse⟩

/-- The span that contains an offset: the last one starting at or before it. -/
def find (fold : BigArrayFold) (off : VarOffset) : Option (Bool × ℤ × ℤ) :=
  let i := partitionPoint fold.spans fun s =>
    s.1 < off.isFf ∨ s.1 = off.isFf ∧ s.2.1 ≤ off.raw
  if i = 0 then none
  else (fold.spans[i - 1]?).filter fun s => s.1 = off.isFf ∧ off.raw < s.2.2

def covers (fold : BigArrayFold) (off : VarOffset) : Bool := (fold.find off).isSome

/-- `off` mapped onto the base of its array where that is folded. -/
def canon (fold : BigArrayFold) (off : VarOffset) : VarOffset :=
  match fold.find off with
  | some s => .new off.isFf s.2.1
  | none => off

end BigArrayFold

/-- The runtime-indexed arrays of an expression. -/
def ProtoExpression.collectBigArrays (e : ProtoExpression) : List (Bool × ℤ × ℤ) :=
  e.leaves.filterMap fun
    | .dynamicVariable base stride _ _ n _ _ _ _ => BigArrayFold.record base stride n
    | _ => none

def Visit.collectBigArrays (v : Visit) : List (Bool × ℤ × ℤ) :=
  v.operands.flatMap (·.collectBigArrays) ++
    match v with
    | .assignDynamic x => (BigArrayFold.record x.dstBase x.dstStride x.dstNumElements).toList
    | _ => []

def BigArrayFold.fromStatements (stmts : List ProtoStatement) : BigArrayFold :=
  .finish (stmts.flatMap fun s => (s.walk true).flatMap Visit.collectBigArrays)

section Gather

variable (fold : BigArrayFold)

/-- What an access through a runtime index contributes. -/
def arrayOffsets (base : VarOffset) (stride : ℤ) (numElements : ℕ) : List VarOffset :=
  if fold.covers base then [base]
  else (List.range numElements).map fun i : ℕ => .new base.isFf (base.raw + stride * i)

def ProtoExpression.gatherVariableOffsetsExpanded (e : ProtoExpression) : List VarOffset :=
  e.leaves.flatMap fun
    | .variable o _ _ _ _ _ => [fold.canon o]
    | .dynamicVariable base stride _ _ n _ _ _ _ => arrayOffsets fold base stride n
    | _ => []

/-- The inputs of an item. Without its original statements a block is known by
its cached offsets. -/
def Visit.gatherInputs (v : Visit) : List VarOffset :=
  v.operands.flatMap (·.gatherVariableOffsetsExpanded fold) ++
    match v with
    | .compiled x =>
      if x.stmtDeps.isEmpty then x.inputOffsets.map fold.canon
      else x.stmtDeps.flatMap fun d => d.1.map fold.canon
    | _ => []

/-- The outputs of an item. Loop counters and memory images are not among them. -/
def Visit.gatherOutputs : Visit → List VarOffset
  | .assign x => [fold.canon x.dst]
  | .assignDynamic x => arrayOffsets fold x.dstBase x.dstStride x.dstNumElements
  | .compiled x =>
    if x.stmtDeps.isEmpty then x.outputOffsets.map fold.canon
    else x.stmtDeps.flatMap fun d => d.2.map fold.canon
  | .cond _ | .loop _ | .call _ | .tb _ => []

/-- The inputs and outputs of a statement, array elements expanded. -/
def ProtoStatement.gatherVariableOffsetsExpanded (s : ProtoStatement) :
    List VarOffset × List VarOffset :=
  ((s.walk true).flatMap (Visit.gatherInputs fold),
    (s.walk true).flatMap (Visit.gatherOutputs fold))

end Gather

end Veryl.Simulator
