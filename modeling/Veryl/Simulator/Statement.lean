import Veryl.Simulator.Expression
import Veryl.Library.Computation

/-!
Statements before code generation, and their execution as the interpreter does it.
-/

namespace Veryl.Simulator

open Veryl.Analyzer Veryl.Library Computation

inductive AssertKind where
  | fatal | continue_
  deriving DecidableEq, Repr

structure ProtoAssignStatement where
  dst : VarOffset
  dstWidth : ℕ
  select : Option (ℕ × ℕ)
  dynamicSelect : Option ProtoDynamicBitSelect
  rhsSelect : Option (ℕ × ℕ)
  expr : ProtoExpression
  /-- Where the log of a flip-flop store points. -/
  dstFfCurrentOffset : ℤ
  /-- A combinational store that lands in flip-flop storage. -/
  combDirect : Bool

structure ProtoAssignDynamicStatement where
  dstBase : VarOffset
  dstStride : ℤ
  dstNumElements : ℕ
  dstIndexExpr : ProtoExpression
  dstWidth : ℕ
  select : Option (ℕ × ℕ)
  dynamicSelect : Option ProtoDynamicBitSelect
  rhsSelect : Option (ℕ × ℕ)
  expr : ProtoExpression
  dstFfCurrentBaseOffset : ℤ
  combDirect : Bool

inductive ProtoForBound where
  | const (value : BitVec 64) (signed : Bool)
  | dynamic (expr : ProtoExpression)

inductive ProtoForRange where
  | forward (start end_ : ProtoForBound) (inclusive : Bool) (step : BitVec 64)
  | reverse (start end_ : ProtoForBound) (inclusive : Bool) (step : BitVec 64)
  | stepped (start end_ : ProtoForBound) (inclusive : Bool) (step : BitVec 64) (op : Op)

/-- A `for` statement, its body aside. -/
structure ProtoForStatement where
  varOffset : VarOffset
  varWidth : ℕ
  varNativeBytes : ℕ
  varSigned : Bool
  range : ProtoForRange
  token : String

structure ReadmemhElement where
  current : VarOffset
  nextOffset : Option ℤ

inductive ProtoSystemFunctionCall where
  | display (formatStr : String) (args : List ProtoExpression)
  | write (formatStr : String) (args : List ProtoExpression)
  | readmemh (filename : String) (elements : List ReadmemhElement) (width : ℕ)
  | assert (kind : AssertKind) (condition : ProtoExpression) (formatStr : String)
      (args : List ProtoExpression)
  | finish

inductive ProtoComponentArg where
  | str (s : String)
  | expr (e : ProtoExpression)

inductive ProtoTbMethodKind where
  | clockNext (count period : Option ProtoExpression)
  | resetAssert (clock : String) (duration : Option ProtoExpression)
  | fileOpen (path : String) (append : Bool)
  | fileWrite (formatStr : String) (args : List ProtoExpression)
  | fileClose
  | fileFlush
  | component (method : String) (args : List ProtoComponentArg)
  | randomSeed (value : ProtoExpression)
  | randomGet
  | randomGetRange (min max : ProtoExpression)
  | randomGetSeed
  | queue (value : Option ProtoExpression)

/-- A compiled block, its original statements aside. -/
structure CompiledBlockStatement where
  ffDeltaBytes : ℤ
  combDeltaBytes : ℤ
  inputOffsets : List VarOffset
  outputOffsets : List VarOffset
  /-- Inputs and outputs of each original statement. -/
  stmtDeps : List (List VarOffset × List VarOffset)

inductive ProtoStatement where
  | assign (x : ProtoAssignStatement)
  | assignDynamic (x : ProtoAssignDynamicStatement)
  | ifStmt (cond : Option ProtoExpression) (trueSide falseSide : List ProtoStatement)
  | caseStmt (arms : List (ProtoExpression × List ProtoStatement))
      (default : List ProtoStatement)
  | forStmt (x : ProtoForStatement) (body : List ProtoStatement)
  | breakStmt
  | systemFunctionCall (x : ProtoSystemFunctionCall)
  | compiledBlock (x : CompiledBlockStatement) (originalStmts : List ProtoStatement)
  | sequentialBlock (body : List ProtoStatement)
  | tbMethodCall (inst : String) (method : ProtoTbMethodKind)

@[elab_as_elim, induction_eliminator]
theorem ProtoStatement.ind {motive : ProtoStatement → Prop} (assign : ∀ x, motive (.assign x))
    (assignDynamic : ∀ x, motive (.assignDynamic x))
    (ifStmt : ∀ c t f, (∀ s ∈ t, motive s) → (∀ s ∈ f, motive s) → motive (.ifStmt c t f))
    (caseStmt : ∀ arms d, (∀ a ∈ arms, ∀ s ∈ a.2, motive s) → (∀ s ∈ d, motive s) →
      motive (.caseStmt arms d))
    (forStmt : ∀ x body, (∀ s ∈ body, motive s) → motive (.forStmt x body))
    (breakStmt : motive .breakStmt)
    (systemFunctionCall : ∀ x, motive (.systemFunctionCall x))
    (compiledBlock : ∀ x stmts, (∀ s ∈ stmts, motive s) → motive (.compiledBlock x stmts))
    (sequentialBlock : ∀ body, (∀ s ∈ body, motive s) → motive (.sequentialBlock body))
    (tbMethodCall : ∀ inst method, motive (.tbMethodCall inst method))
    (s : ProtoStatement) : motive s :=
  ProtoStatement.rec (motive_1 := motive) (motive_2 := fun body => ∀ s ∈ body, motive s)
    (motive_3 := fun arms => ∀ a ∈ arms, ∀ s ∈ a.2, motive s)
    (motive_4 := fun a => ∀ s ∈ a.2, motive s)
    assign assignDynamic ifStmt caseStmt forStmt breakStmt systemFunctionCall compiledBlock
    sequentialBlock tbMethodCall (by simp) (by simp_all) (by simp) (by simp_all) (by simp) s

/-- What a run does besides storing into the buffers. -/
inductive Output where
  | ffLog (offset : ℤ) (value : Value) (nativeBytes : ℕ) (span : Option (ℕ × ℕ))
  | display (formatStr : String) (values : List Value)
  | write (formatStr : String) (values : List Value)
  | assertFailed (kind : AssertKind) (formatStr : String) (values : List Value)
  | stuckLoop (token : String) (counter : BitVec 64)

abbrev Exec (α : Type) := Computation Mem Output α

inductive ControlFlow where
  | continue_ | break_
  deriving DecidableEq, Repr

/-- The right-hand side as the store sees it: a part of it, or sign-extended to
the destination where it is a signed leaf. -/
def storeRhs (env : Env) (m : Mem) (expr : ProtoExpression) (rhsSelect : Option (ℕ × ℕ))
    (dstWidth : ℕ) : Value :=
  let value := expr.eval env m
  match rhsSelect with
  | some (beg, end_) => (value.expand (max value.width (beg + 1)) false).select beg end_
  | none =>
    if (expr.storeSignExtendFrom dstWidth).isSome ∧ value.width < dstWidth then
      value.expand dstWidth true
    else value

/-- What a store leaves in the slot at `o`; `none` is a store without effect. -/
def storedValue (env : Env) (m : Mem) (o : VarOffset) (dstWidth : ℕ) (select : Option (ℕ × ℕ))
    (dynamicSelect : Option (DynamicBitSelect × Value)) (value : Value) : Option Value :=
  let current := m.readNativeValue o (nativeBytes dstWidth) env.use4state dstWidth false
  match dynamicSelect, select with
  | some (d, index), _ => do
    let index ← index.toUsize
    let (beg, end_, skip) ← d.writeBounds index dstWidth
    let value :=
      if skip = 0 then value else (value.expand d.window false).select (d.window - 1) skip
    some (current.assign value beg end_)
  | none, some (beg, end_) => some (current.assign value beg end_)
  | none, none => some (value.trunc dstWidth)

/-- Stores a value, unless the slot is left to the log, and logs it. -/
def deposit (env : Env) (o : VarOffset) (dstWidth : ℕ) (isPacked : Bool)
    (logOffset : Option ℤ) (span : Option (ℕ × ℕ)) : Option Value → Exec Unit
  | none => pure ()
  | some v => do
    Computation.modify fun m =>
      if isPacked then m else m.writeNativeValue o (nativeBytes dstWidth) env.use4state v
    emit (logOffset.toList.map fun base =>
      .ffLog base v (nativeBytes dstWidth) span)

namespace ProtoAssignStatement

def ffLogOffset (x : ProtoAssignStatement) : Option ℤ :=
  if x.dst.isFf && !x.combDirect then some x.dstFfCurrentOffset else none

/-- The destination is the current slot itself, which the log delivers. -/
def ffIsPacked (x : ProtoAssignStatement) : Bool :=
  x.dst.isFf && !x.combDirect && x.dst.raw == x.dstFfCurrentOffset

def exec (env : Env) (x : ProtoAssignStatement) : Exec Unit := do
  let value ← Computation.read fun m =>
    storedValue env m x.dst x.dstWidth x.select (ProtoExpression.evalSelect env m x.dynamicSelect)
      (storeRhs env m x.expr x.rhsSelect x.dstWidth)
  deposit env x.dst x.dstWidth x.ffIsPacked x.ffLogOffset
    (if x.dynamicSelect.isSome then none else x.select) value

end ProtoAssignStatement

namespace ProtoAssignDynamicStatement

def ffLogBaseCurrentOffset (x : ProtoAssignDynamicStatement) : Option ℤ :=
  if x.dstBase.isFf && !x.combDirect then some x.dstFfCurrentBaseOffset else none

def ffIsPacked (x : ProtoAssignDynamicStatement) : Bool :=
  x.dstBase.isFf && !x.combDirect && x.dstBase.raw == x.dstFfCurrentBaseOffset

/-- The store into element `i`. -/
def execElement (env : Env) (x : ProtoAssignDynamicStatement) (i : ℕ) : Exec Unit := do
  let dst := x.dstBase.add (x.dstStride * i)
  let value ← Computation.read fun m =>
    storedValue env m dst x.dstWidth x.select (ProtoExpression.evalSelect env m x.dynamicSelect)
      (storeRhs env m x.expr x.rhsSelect x.dstWidth)
  deposit env dst x.dstWidth x.ffIsPacked (x.ffLogBaseCurrentOffset.map (· + x.dstStride * i))
    none value

/-- An index out of range stores nothing. -/
def exec (env : Env) (x : ProtoAssignDynamicStatement) : Exec Unit := do
  let index ← Computation.read fun m => (x.dstIndexExpr.eval env m).toUsize
  match index with
  | none => pure ()
  | some i => if i < x.dstNumElements then x.execElement env i else pure ()

end ProtoAssignDynamicStatement

/-!
Loops. A counter is a 64-bit word that wraps at the declared width.
-/

def extendToI64 (v : BitVec 64) (width : ℕ) (signed : Bool) : BitVec 64 :=
  if width = 0 ∨ 64 ≤ width then v
  else if signed then (v <<< (64 - width)).sshiftRight (64 - width)
  else v &&& BitVec.ofNat 64 (genMask width)

/-- The test that ends a loop: signed only when both sides are. -/
def forBoundReached (i : BitVec 64) (varWidth : ℕ) (varSigned : Bool) (bound : BitVec 64)
    (boundShape : ℕ × Bool) (ge inclusive : Bool) : Bool :=
  let mask (w : ℕ) : BitVec 64 :=
    if 64 ≤ w then BitVec.allOnes 64 else BitVec.ofNat 64 (genMask w)
  let ord :=
    if varSigned && boundShape.2 then compare i.toInt bound.toInt
    else compare (i &&& mask varWidth).toNat (bound &&& mask boundShape.1).toNat
  match ge, inclusive with
  | false, false => ord != .lt
  | false, true => ord == .gt
  | true, _ => ord == .lt

/-- Width and signedness of a bound as the loop compares it. -/
def ProtoForBound.shape : ProtoForBound → ℕ × Bool
  | .const _ signed => (64, signed)
  | .dynamic e => (e.width, e.exprContext.signed)

def ProtoForBound.eval (env : Env) (m : Mem) : ProtoForBound → BitVec 64
  | .const v _ => v
  | .dynamic e =>
    extendToI64 (BitVec.ofNat 64 ((e.eval env m).toU64.getD 0)) e.width e.exprContext.signed

namespace ProtoForRange

def start : ProtoForRange → ProtoForBound
  | .forward s _ _ _ | .reverse s _ _ _ | .stepped s _ _ _ _ => s

def end_ : ProtoForRange → ProtoForBound
  | .forward _ e _ _ | .reverse _ e _ _ | .stepped _ e _ _ _ => e

end ProtoForRange

namespace ProtoForStatement

def wrap (x : ProtoForStatement) (v : BitVec 64) : BitVec 64 :=
  extendToI64 v x.varWidth x.varSigned

/-- The first counter value. -/
def first (x : ProtoForStatement) (start end_ : BitVec 64) : BitVec 64 :=
  match x.range with
  | .reverse _ _ inclusive _ => x.wrap (if inclusive then end_ else end_ - 1)
  | _ => x.wrap start

def done (x : ProtoForStatement) (start end_ i : BitVec 64) : Bool :=
  let reached (bound : BitVec 64) (b : ProtoForBound) (ge inclusive : Bool) : Bool :=
    forBoundReached i x.varWidth x.varSigned bound b.shape ge inclusive
  match x.range with
  | .forward _ e inclusive _ | .stepped _ e inclusive _ _ => reached end_ e false inclusive
  | .reverse s _ _ _ => reached start s true false

/-- The counter of the next iteration, or `none` where a step does not advance
it. -/
def next (env : Env) (x : ProtoForStatement) (i : BitVec 64) : Option (BitVec 64) :=
  match x.range with
  | .forward _ _ _ step => some (x.wrap (i + step))
  | .reverse _ _ _ step => some (x.wrap (i - step))
  | .stepped _ _ _ step op =>
    ((env.evalOp op i.toNat step.toNat).map fun n => x.wrap (BitVec.ofNat 64 n)).filter fun n =>
      !forBoundReached i x.varWidth x.varSigned n (x.varWidth, x.varSigned) false false

def writeCounter (env : Env) (x : ProtoForStatement) (i : BitVec 64) : Exec Unit :=
  Computation.modify fun m =>
    m.writeNativeValue x.varOffset x.varNativeBytes env.use4state
      (.new i.toNat x.varWidth x.varSigned)

/-- One iteration. -/
def step (env : Env) (x : ProtoForStatement) (start end_ : BitVec 64) (body : Exec ControlFlow)
    (i : BitVec 64) : Exec (Option (BitVec 64)) :=
  if x.done start end_ i then pure none
  else do
    x.writeCounter env i
    let flow ← body
    match flow, x.next env i with
    | .break_, _ => pure none
    | .continue_, some j => pure (some j)
    | .continue_, none => do
      emit [.stuckLoop x.token i]
      pure none

def exec (env : Env) (x : ProtoForStatement) (body : Exec ControlFlow) : Exec Unit := do
  let bounds ← Computation.read fun m => (x.range.start.eval env m, x.range.end_.eval env m)
  loop (x.step env bounds.1 bounds.2 body) env.maxIterations (x.first bounds.1 bounds.2)

end ProtoForStatement

/-- Loads the words of a memory image from element `i` on. -/
def readmemhLoad (env : Env) (elements : List ReadmemhElement) (nb : ℕ) :
    List HexItem → ℕ → Mem → Mem
  | [], _, m => m
  | .address a :: items, _, m => readmemhLoad env elements nb items a m
  | .word v :: items, i, m =>
    match elements[i]? with
    | none => m
    | some elem =>
      let m := m.writeNativeValue elem.current nb env.use4state v
      let m := match elem.nextOffset with
        | none => m
        | some next => m.writeNativeValue (.ff next) nb env.use4state v
      readmemhLoad env elements nb items (i + 1) m

def ProtoSystemFunctionCall.exec (env : Env) : ProtoSystemFunctionCall → Exec Unit
  | .display fmt args => do
    let values ← Computation.read fun m => args.map (·.eval env m)
    emit [.display fmt values]
  | .write fmt args => do
    let values ← Computation.read fun m => args.map (·.eval env m)
    emit [.write fmt values]
  | .readmemh filename elements width =>
    Computation.modify
      (readmemhLoad env elements (nativeBytes width) (env.readHexFile filename width) 0)
  | .assert kind condition fmt args => do
    let (cond, values) ← Computation.read fun m =>
      (condition.eval env m, args.map (·.eval env m))
    if cond.payload % 2 ^ 64 = 0 then emit [.assertFailed kind fmt values]
    else pure ()
  | .finish => pure ()

namespace ProtoStatement

mutual

def exec (env : Env) : ProtoStatement → Exec ControlFlow
  | .assign x => do
    x.exec env
    pure .continue_
  | .assignDynamic x => do
    x.exec env
    pure .continue_
  | .ifStmt cond trueSide falseSide => do
    let taken ← Computation.read fun m => cond.any fun e => (e.eval env m).isTrueCond
    if taken then execBody env trueSide else execBody env falseSide
  | .caseStmt arms default => execArms env arms (execBody env default)
  | .forStmt x body => do
    x.exec env (execBody env body)
    pure .continue_
  | .breakStmt => pure .break_
  | .systemFunctionCall x => do
    x.exec env
    pure .continue_
  | .compiledBlock _ originalStmts => do
    let _ ← execBody env originalStmts
    pure .continue_
  | .sequentialBlock body => execBody env body
  | .tbMethodCall _ _ => pure .continue_
termination_by structural s => s

/-- Runs a body up to its end or a `break`. -/
def execBody (env : Env) : List ProtoStatement → Exec ControlFlow
  | [] => pure .continue_
  | s :: body => do
    let flow ← s.exec env
    match flow with
    | .break_ => pure .break_
    | .continue_ => execBody env body
termination_by structural body => body

/-- Runs the body of the first arm whose condition holds. -/
def execArms (env : Env) : List (ProtoExpression × List ProtoStatement) → Exec ControlFlow →
    Exec ControlFlow
  | [], default => default
  | (cond, body) :: arms, default => do
    let taken ← Computation.read fun m => (cond.eval env m).isTrueCond
    if taken then execBody env body else execArms env arms default
termination_by structural arms => arms

end

/-- A statement at the top of a list, where a `break` ends nothing. -/
def execTop (env : Env) (s : ProtoStatement) : Exec Unit := do
  let _ ← s.exec env
  pure ()

end ProtoStatement

/-- One pass over a statement list. -/
def runPass (env : Env) (stmts : List ProtoStatement) : Exec Unit :=
  Computation.sequence (stmts.map (·.execTop env))

/-- An environment for runs on fixed inputs. -/
def plainEnv : Env where
  use4state := false
  evalValueUnary _ v _ _ := v
  evalValueBinary _ v _ _ _ := v
  evalOp _ n _ := some n
  readHexFile _ _ := []
  maxIterations := 8

def byteValue (n : ℕ) : ProtoExpression := .value (.new n 8 false) 8 ⟨8, false⟩

def byteVariable (o : VarOffset) : ProtoExpression := .variable o none none 8 8 ⟨8, false⟩

def byteAssign (dst : VarOffset) (expr : ProtoExpression) : ProtoStatement :=
  .assign
    { dst := dst, dstWidth := 8, select := none, dynamicSelect := none, rhsSelect := none
      expr := expr, dstFfCurrentOffset := 0, combDirect := false }

end Veryl.Simulator
