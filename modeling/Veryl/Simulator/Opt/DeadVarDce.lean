import Veryl.Simulator.Walk

/-!
Dead-variable elimination. A census counts the reads of every variable; a combinational variable
that nothing reads loses its full-width assignments.
-/

namespace Veryl.Simulator.DeadVarDce

open Veryl.Analyzer

structure Liveness where
  /-- Full-width assignments, the only writes the pass can drop. -/
  fullWrites : ℕ := 0
  partialWrites : ℕ := 0
  inheritedWrites : ℕ := 0
  reads : ℕ := 0
  deriving DecidableEq, Repr

/-- A runtime-indexed array access. -/
structure ArrayRange where
  base : VarOffset
  num : ℕ
  stride : ℤ
  deriving DecidableEq, Repr

def ArrayRange.contains (r : ArrayRange) (off : VarOffset) : Bool :=
  if off.isFf ≠ r.base.isFf then false
  else if r.stride = 0 ∨ r.num = 0 then false
  else
    let delta := off.raw - r.base.raw
    if delta < 0 then false
    else if delta.tmod r.stride ≠ 0 then false
    else
      let idx := delta.tdiv r.stride
      0 ≤ idx ∧ idx < r.num

/-- The elements of a range. -/
def ArrayRange.elements (r : ArrayRange) : List VarOffset :=
  (List.range r.num).map fun k : ℕ => .new r.base.isFf (r.base.raw + k * r.stride)

/-- The positions in `reads` and `ranges` a droppable write was recorded over. -/
structure Span where
  r₀ : ℕ
  r₁ : ℕ
  g₀ : ℕ
  g₁ : ℕ
  deriving DecidableEq, Repr

structure Census where
  /-- The variables `live` has an entry for. -/
  keys : List VarOffset := []
  live : VarOffset → Liveness := fun _ => {}
  ranges : List ArrayRange := []
  reads : List VarOffset := []
  droppable : VarOffset → List Span := fun _ => []
  inCompiled : Bool := false
  /-- Fill `reads` and `droppable`. -/
  trace : Bool := false

namespace Census

def updateLive (c : Census) (off : VarOffset) (f : Liveness → Liveness) : Census :=
  { c with
    keys := if off ∈ c.keys then c.keys else c.keys ++ [off]
    live := Function.update c.live off (f (c.live off)) }

def addRead (c : Census) (off : VarOffset) : Census :=
  let c := c.updateLive off fun l => { l with reads := l.reads + 1 }
  { c with reads := if c.trace then c.reads ++ [off] else c.reads }

def addRange (c : Census) (r : ArrayRange) : Census := { c with ranges := c.ranges ++ [r] }

def addPartialWrite (c : Census) (off : VarOffset) : Census :=
  c.updateLive off fun l => { l with partialWrites := l.partialWrites + 1 }

/-- Records a full write whose own reads start at the given positions. -/
def addFullWrite (c : Census) (off : VarOffset) (r₀ g₀ : ℕ) : Census :=
  let c := c.updateLive off fun l => { l with fullWrites := l.fullWrites + 1 }
  { c with
    droppable :=
      if c.trace && !c.inCompiled then
        Function.update c.droppable off
          (c.droppable off ++ [⟨r₀, c.reads.length, g₀, c.ranges.length⟩])
      else c.droppable }

end Census

mutual

def walkExprReads : ProtoExpression → Census → Census
  | .variable o _ ds _ _ _, c => walkSelectReads ds (c.addRead o)
  | .value _ _ _, c => c
  | .unary _ x _ _, c => walkExprReads x c
  | .resize x _ _ _, c => walkExprReads x c
  | .binary x _ y _ _, c => walkExprReads y (walkExprReads x c)
  | .concatenation es _ _, c => walkElementReads es c
  | .ternary a b d _ _, c => walkExprReads d (walkExprReads b (walkExprReads a c))
  | .dynamicVariable o stride _ i n _ ds _ _, c =>
    walkSelectReads ds (walkExprReads i (c.addRange ⟨o, n, stride⟩))
termination_by structural e => e

def walkSelectReads : Option ProtoDynamicBitSelect → Census → Census
  | none, c => c
  | some (_, e), c => walkExprReads e c
termination_by structural ds => ds

def walkElementReads : List (ProtoExpression × ℕ × ℕ) → Census → Census
  | [], c => c
  | (e, _, _) :: es, c => walkElementReads es (walkExprReads e c)
termination_by structural es => es

end

def walkArgs (args : List ProtoExpression) (c : Census) : Census :=
  args.foldl (fun c e => walkExprReads e c) c

def walkForRange (range : ProtoForRange) (c : Census) : Census := walkArgs range.dynamicBounds c

/-- The expressions a system call evaluates. -/
def callArgs : ProtoSystemFunctionCall → List ProtoExpression
  | .display _ args | .write _ args => args
  | .assert _ condition _ args => condition :: args
  | .readmemh _ _ _ | .finish => []

def walkAssign (x : ProtoAssignStatement) (c : Census) : Census :=
  let r₀ := c.reads.length
  let g₀ := c.ranges.length
  let c := walkSelectReads x.dynamicSelect (walkExprReads x.expr c)
  if x.select.isSome ∨ x.dynamicSelect.isSome ∨ x.rhsSelect.isSome then c.addPartialWrite x.dst
  else c.addFullWrite x.dst r₀ g₀

def walkAssignDynamic (x : ProtoAssignDynamicStatement) (c : Census) : Census :=
  (walkSelectReads x.dynamicSelect (walkExprReads x.expr (walkExprReads x.dstIndexExpr c))).addRange
      ⟨x.dstBase, x.dstNumElements, x.dstStride⟩

mutual

def walkStmtLiveness : ProtoStatement → Census → Census
  | .assign x, c => walkAssign x c
  | .assignDynamic x, c => walkAssignDynamic x c
  | .ifStmt cond t f, c => walkStmts f (walkStmts t (walkArgs cond.toList c))
  | .caseStmt arms default, c => walkStmts default (walkArms arms c)
  | .forStmt x body, c => walkStmts body (walkForRange x.range (c.addPartialWrite x.varOffset))
  | .sequentialBlock body, c => walkStmts body c
  | .systemFunctionCall x, c => walkArgs (callArgs x) c
  | .compiledBlock _ originalStmts, c =>
    { walkStmts originalStmts { c with inCompiled := true } with inCompiled := c.inCompiled }
  | .tbMethodCall _ method, c => walkArgs (tbArgs method) c
  | .breakStmt, c => c
termination_by structural s => s

def walkStmts : List ProtoStatement → Census → Census
  | [], c => c
  | s :: body, c => walkStmts body (walkStmtLiveness s c)
termination_by structural body => body

def walkArms : List (ProtoExpression × List ProtoStatement) → Census → Census
  | [], c => c
  | (cond, body) :: arms, c => walkArms arms (walkStmts body (walkExprReads cond c))
termination_by structural arms => arms

end

/-- One census over every slice. -/
def census (trace : Bool) (slices : List (List ProtoStatement)) : Census :=
  slices.foldl (fun c slice => walkStmts slice c) { trace := trace }

def collectDeadOffsets (enabled : Bool) (slices : List (List ProtoStatement)) : List VarOffset :=
  if !enabled then []
  else
    let c := census false slices
    c.keys.filter fun off =>
      let s := c.live off
      !off.isFf && s.reads == 0 && s.partialWrites == 0 && s.inheritedWrites == 0 &&
        s.fullWrites != 0 && !c.ranges.any (·.contains off)

/-- The state of the cascade: what is still counted, the dead offsets, and those
of them whose writes are still to be released. -/
structure Cascade where
  live : VarOffset → Liveness
  /-- The accesses that keep each distinct range. -/
  refs : ArrayRange → ℕ
  dead : List VarOffset
  queue : List VarOffset

section Closure

variable (protect : List VarOffset) (ranges : List ArrayRange)

def qualifies (off : VarOffset) (live : VarOffset → Liveness) (refs : ArrayRange → ℕ) : Bool :=
  let s := live off
  !off.isFf && s.reads == 0 && s.partialWrites == 0 && s.inheritedWrites == 0 &&
    s.fullWrites != 0 && !protect.contains off &&
    !ranges.any fun r => refs r != 0 && r.contains off

namespace Cascade

/-- Queues an offset that has become dead. -/
def enqueue (st : Cascade) (off : VarOffset) : Cascade :=
  if !st.dead.contains off && qualifies protect ranges off st.live st.refs then
    { st with dead := off :: st.dead, queue := off :: st.queue }
  else st

def releaseRead (st : Cascade) (read : VarOffset) : Cascade :=
  let s := st.live read
  enqueue protect ranges
    { st with live := Function.update st.live read { s with reads := s.reads - 1 } } read

def releaseRange (st : Cascade) (r : ArrayRange) : Cascade :=
  let st := { st with refs := Function.update st.refs r (st.refs r - 1) }
  if st.refs r ≠ 0 then st else r.elements.foldl (enqueue protect ranges) st

def releaseSpan (reads : List VarOffset) (st : Cascade) (s : Span) : Cascade :=
  let st := ((reads.take s.r₁).drop s.r₀).foldl (releaseRead protect ranges) st
  ((ranges.take s.g₁).drop s.g₀).foldl (releaseRange protect ranges) st

/-- Releases the writes of the queued offsets until none is left. -/
def drain (reads : List VarOffset) (droppable : VarOffset → List Span) : ℕ → Cascade → Cascade
  | 0, st => st
  | fuel + 1, st =>
    match st.queue with
    | [] => st
    | off :: queue =>
      drain reads droppable fuel
        ((droppable off).foldl (releaseSpan protect ranges reads) { st with queue := queue })

end Cascade
end Closure

def collectDeadClosure (enabled : Bool) (slices : List (List ProtoStatement))
    (protect : List VarOffset) : List VarOffset :=
  if !enabled then []
  else
    let c := census true slices
    let refs (r : ArrayRange) : ℕ := c.ranges.count r
    let dead := c.keys.filter fun off => qualifies protect c.ranges off c.live refs
    -- every offset is queued once, so the number of offsets bounds the steps
    (Cascade.drain protect c.ranges c.reads c.droppable c.keys.length
      { live := c.live, refs := refs, dead := dead, queue := dead }).dead

/-- A full-width assignment to a dead offset. -/
def dropped (dead : List VarOffset) (x : ProtoAssignStatement) : Bool :=
  x.select.isNone && x.dynamicSelect.isNone && x.rhsSelect.isNone && dead.contains x.dst

mutual

/-- What is left of a statement, and how many assignments were dropped. A
compiled block stays as it is. -/
def applyStmt (dead : List VarOffset) : ProtoStatement → Option ProtoStatement × ℕ
  | .assign x => if dropped dead x then (none, 1) else (some (.assign x), 0)
  | .sequentialBlock body =>
    let b := applyBody dead body
    (some (.sequentialBlock b.1), b.2)
  | .ifStmt cond t f =>
    let t := applyBody dead t
    let f := applyBody dead f
    (some (.ifStmt cond t.1 f.1), t.2 + f.2)
  | .caseStmt arms default =>
    let a := applyArms dead arms
    let d := applyBody dead default
    (some (.caseStmt a.1 d.1), a.2 + d.2)
  | .forStmt x body =>
    let b := applyBody dead body
    (some (.forStmt x b.1), b.2)
  | .assignDynamic x => (some (.assignDynamic x), 0)
  | .breakStmt => (some .breakStmt, 0)
  | .systemFunctionCall x => (some (.systemFunctionCall x), 0)
  | .compiledBlock x stmts => (some (.compiledBlock x stmts), 0)
  | .tbMethodCall inst method => (some (.tbMethodCall inst method), 0)
termination_by structural s => s

def applyBody (dead : List VarOffset) : List ProtoStatement → List ProtoStatement × ℕ
  | [] => ([], 0)
  | s :: body =>
    let a := applyStmt dead s
    let b := applyBody dead body
    (a.1.toList ++ b.1, a.2 + b.2)
termination_by structural body => body

def applyArms (dead : List VarOffset) : List (ProtoExpression × List ProtoStatement) →
      List (ProtoExpression × List ProtoStatement) × ℕ
  | [] => ([], 0)
  | (cond, body) :: arms =>
    let b := applyBody dead body
    let a := applyArms dead arms
    ((cond, b.1) :: a.1, b.2 + a.2)
termination_by structural arms => arms

end

def applyCounting (stmts : List ProtoStatement) (dead : List VarOffset) : List ProtoStatement × ℕ :=
  if dead.isEmpty then (stmts, 0) else applyBody dead stmts

/-- The pass on every slice. -/
def applySlices (slices : List (List ProtoStatement)) (dead : List VarOffset) :
    List (List ProtoStatement) × ℕ :=
  (slices.map fun s => (applyCounting s dead).1, (slices.map fun s => (applyCounting s dead).2).sum)

/-- The fixpoint the closure stands for: one census and drop per round, as the
tests of the pass repeat them. -/
def byRounds (enabled : Bool) (protect : List VarOffset) :
    ℕ → List (List ProtoStatement) → List VarOffset → Option (List VarOffset)
  | 0, _, _ => none
  | rounds + 1, slices, union =>
    let dead := (collectDeadOffsets enabled slices).filter fun off => !protect.contains off
    if dead.isEmpty then some union
    else
      let (rest, dropped) := applySlices slices dead
      if dropped = 0 then some (union ++ dead)
      else byRounds enabled protect rounds rest (union ++ dead)

end Veryl.Simulator.DeadVarDce
