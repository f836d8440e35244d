import Veryl.Simulator.Statement

/-!
Walks over statements. `walk` lists what a statement consists of in source order; the gathers of
the optimizer passes are that walk with their own treatment of each item.
-/

namespace Veryl.Simulator

open Veryl.Analyzer Veryl.Library List ProtoForStatement

variable {x : ProtoForStatement}

/-- One item of a statement tree. -/
inductive Visit where
  | cond (e : ProtoExpression)
  | assign (x : ProtoAssignStatement)
  | assignDynamic (x : ProtoAssignDynamicStatement)
  | loop (x : ProtoForStatement)
  | call (x : ProtoSystemFunctionCall)
  | compiled (x : CompiledBlockStatement)
  | tb (method : ProtoTbMethodKind)

/-- The bounds of a loop that are evaluated at run time. -/
def ProtoForRange.dynamicBounds (r : ProtoForRange) : List ProtoExpression :=
  [r.start, r.end_].filterMap fun
    | .dynamic e => some e
    | .const _ _ => none

/-- The expressions an item evaluates. A method call is left to the testbench. -/
def Visit.operands : Visit → List ProtoExpression
  | .cond e => [e]
  | .assign x => x.expr :: x.dynamicSelect.toList.map (·.2)
  | .assignDynamic x => x.dstIndexExpr :: x.expr :: x.dynamicSelect.toList.map (·.2)
  | .loop x => x.range.dynamicBounds
  | .call (.display _ args) | .call (.write _ args) => args
  | .call (.assert _ condition _ args) => condition :: args
  | .call (.readmemh ..) | .call .finish | .compiled _ | .tb _ => []

/-- The expressions a method call evaluates. -/
def tbArgs : ProtoTbMethodKind → List ProtoExpression
  | .fileWrite _ args => args
  | .clockNext count period => count.toList ++ period.toList
  | .resetAssert _ duration => duration.toList
  | .component _ args => args.filterMap fun
    | .expr e => some e
    | .str _ => none
  | .randomSeed value => [value]
  | .queue value => value.toList
  | .randomGetRange min max => [min, max]
  | .fileOpen _ _ | .fileClose | .fileFlush | .randomGet | .randomGetSeed => []

namespace ProtoStatement

mutual

/-- The items of a statement. A compiled block is opened into its original
statements when `originals` asks for them and it has any. -/
def walk (originals : Bool) : ProtoStatement → List Visit
  | .assign x => [.assign x]
  | .assignDynamic x => [.assignDynamic x]
  | .ifStmt cond t f => cond.toList.map .cond ++ walkBody originals t ++ walkBody originals f
  | .caseStmt arms default => walkArms originals arms ++ walkBody originals default
  | .forStmt x body => .loop x :: walkBody originals body
  | .breakStmt => []
  | .systemFunctionCall x => [.call x]
  | .compiledBlock x stmts =>
    if originals && !stmts.isEmpty then walkBody originals stmts else [.compiled x]
  | .sequentialBlock body => walkBody originals body
  | .tbMethodCall _ method => [.tb method]
termination_by structural s => s

def walkBody (originals : Bool) : List ProtoStatement → List Visit
  | [] => []
  | s :: body => s.walk originals ++ walkBody originals body
termination_by structural body => body

def walkArms (originals : Bool) : List (ProtoExpression × List ProtoStatement) → List Visit
  | [] => []
  | (cond, body) :: arms => .cond cond :: (walkBody originals body ++ walkArms originals arms)
termination_by structural arms => arms

end

theorem walkBody_eq (originals : Bool) (body : List ProtoStatement) :
    walkBody originals body = body.flatMap (·.walk originals) := by
  induction body with
  | nil => rfl
  | cons s body ih => simp [walkBody, ih]

theorem walkArms_eq (originals : Bool) (arms : List (ProtoExpression × List ProtoStatement)) :
    walkArms originals arms = arms.flatMap fun a => .cond a.1 :: walkBody originals a.2 := by
  induction arms with
  | nil => rfl
  | cons a arms ih => simp [walkArms, ih]

mutual

def containsCb : ProtoStatement → Bool
  | .compiledBlock _ _ => true
  | .sequentialBlock body => anyContainsCb body
  | .ifStmt _ t f => anyContainsCb t || anyContainsCb f
  | .caseStmt arms default => armsContainCb arms || anyContainsCb default
  | .forStmt _ body => anyContainsCb body
  | _ => false
termination_by structural s => s

def anyContainsCb : List ProtoStatement → Bool
  | [] => false
  | s :: body => s.containsCb || anyContainsCb body
termination_by structural body => body

def armsContainCb : List (ProtoExpression × List ProtoStatement) → Bool
  | [] => false
  | (_, body) :: arms => anyContainsCb body || armsContainCb arms
termination_by structural arms => arms

end

theorem anyContainsCb_eq (body : List ProtoStatement) :
    anyContainsCb body = body.any (·.containsCb) := by
  induction body with
  | nil => rfl
  | cons s body ih => simp [anyContainsCb, ih]

theorem armsContainCb_eq (arms : List (ProtoExpression × List ProtoStatement)) :
    armsContainCb arms = arms.any fun a => anyContainsCb a.2 := by
  induction arms with
  | nil => rfl
  | cons a arms ih => simp [armsContainCb, ih]

end ProtoStatement

section Remap

variable (f : VarOffset → VarOffset)

def ProtoAssignStatement.remapOffsetsWith (x : ProtoAssignStatement) : ProtoAssignStatement :=
  { x with
    dst := f x.dst
    expr := x.expr.remapOffsetsWith f
    dynamicSelect := ProtoExpression.remapSelect f x.dynamicSelect }

def ProtoAssignDynamicStatement.remapOffsetsWith (x : ProtoAssignDynamicStatement) :
    ProtoAssignDynamicStatement :=
  { x with
    dstBase := f x.dstBase
    dstIndexExpr := x.dstIndexExpr.remapOffsetsWith f
    expr := x.expr.remapOffsetsWith f
    dynamicSelect := ProtoExpression.remapSelect f x.dynamicSelect }

def ProtoForBound.remapOffsetsWith : ProtoForBound → ProtoForBound
  | .const v signed => .const v signed
  | .dynamic e => .dynamic (e.remapOffsetsWith f)

def ProtoForRange.remapOffsetsWith : ProtoForRange → ProtoForRange
  | .forward s e inclusive step =>
    .forward (s.remapOffsetsWith f) (e.remapOffsetsWith f) inclusive step
  | .reverse s e inclusive step =>
    .reverse (s.remapOffsetsWith f) (e.remapOffsetsWith f) inclusive step
  | .stepped s e inclusive step op =>
    .stepped (s.remapOffsetsWith f) (e.remapOffsetsWith f) inclusive step op

def ProtoForStatement.remapOffsetsWith (x : ProtoForStatement) : ProtoForStatement :=
  { x with varOffset := f x.varOffset, range := x.range.remapOffsetsWith f }

def ProtoSystemFunctionCall.remapOffsetsWith : ProtoSystemFunctionCall → ProtoSystemFunctionCall
  | .display fmt args => .display fmt (args.map (·.remapOffsetsWith f))
  | .write fmt args => .write fmt (args.map (·.remapOffsetsWith f))
  | .readmemh filename elements width =>
    .readmemh filename (elements.map fun e => { e with current := f e.current }) width
  | .assert kind condition fmt args =>
    .assert kind (condition.remapOffsetsWith f) fmt (args.map (·.remapOffsetsWith f))
  | .finish => .finish

def ProtoComponentArg.remapOffsetsWith : ProtoComponentArg → ProtoComponentArg
  | .str s => .str s
  | .expr e => .expr (e.remapOffsetsWith f)

def ProtoTbMethodKind.remapOffsetsWith : ProtoTbMethodKind → ProtoTbMethodKind
  | .clockNext count period =>
    .clockNext (count.map (·.remapOffsetsWith f)) (period.map (·.remapOffsetsWith f))
  | .resetAssert clock duration => .resetAssert clock (duration.map (·.remapOffsetsWith f))
  | .fileWrite fmt args => .fileWrite fmt (args.map (·.remapOffsetsWith f))
  | .component method args => .component method (args.map (·.remapOffsetsWith f))
  | .randomSeed value => .randomSeed (value.remapOffsetsWith f)
  | .randomGetRange min max => .randomGetRange (min.remapOffsetsWith f) (max.remapOffsetsWith f)
  | .queue value => .queue (value.map (·.remapOffsetsWith f))
  | .fileOpen path append => .fileOpen path append
  | .fileClose => .fileClose
  | .fileFlush => .fileFlush
  | .randomGet => .randomGet
  | .randomGetSeed => .randomGetSeed

namespace ProtoStatement

mutual

/-- Translates every offset. A compiled block stays as it is: its code has the
offsets baked in. -/
def remapOffsetsWith : ProtoStatement → ProtoStatement
  | .assign x => .assign (x.remapOffsetsWith f)
  | .assignDynamic x => .assignDynamic (x.remapOffsetsWith f)
  | .ifStmt cond t e =>
    .ifStmt (cond.map (·.remapOffsetsWith f)) (remapBody t) (remapBody e)
  | .caseStmt arms default => .caseStmt (remapArms arms) (remapBody default)
  | .forStmt x body => .forStmt (x.remapOffsetsWith f) (remapBody body)
  | .breakStmt => .breakStmt
  | .systemFunctionCall x => .systemFunctionCall (x.remapOffsetsWith f)
  | .compiledBlock x stmts => .compiledBlock x stmts
  | .sequentialBlock body => .sequentialBlock (remapBody body)
  | .tbMethodCall inst method => .tbMethodCall inst (method.remapOffsetsWith f)
termination_by structural s => s

def remapBody : List ProtoStatement → List ProtoStatement
  | [] => []
  | s :: body => s.remapOffsetsWith :: remapBody body
termination_by structural body => body

def remapArms :
    List (ProtoExpression × List ProtoStatement) → List (ProtoExpression × List ProtoStatement)
  | [] => []
  | (cond, body) :: arms => (cond.remapOffsetsWith f, remapBody body) :: remapArms arms
termination_by structural arms => arms

end

theorem remapBody_eq (body : List ProtoStatement) :
    remapBody f body = body.map (·.remapOffsetsWith f) := by
  induction body with
  | nil => rfl
  | cons s body ih => simp [remapBody, ih]

end ProtoStatement
end Remap

/-- The parts of one item that execution runs satisfy `Φ`, each against its
translation. -/
def Visit.Satisfies (Φ : ∀ {α : Type}, Exec α → Exec α → Prop) (f : VarOffset → VarOffset)
    (env : Env) : Visit → Prop
  | .cond e =>
    Φ (Computation.read fun m => (e.eval env m).isTrueCond)
      (Computation.read fun m => ((e.remapOffsetsWith f).eval env m).isTrueCond)
  | .assign x => Φ (x.exec env) ((x.remapOffsetsWith f).exec env)
  | .assignDynamic x => Φ (x.exec env) ((x.remapOffsetsWith f).exec env)
  | .loop x =>
    Φ (Computation.read fun m => (x.range.start.eval env m, x.range.end_.eval env m))
        (Computation.read fun m =>
          ((x.remapOffsetsWith f).range.start.eval env m,
            (x.remapOffsetsWith f).range.end_.eval env m)) ∧
      (∀ i, Φ (x.writeCounter env i) ((x.remapOffsetsWith f).writeCounter env i)) ∧
      ∀ i, Φ (Computation.emit [.stuckLoop x.token i] : Exec Unit)
        (Computation.emit [.stuckLoop x.token i])
  | .call x => Φ (x.exec env) ((x.remapOffsetsWith f).exec env)
  | .compiled _ => True
  | .tb _ => True

namespace ProtoStatement

@[simp] theorem remapOffsetsWith_id (s : ProtoStatement) : s.remapOffsetsWith id = s := by
  have hbody : ∀ body : List ProtoStatement, (∀ s ∈ body, s.remapOffsetsWith id = s) →
      remapBody id body = body := by
    intro body h
    induction body with
    | nil => rfl
    | cons s body ih =>
      simp only [remapBody, h s (by simp)]
      rw [ih fun s' hs' => h s' (by simp [hs'])]
  induction s with
  | assign x => simp [remapOffsetsWith, ProtoAssignStatement.remapOffsetsWith]
  | assignDynamic x => simp [remapOffsetsWith, ProtoAssignDynamicStatement.remapOffsetsWith]
  | ifStmt c t e iht ihe => simp [remapOffsetsWith, hbody t iht, hbody e ihe]
  | caseStmt arms d iha ihd =>
    have harms : remapArms id arms = arms := by
      induction arms with
      | nil => rfl
      | cons a arms ih =>
        simp only [remapArms, hbody a.2 (iha a (by simp)), ProtoExpression.remapOffsetsWith_id]
        rw [ih fun a' ha' => iha a' (by simp [ha'])]
    simp [remapOffsetsWith, harms, hbody d ihd]
  | forStmt x body ih =>
    have hbound : ∀ b : ProtoForBound, b.remapOffsetsWith id = b := by
      rintro (_ | e) <;> simp [ProtoForBound.remapOffsetsWith]
    have hrange : x.range.remapOffsetsWith id = x.range := by
      cases x.range <;> simp [ProtoForRange.remapOffsetsWith, hbound]
    simp [remapOffsetsWith, ProtoForStatement.remapOffsetsWith, hrange, hbody body ih]
  | breakStmt => rfl
  | systemFunctionCall x =>
    cases x <;> simp [remapOffsetsWith, ProtoSystemFunctionCall.remapOffsetsWith]
  | compiledBlock x stmts ih => rfl
  | sequentialBlock body ih => simp [remapOffsetsWith, hbody body ih]
  | tbMethodCall inst method =>
    have harg : ∀ a : ProtoComponentArg, a.remapOffsetsWith id = a := by
      rintro (_ | e) <;> simp [ProtoComponentArg.remapOffsetsWith]
    cases method <;> simp [remapOffsetsWith, ProtoTbMethodKind.remapOffsetsWith, harg]

end ProtoStatement

section Congruence

variable {Φ : ∀ {α : Type}, Exec α → Exec α → Prop} {f : VarOffset → VarOffset} {env : Env}

theorem ProtoForStatement.step_congr (hΦ : Computation.Congruence Φ)
    {start end_ : BitVec 64} {body body' : Exec ControlFlow}
    (hx : (Visit.loop x).Satisfies Φ f env) (hbody : Φ body body') (i : BitVec 64) :
    Φ (x.step env start end_ body i) ((x.remapOffsetsWith f).step env start end_ body' i) := by
  have hshape : ∀ b : ProtoForBound, (b.remapOffsetsWith f).shape = b.shape := by
    rintro (_ | e) <;> simp [ProtoForBound.remapOffsetsWith, ProtoForBound.shape]
  have hdone : (x.remapOffsetsWith f).done start end_ i = x.done start end_ i := by
    cases h : x.range <;>
      simp [done, ProtoForStatement.remapOffsetsWith, h, ProtoForRange.remapOffsetsWith, hshape]
  have hnext : (x.remapOffsetsWith f).next env i = x.next env i := by
    cases h : x.range <;>
      simp [next, ProtoForStatement.remapOffsetsWith, h, ProtoForRange.remapOffsetsWith, wrap]
  unfold ProtoForStatement.step
  rw [hdone, hnext]
  split
  · exact hΦ.pure _
  · refine hΦ.bind (hx.2.1 i) fun _ => hΦ.bind hbody fun flow => ?_
    cases flow with
    | break_ => exact hΦ.pure _
    | continue_ =>
      cases x.next env i with
      | some j => exact hΦ.pure _
      | none => exact hΦ.bind (hx.2.2 i) fun _ => hΦ.pure _

theorem ProtoForStatement.exec_congr (hΦ : Computation.Congruence Φ)
    {body body' : Exec ControlFlow} (hx : (Visit.loop x).Satisfies Φ f env)
    (hbody : Φ body body') : Φ (x.exec env body) ((x.remapOffsetsWith f).exec env body') := by
  refine hΦ.bind hx.1 fun bounds => ?_
  have hfirst : (x.remapOffsetsWith f).first bounds.1 bounds.2 = x.first bounds.1 bounds.2 := by
    cases h : x.range <;>
      simp [first, ProtoForStatement.remapOffsetsWith, h, ProtoForRange.remapOffsetsWith, wrap]
  rw [hfirst]
  exact hΦ.loop (fun i => step_congr hΦ hx hbody i) _ _

namespace ProtoStatement

section

variable (hΦ : Computation.Congruence Φ)

include hΦ

theorem execBody_congr {body : List ProtoStatement}
    (h : ∀ s ∈ body, Φ (s.exec env) ((s.remapOffsetsWith f).exec env)) :
    Φ (execBody env body) (execBody env (remapBody f body)) := by
  induction body with
  | nil => exact hΦ.pure _
  | cons s body ih =>
    refine hΦ.bind (h s (by simp)) fun flow => ?_
    cases flow with
    | break_ => exact hΦ.pure _
    | continue_ => exact ih fun s' hs' => h s' (by simp [hs'])

theorem execArms_congr
    {arms : List (ProtoExpression × List ProtoStatement)} {default default' : Exec ControlFlow}
    (hcond : ∀ a ∈ arms, (Visit.cond a.1).Satisfies Φ f env)
    (hbody : ∀ a ∈ arms, Φ (execBody env a.2) (execBody env (remapBody f a.2)))
    (hdefault : Φ default default') :
    Φ (execArms env arms default) (execArms env (remapArms f arms) default') := by
  induction arms with
  | nil => exact hdefault
  | cons a arms ih =>
    refine hΦ.bind (hcond a (by simp)) fun taken => ?_
    cases taken with
    | true => exact hbody a (by simp)
    | false =>
      exact ih (fun a' ha' => hcond a' (by simp [ha'])) fun a' ha' => hbody a' (by simp [ha'])

/-- What the items of a statement satisfy, its execution satisfies. -/
theorem exec_congr {s : ProtoStatement}
    (hcb : s.containsCb → f = id) (h : ∀ v ∈ s.walk true, v.Satisfies Φ f env) :
    Φ (s.exec env) ((s.remapOffsetsWith f).exec env) := by
  have body_of : ∀ {body : List ProtoStatement},
      (∀ s ∈ body, (s.containsCb → f = id) → (∀ v ∈ s.walk true, v.Satisfies Φ f env) →
        Φ (s.exec env) ((s.remapOffsetsWith f).exec env)) →
      (anyContainsCb body → f = id) → (∀ v ∈ walkBody true body, v.Satisfies Φ f env) →
      Φ (execBody env body) (execBody env (remapBody f body)) := by
    intro body ih hcb h
    refine execBody_congr hΦ fun s hs => ih s hs (fun hs' => hcb ?_) fun v hv => h v ?_
    · rw [anyContainsCb_eq]
      exact any_eq_true.2 ⟨s, hs, hs'⟩
    · rw [walkBody_eq]
      exact mem_flatMap.2 ⟨s, hs, hv⟩
  induction s with
  | assign x => exact hΦ.bind (h (.assign x) (by simp [walk])) fun _ => hΦ.pure _
  | assignDynamic x => exact hΦ.bind (h (.assignDynamic x) (by simp [walk])) fun _ => hΦ.pure _
  | ifStmt c t e iht ihe =>
    have ht := body_of iht (fun hc => hcb (by simp [containsCb, hc]))
      fun v hv => h v (by simp [walk, hv])
    have he := body_of ihe (fun hc => hcb (by simp [containsCb, hc]))
      fun v hv => h v (by simp [walk, hv])
    have hcond : Φ (Computation.read fun m => c.any fun e => (e.eval env m).isTrueCond)
        (Computation.read fun m =>
          (c.map (·.remapOffsetsWith f)).any fun e => (e.eval env m).isTrueCond) := by
      cases c with
      | none => exact hΦ.pure false
      | some c => exact h (.cond c) (by simp [walk])
    refine hΦ.bind hcond fun taken => ?_
    cases taken with
    | true => exact ht
    | false => exact he
  | caseStmt arms d iha ihd =>
    simp only [walk, walkArms_eq, mem_append, mem_flatMap, mem_cons] at h
    refine execArms_congr hΦ (fun a ha => h _ (.inl ⟨a, ha, .inl rfl⟩)) (fun a ha => ?_) ?_
    · refine body_of (iha a ha) (fun hc => hcb ?_) fun v hv => h v (.inl ⟨a, ha, .inr hv⟩)
      have : armsContainCb arms = true := by
        rw [armsContainCb_eq]
        exact any_eq_true.2 ⟨a, ha, hc⟩
      simp [containsCb, this]
    · exact body_of ihd (fun hc => hcb (by simp [containsCb, hc])) fun v hv => h v (.inr hv)
  | forStmt x body ih =>
    refine hΦ.bind (ProtoForStatement.exec_congr hΦ (h _ (by simp [walk])) ?_) fun _ => hΦ.pure _
    exact body_of ih hcb fun v hv => h v (by simp [walk, hv])
  | breakStmt => exact hΦ.pure _
  | systemFunctionCall x => exact hΦ.bind (h (.call x) (by simp [walk])) fun _ => hΦ.pure _
  | compiledBlock x stmts ih =>
    obtain rfl := hcb rfl
    refine hΦ.bind ?_ fun _ => hΦ.pure _
    have := body_of ih (fun _ => rfl) fun v hv => h v ?_
    · simpa [remapBody_eq] using this
    · cases stmts with
      | nil => simp [walkBody] at hv
      | cons s stmts => simpa [walk] using hv
  | sequentialBlock body ih => exact body_of ih hcb h
  | tbMethodCall inst method => exact hΦ.pure _

end

end ProtoStatement
end Congruence

end Veryl.Simulator
