import Veryl.Analyzer.FfTable

/-!
Moving an always_comb assignment to a `let` variable into the always_ff block
that reads it, and what a module does at a clock event and between events.
-/

namespace Veryl.Analyzer.Hoist

open Registers (VarId FfTable Refered)

abbrev Element := VarId × ℕ

abbrev State := Element → ℕ

/-- What a statement does: the elements it may read, those it may write, and
the values it writes; none is not written. -/
structure Action where
  reads : List Element
  writes : List Element
  run : State → Element → Option ℕ
  run_congr : ∀ s s', (∀ e ∈ reads, s e = s' e) → run s = run s'
  run_writes : ∀ s e, e ∉ writes → run s e = none

/-- A statement with the variables of its destinations, none of them when it is
not an assignment. -/
structure Simple where
  dst : List VarId
  action : Action

inductive Statement where
  | simple (x : Simple)
  | ifReset (trueSide falseSide : List Simple)

/-- An instance settles its outputs and changes its registers. -/
inductive Declaration where
  | comb (statements : List Simple)
  | ff (statements : List Statement)
  | inst (settle event : List Simple)

inductive VarKind where
  | letKind | variableKind | otherKind
  deriving DecidableEq

structure Variable where
  kind : VarKind
  isClock : Bool

structure HoistPlan where
  varId : VarId
  varIndex : ℕ
  combDeclIdx : ℕ
  ffDeclIdx : ℕ
  varKind : VarKind

def isFfDecl (declarations : List Declaration) (i : ℕ) : Bool :=
  match declarations[i]? with
  | some (.ff _) => true
  | _ => false

section Plans

variable (declarations : List Declaration) (ffTable : FfTable) (vars : VarId → Option Variable)

/-- A plan for an element whose readers are all in one always_ff. -/
def planElement (varId : VarId) (varIndex combDeclIdx : ℕ) : Option HoistPlan :=
  match ffTable.refered varId varIndex with
  | [] => none
  | r :: rest =>
    if !((r :: rest).all fun r => r.fromFf) then none
    else if !(rest.all fun r' => r'.decl == r.decl) then none
    else if !isFfDecl declarations r.decl then none
    else
      match vars varId with
      | none => none
      | some var =>
        -- the edges of a derived clock are found in what a settle leaves
        if var.isClock then none
        else some ⟨varId, varIndex, combDeclIdx, r.decl, var.kind⟩

/-- The plans in the order of the entries and of the arrays written as a whole. -/
def planHoists (entries : List Element) (wholes : List VarId) : List HoistPlan :=
  (entries.filterMap fun key =>
    match ffTable.table key.1 key.2 with
    | some entry =>
      match entry.assignedComb with
      | some combDeclIdx => planElement declarations ffTable vars key.1 key.2 combDeclIdx
      | none => none
    | none => none) ++
  wholes.flatMap fun varId =>
    match ffTable.wholeAssigned varId with
    | some w =>
      match w.assignedComb with
      | some combDeclIdx =>
        (List.range w.len).filterMap fun varIndex =>
          if (ffTable.table varId varIndex).isSome then none
          else planElement declarations ffTable vars varId varIndex combDeclIdx
      | none => []
    | none => []

end Plans

/-- Removes the first assignment whose first destination is the variable; the
element is not looked at. -/
def extractTopLevelAssign (varId : VarId) : List Simple → Option (Simple × List Simple)
  | [] => none
  | x :: rest =>
    if x.dst.head? = some varId then some (x, rest)
    else
      match extractTopLevelAssign varId rest with
      | some (found, kept) => some (found, x :: kept)
      | none => none

def injectIntoFfBody (stmts : List Statement) (hoisted : List Simple) : List Statement :=
  match stmts with
  | .ifReset trueSide falseSide :: rest =>
    .ifReset (hoisted ++ trueSide) (hoisted ++ falseSide) :: rest
  | stmts => hoisted.map .simple ++ stmts

/-- Takes the assignment of one plan out of its always_comb. -/
def extractPlan (st : List Simple × List Declaration) (p : HoistPlan) :
    List Simple × List Declaration :=
  match st.2[p.combDeclIdx]? with
  | some (.comb statements) =>
    match extractTopLevelAssign p.varId statements with
    | some (found, kept) => (st.1 ++ [found], st.2.set p.combDeclIdx (.comb kept))
    | none => st
  | _ => st

/-- Moves the assignments of the plans for one always_ff. -/
def applyGroup (plans : List HoistPlan) (declarations : List Declaration) (ffIdx : ℕ) :
    List Declaration :=
  let items := plans.filter fun p => p.varKind = .letKind ∧ p.ffDeclIdx = ffIdx
  let (hoisted, declarations) := items.foldl extractPlan ([], declarations)
  match declarations[ffIdx]? with
  | some (.ff statements) => declarations.set ffIdx (.ff (injectIntoFfBody statements hoisted))
  | _ => declarations

/-- Applies the plans, one always_ff after the other. -/
def applyHoists (plans : List HoistPlan) (ffOrder : List ℕ) (declarations : List Declaration) :
    List Declaration :=
  ffOrder.foldl (applyGroup plans) declarations

/-- A blocking assignment. -/
def combStep (s : State) (x : Simple) : State := fun e => (x.action.run s e).getD (s e)

def combRun (s : State) (xs : List Simple) : State := xs.foldl combStep s

/-- The statements that are evaluated between events. -/
def Declaration.settled : Declaration → List Simple
  | comb statements => statements
  | ff _ => []
  | inst settle _ => settle

/-- Nothing changes any more between events. -/
def Settled (declarations : List Declaration) (s : State) : Prop :=
  ∀ d ∈ declarations, combRun s d.settled = s

/-- An element that is evaluated between events. -/
def Driven (declarations : List Declaration) (e : Element) : Prop :=
  ∃ d ∈ declarations, ∃ x ∈ d.settled, e ∈ x.action.writes

/-- The values that are read during an event, and those written at its end. -/
abbrev EventState := State × (Element → Option ℕ)

section Events

variable (isLet : VarId → Bool)

/-- A statement at a clock event: a `let` variable changes at once, any other at
the end of the event. -/
def ffStep (st : EventState) (x : Simple) : EventState :=
  (fun e => if isLet e.1 then (x.action.run st.1 e).getD (st.1 e) else st.1 e,
    fun e => if isLet e.1 then st.2 e else (x.action.run st.1 e).or (st.2 e))

/-- The statements that run with or without reset. -/
def Statement.side (reset : Bool) : Statement → List Simple
  | simple x => [x]
  | ifReset trueSide falseSide => if reset then trueSide else falseSide

/-- The statements of a declaration that run at an event. -/
def Declaration.clocked (reset : Bool) : Declaration → List Simple
  | comb _ => []
  | ff statements => statements.flatMap (Statement.side reset)
  | inst _ event => event

/-- A clock event: the declarations it clocks, whether their reset is on, and
the values that come from outside. -/
structure Event where
  clocked : ℕ → Bool
  reset : ℕ → Bool
  input : Element → Option ℕ

/-- The statements that run at an event, in the order of the declarations. -/
def Event.statements (ev : Event) (declarations : List Declaration) : List Simple :=
  (declarations.mapIdx fun i d => if ev.clocked i then d.clocked (ev.reset i) else []).flatten

/-- The values at the end of an event. -/
def Event.result (ev : Event) (declarations : List Declaration) (s : State) : State :=
  let st := (ev.statements declarations).foldl (ffStep isLet) (s, fun _ => none)
  fun e => (st.2 e).getD (st.1 e)

/-- An event, and what settles after it. -/
def Step (declarations : List Declaration) (ev : Event) (s s' : State) : Prop :=
  Settled declarations s' ∧
    ∀ e, ¬Driven declarations e → s' e = (ev.input e).getD (ev.result isLet declarations s e)

/-- A run: the events and the settled states after them. -/
def Run (declarations : List Declaration) : State → List (Event × State) → Prop
  | _, [] => True
  | s, (ev, s') :: rest => Step isLet declarations ev s s' ∧ Run declarations s' rest

end Events

end Veryl.Analyzer.Hoist
