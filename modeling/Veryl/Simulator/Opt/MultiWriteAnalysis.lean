import Veryl.Analyzer.AssignTable

/-!
How often each array element can be written in one commit.
-/

namespace Veryl.Simulator.MultiWrite

open Veryl.Analyzer.AssignTables (VarId Shape)

inductive VarKind where
  | param | const | input | output | inout | var | letVar
  deriving DecidableEq, Repr

structure Variable where
  kind : VarKind
  array : Shape

/-- A destination of a write; the index is an expression of the analyzer. -/
structure AssignDestination (ι : Type) where
  id : VarId
  index : ι

inductive Statement (ι ρ : Type) where
  | assign (dst : List (AssignDestination ι))
  | cond (trueSide falseSide : List (Statement ι ρ))
  | ifReset (trueSide falseSide : List (Statement ι ρ))
  | select (arms : List (List (Statement ι ρ))) (default : List (Statement ι ρ))
  | loop (var : VarId) (range : ρ) (body : List (Statement ι ρ))
  | functionCall (outputs : List (List (AssignDestination ι)))
  | leave
  | other

inductive Declaration (ι ρ : Type) where
  | ff (statements : List (Statement ι ρ))
  | comb (statements : List (Statement ι ρ))
  | other

/-- Values of loop variables; `none` is an x. -/
abbrev LoopValues := VarId → Option ℕ

/-- The declared variables, and the evaluation of an index and of the range of a loop; `none`
is a value that is only known at run time. The analysis evaluates with the stored values: a
loop variable starts as an x, and the search for unsafe reads that runs before leaves it at the
last value of its range. -/
structure AnalyzerContext (ι ρ : Type) where
  getVariableInfo : VarId → Option Variable
  stored : LoopValues
  evalIndex : LoopValues → ι → Option (List ℕ)
  evalIter : LoopValues → ρ → Option (List ℕ)
  evalIndex_mono : ∀ {values values' : LoopValues} {index found}, (∀ v n, values v = some n →
    values' v = some n) → evalIndex values index = some found → evalIndex values' index = some found

/-- An element, or `none` (the largest index of the machine) for a write that may land on
any element. -/
abbrev ElementKey := Option ℕ

abbrev ElementKey.dynamic : ElementKey := none

/-- The counts of a block; a key that was never counted has none. -/
abbrev Counts := VarId × ElementKey → Option ℕ

namespace Counts

def empty : Counts := fun _ => none

def at' (m : Counts) (k : VarId × ElementKey) : ℕ := (m k).getD 0

def addEntry (m : Counts) (k : VarId × ElementKey) (n : ℕ) : Counts :=
  Function.update m k (some (m.at' k + n))

/-- Adds each entry of a block to the counts of the blocks before it. -/
def addAll (m sub : Counts) : Counts := fun k =>
  match sub k with
  | none => m k
  | some n => some (m.at' k + n)

/-- The larger count of two branches. An element is counted together with the runtime
indices of its array, so that their sum stays the one of the worst path. -/
def mergeBranchesMax (a b : Counts) : Counts := fun k =>
  if (a k).isNone && (b k).isNone then none
  else
    let da := a.at' (k.1, .dynamic)
    let db := b.at' (k.1, .dynamic)
    let d := max da db
    match k.2 with
    | none => some d
    | some _ => some (max (a.at' k + da) (b.at' k + db) - d)

end Counts

section Analysis

variable {ι ρ : Type} (ctx : AnalyzerContext ι ρ)

/-- The element of a write under some values of the loop variables; a write through an
undeclared or a let bound variable has none. -/
def elementKeyAt (values : LoopValues) (dst : AssignDestination ι) : Option ElementKey :=
  match ctx.getVariableInfo dst.id with
  | none => none
  | some variable' =>
    if variable'.kind = .letVar then none
    else some ((ctx.evalIndex values dst.index).bind variable'.array.calcIndex)

/-- The element that a write is counted at. -/
def elementKey (dst : AssignDestination ι) : Option ElementKey := elementKeyAt ctx ctx.stored dst

/-- A write in a repeated loop counts twice: a later iteration may hit the same slot. -/
def addDstWrite (inFor : Bool) (out : Counts) (dst : AssignDestination ι) : Counts :=
  match elementKey ctx dst with
  | none => out
  | some key => out.addEntry (dst.id, key) (if inFor then 2 else 1)

/-- More than one iteration, or a number of them that is not known. -/
def repeated (iterations : Option (List ℕ)) : Bool :=
  iterations.all fun values => decide (1 < values.length)

mutual

def countWritesOne : Statement ι ρ → Bool → Counts
  | .assign dst, inFor => dst.foldl (addDstWrite ctx inFor) .empty
  | .cond t f, inFor => (countWritesSeq t inFor).mergeBranchesMax (countWritesSeq f inFor)
  | .ifReset t f, inFor => (countWritesSeq t inFor).mergeBranchesMax (countWritesSeq f inFor)
  | .select arms default, inFor => countWritesArms arms (countWritesSeq default inFor) inFor
  | .loop _ range body, inFor =>
    if ctx.evalIter ctx.stored range = some [] then .empty
    else countWritesSeq body (inFor || repeated (ctx.evalIter ctx.stored range))
  | .functionCall outputs, inFor => outputs.flatten.foldl (addDstWrite ctx inFor) .empty
  | .leave, _ => .empty
  | .other, _ => .empty

def countWritesSeq : List (Statement ι ρ) → Bool → Counts
  | [], _ => .empty
  | s :: rest, inFor => (countWritesOne s inFor).addAll (countWritesSeq rest inFor)

/-- The arms of a case, which is counted as nested conditionals. -/
def countWritesArms : List (List (Statement ι ρ)) → Counts → Bool → Counts
  | [], default, _ => default
  | body :: arms, default, inFor =>
    (countWritesSeq body inFor).mergeBranchesMax (countWritesArms arms default inFor)

end

/-- A case as nested conditionals, the first arm outermost. -/
def lowerToNestedIf (arms : List (List (Statement ι ρ))) (default : List (Statement ι ρ)) :
    List (Statement ι ρ) :=
  arms.foldr (fun body tail => [.cond body tail]) default

/-- The declarations that can land in one commit. -/
inductive EventKey where
  | ff | comb
  deriving DecidableEq, Repr

/-- The combinational blocks count only when every variable is kept as a flip-flop. -/
def eventStatements (forceAllFf : Bool) (decls : List (Declaration ι ρ)) :
    EventKey → List (List (Statement ι ρ))
  | .ff => decls.filterMap fun
    | .ff statements => some statements
    | _ => none
  | .comb => decls.filterMap fun
    | .comb statements => if forceAllFf then some statements else none
    | _ => none

def eventCounts (lists : List (List (Statement ι ρ))) : Counts :=
  lists.foldr (fun stmts rest => (countWritesSeq ctx stmts false).addAll rest) .empty

/-- The count of a key, taken together with the runtime indices of its array. -/
def entryTotal (m : Counts) (id : VarId) (key : ElementKey) : ℕ :=
  if key = .dynamic then m.at' (id, key) else m.at' (id, key) + m.at' (id, .dynamic)

/-- The key is counted, and at least twice. -/
def overflows (m : Counts) (id : VarId) (key : ElementKey) : Bool :=
  (m (id, key)).isSome && decide (2 ≤ entryTotal m id key)

/-- The elements with two writes in some commit; a runtime index is reported at element
0. -/
def analyzeMultiWrite (decls : List (Declaration ι ρ)) (forceAllFf : Bool) (id : VarId)
    (elem : ℕ) : Bool :=
  [EventKey.ff, .comb].any fun event =>
    let m := eventCounts ctx (eventStatements forceAllFf decls event)
    overflows m id (some elem) || (elem == 0 && overflows m id .dynamic)

end Analysis

/-- One slot for each element of a flip-flop, none of which is written twice. -/
def packedFf (isFfVar : Bool) (totalArray : ℕ) (multiRmwSet : ℕ → Bool) : Bool :=
  isFfVar && !((List.range totalArray).any multiRmwSet)

end Veryl.Simulator.MultiWrite
