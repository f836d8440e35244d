import Veryl.Analyzer.AssignTable

/-!
The check that every branch of a statement assigns what some branch assigns, once for the
two sides of an `if` and once for any number of arms of a `case`, and the table that is
left behind the statement.
-/

namespace Veryl.Analyzer.AssignTables.Branches

open Option Function

abbrev TokenRange := ℕ

inductive Affiliation where
  | projectNamespace | module | interface | package | statementBlock | function | modport
  | protoModule | protoInterface | protoPackage | alwaysComb | alwaysFf
  deriving DecidableEq

/-- What the declaration of a variable says. -/
structure Declaration where
  path : String
  array : Shape
  affiliation : Affiliation

structure AssignTableEntry where
  mask : List ℕ
  path : String
  array : Shape
  affiliation : Affiliation
  tokens : List TokenRange

/-- The elements of the one list with the bits of the other. -/
def orMask (mask value : List ℕ) : List ℕ := mask.mapIdx fun i m => m ||| value.getD i 0

namespace AssignTableEntry

def new (d : Declaration) (element : Option ℕ) (mask : ℕ) (token : TokenRange) :
    AssignTableEntry where
  mask := match d.array.total with
    | some array => elementMasks array element mask
    | none => []
  path := d.path
  array := d.array
  affiliation := d.affiliation
  tokens := [token]

def add (e : AssignTableEntry) (element : Option ℕ) (mask : ℕ) (token : TokenRange) :
    AssignTableEntry :=
  match element with
  | none => e
  | some i => { e with mask := e.mask.modify i (· ||| mask), tokens := e.tokens ++ [token] }

def isAlways (e : AssignTableEntry) : Bool :=
  e.affiliation = .alwaysFf ∨ e.affiliation = .alwaysComb

def mergeByOr (e value : AssignTableEntry) : AssignTableEntry :=
  { e with mask := orMask e.mask value.mask }

/-- The entry of a branch that does not name the variable. -/
def cleared (e : AssignTableEntry) : AssignTableEntry :=
  { e with mask := e.mask.map fun _ => 0, tokens := [] }

end AssignTableEntry

structure AssignTable where
  table : VarId → Option AssignTableEntry
  accumulatedReads : VarId → Option (List ℕ)

namespace AssignTable

def insertElement (t : AssignTable) (d : Declaration) (id : VarId) (element : Option ℕ) (mask : ℕ)
    (token : TokenRange) : AssignTable :=
  { t with
    table := Function.update t.table id
      (some ((t.table id).elim (.new d element mask token) (·.add element mask token))) }

def mergeEntry (e val : AssignTableEntry) : AssignTableEntry :=
  let e := { e with tokens := e.tokens ++ val.tokens }
  if val.array.total.isSome then e.mergeByOr val else e

/-- Merges what both have; what only one has is kept. -/
def mergeWith {α : Type} (f : α → α → α) : Option α → Option α → Option α
  | some x, some y => some (f x y)
  | some x, none => some x
  | none, y => y

def mergeByOr (t value : AssignTable) : AssignTable where
  table key := mergeWith mergeEntry (t.table key) (value.table key)
  accumulatedReads key := mergeWith orMask (t.accumulatedReads key) (value.accumulatedReads key)

@[simp] theorem table_mergeByOr (t value : AssignTable) (key : VarId) :
    (t.mergeByOr value).table key = mergeWith mergeEntry (t.table key) (value.table key) := rfl

@[simp] theorem accumulatedReads_mergeByOr (t value : AssignTable) (key : VarId) :
    (t.mergeByOr value).accumulatedReads key =
      mergeWith orMask (t.accumulatedReads key) (value.accumulatedReads key) := rfl

end AssignTable

/-- The error of a branch that falls short of another one. -/
structure UncoveredBranch where
  identifier : String
  token : TokenRange
  covered : List TokenRange
  deriving DecidableEq

section Checks

variable (bases : List AssignTable) (key : VarId)

/-- The entries of the base tables as one. -/
def baseVal : Option AssignTableEntry :=
  bases.foldl (fun acc x => match x.table key, acc with
    | some x, some y => some (y.mergeByOr x)
    | some x, none => some x
    | none, acc => acc) none

/-- The bits that the base tables assign. -/
def baseMask : Option (List ℕ) :=
  bases.foldl (fun acc x => match x.table key, acc with
    | some x, some acc => some (orMask acc x.mask)
    | some x, none => some x.mask
    | none, acc => acc) none

/-- The entries of both branches, a cleared one in the place of one that is not there. -/
def srcTgt (src tgt : AssignTable) : Option (AssignTableEntry × AssignTableEntry) :=
  match src.table key, tgt.table key with
  | some src, some tgt => some (src, tgt)
  | some src, none => some (src, src.cleared)
  | none, some tgt => some (tgt.cleared, tgt)
  | none, none => none

/-- The errors on a variable, each with the element it is found at. -/
def checkUncoverd (src tgt : AssignTable) : List (ℕ × UncoveredBranch) :=
  match srcTgt key src tgt with
  | none => []
  | some (src, tgt) =>
    if src.isAlways || tgt.isAlways then []
    else
      let tokens := src.tokens ++ tgt.tokens
      match src.array.total with
      | none => []
      | some array =>
        ((List.range array).filter fun i =>
          let (src, tgt) := match baseVal bases key with
            | some base => (src.mask.getD i 0 ||| base.mask.getD i 0,
                tgt.mask.getD i 0 ||| base.mask.getD i 0)
            | none => (src.mask.getD i 0, tgt.mask.getD i 0)
          src ^^^ tgt ≠ 0).map fun i => (i, ⟨src.path, tokens.headD 0, tokens⟩)

/-- What a branch has assigned of an element when it ends. -/
def combined (branch : AssignTable) (i : ℕ) : ℕ :=
  let raw := (branch.table key).elim 0 (·.mask.getD i 0)
  match baseMask bases key with
  | some base => raw ||| base.getD i 0
  | none => raw

/-- The same for any number of branches. -/
def checkUncoverdNWay (branches : List AssignTable) : List (ℕ × UncoveredBranch) :=
  if branches.length < 2 then []
  else if branches.any fun b => (b.table key).any (·.isAlways) then []
  else match branches.findSome? (·.table key) with
    | none => []
    | some sample =>
      match sample.array.total with
      | none => []
      | some array =>
        let tokens := branches.flatMap fun b => (b.table key).elim [] (·.tokens)
        if tokens = [] then []
        else
          ((List.range array).filter fun i =>
            let union := branches.foldl (fun union b => union ||| combined bases key b i) 0
            branches.any fun b => combined bases key b i ≠ union).map
            fun i => (i, ⟨sample.path, tokens.headD 0, tokens⟩)

end Checks

/-- The table behind an `if` statement. -/
def ifTable (assignTable trueTable falseTable : AssignTable) : AssignTable :=
  assignTable.mergeByOr (trueTable.mergeByOr falseTable)

/-- The arms from the last one up. -/
def mergeArms : List AssignTable → AssignTable
  | [] => ⟨fun _ => none, fun _ => none⟩
  | [t] => t
  | t :: rest => t.mergeByOr (mergeArms rest)

/-- The table behind a `case` statement. -/
def caseTable (assignTable : AssignTable) (branches : List AssignTable) : AssignTable :=
  assignTable.mergeByOr (mergeArms branches)

/-- An entry as the declaration of its variable has it. -/
structure AssignTableEntry.Declared (d : Declaration) (e : AssignTableEntry) : Prop where
  path : e.path = d.path
  array : e.array = d.array
  affiliation : e.affiliation = d.affiliation
  length : e.mask.length = d.array.total.getD 0
  tokens : e.tokens ≠ []

/-- A table whose entries are as declared. -/
structure DeclaredTable (decl : VarId → Declaration) extends AssignTable where
  entries : ∀ key e, table key = some e → e.Declared (decl key)
  reads : ∀ key mask, accumulatedReads key = some mask → mask.length = (decl key).array.total.getD 0

namespace AssignTableEntry

variable {d : Declaration} {e value : AssignTableEntry}

@[simp] theorem length_orMask (mask value : List ℕ) : (orMask mask value).length = mask.length := by
  simp [orMask]

theorem declared_new (d : Declaration) (element : Option ℕ) (mask : ℕ) (token : TokenRange) :
    (new d element mask token).Declared d where
  path := rfl
  array := rfl
  affiliation := rfl
  length := by
    rw [new]
    cases d.array.total with
    | none => rfl
    | some array => simp [elementMasks]
  tokens := List.cons_ne_nil _ _

theorem Declared.add (h : e.Declared d) (element : Option ℕ) (mask : ℕ) (token : TokenRange) :
    (e.add element mask token).Declared d := by
  cases element with
  | none => exact h
  | some i =>
    refine ⟨h.path, h.array, h.affiliation, ?_, by simp [AssignTableEntry.add]⟩
    simpa [AssignTableEntry.add] using h.length

theorem Declared.mergeEntry (h : e.Declared d) (value : AssignTableEntry) :
    (AssignTable.mergeEntry e value).Declared d := by
  have htokens : e.tokens ++ value.tokens ≠ [] := by simp [h.tokens]
  rw [AssignTable.mergeEntry]
  split
  · exact ⟨h.path, h.array, h.affiliation, by simpa [mergeByOr] using h.length, htokens⟩
  · exact ⟨h.path, h.array, h.affiliation, h.length, htokens⟩

end AssignTableEntry

namespace DeclaredTable

variable {decl : VarId → Declaration}

def insertElement (t : DeclaredTable decl) (id : VarId) (element : Option ℕ) (mask : ℕ)
    (token : TokenRange) : DeclaredTable decl :=
  { t.toAssignTable.insertElement (decl id) id element mask token with
    entries := by
      intro key e he
      simp only [AssignTable.insertElement] at he
      by_cases hkey : key = id
      · subst hkey
        rw [update_self] at he
        obtain rfl := some.inj he
        cases hold : t.table key with
        | none => exact AssignTableEntry.declared_new _ _ _ _
        | some old => exact (t.entries key old hold).add _ _ _
      · rw [update_of_ne hkey] at he
        exact t.entries key e he
    reads := t.reads }

def mergeByOr (t value : DeclaredTable decl) : DeclaredTable decl :=
  { t.toAssignTable.mergeByOr value.toAssignTable with
    entries := by
      intro key e he
      rw [AssignTable.table_mergeByOr] at he
      cases hold : t.table key with
      | none =>
        simp only [hold, AssignTable.mergeWith] at he
        exact value.entries key e he
      | some old =>
        cases hval : value.table key with
        | none =>
          simp only [hold, hval, AssignTable.mergeWith, some.injEq] at he
          exact he ▸ t.entries key old hold
        | some val =>
          simp only [hold, hval, AssignTable.mergeWith, some.injEq] at he
          exact he ▸ (t.entries key old hold).mergeEntry val
    reads := by
      intro key mask hmask
      rw [AssignTable.accumulatedReads_mergeByOr] at hmask
      cases hold : t.accumulatedReads key with
      | none =>
        simp only [hold, AssignTable.mergeWith] at hmask
        exact value.reads key mask hmask
      | some old =>
        cases hval : value.accumulatedReads key with
        | none =>
          simp only [hold, hval, AssignTable.mergeWith, some.injEq] at hmask
          exact hmask ▸ t.reads key old hold
        | some val =>
          simp only [hold, hval, AssignTable.mergeWith, some.injEq] at hmask
          subst hmask
          rw [AssignTableEntry.length_orMask]
          exact t.reads key old hold }

end DeclaredTable

end Veryl.Analyzer.AssignTables.Branches
