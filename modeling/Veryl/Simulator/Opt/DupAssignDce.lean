import Veryl.Simulator.CombLayout

/-!
Elimination of overwritten stores. One sweep over the statements of a list remembers for
each destination its last full-width store and drops it at the next one, unless something
in between may observe it.
-/

namespace Veryl.Simulator.DupAssignDce

open Veryl.Analyzer List Option Function

variable {x : ProtoAssignStatement} {pending : VarOffset → Option ℕ} {i : ℕ}

variable {s : ProtoStatement}

/-- A runtime-indexed read: the kind of storage, the base, the stride and the elements. -/
structure ReadRange where
  isFf : Bool
  base : ℤ
  stride : ℤ
  numElements : ℕ
  deriving DecidableEq, Repr

def ReadRange.Has (r : ReadRange) (k : VarOffset) : Prop :=
  k.isFf = r.isFf ∧ r.stride ≠ 0 ∧ (k.raw - r.base).tmod r.stride = 0 ∧
    0 ≤ (k.raw - r.base).tdiv r.stride ∧ (k.raw - r.base).tdiv r.stride < r.numElements

instance (r : ReadRange) (k : VarOffset) : Decidable (r.Has k) :=
  inferInstanceAs (Decidable (_ ∧ _))

def leafRanges : ProtoExpression → List ReadRange
  | .dynamicVariable o stride _ _ n _ _ _ _ => [⟨o.isFf, o.raw, stride, n⟩]
  | _ => []

def gatherDynamicReadRanges (s : ProtoStatement) : List ReadRange :=
  (s.walk true).flatMap fun v => v.operands.flatMap fun e => e.leaves.flatMap leafRanges

/-- A statement with lists of its own, which are swept apart. -/
def isNested : ProtoStatement → Bool
  | .sequentialBlock _ | .compiledBlock _ _ | .ifStmt _ _ _ | .caseStmt _ _ | .forStmt _ _ => true
  | _ => false

/-- A store of the whole destination. -/
def fullStore : ProtoStatement → Option ProtoAssignStatement
  | .assign x =>
    if x.select.isNone ∧ x.dynamicSelect.isNone ∧ x.rhsSelect.isNone then some x else none
  | _ => none

section Sweep

variable (external : List ProtoStatement → VarOffset → Bool)

/-- The statement may read what is stored at the destination. -/
def Observes (s : ProtoStatement) (k : VarOffset) : Prop :=
  k ∈ (s.gatherVariableOffsets external).1 ∨ ∃ r ∈ gatherDynamicReadRanges s, r.Has k

instance (s : ProtoStatement) (k : VarOffset) : Decidable (Observes external s k) :=
  inferInstanceAs (Decidable (_ ∨ _))

/-- The statements so far, each with whether it stays, and the stores that may still be
dropped. -/
structure Sweep where
  out : List (ProtoStatement × Bool)
  pending : VarOffset → Option ℕ

def Sweep.step (st : Sweep) (s : ProtoStatement) : Sweep :=
  let pending := if isNested s then fun _ => none else st.pending
  let pending := fun k => if Observes external s k then none else pending k
  match fullStore s with
  | some x => {
      out := ((pending x.dst).elim st.out fun prev => st.out.modify prev fun e => (e.1, false)) ++
        [(s, true)]
      pending := Function.update pending x.dst (some st.out.length) }
  | none => {
      out := st.out ++ [(s, true)]
      -- a store of a part keeps the store of the whole
      pending := fun k => if k ∈ (s.gatherVariableOffsets external).2 then none else pending k }

def sweep (stmts : List ProtoStatement) : List ProtoStatement :=
  ((stmts.foldl (Sweep.step external) ⟨[], fun _ => none⟩).out.filter (·.2)).map (·.1)

mutual

/-- Sweeps the lists inside a statement. -/
def dceNested : ProtoStatement → ProtoStatement
  | .assign x => .assign x
  | .assignDynamic x => .assignDynamic x
  | .ifStmt cond t f => .ifStmt cond (sweep external (dceBody t)) (sweep external (dceBody f))
  | .caseStmt arms default => .caseStmt (dceArms arms) (sweep external (dceBody default))
  | .forStmt x body => .forStmt x (sweep external (dceBody body))
  | .breakStmt => .breakStmt
  | .systemFunctionCall x => .systemFunctionCall x
  | .compiledBlock x stmts => .compiledBlock x (sweep external (dceBody stmts))
  | .sequentialBlock body => .sequentialBlock (sweep external (dceBody body))
  | .tbMethodCall inst method => .tbMethodCall inst method
termination_by structural s => s

def dceBody : List ProtoStatement → List ProtoStatement
  | [] => []
  | s :: body => dceNested s :: dceBody body
termination_by structural body => body

def dceArms : List (ProtoExpression × List ProtoStatement) →
    List (ProtoExpression × List ProtoStatement)
  | [] => []
  | (cond, body) :: arms => (cond, sweep external (dceBody body)) :: dceArms arms
termination_by structural arms => arms

end

def dceAggressive (stmts : List ProtoStatement) : List ProtoStatement :=
  sweep external (dceBody external stmts)

end Sweep

section Window

variable (external : List ProtoStatement → VarOffset → Bool)

/-- The next full-width store to a destination and the statements before it, unless one
of them keeps the value that is there. -/
def window (k : VarOffset) :
    List ProtoStatement → Option (List ProtoStatement × ProtoAssignStatement)
  | [] => none
  | s :: rest =>
    if isNested s ∨ Observes external s k then none
    else match fullStore s with
      | some x =>
        if x.dst = k then some ([], x) else (window k rest).map fun w => (s :: w.1, w.2)
      | none =>
        if k ∈ (s.gatherVariableOffsets external).2 then none
        else (window k rest).map fun w => (s :: w.1, w.2)

/-- The store is overwritten before it is observed. -/
def isDropped (s : ProtoStatement) (rest : List ProtoStatement) : Bool :=
  (fullStore s).elim false fun x => (window external x.dst rest).isSome

def dropStores : List ProtoStatement → List ProtoStatement
  | [] => []
  | s :: rest => if isDropped external s rest then dropStores rest else s :: dropStores rest

/-- The statements, each with whether it stays. -/
def flagged : List ProtoStatement → List (ProtoStatement × Bool)
  | [] => []
  | s :: rest => (s, !isDropped external s rest) :: flagged rest

theorem filter_flagged (stmts : List ProtoStatement) :
    ((flagged external stmts).filter (·.2)).map (·.1) = dropStores external stmts := by
  induction stmts with
  | nil => rfl
  | cons s rest ih =>
    rw [flagged, dropStores]
    cases isDropped external s rest with
    | true => simpa using ih
    | false => simpa using ih

open Classical in
/-- Takes back what the rest of a list overwrites. -/
noncomputable def mark (pending : VarOffset → Option ℕ) (rest : List ProtoStatement)
    (out : List (ProtoStatement × Bool)) : List (ProtoStatement × Bool) :=
  out.mapIdx fun i e =>
    (e.1, e.2 && !decide (∃ k, pending k = some i ∧ (window external k rest).isSome))

theorem isNested_of_fullStore (h : fullStore s = some x) : s = .assign x := by
  cases s with
  | assign y =>
    simp only [fullStore] at h
    split at h
    · rw [some.inj h]
    · cases h
  | _ => cases h

theorem window_full (h : fullStore s = some x) (k : VarOffset) (rest : List ProtoStatement) :
    (window external k (s :: rest)).isSome ↔
      ¬ Observes external s k ∧ (x.dst = k ∨ (window external k rest).isSome) := by
  have hflat : isNested s = false := by rw [isNested_of_fullStore h]; rfl
  rw [window, h]
  by_cases hobserves : Observes external s k
  · simp [hobserves]
  · by_cases hk : x.dst = k
    · simp [hflat, hobserves, hk]
    · simp [hflat, hobserves, hk]

theorem window_other (h : fullStore s = none) (k : VarOffset) (rest : List ProtoStatement) :
    (window external k (s :: rest)).isSome ↔ (isNested s = false ∧ ¬ Observes external s k ∧
        k ∉ (s.gatherVariableOffsets external).2) ∧ (window external k rest).isSome := by
  rw [window, h]
  by_cases hobserves : Observes external s k
  · simp [hobserves]
  · by_cases hk : k ∈ (s.gatherVariableOffsets external).2
    · simp [hk]
    · cases hflat : isNested s with
      | true => simp
      | false => simp [hobserves, hk]

/-- A store may only be dropped where it stands. -/
def Sweep.Valid (st : Sweep) : Prop := ∀ k i, st.pending k = some i → i < st.out.length

variable {external} {st : Sweep}

theorem Sweep.valid_step (h : st.Valid) (s : ProtoStatement) : (st.step external s).Valid := by
  intro k i hk
  simp only [Sweep.step] at hk ⊢
  have hkeep : ∀ {k i}, (if Observes external s k then none
      else (if isNested s then fun _ => none else st.pending) k) = some i → i < st.out.length := by
    intro k i hk
    split at hk
    · cases hk
    · split at hk
      · cases hk
      · exact h k i hk
  cases hstore : fullStore s with
  | none =>
    simp only [hstore] at hk ⊢
    rw [length_append]
    split at hk
    · cases hk
    · exact Nat.lt_of_lt_of_le (hkeep hk) (Nat.le_add_right _ _)
  | some x =>
    simp only [hstore] at hk ⊢
    have hlength : ∀ prev : Option ℕ, (prev.elim st.out fun prev =>
        st.out.modify prev fun e => (e.1, false)).length = st.out.length := by
      intro prev
      cases prev <;> simp
    rw [length_append, hlength, length_singleton]
    by_cases hkx : k = x.dst
    · rw [hkx, update_self] at hk
      have := some.inj hk
      omega
    · rw [update_of_ne hkx] at hk
      have := hkeep hk
      omega

open Classical in
theorem mark_congr {pending' : VarOffset → Option ℕ} {rest rest' : List ProtoStatement}
    {out : List (ProtoStatement × Bool)}
    (h : ∀ i < out.length, (∃ k, pending k = some i ∧ (window external k rest).isSome) ↔
      ∃ k, pending' k = some i ∧ (window external k rest').isSome) :
    mark external pending rest out = mark external pending' rest' out := by
  refine ext_getElem (by simp [mark]) fun i hi hi' => ?_
  have hi'' : i < out.length := by simpa [mark] using hi
  simp [mark, h i hi'']

theorem mark_append (killed : Bool) (pending : VarOffset → Option ℕ) (rest : List ProtoStatement)
    (out : List (ProtoStatement × Bool)) (s : ProtoStatement)
    (h : (∃ k, pending k = some out.length ∧ (window external k rest).isSome) ↔ killed = true) :
    mark external pending rest (out ++ [(s, true)]) =
      mark external pending rest out ++ [(s, !killed)] := by
  rw [mark, mapIdx_append]
  simp only [mapIdx_cons, mapIdx_nil, Nat.zero_add, h]
  cases killed <;> simp [mark]

/-- What stays pending at the reads of a statement. -/
def kept (external : List ProtoStatement → VarOffset → Bool) (pending : VarOffset → Option ℕ)
    (s : ProtoStatement) : VarOffset → Option ℕ := fun k =>
  if Observes external s k then none else (if isNested s then fun _ => none else pending) k

theorem kept_eq_some {k : VarOffset} : kept external pending s k = some i ↔
      ¬ Observes external s k ∧ isNested s = false ∧ pending k = some i := by
  unfold kept
  by_cases hobserves : Observes external s k
  · simp [hobserves]
  · cases hflat : isNested s <;> simp [hobserves]

/-- Takes back the store that is overwritten. -/
def takeBack (out : List (ProtoStatement × Bool)) (prev : Option ℕ) :
    List (ProtoStatement × Bool) :=
  prev.elim out fun prev => out.modify prev fun e => (e.1, false)

theorem length_takeBack (out : List (ProtoStatement × Bool)) (prev : Option ℕ) :
    (takeBack out prev).length = out.length := by
  cases prev <;> simp [takeBack]

theorem getElem_takeBack (out : List (ProtoStatement × Bool)) (prev : Option ℕ)
    (hi : i < (takeBack out prev).length) (hi' : i < out.length) :
    (takeBack out prev)[i] = if prev = some i then (out[i].1, false) else out[i] := by
  cases prev with
  | none => rfl
  | some prev => simp [takeBack, getElem_modify, eq_comm]

theorem mark_step (hst : st.Valid) (s : ProtoStatement) (rest : List ProtoStatement) :
    mark external (st.step external s).pending rest (st.step external s).out =
      mark external st.pending (s :: rest) st.out ++ [(s, !isDropped external s rest)] := by
  cases hstore : fullStore s with
  | none =>
    have hdropped : isDropped external s rest = false := by simp [isDropped, hstore]
    have hpending : (st.step external s).pending = fun k =>
        if k ∈ (s.gatherVariableOffsets external).2 then none
        else kept external st.pending s k := by
      simp only [Sweep.step, hstore, kept]
    have hout : (st.step external s).out = st.out ++ [(s, true)] := by
      simp only [Sweep.step, hstore]
    rw [hpending, hout, hdropped, mark_append false]
    · congr 1
      refine mark_congr fun i _ => exists_congr fun k => ?_
      rw [window_other external hstore]
      by_cases hk : k ∈ (s.gatherVariableOffsets external).2
      · simp [hk]
      · simp only [hk, if_false, kept_eq_some]
        tauto
    · refine iff_of_false ?_ (by simp)
      rintro ⟨k, hk, -⟩
      split at hk
      · cases hk
      · exact absurd (hst k _ (kept_eq_some.1 hk).2.2) (lt_irrefl _)
  | some x =>
    have hflat : isNested s = false := by rw [isNested_of_fullStore hstore]; rfl
    have hpending : (st.step external s).pending =
        Function.update (kept external st.pending s) x.dst (some st.out.length) := by
      simp only [Sweep.step, hstore]
      rfl
    have hout : (st.step external s).out =
        takeBack st.out (kept external st.pending s x.dst) ++ [(s, true)] := by
      simp only [Sweep.step, hstore]
      rfl
    rw [hpending, hout, mark_append (isDropped external s rest)]
    · congr 1
      refine ext_getElem (by simp [mark, length_takeBack]) fun i hi hi' => ?_
      have hlt : i < st.out.length := by simpa [mark] using hi'
      simp only [mark, getElem_mapIdx]
      rw [getElem_takeBack _ _ _ hlt]
      by_cases hprev : kept external st.pending s x.dst = some i
      · obtain ⟨hobserves, -, hbefore⟩ := kept_eq_some.1 hprev
        have hkilled : ∃ k, st.pending k = some i ∧ (window external k (s :: rest)).isSome :=
          ⟨x.dst, hbefore, (window_full external hstore _ _).2 ⟨hobserves, .inl rfl⟩⟩
        simp [hprev, hkilled]
      · rw [if_neg hprev]
        congr 3
        refine decide_eq_decide.2 (exists_congr fun k => ?_)
        rw [window_full external hstore]
        by_cases hk : k = x.dst
        · rw [hk, update_self]
          rw [kept_eq_some] at hprev
          have hne : some st.out.length ≠ some i := fun h => by
            have := some.inj h
            omega
          tauto
        · rw [update_of_ne hk, kept_eq_some]
          tauto
    · rw [length_takeBack]
      simp only [isDropped, hstore, elim_some]
      constructor
      · rintro ⟨k, hk, hwindow⟩
        by_cases hkx : k = x.dst
        · rwa [← hkx]
        · rw [update_of_ne hkx] at hk
          exact absurd (hst k _ (kept_eq_some.1 hk).2.2) (lt_irrefl _)
      · exact fun hwindow => ⟨x.dst, update_self .., hwindow⟩

theorem foldl_step (hst : st.Valid) (rest : List ProtoStatement) :
    (rest.foldl (Sweep.step external) st).out =
      mark external st.pending rest st.out ++ flagged external rest := by
  induction rest generalizing st with
  | nil =>
    rw [foldl_nil, flagged, append_nil]
    refine (ext_getElem (by simp [mark]) fun i hi hi' => ?_).symm
    simp [mark, window]
  | cons s rest ih =>
    rw [foldl_cons, ih (Sweep.valid_step hst s), mark_step hst, flagged,
      append_assoc, singleton_append]

theorem sweep_eq (stmts : List ProtoStatement) :
    sweep external stmts = dropStores external stmts := by
  have hvalid : Sweep.Valid ⟨[], fun _ => none⟩ := fun k i h => by cases h
  rw [sweep, foldl_step hvalid, ← filter_flagged]
  rfl

end Window

end Veryl.Simulator.DupAssignDce
