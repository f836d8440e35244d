import Veryl.Analyzer.AssignTableSteps

/-!
What the table holds after a sequence of calls. The assigned masks are the unions
of the masks of the in-range calls whatever the order; the masks that
`check_refered` reads are, unless an out-of-range assignment created the entry:
such an entry keeps no element, loses every later call and cannot be queried.
-/

namespace Veryl.Analyzer.AssignTables

open List Option Nat
open AssignTable (checkRefered regionElements)

variable {t' : AssignTable} {array : ArraySpan}

namespace Context

/-- The number of elements of a variable; none for one that is not declared. -/
def elements (context : Context) (id : VarId) : ℕ :=
  ((context.variableShapes id).map AssignTables.elements).getD 0

def calcIndex (context : Context) (id : VarId) (index : List ℕ) : Option ℕ :=
  (context.variableShapes id).bind (·.calcIndex index)

end Context

namespace Call

variable (context : Context) (id : VarId)

/-- The mask that a call assigns to an element. -/
def assigns (i : ℕ) : Call → ℕ
  | .insertAssign id' index mask =>
    if id' = id ∧ context.calcIndex id index = some i then mask else 0
  | .insertRegion write =>
    if write.id = id ∧ (write.array.start ≤ i ∧ i < write.array.start + write.array.length) ∧
        i < context.elements id then packedMask write.packed else 0
  | .insertReference _ _ _ => 0

/-- The mask that a call references of an element. -/
def references (i : ℕ) : Call → ℕ
  | .insertAssign _ _ _ => 0
  | .insertRegion _ => 0
  | .insertReference id' index mask =>
    if id' = id ∧ context.calcIndex id index = some i then mask else 0

/-- The call records something for the variable, if only an entry. -/
def concerns : Call → Bool
  | .insertAssign id' _ _ => id' = id
  | .insertRegion write =>
    write.id = id ∧ 0 < write.array.length ∧ write.array.start < context.elements id
  | .insertReference id' _ _ => id' = id

/-- An assignment of the variable at an index that is out of range. -/
def outOfRange : Call → Bool
  | .insertAssign id' index _ => id' = id ∧ context.calcIndex id index = none
  | _ => false

/-- The call decides how the entry comes to be when there is none yet. -/
def track (call : Call) (tracked : Tracked) : Tracked :=
  if call.concerns context id then
    match tracked with
    | .untracked => if call.outOfRange context id then .lost else .full
    | tracked => tracked
  else tracked

end Call

/-- The union of the masks that the calls assign to an element. -/
def assigned (context : Context) (calls : List Call) (id : VarId) (i : ℕ) : ℕ :=
  calls.foldl (fun union call => union ||| call.assigns context id i) 0

/-- The union of the masks that the calls reference of an element. -/
def referenced (context : Context) (calls : List Call) (id : VarId) (i : ℕ) : ℕ :=
  calls.foldl (fun union call => union ||| call.references context id i) 0

def trackedAfter (context : Context) (calls : List Call) (id : VarId) : Tracked :=
  calls.foldl (fun tracked call => call.track context id tracked) .untracked

/-- The first call that records something for the variable is an assignment out
of range. -/
def FirstOutOfRange (context : Context) (calls : List Call) (id : VarId) : Prop :=
  ∃ call, calls.find? (Call.concerns context id) = some call ∧ call.outOfRange context id = true

/-- There is no entry for the variable. -/
structure Untouched (t : AssignTable) (id : VarId) : Prop where
  table : t.table id = none
  refernced : t.refernced id = none
  reads : t.accumulatedReads id = none

theorem SameAt.untouched {t : AssignTable} {id : VarId} (h : SameAt t t' id)
    (hid : Untouched t id) : Untouched t' id :=
  ⟨h.table.trans hid.table, h.refernced.trans hid.refernced, h.reads.trans hid.reads⟩

/-- What the table holds for every variable. -/
structure Records (context : Context) (limit : ℕ) (a r : VarId → ℕ → ℕ)
    (tracked : VarId → Tracked) (t : AssignTable) : Prop where
  arrayLimit : t.arrayLimit = limit
  within : ∀ id array, context.variableShapes id = some array → elements array ≤ limit →
    t.Holds ⟨id, array⟩ (a id) (r id) (tracked id)
  past : ∀ id array, context.variableShapes id = some array → limit < elements array →
    Untouched t id
  undeclared : ∀ id, context.variableShapes id = none → Untouched t id

theorem mem_regionElements {total i : ℕ} (htotal : total < 2 ^ 64) :
    i ∈ regionElements array total ↔
      (array.start ≤ i ∧ i < array.start + array.length) ∧ i < total := by
  simp only [regionElements, mem_range'_1, checkedAdd]
  split <;> simp only [getD_some, getD_none] <;> omega

theorem regionElements_eq_nil {total : ℕ} (htotal : total < 2 ^ 64) :
    regionElements array total = [] ↔ ¬ (0 < array.length ∧ array.start < total) := by
  rw [eq_nil_iff_forall_not_mem]
  simp only [mem_regionElements htotal]
  refine ⟨fun h hin => h array.start ⟨⟨Nat.le_refl _, by omega⟩, hin.2⟩, fun h i hi => h ?_⟩
  exact ⟨by omega, by omega⟩

/-- The variable that a call names. -/
def Call.id : Call → VarId
  | .insertAssign id _ _ => id
  | .insertRegion write => write.id
  | .insertReference id _ _ => id

theorem Call.other (context : Context) {call : Call} {id : VarId} (h : id ≠ call.id) :
    (∀ i, call.assigns context id i = 0) ∧ (∀ i, call.references context id i = 0) ∧
      ∀ tracked, call.track context id tracked = tracked := by
  cases call with
  | insertAssign id' index mask =>
    have hne : id' ≠ id := fun heq => h heq.symm
    simp [assigns, references, track, concerns, hne]
  | insertRegion write =>
    have hne : write.id ≠ id := fun heq => h heq.symm
    simp [assigns, references, track, concerns, hne]
  | insertReference id' index mask =>
    have hne : id' ≠ id := fun heq => h heq.symm
    simp [assigns, references, track, concerns, hne]

theorem addMask_eq_or (f : ℕ → ℕ) (element : Option ℕ) (mask : ℕ) :
    addMask f element mask = fun i => f i ||| if element = some i then mask else 0 := by
  funext i
  simp only [addMask]
  split <;> simp

section Calls

variable {context : Context} {t : AssignTable} {limit : ℕ} {a r : VarId → ℕ → ℕ}
  {tracked : VarId → Tracked}

/-- The table records the call as well. -/
abbrev RecordsAfter (context : Context) (limit : ℕ) (a r : VarId → ℕ → ℕ)
    (tracked : VarId → Tracked) (call : Call) : AssignTable → Prop :=
  Records context limit (fun id i => a id i ||| call.assigns context id i)
    (fun id i => r id i ||| call.references context id i)
    fun id => call.track context id (tracked id)

theorem Records.step (call : Call)
    (h : Records context limit a r tracked t) (hlimit : t'.arrayLimit = t.arrayLimit)
    (hothers : ∀ id, id ≠ call.id → SameAt t t' id)
    (hwithin : ∀ array, context.variableShapes call.id = some array → elements array ≤ limit →
      t'.Holds ⟨call.id, array⟩ (fun i => a call.id i ||| call.assigns context call.id i)
        (fun i => r call.id i ||| call.references context call.id i)
        (call.track context call.id (tracked call.id)))
    (hpast : ∀ array, context.variableShapes call.id = some array →
      limit < elements array → SameAt t t' call.id)
    (hundeclared : context.variableShapes call.id = none → SameAt t t' call.id) :
    RecordsAfter context limit a r tracked call t' := by
  refine ⟨hlimit.trans h.arrayLimit, fun id array harray hle => ?_,
    fun id array harray hlt => ?_, fun id hid => ?_⟩
  · by_cases hid : id = call.id
    · subst hid
      exact hwithin array harray hle
    · have hholds := h.within id array harray hle
      obtain ⟨ha, hr, htracked⟩ := Call.other context hid
      have hat := hothers id hid
      simp only [AssignTable.Holds, ha, hr, htracked, hat.table, hat.refernced, hat.reads, or_zero]
      exact hholds
  · by_cases hid : id = call.id
    · subst hid
      exact (hpast array harray hlt).untouched (h.past _ array harray hlt)
    · exact (hothers id hid).untouched (h.past id array harray hlt)
  · by_cases hne : id = call.id
    · subst hne
      exact (hundeclared hid).untouched (h.undeclared _ hid)
    · exact (hothers id hne).untouched (h.undeclared id hid)

theorem Records.skip (call : Call) (h : Records context limit a r tracked t)
    (hnone : ∀ array, context.variableShapes call.id = some array → limit < elements array) :
    RecordsAfter context limit a r tracked call t := by
  apply h.step call rfl (fun id _ => SameAt.refl t id)
  · intro array harray hle
    exact absurd (hnone array harray) (Nat.not_lt.2 hle)
  · exact fun _ _ _ => SameAt.refl t _
  · exact fun _ => SameAt.refl t _

theorem Records.skip_undeclared (call : Call) (h : Records context limit a r tracked t)
    (harray : context.variableShapes call.id = none) :
    RecordsAfter context limit a r tracked call t := by
  apply h.skip
  intro array hsome
  simp [harray] at hsome

variable {array : Shape}

theorem Records.skip_past (call : Call) (h : Records context limit a r tracked t)
    (harray : context.variableShapes call.id = some array)
    (hlt : limit < elements array) :
    RecordsAfter context limit a r tracked call t := by
  apply h.skip
  intro array' hsome
  rw [harray] at hsome
  rwa [← some.inj hsome]

theorem Records.step_within (call : Call) (h : Records context limit a r tracked t)
    (harray : context.variableShapes call.id = some array) (hle : ¬ limit < elements array)
    (hlimit : t'.arrayLimit = t.arrayLimit) (hothers : ∀ id, id ≠ call.id → SameAt t t' id)
    (hholds : t'.Holds ⟨call.id, array⟩ (fun i => a call.id i ||| call.assigns context call.id i)
      (fun i => r call.id i ||| call.references context call.id i)
      (call.track context call.id (tracked call.id))) :
    RecordsAfter context limit a r tracked call t' := by
  refine h.step call hlimit hothers ?_ ?_ ?_
  · intro array' hsome _
    rw [harray] at hsome
    rw [← some.inj hsome]
    exact hholds
  · intro array' hsome hlt
    rw [harray] at hsome
    rw [← some.inj hsome] at hlt
    exact absurd hlt hle
  · intro hnone
    simp [harray] at hnone

theorem run_insertAssign (id : VarId) (index : List ℕ) (mask : ℕ)
    (h : Records context limit a r tracked t) :
    ∃ t', (Call.insertAssign id index mask).run context t = some t' ∧
      RecordsAfter context limit a r tracked (.insertAssign id index mask) t' := by
  cases harray : context.variableShapes id with
  | none =>
    exact ⟨t, by simp [Call.run, Context.getVariableInfo, harray], h.skip_undeclared _ harray⟩
  | some array =>
    simp only [Call.run, Context.getVariableInfo, harray, map_some,
      AssignTable.insertAssign, h.arrayLimit]
    by_cases hlt : limit < elements array
    · exact ⟨t, if_pos hlt, h.skip_past _ harray hlt⟩
    obtain ⟨t', ht', hstep⟩ := insertElement_step mask
      (h.within id array harray (Nat.not_lt.1 hlt))
      (fun i hi => calcIndex_lt_elements hi)
    refine ⟨t', (if_neg hlt).trans ht',
      h.step_within _ harray hlt hstep.arrayLimit hstep.others ?_⟩
    have hholds := hstep.holds
    rw [addMask_eq_or] at hholds
    simp only [Call.id, Call.assigns, Call.references, Call.track, Call.concerns,
      Call.outOfRange, Context.calcIndex, harray, bind_some, true_and,
      decide_true, if_true, or_zero, decide_eq_true_eq]
    cases htracked : tracked id <;> rw [htracked] at hholds <;> exact hholds

theorem run_insertRegion (write : RegionWrite) (h : Records context limit a r tracked t) :
    ∃ t', (Call.insertRegion write).run context t = some t' ∧
      RecordsAfter context limit a r tracked (.insertRegion write) t' := by
  cases harray : context.variableShapes write.id with
  | none =>
    exact ⟨t, by simp [Call.run, AssignTable.insertRegion, Context.getVariableInfo, harray],
      h.skip_undeclared _ harray⟩
  | some array =>
    simp only [Call.run, Context.getVariableInfo, harray, map_some,
      AssignTable.insertRegion, h.arrayLimit]
    have hcontext : context.elements write.id = elements array := by
      simp [Context.elements, harray]
    cases htotal : array.total with
    | none =>
      have hzero : elements array = 0 := by simp [elements, htotal]
      refine ⟨t, rfl, h.step _ rfl (fun id _ => SameAt.refl t id) ?_
        (fun _ _ _ => SameAt.refl t _) (fun _ => SameAt.refl t _)⟩
      intro array' hsome hle
      have hholds := h.within write.id array' hsome hle
      simpa [Call.id, Call.assigns, Call.references, Call.track, Call.concerns, hcontext,
        hzero] using hholds
    | some total =>
      have helements : elements array = total := by simp [elements, htotal]
      have hbound : total < 2 ^ 64 := Shape.total_lt htotal
      by_cases hlt : limit < total
      · exact ⟨t, if_pos hlt, h.skip_past _ harray (helements ▸ hlt)⟩
      have hregion : ∀ i ∈ regionElements write.array total,
          i < elements array := fun i hi => by
        rw [helements]
        exact ((mem_regionElements hbound).1 hi).2
      have hholds := h.within write.id array harray (helements ▸ Nat.not_lt.1 hlt)
      obtain ⟨t', ht', hstep⟩ :=
        insertElements_step (packedMask write.packed) hregion hholds
      refine ⟨t', (if_neg hlt).trans ht',
        h.step_within _ harray (helements ▸ hlt) hstep.arrayLimit hstep.others ?_⟩
      have hholds := hstep.holds
      simp only [mem_regionElements hbound, regionElements_eq_nil hbound, ite_not] at hholds
      simp only [Call.id, Call.assigns, Call.references, Call.track, Call.concerns,
        Call.outOfRange, hcontext, helements, true_and, or_zero, decide_eq_true_eq]
      cases htracked : tracked write.id <;> rw [htracked] at hholds <;> exact hholds

theorem run_insertReference (id : VarId) (index : List ℕ) (mask : ℕ)
    (h : Records context limit a r tracked t) :
    ∃ t', (Call.insertReference id index mask).run context t = some t' ∧
      RecordsAfter context limit a r tracked (.insertReference id index mask) t' := by
  cases harray : context.variableShapes id with
  | none =>
    exact ⟨t, by simp [Call.run, Context.getVariableInfo, harray], h.skip_undeclared _ harray⟩
  | some array =>
    simp only [Call.run, Context.getVariableInfo, harray, map_some, some.injEq, exists_eq_left']
    by_cases hlt : limit < elements array
    · have hskip : t.insertReference ⟨id, array⟩ index mask = t :=
        if_pos (by rw [h.arrayLimit]; exact hlt)
      rw [hskip]
      exact h.skip_past _ harray hlt
    · have hle := Nat.not_lt.1 hlt
      have hbound : elements array ≤ t.arrayLimit := h.arrayLimit.symm ▸ hle
      have hstep := insertReference_step index mask (h.within id array harray hle) hbound
      refine h.step_within _ harray hlt hstep.arrayLimit hstep.others ?_
      have hholds := hstep.holds
      rw [addMask_eq_or] at hholds
      simp only [Call.id, Call.assigns, Call.references, Call.track, Call.concerns, Call.outOfRange,
        Context.calcIndex, harray, bind_some, true_and, decide_true, if_true, or_zero]
      cases htracked : tracked id <;> rw [htracked] at hholds <;> exact hholds

theorem run_step (call : Call) (h : Records context limit a r tracked t) :
    ∃ t', call.run context t = some t' ∧
      RecordsAfter context limit a r tracked call t' := by
  cases call with
  | insertAssign id index mask => exact run_insertAssign id index mask h
  | insertRegion write => exact run_insertRegion write h
  | insertReference id index mask => exact run_insertReference id index mask h

theorem records_new : Records context limit (fun _ _ => 0) (fun _ _ => 0)
    (fun _ => .untracked) (AssignTable.new limit) :=
  ⟨rfl, fun _ _ _ _ => ⟨Or.inl ⟨rfl, fun _ => rfl⟩, ⟨rfl, fun _ => rfl, fun _ => rfl⟩,
    Or.inl ⟨rfl, fun _ => rfl⟩⟩, fun _ _ _ _ => ⟨rfl, rfl, rfl⟩, fun _ _ => ⟨rfl, rfl, rfl⟩⟩

theorem assigned_append (context : Context) (calls : List Call) (call : Call) :
    assigned context (calls ++ [call]) =
      fun id i => assigned context calls id i ||| call.assigns context id i := by
  funext id i
  simp [assigned]

theorem referenced_append (context : Context) (calls : List Call) (call : Call) :
    referenced context (calls ++ [call]) =
      fun id i => referenced context calls id i ||| call.references context id i := by
  funext id i
  simp [referenced]

theorem trackedAfter_append (context : Context) (calls : List Call) (call : Call) :
    trackedAfter context (calls ++ [call]) =
      fun id => call.track context id (trackedAfter context calls id) := by
  funext id
  simp [trackedAfter]

theorem record_spec (context : Context) (limit : ℕ) (calls : List Call) :
    ∃ t, record context limit calls = some t ∧
      Records context limit (assigned context calls) (referenced context calls)
        (trackedAfter context calls) t := by
  induction calls using List.reverseRecOn with
  | nil => exact ⟨_, rfl, records_new⟩
  | append_singleton calls call ih =>
    obtain ⟨t, ht, hrecords⟩ := ih
    obtain ⟨t', ht', hrecords'⟩ := run_step call hrecords
    refine ⟨t', ?_, ?_⟩
    · rw [record] at ht ⊢
      simp [ht, ht']
    · rw [assigned_append, referenced_append, trackedAfter_append]
      exact hrecords'

end Calls

theorem trackedAfter_eq (context : Context) (calls : List Call) (id : VarId) :
    trackedAfter context calls id =
      match calls.find? (Call.concerns context id) with
      | none => .untracked
      | some call => if call.outOfRange context id then .lost else .full := by
  induction calls using List.reverseRecOn with
  | nil => rfl
  | append_singleton calls call ih =>
    rw [trackedAfter_append]
    dsimp only
    rw [ih, find?_append]
    cases hfind : calls.find? (Call.concerns context id) with
    | some first =>
      cases hfirst : first.outOfRange context id with
      | false => simp [Call.track, hfirst]
      | true => simp [Call.track, hfirst]
    | none =>
      cases hconcerns : call.concerns context id with
      | false => simp [Call.track, hconcerns]
      | true => simp [Call.track, hconcerns]

theorem trackedAfter_eq_lost {context : Context} {calls : List Call} {id : VarId} :
    trackedAfter context calls id = .lost ↔ FirstOutOfRange context calls id := by
  rw [trackedAfter_eq, FirstOutOfRange]
  cases calls.find? (Call.concerns context id) with
  | none => simp
  | some call => simp

/-- The tracking of references after the calls: the recorded masks are the unions
of the masks of the in-range calls, a variable that is not recorded received none
within the limit, and no query leaves the recorded vectors. -/
structure Exact (context : Context) (limit : ℕ) (calls : List Call) (t : AssignTable) :
    Prop where
  assign : ∀ id entry, t.table id = some entry →
    entry.mask = masks (context.elements id) (assigned context calls id)
  refernced : ∀ id entry, t.refernced id = some entry →
    entry.maskAssign = masks (context.elements id) (assigned context calls id) ∧
      entry.maskRef = masks (context.elements id) (referenced context calls id)
  reads : ∀ id reads, t.accumulatedReads id = some reads →
    reads = masks (context.elements id) (referenced context calls id)
  complete : ∀ id i, i < context.elements id → context.elements id ≤ limit →
    (t.table id = none → assigned context calls id i = 0) ∧ (t.refernced id = none →
        assigned context calls id i = 0 ∧ referenced context calls id i = 0) ∧
      (t.accumulatedReads id = none → referenced context calls id i = 0)
  query : ∀ id index mask, t.checkRefered id index mask ≠ none

section Runs

variable {context : Context} {limit : ℕ} {calls : List Call} {t : AssignTable}

theorem checkRefered_ne_none {id : VarId} {entry : ReferencedEntry} {n : ℕ} {a r : ℕ → ℕ}
    (h : t.refernced id = some entry) (hn : n = elements entry.array)
    (hassign : entry.maskAssign = masks n a) (href : entry.maskRef = masks n r)
    (index : List ℕ) (mask : ℕ) : t.checkRefered id index mask ≠ none := by
  simp only [checkRefered, h]
  cases hindex : entry.array.calcIndex index with
  | none => simp
  | some i =>
    have hi : i < n := hn ▸ calcIndex_lt_elements hindex
    simp only [hassign, href, getElem?_masks _ hi, bind_eq_bind, bind_some]
    split <;> simp

section

variable (h : Records context limit (assigned context calls) (referenced context calls)
  (trackedAfter context calls) t)

include h

theorem Records.cases (id : VarId) :
    Untouched t id ∧ ¬ (0 < context.elements id ∧ context.elements id ≤ limit) ∨
      ∃ array, context.elements id = elements array ∧ elements array ≤ limit ∧
        t.Holds ⟨id, array⟩ (assigned context calls id) (referenced context calls id)
          (trackedAfter context calls id) := by
  cases harray : context.variableShapes id with
  | none =>
    refine Or.inl ⟨h.undeclared id harray, ?_⟩
    simp [Context.elements, harray]
  | some array =>
    have helements : context.elements id = elements array := by
      simp [Context.elements, harray]
    rcases Nat.lt_or_ge limit (elements array) with hlt | hle
    · exact Or.inl ⟨h.past id array harray hlt, by omega⟩
    · exact Or.inr ⟨array, helements, hle, h.within id array harray hle⟩

theorem Records.exact (hlost : ∀ id, FirstOutOfRange context calls id →
      ¬ (0 < context.elements id ∧ context.elements id ≤ limit)) :
    Exact context limit calls t := by
  have hrefernced : ∀ id entry, t.refernced id = some entry →
      (entry.maskAssign = masks (context.elements id) (assigned context calls id) ∧
        entry.maskRef = masks (context.elements id) (referenced context calls id)) ∧
      context.elements id = elements entry.array := by
    intro id entry hentry
    rcases h.cases id with ⟨hnone, -⟩ | ⟨array, helements, hle, hholds⟩
    · simp [hnone.refernced] at hentry
    have href := hholds.refernced
    cases htracked : trackedAfter context calls id with
    | untracked => simp [htracked, hentry] at href
    | lost =>
      have hzero : context.elements id = 0 := by
        have hnot := hlost id (trackedAfter_eq_lost.1 htracked)
        omega
      simp only [htracked, hentry, some.injEq] at href
      subst href
      exact ⟨by simp [hzero], helements⟩
    | full =>
      simp only [htracked, hentry, some.injEq] at href
      subst href
      exact ⟨by simp [helements], helements⟩
  refine ⟨fun id entry hentry => ?_, fun id entry hentry => (hrefernced id entry hentry).1,
    fun id reads hreads => ?_, fun id i hi hlimit => ?_, fun id index mask => ?_⟩
  · rcases h.cases id with ⟨hnone, -⟩ | ⟨array, helements, hle, hholds⟩
    · simp [hnone.table] at hentry
    · rcases hholds.entry with ⟨hnone, -⟩ | hsome
      · simp [hnone] at hentry
      · rw [hentry] at hsome
        rw [some.inj hsome, helements]
  · rcases h.cases id with ⟨hnone, -⟩ | ⟨array, helements, hle, hholds⟩
    · simp [hnone.reads] at hreads
    · rcases hholds.reads with ⟨hnone, -⟩ | hsome
      · simp [hnone] at hreads
      · rw [hreads] at hsome
        rw [some.inj hsome, helements]
  · rcases h.cases id with ⟨-, hpast⟩ | ⟨array, helements, hle, hholds⟩
    · omega
    refine ⟨fun hnone => ?_, fun hnone => ?_, fun hnone => ?_⟩
    · rcases hholds.entry with ⟨-, ha⟩ | hsome
      · exact ha i
      · simp [hnone] at hsome
    · have href := hholds.refernced
      cases htracked : trackedAfter context calls id with
      | untracked =>
        rw [htracked] at href
        exact ⟨href.2.1 i, href.2.2 i⟩
      | lost => simp [htracked, hnone] at href
      | full => simp [htracked, hnone] at href
    · rcases hholds.reads with ⟨-, hr⟩ | hsome
      · exact hr i
      · simp [hnone] at hsome
  · cases hentry : t.refernced id with
    | none => simp [checkRefered, hentry]
    | some entry =>
      obtain ⟨⟨hassign, href⟩, helements⟩ := hrefernced id entry hentry
      exact checkRefered_ne_none hentry helements hassign href index mask

theorem Records.not_exact {id : VarId}
    (hfirst : FirstOutOfRange context calls id) (hpos : 0 < context.elements id)
    (hlimit : context.elements id ≤ limit) : ¬ Exact context limit calls t := by
  intro hexact
  rcases h.cases id with ⟨-, hpast⟩ | ⟨array, helements, hle, hholds⟩
  · exact hpast ⟨hpos, hlimit⟩
  · have href := hholds.refernced
    rw [trackedAfter_eq_lost.2 hfirst] at href
    have hempty := congrArg List.length (hexact.refernced id _ href).1
    simp only [length_nil, length_masks] at hempty
    omega

end

end Runs

/-- No sequence of calls panics. The tracking of references is exact afterwards if
and only if no recorded array was first recorded by an assignment out of range. -/
theorem record_exact_iff (context : Context) (limit : ℕ) (calls : List Call) :
    ∃ t, record context limit calls = some t ∧ (Exact context limit calls t ↔
        ∀ id, FirstOutOfRange context calls id →
          ¬ (0 < context.elements id ∧ context.elements id ≤ limit)) := by
  obtain ⟨t, ht, hrecords⟩ := record_spec context limit calls
  refine ⟨t, ht, fun hexact id hfirst hin => ?_, hrecords.exact⟩
  exact hrecords.not_exact hfirst hin.1 hin.2 hexact

/-- An assignment out of range and then a read of the first element: the read is
not recorded, and asking for it leaves the recorded vectors. -/
theorem record_not_exact : ¬ ∀ context limit calls t, record context limit calls = some t →
      Exact context limit calls t := by
  intro h
  have hexact := h ⟨fun _ => some [some 4]⟩ 128
    [.insertAssign 0 [9] 1, .insertReference 0 [0] 1] _ rfl
  exact hexact.query 0 [0] 1 rfl

end Veryl.Analyzer.AssignTables
