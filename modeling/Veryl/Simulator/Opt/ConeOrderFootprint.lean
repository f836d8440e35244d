import Veryl.Simulator.Opt.ConeOrderHazards

/-!
What the owner tables see of a statement: the offset gathered for each of its accesses, the spans
that offset resolves to, and whether it may emit.
-/

namespace Veryl.Simulator.Opt.ConeOrder

open Veryl.Analyzer Veryl.Library List Option
open ProtoStatement (walkArms_eq walkBody walkBody_eq)

variable {r : ℕ × ℕ} {o b : VarOffset} {x : Access × VarOffset} {v : Visit} {s : ProtoStatement}

section Recorded

variable (fold : BigArrayFold) (use4state : Bool)

def recordedArray (base : VarOffset) (stride : ℤ) (n bytes : ℕ) : List (Access × VarOffset) :=
  (stridedAccesses base stride n bytes).map fun a =>
    (a, if fold.covers base then base else .new base.isFf (base.raw + a.delta))

/-- The accesses of an expression, each with the offset gathered for it. -/
def recordedReads (e : ProtoExpression) : List (Access × VarOffset) :=
  e.leaves.flatMap fun
    | .variable o sel ds w full _ =>
      [(⟨o, 0, valueSize (nativeBytes (ProtoExpression.readWidth sel ds w full)) use4state⟩,
        fold.canon o)]
    | .dynamicVariable base stride nb _ n _ _ _ _ =>
      recordedArray fold base stride n (valueSize nb use4state)
    | _ => []

def recordedInputs (v : Visit) : List (Access × VarOffset) :=
  v.operands.flatMap (recordedReads fold use4state)

def recordedOutputs : Visit → List (Access × VarOffset)
  | .assign x => [(storeSlot use4state x.dst x.dstWidth, fold.canon x.dst)]
  | .assignDynamic x =>
    recordedArray fold x.dstBase x.dstStride x.dstNumElements
      (valueSize (nativeBytes x.dstWidth) use4state)
  | _ => []

/-- The stores that are not gathered: loop counters and memory images. -/
def unrecorded (v : Visit) : List Access :=
  match v with
  | .loop _ | .call _ => v.writes use4state
  | _ => []

variable {fold use4state}

theorem mem_arrayOffsets {base : VarOffset} {stride : ℤ} {n bytes : ℕ}
    (h : x ∈ recordedArray fold base stride n bytes) :
    x.2 ∈ arrayOffsets fold base stride n ∧ x.2.isFf = x.1.base.isFf := by
  obtain ⟨a, ha, rfl⟩ := mem_map.1 h
  obtain ⟨i, hi, rfl⟩ := mem_map.1 ha
  unfold arrayOffsets
  split
  · exact ⟨by simp, rfl⟩
  · exact ⟨mem_map.2 ⟨i, hi, rfl⟩, by simp⟩

theorem isFf_canon (o : VarOffset) : (fold.canon o).isFf = o.isFf := by
  unfold BigArrayFold.canon
  split
  · simp
  · rfl

theorem mem_gather_of_recordedReads {e : ProtoExpression} (h : x ∈ recordedReads fold use4state e) :
    x.2 ∈ e.gatherVariableOffsetsExpanded fold ∧ x.2.isFf = x.1.base.isFf := by
  obtain ⟨l, hl, hx⟩ := mem_flatMap.1 h
  rw [ProtoExpression.gatherVariableOffsetsExpanded, mem_flatMap]
  split at hx
  · obtain rfl := mem_singleton.1 hx
    exact ⟨⟨_, hl, by simp⟩, isFf_canon _⟩
  · obtain ⟨ho, hff⟩ := mem_arrayOffsets hx
    exact ⟨⟨_, hl, ho⟩, hff⟩
  · cases hx

theorem recordedReads_fst (e : ProtoExpression) :
    (recordedReads fold use4state e).map (·.1) = e.accesses use4state := by
  rw [recordedReads, map_flatMap, ProtoExpression.accesses]
  refine flatMap_congr fun l _ => ?_
  cases l <;> simp [ProtoExpression.leafAccesses, recordedArray, Function.comp_def]

variable (fold) in
theorem exists_recordedRead {e : ProtoExpression} {a : Access} (h : a ∈ e.accesses use4state) :
    ∃ o, (a, o) ∈ recordedReads fold use4state e := by
  have h' : a ∈ (recordedReads fold use4state e).map (·.1) := by rwa [recordedReads_fst]
  obtain ⟨x, hx, rfl⟩ := mem_map.1 h'
  exact ⟨x.2, hx⟩

theorem mem_gatherInputs (h : x ∈ recordedInputs fold use4state v) :
    x.2 ∈ v.gatherInputs fold ∧ x.2.isFf = x.1.base.isFf := by
  obtain ⟨e, he, hx⟩ := mem_flatMap.1 h
  obtain ⟨ho, hff⟩ := mem_gather_of_recordedReads hx
  exact ⟨mem_append_left _ (mem_flatMap.2 ⟨e, he, ho⟩), hff⟩

theorem mem_gatherOutputs (h : x ∈ recordedOutputs fold use4state v) :
    x.2 ∈ v.gatherOutputs fold ∧ x.2.isFf = x.1.base.isFf := by
  unfold recordedOutputs at h
  split at h
  · obtain rfl := mem_singleton.1 h
    exact ⟨by simp [Visit.gatherOutputs], isFf_canon _⟩
  · exact mem_arrayOffsets h
  · cases h

variable (fold) in
theorem mem_writes {v : Visit} {a : Access} (h : a ∈ v.writes use4state) :
    (∃ o, (a, o) ∈ recordedOutputs fold use4state v) ∨ a ∈ unrecorded use4state v := by
  cases v with
  | assign x =>
    left
    simp only [Visit.writes] at h
    split at h
    · cases h
    · exact ⟨fold.canon x.dst, by simpa [recordedOutputs] using h⟩
  | assignDynamic x =>
    left
    simp only [Visit.writes] at h
    split at h
    · cases h
    · exact ⟨_, mem_map.2 ⟨a, h, rfl⟩⟩
  | loop x => exact .inr h
  | call x => exact .inr h
  | cond e => cases h
  | compiled x => cases h
  | tb m => cases h

variable (fold) in
theorem mem_reads {v : Visit} {a : Access} (h : a ∈ v.reads use4state) :
    (∃ o, (a, o) ∈ recordedInputs fold use4state v) ∨
      ∃ o, (a, o) ∈ recordedOutputs fold use4state v := by
  rcases Visit.mem_reads h with ⟨e, he, ha⟩ | h
  · obtain ⟨o, ho⟩ := exists_recordedRead fold ha
    exact .inl ⟨o, mem_flatMap.2 ⟨e, he, ho⟩⟩
  · right
    cases v with
    | assign x => exact ⟨fold.canon x.dst, by simpa [recordedOutputs, Visit.destination] using h⟩
    | assignDynamic x => exact ⟨_, mem_map.2 ⟨a, h, rfl⟩⟩
    | _ => cases h

end Recorded

section Owners

variable {inputs : OwnerInputs}

theorem within_of_combSpan {x : ℤ} {sp : OwnerSpan} (h : combSpan inputs (.comb x) = some sp) :
    Within (.comb x) (sp.start, sp.stop) := by
  simp only [combSpan, OwnerInputs.spanIn] at h
  split_ifs at h with hx hi
  have hin := (filter_eq_some_iff.1 h).2
  simp only [decide_eq_true_eq] at hin
  constructor <;> simp only [VarOffset.raw] <;> omega

theorem within_of_ffSpan {x : ℤ} (h : ffSpan inputs (.ff x) = some r) : Within (.ff x) r := by
  simp only [ffSpan, FfOwner.span] at h
  split_ifs at h with hx hi
  obtain ⟨run, hrun, h⟩ := bind_eq_some_iff.1 h
  obtain ⟨hlt, hget⟩ := List.getElem?_eq_some_iff.1 hrun
  have hstart : run.start ≤ x.toNat := by
    have := of_lt_partitionPoint hlt (show _ < partitionPoint inputs.ffOwner.runs
      fun r => decide (r.start ≤ x.toNat) by omega)
    simpa [hget] using this
  split_ifs at h with hk hend
  obtain rfl := some.inj h
  have hdiv := Nat.div_mul_le_self (x.toNat - run.start) run.stride
  constructor <;> simp only [VarOffset.raw] <;> omega

theorem within_of_resolve (h : resolve inputs o = some r) : Within o r := by
  cases o with
  | ff x =>
    have hspan : ffSpan inputs (.ff x) = some r := by simpa [resolve, combSpan] using h
    exact within_of_ffSpan hspan
  | comb x =>
    have hspan : (combSpan inputs (.comb x)).map (fun s => (s.start, s.stop)) = some r := by
      simpa [resolve, ffSpan] using h
    obtain ⟨sp, hsp, rfl⟩ := map_eq_some_iff.1 hspan
    exact within_of_combSpan hsp

theorem exists_merged {os : List VarOffset} (ho : o ∈ os)
    (hr : resolve inputs o = some r) (hff : o.isFf = b.isFf) (hb : Within b r) :
    ∃ r' ∈ if b.isFf then mergeRanges (os.filterMap (ffSpan inputs))
      else mergeRanges ((os.filterMap (combSpan inputs)).map fun s => (s.start, s.stop)),
      Within b r' := by
  have wider : ∀ {l : List (ℕ × ℕ)}, r ∈ l → ∃ r' ∈ mergeRanges l, Within b r' := by
    intro l hl
    obtain ⟨r', hr', hlo, hhi⟩ := mergeRanges_covers hl
    refine ⟨r', hr', ?_, ?_⟩
    · have := hb.1
      omega
    · have := hb.2
      omega
  cases o with
  | ff x =>
    have hb' : b.isFf = true := hff.symm
    rw [hb', if_pos rfl]
    refine wider (mem_filterMap.2 ⟨_, ho, ?_⟩)
    simpa [resolve, combSpan] using hr
  | comb x =>
    have hb' : b.isFf = false := hff.symm
    rw [hb', if_neg Bool.false_ne_true]
    have hspan : (combSpan inputs (.comb x)).map (fun s => (s.start, s.stop)) = some r := by
      simpa [resolve, ffSpan] using hr
    obtain ⟨sp, hsp, rfl⟩ := map_eq_some_iff.1 hspan
    exact wider (mem_map.2 ⟨sp, mem_filterMap.2 ⟨_, ho, hsp⟩, rfl⟩)

variable {fold : BigArrayFold} {root : ℕ} {s t : ProtoStatement}

theorem unknown_iff : unknown inputs o = true ↔ resolve inputs o = none := by
  cases o <;> simp [unknown, resolve]

theorem unbounded_iff : (stmtInfo inputs fold root s).unbounded = true ↔
    (∃ o ∈ (s.gatherVariableOffsetsExpanded fold).1, resolve inputs o = none) ∨
      ∃ o ∈ (s.gatherVariableOffsetsExpanded fold).2, o.isFf = true ∨ resolve inputs o = none := by
  simp [stmtInfo, unknown_iff]

/-- Only stores to flip-flops put a range among the flip-flop outputs. -/
theorem unbounded_of_outFf (h : (stmtInfo inputs fold root s).outFf ≠ []) :
    (stmtInfo inputs fold root s).unbounded := by
  rw [unbounded_iff]
  by_contra hno
  push Not at hno
  refine h ?_
  have hnone : (s.gatherVariableOffsetsExpanded fold).2.filterMap (ffSpan inputs) = [] := by
    refine filterMap_eq_nil_iff.2 fun o ho => ?_
    have hcomb := (hno.2 o ho).1
    cases o with
    | ff x => simp [VarOffset.isFf] at hcomb
    | comb x => rfl
  simp [stmtInfo, hnone, mergeRanges]

theorem writes_of_output
    (ho : o ∈ (s.gatherVariableOffsetsExpanded fold).2) (hr : resolve inputs o = some r)
    (hff : o.isFf = b.isFf) (hb : Within b r) : (stmtInfo inputs fold root s).Writes b :=
  ⟨exists_merged ho hr hff hb, fun hbff => unbounded_iff.2 (.inr ⟨o, ho, .inl (hff.trans hbff)⟩)⟩

theorem reads_of_input
    (ho : o ∈ (s.gatherVariableOffsetsExpanded fold).1) (hr : resolve inputs o = some r)
    (hff : o.isFf = b.isFf) (hb : Within b r) : (stmtInfo inputs fold root s).Reads b :=
  exists_merged ho hr hff hb

variable {stmts : List ProtoStatement} {i j : ℕ}

/-- The statement infos `schedule` works on. -/
abbrev infosOf (inputs : OwnerInputs) (fold : BigArrayFold) (root : ℕ)
    (stmts : List ProtoStatement) : List StmtInfo := stmts.map (stmtInfo inputs fold root)

theorem transGen_of_alike (hwf : WellFormed inputs) (hij : i < j) (hs : stmts[i]? = some s)
    (ht : stmts[j]? = some t) {o' : VarOffset} (hff : o'.isFf = o.isFf)
    (hres : resolve inputs o' = resolve inputs o)
    (h : o ∈ (s.gatherVariableOffsetsExpanded fold).2 ∧
          (o' ∈ (t.gatherVariableOffsetsExpanded fold).1 ∨
            o' ∈ (t.gatherVariableOffsetsExpanded fold).2) ∨
        o ∈ (t.gatherVariableOffsetsExpanded fold).2 ∧
          (o' ∈ (s.gatherVariableOffsetsExpanded fold).1 ∨
            o' ∈ (s.gatherVariableOffsetsExpanded fold).2)) :
    Relation.TransGen (Hazard inputs stmts (infosOf inputs fold root stmts)) i j := by
  have hlen : (infosOf inputs fold root stmts).length = stmts.length := by simp
  have hp : (infosOf inputs fold root stmts)[i]? = some (stmtInfo inputs fold root s) := by
    simp [hs]
  have hq : (infosOf inputs fold root stmts)[j]? = some (stmtInfo inputs fold root t) := by
    simp [ht]
  cases hr : resolve inputs o with
  | none =>
    have hunb : ∀ {s : ProtoStatement} {x : VarOffset}, resolve inputs x = none →
        (x ∈ (s.gatherVariableOffsetsExpanded fold).1 ∨
          x ∈ (s.gatherVariableOffsetsExpanded fold).2) →
        (stmtInfo inputs fold root s).unbounded := by
      intro s x hx h
      exact unbounded_iff.2 (h.imp (fun h => ⟨x, h, hx⟩) fun h => ⟨x, h, .inr hx⟩)
    rw [hr] at hres
    have hboth : (stmtInfo inputs fold root s).unbounded ∧
        (stmtInfo inputs fold root t).unbounded := by
      rcases h with ⟨ho, ho'⟩ | ⟨ho, ho'⟩
      · exact ⟨hunb hr (.inr ho), hunb hres ho'⟩
      · exact ⟨hunb hres ho', hunb hr (.inr ho)⟩
    exact transGen_specials hij (mem_specials_of_unbounded hlen hp hboth.1)
      (mem_specials_of_unbounded hlen hq hboth.2)
  | some r =>
    have hin := within_of_resolve hr
    rw [hr] at hres
    have htouch : ∀ {s : ProtoStatement}, (o' ∈ (s.gatherVariableOffsetsExpanded fold).1 ∨
        o' ∈ (s.gatherVariableOffsetsExpanded fold).2) →
        (stmtInfo inputs fold root s).Touches o := fun h =>
      h.imp (fun h => reads_of_input h hres hff hin) fun h => writes_of_output h hres hff hin
    refine transGen_of_touches hwf hlen ?_ hij hp hq ⟨o, r, hr, rfl, hin⟩ ?_
    · intro info hinfo hout
      obtain ⟨s, -, rfl⟩ := mem_map.1 hinfo
      exact unbounded_of_outFf hout
    · rcases h with ⟨ho, ho'⟩ | ⟨ho, ho'⟩
      · exact .inl ⟨writes_of_output ho hr rfl hin, htouch ho'⟩
      · exact .inr ⟨htouch ho', writes_of_output ho hr rfl hin⟩

end Owners

section Emits

variable {inputs : OwnerInputs} {fold : BigArrayFold} {root : ℕ}

theorem mem_walk_false (h : v ∈ s.walk true) :
    v ∈ s.walk false ∨ ∃ c, Visit.compiled c ∈ s.walk false := by
  have body : ∀ {body : List ProtoStatement},
      (∀ s ∈ body, v ∈ s.walk true → v ∈ s.walk false ∨ ∃ c, Visit.compiled c ∈ s.walk false) →
      v ∈ walkBody true body → v ∈ walkBody false body ∨
        ∃ c, Visit.compiled c ∈ walkBody false body := by
    intro body ih h
    simp only [walkBody_eq, mem_flatMap] at h ⊢
    obtain ⟨s, hs, hv⟩ := h
    rcases ih s hs hv with hv | ⟨c, hc⟩
    · exact .inl ⟨s, hs, hv⟩
    · exact .inr ⟨c, s, hs, hc⟩
  induction s with
  | ifStmt c t e iht ihe =>
    simp only [ProtoStatement.walk, mem_append] at h ⊢
    rcases h with (h | h) | h
    · exact .inl (.inl (.inl h))
    · rcases body iht h with h | ⟨c, h⟩
      · exact .inl (.inl (.inr h))
      · exact .inr ⟨c, .inl (.inr h)⟩
    · rcases body ihe h with h | ⟨c, h⟩
      · exact .inl (.inr h)
      · exact .inr ⟨c, .inr h⟩
  | caseStmt arms d iha ihd =>
    simp only [ProtoStatement.walk, walkArms_eq, mem_append, mem_flatMap, mem_cons] at h ⊢
    rcases h with ⟨a, ha, h | h⟩ | h
    · exact .inl (.inl ⟨a, ha, .inl h⟩)
    · rcases body (iha a ha) h with h | ⟨c, h⟩
      · exact .inl (.inl ⟨a, ha, .inr h⟩)
      · exact .inr ⟨c, .inl ⟨a, ha, .inr h⟩⟩
    · rcases body ihd h with h | ⟨c, h⟩
      · exact .inl (.inr h)
      · exact .inr ⟨c, .inr h⟩
  | forStmt x b ih =>
    simp only [ProtoStatement.walk, mem_cons] at h ⊢
    rcases h with h | h
    · exact .inl (.inl h)
    · rcases body ih h with h | ⟨c, h⟩
      · exact .inl (.inr h)
      · exact .inr ⟨c, .inr h⟩
  | sequentialBlock b ih => exact body ih h
  | compiledBlock x stmts ih => exact .inr ⟨x, by simp [ProtoStatement.walk]⟩
  | assign x => exact .inl h
  | assignDynamic x => exact .inl h
  | systemFunctionCall x => exact .inl h
  | tbMethodCall inst m => exact .inl h
  | breakStmt => exact .inl h

theorem arrayOffsets_isFf (fold : BigArrayFold) (base : VarOffset) (stride : ℤ) {n : ℕ}
    (hn : 0 < n) : ∃ o ∈ arrayOffsets fold base stride n, o.isFf = base.isFf := by
  unfold arrayOffsets
  split
  · exact ⟨base, by simp, rfl⟩
  · exact ⟨_, mem_map.2 ⟨0, mem_range.2 hn, rfl⟩, by simp⟩

theorem special_of_mayEmit (h : s.mayEmit) :
    ((stmtInfo inputs fold root s).unbounded || hasSideEffects s) = true := by
  obtain ⟨v, hv, hemit⟩ := any_eq_true.1 h
  have ffOutput : ∀ {o}, o ∈ v.gatherOutputs fold → o.isFf = true →
      ((stmtInfo inputs fold root s).unbounded || hasSideEffects s) = true := by
    intro o ho hff
    have hunb : (stmtInfo inputs fold root s).unbounded = true :=
      unbounded_iff.2 (.inr ⟨o, mem_flatMap.2 ⟨v, hv, ho⟩, .inl hff⟩)
    rw [hunb, Bool.true_or]
  cases v with
  | assign x =>
    refine ffOutput (show fold.canon x.dst ∈ _ by simp [Visit.gatherOutputs]) ?_
    rw [isFf_canon]
    by_contra hff
    simp [Visit.mayEmit, ProtoAssignStatement.ffLogOffset, hff] at hemit
  | assignDynamic x =>
    simp only [Visit.mayEmit, Bool.and_eq_true, decide_eq_true_eq] at hemit
    obtain ⟨o, ho, hff⟩ := arrayOffsets_isFf fold x.dstBase x.dstStride hemit.1
    refine ffOutput ho (hff.trans ?_)
    by_contra hbase
    simp [ProtoAssignDynamicStatement.ffLogBaseCurrentOffset, hbase] at hemit
  | call x =>
    rw [Bool.or_eq_true]
    right
    rcases mem_walk_false hv with hv | ⟨c, hc⟩
    · exact any_eq_true.2 ⟨_, hv, rfl⟩
    · exact any_eq_true.2 ⟨_, hc, rfl⟩
  | cond e => cases hemit
  | loop x => cases hemit
  | compiled x => cases hemit
  | tb m => cases hemit

end Emits

end Veryl.Simulator.Opt.ConeOrder
