import Veryl.Simulator.Opt.DupAssignRuns

/-!
Dropping overwritten stores preserves every run, unless a `break` can leave the list
between a dropped store and the store that overwrites it.
-/

namespace Veryl.Simulator.DupAssignDce

open Veryl.Analyzer Veryl.Library List Option Int ProtoStatement
open Computation.Relates (bind_of read_left)
open ProtoExpression (evalSelect leafOffsets remapSelect_id selectAccesses)
open ProtoStatement (execArms execBody execTop placed_id)

variable {a : Access} {D : Set VarOffset} {y : ProtoAssignStatement} {rest : List ProtoStatement}
  {s : ProtoStatement}

variable {u : Bool} {e : ProtoExpression} {t : ProtoStatement} {v : Visit} {m m' : Mem}
  {stmts : List ProtoStatement}

variable {external : List ProtoStatement → VarOffset → Bool}

section Observes

theorem mem_gather_of_access (ha : a ∈ e.accesses u) :
    a.element ∈ e.gatherVariableOffsets ∨ ∃ r ∈ e.leaves.flatMap leafRanges, r.Has a.element := by
  obtain ⟨leaf, hleaf, ha⟩ := mem_flatMap.1 ha
  have hgather : ∀ o ∈ leaf.leafOffsets, o ∈ e.gatherVariableOffsets :=
    fun o ho => mem_flatMap.2 ⟨leaf, hleaf, ho⟩
  cases leaf with
  | «variable» o sel ds w full c =>
    obtain rfl := mem_singleton.1 ha
    exact .inl (hgather _ (by simp [leafOffsets, Access.element]))
  | dynamicVariable o stride nb i n sel ds w c =>
    obtain ⟨k, hk, rfl⟩ := List.mem_map.1 ha
    by_cases hstride : stride = 0
    · refine .inl (hgather _ ?_)
      simp [leafOffsets, Access.element, hstride]
    · refine .inr ⟨_, mem_flatMap.2 ⟨_, hleaf, mem_singleton.2 rfl⟩, ?_⟩
      have hraw : (o.add (stride * k)).raw - o.raw = stride * k := by
        rw [VarOffset.raw_add]
        omega
      simp only [ReadRange.Has, Access.element, VarOffset.isFf_add, hraw]
      rw [mul_tmod_right, mul_tdiv_cancel_left _ hstride]
      have := mem_range.1 hk
      exact ⟨trivial, hstride, rfl, by omega, by omega⟩
  | _ => cases ha

theorem observes_of_access {k : VarOffset} (hflat : isNested t = false) (hv : v ∈ t.walk true)
    (he : e ∈ v.operands) (ha : a ∈ e.accesses u) (hk : a.element = k) : Observes external t k := by
  subst hk
  rcases mem_gather_of_access ha with hgather | ⟨r, hr, hhas⟩
  · refine .inl ?_
    have hmem : a.element ∈ v.summaryInputs :=
      mem_append_left _ (mem_flatMap.2 ⟨e, he, hgather⟩)
    cases t with
    | assign | assignDynamic | systemFunctionCall =>
      obtain rfl := mem_singleton.1 hv
      exact hmem
    | tbMethodCall inst method =>
      obtain rfl := mem_singleton.1 hv
      cases he
    | breakStmt => cases hv
    | _ => cases hflat
  · exact .inr ⟨r, mem_flatMap.2 ⟨v, hv, mem_flatMap.2 ⟨e, he, hr⟩⟩, hhas⟩

end Observes

section Window

variable {env : Env} {x : ProtoAssignStatement}

/-- The storage and the log entry of a store. -/
def regionOf (u : Bool) (x : ProtoAssignStatement) : Region :=
  ⟨slotOf u x.dst x.dstWidth x.ffIsPacked, entryOf u x.dstWidth x.ffLogOffset⟩

/-- What a statement accesses is the variable of the store or lies apart from it, and a
runtime-indexed store into the variable has its shape. -/
structure OneVariable (u : Bool) (x : ProtoAssignStatement) (t : ProtoStatement) : Prop where
  reads : ∀ v ∈ t.walk true, ∀ a ∈ v.reads u,
    a.element = x.dst ∨ Disjoint a.cells (storeSlot u x.dst x.dstWidth).cells
  elements : ∀ y, t = .assignDynamic y → ∀ i < y.dstNumElements,
    y.dstBase.add (y.dstStride * i) = x.dst → y.dstWidth = x.dstWidth ∧
      y.ffIsPacked = x.ffIsPacked ∧
      (y.ffLogBaseCurrentOffset.map (· + y.dstStride * i)) = x.ffLogOffset

/-- The next store of a variable has the shape of the store before. -/
structure SameVariable (x y : ProtoAssignStatement) : Prop where
  width : y.dstWidth = x.dstWidth
  current : y.dstFfCurrentOffset = x.dstFfCurrentOffset
  direct : y.combDirect = x.combDirect

theorem relocated_of_unchangedOff (h : UnchangedOff D m m') : Relocated id (Set.compl D) m m' :=
  fun b hb => h b hb

theorem unchangedOff_of_relocated (h : Relocated id (Set.compl D) m m') : UnchangedOff D m m' :=
  fun b hb => h b hb

theorem slotOf_subset (u : Bool) (o : VarOffset) (w : ℕ) (isPacked : Bool) :
    slotOf u o w isPacked ⊆ (storeSlot u o w).cells := by
  cases isPacked with
  | true => exact Set.empty_subset _
  | false => exact fun _ h => h

theorem alike_of_reads {R : Region}
    (h : ∀ v ∈ t.walk true, ∀ a ∈ v.reads env.use4state, Disjoint a.cells R.mem) :
    Alike env.use4state R R (t.exec env) (t.exec env) := by
  intro m m' hm
  have hreads : cellsOf (t.reads env.use4state) ⊆ Set.compl R.mem := by
    rintro b ⟨a, ha, hb⟩
    obtain ⟨v, hv, ha⟩ := mem_flatMap.1 ha
    exact Set.disjoint_left.1 (h v hv a ha) hb
  have hsim := sim_exec_of_reads hreads (relocated_of_unchangedOff hm)
  generalize t.exec env m = r at hsim ⊢
  generalize t.exec env m' = r' at hsim ⊢
  cases hsim with
  | none => exact .none
  | some h =>
    refine .some ⟨h.1, ?_, unchangedOff_of_relocated h.2.2⟩
    rw [h.2.1]
    exact LogsAlike.refl _ _

theorem disjoint_of_operand (hflat : isNested t = false)
    (hobserves : ¬ Observes external t x.dst) (hone : OneVariable env.use4state x t)
    (hv : v ∈ t.walk true) (he : e ∈ v.operands)
    (ha : a ∈ e.accesses env.use4state) (hreads : a ∈ v.reads env.use4state) :
    Disjoint a.cells (regionOf env.use4state x).mem := by
  rcases hone.reads v hv a hreads with hsame | hdisjoint
  · exact absurd (observes_of_access hflat hv he ha hsame) hobserves
  · exact hdisjoint.mono_right (slotOf_subset _ _ _ _)

theorem agree_of_operand (hflat : isNested t = false)
    (hobserves : ¬ Observes external t x.dst) (hone : OneVariable env.use4state x t)
    (hv : v ∈ t.walk true) (he : e ∈ v.operands)
    (hreads : ∀ a ∈ e.accesses env.use4state, a ∈ v.reads env.use4state)
    (hm : UnchangedOff (regionOf env.use4state x).mem m m') :
    Agree id m m' (e.accesses env.use4state) := by
  intro a ha k hk
  have hdisjoint := disjoint_of_operand hflat hobserves hone hv he ha (hreads a ha)
  exact hm _ (Set.disjoint_left.1 hdisjoint ⟨k, hk, rfl⟩)

theorem alike_assign (hne : y.dst ≠ x.dst) (hobserves : ¬ Observes external (.assign y) x.dst)
    (hone : OneVariable env.use4state x (.assign y)) :
    Alike env.use4state (regionOf env.use4state x) (regionOf env.use4state x)
      ((assign y).exec env) ((assign y).exec env) := by
  refine alike_of_reads fun v hv a ha => ?_
  obtain rfl := mem_singleton.1 hv
  rcases Visit.mem_reads ha with ⟨e, he, hae⟩ | hdest
  · exact disjoint_of_operand rfl hobserves hone (mem_singleton.2 rfl) he hae ha
  · rcases hone.reads _ (mem_singleton.2 rfl) a ha with hsame | hdisjoint
    · obtain rfl := mem_singleton.1 hdest
      exact absurd (by simpa [storeSlot, Access.element] using hsame) hne
    · exact hdisjoint.mono_right (slotOf_subset _ _ _ _)

theorem alike_call {c : ProtoSystemFunctionCall}
    (hobserves : ¬ Observes external (.systemFunctionCall c) x.dst)
    (hone : OneVariable env.use4state x (.systemFunctionCall c)) :
    Alike env.use4state (regionOf env.use4state x) (regionOf env.use4state x)
      ((systemFunctionCall c).exec env)
      ((systemFunctionCall c).exec env) := by
  refine alike_of_reads fun v hv a ha => ?_
  obtain rfl := mem_singleton.1 hv
  rcases Visit.mem_reads ha with ⟨e, he, hae⟩ | hdest
  · exact disjoint_of_operand rfl hobserves hone (mem_singleton.2 rfl) he hae ha
  · cases hdest

theorem storedValue_isSome (m m' : Mem) (o : VarOffset) (w : ℕ) (sel : Option (ℕ × ℕ))
    (ds : Option (DynamicBitSelect × Value)) (v v' : Value) :
    (storedValue env m o w sel ds v).isSome = (storedValue env m' o w sel ds v').isSome := by
  cases ds with
  | none => cases sel <;> rfl
  | some d =>
    simp only [storedValue]
    cases d.2.toUsize with
    | none => rfl
    | some index =>
      simp only [bind, bind_some]
      cases d.1.writeBounds index w <;> rfl

theorem alike_execElement {y : ProtoAssignDynamicStatement} {i : ℕ} (hi : i < y.dstNumElements)
    (hobserves : ¬ Observes external (.assignDynamic y) x.dst)
    (hone : OneVariable env.use4state x (.assignDynamic y)) :
    Alike env.use4state (regionOf env.use4state x) (regionOf env.use4state x)
      (y.execElement env i) (y.execElement env i) := by
  have hdisjoint : ∀ e ∈ (Visit.assignDynamic y).operands,
      (∀ a ∈ e.accesses env.use4state, a ∈ (Visit.assignDynamic y).reads env.use4state) →
      Placed id id (Set.compl (regionOf env.use4state x).mem) (e.accesses env.use4state) := by
    intro e he hsub
    refine placed_id ?_
    rintro b ⟨a, ha, hb⟩
    exact Set.disjoint_left.1
      (disjoint_of_operand rfl hobserves hone (mem_singleton.2 rfl) he ha (hsub a ha)) hb
  have hexpr := hdisjoint y.expr (by simp [Visit.operands]) fun a ha => by
    simp [Visit.reads, ha]
  have hds : Placed id id (Set.compl (regionOf env.use4state x).mem)
      (selectAccesses env.use4state y.dynamicSelect) := by
    intro a ha
    obtain ⟨d, hd, had⟩ := mem_flatMap.1 ha
    refine hdisjoint d.2 ?_ (fun a' ha' => ?_) a had
    · simp only [Visit.operands, mem_cons, List.mem_map]
      exact .inr (.inr ⟨d, hd, rfl⟩)
    · simp only [Visit.reads, mem_append]
      exact .inl (.inr (mem_flatMap.2 ⟨d, hd, ha'⟩))
  refine Alike.read_bind fun m m' hm => ?_
  have hrel := relocated_of_unchangedOff hm
  by_cases helement : y.dstBase.add (y.dstStride * i) = x.dst
  · obtain ⟨hwidth, hpacked, hlog⟩ := hone.elements y rfl i hi helement
    have hvalue := ProtoExpression.evalSelect_remapSelect (f := id) y.dynamicSelect (hrel.agree hds)
    simp only [remapSelect_id] at hvalue
    rw [hvalue]
    refine alike_deposit_inside ?_ ?_ (storedValue_isSome m m' _ _ _ _ _ _)
    · rw [helement, hwidth, hpacked]
      exact subset_rfl
    · rw [hlog, hwidth]
      exact subset_rfl
  · have hstored := stored_congr (f := id) y.dstBase (y.dstStride * i) y.dstWidth y.select
      y.rhsSelect hrel hexpr hds fun hpart => ⟨fun _ _ => rfl, ?_⟩
    · simp only [remapSelect_id, ProtoExpression.remapOffsetsWith_id, id] at hstored
      rw [hstored]
      exact alike_deposit _
    · have hread : (Access.mk y.dstBase (y.dstStride * i)
          (valueSize (nativeBytes y.dstWidth) env.use4state)) ∈
          (Visit.assignDynamic y).reads env.use4state := by
        simp only [Visit.reads, mem_append, if_pos hpart]
        exact .inr (element_mem_stridedAccesses hi)
      rcases hone.reads _ (mem_singleton.2 rfl) _ hread with hsame | hapart
      · exact absurd hsame helement
      · exact fun b hb => Set.disjoint_left.1 (hapart.mono_right (slotOf_subset _ _ _ _)) hb

theorem alike_assignDynamic {y : ProtoAssignDynamicStatement}
    (hobserves : ¬ Observes external (.assignDynamic y) x.dst)
    (hone : OneVariable env.use4state x (.assignDynamic y)) :
    Alike env.use4state (regionOf env.use4state x) (regionOf env.use4state x)
      ((assignDynamic y).exec env) ((assignDynamic y).exec env) := by
  refine Alike.bind (Alike.read_bind fun m m' hm => ?_) fun _ => .pure _
  have hindex : y.dstIndexExpr.eval env m' = y.dstIndexExpr.eval env m := by
    have hagree : Agree id m m' (y.dstIndexExpr.accesses env.use4state) :=
      agree_of_operand rfl hobserves hone (mem_singleton.2 rfl) (by simp [Visit.operands])
        (fun a ha => by simp [Visit.reads, ha]) hm
    simpa using ProtoExpression.eval_remapOffsetsWith y.dstIndexExpr hagree
  rw [hindex]
  cases (y.dstIndexExpr.eval env m).toUsize with
  | none => exact .pure _
  | some i =>
    dsimp only
    split
    · rename_i hi
      exact alike_execElement hi hobserves hone
    · exact .pure _

theorem value_of_flat (hflat : isNested t = false) (hbreak : t ≠ .breakStmt)
    (m : Mem) (a : Outcome Mem Output ControlFlow) (h : t.exec env m = some a) :
    a.value = .continue_ := by
  cases t with
  | assign | assignDynamic | systemFunctionCall =>
    obtain ⟨_, b, -, hb, rfl⟩ := Computation.bind_eq_some.1 h
    rw [← some.inj hb]
  | tbMethodCall => rw [← some.inj h]
  | breakStmt => exact absurd rfl hbreak
  | _ => cases hflat

theorem alike_flat (hflat : isNested t = false) (hbreak : t ≠ .breakStmt)
    (hobserves : ¬ Observes external t x.dst) (hone : OneVariable env.use4state x t)
    (hwrites : ∀ y, t = .assign y → y.dst ≠ x.dst) :
    Alike env.use4state (regionOf env.use4state x) (regionOf env.use4state x)
      (t.exec env) (t.exec env) := by
  cases t with
  | assign y => exact alike_assign (hwrites y rfl) hobserves hone
  | assignDynamic y => exact alike_assignDynamic hobserves hone
  | systemFunctionCall c => exact alike_call hobserves hone
  | tbMethodCall => exact .pure _
  | breakStmt => exact absurd rfl hbreak
  | _ => cases hflat

theorem fullStore_eq (h : fullStore t = some y) :
    t = .assign y ∧ y.select = none ∧ y.dynamicSelect = none := by
  obtain rfl := isNested_of_fullStore h
  simp only [fullStore] at h
  split at h
  · rename_i hfull
    exact ⟨rfl, by simpa using hfull.1, by simpa using hfull.2.1⟩
  · cases h

theorem alike_over (hfull : fullStore t = some y)
    (hdst : y.dst = x.dst) (hsame : SameVariable x y) (hobserves : ¬ Observes external t x.dst)
    (hone : OneVariable env.use4state x t) :
    Alike env.use4state (regionOf env.use4state x) .none (t.exec env) (t.exec env) := by
  obtain ⟨rfl, hselect, hdynamic⟩ := fullStore_eq hfull
  refine Alike.bind (Alike.read_bind fun m m' hm => ?_) fun _ => .pure _
  have hrhs : storeRhs env m' y.expr y.rhsSelect y.dstWidth =
      storeRhs env m y.expr y.rhsSelect y.dstWidth := by
    have hagree : Agree id m m' (y.expr.accesses env.use4state) :=
      agree_of_operand rfl hobserves hone (mem_singleton.2 rfl) (by simp [Visit.operands])
        (fun a ha => by simp [Visit.reads, ha]) hm
    simpa using storeRhs_congr (f := id) y.rhsSelect y.dstWidth hagree
  have hregion : regionOf env.use4state x = regionOf env.use4state y := by
    simp [regionOf, ProtoAssignStatement.ffIsPacked, ProtoAssignStatement.ffLogOffset, hdst,
      hsame.width, hsame.current, hsame.direct]
  simp only [hselect, hdynamic, evalSelect, hrhs, storedValue, hregion,
    isSome_none, Bool.false_eq_true, if_false]
  exact alike_deposit_over _

theorem alike_drop (hfull : fullStore t = some x) :
    Alike env.use4state .none (regionOf env.use4state x) (t.exec env) (pure .continue_) := by
  obtain ⟨rfl, -, -⟩ := fullStore_eq hfull
  have hstore : Alike env.use4state .none (regionOf env.use4state x) (x.exec env) (pure ⟨⟩) :=
    read_left fun m => alike_deposit_drop _
  have hdrop : Alike env.use4state .none (regionOf env.use4state x)
      (x.exec env >>= fun _ => pure ControlFlow.continue_)
      (pure PUnit.unit >>= fun _ => pure ControlFlow.continue_) :=
    hstore.bind fun _ => .pure _
  rwa [Computation.pure_bind] at hdrop

end Window

section Lists

variable {env : Env} {γ : Type}

/-- Runs the statements of a list one after the other; `after` tells what follows a
statement that ends with the given flow. -/
def chain (env : Env) (after : ControlFlow → Exec γ → Exec γ) (last : Exec γ) :
    List ProtoStatement → Exec γ
  | [] => last
  | s :: rest => s.exec env >>= fun flow => after flow (chain env after last rest)

/-- What follows runs on after a statement that goes on, and runs alike if the rest
does. -/
structure Follows (u : Bool) (after : ControlFlow → Exec γ → Exec γ) : Prop where
  goOn : ∀ x, after .continue_ x = x
  congr : ∀ flow x y, Alike u .none .none x y → Alike u .none .none (after flow x) (after flow y)

def afterInBody : ControlFlow → Exec ControlFlow → Exec ControlFlow
  | .break_, _ => pure .break_
  | .continue_, x => x

theorem follows_body (u : Bool) : Follows u afterInBody where
  goOn _ := rfl
  congr flow _ _ h := by
    cases flow with
    | break_ => exact .pure _
    | continue_ => exact h

theorem follows_top (u : Bool) : Follows u (fun _ (x : Exec PUnit) => x) :=
  ⟨fun _ => rfl, fun _ _ _ h => h⟩

theorem execBody_eq (stmts : List ProtoStatement) :
    execBody env stmts = chain env afterInBody (pure .continue_) stmts := by
  induction stmts with
  | nil => rfl
  | cons s rest ih =>
    rw [execBody, chain, ih]
    congr 1
    funext flow
    cases flow <;> rfl

theorem runPass_eq (stmts : List ProtoStatement) :
    runPass env stmts = chain env (fun _ x => x) (pure ⟨⟩) stmts := by
  induction stmts with
  | nil => rfl
  | cons s rest ih =>
    have hrest : runPass env (s :: rest) = s.execTop env >>= fun _ => runPass env rest := rfl
    rw [hrest, ih, execTop, Library.Computation.bind_assoc, chain]
    congr 1
    funext flow
    exact Computation.pure_bind _ _

/-- A property of a dropped store, the statements after it and the store that overwrites
it. -/
abbrev Pattern := ProtoAssignStatement → List ProtoStatement → ProtoAssignStatement → Prop

/-- The property holds wherever a store of the list is dropped. -/
def Windows (external : List ProtoStatement → VarOffset → Bool) (P : Pattern) :
    List ProtoStatement → Prop
  | [] => True
  | s :: rest =>
    (∀ x, fullStore s = some x → ∀ w, window external x.dst rest = some w → P x w.1 w.2) ∧
      Windows external P rest

/-- Offsets name variables: up to the store that overwrites it, everything is the variable
of the store or apart from it. -/
structure LaidOut (u : Bool) (x : ProtoAssignStatement) (between : List ProtoStatement)
    (y : ProtoAssignStatement) : Prop where
  same : SameVariable x y
  overwrites : OneVariable u x (.assign y)
  between : ∀ t ∈ between, OneVariable u x t

/-- No `break` stands between a store and the store that overwrites it. -/
def Unbroken (_ : ProtoAssignStatement) (between : List ProtoStatement)
    (_ : ProtoAssignStatement) : Prop :=
  ∀ t ∈ between, t ≠ .breakStmt

variable {after : ControlFlow → Exec γ → Exec γ} {last : Exec γ} {x : ProtoAssignStatement}

section

variable (hafter : Follows env.use4state after)

include hafter

theorem alike_window_step (hflat : isNested t = false) (hbreak : t ≠ .breakStmt)
    (hobserves : ¬ Observes external t x.dst) (hone : OneVariable env.use4state x t)
    (hwrites : ∀ y, t = .assign y → y.dst ≠ x.dst)
    (hrest : Alike env.use4state (regionOf env.use4state x) .none (chain env after last rest)
      (chain env after last rest)) :
    Alike env.use4state (regionOf env.use4state x) .none (chain env after last (t :: rest))
      (chain env after last (t :: rest)) := by
  refine bind_of (· = .continue_) (value_of_flat hflat hbreak)
    (alike_flat hflat hbreak hobserves hone hwrites) ?_ LogsAlike.append
  rintro flow rfl
  rw [hafter.goOn]
  exact hrest

theorem alike_window {w : List ProtoStatement × ProtoAssignStatement}
    (hwindow : window external x.dst rest = some w) (hlaid : LaidOut env.use4state x w.1 w.2)
    (hbreak : Unbroken x w.1 w.2) :
    Alike env.use4state (regionOf env.use4state x) .none (chain env after last rest)
      (chain env after last rest) := by
  induction rest generalizing w with
  | nil => cases hwindow
  | cons t rest ih =>
    rw [window] at hwindow
    split at hwindow
    · cases hwindow
    rename_i hkeeps
    obtain ⟨hflat, hobserves⟩ := not_or.1 hkeeps
    have hstep : ∀ (hwrites : ∀ y, t = .assign y → y.dst ≠ x.dst)
        (_ : (window external x.dst rest).map (fun w => (t :: w.1, w.2)) = some w),
        Alike env.use4state (regionOf env.use4state x) .none (chain env after last (t :: rest))
          (chain env after last (t :: rest)) := by
      intro hwrites hmap
      obtain ⟨w', hw', rfl⟩ := map_eq_some_iff.1 hmap
      refine alike_window_step hafter (by simpa using hflat) (hbreak t mem_cons_self)
        hobserves (hlaid.between t mem_cons_self) hwrites (ih hw' ?_ ?_)
      · exact ⟨hlaid.same, hlaid.overwrites, fun t' ht' =>
          hlaid.between t' (mem_cons_of_mem _ ht')⟩
      · exact fun t' ht' => hbreak t' (mem_cons_of_mem _ ht')
    cases hfull : fullStore t with
    | some y =>
      rw [hfull] at hwindow
      obtain rfl := isNested_of_fullStore hfull
      dsimp only at hwindow
      split at hwindow
      · rename_i hdst
        obtain rfl := some.inj hwindow
        exact (alike_over hfull hdst hlaid.same hobserves hlaid.overwrites).bind fun flow => .refl _
      · rename_i hdst
        exact hstep (fun y' hy' => by rwa [← assign.inj hy']) hwindow
    | none =>
      rw [hfull] at hwindow
      dsimp only at hwindow
      split at hwindow
      · cases hwindow
      · rename_i houts
        refine hstep ?_ hwindow
        rintro y rfl hdst
        exact houts (mem_singleton.2 hdst.symm)

theorem alike_dropStores (hlaid : Windows external (LaidOut env.use4state) stmts)
    (hbreak : Windows external Unbroken stmts) :
    Alike env.use4state .none .none (chain env after last stmts)
      (chain env after last (dropStores external stmts)) := by
  induction stmts with
  | nil => exact .refl _
  | cons s rest ih =>
    have hrest := ih hlaid.2 hbreak.2
    rw [dropStores]
    split
    · rename_i hdropped
      obtain ⟨x, hfull⟩ : ∃ x, fullStore s = some x := by
        cases hfull : fullStore s with
        | none => simp [isDropped, hfull] at hdropped
        | some x => exact ⟨x, rfl⟩
      simp only [isDropped, hfull, elim_some] at hdropped
      obtain ⟨w, hw⟩ := isSome_iff_exists.1 hdropped
      refine Alike.trans ?_ hrest
      have hskip : Alike env.use4state .none .none (chain env after last (s :: rest))
          (pure ControlFlow.continue_ >>= fun flow =>
            after flow (chain env after last rest)) := by
        refine bind_of (· = .continue_) (value_of_flat (by rw [isNested_of_fullStore hfull]; rfl)
            (by rw [isNested_of_fullStore hfull]; exact fun h => by cases h))
          (alike_drop hfull) ?_ LogsAlike.append
        rintro flow rfl
        rw [hafter.goOn]
        exact alike_window hafter hw (hlaid.1 x hfull w hw) (hbreak.1 x hfull w hw)
      rwa [Computation.pure_bind, hafter.goOn] at hskip
    · exact (Alike.refl _).bind fun flow => hafter.congr flow _ _ hrest

end

end Lists

section Nested

mutual

/-- All lists inside a statement. -/
def innerLists : ProtoStatement → List (List ProtoStatement)
  | .ifStmt _ t f => t :: f :: (innerOfBody t ++ innerOfBody f)
  | .caseStmt arms default => default :: (innerOfArms arms ++ innerOfBody default)
  | .forStmt _ body | .compiledBlock _ body | .sequentialBlock body => body :: innerOfBody body
  | _ => []
termination_by structural s => s

def innerOfBody : List ProtoStatement → List (List ProtoStatement)
  | [] => []
  | s :: body => innerLists s ++ innerOfBody body
termination_by structural body => body

def innerOfArms : List (ProtoExpression × List ProtoStatement) → List (List ProtoStatement)
  | [] => []
  | (_, body) :: arms => body :: (innerOfBody body ++ innerOfArms arms)
termination_by structural arms => arms

end

/-- A list and all lists inside it. -/
def allLists (stmts : List ProtoStatement) : List (List ProtoStatement) :=
  stmts :: innerOfBody stmts

theorem mem_innerOfBody {l : List ProtoStatement} (hs : s ∈ stmts) (hl : l ∈ innerLists s) :
    l ∈ innerOfBody stmts := by
  induction stmts with
  | nil => cases hs
  | cons s' rest ih =>
    rw [innerOfBody, mem_append]
    rcases mem_cons.1 hs with rfl | hs
    · exact .inl hl
    · exact .inr (ih hs)

theorem dceNested_of_flat (h : isNested s = false) : dceNested external s = s := by
  cases s with
  | assign | assignDynamic | breakStmt | systemFunctionCall | tbMethodCall => rfl
  | _ => cases h

theorem isNested_dceNested (s : ProtoStatement) : isNested (dceNested external s) = isNested s := by
  cases s <;> rfl

theorem fullStore_dceNested (s : ProtoStatement) :
    fullStore (dceNested external s) = fullStore s := by
  cases s <;> rfl

theorem window_dceBody (k : VarOffset) (stmts : List ProtoStatement) :
    window external k (dceBody external stmts) = window external k stmts := by
  induction stmts with
  | nil => rfl
  | cons s rest ih =>
    cases hflat : isNested s with
    | true => simp [dceBody, window, isNested_dceNested, hflat]
    | false => rw [dceBody, dceNested_of_flat hflat, window, window, ih]

theorem windows_dceBody {P : Pattern}
    (h : Windows external P stmts) : Windows external P (dceBody external stmts) := by
  induction stmts with
  | nil => trivial
  | cons s rest ih =>
    refine ⟨fun x hx w hw => ?_, ih h.2⟩
    rw [fullStore_dceNested] at hx
    rw [window_dceBody] at hw
    exact h.1 x hx w hw

variable {env : Env} {γ : Type} {after : ControlFlow → Exec γ → Exec γ} {last : Exec γ}

theorem alike_dceBody (hafter : Follows env.use4state after)
    (h : ∀ s ∈ stmts, Alike env.use4state .none .none (s.exec env)
      ((dceNested external s).exec env)) :
    Alike env.use4state .none .none (chain env after last stmts)
      (chain env after last (dceBody external stmts)) := by
  induction stmts with
  | nil => exact .refl _
  | cons s rest ih =>
    exact (h s mem_cons_self).bind fun flow =>
      hafter.congr flow _ _ (ih fun s' hs' => h s' (mem_cons_of_mem _ hs'))

theorem alike_swept (hafter : Follows env.use4state after)
    (h : ∀ s ∈ stmts, Alike env.use4state .none .none (s.exec env)
      ((dceNested external s).exec env))
    (hlaid : Windows external (LaidOut env.use4state) stmts)
    (hbreak : Windows external Unbroken stmts) :
    Alike env.use4state .none .none (chain env after last stmts)
      (chain env after last (sweep external (dceBody external stmts))) := by
  refine (alike_dceBody hafter h).trans ?_
  rw [sweep_eq]
  exact alike_dropStores hafter (windows_dceBody hlaid) (windows_dceBody hbreak)

/-- Both conditions, for one list. -/
structure Sound (external : List ProtoStatement → VarOffset → Bool) (u : Bool)
    (stmts : List ProtoStatement) : Prop where
  laid : Windows external (LaidOut u) stmts
  unbroken : Windows external Unbroken stmts

theorem alike_body (h : ∀ s ∈ stmts, Alike env.use4state .none .none (s.exec env)
      ((dceNested external s).exec env)) (hsound : Sound external env.use4state stmts) :
    Alike env.use4state .none .none (execBody env stmts)
      (execBody env (sweep external (dceBody external stmts))) := by
  rw [execBody_eq, execBody_eq]
  exact alike_swept (follows_body _) h hsound.laid hsound.unbroken

theorem alike_arms {arms : List (ProtoExpression × List ProtoStatement)}
    {default default' : Exec ControlFlow}
    (h : ∀ a ∈ arms, Alike env.use4state .none .none (execBody env a.2)
      (execBody env (sweep external (dceBody external a.2))))
    (hdefault : Alike env.use4state .none .none default default') :
    Alike env.use4state .none .none (execArms env arms default)
      (execArms env (dceArms external arms) default') := by
  induction arms with
  | nil => exact hdefault
  | cons a arms ih =>
    refine (Alike.refl _).bind fun taken => ?_
    cases taken with
    | true => exact h a mem_cons_self
    | false => exact ih fun a' ha' => h a' (mem_cons_of_mem _ ha')

theorem alike_for {x : ProtoForStatement} {body body' : Exec ControlFlow}
    (h : Alike env.use4state .none .none body body') :
    Alike env.use4state .none .none (x.exec env body) (x.exec env body') := by
  refine (Alike.refl _).bind fun bounds => Alike.congruence.loop (fun i => ?_) _ _
  unfold ProtoForStatement.step
  split
  · exact .refl _
  · exact (Alike.refl _).bind fun _ => h.bind fun flow => .refl _

theorem alike_dceNested (s : ProtoStatement)
    (hsound : ∀ l ∈ innerLists s, Sound external env.use4state l) :
    Alike env.use4state .none .none (s.exec env) ((dceNested external s).exec env) := by
  have inside : ∀ {stmts : List ProtoStatement},
      (∀ s ∈ stmts, (∀ l ∈ innerLists s, Sound external env.use4state l) →
        Alike env.use4state .none .none (s.exec env) ((dceNested external s).exec env)) →
      Sound external env.use4state stmts →
      (∀ l ∈ innerOfBody stmts, Sound external env.use4state l) →
      Alike env.use4state .none .none (execBody env stmts)
        (execBody env (sweep external (dceBody external stmts))) :=
    fun ih hown hinner =>
      alike_body (fun s hs => ih s hs fun l hl => hinner l (mem_innerOfBody hs hl)) hown
  induction s with
  | assign | assignDynamic | breakStmt | systemFunctionCall | tbMethodCall => exact .refl _
  | ifStmt c t f iht ihf =>
    refine (Alike.refl _).bind fun taken => ?_
    cases taken with
    | true =>
      exact inside iht (hsound t (by simp [innerLists]))
        fun l hl => hsound l (by simp [innerLists, hl])
    | false =>
      exact inside ihf (hsound f (by simp [innerLists]))
        fun l hl => hsound l (by simp [innerLists, hl])
  | caseStmt arms d iha ihd =>
    have harms : ∀ {arms' : List (ProtoExpression × List ProtoStatement)}, ∀ a ∈ arms',
        a.2 ∈ innerOfArms arms' ∧ ∀ l ∈ innerOfBody a.2, l ∈ innerOfArms arms' := by
      intro arms' a ha
      induction arms' with
      | nil => cases ha
      | cons a' arms' ih =>
        rcases mem_cons.1 ha with rfl | ha
        · exact ⟨by simp [innerOfArms], fun l hl => by simp [innerOfArms, hl]⟩
        · exact ⟨by simp [innerOfArms, (ih ha).1], fun l hl => by
            simp [innerOfArms, (ih ha).2 l hl]⟩
    refine alike_arms (fun a ha => inside (iha a ha) (hsound _ ?_) fun l hl => hsound l ?_) ?_
    · simp [innerLists, (harms a ha).1]
    · simp [innerLists, (harms a ha).2 l hl]
    · exact inside ihd (hsound d (by simp [innerLists]))
        fun l hl => hsound l (by simp [innerLists, hl])
  | forStmt x body ih =>
    refine (alike_for (inside ih (hsound body (by simp [innerLists])) fun l hl =>
      hsound l (by simp [innerLists, hl]))).bind fun _ => .refl _
  | compiledBlock x stmts ih =>
    refine (inside ih (hsound stmts (by simp [innerLists])) fun l hl =>
      hsound l (by simp [innerLists, hl])).bind fun _ => .refl _
  | sequentialBlock body ih =>
    exact inside ih (hsound body (by simp [innerLists])) fun l hl =>
      hsound l (by simp [innerLists, hl])

end Nested

/-- Runs that end together with the same flow, the same bytes of storage, the same outputs
to the outside, and logs that deliver the same bytes into any storage. -/
def SameRuns (env : Env) {α : Type} (x y : Exec α) : Prop :=
  ∀ m, Option.Rel (fun a b => a.value = b.value ∧ a.state = b.state ∧
    a.out.filter isVisible = b.out.filter isVisible ∧
    ∀ μ, commit env.use4state a.out μ = commit env.use4state b.out μ) (x m) (y m)

theorem Alike.sameRuns {env : Env} {α : Type} {x y : Exec α}
    (h : Alike env.use4state .none .none x y) : SameRuns env x y := by
  intro m
  have hm := h (fun _ _ => rfl : UnchangedOff ∅ m m)
  generalize x m = xs at hm ⊢
  generalize y m = ys at hm ⊢
  cases hm with
  | none => exact .none
  | some h =>
    refine .some ⟨h.1, (unchangedOff_empty.1 h.2.2).symm, h.2.1.1, fun μ => ?_⟩
    exact (unchangedOff_empty.1 (h.2.1.2 μ μ fun _ _ => rfl)).symm

/-- Where offsets name variables and no `break` stands between a dropped store and the store
that overwrites it, every run of the swept list, as a body or as a pass, is the run of the
original. -/
theorem dceAggressive_sameRuns (external : List ProtoStatement → VarOffset → Bool) (env : Env)
    (stmts : List ProtoStatement)
    (hlaid : ∀ l ∈ allLists stmts, Windows external (LaidOut env.use4state) l)
    (hbreak : ∀ l ∈ allLists stmts, Windows external Unbroken l) :
    SameRuns env (execBody env stmts) (execBody env (dceAggressive external stmts)) ∧
      SameRuns env (runPass env stmts) (runPass env (dceAggressive external stmts)) := by
  have hinner : ∀ s ∈ stmts, Alike env.use4state .none .none (s.exec env)
      ((dceNested external s).exec env) := fun s hs =>
    alike_dceNested s fun l hl =>
      have hmem : l ∈ allLists stmts := mem_cons_of_mem _ (mem_innerOfBody hs hl)
      ⟨hlaid l hmem, hbreak l hmem⟩
  have hown := hlaid stmts mem_cons_self
  have hunbroken := hbreak stmts mem_cons_self
  constructor
  · exact (alike_body hinner ⟨hown, hunbroken⟩).sameRuns
  · rw [runPass_eq, runPass_eq]
    exact (alike_swept (follows_top _) hinner hown hunbroken).sameRuns

section Examples

theorem laidOut_bytes {o : VarOffset} {a b : ℕ} {between : List ProtoStatement}
    {x : ProtoAssignStatement} (hx : byteAssign o (byteValue a) = .assign x)
    (hy : byteAssign o (byteValue b) = .assign y)
    (hbetween : ∀ t ∈ between, t = .breakStmt ∨ ∃ o n, t = byteAssign o (byteValue n)) :
    LaidOut u x between y := by
  obtain rfl := assign.inj hx
  obtain rfl := assign.inj hy
  have hbyte : ∀ x (o : VarOffset) (n : ℕ), OneVariable u x (byteAssign o (byteValue n)) := by
    intro x o n
    refine ⟨fun v hv a ha => ?_, fun y hy => by cases hy⟩
    obtain rfl := mem_singleton.1 hv
    cases ha
  refine ⟨⟨rfl, rfl, rfl⟩, hbyte _ _ _, fun t ht => ?_⟩
  rcases hbetween t ht with rfl | ⟨o, n, rfl⟩
  · exact ⟨fun v hv => (by cases hv), fun y hy => by cases hy⟩
  · exact hbyte _ _ _

/-- Two stores of a byte with a store of another byte between them. -/
def overwritten : List ProtoStatement :=
  [byteAssign (.comb 0) (byteValue 1), byteAssign (.comb 1) (byteValue 2),
    byteAssign (.comb 0) (byteValue 3)]

theorem overwritten_sameRuns : SameRuns plainEnv (runPass plainEnv overwritten)
      (runPass plainEnv (dceAggressive (fun _ _ => false) overwritten)) := by
  have hwindow : ∀ w, window (fun _ _ => false) (.comb 0) (overwritten.tail) = some w →
      w = ([byteAssign (.comb 1) (byteValue 2)],
        ⟨.comb 0, 8, none, none, none, byteValue 3, 0, false⟩) :=
    fun w hw => (some.inj hw).symm
  refine (dceAggressive_sameRuns (fun _ _ => false) plainEnv overwritten (fun l hl => ?_)
    fun l hl => ?_).2
  · obtain rfl := mem_singleton.1 hl
    refine ⟨fun x hx w hw => ?_, fun x hx w hw => ?_, fun x hx w hw => ?_, trivial⟩
    · obtain rfl := some.inj hx
      rw [hwindow w hw]
      refine laidOut_bytes rfl rfl fun t ht => .inr ⟨_, _, mem_singleton.1 ht⟩
    · obtain rfl := some.inj hx
      cases hw
    · cases hw
  · obtain rfl := mem_singleton.1 hl
    refine ⟨fun x hx w hw => ?_, fun x hx w hw => ?_, fun x hx w hw => ?_, trivial⟩
    · obtain rfl := some.inj hx
      rw [hwindow w hw]
      rintro t ht rfl
      cases mem_singleton.1 ht
    · obtain rfl := some.inj hx
      cases hw
    · cases hw

/-- A loop that is left between two stores of the same byte. -/
def brokenLoop : List ProtoStatement :=
  [.forStmt ⟨.comb 8, 32, 4, false, .forward (.const 0 false) (.const 2 false) false 1, "i"⟩
    [byteAssign (.comb 0) (byteValue 1), .breakStmt, byteAssign (.comb 0) (byteValue 2)]]

theorem brokenLoop_not_sameRuns :
    ¬ ∀ external env stmts, (∀ l ∈ allLists stmts, Windows external (LaidOut env.use4state) l) →
      SameRuns env (runPass env stmts) (runPass env (dceAggressive external stmts)) := by
  intro h
  have hlaid : ∀ l ∈ allLists brokenLoop,
      Windows (fun _ _ => false) (LaidOut plainEnv.use4state) l := by
    intro l hl
    rcases mem_cons.1 hl with rfl | hl
    · exact ⟨fun x hx => (by cases hx), trivial⟩
    · obtain rfl := mem_singleton.1 hl
      refine ⟨fun x hx w hw => ?_, fun x hx => (by cases hx), fun x hx w hw => ?_, trivial⟩
      · obtain rfl := some.inj hx
        obtain rfl := some.inj hw
        exact laidOut_bytes rfl rfl fun t ht => .inl (mem_singleton.1 ht)
      · cases hw
  have hrun := h (fun _ _ => false) plainEnv brokenLoop hlaid (fun _ => 0)
  have hbefore : (runPass plainEnv brokenLoop (fun _ => 0)).map (·.state (.comb 0)) = some 1 := by
    decide
  have hafter : (runPass plainEnv (dceAggressive (fun _ _ => false) brokenLoop)
      (fun _ => 0)).map (·.state (.comb 0)) = some 0 := by
    decide
  generalize runPass plainEnv brokenLoop (fun _ => 0) = r at hrun hbefore
  generalize runPass plainEnv (dceAggressive (fun _ _ => false) brokenLoop) (fun _ => 0) = r'
    at hrun hafter
  cases hrun with
  | none => cases hbefore
  | some hsame =>
    have hbytes := congrFun hsame.2.1 (.comb 0)
    have hone : (1 : Byte) = 0 :=
      ((some.inj hbefore).symm.trans hbytes).trans (some.inj hafter)
    exact absurd hone (by decide)

end Examples

end Veryl.Simulator.DupAssignDce
