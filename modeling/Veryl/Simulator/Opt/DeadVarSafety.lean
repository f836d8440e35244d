import Veryl.Simulator.Footprint
import Veryl.Simulator.Opt.DeadVarClosure

/-!
Dead-variable elimination keeps every byte outside the slots of the variables it drops.
-/

namespace Veryl.Simulator.DeadVarDce

open Veryl.Analyzer Veryl.Library List ProtoStatement
open VarOffset (add_add isFf_add new_add new_isFf new_raw raw_add)
open ProtoExpression (elementLeaves leafAccesses selectAccesses selectLeaves)
open ProtoStatement (execArms execBody execTop placed_id relocation_id remapBody
  walkArms_eq walkBody walkBody_eq)

variable {a : Access} {x : ProtoAssignStatement}

variable {evs : List Event} {r : ArrayRange} {u : Bool} {s : ProtoStatement} {m m' : Mem}
  {body : List ProtoStatement} {as : List Access} {o : VarOffset} {K : Set VarOffset} {env : Env}

/-- The bytes of different elements do not overlap, as the layout allocates them. -/
def Separate (accesses : List Access) : Prop :=
  ∀ a ∈ accesses, ∀ b ∈ accesses, a.element ≠ b.element → Disjoint a.cells b.cells

/-- What a read may fetch. -/
def Event.Covers : Event → VarOffset → Prop
  | .read o, o' => o' = o
  | .range r, o' => o' ∈ r.elements

def Seen (evs : List Event) (o : VarOffset) : Prop := ∃ ev ∈ evs, ev.Covers o

@[simp] theorem seen_append {evs' : List Event} :
    Seen (evs ++ evs') o ↔ Seen evs o ∨ Seen evs' o := by
  simp [Seen, or_and_right, exists_or]

@[simp] theorem seen_read {o' : VarOffset} : Seen (.read o :: evs) o' ↔ o' = o ∨ Seen evs o' := by
  simp [Seen, Event.Covers]

@[simp] theorem seen_range : Seen (.range r :: evs) o ↔ o ∈ r.elements ∨ Seen evs o := by
  simp [Seen, Event.Covers]

theorem element_mem_elements {stride : ℤ} {n bytes : ℕ} (h : a ∈ stridedAccesses o stride n bytes) :
    a.element ∈ ArrayRange.elements ⟨o, n, stride⟩ := by
  obtain ⟨i, hi, rfl⟩ := mem_map.1 h
  exact mem_map.2 ⟨i, hi, by rw [new_add, mul_comm]; rfl⟩

theorem seen_selectEvents {ds : Option ProtoDynamicBitSelect}
    (h : ∀ d ∈ ds, ∀ a ∈ d.2.accesses u, Seen (exprEvents d.2) a.element) :
    ∀ a ∈ (selectLeaves ds).flatMap (leafAccesses u), Seen (selectEvents ds) a.element := by
  intro a ha
  cases ds with
  | none => simp [selectLeaves] at ha
  | some d => exact h d rfl a ha

theorem seen_exprEvents {e : ProtoExpression} :
    ∀ a ∈ e.accesses u, Seen (exprEvents e) a.element := by
  induction e with
  | concatenation es w c ih =>
    rw [ProtoExpression.accesses_concatenation]
    induction es with
    | nil => simp [elementLeaves]
    | cons e es ihes =>
      intro a ha
      rw [elementLeaves, flatMap_append, mem_append] at ha
      rw [exprEvents, elementEvents, seen_append]
      exact ha.imp (ih e (by simp) a) (ihes (fun e' he' => ih e' (by simp [he'])) a)
  | var o sel ds w full c ih =>
    intro a ha
    rw [ProtoExpression.accesses_variable, mem_cons] at ha
    rw [exprEvents, seen_read]
    exact ha.imp (fun h => by simp [h, Access.element]) (seen_selectEvents ih a)
  | dynamicVariable o stride nb i n sel ds w c ih ihs =>
    intro a ha
    simp only [ProtoExpression.accesses_dynamicVariable, mem_append] at ha
    rw [exprEvents, seen_range, seen_append]
    rcases ha with ha | ha | ha
    · exact .inr (.inl (ih a ha))
    · exact .inr (.inr (seen_selectEvents ihs a ha))
    · exact .inl (element_mem_elements ha)
  | value v w c => simp
  | resize x w s c ih => simpa [exprEvents] using ih
  | unary op x w c ih => simpa [exprEvents] using ih
  | binary x op y w c ihx ihy =>
    intro a ha
    rw [ProtoExpression.accesses_binary, mem_append] at ha
    rw [exprEvents, seen_append]
    exact ha.imp (ihx a) (ihy a)
  | ternary x y z w c ihx ihy ihz =>
    intro a ha
    simp only [ProtoExpression.accesses_ternary, mem_append] at ha
    rw [exprEvents, seen_append, seen_append, or_assoc]
    exact ha.imp (ihx a) (Or.imp (ihy a) (ihz a))

theorem seen_argEvents {args : List ProtoExpression} :
    ∀ a ∈ args.flatMap (·.accesses u), Seen (argEvents args) a.element := by
  intro a ha
  obtain ⟨e, he, ha⟩ := mem_flatMap.1 ha
  obtain ⟨ev, hev, hc⟩ := seen_exprEvents a ha
  exact ⟨ev, mem_flatMap.2 ⟨e, he, hev⟩, hc⟩

/-- An entry touches an offset it reads or stores a part of. -/
def Entry.Touches (e : Entry) (o : VarOffset) : Prop :=
  Seen e.events o ∨ e.write = .partialWrite o

theorem exists_touches (ic : Bool) {v : Visit} :
    ∀ a ∈ v.reads u, ∃ e ∈ visitEntries ic v, e.Touches a.element := by
  have seen_select : ∀ {ds : Option ProtoDynamicBitSelect},
      ∀ a ∈ selectAccesses u ds, Seen (selectEvents ds) a.element := by
    intro ds a ha
    cases ds with
    | none => simp [selectAccesses] at ha
    | some d => exact seen_exprEvents a (by simpa [selectAccesses] using ha)
  intro a ha
  cases v with
  | cond e => exact ⟨_, mem_singleton_self _, .inl (seen_exprEvents a ha)⟩
  | assign x =>
    refine ⟨_, mem_singleton_self _, ?_⟩
    simp only [Visit.reads, mem_append] at ha
    rcases ha with (ha | ha) | ha
    · exact .inl (seen_append.2 (.inl (seen_exprEvents a ha)))
    · exact .inl (seen_append.2 (.inr (seen_select a ha)))
    right
    split at ha
    · rename_i hsel
      have hfull : fullWidth x = false := by
        rcases hsel with h | h <;> simp [fullWidth, Option.isNone_eq_false_iff.2 h]
      rw [mem_singleton.1 ha]
      simp [hfull, storeSlot, Access.element]
    · cases ha
  | assignDynamic x =>
    refine ⟨_, mem_singleton_self _, .inl ?_⟩
    simp only [Visit.reads, mem_append] at ha
    simp only [seen_append, seen_range]
    rcases ha with ((ha | ha) | ha) | ha
    · exact .inl (.inl (.inl (seen_exprEvents a ha)))
    · exact .inl (.inl (.inr (seen_exprEvents a ha)))
    · exact .inl (.inr (seen_select a ha))
    · split at ha
      · exact .inr (.inl (element_mem_elements ha))
      · cases ha
  | loop x =>
    refine ⟨_, mem_cons_of_mem _ (mem_singleton_self _), .inl ?_⟩
    have hbound : ∀ b : ProtoForBound, a ∈ b.accesses u → ∃ e, b = .dynamic e ∧
        Seen (exprEvents e) a.element := by
      rintro (_ | e) ha
      · cases ha
      · exact ⟨e, rfl, seen_exprEvents a ha⟩
    simp only [Visit.reads, mem_append] at ha
    rcases ha with ha | ha
    · obtain ⟨e, he, ev, hev, hc⟩ := hbound _ ha
      exact ⟨ev, mem_flatMap.2 ⟨e, by simp [ProtoForRange.dynamicBounds, he], hev⟩, hc⟩
    · obtain ⟨e, he, ev, hev, hc⟩ := hbound _ ha
      refine ⟨ev, mem_flatMap.2 ⟨e, ?_, hev⟩, hc⟩
      exact mem_filterMap.2 ⟨_, mem_cons_of_mem _ (mem_singleton_self _), by
        rw [he]⟩
  | call x =>
    refine ⟨_, mem_singleton_self _, .inl (seen_argEvents (u := u) a ?_)⟩
    cases x with
    | readmemh filename elements width => simp [Visit.reads] at ha
    | finish => simp [Visit.reads] at ha
    | _ => simpa [Visit.reads, callArgs] using ha
  | compiled x => simp [Visit.reads] at ha
  | tb method => simp [Visit.reads] at ha

theorem exists_visitEntries_subset (ic : Bool) :
    ∀ v ∈ s.walk true, ∃ ic', visitEntries ic' v ⊆ stmtEntries ic s := by
  have body_of : ∀ (ic : Bool) {body : List ProtoStatement},
      (∀ s ∈ body, ∀ ic, ∀ v ∈ s.walk true, ∃ ic', visitEntries ic' v ⊆ stmtEntries ic s) →
      ∀ v ∈ walkBody true body, ∃ ic', visitEntries ic' v ⊆ bodyEntries ic body := by
    intro ic body h v hv
    rw [walkBody_eq, mem_flatMap] at hv
    obtain ⟨s, hs, hv⟩ := hv
    obtain ⟨ic', hsub⟩ := h s hs ic v hv
    refine ⟨ic', fun e he => ?_⟩
    rw [bodyEntries_eq]
    exact mem_flatMap.2 ⟨s, hs, hsub he⟩
  induction s generalizing ic with
  | ifStmt c t f iht ihf =>
    intro v hv
    simp only [walk, mem_append, mem_map] at hv
    rcases hv with (⟨e, he, rfl⟩ | hv) | hv
    · obtain rfl : c = some e := by simpa using he
      exact ⟨ic, by simp [visitEntries, stmtEntries, argEvents]⟩
    · obtain ⟨ic', h⟩ := body_of ic iht v hv
      exact ⟨ic', fun e he => by simp [stmtEntries, h he]⟩
    · obtain ⟨ic', h⟩ := body_of ic ihf v hv
      exact ⟨ic', fun e he => by simp [stmtEntries, h he]⟩
  | caseStmt arms d iha ihd =>
    intro v hv
    simp only [walk, walkArms_eq, mem_append, mem_flatMap, mem_cons] at hv
    rcases hv with ⟨a, ha, rfl | hv⟩ | hv
    · refine ⟨ic, fun e he => ?_⟩
      simp only [stmtEntries, armEntries_eq, mem_append, mem_flatMap, mem_cons]
      exact .inl ⟨a, ha, .inl (mem_singleton.1 he)⟩
    · obtain ⟨ic', h⟩ := body_of ic (iha a ha) v hv
      refine ⟨ic', fun e he => ?_⟩
      simp only [stmtEntries, armEntries_eq, mem_append, mem_flatMap, mem_cons]
      exact .inl ⟨a, ha, .inr (h he)⟩
    · obtain ⟨ic', h⟩ := body_of ic ihd v hv
      exact ⟨ic', fun e he => by simp [stmtEntries, h he]⟩
  | forStmt x body ih =>
    intro v hv
    rw [walk, mem_cons] at hv
    rcases hv with rfl | hv
    · exact ⟨ic, fun e he => mem_append_left _ he⟩
    · obtain ⟨ic', h⟩ := body_of ic ih v hv
      exact ⟨ic', fun e he => mem_append_right _ (h he)⟩
  | breakStmt => simp [walk]
  | compiledBlock x stmts ih =>
    intro v hv
    rw [walk] at hv
    split at hv
    · exact body_of true ih v hv
    · rw [mem_singleton.1 hv]
      exact ⟨ic, by simp [visitEntries]⟩
  | sequentialBlock body ih => exact body_of ic ih
  | _ =>
    intro v hv
    rw [mem_singleton.1 hv]
    exact ⟨ic, List.Subset.refl _⟩

theorem mem_events_of_mem_ranges {e : Entry} (h : r ∈ e.ranges) : .range r ∈ e.events := by
  obtain ⟨ev, hev, h⟩ := mem_filterMap.1 h
  cases ev with
  | read o => cases h
  | range r' =>
    obtain rfl := Option.some.inj h
    exact hev

section Sim

variable {env : Env} {dead : List VarOffset} {K : Set VarOffset}

/-- No entry touches an offset of `dead`. -/
def Clear (dead : List VarOffset) (es : List Entry) : Prop :=
  ∀ e ∈ es, ∀ o, e.Touches o → o ∉ dead

theorem Clear.subset {es es' : List Entry} (h : Clear dead es') (hsub : es ⊆ es') : Clear dead es :=
  fun e he => h e (hsub he)

/-- `K` holds the slots of everything but the dead offsets. -/
def Holds (K : Set VarOffset) (u : Bool) (dead : List VarOffset) (v : Visit) : Prop :=
  (∀ a ∈ v.reads u, a.element ∉ dead → a.cells ⊆ K) ∧
    ∀ x, v = .assign x → dropped dead x = true → ∀ b ∈ (storeSlot u x.dst x.dstWidth).cells, b ∉ K

theorem sim_exec_of_clear {ic : Bool}
    (hK : ∀ v ∈ s.walk true, Holds K env.use4state dead v)
    (hclear : Clear dead (stmtEntries ic s)) :
    Computation.Sim (Relocated id K) (s.exec env) (s.exec env) := by
  refine sim_exec_of_reads ?_
  rintro b ⟨a, ha, hb⟩
  obtain ⟨v, hv, ha⟩ := mem_flatMap.1 ha
  obtain ⟨ic', hsub⟩ := exists_visitEntries_subset ic v hv
  obtain ⟨e, he, ht⟩ := exists_touches ic' a ha
  exact (hK v hv).1 a ha (hclear e (hsub he) _ ht) hb

theorem exec_dropped (hcomb : x.dst.isFf = false)
    (h : dropped dead x = true) (hK : Holds K env.use4state dead (.assign x))
    (hm : Relocated id K m m') :
    ∃ m₁, exec env (.assign x) m = some ⟨.continue_, m₁, []⟩ ∧ Relocated id K m₁ m' := by
  obtain ⟨⟨⟨hsel, hds⟩, -⟩, -⟩ : ((x.select = none ∧ x.dynamicSelect = none) ∧
      x.rhsSelect = none) ∧ x.dst ∈ dead := by simpa [dropped] using h
  have hpacked : x.ffIsPacked = false := by simp [ProtoAssignStatement.ffIsPacked, hcomb]
  have hlog : x.ffLogOffset = none := by simp [ProtoAssignStatement.ffLogOffset, hcomb]
  refine ⟨m.writeNativeValue x.dst (nativeBytes x.dstWidth) env.use4state
    ((storeRhs env m x.expr x.rhsSelect x.dstWidth).trunc x.dstWidth), ?_, fun b hb => ?_⟩
  · simp only [exec, ProtoAssignStatement.exec, hsel, hds, hpacked, hlog]
    rfl
  · refine (hm b hb).trans (Mem.writeNativeValue_of_not_mem m x.dst _ fun i hi he => ?_).symm
    exact hK.2 x rfl h b ⟨i, hi, by simpa [storeSlot] using he⟩ hb

theorem applyStmt_eq_none (h : (applyStmt dead s).1 = none) :
    ∃ x, s = .assign x ∧ dropped dead x = true := by
  cases s with
  | assign x => exact ⟨x, rfl, by by_contra hd; simp [applyStmt, hd] at h⟩
  | _ => simp [applyStmt] at h

theorem dst_mem_of_dropped (h : dropped dead x = true) : x.dst ∈ dead := by
  simp only [dropped, Bool.and_eq_true, contains_eq_mem, decide_eq_true_eq] at h
  exact h.2

theorem sim_kept (h : (applyStmt dead s).1 = some s)
    (hK : ∀ v ∈ s.walk true, Holds K env.use4state dead v)
    (hclear : Clear dead (left dead (stmtEntries false s))) :
    Computation.Sim (Relocated id K) (s.exec env) (s.exec env) := by
  have hall := (drops_stmt dead s).eq_left
  rw [h, Option.toList_some, bodyEntries, bodyEntries, append_nil] at hall
  exact sim_exec_of_clear hK (hall.symm ▸ hclear : Clear dead (stmtEntries false s))

section

variable (hcomb : ∀ o ∈ dead, o.isFf = false)
include hcomb

theorem sim_body_of (ih : ∀ s ∈ body, ∀ s', (applyStmt dead s).1 = some s' →
      (∀ v ∈ s.walk true, Holds K env.use4state dead v) →
        Clear dead (left dead (stmtEntries false s)) →
          Computation.Sim (Relocated id K) (s.exec env) (s'.exec env))
    (hK : ∀ v ∈ walkBody true body, Holds K env.use4state dead v)
    (hclear : Clear dead (left dead (bodyEntries false body))) :
    Computation.Sim (Relocated id K) (execBody env body)
      (execBody env (applyBody dead body).1) := by
  induction body with
  | nil => exact .pure _
  | cons s body ihb =>
    rw [bodyEntries, left_append] at hclear
    have hrest := ihb (fun s' hs' => ih s' (by simp [hs']))
      (fun v hv => hK v (mem_append_right _ hv))
      (hclear.subset (subset_append_right _ _))
    cases h : (applyStmt dead s).1 with
    | some s' =>
      have hs := ih s (by simp) s' h (fun v hv => hK v (mem_append_left _ hv))
        (hclear.subset (subset_append_left _ _))
      simp only [applyBody, h, Option.toList_some, singleton_append, execBody]
      refine hs.bind fun flow => ?_
      cases flow with
      | break_ => exact .pure _
      | continue_ => exact hrest
    | none =>
      obtain ⟨x, rfl, hx⟩ := applyStmt_eq_none h
      simp only [applyBody, h, Option.toList_none, nil_append, execBody]
      refine .skip (fun m m' hm => exec_dropped (hcomb _ (dst_mem_of_dropped hx)) hx
        (hK _ ?_) hm) hrest
      exact mem_append_left _ (mem_singleton_self _)

theorem sim_applyStmt {s' : ProtoStatement} (h : (applyStmt dead s).1 = some s')
    (hK : ∀ v ∈ s.walk true, Holds K env.use4state dead v)
    (hclear : Clear dead (left dead (stmtEntries false s))) :
    Computation.Sim (Relocated id K) (s.exec env) (s'.exec env) := by
  have cond_of : ∀ {e : ProtoExpression}, Holds K env.use4state dead (.cond e) →
      Clear dead [⟨exprEvents e, .none, false⟩] →
      ∀ {m m' : Mem}, Relocated id K m m' → e.eval env m' = e.eval env m := by
    intro e he hc m m' hm
    have hcells : cellsOf (e.accesses env.use4state) ⊆ K := by
      rintro b ⟨a, ha, hb⟩
      exact he.1 a ha (hc _ (mem_singleton_self _) _ (.inl (seen_exprEvents a ha))) hb
    simpa using ProtoExpression.eval_remapOffsetsWith e (hm.agree (placed_id hcells))
  have arms_of : ∀ {arms : List (ProtoExpression × List ProtoStatement)}
      {d d' : Exec ControlFlow}, Computation.Sim (Relocated id K) d d' →
      (∀ a ∈ arms, Holds K env.use4state dead (.cond a.1)) →
      Clear dead (left dead (armEntries false arms)) →
      (∀ a ∈ arms, Clear dead (left dead (bodyEntries false a.2)) →
        Computation.Sim (Relocated id K) (execBody env a.2) (execBody env (applyBody dead a.2).1)) →
      Computation.Sim (Relocated id K) (execArms env arms d)
        (execArms env (applyArms dead arms).1 d') := by
    intro arms d d' hd hcond hclear hbody
    induction arms with
    | nil => exact hd
    | cons a arms ih =>
      simp only [armEntries, left_reader, left_append] at hclear
      have hrest := ih (fun a' ha' => hcond a' (by simp [ha']))
        (hclear.subset fun e he => by simp [he]) fun a' ha' => hbody a' (by simp [ha'])
      refine .bind (.read fun m m' hm => ?_) fun taken => ?_
      · rw [cond_of (hcond a (by simp)) (hclear.subset fun e he => ?_) hm]
        simp [mem_singleton.1 he]
      · cases taken with
        | true => exact hbody a (by simp) (hclear.subset fun e he => by simp [he])
        | false => exact hrest
  induction s generalizing s' with
  | assign x =>
    by_cases hx : dropped dead x = true
    · simp [applyStmt, hx] at h
    · obtain rfl : ProtoStatement.assign x = s' := by simpa [applyStmt, hx] using h
      exact sim_kept h hK hclear
  | ifStmt c t f iht ihf =>
    obtain rfl : ProtoStatement.ifStmt c (applyBody dead t).1 (applyBody dead f).1 = s' := by
      simpa [applyStmt] using h
    simp only [stmtEntries, left_reader, left_append] at hclear
    refine .bind (.read fun m m' hm => ?_) fun taken => ?_
    · cases c with
      | none => rfl
      | some e =>
        have he := cond_of (hK (.cond e) (by simp [walk]))
          (hclear.subset fun e' he' => by simp_all [argEvents]) hm
        simp [he]
    · cases taken with
      | true =>
        refine sim_body_of hcomb (fun s hs s' h hK hc => iht s hs h hK hc) (fun v hv => hK v ?_)
          (hclear.subset fun e he => by simp [he])
        simp [walk, hv]
      | false =>
        refine sim_body_of hcomb (fun s hs s' h hK hc => ihf s hs h hK hc) (fun v hv => hK v ?_)
          (hclear.subset fun e he => by simp [he])
        simp [walk, hv]
  | caseStmt arms d iha ihd =>
    obtain rfl : ProtoStatement.caseStmt (applyArms dead arms).1 (applyBody dead d).1 = s' := by
      simpa [applyStmt] using h
    simp only [stmtEntries, left_append] at hclear
    simp only [walk, walkArms_eq, mem_append, mem_flatMap, mem_cons] at hK
    refine arms_of ?_ (fun a ha => hK _ (.inl ⟨a, ha, .inl rfl⟩))
      (hclear.subset (subset_append_left _ _)) fun a ha hc => ?_
    · exact sim_body_of hcomb (fun s hs s' h hK hc => ihd s hs h hK hc)
        (fun v hv => hK v (.inr hv)) (hclear.subset (subset_append_right _ _))
    · exact sim_body_of hcomb (fun s hs s' h hK hc => iha a ha s hs h hK hc)
        (fun v hv => hK v (.inl ⟨a, ha, .inr hv⟩)) hc
  | forStmt x body ih =>
    obtain rfl : ProtoStatement.forStmt x (applyBody dead body).1 = s' := by
      simpa [applyStmt] using h
    simp only [stmtEntries, left_append] at hclear
    have hbody := sim_body_of hcomb (fun s hs s' h hK hc => ih s hs h hK hc)
      (fun v hv => hK v (mem_cons_of_mem _ hv))
      (hclear.subset (subset_append_right _ _))
    have hloop : (Visit.loop x).Satisfies (Computation.Sim (Relocated id K)) id env := by
      refine Visit.sim (relocation_id K Set.univ) (placed_id ?_) (placed_id (Set.subset_univ _))
      rintro b ⟨a, ha, hb⟩
      obtain ⟨e, he, ht⟩ := exists_touches false a ha
      refine (hK (.loop x) (by simp [walk])).1 a ha ?_ hb
      exact hclear e (mem_append_left _ (by simpa [left, visitEntries, Entry.owner] using he)) _ ht
    have hid : x.remapOffsetsWith id = x := by
      simpa [remapOffsetsWith, remapBody] using remapOffsetsWith_id (.forStmt x [])
    have := ProtoForStatement.exec_congr Computation.Sim.congruence hloop hbody
    rw [hid] at this
    exact this.bind fun _ => .pure _
  | sequentialBlock body ih =>
    obtain rfl : ProtoStatement.sequentialBlock (applyBody dead body).1 = s' := by
      simpa [applyStmt] using h
    exact sim_body_of hcomb (fun s hs s' h hK hc => ih s hs h hK hc) hK hclear
  | _ =>
    obtain rfl := Option.some.inj h
    exact sim_kept h hK hclear

theorem sim_execTop_applyBody (hK : ∀ v ∈ walkBody true body, Holds K env.use4state dead v)
    (hclear : Clear dead (left dead (bodyEntries false body))) :
    Computation.Sim (Relocated id K) (runPass env body) (runPass env (applyBody dead body).1) := by
  induction body with
  | nil => exact .pure _
  | cons s body ih =>
    rw [bodyEntries, left_append] at hclear
    have hrest := ih (fun v hv => hK v (mem_append_right _ hv))
      (hclear.subset (subset_append_right _ _))
    cases h : (applyStmt dead s).1 with
    | some s' =>
      have hs := sim_applyStmt hcomb h (fun v hv => hK v (mem_append_left _ hv))
        (hclear.subset (subset_append_left _ _))
      have htop : Computation.Sim (Relocated id K) (s.execTop env) (s'.execTop env) :=
        hs.bind fun _ => .pure _
      simpa [runPass, applyBody, h, Computation.sequence] using htop.bind fun _ => hrest
    | none =>
      obtain ⟨x, rfl, hx⟩ := applyStmt_eq_none h
      have hskip : ∀ m m', Relocated id K m m' →
          ∃ m₁, (ProtoStatement.assign x).execTop env m = some ⟨⟨⟩, m₁, []⟩ ∧
            Relocated id K m₁ m' := by
        intro m m' hm
        obtain ⟨m₁, hm₁, hrel⟩ := exec_dropped (hcomb _ (dst_mem_of_dropped hx)) hx
          (hK _ (mem_append_left _ (mem_singleton_self _))) hm
        exact ⟨m₁, by simp [execTop, Computation.bind_apply, hm₁], hrel⟩
      simpa [runPass, applyBody, h, Computation.sequence] using Computation.Sim.skip hskip hrest

end

theorem sim_runPass (hcomb : ∀ o ∈ dead, o.isFf = false)
    (hK : ∀ v ∈ walkBody true body, Holds K env.use4state dead v)
    (huniv : dead = [] → K = Set.univ)
    (hclear : Clear dead (left dead (bodyEntries false body))) :
    Computation.Sim (Relocated id K) (runPass env body)
      (runPass env (applyCounting body dead).1) := by
  cases dead with
  | cons o dead => exact sim_execTop_applyBody hcomb hK hclear
  | nil =>
    have hsame : ∀ {m m' : Mem}, Relocated id K m m' ↔ m' = m := by
      simp [Relocated, huniv rfl, funext_iff]
    intro m m' hm
    obtain rfl := hsame.1 hm
    change Option.Rel _ (runPass env body m') (runPass env body m')
    cases runPass env body m' with
    | none => exact .none
    | some a => exact .some ⟨rfl, rfl, fun _ _ => rfl⟩

end Sim

/-- One step of a run: a pass over a slice, or stores by the code around the
slices, such as committing the log or driving an input, chosen from what it can
see of the storage and what the run has emitted. -/
inductive RunStep where
  | pass (slice : ℕ)
  | outside (stores : Mem → List Output → List (VarOffset × Byte))

variable {steps : List RunStep}

def storeAll (m : Mem) (stores : List (VarOffset × Byte)) : Mem :=
  stores.foldl (fun m s => Function.update m s.1 s.2) m

def run (env : Env) (slices : List (List ProtoStatement)) :
    List RunStep → Mem → List Output → Option (Mem × List Output)
  | [], m, out => some (m, out)
  | .pass i :: steps, m, out => do
    let o ← runPass env (slices.getD i []) m
    run env slices steps o.state (out ++ o.out)
  | .outside stores :: steps, m, out => run env slices steps (storeAll m (stores m out)) out

theorem relocated_storeAll (stores : List (VarOffset × Byte))
    (h : Relocated id K m m') : Relocated id K (storeAll m stores) (storeAll m' stores) := by
  induction stores generalizing m m' with
  | nil => exact h
  | cons s stores ih =>
    refine ih fun b hb => ?_
    by_cases hs : b = s.1
    · simp [hs]
    · simpa [Function.update_of_ne hs] using h b hb

/-- The code around the slices looks at the bytes `V` only. -/
def RunStep.LooksAt (V : Set VarOffset) : RunStep → Prop
  | .pass _ => True
  | .outside stores => ∀ m m' out, (∀ b ∈ V, m' b = m b) → stores m' out = stores m out

theorem rel_run {slices slices' : List (List ProtoStatement)}
    (h : ∀ i, Computation.Sim (Relocated id K) (runPass env (slices.getD i []))
      (runPass env (slices'.getD i []))) (hsteps : ∀ step ∈ steps, step.LooksAt K)
    (hm : Relocated id K m m') (out : List Output) :
    Option.Rel (fun a b => a.2 = b.2 ∧ Relocated id K a.1 b.1) (run env slices steps m out)
      (run env slices' steps m' out) := by
  induction steps generalizing m m' out with
  | nil => exact .some ⟨rfl, hm⟩
  | cons step steps ih =>
    have hrest : ∀ step ∈ steps, step.LooksAt K := fun s hs => hsteps s (by simp [hs])
    cases step with
    | pass i =>
      have hpass := h i hm
      simp only [run]
      generalize runPass env (slices.getD i []) m = a at hpass ⊢
      generalize runPass env (slices'.getD i []) m' = b at hpass ⊢
      cases hpass with
      | none => exact .none
      | @some a b hab =>
        obtain ⟨-, hout, hstate⟩ := hab
        simpa [hout] using ih hrest hstate (out ++ a.out)
    | outside stores =>
      have hlook : stores m' out = stores m out :=
        hsteps _ mem_cons_self m m' out fun b hb => hm b hb
      simp only [run, hlook]
      exact ih hrest (relocated_storeAll _ hm) out

/-- The bytes of the assignments to dead offsets. -/
def deadCells (use4state : Bool) (dead : List VarOffset) (slices : List (List ProtoStatement)) :
    Set VarOffset :=
  {b | ∃ body ∈ slices, ∃ x, Visit.assign x ∈ walkBody true body ∧
    dropped dead x = true ∧ b ∈ (storeSlot use4state x.dst x.dstWidth).cells}

/-- Everything the statements of all slices read or store into. -/
def slicesAccesses (use4state : Bool) (slices : List (List ProtoStatement)) : List Access :=
  slices.flatMap fun body => (walkBody true body).flatMap fun v =>
    v.reads use4state ++ v.writes use4state

/-- What the code around the slices looks at: flip-flops and protected variables. -/
def Visible (protect : List VarOffset) (ports : List Access) : Prop :=
  ∀ a ∈ ports, a.element.isFf = false → a.element ∈ protect

/-- The range test accepts every element of a runtime-indexed array that is a
candidate of the pass. -/
def RangeTestComplete (protect : List VarOffset) (slices : List (List ProtoStatement)) : Prop :=
  ∀ e ∈ entries slices, ∀ r ∈ e.ranges, ∀ o ∈ r.elements,
    Candidate protect (entries slices) o → r.contains o = true

theorem contains_of_pos (h : 0 < r.stride) (ho : o ∈ r.elements) : r.contains o = true := by
  obtain ⟨k, hk, rfl⟩ := mem_map.1 ho
  have hk : k < r.num := mem_range.1 hk
  have hnonneg : (0 : ℤ) ≤ k * r.stride := Int.mul_nonneg (Int.natCast_nonneg k) h.le
  simp only [ArrayRange.contains, new_isFf, new_raw, add_sub_cancel_left,
    Int.mul_tmod_left, Int.mul_tdiv_cancel _ h.ne']
  simp [h.ne', hnonneg, Nat.ne_of_gt (Nat.zero_lt_of_lt hk), hk]

section Pass

variable {protect : List VarOffset} {slices : List (List ProtoStatement)} {dead : List VarOffset}

theorem clear_left (hcond : RangeTestComplete protect slices)
    (hdead : ∀ o, o ∈ dead ↔ o ∈ deadSet protect (entries slices)) :
    Clear dead (left dead (entries slices)) := by
  intro e he o ht ho
  obtain ⟨he, howner⟩ := mem_left.1 he
  obtain ⟨hcand, hread⟩ := mem_deadSet.1 ((hdead o).1 ho)
  rcases ht with ⟨ev, hev, hcov⟩ | hw
  · refine hread ⟨e, he, fun w hw hwd => howner w hw ((hdead w).2 hwd), ?_⟩
    cases ev with
    | read o' =>
      obtain rfl : o = o' := hcov
      exact .inl (mem_filterMap.2 ⟨_, hev, rfl⟩)
    | range r =>
      have hr : r ∈ e.ranges := mem_filterMap.2 ⟨_, hev, rfl⟩
      exact .inr ⟨r, hr, hcond e he r hr o hcov hcand⟩
  · exact hcand.2.2.2 e he hw

variable {use4state : Bool}

theorem mem_deadCells {b : VarOffset} (hcomb : ∀ o ∈ dead, o.isFf = false)
    (h : b ∈ deadCells use4state dead slices) :
    ∃ a ∈ slicesAccesses use4state slices, a.element ∈ dead ∧ b ∈ a.cells := by
  obtain ⟨body, hbody, x, hv, hx, hb⟩ := h
  have hdst := dst_mem_of_dropped hx
  refine ⟨storeSlot use4state x.dst x.dstWidth, ?_,
    by simpa [Access.element, storeSlot] using hdst, hb⟩
  refine mem_flatMap.2 ⟨body, hbody, mem_flatMap.2 ⟨_, hv, ?_⟩⟩
  simp [Visit.writes, ProtoAssignStatement.ffIsPacked, hcomb _ hdst]

theorem cells_subset_of_separate (hcomb : ∀ o ∈ dead, o.isFf = false)
    (hsep : Separate (slicesAccesses use4state slices ++ as))
    (ha : a ∈ slicesAccesses use4state slices ++ as) (hdead : a.element ∉ dead) :
    a.cells ⊆ Set.compl (deadCells use4state dead slices) := by
  intro b hb hd
  obtain ⟨a', ha', hel, hb'⟩ := mem_deadCells hcomb hd
  have hne : a.element ≠ a'.element := fun he => hdead (he ▸ hel)
  exact Set.disjoint_left.1 (hsep a ha a' (mem_append_left _ ha') hne) hb hb'

theorem holds_compl (hbody : body ∈ slices) (hcomb : ∀ o ∈ dead, o.isFf = false)
    (hsep : Separate (slicesAccesses use4state slices ++ as)) :
    ∀ v ∈ walkBody true body,
      Holds (Set.compl (deadCells use4state dead slices)) use4state dead v := by
  refine fun v hv => ⟨fun a ha => cells_subset_of_separate hcomb hsep ?_, ?_⟩
  · refine mem_append_left _ (mem_flatMap.2 ⟨body, hbody, ?_⟩)
    exact mem_flatMap.2 ⟨v, hv, mem_append_left _ ha⟩
  · rintro x rfl hx b hb hmem
    exact hmem ⟨body, hbody, x, hv, hx, hb⟩

theorem rel_run_applySlices {ports : List Access}
    (hdead : ∀ o, o ∈ dead ↔ o ∈ deadSet protect (entries slices))
    (hcond : RangeTestComplete protect slices) (hports : Visible protect ports)
    (hsep : Separate (slicesAccesses env.use4state slices ++ ports))
    (hsteps : ∀ step ∈ steps, step.LooksAt (cellsOf ports)) (m : Mem) (out : List Output) :
    Option.Rel (fun a b => a.2 = b.2 ∧ ∀ c ∉ deadCells env.use4state dead slices, b.1 c = a.1 c)
      (run env slices steps m out) (run env (applySlices slices dead).1 steps m out) := by
  have hcomb : ∀ o ∈ dead, o.isFf = false := fun o ho =>
    (mem_deadSet.1 ((hdead o).1 ho)).1.1
  refine rel_run (K := Set.compl (deadCells env.use4state dead slices)) (fun i => ?_)
    (fun step hstep => ?_) (fun _ _ => rfl) out
  · by_cases hi : i < slices.length
    · have hslice : (applySlices slices dead).1.getD i [] =
          (applyCounting (slices.getD i []) dead).1 := by simp [applySlices, hi]
      have hbody : slices.getD i [] ∈ slices := by simp [hi]
      rw [hslice]
      refine sim_runPass hcomb (holds_compl hbody hcomb hsep) (fun h => ?_)
        ((clear_left hcond hdead).subset fun e he => ?_)
      · refine Set.eq_univ_of_forall fun b hb => ?_
        obtain ⟨_, _, x, _, hx, _⟩ := hb
        simpa [h] using dst_mem_of_dropped hx
      · obtain ⟨he, hw⟩ := mem_left.1 he
        exact mem_left.2 ⟨mem_flatMap.2 ⟨_, hbody, he⟩, hw⟩
    · have hnone : (applySlices slices dead).1.getD i [] = slices.getD i [] := by
        simp [applySlices, not_lt.1 hi]
      rw [hnone, getD_eq_default _ _ (not_lt.1 hi)]
      exact .pure _
  · cases step with
    | pass i => trivial
    | outside stores =>
      intro m m' out hK
      refine hsteps _ hstep m m' out fun b hb => hK b ?_
      obtain ⟨a, ha, hb⟩ := hb
      refine cells_subset_of_separate hcomb hsep (mem_append_right _ ha) (fun he => ?_) hb
      have hc := (mem_deadSet.1 ((hdead _).1 he)).1
      exact hc.2.1 (hports a ha hc.1)

theorem applySlices_nil (slices : List (List ProtoStatement)) :
    (applySlices slices []).1 = slices := by
  simp [applySlices, applyCounting]

end Pass

theorem separate_of_bounds
    (h : ∀ a ∈ as, ∀ b ∈ as, a.element ≠ b.element → a.element.isFf ≠ b.element.isFf ∨
      a.element.raw + a.bytes ≤ b.element.raw ∨ b.element.raw + b.bytes ≤ a.element.raw) :
    Separate as := by
  intro a ha b hb hne
  rw [Set.disjoint_left]
  rintro c ⟨k, hk, rfl⟩ ⟨l, hl, heq⟩
  rw [← add_add, ← add_add, VarOffset.ext_iff_raw] at heq
  simp only [isFf_add, raw_add] at heq
  have := h a ha b hb hne
  simp only [Access.element, isFf_add, raw_add] at this
  rcases this with h | h | h
  · exact h heq.1
  · omega
  · omega

/-- A byte stored at offset 0, and a copy of element 1 of a two-element array. -/
def indexedSlices (base : VarOffset) (stride : ℤ) : List (List ProtoStatement) :=
  [[byteAssign (.comb 0) (byteValue 5)], [byteAssign (.comb 16)
      (.dynamicVariable base stride 1 (byteValue 1) 2 none none 8 ⟨8, false⟩)]]

end Veryl.Simulator.DeadVarDce
