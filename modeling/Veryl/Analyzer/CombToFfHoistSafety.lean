import Veryl.Analyzer.CombToFfHoistRuns

/-!
Applying the plans of a module moves every planned assignment to one always_ff,
so the module keeps its runs when nothing else needs what has moved.
-/

namespace Veryl.Analyzer.Hoist

open List Function Prod Declaration

open Registers (VarId FfTable)

variable {i : ℕ} {x : Simple} {pre : List Simple} {st : List Simple × List Declaration}
  {hoisted : ℕ → List Simple} {found : List (HoistPlan × Simple)} {done : List HoistPlan}
  {statements : List Simple} {k : ℕ} {current : List Declaration} {post : List Simple}

def assigns (varId : VarId) (x : Simple) : Bool := x.dst.head? = some varId

theorem extractTopLevelAssign_spec (varId : VarId) (xs : List Simple) :
    (extractTopLevelAssign varId xs = none ∧ xs.filter (assigns varId) = []) ∨
      ∃ pre x post, xs = pre ++ x :: post ∧ extractTopLevelAssign varId xs = some (x, pre ++ post) ∧
        assigns varId x = true ∧ pre.filter (assigns varId) = [] := by
  induction xs with
  | nil => exact .inl ⟨rfl, rfl⟩
  | cons x xs ih =>
    by_cases hx : x.dst.head? = some varId
    · have hassigns : assigns varId x = true := decide_eq_true hx
      exact .inr ⟨[], x, xs, rfl, by rw [extractTopLevelAssign, if_pos hx]; rfl, hassigns, rfl⟩
    · have hassigns : ¬assigns varId x = true := fun h => hx (of_decide_eq_true h)
      rcases ih with ⟨hextract, hnone⟩ | ⟨pre, y, post, rfl, hextract, hyassigns, hpre⟩
      · refine .inl ⟨by rw [extractTopLevelAssign, if_neg hx, hextract], ?_⟩
        rw [filter_cons_of_neg hassigns, hnone]
      · refine .inr ⟨x :: pre, y, post, rfl, ?_, hyassigns, ?_⟩
        · rw [extractTopLevelAssign, if_neg hx, hextract]
          rfl
        · rw [filter_cons_of_neg hassigns, hpre]

/-- How many plans are for assignments of the variable in the declaration. -/
def countPlans (plans : List HoistPlan) (i : ℕ) (varId : VarId) : ℕ :=
  plans.countP fun p => p.combDeclIdx = i ∧ p.varId = varId

/-- The assignments that plans are for: the first plan of a variable has the
first assignment, the second the second. -/
def plannedAssigns (declarations : List Declaration) :
    List HoistPlan → List HoistPlan → List (HoistPlan × Simple)
  | _, [] => []
  | done, p :: rest =>
    (match declarations[p.combDeclIdx]? with
      | some (.comb statements) =>
        ((statements.filter (assigns p.varId))[countPlans done p.combDeclIdx p.varId]?).toList.map
          fun x => (p, x)
      | _ => []) ++ plannedAssigns declarations (done ++ [p]) rest

/-- The plans that are applied, in their order. -/
def letPlans (plans : List HoistPlan) (ffOrder : List ℕ) : List HoistPlan :=
  ffOrder.flatMap fun k => plans.filter fun p => p.varKind = .letKind ∧ p.ffDeclIdx = k

/-- The assignment of a plan can move to the always_ff of the plan. -/
def CanMove (isLet : VarId → Bool) (declarations : List Declaration) (p : HoistPlan)
    (x : Simple) : Prop :=
  ∃ pre post, Movable isLet declarations p.combDeclIdx p.ffDeclIdx pre x post

theorem plannedAssigns_append (declarations : List Declaration) (done ps qs : List HoistPlan) :
    plannedAssigns declarations done (ps ++ qs) =
      plannedAssigns declarations done ps ++ plannedAssigns declarations (done ++ ps) qs := by
  induction ps generalizing done with
  | nil => rw [append_nil]; rfl
  | cons p ps ih =>
    rw [cons_append, plannedAssigns, plannedAssigns, ih, append_assoc, append_assoc]
    rfl

section Apply

variable {isLet : VarId → Bool} {declarations : List Declaration}

theorem mapIdx_congr {f g : ℕ → Declaration → Declaration}
    (h : ∀ i d, declarations[i]? = some d → f i d = g i d) :
    declarations.mapIdx f = declarations.mapIdx g := by
  refine ext_getElem? fun i => ?_
  rw [getElem?_mapIdx, getElem?_mapIdx]
  cases hi : declarations[i]? with
  | none => rfl
  | some d => exact congrArg some (h i d hi)

/-- The statements that the plans of `found` take out of a declaration. -/
def MovesOf (found : List (HoistPlan × Simple)) (i : ℕ) (x : Simple) : Prop :=
  ∃ p, (p, x) ∈ found ∧ p.combDeclIdx = i

open Classical in
/-- What is left of an always_comb. -/
noncomputable def leftOf (found : List (HoistPlan × Simple)) (i : ℕ) (statements : List Simple) :
    List Simple :=
  statements.filter fun x => decide ¬MovesOf found i x

/-- What the plans `done` have made of the module: they have taken `found`, of
which `hoisted` is in place and `taken` on its way to the always_ff `k`. -/
structure Applied (declarations : List Declaration) (done : List HoistPlan)
    (found : List (HoistPlan × Simple)) (hoisted : ℕ → List Simple) (k : ℕ) (taken : List Simple)
    (current : List Declaration) : Prop where
  eq_mapIdx : current = declarations.mapIdx (hoistedDecl (MovesOf found) hoisted)
  mem_found : ∀ j x, (∃ p, (p, x) ∈ found ∧ p.ffDeclIdx = j) ↔ x ∈ hoisted j ∨ j = k ∧ x ∈ taken
  left : ∀ i statements, declarations[i]? = some (.comb statements) → ∀ varId,
    (leftOf found i statements).filter (assigns varId) =
      (statements.filter (assigns varId)).drop (countPlans done i varId)

section Plan

variable {done : List HoistPlan} {found : List (HoistPlan × Simple)} {hoisted : ℕ → List Simple}
  {k : ℕ} {taken : List Simple} {current : List Declaration} {p : HoistPlan}

theorem countPlans_append (done : List HoistPlan) (p : HoistPlan) (i : ℕ) (varId : VarId) :
    countPlans (done ++ [p]) i varId =
      countPlans done i varId + if p.combDeclIdx = i ∧ p.varId = varId then 1 else 0 := by
  unfold countPlans
  simp

theorem movesOf_append_of_ne (hi : p.combDeclIdx ≠ i) (x y : Simple) :
    MovesOf (found ++ [(p, x)]) i y ↔ MovesOf found i y := by
  constructor
  · rintro ⟨q, hq, rfl⟩
    rcases mem_append.1 hq with hq | hq
    · exact ⟨q, hq, rfl⟩
    · obtain ⟨rfl, -⟩ := mk.inj (mem_singleton.1 hq)
      exact absurd rfl hi
  · rintro ⟨q, hq, rfl⟩
    exact ⟨q, mem_append_left _ hq, rfl⟩

theorem movesOf_append_self (x y : Simple) :
    MovesOf (found ++ [(p, x)]) p.combDeclIdx y ↔ MovesOf found p.combDeclIdx y ∨ y = x := by
  constructor
  · rintro ⟨q, hq, hcomb⟩
    rcases mem_append.1 hq with hq | hq
    · exact .inl ⟨q, hq, hcomb⟩
    · exact .inr (mk.inj (mem_singleton.1 hq)).2
  · rintro (⟨q, hq, hcomb⟩ | rfl)
    · exact ⟨q, mem_append_left _ hq, hcomb⟩
    · exact ⟨p, mem_append_right _ (mem_singleton_self _), rfl⟩

open Classical in
theorem leftOf_append_of_ne (hi : p.combDeclIdx ≠ i) (x : Simple) (statements : List Simple) :
    leftOf (found ++ [(p, x)]) i statements = leftOf found i statements :=
  filter_congr fun y _ => decide_eq_decide.2 (not_congr (movesOf_append_of_ne hi x y))

open Classical in
theorem leftOf_append_self
    (hleft : leftOf found p.combDeclIdx statements = pre ++ x :: post) (honce : x ∉ pre ++ post) :
    leftOf (found ++ [(p, x)]) p.combDeclIdx statements = pre ++ post := by
  have hfilter : leftOf (found ++ [(p, x)]) p.combDeclIdx statements =
      (leftOf found p.combDeclIdx statements).filter fun y => decide (y ≠ x) := by
    unfold leftOf
    rw [filter_filter]
    refine filter_congr fun y _ => ?_
    rw [← Bool.decide_and, decide_eq_decide, movesOf_append_self, not_or, and_comm]
  have hkeep : ∀ ys : List Simple, x ∉ ys → ys.filter (fun y => decide (y ≠ x)) = ys := by
    intro ys hys
    exact filter_eq_self.2 fun y hy => decide_eq_true fun h => hys (h ▸ hy)
  rw [hfilter, hleft, filter_append, filter_cons_of_neg (by simp),
    hkeep pre fun h => honce (mem_append_left _ h),
    hkeep post fun h => honce (mem_append_right _ h)]

theorem hoistedDecl_append_of_ne (hi : p.combDeclIdx ≠ i) (x : Simple) (d : Declaration) :
    hoistedDecl (MovesOf (found ++ [(p, x)])) hoisted i d =
      hoistedDecl (MovesOf found) hoisted i d := by
  cases d with
  | comb statements => exact congrArg comb (leftOf_append_of_ne hi x statements)
  | ff statements => rfl
  | inst settle event => rfl

open Classical in
theorem not_mem_of_leftOf {pre' post' : List Simple}
    (hd : declarations[i]? = some (.comb statements))
    (hmovable : Movable isLet declarations i k pre' x post')
    (hleft : leftOf found i statements = pre ++ x :: post) : x ∉ pre ++ post := by
  obtain rfl := comb.inj (Option.some.inj (hd.symm.trans hmovable.source))
  have hsublist : (pre ++ x :: post).Sublist (pre' ++ x :: post') := by
    rw [← hleft]
    exact filter_sublist
  have hcount := hsublist.count_le x
  have hzero : List.count x (pre' ++ post') = 0 := count_eq_zero.2 hmovable.not_mem
  rw [count_append] at hzero
  rw [count_append, count_append, count_cons_self, count_cons_self] at hcount
  refine count_eq_zero.1 ?_
  rw [count_append]
  omega

theorem extractPlan_comb {xs : List Simple} (h : st.2[p.combDeclIdx]? = some (.comb xs)) :
    extractPlan st p =
      match extractTopLevelAssign p.varId xs with
      | some (x, kept) => (st.1 ++ [x], st.2.set p.combDeclIdx (.comb kept))
      | none => st := by
  unfold extractPlan
  split
  · next statements hcomb =>
      obtain rfl := comb.inj (Option.some.inj (hcomb.symm.trans h))
      rfl
  · next hcomb => exact absurd h (hcomb xs)

theorem extractPlan_other
    (h : ∀ xs, st.2[p.combDeclIdx]? ≠ some (.comb xs)) : extractPlan st p = st := by
  unfold extractPlan
  split
  · exact absurd ‹_› (h _)
  · rfl

theorem plannedAssigns_comb (hd : declarations[p.combDeclIdx]? = some (.comb statements)) :
    plannedAssigns declarations done [p] =
      ((statements.filter (assigns p.varId))[countPlans done p.combDeclIdx p.varId]?).toList.map
        fun x => (p, x) := by
  rw [plannedAssigns, hd, plannedAssigns, append_nil]

theorem plannedAssigns_other
    (h : ∀ statements, declarations[p.combDeclIdx]? ≠ some (.comb statements)) :
    plannedAssigns declarations done [p] = [] := by
  rw [plannedAssigns, plannedAssigns, append_nil]
  split
  · exact absurd ‹_› (h _)
  · rfl

section

variable (h : Applied declarations done found hoisted k taken current)

include h

theorem Applied.skip (hnone : ∀ statements, declarations[p.combDeclIdx]? = some (.comb statements) →
      (leftOf found p.combDeclIdx statements).filter (assigns p.varId) = []) :
    Applied declarations (done ++ [p]) found hoisted k taken current := by
  refine ⟨h.eq_mapIdx, h.mem_found, fun i statements hi varId => ?_⟩
  rw [h.left i statements hi varId, countPlans_append]
  by_cases hp : p.combDeclIdx = i ∧ p.varId = varId
  · obtain ⟨rfl, rfl⟩ := hp
    have hdrop := hnone statements hi
    rw [h.left _ statements hi p.varId] at hdrop
    rw [if_pos ⟨rfl, rfl⟩, ← drop_drop, hdrop, drop_nil]
  · rw [if_neg hp, Nat.add_zero]

theorem Applied.take (hff : p.ffDeclIdx = k)
    (hd : declarations[p.combDeclIdx]? = some (.comb statements))
    (hleft : leftOf found p.combDeclIdx statements = pre ++ x :: post)
    (hassigns : assigns p.varId x = true) (hpre : pre.filter (assigns p.varId) = [])
    (honce : x ∉ pre ++ post) :
    Applied declarations (done ++ [p]) (found ++ [(p, x)]) hoisted k (taken ++ [x])
      (current.set p.combDeclIdx (.comb (pre ++ post))) := by
  have hnew := leftOf_append_self hleft honce
  refine ⟨ext_getElem? fun i => ?_, fun j y => ?_, fun i statements' hi varId => ?_⟩
  · rw [getElem?_set, h.eq_mapIdx, getElem?_mapIdx, getElem?_mapIdx, length_mapIdx]
    by_cases hip : p.combDeclIdx = i
    · subst hip
      obtain ⟨hlt, -⟩ := List.getElem?_eq_some_iff.1 hd
      rw [if_pos rfl, if_pos hlt, hd, ← hnew]
      rfl
    · rw [if_neg hip]
      cases declarations[i]? with
      | none => rfl
      | some d => exact congrArg some (hoistedDecl_append_of_ne hip x d).symm
  · constructor
    · rintro ⟨q, hq, hqj⟩
      rcases mem_append.1 hq with hq | hq
      · exact ((h.mem_found j y).1 ⟨q, hq, hqj⟩).imp_right
          (And.imp_right (mem_append_left _))
      · obtain ⟨rfl, rfl⟩ := mk.inj (mem_singleton.1 hq)
        exact .inr ⟨hqj.symm.trans hff, mem_append_right _ (mem_singleton_self _)⟩
    · intro hy
      have hold : y ∈ hoisted j ∨ j = k ∧ y ∈ taken →
          ∃ q, (q, y) ∈ found ++ [(p, x)] ∧ q.ffDeclIdx = j := fun hy => by
        obtain ⟨q, hq, hqj⟩ := (h.mem_found j y).2 hy
        exact ⟨q, mem_append_left _ hq, hqj⟩
      rcases hy with hy | ⟨rfl, hy⟩
      · exact hold (.inl hy)
      · rcases mem_append.1 hy with hy | hy
        · exact hold (.inr ⟨rfl, hy⟩)
        · obtain rfl := mem_singleton.1 hy
          exact ⟨p, mem_append_right _ (mem_singleton_self _), hff⟩
  · rw [countPlans_append]
    by_cases hip : p.combDeclIdx = i
    · subst hip
      obtain rfl := comb.inj (Option.some.inj (hd.symm.trans hi))
      have hdrop := h.left _ statements hd varId
      rw [hleft, filter_append] at hdrop
      rw [hnew, filter_append]
      by_cases hvar : p.varId = varId
      · subst hvar
        rw [hpre, filter_cons_of_pos hassigns, nil_append] at hdrop
        rw [if_pos ⟨rfl, rfl⟩, ← drop_drop, ← hdrop, hpre]
        rfl
      · have hother : ¬assigns varId x = true := fun hx =>
          hvar (Option.some.inj ((of_decide_eq_true hassigns).symm.trans (of_decide_eq_true hx)))
        rw [filter_cons_of_neg hother] at hdrop
        rw [if_neg fun hp => hvar hp.2, Nat.add_zero, hdrop]
    · rw [leftOf_append_of_ne hip, if_neg fun hp => hip hp.1, Nat.add_zero,
        h.left i statements' hi varId]

theorem Applied.plan (hff : p.ffDeclIdx = k)
    (hmove : ∀ y ∈ plannedAssigns declarations done [p], CanMove isLet declarations y.1 y.2) :
    Applied declarations (done ++ [p]) (found ++ plannedAssigns declarations done [p]) hoisted k
      (extractPlan (taken, current) p).1 (extractPlan (taken, current) p).2 := by
  have hcurrent : current[p.combDeclIdx]? = declarations[p.combDeclIdx]?.map
      (hoistedDecl (MovesOf found) hoisted p.combDeclIdx) := by
    rw [h.eq_mapIdx, getElem?_mapIdx]
  by_cases hcomb : ∃ statements, declarations[p.combDeclIdx]? = some (.comb statements)
  · obtain ⟨statements, hd⟩ := hcomb
    have hcurrent : current[p.combDeclIdx]? =
        some (.comb (leftOf found p.combDeclIdx statements)) := by
      rw [hcurrent, hd]
      rfl
    have hhead : ((leftOf found p.combDeclIdx statements).filter (assigns p.varId)).head? =
        (statements.filter (assigns p.varId))[countPlans done p.combDeclIdx p.varId]? := by
      rw [h.left _ statements hd p.varId, head?_drop]
    rw [plannedAssigns_comb hd, ← hhead] at hmove ⊢
    rw [extractPlan_comb hcurrent]
    rcases extractTopLevelAssign_spec p.varId (leftOf found p.combDeclIdx statements) with
      ⟨hextract, hnone⟩ | ⟨pre, x, post, hleft, hextract, hassigns, hpre⟩
    · rw [hextract, hnone]
      show Applied declarations (done ++ [p]) (found ++ []) hoisted k taken current
      rw [append_nil]
      refine h.skip fun statements' hd' => ?_
      obtain rfl := comb.inj (Option.some.inj (hd.symm.trans hd'))
      exact hnone
    · have hfirst : ((leftOf found p.combDeclIdx statements).filter (assigns p.varId)).head? =
          some x := by
        rw [hleft, filter_append, hpre, filter_cons_of_pos hassigns]
        rfl
      rw [hfirst] at hmove ⊢
      rw [hextract]
      obtain ⟨pre', post', hmovable⟩ := hmove (p, x) (mem_singleton_self _)
      exact h.take hff hd hleft hassigns hpre (not_mem_of_leftOf hd hmovable hleft)
  · have hne : ∀ statements, declarations[p.combDeclIdx]? ≠ some (.comb statements) :=
      fun statements hd => hcomb ⟨statements, hd⟩
    have hcurrent : ∀ xs, current[p.combDeclIdx]? ≠ some (.comb xs) := by
      intro xs hxs
      rw [hcurrent] at hxs
      obtain ⟨d, hd, hxs⟩ := Option.map_eq_some_iff.1 hxs
      cases d with
      | comb statements => exact hne statements hd
      | ff statements => exact nomatch hxs
      | inst settle event => exact nomatch hxs
    rw [plannedAssigns_other hne, append_nil, extractPlan_other hcurrent]
    exact h.skip fun statements hd => absurd hd (hne statements)

end

end Plan

theorem Applied.plans (items : List HoistPlan)
    (h : Applied declarations done found hoisted k st.1 st.2)
    (hff : ∀ p ∈ items, p.ffDeclIdx = k)
    (hmove : ∀ y ∈ plannedAssigns declarations done items, CanMove isLet declarations y.1 y.2) :
    Applied declarations (done ++ items) (found ++ plannedAssigns declarations done items) hoisted k
      (items.foldl extractPlan st).1 (items.foldl extractPlan st).2 := by
  induction items generalizing done found st with
  | nil =>
    rw [append_nil, plannedAssigns, append_nil]
    exact h
  | cons p items ih =>
    have hsplit : plannedAssigns declarations done (p :: items) =
        plannedAssigns declarations done [p] ++ plannedAssigns declarations (done ++ [p]) items :=
      plannedAssigns_append declarations done [p] items
    rw [hsplit] at hmove ⊢
    rw [append_cons, ← append_assoc]
    refine ih ?_ (fun q hq => hff q (mem_cons_of_mem _ hq))
      fun y hy => hmove y (mem_append_right _ hy)
    exact h.plan (hff p (mem_cons_self ..)) fun y hy =>
      hmove y (mem_append_left _ hy)

theorem injectIntoFfBody_nil (stmts : List Statement) : injectIntoFfBody stmts [] = stmts := by
  match stmts with
  | [] => rfl
  | .simple x :: rest => rfl
  | .ifReset trueSide falseSide :: rest => rfl

theorem hoistedDecl_update (moves : ℕ → Simple → Prop) (hoisted : ℕ → List Simple)
    (found : List Simple) (hi : i ≠ k) (d : Declaration) :
    hoistedDecl moves (Function.update hoisted k found) i d = hoistedDecl moves hoisted i d := by
  cases d with
  | comb statements => rfl
  | inst settle event => rfl
  | ff statements => simp only [hoistedDecl, update_of_ne hi]

theorem mapIdx_update (moves : ℕ → Simple → Prop) (hk : hoisted k = []) (found : List Simple) :
    (match (declarations.mapIdx (hoistedDecl moves hoisted))[k]? with
      | some (.ff statements) =>
        (declarations.mapIdx (hoistedDecl moves hoisted)).set k
          (.ff (injectIntoFfBody statements found))
      | _ => declarations.mapIdx (hoistedDecl moves hoisted)) =
      declarations.mapIdx (hoistedDecl moves (Function.update hoisted k found)) := by
  rw [getElem?_mapIdx]
  have hother : (∀ d, declarations[k]? = some d → hoistedDecl moves hoisted k d =
      hoistedDecl moves (Function.update hoisted k found) k d) →
      declarations.mapIdx (hoistedDecl moves hoisted) =
        declarations.mapIdx (hoistedDecl moves (Function.update hoisted k found)) := by
    intro hsame
    refine mapIdx_congr fun i d hi => ?_
    by_cases hik : i = k
    · subst hik
      exact hsame d hi
    · exact (hoistedDecl_update moves hoisted found hik d).symm
  cases hd : declarations[k]? with
  | none => exact hother fun d hd' => by rw [hd] at hd'; exact nomatch hd'
  | some d =>
    cases d with
    | comb statements =>
      exact hother fun d hd' => by obtain rfl := Option.some.inj (hd.symm.trans hd'); rfl
    | inst settle event =>
      exact hother fun d hd' => by obtain rfl := Option.some.inj (hd.symm.trans hd'); rfl
    | ff statements =>
      simp only [Option.map_some, hoistedDecl, hk, injectIntoFfBody_nil]
      refine ext_getElem? fun i => ?_
      rw [getElem?_set, getElem?_mapIdx, getElem?_mapIdx, length_mapIdx]
      by_cases hik : k = i
      · subst hik
        obtain ⟨hlt, -⟩ := List.getElem?_eq_some_iff.1 hd
        rw [if_pos rfl, if_pos hlt, hd]
        simp [hoistedDecl]
      · rw [if_neg hik]
        cases declarations[i]? with
        | none => rfl
        | some d =>
          exact congrArg some (hoistedDecl_update moves hoisted found (fun h => hik h.symm) d).symm

variable {plans : List HoistPlan}

theorem Applied.group {k' : ℕ}
    (hk : hoisted k = []) (h : Applied declarations done found hoisted k' [] current)
    (hmove : ∀ y ∈ plannedAssigns declarations done
      (plans.filter fun p => p.varKind = .letKind ∧ p.ffDeclIdx = k),
      CanMove isLet declarations y.1 y.2) :
    ∃ taken, Applied declarations
      (done ++ plans.filter fun p => p.varKind = .letKind ∧ p.ffDeclIdx = k)
      (found ++ plannedAssigns declarations done
        (plans.filter fun p => p.varKind = .letKind ∧ p.ffDeclIdx = k))
      (Function.update hoisted k taken) k' [] (applyGroup plans current k) := by
  have hitems : ∀ p ∈ plans.filter fun p => p.varKind = .letKind ∧ p.ffDeclIdx = k,
      p.ffDeclIdx = k := fun p hp => (of_decide_eq_true (mem_filter.1 hp).2).2
  let start : List Simple × List Declaration := ([], current)
  have hstart : Applied declarations done found hoisted k start.1 start.2 := by
    refine ⟨h.eq_mapIdx, fun j x => (h.mem_found j x).trans ?_, h.left⟩
    exact or_congr_right ⟨fun hx => absurd hx.2 not_mem_nil, fun hx => absurd hx.2 not_mem_nil⟩
  have hdone := hstart.plans _ hitems hmove
  refine ⟨((plans.filter fun p => p.varKind = .letKind ∧ p.ffDeclIdx = k).foldl
      extractPlan start).1, ?_, fun j x => (hdone.mem_found j x).trans ?_, hdone.left⟩
  · rw [← mapIdx_update _ hk, ← hdone.eq_mapIdx]
    rfl
  · by_cases hj : j = k
    · subst hj
      rw [update_self, hk]
      simp
    · rw [update_of_ne hj]
      simp [hj]

theorem Applied.groups (ffOrder : List ℕ) (hnodup : ffOrder.Nodup)
    (hk : ∀ k ∈ ffOrder, hoisted k = [])
    (h : Applied declarations done found hoisted 0 [] current)
    (hmove : ∀ y ∈ plannedAssigns declarations done (letPlans plans ffOrder),
      CanMove isLet declarations y.1 y.2) :
    ∃ hoisted', Applied declarations (done ++ letPlans plans ffOrder)
      (found ++ plannedAssigns declarations done (letPlans plans ffOrder))
      hoisted' 0 [] (applyHoists plans ffOrder current) := by
  induction ffOrder generalizing done found hoisted current with
  | nil =>
    refine ⟨hoisted, ?_⟩
    rw [letPlans, flatMap_nil, append_nil, plannedAssigns, append_nil]
    exact h
  | cons k ffOrder ih =>
    obtain ⟨hnot, hnodup⟩ := nodup_cons.1 hnodup
    have hsplit : letPlans plans (k :: ffOrder) =
        plans.filter (fun p => p.varKind = .letKind ∧ p.ffDeclIdx = k) ++
          letPlans plans ffOrder := flatMap_cons
    rw [hsplit, plannedAssigns_append] at hmove ⊢
    rw [← append_assoc, ← append_assoc]
    obtain ⟨taken, hgroup⟩ := h.group (hk k (mem_cons_self ..)) fun y hy =>
      hmove y (mem_append_left _ hy)
    refine ih hnodup (fun j hj => ?_) hgroup fun y hy => hmove y (mem_append_right _ hy)
    have hjk : j ≠ k := fun hjk => hnot (hjk ▸ hj)
    rw [update_of_ne hjk]
    exact hk j (mem_cons_of_mem _ hj)

/-- An element that the assignment of a plan writes. -/
def Moved (declarations : List Declaration) (plans : List HoistPlan) (ffOrder : List ℕ)
    (e : Element) : Prop :=
  ∃ y ∈ plannedAssigns declarations [] (letPlans plans ffOrder), e ∈ y.2.action.writes

open Classical in
theorem mapIdx_hoistedDecl_nil :
    declarations.mapIdx (hoistedDecl (MovesOf []) fun _ => []) = declarations := by
  have hnot : ∀ i x, ¬MovesOf [] i x := fun i x ⟨p, hp, _⟩ => absurd hp not_mem_nil
  refine ext_getElem? fun i => ?_
  rw [getElem?_mapIdx]
  cases declarations[i]? with
  | none => rfl
  | some d =>
    refine congrArg some ?_
    cases d with
    | inst settle event => rfl
    | ff statements => exact congrArg ff (injectIntoFfBody_nil statements)
    | comb statements =>
      exact congrArg comb (filter_eq_self.2 fun x _ => decide_eq_true (hnot i x))

open Classical in
theorem applyHoists_spec {ffOrder : List ℕ} (hnodup : ffOrder.Nodup)
    (hmove : ∀ y ∈ plannedAssigns declarations [] (letPlans plans ffOrder),
      CanMove isLet declarations y.1 y.2) :
    ∃ moves hoisted, MovedTo isLet declarations moves hoisted ∧
      applyHoists plans ffOrder declarations = declarations.mapIdx (hoistedDecl moves hoisted) ∧
      WrittenBy hoisted = Moved declarations plans ffOrder := by
  have hstart : Applied declarations [] [] (fun _ => []) 0 [] declarations := by
    refine ⟨mapIdx_hoistedDecl_nil.symm, fun j x => ?_, fun i statements hi varId => ?_⟩
    · simp
    · have hnot : ∀ x, ¬MovesOf [] i x := fun x ⟨p, hp, _⟩ => absurd hp not_mem_nil
      rw [leftOf, filter_eq_self.2 fun x _ => decide_eq_true (hnot x)]
      rfl
  obtain ⟨hoisted, happlied⟩ := hstart.groups ffOrder hnodup (fun _ _ => rfl) hmove
  rw [nil_append, nil_append] at happlied
  have hfound : ∀ j x, x ∈ hoisted j ↔
      ∃ p, (p, x) ∈ plannedAssigns declarations [] (letPlans plans ffOrder) ∧
        p.ffDeclIdx = j := fun j x => by simp [happlied.mem_found j x]
  refine ⟨MovesOf (plannedAssigns declarations [] (letPlans plans ffOrder)), hoisted,
    ⟨fun k x hx => ?_, fun i statements x hi hx ⟨p, hp, _⟩ => ?_⟩, happlied.eq_mapIdx, ?_⟩
  · obtain ⟨p, hp, rfl⟩ := (hfound k x).1 hx
    obtain ⟨pre, post, hmovable⟩ := hmove (p, x) hp
    exact ⟨p.combDeclIdx, pre, post, ⟨p, hp, rfl⟩, hmovable⟩
  · exact ⟨p.ffDeclIdx, (hfound _ x).2 ⟨p, hp, rfl⟩⟩
  · ext e
    constructor
    · rintro ⟨k, x, hx, he⟩
      obtain ⟨p, hp, -⟩ := (hfound k x).1 hx
      exact ⟨(p, x), hp, he⟩
    · rintro ⟨⟨p, x⟩, hp, he⟩
      exact ⟨p.ffDeclIdx, x, (hfound _ x).2 ⟨p, hp, rfl⟩, he⟩

end Apply

/-- When every let assignment that a plan is for can move to the always_ff of the
plan, the module and the module with its hoists have the same runs. -/
theorem hoists_keep_runs (isLet : VarId → Bool) (declarations : List Declaration)
    (ffTable : FfTable) (vars : VarId → Option Variable) (entries : List Element)
    (wholes : List VarId) (ffOrder : List ℕ) (hnodup : ffOrder.Nodup)
    (hmove : ∀ y ∈ plannedAssigns declarations []
      (letPlans (planHoists declarations ffTable vars entries wholes) ffOrder),
      CanMove isLet declarations y.1 y.2) :
    let plans := planHoists declarations ffTable vars entries wholes
    let after := applyHoists plans ffOrder declarations
    let moved := Moved declarations plans ffOrder
    (∀ s', Settled after s' → ∃ s, Settled declarations s ∧ Off moved s s') ∧
      ∀ s s', Settled declarations s → Off moved s s' → Settled after s' ∧
        (∀ tr, Run isLet declarations s tr →
          ∃ tr', Run isLet after s' tr' ∧ SameRun isLet after moved s s' tr tr') ∧
        ∀ tr', Run isLet after s' tr' →
          ∃ tr, Run isLet declarations s tr ∧ SameRun isLet after moved s s' tr tr' := by
  intro plans after moved
  obtain ⟨moves, hoisted, h, hafter, hmoved⟩ := applyHoists_spec hnodup hmove
  have hafter : after = declarations.mapIdx (hoistedDecl moves hoisted) := hafter
  have hmoved : moved = WrittenBy hoisted := hmoved.symm
  rw [hafter, hmoved]
  exact ⟨fun s' hs' => exists_restored h hs', fun s s' hs hoff => ⟨settled_hoisted h hs hoff,
    fun tr hrun => run_hoisted h tr hs hoff hrun, fun tr' hrun => run_restored h tr' hs hoff hrun⟩⟩

/-- An assignment of elements by elements. -/
def copy (dst : List VarId) (pairs : List (Element × Element)) : Simple where
  dst := dst
  action := {
    reads := pairs.map Prod.snd
    writes := pairs.map Prod.fst
    run := fun s e => (pairs.find? fun p => p.1 = e).map fun p => s p.2
    run_congr := fun s s' h => by
      ext1 e
      cases hp : pairs.find? fun p => p.1 = e with
      | none => rfl
      | some p =>
        exact congrArg some (h p.2 (mem_map_of_mem (mem_of_find?_eq_some hp)))
    run_writes := fun s e he => by
      rw [find?_eq_none.2 fun p hp hpe => he ?_]
      · rfl
      · exact mem_map.2 ⟨p, hp, of_decide_eq_true hpe⟩ }

theorem combStep_copy {dst : List VarId} {pairs : List (Element × Element)} {s : State}
    (h : ∀ p ∈ pairs, s p.1 = s p.2) : combStep s (copy dst pairs) = s := by
  ext1 e
  show ((pairs.find? fun p => p.1 = e).map fun p => s p.2).getD (s e) = s e
  cases hp : pairs.find? fun p => p.1 = e with
  | none => rfl
  | some p =>
    have he : p.1 = e := by simpa using find?_some hp
    show s p.2 = s e
    rw [← h p (mem_of_find?_eq_some hp), he]

/-- A let variable that one always_ff reads. -/
def oneReader : List Declaration :=
  [.comb [copy [0] [((0, 0), (1, 0))]], .ff [.simple (copy [2] [((2, 0), (0, 0))])]]

def oneReaderTable : FfTable :=
  Registers.gather false [.refered 1 0 ⟨0, some (0, some 0, 1), 1, false⟩, .assignedComb 0 0 0,
    .refered 0 0 ⟨1, some (2, some 0, 1), 1, true⟩, .assigned 2 0 1]

/-- The elements of an array let variable are read in two always_ff. -/
def twoReaders : List Declaration :=
  [.comb [copy [0] [((0, 0), (1, 0)), ((0, 1), (1, 1))]],
    .ff [.simple (copy [2] [((2, 0), (0, 0))])],
    .ff [.simple (copy [3] [((3, 0), (0, 1))])]]

def twoReadersTable : FfTable :=
  Registers.gather false [.refered 1 0 ⟨0, some (0, none, 1), 1, false⟩,
    .refered 1 1 ⟨0, some (0, none, 1), 1, false⟩, .assignedCombWhole 0 2 0,
    .refered 0 0 ⟨1, some (2, some 0, 1), 1, true⟩, .assigned 2 0 1,
    .refered 0 1 ⟨2, some (3, some 0, 1), 1, true⟩, .assigned 3 0 2]

def readersVars : VarId → Option Variable
  | 0 => some ⟨.letKind, false⟩
  | _ => some ⟨.variableKind, false⟩

def readersIsLet (varId : VarId) : Bool := varId == 0

/-- Every block is clocked, and the inputs become five. -/
def readersEvent : Event where
  clocked _ := true
  reset _ := false
  input e := if e = (1, 0) ∨ e = (1, 1) then some 5 else none

def readersPlans : List HoistPlan :=
  planHoists twoReaders twoReadersTable readersVars
    [(1, 0), (1, 1), (0, 0), (0, 1), (2, 0), (3, 0)] [0]

/-- What settles in the module with two readers when the inputs are five. -/
def readersNext (s : State) : State := fun e =>
  if e = (0, 0) ∨ e = (0, 1) then 5
  else (readersEvent.input e).getD (readersEvent.result readersIsLet twoReaders s e)

theorem step_readersNext (s : State) :
    Step readersIsLet twoReaders readersEvent s (readersNext s) := by
  refine ⟨fun d hd => ?_, fun e he => ?_⟩
  · simp only [twoReaders, mem_cons, not_mem_nil, or_false] at hd
    rcases hd with rfl | rfl | rfl
    · refine combStep_copy fun p hp => ?_
      simp only [mem_cons, not_mem_nil, or_false] at hp
      rcases hp with rfl | rfl
      · rfl
      · rfl
    · rfl
    · rfl
  · refine if_neg fun h => he ⟨_, mem_cons_self .., _, mem_singleton_self _, ?_⟩
    rcases h with rfl | rfl
    · exact mem_cons_self ..
    · exact mem_cons_of_mem _ (mem_cons_self ..)

/-- The array is assigned in one of the blocks only, and the other one reads
what it was an event before. -/
theorem hoists_change_runs : Settled twoReaders (fun _ => 0) ∧
    Run readersIsLet twoReaders (fun _ => 0) [(readersEvent, readersNext fun _ => 0),
        (readersEvent, readersNext (readersNext fun _ => 0))] ∧
    readersNext (readersNext fun _ => 0) (2, 0) = 5 ∧
    ∀ t t', Run readersIsLet (applyHoists readersPlans [2, 1] twoReaders) (fun _ => 0)
      [(readersEvent, t), (readersEvent, t')] → t' (2, 0) = 0 := by
  refine ⟨fun d hd => ?_, ⟨step_readersNext _, step_readersNext _, trivial⟩, rfl,
    fun t t' hrun => ?_⟩
  · simp only [twoReaders, mem_cons, not_mem_nil, or_false] at hd
    rcases hd with rfl | rfl | rfl
    · exact combStep_copy fun p _ => rfl
    · rfl
    · rfl
  · obtain ⟨⟨-, ht⟩, ⟨-, ht'⟩, -⟩ := hrun
    have hall : (applyHoists readersPlans [2, 1] twoReaders).all
        (fun d => d.settled.isEmpty) = true := rfl
    have hdriven : ∀ e, ¬Driven (applyHoists readersPlans [2, 1] twoReaders) e := by
      rintro e ⟨d, hd, x, hx, -⟩
      rw [List.isEmpty_iff.1 (all_eq_true.1 hall d hd)] at hx
      exact absurd hx not_mem_nil
    obtain rfl : t = _ := funext fun e => ht e (hdriven e)
    rw [ht' (2, 0) (hdriven _)]
    rfl

theorem oneReader_movable : Movable readersIsLet oneReader 0 1 []
    (copy [0] [((0, 0), (1, 0))]) [] where
  source := rfl
  target := ⟨_, rfl⟩
  readers j d hj hd y hy e he := by
    obtain _ | _ | j := j
    · obtain rfl := Option.some.inj hd
      obtain rfl := mem_singleton.1 hy
      obtain rfl := mem_singleton.1 he
      decide
    · exact absurd rfl hj
    · cases hd
  writers j d hj hd y hy e he := by
    obtain _ | _ | j := j
    · exact absurd rfl hj
    · obtain rfl := Option.some.inj hd
      obtain rfl : y = copy [2] [((2, 0), (0, 0))] := by
        simpa [statements, Statement.side] using hy
      obtain rfl := mem_singleton.1 he
      decide
    · cases hd
  alone y hy := absurd hy not_mem_nil
  nonempty := cons_ne_nil _ _
  operands y hy := absurd hy not_mem_nil
  assigns s e he := by
    obtain rfl := mem_singleton.1 he
    exact ⟨s (1, 0), rfl⟩
  blocking e he := by
    obtain rfl := mem_singleton.1 he
    rfl
  ffLets j d reset hd y hy e he hlet := by
    obtain _ | _ | j := j
    · obtain rfl := Option.some.inj hd
      exact absurd hy not_mem_nil
    · obtain rfl := Option.some.inj hd
      obtain rfl : y = copy [2] [((2, 0), (0, 0))] := by
        simpa [clocked, Statement.side] using hy
      obtain rfl := mem_singleton.1 he
      cases hlet
    · cases hd

def oneReaderPlans : List HoistPlan :=
  planHoists oneReader oneReaderTable readersVars [(1, 0), (0, 0), (2, 0)] []

theorem oneReader_keeps_runs : plannedAssigns oneReader [] (letPlans oneReaderPlans [1]) =
      [(⟨0, 0, 0, 1, .letKind⟩, copy [0] [((0, 0), (1, 0))])] ∧
    ∀ tr, Run readersIsLet oneReader (fun _ => 0) tr →
      ∃ tr', Run readersIsLet (applyHoists oneReaderPlans [1] oneReader) (fun _ => 0) tr' ∧
        SameRun readersIsLet (applyHoists oneReaderPlans [1] oneReader)
          (Moved oneReader oneReaderPlans [1]) (fun _ => 0) (fun _ => 0) tr tr' := by
  have hplanned : plannedAssigns oneReader [] (letPlans oneReaderPlans [1]) =
      [(⟨0, 0, 0, 1, .letKind⟩, copy [0] [((0, 0), (1, 0))])] := rfl
  have hmove : ∀ y ∈ plannedAssigns oneReader [] (letPlans oneReaderPlans [1]),
      CanMove readersIsLet oneReader y.1 y.2 := by
    intro y hy
    rw [hplanned] at hy
    obtain rfl := mem_singleton.1 hy
    exact ⟨[], [], oneReader_movable⟩
  have hsettled : Settled oneReader fun _ => 0 := by
    intro d hd
    simp only [oneReader, mem_cons, not_mem_nil, or_false] at hd
    rcases hd with rfl | rfl
    · exact combStep_copy fun p _ => rfl
    · rfl
  obtain ⟨-, hruns⟩ := hoists_keep_runs readersIsLet oneReader oneReaderTable readersVars
    [(1, 0), (0, 0), (2, 0)] [] [1] (by decide) hmove
  exact ⟨hplanned, (hruns _ _ hsettled fun e _ => rfl).2.1⟩

end Veryl.Analyzer.Hoist
