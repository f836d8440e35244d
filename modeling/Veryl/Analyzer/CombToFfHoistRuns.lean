import Veryl.Analyzer.CombToFfHoist

/-!
A module and the module with its hoists have the same runs, when everything that
reads a moved assignment is in the always_ff block it is moved to.
-/

namespace Veryl.Analyzer.Hoist

open List Option
open Statement (side)

open Registers (VarId)

variable {e : Element} {d : Declaration} {x : Simple} {j : ℕ} {y : Simple} {reset : Bool} {k : ℕ}
  {st st' : EventState} {i : ℕ} {ev : Event}

/-- Agreement on the elements outside a set. -/
def Off (P : Element → Prop) (s s' : State) : Prop := ∀ e, ¬P e → s e = s' e

/-- Every statement of a declaration. -/
def Declaration.statements : Declaration → List Simple
  | comb statements => statements
  | ff statements => statements.flatMap fun stmt => stmt.side true ++ stmt.side false
  | inst settle event => settle ++ event

theorem mem_statements_of_clocked (h : x ∈ d.clocked reset) : x ∈ d.statements := by
  cases d with
  | comb statements => exact absurd h not_mem_nil
  | inst settle event => exact mem_append_right _ h
  | ff statements =>
    obtain ⟨stmt, hstmt, hx⟩ := mem_flatMap.1 h
    refine mem_flatMap.2 ⟨stmt, hstmt, ?_⟩
    cases reset with
    | true => exact mem_append_left _ hx
    | false => exact mem_append_right _ hx

section Blocks

variable {P : Element → Prop}

theorem combRun_of_not_written {xs : List Simple}
    (h : ∀ x ∈ xs, e ∉ x.action.writes) (s : State) : combRun s xs e = s e := by
  induction xs generalizing s with
  | nil => rfl
  | cons x xs ih =>
    refine (ih (fun y hy => h y (mem_cons_of_mem _ hy)) (combStep s x)).trans ?_
    unfold combStep
    rw [x.action.run_writes s e (h x (mem_cons_self ..))]
    rfl

theorem combRun_append (s : State) (xs ys : List Simple) :
    combRun s (xs ++ ys) = combRun (combRun s xs) ys := foldl_append

theorem combRun_filter (keep : Simple → Bool) (xs : List Simple)
    (hreads : ∀ x ∈ xs, keep x = true → ∀ e ∈ x.action.reads, ¬P e)
    (hmoved : ∀ x ∈ xs, keep x = false → ∀ e ∈ x.action.writes, P e) {s s' : State}
    (h : Off P s s') : Off P (combRun s xs) (combRun s' (xs.filter keep)) := by
  induction xs generalizing s s' with
  | nil => exact h
  | cons x xs ih =>
    have hrest := fun {s s'} => @ih (fun y hy => hreads y (mem_cons_of_mem _ hy))
      (fun y hy => hmoved y (mem_cons_of_mem _ hy)) s s'
    cases hkeep : keep x with
    | true =>
      rw [filter_cons_of_pos hkeep]
      refine hrest fun e he => ?_
      have hrun := x.action.run_congr s s' fun r hr =>
        h r (hreads x (mem_cons_self ..) hkeep r hr)
      unfold combStep
      rw [hrun, h e he]
    | false =>
      rw [filter_cons_of_neg (by rw [hkeep]; exact Bool.false_ne_true)]
      refine hrest fun e he => ?_
      have hnot : e ∉ x.action.writes :=
        fun hin => he (hmoved x (mem_cons_self ..) hkeep e hin)
      unfold combStep
      rw [x.action.run_writes s e hnot]
      exact h e he

theorem combRun_congr (xs : List Simple) (hreads : ∀ x ∈ xs, ∀ e ∈ x.action.reads, ¬P e)
    {s s' : State} (h : Off P s s') : Off P (combRun s xs) (combRun s' xs) := by
  have hfilter := combRun_filter (fun _ => true) xs (fun x hx _ => hreads x hx)
    (fun x hx hfalse => nomatch hfalse) h
  rwa [filter_true] at hfilter

end Blocks

section Moved

variable (isLet : VarId → Bool) (declarations : List Declaration)

/-- An assignment of an always_comb that only the always_ff `ffIdx` reads and
nothing else writes, and that finds its operands as they settle. -/
structure Movable (i ffIdx : ℕ) (pre : List Simple) (x : Simple) (post : List Simple) : Prop where
  source : declarations[i]? = some (.comb (pre ++ x :: post))
  target : ∃ statements, declarations[ffIdx]? = some (.ff statements)
  readers : ∀ j d, j ≠ ffIdx → declarations[j]? = some d → ∀ y ∈ d.statements,
    ∀ e ∈ y.action.reads, e ∉ x.action.writes
  writers : ∀ j d, j ≠ i → declarations[j]? = some d → ∀ y ∈ d.statements,
    ∀ e ∈ y.action.writes, e ∉ x.action.writes
  alone : ∀ y ∈ pre ++ post, ∀ e ∈ y.action.writes, e ∉ x.action.writes
  nonempty : x.action.writes ≠ []
  operands : ∀ y ∈ post, ∀ e ∈ y.action.writes, e ∉ x.action.reads
  assigns : ∀ s, ∀ e ∈ x.action.writes, ∃ v, x.action.run s e = some v
  blocking : ∀ e ∈ x.action.writes, isLet e.1 = true
  ffLets : ∀ (j : ℕ) (d : Declaration) (reset : Bool), declarations[j]? = some d →
    ∀ y ∈ d.clocked reset, ∀ e ∈ y.action.writes, isLet e.1 = true → e ∉ x.action.reads

theorem Movable.not_mem {ffIdx : ℕ} {pre post : List Simple}
    (h : Movable isLet declarations i ffIdx pre x post) : x ∉ pre ++ post := by
  intro hx
  obtain ⟨e, he⟩ := exists_mem_of_ne_nil _ h.nonempty
  exact h.alone x hx e he he

/-- The always_comb statements that move are those of `moves`; `hoisted` has them
by the always_ff they move to. -/
structure MovedTo (moves : ℕ → Simple → Prop) (hoisted : ℕ → List Simple) : Prop where
  movable : ∀ k x, x ∈ hoisted k → ∃ i pre post, moves i x ∧
    Movable isLet declarations i k pre x post
  complete : ∀ i statements x, declarations[i]? = some (.comb statements) → x ∈ statements →
    moves i x → ∃ k, x ∈ hoisted k

end Moved

open Classical in
/-- A declaration of the module with its hoists. -/
noncomputable def hoistedDecl (moves : ℕ → Simple → Prop) (hoisted : ℕ → List Simple) (i : ℕ) :
    Declaration → Declaration
  | .comb statements => .comb (statements.filter fun x => decide ¬moves i x)
  | .ff statements => .ff (injectIntoFfBody statements (hoisted i))
  | .inst settle event => .inst settle event

/-- An element that a moved assignment writes. -/
def WrittenBy (hoisted : ℕ → List Simple) (e : Element) : Prop :=
  ∃ k, ∃ x ∈ hoisted k, e ∈ x.action.writes

section Simulation

variable {isLet : VarId → Bool} {declarations : List Declaration} {moves : ℕ → Simple → Prop}
  {hoisted : ℕ → List Simple}

variable {statements : List Simple}

theorem comb_ne_target {pre post : List Simple} (hx : Movable isLet declarations i k pre x post)
    (hj : declarations[j]? = some (.comb statements)) : j ≠ k := by
  rintro rfl
  obtain ⟨ffStatements, hff⟩ := hx.target
  rw [hj] at hff
  exact nomatch some.inj hff

theorem mem_mapIdx_hoistedDecl {d' : Declaration}
    (h : d' ∈ declarations.mapIdx (hoistedDecl moves hoisted)) :
    ∃ i d, declarations[i]? = some d ∧ d' = hoistedDecl moves hoisted i d := by
  obtain ⟨i, hi, rfl⟩ := mem_mapIdx.1 h
  exact ⟨i, declarations[i], getElem?_eq_getElem hi, rfl⟩

/-- The statements that run, each with the values it can read. -/
def reading (isLet : VarId → Bool) (st : EventState) : List Simple → List (Simple × State)
  | [] => []
  | x :: xs => (x, st.1) :: reading isLet (ffStep isLet st x) xs

theorem reading_append (st : EventState) (xs ys : List Simple) : reading isLet st (xs ++ ys) =
      reading isLet st xs ++ reading isLet (xs.foldl (ffStep isLet) st) ys := by
  induction xs generalizing st with
  | nil => rfl
  | cons x xs ih => exact congrArg ((x, st.1) :: ·) (ih (ffStep isLet st x))

theorem ffStep_of_not_written
    (h : isLet e.1 = true → e ∉ x.action.writes) : (ffStep isLet st x).1 e = st.1 e := by
  unfold ffStep
  cases he : isLet e.1 with
  | false => simp only [he, Bool.false_eq_true, if_false]
  | true => simp only [he, if_true, x.action.run_writes st.1 e (h he), getD_none]

theorem ffStep_pending
    (h : ∀ e ∈ x.action.writes, isLet e.1 = true) : (ffStep isLet st x).2 = st.2 := by
  ext1 e
  unfold ffStep
  cases he : isLet e.1 with
  | true => simp only [he, if_true]
  | false =>
    have hnot : e ∉ x.action.writes := fun hin => by simp [h e hin] at he
    simp only [he, Bool.false_eq_true, if_false, x.action.run_writes st.1 e hnot, none_or]

/-- The original event and the event with the moved assignments, while they run:
`s` is what was settled before. -/
structure Sim (hoisted : ℕ → List Simple) (s : State) (st st' : EventState) : Prop where
  off : Off (WrittenBy hoisted) st.1 st'.1
  pending : st.2 = st'.2
  moved : ∀ e, WrittenBy hoisted e → st.1 e = s e
  operands : ∀ k x, x ∈ hoisted k → ∀ r ∈ x.action.reads, st.1 r = s r

theorem flatMap_side_inject (reset : Bool) (stmts : List Statement) (hoisted : List Simple) :
    (injectIntoFfBody stmts hoisted).flatMap (side reset) =
      hoisted ++ stmts.flatMap (side reset) := by
  have hsimple : (hoisted.map Statement.simple).flatMap (side reset) = hoisted := by
    induction hoisted with
    | nil => rfl
    | cons x xs ih => exact congrArg (x :: ·) ih
  match stmts with
  | [] => rw [injectIntoFfBody, flatMap_append, hsimple]; simp
  | .simple y :: rest => rw [injectIntoFfBody, flatMap_append, hsimple]; simp
  | .ifReset trueSide falseSide :: rest =>
    cases reset <;> simp [injectIntoFfBody, side]

theorem foldl_flatten_mapIdx {R : EventState → EventState → Prop} {Q : Simple × State → Prop}
    (ds : List Declaration) (f g : ℕ → Declaration → List Simple)
    (hstep : ∀ i d, ds[i]? = some d → ∀ st st', R st st' →
      R ((f i d).foldl (ffStep isLet) st) ((g i d).foldl (ffStep isLet) st') ∧
        ∀ o ∈ reading isLet st' (g i d), Q o) (hR : R st st') :
    R ((ds.mapIdx f).flatten.foldl (ffStep isLet) st)
        ((ds.mapIdx g).flatten.foldl (ffStep isLet) st') ∧
      ∀ o ∈ reading isLet st' (ds.mapIdx g).flatten, Q o := by
  induction ds generalizing f g st st' with
  | nil => exact ⟨hR, fun o ho => absurd ho not_mem_nil⟩
  | cons d ds ih =>
    obtain ⟨hhead, hread⟩ := hstep 0 d rfl st st' hR
    obtain ⟨htail, hreads⟩ := ih (fun i => f (i + 1)) (fun i => g (i + 1))
      (fun i d hi => hstep (i + 1) d hi) hhead
    rw [mapIdx_cons, mapIdx_cons, flatten_cons, flatten_cons,
      foldl_append, foldl_append, reading_append]
    refine ⟨htail, fun o ho => ?_⟩
    rcases mem_append.1 ho with ho | ho
    · exact hread o ho
    · exact hreads o ho

section SameRun

variable (isLet : VarId → Bool) (after : List Declaration) (P : Element → Prop)

/-- The same events and the same values outside of `P`; at every event, what
reads an element of `P` reads the value that the other run settled. -/
def SameRun (s s' : State) : List (Event × State) → List (Event × State) → Prop
  | [], [] => Off P s s'
  | (ev, t) :: tr, (ev', t') :: tr' =>
    Off P s s' ∧ ev = ev' ∧ (∀ o ∈ reading isLet (s', fun _ => none) (ev.statements after),
        ∀ e ∈ o.1.action.reads, P e → o.2 e = s e) ∧
      SameRun t t' tr tr'
  | _, _ => False

end SameRun

variable (h : MovedTo isLet declarations moves hoisted)

include h

theorem MovedTo.not_read (hj : declarations[j]? = some d) (hy : y ∈ d.statements)
    (he : e ∈ y.action.reads) (hx : x ∈ hoisted k)
    (hwrites : e ∈ x.action.writes) : j = k := by
  obtain ⟨i, pre, post, -, hmovable⟩ := h.movable k x hx
  by_contra hne
  exact hmovable.readers j d hne hj y hy e he hwrites

theorem MovedTo.comb_not_read (hj : declarations[j]? = some (.comb statements))
    (hy : y ∈ statements) (he : e ∈ y.action.reads) : ¬WrittenBy hoisted e := by
  rintro ⟨k, x, hx, hwrites⟩
  obtain ⟨i, pre, post, -, hmovable⟩ := h.movable k x hx
  exact comb_ne_target hmovable hj (h.not_read hj hy he hx hwrites)

theorem MovedTo.eq_of_writes (hj : declarations[j]? = some d) (hy : y ∈ d.statements)
    (he : e ∈ y.action.writes) (hx : x ∈ hoisted k)
    (hwrites : e ∈ x.action.writes) : y = x ∧ ∃ pre post, d = .comb (pre ++ x :: post) ∧
      Movable isLet declarations j k pre x post := by
  obtain ⟨i, pre, post, -, hmovable⟩ := h.movable k x hx
  by_cases hij : j = i
  · subst hij
    have hd : d = .comb (pre ++ x :: post) := some.inj (hj.symm.trans hmovable.source)
    subst hd
    have hy : y ∈ pre ++ x :: post := hy
    refine ⟨?_, pre, post, rfl, hmovable⟩
    by_contra hne
    refine hmovable.alone y ?_ e he hwrites
    simp only [mem_append, mem_cons] at hy ⊢
    tauto
  · exact absurd hwrites (hmovable.writers j d hij hj y hy e he)

theorem MovedTo.inst_not_read
    {settle event : List Simple} (hj : declarations[j]? = some (.inst settle event))
    (hy : y ∈ settle ++ event) (he : e ∈ y.action.reads) : ¬WrittenBy hoisted e := by
  rintro ⟨k, x, hx, hwrites⟩
  obtain ⟨i, pre, post, -, hmovable⟩ := h.movable k x hx
  obtain ⟨statements, hff⟩ := hmovable.target
  have hjk := h.not_read hj hy he hx hwrites
  subst hjk
  rw [hj] at hff
  exact nomatch some.inj hff

open Classical in
theorem comb_filter_off (hi : declarations[i]? = some (.comb statements)) {s s' : State}
    (hs : Off (WrittenBy hoisted) s s') :
    Off (WrittenBy hoisted) (combRun s statements)
      (combRun s' (statements.filter fun x => decide ¬moves i x)) := by
  refine combRun_filter _ statements (fun x hx _ e he => h.comb_not_read hi hx he)
    (fun x hx hmove e he => ?_) hs
  obtain ⟨k, hk⟩ := h.complete i statements x hi hx (by simpa using hmove)
  exact ⟨k, x, hk, he⟩

open Classical in
theorem filter_not_written (hi : declarations[i]? = some (.comb statements))
    (he : WrittenBy hoisted e) :
    ∀ y ∈ statements.filter (fun x => decide ¬moves i x), e ∉ y.action.writes := by
  intro y hy hwrites
  obtain ⟨hy, hkeep⟩ := mem_filter.1 hy
  obtain ⟨k, x, hx, hxe⟩ := he
  obtain ⟨j, pre, post, hmoves, hmovable⟩ := h.movable k x hx
  obtain ⟨rfl, pre', post', hd, -⟩ := h.eq_of_writes hi hy hwrites hx hxe
  have hij : i = j := by
    by_contra hne
    exact hmovable.writers i _ hne hi y hy e hwrites hxe
  subst hij
  exact of_decide_eq_true hkeep hmoves

theorem settled_hoisted {s s' : State}
    (hs : Settled declarations s) (hoff : Off (WrittenBy hoisted) s s') :
    Settled (declarations.mapIdx (hoistedDecl moves hoisted)) s' := by
  intro d' hd'
  obtain ⟨i, d, hi, rfl⟩ := mem_mapIdx_hoistedDecl hd'
  have hd := mem_of_getElem? hi
  have hsettled := hs d hd
  cases d with
  | ff statements => rfl
  | comb statements =>
    ext e
    by_cases he : WrittenBy hoisted e
    · exact combRun_of_not_written (filter_not_written h hi he) s'
    · refine (comb_filter_off h hi hoff e he).symm.trans ?_
      rw [show combRun s statements = s from hsettled]
      exact hoff e he
  | inst settle event =>
    ext e
    by_cases he : WrittenBy hoisted e
    · refine combRun_of_not_written (fun y hy hwrites => ?_) s'
      obtain ⟨k, x, hx, hxe⟩ := he
      obtain ⟨-, pre, post, hd, -⟩ :=
        h.eq_of_writes hi (mem_append_left event hy) hwrites hx hxe
      exact nomatch hd
    · refine (combRun_congr settle (fun y hy r hr =>
        h.inst_not_read hi (mem_append_left event hy) hr) hoff e he).symm.trans ?_
      rw [show combRun s settle = s from hsettled]
      exact hoff e he

theorem run_of_settled_block {pre post : List Simple} (hx : x ∈ hoisted k)
    (hmovable : Movable isLet declarations i k pre x post) {s t : State}
    (hs : ∀ e, ¬WrittenBy hoisted e → combRun s (pre ++ x :: post) e = t e)
    (he : e ∈ x.action.writes) :
    some (combRun s (pre ++ x :: post) e) = x.action.run t e := by
  have hsplit : combRun s (pre ++ x :: post) = combRun (combStep (combRun s pre) x) post :=
    combRun_append s pre (x :: post)
  have hmem : x ∈ (Declaration.comb (pre ++ x :: post)).statements :=
    mem_append_right _ (mem_cons_self ..)
  have hrun : x.action.run (combRun s pre) = x.action.run t := by
    refine x.action.run_congr _ _ fun r hr => ?_
    have hunmoved : ¬WrittenBy hoisted r := h.comb_not_read hmovable.source hmem hr
    have hself : r ∉ x.action.writes := fun hin => hunmoved ⟨k, x, hx, hin⟩
    have hpost : ∀ y ∈ post, r ∉ y.action.writes :=
      fun y hy hin => hmovable.operands y hy r hin hr
    rw [← hs r hunmoved, hsplit, combRun_of_not_written hpost]
    unfold combStep
    rw [x.action.run_writes _ r hself]
    rfl
  have hpost : ∀ y ∈ post, e ∉ y.action.writes :=
    fun y hy hin => hmovable.alone y (mem_append_right _ hy) e hin he
  obtain ⟨v, hv⟩ := hmovable.assigns t e he
  rw [hsplit, combRun_of_not_written hpost]
  unfold combStep
  rw [hrun, hv]
  rfl

theorem run_of_settled {s : State} (hs : Settled declarations s) (hx : x ∈ hoisted k)
    (he : e ∈ x.action.writes) : x.action.run s e = some (s e) := by
  obtain ⟨i, pre, post, -, hmovable⟩ := h.movable k x hx
  have hsettled : combRun s (pre ++ x :: post) = s := hs _ (mem_of_getElem? hmovable.source)
  have hrun := run_of_settled_block h hx hmovable (fun e _ => congrFun hsettled e) he
  rw [hsettled] at hrun
  exact hrun.symm

theorem exists_restored {s' : State}
    (hs : Settled (declarations.mapIdx (hoistedDecl moves hoisted)) s') :
    ∃ s, Settled declarations s ∧ Off (WrittenBy hoisted) s s' := by
  have hvalue : ∀ e, ∃ v, (¬WrittenBy hoisted e → v = s' e) ∧
      ∀ k x, x ∈ hoisted k → e ∈ x.action.writes → x.action.run s' e = some v := by
    intro e
    by_cases he : WrittenBy hoisted e
    · obtain ⟨k, x, hx, hxe⟩ := he
      obtain ⟨i, pre, post, -, hmovable⟩ := h.movable k x hx
      obtain ⟨v, hv⟩ := hmovable.assigns s' e hxe
      refine ⟨v, fun hnot => absurd ⟨k, x, hx, hxe⟩ hnot, fun k' x' hx' hxe' => ?_⟩
      have hmem : x ∈ (Declaration.comb (pre ++ x :: post)).statements :=
        mem_append_right _ (mem_cons_self ..)
      obtain ⟨rfl, -⟩ := h.eq_of_writes hmovable.source hmem hxe hx' hxe'
      exact hv
    · exact ⟨s' e, fun _ => rfl, fun k x hx hxe => absurd ⟨k, x, hx, hxe⟩ he⟩
  choose s hunmoved hmoved using hvalue
  have hoff : Off (WrittenBy hoisted) s s' := hunmoved
  refine ⟨s, fun d hd => ?_, hoff⟩
  obtain ⟨i, hi⟩ := getElem?_of_mem hd
  have hd' : hoistedDecl moves hoisted i d ∈ declarations.mapIdx (hoistedDecl moves hoisted) := by
    obtain ⟨hlt, rfl⟩ := List.getElem?_eq_some_iff.1 hi
    exact mem_mapIdx.2 ⟨i, hlt, rfl⟩
  have hsettled := hs _ hd'
  cases d with
  | ff statements => rfl
  | inst settle event =>
    ext e
    by_cases he : WrittenBy hoisted e
    · refine combRun_of_not_written (fun y hy hwrites => ?_) s
      obtain ⟨k, x, hx, hxe⟩ := he
      obtain ⟨-, pre, post, hd, -⟩ :=
        h.eq_of_writes hi (mem_append_left event hy) hwrites hx hxe
      exact nomatch hd
    · refine (combRun_congr settle (fun y hy r hr =>
        h.inst_not_read hi (mem_append_left event hy) hr) hoff e he).trans ?_
      rw [show combRun s' settle = s' from hsettled]
      exact (hoff e he).symm
  | comb statements =>
    have hunmoved : ∀ e, ¬WrittenBy hoisted e → combRun s statements e = s' e := by
      intro e he
      rw [comb_filter_off h hi hoff e he]
      exact congrFun hsettled e
    ext e
    by_cases he : WrittenBy hoisted e
    · by_cases hwritten : ∃ y ∈ statements, e ∈ y.action.writes
      · obtain ⟨y, hy, hye⟩ := hwritten
        obtain ⟨k, x, hx, hxe⟩ := he
        obtain ⟨rfl, pre, post, hd, hmovable⟩ := h.eq_of_writes hi hy hye hx hxe
        obtain rfl : statements = pre ++ y :: post := by simpa using hd
        have hrun := run_of_settled_block h hx hmovable hunmoved hxe
        rw [hmoved e k y hx hxe] at hrun
        exact some.inj hrun
      · exact combRun_of_not_written (fun y hy hye => hwritten ⟨y, hy, hye⟩) s
    · exact (hunmoved e he).trans (hoff e he).symm

theorem clocked_not_written (hj : declarations[j]? = some d)
    (hy : y ∈ d.clocked reset) (he : WrittenBy hoisted e) :
    e ∉ y.action.writes := by
  intro hin
  obtain ⟨k, x, hx, hxe⟩ := he
  obtain ⟨-, pre, post, rfl, -⟩ := h.eq_of_writes hj (mem_statements_of_clocked hy) hin hx hxe
  exact absurd hy not_mem_nil

theorem Sim.statement (hj : declarations[j]? = some d) (hy : y ∈ d.clocked reset)
    {s : State} (hsim : Sim hoisted s st st')
    (hreads : ∀ r ∈ y.action.reads, st.1 r = st'.1 r) :
    Sim hoisted s (ffStep isLet st y) (ffStep isLet st' y) := by
  have hrun := y.action.run_congr st.1 st'.1 hreads
  refine ⟨fun e he => ?_, ?_, fun e he => ?_, fun k x hx r hr => ?_⟩
  · show (if isLet e.1 then (y.action.run st.1 e).getD (st.1 e) else st.1 e) =
      if isLet e.1 then (y.action.run st'.1 e).getD (st'.1 e) else st'.1 e
    rw [hrun, hsim.off e he]
  · show (fun e => if isLet e.1 then st.2 e else (y.action.run st.1 e).or (st.2 e)) =
      fun e => if isLet e.1 then st'.2 e else (y.action.run st'.1 e).or (st'.2 e)
    rw [hrun, hsim.pending]
  · rw [ffStep_of_not_written fun _ => clocked_not_written h hj hy he]
    exact hsim.moved e he
  · obtain ⟨i, pre, post, -, hmovable⟩ := h.movable k x hx
    rw [ffStep_of_not_written fun hlet hin => hmovable.ffLets j d reset hj y hy r hin hlet hr]
    exact hsim.operands k x hx r hr

theorem Sim.block (hj : declarations[j]? = some d) {s : State} (ys : List Simple)
    (hys : ∀ y ∈ ys, y ∈ d.clocked reset) (hsim : Sim hoisted s st st')
    (hmoved : ∀ x ∈ hoisted j, ∀ e ∈ x.action.writes, st'.1 e = s e) :
    Sim hoisted s (ys.foldl (ffStep isLet) st) (ys.foldl (ffStep isLet) st') ∧
      ∀ o ∈ reading isLet st' ys, ∀ e ∈ o.1.action.reads, WrittenBy hoisted e → o.2 e = s e := by
  induction ys generalizing st st' with
  | nil => exact ⟨hsim, fun o ho => absurd ho not_mem_nil⟩
  | cons y ys ih =>
    have hy := hys y (mem_cons_self ..)
    have hread : ∀ e ∈ y.action.reads, WrittenBy hoisted e → st'.1 e = s e := by
      intro e he hwritten
      obtain ⟨k, x, hx, hxe⟩ := hwritten
      obtain rfl := h.not_read hj (mem_statements_of_clocked hy) he hx hxe
      exact hmoved x hx e hxe
    have hreads : ∀ e ∈ y.action.reads, st.1 e = st'.1 e := by
      intro e he
      by_cases hwritten : WrittenBy hoisted e
      · rw [hsim.moved e hwritten, hread e he hwritten]
      · exact hsim.off e hwritten
    obtain ⟨hrest, hreading⟩ := ih (fun z hz => hys z (mem_cons_of_mem _ hz))
      (hsim.statement h hj hy hreads) fun x hx e he => by
        rw [ffStep_of_not_written fun _ => clocked_not_written h hj hy ⟨j, x, hx, he⟩]
        exact hmoved x hx e he
    refine ⟨hrest, fun o ho => ?_⟩
    rcases mem_cons.1 ho with rfl | ho
    · exact hread
    · exact hreading o ho

theorem Sim.moving {s : State}
    (hs : Settled declarations s) (hs' : List Simple) (hmem : ∀ x ∈ hs', x ∈ hoisted k)
    (hsim : Sim hoisted s st st') :
    Sim hoisted s st (hs'.foldl (ffStep isLet) st') ∧
      (∀ e, WrittenBy hoisted e → st'.1 e = s e → (hs'.foldl (ffStep isLet) st').1 e = s e) ∧
      (∀ x ∈ hs', ∀ e ∈ x.action.writes, (hs'.foldl (ffStep isLet) st').1 e = s e) ∧
      ∀ o ∈ reading isLet st' hs', ∀ e ∈ o.1.action.reads, ¬WrittenBy hoisted e := by
  induction hs' generalizing st' with
  | nil =>
    exact ⟨hsim, fun e _ he => he, fun x hx => absurd hx not_mem_nil,
      fun o ho => absurd ho not_mem_nil⟩
  | cons x xs ih =>
    have hx := hmem x (mem_cons_self ..)
    obtain ⟨i, pre, post, -, hmovable⟩ := h.movable k x hx
    have hunmoved : ∀ r ∈ x.action.reads, ¬WrittenBy hoisted r := fun r hr =>
      h.comb_not_read hmovable.source (mem_append_right _ (mem_cons_self ..)) hr
    have hrun : x.action.run st'.1 = x.action.run s := x.action.run_congr _ _ fun r hr => by
      rw [← hsim.off r (hunmoved r hr), hsim.operands k x hx r hr]
    have hwritten : ∀ e ∈ x.action.writes, (ffStep isLet st' x).1 e = s e := by
      intro e he
      show (if isLet e.1 then (x.action.run st'.1 e).getD (st'.1 e) else st'.1 e) = s e
      rw [if_pos (hmovable.blocking e he), hrun, run_of_settled h hs hx he]
      rfl
    have hkept : ∀ e, WrittenBy hoisted e → st'.1 e = s e → (ffStep isLet st' x).1 e = s e := by
      intro e _ he
      by_cases hin : e ∈ x.action.writes
      · exact hwritten e hin
      · rw [ffStep_of_not_written fun _ => hin]
        exact he
    have hsim' : Sim hoisted s st (ffStep isLet st' x) := by
      refine ⟨fun e he => ?_, ?_, hsim.moved, hsim.operands⟩
      · rw [ffStep_of_not_written fun _ hin => he ⟨k, x, hx, hin⟩]
        exact hsim.off e he
      · rw [ffStep_pending hmovable.blocking]
        exact hsim.pending
    obtain ⟨hrest, hkeep, hdone, hreading⟩ :=
      ih (fun y hy => hmem y (mem_cons_of_mem _ hy)) hsim'
    refine ⟨hrest, fun e hw he => hkeep e hw (hkept e hw he), fun y hy e he => ?_, fun o ho => ?_⟩
    · rcases mem_cons.1 hy with rfl | hy
      · exact hkeep e ⟨k, y, hx, he⟩ (hwritten e he)
      · exact hdone y hy e he
    · rcases mem_cons.1 ho with rfl | ho
      · exact hunmoved
      · exact hreading o ho

theorem Sim.declaration {s : State} (hs : Settled declarations s) (hj : declarations[j]? = some d)
    (reset : Bool) (hsim : Sim hoisted s st st') :
    Sim hoisted s ((d.clocked reset).foldl (ffStep isLet) st)
        (((hoistedDecl moves hoisted j d).clocked reset).foldl (ffStep isLet) st') ∧
      ∀ o ∈ reading isLet st' ((hoistedDecl moves hoisted j d).clocked reset),
        ∀ e ∈ o.1.action.reads, WrittenBy hoisted e → o.2 e = s e := by
  cases d with
  | comb statements => exact ⟨hsim, fun o ho => absurd ho not_mem_nil⟩
  | inst settle event =>
    have hclocked : ∀ y ∈ event, y ∈ (Declaration.inst settle event).clocked reset :=
      fun y hy => hy
    refine hsim.block h hj event hclocked fun x hx => ?_
    obtain ⟨i, pre, post, -, hmovable⟩ := h.movable j x hx
    obtain ⟨statements, hff⟩ := hmovable.target
    rw [hj] at hff
    exact nomatch hff
  | ff statements =>
    show Sim hoisted s (List.foldl (ffStep isLet) st _) (List.foldl (ffStep isLet) st'
      ((injectIntoFfBody statements (hoisted j)).flatMap (side reset))) ∧
      ∀ o ∈ reading isLet st' ((injectIntoFfBody statements (hoisted j)).flatMap (side reset)), _
    rw [flatMap_side_inject, foldl_append, reading_append]
    obtain ⟨hsim', -, hdone, hunmoved⟩ :=
      hsim.moving h hs (hoisted j) fun x hx => hx
    have hclocked : ∀ y ∈ statements.flatMap (side reset),
        y ∈ (Declaration.ff statements).clocked reset := fun y hy => hy
    obtain ⟨hrest, hreading⟩ := hsim'.block h hj _ hclocked hdone
    refine ⟨hrest, fun o ho e he hw => ?_⟩
    rcases mem_append.1 ho with ho | ho
    · exact absurd hw (hunmoved o ho e he)
    · exact hreading o ho e he hw

theorem event_hoisted {s s' : State}
    (hs : Settled declarations s) (hoff : Off (WrittenBy hoisted) s s') (ev : Event) :
    Sim hoisted s ((ev.statements declarations).foldl (ffStep isLet) (s, fun _ => none))
        ((ev.statements (declarations.mapIdx (hoistedDecl moves hoisted))).foldl (ffStep isLet)
          (s', fun _ => none)) ∧
      ∀ o ∈ reading isLet (s', fun _ => none)
          (ev.statements (declarations.mapIdx (hoistedDecl moves hoisted))),
        ∀ e ∈ o.1.action.reads, WrittenBy hoisted e → o.2 e = s e := by
  unfold Event.statements
  rw [mapIdx_mapIdx]
  refine foldl_flatten_mapIdx declarations _ _ (fun i d hi st st' hsim => ?_)
    ⟨hoff, rfl, fun e _ => rfl, fun k x _ r _ => rfl⟩
  cases ev.clocked i with
  | true => exact hsim.declaration h hs hi (ev.reset i)
  | false => exact ⟨hsim, fun o ho => absurd ho not_mem_nil⟩

theorem result_hoisted {s s' : State}
    (hs : Settled declarations s) (hoff : Off (WrittenBy hoisted) s s') (ev : Event) :
    Off (WrittenBy hoisted) (ev.result isLet declarations s)
      (ev.result isLet (declarations.mapIdx (hoistedDecl moves hoisted)) s') := by
  obtain ⟨hsim, -⟩ := event_hoisted h hs hoff ev
  intro e he
  show (((ev.statements declarations).foldl (ffStep isLet) (s, fun _ => none)).2 e).getD _ = _
  rw [hsim.pending, hsim.off e he]
  rfl

open Classical in
theorem driven_iff : Driven (declarations.mapIdx (hoistedDecl moves hoisted)) e ↔
      Driven declarations e ∧ ¬WrittenBy hoisted e := by
  constructor
  · rintro ⟨d', hd', x, hx, he⟩
    obtain ⟨i, d, hi, rfl⟩ := mem_mapIdx_hoistedDecl hd'
    cases d with
    | ff statements => exact absurd hx not_mem_nil
    | comb statements =>
      refine ⟨⟨_, mem_of_getElem? hi, x, (mem_filter.1 hx).1, he⟩, fun hw => ?_⟩
      exact filter_not_written h hi hw x hx he
    | inst settle event =>
      refine ⟨⟨_, mem_of_getElem? hi, x, hx, he⟩, fun hw => ?_⟩
      obtain ⟨k, y, hy, hye⟩ := hw
      obtain ⟨-, pre, post, hd, -⟩ :=
        h.eq_of_writes hi (mem_append_left event hx) he hy hye
      exact nomatch hd
  · rintro ⟨⟨d, hd, x, hx, he⟩, hw⟩
    obtain ⟨i, hi⟩ := getElem?_of_mem hd
    have hmem : hoistedDecl moves hoisted i d ∈
        declarations.mapIdx (hoistedDecl moves hoisted) := by
      obtain ⟨hlt, rfl⟩ := List.getElem?_eq_some_iff.1 hi
      exact mem_mapIdx.2 ⟨i, hlt, rfl⟩
    refine ⟨_, hmem, x, ?_, he⟩
    cases d with
    | ff statements => exact hx
    | inst settle event => exact hx
    | comb statements =>
      refine mem_filter.2 ⟨hx, decide_eq_true fun hmove => ?_⟩
      obtain ⟨k, hk⟩ := h.complete i statements x hi hx hmove
      exact hw ⟨k, x, hk, he⟩

theorem driven_of_writtenBy (he : WrittenBy hoisted e) : Driven declarations e := by
  obtain ⟨k, x, hx, hxe⟩ := he
  obtain ⟨i, pre, post, -, hmovable⟩ := h.movable k x hx
  exact ⟨_, mem_of_getElem? hmovable.source, x, mem_append_right _ (mem_cons_self ..), hxe⟩

theorem step_hoisted {s s' t : State}
    (hs : Settled declarations s) (hoff : Off (WrittenBy hoisted) s s')
    (hstep : Step isLet declarations ev s t) :
    ∃ t', Step isLet (declarations.mapIdx (hoistedDecl moves hoisted)) ev s' t' ∧
      Off (WrittenBy hoisted) t t' := by
  obtain ⟨hsettled, hrest⟩ := hstep
  have hvalue : ∀ e, ∃ v, (¬WrittenBy hoisted e → t e = v) ∧ (WrittenBy hoisted e → v =
      (ev.input e).getD
        (ev.result isLet (declarations.mapIdx (hoistedDecl moves hoisted)) s' e)) := by
    intro e
    by_cases he : WrittenBy hoisted e
    · exact ⟨_, fun hnot => absurd he hnot, fun _ => rfl⟩
    · exact ⟨t e, fun _ => rfl, fun hw => absurd hw he⟩
  choose t' hunmoved hmoved using hvalue
  refine ⟨t', ⟨settled_hoisted h hsettled hunmoved, fun e he => ?_⟩, hunmoved⟩
  by_cases hw : WrittenBy hoisted e
  · exact hmoved e hw
  · rw [← hunmoved e hw, ← result_hoisted h hs hoff ev e hw]
    exact hrest e fun hd => he ((driven_iff h).2 ⟨hd, hw⟩)

theorem step_restored {s s' t' : State} (hs : Settled declarations s)
    (hoff : Off (WrittenBy hoisted) s s')
    (hstep : Step isLet (declarations.mapIdx (hoistedDecl moves hoisted)) ev s' t') :
    ∃ t, Step isLet declarations ev s t ∧ Off (WrittenBy hoisted) t t' := by
  obtain ⟨hsettled, hrest⟩ := hstep
  obtain ⟨t, ht, hofft⟩ := exists_restored h hsettled
  refine ⟨t, ⟨ht, fun e he => ?_⟩, hofft⟩
  have hw : ¬WrittenBy hoisted e := fun hw => he (driven_of_writtenBy h hw)
  rw [hofft e hw, result_hoisted h hs hoff ev e hw]
  exact hrest e fun hd => he ((driven_iff h).1 hd).1

theorem run_hoisted (tr : List (Event × State))
    {s s' : State} (hs : Settled declarations s) (hoff : Off (WrittenBy hoisted) s s')
    (hrun : Run isLet declarations s tr) :
    ∃ tr', Run isLet (declarations.mapIdx (hoistedDecl moves hoisted)) s' tr' ∧
      SameRun isLet (declarations.mapIdx (hoistedDecl moves hoisted)) (WrittenBy hoisted)
        s s' tr tr' := by
  induction tr generalizing s s' with
  | nil => exact ⟨[], trivial, hoff⟩
  | cons p tr ih =>
    obtain ⟨hstep, hrest⟩ := hrun
    obtain ⟨t', hstep', hofft⟩ := step_hoisted h hs hoff hstep
    obtain ⟨tr', hrun', hsame⟩ := ih hstep.1 hofft hrest
    exact ⟨(p.1, t') :: tr', ⟨hstep', hrun'⟩, hoff, rfl, (event_hoisted h hs hoff p.1).2, hsame⟩

theorem run_restored (tr' : List (Event × State))
    {s s' : State} (hs : Settled declarations s) (hoff : Off (WrittenBy hoisted) s s')
    (hrun : Run isLet (declarations.mapIdx (hoistedDecl moves hoisted)) s' tr') :
    ∃ tr, Run isLet declarations s tr ∧
      SameRun isLet (declarations.mapIdx (hoistedDecl moves hoisted)) (WrittenBy hoisted)
        s s' tr tr' := by
  induction tr' generalizing s s' with
  | nil => exact ⟨[], trivial, hoff⟩
  | cons p tr' ih =>
    obtain ⟨hstep, hrest⟩ := hrun
    obtain ⟨t, hstep', hofft⟩ := step_restored h hs hoff hstep
    obtain ⟨tr, hrun', hsame⟩ := ih hstep'.1 hofft hrest
    exact ⟨(p.1, t) :: tr, ⟨hstep', hrun'⟩, hoff, rfl, (event_hoisted h hs hoff p.1).2, hsame⟩

end Simulation

end Veryl.Analyzer.Hoist
