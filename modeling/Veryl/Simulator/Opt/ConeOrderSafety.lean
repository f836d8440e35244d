import Veryl.Simulator.Opt.ConeOrderFootprint

/-!
The cone reorder keeps the order of every two dependent statements wherever the
fold of large arrays gathers accesses to one byte under offsets of one owner,
and no loop counter or memory image is shared.
-/

namespace Veryl.Simulator.Opt.ConeOrder

open Veryl.Analyzer Veryl.Library List
open BigArrayFold (fromStatements)

variable {e : ℕ × ℕ}

section Order

variable {inputs : OwnerInputs} {fold : BigArrayFold} {use4state : Bool} {s t : ProtoStatement}

/-- A byte one statement stores the other reads or stores. -/
def Conflict (use4state : Bool) (s t : ProtoStatement) : Prop :=
  ∃ b ∈ cellsOf (s.writes use4state),
    b ∈ cellsOf (t.reads use4state) ∨ b ∈ cellsOf (t.writes use4state)

/-- Two statements whose order matters. -/
def Dependent (use4state : Bool) (s t : ProtoStatement) : Prop :=
  Conflict use4state s t ∨ Conflict use4state t s ∨ hasSideEffects s ∧ hasSideEffects t

/-- The conflicts of a store of `s` with `t` show in what is gathered: accesses
to one byte are gathered under offsets of one owner, and no loop counter or
memory image is shared. -/
structure Gathered (inputs : OwnerInputs) (fold : BigArrayFold) (use4state : Bool)
    (s t : ProtoStatement) : Prop where
  alike : ∀ v ∈ s.walk true, ∀ x ∈ recordedOutputs fold use4state v, x.1 ∈ v.writes use4state →
    ∀ w ∈ t.walk true, ∀ y, y ∈ recordedInputs fold use4state w ∨
        y ∈ recordedOutputs fold use4state w →
      (∃ b ∈ x.1.cells, b ∈ y.1.cells) → resolve inputs y.2 = resolve inputs x.2
  unshared : ∀ v ∈ s.walk true, ∀ a ∈ unrecorded use4state v, ∀ b ∈ a.cells,
    b ∉ cellsOf (t.reads use4state) ∧ b ∉ cellsOf (t.writes use4state)

theorem isFf_of_mem_cells {a : Access} {b : VarOffset} (h : b ∈ a.cells) :
    b.isFf = a.base.isFf := by
  obtain ⟨k, -, rfl⟩ := h
  simp

theorem Conflict.alike (hst : Gathered inputs fold use4state s t)
    (hts : Gathered inputs fold use4state t s) (h : Conflict use4state s t) :
    ∃ o ∈ (s.gatherVariableOffsetsExpanded fold).2, ∃ o' : VarOffset, o'.isFf = o.isFf ∧
      resolve inputs o' = resolve inputs o ∧
      (o' ∈ (t.gatherVariableOffsetsExpanded fold).1 ∨
        o' ∈ (t.gatherVariableOffsetsExpanded fold).2) := by
  obtain ⟨b, ⟨a, ha, hb⟩, hbt⟩ := h
  obtain ⟨v, hv, hav⟩ := mem_flatMap.1 ha
  rcases mem_writes fold hav with ⟨o, ho⟩ | hun
  · obtain ⟨hgo, hoff⟩ := mem_gatherOutputs ho
    obtain ⟨w, hw, y, hy, hby⟩ : ∃ w ∈ t.walk true, ∃ y, (y ∈ recordedInputs fold use4state w ∨
        y ∈ recordedOutputs fold use4state w) ∧ b ∈ y.1.cells := by
      rcases hbt with ⟨a', ha', hb'⟩ | ⟨a', ha', hb'⟩
      · obtain ⟨w, hw, haw⟩ := mem_flatMap.1 ha'
        rcases mem_reads fold haw with ⟨o', ho'⟩ | ⟨o', ho'⟩
        · exact ⟨w, hw, (a', o'), .inl ho', hb'⟩
        · exact ⟨w, hw, (a', o'), .inr ho', hb'⟩
      · obtain ⟨w, hw, haw⟩ := mem_flatMap.1 ha'
        rcases mem_writes fold haw with ⟨o', ho'⟩ | hun
        · exact ⟨w, hw, (a', o'), .inr ho', hb'⟩
        · exact absurd ⟨a, ha, hb⟩ (hts.unshared w hw a' hun b hb').2
    have hres := hst.alike v hv (a, o) ho hav w hw y hy ⟨b, hb, hby⟩
    have hy' : (y.2 ∈ w.gatherInputs fold ∨ y.2 ∈ w.gatherOutputs fold) ∧
        y.2.isFf = y.1.base.isFf := by
      rcases hy with hy | hy
      · exact ⟨.inl (mem_gatherInputs hy).1, (mem_gatherInputs hy).2⟩
      · exact ⟨.inr (mem_gatherOutputs hy).1, (mem_gatherOutputs hy).2⟩
    refine ⟨o, mem_flatMap.2 ⟨v, hv, hgo⟩, y.2, ?_, hres, hy'.1.imp ?_ ?_⟩
    · rw [hy'.2, hoff, ← isFf_of_mem_cells hby, ← isFf_of_mem_cells hb]
    · exact fun h => mem_flatMap.2 ⟨w, hw, h⟩
    · exact fun h => mem_flatMap.2 ⟨w, hw, h⟩
  · have := hst.unshared v hv a hun b hb
    rcases hbt with hbt | hbt
    · exact absurd hbt this.1
    · exact absurd hbt this.2

variable {root i j : ℕ} {stmts : List ProtoStatement}

theorem transGen_of_conflict (hwf : WellFormed inputs) (hij : i < j) (hs : stmts[i]? = some s)
    (ht : stmts[j]? = some t) (hst : Gathered inputs fold use4state s t)
    (hts : Gathered inputs fold use4state t s)
    (h : Conflict use4state s t ∨ Conflict use4state t s) :
    Relation.TransGen (Hazard inputs stmts (infosOf inputs fold root stmts)) i j := by
  rcases h with h | h
  · obtain ⟨o, ho, o', hff, hres, ho'⟩ := h.alike hst hts
    exact transGen_of_alike hwf hij hs ht hff hres (.inl ⟨ho, ho'⟩)
  · obtain ⟨o, ho, o', hff, hres, ho'⟩ := h.alike hts hst
    exact transGen_of_alike hwf hij hs ht hff hres (.inr ⟨ho, ho'⟩)

theorem transGen_of_special (hij : i < j) (hs : stmts[i]? = some s) (ht : stmts[j]? = some t)
    (h : ∀ x, x = s ∨ x = t →
      ((stmtInfo inputs fold root x).unbounded || hasSideEffects x) = true) :
    Relation.TransGen (Hazard inputs stmts (infosOf inputs fold root stmts)) i j :=
  transGen_specials hij (mem_specials hs (by simp [hs]) (h s (.inl rfl)))
    (mem_specials ht (by simp [ht]) (h t (.inr rfl)))

variable {env : Env} {sched : Schedule}

theorem mem_edgeSet {l : List (ℕ × ℕ)} : e ∈ edgeSet l ↔ e ∈ l := by
  have hfold : ∀ (l acc : List (ℕ × ℕ)), e ∈ l.foldl addEdge acc ↔ e ∈ acc ∨ e ∈ l := by
    intro l
    induction l with
    | nil => simp
    | cons a l ih =>
      intro acc
      rw [foldl_cons, ih]
      unfold addEdge
      split
      · rename_i ha
        simp only [mem_cons]
        constructor
        · exact fun h => h.imp_right .inr
        · rintro (h | rfl | h)
          · exact .inl h
          · exact .inl ha
          · exact .inr h
      · simp [or_assoc]
  simpa [edgeSet] using hfold l []

theorem coneOf_lt (cones : List ℕ) (m : ℕ) : coneOf inputs cones m < cones.length + 1 := by
  unfold coneOf
  split
  · rename_i a ha
    have hmem : a ∈ cones := by simpa using find?_some ha
    have := idxOf_lt_length_of_mem hmem
    omega
  · omega

theorem onOwners_stmtInfo (s : ProtoStatement) : OnOwners inputs (stmtInfo inputs fold root s) := by
  refine ⟨_, fun r hr => ?_, rfl⟩
  obtain ⟨sp, hsp, rfl⟩ := mem_map.1 hr
  obtain ⟨o, -, ho⟩ := mem_filterMap.1 hsp
  exact mem_map.2 ⟨sp, mem_of_combSpan ho, rfl⟩

section Scheduled

variable (inputs root stmts)

/-- The cones and the slots `schedule` works with. -/
abbrev conesOf : List ℕ :=
  (List.range inputs.nodeParent.length).filter
    (qualifies inputs root stmts (infosOf inputs (.fromStatements stmts) root stmts))

abbrev slotOf (i : ℕ) : ℕ :=
  coneOf inputs (conesOf inputs root stmts)
    (((infosOf inputs (.fromStatements stmts) root stmts)[i]?).elim root StmtInfo.node)

/-- The edges `schedule` sorts along. -/
abbrev edgesOf : List (ℕ × ℕ) :=
  edgeSet (hazards inputs stmts (infosOf inputs (.fromStatements stmts) root stmts))

end Scheduled

theorem exists_schedule (hroot : ((List.range inputs.nodeParent.length).find? fun i =>
    (inputs.parent i).isNone) = some root) (hcones : conesOf inputs root stmts ≠ [])
    (hlen : stmts.length ≠ 0) : ∃ sched, schedule stmts inputs = some sched := by
  simp only [schedule, if_neg hlen, hroot, Option.bind_eq_bind, Option.bind_some]
  rw [if_neg (by simpa using hcones)]
  split
  · exact ⟨_, rfl⟩
  · exact ⟨_, rfl⟩

theorem schedule_order (h : schedule stmts inputs = some sched) :
    stmts.length < clusterMinStmts ∧ sched.order = List.range stmts.length ∨
      clusterMinStmts ≤ stmts.length ∧ ∃ root,
        ((List.range inputs.nodeParent.length).find? fun i => (inputs.parent i).isNone) = some root ∧
        sched.order = kahn (edgesOf inputs root stmts) (slotOf inputs root stmts)
          ((conesOf inputs root stmts).length + 1) stmts.length := by
  simp only [schedule] at h
  split at h
  · cases h
  obtain ⟨root, hroot, h⟩ := Option.bind_eq_some_iff.1 h
  split at h
  · cases h
  · split at h
    · rename_i hn
      obtain rfl := Option.some.inj h
      exact .inl ⟨hn, rfl⟩
    · rename_i hn
      obtain rfl := Option.some.inj h
      exact .inr ⟨not_lt.1 hn, root, hroot, rfl⟩

theorem edgesOf_fwd (hwf : WellFormed inputs) (he : e ∈ edgesOf inputs root stmts) : e.1 < e.2 := by
  refine hazards_fwd hwf (fun info hinfo => ?_) (mem_edgeSet.1 he)
  obtain ⟨s, -, rfl⟩ := mem_map.1 hinfo
  exact onOwners_stmtInfo s

theorem edgesOf_lt (he : e ∈ edgesOf inputs root stmts) : e.2 < stmts.length :=
  hazards_lt (by simp) (mem_edgeSet.1 he)

theorem order_spec (hwf : WellFormed inputs) (h : schedule stmts inputs = some sched) :
    sched.order.Perm (List.range stmts.length) ∧ ∃ root, sched.order.Pairwise fun a b =>
      a < b ∨ clusterMinStmts ≤ stmts.length ∧ ¬ Relation.TransGen
        (Hazard inputs stmts (infosOf inputs (.fromStatements stmts) root stmts)) b a := by
  rcases schedule_order h with ⟨-, horder⟩ | ⟨hn, root, -, horder⟩
  · rw [horder]
    exact ⟨.refl _, 0, pairwise_lt_range.imp .inl⟩
  · have hedge : Edge (edgesOf inputs root stmts) =
        Hazard inputs stmts (infosOf inputs (.fromStatements stmts) root stmts) := by
      funext a b
      exact propext mem_edgeSet
    obtain ⟨hperm, hresp⟩ := kahn_spec (fun e => edgesOf_fwd hwf) (fun e => edgesOf_lt)
      fun i => coneOf_lt _ _
    rw [hedge] at hresp
    rw [horder]
    refine ⟨hperm, root, ?_⟩
    exact (hresp.pairwise (hperm.nodup_iff.2 nodup_range)).imp fun h => .inr ⟨hn, h⟩

/-- The statements in the scheduled order. -/
def Schedule.apply (sched : Schedule) (stmts : List ProtoStatement) : List ProtoStatement :=
  sched.order.filterMap fun i => stmts[i]?

/-- The statement at a position, run on its own. -/
def runAt (env : Env) (stmts : List ProtoStatement) (i : ℕ) : Exec Unit :=
  (stmts[i]?).elim (pure ()) (·.execTop env)

theorem runPass_filterMap {l : List ℕ} (hl : ∀ i ∈ l, i < stmts.length) :
    runPass env (l.filterMap fun i => stmts[i]?) = Computation.sequence (l.map (runAt env stmts)) := by
  rw [runPass]
  congr 1
  induction l with
  | nil => rfl
  | cons i l ih =>
    have hi := getElem?_eq_getElem (hl i (by simp))
    simp [hi, runAt, ih fun j hj => hl j (by simp [hj])]

theorem filterMap_range (stmts : List ProtoStatement) :
    (List.range stmts.length).filterMap (fun i => stmts[i]?) = stmts := by
  induction stmts using List.reverseRecOn with
  | nil => rfl
  | append_singleton l s ih =>
    have hfront : (List.range l.length).filterMap (fun i => (l ++ [s])[i]?) =
        (List.range l.length).filterMap fun i => l[i]? := by
      refine filterMap_congr fun i hi => ?_
      exact getElem?_append_left (mem_range.1 hi)
    rw [length_append, length_singleton, range_succ, filterMap_append, hfront, ih]
    simp

/-- Where every conflict shows in what is gathered, the reorder is a permutation
that flips no dependence, and a pass runs as before. -/
theorem schedule_spec (env : Env) (hwf : WellFormed inputs) (h : schedule stmts inputs = some sched)
    (hgathered : stmts.length < clusterMinStmts ∨ stmts.Pairwise fun s t =>
      Gathered inputs (.fromStatements stmts) env.use4state s t ∧
        Gathered inputs (.fromStatements stmts) env.use4state t s) :
    sched.order.Perm (List.range stmts.length) ∧
      (sched.order.Pairwise fun a b => ∀ s ∈ stmts[a]?, ∀ t ∈ stmts[b]?,
        Dependent env.use4state s t → a < b) ∧
      Library.Computation.Equiv Output.view (runPass env stmts) (runPass env (sched.apply stmts)) := by
  obtain ⟨hperm, root, hpair⟩ := order_spec hwf h
  have hnodup : sched.order.Nodup := hperm.nodup_iff.2 nodup_range
  -- a pair whose order matters is joined, so the new order keeps it
  have keep : sched.order.Pairwise fun a b => ∀ s ∈ stmts[a]?, ∀ t ∈ stmts[b]?,
      (Dependent env.use4state s t ∨ s.mayEmit ∧ t.mayEmit) → a < b := by
    refine (hpair.and hnodup).imp ?_
    rintro a b ⟨hlt | ⟨hn, hpath⟩, hne⟩ s hs t ht hdep
    · exact hlt
    rcases Nat.lt_or_gt_of_ne hne with hlt | hlt
    · exact hlt
    refine absurd ?_ hpath
    obtain ⟨hbl, rfl⟩ := List.getElem?_eq_some_iff.1 ht
    obtain ⟨hal, rfl⟩ := List.getElem?_eq_some_iff.1 hs
    have hg := pairwise_iff_getElem.1 (hgathered.resolve_left (by omega)) b a hbl hal hlt
    rcases hdep with (hdep | hdep | hdep) | hdep
    · exact transGen_of_conflict hwf hlt ht hs hg.1 hg.2 (.inr hdep)
    · exact transGen_of_conflict hwf hlt ht hs hg.1 hg.2 (.inl hdep)
    · refine transGen_of_special hlt ht hs ?_
      rintro x (rfl | rfl)
      · simp [hdep.2]
      · simp [hdep.1]
    · refine transGen_of_special hlt ht hs ?_
      rintro x (rfl | rfl)
      · exact special_of_mayEmit hdep.2
      · exact special_of_mayEmit hdep.1
  refine ⟨hperm, keep.imp fun h s hs t ht hdep => h s hs t ht (.inl hdep), ?_⟩
  have hrange : ∀ i ∈ List.range stmts.length, i < stmts.length := fun i => mem_range.1
  have hbase : runPass env stmts =
      Computation.sequence ((List.range stmts.length).map (runAt env stmts)) := by
    rw [← runPass_filterMap hrange, filterMap_range]
  rw [hbase, Schedule.apply, runPass_filterMap fun i hi => hrange i (hperm.mem_iff.1 hi)]
  refine Computation.sequence_reorder (r := (· < ·)) (fun a b hab hba => lt_asymm hab hba) hperm
    pairwise_lt_range (((List.Pairwise.and_mem.1 keep).and hnodup).imp ?_)
  rintro a b ⟨⟨ha, hb, hkeep⟩, hne⟩
  have hs := getElem?_eq_getElem (hrange a (hperm.mem_iff.1 ha))
  have ht := getElem?_eq_getElem (hrange b (hperm.mem_iff.1 hb))
  rcases Nat.lt_or_gt_of_ne hne with hlt | hgt
  · exact .inl hlt
  · -- the swapped pair is not dependent
    have hfree : ∀ hdep, False := fun hdep => absurd (hkeep _ hs _ ht hdep) (by omega)
    right
    rw [runAt, runAt, hs, ht]
    refine ProtoStatement.independent_execTop (fun x hx => ⟨fun hr => ?_, fun hw => ?_⟩)
      (fun x hx hr => ?_) fun hemit hemit' => hfree (.inr ⟨hemit', hemit⟩)
    · exact hfree (.inl (.inr (.inl ⟨x, hx, .inl hr⟩)))
    · exact hfree (.inl (.inr (.inl ⟨x, hx, .inr hw⟩)))
    · exact hfree (.inl (.inl ⟨x, hx, .inl hr⟩))

/-! ### Two large arrays side by side

Arrays that touch are folded onto one base. A static access to the second array
is gathered under the base of the first, an access at run time under the base of
the second. -/

/-- A run-time element of an array of bytes that is one too large to expand. -/
def largeArray (base : ℤ) : ProtoExpression :=
  .dynamicVariable (.comb base) 1 1 (byteValue 0) (2 ^ 23 + 1) none none 8 ⟨8, false⟩

/-- One of the statements that fill a cone up. -/
def filler : ProtoStatement := byteAssign (.comb (2 ^ 24 + 2)) (byteValue 0)

/-- Stores an element of the second array, and reads one outside every cone. -/
def adjacent : List ProtoStatement :=
  byteAssign (.comb (2 ^ 23 + 1)) (byteValue 5) ::
  byteAssign (.comb (2 ^ 24 + 3)) (largeArray (2 ^ 23 + 1)) ::
  byteAssign (.comb (2 ^ 24 + 2)) (largeArray 0) ::
  replicate 4997 filler

def adjacentOwners : OwnerInputs where
  nodeParent := [none, some 0]
  combOwner := [⟨0, 2 ^ 23 + 1, 1⟩, ⟨2 ^ 23 + 1, 2 ^ 24 + 2, 1⟩, ⟨2 ^ 24 + 2, 2 ^ 24 + 3, 1⟩,
    ⟨2 ^ 24 + 3, 2 ^ 24 + 4, 0⟩]
  ffOwner := ⟨[]⟩

theorem length_adjacent : adjacent.length = 5000 := by
  simp only [adjacent, length_cons, length_replicate]

theorem collect_fillers (n : ℕ) : (replicate n filler).flatMap
    (fun s => (s.walk true).flatMap Visit.collectBigArrays) = [] := by
  have hfiller : (filler.walk true).flatMap Visit.collectBigArrays = [] := by decide
  exact flatMap_eq_nil_iff.2 fun s hs => eq_of_mem_replicate hs ▸ hfiller

theorem fromStatements_adjacent : fromStatements adjacent = ⟨[(false, 0, 2 ^ 24 + 2)]⟩ := by
  rw [fromStatements, adjacent, flatMap_cons, flatMap_cons, flatMap_cons, collect_fillers]
  decide +kernel

/-- What the statements of the example are known to touch. -/
abbrev adjacentInfo (s : ProtoStatement) : StmtInfo :=
  stmtInfo adjacentOwners ⟨[(false, 0, 2 ^ 24 + 2)]⟩ 0 s

theorem mem_adjacent {s : ProtoStatement} (h : s ∈ adjacent) :
    (adjacentInfo s).inFf = [] ∧ ((adjacentInfo s).unbounded || hasSideEffects s) = false := by
  simp only [adjacent, mem_cons, mem_replicate] at h
  rcases h with rfl | rfl | rfl | ⟨-, rfl⟩
  · exact ⟨rfl, rfl⟩
  · exact ⟨rfl, rfl⟩
  · exact ⟨rfl, rfl⟩
  · exact ⟨rfl, rfl⟩

theorem infosOf_adjacent : infosOf adjacentOwners (.fromStatements adjacent) 0 adjacent =
    adjacent.map adjacentInfo := by
  rw [infosOf, fromStatements_adjacent]

theorem stmtCount_fillers {fold : BigArrayFold}
    (hone : (adjacentOwners.ancestors (stmtInfo adjacentOwners fold 0 filler).node).count 1 = 1)
    (n : ℕ) :
    stmtCount adjacentOwners ((replicate n filler).map (stmtInfo adjacentOwners fold 0)) 1 = n := by
  rw [stmtCount, map_replicate, map_replicate, hone, sum_replicate_nat, Nat.mul_one]

theorem conesOf_adjacent : conesOf adjacentOwners 0 adjacent = [1] := by
  have hpoisoned : poisoned adjacentOwners adjacent (adjacent.map adjacentInfo) 1 = false := by
    rw [poisoned, any_eq_false]
    rintro ⟨s, info⟩ hx
    obtain ⟨hs, hinfo⟩ := of_mem_zip hx
    obtain ⟨s', hs', rfl⟩ := mem_map.1 hinfo
    have hbounded := (mem_adjacent hs').2
    have heffects := (mem_adjacent hs).2
    rw [Bool.or_eq_false_iff] at hbounded heffects
    simp [hbounded.1, heffects.2]
  have hle : ∀ a b c : ℕ, minConeStmts ≤ a + (b + (c + 4997)) := by
    unfold minConeStmts
    omega
  have hcount : minConeStmts ≤ stmtCount adjacentOwners (adjacent.map adjacentInfo) 1 := by
    have hfillers : stmtCount adjacentOwners ((replicate 4997 filler).map adjacentInfo) 1 =
        4997 := stmtCount_fillers (by decide +kernel) 4997
    rw [stmtCount] at hfillers ⊢
    rw [adjacent, map_cons, map_cons, map_cons, map_cons, map_cons,
      map_cons, sum_cons, sum_cons, sum_cons, hfillers]
    exact hle _ _ _
  rw [conesOf, infosOf_adjacent, show List.range adjacentOwners.nodeParent.length = [0, 1] from rfl,
    filter_cons_of_neg (by simp [qualifies]), filter_cons_of_pos (by
      rw [qualifies, hpoisoned]
      simpa using hcount), filter_nil]

/-- All statements but the reader lie in the cone. -/
theorem slotOf_adjacent {i : ℕ} (hi : i < adjacent.length) :
    slotOf adjacentOwners 0 adjacent i = 0 ↔ i = 1 := by
  have hcone : ∀ s, adjacent[i]? = some s → slotOf adjacentOwners 0 adjacent i =
      coneOf adjacentOwners [1] (adjacentInfo s).node := by
    intro s hs
    rw [slotOf, conesOf_adjacent, infosOf_adjacent, getElem?_map, hs]
    rfl
  match i with
  | 0 =>
    rw [hcone _ rfl]
    decide
  | 1 =>
    rw [hcone _ rfl]
    decide
  | 2 =>
    rw [hcone _ rfl]
    decide
  | i + 3 =>
    have hs : adjacent[i + 3]? = some filler := by
      have hlt : i < 4997 := by
        rw [length_adjacent] at hi
        omega
      change (replicate 4997 _)[i]? = _
      rw [getElem?_replicate, if_pos hlt]
    rw [hcone _ hs]
    have : coneOf adjacentOwners [1] (adjacentInfo filler).node = 1 := rfl
    omega

theorem wellFormed_adjacentOwners : WellFormed adjacentOwners :=
  ⟨by decide, by decide, by decide⟩

theorem gathered_filler (fold : BigArrayFold) :
    Gathered adjacentOwners fold false filler filler where
  alike := by
    intro v hv x hx _ w hw y hy _
    obtain rfl := mem_singleton.1 hv
    obtain rfl := mem_singleton.1 hw
    obtain rfl := mem_singleton.1 hx
    rcases hy with hy | hy
    · cases hy
    · obtain rfl := mem_singleton.1 hy
      rfl
  unshared := by
    intro v hv a ha
    obtain rfl := mem_singleton.1 hv
    cases ha

theorem schedule_spec_fillers :
    ∃ sched, schedule (replicate 5000 filler) adjacentOwners = some sched ∧
      sched.order.Perm (List.range (replicate 5000 filler).length) ∧
      (sched.order.Pairwise fun a b => ∀ s ∈ (replicate 5000 filler)[a]?,
        ∀ t ∈ (replicate 5000 filler)[b]?, Dependent plainEnv.use4state s t → a < b) ∧
      Library.Computation.Equiv Output.view (runPass plainEnv (replicate 5000 filler))
        (runPass plainEnv (sched.apply (replicate 5000 filler))) := by
  have hcones : conesOf adjacentOwners 0 (replicate 5000 filler) ≠ [] := by
    have hfold : fromStatements (replicate 5000 filler) = ⟨[]⟩ := by
      rw [fromStatements, collect_fillers]
      rfl
    have hpoisoned : poisoned adjacentOwners (replicate 5000 filler)
        ((replicate 5000 filler).map (stmtInfo adjacentOwners ⟨[]⟩ 0)) 1 = false := by
      rw [poisoned, any_eq_false]
      rintro ⟨s, info⟩ hx
      obtain ⟨hs, hinfo⟩ := of_mem_zip hx
      obtain ⟨s', hs', rfl⟩ := mem_map.1 hinfo
      obtain rfl := eq_of_mem_replicate hs
      obtain rfl := eq_of_mem_replicate hs'
      decide
    refine ne_nil_of_mem (mem_filter.2 ⟨mem_range.2 Nat.one_lt_two, ?_⟩)
    rw [infosOf, hfold, qualifies, hpoisoned, stmtCount_fillers rfl]
    decide
  obtain ⟨sched, hsched⟩ := exists_schedule (show _ = some 0 from rfl) hcones
    (by rw [length_replicate]; decide)
  refine ⟨sched, hsched, schedule_spec plainEnv wellFormed_adjacentOwners hsched (.inr ?_)⟩
  exact pairwise_replicate.2 (.inr ⟨gathered_filler _, gathered_filler _⟩)

/-- The reader waits for no statement. -/
theorem edgesOf_adjacent (he : e ∈ edgesOf adjacentOwners 0 adjacent) : e.2 ≠ 1 := by
  intro h₁
  have h₀ : e.1 = 0 := by
    have := edgesOf_fwd wellFormed_adjacentOwners he
    omega
  have he := mem_edgeSet.1 he
  rw [infosOf_adjacent] at he
  have hspec : specials adjacent (adjacent.map adjacentInfo) = [] := by
    rw [specials, map_eq_nil_iff, filter_eq_nil_iff]
    rintro ⟨⟨s, info⟩, j⟩ hx
    have hx := List.mem_zipIdx_iff_getElem?.1 hx
    rw [getElem?_zip_eq_some, getElem?_map] at hx
    obtain ⟨s', hs', rfl⟩ := Option.map_eq_some_iff.1 hx.2
    obtain rfl : s = s' := Option.some.inj (hx.1.symm.trans hs')
    simpa using (mem_adjacent (mem_of_getElem? hs')).2
  have hff : ∀ info ∈ adjacent.map adjacentInfo, info.inFf = [] := by
    intro info hinfo
    obtain ⟨s, hs, rfl⟩ := mem_map.1 hinfo
    exact (mem_adjacent hs).1
  obtain ⟨k, p, q, hp, hq, hk⟩ := of_mem_hazards hff hspec he
  rw [h₀] at hp
  rw [h₁] at hq
  obtain rfl := Option.some.inj hp
  obtain rfl := Option.some.inj hq
  have hdisj : ∀ k, ¬ (k ∈ spansOf adjacentOwners (adjacentInfo (byteAssign (.comb (2 ^ 23 + 1))
          (byteValue 5))).outComb ∧
      k ∈ spansOf adjacentOwners ((adjacentInfo (byteAssign (.comb (2 ^ 24 + 3))
          (largeArray (2 ^ 23 + 1)))).outComb ++ (adjacentInfo (byteAssign (.comb (2 ^ 24 + 3))
          (largeArray (2 ^ 23 + 1)))).inComb)) := by
    have : ∀ k ∈ spansOf adjacentOwners (adjacentInfo (byteAssign (.comb (2 ^ 23 + 1))
          (byteValue 5))).outComb, k ∉ spansOf adjacentOwners ((adjacentInfo (byteAssign
          (.comb (2 ^ 24 + 3)) (largeArray (2 ^ 23 + 1)))).outComb ++ (adjacentInfo (byteAssign
          (.comb (2 ^ 24 + 3)) (largeArray (2 ^ 23 + 1)))).inComb) := by
      decide
    exact fun k hk => this k hk.1 hk.2
  rcases hk with hk | hk
  · exact hdisj k hk
  · have : spansOf adjacentOwners (adjacentInfo (byteAssign (.comb (2 ^ 23 + 1))
        (byteValue 5))).inComb = [] := rfl
    cases hk.1

/-- The reader of an element is emitted before the store it should see. -/
theorem schedule_adjacent : WellFormed adjacentOwners ∧
    ∃ sched, schedule adjacent adjacentOwners = some sched ∧
      ¬ sched.order.Pairwise fun a b => ∀ s ∈ adjacent[a]?, ∀ t ∈ adjacent[b]?,
        Dependent false s t → a < b := by
  refine ⟨wellFormed_adjacentOwners, ?_⟩
  obtain ⟨sched, hsched⟩ := exists_schedule (show _ = some 0 from rfl)
    (show conesOf adjacentOwners 0 adjacent ≠ [] by simp [conesOf_adjacent])
    (by rw [length_adjacent]; decide)
  refine ⟨sched, hsched, fun hpair => ?_⟩
  have hlen := length_adjacent
  have hperm := (order_spec wellFormed_adjacentOwners hsched).1
  rcases schedule_order hsched with ⟨hn, -⟩ | ⟨-, root, hroot, horder⟩
  · rw [hlen, clusterMinStmts] at hn
    omega
  · obtain rfl : 0 = root := Option.some.inj hroot
    have hready : slotOf adjacentOwners 0 adjacent 1 = 0 := (slotOf_adjacent (by omega)).2 rfl
    obtain ⟨i, rest, hhead, hslot⟩ := kahn_head (slotOf adjacentOwners 0 adjacent)
      (fun e => edgesOf_fwd wellFormed_adjacentOwners) (fun e => edgesOf_lt)
      (fun i => coneOf_lt _ _) (show 1 < adjacent.length by omega) hready
      fun e => edgesOf_adjacent
    rw [horder, hhead] at hperm hpair
    have hi : i < adjacent.length := mem_range.1 (hperm.mem_iff.1 mem_cons_self)
    obtain rfl := (slotOf_adjacent hi).1 hslot
    have hrest : 0 ∈ rest := by
      have : 0 ∈ 1 :: rest := hperm.mem_iff.2 (mem_range.2 (by omega))
      simpa using this
    have hconflict : Conflict false (byteAssign (.comb (2 ^ 23 + 1)) (byteValue 5))
        (byteAssign (.comb (2 ^ 24 + 3)) (largeArray (2 ^ 23 + 1))) := by
      refine ⟨.comb (2 ^ 23 + 1), ⟨⟨.comb (2 ^ 23 + 1), 0, 1⟩, ?_, 0, by decide, rfl⟩,
        .inl ⟨⟨.comb (2 ^ 23 + 1), 1 * (0 : ℕ), 1⟩, ?_, 0, by decide, rfl⟩⟩
      · exact mem_flatMap.2 ⟨_, mem_singleton.2 rfl, mem_singleton.2 rfl⟩
      · refine mem_flatMap.2 ⟨_, mem_singleton.2 rfl, ?_⟩
        refine mem_append_left _ (mem_append_left _ ?_)
        simp only [largeArray, ProtoExpression.accesses_dynamicVariable, mem_append]
        exact .inr (.inr (element_mem_stridedAccesses (by decide)))
    have := rel_of_pairwise_cons hpair hrest _ rfl _ rfl (.inr (.inl hconflict))
    omega

end Order

end Veryl.Simulator.Opt.ConeOrder
