import Veryl.Simulator.DerivedClock

/-!
Where the driven candidates are in the schedule, and where the copy chains lead: the
source of an alias is a clock that is kept or an input clock.
-/

namespace Veryl.Simulator.DerivedClocks

open List Option

variable {turns : ℕ} {nearest : Option VarId}

variable {o : VarOffset} {v : VarId}

variable {external : List ProtoStatement → VarOffset → Bool} {stmts : List ProtoStatement}
  {inputClocks : VarOffset → Option VarId} {resets : List DerivedReset}

/-- The offset is reached from another one along copies. -/
def Chain (external : List ProtoStatement → VarOffset → Bool) (stmts : List ProtoStatement)
    (o o' : VarOffset) : Prop :=
  Relation.ReflTransGen (fun a b => copiedFrom external stmts a = some b) o o'

theorem copyRootLoop_chain (turns : ℕ) (o : VarOffset) :
    Chain external stmts o (copyRootLoop external stmts turns o) := by
  induction turns generalizing o with
  | zero => exact .refl
  | succ turns ih =>
    rw [copyRootLoop]
    split
    · rename_i next hnext
      exact .head hnext (ih next)
    · exact .refl

theorem copyRoot_chain (o : VarOffset) : Chain external stmts o (copyRoot external stmts o) :=
  copyRootLoop_chain _ o

section Sources

variable {clockAt : VarOffset → Option (VarId × Bool)}

section

variable (h : copiedSourceLoop external stmts inputClocks clockAt turns o nearest = some v)

include h

theorem copiedSourceLoop_mono {turns' : ℕ} (hle : turns ≤ turns') :
    copiedSourceLoop external stmts inputClocks clockAt turns' o nearest = some v := by
  induction turns generalizing turns' o nearest with
  | zero => cases h
  | succ turns ih =>
    obtain ⟨turns', rfl⟩ : ∃ n, turns' = n + 1 := ⟨turns' - 1, by omega⟩
    rw [copiedSourceLoop] at h ⊢
    split at h
    · cases h
    split at h
    · rename_i hwriters
      simp only [if_pos hwriters]
      exact h
    · rename_i hwriters
      simp only [if_neg hwriters]
      split at h
      · exact ih h (by omega)
      · exact h

theorem copiedSourceLoop_spec :
    nearest = some v ∨ ∃ o', Chain external stmts o o' ∧
      (writers external stmts o' = [] ∧ inputClocks o' = some v ∨ clockAt o' = some (v, false) ∧
        copiedSourceLoop external stmts inputClocks clockAt turns o' none = some v) := by
  induction turns generalizing o nearest with
  | zero => cases h
  | succ turns ih =>
    have hloop := h
    rw [copiedSourceLoop] at h
    split at h
    · cases h
    rename_i hrising
    have hstep : ((clockAt o).map (·.1)).or nearest = some v ∨
        ∃ o', Chain external stmts o o' ∧
          (writers external stmts o' = [] ∧ inputClocks o' = some v ∨
            clockAt o' = some (v, false) ∧ copiedSourceLoop external stmts inputClocks clockAt
              (turns + 1) o' none = some v) := by
      split at h
      · rename_i hwriters
        cases hinput : inputClocks o with
        | none => exact Or.inl (by simpa [hinput] using h)
        | some input =>
          simp only [hinput, some_or] at h
          exact Or.inr ⟨o, .refl, Or.inl ⟨hwriters, hinput.trans h⟩⟩
      · split at h
        · rename_i next hnext
          rcases ih h with hnearest | ⟨o', hchain, hinput | ⟨hat, hself⟩⟩
          · exact Or.inl hnearest
          · exact Or.inr ⟨o', .head hnext hchain, Or.inl hinput⟩
          · exact Or.inr ⟨o', .head hnext hchain, Or.inr ⟨hat,
              copiedSourceLoop_mono hself (Nat.le_succ turns)⟩⟩
        · exact Or.inl h
    rcases hstep with hnearest | hlater
    · cases hclock : clockAt o with
      | none => exact Or.inl (by simpa [hclock] using hnearest)
      | some clock =>
        -- The clock of the offset is the source, and the loop from it forgets what was
        -- nearest before.
        obtain ⟨c, negedge⟩ := clock
        simp only [hclock, map_some, some_or, some.injEq] at hnearest
        have hposedge : negedge = false := by
          cases negedge with
          | false => rfl
          | true => exact (hrising c hclock).elim
        rw [hposedge] at hclock
        refine Or.inr ⟨o, .refl, Or.inr ⟨by rw [hclock, hnearest], ?_⟩⟩
        rw [copiedSourceLoop] at hloop ⊢
        simp only [hclock, map_some, some_or] at hloop ⊢
        exact hloop
    · exact Or.inr hlater

/-- A walk that finds a source ends, and passes no net that is sensitive to the falling edge. -/
theorem copiedSourceLoop_rising :
    (∃ e, Chain external stmts o e ∧ copiedFrom external stmts e = none) ∧
      (∀ b u, Chain external stmts o b → clockAt b ≠ some (u, true)) ∧
        ∀ b u, Chain external stmts o b → writers external stmts b = [] → inputClocks b = some u →
          u = v := by
  induction turns generalizing o nearest with
  | zero => cases h
  | succ turns ih =>
    rw [copiedSourceLoop] at h
    split at h
    · cases h
    rename_i hrising
    -- where the walk stops, the net is the only one on the chain
    have hstop : copiedFrom external stmts o = none → ∀ b, Chain external stmts o b → b = o := by
      intro hnone b hchain
      rcases Relation.ReflTransGen.cases_head hchain with heq | ⟨next, hnext, -⟩
      · exact heq.symm
      · cases hnone.symm.trans hnext
    split at h
    · rename_i hwriters
      have hnone : copiedFrom external stmts o = none := by rw [copiedFrom, hwriters]
      refine ⟨⟨o, .refl, hnone⟩, fun b u hchain => ?_, fun b u hchain _ hinput => ?_⟩
      · rw [hstop hnone b hchain]
        exact hrising u
      · rw [hstop hnone b hchain] at hinput
        rw [hinput, some_or] at h
        exact some.inj h
    · rename_i hwriters
      split at h
      · rename_i next hnext
        obtain ⟨⟨e, hchain, hend⟩, hrest, hinputs⟩ := ih h
        have hcases : ∀ b, Chain external stmts o b → b = o ∨ Chain external stmts next b := by
          intro b hchain
          rcases Relation.ReflTransGen.cases_head hchain with heq | ⟨next', hnext', htail⟩
          · exact Or.inl heq.symm
          · obtain rfl : next = next' := some.inj (hnext.symm.trans hnext')
            exact Or.inr htail
        refine ⟨⟨e, .head hnext hchain, hend⟩, fun b u hb => ?_, fun b u hb hnone hinput => ?_⟩
        · rcases hcases b hb with rfl | hb
          · exact hrising u
          · exact hrest b u hb
        · rcases hcases b hb with rfl | hb
          · exact absurd hnone hwriters
          · exact hinputs b u hb hnone hinput
      · rename_i hnone
        refine ⟨⟨o, .refl, hnone⟩, fun b u hchain => ?_, fun b u hchain hwriters' _ => ?_⟩
        · rw [hstop hnone b hchain]
          exact hrising u
        · rw [hstop hnone b hchain] at hwriters'
          exact absurd hwriters' hwriters

end

end Sources

theorem clockAt_eq_some {clocks : List DerivedClock} {negedge : Bool}
    (h : clockAt clocks o = some (v, negedge)) :
    ∃ clk ∈ clocks, clk.currentOffset = o ∧ clk.varId = v ∧ clk.negedge = negedge := by
  simp only [clockAt, map_eq_some_iff, Prod.mk.injEq] at h
  obtain ⟨clk, hfind, hv, hnegedge⟩ := h
  have hoffset := find?_some hfind
  exact ⟨clk, by simpa using mem_of_find?_eq_some hfind, by simpa using hoffset, hv, hnegedge⟩

variable {negedgeInputs : List VarId} {clocks : List DerivedClock} {clk : DerivedClock}

/-- The walk along the copies of a net ends, and meets no net that is sensitive to the falling
edge. -/
structure Rises (external : List ProtoStatement → VarOffset → Bool) (stmts : List ProtoStatement)
    (inputClocks : VarOffset → Option VarId) (negedgeInputs : List VarId)
    (clocks : List DerivedClock) (o : VarOffset) : Prop where
  ends : ∃ e, Chain external stmts o e ∧ copiedFrom external stmts e = none
  clocks : ∀ b v, Chain external stmts o b → clockAt clocks b ≠ some (v, true)
  inputs : ∀ b v, Chain external stmts o b → writers external stmts b = [] →
    inputClocks b = some v → v ∉ negedgeInputs

/-- An input clock that nothing writes, or a clock that is sensitive to the rising edge. -/
def Sourced (external : List ProtoStatement → VarOffset → Bool) (stmts : List ProtoStatement)
    (inputClocks : VarOffset → Option VarId) (clocks : List DerivedClock) (o : VarOffset) : Prop :=
  writers external stmts o = [] ∧ (inputClocks o).isSome ∨ ∃ v, clockAt clocks o = some (v, false)

theorem aliasOf_rises {source : VarId}
    (h : aliasOf external stmts inputClocks negedgeInputs clocks clk = some source) :
    Rises external stmts inputClocks negedgeInputs clocks clk.currentOffset := by
  rw [aliasOf] at h
  split at h
  · cases h
  rw [filter_eq_some_iff] at h
  obtain ⟨hsource, hfilter⟩ := h
  obtain ⟨hends, hclocks, hinputs⟩ := copiedSourceLoop_rising hsource
  refine ⟨hends, hclocks, fun b v hchain hwriters hinput => ?_⟩
  rw [hinputs b v hchain hwriters hinput]
  exact (by simpa using hfilter : source ≠ clk.varId ∧ source ∉ negedgeInputs).2

theorem aliasOf_spec {source : VarId}
    (h : aliasOf external stmts inputClocks negedgeInputs clocks clk = some source) :
    clk.negedge = false ∧ source ∉ negedgeInputs ∧
      ∃ o', Chain external stmts clk.currentOffset o' ∧
        Sourced external stmts inputClocks clocks o' ∧ (inputClocks o' = some source ∨
          ∃ clk' ∈ clocks, clk'.currentOffset = o' ∧ clk'.varId = source ∧ clk'.negedge = false ∧
            aliasOf external stmts inputClocks negedgeInputs clocks clk' = none) := by
  rw [aliasOf] at h
  split at h
  · cases h
  rename_i hplain
  rw [filter_eq_some_iff] at h
  obtain ⟨hsource, hfilter⟩ := h
  obtain ⟨hne, hposedge⟩ : source ≠ clk.varId ∧ source ∉ negedgeInputs := by
    simpa using hfilter
  refine ⟨by simpa using fun hneg => hplain (Or.inl hneg), hposedge, ?_⟩
  rcases copiedSourceLoop_spec hsource with hnearest | ⟨o', hchain, hinput | ⟨hat, hself⟩⟩
  · cases hnearest
  · exact ⟨o', hchain, Or.inl ⟨hinput.1, by rw [hinput.2]; rfl⟩, Or.inl hinput.2⟩
  · obtain ⟨clk', hmem, hoffset, hvar, hnegedge⟩ := clockAt_eq_some hat
    refine ⟨o', hchain, Or.inr ⟨source, hat⟩, Or.inr ⟨clk', hmem, hoffset, hvar, hnegedge, ?_⟩⟩
    rw [aliasOf]
    split
    · rfl
    · rw [copiedSource, hoffset, hself, hvar]
      simp

theorem joinGroup_members (source : VarOffset) (activeLow : Bool) (c : EdgeCandidate)
    (resets : List DerivedReset) :
    ((joinGroup source activeLow c resets).flatMap (·.members)).Perm
      (resets.flatMap (·.members) ++ [c.varId]) := by
  induction resets with
  | nil => exact .refl _
  | cons r resets ih =>
    rw [joinGroup]
    split
    · simp only [flatMap_cons, append_assoc]
      exact List.Perm.append_left _ perm_append_comm
    · simp only [flatMap_cons, append_assoc]
      exact List.Perm.append_left _ ih

theorem joinGroup_all {P : VarId → VarOffset → Bool → Prop} {source : VarOffset}
    {activeLow : Bool} {c : EdgeCandidate}
    (h : ∀ r ∈ resets, ∀ v ∈ r.members, P v r.currentOffset r.activeLow)
    (hnew : P c.varId source activeLow) :
    ∀ r ∈ joinGroup source activeLow c resets, ∀ v ∈ r.members,
      P v r.currentOffset r.activeLow := by
  induction resets with
  | nil => simpa [joinGroup] using hnew
  | cons r resets ih =>
    have htail : ∀ r ∈ resets, ∀ v ∈ r.members, P v r.currentOffset r.activeLow :=
      fun r' hr' => h r' (mem_cons_of_mem _ hr')
    rw [joinGroup]
    split
    · rename_i hkey
      obtain ⟨rfl, rfl⟩ := hkey
      intro r' hr' v hv
      rcases mem_cons.1 hr' with rfl | hr'
      · rcases mem_append.1 hv with hv | hv
        · exact h r mem_cons_self v hv
        · rw [mem_singleton.1 hv]
          exact hnew
      · exact htail r' hr' v hv
    · intro r' hr'
      rcases mem_cons.1 hr' with rfl | hr'
      · exact h r' mem_cons_self
      · exact ih htail r' hr'

variable (external stmts) in
theorem addReset_members (candidates : List EdgeCandidate) (resets : List DerivedReset) :
    ((candidates.foldl (addReset external stmts) resets).flatMap (·.members)).Perm
      (resets.flatMap (·.members) ++ (candidates.filter fun c =>
        c.polarity.isSome ∧ Driven external stmts c.offset).map (·.varId)) := by
  induction candidates generalizing resets with
  | nil => simp
  | cons c candidates ih =>
    refine (ih (addReset external stmts resets c)).trans ?_
    by_cases hdriven : Driven external stmts c.offset
    · cases hpolarity : c.polarity with
      | none => simp [addReset, hpolarity]
      | some activeLow =>
        have hadd : addReset external stmts resets c =
            joinGroup (copyRoot external stmts c.offset) activeLow c resets := by
          simp [addReset, hpolarity, hdriven, Option.filter]
        have hfilter : ((c :: candidates).filter fun c =>
            c.polarity.isSome ∧ Driven external stmts c.offset) =
            c :: candidates.filter fun c =>
              c.polarity.isSome ∧ Driven external stmts c.offset := by
          simp [hpolarity, hdriven]
        rw [hadd, hfilter, map_cons]
        refine (List.Perm.append_right _ (joinGroup_members _ _ _ _)).trans ?_
        rw [append_assoc, singleton_append]
    · have hadd : addReset external stmts resets c = resets := by
        cases hpolarity : c.polarity <;> simp [addReset, hpolarity, hdriven, Option.filter]
      rw [hadd]
      simp [hdriven]

/-- What the members of a group copy. -/
def Grouped (external : List ProtoStatement → VarOffset → Bool) (stmts : List ProtoStatement)
    (candidates : List EdgeCandidate) (v : VarId) (source : VarOffset) (activeLow : Bool) : Prop :=
  ∃ c ∈ candidates, c.varId = v ∧ c.polarity = some activeLow ∧ Driven external stmts c.offset ∧
    Chain external stmts c.offset source

theorem addReset_grouped {candidates : List EdgeCandidate} (rest : List EdgeCandidate)
    (hsub : rest ⊆ candidates)
    (h : ∀ r ∈ resets, ∀ v ∈ r.members,
      Grouped external stmts candidates v r.currentOffset r.activeLow) :
    ∀ r ∈ rest.foldl (addReset external stmts) resets, ∀ v ∈ r.members,
      Grouped external stmts candidates v r.currentOffset r.activeLow := by
  induction rest generalizing resets with
  | nil => exact h
  | cons c rest ih =>
    refine ih (fun c' hc' => hsub (mem_cons_of_mem _ hc')) ?_
    rw [addReset]
    split
    · exact h
    · rename_i activeLow hpolarity
      rw [filter_eq_some_iff] at hpolarity
      obtain ⟨hpolarity, hdriven⟩ := hpolarity
      exact joinGroup_all h ⟨c, hsub mem_cons_self, rfl, hpolarity,
        by simpa using hdriven, copyRoot_chain _⟩

variable {candidates : List EdgeCandidate}

theorem mem_sortedClocks : clk ∈ sortedClocks external stmts candidates ↔
    ∃ c ∈ candidates, c.polarity = none ∧ Driven external stmts c.offset ∧
      clk = ⟨c.varId, c.offset, c.nativeBytes, false, c.negedge⟩ := by
  rw [sortedClocks, (perm_insertionSort _ _).mem_iff, candidateClocks]
  simp only [List.mem_map, mem_filter, decide_eq_true_eq, isNone_iff_eq_none]
  constructor
  · rintro ⟨c, ⟨hc, hclock, hdriven⟩, rfl⟩
    exact ⟨c, hc, hclock, hdriven, rfl⟩
  · rintro ⟨c, hc, hclock, hdriven, rfl⟩
    exact ⟨c, ⟨hc, hclock, hdriven⟩, rfl⟩

theorem kept_aliases_perm (source : DerivedClock → Option VarId) (clocks : List DerivedClock) :
    ((clocks.filter fun clk => (source clk).isNone).map (·.varId) ++
      (clocks.filterMap fun clk => (source clk).map fun v => (clk.varId, v)).map (·.1)).Perm
      (clocks.map (·.varId)) := by
  induction clocks with
  | nil => exact .refl _
  | cons clk clocks ih =>
    cases hsource : source clk with
    | none => simpa [hsource] using ih
    | some v =>
      have hkept : (clk :: clocks).filter (fun clk => (source clk).isNone) =
          clocks.filter fun clk => (source clk).isNone := by
        simp [hsource]
      have halias : (clk :: clocks).filterMap (fun clk =>
          (source clk).map fun v => (clk.varId, v)) = (clk.varId, v) :: clocks.filterMap
            fun clk => (source clk).map fun v => (clk.varId, v) := by
        simp [hsource]
      rw [hkept, halias, map_cons, map_cons]
      exact perm_middle.trans (ih.cons _)

theorem buildSchedule_places (candidates : List EdgeCandidate) (negedgeInputs : List VarId) :
    let schedule := buildSchedule external stmts inputClocks candidates negedgeInputs
    (schedule.clocks.map (·.varId) ++ schedule.aliases.map (·.1) ++
      schedule.resets.flatMap (·.members)).Perm
      ((candidates.filter fun c => Driven external stmts c.offset).map (·.varId)) := by
  intro schedule
  have hgate : schedule.clocks.map (·.varId) =
      ((sortedClocks external stmts candidates).filter fun clk =>
        (aliasOf external stmts inputClocks negedgeInputs
          (sortedClocks external stmts candidates) clk).isNone).map (·.varId) := by
    simp only [schedule, buildSchedule, List.map_map]
    refine map_congr_left fun clk _ => ?_
    simp only [Function.comp_apply, gate]
    split <;> rfl
  have hclocks : (schedule.clocks.map (·.varId) ++ schedule.aliases.map (·.1)).Perm
      ((candidates.filter fun c => c.polarity.isNone ∧
        Driven external stmts c.offset).map (·.varId)) := by
    rw [hgate]
    refine (kept_aliases_perm _ _).trans ?_
    refine ((perm_insertionSort _ _).map _).trans ?_
    rw [candidateClocks, List.map_map]
    exact .refl _
  have hresets := addReset_members (external) (stmts) candidates []
  refine (hclocks.append hresets).trans ?_
  rw [flatMap_nil, nil_append, ← map_append]
  refine List.Perm.map _ ?_
  have hsplit := filter_append_perm (fun c : EdgeCandidate => c.polarity.isNone)
    (candidates.filter fun c => Driven external stmts c.offset)
  simp only [List.filter_filter] at hsplit
  refine List.Perm.trans (List.Perm.of_eq ?_) hsplit
  congr 1
  · refine filter_congr fun c _ => ?_
    cases c.polarity <;> simp
  · refine filter_congr fun c _ => ?_
    cases c.polarity <;> simp

end Veryl.Simulator.DerivedClocks
