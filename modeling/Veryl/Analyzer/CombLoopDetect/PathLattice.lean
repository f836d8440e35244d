import Veryl.Analyzer.CombLoopDetect.Dag

/-!
Path conditions as sets of valuations. A condition denotes a product of sets of arms; the
conjunction is the intersection, the disjunction the least product above both, and a renaming of
the branches the preimage.
-/

namespace Veryl.Analyzer.CombLoopDetect

open Veryl.Library List Function

variable {c d : BranchConstraint}

variable {cs : List BranchConstraint}

/-- Puts a constraint in its place, over the one its branch had. -/
def insertConstraint (c : BranchConstraint) : List BranchConstraint → List BranchConstraint
  | [] => [c]
  | d :: rest =>
    if c.branch < d.branch then c :: d :: rest
    else if d.branch < c.branch then d :: insertConstraint c rest
    else c :: rest

theorem branch_of_mem_insertConstraint
    (h : d ∈ insertConstraint c cs) : d.branch = c.branch ∨ d ∈ cs := by
  induction cs with
  | nil => exact .inl (by rw [mem_singleton.1 h])
  | cons e rest ih =>
    rw [insertConstraint] at h
    split at h
    · rcases mem_cons.1 h with rfl | h
      · exact .inl rfl
      · exact .inr h
    split at h
    · rcases mem_cons.1 h with rfl | h
      · exact .inr mem_cons_self
      · exact (ih h).imp_right (mem_cons_of_mem _)
    · rcases mem_cons.1 h with rfl | h
      · exact .inl rfl
      · exact .inr (mem_cons_of_mem _ h)

theorem sorted_insertConstraint (c : BranchConstraint)
    (h : cs.Pairwise fun c d => c.branch < d.branch) :
    (insertConstraint c cs).Pairwise fun c d => c.branch < d.branch := by
  induction cs with
  | nil => exact pairwise_singleton _ _
  | cons e rest ih =>
    rw [insertConstraint]
    split
    · rename_i hlt
      refine List.Pairwise.cons (fun d hd => ?_) h
      rcases mem_cons.1 hd with rfl | hd
      · exact hlt
      · exact hlt.trans (rel_of_pairwise_cons h hd)
    split
    · rename_i hlt
      refine List.Pairwise.cons (fun d hd => ?_) (ih h.of_cons)
      rcases branch_of_mem_insertConstraint hd with hd | hd
      · exact hd ▸ hlt
      · exact rel_of_pairwise_cons h hd
    · rename_i hle hge
      have heq : c.branch = e.branch := le_antisymm (not_lt.1 hge) (not_lt.1 hle)
      exact List.Pairwise.cons (fun d hd => heq ▸ rel_of_pairwise_cons h hd) h.of_cons

theorem mem_insertConstraint (h : cs.Pairwise fun c d => c.branch < d.branch) :
    d ∈ insertConstraint c cs ↔ d = c ∨ d ∈ cs ∧ d.branch ≠ c.branch := by
  induction cs with
  | nil => simp [insertConstraint]
  | cons e rest ih =>
    have hlater : ∀ d ∈ rest, e.branch < d.branch := fun d hd => rel_of_pairwise_cons h hd
    rw [insertConstraint]
    split
    · rename_i hlt
      have hne : ∀ d ∈ e :: rest, d.branch ≠ c.branch := by
        intro d hd
        rcases mem_cons.1 hd with rfl | hd
        · exact hlt.ne'
        · exact (hlt.trans (hlater d hd)).ne'
      rw [mem_cons]
      exact or_congr_right ⟨fun hd => ⟨hd, hne d hd⟩, fun hd => hd.1⟩
    split
    · rename_i hlt
      rw [mem_cons, ih h.of_cons, mem_cons]
      constructor
      · rintro (rfl | rfl | ⟨hd, hne⟩)
        · exact .inr ⟨.inl rfl, hlt.ne⟩
        · exact .inl rfl
        · exact .inr ⟨.inr hd, hne⟩
      · rintro (rfl | ⟨rfl | hd, hne⟩)
        · exact .inr (.inl rfl)
        · exact .inl rfl
        · exact .inr (.inr ⟨hd, hne⟩)
    · rename_i hle hge
      have heq : c.branch = e.branch := le_antisymm (not_lt.1 hge) (not_lt.1 hle)
      rw [mem_cons, mem_cons]
      constructor
      · rintro (rfl | hd)
        · exact .inl rfl
        · exact .inr ⟨.inr hd, heq ▸ (hlater d hd).ne'⟩
      · rintro (rfl | ⟨rfl | hd, hne⟩)
        · exact .inl rfl
        · exact absurd heq.symm hne
        · exact .inr hd

namespace PathCondition

variable {p q r : PathCondition} {v : Valuation}

/-- Restricts the branch to a range of its arms, in the place of what was required of it. -/
def withChoiceRange (p : PathCondition) (branch : BranchId) (start stop : ℕ) : PathCondition :=
  ⟨insertConstraint ⟨branch, .range start stop⟩ p.constraints, sorted_insertConstraint _ p.sorted⟩

def withChoice (p : PathCondition) (branch : BranchId) (arm : ℕ) : PathCondition :=
  p.withChoiceRange branch arm (arm + 1)

/-- The renaming keeps the branches that are mentioned apart. -/
def RenamesApart (branches : List (BranchId × BranchId)) (g : Guard) : Prop :=
  ∀ c ∈ g, ∀ d ∈ g, renamed branches c.branch = renamed branches d.branch → c.branch = d.branch

theorem sorted_remapped_iff (p : PathCondition) (branches : List (BranchId × BranchId)) :
    (Guard.remapped branches p.constraints).Pairwise (fun c d => c.branch < d.branch) ↔
      RenamesApart branches p.constraints := by
  have hperm := perm_insertionSort (fun c d : BranchConstraint => c.branch ≤ d.branch)
    (p.constraints.map fun c => ⟨renamed branches c.branch, c.allowed⟩)
  have hmap : (p.constraints.map fun c : BranchConstraint =>
      (⟨renamed branches c.branch, c.allowed⟩ : BranchConstraint)).map (·.branch) =
      p.constraints.map fun c => renamed branches c.branch := by
    rw [map_map]
    rfl
  have hnodup : ((Guard.remapped branches p.constraints).map (·.branch)).Nodup ↔
      (p.constraints.map fun c => renamed branches c.branch).Nodup := by
    rw [← hmap]
    exact (hperm.map _).nodup_iff
  constructor
  · intro hsorted c hc d hd heq
    have hbranches := hnodup.1 (pairwise_map.2 (hsorted.imp ne_of_lt))
    rw [inj_on_of_nodup_map hbranches hc hd heq]
  · intro hapart
    have hconstraints : p.constraints.Nodup := p.sorted.imp fun h heq => (heq ▸ h).false
    have hbranches := hnodup.2 (hconstraints.map_on fun c hc d hd heq =>
      constraint_unique hc hd (hapart c hc d hd heq))
    have hle := pairwise_insertionSort (fun c d : BranchConstraint => c.branch ≤ d.branch)
      (p.constraints.map fun c => ⟨renamed branches c.branch, c.allowed⟩)
    exact (hle.and (pairwise_map.1 hbranches)).imp fun h => lt_of_le_of_ne h.1 h.2

def remapped (p : PathCondition) (branches : List (BranchId × BranchId))
    (h : RenamesApart branches p.constraints) : PathCondition :=
  ⟨Guard.remapped branches p.constraints, (p.sorted_remapped_iff branches).2 h⟩

/-- The conditions that the operations build. -/
inductive Built : PathCondition → Prop
  | unconditional : Built unconditional
  | withChoiceRange {p : PathCondition} (hp : Built p) (branch : BranchId) (start stop : ℕ)
      (hlt : start < stop) (hle : stop ≤ branch.arms) : Built (p.withChoiceRange branch start stop)
  | conjoin {p q r : PathCondition} (hp : Built p) (hq : Built q)
      (h : p.conjoinIfCompatible q = some r) : Built r
  | disjoin {p q : PathCondition} (hp : Built p) (hq : Built q) : Built (p.disjoin q)
  | disjoinExact {p q r : PathCondition} (hp : Built p) (hq : Built q)
      (h : p.disjoinExact q = some r) : Built r
  | remapped {p : PathCondition} (hp : Built p) (branches : List (BranchId × BranchId))
      (h : RenamesApart branches p.constraints)
      (harms : ∀ c ∈ p.constraints, ∀ arm, c.allowed.Has arm →
        arm < (renamed branches c.branch).arms) : Built (p.remapped branches h)

/-- The valuations that a condition admits. -/
def valuations (p : PathCondition) : Set Valuation := {v | p.Admits v}

/-- A set that restricts every branch on its own. -/
def Cartesian (s : Set Valuation) : Prop :=
  ∃ arms : BranchId → Set ℕ, s = {v | ∀ b, v.arm b ∈ arms b}

theorem cartesian_valuations (p : PathCondition) : Cartesian p.valuations :=
  ⟨fun b => {arm | ∀ a ∈ p.allowed b, a.Has arm}, rfl⟩

theorem Chosen.exists_admits_at (h : p.Chosen) {b : BranchId} (hb : p.AllowsAt v b) :
    ∃ u, p.Admits u ∧ u.arm b = v.arm b := by
  obtain ⟨u, hu⟩ := h.exists_admits
  refine ⟨⟨Function.update u.arm b (v.arm b), fun b' hb' => ?_⟩, fun b' => ?_, update_self _ _ _⟩
  · by_cases heq : b' = b
    · subst heq
      rw [update_self]
      exact v.lt b' hb'
    · rw [update_of_ne heq]
      exact u.lt b' hb'
  · by_cases heq : b' = b
    · subst heq
      intro a ha
      simpa using hb a ha
    · intro a ha
      simpa [update_of_ne heq] using hu b' a ha

theorem isLeast_disjoin (hp : p.Chosen) (hq : q.Chosen) :
    IsLeast {s | Cartesian s ∧ p.valuations ∪ q.valuations ⊆ s} (p.disjoin q).valuations := by
  refine ⟨⟨cartesian_valuations _, ?_⟩, ?_⟩
  · rintro v (hv | hv) b
    · exact (allowsAt_disjoin b).2 (.inl (hv b))
    · exact (allowsAt_disjoin b).2 (.inr (hv b))
  · rintro s ⟨⟨arms, rfl⟩, hsub⟩ v hv b
    rcases (allowsAt_disjoin b).1 (hv b) with hb | hb
    · obtain ⟨u, hu, heq⟩ := hp.exists_admits_at hb
      exact heq ▸ hsub (.inl hu) b
    · obtain ⟨u, hu, heq⟩ := hq.exists_admits_at hb
      exact heq ▸ hsub (.inr hu) b

theorem valuations_conjoin (h : p.conjoinIfCompatible q = some r) :
    r.valuations = p.valuations ∩ q.valuations :=
  Set.ext fun _ => admits_conjoin h

theorem conjoin_eq_none_iff (hp : p.Chosen) (hq : q.Chosen) :
    p.conjoinIfCompatible q = none ↔ p.valuations ∩ q.valuations = ∅ := by
  rw [Set.eq_empty_iff_forall_notMem]
  constructor
  · intro hnone v hv
    obtain ⟨r, hr⟩ := exists_conjoin hv.1 hv.2
    rw [hnone] at hr
    cases hr
  · intro hempty
    cases hr : p.conjoinIfCompatible q with
    | none => rfl
    | some r =>
      obtain ⟨v, hv⟩ := (hp.conjoin hq hr).exists_admits
      exact absurd ((admits_conjoin hr).1 hv) (hempty v)

theorem conjoin_unconditional (p : PathCondition) :
    p.conjoinIfCompatible unconditional = some p := by
  have hnil : conjoinConstraints p.constraints [] = some p.constraints := by
    cases p.constraints <;> simp [conjoinConstraints]
  rw [conjoinIfCompatible]
  split
  · rename_i hnone
    rw [unconditional, hnil] at hnone
    cases hnone
  · rename_i constraints hsome
    rw [unconditional, hnil] at hsome
    exact congrArg some (ext' (Option.some.inj hsome).symm)

theorem admits_withChoiceRange (p : PathCondition) (branch : BranchId) (start stop : ℕ) :
    (p.withChoiceRange branch start stop).Admits v ↔
      (start ≤ v.arm branch ∧ v.arm branch < stop) ∧ ∀ b, b ≠ branch → p.AllowsAt v b := by
  simp only [admits_iff_constraints, withChoiceRange, mem_insertConstraint p.sorted]
  constructor
  · intro h
    refine ⟨(ArmSet.has_range _ _ _).1 (h _ (.inl rfl)), fun b hb a ha => ?_⟩
    exact h ⟨b, a⟩ (.inr ⟨allowed_eq_some.1 ha, hb⟩)
  · rintro ⟨hrange, hothers⟩ c (rfl | ⟨hc, hne⟩)
    · exact (ArmSet.has_range _ _ _).2 hrange
    · exact hothers c.branch hne c.allowed (allowed_eq_some.2 hc)

theorem admits_remapped (p : PathCondition) (branches : List (BranchId × BranchId))
    (h : RenamesApart branches p.constraints) :
    (p.remapped branches h).Admits v ↔
      ∀ c ∈ p.constraints, c.allowed.Has ((v.arm ∘ renamed branches) c.branch) := by
  simp [admits_iff_constraints, remapped, Guard.remapped]

theorem Chosen.withChoiceRange (hp : p.Chosen) {branch : BranchId} {start stop : ℕ}
    (hlt : start < stop) (hle : stop ≤ branch.arms) :
    (p.withChoiceRange branch start stop).Chosen := by
  intro c hc
  rcases (mem_insertConstraint p.sorted).1 hc with rfl | ⟨hc, -⟩
  · refine ⟨⟨start, (ArmSet.has_range _ _ _).2 ⟨le_refl _, hlt⟩⟩, fun arm harm => ?_⟩
    exact ((ArmSet.has_range _ _ _).1 harm).2.trans_le hle
  · exact hp c hc

theorem Chosen.remapped (hp : p.Chosen) {branches : List (BranchId × BranchId)}
    (h : RenamesApart branches p.constraints)
    (harms : ∀ c ∈ p.constraints, ∀ arm, c.allowed.Has arm →
      arm < (renamed branches c.branch).arms) : (p.remapped branches h).Chosen := by
  intro c hc
  simp only [PathCondition.remapped, Guard.remapped, mem_insertionSort, mem_map] at hc
  obtain ⟨d, hd, rfl⟩ := hc
  exact ⟨(hp d hd).1, harms d hd⟩

theorem Built.chosen (h : Built p) : p.Chosen := by
  induction h with
  | unconditional => exact chosen_unconditional
  | withChoiceRange hp branch start stop hlt hle ih => exact ih.withChoiceRange hlt hle
  | conjoin hp hq h ihp ihq => exact ihp.conjoin ihq h
  | disjoin hp hq ihp ihq => exact ihp.disjoin ihq
  | disjoinExact hp hq h ihp ihq => exact ihp.disjoinExact ihq h
  | remapped hp branches h harms ih => exact ih.remapped h harms

/-- Constraints in the order of their branches, each branch once, and ranges of arms in order
that neither overlap nor touch. -/
structure Canonical (g : Guard) : Prop where
  branches : g.Pairwise fun c d => c.branch < d.branch
  ranges : ∀ c ∈ g, c.allowed.ranges.Pairwise fun s t => s.stop < t.start

theorem canonical (p : PathCondition) : Canonical p.constraints :=
  ⟨p.sorted, fun c _ => c.allowed.separated⟩

/-- The conditions that are built form a lattice of sets of valuations. -/
theorem built_lattice (hp : Built p) (hq : Built q) : Canonical p.constraints ∧
    (p.conjoinIfCompatible q = none ↔ p.valuations ∩ q.valuations = ∅) ∧
    (∀ r, p.conjoinIfCompatible q = some r → r.valuations = p.valuations ∩ q.valuations) ∧
    (p.covers q → q.valuations ⊆ p.valuations) ∧
    IsLeast {s | Cartesian s ∧ p.valuations ∪ q.valuations ⊆ s} (p.disjoin q).valuations ∧
    (∀ r, p.disjoinExact q = some r → r.valuations = p.valuations ∪ q.valuations) ∧
    (∀ branch start stop, (p.withChoiceRange branch start stop).valuations =
      {v | (start ≤ v.arm branch ∧ v.arm branch < stop) ∧ ∀ b, b ≠ branch → p.AllowsAt v b}) ∧
    ∀ branches, (Canonical (Guard.remapped branches p.constraints) ↔
        RenamesApart branches p.constraints) ∧
      ∀ h : RenamesApart branches p.constraints, (p.remapped branches h).valuations =
        {v | ∀ c ∈ p.constraints, c.allowed.Has ((v.arm ∘ renamed branches) c.branch)} := by
  refine ⟨p.canonical, conjoin_eq_none_iff hp.chosen hq.chosen, fun r h => valuations_conjoin h,
    fun h v hv => admits_of_covers h hv, isLeast_disjoin hp.chosen hq.chosen,
    fun r h => Set.ext fun v => admits_disjoinExact h,
    fun branch start stop => Set.ext fun v => admits_withChoiceRange p branch start stop,
    fun branches => ⟨⟨fun h => (p.sorted_remapped_iff branches).1 h.branches, fun h => ?_⟩,
      fun h => Set.ext fun v => admits_remapped p branches h⟩⟩
  exact (p.remapped branches h).canonical

section Renamings

/-- Two branches of two arms, and one of four. -/
def firstBranch : BranchId := ⟨0, 0, 2⟩

def secondBranch : BranchId := ⟨0, 1, 2⟩

def wideBranch : BranchId := ⟨0, 2, 4⟩

/-- The first arm of the one branch and the second arm of the other. -/
def twoChoices : PathCondition :=
  (unconditional.withChoiceRange firstBranch 0 1).withChoiceRange secondBranch 1 2

theorem built_twoChoices : Built twoChoices :=
  .withChoiceRange (.withChoiceRange .unconditional _ _ _ (by decide) (by decide)) _ _ _ (by decide)
    (by decide)

def thirdArm : PathCondition := unconditional.withChoiceRange wideBranch 2 3

theorem built_lattice_twoChoices : Built twoChoices ∧
      IsLeast {s | Cartesian s ∧ twoChoices.valuations ∪ thirdArm.valuations ⊆ s}
        (twoChoices.disjoin thirdArm).valuations :=
  ⟨built_twoChoices, (built_lattice built_twoChoices
    (.withChoiceRange .unconditional _ _ _ (by decide) (by decide))).2.2.2.2.1⟩

/-- Two branches that become one are constrained twice; and an arm that the new branch does not
have leaves no valuation, where the conjunction finds one. -/
theorem remapped_not_canonical : (Built twoChoices ∧
      ¬ Canonical (Guard.remapped [(secondBranch, firstBranch)] twoChoices.constraints)) ∧
    Built thirdArm ∧ ∃ h : RenamesApart [(wideBranch, firstBranch)] thirdArm.constraints,
      (thirdArm.remapped _ h).conjoinIfCompatible unconditional ≠ none ∧
      (thirdArm.remapped _ h).valuations ∩ unconditional.valuations = ∅ := by
  have hthird : ∀ c ∈ thirdArm.constraints, c = ⟨wideBranch, .range 2 3⟩ :=
    fun c hc => mem_singleton.1 hc
  refine ⟨⟨built_twoChoices, fun h => ?_⟩,
    .withChoiceRange .unconditional _ _ _ (by decide) (by decide), ?_, ?_, ?_⟩
  · have hapart := (twoChoices.sorted_remapped_iff _).1 h.branches
    have hsecond : ⟨secondBranch, .range 1 2⟩ ∈ twoChoices.constraints :=
      (mem_insertConstraint (PathCondition.sorted _)).2 (.inl rfl)
    have hfirst : ⟨firstBranch, .range 0 1⟩ ∈ twoChoices.constraints :=
      (mem_insertConstraint (PathCondition.sorted _)).2
        (.inr ⟨mem_singleton_self _, by simp [firstBranch, secondBranch]⟩)
    have heq := hapart _ hfirst _ hsecond (by simp [renamed, lookup, firstBranch, secondBranch])
    simp [firstBranch, secondBranch] at heq
  · intro c hc d hd _
    rw [hthird c hc, hthird d hd]
  · rw [conjoin_unconditional]
    exact Option.some_ne_none _
  · refine Set.eq_empty_iff_forall_notMem.2 fun v hv => ?_
    have harm := (admits_remapped thirdArm _ _).1 hv.1 ⟨wideBranch, .range 2 3⟩
      (mem_singleton_self _)
    have hname : renamed [(wideBranch, firstBranch)] wideBranch = firstBranch := by
      simp [renamed, lookup]
    rw [comp_apply, hname, ArmSet.has_range] at harm
    have hlt := v.lt firstBranch (by decide)
    have hnum : firstBranch.arms = 2 := rfl
    omega

end Renamings

end PathCondition
end Veryl.Analyzer.CombLoopDetect
