import Veryl.Library.Spans

/-!
Conditions on branch choices. A condition restricts each branch to a set of arms; it admits the
valuations that choose an allowed arm of every branch it mentions.
-/

namespace Veryl.Analyzer.CombLoopDetect

open Veryl.Library List Option
structure BranchId where
  procedure : ℕ
  number : ℕ
  arms : ℕ

variable {b : BranchId}

instance : LinearOrder BranchId :=
  LinearOrder.lift' (fun b => toLex (b.procedure, toLex (b.number, b.arms))) fun b c h => by
    cases b
    cases c
    simp_all

/-- A set of arms as separate ranges in order. -/
structure ArmSet where
  ranges : List (Span ℕ)
  separated : Separated ranges

variable {a : ArmSet}

namespace ArmSet

theorem ext' {b : ArmSet} (h : a.ranges = b.ranges) : a = b := by
  cases a
  cases h
  rfl

instance : LinearOrder ArmSet := LinearOrder.lift' ArmSet.ranges fun _ _ h => ext' h

def range (start stop : ℕ) : ArmSet :=
  if h : start < stop then ⟨[⟨start, stop, h⟩], pairwise_singleton _ _⟩ else ⟨[], .nil⟩

def intersection (a b : ArmSet) : ArmSet :=
  ⟨commonSpans a.ranges b.ranges, separated_common a.separated b.separated⟩

theorem sorted_ranges (a b : ArmSet) :
    ((a.ranges ++ b.ranges).insertionSort (· ≤ ·)).Pairwise fun s t => (id s).start ≤ (id t).start :=
  (pairwise_insertionSort _ _).imp Span.start_le_of_le

def union (a b : ArmSet) : ArmSet :=
  ⟨(touchingRuns id ((a.ranges ++ b.ranges).insertionSort (· ≤ ·))).map (·.1),
    pairwise_map.2 (touchingRuns_apart (sorted_ranges a b))⟩

def isEmpty (a : ArmSet) : Bool := a.ranges.isEmpty

def isAll (a : ArmSet) (arms : ℕ) : Bool := a.ranges.map (fun r => (r.start, r.stop)) = [(0, arms)]

def isSubsetOf (a b : ArmSet) : Bool := a.intersection b = a

/-- An arm of the set. -/
def Has (a : ArmSet) (arm : ℕ) : Prop := ∃ r ∈ a.ranges, r.Has arm

theorem has_range (start stop arm : ℕ) : (range start stop).Has arm ↔ start ≤ arm ∧ arm < stop := by
  unfold range Has
  split
  · simp [Span.Has]
  · simp only [not_mem_nil, false_and, exists_false, false_iff]
    omega

theorem has_intersection (a b : ArmSet) (arm : ℕ) :
    (a.intersection b).Has arm ↔ a.Has arm ∧ b.Has arm :=
  exists_common_iff a.separated b.separated arm

theorem has_union (a b : ArmSet) (arm : ℕ) : (a.union b).Has arm ↔ a.Has arm ∨ b.Has arm := by
  have h := exists_hull_iff (sorted_ranges a b) arm
  simp only [mem_insertionSort, mem_append, or_and_right, exists_or, id] at h
  simpa [Has, union] using h

theorem not_has_of_isEmpty (h : a.isEmpty) (arm : ℕ) : ¬ a.Has arm := by
  simp [Has, List.isEmpty_iff.1 h]

theorem has_of_isAll {arms : ℕ} (h : a.isAll arms) : 0 < arms ∧ ∀ arm < arms, a.Has arm := by
  obtain ⟨r, hr, he⟩ := map_eq_singleton_iff.1 (of_decide_eq_true h)
  obtain ⟨hstart, hstop⟩ := Prod.mk.inj he
  have hlt := r.lt
  refine ⟨by omega, fun arm harm => ⟨r, by simp [hr], ?_⟩⟩
  exact ⟨hstart ▸ Nat.zero_le _, hstop ▸ harm⟩

theorem has_of_isSubsetOf {b : ArmSet} (h : a.isSubsetOf b) {arm : ℕ} (harm : a.Has arm) :
    b.Has arm := by
  have h := of_decide_eq_true h
  rw [← h, has_intersection] at harm
  exact harm.2

theorem isSubsetOf_self (a : ArmSet) : a.isSubsetOf a :=
  decide_eq_true (ext' (common_self a.separated))

end ArmSet

structure BranchConstraint where
  branch : BranchId
  allowed : ArmSet

instance : LinearOrder BranchConstraint :=
  LinearOrder.lift' (fun c => toLex (c.branch, c.allowed)) fun c d h => by
    cases c
    cases d
    simp_all

/-- A constraint that leaves some arm, and only arms of its branch. -/
def BranchConstraint.Choice (c : BranchConstraint) : Prop :=
  (∃ arm, c.allowed.Has arm) ∧ ∀ arm, c.allowed.Has arm → arm < c.branch.arms

/-- At most one constraint per branch, in the order of the branches. -/
structure PathCondition where
  constraints : List BranchConstraint
  sorted : constraints.Pairwise fun c d => c.branch < d.branch

/-- A choice of one arm of every branch that has arms. -/
structure Valuation where
  arm : BranchId → ℕ
  lt : ∀ b, 0 < b.arms → arm b < b.arms

namespace PathCondition

theorem ext' {p q : PathCondition} (h : p.constraints = q.constraints) : p = q := by
  cases p
  cases h
  rfl

instance : LinearOrder PathCondition :=
  LinearOrder.lift' PathCondition.constraints fun _ _ h => ext' h

/-- The condition of code that always runs. -/
def unconditional : PathCondition := ⟨[], .nil⟩

/-- The arms a condition allows of a branch it mentions. -/
def allowed (p : PathCondition) (b : BranchId) : Option ArmSet :=
  (p.constraints.find? (·.branch = b)).map (·.allowed)

def workSize (p : PathCondition) : ℕ :=
  (p.constraints.map fun c => max c.allowed.ranges.length 1).sum

def covers (p q : PathCondition) : Bool :=
  p.constraints.all fun c => (q.allowed c.branch).any fun a => a.isSubsetOf c.allowed

/-- The least condition of this form that covers both. -/
def disjoin (p q : PathCondition) : PathCondition :=
  ⟨p.constraints.filterMap fun c => do
      let allowed := c.allowed.union (← q.allowed c.branch)
      if allowed.isAll c.branch.arms then none else some ⟨c.branch, allowed⟩, by
    refine pairwise_filterMap.2 (p.sorted.imp fun {c d} hlt c' hc' d' hd' => ?_)
    have hbranch : ∀ {c c' : BranchConstraint}, (do
        let allowed := c.allowed.union (← q.allowed c.branch)
        if allowed.isAll c.branch.arms then none else some ⟨c.branch, allowed⟩) = some c' →
        c'.branch = c.branch := by
      intro c c' h
      cases ha : q.allowed c.branch with
      | none => simp [ha] at h
      | some a =>
        simp only [ha, bind_eq_bind, bind_some] at h
        split at h
        · cases h
        · exact (some.inj h) ▸ rfl
    rwa [hbranch hc', hbranch hd']⟩

/-- On how many branches two conditions differ. -/
def differences (p q : PathCondition) : ℕ :=
  p.constraints.countP (fun c => match q.allowed c.branch with
    | some a => c.allowed ≠ a
    | none => !c.allowed.isAll c.branch.arms) +
  q.constraints.countP fun c =>
    (p.allowed c.branch).isNone && !c.allowed.isAll c.branch.arms

/-- The union of two conditions where it has the form of a condition. -/
def disjoinExact (p q : PathCondition) : Option PathCondition :=
  if p.covers q then some p
  else if q.covers p then some q
  else if 1 < differences p q then none
  else some (p.disjoin q)

/-- Merges constraints in order; none where no arm of a branch is left. -/
def conjoinConstraints :
    List BranchConstraint → List BranchConstraint → Option (List BranchConstraint)
  | a :: left, b :: right =>
    if a.branch = b.branch then
      if (a.allowed.intersection b.allowed).isEmpty then none
      else (conjoinConstraints left right).map (⟨a.branch, a.allowed.intersection b.allowed⟩ :: ·)
    else if a.branch < b.branch then (conjoinConstraints left (b :: right)).map (a :: ·)
    else (conjoinConstraints (a :: left) right).map (b :: ·)
  | left, [] => some left
  | [], right => some right
termination_by left right => left.length + right.length

theorem branch_of_mem_conjoin {left right cs : List BranchConstraint}
    (h : conjoinConstraints left right = some cs) :
    ∀ c ∈ cs, ∃ d ∈ left ++ right, d.branch = c.branch := by
  fun_induction conjoinConstraints left right generalizing cs with
  | case1 => cases h
  | case2 a left b right hab hempty ih =>
    obtain ⟨cs, hcs, rfl⟩ := map_eq_some_iff.1 h
    intro c hc
    rcases mem_cons.1 hc with rfl | hc
    · exact ⟨a, by simp, rfl⟩
    · obtain ⟨d, hd, hb⟩ := ih hcs c hc
      exact ⟨d, by grind, hb⟩
  | case3 a left b right hab hlt ih =>
    obtain ⟨cs, hcs, rfl⟩ := map_eq_some_iff.1 h
    intro c hc
    rcases mem_cons.1 hc with rfl | hc
    · exact ⟨c, by simp, rfl⟩
    · obtain ⟨d, hd, hb⟩ := ih hcs c hc
      exact ⟨d, by grind, hb⟩
  | case4 a left b right hab hlt ih =>
    obtain ⟨cs, hcs, rfl⟩ := map_eq_some_iff.1 h
    intro c hc
    rcases mem_cons.1 hc with rfl | hc
    · exact ⟨c, by simp, rfl⟩
    · obtain ⟨d, hd, hb⟩ := ih hcs c hc
      exact ⟨d, by grind, hb⟩
  | case5 left => exact fun c hc => ⟨c, by cases h; simpa using hc, rfl⟩
  | case6 right => exact fun c hc => ⟨c, by cases h; simpa using hc, rfl⟩

theorem sorted_conjoin {left right cs : List BranchConstraint}
    (hl : left.Pairwise fun c d => c.branch < d.branch)
    (hr : right.Pairwise fun c d => c.branch < d.branch)
    (h : conjoinConstraints left right = some cs) :
    cs.Pairwise fun c d => c.branch < d.branch := by
  -- what is merged after the least constraint has later branches
  have hcons : ∀ {c : BranchConstraint} {left right cs : List BranchConstraint},
      (∀ d ∈ left ++ right, c.branch < d.branch) → conjoinConstraints left right = some cs →
      cs.Pairwise (fun c d => c.branch < d.branch) →
      (c :: cs).Pairwise fun c d => c.branch < d.branch := by
    intro c left right cs hlt hcs hsorted
    refine List.Pairwise.cons (fun e he => ?_) hsorted
    obtain ⟨d, hd, hb⟩ := branch_of_mem_conjoin hcs e he
    exact hb ▸ hlt d hd
  fun_induction conjoinConstraints left right generalizing cs with
  | case1 => cases h
  | case2 a left b right hab hempty ih =>
    obtain ⟨cs, hcs, rfl⟩ := map_eq_some_iff.1 h
    refine hcons (fun d hd => ?_) hcs (ih hl.of_cons hr.of_cons hcs)
    rcases mem_append.1 hd with hd | hd
    · exact rel_of_pairwise_cons hl hd
    · exact hab ▸ rel_of_pairwise_cons hr hd
  | case3 a left b right hab hlt ih =>
    obtain ⟨cs, hcs, rfl⟩ := map_eq_some_iff.1 h
    refine hcons (fun d hd => ?_) hcs (ih hl.of_cons hr hcs)
    rcases mem_append.1 hd with hd | hd
    · exact rel_of_pairwise_cons hl hd
    · rcases mem_cons.1 hd with rfl | hd
      · exact hlt
      · exact hlt.trans (rel_of_pairwise_cons hr hd)
  | case4 a left b right hab hlt ih =>
    obtain ⟨cs, hcs, rfl⟩ := map_eq_some_iff.1 h
    have hlt : b.branch < a.branch := lt_of_le_of_ne (not_lt.1 hlt) (Ne.symm hab)
    refine hcons (fun d hd => ?_) hcs (ih hl hr.of_cons hcs)
    rcases mem_append.1 hd with hd | hd
    · rcases mem_cons.1 hd with rfl | hd
      · exact hlt
      · exact hlt.trans (rel_of_pairwise_cons hl hd)
    · exact rel_of_pairwise_cons hr hd
  | case5 left => exact (some.inj h) ▸ hl
  | case6 right => exact (some.inj h) ▸ hr

/-- The choices both conditions allow, unless they exclude each other on a branch. -/
def conjoinIfCompatible (p q : PathCondition) : Option PathCondition :=
  match h : conjoinConstraints p.constraints q.constraints with
  | none => none
  | some constraints => some ⟨constraints, sorted_conjoin p.sorted q.sorted h⟩

variable {p q r : PathCondition} {v : Valuation}

/-- Whether the choice of one branch is allowed. -/
def AllowsAt (p : PathCondition) (v : Valuation) (b : BranchId) : Prop :=
  ∀ a ∈ p.allowed b, a.Has (v.arm b)

/-- A condition admits a valuation that chooses an allowed arm everywhere. -/
def Admits (p : PathCondition) (v : Valuation) : Prop := ∀ b, p.AllowsAt v b

theorem constraint_unique {c d : BranchConstraint} (hc : c ∈ p.constraints)
    (hd : d ∈ p.constraints) (h : c.branch = d.branch) : c = d := by
  have hnodup : (p.constraints.map (·.branch)).Nodup :=
    pairwise_map.2 (p.sorted.imp ne_of_lt)
  exact inj_on_of_nodup_map hnodup hc hd h

theorem allowed_eq_some : p.allowed b = some a ↔ ⟨b, a⟩ ∈ p.constraints := by
  simp only [allowed, map_eq_some_iff]
  constructor
  · rintro ⟨c, hc, rfl⟩
    have hb : c.branch = b := by simpa using find?_some hc
    rw [← hb]
    exact mem_of_find?_eq_some hc
  · intro h
    cases hf : p.constraints.find? (·.branch = b) with
    | none => simpa using find?_eq_none.1 hf _ h
    | some c =>
      have hb : c.branch = b := by simpa using find?_some hf
      have hc : c = ⟨b, a⟩ := constraint_unique (mem_of_find?_eq_some hf) h hb
      exact ⟨c, rfl, by rw [hc]⟩

theorem allowsAt_of_allowed_eq_none (h : p.allowed b = none) : p.AllowsAt v b := by
  simp [AllowsAt, h]

theorem allowsAt_iff (h : p.allowed b = some a) : p.AllowsAt v b ↔ a.Has (v.arm b) := by
  simp [AllowsAt, h]

@[simp] theorem admits_unconditional : unconditional.Admits v := by
  intro b a ha
  cases ha

theorem covers_iff : p.covers q ↔
    ∀ b, ∀ a ∈ p.allowed b, ∃ a' ∈ q.allowed b, a'.isSubsetOf a := by
  simp only [covers, List.all_eq_true, Option.any_eq_true, mem_def, allowed_eq_some]
  exact ⟨fun h b a ha => h ⟨b, a⟩ ha, fun h c hc => h c.branch c.allowed hc⟩

theorem admits_of_covers (h : p.covers q) (hq : q.Admits v) : p.Admits v := by
  intro b a ha
  obtain ⟨a', ha', hsub⟩ := covers_iff.1 h b a ha
  exact ArmSet.has_of_isSubsetOf hsub (hq b a' ha')

theorem covers_self (p : PathCondition) : p.covers p :=
  covers_iff.2 fun _ a ha => ⟨a, ha, a.isSubsetOf_self⟩

theorem mem_disjoin {c : BranchConstraint} : c ∈ (p.disjoin q).constraints ↔
    ∃ a ∈ p.allowed c.branch, ∃ a' ∈ q.allowed c.branch,
      c.allowed = a.union a' ∧ ¬ c.allowed.isAll c.branch.arms := by
  simp only [disjoin, mem_filterMap, mem_def]
  constructor
  · rintro ⟨d, hd, hc⟩
    cases ha' : q.allowed d.branch with
    | none => simp [ha'] at hc
    | some a' =>
      simp only [ha', bind_eq_bind, bind_some] at hc
      split at hc
      · cases hc
      · rename_i hall
        obtain rfl := some.inj hc
        exact ⟨d.allowed, allowed_eq_some.2 hd, a', ha', rfl, hall⟩
  · rintro ⟨a, ha, a', ha', hu, hall⟩
    refine ⟨⟨c.branch, a⟩, allowed_eq_some.1 ha, ?_⟩
    simp [ha', ← hu, if_neg hall]

theorem allowsAt_disjoin (b : BranchId) :
    (p.disjoin q).AllowsAt v b ↔ p.AllowsAt v b ∨ q.AllowsAt v b := by
  cases hp : p.allowed b with
  | none =>
    refine iff_of_true (fun a ha => ?_) (.inl (allowsAt_of_allowed_eq_none hp))
    obtain ⟨a', ha', -⟩ := mem_disjoin.1 (allowed_eq_some.1 ha)
    simp [hp] at ha'
  | some a =>
    cases hq : q.allowed b with
    | none =>
      refine iff_of_true (fun a ha => ?_) (.inr (allowsAt_of_allowed_eq_none hq))
      obtain ⟨-, -, a', ha', -⟩ := mem_disjoin.1 (allowed_eq_some.1 ha)
      simp [hq] at ha'
    | some a' =>
      rw [allowsAt_iff hp, allowsAt_iff hq, ← ArmSet.has_union]
      by_cases hall : (a.union a').isAll b.arms
      · -- a branch all of whose arms are allowed is dropped
        have harms := ArmSet.has_of_isAll hall
        refine iff_of_true (fun c hc => ?_) (harms.2 _ (v.lt b harms.1))
        obtain ⟨d, hd, d', hd', hu, hnot⟩ := mem_disjoin.1 (allowed_eq_some.1 hc)
        obtain rfl := some.inj (hp.symm.trans hd)
        obtain rfl := some.inj (hq.symm.trans hd')
        exact absurd hall (hu ▸ hnot)
      · have hmem : (p.disjoin q).allowed b = some (a.union a') :=
          allowed_eq_some.2 (mem_disjoin.2 ⟨a, hp, a', hq, rfl, hall⟩)
        exact allowsAt_iff hmem

theorem allowsAt_iff_of_differences (h : differences p q ≤ 1) :
    ∃ b₀, ∀ b, b ≠ b₀ → (p.AllowsAt v b ↔ q.AllowsAt v b) := by
  unfold differences at h
  simp only [countP_eq_length_filter, ← length_append] at h
  have single : ∀ l : List BranchConstraint, l.length ≤ 1 → ∃ b₀, ∀ c ∈ l, c.branch = b₀ := by
    intro l hl
    match l with
    | [] => exact ⟨⟨0, 0, 0⟩, by simp⟩
    | [c] => exact ⟨c.branch, by simp⟩
  obtain ⟨b₀, hb₀⟩ := single _ h
  have hleft : ∀ b, b ≠ b₀ → ∀ a, p.allowed b = some a → ∀ a', q.allowed b = some a' → a = a' := by
    intro b hb a ha a' ha'
    by_contra hne
    refine hb (hb₀ ⟨b, a⟩ (mem_append_left _ (mem_filter.2 ⟨allowed_eq_some.1 ha, ?_⟩)))
    simpa [ha'] using hne
  refine ⟨b₀, fun b hb => ?_⟩
  cases hp : p.allowed b with
  | none =>
    refine iff_of_true (allowsAt_of_allowed_eq_none hp) ?_
    cases hq : q.allowed b with
    | none => exact allowsAt_of_allowed_eq_none hq
    | some a' =>
      have hall : a'.isAll b.arms := by
        by_contra hne
        refine hb (hb₀ ⟨b, a'⟩ (mem_append_right _ (mem_filter.2 ⟨allowed_eq_some.1 hq, ?_⟩)))
        simpa [hp] using hne
      exact (allowsAt_iff hq).2
        ((ArmSet.has_of_isAll hall).2 _ (v.lt b (ArmSet.has_of_isAll hall).1))
  | some a =>
    cases hq : q.allowed b with
    | none =>
      refine iff_of_true ?_ (allowsAt_of_allowed_eq_none hq)
      have hall : a.isAll b.arms := by
        by_contra hne
        refine hb (hb₀ ⟨b, a⟩ (mem_append_left _ (mem_filter.2 ⟨allowed_eq_some.1 hp, ?_⟩)))
        simpa [hq] using hne
      exact (allowsAt_iff hp).2
        ((ArmSet.has_of_isAll hall).2 _ (v.lt b (ArmSet.has_of_isAll hall).1))
    | some a' =>
      obtain rfl := hleft b hb a hp a' hq
      rw [allowsAt_iff hp, allowsAt_iff hq]

theorem admits_disjoinExact (h : p.disjoinExact q = some r) :
    r.Admits v ↔ p.Admits v ∨ q.Admits v := by
  unfold disjoinExact at h
  split at h
  · rename_i hcover
    obtain rfl := some.inj h
    exact ⟨.inl, fun h => h.elim id (admits_of_covers hcover)⟩
  split at h
  · rename_i hcover
    obtain rfl := some.inj h
    exact ⟨.inr, fun h => h.elim (admits_of_covers hcover) id⟩
  split at h
  · cases h
  rename_i hdiff
  obtain rfl := some.inj h
  obtain ⟨b₀, hb₀⟩ := allowsAt_iff_of_differences (v := v) (not_lt.1 hdiff)
  constructor
  · intro h
    rcases (allowsAt_disjoin b₀).1 (h b₀) with h₀ | h₀
    · refine .inl fun b => ?_
      by_cases hb : b = b₀
      · exact hb ▸ h₀
      · exact ((allowsAt_disjoin b).1 (h b)).elim id (hb₀ b hb).2
    · refine .inr fun b => ?_
      by_cases hb : b = b₀
      · exact hb ▸ h₀
      · exact ((allowsAt_disjoin b).1 (h b)).elim (hb₀ b hb).1 id
  · rintro (h | h) b
    · exact (allowsAt_disjoin b).2 (.inl (h b))
    · exact (allowsAt_disjoin b).2 (.inr (h b))

theorem admits_iff_constraints :
    p.Admits v ↔ ∀ c ∈ p.constraints, c.allowed.Has (v.arm c.branch) := by
  constructor
  · exact fun h c hc => h c.branch c.allowed (allowed_eq_some.2 hc)
  · exact fun h b a ha => h ⟨b, a⟩ (allowed_eq_some.1 ha)

theorem has_of_conjoin {left right cs : List BranchConstraint}
    (h : conjoinConstraints left right = some cs) :
    (∀ c ∈ cs, c.allowed.Has (v.arm c.branch)) ↔ (∀ c ∈ left, c.allowed.Has (v.arm c.branch)) ∧
        ∀ c ∈ right, c.allowed.Has (v.arm c.branch) := by
  fun_induction conjoinConstraints left right generalizing cs with
  | case1 => cases h
  | case2 a left b right hab hempty ih =>
    obtain ⟨cs, hcs, rfl⟩ := map_eq_some_iff.1 h
    simp only [forall_mem_cons, ih hcs, ArmSet.has_intersection, hab]
    tauto
  | case3 a left b right hab hlt ih =>
    obtain ⟨cs, hcs, rfl⟩ := map_eq_some_iff.1 h
    simp only [forall_mem_cons, ih hcs, and_assoc]
  | case4 a left b right hab hlt ih =>
    obtain ⟨cs, hcs, rfl⟩ := map_eq_some_iff.1 h
    simp only [forall_mem_cons, ih hcs]
    tauto
  | case5 left =>
    cases h
    simp
  | case6 right =>
    cases h
    simp

theorem admits_conjoin (h : p.conjoinIfCompatible q = some r) :
    r.Admits v ↔ p.Admits v ∧ q.Admits v := by
  unfold conjoinIfCompatible at h
  split at h
  · cases h
  · rename_i cs hcs
    obtain rfl := some.inj h
    simp only [admits_iff_constraints]
    exact has_of_conjoin hcs

theorem exists_conjoin (hp : p.Admits v) (hq : q.Admits v) :
    ∃ r, p.conjoinIfCompatible q = some r := by
  have hsome : ∀ {left right : List BranchConstraint},
      (∀ c ∈ left, c.allowed.Has (v.arm c.branch)) →
      (∀ c ∈ right, c.allowed.Has (v.arm c.branch)) → (conjoinConstraints left right).isSome := by
    intro left right hl hr
    fun_induction conjoinConstraints left right with
    | case1 a left b right hab hempty =>
      have hboth := (ArmSet.has_intersection _ _ _).2 ⟨hl a mem_cons_self, hab ▸ hr b mem_cons_self⟩
      exact absurd hboth (ArmSet.not_has_of_isEmpty hempty _)
    | case2 a left b right hab hempty ih =>
      simpa using ih (fun c hc => hl c (mem_cons_of_mem _ hc))
        fun c hc => hr c (mem_cons_of_mem _ hc)
    | case3 a left b right hab hlt ih =>
      simpa using ih (fun c hc => hl c (mem_cons_of_mem _ hc)) hr
    | case4 a left b right hab hlt ih =>
      simpa using ih hl fun c hc => hr c (mem_cons_of_mem _ hc)
    | case5 => rfl
    | case6 => rfl
  have h := hsome (admits_iff_constraints.1 hp) (admits_iff_constraints.1 hq)
  unfold conjoinIfCompatible
  split
  · rename_i hnone
    simp [hnone] at h
  · exact ⟨_, rfl⟩

/-- A condition made of choices: every branch it mentions is left some arm, and only
arms that it has. -/
def Chosen (p : PathCondition) : Prop := ∀ c ∈ p.constraints, c.Choice

theorem chosen_unconditional : unconditional.Chosen := by
  intro c hc
  cases hc

theorem Chosen.exists_admits (h : p.Chosen) : ∃ v, p.Admits v := by
  have harm : ∀ b, ∃ arm, (∀ a ∈ p.allowed b, a.Has arm) ∧ (0 < b.arms → arm < b.arms) := by
    intro b
    cases ha : p.allowed b with
    | none => exact ⟨0, by simp, id⟩
    | some a =>
      obtain ⟨⟨arm, harm⟩, hlt⟩ := h _ (allowed_eq_some.1 ha)
      exact ⟨arm, by simpa using harm, fun _ => hlt arm harm⟩
  choose arm hallowed hlt using harm
  exact ⟨⟨arm, hlt⟩, hallowed⟩

theorem Chosen.conjoin (hp : p.Chosen) (hq : q.Chosen) (h : p.conjoinIfCompatible q = some r) :
    r.Chosen := by
  have hcs : ∀ {left right cs : List BranchConstraint}, (∀ c ∈ left, c.Choice) →
      (∀ c ∈ right, c.Choice) → conjoinConstraints left right = some cs → ∀ c ∈ cs, c.Choice := by
    intro left right cs hl hr hsome
    fun_induction conjoinConstraints left right generalizing cs with
    | case1 => cases hsome
    | case2 a left b right hab hempty ih =>
      obtain ⟨cs, hcs, rfl⟩ := map_eq_some_iff.1 hsome
      refine forall_mem_cons.2 ⟨?_, ih (forall_mem_of_forall_mem_cons hl)
        (forall_mem_of_forall_mem_cons hr) hcs⟩
      obtain ⟨s, hs⟩ := exists_mem_of_ne_nil _ fun h => hempty (List.isEmpty_iff.2 h)
      exact ⟨⟨s.start, s, hs, s.has_start⟩, fun arm harm =>
        (hl a mem_cons_self).2 arm ((ArmSet.has_intersection _ _ _).1 harm).1⟩
    | case3 a left b right hab hlt ih =>
      obtain ⟨cs, hcs, rfl⟩ := map_eq_some_iff.1 hsome
      exact forall_mem_cons.2 ⟨hl a mem_cons_self, ih (forall_mem_of_forall_mem_cons hl) hr hcs⟩
    | case4 a left b right hab hlt ih =>
      obtain ⟨cs, hcs, rfl⟩ := map_eq_some_iff.1 hsome
      exact forall_mem_cons.2 ⟨hr b mem_cons_self, ih hl (forall_mem_of_forall_mem_cons hr) hcs⟩
    | case5 left => exact (some.inj hsome) ▸ hl
    | case6 right => exact (some.inj hsome) ▸ hr
  unfold conjoinIfCompatible at h
  split at h
  · cases h
  · rename_i cs hsome
    obtain rfl := some.inj h
    exact hcs hp hq hsome

theorem Chosen.disjoin (hp : p.Chosen) (hq : q.Chosen) : (p.disjoin q).Chosen := by
  intro c hc
  obtain ⟨a, ha, a', ha', hunion, -⟩ := mem_disjoin.1 hc
  have hpa := hp _ (allowed_eq_some.1 ha)
  have hqa := hq _ (allowed_eq_some.1 ha')
  constructor
  · obtain ⟨arm, harm⟩ := hpa.1
    exact ⟨arm, hunion ▸ (ArmSet.has_union _ _ _).2 (.inl harm)⟩
  · intro arm harm
    rw [hunion, ArmSet.has_union] at harm
    exact harm.elim (hpa.2 arm) (hqa.2 arm)

theorem Chosen.disjoinExact (hp : p.Chosen) (hq : q.Chosen) (h : p.disjoinExact q = some r) :
    r.Chosen := by
  unfold PathCondition.disjoinExact at h
  split at h
  · exact (some.inj h) ▸ hp
  split at h
  · exact (some.inj h) ▸ hq
  split at h
  · cases h
  exact (some.inj h) ▸ hp.disjoin hq

end PathCondition
end Veryl.Analyzer.CombLoopDetect
