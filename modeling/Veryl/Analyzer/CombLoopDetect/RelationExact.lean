import Veryl.Analyzer.CombLoopDetect.Relation

/-!
The symbolic relations denote sets of position pairs exactly: composition is
relational composition, normalization changes nothing, and along a path the
computed set is the set of reachable pairs.
-/

namespace Veryl.Analyzer.CombLoopDetect

open Veryl.Library List Option

variable {x : Position} {a b : AxisRange} {α β : Type} {p : RelationPiece} {y : Position}

def InRange (r : AxisRange) (x : ℤ) : Prop := ∀ s ∈ r, s.Has x

def AxisRelation.Rel : AxisRelation → ℤ → ℤ → Prop
  | .linked offset start => fun x y => InRange start x ∧ y = x + offset
  | .unlinked start current => fun x y => InRange start x ∧ InRange current y

def RelationPiece.Rel (p : RelationPiece) (x y : Position) : Prop :=
  p.array.Rel x.1 y.1 ∧ p.packed.Rel x.2 y.2

def AnyRel (pieces : List RelationPiece) (x y : Position) : Prop := ∃ p ∈ pieces, p.Rel x y

/-- The anchor-current pairs of a set. -/
def PositionRelationSet.Rel (set : PositionRelationSet) : Position → Position → Prop :=
  AnyRel set.pieces

/-- A position of a rectangle. -/
def PositionDomain.Has (d : PositionDomain) (x : Position) : Prop :=
  (d.arrayStart ≤ x.1 ∧ x.1 < d.arrayStart + d.arrayLength) ∧
    (d.packedStart ≤ x.2 ∧ x.2 < d.packedStart + d.packedLength)

/-- A position of one of the domains; no domains restrict nothing. -/
def InDomains (domains : List PositionDomain) (x : Position) : Prop :=
  domains = [] ∨ ∃ d ∈ domains, d.Has x

/-- Where an edge may carry a position. -/
def BitDependency.Rel (dependency : BitDependency) (x y : Position) : Prop :=
  (∀ k ∈ dependency.array, y.1 = x.1 + k) ∧ (∀ k ∈ dependency.packed, y.2 = x.2 + k)

/-- What is reachable along a path from a position of its first node. -/
def Reaches (domains : List PositionDomain) :
    List (BitDependency × List PositionDomain) → Position → Position → Prop
  | [] => fun x y => x = y ∧ InDomains domains x
  | edge :: path => fun x z => InDomains domains x ∧ ∃ y, edge.1.Rel x y ∧ Reaches edge.2 path y z

@[simp] theorem inRange_none (x : ℤ) : InRange none x := by simp [InRange]

@[simp] theorem inRange_some (s : Span ℤ) (x : ℤ) : InRange (some s) x ↔ s.Has x := by
  simp [InRange]

theorem exists_inRange (r : AxisRange) : ∃ x, InRange r x := by
  cases r with
  | none => exact ⟨0, inRange_none 0⟩
  | some s => exact ⟨s.start, (inRange_some s _).2 s.has_start⟩

@[simp] theorem inRange_translateRange (r : AxisRange) (k x : ℤ) :
    InRange (translateRange r k) x ↔ InRange r (x - k) := by
  cases r with
  | none => simp [translateRange]
  | some s =>
    simp only [translateRange, map_some, inRange_some, Span.Has]
    omega

theorem inRange_intersectRange (l r : AxisRange) (x : ℤ) :
    (∃ s, intersectRange l r = some s ∧ InRange s x) ↔ InRange l x ∧ InRange r x := by
  cases l with
  | none => simp [intersectRange]
  | some l =>
    cases r with
    | none => simp [intersectRange]
    | some r =>
      simp only [intersectRange, map_eq_some_iff, inRange_some]
      cases h : l.inter r with
      | none => simpa using fun hl hr => l.inter_eq_none h x ⟨hl, hr⟩
      | some s => simpa using l.has_inter h x

theorem intersectRange_isSome (l r : AxisRange) :
    (intersectRange l r).isSome ↔ ∃ x, InRange l x ∧ InRange r x := by
  simp only [← inRange_intersectRange, isSome_iff_exists]
  constructor
  · rintro ⟨s, hs⟩
    obtain ⟨x, hx⟩ := exists_inRange s
    exact ⟨x, s, hs, hx⟩
  · rintro ⟨x, s, hs, -⟩
    exact ⟨s, hs⟩

theorem inRange_of_rangeContains {outer inner : AxisRange} (h : rangeContains outer inner) {x : ℤ}
    (hx : InRange inner x) : InRange outer x := by
  cases outer with
  | none => exact inRange_none x
  | some o =>
    cases inner with
    | none => cases h
    | some i =>
      simp only [rangeContains, Bool.and_eq_true, decide_eq_true_eq] at h
      simp only [inRange_some, Span.Has] at hx ⊢
      omega

theorem rangeContains_trans {c : AxisRange} (h : rangeContains a b) (h' : rangeContains b c) :
    rangeContains a c := by
  cases a with
  | none => rfl
  | some a =>
    cases b with
    | none => cases h
    | some b =>
      cases c with
      | none => cases h'
      | some c =>
        simp only [rangeContains, Bool.and_eq_true, decide_eq_true_eq] at h h' ⊢
        omega

theorem rangeContains_antisymm (h : rangeContains a b) (h' : rangeContains b a) : a = b := by
  cases a with
  | none =>
    cases b with
    | none => rfl
    | some b => cases h'
  | some a =>
    cases b with
    | none => cases h
    | some b =>
      simp only [rangeContains, Bool.and_eq_true, decide_eq_true_eq] at h h'
      exact congrArg some (Span.ext' (by omega) (by omega))

theorem rangeContains_translate (k : ℤ) (h : rangeContains a b) :
    rangeContains (translateRange a k) (translateRange b k) := by
  cases a with
  | none => rfl
  | some a =>
    cases b with
    | none => cases h
    | some b =>
      simp only [translateRange, map_some, rangeContains, Bool.and_eq_true,
        decide_eq_true_eq] at h ⊢
      omega

theorem inRange_finiteRange (start length : ℕ) (x : ℤ) :
    (∃ r, finiteRange start length = some r ∧ InRange r x) ↔
      (start : ℤ) ≤ x ∧ x < start + length := by
  unfold finiteRange
  split
  · simp [Span.Has]
  · simp only [reduceCtorEq, false_and, exists_false, false_iff]
    omega

theorem bind_pure_eq_some {o : Option α} {f : α → β} {b : β} :
    (o >>= fun a => pure (f a)) = some b ↔ ∃ a, o = some a ∧ f a = b := by
  cases o <;> simp

theorem rel_composeAxis (a b : AxisRelation) (x z : ℤ) :
    (∃ r, composeAxis a b = some r ∧ r.Rel x z) ↔ ∃ y, a.Rel x y ∧ b.Rel y z := by
  cases a with
  | linked j s =>
    cases b with
    | linked k t =>
      have h := inRange_intersectRange s (translateRange t (-j)) x
      simp only [inRange_translateRange, Int.sub_neg] at h
      constructor
      · rintro ⟨r, hr, hx⟩
        obtain ⟨u, hu, rfl⟩ := bind_pure_eq_some.1 hr
        have := h.1 ⟨u, hu, hx.1⟩
        exact ⟨x + j, ⟨this.1, rfl⟩, this.2, by have := hx.2; omega⟩
      · rintro ⟨y, ⟨hs, rfl⟩, ht, rfl⟩
        obtain ⟨u, hu, hx⟩ := h.2 ⟨hs, ht⟩
        exact ⟨.linked (j + k) u, by simp [composeAxis, hu], hx, by omega⟩
    | unlinked t c =>
      have h := inRange_intersectRange s (translateRange t (-j)) x
      simp only [inRange_translateRange, Int.sub_neg] at h
      constructor
      · rintro ⟨r, hr, hx⟩
        obtain ⟨u, hu, rfl⟩ := bind_pure_eq_some.1 hr
        have := h.1 ⟨u, hu, hx.1⟩
        exact ⟨x + j, ⟨this.1, rfl⟩, this.2, hx.2⟩
      · rintro ⟨y, ⟨hs, rfl⟩, ht, hc⟩
        obtain ⟨u, hu, hx⟩ := h.2 ⟨hs, ht⟩
        exact ⟨.unlinked u c, by simp [composeAxis, hu], hx, hc⟩
  | unlinked s c =>
    cases b with
    | linked k t =>
      have h := inRange_intersectRange c t (z - k)
      constructor
      · rintro ⟨r, hr, hx⟩
        obtain ⟨u, hu, rfl⟩ := bind_pure_eq_some.1 hr
        have := h.1 ⟨u, hu, by simpa using hx.2⟩
        exact ⟨z - k, ⟨hx.1, this.1⟩, this.2, by omega⟩
      · rintro ⟨y, ⟨hs, hc⟩, ht, rfl⟩
        obtain ⟨u, hu, hx⟩ := h.2 ⟨by simpa using hc, by simpa using ht⟩
        exact ⟨.unlinked s (translateRange u k), by simp [composeAxis, hu], hs, by simpa using hx⟩
    | unlinked t d =>
      have h := intersectRange_isSome c t
      constructor
      · rintro ⟨r, hr, hx⟩
        obtain ⟨u, hu, rfl⟩ := bind_pure_eq_some.1 hr
        obtain ⟨y, hc, ht⟩ := h.1 (by simp [hu])
        exact ⟨y, ⟨hx.1, hc⟩, ht, hx.2⟩
      · rintro ⟨y, ⟨hs, hc⟩, ht, hd⟩
        obtain ⟨u, hu⟩ := isSome_iff_exists.1 (h.2 ⟨y, hc, ht⟩)
        exact ⟨.unlinked s d, by simp [composeAxis, hu], hs, hd⟩

theorem rel_extendAxis (a : AxisRelation) (dependency : Option ℤ) (destination : AxisRange)
    (x z : ℤ) : (∃ r, extendAxis a dependency destination = some r ∧ r.Rel x z) ↔
      ∃ y, a.Rel x y ∧ (∀ k ∈ dependency, z = y + k) ∧ InRange destination z := by
  -- an edge is a relation of the axis itself
  cases dependency with
  | some k =>
    cases a with
    | linked j s =>
      have h := inRange_intersectRange s (translateRange destination (-(j + k))) x
      simp only [inRange_translateRange, Int.sub_neg] at h
      constructor
      · rintro ⟨r, hr, hx⟩
        obtain ⟨u, hu, rfl⟩ := bind_pure_eq_some.1 hr
        obtain ⟨hs, hd⟩ := h.1 ⟨u, hu, hx.1⟩
        have hz := hx.2
        refine ⟨x + j, ⟨hs, rfl⟩, fun k' hk => ?_, hz ▸ hd⟩
        obtain rfl := some.inj hk
        omega
      · rintro ⟨y, ⟨hs, rfl⟩, hk, hd⟩
        obtain rfl : z = x + (j + k) := by rw [hk k rfl, Int.add_assoc]
        obtain ⟨u, hu, hx⟩ := h.2 ⟨hs, hd⟩
        refine ⟨.linked (j + k) u, ?_, hx, rfl⟩
        simp only [extendAxis, hu]
        rfl
    | unlinked s c =>
      have h := inRange_intersectRange (translateRange c k) destination z
      simp only [inRange_translateRange] at h
      constructor
      · rintro ⟨r, hr, hx⟩
        obtain ⟨u, hu, rfl⟩ := bind_pure_eq_some.1 hr
        obtain ⟨hc, hd⟩ := h.1 ⟨u, hu, hx.2⟩
        refine ⟨z - k, ⟨hx.1, hc⟩, fun k' hk => ?_, hd⟩
        obtain rfl := some.inj hk
        omega
      · rintro ⟨y, ⟨hs, hc⟩, hk, hd⟩
        have hy : z - k = y := by have := hk k rfl; omega
        obtain ⟨u, hu, hx⟩ := h.2 ⟨hy ▸ hc, hd⟩
        refine ⟨.unlinked s u, ?_, hs, hx⟩
        simp only [extendAxis, hu]
        rfl
  | none =>
    cases a with
    | linked j s =>
      constructor
      · rintro ⟨r, hr, hx⟩
        obtain rfl := some.inj hr
        exact ⟨x + j, ⟨hx.1, rfl⟩, by simp, hx.2⟩
      · rintro ⟨y, ⟨hs, -⟩, -, hd⟩
        exact ⟨_, rfl, hs, hd⟩
    | unlinked s c =>
      constructor
      · rintro ⟨r, hr, hx⟩
        obtain rfl := some.inj hr
        obtain ⟨y, hy⟩ := exists_inRange c
        exact ⟨y, ⟨hx.1, hy⟩, by simp, hx.2⟩
      · rintro ⟨y, ⟨hs, -⟩, -, hd⟩
        exact ⟨_, rfl, hs, hd⟩

theorem axisIntersectsIdentity_iff (a : AxisRelation) :
    axisIntersectsIdentity a ↔ ∃ x, a.Rel x x := by
  cases a with
  | linked k s =>
    simp only [axisIntersectsIdentity, decide_eq_true_eq, AxisRelation.Rel]
    constructor
    · rintro rfl
      obtain ⟨x, hx⟩ := exists_inRange s
      exact ⟨x, hx, by omega⟩
    · rintro ⟨x, -, hx⟩
      omega
  | unlinked s c => exact intersectRange_isSome s c

theorem rel_of_axisContains {outer inner : AxisRelation} (h : axisContainsRelation outer inner)
    {x y : ℤ} (hxy : inner.Rel x y) : outer.Rel x y := by
  cases outer with
  | linked j s =>
    cases inner with
    | linked k t =>
      simp only [axisContainsRelation, Bool.and_eq_true, decide_eq_true_eq] at h
      exact ⟨inRange_of_rangeContains h.2 hxy.1, h.1 ▸ hxy.2⟩
    | unlinked t d => cases h
  | unlinked s c =>
    cases inner with
    | linked k t =>
      simp only [axisContainsRelation, Bool.and_eq_true] at h
      refine ⟨inRange_of_rangeContains h.1 hxy.1, inRange_of_rangeContains h.2 ?_⟩
      rw [inRange_translateRange, hxy.2]
      simpa using hxy.1
    | unlinked t d =>
      simp only [axisContainsRelation, Bool.and_eq_true] at h
      exact ⟨inRange_of_rangeContains h.1 hxy.1, inRange_of_rangeContains h.2 hxy.2⟩

theorem axisContains_antisymm {a b : AxisRelation} (h : axisContainsRelation a b)
    (h' : axisContainsRelation b a) : a = b := by
  cases a with
  | linked j s =>
    cases b with
    | linked k t =>
      simp only [axisContainsRelation, Bool.and_eq_true, decide_eq_true_eq] at h h'
      rw [h.1, rangeContains_antisymm h.2 h'.2]
    | unlinked t d => cases h
  | unlinked s c =>
    cases b with
    | linked k t => cases h'
    | unlinked t d =>
      simp only [axisContainsRelation, Bool.and_eq_true] at h h'
      rw [rangeContains_antisymm h.1 h'.1, rangeContains_antisymm h.2 h'.2]

theorem axisContains_trans {a b c : AxisRelation} (h : axisContainsRelation a b)
    (h' : axisContainsRelation b c) : axisContainsRelation a c := by
  cases a with
  | linked i r =>
    cases b with
    | linked j s =>
      cases c with
      | linked k t =>
        simp only [axisContainsRelation, Bool.and_eq_true, decide_eq_true_eq] at h h' ⊢
        exact ⟨h.1.trans h'.1, rangeContains_trans h.2 h'.2⟩
      | unlinked t d => cases h'
    | unlinked s d => cases h
  | unlinked r e =>
    cases b with
    | linked j s =>
      cases c with
      | linked k t =>
        simp only [axisContainsRelation, Bool.and_eq_true, decide_eq_true_eq] at h h' ⊢
        obtain rfl := h'.1
        exact ⟨rangeContains_trans h.1 h'.2,
          rangeContains_trans h.2 (rangeContains_translate j h'.2)⟩
      | unlinked t d => cases h'
    | unlinked s d =>
      cases c with
      | linked k t =>
        simp only [axisContainsRelation, Bool.and_eq_true] at h h' ⊢
        exact ⟨rangeContains_trans h.1 h'.1, rangeContains_trans h.2 h'.2⟩
      | unlinked t d =>
        simp only [axisContainsRelation, Bool.and_eq_true] at h h' ⊢
        exact ⟨rangeContains_trans h.1 h'.1, rangeContains_trans h.2 h'.2⟩

@[simp] theorem axis_withAxis (p : RelationPiece) (a : Axis) (r : AxisRelation) :
    (p.withAxis a r).axis a = r := by
  cases a <;> rfl

@[simp] theorem axis_other_withAxis (p : RelationPiece) (a : Axis) (r : AxisRelation) :
    (p.withAxis a r).axis a.other = p.axis a.other := by
  cases a <;> rfl

theorem rel_iff_axes (p : RelationPiece) (a : Axis) (x y : Position) :
    p.Rel x y ↔ (p.axis a).Rel (x.at a) (y.at a) ∧
      (p.axis a.other).Rel (x.at a.other) (y.at a.other) := by
  cases a with
  | array => rfl
  | packed => exact and_comm

theorem rel_of_pieceContains {outer inner : RelationPiece} (h : pieceContains outer inner)
    (hxy : inner.Rel x y) : outer.Rel x y := by
  simp only [pieceContains, Bool.and_eq_true] at h
  exact ⟨rel_of_axisContains h.1 hxy.1, rel_of_axisContains h.2 hxy.2⟩

theorem pieceContains_antisymm {q : RelationPiece} (h : pieceContains p q)
    (h' : pieceContains q p) : p = q := by
  simp only [pieceContains, Bool.and_eq_true] at h h'
  cases p
  cases q
  simp_all only [RelationPiece.mk.injEq]
  exact ⟨axisContains_antisymm h.1 h'.1, axisContains_antisymm h.2 h'.2⟩

instance : IsTrans RelationPiece fun p q => pieceContains p q = true :=
  ⟨fun p q r h h' => by
    simp only [pieceContains, Bool.and_eq_true] at h h' ⊢
    exact ⟨axisContains_trans h.1 h'.1, axisContains_trans h.2 h'.2⟩⟩

theorem anyRel_regroup {pieces : List RelationPiece} {feature : RelationPiece → Option (Span ℤ)}
    {key : Span ℤ × RelationPiece → RelationPiece}
    {out : RelationPiece × List (Span ℤ × RelationPiece) → List RelationPiece}
    (h : ∀ g : RelationPiece × List (Span ℤ × RelationPiece),
      (∀ i ∈ g.2, feature i.2 = some i.1 ∧ key i = g.1) →
      ∀ x y, AnyRel (out g) x y ↔ ∃ i ∈ g.2, i.2.Rel x y) (x y : Position) :
    AnyRel (pieces.filter (fun p => (feature p).isNone) ++
      (groupBy key (pieces.filterMap fun p => (feature p).map fun s => (s, p))).flatMap out) x y ↔
      AnyRel pieces x y := by
  have hfeature : ∀ i, i ∈ pieces.filterMap (fun p => (feature p).map fun s => (s, p)) ↔
      i.2 ∈ pieces ∧ feature i.2 = some i.1 := by
    rintro ⟨s, p⟩
    simp only [mem_filterMap, map_eq_some_iff, Prod.mk.injEq]
    constructor
    · rintro ⟨q, hq, t, ht, rfl, rfl⟩
      exact ⟨hq, ht⟩
    · rintro ⟨hp, hs⟩
      exact ⟨p, hp, s, hs, rfl, rfl⟩
  have hgroup : ∀ g ∈ groupBy key (pieces.filterMap fun p => (feature p).map fun s => (s, p)),
      (∀ i ∈ g.2, feature i.2 = some i.1 ∧ key i = g.1) := by
    intro g hg i hi
    rw [(mem_groupBy.1 hg).2, mem_filter, decide_eq_true_eq] at hi
    exact ⟨((hfeature i).1 hi.1).2, hi.2⟩
  simp only [AnyRel, mem_append, mem_filter, or_and_right, exists_or, mem_flatMap]
  constructor
  · rintro (⟨p, hp, hxy⟩ | ⟨q, ⟨g, hg, hq⟩, hxy⟩)
    · exact ⟨p, hp.1, hxy⟩
    · obtain ⟨i, hi, hxy⟩ := (h g (hgroup g hg) x y).1 ⟨q, hq, hxy⟩
      rw [(mem_groupBy.1 hg).2, mem_filter] at hi
      exact ⟨i.2, ((hfeature i).1 hi.1).1, hxy⟩
  · rintro ⟨p, hp, hxy⟩
    cases hf : feature p with
    | none => exact .inl ⟨p, ⟨hp, by simp [hf]⟩, hxy⟩
    | some s =>
      right
      have hmem := (hfeature (s, p)).2 ⟨hp, hf⟩
      obtain ⟨g, hg, -, hlist⟩ := exists_group key hmem
      obtain ⟨q, hq, hxy⟩ := (h g (hgroup g hg) x y).2 ⟨(s, p), hlist, hxy⟩
      exact ⟨q, ⟨g, hg, hq⟩, hxy⟩

theorem rel_of_pointImage {a : Axis} {image : Span ℤ} (h : pointImage p a = some image) (x y : ℤ) :
    (p.axis a).Rel x y ↔ InRange (axisStart (p.axis a)) x ∧ image.Has y := by
  unfold pointImage at h
  split at h
  · rename_i s c he
    obtain rfl := h
    rw [he]
    simp [AxisRelation.Rel, axisStart]
  · rename_i k s he
    cases s with
    | none => cases h
    | some s =>
      simp only [bind_eq_bind, bind_some] at h
      split at h
      · cases h
      · rename_i hlen
        obtain rfl := some.inj h
        rw [he]
        simp only [AxisRelation.Rel, axisStart, inRange_some, Span.Has]
        omega

instance : Std.Total fun a b : Span ℤ × RelationPiece => imageLe a b = true :=
  ⟨fun a b => by
    simp only [imageLe, decide_eq_true_eq]
    rcases lt_trichotomy a.1 b.1 with h | h | h
    · exact .inl (.inl h)
    · exact (le_total a.2 b.2).imp (fun h' => .inr ⟨h, h'⟩) fun h' => .inr ⟨h.symm, h'⟩
    · exact .inr (.inl h)⟩

instance : IsTrans (Span ℤ × RelationPiece) fun a b => imageLe a b = true :=
  ⟨fun a b c hab hbc => by
    simp only [imageLe, decide_eq_true_eq] at hab hbc ⊢
    rcases hab with hab | ⟨hab, hab'⟩
    · rcases hbc with hbc | ⟨hbc, -⟩
      · exact .inl (hab.trans hbc)
      · exact .inl (hbc ▸ hab)
    · rcases hbc with hbc | ⟨hbc, hbc'⟩
      · exact .inl (hab ▸ hbc)
      · exact .inr ⟨hab.trans hbc, hab'.trans hbc'⟩⟩

theorem start_le_of_imageLe {a b : Span ℤ × RelationPiece} (h : imageLe a b = true) :
    a.1.start ≤ b.1.start := by
  simp only [imageLe, decide_eq_true_eq] at h
  exact Span.start_le_of_le (h.elim le_of_lt fun h => h.1.le)

/-- The piece a run of touching images becomes. -/
def mergedRun (a : Axis) (key : RelationPiece) (run : Span ℤ × List (Span ℤ × RelationPiece)) :
    RelationPiece :=
  match run.2 with
  | [first] => first.2
  | _ => key.withAxis a (.unlinked (axisStart (key.axis a)) (some run.1))

theorem anyRel_coalescePointsAxis (a : Axis) (pieces : List RelationPiece) (x y : Position) :
    AnyRel (coalescePointsAxis a pieces) x y ↔ AnyRel pieces x y := by
  unfold coalescePointsAxis
  split
  · rfl
  refine anyRel_regroup (fun g hg x y => ?_) x y
  have hsorted := (pairwise_insertionSort (fun a b => imageLe a b = true) g.2).imp
    fun h => start_le_of_imageLe h
  -- a member relates what the key relates, restricted to its own image
  have hmember : ∀ i ∈ g.2, i.2.Rel x y ↔ i.1.Has (y.at a) ∧
      InRange (axisStart (g.1.axis a)) (x.at a) ∧
        (g.1.axis a.other).Rel (x.at a.other) (y.at a.other) := by
    intro i hi
    obtain ⟨himage, hkey⟩ := hg i hi
    rw [rel_iff_axes i.2 a, rel_of_pointImage himage, ← hkey, axis_withAxis, axis_other_withAxis]
    tauto
  have hrun : ∀ run ∈ touchingRuns (·.1) (g.2.insertionSort fun a b => imageLe a b),
      (mergedRun a g.1 run).Rel x y ↔ ∃ i ∈ run.2, i.2.Rel x y := by
    intro run hr
    have hmem : ∀ i ∈ run.2, i ∈ g.2 := fun i hi =>
      (mem_insertionSort _).1 ((mem_touchingRuns hsorted).2 ⟨run, hr, hi⟩)
    unfold mergedRun
    split
    · rename_i first he
      simp [he]
    · rw [rel_iff_axes _ a, axis_withAxis, axis_other_withAxis]
      simp only [AxisRelation.Rel, inRange_some, has_hull hsorted hr]
      constructor
      · rintro ⟨⟨hx, i, hi, hy⟩, ho⟩
        exact ⟨i, hi, (hmember i (hmem i hi)).2 ⟨hy, hx, ho⟩⟩
      · rintro ⟨i, hi, hxy⟩
        obtain ⟨hy, hx, ho⟩ := (hmember i (hmem i hi)).1 hxy
        exact ⟨⟨hx, i, hi, hy⟩, ho⟩
  simp only [AnyRel, List.mem_map, exists_exists_and_eq_and]
  constructor
  · rintro ⟨run, hr, hxy⟩
    obtain ⟨i, hi, hxy⟩ := (hrun run hr).1 hxy
    exact ⟨i, (mem_insertionSort _).1 ((mem_touchingRuns hsorted).2 ⟨run, hr, hi⟩), hxy⟩
  · rintro ⟨i, hi, hxy⟩
    obtain ⟨run, hr, hi⟩ := (mem_touchingRuns hsorted).1 ((mem_insertionSort _).2 hi)
    exact ⟨run, hr, (hrun run hr).2 ⟨i, hi, hxy⟩⟩

theorem rel_withStart (r : AxisRelation) (s : AxisRange) (x y : ℤ) :
    (withStart r s).Rel x y ↔ InRange s x ∧ (withStart r none).Rel x y := by
  cases r <;> simp [withStart, AxisRelation.Rel]

@[simp] theorem withStart_axisStart (r : AxisRelation) : withStart r (axisStart r) = r := by
  cases r <;> rfl

@[simp] theorem withStart_withStart (r : AxisRelation) (s t : AxisRange) :
    withStart (withStart r s) t = withStart r t := by
  cases r <;> rfl

theorem anyRel_coalesceAnchorsAxis (a : Axis) (pieces : List RelationPiece) (x y : Position) :
    AnyRel (coalesceAnchorsAxis a pieces) x y ↔ AnyRel pieces x y := by
  unfold coalesceAnchorsAxis
  split
  · rfl
  refine anyRel_regroup (fun g hg x y => ?_) x y
  have hsorted : ((g.2.map (·.1)).insertionSort (· ≤ ·)).Pairwise
      fun s t => (id s).start ≤ (id t).start :=
    (pairwise_insertionSort (· ≤ ·) _).imp fun h => Span.start_le_of_le h
  have hmember : ∀ i ∈ g.2, i.2.Rel x y ↔ i.1.Has (x.at a) ∧
      (withStart (g.1.axis a) none).Rel (x.at a) (y.at a) ∧
        (g.1.axis a.other).Rel (x.at a.other) (y.at a.other) := by
    intro i hi
    obtain ⟨hstart, hkey⟩ := hg i hi
    rw [rel_iff_axes i.2 a, ← withStart_axisStart (i.2.axis a), hstart, rel_withStart, ← hkey,
      axis_withAxis, axis_other_withAxis, withStart_withStart, inRange_some, and_assoc]
  simp only [AnyRel, List.mem_map, exists_exists_and_eq_and, rel_iff_axes _ a, axis_withAxis,
    axis_other_withAxis]
  have hull := exists_hull_iff hsorted (x.at a)
  simp only [mem_insertionSort, List.mem_map, exists_exists_and_eq_and, id] at hull
  constructor
  · rintro ⟨run, hr, haxis, ho⟩
    rw [rel_withStart, inRange_some] at haxis
    obtain ⟨i, hi, hx⟩ := hull.1 ⟨run, hr, haxis.1⟩
    exact ⟨i, hi, (rel_iff_axes i.2 a x y).1 ((hmember i hi).2 ⟨hx, haxis.2, ho⟩)⟩
  · rintro ⟨i, hi, hxy⟩
    obtain ⟨hx, hkey, ho⟩ := (hmember i hi).1 ((rel_iff_axes i.2 a x y).2 hxy)
    obtain ⟨run, hr, hx⟩ := hull.2 ⟨i, hi, hx⟩
    exact ⟨run, hr, (rel_withStart _ _ _ _).2 ⟨(inRange_some _ _).2 hx, hkey⟩, ho⟩

namespace PositionRelationSet

theorem rel_normalized (pieces : List RelationPiece) (budget : SearchBudget) (x y : Position) :
    (normalized pieces budget).1.Rel x y ↔ AnyRel pieces x y := by
  unfold normalized
  split
  · rfl
  dsimp only
  split
  · rfl
  have hcoalesced : ∀ x y, AnyRel (((coalesceAnchors (coalescePoints pieces)).insertionSort
      (· ≤ ·)).dedup) x y ↔ AnyRel pieces x y := by
    intro x y
    have hsort : ∀ l : List RelationPiece,
        AnyRel ((l.insertionSort (· ≤ ·)).dedup) x y ↔ AnyRel l x y := by simp [AnyRel]
    rw [hsort, coalesceAnchors, coalescePoints, anyRel_coalesceAnchorsAxis,
      anyRel_coalesceAnchorsAxis, anyRel_coalescePointsAxis, anyRel_coalescePointsAxis]
  rw [← hcoalesced]
  generalize ((coalesceAnchors (coalescePoints pieces)).insertionSort (· ≤ ·)).dedup = kept
  split
  · rfl
  constructor
  · rintro ⟨p, hp, hxy⟩
    exact ⟨p, (mem_filter.1 hp).1, hxy⟩
  · rintro ⟨p, hp, hxy⟩
    -- what is dropped is covered by a piece that nothing else covers
    obtain ⟨m, hm, hmp, hmax⟩ := exists_maximal
      (fun p q h h' => pieceContains_antisymm h h') hp
    refine ⟨m, mem_filter.2 ⟨hm, ?_⟩, ?_⟩
    · rw [Bool.not_eq_true', List.any_eq_false]
      intro k _
      rw [Bool.not_eq_true, List.any_eq_false]
      intro outer houter hcontains
      simp only [decide_not, Bool.and_eq_true, Bool.not_eq_true', decide_eq_false_iff_not]
        at hcontains
      exact hcontains.1 (hmax outer (mem_filter.1 houter).1 hcontains.2)
    · rcases hmp with rfl | hmp
      · exact hxy
      · exact rel_of_pieceContains hmp hxy

theorem inDomains_iff {d : PositionDomain} :
    d.Has x ↔ (∃ r, finiteRange d.arrayStart d.arrayLength = some r ∧ InRange r x.1) ∧
      ∃ r, finiteRange d.packedStart d.packedLength = some r ∧ InRange r x.2 := by
  rw [inRange_finiteRange, inRange_finiteRange]
  rfl

theorem exists_bind₂ {γ : Type} {a : Option α} {b : Option β} {f : α → β → γ} {P : γ → Prop} :
    (∃ c, (do pure (f (← a) (← b))) = some c ∧ P c) ↔
      ∃ r, a = some r ∧ ∃ s, b = some s ∧ P (f r s) := by
  cases a <;> cases b <;> simp

theorem rel_identity (domains : List PositionDomain) (budget : SearchBudget) (x y : Position) :
    (identity domains budget).1.Rel x y ↔ x = y ∧ InDomains domains x := by
  have hlinked : ∀ (r s : AxisRange), (RelationPiece.mk (.linked 0 r) (.linked 0 s)).Rel x y ↔
      x = y ∧ InRange r x.1 ∧ InRange s x.2 := by
    simp only [RelationPiece.Rel, AxisRelation.Rel, Int.add_zero, Prod.ext_iff]
    tauto
  simp only [identity, rel_normalized, InDomains]
  split
  · rename_i hempty
    simp [AnyRel, hlinked, List.isEmpty_iff.1 hempty]
  · rename_i hne
    have hne' : domains ≠ [] := fun h => hne (List.isEmpty_iff.2 h)
    simp only [AnyRel, mem_filterMap, hne', false_or]
    constructor
    · rintro ⟨p, ⟨d, hd, hp⟩, hxy⟩
      obtain ⟨r, hr, s, hs, hxy⟩ := (exists_bind₂ (P := fun p => RelationPiece.Rel p x y)).1
        ⟨p, hp, hxy⟩
      obtain ⟨rfl, hx⟩ := (hlinked r s).1 hxy
      exact ⟨rfl, d, hd, inDomains_iff.2 ⟨⟨r, hr, hx.1⟩, s, hs, hx.2⟩⟩
    · rintro ⟨rfl, d, hd, hx⟩
      obtain ⟨⟨r, hr, hr'⟩, s, hs, hs'⟩ := inDomains_iff.1 hx
      exact ⟨⟨.linked 0 r, .linked 0 s⟩, ⟨d, hd, by simp [hr, hs]⟩, (hlinked r s).2 ⟨rfl, hr', hs'⟩⟩

theorem rel_andThen (set next : PositionRelationSet) (budget : SearchBudget) (x z : Position) :
    (set.andThen next budget).1.Rel x z ↔ ∃ y, set.Rel x y ∧ next.Rel y z := by
  have hpiece : ∀ p q : RelationPiece,
      (∃ r, (do pure (RelationPiece.mk (← composeAxis p.array q.array)
        (← composeAxis p.packed q.packed))) = some r ∧ r.Rel x z) ↔ ∃ y, p.Rel x y ∧ q.Rel y z := by
    intro p q
    have ha := rel_composeAxis p.array q.array x.1 z.1
    have hb := rel_composeAxis p.packed q.packed x.2 z.2
    rw [exists_bind₂]
    constructor
    · rintro ⟨r, hr, s, hs, hxz⟩
      obtain ⟨u, hu⟩ := ha.1 ⟨r, hr, hxz.1⟩
      obtain ⟨v, hv⟩ := hb.1 ⟨s, hs, hxz.2⟩
      exact ⟨(u, v), ⟨hu.1, hv.1⟩, hu.2, hv.2⟩
    · rintro ⟨y, hp, hq⟩
      obtain ⟨r, hr, hxz⟩ := ha.2 ⟨y.1, hp.1, hq.1⟩
      obtain ⟨s, hs, hxz'⟩ := hb.2 ⟨y.2, hp.2, hq.2⟩
      exact ⟨r, hr, s, hs, hxz, hxz'⟩
  rw [andThen, rel_normalized]
  simp only [AnyRel, mem_flatMap, mem_filterMap]
  constructor
  · rintro ⟨r, ⟨p, hp, q, hq, hr⟩, hxz⟩
    obtain ⟨y, hxy, hyz⟩ := (hpiece p q).1 ⟨r, hr, hxz⟩
    exact ⟨y, ⟨p, hp, hxy⟩, q, hq, hyz⟩
  · rintro ⟨y, ⟨p, hp, hxy⟩, q, hq, hyz⟩
    obtain ⟨r, hr, hxz⟩ := (hpiece p q).2 ⟨y, hxy, hyz⟩
    exact ⟨r, ⟨p, hp, q, hq, hr⟩, hxz⟩

theorem rel_thenDependency (set : PositionRelationSet) (dependency : BitDependency)
    (destination : List PositionDomain) (budget : SearchBudget) (x z : Position) :
    (set.thenDependency dependency destination budget).1.Rel x z ↔
      ∃ y, set.Rel x y ∧ dependency.Rel y z ∧ InDomains destination z := by
  have hpiece : ∀ (p : RelationPiece) (d : AxisRange × AxisRange),
      (∃ r, (do pure (RelationPiece.mk (← extendAxis p.array dependency.array d.1)
        (← extendAxis p.packed dependency.packed d.2))) = some r ∧ r.Rel x z) ↔
        ∃ y, p.Rel x y ∧ dependency.Rel y z ∧ InRange d.1 z.1 ∧ InRange d.2 z.2 := by
    intro p d
    have ha := rel_extendAxis p.array dependency.array d.1 x.1 z.1
    have hb := rel_extendAxis p.packed dependency.packed d.2 x.2 z.2
    rw [exists_bind₂]
    constructor
    · rintro ⟨r, hr, s, hs, hxz⟩
      obtain ⟨u, hu, hk, hd⟩ := ha.1 ⟨r, hr, hxz.1⟩
      obtain ⟨v, hv, hk', hd'⟩ := hb.1 ⟨s, hs, hxz.2⟩
      exact ⟨(u, v), ⟨hu, hv⟩, ⟨hk, hk'⟩, hd, hd'⟩
    · rintro ⟨y, hp, hk, hd⟩
      obtain ⟨r, hr, hxz⟩ := ha.2 ⟨y.1, hp.1, hk.1, hd.1⟩
      obtain ⟨s, hs, hxz'⟩ := hb.2 ⟨y.2, hp.2, hk.2, hd.2⟩
      exact ⟨r, hr, s, hs, hxz, hxz'⟩
  -- the ranges of the domains hold the positions of the domains
  have hdomains : (∃ d ∈ (if destination.isEmpty then [(none, none)]
      else destination.filterMap fun d => do
        pure (← finiteRange d.arrayStart d.arrayLength,
          ← finiteRange d.packedStart d.packedLength) : List (AxisRange × AxisRange)),
        InRange d.1 z.1 ∧ InRange d.2 z.2) ↔ InDomains destination z := by
    split
    · rename_i hempty
      simp [InDomains, List.isEmpty_iff.1 hempty]
    · rename_i hne
      have hne' : destination ≠ [] := fun h => hne (List.isEmpty_iff.2 h)
      simp only [InDomains, hne', false_or, mem_filterMap]
      constructor
      · rintro ⟨r, ⟨d, hd, hr⟩, hz⟩
        obtain ⟨r, hr, s, hs, hz⟩ := (exists_bind₂
          (P := fun r : AxisRange × AxisRange => InRange r.1 z.1 ∧ InRange r.2 z.2)).1 ⟨r, hr, hz⟩
        exact ⟨d, hd, inDomains_iff.2 ⟨⟨r, hr, hz.1⟩, s, hs, hz.2⟩⟩
      · rintro ⟨d, hd, hz⟩
        obtain ⟨⟨r, hr, hr'⟩, s, hs, hs'⟩ := inDomains_iff.1 hz
        exact ⟨(r, s), ⟨d, hd, by simp [hr, hs]⟩, hr', hs'⟩
  rw [thenDependency, rel_normalized]
  simp only [← hdomains]
  simp only [AnyRel, mem_flatMap, mem_filterMap]
  constructor
  · rintro ⟨r, ⟨p, hp, d, hd, hr⟩, hxz⟩
    obtain ⟨y, hxy, hyz, hz⟩ := (hpiece p d).1 ⟨r, hr, hxz⟩
    exact ⟨y, ⟨p, hp, hxy⟩, hyz, d, hd, hz⟩
  · rintro ⟨y, ⟨p, hp, hxy⟩, hyz, d, hd, hz⟩
    obtain ⟨r, hr, hxz⟩ := (hpiece p d).2 ⟨y, hxy, hyz, hz⟩
    exact ⟨r, ⟨p, hp, d, hd, hr⟩, hxz⟩

theorem rel_unionAll (sets : List PositionRelationSet) (budget : SearchBudget) (x y : Position) :
    (unionAll sets budget).1.Rel x y ↔ ∃ set ∈ sets, set.Rel x y := by
  rw [unionAll, rel_normalized]
  simp only [AnyRel, mem_flatMap]
  constructor
  · rintro ⟨p, ⟨set, hset, hp⟩, hxy⟩
    exact ⟨set, hset, p, hp, hxy⟩
  · rintro ⟨set, hset, p, hp, hxy⟩
    exact ⟨p, ⟨set, hset, hp⟩, hxy⟩

theorem intersectsIdentity_iff (set : PositionRelationSet) :
    set.intersectsIdentity ↔ ∃ x, set.Rel x x := by
  simp only [intersectsIdentity, List.any_eq_true, Bool.and_eq_true, axisIntersectsIdentity_iff]
  constructor
  · rintro ⟨p, hp, ⟨u, hu⟩, v, hv⟩
    exact ⟨(u, v), p, hp, hu, hv⟩
  · rintro ⟨x, p, hp, hx⟩
    exact ⟨p, hp, ⟨x.1, hx.1⟩, x.2, hx.2⟩

theorem rel_of_piecewiseCovers {set other : PositionRelationSet} (h : set.piecewiseCovers other)
    (hxy : other.Rel x y) : set.Rel x y := by
  obtain ⟨p, hp, hxy⟩ := hxy
  obtain ⟨q, hq, hcontains⟩ := List.any_eq_true.1 (List.all_eq_true.1 h p hp)
  exact ⟨q, hq, rel_of_pieceContains hcontains hxy⟩

theorem rel_along (domains : List PositionDomain) (budget : SearchBudget)
    (path : List (BitDependency × List PositionDomain)) (x z : Position) :
    (along domains budget path).1.Rel x z ↔ Reaches domains path x z := by
  -- extending a path at its end, from any set that stands for the path so far
  have hfold : ∀ (path : List (BitDependency × List PositionDomain)) (domains : List PositionDomain)
      (st : PositionRelationSet × SearchBudget),
      (∀ x y, st.1.Rel x y → InDomains domains y) →
      ((path.foldl (fun st edge => st.1.thenDependency edge.1 edge.2 st.2) st).1.Rel x z ↔
        ∃ y, st.1.Rel x y ∧ Reaches domains path y z) := by
    intro path
    induction path with
    | nil =>
      intro domains st hst
      constructor
      · exact fun h => ⟨z, h, rfl, hst x z h⟩
      · rintro ⟨y, hxy, rfl, -⟩
        exact hxy
    | cons edge path ih =>
      intro domains st hst
      have hnext := ih edge.2 (st.1.thenDependency edge.1 edge.2 st.2) fun x y h =>
        ((rel_thenDependency _ _ _ _ x y).1 h).elim fun _ h => h.2.2
      rw [foldl_cons, hnext]
      simp only [rel_thenDependency, Reaches]
      constructor
      · rintro ⟨y, ⟨w, hxw, hwy, -⟩, hyz⟩
        exact ⟨w, hxw, hst x w hxw, y, hwy, hyz⟩
      · rintro ⟨w, hxw, -, y, hwy, hyz⟩
        have hy : InDomains edge.2 y := by
          cases path with
          | nil => exact hyz.1 ▸ hyz.2
          | cons next path => exact hyz.1
        exact ⟨y, ⟨w, hxw, hwy, hy⟩, hyz⟩
  rw [along, hfold path domains _ fun x y h => by
    obtain ⟨rfl, hx⟩ := (rel_identity domains budget x y).1 h
    exact hx]
  simp only [rel_identity]
  constructor
  · rintro ⟨y, ⟨rfl, -⟩, hz⟩
    exact hz
  · intro hz
    refine ⟨x, ⟨rfl, ?_⟩, hz⟩
    cases path with
    | nil => exact hz.2
    | cons edge path => exact hz.1

/-- The position relations are exact, whatever the budget. -/
theorem positionRelations_exact :
    (∀ (set next : PositionRelationSet) (budget : SearchBudget) (x z : Position),
      (set.andThen next budget).1.Rel x z ↔ ∃ y, set.Rel x y ∧ next.Rel y z) ∧
    (∀ (set : PositionRelationSet) (dependency : BitDependency)
      (destination : List PositionDomain) (budget : SearchBudget) (x z : Position),
      (set.thenDependency dependency destination budget).1.Rel x z ↔
        ∃ y, set.Rel x y ∧ dependency.Rel y z ∧ InDomains destination z) ∧
    (∀ (sets : List PositionRelationSet) (budget : SearchBudget) (x y : Position),
      (unionAll sets budget).1.Rel x y ↔ ∃ set ∈ sets, set.Rel x y) ∧
    (∀ (pieces : List RelationPiece) (budget : SearchBudget) (x y : Position),
      (normalized pieces budget).1.Rel x y ↔ AnyRel pieces x y) ∧
    (∀ set : PositionRelationSet, set.intersectsIdentity ↔ ∃ x, set.Rel x x) ∧
    (∀ set other : PositionRelationSet, set.piecewiseCovers other →
      ∀ x y, other.Rel x y → set.Rel x y) ∧
    ∀ (domains : List PositionDomain) (budget : SearchBudget)
      (path : List (BitDependency × List PositionDomain)) (x z : Position),
      (along domains budget path).1.Rel x z ↔ Reaches domains path x z :=
  ⟨rel_andThen, rel_thenDependency, rel_unionAll, rel_normalized, intersectsIdentity_iff,
    fun _ _ h _ _ hxy => rel_of_piecewiseCovers h hxy, rel_along⟩

end PositionRelationSet

end Veryl.Analyzer.CombLoopDetect
