import Veryl.Library.Intervals

/-!
Spans: half-open intervals that hold something. Sorted by their starts, spans
that overlap or touch gather into runs, and the hull of a run holds exactly what
its members hold.
-/

namespace Veryl.Library

open List

/-- A half-open interval that holds something. -/
structure Span (α : Type*) [LT α] where
  start : α
  stop : α
  lt : start < stop

namespace Span

variable {α : Type*} [LinearOrder α]

instance : DecidableEq (Span α) := fun s t =>
  decidable_of_iff (s.start = t.start ∧ s.stop = t.stop) (by
    cases s
    cases t
    simp)

theorem ext' {s t : Span α} (h : s.start = t.start) (h' : s.stop = t.stop) : s = t := by
  cases s
  simp_all

/-- A point of a span. -/
def Has (s : Span α) (x : α) : Prop := s.start ≤ x ∧ x < s.stop

instance (s : Span α) (x : α) : Decidable (s.Has x) := inferInstanceAs (Decidable (_ ∧ _))

theorem has_start (s : Span α) : s.Has s.start := ⟨le_rfl, s.lt⟩

/-- The common part of two spans. -/
def inter (s t : Span α) : Option (Span α) :=
  if h : max s.start t.start < min s.stop t.stop then some ⟨_, _, h⟩ else none

theorem has_inter {s t u : Span α} (h : s.inter t = some u) (x : α) :
    u.Has x ↔ s.Has x ∧ t.Has x := by
  unfold inter at h
  split at h
  · obtain rfl := Option.some.inj h
    simp only [Has, max_le_iff, lt_min_iff]
    tauto
  · cases h

theorem inter_eq_none {s t : Span α} (h : s.inter t = none) (x : α) : ¬ (s.Has x ∧ t.Has x) := by
  unfold inter at h
  split at h
  · cases h
  · rename_i hlt
    rintro ⟨hs, ht⟩
    exact hlt ((max_le hs.1 ht.1).trans_lt (lt_min hs.2 ht.2))

/-- From the start of one span to the later end. -/
def extend (s : Span α) (stop : α) : Span α := ⟨s.start, max s.stop stop, lt_max_of_lt_left s.lt⟩

/-- The least span around two. -/
def hull (s t : Span α) : Span α :=
  ⟨min s.start t.start, max s.stop t.stop, (min_le_left _ _).trans_lt (s.lt.trans_le (le_max_left _ _))⟩

theorem has_hull {s t : Span α} (h : s.start ≤ t.stop) (h' : t.start ≤ s.stop) (x : α) :
    (s.hull t).Has x ↔ s.Has x ∨ t.Has x := by
  simp only [Has, hull, min_le_iff, lt_max_iff]
  constructor
  · rintro ⟨hlo | hlo, hhi | hhi⟩
    · exact .inl ⟨hlo, hhi⟩
    · by_cases hx : x < s.stop
      · exact .inl ⟨hlo, hx⟩
      · exact .inr ⟨h'.trans (not_lt.1 hx), hhi⟩
    · by_cases hx : x < t.stop
      · exact .inr ⟨hlo, hx⟩
      · exact .inl ⟨h.trans (not_lt.1 hx), hhi⟩
    · exact .inr ⟨hlo, hhi⟩
  · rintro (⟨hlo, hhi⟩ | ⟨hlo, hhi⟩)
    · exact ⟨.inl hlo, .inl hhi⟩
    · exact ⟨.inr hlo, .inr hhi⟩

/-- The order by start, then by stop. -/
instance : LinearOrder (Span α) :=
  LinearOrder.lift' (fun s => toLex (s.start, s.stop)) fun s t h => by
    have h := toLex.injective h
    exact ext' (congrArg Prod.fst h) (congrArg Prod.snd h)

theorem start_le_of_le {s t : Span α} (h : s ≤ t) : s.start ≤ t.start := by
  rcases (Prod.Lex.toLex_le_toLex).1 (show toLex (s.start, s.stop) ≤ toLex (t.start, t.stop) from h)
    with h | h
  · exact le_of_lt h
  · exact h.1.le

end Span

section Runs

variable {α : Type*} [LinearOrder α] {β : Type*} (range : β → Span α)

/-- Adds the next member in order to the last run or starts a new one, the last
run first. -/
def touchStep (runs : List (Span α × List β)) (b : β) : List (Span α × List β) :=
  match runs with
  | last :: rest =>
    if (range b).start ≤ last.1.stop then
      (last.1.extend (range b).stop, last.2 ++ [b]) :: rest
    else (range b, [b]) :: last :: rest
  | [] => [(range b, [b])]

/-- Gathers members whose ranges overlap or touch, each run with its hull. -/
def touchingRuns (l : List β) : List (Span α × List β) := (l.foldl (touchStep range) []).reverse

/-- What gathering keeps, the last run first. -/
structure Runs (done : List β) (runs : List (Span α × List β)) : Prop where
  members : ∀ b, b ∈ done ↔ ∃ r ∈ runs, b ∈ r.2
  hull : ∀ r ∈ runs, ∀ x, r.1.Has x ↔ ∃ b ∈ r.2, (range b).Has x
  apart : runs.Pairwise fun later earlier => earlier.1.stop < later.1.start
  start : ∀ r ∈ runs, ∃ b ∈ done, (range b).start = r.1.start

variable {range}

variable {b : β}

theorem Runs.step {done : List β} {runs : List (Span α × List β)} (h : Runs range done runs)
    (hb : ∀ d ∈ done, (range d).start ≤ (range b).start) :
    Runs range (done ++ [b]) (touchStep range runs b) := by
  have start : ∀ r ∈ runs, ∃ d ∈ done ++ [b], (range d).start = r.1.start :=
    fun r hr => exists_mem_snoc (h.start r hr)
  have push (hgap : ∀ r ∈ runs, r.1.stop < (range b).start) :
      Runs range (done ++ [b]) ((range b, [b]) :: runs) :=
    { members := fun d => by
        simp only [mem_append, h.members d, mem_cons, exists_eq_or_imp, not_mem_nil, or_false]
        exact or_comm
      hull := forall_mem_cons.2 ⟨by simp, h.hull⟩
      apart := pairwise_cons.2 ⟨hgap, h.apart⟩
      start := forall_mem_cons.2 ⟨exists_mem_snoc_self rfl, start⟩ }
  unfold touchStep
  cases runs with
  | nil => exact push (by simp)
  | cons last rest =>
    have hlast : last.1.start ≤ (range b).start := by
      obtain ⟨d, hd, he⟩ := h.start last mem_cons_self
      exact he ▸ hb d hd
    have hhull := forall_mem_cons.1 h.hull
    dsimp only
    split
    · rename_i htouch
      refine
        { members := fun d => ?_
          hull := forall_mem_cons.2 ⟨fun x => ?_, hhull.2⟩
          apart := pairwise_cons.2 ⟨fun r hr => rel_of_pairwise_cons h.apart hr, h.apart.of_cons⟩
          start := forall_mem_cons.2 (forall_mem_cons.1 start) }
      · simp only [mem_append, h.members d, mem_cons, exists_eq_or_imp, not_mem_nil, or_false]
        exact or_right_comm
      · simp only [mem_append, mem_singleton, or_and_right, exists_or, exists_eq_left, ← hhull.1 x]
        simp only [Span.Has, Span.extend, lt_max_iff]
        constructor
        · rintro ⟨hlo, hhi | hhi⟩
          · exact .inl ⟨hlo, hhi⟩
          · -- past the old hull: in the new member, which touches it
            by_cases hx : x < last.1.stop
            · exact .inl ⟨hlo, hx⟩
            · exact .inr ⟨htouch.trans (not_lt.1 hx), hhi⟩
        · rintro (⟨hlo, hhi⟩ | ⟨hlo, hhi⟩)
          · exact ⟨hlo, .inl hhi⟩
          · exact ⟨hlast.trans hlo, .inr hhi⟩
    · rename_i hgap
      exact push (forall_mem_cons.2
        ⟨not_le.1 hgap, fun r hr => (rel_of_pairwise_cons h.apart hr).trans_le hlast⟩)

theorem runs_touchingRuns {l : List β}
    (hl : l.Pairwise fun a b => (range a).start ≤ (range b).start) :
    Runs range l (touchingRuns range l).reverse := by
  rw [touchingRuns, reverse_reverse]
  refine foldl_rule ⟨by simp, by simp, .nil, by simp⟩ fun done b rest runs hdone h => h.step ?_
  rw [hdone] at hl
  exact fun d hd => (pairwise_append.1 hl).2.2 d hd b mem_cons_self

section Spec

variable {l : List β} (hl : l.Pairwise fun a b => (range a).start ≤ (range b).start)

include hl

theorem mem_touchingRuns : b ∈ l ↔ ∃ r ∈ touchingRuns range l, b ∈ r.2 := by
  simpa using (runs_touchingRuns hl).members b

theorem has_hull {r : Span α × List β} (hr : r ∈ touchingRuns range l) (x : α) :
    r.1.Has x ↔ ∃ b ∈ r.2, (range b).Has x :=
  (runs_touchingRuns hl).hull r (mem_reverse.2 hr) x

theorem exists_hull_iff (x : α) :
    (∃ r ∈ touchingRuns range l, r.1.Has x) ↔ ∃ b ∈ l, (range b).Has x := by
  constructor
  · rintro ⟨r, hr, hx⟩
    obtain ⟨b, hb, hx⟩ := (has_hull hl hr x).1 hx
    exact ⟨b, (mem_touchingRuns hl).2 ⟨r, hr, hb⟩, hx⟩
  · rintro ⟨b, hb, hx⟩
    obtain ⟨r, hr, hb⟩ := (mem_touchingRuns hl).1 hb
    exact ⟨r, hr, (has_hull hl hr x).2 ⟨b, hb, hx⟩⟩

theorem touchingRuns_apart : (touchingRuns range l).Pairwise fun r r' => r.1.stop < r'.1.start := by
  simpa [pairwise_reverse] using (runs_touchingRuns hl).apart

end Spec
end Runs

section Common

variable {α : Type*} [LinearOrder α]

/-- Spans in order that neither overlap nor touch. -/
abbrev Separated (l : List (Span α)) : Prop := l.Pairwise fun s t => s.stop < t.start

/-- Walks two lists of spans side by side and keeps the common parts: the span
that ends first is done. -/
def commonSpans : List (Span α) → List (Span α) → List (Span α)
  | s :: l, t :: m =>
    (s.inter t).toList ++ if s.stop < t.stop then commonSpans l (t :: m) else commonSpans (s :: l) m
  | [], _ | _, [] => []
termination_by l m => l.length + m.length

theorem has_toList_inter (s t : Span α) (x : α) :
    (∃ u ∈ (s.inter t).toList, u.Has x) ↔ s.Has x ∧ t.Has x := by
  cases hu : s.inter t with
  | none => simpa using fun hs ht => Span.inter_eq_none hu x ⟨hs, ht⟩
  | some u => simpa using Span.has_inter hu x

theorem mem_toList_inter {s t u : Span α} (hu : u ∈ (s.inter t).toList) :
    (s.start ≤ u.start ∧ u.stop ≤ s.stop) ∧ t.start ≤ u.start ∧ u.stop ≤ t.stop := by
  simp only [Option.mem_toList, Span.inter] at hu
  split at hu
  · obtain rfl := Option.some.inj hu
    exact ⟨⟨le_max_left _ _, min_le_left _ _⟩, le_max_right _ _, min_le_right _ _⟩
  · cases hu

theorem separated_toList_inter (s t : Span α) : Separated (s.inter t).toList := by
  cases s.inter t with
  | none => exact .nil
  | some u => exact pairwise_singleton _ _

theorem exists_common_iff {l m : List (Span α)} (hl : Separated l) (hm : Separated m) (x : α) :
    (∃ u ∈ commonSpans l m, u.Has x) ↔ (∃ s ∈ l, s.Has x) ∧ ∃ t ∈ m, t.Has x := by
  fun_induction commonSpans l m with
  | case1 s l t m ihl ihm =>
    simp only [mem_append, or_and_right, exists_or, has_toList_inter]
    split
    · rename_i h
      -- the span that ends first meets no later span of the other list
      have hlater : s.Has x → ∀ t' ∈ m, ¬ t'.Has x := by
        intro hs t' ht' hx
        have := rel_of_pairwise_cons hm ht'
        exact absurd (hs.2.trans (h.trans this)) (not_lt.2 hx.1)
      rw [ihl hl.of_cons hm]
      simp only [mem_cons, exists_eq_or_imp]
      constructor
      · rintro (⟨hs, ht⟩ | ⟨hs, ht⟩)
        · exact ⟨.inl hs, .inl ht⟩
        · exact ⟨.inr hs, ht⟩
      · rintro ⟨hs | hs, ht⟩
        · rcases ht with ht | ⟨t', ht', hx⟩
          · exact .inl ⟨hs, ht⟩
          · exact absurd hx (hlater hs t' ht')
        · exact .inr ⟨hs, ht⟩
    · rename_i h
      have hlater : t.Has x → ∀ s' ∈ l, ¬ s'.Has x := by
        intro ht s' hs' hx
        have := rel_of_pairwise_cons hl hs'
        exact absurd (ht.2.trans_le ((not_lt.1 h).trans this.le)) (not_lt.2 hx.1)
      rw [ihm hl hm.of_cons]
      simp only [mem_cons, exists_eq_or_imp]
      constructor
      · rintro (⟨hs, ht⟩ | ⟨hs, ht⟩)
        · exact ⟨.inl hs, .inl ht⟩
        · exact ⟨hs, .inr ht⟩
      · rintro ⟨hs, ht | ht⟩
        · rcases hs with hs | ⟨s', hs', hx⟩
          · exact .inl ⟨hs, ht⟩
          · exact absurd hx (hlater ht s' hs')
        · exact .inr ⟨hs, ht⟩
  | case2 m => simp
  | case3 l h => simp

theorem within_of_mem_common {l m : List (Span α)} {u : Span α} (hu : u ∈ commonSpans l m) :
    (∃ s ∈ l, s.start ≤ u.start ∧ u.stop ≤ s.stop) ∧
      ∃ t ∈ m, t.start ≤ u.start ∧ u.stop ≤ t.stop := by
  fun_induction commonSpans l m with
  | case1 s l t m ihl ihm =>
    rcases mem_append.1 hu with hu | hu
    · have := mem_toList_inter hu
      exact ⟨⟨s, by simp, this.1⟩, t, by simp, this.2⟩
    · split at hu
      · obtain ⟨⟨s', hs', hle⟩, ht⟩ := ihl hu
        exact ⟨⟨s', by simp [hs'], hle⟩, ht⟩
      · obtain ⟨hs, t', ht', hle⟩ := ihm hu
        exact ⟨hs, t', by simp [ht'], hle⟩
  | case2 m => cases hu
  | case3 l h => cases hu

theorem separated_common {l m : List (Span α)} (hl : Separated l) (hm : Separated m) :
    Separated (commonSpans l m) := by
  fun_induction commonSpans l m with
  | case1 s l t m ihl ihm =>
    split
    · refine pairwise_append.2
        ⟨separated_toList_inter s t, ihl hl.of_cons hm, fun u hu v hv => ?_⟩
      obtain ⟨⟨s', hs', hle, -⟩, -⟩ := within_of_mem_common hv
      have hstop := (mem_toList_inter hu).1.2
      exact hstop.trans_lt ((rel_of_pairwise_cons hl hs').trans_le hle)
    · refine pairwise_append.2
        ⟨separated_toList_inter s t, ihm hl hm.of_cons, fun u hu v hv => ?_⟩
      obtain ⟨-, t', ht', hle, -⟩ := within_of_mem_common hv
      have hstop := (mem_toList_inter hu).2.2
      exact hstop.trans_lt ((rel_of_pairwise_cons hm ht').trans_le hle)
  | case2 m => exact .nil
  | case3 l h => exact .nil

theorem common_self {l : List (Span α)} (hl : Separated l) : commonSpans l l = l := by
  have hskip : ∀ (s : Span α) (m : List (Span α)), Separated (s :: m) →
      commonSpans (s :: m) m = commonSpans m m := by
    intro s m hm
    cases m with
    | nil => simp [commonSpans]
    | cons t m =>
      have hst : s.stop < t.start := rel_of_pairwise_cons hm (by simp)
      have hnone : s.inter t = none := by
        rw [Span.inter, dif_neg]
        exact not_lt.2 ((min_le_left _ _).trans (hst.le.trans (le_max_right _ _)))
      rw [commonSpans, hnone, if_pos (hst.trans t.lt)]
      rfl
  induction l with
  | nil => simp [commonSpans]
  | cons s l ih =>
    have hself : s.inter s = some s := by
      rw [Span.inter, dif_pos (by simpa using s.lt)]
      exact congrArg some (Span.ext' (max_self _) (min_self _))
    rw [commonSpans, hself, if_neg (lt_irrefl _), hskip s l hl, ih hl.of_cons]
    rfl

end Common

section Group

variable {β κ : Type*} [LinearOrder κ]

/-- The members of a list by their key, in the order of the keys. -/
def groupBy (key : β → κ) (l : List β) : List (κ × List β) :=
  ((l.map key).dedup.insertionSort (· ≤ ·)).map fun k => (k, l.filter fun b => key b = k)

theorem mem_groupBy {key : β → κ} {l : List β} {g : κ × List β} :
    g ∈ groupBy key l ↔ (∃ b ∈ l, key b = g.1) ∧ g.2 = l.filter fun b => key b = g.1 := by
  obtain ⟨k, bs⟩ := g
  simp only [groupBy, mem_map, mem_insertionSort, List.mem_dedup, Prod.mk.injEq]
  constructor
  · rintro ⟨k', ⟨b, hb, rfl⟩, rfl, rfl⟩
    exact ⟨⟨b, hb, rfl⟩, rfl⟩
  · rintro ⟨⟨b, hb, he⟩, hbs⟩
    exact ⟨k, ⟨b, hb, he⟩, rfl, hbs.symm⟩

theorem exists_group (key : β → κ) {l : List β} (hb : b ∈ l) :
    ∃ g ∈ groupBy key l, g.1 = key b ∧ b ∈ g.2 :=
  ⟨(key b, l.filter fun c => key c = key b), mem_groupBy.2 ⟨⟨b, hb, rfl⟩, rfl⟩, rfl,
    mem_filter.2 ⟨hb, by simp⟩⟩

end Group

section Maximal

variable {β : Type*} {r : β → β → Prop} [IsTrans β r]

theorem exists_maximal (hr : ∀ a b, r a b → r b a → a = b) {l : List β} (hb : b ∈ l) :
    ∃ m ∈ l, (m = b ∨ r m b) ∧ ∀ c ∈ l, r c m → c = m := by
  classical
  induction hn : (l.toFinset.filter fun c => r c b ∧ c ≠ b).card using Nat.strong_induction_on
    generalizing b with
  | _ n ih =>
    by_cases hmax : ∀ c ∈ l, r c b → c = b
    · exact ⟨b, hb, .inl rfl, hmax⟩
    push Not at hmax
    obtain ⟨c, hc, hcb, hne⟩ := hmax
    have hlt : (l.toFinset.filter fun d => r d c ∧ d ≠ c).card < n := by
      rw [← hn]
      refine Finset.card_lt_card ⟨fun d hd => ?_, fun hsub => ?_⟩
      · simp only [Finset.mem_filter, mem_toFinset] at hd ⊢
        refine ⟨hd.1, IsTrans.trans _ _ _ hd.2.1 hcb, fun he => ?_⟩
        exact hne (hr c b hcb (he ▸ hd.2.1))
      · have := hsub (Finset.mem_filter.2 ⟨mem_toFinset.2 hc, hcb, hne⟩)
        simp at this
    obtain ⟨m, hm, hmc, hmmax⟩ := ih _ hlt hc rfl
    refine ⟨m, hm, .inr ?_, hmmax⟩
    rcases hmc with rfl | hmc
    · exact hcb
    · exact IsTrans.trans _ _ _ hmc hcb

end Maximal

end Veryl.Library
