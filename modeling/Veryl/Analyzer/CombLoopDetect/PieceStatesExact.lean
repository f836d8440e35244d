import Veryl.Analyzer.CombLoopDetect.PieceStates

/-!
Guarded relation states lose and invent nothing: over any sequence of inserts
and takes, the recorded pairs are the inserted ones for every valuation, the
runs agree with the recorded pieces and lie apart, and the delta holds every
pair recorded since it was last taken.
-/

namespace Veryl.Analyzer.CombLoopDetect

open Veryl.Library
open RelationPiece (runKey unionAxis withRun)

variable {a : Axis} {x : RelationPiece × PathCondition} {run : Span ℤ} {p q : RelationPiece}

theorem take_isSome {n : ℕ} {b : SearchBudget} (hb : b.exhausted = false) (hn : n ≤ b.remaining) :
    (Purse.take n b).isSome := by
  have hspend : b.spend n = (true, { b with remaining := b.remaining - n }) :=
    if_neg (by simp [hb, hn])
  simp [Purse.take, hspend]

theorem returns_spendGuardComparison (p q : PathCondition) :
    Returns (spendGuardComparison p q) fun _ => True :=
  Returns.pay (by omega)

@[simp] theorem axisStart_withStart (r : AxisRelation) (start : AxisRange) :
    axisStart (withStart r start) = start := by
  cases r <;> rfl

@[simp] theorem withAxis_withAxis (p : RelationPiece) (a : Axis) (r s : AxisRelation) :
    (p.withAxis a r).withAxis a s = p.withAxis a s := by
  cases a <;> rfl

@[simp] theorem withAxis_axis (p : RelationPiece) (a : Axis) : p.withAxis a (p.axis a) = p := by
  cases a <;> rfl

theorem withRun_runKey (h : axisStart (p.axis a) = some run) : (p.runKey a).withRun a run = p := by
  simp [withRun, runKey, ← h]

theorem rel_of_run (h : axisStart (p.axis a) = some run) (x y : Position) :
    p.Rel x y ↔ run.Has (x.at a) ∧ (p.runKey a).Rel x y := by
  rw [rel_iff_axes p a, rel_iff_axes (p.runKey a) a]
  have hp : p.axis a = withStart (p.axis a) (some run) := by rw [← h, withStart_axisStart]
  rw [hp, rel_withStart, inRange_some, runKey, axis_withAxis, axis_other_withAxis]
  exact and_assoc

/-- Neighbours along one axis: equal but for their runs, which touch. -/
structure Neighbours (p q : RelationPiece) (a : Axis) (left right : Span ℤ) : Prop where
  startLeft : axisStart (p.axis a) = some left
  startRight : axisStart (q.axis a) = some right
  key : q.runKey a = p.runKey a
  touch : left.start ≤ right.stop
  touch' : right.start ≤ left.stop

theorem unionContiguous_eq {left right : Span ℤ} (h : Neighbours p q a left right) :
    p.unionContiguous q = (p.runKey a).withRun a (left.hull right) := by
  have hother : q.axis a.other = p.axis a.other := by
    have := congrArg (·.axis a.other) h.key
    simpa [runKey] using this
  have hself : ∀ u : RelationPiece, p.unionAxis q u a.other = u := by
    intro u
    rw [unionAxis, hother]
    cases axisStart (p.axis a.other) <;> simp
  have hhull : p.unionAxis q p a = (p.runKey a).withRun a (left.hull right) := by
    simp only [unionAxis, h.startLeft, h.startRight]
    split
    · simp [withRun, runKey]
    · rename_i he
      obtain rfl := not_not.1 he
      rw [show left.hull left = left from Span.ext' (min_self _) (max_self _)]
      exact (withRun_runKey h.startLeft).symm
  cases a with
  | array =>
    change p.unionAxis q (p.unionAxis q p .array) .packed = _
    rw [hhull]
    exact hself _
  | packed =>
    change p.unionAxis q (p.unionAxis q p Axis.packed.other) .packed = _
    rw [hself, hhull]

theorem rel_unionContiguous {left right : Span ℤ}
    (h : Neighbours p q a left right) (x y : Position) :
    (p.unionContiguous q).Rel x y ↔ p.Rel x y ∨ q.Rel x y := by
  have hrun : axisStart (((p.runKey a).withRun a (left.hull right)).axis a) =
      some (left.hull right) := by simp [withRun]
  have hkey : ((p.runKey a).withRun a (left.hull right)).runKey a = p.runKey a := by
    simp [withRun, runKey]
  rw [unionContiguous_eq h, rel_of_run hrun, hkey, rel_of_run h.startLeft, rel_of_run h.startRight,
    h.key,
    Span.has_hull h.touch h.touch', or_and_right]

namespace PieceStates

/-- The pairs of entries whose condition admits a valuation. -/
def Holds (entries : List (RelationPiece × PathCondition)) (v : Valuation) (x y : Position) : Prop :=
  ∃ e ∈ entries, e.2.Admits v ∧ e.1.Rel x y

def Recorded (s : PieceStates) : Valuation → Position → Position → Prop := Holds s.pieces

/-- The indices agree with the recorded pieces, and the runs of one entry lie apart. -/
structure Consistent (s : PieceStates) : Prop where
  nodup : s.pieces.Nodup
  groups : ∀ p, p ∈ s.groups ↔ ∃ c, (p, c) ∈ s.pieces
  runs : ∀ a k c run, ((k, c), run) ∈ s.runs a ↔
    ∃ p, (p, c) ∈ s.pieces ∧ axisStart (p.axis a) = some run ∧ p.runKey a = k
  apart : ∀ a k run run', (k, run) ∈ s.runs a → (k, run') ∈ s.runs a → run ≠ run' →
    run.stop < run'.start ∨ run'.stop < run.start
  delta : ∀ e ∈ s.delta, e ∈ s.pieces

theorem consistent_empty : empty.Consistent where
  nodup := .nil
  groups := by simp [empty]
  runs := by simp [empty]
  apart := by simp [empty]
  delta := by simp [empty]

variable {s s' : PieceStates} {p q : RelationPiece} {c e : PathCondition}

@[simp] theorem mem_conditions : c ∈ s.conditions p ↔ (p, c) ∈ s.pieces := by
  simp [conditions, and_comm]

theorem Consistent.nodup_conditions (h : s.Consistent) (p : RelationPiece) :
    (s.conditions p).Nodup := by
  refine (List.nodup_map_iff_inj_on (h.nodup.filter _)).2 fun e he e' he' heq => ?_
  simp only [List.mem_filter, decide_eq_true_eq] at he he'
  exact Prod.ext (he.2.trans he'.2.symm) heq

@[simp] theorem mem_pieces_remove : x ∈ (s.remove p c).pieces ↔ x ∈ s.pieces ∧ x ≠ (p, c) := by
  simp [remove]

@[simp] theorem mem_delta_remove : x ∈ (s.remove p c).delta ↔ x ∈ s.delta ∧ x ≠ (p, c) := by
  simp [remove]

theorem mem_runs_remove {k : RelationPiece × PathCondition} :
    (k, run) ∈ (s.remove p c).runs a ↔ (k, run) ∈ s.runs a ∧
      ∀ range, axisStart (p.axis a) = some range → k = (p.runKey a, c) → run.start ≠ range.start := by
  simp only [remove]
  cases axisStart (p.axis a) with
  | none => simp
  | some range =>
    simp only [List.mem_filter, decide_eq_true_eq, not_and, Option.some.injEq, forall_eq', ne_eq]

theorem Consistent.remove (h : s.Consistent) (hp : (p, c) ∈ s.pieces) :
    (s.remove p c).Consistent where
  nodup := h.nodup.filter _
  groups q := by
    have hgroups : q ∈ (s.remove p c).groups ↔
        q ∈ s.groups ∧ ((s.conditions p).all (· = c) → q ≠ p) := by
      simp only [PieceStates.remove]
      split <;> simp_all
    rw [hgroups, h.groups]
    simp only [mem_pieces_remove]
    constructor
    · rintro ⟨⟨e, he⟩, hall⟩
      by_cases hq : q = p
      · subst hq
        have hsome : ¬ (s.conditions q).all (· = c) := fun hc => hall hc rfl
        simp only [List.all_eq_true, decide_eq_true_eq, not_forall, mem_conditions] at hsome
        obtain ⟨e', he', hne⟩ := hsome
        exact ⟨e', he', fun h => hne (Prod.mk.inj h).2⟩
      · exact ⟨e, he, fun h => hq (Prod.mk.inj h).1⟩
    · rintro ⟨e, he, hne⟩
      refine ⟨⟨e, he⟩, fun hall hq => ?_⟩
      subst hq
      have := List.all_eq_true.1 hall e (mem_conditions.2 he)
      exact hne (Prod.ext rfl (of_decide_eq_true this))
  runs a k e run := by
    rw [mem_runs_remove, h.runs]
    constructor
    · rintro ⟨⟨q, hq, hrun, rfl⟩, hne⟩
      refine ⟨q, mem_pieces_remove.2 ⟨hq, fun heq => ?_⟩, hrun, rfl⟩
      obtain ⟨rfl, rfl⟩ := Prod.mk.inj heq
      exact hne run hrun rfl rfl
    · rintro ⟨q, hmem, hrun, rfl⟩
      obtain ⟨hq, hne⟩ := mem_pieces_remove.1 hmem
      refine ⟨⟨q, hq, hrun, rfl⟩, fun range hrange hk hstart => ?_⟩
      obtain ⟨hkey, rfl⟩ := Prod.mk.inj hk
      -- runs of one entry with one start are one run
      have hmem : ((p.runKey a, e), range) ∈ s.runs a := (h.runs _ _ _ _).2 ⟨p, hp, hrange, rfl⟩
      have hmem' : ((p.runKey a, e), run) ∈ s.runs a := (h.runs _ _ _ _).2 ⟨q, hq, hrun, hkey⟩
      have heq : run = range := by
        by_contra hdiff
        have := range.lt
        have := run.lt
        rcases h.apart a _ _ _ hmem' hmem hdiff with hlt | hlt <;> omega
      subst heq
      refine hne (Prod.ext ?_ rfl)
      rw [← withRun_runKey hrun, hkey, withRun_runKey hrange]
  apart a k run run' hrun hrun' hne :=
    h.apart a k run run' (mem_runs_remove.1 hrun).1 (mem_runs_remove.1 hrun').1 hne
  delta x hx :=
    mem_pieces_remove.2 ⟨h.delta x (mem_delta_remove.1 hx).1, (mem_delta_remove.1 hx).2⟩

theorem apart_of_contiguousOn_eq_none (h : s.Consistent) {range : Span ℤ}
    (hnone : s.contiguousOn p c a = none) (hrange : axisStart (p.axis a) = some range)
    (hrun : ((p.runKey a, c), run) ∈ s.runs a) :
    run.stop < range.start ∨ range.stop < run.start := by
  by_contra htouch
  push Not at htouch
  have hmem : ((p.runKey a, c), run) ∈ (s.runs a).filter fun r =>
      r.1 = (p.runKey a, c) ∧ r.2.start ≤ range.stop :=
    List.mem_filter.2 ⟨hrun, by simpa using htouch.2⟩
  -- the last run that does not start past the end
  cases hlast : ((s.runs a).filter fun r =>
      r.1 = (p.runKey a, c) ∧ r.2.start ≤ range.stop).argmax (·.2.start) with
  | none =>
    rw [List.argmax_eq_none.1 hlast] at hmem
    cases hmem
  | some last =>
    obtain ⟨hlastMem, hmax, -⟩ := List.argmax_eq_some_iff.1 hlast
    have hle := hmax _ hmem
    obtain ⟨hin, hkey⟩ := List.mem_filter.1 hlastMem
    simp only [decide_eq_true_eq] at hkey
    have hgap : last.2.stop < range.start := by
      by_contra hge
      have hsome : s.contiguousOn p c a = some ((p.runKey a).withRun a last.2) := by
        simp only [contiguousOn, hrange, Option.bind_eq_bind, Option.bind_some, hlast]
        exact if_pos (not_lt.1 hge)
      rw [hsome] at hnone
      cases hnone
    have hin' : ((p.runKey a, c), last.2) ∈ s.runs a := hkey.1 ▸ hin
    have hne : run ≠ last.2 := fun he => by
      rw [he] at htouch
      omega
    have := last.2.lt
    dsimp only at hle
    rcases h.apart a _ _ _ hrun hin' hne with hlt | hlt <;> omega

theorem neighbours_of_contiguousOn (h : s.Consistent) (hq : s.contiguousOn p c a = some q) :
    (q, c) ∈ s.pieces ∧ ∃ left right, Neighbours p q a left right := by
  simp only [contiguousOn, Option.bind_eq_bind, Option.bind_eq_some_iff] at hq
  obtain ⟨range, hrange, last, hlast, hq⟩ := hq
  split at hq
  · rename_i htouch
    obtain rfl := Option.some.inj hq
    obtain ⟨hin, hkey⟩ := List.mem_filter.1 (List.argmax_mem hlast)
    simp only [decide_eq_true_eq] at hkey
    have hin' : ((p.runKey a, c), last.2) ∈ s.runs a := hkey.1 ▸ hin
    obtain ⟨r, hr, hstart, hrkey⟩ := (h.runs _ _ _ _).1 hin'
    have hrq : (p.runKey a).withRun a last.2 = r := by rw [← hrkey, withRun_runKey hstart]
    rw [hrq]
    exact ⟨hr, range, last.2, hrange, hstart, hrkey, htouch, hkey.2⟩
  · cases hq

theorem neighbours_of_contiguous (h : s.Consistent) (hq : s.contiguous p c = some q) :
    (q, c) ∈ s.pieces ∧ ∃ a left right, Neighbours p q a left right := by
  unfold contiguous at hq
  cases harray : s.contiguousOn p c .array with
  | some r =>
    rw [harray] at hq
    obtain rfl := Option.some.inj hq
    obtain ⟨hmem, left, right, hn⟩ := neighbours_of_contiguousOn h harray
    exact ⟨hmem, .array, left, right, hn⟩
  | none =>
    rw [harray] at hq
    obtain ⟨hmem, left, right, hn⟩ := neighbours_of_contiguousOn h hq
    exact ⟨hmem, .packed, left, right, hn⟩

theorem contiguousOn_eq_none (h : s.contiguous p c = none) (a : Axis) :
    s.contiguousOn p c a = none := by
  unfold contiguous at h
  cases harray : s.contiguousOn p c .array with
  | some r => simp [harray] at h
  | none =>
    cases a with
    | array => exact harray
    | packed => simpa [harray] using h

@[simp] theorem mem_pieces_add : x ∈ (s.add p c).pieces ↔ x ∈ s.pieces ∨ x = (p, c) := by
  simp [add]

@[simp] theorem mem_delta_add : x ∈ (s.add p c).delta ↔ x ∈ s.delta ∨ x = (p, c) := by
  simp only [add]
  split
  · rename_i hmem
    constructor
    · exact .inl
    · rintro (hx | rfl)
      · exact hx
      · exact hmem
  · simp

theorem Consistent.add (h : s.Consistent) (hnew : (p, c) ∉ s.pieces)
    (hnone : s.contiguous p c = none) :
    (s.add p c).Consistent := by
  have hruns : ∀ a k run, (k, run) ∈ (s.add p c).runs a ↔ (k, run) ∈ s.runs a ∨
      k = (p.runKey a, c) ∧ axisStart (p.axis a) = some run := by
    intro a k run
    simp only [PieceStates.add]
    cases hrange : axisStart (p.axis a) with
    | none => simp
    | some range =>
      have hkeep : ∀ run', ((p.runKey a, c), run') ∈ s.runs a → run'.start ≠ range.start := by
        intro run' hrun' he
        have := run'.lt
        have := range.lt
        rcases apart_of_contiguousOn_eq_none h (contiguousOn_eq_none hnone a) hrange hrun' with
          hlt | hlt <;> omega
      simp only [List.mem_append, List.mem_filter, List.mem_singleton, Prod.mk.injEq,
        Option.some.injEq, decide_eq_true_eq]
      constructor
      · rintro (⟨hmem, -⟩ | ⟨rfl, rfl⟩)
        · exact .inl hmem
        · exact .inr ⟨rfl, rfl⟩
      · rintro (hmem | ⟨rfl, rfl⟩)
        · refine .inl ⟨hmem, ?_⟩
          rintro ⟨rfl, he⟩
          exact hkeep run hmem he
        · exact .inr ⟨rfl, rfl⟩
  constructor
  · exact List.nodup_append.2 ⟨h.nodup, List.nodup_singleton _, fun x hx y hy he =>
      hnew (List.mem_singleton.1 hy ▸ he ▸ hx)⟩
  · intro q
    have hgroups : q ∈ (s.add p c).groups ↔ q ∈ s.groups ∨ q = p := by
      simp only [PieceStates.add]
      split
      · rename_i hmem
        exact ⟨.inl, fun h => h.elim id fun he => he ▸ hmem⟩
      · rw [List.mem_orderedInsert, or_comm]
    rw [hgroups, h.groups]
    simp only [mem_pieces_add, Prod.mk.injEq, exists_or]
    simp
  · intro a k e run
    rw [hruns, h.runs]
    simp only [mem_pieces_add, or_and_right, exists_or, Prod.mk.injEq]
    refine or_congr_right ⟨?_, ?_⟩
    · rintro ⟨⟨rfl, rfl⟩, hrange⟩
      exact ⟨p, ⟨rfl, rfl⟩, hrange, rfl⟩
    · rintro ⟨q, ⟨rfl, rfl⟩, hrange, rfl⟩
      exact ⟨⟨rfl, rfl⟩, hrange⟩
  · intro a k run run' hrun hrun' hne
    rw [hruns] at hrun hrun'
    have hnew : ∀ {range run : Span ℤ}, axisStart (p.axis a) = some range →
        ((p.runKey a, c), run) ∈ s.runs a → run.stop < range.start ∨ range.stop < run.start :=
      fun hrange hmem =>
        apart_of_contiguousOn_eq_none h (contiguousOn_eq_none hnone a) hrange hmem
    rcases hrun with hrun | ⟨rfl, hrange⟩
    · rcases hrun' with hrun' | ⟨rfl, hrange'⟩
      · exact h.apart a k run run' hrun hrun' hne
      · exact hnew hrange' hrun
    · rcases hrun' with hrun' | ⟨-, hrange'⟩
      · exact (hnew hrange hrun').symm
      · exact absurd (Option.some.inj (hrange.symm.trans hrange')) hne
  · intro x hx
    rcases mem_delta_add.1 hx with hx | rfl
    · exact mem_pieces_add.2 (.inl (h.delta x hx))
    · exact mem_pieces_add.2 (.inr rfl)

/-- Merging a piece further into the state: no pair is lost or invented, and
only recorded entries disappear. -/
structure Merging (s : PieceStates) (p : RelationPiece) (c : PathCondition) (s' : PieceStates)
    (p' : RelationPiece) (c' : PathCondition) : Prop where
  consistent : s.Consistent → s'.Consistent
  recorded : ∀ v x y, s'.Recorded v x y ∨ c'.Admits v ∧ p'.Rel x y ↔
    s.Recorded v x y ∨ c.Admits v ∧ p.Rel x y
  fresh : ∀ v x y, Holds s.delta v x y ∨ c.Admits v ∧ p.Rel x y →
    Holds s'.delta v x y ∨ c'.Admits v ∧ p'.Rel x y
  kept : ∀ e ∈ s'.pieces, e ∈ s.pieces ∧ (e ∈ s.delta → e ∈ s'.delta)
  length : s'.pieces.length ≤ s.pieces.length

theorem Merging.refl (s : PieceStates) (p : RelationPiece) (c : PathCondition) :
    Merging s p c s p c :=
  ⟨id, fun _ _ _ => Iff.rfl, fun _ _ _ => id, fun _ h => ⟨h, id⟩, le_rfl⟩

theorem Merging.trans {s₁ s₂ s₃ : PieceStates} {p₁ p₂ p₃ : RelationPiece}
    {c₁ c₂ c₃ : PathCondition} (h : Merging s₁ p₁ c₁ s₂ p₂ c₂) (h' : Merging s₂ p₂ c₂ s₃ p₃ c₃) :
    Merging s₁ p₁ c₁ s₃ p₃ c₃ where
  consistent := h'.consistent ∘ h.consistent
  recorded v x y := (h'.recorded v x y).trans (h.recorded v x y)
  fresh v x y := h'.fresh v x y ∘ h.fresh v x y
  kept e he := ⟨(h.kept e (h'.kept e he).1).1,
    fun hd => (h'.kept e he).2 ((h.kept e (h'.kept e he).1).2 hd)⟩
  length := h'.length.trans h.length

theorem holds_split {entries entries' : List (RelationPiece × PathCondition)}
    (h : ∀ e, e ∈ entries' ↔ e ∈ entries ∧ e ≠ (q, e')) (v : Valuation) (x y : Position) :
    Holds entries v x y → Holds entries' v x y ∨ e'.Admits v ∧ q.Rel x y := by
  rintro ⟨e, he, hv, hxy⟩
  by_cases heq : e = (q, e')
  · subst heq
    exact .inr ⟨hv, hxy⟩
  · exact .inl ⟨e, (h e).2 ⟨he, heq⟩, hv, hxy⟩

theorem Merging.remove {p' : RelationPiece} {c' : PathCondition} (hq : (q, e) ∈ s.pieces)
    (hunion : ∀ v x y, c'.Admits v ∧ p'.Rel x y ↔ c.Admits v ∧ p.Rel x y ∨ e.Admits v ∧ q.Rel x y) :
    Merging s p c (s.remove q e) p' c' where
  consistent h := h.remove hq
  recorded v x y := by
    rw [hunion]
    constructor
    · rintro (⟨i, hi, h⟩ | h | h)
      · exact .inl ⟨i, (mem_pieces_remove.1 hi).1, h⟩
      · exact .inr h
      · exact .inl ⟨(q, e), hq, h⟩
    · rintro (h | h)
      · rcases holds_split (fun _ => mem_pieces_remove) v x y h with h | h
        · exact .inl h
        · exact .inr (.inr h)
      · exact .inr (.inl h)
  fresh v x y := by
    rw [hunion]
    rintro (h | h)
    · rcases holds_split (fun _ => mem_delta_remove) v x y h with h | h
      · exact .inl h
      · exact .inr (.inr h)
    · exact .inr (.inl h)
  kept i hi := by
    obtain ⟨hi, hne⟩ := mem_pieces_remove.1 hi
    exact ⟨hi, fun hd => mem_delta_remove.2 ⟨hd, hne⟩⟩
  length := List.length_filter_le _ _

theorem length_remove (h : (q, e) ∈ s.pieces) : (s.remove q e).pieces.length < s.pieces.length :=
  List.length_filter_lt_length_iff_exists.2 ⟨(q, e), h, by simp⟩

theorem returns_covered (s : PieceStates) (p : RelationPiece) (c : PathCondition) :
    Returns (s.covered p c) fun r => r = true →
      ∃ outer recorded, (outer, recorded) ∈ s.pieces ∧ pieceContains outer p ∧ recorded.covers c := by
  have houter : ∀ outer, Returns (do
      pay 1
      if !pieceContains outer p then pure false
      else (s.conditions outer).anyM fun recorded => do
        spendGuardComparison recorded c
        pure (recorded.covers c)) fun r => r = true →
      ∃ recorded, (outer, recorded) ∈ s.pieces ∧ pieceContains outer p ∧ recorded.covers c := by
    intro outer
    refine Returns.bind (Returns.pay Nat.one_pos) fun _ _ => ?_
    split
    · exact Returns.pure (by simp)
    rename_i hcontains
    have hany : Returns ((s.conditions outer).anyM fun recorded => do
        spendGuardComparison recorded c
        pure (recorded.covers c)) fun r => r = true →
        ∃ recorded ∈ s.conditions outer, recorded.covers c :=
      Returns.anyM fun recorded _ =>
        Returns.bind (returns_spendGuardComparison recorded c) fun _ _ => Returns.pure id
    refine hany.mono fun r h hr => ?_
    obtain ⟨recorded, hmem, hcovers⟩ := h hr
    exact ⟨recorded, mem_conditions.1 hmem, by simpa using hcontains, hcovers⟩
  refine (Returns.anyM fun candidate _ => Returns.anyM fun outer _ => houter outer).mono
    fun r h hr => ?_
  obtain ⟨candidate, -, outer, -, recorded, h⟩ := h hr
  exact ⟨outer, recorded, h⟩

theorem returns_absorb (p : RelationPiece) (c : PathCondition) (recorded : List PathCondition)
    (s : PieceStates) (hnodup : recorded.Nodup) (hmem : ∀ e ∈ recorded, (p, e) ∈ s.pieces) :
    Returns (absorb p c recorded s) fun r => match r.1 with
      | some union => Merging s p c r.2 p union ∧ r.2.pieces.length < s.pieces.length
      | none => Merging s p c r.2 p c ∧
          ∀ e ∈ recorded, (p, e) ∈ r.2.pieces → ¬ c.covers e := by
  induction recorded generalizing s with
  | nil => exact Returns.pure ⟨Merging.refl s p c, by simp⟩
  | cons e recorded ih =>
    refine Returns.bind (returns_spendGuardComparison e c) fun _ _ => ?_
    have he := hmem e (by simp)
    split
    · rename_i hcovers
      have hstep : Merging s p c (s.remove p e) p c := .remove he fun v x y => by
        constructor
        · exact .inl
        · rintro (h | ⟨hv, hxy⟩)
          · exact h
          · exact ⟨PathCondition.admits_of_covers hcovers hv, hxy⟩
      refine (ih (s.remove p e) hnodup.of_cons fun e' he' => ?_).mono fun r hr => ?_
      · refine mem_pieces_remove.2 ⟨hmem e' (by simp [he']), fun heq => ?_⟩
        exact (List.nodup_cons.1 hnodup).1 ((Prod.mk.inj heq).2 ▸ he')
      · cases hr' : r.1 with
        | some union =>
          simp only [hr'] at hr ⊢
          exact ⟨hstep.trans hr.1, hr.2.trans_le hstep.length⟩
        | none =>
          simp only [hr'] at hr ⊢
          refine ⟨hstep.trans hr.1, fun e' he' hkept => ?_⟩
          rcases List.mem_cons.1 he' with rfl | he'
          · exact absurd rfl (mem_pieces_remove.1 (hr.1.kept _ hkept).1).2
          · exact hr.2 e' he' hkept
    · rename_i hcovers
      split
      · rename_i union hunion
        refine Returns.pure ⟨.remove he fun v x y => ?_, length_remove he⟩
        rw [PathCondition.admits_disjoinExact hunion, or_and_right]
        exact or_comm
      · refine (ih s hnodup.of_cons fun e' he' => hmem e' (by simp [he'])).mono fun r hr => ?_
        cases hr' : r.1 with
        | some union =>
          simp only [hr'] at hr ⊢
          exact hr
        | none =>
          simp only [hr'] at hr ⊢
          refine ⟨hr.1, fun e' he' => ?_⟩
          rcases List.mem_cons.1 he' with rfl | he'
          · exact fun _ => hcovers
          · exact hr.2 e' he'

theorem returns_mergeLoop (turns : ℕ) (p : RelationPiece) (c : PathCondition) (s : PieceStates)
    (h : s.Consistent) (hturns : s.pieces.length < turns) :
    Returns (mergeLoop turns p c s) fun r =>
      Merging s p c r.2.2 r.1 r.2.1 ∧ (r.1, r.2.1) ∉ r.2.2.pieces ∧
        r.2.2.contiguous r.1 r.2.1 = none := by
  induction turns generalizing p c s with
  | zero => omega
  | succ turns ih =>
    refine Returns.bind (returns_absorb p c (s.conditions p) s
      (h.nodup_conditions p) fun e he => mem_conditions.1 he) fun r hr => ?_
    obtain ⟨o, s₁⟩ := r
    cases o with
    | some union =>
      dsimp only at hr ⊢
      refine (ih p union s₁ (hr.1.consistent h) (by omega)).mono fun r hr' => ?_
      exact ⟨hr.1.trans hr'.1, hr'.2⟩
    | none =>
      dsimp only at hr ⊢
      obtain ⟨hr, huncovered⟩ := hr
      cases hq : s₁.contiguous p c with
      | none =>
        refine Returns.pure ⟨hr, fun hmem => ?_, hq⟩
        have hc := mem_conditions.2 (hr.kept _ hmem).1
        exact huncovered c hc hmem c.covers_self
      | some q =>
        obtain ⟨hmem, a, left, right, hn⟩ := neighbours_of_contiguous (hr.consistent h) hq
        have hstep : Merging s₁ p c (s₁.remove q c) (p.unionContiguous q) c :=
          .remove hmem fun v x y => by rw [rel_unionContiguous hn, and_or_left]
        refine Returns.bind (Returns.pay Nat.one_pos) fun _ _ => ?_
        have hlt := length_remove hmem
        have hle := hr.length
        refine (ih _ c _ (hstep.consistent (hr.consistent h)) (by omega)).mono fun r hr' => ?_
        exact ⟨(hr.trans hstep).trans hr'.1, hr'.2⟩

/-- Growing by the given pairs: nothing else is recorded, the delta keeps its
pairs and holds every new entry. -/
structure Grown (s s' : PieceStates) (new : Valuation → Position → Position → Prop) : Prop where
  consistent : s'.Consistent
  recorded : ∀ v x y, s'.Recorded v x y ↔ s.Recorded v x y ∨ new v x y
  fresh : ∀ v x y, Holds s.delta v x y → Holds s'.delta v x y
  kept : ∀ e ∈ s'.pieces, e ∈ s.delta → e ∈ s'.delta
  entries : ∀ e ∈ s'.pieces, e ∉ s.pieces → e ∈ s'.delta

theorem returns_insertPiece (h : s.Consistent) (p : RelationPiece) (c : PathCondition) :
    Returns (s.insertPiece p c) fun r => Grown s r.2 fun v x y => c.Admits v ∧ p.Rel x y := by
  refine Returns.bind (Returns.pay Nat.one_pos) fun _ _ => ?_
  refine Returns.bind (returns_covered s p c) fun covered hcovered => ?_
  split
  · rename_i htrue
    obtain ⟨outer, recorded, hmem, hcontains, hcovers⟩ := hcovered htrue
    refine Returns.pure ⟨h, fun v x y => ⟨.inl, ?_⟩, fun _ _ _ => id, fun _ _ => id, ?_⟩
    · rintro (hr | ⟨hv, hxy⟩)
      · exact hr
      · exact ⟨(outer, recorded), hmem, PathCondition.admits_of_covers hcovers hv,
          rel_of_pieceContains hcontains hxy⟩
    · exact fun e he hne => absurd he hne
  · refine Returns.bind (returns_mergeLoop _ p c s h (Nat.lt_succ_self _)) fun r hr => ?_
    obtain ⟨p', c', s'⟩ := r
    obtain ⟨hmerge, hnew, hnone⟩ := hr
    have hholds : ∀ (l l' : List (RelationPiece × PathCondition)),
        (∀ e, e ∈ l' ↔ e ∈ l ∨ e = (p', c')) → ∀ v x y,
        Holds l' v x y ↔ Holds l v x y ∨ c'.Admits v ∧ p'.Rel x y := by
      intro l l' hl v x y
      simp only [Holds, hl, or_and_right, exists_or, exists_eq_left]
    refine Returns.pure ⟨(hmerge.consistent h).add hnew hnone, fun v x y => ?_, fun v x y hs => ?_,
      fun e he hd => ?_, fun e he hne => ?_⟩
    · exact (hholds _ _ (fun _ => mem_pieces_add) v x y).trans (hmerge.recorded v x y)
    · exact (hholds _ _ (fun _ => mem_delta_add) v x y).2 (hmerge.fresh v x y (.inl hs))
    · rcases mem_pieces_add.1 he with he | rfl
      · exact mem_delta_add.2 (.inl ((hmerge.kept e he).2 hd))
      · exact mem_delta_add.2 (.inr rfl)
    · rcases mem_pieces_add.1 he with he | rfl
      · exact absurd (hmerge.kept e he).1 hne
      · exact mem_delta_add.2 (.inr rfl)

theorem returns_insert (h : s.Consistent) (relation : PositionRelationSet) (c : PathCondition) :
    Returns (s.insert relation c) fun r =>
      Grown s r.2 fun v x y => c.Admits v ∧ relation.Rel x y := by
  refine (Returns.foldlM (Q := fun (done : List RelationPiece) (st : Bool × PieceStates) =>
    Grown s st.2 fun v x y => c.Admits v ∧ AnyRel done x y) ?_ fun done p _ st _ hst => ?_)
  · refine ⟨h, fun v x y => ?_, fun _ _ _ => id, fun _ _ => id, fun e he hne => absurd he hne⟩
    simp [AnyRel]
  · refine Returns.bind (returns_insertPiece hst.consistent p c) fun r hr => Returns.pure ?_
    refine ⟨hr.consistent, fun v x y => ?_, fun v x y => hr.fresh v x y ∘ hst.fresh v x y,
      fun e he hd => ?_, fun e he hne => ?_⟩
    · rw [hr.recorded, hst.recorded, or_assoc, ← and_or_left]
      simp only [AnyRel, List.mem_append, List.mem_singleton, or_and_right, exists_or,
        exists_eq_left]
    · by_cases hmem : e ∈ st.2.pieces
      · exact hr.kept e he (hst.kept e hmem hd)
      · exact hr.entries e he hmem
    · by_cases hmem : e ∈ st.2.pieces
      · exact hr.kept e he (hst.entries e hmem hne)
      · exact hr.entries e he hmem

theorem holds_foldl_normalized (v : Valuation) (x y : Position)
    (groups : List (PathCondition × List (RelationPiece × PathCondition)))
    (st : List (PathCondition × PositionRelationSet) × SearchBudget) :
    (∃ d ∈ (groups.foldl (fun st g =>
      let (set, budget) := PositionRelationSet.normalized (g.2.map (·.1)) st.2
      (st.1 ++ [(g.1, set)], budget)) st).1, d.1.Admits v ∧ d.2.Rel x y) ↔
    (∃ d ∈ st.1, d.1.Admits v ∧ d.2.Rel x y) ∨
      ∃ g ∈ groups, g.1.Admits v ∧ AnyRel (g.2.map (·.1)) x y := by
  induction groups generalizing st with
  | nil => simp
  | cons g groups ih =>
    rw [List.foldl_cons, ih]
    simp only [List.mem_append, List.mem_cons, List.not_mem_nil, or_and_right, exists_or,
      exists_eq_left, PositionRelationSet.rel_normalized, or_assoc, false_and, exists_false,
      false_or]

theorem holds_takeDelta (s : PieceStates) (budget : SearchBudget) (v : Valuation) (x y : Position) :
    (∃ d ∈ (s.takeDelta budget).1, d.1.Admits v ∧ d.2.Rel x y) ↔ Holds s.delta v x y := by
  refine (holds_foldl_normalized v x y _ _).trans ?_
  simp only [List.not_mem_nil, false_and, exists_false, false_or, mem_groupBy]
  constructor
  · rintro ⟨g, ⟨-, hg⟩, hv, p, hp, hxy⟩
    rw [hg] at hp
    obtain ⟨e, he, rfl⟩ := List.mem_map.1 hp
    obtain ⟨he, hc⟩ := List.mem_filter.1 he
    exact ⟨e, (List.mem_insertionSort _).1 he, of_decide_eq_true hc ▸ hv, hxy⟩
  · rintro ⟨e, he, hv, hxy⟩
    have he' := (List.mem_insertionSort (fun e e' => toLex e ≤ toLex e')).2 he
    obtain ⟨g, hg, hkey, hmem⟩ := exists_group (·.2) he'
    exact ⟨g, mem_groupBy.1 hg, hkey ▸ hv, e.1, List.mem_map.2 ⟨e, hmem, rfl⟩, hxy⟩

theorem Consistent.takeDelta (h : s.Consistent) (budget : SearchBudget) :
    (s.takeDelta budget).2.2.Consistent where
  nodup := h.nodup
  groups := h.groups
  runs := h.runs
  apart := h.apart
  delta := fun _ he => absurd he List.not_mem_nil

/-- Any sequence of inserts and takes: the state it reaches, what was inserted,
and the entries recorded since the delta was last taken. -/
inductive Run : PieceStates → List (PositionRelationSet × PathCondition) →
    Set (RelationPiece × PathCondition) → Prop
  | empty : Run .empty [] ∅
  | insert {s s' : PieceStates} {inserted : List (PositionRelationSet × PathCondition)}
      {recent : Set (RelationPiece × PathCondition)} {relation : PositionRelationSet}
      {c : PathCondition} {budget budget' : SearchBudget} {changed : Bool} :
      Run s inserted recent → s.insert relation c budget = some ((changed, s'), budget') →
      Run s' ((relation, c) :: inserted) (recent ∪ {e | e ∈ s'.pieces ∧ e ∉ s.pieces})
  | takeDelta {s : PieceStates} {inserted : List (PositionRelationSet × PathCondition)}
      {recent : Set (RelationPiece × PathCondition)} (budget : SearchBudget) :
      Run s inserted recent → Run (s.takeDelta budget).2.2 inserted ∅

/-- What holds along a run. -/
structure Tracks (s : PieceStates) (inserted : List (PositionRelationSet × PathCondition))
    (recent : Set (RelationPiece × PathCondition)) : Prop where
  consistent : s.Consistent
  recorded : ∀ v x y, s.Recorded v x y ↔ ∃ i ∈ inserted, i.2.Admits v ∧ i.1.Rel x y
  fresh : ∀ e ∈ recent, ∀ v x y, e.2.Admits v → e.1.Rel x y → Holds s.delta v x y

theorem Run.tracks {inserted : List (PositionRelationSet × PathCondition)}
    {recent : Set (RelationPiece × PathCondition)} (h : Run s inserted recent) :
    Tracks s inserted recent := by
  induction h with
  | empty => exact ⟨consistent_empty, by simp [Recorded, Holds, PieceStates.empty], by simp⟩
  | insert _ hinsert ih =>
    have hgrown := (returns_insert ih.consistent _ _).post hinsert
    refine ⟨hgrown.consistent, fun v x y => ?_, ?_⟩
    · rw [hgrown.recorded, ih.recorded]
      simp only [List.mem_cons, exists_eq_or_imp]
      exact or_comm
    · rintro e (he | ⟨he, hne⟩) v x y hv hxy
      · exact hgrown.fresh v x y (ih.fresh e he v x y hv hxy)
      · exact ⟨e, hgrown.entries e he hne, hv, hxy⟩
  | takeDelta budget _ ih =>
    exact ⟨ih.consistent.takeDelta budget, ih.recorded, fun e he => he.elim⟩

/-- Guarded relation states lose and invent nothing, whatever the order of
inserts and takes. -/
theorem pieceStates_exact {inserted : List (PositionRelationSet × PathCondition)}
    {recent : Set (RelationPiece × PathCondition)} (h : Run s inserted recent) :
    (∀ v x y, (∃ e ∈ s.pieces, e.2.Admits v ∧ e.1.Rel x y) ↔
      ∃ i ∈ inserted, i.2.Admits v ∧ i.1.Rel x y) ∧
    (∀ a k run run', (k, run) ∈ s.runs a → (k, run') ∈ s.runs a → run ≠ run' →
      run.stop < run'.start ∨ run'.stop < run.start) ∧
    (∀ a k c run, ((k, c), run) ∈ s.runs a ↔
      ∃ p, (p, c) ∈ s.pieces ∧ axisStart (p.axis a) = some run ∧ p.runKey a = k) ∧
    (∀ p, p ∈ s.groups ↔ ∃ c, (p, c) ∈ s.pieces) ∧
    (∀ budget, ∀ e ∈ recent, ∀ v x y, e.2.Admits v → e.1.Rel x y →
      ∃ d ∈ (s.takeDelta budget).1, d.1.Admits v ∧ d.2.Rel x y) ∧
    (∀ budget, ∀ d ∈ (s.takeDelta budget).1, ∀ v x y, d.1.Admits v → d.2.Rel x y →
      ∃ e ∈ s.pieces, e.2.Admits v ∧ e.1.Rel x y) ∧
    ∀ relation c, ∃ n, ∀ budget : SearchBudget, budget.exhausted = false →
      n ≤ budget.remaining → (s.insert relation c budget).isSome := by
  have ht := h.tracks
  refine ⟨ht.recorded, ht.consistent.apart, ht.consistent.runs, ht.consistent.groups,
    fun budget e he v x y hv hxy => ?_, fun budget d hd v x y hv hxy => ?_, fun relation c => ?_⟩
  · exact (holds_takeDelta s budget v x y).2 (ht.fresh e he v x y hv hxy)
  · obtain ⟨e, he, hxy⟩ := (holds_takeDelta s budget v x y).1 ⟨d, hd, hv, hxy⟩
    exact ⟨e, ht.consistent.delta e he, hxy⟩
  · obtain ⟨n, -, hn⟩ := (returns_insert ht.consistent relation c).enough
    exact ⟨n, fun b hb hle => hn b (take_isSome hb hle)⟩

/-- One piece: the elements from `start` on stay where they are. -/
def elements (start stop : ℤ) (h : start < stop) : RelationPiece :=
  ⟨.linked 0 (some ⟨start, stop, h⟩), .linked 0 none⟩

/-- One arm of a branch of two. -/
def oneArm (arm : ℕ) : PathCondition :=
  ⟨[⟨⟨0, 0, 2⟩, .range arm (arm + 1)⟩], List.pairwise_singleton _ _⟩

def afterInsert (s : PieceStates) (i : PositionRelationSet × PathCondition) : PieceStates :=
  ((s.insert i.1 i.2 ⟨99, false⟩).map (·.1.2)).getD s

/-- The lower half under one arm, and the delta taken. -/
def lowerTaken : PieceStates :=
  ((empty.afterInsert (⟨[elements 0 4 (by decide)]⟩, oneArm 0)).takeDelta ⟨99, false⟩).2.2

/-- Then the upper half under the same arm. -/
def bothHalves : PieceStates :=
  lowerTaken.afterInsert (⟨[elements 4 8 (by decide)]⟩, oneArm 0)

/-- Then both halves in one under the other arm. -/
def bothArms : PieceStates := bothHalves.afterInsert (⟨[elements 0 8 (by decide)]⟩, oneArm 1)

/-- Then a part of what is recorded by now. -/
def partAgain : PieceStates := bothArms.afterInsert (⟨[elements 2 3 (by decide)]⟩, oneArm 0)

theorem Run.afterInsert {inserted : List (PositionRelationSet × PathCondition)}
    {recent : Set (RelationPiece × PathCondition)} (h : Run s inserted recent)
    {i : PositionRelationSet × PathCondition} (hsome : (s.insert i.1 i.2 ⟨99, false⟩).isSome) :
    Run (s.afterInsert i) (i :: inserted)
      (recent ∪ {e | e ∈ (s.afterInsert i).pieces ∧ e ∉ s.pieces}) := by
  obtain ⟨⟨⟨changed, s'⟩, budget⟩, hs⟩ := Option.isSome_iff_exists.1 hsome
  have hafter : s.afterInsert i = s' := by rw [PieceStates.afterInsert, hs]; rfl
  rw [hafter]
  exact h.insert hs

/-- Halves that touch merge, equal pieces join their conditions, a covered one is dropped: one
piece without a condition is left of the four, and the next delta holds it. -/
theorem pieceStates_exact_merged : ∃ inserted recent, Run partAgain inserted recent ∧
    inserted.length = 4 ∧ partAgain.pieces = [(elements 0 8 (by decide), .unconditional)] ∧
    (∀ v x y, (∃ e ∈ partAgain.pieces, e.2.Admits v ∧ e.1.Rel x y) ↔
      ∃ i ∈ inserted, i.2.Admits v ∧ i.1.Rel x y) ∧
    ∀ v x y, (elements 0 8 (by decide)).Rel x y →
      ∃ d ∈ (partAgain.takeDelta ⟨99, false⟩).1, d.1.Admits v ∧ d.2.Rel x y := by
  have hlower : Run lowerTaken [(⟨[elements 0 4 (by decide)]⟩, oneArm 0)] ∅ :=
    (Run.empty.afterInsert (by decide +kernel)).takeDelta _
  have hhalves : Run bothHalves _ _ := hlower.afterInsert (by decide +kernel)
  have harms : Run bothArms _ _ := hhalves.afterInsert (by decide +kernel)
  have hpart : Run partAgain _ _ := harms.afterInsert (by decide +kernel)
  have hexact := pieceStates_exact hpart
  refine ⟨_, _, hpart, rfl, by decide +kernel, hexact.1, fun v x y hxy => ?_⟩
  refine hexact.2.2.2.2.1 ⟨99, false⟩ (_, .unconditional) (.inl (.inr ⟨?_, ?_⟩)) v x y
    PathCondition.admits_unconditional hxy
  · decide +kernel
  · decide +kernel

end PieceStates
end Veryl.Analyzer.CombLoopDetect
