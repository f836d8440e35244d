import Veryl.Simulator.ArrayReads
import Veryl.Library.Folds

/-!
Which accesses still share an offset where big arrays are folded: a runtime
index contributes the base it was reached at, a static read the start of the
folded span.
-/

namespace Veryl.Simulator

open Veryl.Library List

variable {l l' : ProtoExpression} {off start : VarOffset} {s : Bool × ℤ × ℤ} {fold : BigArrayFold}
  {done out spans : List (Bool × ℤ × ℤ)}

/-- The offset lies in the byte range. -/
def Within (s : Bool × ℤ × ℤ) (off : VarOffset) : Prop :=
  s.1 = off.isFf ∧ s.2.1 ≤ off.raw ∧ off.raw < s.2.2

/-- Non-empty spans, those of one buffer in order with gaps. -/
structure BigArrayFold.Apart (fold : BigArrayFold) : Prop where
  nonempty : ∀ s ∈ fold.spans, s.2.1 < s.2.2
  gaps : fold.spans.Pairwise fun a b => a.1 < b.1 ∨ a.1 = b.1 ∧ a.2.2 < b.2.1

/-- What merging in order keeps, the last span first. -/
structure Folds (done out : List (Bool × ℤ × ℤ)) : Prop where
  nonempty : ∀ s ∈ out, s.2.1 < s.2.2
  gaps : out.Pairwise fun b a => a.1 < b.1 ∨ a.1 = b.1 ∧ a.2.2 < b.2.1
  start : ∀ s ∈ out, ∃ r ∈ done, r.1 = s.1 ∧ r.2.1 = s.2.1
  sound : ∀ s ∈ out, ∀ off, Within s off → ∃ r ∈ done, Within r off

theorem Folds.step (h : Folds done out) (hne : s.2.1 < s.2.2) (hs : ∀ r ∈ done, spanLe r s) :
    Folds (done ++ [s]) (BigArrayFold.mergeStep out s) := by
  have hbefore : ∀ u ∈ out, u.1 < s.1 ∨ u.1 = s.1 ∧ u.2.1 ≤ s.2.1 := by
    intro u hu
    obtain ⟨r, hr, hff, hlo⟩ := h.start u hu
    have hle := of_decide_eq_true (hs r hr)
    rw [← hff, ← hlo]
    exact hle.imp_right fun h => ⟨h.1, by omega⟩
  have old : ∀ u ∈ out, (∃ r ∈ done ++ [s], r.1 = u.1 ∧ r.2.1 = u.2.1) ∧
      ∀ off, Within u off → ∃ r ∈ done ++ [s], Within r off := fun u hu =>
    ⟨(h.start u hu).imp fun r hr => ⟨mem_append_left _ hr.1, hr.2⟩,
      fun off hoff => (h.sound u hu off hoff).imp fun r hr => ⟨mem_append_left _ hr.1, hr.2⟩⟩
  have new : s ∈ done ++ [s] := by simp
  have hpush : (∀ u ∈ out, u.1 < s.1 ∨ u.1 = s.1 ∧ u.2.2 < s.2.1) →
      Folds (done ++ [s]) (s :: out) := fun hgap =>
    { nonempty := forall_mem_cons.2 ⟨hne, h.nonempty⟩
      gaps := pairwise_cons.2 ⟨hgap, h.gaps⟩
      start := forall_mem_cons.2 ⟨⟨s, new, rfl, rfl⟩, fun u hu => (old u hu).1⟩
      sound := forall_mem_cons.2 ⟨fun off hoff => ⟨s, new, hoff⟩, fun u hu => (old u hu).2⟩ }
  unfold BigArrayFold.mergeStep
  split
  · rename_i last rest
    obtain ⟨hlast, hrest⟩ := pairwise_cons.1 h.gaps
    split
    · rename_i hjoin
      refine
        { nonempty := forall_mem_cons.2 ⟨?_, fun u hu => h.nonempty u (mem_cons_of_mem _ hu)⟩
          gaps := pairwise_cons.2 ⟨hlast, hrest⟩
          start := forall_mem_cons.2 ⟨(old last mem_cons_self).1,
            fun u hu => (old u (mem_cons_of_mem _ hu)).1⟩
          sound := forall_mem_cons.2 ⟨fun off hoff => ?_,
            fun u hu => (old u (mem_cons_of_mem _ hu)).2⟩ }
      · exact lt_max_of_lt_left (h.nonempty last mem_cons_self)
      · by_cases hin : off.raw < last.2.2
        · exact (old last mem_cons_self).2 off ⟨hoff.1, hoff.2.1, hin⟩
        · have hend := (lt_max_iff.1 hoff.2.2).resolve_left hin
          exact ⟨s, new, hjoin.1 ▸ hoff.1, by omega, hend⟩
    · rename_i hjoin
      refine hpush (forall_mem_cons.2 ⟨?_, fun u hu => ?_⟩)
      · exact (hbefore last mem_cons_self).imp_right fun hl => ⟨hl.1, by
          by_contra hle
          exact hjoin ⟨hl.1, not_lt.1 hle⟩⟩
      · have hn := h.nonempty last mem_cons_self
        rcases hlast u hu with hu | hu <;> rcases hbefore last mem_cons_self with hl | hl
        · exact .inl (hu.trans hl)
        · exact .inl (hl.1 ▸ hu)
        · exact .inl (hu.1 ▸ hl)
        · exact .inr ⟨hu.1.trans hl.1, by omega⟩
  · exact hpush (by simp)

theorem spanLe_iff {a b : Bool × ℤ × ℤ} :
    spanLe a b ↔ toLex (a.1, toLex a.2) ≤ toLex (b.1, toLex b.2) := by
  simp [spanLe, Prod.Lex.toLex_le_toLex]

instance : Std.Total fun a b : Bool × ℤ × ℤ => spanLe a b = true :=
  ⟨fun a b => by simpa only [spanLe_iff] using le_total _ _⟩

instance : IsTrans (Bool × ℤ × ℤ) fun a b => spanLe a b = true :=
  ⟨fun _ _ _ hab hbc => spanLe_iff.2 ((spanLe_iff.1 hab).trans (spanLe_iff.1 hbc))⟩

theorem folds_finish (hne : ∀ s ∈ spans, s.2.1 < s.2.2) :
    (BigArrayFold.finish spans).Apart ∧ ∀ s ∈ (BigArrayFold.finish spans).spans, ∀ off,
      Within s off → ∃ r ∈ spans, Within r off := by
  have hnil : Folds [] [] := ⟨by simp, by simp, by simp, by simp⟩
  have h : Folds (spans.insertionSort fun a b => spanLe a b)
      ((spans.insertionSort fun a b => spanLe a b).foldl BigArrayFold.mergeStep []) :=
    Library.foldl_insertionSort hnil fun done s out hs hd h =>
      h.step (hne s hs) fun d hmem => (hd d hmem).2
  refine ⟨⟨fun s hs => h.nonempty s (mem_reverse.1 hs), pairwise_reverse.2 h.gaps⟩,
    fun s hs off hoff => ?_⟩
  obtain ⟨r, hr, hin⟩ := h.sound s (mem_reverse.1 hs) off hoff
  exact ⟨r, by simpa using hr, hin⟩

namespace BigArrayFold

theorem Apart.find_eq_some (h : fold.Apart) :
    fold.find off = some s ↔ s ∈ fold.spans ∧ Within s off := by
  -- the spans that start at or before the offset
  set p : Bool × ℤ × ℤ → Bool := fun s => s.1 < off.isFf ∨ s.1 = off.isFf ∧ s.2.1 ≤ off.raw with hp
  have hbefore : ∀ {j k} (hj : j < fold.spans.length) (hk : k < fold.spans.length), j < k →
      p fold.spans[k] = true → p fold.spans[j] = true ∧ ¬ Within fold.spans[j] off := by
    intro j k hj hk hjk hpk
    have hgap := pairwise_iff_getElem.1 h.gaps j k hj hk hjk
    have hne := h.nonempty _ (getElem_mem hj)
    simp only [hp, decide_eq_true_eq, Within] at hpk ⊢
    rcases hgap with hgap | ⟨hff, hgap⟩ <;> rcases hpk with hpk | ⟨hff', hpk⟩
    · exact ⟨.inl (hgap.trans hpk), fun hw => absurd hw.1 (hgap.trans hpk).ne⟩
    · exact ⟨.inl (hff' ▸ hgap), fun hw => absurd hw.1 (hff' ▸ hgap).ne⟩
    · exact ⟨.inl (hff ▸ hpk), fun hw => absurd hw.1 (hff ▸ hpk).ne⟩
    · exact ⟨.inr ⟨hff.trans hff', by omega⟩, fun hw => by omega⟩
  have hfind : fold.find off = if partitionPoint fold.spans p = 0 then none
      else (fold.spans[partitionPoint fold.spans p - 1]?).filter
        fun s => s.1 = off.isFf ∧ off.raw < s.2.2 := rfl
  have hle := partitionPoint_le_length fold.spans p
  rw [hfind]
  constructor
  · intro hsome
    split at hsome
    · cases hsome
    · rename_i hzero
      obtain ⟨hs, hfilter⟩ := Option.filter_eq_some_iff.1 hsome
      obtain ⟨hlt, rfl⟩ := List.getElem?_eq_some_iff.1 hs
      obtain ⟨hff, hend⟩ := of_decide_eq_true hfilter
      have hps := of_decide_eq_true (of_lt_partitionPoint hlt (p := p) (by omega))
      exact ⟨getElem_mem hlt, hff, hps.elim (fun h => absurd hff h.ne) And.right, hend⟩
  · rintro ⟨hs, hw⟩
    obtain ⟨k, hk, rfl⟩ := getElem_of_mem hs
    have hpk : p fold.spans[k] = true := decide_eq_true (.inr ⟨hw.1, hw.2.1⟩)
    have hlt : k < partitionPoint fold.spans p := by
      by_contra hge
      have hpoint : partitionPoint fold.spans p < fold.spans.length := by omega
      rcases Nat.eq_or_lt_of_le (not_lt.1 hge) with heq | hlt
      · have hnot := partitionPoint_not hpoint
        simp only [heq, hpk] at hnot
        cases hnot
      · have hnot := partitionPoint_not hpoint
        rw [(hbefore hpoint hk hlt hpk).1] at hnot
        cases hnot
    have hlast : k = partitionPoint fold.spans p - 1 := by
      by_contra hne
      have hlt' : partitionPoint fold.spans p - 1 < fold.spans.length := by omega
      exact (hbefore hk hlt' (by omega) (of_lt_partitionPoint hlt' (by omega))).2 hw
    rw [if_neg (by omega), ← hlast, getElem?_eq_getElem hk]
    exact Option.filter_eq_some_iff.2 ⟨rfl, decide_eq_true ⟨hw.1, hw.2.2⟩⟩

theorem Apart.canon_canon (h : fold.Apart) : fold.canon (fold.canon off) = fold.canon off := by
  cases hfind : fold.find off with
  | none => simp only [canon, hfind]
  | some s =>
    obtain ⟨hs, hff, -, -⟩ := h.find_eq_some.1 hfind
    have hstart : fold.find (.new off.isFf s.2.1) = some s :=
      h.find_eq_some.2 ⟨hs, by simp [hff], by simp, by simpa using h.nonempty s hs⟩
    simp only [canon, hfind, hstart, VarOffset.new_isFf]

/-- The offset lies in a folded span with this start. -/
def Folded (fold : BigArrayFold) (off start : VarOffset) : Prop :=
  ∃ s ∈ fold.spans, Within s off ∧ start = .new s.1 s.2.1

theorem Apart.canon_eq (h : fold.Apart) (hfolded : fold.Folded off start) :
    fold.canon off = start := by
  obtain ⟨s, hs, hw, rfl⟩ := hfolded
  simp only [canon, h.find_eq_some.2 ⟨hs, hw⟩, hw.1]

theorem Apart.canon_eq_self (h : fold.Apart) (hout : ∀ s ∈ fold.spans, ¬ Within s off) :
    fold.canon off = off := by
  cases hfind : fold.find off with
  | none => simp only [canon, hfind]
  | some s => exact absurd (h.find_eq_some.1 hfind).2 (hout s (h.find_eq_some.1 hfind).1)

end BigArrayFold

/-- What an access contributes. -/
def leafExpanded (fold : BigArrayFold) : ProtoExpression → List VarOffset
  | .variable o _ _ _ _ _ => [fold.canon o]
  | .dynamicVariable base stride _ _ n _ _ _ _ => arrayOffsets fold base stride n
  | _ => []

/-- Two accesses have an offset in common. -/
def Shares (fold : BigArrayFold) (l l' : ProtoExpression) : Prop :=
  ∃ o, o ∈ leafExpanded fold l ∧ o ∈ leafExpanded fold l'

/-- The base a folded array contributes is the start of the span that the offset lies in; an
array that is not folded has this start among its elements. -/
def MeetsStatic (fold : BigArrayFold) (array : VarOffset × ℤ × ℕ) (off : VarOffset) : Prop :=
  if fold.covers array.1 then fold.Folded off array.1
  else ∀ start, fold.Folded off start → Element array.1 array.2.1 array.2.2 start

/-- Arrays that are both folded were reached at one base, and one that is folded was reached at
an element of the other. -/
def MeetsArray (fold : BigArrayFold) (a b : VarOffset × ℤ × ℕ) : Prop :=
  if fold.covers a.1 then
    if fold.covers b.1 then a.1 = b.1 else Element b.1 b.2.1 b.2.2 a.1
  else fold.covers b.1 → Element a.1 a.2.1 a.2.2 b.1

/-- When two accesses that can touch the element keep an offset in common. -/
def Meets (fold : BigArrayFold) (l l' : ProtoExpression) (off : VarOffset) : Prop :=
  match l.array, l'.array with
  | none, none => True
  | none, some a | some a, none => MeetsStatic fold a off
  | some a, some b => MeetsArray fold a b

theorem mem_leafExpanded_array {o base : VarOffset} {stride : ℤ} {n : ℕ}
    (h : l.array = some (base, stride, n)) : o ∈ leafExpanded fold l ↔
      if fold.covers base then o = base else Element base stride n o := by
  cases l <;> cases h
  simp only [leafExpanded, arrayOffsets]
  split
  · exact mem_singleton
  · simp [Element, VarOffset.new_add]

theorem leafExpanded_static (h : l.array = none) (ht : l.Touches off) :
    leafExpanded fold l = [fold.canon off] := by
  cases l <;> cases ht <;> first | rfl | cases h

theorem element_of_touches {base : VarOffset} {stride : ℤ} {n : ℕ}
    (h : l.array = some (base, stride, n)) (ht : l.Touches off) : Element base stride n off := by
  cases l <;> cases h
  exact ht

theorem shares_static_iff (hfold : fold.Apart) {a : VarOffset × ℤ × ℕ} (h : l.array = none)
    (ht : l.Touches off) (h' : l'.array = some a) (ht' : l'.Touches off) :
    Shares fold l l' ↔ MeetsStatic fold a off := by
  rw [Shares, leafExpanded_static h ht]
  simp only [mem_singleton, exists_eq_left, mem_leafExpanded_array h', MeetsStatic]
  have hcanon : fold.Folded off (fold.canon off) ∨ fold.find off = none := by
    cases hfind : fold.find off with
    | none => exact .inr rfl
    | some s =>
      obtain ⟨hs, hw⟩ := hfold.find_eq_some.1 hfind
      exact .inl ⟨s, hs, hw, by simp only [BigArrayFold.canon, hfind, hw.1]⟩
  split
  · rename_i hcovers
    refine ⟨fun heq => hcanon.elim (heq ▸ ·) fun hnone => ?_, hfold.canon_eq⟩
    rw [BigArrayFold.canon, hnone] at heq
    rw [BigArrayFold.covers, ← heq, hnone] at hcovers
    cases hcovers
  · refine ⟨fun helement start hstart => hfold.canon_eq hstart ▸ helement, fun hall => ?_⟩
    refine hcanon.elim (hall _) fun hnone => ?_
    rw [BigArrayFold.canon, hnone]
    exact element_of_touches h' ht'

theorem shares_array_iff {a b : VarOffset × ℤ × ℕ} (h : l.array = some a) (ht : l.Touches off)
    (h' : l'.array = some b) (ht' : l'.Touches off) : Shares fold l l' ↔ MeetsArray fold a b := by
  obtain ⟨base, stride, n⟩ := a
  obtain ⟨base', stride', n'⟩ := b
  simp only [Shares, mem_leafExpanded_array h, mem_leafExpanded_array h', MeetsArray]
  by_cases hc : fold.covers base = true <;> by_cases hc' : fold.covers base' = true <;>
    simp only [hc, hc', if_true, if_false, exists_eq_left, true_implies, false_implies,
      Bool.false_eq_true, exists_eq_right, iff_true]
  exact ⟨off, element_of_touches h ht, element_of_touches h' ht'⟩

theorem record_nonempty {e : ProtoExpression} (hs : s ∈ e.collectBigArrays) : s.2.1 < s.2.2 := by
  obtain ⟨l, -, hrecord⟩ := mem_filterMap.1 hs
  split at hrecord
  · unfold BigArrayFold.record at hrecord
    split at hrecord
    · cases hrecord
    · rename_i hsmall
      dsimp only at hrecord
      split at hrecord
      · cases hrecord
      · rename_i hbig
        obtain rfl := Option.some.inj hrecord
        simp only
        omega
  · cases hrecord

end Veryl.Simulator
