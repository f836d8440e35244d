import Veryl.Library.Folds

/-!
Half-open intervals over a linear order. Merging the intervals that overlap
yields disjoint ones, and two points come to lie in one of these exactly when a
chain of the given intervals leads from one to the other.
-/

namespace Veryl.Library

open List

variable {α : Type*} [LinearOrder α] {u r : α × α}

/-- A point of a half-open interval. -/
def Holds (r : α × α) (x : α) : Prop := r.1 ≤ x ∧ x < r.2

instance (r : α × α) (x : α) : Decidable (Holds r x) := inferInstanceAs (Decidable (_ ∧ _))

/-- Two points of one of the intervals. -/
def Share (rs : List (α × α)) (x y : α) : Prop := ∃ r ∈ rs, Holds r x ∧ Holds r y

/-- The order of a sort by start, the wider interval first. -/
def startLe (a b : α × α) : Bool := a.1 < b.1 ∨ a.1 = b.1 ∧ b.2 ≤ a.2

/-- Merges the next interval in order into those merged so far, the last one first. -/
def overlapStep (out : List (α × α)) (r : α × α) : List (α × α) :=
  match out with
  | last :: rest => if r.1 < last.2 then (last.1, max last.2 r.2) :: rest else r :: last :: rest
  | [] => [r]

def mergeOverlaps (rs : List (α × α)) : List (α × α) :=
  ((rs.insertionSort fun a b => startLe a b).foldl overlapStep []).reverse

instance : Std.Total fun a b : α × α => startLe a b = true :=
  ⟨fun a b => by
    simp only [startLe, decide_eq_true_eq]
    rcases lt_trichotomy a.1 b.1 with h | h | h
    · exact .inl (.inl h)
    · rcases le_total a.2 b.2 with h' | h'
      · exact .inr (.inr ⟨h.symm, h'⟩)
      · exact .inl (.inr ⟨h, h'⟩)
    · exact .inr (.inl h)⟩

instance : IsTrans (α × α) fun a b => startLe a b = true :=
  ⟨fun a b c hab hbc => by
    simp only [startLe, decide_eq_true_eq] at hab hbc ⊢
    rcases hab with hab | hab <;> rcases hbc with hbc | hbc
    · exact .inl (hab.trans hbc)
    · exact .inl (hbc.1 ▸ hab)
    · exact .inl (hab.1 ▸ hbc)
    · exact .inr ⟨hab.1.trans hbc.1, hbc.2.trans hab.2⟩⟩

/-- What merging keeps, the last interval first: the merged intervals hold
something, lie apart, cover what is merged, and are tied together by it. -/
structure Overlapped (done out : List (α × α)) : Prop where
  nonempty : ∀ u ∈ out, u.1 < u.2
  apart : out.Pairwise fun later earlier => earlier.2 ≤ later.1
  start : ∀ u ∈ out, ∃ r ∈ done, r.1 = u.1
  covers : ∀ r ∈ done, ∃ u ∈ out, u.1 ≤ r.1 ∧ r.2 ≤ u.2
  tied : ∀ u ∈ out, ∀ x, Holds u x → Relation.TransGen (Share done) u.1 x

theorem Share.mono {rs rs' : List (α × α)} (h : rs ⊆ rs') : Share rs ≤ Share rs' := by
  rintro x y ⟨r, hr, hx⟩
  exact ⟨r, h hr, hx⟩

instance (rs : List (α × α)) : Std.Symm (Share rs) :=
  ⟨fun x y h => by
    obtain ⟨r, hr, hx, hy⟩ := h
    exact ⟨r, hr, hy, hx⟩⟩

theorem Overlapped.step {done out : List (α × α)} (h : Overlapped done out)
    (hne : r.1 < r.2) (hr : ∀ d ∈ done, d.1 ≤ r.1) :
    Overlapped (done ++ [r]) (overlapStep out r) := by
  have start : ∀ u ∈ out, ∃ d ∈ done ++ [r], d.1 = u.1 :=
    fun u hu => exists_mem_snoc (h.start u hu)
  have tied_old : ∀ u ∈ out, ∀ x, Holds u x → Relation.TransGen (Share (done ++ [r])) u.1 x :=
    fun u hu x hx => Relation.TransGen.mono (Share.mono (subset_append_left _ _)) _ _
      (h.tied u hu x hx)
  have tied_new : ∀ x, Holds r x → Relation.TransGen (Share (done ++ [r])) r.1 x :=
    fun x hx => .single (exists_mem_snoc_self ⟨⟨le_rfl, hne⟩, hx⟩)
  have push (hgap : ∀ e ∈ out, e.2 ≤ r.1) : Overlapped (done ++ [r]) (r :: out) :=
    { nonempty := forall_mem_cons.2 ⟨hne, h.nonempty⟩
      apart := pairwise_cons.2 ⟨hgap, h.apart⟩
      start := forall_mem_cons.2 ⟨exists_mem_snoc_self rfl, start⟩
      covers := covers_push h.covers ⟨le_rfl, le_rfl⟩
      tied := forall_mem_cons.2 ⟨tied_new, tied_old⟩ }
  unfold overlapStep
  cases out with
  | nil => exact push (by simp)
  | cons last rest =>
    have hlast : last.1 ≤ r.1 := by
      obtain ⟨d, hd, he⟩ := h.start last mem_cons_self
      exact he ▸ hr d hd
    have hnonempty := forall_mem_cons.1 h.nonempty
    have hstart := forall_mem_cons.1 start
    have htied := forall_mem_cons.1 tied_old
    dsimp only
    split
    · rename_i hover
      refine
        { nonempty := forall_mem_cons.2 ⟨lt_max_of_lt_left hnonempty.1, hnonempty.2⟩
          apart := pairwise_cons.2 ⟨fun e he => rel_of_pairwise_cons h.apart he, h.apart.of_cons⟩
          start := forall_mem_cons.2 hstart
          covers := covers_merge h.covers (fun d hd => ⟨hd.1, hd.2.trans (le_max_left _ _)⟩)
            ⟨hlast, le_max_right _ _⟩
          tied := forall_mem_cons.2 ⟨fun x hx => ?_, htied.2⟩ }
      by_cases hxl : x < last.2
      · exact htied.1 x ⟨hx.1, hxl⟩
      · -- past the old end: over the start of the new interval
        have hxr : x < r.2 := (lt_max_iff.1 hx.2).resolve_left hxl
        have hrx : r.1 ≤ x := hover.le.trans (not_lt.1 hxl)
        exact (htied.1 r.1 ⟨hlast, hover⟩).trans (tied_new x ⟨hrx, hxr⟩)
    · rename_i hgap
      exact push (forall_mem_cons.2
        ⟨not_lt.1 hgap, fun e he => (rel_of_pairwise_cons h.apart he).trans hlast⟩)

section Merge

variable {rs : List (α × α)}

section

variable (hne : ∀ r ∈ rs, r.1 < r.2)

include hne

theorem overlapped_mergeOverlaps : Overlapped rs (mergeOverlaps rs).reverse := by
  have h : Overlapped (rs.insertionSort fun a b => startLe a b)
      ((rs.insertionSort fun a b => startLe a b).foldl overlapStep []) := by
    refine foldl_insertionSort ⟨by simp, by simp, by simp, by simp, by simp⟩
      fun done r out hr hd h => h.step (hne r hr) fun d hmem => ?_
    have hle := (hd d hmem).2
    simp only [startLe, decide_eq_true_eq] at hle
    exact hle.elim le_of_lt fun h => h.1.le
  have hmem : ∀ r, r ∈ rs.insertionSort (fun a b => startLe a b) ↔ r ∈ rs := fun r =>
    mem_insertionSort _
  rw [mergeOverlaps, reverse_reverse]
  refine ⟨h.nonempty, h.apart, fun u hu => ?_, fun r hr => h.covers r ((hmem r).2 hr),
    fun u hu x hx => ?_⟩
  · obtain ⟨r, hr, he⟩ := h.start u hu
    exact ⟨r, (hmem r).1 hr, he⟩
  · exact Relation.TransGen.mono (Share.mono fun r hr => (hmem r).1 hr) _ _ (h.tied u hu x hx)

theorem mergeOverlaps_nonempty (hu : u ∈ mergeOverlaps rs) : u.1 < u.2 :=
  (overlapped_mergeOverlaps hne).nonempty u (mem_reverse.2 hu)

theorem mergeOverlaps_apart : (mergeOverlaps rs).Pairwise fun a b => a.2 ≤ b.1 := by
  simpa [pairwise_reverse] using (overlapped_mergeOverlaps hne).apart

theorem mergeOverlaps_covers (hr : r ∈ rs) : ∃ u ∈ mergeOverlaps rs, u.1 ≤ r.1 ∧ r.2 ≤ u.2 := by
  obtain ⟨u, hu, h⟩ := (overlapped_mergeOverlaps hne).covers r hr
  exact ⟨u, mem_reverse.1 hu, h⟩

theorem transGen_of_merged (hu : u ∈ mergeOverlaps rs)
    {x y : α} (hx : Holds u x) (hy : Holds u y) : Relation.TransGen (Share rs) x y := by
  have h := (overlapped_mergeOverlaps hne).tied u (mem_reverse.2 hu)
  refine .trans ?_ (h y hy)
  exact symm (h x hx)

end

end Merge

end Veryl.Library
