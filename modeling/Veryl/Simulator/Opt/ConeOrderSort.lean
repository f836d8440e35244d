import Veryl.Library.Topological
import Veryl.Simulator.Opt.ConeOrder

/-!
The slot-sticky sort emits every statement after its predecessors, whichever
slots it visits. Where every edge points forward it never stalls.
-/

namespace Veryl.Simulator.Opt.ConeOrder

open Veryl.Library List Function Option

variable {st' : KahnState} {i : ℕ}

section KahnSort

variable {edges : List (ℕ × ℕ)} {slot : ℕ → ℕ} {nslots n : ℕ}

def Edge (edges : List (ℕ × ℕ)) (a b : ℕ) : Prop := (a, b) ∈ edges

/-- Edges into `i` from statements that are not emitted. -/
def blocking (edges : List (ℕ × ℕ)) (order : List ℕ) (i : ℕ) : ℕ :=
  edges.countP fun e => e.2 = i ∧ e.1 ∉ order

/-- The state of the sort while the edges from the last statement into `rem` are
still to be removed. -/
structure Inv (edges : List (ℕ × ℕ)) (slot : ℕ → ℕ) (n : ℕ) (rem : List ℕ) (st : KahnState) :
    Prop where
  nodup : st.order.Nodup
  lt : ∀ i ∈ st.order, i < n
  respects : Respects (Edge edges) st.order
  cdeg : ∀ i, i ∉ st.order → st.cdeg i = blocking edges st.order i + rem.count i
  slots : ∀ sl, ∀ i ∈ st.ready sl, slot i = sl
  ready : ∀ sl, ∀ i ∈ st.ready sl, i < n ∧ i ∉ st.order ∧ st.cdeg i = 0
  readyNodup : ∀ sl, (st.ready sl).Nodup

variable {rem : List ℕ} {st : KahnState}

theorem mem_push {sl j : ℕ} :
    j ∈ (push slot st i).ready sl ↔ slot i = sl ∧ j = i ∨ j ∈ st.ready sl := by
  by_cases h : slot i = sl
  · subst h
    simp [push]
  · simp [push, update_of_ne (Ne.symm h), h]

theorem Inv.push (h : Inv edges slot n rem st) (hi : i < n) (hemit : i ∉ st.order)
    (hzero : st.cdeg i = 0) (hready : ∀ sl, i ∉ st.ready sl) :
    Inv edges slot n rem (push slot st i) where
  nodup := h.nodup
  lt := h.lt
  respects := h.respects
  cdeg := h.cdeg
  slots := by
    intro sl j hj
    rcases mem_push.1 hj with ⟨hs, rfl⟩ | hj
    · exact hs
    · exact h.slots sl j hj
  ready := by
    intro sl j hj
    rcases mem_push.1 hj with ⟨-, rfl⟩ | hj
    · exact ⟨hi, hemit, hzero⟩
    · exact h.ready sl j hj
  readyNodup := by
    intro sl
    by_cases hs : slot i = sl
    · subst hs
      simp only [ConeOrder.push, update_self]
      exact ((perm_orderedInsert _ _ _).nodup_iff).2 (nodup_cons.2 ⟨hready _, h.readyNodup _⟩)
    · simpa [ConeOrder.push, update_of_ne (Ne.symm hs)] using h.readyNodup sl

theorem Inv.release {c : ℕ} (h : Inv edges slot n (c :: rem) st) (hc : c < n)
    (hemit : c ∉ st.order) : Inv edges slot n rem (release slot st c) := by
  have hready : ∀ sl, c ∉ st.ready sl := by
    intro sl hmem
    have hzero := (h.ready sl c hmem).2.2
    rw [h.cdeg c hemit, count_cons_self] at hzero
    omega
  have hstep : Inv edges slot n rem
      { st with cdeg := Function.update st.cdeg c (st.cdeg c - 1) } := by
    refine ⟨h.nodup, h.lt, h.respects, fun i hi => ?_, h.slots, fun sl i hi => ?_, h.readyNodup⟩
    · by_cases hic : i = c
      · subst hic
        have := h.cdeg i hi
        rw [count_cons_self] at this
        simp only [update_self]
        omega
      · simpa [update_of_ne hic, count_cons_of_ne (Ne.symm hic)] using h.cdeg i hi
    · have hic : i ≠ c := by
        rintro rfl
        exact hready sl hi
      simpa [update_of_ne hic] using h.ready sl i hi
  unfold ConeOrder.release
  simp only [update_self]
  split
  · rename_i hzero
    exact hstep.push hc hemit (by simpa using hzero) hready
  · exact hstep

theorem Inv.releaseAll (h : Inv edges slot n rem st) (hlt : ∀ c ∈ rem, c < n)
    (hemit : ∀ c ∈ rem, c ∉ st.order) :
    Inv edges slot n [] (rem.foldl (ConeOrder.release slot) st) ∧
      (rem.foldl (ConeOrder.release slot) st).order = st.order := by
  induction rem generalizing st with
  | nil => exact ⟨h, rfl⟩
  | cons c rem ih =>
    have horder : (ConeOrder.release slot st c).order = st.order := by
      unfold ConeOrder.release
      dsimp only
      split <;> rfl
    have hrel := h.release (hlt c (by simp)) (hemit c (by simp))
    obtain ⟨hinv, hsame⟩ := ih hrel (fun c' hc' => hlt c' (by simp [hc'])) fun c' hc' => by
      rw [horder]
      exact hemit c' (by simp [hc'])
    exact ⟨hinv, hsame.trans horder⟩

theorem blocking_concat {order : List ℕ} (hi : i ∉ order) (j : ℕ) : blocking edges order j =
      blocking edges (order ++ [i]) j + (successors edges i).count j := by
  have hsucc : (successors edges i).count j = edges.countP fun e => e = (i, j) := by
    rw [successors, List.count, countP_filterMap]
    refine countP_congr fun e _ => ?_
    rcases e with ⟨a, b⟩
    by_cases ha : a = i <;> simp [ha]
  rw [hsucc, blocking, blocking]
  clear hsucc
  induction edges with
  | nil => rfl
  | cons e edges ih =>
    simp only [countP_cons, ih]
    rcases e with ⟨a, b⟩
    by_cases hb : b = j
    · by_cases ha : a = i
      · subst ha hb
        simp [hi]
        omega
      · simp only [hb, ha, mem_append, mem_singleton, or_false, Prod.mk.injEq,
          false_and, decide_false]
        split
        · simp; omega
        · simp
    · simp [hb]

theorem Inv.pred_mem (h : Inv edges slot n [] st) {sl a : ℕ} (hi : i ∈ st.ready sl)
    (ha : Edge edges a i) : a ∈ st.order := by
  obtain ⟨-, hemit, hzero⟩ := h.ready sl i hi
  rw [h.cdeg i hemit, count_nil, Nat.add_zero, blocking, countP_eq_zero] at hzero
  have := hzero (a, i) ha
  simpa using this

theorem Inv.step (hlt : ∀ e ∈ edges, e.2 < n) (h : Inv edges slot n [] st)
    (hst : kahnStep edges slot nslots st = some st') :
    Inv edges slot n [] st' ∧ st'.order.length = st.order.length + 1 := by
  unfold kahnStep at hst
  dsimp only at hst
  split at hst
  · cases hst
  rename_i i rest hready
  obtain rfl := some.inj hst
  have hmem : i ∈ st.ready (nextSlot nslots st) := by simp [hready]
  obtain ⟨hin, hemit, hzero⟩ := h.ready _ i hmem
  have hnd := h.readyNodup (nextSlot nslots st)
  rw [hready, nodup_cons] at hnd
  -- emitting `i` leaves the edges from `i` to be removed
  have hemitted : Inv edges slot n (successors edges i)
      { order := st.order ++ [i]
        ready := Function.update st.ready (nextSlot nslots st) rest
        cdeg := st.cdeg
        curSlot := nextSlot nslots st } := by
    have hrest : ∀ sl, ∀ j ∈ Function.update st.ready (nextSlot nslots st) rest sl,
        j ∈ st.ready sl ∧ j ≠ i := by
      intro sl j hj
      by_cases hs : sl = nextSlot nslots st
      · subst hs
        rw [update_self] at hj
        refine ⟨by simp [hready, hj], ?_⟩
        rintro rfl
        exact hnd.1 hj
      · rw [update_of_ne hs] at hj
        refine ⟨hj, ?_⟩
        rintro rfl
        exact hs ((h.slots sl j hj).symm.trans (h.slots _ j hmem))
    refine ⟨?_, ?_, h.respects.concat fun a ha => h.pred_mem hmem ha, ?_, ?_, ?_, ?_⟩
    · exact nodup_append.2 ⟨h.nodup, by simp, fun a ha b hb => by
        rw [mem_singleton.1 hb]
        rintro rfl
        exact hemit ha⟩
    · intro j hj
      rcases mem_append.1 hj with hj | hj
      · exact h.lt j hj
      · rwa [mem_singleton.1 hj]
    · intro j hj
      rw [mem_append, not_or] at hj
      rw [h.cdeg j hj.1, count_nil, Nat.add_zero, blocking_concat hemit]
    · exact fun sl j hj => h.slots sl j (hrest sl j hj).1
    · intro sl j hj
      obtain ⟨hj, hne⟩ := hrest sl j hj
      obtain ⟨hjn, hjo, hjz⟩ := h.ready sl j hj
      exact ⟨hjn, by simp [hjo, hne], hjz⟩
    · intro sl
      by_cases hs : sl = nextSlot nslots st
      · subst hs
        simpa using hnd.2
      · simpa [update_of_ne hs] using h.readyNodup sl
  have hedge : ∀ c ∈ successors edges i, (i, c) ∈ edges := by
    intro c hc
    obtain ⟨e, he, hec⟩ := mem_filterMap.1 hc
    split at hec
    · rename_i h1
      obtain rfl := some.inj hec
      rwa [← h1]
    · cases hec
  -- a successor that is emitted would have had `i` emitted before it
  have hfresh : ∀ c ∈ successors edges i, c ∉ st.order ++ [i] := by
    intro c hc hmem'
    rcases mem_append.1 hmem' with hco | hci
    · obtain ⟨p, s, hp⟩ := append_of_mem hco
      have := h.respects p c s hp i (hedge c hc)
      exact hemit (by rw [hp]; exact mem_append_left _ this)
    · rw [mem_singleton.1 hci] at hc
      exact hemit (h.pred_mem hmem (hedge i hc))
  obtain ⟨hinv, horder⟩ := hemitted.releaseAll (fun c hc => hlt _ (hedge c hc)) hfresh
  exact ⟨hinv, by rw [horder]; simp⟩

theorem inv_kahnInit (n : ℕ) : Inv edges slot n [] (kahnInit edges slot n) ∧
    (kahnInit edges slot n).order = [] := by
  have hfold : ∀ (l : List ℕ) (st : KahnState), l.Nodup → Inv edges slot n [] st →
      (∀ i ∈ l, i < n ∧ i ∉ st.order ∧ st.cdeg i = 0 ∧ ∀ sl, i ∉ st.ready sl) →
      Inv edges slot n [] (l.foldl (ConeOrder.push slot) st) ∧
        (l.foldl (ConeOrder.push slot) st).order = st.order := by
    intro l
    induction l with
    | nil => exact fun st _ h _ => ⟨h, rfl⟩
    | cons i l ih =>
      intro st hnd h hl
      obtain ⟨hi, hemit, hzero, hready⟩ := hl i (by simp)
      obtain ⟨hil, hnd⟩ := nodup_cons.1 hnd
      refine ih _ hnd (h.push hi hemit hzero hready) fun j hj => ?_
      obtain ⟨hj1, hj2, hj3, hj4⟩ := hl j (by simp [hj])
      refine ⟨hj1, hj2, hj3, fun sl hmem => ?_⟩
      rcases mem_push.1 hmem with ⟨-, rfl⟩ | hmem
      · exact hil hj
      · exact hj4 sl hmem
  refine hfold _ _ (nodup_range.filter _) ?_ fun i hi => ?_
  · refine ⟨nodup_nil, by simp, respects_nil, fun i _ => ?_, by simp, by simp, by simp⟩
    simp [blocking]
  · simp only [mem_filter, mem_range, decide_eq_true_eq] at hi
    exact ⟨hi.1, by simp, hi.2, by simp⟩

/-- Every statement without a predecessor left is ready. -/
def Complete (slot : ℕ → ℕ) (n : ℕ) (st : KahnState) : Prop :=
  ∀ i < n, i ∉ st.order → st.cdeg i = 0 → i ∈ st.ready (slot i)

theorem Complete.release (h : Complete slot n st) (c : ℕ) :
    Complete slot n (ConeOrder.release slot st c) := by
  intro i hi
  unfold ConeOrder.release
  dsimp only
  by_cases hic : i = c
  · subst hic
    split
    · exact fun _ _ => mem_push.2 (.inl ⟨rfl, rfl⟩)
    · rename_i hne
      exact fun _ hzero => absurd hzero (by simpa using hne)
  · simp only [update_self]
    split
    · intro hemit hzero
      refine mem_push.2 (.inr (h i hi hemit ?_))
      simpa [push, update_of_ne hic] using hzero
    · intro hemit hzero
      exact h i hi hemit (by simpa [update_of_ne hic] using hzero)

theorem Complete.releaseAll (h : Complete slot n st) (l : List ℕ) :
    Complete slot n (l.foldl (ConeOrder.release slot) st) := by
  induction l generalizing st with
  | nil => exact h
  | cons c l ih => exact ih (h.release c)

theorem Complete.step (h : Complete slot n st)
    (hst : kahnStep edges slot nslots st = some st') : Complete slot n st' := by
  unfold kahnStep at hst
  dsimp only at hst
  split at hst
  · cases hst
  rename_i i rest hready
  obtain rfl := some.inj hst
  refine Complete.releaseAll (fun j hj hemit hzero => ?_) _
  rw [mem_append, not_or, mem_singleton] at hemit
  have hmem := h j hj hemit.1 hzero
  by_cases hs : slot j = nextSlot nslots st
  · rw [hs, hready] at hmem
    simpa [hs, hemit.2] using hmem
  · simpa [update_of_ne hs] using hmem

theorem complete_kahnInit (n : ℕ) : Complete slot n (kahnInit edges slot n) := by
  have hfold : ∀ (l : List ℕ) (st : KahnState), (∀ i < n, i ∉ st.order → st.cdeg i = 0 →
      i ∈ l ∨ i ∈ st.ready (slot i)) → Complete slot n (l.foldl (ConeOrder.push slot) st) := by
    intro l
    induction l with
    | nil => exact fun st h i hi hemit hzero => (h i hi hemit hzero).resolve_left (by simp)
    | cons j l ih =>
      refine fun st h => ih _ fun i hi hemit hzero => ?_
      rcases h i hi hemit hzero with hmem | hmem
      · rcases mem_cons.1 hmem with rfl | hmem
        · exact .inr (mem_push.2 (.inl ⟨rfl, rfl⟩))
        · exact .inl hmem
      · exact .inr (mem_push.2 (.inr hmem))
  refine hfold _ _ fun i hi _ hzero => .inl ?_
  simpa [hi] using hzero

theorem ready_nextSlot {sl : ℕ} (hsl : sl < nslots) (h : st.ready sl ≠ []) :
    st.ready (nextSlot nslots st) ≠ [] := by
  unfold nextSlot
  split
  · assumption
  generalize hl : ((List.range nslots).drop 1).filter (fun sl => st.ready sl ≠ []) = l
  cases hmin : l.argmin fun sl => (st.ready sl).headD 0 with
  | some m =>
    have hm := argmin_mem hmin
    rw [← hl, mem_filter] at hm
    simpa using hm.2
  | none =>
    obtain rfl := argmin_eq_none.1 hmin
    have hzero : sl = 0 := by
      by_contra hne
      have : sl ∈ ((List.range nslots).drop 1).filter (fun sl => st.ready sl ≠ []) := by
        refine mem_filter.2 ⟨?_, by simpa using h⟩
        rw [mem_drop_iff_getElem]
        exact ⟨sl - 1, by simp; omega, by simp; omega⟩
      rw [hl] at this
      cases this
    subst hzero
    exact h

theorem kahnStep_ne_none (hfwd : ∀ e ∈ edges, e.1 < e.2) (hslot : ∀ i, slot i < nslots)
    (h : Inv edges slot n [] st) (hc : Complete slot n st) (hlen : st.order.length < n) :
    kahnStep edges slot nslots st ≠ none := by
  have hleft : ∃ i, i < n ∧ i ∉ st.order := by
    by_contra hall
    push Not at hall
    have hsub : List.range n ⊆ st.order := fun i hi => hall i (mem_range.1 hi)
    have := (nodup_range.subperm hsub).length_le
    rw [length_range] at this
    omega
  -- the first statement left has no predecessor left
  obtain ⟨hi, hemit⟩ := Nat.find_spec hleft
  have hzero : st.cdeg (Nat.find hleft) = 0 := by
    rw [h.cdeg _ hemit, count_nil, Nat.add_zero, blocking, countP_eq_zero]
    intro e he hblock
    simp only [decide_eq_true_eq] at hblock
    have hlt := hfwd e he
    rw [hblock.1] at hlt
    exact Nat.find_min hleft hlt ⟨hlt.trans hi, hblock.2⟩
  have hready := ready_nextSlot (hslot _) (ne_nil_of_mem (hc _ hi hemit hzero))
  unfold kahnStep
  dsimp only
  split
  · rename_i hnil
    exact absurd hnil hready
  · simp

theorem order_kahnStep (hst : kahnStep edges slot nslots st = some st') :
    ∃ i ∈ st.ready (nextSlot nslots st), st'.order = st.order ++ [i] := by
  have hrelease : ∀ (l : List ℕ) (st : KahnState),
      (l.foldl (ConeOrder.release slot) st).order = st.order := by
    intro l
    induction l with
    | nil => exact fun st => rfl
    | cons c l ih =>
      intro st
      rw [foldl_cons, ih]
      unfold ConeOrder.release
      dsimp only
      split <;> rfl
  unfold kahnStep at hst
  dsimp only at hst
  split at hst
  · cases hst
  · rename_i i rest hready
    obtain rfl := some.inj hst
    exact ⟨i, by simp [hready], hrelease _ _⟩

theorem kahnLoop_spec (hfwd : ∀ e ∈ edges, e.1 < e.2) (hlt : ∀ e ∈ edges, e.2 < n)
    (hslot : ∀ i, slot i < nslots) (fuel : ℕ) (h : Inv edges slot n [] st)
    (hc : Complete slot n st) (hlen : st.order.length + fuel = n) :
    (kahnLoop edges slot nslots n fuel st).Perm (List.range n) ∧
      Respects (Edge edges) (kahnLoop edges slot nslots n fuel st) ∧
      st.order <+: kahnLoop edges slot nslots n fuel st := by
  induction fuel generalizing st with
  | zero =>
    refine ⟨?_, h.respects, prefix_rfl⟩
    refine (h.nodup.subperm fun i hi => mem_range.2 (h.lt i hi)).perm_of_length_le ?_
    exact le_of_eq (by simpa using hlen.symm)
  | succ fuel ih =>
    rw [kahnLoop]
    cases hst : kahnStep edges slot nslots st with
    | none => exact absurd hst (kahnStep_ne_none hfwd hslot h hc (by omega))
    | some st' =>
      obtain ⟨h', hlen'⟩ := h.step hlt hst
      obtain ⟨hperm, hresp, hprefix⟩ := ih h' (hc.step hst) (by omega)
      obtain ⟨i, -, horder⟩ := order_kahnStep hst
      refine ⟨hperm, hresp, .trans ?_ hprefix⟩
      rw [horder]
      exact prefix_append _ _

theorem kahn_spec (hfwd : ∀ e ∈ edges, e.1 < e.2) (hlt : ∀ e ∈ edges, e.2 < n)
    (hslot : ∀ i, slot i < nslots) :
    (kahn edges slot nslots n).Perm (List.range n) ∧
      Respects (Edge edges) (kahn edges slot nslots n) := by
  obtain ⟨hinit, horder⟩ := @inv_kahnInit edges slot n
  obtain ⟨hperm, hresp, -⟩ := kahnLoop_spec hfwd hlt hslot n hinit (complete_kahnInit n)
    (by simp [horder])
  exact ⟨hperm, hresp⟩

variable (slot) in
/-- Where a statement outside every cone waits for nothing, one of these is
emitted first. -/
theorem kahn_head (hfwd : ∀ e ∈ edges, e.1 < e.2) (hlt : ∀ e ∈ edges, e.2 < n)
    (hslot : ∀ i, slot i < nslots) {j : ℕ} (hj : j < n) (hjslot : slot j = 0)
    (hjdeg : ∀ e ∈ edges, e.2 ≠ j) :
    ∃ i rest, kahn edges slot nslots n = i :: rest ∧ slot i = 0 := by
  obtain ⟨hinit, horder⟩ := @inv_kahnInit edges slot n
  have hcomplete := @complete_kahnInit edges slot n
  obtain ⟨fuel, rfl⟩ : ∃ fuel, n = fuel + 1 := ⟨n - 1, by omega⟩
  have hdeg : (kahnInit edges slot (fuel + 1)).cdeg j = 0 := by
    rw [hinit.cdeg j (by simp [horder]), horder, count_nil, Nat.add_zero, blocking, countP_eq_zero]
    intro e he hblock
    exact hjdeg e he (by simpa using hblock)
  have hready := hcomplete j hj (by simp [horder]) hdeg
  have hcur : (kahnInit edges slot (fuel + 1)).curSlot = 0 := by
    have hfold : ∀ (l : List ℕ) (st : KahnState),
        (l.foldl (ConeOrder.push slot) st).curSlot = st.curSlot := by
      intro l
      induction l with
      | nil => exact fun st => rfl
      | cons i l ih => exact fun st => ih _
    exact hfold _ _
  have hnext : nextSlot nslots (kahnInit edges slot (fuel + 1)) = 0 := by
    rw [hjslot] at hready
    rw [nextSlot, hcur, if_pos (ne_nil_of_mem hready)]
  rw [kahn, kahnLoop]
  cases hst : kahnStep edges slot nslots (kahnInit edges slot (fuel + 1)) with
  | none => exact absurd hst (kahnStep_ne_none hfwd hslot hinit hcomplete (by simp [horder]))
  | some st' =>
    obtain ⟨hinv', hlen'⟩ := hinit.step hlt hst
    obtain ⟨i, hi, horder'⟩ := order_kahnStep hst
    obtain ⟨rest, hrest⟩ := (kahnLoop_spec hfwd hlt hslot fuel hinv'
      (hcomplete.step hst) (by rw [hlen', horder]; simp; omega)).2.2
    rw [horder', horder] at hrest
    refine ⟨i, rest, by simpa using hrest.symm, ?_⟩
    rw [hnext] at hi
    exact hinit.slots 0 i hi

end KahnSort

end Veryl.Simulator.Opt.ConeOrder
