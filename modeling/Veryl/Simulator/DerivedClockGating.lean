import Veryl.Simulator.DerivedClockChains

/-!
The comb closure of a net: the input clocks that it collects are those from which a chain
of comb statements reaches the net.
-/

namespace Veryl.Simulator.DerivedClocks

open List Option

variable {depSet stack : List ℕ} {masterSet : List VarId} {v : VarId} {o' : VarOffset}

variable {o : VarOffset} {i : ℕ}

variable {external : List ProtoStatement → VarOffset → Bool} {stmts : List ProtoStatement}
  {inputClocks : VarOffset → Option VarId}

theorem mem_writers :
    i ∈ writers external stmts o ↔ ∃ s, stmts[i]? = some s ∧ Outputs external s o := by
  simp only [writers, mem_filter, mem_range, decide_eq_true_eq, mem_def]
  refine ⟨fun h => h.2, fun h => ⟨?_, h⟩⟩
  obtain ⟨s, hs, -⟩ := h
  exact (List.getElem?_eq_some_iff.1 hs).1

theorem mem_combInputs :
    o ∈ combInputs external stmts i ↔ ∃ s, stmts[i]? = some s ∧ o.isFf = false ∧
      o ∈ (s.gatherVariableOffsets external).1 := by
  simp only [combInputs, mem_flatMap, mem_toList, mem_filter, Bool.not_eq_true']
  constructor
  · rintro ⟨s, hs, hmem, hff⟩
    exact ⟨s, hs, hff, hmem⟩
  · rintro ⟨s, hs, hff, hmem⟩
    exact ⟨s, hs, hmem, hff⟩

theorem lt_of_mem_feeders {j : ℕ} (h : j ∈ feeders external stmts i) : j < stmts.length := by
  obtain ⟨o, -, hj⟩ := mem_flatMap.1 h
  obtain ⟨s, hs, -⟩ := mem_writers.1 hj
  exact (List.getElem?_eq_some_iff.1 hs).1

theorem collectCombClosure_sound {R : ℕ → Prop}
    (hstep : ∀ i, R i → ∀ j ∈ feeders external stmts i, R j) (hstack : ∀ i ∈ stack, R i)
    (hmaster : ∀ v ∈ masterSet, ∃ i, R i ∧ v ∈ boundary external stmts inputClocks i) :
    ∀ v ∈ (collectCombClosure external stmts inputClocks depSet masterSet stack).2,
      ∃ i, R i ∧ v ∈ boundary external stmts inputClocks i := by
  fun_induction collectCombClosure external stmts inputClocks depSet masterSet stack with
  | case1 depSet masterSet => exact hmaster
  | case2 depSet masterSet idx stack hmem ih =>
    exact ih (fun i hi => hstack i (mem_cons_of_mem _ hi)) hmaster
  | case3 depSet masterSet idx stack hmem hlt ih =>
    have hidx := hstack idx mem_cons_self
    refine ih (fun i hi => ?_) fun v hv => ?_
    · rcases mem_append.1 hi with hi | hi
      · exact hstep idx hidx i (mem_filter.1 (mem_reverse.1 hi)).1
      · exact hstack i (mem_cons_of_mem _ hi)
    · rcases mem_append.1 hv with hv | hv
      · exact hmaster v hv
      · exact ⟨idx, hidx, hv⟩
  | case4 depSet masterSet idx stack hmem hlt ih =>
    exact ih (fun i hi => hstack i (mem_cons_of_mem _ hi)) hmaster

/-- What the walk has met has its feeders met or on the stack, and its input clocks
collected. -/
def Met (external : List ProtoStatement → VarOffset → Bool) (stmts : List ProtoStatement)
    (inputClocks : VarOffset → Option VarId) (depSet stack : List ℕ)
    (masterSet : List VarId) : Prop :=
  ∀ i ∈ depSet, (∀ j ∈ feeders external stmts i, j ∈ depSet ∨ j ∈ stack) ∧
    ∀ v ∈ boundary external stmts inputClocks i, v ∈ masterSet

theorem collectCombClosure_complete (hmet : Met external stmts inputClocks depSet stack masterSet)
    (hstack : ∀ i ∈ stack, i < stmts.length) :
    let result := collectCombClosure external stmts inputClocks depSet masterSet stack
    (∀ i, i ∈ depSet ∨ i ∈ stack → i ∈ result.1) ∧
      Met external stmts inputClocks result.1 [] result.2 := by
  fun_induction collectCombClosure external stmts inputClocks depSet masterSet stack with
  | case1 depSet masterSet => exact ⟨fun i hi => hi.resolve_right not_mem_nil, hmet⟩
  | case2 depSet masterSet idx stack hmem ih =>
    have hcover : ∀ i, i ∈ depSet ∨ i ∈ idx :: stack → i ∈ depSet ∨ i ∈ stack := by
      rintro i (hi | hi)
      · exact Or.inl hi
      · rcases mem_cons.1 hi with rfl | hi
        · exact Or.inl hmem
        · exact Or.inr hi
    obtain ⟨hall, hclosed⟩ := ih
      (fun i hi => ⟨fun j hj => hcover j ((hmet i hi).1 j hj), (hmet i hi).2⟩)
      fun i hi => hstack i (mem_cons_of_mem _ hi)
    exact ⟨fun i hi => hall i (hcover i hi), hclosed⟩
  | case3 depSet masterSet idx stack hmem hlt ih =>
    have hcover : ∀ i, i ∈ depSet ∨ i ∈ idx :: stack → i ∈ idx :: depSet ∨
        i ∈ ((feeders external stmts idx).filter (· ∉ idx :: depSet)).reverse ++ stack := by
      rintro i (hi | hi)
      · exact Or.inl (mem_cons_of_mem _ hi)
      · rcases mem_cons.1 hi with rfl | hi
        · exact Or.inl mem_cons_self
        · exact Or.inr (mem_append_right _ hi)
    have hmet' : Met external stmts inputClocks (idx :: depSet)
        (((feeders external stmts idx).filter (· ∉ idx :: depSet)).reverse ++ stack)
        (masterSet ++ boundary external stmts inputClocks idx) := by
      intro i hi
      rcases mem_cons.1 hi with rfl | hi
      · refine ⟨fun j hj => ?_, fun v hv => mem_append_right _ hv⟩
        by_cases hj' : j ∈ i :: depSet
        · exact Or.inl hj'
        · exact Or.inr (mem_append_left _ (mem_reverse.2 (mem_filter.2 ⟨hj, by simpa using hj'⟩)))
      · exact ⟨fun j hj => hcover j ((hmet i hi).1 j hj),
          fun v hv => mem_append_left _ ((hmet i hi).2 v hv)⟩
    obtain ⟨hall, hclosed⟩ := ih hmet' fun i hi => by
      rcases mem_append.1 hi with hi | hi
      · exact lt_of_mem_feeders (mem_filter.1 (mem_reverse.1 hi)).1
      · exact hstack i (mem_cons_of_mem _ hi)
    exact ⟨fun i hi => hall i (hcover i hi), hclosed⟩
  | case4 depSet masterSet idx stack hmem hlt ih =>
    exact absurd (hstack idx mem_cons_self) hlt

/-- A statement feeds another one, over any number of statements. -/
def Reached (external : List ProtoStatement → VarOffset → Bool) (stmts : List ProtoStatement)
    (o : VarOffset) (i : ℕ) : Prop :=
  ∃ w ∈ writers external stmts o,
    Relation.ReflTransGen (fun i j => j ∈ feeders external stmts i) w i

theorem mem_masters : v ∈ masters external stmts inputClocks o ↔
      ∃ i, Reached external stmts o i ∧ v ∈ boundary external stmts inputClocks i := by
  have hseeds : ∀ i ∈ (writers external stmts o).reverse, i < stmts.length := by
    intro i hi
    obtain ⟨s, hs, -⟩ := mem_writers.1 (mem_reverse.1 hi)
    exact (List.getElem?_eq_some_iff.1 hs).1
  constructor
  · refine collectCombClosure_sound (R := Reached external stmts o) ?_ ?_ (by simp) v
    · rintro i ⟨w, hw, hpath⟩ j hj
      exact ⟨w, hw, hpath.tail hj⟩
    · exact fun i hi => ⟨i, mem_reverse.1 hi, .refl⟩
  · rintro ⟨i, ⟨w, hw, hpath⟩, hv⟩
    have hmet : Met external stmts inputClocks [] (writers external stmts o).reverse [] := by
      intro i hi
      cases hi
    obtain ⟨hall, hclosed⟩ := collectCombClosure_complete hmet hseeds
    have hreached : i ∈ (collectCombClosure external stmts inputClocks [] []
        (writers external stmts o).reverse).1 := by
      clear hv
      induction hpath with
      | refl => exact hall w (Or.inr (mem_reverse.2 hw))
      | tail _ hj ih => exact ((hclosed _ ih).1 _ hj).resolve_right not_mem_nil
    exact (hclosed i hreached).2 v hv

/-- A comb statement reads the one offset and writes the other. -/
def Link (external : List ProtoStatement → VarOffset → Bool) (stmts : List ProtoStatement)
    (o o' : VarOffset) : Prop :=
  ∃ s ∈ stmts, o.isFf = false ∧ o ∈ (s.gatherVariableOffsets external).1 ∧ Outputs external s o'

theorem link_iff : Link external stmts o o' ↔
    ∃ i ∈ writers external stmts o', o ∈ combInputs external stmts i := by
  constructor
  · rintro ⟨s, hs, hff, hin, hout⟩
    obtain ⟨i, hi⟩ := getElem?_of_mem hs
    exact ⟨i, mem_writers.2 ⟨s, hi, hout⟩, mem_combInputs.2 ⟨s, hi, hff, hin⟩⟩
  · rintro ⟨i, hi, ho⟩
    obtain ⟨s, hs, hout⟩ := mem_writers.1 hi
    obtain ⟨s', hs', hff, hin⟩ := mem_combInputs.1 ho
    obtain rfl : s = s' := some.inj (hs.symm.trans hs')
    exact ⟨s, mem_of_getElem? hs, hff, hin, hout⟩

theorem transGen_link_iff : Relation.TransGen (Link external stmts) o o' ↔
      ∃ i, Reached external stmts o' i ∧ o ∈ combInputs external stmts i := by
  constructor
  · intro h
    induction h using Relation.TransGen.head_induction_on with
    | single hlink =>
      obtain ⟨i, hi, ho⟩ := link_iff.1 hlink
      exact ⟨i, ⟨i, hi, .refl⟩, ho⟩
    | head hlink _ ih =>
      obtain ⟨i, ⟨w, hw, hpath⟩, hmid⟩ := ih
      obtain ⟨j, hj, ho⟩ := link_iff.1 hlink
      exact ⟨j, ⟨w, hw, hpath.tail (mem_flatMap.2 ⟨_, hmid, hj⟩)⟩, ho⟩
  · rintro ⟨i, ⟨w, hw, hpath⟩, ho⟩
    induction hpath generalizing o with
    | refl => exact .single (link_iff.2 ⟨w, hw, ho⟩)
    | tail _ hj ih =>
      obtain ⟨mid, hmid, hj⟩ := mem_flatMap.1 hj
      exact .head (link_iff.2 ⟨_, hj, ho⟩) (ih hmid)

/-- An input clock that no statement writes. -/
def Boundary (external : List ProtoStatement → VarOffset → Bool) (stmts : List ProtoStatement)
    (inputClocks : VarOffset → Option VarId) (o : VarOffset) (v : VarId) : Prop :=
  inputClocks o = some v ∧ writers external stmts o = []

theorem mem_masters_iff : v ∈ masters external stmts inputClocks o ↔
    ∃ o', Boundary external stmts inputClocks o' v ∧
      Relation.TransGen (Link external stmts) o' o := by
  rw [mem_masters]
  simp only [boundary, mem_filterMap, mem_filter, decide_eq_true_eq]
  constructor
  · rintro ⟨i, hreached, o', ⟨ho', hnone⟩, hinput⟩
    exact ⟨o', ⟨hinput, hnone⟩, transGen_link_iff.2 ⟨i, hreached, ho'⟩⟩
  · rintro ⟨o', ⟨hinput, hnone⟩, hchain⟩
    obtain ⟨i, hreached, ho'⟩ := transGen_link_iff.1 hchain
    exact ⟨i, hreached, o', ⟨ho', hnone⟩, hinput⟩

theorem masterGated_iff {candidates : List EdgeCandidate} {negedgeInputs : List VarId}
    {clk : DerivedClock}
    (h : clk ∈ (buildSchedule external stmts inputClocks candidates negedgeInputs).clocks) :
    clk.masterGated = true ↔ ∃ o v, Boundary external stmts inputClocks o v ∧
      Relation.TransGen (Link external stmts) o clk.currentOffset := by
  simp only [buildSchedule, List.mem_map, mem_filter] at h
  obtain ⟨clk, ⟨hmem, -⟩, rfl⟩ := h
  obtain ⟨c, -, -, -, rfl⟩ := mem_sortedClocks.1 hmem
  rw [gate]
  split
  · rename_i hff
    simp only [Bool.false_eq_true, false_iff, not_exists, not_and]
    intro o v _ hchain
    obtain ⟨mid, -, s, -, -, -, hout, -⟩ := Relation.TransGen.tail'_iff.1 hchain
    exact absurd hff (by simp [hout])
  · simp only [Bool.not_eq_true', isEmpty_eq_false_iff_exists_mem, mem_masters_iff]
    exact exists_comm

end Veryl.Simulator.DerivedClocks
