import Veryl.Analyzer.CombLoopDetect.SplitAtCuts
import Veryl.Analyzer.CombLoopDetect.RelationExact

/-!
The cells of a divided node. They are disjoint and cover the domain of the node, and the
cells that are searched for an edge include every cell that the edge can reach.
-/

namespace Veryl.Analyzer.CombLoopDetect

open Veryl.Library List Option Nat Pieces

variable {b : Box} {k : ℕ} {P : Pieces} {domain : PositionDomain} {x : Position} {node : ReportNode}
  {r : Option Box}

/-- A position of a box. -/
def Box.Has (b : Box) (x : Position) : Prop := ∀ a, (b a).1 ≤ x.at a ∧ x.at a < (b a).2

theorem Box.has_iff (b : Box) (x : Position) :
    Box.Has b x ↔ ((b .array).1 ≤ x.1 ∧ x.1 < (b .array).2) ∧
      ((b .packed).1 ≤ x.2 ∧ x.2 < (b .packed).2) := by
  constructor
  · exact fun h => ⟨h .array, h .packed⟩
  · rintro ⟨ha, hp⟩ (_ | _)
    · exact ha
    · exact hp

theorem checkedAdd_eq_some {a b c : ℤ} (h : checkedAdd a b = some c) : c = a + b := by
  unfold checkedAdd at h
  split at h
  · exact (some.inj h).symm
  · cases h

namespace BitDependency

variable {kind : BitDependency} {s d : Box} {x y : Position}

theorem at_of_rel (h : kind.Rel x y) {a : Axis} {offset : ℤ} (ha : kind.axis a = some offset) :
    y.at a = x.at a + offset := by
  cases a with
  | array => exact h.1 offset ha
  | packed => exact h.2 offset ha

theorem mayReach_of_rel (h : kind.Rel x y) (hs : Box.Has s x) (hd : Box.Has d y) (a : Axis) :
    kind.mayReach a s (d a) = true := by
  unfold mayReach
  cases ha : kind.axis a with
  | none => rfl
  | some offset =>
    have hy := at_of_rel h ha
    have hsa := hs a
    have hda := hd a
    cases hlow : checkedAdd (s a).1 offset with
    | none => simp only [hlow]
    | some low =>
      cases hhigh : checkedAdd (s a).2 offset with
      | none => simp only [hlow, hhigh]
      | some high =>
        have hl := checkedAdd_eq_some hlow
        have hh := checkedAdd_eq_some hhigh
        simp only [hlow, hhigh, Bool.and_eq_true, decide_eq_true_eq]
        omega

theorem imageAxis_of_rel (h : kind.Rel x y) (hs : Box.Has s x) {a : Axis} {r : AxisBounds}
    (hr : kind.imageAxis s a = some r) : r.1 ≤ y.at a ∧ y.at a < r.2 := by
  simp only [imageAxis, bind_eq_bind, bind_eq_some_iff] at hr
  obtain ⟨offset, ha, low, hlow, high, hhigh, hr⟩ := hr
  obtain rfl := some.inj hr
  have hy := at_of_rel h ha
  have hsa := hs a
  rw [checkedAdd_eq_some hlow, checkedAdd_eq_some hhigh]
  omega

theorem image_of_rel (h : kind.Rel x y) (hs : Box.Has s x)
    (hr : kind.image s = some r) : ∃ reached, r = some reached ∧ Box.Has reached y := by
  simp only [image, bind_eq_bind, bind_eq_some_iff] at hr
  obtain ⟨array, harray, packed, hpacked, hr⟩ := hr
  obtain rfl := some.inj hr
  refine ⟨_, rfl, ?_⟩
  rintro (_ | _)
  · exact imageAxis_of_rel h hs harray
  · exact imageAxis_of_rel h hs hpacked

end BitDependency

theorem boundsRange_eq_some {start length : ℕ} {r : AxisBounds}
    (h : boundsRange start length = some r) : r = ((start : ℤ), (start : ℤ) + (length : ℤ)) := by
  unfold boundsRange at h
  split at h
  · exact (some.inj h).symm
  · cases h

theorem domainBounds_eq_some (h : domainBounds domain = some b) :
    b .array = ((domain.arrayStart : ℤ), (domain.arrayStart : ℤ) + (domain.arrayLength : ℤ)) ∧
      b .packed =
        ((domain.packedStart : ℤ), (domain.packedStart : ℤ) + (domain.packedLength : ℤ)) := by
  simp only [domainBounds, bind_eq_bind, bind_eq_some_iff] at h
  obtain ⟨array, harray, packed, hpacked, h⟩ := h
  obtain rfl := some.inj h
  exact ⟨boundsRange_eq_some harray, boundsRange_eq_some hpacked⟩

theorem has_domainBounds (h : domainBounds domain = some b)
    (x : Position) : domain.Has x ↔ Box.Has b x := by
  obtain ⟨harray, hpacked⟩ := domainBounds_eq_some h
  rw [Box.has_iff, harray, hpacked]
  rfl

theorem has_boundsDomain (h : boundsDomain b = some domain)
    (x : Position) : domain.Has x ↔ Box.Has b x := by
  simp only [boundsDomain] at h
  split_ifs at h with hempty hneg
  obtain rfl := some.inj h
  rw [Box.has_iff]
  simp only [PositionDomain.Has]
  omega

theorem has_nodeBox (h : nodeBox node = some b) (x : Position) :
    InDomains node.domains x ↔ Box.Has b x := by
  unfold nodeBox at h
  split at h
  · next domain hdomain =>
    rw [← has_domainBounds h]
    simp [InDomains, hdomain]
  · cases h

theorem nodeBox_le (h : nodeBox node = some b) (a : Axis) : (b a).1 ≤ (b a).2 := by
  unfold nodeBox at h
  split at h
  · obtain ⟨harray, hpacked⟩ := domainBounds_eq_some h
    cases a with
    | array =>
      rw [harray]
      exact Int.le_add_of_nonneg_right (Int.natCast_nonneg _)
    | packed =>
      rw [hpacked]
      exact Int.le_add_of_nonneg_right (Int.natCast_nonneg _)
  · cases h

/-- Cuts that divide a box: increasing, from its low to its high bounds. -/
structure IsGrid (bounds : Box) (grid : Axis → List ℤ) : Prop where
  sorted : ∀ a, (grid a).Pairwise (· < ·)
  low : ∀ a, (bounds a).1 ∈ grid a
  high : ∀ a, (bounds a).2 ∈ grid a
  within : ∀ a, ∀ cut ∈ grid a, (bounds a).1 ≤ cut ∧ cut ≤ (bounds a).2

theorem isGrid_axisCuts {bounds : Box} (hle : ∀ a, (bounds a).1 ≤ (bounds a).2)
    (found : Axis → List ℤ) : IsGrid bounds fun a => axisCuts (bounds a) (found a) where
  sorted a := pairwise_sortedCuts _
  low a := mem_sortedCuts.2 (by simp)
  high a := mem_sortedCuts.2 (by simp)
  within a cut hcut := by
    rw [axisCuts, mem_sortedCuts] at hcut
    have hbounds := hle a
    simp only [mem_append, mem_filter, Bool.and_eq_true, decide_eq_true_eq,
      mem_cons, not_mem_nil, or_false] at hcut
    rcases hcut with ⟨-, hcut⟩ | rfl | rfl <;> omega

theorem gridOf_eq_some {g : ReportGraph} {nodes : ℕ → Bool} {cuts : Cuts} {n : ℕ}
    {grid : Axis → List ℤ} (h : gridOf g nodes cuts n = some grid) :
    ∃ original bounds, g.nodes[n]? = some original ∧ nodeBox original = some bounds ∧
      IsGrid bounds grid := by
  simp only [gridOf, bind_eq_bind, bind_eq_some_iff] at h
  obtain ⟨original, horiginal, bounds, hbounds, found, -, h⟩ := h
  split at h
  · obtain rfl := some.inj h
    exact ⟨original, bounds, horiginal, hbounds, isGrid_axisCuts (nodeBox_le hbounds) found⟩
  · cases h

section Cells

variable {bounds : Box} {grid : Axis → List ℤ}

/-- The number of cells in a row of the grid. -/
def rowWidth (grid : Axis → List ℤ) : ℕ := (grid .packed).length - 1

theorem getElem?_cellBoxes {i j : ℕ} (hj : j < rowWidth grid) {b : Box}
    (hi : (windows (grid .array))[i]? = some (b .array))
    (hb : (windows (grid .packed))[j]? = some (b .packed)) :
    (cellBoxes grid)[i * rowWidth grid + j]? = some b := by
  rw [cellBoxes, getElem?_flatMap_rows _ (fun w _ => by
    rw [length_map, length_windows, rowWidth]) hj, hi, bind_some, getElem?_map, hb,
    map_some, some.injEq]
  funext a
  cases a <;> rfl

theorem cell_windows (h : (cellBoxes grid)[k]? = some b) :
    ∃ i j, j < rowWidth grid ∧ k = i * rowWidth grid + j ∧
      (windows (grid .array))[i]? = some (b .array) ∧
      (windows (grid .packed))[j]? = some (b .packed) := by
  have hrow : ∀ w ∈ windows (grid .array),
      ((windows (grid .packed)).map (Box.of w)).length = rowWidth grid := by
    intro w _
    rw [length_map, length_windows, rowWidth]
  have hwidth : 0 < rowWidth grid := by
    by_contra hzero
    have hnil : windows (grid .packed) = [] :=
      eq_nil_of_length_eq_zero (by rw [length_windows, ← rowWidth]; omega)
    simp [cellBoxes, hnil] at h
  refine ⟨k / rowWidth grid, k % rowWidth grid, mod_lt _ hwidth,
    (div_add_mod' k (rowWidth grid)).symm, ?_⟩
  rw [cellBoxes, ← div_add_mod' k (rowWidth grid),
    getElem?_flatMap_rows _ hrow (mod_lt _ hwidth), bind_eq_some_iff] at h
  obtain ⟨w, hw, hb⟩ := h
  rw [getElem?_map, map_eq_some_iff] at hb
  obtain ⟨u, hu, rfl⟩ := hb
  exact ⟨hw, hu⟩

theorem exists_cell (hgrid : IsGrid bounds grid) (hx : Box.Has bounds x) :
    ∃ (k : ℕ) (b : Box), (cellBoxes grid)[k]? = some b ∧ Box.Has b x := by
  obtain ⟨i, w, hw, hxw⟩ := exists_window_of_mem (hgrid.sorted .array) (hgrid.low .array)
    (hgrid.high .array) (hx .array).1 (hx .array).2
  obtain ⟨j, u, hu, hxu⟩ := exists_window_of_mem (hgrid.sorted .packed) (hgrid.low .packed)
    (hgrid.high .packed) (hx .packed).1 (hx .packed).2
  have hj : j < rowWidth grid := by
    rw [rowWidth, ← length_windows]
    exact (List.getElem?_eq_some_iff.1 hu).1
  refine ⟨i * rowWidth grid + j, Box.of w u, getElem?_cellBoxes hj hw hu, ?_⟩
  rintro (_ | _)
  · exact hxw
  · exact hxu

theorem cell_unique (hgrid : IsGrid bounds grid) {k' : ℕ} {b' : Box}
    (h : (cellBoxes grid)[k]? = some b) (h' : (cellBoxes grid)[k']? = some b')
    (hx : Box.Has b x) (hx' : Box.Has b' x) : k = k' := by
  obtain ⟨i, j, -, rfl, hi, hj⟩ := cell_windows h
  obtain ⟨i', j', -, rfl, hi', hj'⟩ := cell_windows h'
  rw [window_unique (hgrid.sorted .array) hi hi' (hx .array) (hx' .array),
    window_unique (hgrid.sorted .packed) hj hj' (hx .packed) (hx' .packed)]

theorem has_of_cell (hgrid : IsGrid bounds grid)
    (h : (cellBoxes grid)[k]? = some b) (hx : Box.Has b x) : Box.Has bounds x := by
  obtain ⟨i, j, -, -, hi, hj⟩ := cell_windows h
  have haxis : ∀ a, ∀ k : ℕ, (windows (grid a))[k]? = some (b a) →
      (bounds a).1 ≤ x.at a ∧ x.at a < (bounds a).2 := by
    intro a k hk
    obtain ⟨hlow, hhigh⟩ := getElem?_windows.1 hk
    have hl := hgrid.within a _ (mem_of_getElem? hlow)
    have hh := hgrid.within a _ (mem_of_getElem? hhigh)
    have hxa := hx a
    omega
  rintro (_ | _)
  · exact haxis .array i hi
  · exact haxis .packed j hj

end Cells

section Candidates

variable {grid : Axis → List ℤ} {cells : List (ℕ × Box)}

theorem mem_indices {range : ℕ × ℕ} : k ∈ indices range ↔ range.1 ≤ k ∧ k < range.2 := by
  rw [indices, mem_range'_1]
  omega

theorem mem_candidates_none {c : ℕ × Option Box}
    (h : c ∈ P.candidates r) : c ∈ P.candidates none := by
  cases P with
  | dropped => exact h
  | whole node bounds => exact h
  | grid cuts cells =>
    cases r with
    | none => exact h
    | some reached =>
      simp only [candidates, mem_flatMap, mem_filterMap, map_eq_some_iff] at h
      obtain ⟨i, -, j, -, cell, hcell, rfl⟩ := h
      exact List.mem_map.2 ⟨cell, mem_of_getElem? hcell, rfl⟩

theorem mem_candidates_grid (hsorted : ∀ a, (grid a).Pairwise (· < ·))
    (hboxes : cells.map (·.2) = cellBoxes grid) {cell : ℕ × Box} (hcell : cell ∈ cells)
    (hx : Box.Has cell.2 x) {reached : Box} (hr : Box.Has reached x) :
    (cell.1, some cell.2) ∈ (Pieces.grid grid cells).candidates (some reached) := by
  obtain ⟨k, hk⟩ := mem_iff_getElem?.1 hcell
  have hbox : (cellBoxes grid)[k]? = some cell.2 := by
    rw [← hboxes, getElem?_map, hk, map_some]
  obtain ⟨i, j, -, rfl, hi, hj⟩ := cell_windows hbox
  have hrow := window_in_range (hsorted .array) hi (hx .array) (hr .array).1 (hr .array).2
  have hcolumn := window_in_range (hsorted .packed) hj (hx .packed) (hr .packed).1 (hr .packed).2
  simp only [candidates, mem_flatMap, mem_filterMap, map_eq_some_iff]
  exact ⟨i, mem_indices.2 hrow, j, mem_indices.2 hcolumn, cell, hk, rfl⟩

theorem nodup_candidates {base : ℕ}
    (hids : P.nodes = List.range' base P.nodes.length) (r : Option Box) :
    ((P.candidates r).map (·.1)).Nodup := by
  cases P with
  | dropped => exact .nil
  | whole node bounds => simp [candidates]
  | grid cuts cells =>
    have hid : ∀ {k : ℕ} {cell : ℕ × Box}, cells[k]? = some cell → cell.1 = base + k := by
      intro k cell hk
      have hnode : (cells.map (·.1))[k]? = some cell.1 := by
        rw [getElem?_map, hk, map_some]
      rw [show cells.map (·.1) = List.range' base _ from hids] at hnode
      obtain ⟨hlt, hget⟩ := List.getElem?_eq_some_iff.1 hnode
      simpa using hget.symm
    cases r with
    | none =>
      have hmap : ((Pieces.grid cuts cells).candidates none).map (·.1) = cells.map (·.1) := by
        simp [candidates]
      rw [hmap, show cells.map (·.1) = List.range' base _ from hids]
      exact nodup_range'
    | some reached =>
      simp only [candidates, map_flatMap]
      have hcolumns : ∀ j ∈ indices (cellRange (cuts .packed) (reached .packed)),
          j < (cuts .packed).length - 1 := by
        intro j hj
        have hlast := (mem_indices.1 hj).2
        simp only [cellRange] at hlast
        omega
      rw [nodup_flatMap]
      refine ⟨fun i _ => ?_, ?_⟩
      · rw [map_filterMap]
        refine (nodup_range').filterMap fun j j' c hj hj' => ?_
        simp only [mem_def, Option.map_map, map_eq_some_iff, Function.comp] at hj hj'
        obtain ⟨cell, hcell, rfl⟩ := hj
        obtain ⟨cell', hcell', hsame⟩ := hj'
        have h₁ := hid hcell
        have h₂ := hid hcell'
        omega
      · refine List.Pairwise.imp (fun {i i'} hne => ?_) (nodup_range')
        intro c hc hc'
        simp only [List.mem_map, mem_filterMap, map_eq_some_iff] at hc hc'
        obtain ⟨_, ⟨j, hj, cell, hcell, rfl⟩, rfl⟩ := hc
        obtain ⟨_, ⟨j', hj', cell', hcell', rfl⟩, hsame⟩ := hc'
        have h₁ := hid hcell
        have h₂ := hid hcell'
        have hlt := hcolumns j hj
        have hlt' := hcolumns j' hj'
        refine hne ?_
        have hindex : i * ((cuts .packed).length - 1) + j =
            i' * ((cuts .packed).length - 1) + j' := by omega
        calc i = (i * ((cuts .packed).length - 1) + j) / ((cuts .packed).length - 1) := by
              rw [Nat.add_comm, add_mul_div_right _ _ (by omega), div_eq_of_lt hlt, Nat.zero_add]
          _ = (i' * ((cuts .packed).length - 1) + j') / ((cuts .packed).length - 1) := by
              rw [hindex]
          _ = i' := by
              rw [Nat.add_comm, add_mul_div_right _ _ (by omega), div_eq_of_lt hlt', Nat.zero_add]

end Candidates

end Veryl.Analyzer.CombLoopDetect
