import Veryl.Analyzer.CombLoopDetect.SplitCells

/-!
The pieces that replace the nodes of a split graph. Every node of the split graph is a piece
of one node, and the pieces of a node are disjoint and have exactly its positions.
-/

namespace Veryl.Analyzer.CombLoopDetect

open Veryl.Library List Option Prod Pieces

variable {n c : ℕ} {P : Pieces} {b : Option Box} {x : Position} {b' : Option Box} {m : Mapping}

/-- The positions of a node in a list of nodes. -/
def domainsAt (nodes : List ReportNode) (n : ℕ) : List PositionDomain :=
  (nodes[n]?.map (·.domains)).getD []

theorem domainsAt_eq {nodes : List ReportNode} {node : ReportNode}
    (h : nodes[n]? = some node) : domainsAt nodes n = node.domains := by
  rw [domainsAt, h]
  rfl

/-- What the pieces of a node are among the nodes of the split graph. -/
def Replaces (g : ReportGraph) (nodes : ℕ → Bool) (split : List ReportNode) (n : ℕ) : Pieces → Prop
  | .dropped => nodes n = false
  | .whole c b => nodes n = true ∧ ∃ original, g.nodes[n]? = some original ∧
      split[c]? = some original ∧ b = nodeBox original
  | .grid cuts cells => nodes n = true ∧ ∃ original bounds, g.nodes[n]? = some original ∧
      nodeBox original = some bounds ∧ IsGrid bounds cuts ∧
      cells.map (·.2) = cellBoxes cuts ∧
      ∀ cell ∈ cells, ∃ domain, boundsDomain cell.2 = some domain ∧
        split[cell.1]? = some (pieceOf original domain)

variable {g : ReportGraph} {nodes : ℕ → Bool} {cuts : Cuts}

theorem getElem?_append_of_some {α : Type*} {l : List α} {k : ℕ} {a : α} (h : l[k]? = some a)
    (more : List α) : (l ++ more)[k]? = some a := by
  rw [getElem?_append_left (List.getElem?_eq_some_iff.1 h).1, h]

theorem Replaces.append {split : List ReportNode}
    (h : Replaces g nodes split n P) (more : List ReportNode) :
    Replaces g nodes (split ++ more) n P := by
  cases P with
  | dropped => exact h
  | whole c b =>
    obtain ⟨hn, original, horiginal, hc, hb⟩ := h
    exact ⟨hn, original, horiginal, getElem?_append_of_some hc more, hb⟩
  | grid cuts cells =>
    obtain ⟨hn, original, bounds, horiginal, hbounds, hgrid, hboxes, hcells⟩ := h
    refine ⟨hn, original, bounds, horiginal, hbounds, hgrid, hboxes, fun cell hcell => ?_⟩
    obtain ⟨domain, hdomain, hnode⟩ := hcells cell hcell
    exact ⟨domain, hdomain, getElem?_append_of_some hnode more⟩

/-- The pieces of the first nodes. -/
structure MapOk (g : ReportGraph) (nodes : ℕ → Bool) (count : ℕ) (m : Mapping) : Prop where
  length : m.mapped.length = count
  replaces : ∀ n P, m.mapped[n]? = some P → Replaces g nodes m.nodes n P
  ids : m.mapped.flatMap Pieces.nodes = List.range m.nodes.length
  consecutive : ∀ P ∈ m.mapped, ∃ base, P.nodes = List.range' base P.nodes.length

theorem MapOk.empty (g : ReportGraph) (nodes : ℕ → Bool) : MapOk g nodes 0 ⟨[], []⟩ where
  length := rfl
  replaces n P h := by simp at h
  ids := rfl
  consecutive P h := by simp at h

theorem MapOk.push {count : ℕ} (h : MapOk g nodes count m) {P : Pieces}
    {more : List ReportNode} (hP : Replaces g nodes (m.nodes ++ more) count P)
    (hids : P.nodes = List.range' m.nodes.length more.length) :
    MapOk g nodes (count + 1) ⟨m.nodes ++ more, m.mapped ++ [P]⟩ where
  length := by rw [length_append, h.length, length_singleton]
  replaces n Q hQ := by
    rcases Nat.lt_or_ge n m.mapped.length with hlt | hge
    · rw [getElem?_append_left hlt] at hQ
      exact (h.replaces n Q hQ).append more
    · rw [getElem?_append_right hge, getElem?_singleton] at hQ
      split at hQ
      · obtain rfl := some.inj hQ
        obtain rfl : n = count := by
          have := h.length
          omega
        exact hP
      · cases hQ
  ids := by
    rw [flatMap_append, h.ids, flatMap_singleton, hids, length_append,
      range_eq_range', range_eq_range']
    simpa using @List.range'_append_1 0 m.nodes.length more.length
  consecutive Q hQ := by
    rcases mem_append.1 hQ with hQ | hQ
    · exact h.consecutive Q hQ
    · obtain rfl := mem_singleton.1 hQ
      exact ⟨m.nodes.length, by rw [hids, length_range']⟩

/-- The cells that were added are those of the boxes, in order. -/
structure Added (original : ReportNode) (boxes : List Box) (before : List ReportNode)
    (acc : List ReportNode × List (ℕ × Box)) : Prop where
  more : ∃ more, acc.1 = before ++ more ∧ more.length = boxes.length
  ids : acc.2.map (·.1) = List.range' before.length boxes.length
  boxes : acc.2.map (·.2) = boxes
  cells : ∀ cell ∈ acc.2, ∃ domain, boundsDomain cell.2 = some domain ∧
    acc.1[cell.1]? = some (pieceOf original domain)

theorem addCells_added (original : ReportNode) (boxes : List Box) (before : List ReportNode) :
    Ensures (addCells original boxes before) (Added original boxes before) := by
  refine Ensures.foldlM (Q := fun done acc => Added original done before acc)
    ⟨⟨[], by simp, rfl⟩, rfl, rfl, by simp⟩ fun done cell rest acc _ h => ?_
  cases hdomain : boundsDomain cell with
  | none => exact Ensures.none
  | some domain =>
    refine (Ensures.trivial).bind fun _ _ => Ensures.pure ?_
    obtain ⟨more, hmore, hlength⟩ := h.more
    constructor
    · exact ⟨more ++ [pieceOf original domain], by rw [hmore, append_assoc],
        by rw [length_append, length_append, hlength]; rfl⟩
    · rw [map_append, h.ids, length_append, length_singleton, range'_concat,
        map_singleton, hmore, length_append, hlength, Nat.one_mul]
    · rw [map_append, h.boxes, map_singleton]
    · intro c hc
      rcases mem_append.1 hc with hc | hc
      · obtain ⟨d, hd, hnode⟩ := h.cells c hc
        exact ⟨d, hd, getElem?_append_of_some hnode _⟩
      · obtain rfl := mem_singleton.1 hc
        exact ⟨domain, hdomain, by simp⟩

theorem mapNode_ok (hn : n < g.nodes.length) (h : MapOk g nodes n m) :
    Ensures (mapNode g nodes cuts m n) (MapOk g nodes (n + 1)) := by
  have horiginal : g.nodes[n]? = some g.nodes[n] := getElem?_eq_getElem hn
  simp only [mapNode, horiginal]
  split
  · next hmem =>
    cases hgrid : gridOf g nodes cuts n with
    | none =>
      have hwhole : Replaces g nodes (m.nodes ++ [g.nodes[n]]) n
          (.whole m.nodes.length (nodeBox g.nodes[n])) := ⟨hmem, _, horiginal, by simp, rfl⟩
      exact Ensures.pure (h.push hwhole rfl)
    | some grid =>
      obtain ⟨original, bounds, hsome, hbounds, hok⟩ := gridOf_eq_some hgrid
      obtain rfl := some.inj (horiginal.symm.trans hsome)
      refine (addCells_added _ _ _).bind fun acc hacc => Ensures.pure ?_
      obtain ⟨more, hmore, hlength⟩ := hacc.more
      have hcells : Replaces g nodes (m.nodes ++ more) n (.grid grid acc.2) :=
        ⟨hmem, _, bounds, horiginal, hbounds, hok, hacc.boxes, by
          rw [← hmore]
          exact hacc.cells⟩
      have hpush := h.push hcells (by rw [hlength]; exact hacc.ids)
      rwa [← hmore] at hpush
  · next hmem =>
    have hdropped : Replaces g nodes (m.nodes ++ []) n .dropped := by simpa [Replaces] using hmem
    have hpush := h.push hdropped rfl
    rw [append_nil] at hpush
    exact Ensures.pure hpush

theorem mapNodes_ok (g : ReportGraph) (nodes : ℕ → Bool) (cuts : Cuts) :
    Ensures (mapNodes g nodes cuts) (MapOk g nodes g.nodes.length) := by
  have hfold := Ensures.foldlM (f := mapNode g nodes cuts) (l := List.range g.nodes.length)
    (Q := fun done m => MapOk g nodes done.length m) (MapOk.empty g nodes)
    fun done n rest m hl h => by
      have hn : (List.range g.nodes.length)[done.length]? = some n := by rw [hl]; simp
      obtain ⟨hlt, hget⟩ := List.getElem?_eq_some_iff.1 hn
      rw [getElem_range] at hget
      rw [length_range] at hlt
      subst hget
      rw [length_append]
      exact mapNode_ok hlt h
  rwa [length_range] at hfold

section Pieces

variable {m : Mapping}

/-- A piece of a node, with its bounds. -/
def Held (m : Mapping) (n c : ℕ) (b : Option Box) : Prop :=
  ∃ P, m.mapped[n]? = some P ∧ (c, b) ∈ P.candidates none

theorem mem_nodes_iff : c ∈ P.nodes ↔ ∃ b, (c, b) ∈ P.candidates none := by
  cases P <;> simp [Pieces.nodes, candidates]

theorem Held.mem_nodes (h : Held m n c b) : ∃ P, m.mapped[n]? = some P ∧ c ∈ P.nodes := by
  obtain ⟨P, hP, hc⟩ := h
  exact ⟨P, hP, mem_nodes_iff.2 ⟨b, hc⟩⟩

variable {count : ℕ}

/-- The node that a node of the split graph is a piece of. -/
def origin (mapped : List Pieces) (c : ℕ) : ℕ := mapped.findIdx fun P => decide (c ∈ P.nodes)

theorem MapOk.exists_piece (h : MapOk g nodes g.nodes.length m) (hlt : n < g.nodes.length)
    (hn : nodes n = true) (hx : InDomains (g.domains n) x) :
    ∃ c b, Held m n c b ∧ InDomains (domainsAt m.nodes c) x := by
  have hmapped : n < m.mapped.length := h.length ▸ hlt
  have hP : m.mapped[n]? = some m.mapped[n] := getElem?_eq_getElem hmapped
  have hrep := h.replaces n _ hP
  cases hcase : m.mapped[n] with
  | dropped =>
    rw [hcase] at hrep
    exact absurd hn (by rw [show nodes n = false from hrep]; decide)
  | whole c b =>
    rw [hcase] at hrep hP
    obtain ⟨-, original, horiginal, hnode, -⟩ := hrep
    refine ⟨c, b, ⟨_, hP, by simp [candidates]⟩, ?_⟩
    rw [domainsAt_eq hnode]
    rwa [ReportGraph.domains, horiginal] at hx
  | grid grid cells =>
    rw [hcase] at hrep hP
    obtain ⟨-, original, bounds, horiginal, hbounds, hgrid, hboxes, hcells⟩ := hrep
    rw [ReportGraph.domains, horiginal] at hx
    obtain ⟨k, b, hk, hb⟩ := exists_cell hgrid ((has_nodeBox hbounds x).1 hx)
    rw [← hboxes, getElem?_map, map_eq_some_iff] at hk
    obtain ⟨cell, hcell, rfl⟩ := hk
    have hmem := mem_of_getElem? hcell
    obtain ⟨domain, hdomain, hnode⟩ := hcells cell hmem
    refine ⟨cell.1, some cell.2, ⟨_, hP, mem_map.2 ⟨cell, hmem, rfl⟩⟩, ?_⟩
    rw [domainsAt_eq hnode]
    simpa [InDomains, pieceOf] using (has_boundsDomain hdomain x).2 hb

section

variable (h : MapOk g nodes count m)

include h

theorem MapOk.exists_held (hc : c < m.nodes.length) : ∃ n b, Held m n c b := by
  have hmem : c ∈ m.mapped.flatMap Pieces.nodes := by
    rw [h.ids]
    exact mem_range.2 hc
  obtain ⟨P, hP, hnode⟩ := mem_flatMap.1 hmem
  obtain ⟨n, hn⟩ := mem_iff_getElem?.1 hP
  obtain ⟨b, hb⟩ := mem_nodes_iff.1 hnode
  exact ⟨n, b, P, hn, hb⟩

theorem MapOk.held_lt (hc : Held m n c b) : n < count ∧ c < m.nodes.length := by
  obtain ⟨P, hP, hnode⟩ := hc.mem_nodes
  refine ⟨h.length ▸ (List.getElem?_eq_some_iff.1 hP).1, ?_⟩
  rw [← mem_range, ← h.ids]
  exact mem_flatMap.2 ⟨P, mem_of_getElem? hP, hnode⟩

theorem MapOk.held_unique {n' : ℕ} (hc : Held m n c b) (hc' : Held m n' c b') : n = n' := by
  obtain ⟨P, hP, hnode⟩ := hc.mem_nodes
  obtain ⟨P', hP', hnode'⟩ := hc'.mem_nodes
  obtain ⟨hn, rfl⟩ := List.getElem?_eq_some_iff.1 hP
  obtain ⟨hn', rfl⟩ := List.getElem?_eq_some_iff.1 hP'
  have hnodup : (m.mapped.flatMap Pieces.nodes).Nodup := by
    rw [h.ids]
    exact nodup_range
  have hapart := pairwise_iff_getElem.1 (nodup_flatMap.1 hnodup).2
  rcases Nat.lt_trichotomy n n' with hlt | heq | hgt
  · exact absurd hnode' (disjoint_left.1 (hapart n n' hn hn' hlt) hnode)
  · exact heq
  · exact absurd hnode (disjoint_left.1 (hapart n' n hn' hn hgt) hnode')

theorem MapOk.origin_eq (hc : Held m n c b) : origin m.mapped c = n := by
  obtain ⟨P, hP, hnode⟩ := hc.mem_nodes
  have hlt : origin m.mapped c < m.mapped.length :=
    findIdx_lt_length.2 ⟨P, mem_of_getElem? hP, decide_eq_true hnode⟩
  obtain ⟨b', hb'⟩ := mem_nodes_iff.1 (of_decide_eq_true (findIdx_getElem (w := hlt)))
  exact h.held_unique ⟨_, getElem?_eq_getElem hlt, hb'⟩ hc

theorem MapOk.held_origin (hc : c < m.nodes.length) : ∃ b, Held m (origin m.mapped c) c b := by
  obtain ⟨n, b, hb⟩ := h.exists_held hc
  exact ⟨b, (h.origin_eq hb).symm ▸ hb⟩

theorem MapOk.inside (hc : Held m n c b) : nodes n = true ∧ ∀ x, InDomains (domainsAt m.nodes c) x →
      InDomains (g.domains n) x ∧ ∀ box, b = some box → Box.Has box x := by
  obtain ⟨P, hP, hmem⟩ := hc
  have hrep := h.replaces n P hP
  cases P with
  | dropped => simp [candidates] at hmem
  | whole c' b' =>
    obtain ⟨hn, original, horiginal, hnode, rfl⟩ := hrep
    obtain ⟨rfl, rfl⟩ : c = c' ∧ b = nodeBox original := by
      simpa [candidates] using hmem
    refine ⟨hn, fun x hx => ?_⟩
    rw [domainsAt_eq hnode] at hx
    refine ⟨?_, fun box hbox => (has_nodeBox hbox x).1 hx⟩
    rw [ReportGraph.domains, horiginal]
    exact hx
  | grid grid cells =>
    obtain ⟨hn, original, bounds, horiginal, hbounds, hgrid, hboxes, hcells⟩ := hrep
    obtain ⟨cell, hcell, hpair⟩ := mem_map.1 hmem
    obtain ⟨rfl, rfl⟩ := mk.inj hpair
    obtain ⟨domain, hdomain, hnode⟩ := hcells cell hcell
    refine ⟨hn, fun x hx => ?_⟩
    have hbox : Box.Has cell.2 x := by
      rw [domainsAt_eq hnode] at hx
      rw [← has_boundsDomain hdomain]
      simpa [InDomains, pieceOf] using hx
    obtain ⟨k, hk⟩ := mem_iff_getElem?.1 hcell
    have hcellBox : (cellBoxes grid)[k]? = some cell.2 := by
      rw [← hboxes, getElem?_map, hk, map_some]
    refine ⟨?_, ?_⟩
    · rw [ReportGraph.domains, horiginal]
      exact (has_nodeBox hbounds x).2 (has_of_cell hgrid hcellBox hbox)
    · rintro box hsome
      rw [← some.inj hsome]
      exact hbox

theorem MapOk.piece_unique {c' : ℕ} (hc : Held m n c b) (hc' : Held m n c' b')
    (hx : InDomains (domainsAt m.nodes c) x) (hx' : InDomains (domainsAt m.nodes c') x) :
    c = c' := by
  have hbox := ((h.inside hc).2 x hx).2
  have hbox' := ((h.inside hc').2 x hx').2
  obtain ⟨P, hP, hmem⟩ := hc
  obtain ⟨P', hP', hmem'⟩ := hc'
  obtain rfl := some.inj (hP.symm.trans hP')
  have hrep := h.replaces n P hP
  cases P with
  | dropped => simp [candidates] at hmem
  | whole k b => simp_all [candidates]
  | grid grid cells =>
    obtain ⟨-, -, bounds, -, -, hgrid, hboxes, -⟩ := hrep
    obtain ⟨cell, hcell, hpair⟩ := mem_map.1 hmem
    obtain ⟨rfl, rfl⟩ := mk.inj hpair
    obtain ⟨cell', hcell', hpair'⟩ := mem_map.1 hmem'
    obtain ⟨rfl, rfl⟩ := mk.inj hpair'
    obtain ⟨k, hk⟩ := mem_iff_getElem?.1 hcell
    obtain ⟨k', hk'⟩ := mem_iff_getElem?.1 hcell'
    have hsame := cell_unique hgrid (by rw [← hboxes, getElem?_map, hk, map_some])
      (by rw [← hboxes, getElem?_map, hk', map_some]) (hbox _ rfl) (hbox' _ rfl)
    subst hsame
    rw [some.inj (hk.symm.trans hk')]

theorem MapOk.searched (hP : m.mapped[n]? = some P) (hc : (c, b) ∈ P.candidates none)
    (hx : InDomains (domainsAt m.nodes c) x) {reached : Box} (hr : Box.Has reached x) :
    (c, b) ∈ P.candidates (some reached) := by
  have hbox := ((h.inside ⟨P, hP, hc⟩).2 x hx).2
  have hrep := h.replaces n P hP
  cases P with
  | dropped => exact hc
  | whole k b => exact hc
  | grid grid cells =>
    obtain ⟨-, -, bounds, -, -, hgrid, hboxes, -⟩ := hrep
    obtain ⟨cell, hcell, hpair⟩ := mem_map.1 hc
    obtain ⟨rfl, rfl⟩ := mk.inj hpair
    exact mem_candidates_grid hgrid.sorted hboxes hcell (hbox _ rfl) hr

end

end Pieces

end Veryl.Analyzer.CombLoopDetect
