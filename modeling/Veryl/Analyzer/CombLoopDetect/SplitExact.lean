import Veryl.Analyzer.CombLoopDetect.SplitMapping
import Veryl.Analyzer.CombLoopDetect.SummaryExact

/-!
Splitting a cyclic component keeps its walks. The edges of the split graph relate the same
pairs of positions under the same conditions, so a closed walk of the component is one of
the split graph and the other way round.
-/

namespace Veryl.Analyzer.CombLoopDetect

open Veryl.Library Relation List Option Prod GraphEdge

variable {target : Pieces} {s : ℕ × Option Box} {c : ℕ} {e : GraphEdge}

variable {v : Valuation} {p q : ℕ × Position}

/-- A route of an edge between two pieces. -/
abbrev Route := GraphEdge × (ℕ × Option Box) × (ℕ × Option Box)

def Route.edge (r : Route) : GraphEdge := { r.1 with source := r.2.1.1, target := r.2.2.1 }

def Route.taken (r : Route) : Bool := reaches r.1.kind r.2.1.2 r.2.2.2

namespace ReportGraph

theorem addDependencyEdge_new {g : ReportGraph} {new : GraphEdge} (hs : new.source < g.nodes.length)
    (ht : new.target < g.nodes.length) (hkey : new.key ∉ g.edges.map key) :
    (g.addDependencyEdge new).nodes = g.nodes ∧
      (g.addDependencyEdge new).edges = g.edges ++ [new] := by
  unfold addDependencyEdge
  rw [dif_pos ⟨hs, ht⟩, dif_neg hkey]
  exact ⟨rfl, rfl⟩

end ReportGraph

theorem routeEdges_ensures {nodes : List ReportNode} {rs : List Route}
    (hends : ∀ r ∈ rs, r.2.1.1 < nodes.length ∧ r.2.2.1 < nodes.length)
    (hkeys : (((rs.filter Route.taken).map Route.edge).map key).Nodup) :
    Ensures (rs.foldlM routeEdge (ReportGraph.ofNodes nodes)) fun split =>
      split.nodes = nodes ∧ split.edges = (rs.filter Route.taken).map Route.edge := by
  refine Ensures.foldlM (Q := fun done (split : ReportGraph) => split.nodes = nodes ∧
    split.edges = (done.filter Route.taken).map Route.edge) ⟨rfl, rfl⟩
    fun done r rest split hrs h => ?_
  refine (Ensures.trivial).bind fun _ _ => ?_
  obtain ⟨hnodes, hedges⟩ := h
  cases htaken : r.taken with
  | false =>
    have hskip : reaches r.1.kind r.2.1.2 r.2.2.2 = false := htaken
    simp only [hskip, Bool.false_eq_true, if_false]
    refine Ensures.pure ⟨hnodes, ?_⟩
    rw [hedges]
    simp [htaken]
  | true =>
    have hadd : reaches r.1.kind r.2.1.2 r.2.2.2 = true := htaken
    simp only [hadd, if_true]
    have hr := hends r (hrs ▸ by simp)
    rw [hrs] at hkeys
    have hfresh : r.edge.key ∉ split.edges.map key := by
      rw [hedges]
      intro hmem
      simp only [filter_append, filter_cons, htaken, if_true, map_append, map_cons] at hkeys
      exact (nodup_append.1 hkeys).2.2 _ hmem _ (by simp) rfl
    have hs : r.edge.source < split.nodes.length := hnodes ▸ hr.1
    have ht : r.edge.target < split.nodes.length := hnodes ▸ hr.2
    obtain ⟨hn, he⟩ := ReportGraph.addDependencyEdge_new hs ht hfresh
    refine Ensures.pure ⟨hn.trans hnodes, he.trans ?_⟩
    rw [hedges]
    simp [htaken]

section Routes

variable {g : ReportGraph} {nodes : ℕ → Bool} {count : ℕ} {m : Mapping}

def allRoutes (mapped : List Pieces) (edges : List GraphEdge) : List Route :=
  edges.flatMap fun e => (routes mapped e).map fun route => (e, route)

theorem mem_routesFrom {kind : BitDependency}
    {r : (ℕ × Option Box) × (ℕ × Option Box)} (h : r ∈ routesFrom target kind s) :
    r.1 = s ∧ r.2 ∈ target.candidates none := by
  unfold routesFrom at h
  split at h
  · cases h
  · obtain ⟨d, hd, rfl⟩ := mem_map.1 h
    exact ⟨rfl, mem_candidates_none hd⟩
  · obtain ⟨d, hd, rfl⟩ := mem_map.1 h
    exact ⟨rfl, hd⟩

theorem held_of_mem_candidates {n : ℕ} {c : ℕ × Option Box}
    (h : c ∈ (m.mapped[n]?.getD .dropped).candidates none) : Held m n c.1 c.2 := by
  cases hn : m.mapped[n]? with
  | none => simp [hn, Pieces.candidates] at h
  | some P =>
    rw [hn] at h
    exact ⟨P, hn, h⟩

theorem held_of_mem_routes {d : ℕ × Option Box}
    (h : (s, d) ∈ routes m.mapped e) : Held m e.source s.1 s.2 ∧ Held m e.target d.1 d.2 := by
  obtain ⟨s', hs, hr⟩ := mem_flatMap.1 h
  obtain ⟨rfl, hd⟩ := mem_routesFrom hr
  exact ⟨held_of_mem_candidates hs, held_of_mem_candidates hd⟩

theorem route_of_rel (h : MapOk g nodes count m) {d : ℕ} {b b' : Option Box}
    (hc : Held m e.source c b) (hd : Held m e.target d b') {x y : Position}
    (hx : InDomains (domainsAt m.nodes c) x) (hy : InDomains (domainsAt m.nodes d) y)
    (hrel : e.kind.Rel x y) :
    ((c, b), (d, b')) ∈ routes m.mapped e ∧ reaches e.kind b b' = true := by
  have hboxes := ((h.inside hc).2 x hx).2
  have hboxes' := ((h.inside hd).2 y hy).2
  obtain ⟨P, hP, hmem⟩ := hc
  obtain ⟨P', hP', hmem'⟩ := hd
  constructor
  · refine mem_flatMap.2 ⟨(c, b), by rwa [hP], ?_⟩
    rw [hP', getD_some, routesFrom]
    split
    · next himage =>
      obtain ⟨box, rfl, hr⟩ := bind_eq_some_iff.1 himage
      obtain ⟨reached, hnone, -⟩ := BitDependency.image_of_rel hrel (hboxes box rfl) hr
      cases hnone
    · next reached himage =>
      obtain ⟨box, rfl, hr⟩ := bind_eq_some_iff.1 himage
      obtain ⟨reached', hsome, hreached⟩ := BitDependency.image_of_rel hrel (hboxes box rfl) hr
      obtain rfl := some.inj hsome
      exact mem_map.2 ⟨(d, b'), h.searched hP' hmem' hy hreached, rfl⟩
    · exact mem_map.2 ⟨(d, b'), hmem', rfl⟩
  · cases b with
    | none => rfl
    | some box =>
      cases b' with
      | none => rfl
      | some box' =>
        have hreach := BitDependency.mayReach_of_rel hrel (hboxes box rfl) (hboxes' box' rfl)
        simp [reaches, hreach .array, hreach .packed]

/-- The ends of a pair of pieces. -/
abbrev ends (r : (ℕ × Option Box) × (ℕ × Option Box)) : ℕ × ℕ := (r.1.1, r.2.1)

theorem nodup_routesFrom (hnodup : ∀ r, ((target.candidates r).map (·.1)).Nodup)
    (kind : BitDependency) (s : ℕ × Option Box) : ((routesFrom target kind s).map ends).Nodup := by
  have hrow : ∀ r, (((target.candidates r).map fun d => (s, d)).map ends).Nodup := by
    intro r
    have hmap : ((target.candidates r).map fun d => (s, d)).map ends =
        ((target.candidates r).map (·.1)).map fun d => (s.1, d) := by
      simp
    rw [hmap]
    exact (hnodup r).map fun d d' hd => (mk.inj hd).2
  unfold routesFrom
  split
  · exact .nil
  · exact hrow _
  · exact hrow _

theorem nodup_routes (h : MapOk g nodes count m) (e : GraphEdge) :
    ((routes m.mapped e).map ends).Nodup := by
  have hnodup : ∀ (n : ℕ) (r : Option Box),
      (((m.mapped[n]?.getD .dropped).candidates r).map (·.1)).Nodup := by
    intro n r
    cases hn : m.mapped[n]? with
    | none => exact .nil
    | some P =>
      obtain ⟨base, hbase⟩ := h.consecutive P (mem_of_getElem? hn)
      exact nodup_candidates hbase r
  rw [routes, map_flatMap, nodup_flatMap]
  refine ⟨fun s _ => nodup_routesFrom (hnodup e.target) e.kind s, ?_⟩
  refine (pairwise_map.1 (hnodup e.source none)).imp fun {s s'} hne => ?_
  intro k hk hk'
  -- the routes of a row start at its piece
  obtain ⟨r, hr, rfl⟩ := mem_map.1 hk
  obtain ⟨r', hr', hsame⟩ := mem_map.1 hk'
  have hstart : r'.1.1 = r.1.1 := (mk.inj hsame).1
  rw [(mem_routesFrom hr).1, (mem_routesFrom hr').1] at hstart
  exact hne hstart.symm

theorem nodup_keys (h : MapOk g nodes count m) :
    (((allRoutes m.mapped g.edges).map Route.edge).map key).Nodup := by
  have hkeys : ((allRoutes m.mapped g.edges).map Route.edge).map key =
      g.edges.flatMap fun e => (routes m.mapped e).map fun r => (r.1.1, r.2.1, e.kind) := by
    simp [allRoutes, map_flatMap, Route.edge, key, Function.comp_def]
  rw [hkeys, nodup_flatMap]
  constructor
  · intro e _
    have hmap : (routes m.mapped e).map (fun r => (r.1.1, r.2.1, e.kind)) =
        ((routes m.mapped e).map ends).map fun k => (k.1, k.2, e.kind) := by
      simp
    rw [hmap]
    refine (nodup_routes h e).map fun k k' hk => ?_
    obtain ⟨h₁, h₂⟩ := mk.inj hk
    exact Prod.ext h₁ (mk.inj h₂).1
  · refine (pairwise_map.1 g.keys_nodup).imp fun {e e'} hne => ?_
    intro k hk hk'
    obtain ⟨⟨s, d⟩, hr, rfl⟩ := mem_map.1 hk
    obtain ⟨⟨s', d'⟩, hr', hsame⟩ := mem_map.1 hk'
    obtain ⟨hs, hd⟩ := held_of_mem_routes hr
    obtain ⟨hs', hd'⟩ := held_of_mem_routes hr'
    obtain ⟨h₁, h₂⟩ := mk.inj hsame
    obtain ⟨h₂, h₃⟩ := mk.inj h₂
    refine hne ?_
    rw [key, key, h.held_unique hs (h₁ ▸ hs'), h.held_unique hd (h₂ ▸ hd'), h₃]

end Routes

/-- A step between nodes of a set. -/
def MovesWithin (nodes : ℕ → Bool) (g : ReportGraph) (v : Valuation) (p q : ℕ × Position) : Prop :=
  (nodes p.1 = true ∧ nodes q.1 = true) ∧ Moves g.edges g.domains v p q

/-- A positional closed walk whose conditions are compatible: one choice of the branches
admits all of them. -/
def ClosedWalk (nodes : ℕ → Bool) (g : ReportGraph) : Prop :=
  ∃ v p, TransGen (MovesWithin nodes g v) p p

/-- A graph whose nodes are disjoint pieces of the given nodes of another one, with the same
pairs of positions. -/
structure SplitsInto (g : ReportGraph) (nodes : ℕ → Bool) (split : ReportGraph)
    (origin : ℕ → ℕ) : Prop where
  within : ∀ c < split.nodes.length, origin c < g.nodes.length ∧ nodes (origin c) = true
  inside : ∀ c < split.nodes.length, ∀ x,
    InDomains (split.domains c) x → InDomains (g.domains (origin c)) x
  cover : ∀ n < g.nodes.length, nodes n = true → ∀ x, InDomains (g.domains n) x →
    ∃! c, c < split.nodes.length ∧ origin c = n ∧ InDomains (split.domains c) x
  related : ∀ c < split.nodes.length, ∀ d < split.nodes.length, ∀ x y kind condition,
    InDomains (split.domains c) x → InDomains (split.domains d) y → kind.Rel x y →
    (⟨c, d, kind, condition⟩ ∈ split.edges ↔ ⟨origin c, origin d, kind, condition⟩ ∈ g.edges)

namespace SplitsInto

variable {g split : ReportGraph} {nodes : ℕ → Bool} {origin : ℕ → ℕ}

section

variable (h : SplitsInto g nodes split origin)

include h

theorem project
    (hp : InDomains (split.domains p.1) p.2) (hstep : Moves split.edges split.domains v p q) :
    MovesWithin nodes g v (origin p.1, p.2) (origin q.1, q.2) := by
  obtain ⟨e, he, hs, ht, hv, hrel, hq⟩ := hstep
  have hp_lt : p.1 < split.nodes.length := hs ▸ split.source_lt e he
  have hq_lt : q.1 < split.nodes.length := ht ▸ split.target_lt e he
  have hedge : (⟨p.1, q.1, e.kind, e.condition⟩ : GraphEdge) ∈ split.edges := by
    rw [← hs, ← ht]
    exact he
  refine ⟨⟨(h.within _ hp_lt).2, (h.within _ hq_lt).2⟩, _,
    (h.related _ hp_lt _ hq_lt _ _ _ _ hp hq hrel).1 hedge, rfl, rfl, hv, hrel,
    h.inside _ hq_lt _ hq⟩

theorem lift (hstep : MovesWithin nodes g v p q) (hc : c < split.nodes.length)
    (horigin : origin c = p.1) (hx : InDomains (split.domains c) p.2) :
    ∃ d, d < split.nodes.length ∧ origin d = q.1 ∧ InDomains (split.domains d) q.2 ∧
      Moves split.edges split.domains v (c, p.2) (d, q.2) := by
  obtain ⟨⟨-, hq⟩, e, he, hs, ht, hv, hrel, hy⟩ := hstep
  obtain ⟨d, ⟨hd, hdq, hdy⟩, -⟩ := h.cover q.1 (ht ▸ g.target_lt e he) hq q.2 hy
  have hedge : (⟨origin c, origin d, e.kind, e.condition⟩ : GraphEdge) ∈ g.edges := by
    rw [horigin, hdq, ← hs, ← ht]
    exact he
  exact ⟨d, hd, hdq, hdy, _, (h.related c hc d hd _ _ _ _ hx hdy hrel).2 hedge, rfl, rfl, hv,
    hrel, hdy⟩

theorem lift_walk (hwalk : TransGen (MovesWithin nodes g v) p q) (hc : c < split.nodes.length)
    (horigin : origin c = p.1) (hx : InDomains (split.domains c) p.2) :
    ∃ d, d < split.nodes.length ∧ origin d = q.1 ∧ InDomains (split.domains d) q.2 ∧
      TransGen (Moves split.edges split.domains v) (c, p.2) (d, q.2) := by
  induction hwalk with
  | single hstep =>
    obtain ⟨d, hd, hdq, hdy, hmove⟩ := h.lift hstep hc horigin hx
    exact ⟨d, hd, hdq, hdy, .single hmove⟩
  | tail _ hstep ih =>
    obtain ⟨d, hd, hdq, hdy, hmoves⟩ := ih
    obtain ⟨d', hd', hdq', hdy', hmove⟩ := h.lift hstep hd hdq hdy
    exact ⟨d', hd', hdq', hdy', hmoves.tail hmove⟩

theorem project_walk (hp : InDomains (split.domains p.1) p.2)
    (hwalk : TransGen (Moves split.edges split.domains v) p q) :
    InDomains (split.domains q.1) q.2 ∧
      TransGen (MovesWithin nodes g v) (origin p.1, p.2) (origin q.1, q.2) := by
  induction hwalk with
  | single hstep => exact ⟨hstep.choose_spec.2.2.2.2.2, .single (h.project hp hstep)⟩
  | tail _ hstep ih =>
    exact ⟨hstep.choose_spec.2.2.2.2.2, ih.2.tail (h.project ih.1 hstep)⟩

theorem closedWalk_iff : ClosedWalk nodes g ↔ ClosedWalk (fun _ => true) split := by
  constructor
  · rintro ⟨v, p, hwalk⟩
    -- the last step of the walk ends at a position of a piece
    obtain ⟨⟨-, hp⟩, e, he, -, ht, -, -, hx⟩ := (TransGen.tail'_iff.1 hwalk).choose_spec.2
    obtain ⟨c, ⟨hc, hcp, hcx⟩, hunique⟩ := h.cover p.1 (ht ▸ g.target_lt e he) hp p.2 hx
    obtain ⟨d, hd, hdp, hdx, hmoves⟩ := h.lift_walk hwalk hc hcp hcx
    obtain rfl := hunique d ⟨hd, hdp, hdx⟩
    have hall : TransGen (MovesWithin (fun _ => true) split v) (d, p.2) (d, p.2) :=
      TransGen.mono (fun _ _ hmove => ⟨⟨rfl, rfl⟩, hmove⟩) _ _ hmoves
    exact ⟨v, _, hall⟩
  · rintro ⟨v, p, hwalk⟩
    have hmoves : TransGen (Moves split.edges split.domains v) p p :=
      TransGen.mono (fun _ _ hmove => hmove.2) _ _ hwalk
    have hp := (TransGen.tail'_iff.1 hmoves).choose_spec.2.choose_spec.2.2.2.2.2
    exact ⟨v, _, (h.project_walk hp hmoves).2⟩

end

end SplitsInto

section Split

variable {g : ReportGraph} {nodes : ℕ → Bool} {m : Mapping} {split : ReportGraph}

theorem splitsInto_of_mapOk (h : MapOk g nodes g.nodes.length m) (hnodes : split.nodes = m.nodes)
    (hedges : split.edges = ((allRoutes m.mapped g.edges).filter Route.taken).map Route.edge) :
    SplitsInto g nodes split (origin m.mapped) := by
  have hdomains : ∀ c, split.domains c = domainsAt m.nodes c := by
    intro c
    rw [← hnodes]
    rfl
  constructor
  · intro c hc
    obtain ⟨b, hb⟩ := h.held_origin (hnodes ▸ hc)
    exact ⟨(h.held_lt hb).1, (h.inside hb).1⟩
  · intro c hc x hx
    obtain ⟨b, hb⟩ := h.held_origin (hnodes ▸ hc)
    exact ((h.inside hb).2 x (hdomains c ▸ hx)).1
  · intro n hn hmem x hx
    obtain ⟨c, b, hb, hcx⟩ := h.exists_piece hn hmem hx
    refine ⟨c, ⟨hnodes ▸ (h.held_lt hb).2, h.origin_eq hb, hdomains c ▸ hcx⟩, ?_⟩
    rintro c' ⟨hc', rfl, hcx'⟩
    obtain ⟨b', hb'⟩ := h.held_origin (hnodes ▸ hc')
    exact h.piece_unique hb' hb (hdomains c' ▸ hcx') hcx
  · intro c hc d hd x y kind condition hx hy hrel
    obtain ⟨b, hb⟩ := h.held_origin (hnodes ▸ hc)
    obtain ⟨b', hb'⟩ := h.held_origin (hnodes ▸ hd)
    rw [hedges]
    constructor
    · intro hmem
      obtain ⟨⟨e, s, d'⟩, hr, hedge⟩ := mem_map.1 hmem
      obtain ⟨e', he, hroute⟩ := mem_flatMap.1 (mem_filter.1 hr).1
      obtain ⟨route, hmem', hpair⟩ := mem_map.1 hroute
      obtain ⟨rfl, rfl⟩ := mk.inj hpair
      obtain ⟨hs, ht⟩ := held_of_mem_routes hmem'
      obtain ⟨rfl, rfl, rfl, rfl⟩ := hedge
      rw [h.origin_eq hs, h.origin_eq ht]
      exact he
    · intro he
      obtain ⟨hroute, htaken⟩ := route_of_rel h
        (e := ⟨origin m.mapped c, origin m.mapped d, kind, condition⟩) hb hb'
        (hdomains c ▸ hx) (hdomains d ▸ hy) hrel
      refine mem_map.2
        ⟨(⟨origin m.mapped c, origin m.mapped d, kind, condition⟩, (c, b), (d, b')), ?_, rfl⟩
      exact mem_filter.2 ⟨mem_flatMap.2 ⟨_, he, mem_map.2 ⟨_, hroute, rfl⟩⟩, htaken⟩

theorem splitAtCuts_ensures (g : ReportGraph) (nodes : ℕ → Bool) (cuts : Cuts) :
    Ensures (splitAtCuts g nodes cuts) fun split => ∃ origin, SplitsInto g nodes split origin := by
  unfold splitAtCuts
  split
  · refine (mapNodes_ok g nodes cuts).bind fun m hm => ?_
    refine (@routeEdges_ensures m.nodes (allRoutes m.mapped g.edges) ?_ ?_).mono fun split hsplit =>
      ⟨_, splitsInto_of_mapOk hm hsplit.1 hsplit.2⟩
    · rintro r hr
      obtain ⟨e, -, hroute⟩ := mem_flatMap.1 hr
      obtain ⟨⟨s, d⟩, hmem, rfl⟩ := mem_map.1 hroute
      obtain ⟨hs, hd⟩ := held_of_mem_routes hmem
      exact ⟨(hm.held_lt hs).2, (hm.held_lt hd).2⟩
    · refine (nodup_keys hm).sublist ?_
      exact (filter_sublist.map _).map _
  · exact Ensures.none

/-- When the nodes are split, the pieces of each node are disjoint and cover its positions,
two positions of pieces are related exactly as they are in the graph, and the closed walks
are kept. -/
theorem splitAtCuts_exact {g : ReportGraph} {nodes : ℕ → Bool} {cuts : Cuts} {steps : ℕ}
    {split : ReportGraph} {rest : ℕ} (h : splitAtCuts g nodes cuts steps = some (split, rest)) :
    (∃ origin, SplitsInto g nodes split origin) ∧
      (ClosedWalk nodes g ↔ ClosedWalk (fun _ => true) split) := by
  obtain ⟨origin, horigin⟩ := splitAtCuts_ensures g nodes cuts steps split rest h
  exact ⟨⟨origin, horigin⟩, horigin.closedWalk_iff⟩

end Split

/-- A byte whose high half is copied from its low half. -/
def copiedHalf : ReportGraph where
  nodes := [⟨⟨⟨0, ⟨0, 1⟩, ⟨0, 8⟩⟩, [⟨0, 1, 0, 8⟩]⟩, some (0, ⟨0, 1⟩, 0)⟩]
  edges := [⟨0, 0, ⟨some 0, some 4⟩, .unconditional⟩]
  source_lt := by simp
  target_lt := by simp
  keys_nodup := by simp

def halves : Cuts := fun _ => some fun
  | .array => []
  | .packed => [4]

theorem splitAtCuts_exact_copiedHalf :
    ∃ split, (splitAtCuts copiedHalf (fun _ => true) halves 100).map (·.1) = some split ∧
      split.edges = [⟨0, 1, ⟨some 0, some 4⟩, .unconditional⟩] ∧
      (∃ origin, SplitsInto copiedHalf (fun _ => true) split origin) ∧
      (ClosedWalk (fun _ => true) copiedHalf ↔ ClosedWalk (fun _ => true) split) := by
  have hsome : (splitAtCuts copiedHalf (fun _ => true) halves 100).isSome = true := by decide
  obtain ⟨⟨split, rest⟩, hsplit⟩ := isSome_iff_exists.1 hsome
  have hedges : (splitAtCuts copiedHalf (fun _ => true) halves 100).map (·.1.edges) =
      some [⟨0, 1, ⟨some 0, some 4⟩, .unconditional⟩] := by decide
  rw [hsplit] at hedges
  exact ⟨split, by rw [hsplit]; rfl, some.inj hedges, splitAtCuts_exact hsplit⟩

end Veryl.Analyzer.CombLoopDetect
