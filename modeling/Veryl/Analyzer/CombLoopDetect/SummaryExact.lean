import Veryl.Analyzer.CombLoopDetect.Summary
import Veryl.Analyzer.CombLoopDetect.RelationExact

/-!
A module summary keeps the boundary dependencies: for every choice of the
branches it joins the same positions of the boundary nodes as the graph.
-/

namespace Veryl.Analyzer.CombLoopDetect

open Veryl.Library Relation List Option

variable {p : ℕ × Position} {before : GraphEdge}

variable {edges : List GraphEdge} {n turns t : ℕ} {e : GraphEdge} {q : ℕ × Position} {v : Valuation}
  {after : GraphEdge}

/-- A step along an edge: it respects the guard, the operation and the domains
of the node it reaches. -/
def Moves (edges : List GraphEdge) (domains : ℕ → List PositionDomain) (v : Valuation)
    (p q : ℕ × Position) : Prop :=
  ∃ e ∈ edges, e.source = p.1 ∧ e.target = q.1 ∧ e.condition.Admits v ∧ e.kind.Rel p.2 q.2 ∧
    InDomains (domains q.1) q.2

/-- A walk from one position of a node to another. -/
def Joins (edges : List GraphEdge) (domains : ℕ → List PositionDomain) (v : Valuation)
    (p q : ℕ × Position) : Prop :=
  InDomains (domains p.1) p.2 ∧ ReflTransGen (Moves edges domains v) p q

/-- Some edge leads from one node to the other. -/
def Leads (edges : List GraphEdge) (a b : ℕ) : Prop := ∃ e ∈ edges, e.source = a ∧ e.target = b

/-- What a decomposition into strongly connected components is. -/
structure IsScc (nodes : List ℕ) (edges : List GraphEdge) (components : List (List ℕ)) : Prop where
  same : ∀ a ∈ nodes, ∀ b ∈ nodes, (∃ c ∈ components, a ∈ c ∧ b ∈ c) ↔
    ReflTransGen (Leads edges) a b ∧ ReflTransGen (Leads edges) b a
  within : ∀ c ∈ components, ∀ a ∈ c, a ∈ nodes

theorem rel_identity_iff (x y : Position) : BitDependency.identity.Rel x y ↔ x = y := by
  simp only [BitDependency.identity, BitDependency.Rel, mem_some_iff, forall_eq',
    Int.add_zero, Prod.ext_iff]
  tauto

theorem admits_of_isUnconditional {c : PathCondition} (h : c.isUnconditional) (v : Valuation) :
    c.Admits v := by
  intro b a ha
  have hnil : c.constraints = [] := List.isEmpty_iff.1 h
  have hmem := PathCondition.allowed_eq_some.1 ha
  rw [hnil] at hmem
  cases hmem

@[simp] theorem mem_outgoing : e ∈ outgoing edges n ↔ e ∈ edges ∧ e.source = n := by
  simp [outgoing]

@[simp] theorem mem_incoming : e ∈ incoming edges n ↔ e ∈ edges ∧ e.target = n := by
  simp [incoming]

theorem mapM_eq_map {α β : Type} {f : α → Option β} {f' : α → β} {l : List α}
    (h : ∀ a ∈ l, f a = some (f' a)) : l.mapM f = some (l.map f') := by
  induction l with
  | nil => rfl
  | cons a l ih =>
    rw [mapM_cons, h a (by simp), ih fun b hb => h b (by simp [hb])]
    rfl

namespace DependencyGraph

variable {g : DependencyGraph}

/-- A closure over the nodes of the graph, from the nodes with a property. -/
theorem mem_closure_range {p : ℕ → Prop} [DecidablePred p] {next : ℕ → List ℕ}
    {R : ℕ → ℕ → Prop} {k : ℕ} (hnext : ∀ a b, b ∈ next a ↔ R a b) (hlt : ∀ a b, R a b → b < k) :
    n ∈ closeLoop next k ((range k).filter p, (range k).filter p) ↔
      ∃ s, s < k ∧ p s ∧ ReflTransGen R s n := by
  have hclosure := @mem_closure _ _ next ((range k).filter p) (range k) (nodup_range.filter _)
    (fun z hz => (mem_filter.1 hz).1)
    (fun z _ y hy => mem_range.2 (hlt z y ((hnext z y).1 hy))) n
  rw [length_range] at hclosure
  refine hclosure.trans ?_
  have hR : (fun a b => b ∈ next a) = R := funext₂ fun a b => propext (hnext a b)
  simp [hR, and_assoc]

theorem mem_reachable_forward {p : ℕ → Prop} [DecidablePred p] :
    n ∈ g.reachable ((range g.nodes.length).filter p) true ↔
      ∃ s, s < g.nodes.length ∧ p s ∧ ReflTransGen (Leads g.edges) s n :=
  mem_closure_range (R := Leads g.edges) (by simp [Leads, and_assoc]) fun a b ⟨e, he, _, hb⟩ =>
    hb ▸ g.target_lt e he

theorem mem_reachable_backward {p : ℕ → Prop} [DecidablePred p] :
    n ∈ g.reachable ((range g.nodes.length).filter p) false ↔
      ∃ t, t < g.nodes.length ∧ p t ∧ ReflTransGen (Leads g.edges) n t := by
  simp only [← reflTransGen_swap (r := Leads g.edges)]
  refine mem_closure_range (R := Function.swap (Leads g.edges)) (fun a b => ?_)
    fun a b ⟨e, he, hb, _⟩ => hb ▸ g.source_lt e he
  simp only [Function.swap, Leads, Bool.false_eq_true, if_false, List.mem_map, mem_incoming]
  grind

section Summarize

variable {kind : ℕ → SummaryNodeKind} {scc : List ℕ → List GraphEdge → List (List ℕ)}

/-- The nodes where a walk across the boundary may start. -/
def IsSource (kind : ℕ → SummaryNodeKind) (n : ℕ) : Prop := kind n = .input ∨ kind n = .interface

/-- The nodes where a walk across the boundary may end. -/
def IsDestination (kind : ℕ → SummaryNodeKind) (n : ℕ) : Prop :=
  kind n = .output ∨ kind n = .interface

theorem mem_retainedNodes : n ∈ g.retainedNodes kind ↔ n < g.nodes.length ∧
    (∃ s, s < g.nodes.length ∧ IsSource kind s ∧ ReflTransGen (Leads g.edges) s n) ∧
    ∃ t, t < g.nodes.length ∧ IsDestination kind t ∧ ReflTransGen (Leads g.edges) n t := by
  rw [retainedNodes, mem_filter, decide_eq_true_eq, mem_range, sources, destinations,
    mem_reachable_forward, mem_reachable_backward]
  rfl

theorem mem_retainedEdges : e ∈ g.retainedEdges kind ↔
    e ∈ g.edges ∧ e.source ∈ g.retainedNodes kind ∧ e.target ∈ g.retainedNodes kind := by
  simp [retainedEdges]

theorem leads_of_moves {domains : ℕ → List PositionDomain} (h : Moves edges domains v p q) :
    Leads edges p.1 q.1 := by
  obtain ⟨e, he, hs, ht, -⟩ := h
  exact ⟨e, he, hs, ht⟩

theorem moves_retained (h : ReflTransGen (Moves g.edges g.domains v) p q)
    (hp : ∃ s, s < g.nodes.length ∧ IsSource kind s ∧ ReflTransGen (Leads g.edges) s p.1)
    (hq : q.1 < g.nodes.length ∧ IsDestination kind q.1) :
    ReflTransGen (Moves (g.retainedEdges kind) g.domains v) p q := by
  have reaches : ∀ {p q : ℕ × Position}, ReflTransGen (Moves g.edges g.domains v) p q →
      ReflTransGen (Leads g.edges) p.1 q.1 := fun h => h.lift Prod.fst fun _ _ => leads_of_moves
  induction h using ReflTransGen.head_induction_on with
  | refl => exact .refl
  | head hstep hrest ih =>
    obtain ⟨s, hs, hsource, hpath⟩ := hp
    have hpath' := hpath.tail (leads_of_moves hstep)
    have hback := reaches hrest
    have hback' := hback.head (leads_of_moves hstep)
    obtain ⟨e, he, hes, het, hrel⟩ := hstep
    refine .head ⟨e, mem_retainedEdges.2 ⟨he, ?_, ?_⟩, hes, het, hrel⟩ (ih ⟨s, hs, hsource, hpath'⟩)
    · exact mem_retainedNodes.2 ⟨g.source_lt e he, ⟨s, hs, hsource, hes ▸ hpath⟩, _, hq.1, hq.2,
        hes ▸ hback'⟩
    · exact mem_retainedNodes.2 ⟨g.target_lt e he, ⟨s, hs, hsource, het ▸ hpath'⟩, _, hq.1, hq.2,
        het ▸ hback⟩

theorem moves_of_retained
    (h : Moves (g.retainedEdges kind) g.domains v p q) : Moves g.edges g.domains v p q := by
  obtain ⟨e, he, h⟩ := h
  exact ⟨e, (mem_retainedEdges.1 he).1, h⟩

theorem mem_keptNodes : n ∈ g.keptNodes kind scc ↔
    n ∈ g.retainedNodes kind ∧ g.kept kind scc n := by
  simp [keptNodes]

theorem mem_cyclic (hscc : IsScc (g.retainedNodes kind) (g.retainedEdges kind)
    (scc (g.retainedNodes kind) (g.retainedEdges kind))) (hn : n ∈ g.retainedNodes kind)
    (hcycle : TransGen (Leads (g.retainedEdges kind)) n n) : n ∈ g.cyclic kind scc := by
  obtain ⟨b, ⟨e, he, hes, het⟩, hback⟩ := TransGen.head'_iff.1 hcycle
  have hb : b ∈ g.retainedNodes kind := het ▸ (mem_retainedEdges.1 he).2.2
  obtain ⟨c, hc, hnc, hbc⟩ := (hscc.same n hn b hb).2 ⟨.single ⟨e, he, hes, het⟩, hback⟩
  refine mem_flatMap.2 ⟨c, hc, ?_⟩
  rw [if_pos]
  · exact hnc
  by_cases hlen : 1 < c.length
  · exact .inl hlen
  · -- a component of one node has its edge to itself
    obtain ⟨a, rfl⟩ := length_eq_one_iff.1
      (Nat.le_antisymm (not_lt.1 hlen) (length_pos_of_mem hnc))
    obtain rfl := mem_singleton.1 hnc
    obtain rfl := mem_singleton.1 hbc
    right
    simp only [head?_cons, any_some, List.any_eq_true, mem_outgoing, decide_eq_true_eq]
    exact ⟨e, ⟨he, hes⟩, het⟩

/-- An omitted node: one edge in, one identity out, on no cycle, and bounds only
where its predecessor enforces them. -/
structure Omitted (g : DependencyGraph) (kind : ℕ → SummaryNodeKind)
    (scc : List ℕ → List GraphEdge → List (List ℕ)) (n : ℕ) (before after : GraphEdge) : Prop where
  internal : kind n = .internal
  acyclic : n ∉ g.cyclic kind scc
  incoming : incoming (g.retainedEdges kind) n = [before]
  outgoing : outgoing (g.retainedEdges kind) n = [after]
  identity : after.kind = BitDependency.identity
  unconditional : after.condition.isUnconditional
  domains : g.domains n = [] ∨
    before.kind = BitDependency.identity ∧ g.domains n = g.domains before.source

theorem omitted_of_not_kept (hn : n ∈ g.retainedNodes kind)
    (hk : n ∉ g.keptNodes kind scc) : ∃ before after, Omitted g kind scc n before after := by
  have hk : g.kept kind scc n = false := by
    by_contra h
    exact hk (mem_keptNodes.2 ⟨hn, by simpa using h⟩)
  simp only [kept, Bool.or_eq_false_iff, decide_eq_false_iff_not, not_not, Bool.not_eq_false',
    ne_eq] at hk
  obtain ⟨⟨⟨⟨⟨hkind, hcyc⟩, hdom⟩, hin⟩, hout⟩, htrans⟩ := hk
  obtain ⟨before, hbefore⟩ := length_eq_one_iff.1 hin
  obtain ⟨after, hafter⟩ := length_eq_one_iff.1 hout
  rw [hafter] at htrans
  simp only [head?_cons, any_some, Bool.and_eq_true, decide_eq_true_eq] at htrans
  refine ⟨before, after, hkind, hcyc, hbefore, hafter, htrans.1, htrans.2, ?_⟩
  simp only [redundantDomain, hbefore, length_singleton, head?_cons, any_some,
    Bool.or_eq_true, Bool.and_eq_true, decide_eq_true_eq, List.isEmpty_iff] at hdom
  exact hdom.imp id And.right

theorem follow_kept (hk : n ∈ g.keptNodes kind scc) : g.follow kind scc turns n = some n := by
  cases turns <;> simp [follow, hk]

theorem follow_omitted (hk : n ∉ g.keptNodes kind scc) (h : Omitted g kind scc n before after) :
    g.follow kind scc (turns + 1) n = g.follow kind scc turns after.target := by
  simp [follow, hk, h.outgoing]

theorem mem_of_follow (h : g.follow kind scc turns n = some t) : t ∈ g.keptNodes kind scc := by
  induction turns generalizing n with
  | zero =>
    simp only [follow, ite_none_right_eq_some, some.injEq] at h
    exact h.2 ▸ h.1
  | succ turns ih =>
    rw [follow] at h
    split at h
    · rename_i hk
      exact some.inj h ▸ hk
    · obtain ⟨next, -, h⟩ := bind_eq_some_iff.1 h
      exact ih h

theorem follow_succ (h : g.follow kind scc turns n = some t) :
    g.follow kind scc (turns + 1) n = some t := by
  induction turns generalizing n with
  | zero =>
    simp only [follow, ite_none_right_eq_some] at h
    simp [follow, h.1, h.2]
  | succ turns ih =>
    rw [follow] at h ⊢
    split at h
    · rename_i hk
      rw [if_pos hk]
      exact h
    · rename_i hk
      rw [if_neg hk]
      obtain ⟨next, hnext, h⟩ := bind_eq_some_iff.1 h
      exact bind_eq_some_iff.2 ⟨next, hnext, ih h⟩

theorem follow_le {turns' : ℕ} (hle : turns ≤ turns')
    (h : g.follow kind scc turns n = some t) : g.follow kind scc turns' n = some t := by
  induction hle with
  | refl => exact h
  | step _ ih => exact follow_succ ih

theorem omitted_target (h : Omitted g kind scc n before after) :
    after ∈ g.retainedEdges kind ∧ after.source = n ∧ after.target ∈ g.retainedNodes kind := by
  have hmem : after ∈ outgoing (g.retainedEdges kind) n := by simp [h.outgoing]
  obtain ⟨he, hs⟩ := mem_outgoing.1 hmem
  exact ⟨he, hs, (mem_retainedEdges.1 he).2.2⟩

section

variable (hscc : IsScc (g.retainedNodes kind) (g.retainedEdges kind)
  (scc (g.retainedNodes kind) (g.retainedEdges kind)))

include hscc

theorem follow_isSome (turns n : ℕ) (visited : List ℕ)
    (hn : n ∈ g.retainedNodes kind) (hnodup : visited.Nodup)
    (hvisited : ∀ a ∈ visited, a ∈ g.retainedNodes kind ∧
      TransGen (Leads (g.retainedEdges kind)) a n)
    (hlen : (g.retainedNodes kind).length ≤ turns + visited.length) :
    (g.follow kind scc turns n).isSome := by
  induction turns generalizing n visited with
  | zero =>
    by_cases hk : n ∈ g.keptNodes kind scc
    · simp [follow, hk]
    obtain ⟨before, after, homit⟩ := omitted_of_not_kept hn hk
    have hnew : n ∉ visited := fun h => homit.acyclic (mem_cyclic hscc hn (hvisited n h).2)
    have hle := ((nodup_cons.2 ⟨hnew, hnodup⟩).subperm fun a ha => by
      rcases mem_cons.1 ha with rfl | ha
      · exact hn
      · exact (hvisited a ha).1).length_le
    simp only [length_cons] at hle
    omega
  | succ turns ih =>
    by_cases hk : n ∈ g.keptNodes kind scc
    · simp [follow, hk]
    obtain ⟨before, after, homit⟩ := omitted_of_not_kept hn hk
    obtain ⟨he, hs, ht⟩ := omitted_target homit
    have hnew : n ∉ visited := fun h => homit.acyclic (mem_cyclic hscc hn (hvisited n h).2)
    have hstep : Leads (g.retainedEdges kind) n after.target := ⟨after, he, hs, rfl⟩
    rw [follow_omitted hk homit]
    refine ih after.target (n :: visited) ht (nodup_cons.2 ⟨hnew, hnodup⟩)
      (fun a ha => ?_) (by simp only [length_cons]; omega)
    rcases mem_cons.1 ha with rfl | ha
    · exact ⟨hn, .single hstep⟩
    · exact ⟨(hvisited a ha).1, (hvisited a ha).2.tail hstep⟩

theorem follow_complete (hn : n ∈ g.retainedNodes kind) (h : g.follow kind scc turns n = some t) :
    g.follow kind scc (g.retainedNodes kind).length n = some t := by
  obtain ⟨t', ht'⟩ := isSome_iff_exists.1
    (follow_isSome hscc _ n [] hn .nil (by simp) (Nat.le_refl _))
  have h₁ := follow_le (Nat.le_max_left turns (g.retainedNodes kind).length) h
  have h₂ := follow_le (Nat.le_max_right turns (g.retainedNodes kind).length) ht'
  rw [ht', some.inj (h₁.symm.trans h₂)]

end

theorem moves_of_follow (h : g.follow kind scc turns n = some t) (he : e ∈ g.retainedEdges kind)
    (hen : e.target = n) {x z : Position}
    (hx : InDomains (g.domains e.source) x) (hrel : e.kind.Rel x z)
    (ht : InDomains (g.domains t) z) :
    InDomains (g.domains n) z ∧ ReflTransGen (Moves (g.retainedEdges kind) g.domains v) (n, z) (t, z) := by
  induction turns generalizing n e x with
  | zero =>
    simp only [follow, ite_none_right_eq_some, some.injEq] at h
    obtain rfl := h.2
    exact ⟨ht, .refl⟩
  | succ turns ih =>
    by_cases hk : n ∈ g.keptNodes kind scc
    · rw [follow_kept hk] at h
      obtain rfl := some.inj h
      exact ⟨ht, .refl⟩
    · have hn : n ∈ g.retainedNodes kind := hen ▸ (mem_retainedEdges.1 he).2.2
      obtain ⟨before, after, homit⟩ := omitted_of_not_kept hn hk
      obtain ⟨hafter, hs, -⟩ := omitted_target homit
      rw [follow_omitted hk homit] at h
      have hbefore : e = before := by
        have : e ∈ incoming (g.retainedEdges kind) n := mem_incoming.2 ⟨he, hen⟩
        simpa [homit.incoming] using this
      have hdomain : InDomains (g.domains n) z := by
        rcases homit.domains with hnil | ⟨hid, hsame⟩
        · exact .inl hnil
        · subst hbefore
          rw [hid, rel_identity_iff] at hrel
          rw [hsame, ← hrel]
          exact hx
      have hafterRel : after.kind.Rel z z := by rw [homit.identity, rel_identity_iff]
      have hrest := ih h hafter rfl (hs.symm ▸ hdomain) hafterRel
      refine ⟨hdomain, .head ⟨after, hafter, hs, rfl, ?_, hafterRel, hrest.1⟩ hrest.2⟩
      exact admits_of_isUnconditional homit.unconditional v

/-- A step between kept nodes: an edge and the series it starts. -/
def Skips (g : DependencyGraph) (kind : ℕ → SummaryNodeKind)
    (scc : List ℕ → List GraphEdge → List (List ℕ)) (v : Valuation) (p q : ℕ × Position) : Prop :=
  ∃ e ∈ g.retainedEdges kind, e.source = p.1 ∧ p.1 ∈ g.keptNodes kind scc ∧
    g.follow kind scc (g.retainedNodes kind).length e.target = some q.1 ∧ e.condition.Admits v ∧
    e.kind.Rel p.2 q.2 ∧ InDomains (g.domains q.1) q.2

theorem moves_of_skips
    (h : ReflTransGen (Skips g kind scc v) p q) (hp : InDomains (g.domains p.1) p.2) :
    InDomains (g.domains q.1) q.2 ∧
      ReflTransGen (Moves (g.retainedEdges kind) g.domains v) p q := by
  induction h with
  | refl => exact ⟨hp, .refl⟩
  | @tail r q _ hstep ih =>
    obtain ⟨e, he, hs, -, hfollow, hadmits, hrel, hq⟩ := hstep
    obtain ⟨hdomain, hmoves⟩ := ih
    have hseries := moves_of_follow (v := v) hfollow he rfl (hs.symm ▸ hdomain) hrel hq
    have hfirst : Moves (g.retainedEdges kind) g.domains v r (e.target, q.2) :=
      ⟨e, he, hs, rfl, hadmits, hrel, hseries.1⟩
    exact ⟨hq, (hmoves.tail hfirst).trans hseries.2⟩

theorem nodup_keptNodes : (g.keptNodes kind scc).Nodup :=
  (nodup_range.filter _).filter _

theorem getElem?_keptNodes {n : ℕ} (hn : n ∈ g.keptNodes kind scc) :
    (g.keptNodes kind scc)[(g.keptNodes kind scc).idxOf n]? = some n :=
  getElem?_idxOf hn

theorem exists_node (hn : n ∈ g.keptNodes kind scc) : ∃ node, g.nodes[n]? = some node :=
  ⟨_, getElem?_eq_getElem (mem_retainedNodes.1 (mem_keptNodes.1 hn).1).1⟩

/-- What a summary of a graph is: its nodes are the kept ones, its edges the
edges out of them with the series they start. -/
structure Summarizes (g : DependencyGraph) (kind : ℕ → SummaryNodeKind)
    (scc : List ℕ → List GraphEdge → List (List ℕ)) (summary : ModuleCombSummary) : Prop where
  nodes : ∀ i : ℕ, summary.nodes[i]? = (g.keptNodes kind scc)[i]?.bind (g.summaryNode kind)
  edges : ∀ e, e ∈ summary.edges ↔ ∃ e' ∈ g.retainedEdges kind, e'.source ∈ g.keptNodes kind scc ∧
    ∃ t, g.follow kind scc (g.retainedNodes kind).length e'.target = some t ∧
      e = ⟨(g.keptNodes kind scc).idxOf e'.source, (g.keptNodes kind scc).idxOf t, e'.kind,
        e'.condition⟩

theorem getElem?_filterMap_of_isSome {α β : Type} {f : α → Option β} {l : List α}
    (h : ∀ a ∈ l, (f a).isSome) (i : ℕ) : (l.filterMap f)[i]? = l[i]?.bind f := by
  induction l generalizing i with
  | nil => simp
  | cons a l ih =>
    obtain ⟨b, hb⟩ := isSome_iff_exists.1 (h a (by simp))
    rw [filterMap_cons_some hb]
    cases i with
    | zero => simp [hb]
    | succ i => simpa using ih (fun a ha => h a (by simp [ha])) i

section

variable (hscc : IsScc (g.retainedNodes kind) (g.retainedEdges kind)
  (scc (g.retainedNodes kind) (g.retainedEdges kind)))

include hscc

theorem skips_of_moves (h : ReflTransGen (Moves (g.retainedEdges kind) g.domains v) p q)
    (hp : p.1 ∈ g.keptNodes kind scc) :
    if q.1 ∈ g.keptNodes kind scc then ReflTransGen (Skips g kind scc v) p q
    else ∃ r, ∃ e ∈ g.retainedEdges kind, ReflTransGen (Skips g kind scc v) p r ∧
      e.source = r.1 ∧ r.1 ∈ g.keptNodes kind scc ∧ e.condition.Admits v ∧ e.kind.Rel r.2 q.2 ∧
      ∀ turns t, g.follow kind scc turns q.1 = some t →
        ∃ turns, g.follow kind scc turns e.target = some t := by
  induction h with
  | refl =>
    rw [if_pos hp]
  | @tail r q _ hstep ih =>
    obtain ⟨e, he, hs, ht, hadmits, hrel, hdomain⟩ := hstep
    by_cases hr : r.1 ∈ g.keptNodes kind scc
    · rw [if_pos hr] at ih
      split
      · rename_i hq
        refine ih.tail ⟨e, he, hs, hr, ?_, hadmits, hrel, hdomain⟩
        rw [ht]
        exact follow_kept hq
      · exact ⟨r, e, he, ih, hs, hr, hadmits, hrel, fun turns t h => ⟨turns, ht ▸ h⟩⟩
    · rw [if_neg hr] at ih
      obtain ⟨r', e', he', hskips, hs', hr', hadmits', hrel', hends⟩ := ih
      -- the only way out of an omitted node keeps the position
      have hrmem : r.1 ∈ g.retainedNodes kind := hs ▸ (mem_retainedEdges.1 he).2.1
      obtain ⟨before, after, homit⟩ := omitted_of_not_kept hrmem hr
      have heq : e = after := by
        have : e ∈ outgoing (g.retainedEdges kind) r.1 := mem_outgoing.2 ⟨he, hs⟩
        simpa [homit.outgoing] using this
      subst heq
      rw [homit.identity, rel_identity_iff] at hrel
      have hends' : ∀ turns t, g.follow kind scc turns q.1 = some t →
          ∃ turns, g.follow kind scc turns e'.target = some t := by
        intro turns t h
        refine hends (turns + 1) t ?_
        rw [follow_omitted hr homit, ht]
        exact h
      split
      · rename_i hq
        obtain ⟨turns, hfollow⟩ := hends' 0 q.1 (follow_kept hq)
        exact hskips.tail ⟨e', he', hs', hr',
          follow_complete hscc (mem_retainedEdges.1 he').2.2 hfollow, hadmits', hrel ▸ hrel', hdomain⟩
      · exact ⟨r', e', he', hskips, hs', hr', hadmits', hrel ▸ hrel', hends'⟩

theorem summarizes :
    ∃ summary, g.summarizeGraph kind scc = some summary ∧ Summarizes g kind scc summary := by
  have hends : ∀ e ∈ (g.keptNodes kind scc).flatMap (outgoing (g.retainedEdges kind)),
      ∃ t, g.follow kind scc (g.retainedNodes kind).length e.target = some t := by
    intro e he
    obtain ⟨n, -, he⟩ := mem_flatMap.1 he
    have hmem := (mem_retainedEdges.1 (mem_outgoing.1 he).1).2.2
    exact isSome_iff_exists.1 (follow_isSome hscc _ _ [] hmem .nil (by simp) (Nat.le_refl _))
  have hfollow : ∀ e ∈ (g.keptNodes kind scc).flatMap (outgoing (g.retainedEdges kind)),
      (g.follow kind scc (g.retainedNodes kind).length e.target >>= fun node =>
        pure (⟨(g.keptNodes kind scc).idxOf e.source, (g.keptNodes kind scc).idxOf node, e.kind,
          e.condition⟩ : GraphEdge)) =
      some ⟨(g.keptNodes kind scc).idxOf e.source, (g.keptNodes kind scc).idxOf
        ((g.follow kind scc (g.retainedNodes kind).length e.target).getD 0), e.kind,
        e.condition⟩ := by
    intro e he
    obtain ⟨t, ht⟩ := hends e he
    rw [ht]
    rfl
  have hsummary : g.summarizeGraph kind scc = some ⟨(g.keptNodes kind scc).filterMap
      (g.summaryNode kind), ((((g.keptNodes kind scc).flatMap
        (outgoing (g.retainedEdges kind))).map fun e => ⟨(g.keptNodes kind scc).idxOf e.source,
          (g.keptNodes kind scc).idxOf
            ((g.follow kind scc (g.retainedNodes kind).length e.target).getD 0), e.kind,
          e.condition⟩).insertionSort fun e e' => edgeKey e ≤ edgeKey e').dedup, true⟩ := by
    simp only [summarizeGraph]
    rw [mapM_eq_map hfollow]
    rfl
  refine ⟨_, hsummary, ?_, ?_⟩
  · intro i
    refine getElem?_filterMap_of_isSome (fun n hn => ?_) i
    obtain ⟨node, hnode⟩ := exists_node hn
    simp [summaryNode, hnode]
  · intro e
    simp only [List.mem_dedup, mem_insertionSort, List.mem_map, mem_flatMap]
    constructor
    · rintro ⟨e', ⟨n, hn, he'⟩, rfl⟩
      obtain ⟨t, ht⟩ := hends e' (mem_flatMap.2 ⟨n, hn, he'⟩)
      obtain ⟨hmem, rfl⟩ := mem_outgoing.1 he'
      exact ⟨e', hmem, hn, t, ht, by rw [ht]; rfl⟩
    · rintro ⟨e', he', hs, t, ht, rfl⟩
      exact ⟨e', ⟨e'.source, hs, mem_outgoing.2 ⟨he', rfl⟩⟩, by rw [ht]; rfl⟩

end

end Summarize
end DependencyGraph

def ModuleCombSummary.domains (summary : ModuleCombSummary) (i : ℕ) : List PositionDomain :=
  (summary.nodes[i]?.map (·.domains)).getD []

namespace DependencyGraph

variable {g : DependencyGraph} {kind : ℕ → SummaryNodeKind}
  {scc : List ℕ → List GraphEdge → List (List ℕ)} {summary : ModuleCombSummary} {v : Valuation}

theorem domains_idxOf (h : Summarizes g kind scc summary) (hn : n ∈ g.keptNodes kind scc) :
    summary.domains ((g.keptNodes kind scc).idxOf n) = g.domains n := by
  obtain ⟨node, hnode⟩ := exists_node hn
  simp [ModuleCombSummary.domains, h.nodes, getElem?_keptNodes hn, summaryNode, hnode, domains]

theorem moves_summary_iff (h : Summarizes g kind scc summary) (hp : p.1 ∈ g.keptNodes kind scc) :
    ReflTransGen (Moves summary.edges summary.domains v) ((g.keptNodes kind scc).idxOf p.1, p.2) q ↔
      ∃ t ∈ g.keptNodes kind scc, q.1 = (g.keptNodes kind scc).idxOf t ∧
        ReflTransGen (Skips g kind scc v) p (t, q.2) := by
  constructor
  · intro hwalk
    induction hwalk with
    | refl => exact ⟨p.1, hp, rfl, .refl⟩
    | @tail r q _ hstep ih =>
      obtain ⟨n, hn, hr, hskips⟩ := ih
      obtain ⟨e, he, hs, ht, hadmits, hrel, hdomain⟩ := hstep
      obtain ⟨e', he', hs', t, hfollow, rfl⟩ := (h.edges e).1 he
      have htmem := mem_of_follow hfollow
      have hsn : e'.source = n := idxOf_inj hs' |>.1 (hs.trans hr)
      rw [← ht, domains_idxOf h htmem] at hdomain
      exact ⟨t, htmem, ht.symm, hskips.tail ⟨e', he', hsn, hn, hfollow, hadmits, hrel, hdomain⟩⟩
  · rintro ⟨t, ht, hq, hskips⟩
    have hmap : ∀ {r q : ℕ × Position}, Skips g kind scc v r q →
        Moves summary.edges summary.domains v ((g.keptNodes kind scc).idxOf r.1, r.2)
          ((g.keptNodes kind scc).idxOf q.1, q.2) := by
      rintro r q ⟨e, he, hs, hr, hfollow, hadmits, hrel, hdomain⟩
      refine ⟨_, (h.edges _).2 ⟨e, he, hs ▸ hr, q.1, hfollow, rfl⟩, by rw [hs], rfl, hadmits, hrel, ?_⟩
      rwa [domains_idxOf h (mem_of_follow hfollow)]
    have hlift := hskips.lift (fun r : ℕ × Position => ((g.keptNodes kind scc).idxOf r.1, r.2))
      fun _ _ => hmap
    rwa [show q = ((g.keptNodes kind scc).idxOf t, q.2) from Prod.ext hq rfl]

/-- A summary joins the positions of boundary nodes that its graph joins, for
every choice of the branches; the series that are left out always end. -/
theorem summarizeGraph_exact (g : DependencyGraph) (kind : ℕ → SummaryNodeKind)
    (scc : List ℕ → List GraphEdge → List (List ℕ))
    (hscc : IsScc (g.retainedNodes kind) (g.retainedEdges kind)
      (scc (g.retainedNodes kind) (g.retainedEdges kind))) :
    ∃ summary, g.summarizeGraph kind scc = some summary ∧
      (∀ i : ℕ, summary.nodes[i]? = (g.keptNodes kind scc)[i]?.bind (g.summaryNode kind)) ∧
      ∀ (v : Valuation) (s t : ℕ), s < g.nodes.length → t < g.nodes.length →
        IsSource kind s → IsDestination kind t → ∀ x y, Joins g.edges g.domains v (s, x) (t, y) ↔
            ∃ i j, (g.keptNodes kind scc)[i]? = some s ∧ (g.keptNodes kind scc)[j]? = some t ∧
              Joins summary.edges summary.domains v (i, x) (j, y) := by
  obtain ⟨summary, hsummary, h⟩ := summarizes hscc
  refine ⟨summary, hsummary, h.nodes, fun v s t hs ht hsource hdest x y => ?_⟩
  have hindex : ∀ {i n}, (g.keptNodes kind scc)[i]? = some n →
      n ∈ g.keptNodes kind scc ∧ i = (g.keptNodes kind scc).idxOf n := by
    intro i n hi
    obtain ⟨hlt, rfl⟩ := List.getElem?_eq_some_iff.1 hi
    exact ⟨getElem_mem hlt, (List.Nodup.idxOf_getElem nodup_keptNodes i hlt).symm⟩
  have hkept : ∀ {n}, n ∈ g.retainedNodes kind → kind n ≠ .internal →
      n ∈ g.keptNodes kind scc := fun hn hkind =>
    mem_keptNodes.2 ⟨hn, by simp [kept, hkind]⟩
  constructor
  · rintro ⟨hdomain, hwalk⟩
    have hreach : ReflTransGen (Leads g.edges) s t :=
      hwalk.lift Prod.fst fun _ _ => leads_of_moves
    have hsmem : s ∈ g.keptNodes kind scc := by
      refine hkept (mem_retainedNodes.2 ⟨hs, ⟨s, hs, hsource, .refl⟩, t, ht, hdest, hreach⟩) ?_
      rcases hsource with hk | hk <;> simp [hk]
    have htmem : t ∈ g.keptNodes kind scc := by
      refine hkept (mem_retainedNodes.2 ⟨ht, ⟨s, hs, hsource, hreach⟩, t, ht, hdest, .refl⟩) ?_
      rcases hdest with hk | hk <;> simp [hk]
    have hretained := moves_retained hwalk ⟨s, hs, hsource, .refl⟩ ⟨ht, hdest⟩
    have hskips := skips_of_moves hscc hretained hsmem
    rw [if_pos htmem] at hskips
    refine ⟨_, _, getElem?_keptNodes hsmem, getElem?_keptNodes htmem, ?_, ?_⟩
    · rwa [domains_idxOf h hsmem]
    · exact (moves_summary_iff h hsmem (p := (s, x)) (q := (_, y))).2 ⟨t, htmem, rfl, hskips⟩
  · rintro ⟨i, j, hi, hj, hdomain, hwalk⟩
    obtain ⟨hsmem, rfl⟩ := hindex hi
    obtain ⟨htmem, rfl⟩ := hindex hj
    rw [domains_idxOf h hsmem] at hdomain
    obtain ⟨t', ht', heq, hskips⟩ := (moves_summary_iff h hsmem (p := (s, x))).1 hwalk
    obtain rfl := (idxOf_inj htmem).1 heq
    refine ⟨hdomain, ?_⟩
    exact (moves_of_skips hskips hdomain).2.lift id fun _ _ => moves_of_retained

/-- A copy in series between an input and an output is left out. -/
theorem summarizeGraph_exact_copy : let node : GraphNode := ⟨⟨0, ⟨0, 1⟩, ⟨0, 1⟩⟩, []⟩
    let g : DependencyGraph := ⟨[node, node, node],
      [⟨0, 1, .identity, .unconditional⟩, ⟨1, 2, .identity, .unconditional⟩], by decide, by decide⟩
    let kind : ℕ → SummaryNodeKind := fun n => if n = 0 then .input else
      if n = 1 then .internal else .output
    ∃ summary, g.summarizeGraph kind (fun _ _ => [[2], [1], [0]]) = some summary ∧
      ∀ v x, ∃ i j, (g.keptNodes kind fun _ _ => [[2], [1], [0]])[i]? = some 0 ∧
        (g.keptNodes kind fun _ _ => [[2], [1], [0]])[j]? = some 2 ∧
          Joins summary.edges summary.domains v (i, x) (j, x) := by
  intro node g kind
  have hedges : g.retainedEdges kind = g.edges := by decide +kernel
  have hnodes : g.retainedNodes kind = [0, 1, 2] := by decide +kernel
  have hscc : IsScc (g.retainedNodes kind) (g.retainedEdges kind) [[2], [1], [0]] := by
    -- every edge leads to a higher index, so only a node itself leads back
    have hup : ∀ {a b}, ReflTransGen (Leads (g.retainedEdges kind)) a b → a ≤ b := by
      intro a b h
      induction h with
      | refl => exact Nat.le_refl a
      | tail _ hstep ih =>
        obtain ⟨e, he, rfl, rfl⟩ := hstep
        rw [hedges] at he
        have : ∀ e ∈ g.edges, e.source < e.target := by decide
        exact ih.trans (this e he).le
    rw [hnodes]
    refine ⟨fun a ha b hb => ⟨?_, fun ⟨hab, hba⟩ => ?_⟩, by simp⟩
    · intro h
      obtain rfl : a = b := by
        obtain ⟨c, hc, hac, hbc⟩ := h
        simp only [mem_cons, not_mem_nil, or_false] at hc
        rcases hc with rfl | rfl | rfl <;> simp_all
      exact ⟨.refl, .refl⟩
    · obtain rfl := Nat.le_antisymm (hup hab) (hup hba)
      simp only [mem_cons, not_mem_nil, or_false] at ha
      rcases ha with rfl | rfl | rfl <;> simp
  obtain ⟨summary, hsummary, -, hjoins⟩ := summarizeGraph_exact g kind (fun _ _ => [[2], [1], [0]]) hscc
  refine ⟨summary, hsummary, fun v x => ?_⟩
  refine (hjoins v 0 2 (by decide) (by decide) (.inl rfl) (.inl rfl) x x).1 ⟨.inl rfl, ?_⟩
  have hid : BitDependency.identity.Rel x x := (rel_identity_iff x x).2 rfl
  have hfree : ∀ n, g.domains n = [] := by
    intro n
    match n with
    | 0 | 1 | 2 => rfl
    | n + 3 => rfl
  have hadmits := PathCondition.admits_unconditional (v := v)
  refine .head (b := (1, x)) ⟨_, mem_cons_self, rfl, rfl, hadmits, hid, .inl (hfree 1)⟩ ?_
  exact .single ⟨_, mem_cons_of_mem _ mem_cons_self, rfl, rfl, hadmits, hid, .inl (hfree 2)⟩

end DependencyGraph
end Veryl.Analyzer.CombLoopDetect
