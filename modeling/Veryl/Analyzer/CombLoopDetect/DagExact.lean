import Veryl.Analyzer.CombLoopDetect.DagBuilder

/-!
Imports share what they can and still give every node the sources that the
unshared graph gives it.
-/

namespace Veryl.Analyzer.CombLoopDetect

open Veryl.Library List Option

variable {α β : Type} {child : ℕ}

variable {K : Type} [DecidableEq K] {v : Valuation} {count graph root : ℕ}

theorem lookup_map {γ : Type} [DecidableEq α] (f : β → γ) (entries : List (α × β)) (key : α) :
    lookup (entries.map fun e => (e.1, f e.2)) key = (lookup entries key).map f := by
  induction entries with
  | nil => rfl
  | cons e entries ih =>
    rw [map_cons, lookup_cons, lookup_cons, ih]
    split <;> rfl

theorem lookup_cons_isSome [DecidableEq α] {key key' : α} {b : β}
    {entries : List (α × β)} (h : key = key' ∨ (lookup entries key').isSome) :
    (lookup ((key, b) :: entries) key').isSome := by
  rw [lookup_cons]
  by_cases heq : key = key'
  · rw [if_pos heq]
    rfl
  · rw [if_neg heq]
    exact h.resolve_left heq

/-- A node of the unshared graph: a step, or a child of the graph that a step
imports. -/
inductive ExpandedNode where
  | step (i : ℕ)
  | child (i c : ℕ)

/-- Every step has a node of its own and every import a copy of its graph. -/
def expanded (heap : Heap K) (ops : List (Op K)) (v : Valuation) :
    Flow ExpandedNode (K × BitPosition) where
  base n p s := match n with
    | .step i => ∃ key, ops[i]? = some (.external key) ∧ s = (key, p)
    | .child _ _ => False
  edge m n r := match n with
    | .step i => match ops[i]? with
      | some (.operation inputs _ _ _) =>
        ∃ input ∈ inputs, m = .step input.1 ∧ r = input.2.1 ∧ input.2.2.Admits v
      | some (.inline _ (some root) _ _) => m = .child i root ∧ r = .identity
      | _ => False
    | .child i c => match ops[i]? with
      | some (.inline graph _ bindings branches) =>
        (∃ e ∈ (heap.graph graph).edges, m = .child i e.source ∧ e.destination = c ∧
          r = e.relation ∧ (e.condition.remapped (heap.branches branches)).Admits v) ∨
        ∃ key, (heap.graph graph).nodes[c]? = some (.external key) ∧
          ∃ sources, lookup (heap.bindings bindings) key = some sources ∧
            ∃ source ∈ sources, m = .step source.1 ∧ r = source.2
      | _ => False
  domains n := match n with
    | .step i => match ops[i]? with
      | some (.operation _ domains _ _) => domains
      | _ => []
    | .child i c => match ops[i]? with
      | some (.inline graph _ _ _) => (heap.graph graph).domain c
      | _ => []
  replication n := match n with
    | .step i => match ops[i]? with
      | some (.operation _ _ _ replication) => replication
      | _ => none
    | .child i c => match ops[i]? with
      | some (.inline graph _ _ _) => (heap.graph graph).replication c
      | _ => none

namespace Builder

variable {b : Builder K}

omit [DecidableEq K] in
theorem builds_external (hb : b.Ok) (key : K) : (b.external key).2.Ok ∧
    b.graph.Grows (b.external key).2.graph ∧
    (b.external key).1 < (b.external key).2.graph.nodes.length ∧
    ∀ v p s, ((b.external key).2.graph.flow v).Sources (b.external key).1 p s ↔ s = (key, p) := by
  have hgrows : b.graph.Grows (b.external key).2.graph := by
    refine ⟨by simp [external], fun n hn => ?_, fun n hn => ?_, fun e _ => Iff.rfl, fun _ _ => rfl⟩
    · simp [external, List.getElem?_append_left hn]
    · simp only [external, DependencyDag.domain]
      rw [List.getElem?_append_left (by rwa [hb.ordered.domains])]
  refine ⟨⟨⟨by simp [external, hb.ordered.domains], fun e he => ?_⟩, fun key' n hn => ?_,
    fun n seed hn => ?_⟩, hgrows, by simp [external], fun v p s => ?_⟩
  · have := hb.ordered.forward e he
    simp only [external, length_append, length_singleton]
    omega
  · exact hgrows.isNode (hb.interned key' n hn)
  · obtain ⟨hlt, key', hinputs, hnode⟩ := hb.seeds n seed hn
    exact ⟨hlt.trans_le hgrows.length, key', hinputs, hgrows.isNode hnode⟩
  · have hnode : (b.external key).2.graph.nodes[b.graph.nodes.length]? = some (.external key) := by
      simp [external]
    constructor
    · intro h
      cases h with
      | base _ hbase =>
        obtain ⟨key', hkey, rfl⟩ := hbase
        cases hnode.symm.trans hkey
        rfl
      | edge _ hedge _ _ =>
        obtain ⟨e, he, -, hd, -⟩ := hedge
        have := (hb.ordered.forward e he).2
        simp only [external] at hd
        omega
      | again _ hrep _ _ =>
        simp only [DependencyDag.flow, DependencyDag.replication, external,
          List.getElem?_concat_length] at hrep
        cases hrep
    · rintro rfl
      refine .base (.inl ?_) ⟨key, hnode, rfl⟩
      simp only [DependencyDag.flow, DependencyDag.domain, external]
      rw [← hb.ordered.domains, List.getElem?_concat_length]
      rfl

end Builder

namespace DependencyDag

variable {built built' g : DependencyDag K} {bindings : Bindings K}
  {branches : List (BranchId × BranchId)} {mapped : List (ℕ × ℕ)}

/-- What the sources bound to a key supply. -/
def Bound (built : DependencyDag K) (v : Valuation) (bindings : Bindings K) (key : K)
    (p : BitPosition) (s : K × BitPosition) : Prop :=
  ∃ sources, lookup bindings key = some sources ∧
    ∃ source ∈ sources, ∃ q, source.2.Carries q p ∧ (built.flow v).Sources source.1 q s

/-- The bound sources are nodes. -/
def Binds (built : DependencyDag K) (bindings : Bindings K) : Prop :=
  ∀ b ∈ bindings, ∀ source ∈ b.2, source.1 < built.nodes.length

/-- The imported children have the sources that the graph gives them. -/
def Mapped (built g : DependencyDag K) (bindings : Bindings K)
    (branches : List (BranchId × BranchId)) (mapped : List (ℕ × ℕ)) : Prop :=
  ∀ c n, lookup mapped c = some n → n < built.nodes.length ∧ ∀ v p s,
    (built.flow v).Sources n p s ↔ (g.importFlow branches (built.Bound v bindings) v).Sources c p s

theorem Grows.bound (h : built.Grows built') (hbuilt : built.Ordered)
    (hbinds : built.Binds bindings) : built'.Bound v bindings = built.Bound v bindings := by
  funext key p s
  apply propext
  constructor
  · rintro ⟨sources, hlookup, source, hmem, q, hc, hs⟩
    exact ⟨sources, hlookup, source, hmem, q, hc,
      (h.sources hbuilt (hbinds _ (mem_of_lookup hlookup) _ hmem) q s).1 hs⟩
  · rintro ⟨sources, hlookup, source, hmem, q, hc, hs⟩
    exact ⟨sources, hlookup, source, hmem, q, hc,
      (h.sources hbuilt (hbinds _ (mem_of_lookup hlookup) _ hmem) q s).2 hs⟩

omit [DecidableEq K] in
theorem Grows.binds (h : built.Grows built') (hbinds : built.Binds bindings) :
    built'.Binds bindings :=
  fun b hb source hs => (hbinds b hb source hs).trans_le h.length

theorem Mapped.grows (hmapped : built.Mapped g bindings branches mapped)
    (h : built.Grows built') (hbuilt : built.Ordered) (hbinds : built.Binds bindings) :
    built'.Mapped g bindings branches mapped := by
  intro c n hc
  obtain ⟨hn, hsources⟩ := hmapped c n hc
  refine ⟨hn.trans_le h.length, fun v p s => ?_⟩
  rw [h.sources hbuilt hn, h.bound hbuilt hbinds, hsources]

theorem Mapped.cons (hmapped : built.Mapped g bindings branches mapped) (child : ℕ) {node : ℕ}
    (hnode : node < built.nodes.length) (hsources : ∀ v p s, (built.flow v).Sources node p s ↔
      (g.importFlow branches (built.Bound v bindings) v).Sources child p s) :
    built.Mapped g bindings branches ((child, node) :: mapped) := by
  intro c n hc
  rw [lookup_cons] at hc
  split at hc
  · rename_i heq
    obtain rfl := some.inj hc
    obtain rfl : child = c := heq
    exact ⟨hnode, hsources⟩
  · exact hmapped c n hc

end DependencyDag

namespace Imports

variable {g : DependencyDag K} {bindings : Bindings K} {branches : List (BranchId × BranchId)}
  {b : Builder K} {mapped : List (ℕ × ℕ)}

/-- The sources bound to a child. -/
def childBound (g : DependencyDag K) (bindings : Bindings K) (child : ℕ) :
    List (ℕ × PositionRelation) :=
  match g.nodes[child]? with
  | some (.external key) => (lookup bindings key).getD []
  | _ => []

theorem mem_childBound {source : ℕ × PositionRelation} :
    source ∈ childBound g bindings child ↔ ∃ key, g.nodes[child]? = some (.external key) ∧
      ∃ sources, lookup bindings key = some sources ∧ source ∈ sources := by
  unfold childBound
  split
  · rename_i key hkey
    cases hlookup : lookup bindings key <;> simp [hkey, hlookup]
  · rename_i hnone
    refine ⟨fun h => absurd h not_mem_nil, ?_⟩
    rintro ⟨key, hkey, -⟩
    exact absurd hkey (hnone key)

/-- The inputs of an imported child. -/
def childInputs (g : DependencyDag K) (bindings : Bindings K)
    (branches : List (BranchId × BranchId))
    (mapped : List (ℕ × ℕ)) (child : ℕ) : List Input :=
  ((g.incoming child).filterMap fun e => (lookup mapped e.source).map fun source =>
    (source, e.relation, e.condition.remapped branches)) ++
  (childBound g bindings child).map fun source => (source.1, source.2, [])

theorem childInputs_lt (hbinds : b.graph.Binds bindings)
    (hmapped : b.graph.Mapped g bindings branches mapped) (child : ℕ) :
    ∀ i ∈ childInputs g bindings branches mapped child, i.1 < b.graph.nodes.length := by
  intro i hi
  rcases mem_append.1 hi with hi | hi
  · obtain ⟨e, -, he⟩ := mem_filterMap.1 hi
    obtain ⟨n, hn, rfl⟩ := map_eq_some_iff.1 he
    exact (hmapped _ _ hn).1
  · obtain ⟨source, hs, rfl⟩ := List.mem_map.1 hi
    obtain ⟨key, -, sources, hlookup, hmem⟩ := mem_childBound.1 hs
    exact hbinds _ (mem_of_lookup hlookup) _ hmem

theorem supplies_childInputs (hmapped : b.graph.Mapped g bindings branches mapped)
    (hsources : ∀ e ∈ g.edges, e.destination = child → (lookup mapped e.source).isSome)
    (p : BitPosition) (s : K × BitPosition) :
    b.graph.Supplies v (childInputs g bindings branches mapped child) p s ↔
      (g.importFlow branches (b.graph.Bound v bindings) v).Enters child p s := by
  constructor
  · rintro ⟨i, hi, hadmits, q, hc, hs⟩
    rcases mem_append.1 hi with hi | hi
    · obtain ⟨e, he, hmap⟩ := mem_filterMap.1 hi
      obtain ⟨n, hn, rfl⟩ := map_eq_some_iff.1 hmap
      obtain ⟨he, hd⟩ := mem_filter.1 he
      exact .inr ⟨e.source, e.relation, q, ⟨e, he, rfl, by simpa using hd, rfl, hadmits⟩, hc,
        ((hmapped _ _ hn).2 v q s).1 hs⟩
    · obtain ⟨source, hmem, rfl⟩ := List.mem_map.1 hi
      obtain ⟨key, hkey, sources, hlookup, hmem⟩ := mem_childBound.1 hmem
      exact .inl ⟨key, hkey, sources, hlookup, source, hmem, q, hc, hs⟩
  · rintro (⟨key, hkey, sources, hlookup, source, hmem, q, hc, hs⟩ |
      ⟨m, r, q, ⟨e, he, rfl, hd, rfl, hadmits⟩, hc, hs⟩)
    · exact ⟨(source.1, source.2, []), mem_append_right _ (List.mem_map.2
        ⟨source, mem_childBound.2 ⟨key, hkey, sources, hlookup, hmem⟩, rfl⟩),
        admits_nil v, q, hc, hs⟩
    · obtain ⟨n, hn⟩ := isSome_iff_exists.1 (hsources e he hd)
      refine ⟨(n, e.relation, e.condition.remapped branches), mem_append_left _
        (mem_filterMap.2 ⟨e, mem_filter.2 ⟨he, by simpa using hd⟩, by simp [hn]⟩),
        hadmits, q, hc, ((hmapped _ _ hn).2 v q s).2 hs⟩

/-- A builder and the imported children, one step after another. -/
structure Importing (b : Builder K) (g : DependencyDag K) (bindings : Bindings K)
    (branches : List (BranchId × BranchId)) (mapped : List (ℕ × ℕ))
    (r : Builder K × List (ℕ × ℕ)) : Prop where
  ok : r.1.Ok
  grows : b.graph.Grows r.1.graph
  children : r.1.graph.Mapped g bindings branches r.2
  keeps : ∀ c, (lookup mapped c).isSome → (lookup r.2 c).isSome

theorem importing_importChild (hb : b.Ok) (hbinds : b.graph.Binds bindings)
    (hmapped : b.graph.Mapped g bindings branches mapped)
    (hsources : ∀ e ∈ g.edges, e.destination = child → (lookup mapped e.source).isSome) :
    Ensures (importChild g bindings branches (b, mapped) child) fun r =>
      Importing b g bindings branches mapped r ∧ (lookup r.2 child).isSome := by
  refine Ensures.bind Ensures.trivial fun _ _ => Ensures.pure ?_
  have hbuilt := Builder.builds_operation hb (childInputs_lt hbinds hmapped child)
    (g.domain child) ((lookup g.sites child).map fun site =>
      ({ site with dataInputs := site.dataInputs.filterMap (lookup mapped) } : DefinitionSite))
    (g.replication child)
  have hchildren := (hmapped.grows hbuilt.grows hb.ordered hbinds).cons child
    hbuilt.lt fun v p s => by
      rw [hbuilt.sources, Flow.sources_iff, hbuilt.grows.bound hb.ordered hbinds]
      exact through_congr (fun p s => supplies_childInputs hmapped hsources p s) p s
  exact ⟨⟨hbuilt.ok, hbuilt.grows, hchildren, fun c hc => lookup_cons_isSome (.inr hc)⟩,
    lookup_cons_isSome (.inl rfl)⟩

omit [DecidableEq K] in
theorem retained_closed (mapped : List (ℕ × ℕ)) (hg : g.Ordered) {root : ℕ}
    (hroot : root < g.nodes.length) :
    root ∈ retained g mapped root ∧ ∀ c ∈ retained g mapped root, ∀ e ∈ g.edges,
      e.destination = c → (lookup mapped e.source).isSome ∨ e.source ∈ retained g mapped root := by
  have hnext : ∀ c ∈ List.range g.nodes.length, ∀ m ∈ ((g.incoming c).map (·.source)).filter
      fun source => (lookup mapped source).isNone, m ∈ List.range g.nodes.length := by
    intro c _ m hm
    obtain ⟨e, he, rfl⟩ := List.mem_map.1 (mem_filter.1 hm).1
    have := hg.forward e (mem_filter.1 he).1
    exact mem_range.2 (by omega)
  have hclosure := mem_closure (nodup_singleton root) (by simpa using hroot) hnext
  rw [length_range] at hclosure
  simp only [retained, mem_insertionSort, hclosure]
  refine ⟨⟨root, mem_singleton_self _, .refl⟩, ?_⟩
  rintro c ⟨r, hr, hpath⟩ e he rfl
  cases hlookup : lookup mapped e.source with
  | some n => exact .inl rfl
  | none =>
    refine .inr ⟨r, hr, hpath.tail (mem_filter.2 ⟨List.mem_map.2 ⟨e, ?_, rfl⟩, ?_⟩)⟩
    · exact mem_filter.2 ⟨he, by simp⟩
    · rw [hlookup]
      rfl

theorem importing_retained (hg : g.Ordered) (hb : b.Ok) (hbinds : b.graph.Binds bindings)
    (hmapped : b.graph.Mapped g bindings branches mapped) (hroot : root < g.nodes.length) :
    Ensures ((retained g mapped root).foldlM (importChild g bindings branches) (b, mapped))
      fun r => Importing b g bindings branches mapped r ∧ (lookup r.2 root).isSome := by
  obtain ⟨hmem, hclosed⟩ := retained_closed mapped hg hroot
  have hsorted : (retained g mapped root).Pairwise (· ≤ ·) := pairwise_insertionSort _ _
  refine (Ensures.foldlM (Q := fun done r => Importing b g bindings branches mapped r ∧
    ∀ c ∈ done, (lookup r.2 c).isSome) ⟨⟨hb, .refl _, hmapped, fun _ => id⟩, by simp⟩ ?_).mono
    fun r hr => ⟨hr.1, hr.2 root hmem⟩
  rintro done child rest ⟨b', mapped'⟩ hl ⟨himporting, hdone⟩
  refine (importing_importChild himporting.ok (himporting.grows.binds hbinds) himporting.children
    fun e he hd => ?_).mono fun r hr => ⟨⟨hr.1.ok, himporting.grows.trans hr.1.grows, hr.1.children,
      fun c hc => hr.1.keeps c (himporting.keeps c hc)⟩, fun c hc => ?_⟩
  · -- an input was imported before, or it is a smaller retained child
    rcases hclosed child (by rw [hl]; simp) e he hd with hbefore | hretained
    · exact himporting.keeps _ hbefore
    refine hdone _ ?_
    rw [hl] at hretained hsorted
    have hlt := (hg.forward e he).1
    have hle := (pairwise_cons.1 (pairwise_append.1 hsorted).2.1).1
    rcases mem_append.1 hretained with hin | hin
    · exact hin
    · rcases mem_cons.1 hin with heq | hin
      · omega
      · have := hle _ hin
        omega
  · rcases mem_append.1 hc with hc | hc
    · exact hr.1.keeps c (hdone c hc)
    · rw [mem_singleton.1 hc]
      exact hr.2

variable {heap : Heap K} {parent parent' : ℕ → Option (Option ℕ)} {built built' : DependencyDag K}
  {st : Imports K}

/-- The tables of imports say what was called and what was mapped. -/
structure Ok (heap : Heap K) (parent : ℕ → Option (Option ℕ)) (built : DependencyDag K)
    (st : Imports K) : Prop where
  equivalent : ∀ key i, (key, i) ∈ st.equivalent → built.Binds key.bindings ∧
    ∃ invocation, st.invocations[i]? = some invocation ∧ invocation.bindings = key.bindings ∧
      built.Mapped (heap.graph key.graph) key.bindings key.branches invocation.mapped
  unique : ∀ key key' i, (key, i) ∈ st.equivalent → (key', i) ∈ st.equivalent → key = key'
  identities : ∀ graph bindings branches i, ((graph, bindings, branches), i) ∈ st.identities →
    mappedBefore parent (heap.bindings bindings) ∧
      (⟨graph, mapBindings parent (heap.bindings bindings), heap.branches branches⟩, i) ∈ st.equivalent

theorem ok_empty (heap : Heap K) (parent : ℕ → Option (Option ℕ)) (built : DependencyDag K) :
    (empty : Imports K).Ok heap parent built :=
  ⟨by simp [empty], by simp [empty], by simp [empty]⟩

omit [DecidableEq K] in
theorem mapBindings_congr (hparent : ∀ i, (parent i).isSome → parent' i = parent i)
    {bindings : Bindings K} (hmapped : mappedBefore parent bindings) :
    mappedBefore parent' bindings ∧ mapBindings parent' bindings = mapBindings parent bindings := by
  simp only [mappedBefore, List.all_eq_true] at hmapped ⊢
  refine ⟨fun b hb source hs => ?_, map_congr_left fun b hb => ?_⟩
  · rw [hparent _ (hmapped b hb source hs)]
    exact hmapped b hb source hs
  · have hsame : ∀ source ∈ b.2, ((parent' source.1).join.map fun n => (n, source.2)) =
        (parent source.1).join.map fun n => (n, source.2) := by
      intro source hs
      rw [hparent _ (hmapped b hb source hs)]
    rw [filterMap_congr hsame]

omit [DecidableEq K] in
theorem binds_mapBindings (hnodes : ∀ i n, parent i = some (some n) → n < built.nodes.length)
    (bindings : Bindings K) : built.Binds (mapBindings parent bindings) := by
  intro b hb source hs
  obtain ⟨b', -, rfl⟩ := List.mem_map.1 hb
  rw [List.mem_dedup, mem_insertionSort, mem_filterMap] at hs
  obtain ⟨source', -, hmap⟩ := hs
  obtain ⟨n, hn, rfl⟩ := map_eq_some_iff.1 hmap
  exact hnodes source'.1 n (join_eq_some_iff.1 hn)

section

variable (h : st.Ok heap parent built)

include h

theorem Ok.grows (hgrows : built.Grows built') (hbuilt : built.Ordered)
    (hparent : ∀ i, (parent i).isSome → parent' i = parent i) : st.Ok heap parent' built' where
  equivalent key i hkey := by
    obtain ⟨hbinds, invocation, hinvocation, hbindings, hmapped⟩ := h.equivalent key i hkey
    exact ⟨hgrows.binds hbinds, invocation, hinvocation, hbindings,
      hmapped.grows hgrows hbuilt hbinds⟩
  unique := h.unique
  identities graph bindings branches i hi := by
    obtain ⟨hmapped, hkey⟩ := h.identities graph bindings branches i hi
    obtain ⟨hmapped', hsame⟩ := mapBindings_congr hparent hmapped
    rw [hsame]
    exact ⟨hmapped', hkey⟩

variable {branches : ℕ}

variable {bindings : ℕ}

theorem Ok.note {i : ℕ} (hmapped : mappedBefore parent (heap.bindings bindings))
    (hkey : (⟨graph, mapBindings parent (heap.bindings bindings), heap.branches branches⟩, i) ∈
      st.equivalent) :
    Ok heap parent built { st with identities := ((graph, bindings, branches), i) :: st.identities } where
  equivalent := h.equivalent
  unique := h.unique
  identities graph' bindings' branches' j hj := by
    rcases mem_cons.1 hj with heq | hj
    · cases heq
      exact ⟨hmapped, hkey⟩
    · exact h.identities graph' bindings' branches' j hj

theorem Ok.introduce (key : InvocationKey K) (hbinds : built.Binds key.bindings) :
    Ok heap parent built { st with
      equivalent := (key, st.invocations.length) :: st.equivalent
      invocations := st.invocations ++ [⟨key.bindings, []⟩] } := by
  have hlt : ∀ key i, (key, i) ∈ st.equivalent → i < st.invocations.length := by
    intro key i hi
    obtain ⟨-, invocation, hinvocation, -⟩ := h.equivalent key i hi
    exact (List.getElem?_eq_some_iff.1 hinvocation).1
  refine ⟨fun key' i hi => ?_, fun key₁ key₂ i h₁ h₂ => ?_, fun graph bindings branches i hi => ?_⟩
  · rcases mem_cons.1 hi with heq | hi
    · cases heq
      exact ⟨hbinds, ⟨key.bindings, []⟩, List.getElem?_concat_length, rfl, fun _ _ hc => by cases hc⟩
    · obtain ⟨hbinds', invocation, hinvocation, hrest⟩ := h.equivalent key' i hi
      refine ⟨hbinds', invocation, ?_, hrest⟩
      rw [List.getElem?_append_left (hlt key' i hi)]
      exact hinvocation
  · rcases mem_cons.1 h₁ with heq₁ | h₁
    · rcases mem_cons.1 h₂ with heq₂ | h₂
      · exact (Prod.mk.inj heq₁).1.trans (Prod.mk.inj heq₂).1.symm
      · exact absurd (hlt key₂ i h₂) (by rw [(Prod.mk.inj heq₁).2]; exact lt_irrefl _)
    · rcases mem_cons.1 h₂ with heq₂ | h₂
      · exact absurd (hlt key₁ i h₁) (by rw [(Prod.mk.inj heq₂).2]; exact lt_irrefl _)
      · exact h.unique key₁ key₂ i h₁ h₂
  · obtain ⟨hmapped, hkey⟩ := h.identities graph bindings branches i hi
    exact ⟨hmapped, mem_cons_of_mem _ hkey⟩

theorem ok_invocation (hnodes : ∀ i n, parent i = some (some n) → n < built.nodes.length)
    (graph bindings branches : ℕ) :
    Ensures (st.invocation heap graph bindings branches parent) fun r =>
      r.2.Ok heap parent built ∧ mappedBefore parent (heap.bindings bindings) ∧
        (⟨graph, mapBindings parent (heap.bindings bindings), heap.branches branches⟩, r.1) ∈
          r.2.equivalent := by
  unfold invocation
  split
  · rename_i i hi
    exact Ensures.pure ⟨h, h.identities _ _ _ _ (mem_of_lookup hi)⟩
  · refine Ensures.bind Ensures.trivial fun _ _ => ?_
    by_cases hmapped : mappedBefore parent (heap.bindings bindings) = true
    · rw [if_neg (by simp [hmapped])]
      dsimp only
      split
      · rename_i i hi
        have hkey := mem_of_lookup hi
        exact Ensures.pure ⟨h.note hmapped hkey, hmapped, hkey⟩
      · have hkey := mem_cons_self (a := ((⟨graph, mapBindings parent (heap.bindings bindings),
          heap.branches branches⟩ : InvocationKey K), st.invocations.length)) (l := st.equivalent)
        exact Ensures.pure ⟨(h.introduce _ (binds_mapBindings hnodes _)).note hmapped hkey, hmapped,
          hkey⟩
    · rw [if_pos (by simp [hmapped])]
      exact Ensures.bind (P := fun _ => False) Ensures.none fun _ h => h.elim

theorem Ok.update {key : InvocationKey K} {i : ℕ}
    (hkey : (key, i) ∈ st.equivalent) {mapped : List (ℕ × ℕ)} {invocation : Invocation K}
    (hinvocation : st.invocations[i]? = some invocation)
    (hmapped : built.Mapped (heap.graph key.graph) key.bindings key.branches mapped)
    (incoming : List ℕ) :
    Ok heap parent built { st with
      incoming := incoming
      invocations := st.invocations.set i { invocation with mapped := mapped } } where
  equivalent key' j hj := by
    obtain ⟨hbinds, invocation', hinvocation', hbindings, hmapped'⟩ := h.equivalent key' j hj
    by_cases hij : i = j
    · subst hij
      obtain rfl := h.unique key' key i hj hkey
      cases hinvocation.symm.trans hinvocation'
      refine ⟨hbinds, { invocation with mapped := mapped }, ?_, hbindings, hmapped⟩
      rw [List.getElem?_set_self (List.getElem?_eq_some_iff.1 hinvocation).1]
    · refine ⟨hbinds, invocation', ?_, hbindings, hmapped'⟩
      rw [List.getElem?_set_ne hij]
      exact hinvocation'
  unique := h.unique
  identities := h.identities

end

/-- A call that has been imported: its root has the sources that the graph gives
it for the bindings. -/
structure Inlined (heap : Heap K) (graph root bindings branches : ℕ)
    (parent : ℕ → Option (Option ℕ)) (b : Builder K) (r : Option ℕ × Builder K × Imports K) :
    Prop where
  ok : r.2.1.Ok
  grows : b.graph.Grows r.2.1.graph
  imports : r.2.2.Ok heap parent r.2.1.graph
  node : ∃ n, r.1 = some n ∧ n < r.2.1.graph.nodes.length ∧ ∀ v p s,
    (r.2.1.graph.flow v).Sources n p s ↔ ((heap.graph graph).importFlow (heap.branches branches)
        (r.2.1.graph.Bound v (mapBindings parent (heap.bindings bindings))) v).Sources root p s

theorem inlined_inline (hb : b.Ok) (h : st.Ok heap parent b.graph)
    (hnodes : ∀ i n, parent i = some (some n) → n < b.graph.nodes.length)
    (graph root bindings branches : ℕ) :
    Ensures (st.inline b heap graph (some root) bindings branches parent)
      fun r => Inlined heap graph root bindings branches parent b r ∧
        mappedBefore parent (heap.bindings bindings) := by
  refine Ensures.bind (ok_invocation h hnodes graph bindings branches) ?_
  rintro ⟨index, st'⟩ ⟨hst', hbefore, hkey⟩
  obtain ⟨hbinds, invocation, hinvocation, hbindings, hmapped⟩ := hst'.equivalent _ _ hkey
  dsimp only at hinvocation hbindings hmapped ⊢
  rw [hinvocation]
  dsimp only
  cases hroot : lookup invocation.mapped root with
  | some node =>
    obtain ⟨hlt, hsources⟩ := hmapped root node hroot
    exact Ensures.pure ⟨⟨hb, .refl _, hst', node, rfl, hlt, hsources⟩, hbefore⟩
  | none =>
    dsimp only
    by_cases hlt : (heap.graph graph).nodes.length ≤ root
    · rw [if_pos hlt]
      exact Ensures.bind (P := fun _ => False) Ensures.none fun _ h => h.elim
    · rw [if_neg hlt]
      have hfold : ∀ incoming, Ensures ((retained (heap.graph graph) invocation.mapped root).foldlM
          (importChild (heap.graph graph) invocation.bindings (heap.branches branches))
          (b, invocation.mapped) >>= fun r => pure (lookup r.2 root, r.1, { st' with
            incoming := incoming
            invocations := st'.invocations.set index { invocation with mapped := r.2 } }))
          fun r => Inlined heap graph root bindings branches parent b r ∧
            mappedBefore parent (heap.bindings bindings) := by
        intro incoming
        refine Ensures.bind (importing_retained (heap.ordered graph) hb (hbindings ▸ hbinds)
          (hbindings ▸ hmapped) (by omega)) ?_
        rintro ⟨b', mapped'⟩ ⟨himporting, hsome⟩
        obtain ⟨node, hnode⟩ := isSome_iff_exists.1 hsome
        have hchildren := himporting.children
        rw [hbindings] at hchildren
        obtain ⟨hnodeLt, hsources⟩ := hchildren root node hnode
        have hgrown := hst'.grows himporting.grows hb.ordered fun _ _ => rfl
        exact Ensures.pure ⟨⟨himporting.ok, himporting.grows,
          hgrown.update hkey hinvocation hchildren _, node, hnode, hnodeLt, hsources⟩, hbefore⟩
      split
      · exact Ensures.bind Ensures.trivial fun _ _ => hfold _
      · exact Ensures.bind Ensures.trivial fun _ _ => Ensures.bind Ensures.trivial fun _ _ => hfold _

end Imports

section Expanded

variable {heap : Heap K} {ops : List (Op K)} {i : ℕ}

theorem expanded_external {key : K} (h : ops[i]? = some (.external key)) (p : BitPosition)
    (s : K × BitPosition) : (expanded heap ops v).Sources (.step i) p s ↔ s = (key, p) := by
  constructor
  · intro hs
    cases hs with
    | base _ hb =>
      obtain ⟨key', hkey, rfl⟩ := hb
      cases h.symm.trans hkey
      rfl
    | edge _ he _ _ => simp [expanded, h] at he
    | again _ hr _ _ => simp [expanded, h] at hr
  · rintro rfl
    exact .base (.inl (by simp [expanded, h])) ⟨key, h, rfl⟩

theorem expanded_operation {inputs : List Input} {domains : List PositionDomain}
    {site : Option DefinitionSite} {replication : Option Replication}
    (h : ops[i]? = some (.operation inputs domains site replication)) (p : BitPosition)
    (s : K × BitPosition) : (expanded heap ops v).Sources (.step i) p s ↔
      Through domains replication (fun p s => ∃ input ∈ inputs, input.2.2.Admits v ∧
        ∃ q, input.2.1.Carries q p ∧ (expanded heap ops v).Sources (.step input.1) q s) p s := by
  have hdomains : (expanded heap ops v).domains (.step i) = domains := by simp [expanded, h]
  have hrep : (expanded heap ops v).replication (.step i) = replication := by simp [expanded, h]
  rw [Flow.sources_iff, hdomains, hrep]
  refine through_congr (fun p s => ?_) p s
  have hedge : ∀ m r, (expanded heap ops v).edge m (.step i) r ↔
      ∃ input ∈ inputs, m = .step input.1 ∧ r = input.2.1 ∧ input.2.2.Admits v := by
    simp [expanded, h]
  constructor
  · rintro (⟨key, hkey, -⟩ | ⟨m, r, q, he, hc, hs⟩)
    · cases h.symm.trans hkey
    · obtain ⟨input, hin, rfl, rfl, hadmits⟩ := (hedge m r).1 he
      exact ⟨input, hin, hadmits, q, hc, hs⟩
  · rintro ⟨input, hin, hadmits, q, hc, hs⟩
    exact .inr ⟨_, _, q, (hedge _ _).2 ⟨input, hin, rfl, rfl, hadmits⟩, hc, hs⟩

theorem expanded_inline_none
    (h : ops[i]? = some (.inline graph none bindings branches)) (p : BitPosition)
    (s : K × BitPosition) : ¬(expanded heap ops v).Sources (.step i) p s := by
  intro hs
  cases hs with
  | base _ hb =>
    obtain ⟨key, hkey, -⟩ := hb
    cases h.symm.trans hkey
  | edge _ he _ _ => simp [expanded, h] at he
  | again _ hr _ _ => simp [expanded, h] at hr

theorem expanded_inline
    (h : ops[i]? = some (.inline graph (some root) bindings branches)) (p : BitPosition)
    (s : K × BitPosition) : (expanded heap ops v).Sources (.step i) p s ↔
      (expanded heap ops v).Sources (.child i root) p s := by
  have hedge : ∀ m r, (expanded heap ops v).edge m (.step i) r ↔
      m = .child i root ∧ r = .identity := by
    simp [expanded, h]
  constructor
  · intro hs
    cases hs with
    | base _ hb =>
      obtain ⟨key, hkey, -⟩ := hb
      cases h.symm.trans hkey
    | edge _ he hc hs =>
      obtain ⟨rfl, rfl⟩ := (hedge _ _).1 he
      exact (carries_identity _ _).1 hc ▸ hs
    | again _ hr _ _ => simp [expanded, h] at hr
  · intro hs
    refine .edge (.inl ?_) ((hedge _ _).2 ⟨rfl, rfl⟩) ((carries_identity p p).2 rfl) hs
    simp [expanded, h]

theorem expanded_child {root : Option ℕ} (h : ops[i]? = some (.inline graph root bindings branches))
    {bound : K → BitPosition → K × BitPosition → Prop}
    (hbound : ∀ key p s, bound key p s ↔ ∃ sources, lookup (heap.bindings bindings) key = some sources ∧
      ∃ source ∈ sources, ∃ q, source.2.Carries q p ∧
        (expanded heap ops v).Sources (.step source.1) q s)
    (c : ℕ) (p : BitPosition) (s : K × BitPosition) :
    ((heap.graph graph).importFlow (heap.branches branches) bound v).Sources c p s ↔
      (expanded heap ops v).Sources (.child i c) p s := by
  have hdomains : ∀ c, (expanded heap ops v).domains (.child i c) = (heap.graph graph).domain c := by
    simp [expanded, h]
  have hrep : ∀ c, (expanded heap ops v).replication (.child i c) =
      (heap.graph graph).replication c := by
    simp [expanded, h]
  have hedge : ∀ m c r, (expanded heap ops v).edge m (.child i c) r ↔
      (∃ e ∈ (heap.graph graph).edges, m = .child i e.source ∧ e.destination = c ∧
        r = e.relation ∧ (e.condition.remapped (heap.branches branches)).Admits v) ∨
      ∃ key, (heap.graph graph).nodes[c]? = some (.external key) ∧
        ∃ sources, lookup (heap.bindings bindings) key = some sources ∧
          ∃ source ∈ sources, m = .step source.1 ∧ r = source.2 := by
    simp [expanded, h]
  constructor
  · intro hs
    induction hs with
    | base hd hb =>
      obtain ⟨key, hkey, hb⟩ := hb
      obtain ⟨sources, hlookup, source, hmem, q, hc, hs⟩ := (hbound _ _ _).1 hb
      exact .edge ((hdomains _).symm ▸ hd)
        ((hedge _ _ _).2 (.inr ⟨key, hkey, sources, hlookup, source, hmem, rfl, rfl⟩)) hc hs
    | edge hd he hc _ ih =>
      obtain ⟨e, he, rfl, rfl, rfl, hadmits⟩ := he
      exact .edge ((hdomains _).symm ▸ hd)
        ((hedge _ _ _).2 (.inl ⟨e, he, rfl, rfl, rfl, hadmits⟩)) hc ih
    | again hd hr hm _ ih =>
      exact .again ((hdomains _).symm ▸ hd) ((hrep _).trans hr) hm ih
  · intro hs
    generalize hn : ExpandedNode.child i c = n at hs
    induction hs generalizing c with
    | base _ hb =>
      subst hn
      exact hb.elim
    | edge hd he hc hs ih =>
      subst hn
      rw [hdomains] at hd
      rcases (hedge _ _ _).1 he with ⟨e, hmem, rfl, rfl, rfl, hadmits⟩ |
        ⟨key, hkey, sources, hlookup, source, hmem, rfl, rfl⟩
      · exact .edge hd ⟨e, hmem, rfl, rfl, rfl, hadmits⟩ hc (ih _ rfl)
      · exact .base hd ⟨key, hkey, (hbound _ _ _).2 ⟨sources, hlookup, source, hmem, _, hc, hs⟩⟩
    | again hd hr hm _ ih =>
      subst hn
      rw [hdomains] at hd
      exact .again hd ((hrep c).symm.trans hr) hm (ih _ rfl)

end Expanded

namespace Session

variable {heap : Heap K} {ops : List (Op K)} {st : Session K}

/-- The steps so far have the sources that the unshared graph gives them. -/
structure Ok (heap : Heap K) (ops : List (Op K)) (count : ℕ) (st : Session K) : Prop where
  builder : st.builder.Ok
  imports : st.imports.Ok heap (fun i => st.mapped[i]?) st.builder.graph
  length : st.mapped.length = count
  nodes : ∀ (i n : ℕ), st.mapped[i]? = some (some n) → n < st.builder.graph.nodes.length
  sources : ∀ (i : ℕ) (r : Option ℕ), st.mapped[i]? = some r → ∀ v p s,
    (∃ n ∈ r, (st.builder.graph.flow v).Sources n p s) ↔ (expanded heap ops v).Sources (.step i) p s

theorem Ok.next (h : st.Ok heap ops count) {b : Builder K} {imports : Imports K}
    {r : Option ℕ} (hb : b.Ok) (hgrows : st.builder.graph.Grows b.graph)
    (himports : imports.Ok heap (fun i => st.mapped[i]?) b.graph)
    (hlt : ∀ n ∈ r, n < b.graph.nodes.length)
    (hsources : ∀ v p s, (∃ n ∈ r, (b.graph.flow v).Sources n p s) ↔
      (expanded heap ops v).Sources (.step count) p s) :
    Ok heap ops (count + 1) ⟨b, imports, st.mapped ++ [r]⟩ := by
  have hget : ∀ (i : ℕ) (r' : Option ℕ), (st.mapped ++ [r])[i]? = some r' →
      st.mapped[i]? = some r' ∨ i = count ∧ r' = r := by
    intro i r' hi
    rw [← h.length]
    rcases Nat.lt_trichotomy i st.mapped.length with hlt | rfl | hgt
    · exact .inl ((List.getElem?_append_left hlt).symm.trans hi)
    · exact .inr ⟨rfl, by simpa using hi.symm⟩
    · rw [List.getElem?_eq_none (by simp; omega)] at hi
      cases hi
  refine ⟨hb, himports.grows (.refl _) hb.ordered fun i hi => ?_, by simp [h.length],
    fun i n hi => ?_, fun i r' hi v p s => ?_⟩
  · obtain ⟨r', hr⟩ := isSome_iff_exists.1 hi
    exact List.getElem?_append_left (List.getElem?_eq_some_iff.1 hr).1
  · rcases hget i _ hi with hi | ⟨-, hr⟩
    · exact (h.nodes i n hi).trans_le hgrows.length
    · exact hlt n hr.symm
  · rcases hget i r' hi with hi | ⟨rfl, rfl⟩
    · rw [← h.sources i r' hi v p s]
      refine exists_congr fun n => and_congr_right fun hn => ?_
      rw [hgrows.sources h.builder.ordered (h.nodes i n (hi.trans (congrArg some hn)))]
    · exact hsources v p s

theorem Ok.bound (h : st.Ok heap ops count) {bindings : Bindings K}
    (hmapped : Imports.mappedBefore (fun i => st.mapped[i]?) bindings) (key : K) (p : BitPosition)
    (s : K × BitPosition) :
    st.builder.graph.Bound v (Imports.mapBindings (fun i => st.mapped[i]?) bindings) key p s ↔
      ∃ sources, lookup bindings key = some sources ∧ ∃ source ∈ sources, ∃ q,
        source.2.Carries q p ∧ (expanded heap ops v).Sources (.step source.1) q s := by
  simp only [DependencyDag.Bound, Imports.mapBindings]
  rw [lookup_map fun sources : List (ℕ × PositionRelation) => ((sources.filterMap fun s =>
    (st.mapped[s.1]?).join.map fun n => (n, s.2)).insertionSort
      fun s t => sourceKey s ≤ sourceKey t).dedup]
  constructor
  · rintro ⟨_, hlookup, ⟨n, relation⟩, hmem, q, hc, hs⟩
    obtain ⟨sources, hsources, rfl⟩ := map_eq_some_iff.1 hlookup
    rw [List.mem_dedup, mem_insertionSort, mem_filterMap] at hmem
    obtain ⟨source, hsource, hmap⟩ := hmem
    obtain ⟨n', hn, heq⟩ := map_eq_some_iff.1 hmap
    obtain ⟨rfl, rfl⟩ := Prod.mk.inj heq
    exact ⟨sources, hsources, source, hsource, q, hc,
      (h.sources source.1 _ (join_eq_some_iff.1 hn) v q s).1 ⟨n', rfl, hs⟩⟩
  · rintro ⟨sources, hsources, source, hsource, q, hc, hs⟩
    simp only [Imports.mappedBefore, List.all_eq_true] at hmapped
    obtain ⟨r, hr⟩ := isSome_iff_exists.1 (hmapped _ (mem_of_lookup hsources) source hsource)
    obtain ⟨n, rfl, hn⟩ := (h.sources source.1 r hr v q s).2 hs
    refine ⟨_, map_eq_some_iff.2 ⟨sources, hsources, rfl⟩, (n, source.2), ?_, q, hc, hn⟩
    rw [List.mem_dedup, mem_insertionSort, mem_filterMap]
    exact ⟨source, hsource, by rw [hr]; rfl⟩

theorem ok_step (h : st.Ok heap ops count) {op : Op K} (hop : ops[count]? = some op) :
    Ensures (st.step heap op) fun st' => st'.Ok heap ops (count + 1) := by
  cases op with
  | external key =>
    obtain ⟨hb, hgrows, hlt, hsources⟩ := Builder.builds_external h.builder key
    refine Ensures.pure (h.next hb hgrows (h.imports.grows hgrows h.builder.ordered fun _ _ => rfl)
      (fun n hn => mem_some_iff.1 hn ▸ hlt) fun v p s => ?_)
    simp only [mem_some_iff, exists_eq_left']
    exact (hsources v p s).trans (expanded_external hop p s).symm
  | operation inputs domains site replication =>
    simp only [step]
    split
    · rename_i hall
      have hmem : ∀ i, i ∈ (inputs.filterMap fun i => st.mapped[i.1]?.join.map fun n => (n, i.2)) ↔
          ∃ input ∈ inputs, ∃ n, st.mapped[input.1]? = some (some n) ∧ (n, input.2) = i := by
        simp [join_eq_some_iff]
      have hlt : ∀ i ∈ inputs.filterMap fun i => st.mapped[i.1]?.join.map fun n => (n, i.2),
          i.1 < st.builder.graph.nodes.length := by
        intro i hi
        obtain ⟨input, -, n, hn, rfl⟩ := (hmem i).1 hi
        exact h.nodes _ n hn
      have hbuilt := Builder.builds_operation h.builder hlt domains site replication
      refine Ensures.pure (h.next hbuilt.ok hbuilt.grows
        (h.imports.grows hbuilt.grows h.builder.ordered fun _ _ => rfl)
        (fun n hn => mem_some_iff.1 hn ▸ hbuilt.lt) fun v p s => ?_)
      simp only [mem_some_iff, exists_eq_left']
      rw [hbuilt.sources, expanded_operation hop]
      refine through_congr (fun p s => ?_) p s
      constructor
      · rintro ⟨i, hi, hadmits, q, hc, hs⟩
        obtain ⟨input, hin, n, hn, rfl⟩ := (hmem i).1 hi
        exact ⟨input, hin, hadmits, q, hc, (h.sources _ _ hn v q s).1 ⟨n, rfl, hs⟩⟩
      · rintro ⟨input, hin, hadmits, q, hc, hs⟩
        obtain ⟨r, hr⟩ := isSome_iff_exists.1 (List.all_eq_true.1 hall input hin)
        obtain ⟨n, rfl, hn⟩ := (h.sources _ r hr v q s).2 hs
        exact ⟨(n, input.2), (hmem _).2 ⟨input, hin, n, hr, rfl⟩, hadmits, q, hc, hn⟩
    · exact Ensures.none
  | inline graph root bindings branches =>
    cases root with
    | none =>
      refine Ensures.bind (Ensures.pure (P := fun r => r = (none, st.builder, st.imports)) rfl) ?_
      rintro _ rfl
      exact Ensures.pure (h.next h.builder (.refl _) h.imports (by simp) fun v p s => by
        simpa using expanded_inline_none hop p s)
    | some root =>
      refine Ensures.bind (Imports.inlined_inline h.builder h.imports h.nodes graph root bindings
        branches) ?_
      rintro ⟨r, b, imports⟩ ⟨hinlined, hbefore⟩
      obtain ⟨n, hr, hlt, hsources⟩ := hinlined.node
      subst hr
      refine Ensures.pure (h.next hinlined.ok hinlined.grows hinlined.imports
        (fun n hn => mem_some_iff.1 hn ▸ hlt) fun v p s => ?_)
      simp only [mem_some_iff, exists_eq_left']
      rw [hsources, hinlined.grows.bound h.builder.ordered (Imports.binds_mapBindings h.nodes _),
        expanded_inline hop]
      exact expanded_child hop (h.bound hbefore) root p s

/-- A run shares nodes and gives each step the sources of the unshared graph; its
edges lead to later nodes. -/
theorem run_exact (heap : Heap K) (ops : List (Op K)) {budget budget' : ℕ} {session : Session K}
    (h : run heap ops budget = some (session, budget')) :
    session.mapped.length = ops.length ∧
    (∀ (i : ℕ) (r : Option ℕ), session.mapped[i]? = some r → ∀ v p s,
      (∃ n ∈ r, (session.builder.graph.flow v).Sources n p s) ↔
        (expanded heap ops v).Sources (.step i) p s) ∧
    ∀ e ∈ session.builder.graph.edges, e.source < e.destination := by
  have hok : Ensures (run heap ops) (Ok heap ops ops.length) := by
    refine Ensures.foldlM (Q := fun done => Ok heap ops done.length)
      ⟨Builder.ok_empty, Imports.ok_empty heap _ _, rfl, by simp [empty], by simp [empty]⟩ ?_
    rintro done op rest st rfl hst
    rw [length_append]
    exact ok_step hst (by simp)
  have := hok budget session budget' h
  exact ⟨this.length, this.sources, fun e he => (this.builder.ordered.forward e he).1⟩

/-- A heap with one graph, which moves its input by one bit. -/
def shiftHeap : Heap ℕ where
  graph _ := ⟨[.external 0, .internal], [⟨0, 1, ⟨some 0, some 1⟩, []⟩], [[], []], []⟩
  ordered _ := ⟨rfl, by simp⟩
  bindings _ := [(0, [(0, .identity)])]
  branches _ := []

/-- Two calls with the same bindings, and an operation on both results. -/
def shiftOps : List (Op ℕ) := [.external 7, .inline 0 (some 1) 0 0, .inline 0 (some 1) 1 1,
  .operation [(1, .identity, []), (2, .identity, [])] [] none none]

/-- The calls share their node, and the alias is dropped. -/
theorem run_exact_shared : ∃ session budget', run shiftHeap shiftOps 100 = some (session, budget') ∧
    session.mapped = [some 0, some 1, some 1, some 1] ∧
    ∀ (i : ℕ) (r : Option ℕ), session.mapped[i]? = some r → ∀ v p s,
      (∃ n ∈ r, (session.builder.graph.flow v).Sources n p s) ↔
        (expanded shiftHeap shiftOps v).Sources (.step i) p s := by
  have hmapped : (run shiftHeap shiftOps 100).map (·.1.mapped) =
      some [some 0, some 1, some 1, some 1] := by rfl
  obtain ⟨⟨session, budget'⟩, hrun, hnodes⟩ := map_eq_some_iff.1 hmapped
  exact ⟨session, budget', hrun, hnodes, (run_exact shiftHeap shiftOps hrun).2.1⟩

end Session
end Veryl.Analyzer.CombLoopDetect
