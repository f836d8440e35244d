import Veryl.Analyzer.CombLoopDetect.DagFlow

/-!
The builder of dependency graphs: whatever it shares, a node it returns has the
sources of the operation it was asked for, and earlier nodes keep theirs.
-/

namespace Veryl.Analyzer.CombLoopDetect

open List

variable {α β : Type} {n source : ℕ}

variable {K : Type} {g g' : DependencyDag K} {v : Valuation} {key : InternalNode}
  {inputs : List Input}

theorem mem_of_lookup [DecidableEq α] {entries : List (α × β)} {key : α} {b : β}
    (h : lookup entries key = some b) : (key, b) ∈ entries := by
  obtain ⟨e, he, rfl⟩ := Option.map_eq_some_iff.1 h
  have hkey : e.1 = key := by simpa using List.find?_some he
  exact hkey ▸ List.mem_of_find?_eq_some he

theorem lookup_cons [DecidableEq α] (e : α × β) (entries : List (α × β)) (key : α) :
    lookup (e :: entries) key = if e.1 = key then some e.2 else lookup entries key := by
  unfold lookup
  split <;> simp_all

/-- The nodes of a graph stay as they are when it grows. -/
structure DependencyDag.Grows (g g' : DependencyDag K) : Prop where
  length : g.nodes.length ≤ g'.nodes.length
  nodes : ∀ n < g.nodes.length, g'.nodes[n]? = g.nodes[n]?
  domains : ∀ n < g.nodes.length, g'.domain n = g.domain n
  edges : ∀ e : DependencyDagEdge, e.destination < g.nodes.length → (e ∈ g'.edges ↔ e ∈ g.edges)
  sites : ∀ n < g.nodes.length, lookup g'.sites n = lookup g.sites n

namespace DependencyDag

theorem Grows.refl (g : DependencyDag K) : g.Grows g :=
  ⟨le_rfl, fun _ _ => rfl, fun _ _ => rfl, fun _ _ => Iff.rfl, fun _ _ => rfl⟩

theorem Grows.trans {g₁ g₂ g₃ : DependencyDag K} (h : g₁.Grows g₂) (h' : g₂.Grows g₃) :
    g₁.Grows g₃ where
  length := h.length.trans h'.length
  nodes n hn := (h'.nodes n (hn.trans_le h.length)).trans (h.nodes n hn)
  domains n hn := (h'.domains n (hn.trans_le h.length)).trans (h.domains n hn)
  edges e he := (h'.edges e (he.trans_le h.length)).trans (h.edges e he)
  sites n hn := (h'.sites n (hn.trans_le h.length)).trans (h.sites n hn)

theorem Grows.replication (h : g.Grows g') (hn : n < g.nodes.length) :
    g'.replication n = g.replication n := by
  rw [DependencyDag.replication, h.nodes n hn]
  rfl

theorem Grows.sources (h : g.Grows g') (hg : g.Ordered) (hn : n < g.nodes.length)
    (p : BitPosition) (s : K × BitPosition) :
    (g'.flow v).Sources n p s ↔ (g.flow v).Sources n p s := by
  have hbits : ∀ {n : ℕ} {p : BitPosition}, n < g.nodes.length →
      (InBits ((g'.flow v).domains n) p ↔ InBits ((g.flow v).domains n) p) := by
    intro n p hn
    change InBits (g'.domain n) p ↔ InBits (g.domain n) p
    rw [h.domains n hn]
  constructor
  · intro hs
    induction hs with
    | base hd hb =>
      obtain ⟨key, hnode, rfl⟩ := hb
      exact .base ((hbits hn).1 hd) ⟨key, (h.nodes _ hn).symm.trans hnode, rfl⟩
    | edge hd he hc _ ih =>
      obtain ⟨e, he, rfl, rfl, rfl, hadmits⟩ := he
      have he := (h.edges e hn).1 he
      exact .edge ((hbits hn).1 hd) ⟨e, he, rfl, rfl, rfl, hadmits⟩ hc
        (ih ((hg.forward e he).1.trans hn))
    | again hd hr hm _ ih =>
      exact .again ((hbits hn).1 hd) ((h.replication hn).symm.trans hr) hm (ih hn)
  · intro hs
    induction hs with
    | base hd hb =>
      obtain ⟨key, hnode, rfl⟩ := hb
      exact .base ((hbits hn).2 hd) ⟨key, (h.nodes _ hn).trans hnode, rfl⟩
    | edge hd he hc _ ih =>
      obtain ⟨e, he, rfl, rfl, rfl, hadmits⟩ := he
      exact .edge ((hbits hn).2 hd) ⟨e, (h.edges e hn).2 he, rfl, rfl, rfl, hadmits⟩ hc
        (ih ((hg.forward e he).1.trans hn))
    | again hd hr hm _ ih =>
      exact .again ((hbits hn).2 hd) ((h.replication hn).trans hr) hm (ih hn)

/-- What the inputs of an operation supply. -/
def Supplies (g : DependencyDag K) (v : Valuation) (inputs : List Input) (p : BitPosition)
    (s : K × BitPosition) : Prop :=
  ∃ i ∈ inputs, i.2.2.Admits v ∧ ∃ q, i.2.1.Carries q p ∧ (g.flow v).Sources i.1 q s

/-- A node that stands for an operation. -/
structure IsNode (g : DependencyDag K) (n : ℕ) (key : InternalNode) : Prop where
  lt : n < g.nodes.length
  internal : ∀ k, g.nodes[n]? ≠ some (.external k)
  replication : g.replication n = key.replication
  domains : g.domain n = key.domains
  edges : ∀ e, e ∈ g.edges ∧ e.destination = n ↔ ∃ i ∈ key.inputs, e = ⟨i.1, n, i.2.1, i.2.2⟩

theorem IsNode.sources (h : g.IsNode n key) (p : BitPosition)
    (s : K × BitPosition) : (g.flow v).Sources n p s ↔
      Through key.domains key.replication (g.Supplies v key.inputs) p s := by
  rw [Flow.sources_iff]
  simp only [flow, h.domains, h.replication]
  refine through_congr (fun p s => ?_) p s
  constructor
  · rintro (⟨k, hk, -⟩ | ⟨m, r, q, ⟨e, he, rfl, hd, rfl, hadmits⟩, hc, hs⟩)
    · exact absurd hk (h.internal k)
    · obtain ⟨i, hi, rfl⟩ := (h.edges e).1 ⟨he, hd⟩
      exact ⟨i, hi, hadmits, q, hc, hs⟩
  · rintro ⟨i, hi, hadmits, q, hc, hs⟩
    obtain ⟨he, hd⟩ := (h.edges _).2 ⟨i, hi, rfl⟩
    exact .inr ⟨i.1, i.2.1, q, ⟨_, he, rfl, hd, rfl, hadmits⟩, hc, hs⟩

theorem Grows.isNode (h : g.Grows g') (hn : g.IsNode n key) : g'.IsNode n key where
  lt := hn.lt.trans_le h.length
  internal k := by
    rw [h.nodes n hn.lt]
    exact hn.internal k
  replication := (h.replication hn.lt).trans hn.replication
  domains := (h.domains n hn.lt).trans hn.domains
  edges e := by
    rw [← hn.edges e]
    constructor
    · rintro ⟨he, rfl⟩
      exact ⟨(h.edges e hn.lt).1 he, rfl⟩
    · rintro ⟨he, rfl⟩
      exact ⟨(h.edges e hn.lt).2 he, rfl⟩

theorem supplies_congr {inputs' : List Input} (h : ∀ i, i ∈ inputs ↔ i ∈ inputs')
    (p : BitPosition) (s : K × BitPosition) :
    g.Supplies v inputs p s ↔ g.Supplies v inputs' p s := by
  simp only [Supplies, h]

theorem supplies_identity (n : ℕ) (p : BitPosition) (s : K × BitPosition) :
    g.Supplies v [(n, .identity, [])] p s ↔ (g.flow v).Sources n p s := by
  constructor
  · rintro ⟨i, hi, -, q, hc, hs⟩
    obtain rfl := mem_singleton.1 hi
    exact (carries_identity q p).1 hc ▸ hs
  · exact fun hs => ⟨_, mem_singleton_self _, admits_nil v, p, (carries_identity p p).2 rfl, hs⟩

theorem Grows.supplies (h : g.Grows g') (hg : g.Ordered)
    (hinputs : ∀ i ∈ inputs, i.1 < g.nodes.length) (p : BitPosition) (s : K × BitPosition) :
    g'.Supplies v inputs p s ↔ g.Supplies v inputs p s := by
  constructor
  · rintro ⟨i, hi, hadmits, q, hc, hs⟩
    exact ⟨i, hi, hadmits, q, hc, (h.sources hg (hinputs i hi) q s).1 hs⟩
  · rintro ⟨i, hi, hadmits, q, hc, hs⟩
    exact ⟨i, hi, hadmits, q, hc, (h.sources hg (hinputs i hi) q s).2 hs⟩

end DependencyDag

namespace Builder

variable {b : Builder K}

/-- The tables of a builder say what its nodes are. -/
structure Ok (b : Builder K) : Prop where
  ordered : b.graph.Ordered
  interned : ∀ key n, (key, n) ∈ b.interned → b.graph.IsNode n key
  seeds : ∀ n seed, (n, seed) ∈ b.replicatedSources → seed < b.graph.nodes.length ∧
    ∃ key : InternalNode, key.inputs = [(seed, .identity, [])] ∧ b.graph.IsNode n key

theorem ok_empty : (empty : Builder K).Ok where
  ordered := ⟨rfl, by simp [empty]⟩
  interned := by simp [empty]
  seeds := by simp [empty]

/-- A node that has the sources an operation asks for, in a builder that grew. -/
structure Builds (b : Builder K) (inputs : List Input) (domains : List PositionDomain)
    (replication : Option Replication) (n : ℕ) (b' : Builder K) : Prop where
  ok : b'.Ok
  grows : b.graph.Grows b'.graph
  lt : n < b'.graph.nodes.length
  sources : ∀ v p s, (b'.graph.flow v).Sources n p s ↔
    Through domains replication (b.graph.Supplies v inputs) p s

theorem sources_of_aliasOf (h : b.aliasOf key = some source)
    (p : BitPosition) (s : K × BitPosition) : (b.graph.flow v).Sources source p s ↔
      Through key.domains key.replication (b.graph.Supplies v key.inputs) p s := by
  unfold aliasOf at h
  split at h
  · rename_i source' relation condition hrep hsite hin
    split at h
    · rename_i hid
      obtain rfl := Option.some.inj h
      obtain ⟨rfl, rfl, hdomain⟩ := hid
      rw [hrep, hin, through_none, DependencyDag.supplies_identity]
      constructor
      · refine fun hs => ⟨?_, hs⟩
        rcases hdomain with hnil | hsame
        · exact .inl hnil
        · rw [hsame]
          exact inBits_of_through ((Flow.sources_iff _ _ _ _).1 hs)
      · exact And.right
    · cases h
  · cases h

theorem mem_of_aliasOf (h : b.aliasOf key = some source) : ∃ i ∈ key.inputs, i.1 = source := by
  unfold aliasOf at h
  split at h
  · rename_i hin
    split at h
    · obtain rfl := Option.some.inj h
      exact ⟨_, by rw [hin]; exact mem_singleton_self _, rfl⟩
    · cases h
  · cases h

theorem sources_of_collapsed (hb : b.Ok) {seed : ℕ} {replication : Replication}
    (h : b.collapsed key = some (seed, replication)) :
    seed < b.graph.nodes.length ∧ ∀ p s,
      Through key.domains key.replication (b.graph.Supplies v key.inputs) p s ↔
        Through key.domains (some replication) (b.graph.Supplies v [(seed, .identity, [])]) p s := by
  unfold collapsed at h
  split at h
  · rename_i stride pos source relation condition outer hrep hsite hin hdom
    obtain ⟨seed', hseed, h⟩ := Option.bind_eq_some_iff.1 h
    split at h
    · rename_i inner pos' block hnode hblock
      split at h
      · rename_i hcond
        obtain ⟨rfl, rfl⟩ := Prod.mk.inj (Option.some.inj h)
        obtain ⟨rfl, rfl, -, hne, hfit, harray, hlength, hblock0, houter0, hstride, hdvd⟩ := hcond
        obtain ⟨hlt, node, hinputs, hisNode⟩ := hb.seeds source seed' (mem_of_lookup hseed)
        refine ⟨hlt, fun p s => ?_⟩
        -- the seed fits one stride of the inner repetition
        have hseedFits : ∀ p s, (b.graph.flow v).Sources seed' p s → p.2 < inner := by
          intro p s hs
          have hbits := inBits_of_through ((Flow.sources_iff _ _ _ _).1 hs)
          rcases hbits with hnil | ⟨d, hd, -, hlo, hhi⟩
          · exact absurd hnil hne
          · exact hhi.trans_le (hfit d hd)
        have hinner : ∀ p s, (b.graph.flow v).Sources source p s ↔
            InBits [block] p ∧ (b.graph.flow v).Sources seed' (p.1, p.2 % inner) s := by
          intro p s
          have hrep' : node.replication = some ⟨.packed, inner, pos'⟩ := by
            rw [← hisNode.replication, DependencyDag.replication, hnode]
          rw [hisNode.sources, ← hisNode.domains, hblock, hrep', hinputs,
            through_congr fun p s => DependencyDag.supplies_identity seed' p s]
          exact through_blocks hblock0 hseedFits p s
        have hinnerFits : ∀ p s, (b.graph.flow v).Sources source p s → p.2 < stride := by
          intro p s hs
          rcases ((hinner p s).1 hs).1 with hnil | ⟨d, hd, -, -, hhi⟩
          · cases hnil
          · obtain rfl := mem_singleton.1 hd
            rwa [hblock0, hstride, Nat.zero_add] at hhi
        rw [hrep, hin, hdom, through_congr fun p s => DependencyDag.supplies_identity source p s,
          through_congr fun p s => DependencyDag.supplies_identity seed' p s,
          through_blocks houter0 hinnerFits, through_blocks houter0 hseedFits]
        refine and_congr_right fun hbits => ?_
        rw [hinner, Nat.mod_mod_of_dvd _ (hstride ▸ hdvd)]
        refine and_iff_right (.inr ⟨block, mem_singleton_self _, ?_⟩)
        rcases hbits with hnil | ⟨d, hd, ha, -⟩
        · cases hnil
        · obtain rfl := mem_singleton.1 hd
          rw [harray, hlength, hblock0, hstride, Nat.zero_add]
          exact ⟨ha, Nat.zero_le _, Nat.mod_lt _ pos⟩
      · cases h
    · cases h
  · cases h

theorem grows_push (b : Builder K) (key : InternalNode) (hg : b.graph.Ordered) :
    b.graph.Grows (b.push key).graph where
  length := by simp [push]
  nodes n hn := by simp [push, List.getElem?_append_left hn]
  domains n hn := by
    simp only [push, DependencyDag.domain]
    rw [List.getElem?_append_left (by rwa [hg.domains])]
  edges e he := by
    simp only [push, mem_append, mem_map, or_iff_left_iff_imp, forall_exists_index, and_imp]
    rintro i - rfl
    exact absurd he (lt_irrefl _)
  sites n hn := by
    simp only [push]
    split
    · rw [lookup_cons, if_neg (Nat.ne_of_gt hn)]
    · rfl

theorem isNode_push (b : Builder K) (key : InternalNode) (hg : b.graph.Ordered) :
    (b.push key).graph.IsNode b.graph.nodes.length key where
  lt := by simp [push]
  internal k := by
    simp only [push, List.getElem?_concat_length]
    split <;> simp
  replication := by
    simp only [push, DependencyDag.replication, List.getElem?_concat_length]
    split <;> split at * <;> simp_all
  domains := by
    simp only [push, DependencyDag.domain]
    rw [← hg.domains, List.getElem?_concat_length]
    rfl
  edges e := by
    simp only [push, mem_append, mem_map]
    constructor
    · rintro ⟨he | ⟨i, hi, rfl⟩, hd⟩
      · exact absurd (hg.forward e he).2 (by omega)
      · exact ⟨i, hi, rfl⟩
    · rintro ⟨i, hi, rfl⟩
      exact ⟨.inr ⟨i, hi, rfl⟩, rfl⟩

theorem ok_push (hb : b.Ok) (key : InternalNode)
    (hin : ∀ i ∈ key.inputs, i.1 < b.graph.nodes.length) :
    (b.push key).Ok where
  ordered := by
    refine ⟨by simp [push, hb.ordered.domains], fun e he => ?_⟩
    simp only [push, mem_append, mem_map] at he
    simp only [push, length_append, length_singleton]
    rcases he with he | ⟨i, hi, rfl⟩
    · have := hb.ordered.forward e he
      omega
    · have := hin i hi
      dsimp only
      omega
  interned key' n hn := by
    simp only [push, mem_cons, Prod.mk.injEq] at hn
    rcases hn with ⟨rfl, rfl⟩ | hn
    · exact isNode_push b key' hb.ordered
    · exact (grows_push b key hb.ordered).isNode (hb.interned key' n hn)
  seeds n seed hn := by
    have hold : (n, seed) ∈ b.replicatedSources → seed < (b.push key).graph.nodes.length ∧
        ∃ key' : InternalNode, key'.inputs = [(seed, .identity, [])] ∧
          (b.push key).graph.IsNode n key' := by
      intro hmem
      obtain ⟨hlt, key', hinputs, hnode⟩ := hb.seeds n seed hmem
      exact ⟨hlt.trans_le (grows_push b key hb.ordered).length, key', hinputs,
        (grows_push b key hb.ordered).isNode hnode⟩
    simp only [push] at hn
    split at hn
    · rename_i source relation condition hrep hinputs
      split at hn
      · rename_i hid
        obtain ⟨rfl, rfl⟩ := hid
        rcases mem_cons.1 hn with heq | hn
        · obtain ⟨rfl, rfl⟩ := Prod.mk.inj heq
          refine ⟨?_, key, hinputs, isNode_push b key hb.ordered⟩
          have := hin _ (by rw [hinputs]; exact mem_singleton_self _)
          exact this.trans_le (grows_push b key hb.ordered).length
        · exact hold hn
      · exact hold hn
    · exact hold hn

theorem builds_intern (hb : b.Ok) (key : InternalNode)
    (hin : ∀ i ∈ key.inputs, i.1 < b.graph.nodes.length) :
    let r := match lookup b.interned key with
      | some node => (node, b)
      | none => (b.graph.nodes.length, b.push key)
    b.Builds key.inputs key.domains key.replication r.1 r.2 := by
  cases hlookup : lookup b.interned key with
  | some node =>
    have hnode := hb.interned key node (mem_of_lookup hlookup)
    exact ⟨hb, .refl _, hnode.lt, fun v p s => hnode.sources p s⟩
  | none =>
    have hnode := isNode_push b key hb.ordered
    refine ⟨ok_push hb key hin, grows_push b key hb.ordered, hnode.lt, fun v p s => ?_⟩
    rw [hnode.sources]
    exact through_congr (fun p s => (grows_push b key hb.ordered).supplies hb.ordered hin p s) p s

theorem operation_eq (inputs : List Input) (domains : List PositionDomain)
    (site : Option DefinitionSite) (replication : Option Replication) {key : InternalNode}
    (hkey : (⟨(inputs.insertionSort fun i j => i.key ≤ j.key).dedup,
      (domains.insertionSort fun d e => d.key ≤ e.key).dedup,
      site.map fun s => { s with dataInputs := (s.dataInputs.insertionSort (· ≤ ·)).dedup },
      replication⟩ : InternalNode) = key) :
    b.operation inputs domains site replication = match b.aliasOf key with
      | some source => (source, b)
      | none =>
        let key := match b.collapsed key with
          | some (seed, replication) =>
            { key with inputs := [(seed, .identity, [])], replication := some replication }
          | none => key
        match lookup b.interned key with
        | some node => (node, b)
        | none => (b.graph.nodes.length, b.push key) := by
  subst hkey
  rfl

theorem builds_operation (hb : b.Ok)
    (hin : ∀ i ∈ inputs, i.1 < b.graph.nodes.length) (domains : List PositionDomain)
    (site : Option DefinitionSite) (replication : Option Replication) :
    b.Builds inputs domains replication (b.operation inputs domains site replication).1
      (b.operation inputs domains site replication).2 := by
  have hinputs : ∀ i, i ∈ (inputs.insertionSort fun i j => i.key ≤ j.key).dedup ↔ i ∈ inputs := by
    simp
  have hdomains : ∀ d, d ∈ (domains.insertionSort fun d e => d.key ≤ e.key).dedup ↔ d ∈ domains := by
    simp
  have hnormal : ∀ (v : Valuation) p s, Through (domains.insertionSort fun d e => d.key ≤ e.key).dedup
      replication (b.graph.Supplies v (inputs.insertionSort fun i j => i.key ≤ j.key).dedup) p s ↔
      Through domains replication (b.graph.Supplies v inputs) p s := fun v p s =>
    (through_congr_domains hdomains p s).trans
      (through_congr (fun p s => DependencyDag.supplies_congr hinputs p s) p s)
  have hin' : ∀ i ∈ (inputs.insertionSort fun i j => i.key ≤ j.key).dedup,
      i.1 < b.graph.nodes.length := fun i hi => hin i ((hinputs i).1 hi)
  generalize hkey : (⟨(inputs.insertionSort fun i j => i.key ≤ j.key).dedup,
    (domains.insertionSort fun d e => d.key ≤ e.key).dedup,
    site.map fun s => { s with dataInputs := (s.dataInputs.insertionSort (· ≤ ·)).dedup },
    replication⟩ : InternalNode) = key at *
  rw [operation_eq inputs domains site replication hkey]
  have hkeyInputs : key.inputs = (inputs.insertionSort fun i j => i.key ≤ j.key).dedup := by
    rw [← hkey]
  have hkeyDomains : key.domains = (domains.insertionSort fun d e => d.key ≤ e.key).dedup := by
    rw [← hkey]
  have hkeyRep : key.replication = replication := by rw [← hkey]
  simp only [← hkeyInputs, ← hkeyDomains, ← hkeyRep] at hnormal hin'
  cases halias : b.aliasOf key with
  | some source =>
    obtain ⟨i, hi, rfl⟩ := mem_of_aliasOf halias
    refine ⟨hb, .refl _, hin' i hi, fun v p s => ?_⟩
    rw [← hkeyRep]
    exact (sources_of_aliasOf halias p s).trans (hnormal v p s)
  | none =>
    cases hcollapsed : b.collapsed key with
    | some merged =>
      obtain ⟨seed, rep⟩ := merged
      have hlt := (sources_of_collapsed (v := ⟨fun _ => 0, fun _ h => h⟩) hb hcollapsed).1
      have hbuilt := builds_intern hb
        { key with inputs := [(seed, .identity, [])], replication := some rep }
        fun i hi => mem_singleton.1 hi ▸ hlt
      refine ⟨hbuilt.ok, hbuilt.grows, hbuilt.lt, fun v p s => (hbuilt.sources v p s).trans ?_⟩
      rw [← hkeyRep]
      exact ((sources_of_collapsed hb hcollapsed).2 p s).symm.trans (hnormal v p s)
    | none =>
      have hbuilt := builds_intern hb key hin'
      refine ⟨hbuilt.ok, hbuilt.grows, hbuilt.lt, fun v p s => (hbuilt.sources v p s).trans ?_⟩
      rw [← hkeyRep]
      exact hnormal v p s

end Builder
end Veryl.Analyzer.CombLoopDetect
