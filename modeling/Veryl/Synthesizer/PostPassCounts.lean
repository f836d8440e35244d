import Veryl.Synthesizer.PostPass

/-!
What the rewrites of the mapping sweep have in common: the count of readers stays
exact, new gates do not close a loop, and the cached gates are where the caches
say.
-/

namespace Veryl.Synthesizer

open List Function

section Reads

variable {m : GateModule} {i : ℕ} {c : Cell} {kind : CellKind} {inputs : List NetId} {n : NetId}

theorem mem_reads : n ∈ m.reads ↔ (∃ d ∈ m.cells, n ∈ d.inputs) ∨ n ∈ m.endpointNets := by
  simp [GateModule.reads]

theorem mem_reads_of_mem (hc : c ∈ m.cells) (hn : n ∈ c.inputs) : n ∈ m.reads :=
  mem_reads.2 (.inl ⟨c, hc, hn⟩)

theorem setCell_eq (hc : m.cells[i]? = some c) (kind : CellKind) (inputs : List NetId) :
    m.setCell i kind inputs = { m with cells := m.cells.set i ⟨kind, inputs, c.output⟩ } := by
  unfold GateModule.setCell
  rw [hc]

theorem count_reads_setCell (hc : m.cells[i]? = some c) (kind : CellKind) (inputs : List NetId)
    (n : NetId) :
    (m.setCell i kind inputs).reads.count n + c.inputs.count n =
      m.reads.count n + inputs.count n := by
  obtain ⟨xs, ys, heq, hset⟩ := set_split hc
  rw [setCell_eq hc]
  show ((m.cells.set i ⟨kind, inputs, c.output⟩).flatMap Cell.inputs ++ m.endpointNets).count n + _ =
    (m.cells.flatMap Cell.inputs ++ m.endpointNets).count n + _
  rw [hset, heq]
  simp only [flatMap_append, flatMap_cons, count_append]
  omega

theorem count_reads_mkCell (m : GateModule) (kind : CellKind) (inputs : List NetId) (n : NetId) :
    (m.mkCell kind inputs).1.reads.count n = m.reads.count n + inputs.count n := by
  show ((m.cells ++ [Cell.mk kind inputs m.nets.length]).flatMap Cell.inputs ++ m.endpointNets).count n =
    (m.cells.flatMap Cell.inputs ++ m.endpointNets).count n + _
  simp only [flatMap_append, flatMap_cons, flatMap_nil, count_append, append_nil]
  omega

theorem getElem?_setCell_ne (hc : m.cells[i]? = some c) {j : ℕ} (hj : j ≠ i) :
    (m.setCell i kind inputs).cells[j]? = m.cells[j]? := by
  rw [setCell_eq hc]
  exact getElem?_set_ne (Ne.symm hj)

theorem getElem?_setCell_self (hc : m.cells[i]? = some c) :
    (m.setCell i kind inputs).cells[i]? = some ⟨kind, inputs, c.output⟩ := by
  rw [setCell_eq hc]
  exact getElem?_set_self (List.getElem?_eq_some_iff.1 hc).1

theorem sole_reader (hone : m.reads.count n = 1) (hc : m.cells[i]? = some c) (hn : n ∈ c.inputs) :
    c.inputs.count n = 1 ∧ (∀ (j : ℕ) (d : Cell), m.cells[j]? = some d → j ≠ i → n ∉ d.inputs) ∧
      n ∉ m.endpointNets := by
  have hpos := count_pos_iff.2 hn
  have hcount := count_reads_setCell hc .buf [] n
  simp only [count_nil, Nat.add_zero, hone] at hcount
  -- without this cell nothing reads the net
  have hnone : n ∉ (m.setCell i .buf []).reads := by
    rw [← count_eq_zero]
    omega
  refine ⟨by omega, fun j d hd hj hmem => hnone ?_, fun hmem => hnone ?_⟩
  · exact mem_reads_of_mem (mem_of_getElem? ((getElem?_setCell_ne hc hj).trans hd)) hmem
  · refine mem_reads.2 (.inr ?_)
    rw [setCell_eq hc]
    exact hmem

/-- The number of nets that are read. -/
def readCount (m : GateModule) : ℕ := m.reads.toFinset.card

theorem mem_reads_setCell (hc : m.cells[i]? = some c) (hsub : ∀ k ∈ inputs, k ∈ m.reads)
    (hk : n ∈ (m.setCell i kind inputs).reads) : n ∈ m.reads := by
  by_cases hmem : n ∈ inputs
  · exact hsub n hmem
  · have hcount := count_reads_setCell hc kind inputs n
    have hpos := count_pos_iff.2 hk
    rw [count_eq_zero_of_not_mem hmem] at hcount
    exact count_pos_iff.1 (by omega)

theorem readCount_setCell_le (hc : m.cells[i]? = some c) (hsub : ∀ k ∈ inputs, k ∈ m.reads) :
    readCount (m.setCell i kind inputs) ≤ readCount m := by
  refine Finset.card_le_card fun k hk => ?_
  rw [mem_toFinset] at hk ⊢
  exact mem_reads_setCell hc hsub hk

theorem readCount_setCell_lt (hc : m.cells[i]? = some c) (hone : m.reads.count n = 1)
    (hn : n ∈ c.inputs) (hnew : n ∉ inputs) (hsub : ∀ k ∈ inputs, k ∈ m.reads) :
    readCount (m.setCell i kind inputs) < readCount m := by
  have hcount := count_reads_setCell hc kind inputs
  refine Finset.card_lt_card ⟨fun k hk => ?_, fun hsuper => ?_⟩
  · rw [mem_toFinset] at hk ⊢
    exact mem_reads_setCell hc hsub hk
  · have hmem : n ∈ m.reads.toFinset := by
      rw [mem_toFinset, ← count_pos_iff]
      omega
    have hpos := count_pos_iff.2 (mem_toFinset.1 (hsuper hmem))
    have hn' := hcount n
    have hself := count_pos_iff.2 hn
    rw [count_eq_zero_of_not_mem hnew] at hn'
    omega

end Reads

section Ranks

variable {m : GateModule} {r : NetId → ℕ} {d : Cell}

theorem cell_unique (hm : m.WellFormed) {c : Cell} (hc : c ∈ m.cells) (hd : d ∈ m.cells)
    (hout : c.output = d.output) : c = d := by
  obtain ⟨i, hi⟩ := mem_iff_getElem?.1 hc
  obtain ⟨j, hj⟩ := mem_iff_getElem?.1 hd
  obtain rfl := Drives.index_unique hm hi hj hout
  exact Option.some.inj (hi.symm.trans hj)

/-- A rank that puts a cell as low as its reads allow. -/
def lowered (r : NetId → ℕ) (d : Cell) : NetId → ℕ :=
  Function.update (fun n => 2 * r n + 1) d.output (2 * maxRank (fun n => r n + 1) d.inputs)

theorem ranks_lowered (hm : m.WellFormed) (hr : m.Ranks r) (hd : d ∈ m.cells) :
    m.Ranks (lowered r d) := by
  have hlevel : maxRank (fun n => r n + 1) d.inputs ≤ r d.output :=
    maxRank_le fun n hn => hr d hd n hn
  intro c hc n hn
  have hlt := hr c hc n hn
  unfold lowered
  by_cases hcd : c.output = d.output
  · obtain rfl := cell_unique hm hc hd hcd
    rw [update_self, update_of_ne fun heq => by simp [heq] at hlt]
    have hle := @le_maxRank (fun n => r n + 1) c.inputs n hn
    omega
  · rw [update_of_ne hcd]
    by_cases hnd : n = d.output
    · subst hnd
      rw [update_self]
      omega
    · rw [update_of_ne hnd]
      omega

theorem lowered_lt {x n : NetId} (hx : x ≠ d.output) (hbelow : ∀ k ∈ d.inputs, r k < r x)
    (hn : r n < r x ∨ n = d.output) : lowered r d n < lowered r d x := by
  have hlevel : maxRank (fun n => r n + 1) d.inputs ≤ r x := maxRank_le fun k hk => hbelow k hk
  unfold lowered
  rw [update_of_ne hx]
  by_cases hnd : n = d.output
  · subst hnd
    rw [update_self]
    omega
  · rw [update_of_ne hnd]
    have hlt := hn.resolve_right hnd
    omega

end Ranks

/-- The module is sound and the count is that of its reads. -/
structure PostPassCtx.Good (ctx : PostPassCtx) : Prop where
  wellFormed : ctx.gate.WellFormed
  closed : ctx.gate.Closed
  acyclic : ctx.gate.Acyclic
  count : ∀ n, ctx.consumerCount n = ctx.gate.reads.count n

section Good

variable {ctx : PostPassCtx} {i : ℕ} {c : Cell} {kind : CellKind} {inputs : List NetId}

theorem rewriteCell_eq (hc : ctx.gate.cells[i]? = some c) (kind : CellKind) (inputs : List NetId) :
    ctx.rewriteCell i kind inputs =
      { ctx with
        gate := ctx.gate.setCell i kind inputs
        consumerCount := fun n => ctx.consumerCount n - c.inputs.count n + inputs.count n } := by
  unfold PostPassCtx.rewriteCell
  rw [hc]

theorem gate_rewriteCell (hc : ctx.gate.cells[i]? = some c) (kind : CellKind)
    (inputs : List NetId) : (ctx.rewriteCell i kind inputs).gate =
      ctx.gate.setCell i kind inputs := by
  rw [rewriteCell_eq hc]

theorem count_rewriteCell (h : ∀ n, ctx.consumerCount n = ctx.gate.reads.count n)
    (hc : ctx.gate.cells[i]? = some c) (kind : CellKind)
    (inputs : List NetId) (n : NetId) : (ctx.rewriteCell i kind inputs).consumerCount n =
      (ctx.rewriteCell i kind inputs).gate.reads.count n := by
  have hcount := count_reads_setCell hc kind inputs n
  rw [rewriteCell_eq hc]
  show ctx.consumerCount n - c.inputs.count n + inputs.count n =
    (ctx.gate.setCell i kind inputs).reads.count n
  -- the cell's own reads are counted
  have hle : c.inputs.count n ≤ ctx.gate.reads.count n := by
    have hbuf := count_reads_setCell hc .buf [] n
    rw [count_nil] at hbuf
    omega
  rw [h]
  omega

theorem PostPassCtx.Good.rewriteCell (h : ctx.Good) {r : NetId → ℕ} (hr : ctx.gate.Ranks r)
    (hc : ctx.gate.cells[i]? = some c) (harity : inputs.length = kind.arity)
    (hinputs : ∀ n ∈ inputs, n < ctx.gate.nets.length ∧ r n < r c.output)
    (hvalue : ∀ ρ, Solves ctx.gate.nets ctx.gate.cells ρ → ρ c.output = kind.eval (inputs.map ρ)) :
    (ctx.rewriteCell i kind inputs).Good ∧
      Rewrites ctx.gate (ctx.rewriteCell i kind inputs).gate := by
  have hrewrites := rewrites_setCell_of_solves h.wellFormed h.closed hr hc harity hinputs hvalue
  rw [← gate_rewriteCell hc] at hrewrites
  have hranks := @ranks_setCell _ r i c kind inputs hr hc fun n hn => (hinputs n hn).2
  rw [← gate_rewriteCell hc] at hranks
  exact ⟨⟨hrewrites.wellFormed, hrewrites.closed, ⟨r, hranks⟩, count_rewriteCell h.count hc kind inputs⟩,
    hrewrites⟩

theorem PostPassCtx.Good.mkCell (h : ctx.Good) (harity : inputs.length = kind.arity)
    (hinputs : ∀ n ∈ inputs, n < ctx.gate.nets.length) :
    (ctx.mkCell kind inputs).1.Good ∧ Rewrites ctx.gate (ctx.mkCell kind inputs).1.gate := by
  have hrewrites := rewrites_mkCell h.wellFormed h.closed harity hinputs
  obtain ⟨r, hr⟩ := h.acyclic
  have hranks := @ranks_mkCell _ r kind inputs h.wellFormed h.closed hr (maxRank r inputs + 1)
    fun n hn => ⟨hinputs n hn, Nat.lt_succ_of_le (le_maxRank hn)⟩
  refine ⟨⟨hrewrites.wellFormed, hrewrites.closed, ⟨_, hranks⟩, fun n => ?_⟩, hrewrites⟩
  exact (congrArg (· + inputs.count n) (h.count n)).trans (count_reads_mkCell ..).symm

end Good

def NotCached (ctx : PostPassCtx) : Prop :=
  ∀ n k, ctx.notCache n = some k → (⟨.not, [n], k⟩ : Cell) ∈ ctx.gate.cells

def BinopCached (ctx : PostPassCtx) : Prop :=
  ∀ kind p k, ctx.binopCache kind p = some k → (⟨kind, [p.1, p.2], k⟩ : Cell) ∈ ctx.gate.cells

/-- What making a gate, or finding it, leaves: the old cells stay and the gate is
there. -/
structure Materialized (ctx : PostPassCtx) (out : PostPassCtx × NetId) (kind : CellKind)
    (inputs : List NetId) : Prop where
  good : out.1.Good
  rewrites : Rewrites ctx.gate out.1.gate
  notCached : NotCached out.1
  binopCached : BinopCached ctx → BinopCached out.1
  cells : ∃ added, out.1.gate.cells = ctx.gate.cells ++ added ∧ ∀ d ∈ added, d.kind = kind
  mem : (⟨kind, inputs, out.2⟩ : Cell) ∈ out.1.gate.cells

section Materialize

variable {ctx : PostPassCtx}

theorem notCached_new {m : GateModule} (hm : m.WellFormed) : NotCached (PostPassCtx.new m) := by
  intro n k h
  obtain ⟨c, hc, rfl⟩ := Option.map_eq_some_iff.1 h
  have hp := find?_some hc
  have hmem := mem_of_find?_eq_some hc
  simp only [Bool.and_eq_true, decide_eq_true_eq] at hp
  obtain ⟨hkind, rfl⟩ := hp
  obtain ⟨a, ha⟩ := length_eq_one_iff.1 ((hm.arity c hmem).trans (by rw [hkind]; rfl))
  obtain ⟨kind, inputs, output⟩ := c
  subst hkind ha
  exact hmem

theorem materializeNot_spec (h : ctx.Good) (hnot : NotCached ctx) {src : NetId}
    (hsrc : src < ctx.gate.nets.length) :
    Materialized ctx (ctx.materializeNot src) .not [src] := by
  unfold PostPassCtx.materializeNot
  cases hcache : ctx.notCache src with
  | some k =>
    exact ⟨h, .refl h.wellFormed h.closed, hnot, id, ⟨[], (append_nil _).symm, by simp⟩,
      hnot src k hcache⟩
  | none =>
    obtain ⟨hgood, hrewrites⟩ := @PostPassCtx.Good.mkCell ctx .not [src] h rfl (by simpa using hsrc)
    have hmem : (⟨.not, [src], ctx.gate.nets.length⟩ : Cell) ∈ (ctx.mkCell .not [src]).1.gate.cells :=
      mem_append_right _ (mem_singleton_self _)
    refine ⟨⟨hgood.wellFormed, hgood.closed, hgood.acyclic, hgood.count⟩, hrewrites,
      fun n k hk => ?_, fun hbinop kind p k hk => mem_append_left _ (hbinop kind p k hk),
      ⟨_, rfl, by simp⟩, hmem⟩
    change Function.update ctx.notCache src _ n = some k at hk
    rw [update_apply] at hk
    split at hk
    · rename_i heq
      obtain rfl := Option.some.inj hk
      rw [heq]
      exact hmem
    · exact mem_append_left _ (hnot n k hk)

theorem sortPair_mem {a b n : NetId} (h : n = (sortPair a b).1 ∨ n = (sortPair a b).2) :
    n = a ∨ n = b := by
  unfold sortPair at h
  split at h
  · exact h
  · exact h.symm

theorem materializeBinop_spec (h : ctx.Good) (hnot : NotCached ctx) (hbinop : BinopCached ctx)
    {kind : CellKind} (hkind : kind.arity = 2) {a b : NetId} (ha : a < ctx.gate.nets.length)
    (hb : b < ctx.gate.nets.length) :
    Materialized ctx (ctx.materializeBinop kind a b) kind [(sortPair a b).1, (sortPair a b).2] := by
  unfold PostPassCtx.materializeBinop
  dsimp only
  cases hcache : ctx.binopCache kind (sortPair a b) with
  | some k =>
    exact ⟨h, .refl h.wellFormed h.closed, hnot, id, ⟨[], (append_nil _).symm, by simp⟩,
      hbinop _ _ k hcache⟩
  | none =>
    have hinputs : ∀ n ∈ [(sortPair a b).1, (sortPair a b).2], n < ctx.gate.nets.length := by
      intro n hn
      simp only [mem_cons, not_mem_nil, or_false] at hn
      obtain rfl | rfl := sortPair_mem hn
      · exact ha
      · exact hb
    obtain ⟨hgood, hrewrites⟩ :=
      @PostPassCtx.Good.mkCell ctx kind [(sortPair a b).1, (sortPair a b).2] h hkind.symm hinputs
    have hmem : (⟨kind, [(sortPair a b).1, (sortPair a b).2], ctx.gate.nets.length⟩ : Cell) ∈
        (ctx.mkCell kind [(sortPair a b).1, (sortPair a b).2]).1.gate.cells :=
      mem_append_right _ (mem_singleton_self _)
    refine ⟨⟨hgood.wellFormed, hgood.closed, hgood.acyclic, hgood.count⟩, hrewrites,
      fun n k hk => mem_append_left _ (hnot n k hk), fun _ kind' p k hk => ?_,
      ⟨_, rfl, by simp⟩, hmem⟩
    dsimp only at hk
    split at hk
    · rename_i heq
      obtain ⟨rfl, rfl⟩ := heq
      obtain rfl := Option.some.inj hk
      exact hmem
    · exact mem_append_left _ (hbinop kind' p k hk)

end Materialize

end Veryl.Synthesizer
