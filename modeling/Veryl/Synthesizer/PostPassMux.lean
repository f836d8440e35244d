import Veryl.Synthesizer.PostPassCounts

/-!
The phases on nested multiplexers: every rewrite moves a leg of a multiplexer
down, so they end, and each keeps the value of every net.
-/

namespace Veryl.Synthesizer

open List Option

variable {out : PostPassCtx × NetId} {s : NetId} {ctx' : PostPassCtx}

variable {ρ : NetId → Bool} {d : Cell} {a b : NetId} {kind : CellKind} {ns inputs : List NetId}

section Loops

variable {visit : PostPassCtx → ℕ → Option PostPassCtx} {P : PostPassCtx → Prop}
  {μ : PostPassCtx → ℕ}

section

variable (hvisit : ∀ ctx i ctx', P ctx → visit ctx i = some ctx' → P ctx' ∧ μ ctx' < μ ctx)

include hvisit

theorem sweep_spec (is : List ℕ) : ∀ st : PostPassCtx × Bool, P st.1 →
      P (is.foldl (sweepVisit visit) st).1 ∧ μ (is.foldl (sweepVisit visit) st).1 ≤ μ st.1 ∧
        ((is.foldl (sweepVisit visit) st).2 = true →
          st.2 = true ∨ μ (is.foldl (sweepVisit visit) st).1 < μ st.1) := by
  induction is with
  | nil => exact fun st h => ⟨h, Nat.le_refl _, fun hst => .inl hst⟩
  | cons i is ih =>
    intro st h
    rw [foldl_cons]
    cases hi : visit st.1 i with
    | none =>
      have hsame : sweepVisit visit st i = st := by
        unfold sweepVisit
        rw [hi]
      rw [hsame]
      exact ih st h
    | some ctx =>
      have hnext : sweepVisit visit st i = (ctx, true) := by
        unfold sweepVisit
        rw [hi]
      obtain ⟨hP, hlt⟩ := hvisit st.1 i ctx h hi
      rw [hnext]
      obtain ⟨hkeeps, hle, -⟩ := ih (ctx, true) hP
      have hle' : μ (is.foldl (sweepVisit visit) (ctx, true)).1 ≤ μ ctx := hle
      exact ⟨hkeeps, by omega, fun _ => .inr (by omega)⟩

theorem untilStable_ends (k : ℕ) :
    ∀ ctx, P ctx → μ ctx < k → ∃ out, untilStable visit k ctx = some out := by
  induction k with
  | zero => exact fun ctx _ h => absurd h (Nat.not_lt_zero _)
  | succ k ih =>
    intro ctx h hk
    obtain ⟨hP, -, hlt⟩ := sweep_spec hvisit (List.range ctx.gate.cells.length) (ctx, false) h
    unfold untilStable
    split
    · rename_i hchanged
      obtain hfalse | hlt := hlt hchanged
      · cases hfalse
      · exact ih _ hP (Nat.lt_of_lt_of_le hlt (Nat.le_of_lt_succ hk))
    · exact ⟨_, rfl⟩

theorem untilStable_keeps (k : ℕ)
    {out : PostPassCtx} : ∀ ctx, P ctx → untilStable visit k ctx = some out → P out := by
  induction k with
  | zero => exact fun ctx _ h => by cases h
  | succ k ih =>
    intro ctx hP h
    obtain ⟨hswept, -, -⟩ := sweep_spec hvisit (List.range ctx.gate.cells.length) (ctx, false) hP
    unfold untilStable at h
    split at h
    · exact ih _ hswept h
    · exact some.inj h ▸ hswept

end

theorem untilStable_mono {k k' : ℕ} (hk : k ≤ k') {out : PostPassCtx} :
    ∀ ctx, untilStable visit k ctx = some out → untilStable visit k' ctx = some out := by
  induction k generalizing k' with
  | zero => exact fun ctx h => by cases h
  | succ k ih =>
    intro ctx h
    obtain ⟨l, rfl⟩ : ∃ l, k' = l + 1 := ⟨k' - 1, by omega⟩
    unfold untilStable at h ⊢
    split
    · rename_i hchanged
      rw [if_pos hchanged] at h
      exact ih (Nat.le_of_succ_le_succ hk) _ h
    · rename_i hchanged
      rwa [if_neg hchanged] at h

end Loops

section Mux

variable {m : GateModule} {c : Cell} {i : ℕ} {r₀ : NetId → ℕ}

section

variable (hm : m.WellFormed)

include hm

theorem mux_inputs (hc : c ∈ m.cells) (hkind : c.kind = .mux2) :
    c.inputs = [netAt c.inputs 0, netAt c.inputs 1, netAt c.inputs 2] := by
  obtain ⟨s, d0, d1, h⟩ := length_eq_three.1 ((hm.arity c hc).trans (by rw [hkind]; rfl))
  simp [h, netAt]

theorem mux_value (hc : c ∈ m.cells) (hkind : c.kind = .mux2) (hρ : Solves m.nets m.cells ρ) :
    ρ c.output = if ρ (netAt c.inputs 0) then ρ (netAt c.inputs 2) else ρ (netAt c.inputs 1) := by
  rw [hρ.cell_eq c hc, hkind, mux_inputs hm hc hkind]
  rfl

theorem mem_of_driverCell {n : NetId} {j : ℕ}
    (h : m.driverCell n = some (j, d)) : d ∈ m.cells ∧ d.output = n := by
  obtain ⟨hd, hout⟩ := driverCell_eq hm h
  exact ⟨mem_of_getElem? hd, hout⟩

theorem not_value (hc : c ∈ m.cells) (hkind : c.kind = .not) (hρ : Solves m.nets m.cells ρ) :
    ρ c.output = !ρ (netAt c.inputs 0) := by
  obtain ⟨a, ha⟩ := length_eq_one_iff.1 ((hm.arity c hc).trans (by rw [hkind]; rfl))
  rw [hρ.cell_eq c hc, hkind, ha]
  rfl

end

/-- The legs of a multiplexer lie below it. -/
def MuxLegs (r₀ : NetId → ℕ) (m : GateModule) : Prop :=
  ∀ c ∈ m.cells, c.kind = .mux2 →
    r₀ (netAt c.inputs 1) < r₀ c.output ∧ r₀ (netAt c.inputs 2) < r₀ c.output

def legWeightOf (r₀ : NetId → ℕ) (c : Cell) : ℕ :=
  if c.kind = .mux2 then r₀ (netAt c.inputs 1) + r₀ (netAt c.inputs 2) else 0

def legWeight (r₀ : NetId → ℕ) (m : GateModule) : ℕ := (m.cells.map (legWeightOf r₀)).sum

theorem legWeight_setCell (hc : m.cells[i]? = some c) (hkind : c.kind = .mux2)
    (hlt : r₀ a + r₀ b < r₀ (netAt c.inputs 1) + r₀ (netAt c.inputs 2)) :
    legWeight r₀ (m.setCell i .mux2 [s, a, b]) < legWeight r₀ m := by
  obtain ⟨xs, ys, heq, hset⟩ := set_split hc
  have hold : legWeightOf r₀ c = r₀ (netAt c.inputs 1) + r₀ (netAt c.inputs 2) := if_pos hkind
  have hnew : legWeightOf r₀ ⟨.mux2, [s, a, b], c.output⟩ = r₀ a + r₀ b := rfl
  rw [setCell_eq hc]
  unfold legWeight
  rw [hset, heq]
  simp only [map_append, map_cons, sum_append, sum_cons, hold, hnew]
  omega

theorem mem_setCell_of_ne (hc : m.cells[i]? = some c) (hd : d ∈ m.cells) (hne : d ≠ c)
    (kind : CellKind) (inputs : List NetId) : d ∈ (m.setCell i kind inputs).cells := by
  obtain ⟨j, hj⟩ := mem_iff_getElem?.1 hd
  have hji : j ≠ i := by
    rintro rfl
    exact hne (some.inj (hj.symm.trans hc))
  exact mem_of_getElem? ((getElem?_setCell_ne hc hji).trans hj)

theorem mem_setCell_cases (hc : m.cells[i]? = some c) (hd : d ∈ (m.setCell i kind inputs).cells) :
    d = ⟨kind, inputs, c.output⟩ ∨ d ∈ m.cells := by
  rw [setCell_eq hc] at hd
  exact mem_set_cases hc hd

/-- What the phases on nested multiplexers keep. -/
structure Muxing (m : GateModule) (r₀ : NetId → ℕ) (ctx : PostPassCtx) : Prop where
  good : ctx.Good
  rewrites : Rewrites m ctx.gate
  notCached : NotCached ctx
  binopCached : BinopCached ctx
  notMux : ∀ kind p k, ctx.binopCache kind p = some k → kind ≠ .mux2
  legs : MuxLegs r₀ ctx.gate

/-- Some rank puts the nets below a net. -/
def Below (m : GateModule) (x : NetId) (ns : List NetId) : Prop :=
  ∃ r, m.Ranks r ∧ ∀ n ∈ ns, r n < r x

/-- A gate of such nets is one of them. -/
theorem Below.cons (hm : m.WellFormed) {x : NetId} {ns : List NetId} (h : Below m x ns) {d : Cell}
    (hd : d ∈ m.cells) (hx : x ≠ d.output) (hinputs : ∀ n ∈ d.inputs, n ∈ ns) :
    Below m x (d.output :: ns) := by
  obtain ⟨r, hr, hns⟩ := h
  refine ⟨lowered r d, ranks_lowered hm hr hd, fun n hn => ?_⟩
  refine lowered_lt hx (fun k hk => hns k (hinputs k hk)) ?_
  obtain rfl | hn := mem_cons.1 hn
  · exact .inr rfl
  · exact .inl (hns n hn)

variable {ctx : PostPassCtx}

/-- A multiplexer with lighter legs and the same value. -/
theorem Muxing.rewrite (h : Muxing m r₀ ctx) (hc : ctx.gate.cells[i]? = some c)
    (hkind : c.kind = .mux2) (hbelow : Below ctx.gate c.output ns)
    (hinputs : ∀ n ∈ [s, a, b], n ∈ ns ∧ n < ctx.gate.nets.length)
    (hvalue : ∀ ρ, Solves ctx.gate.nets ctx.gate.cells ρ → ρ c.output = if ρ s then ρ b else ρ a)
    (hlegs : r₀ a < r₀ c.output ∧ r₀ b < r₀ c.output)
    (hlt : r₀ a + r₀ b < r₀ (netAt c.inputs 1) + r₀ (netAt c.inputs 2)) :
    Muxing m r₀ (ctx.rewriteCell i .mux2 [s, a, b]) ∧
      legWeight r₀ (ctx.rewriteCell i .mux2 [s, a, b]).gate < legWeight r₀ ctx.gate := by
  obtain ⟨r, hr, hns⟩ := hbelow
  obtain ⟨hgood, hrewrites⟩ := @PostPassCtx.Good.rewriteCell ctx i c .mux2 [s, a, b] h.good r hr hc rfl
    (fun n hn => ⟨(hinputs n hn).2, hns n (hinputs n hn).1⟩) hvalue
  -- the cached gates are not multiplexers
  have hcached : ∀ d ∈ ctx.gate.cells, d.kind ≠ .mux2 →
      d ∈ (ctx.rewriteCell i .mux2 [s, a, b]).gate.cells := by
    intro d hd hne
    rw [gate_rewriteCell hc]
    refine mem_setCell_of_ne hc hd ?_ _ _
    rintro rfl
    exact hne hkind
  have hcaches : (ctx.rewriteCell i .mux2 [s, a, b]).notCache = ctx.notCache ∧
      (ctx.rewriteCell i .mux2 [s, a, b]).binopCache = ctx.binopCache := by
    rw [rewriteCell_eq hc]
    exact ⟨rfl, rfl⟩
  refine ⟨⟨hgood, h.rewrites.trans hrewrites, fun n k hk => ?_, fun kind p k hk => ?_,
    fun kind p k hk => ?_, fun d hd hmux => ?_⟩, ?_⟩
  · rw [hcaches.1] at hk
    exact hcached _ (h.notCached n k hk) (by simp)
  · rw [hcaches.2] at hk
    exact hcached _ (h.binopCached kind p k hk) (h.notMux kind p k hk)
  · rw [hcaches.2] at hk
    exact h.notMux kind p k hk
  · rw [gate_rewriteCell hc] at hd
    obtain rfl | hd := mem_setCell_cases hc hd
    · exact hlegs
    · exact h.legs d hd hmux
  · rw [gate_rewriteCell hc]
    exact legWeight_setCell hc hkind hlt

theorem peekSameSelMux_spec (hm : m.WellFormed) {net outerSel in0 in1 : NetId} {same : Bool}
    (h : peekSameSelMux m net outerSel = some (in0, in1, same)) :
    ∃ d ∈ m.cells, d.kind = .mux2 ∧ d.output = net ∧ netAt d.inputs 1 = in0 ∧
      netAt d.inputs 2 = in1 ∧ ∀ ρ, Solves m.nets m.cells ρ →
        ρ (netAt d.inputs 0) = if same then ρ outerSel else !ρ outerSel := by
  unfold peekSameSelMux at h
  split at h
  · rename_i j d hd
    obtain ⟨hmem, hout⟩ := mem_of_driverCell hm hd
    split at h
    · cases h
    rename_i hkind
    refine ⟨d, hmem, not_not.1 hkind, hout, ?_⟩
    split at h
    · rename_i hsel
      obtain ⟨rfl, rfl, rfl⟩ : netAt d.inputs 1 = in0 ∧ netAt d.inputs 2 = in1 ∧ true = same := by
        simpa using h
      exact ⟨rfl, rfl, fun ρ _ => by rw [hsel]; rfl⟩
    · split at h
      · rename_i k n hn
        obtain ⟨hnmem, hnout⟩ := mem_of_driverCell hm hn
        split at h
        · rename_i hnot
          obtain ⟨rfl, rfl, rfl⟩ : netAt d.inputs 1 = in0 ∧ netAt d.inputs 2 = in1 ∧ false = same := by
            simpa using h
          refine ⟨rfl, rfl, fun ρ hρ => ?_⟩
          rw [← hnout, not_value hm hnmem hnot.1 hρ, hnot.2]
          rfl
        · cases h
      · cases h
  · cases h

theorem netAt_mem_mux (hm : m.WellFormed) (hc : c ∈ m.cells) (hkind : c.kind = .mux2) {k : ℕ}
    (hk : k < 3) : netAt c.inputs k ∈ c.inputs :=
  netAt_mem (by rw [hm.arity c hc, hkind]; exact hk)

theorem inner_reads (hm : m.WellFormed) (hclosed : m.Closed) {r : NetId → ℕ} (hr : m.Ranks r)
    (hc : c ∈ m.cells) (hkind : c.kind = .mux2) {x : NetId} (hx : r c.output ≤ r x) {k : ℕ}
    (hk : k < 3) : r (netAt c.inputs k) < r x ∧ netAt c.inputs k < m.nets.length :=
  ⟨Nat.lt_of_lt_of_le (hr c hc _ (netAt_mem_mux hm hc hkind hk)) hx,
    input_lt hclosed hc (netAt_mem_mux hm hc hkind hk)⟩

theorem collapseSameSelVisit_spec (h : Muxing m r₀ ctx)
    (hvisit : collapseSameSelVisit ctx i = some ctx') :
    Muxing m r₀ ctx' ∧ legWeight r₀ ctx'.gate < legWeight r₀ ctx.gate := by
  have hm := h.good.wellFormed
  unfold collapseSameSelVisit at hvisit
  split at hvisit
  · rename_i c hc
    have hmem := mem_of_getElem? hc
    split at hvisit
    · cases hvisit
    rename_i hkind
    have hkind : c.kind = .mux2 := not_not.1 hkind
    obtain ⟨r, hr⟩ := h.good.acyclic
    have hread := fun k hk => @inner_reads _ c hm h.good.closed r hr hmem hkind c.output le_rfl k hk
    obtain ⟨hself1, hself2⟩ := h.legs c hmem hkind
    dsimp only at hvisit
    split at hvisit
    · rename_i in0 in1 same hpeek
      obtain rfl := some.inj hvisit
      obtain ⟨d, hd, hdkind, hout, rfl, rfl, hsel⟩ := peekSameSelMux_spec hm hpeek
      obtain ⟨hleg1, hleg2⟩ := h.legs d hd hdkind
      rw [hout] at hleg1 hleg2
      have hin := fun k hk => @inner_reads _ d hm h.good.closed r hr hd hdkind c.output
        (hout ▸ (hread 2 (by omega)).1.le) k hk
      have hnew : ∀ n ∈ [netAt c.inputs 0, netAt c.inputs 1,
          if same then netAt d.inputs 2 else netAt d.inputs 1],
          r n < r c.output ∧ n < ctx.gate.nets.length := by
        intro n hn
        simp only [mem_cons, not_mem_nil, or_false] at hn
        obtain rfl | rfl | rfl := hn
        · exact hread 0 (by omega)
        · exact hread 1 (by omega)
        · cases same
          · exact hin 1 (by omega)
          · exact hin 2 (by omega)
      refine h.rewrite hc hkind ⟨r, hr, fun n hn => (hnew n hn).1⟩ (fun n hn => ⟨hn, (hnew n hn).2⟩)
        (fun ρ hρ => ?_) ⟨hself1, ?_⟩ ?_
      · have hinner := mux_value hm hd hdkind hρ
        rw [hout, hsel ρ hρ] at hinner
        rw [mux_value hm hmem hkind hρ, hinner]
        cases ρ (netAt c.inputs 0) <;> cases same <;> rfl
      · cases same
        · exact Nat.lt_trans hleg1 hself2
        · exact Nat.lt_trans hleg2 hself2
      · cases same
        · exact Nat.add_lt_add_left hleg1 _
        · exact Nat.add_lt_add_left hleg2 _
    · split at hvisit
      · rename_i in0 in1 same hpeek
        obtain rfl := some.inj hvisit
        obtain ⟨d, hd, hdkind, hout, rfl, rfl, hsel⟩ := peekSameSelMux_spec hm hpeek
        obtain ⟨hleg1, hleg2⟩ := h.legs d hd hdkind
        rw [hout] at hleg1 hleg2
        have hin := fun k hk => @inner_reads _ d hm h.good.closed r hr hd hdkind c.output
          (hout ▸ (hread 1 (by omega)).1.le) k hk
        have hnew : ∀ n ∈ [netAt c.inputs 0,
            if same then netAt d.inputs 1 else netAt d.inputs 2, netAt c.inputs 2],
            r n < r c.output ∧ n < ctx.gate.nets.length := by
          intro n hn
          simp only [mem_cons, not_mem_nil, or_false] at hn
          obtain rfl | rfl | rfl := hn
          · exact hread 0 (by omega)
          · cases same
            · exact hin 2 (by omega)
            · exact hin 1 (by omega)
          · exact hread 2 (by omega)
        refine h.rewrite hc hkind ⟨r, hr, fun n hn => (hnew n hn).1⟩
          (fun n hn => ⟨hn, (hnew n hn).2⟩) (fun ρ hρ => ?_) ⟨?_, hself2⟩ ?_
        · have hinner := mux_value hm hd hdkind hρ
          rw [hout, hsel ρ hρ] at hinner
          rw [mux_value hm hmem hkind hρ, hinner]
          cases ρ (netAt c.inputs 0) <;> cases same <;> rfl
        · cases same
          · exact Nat.lt_trans hleg2 hself1
          · exact Nat.lt_trans hleg1 hself1
        · cases same
          · exact Nat.add_lt_add_right hleg2 _
          · exact Nat.add_lt_add_right hleg1 _
      · cases hvisit
  · cases hvisit

theorem classifyMom_spec (hm : ctx.gate.WellFormed) {s1 inner shared s2 other : NetId}
    {pat : MomPattern} {innerIsD0Leg : Bool}
    (h : classifyMom ctx s1 inner shared innerIsD0Leg = some (pat, s2, other)) :
    ∃ d ∈ ctx.gate.cells, d.kind = .mux2 ∧ d.output = inner ∧ netAt d.inputs 0 = s2 ∧
      (pat = (if innerIsD0Leg then .a else .d) ∧ netAt d.inputs 2 = shared ∧ netAt d.inputs 1 = other ∨
        pat = (if innerIsD0Leg then .c else .b) ∧ netAt d.inputs 1 = shared ∧
          netAt d.inputs 2 = other) := by
  unfold classifyMom at h
  split at h
  · cases h
  split at h
  · rename_i j d hd
    obtain ⟨hmem, hout⟩ := mem_of_driverCell hm hd
    dsimp only at h
    split at h
    · cases h
    rename_i hguard
    have hkind : d.kind = .mux2 := by
      by_contra hne
      exact hguard (.inl hne)
    refine ⟨d, hmem, hkind, hout, ?_⟩
    cases innerIsD0Leg
    all_goals
      simp only [if_true, if_false, Bool.false_eq_true] at h ⊢
      split at h
      · rename_i hshared
        obtain ⟨rfl, rfl, rfl⟩ := h
        simp [hshared]
      · split at h
        · rename_i hshared
          obtain ⟨rfl, rfl, rfl⟩ := h
          simp [hshared]
        · cases h
  · cases h

theorem mem_of_materialized (hout : Materialized ctx out kind inputs) (hd : d ∈ ctx.gate.cells) :
    d ∈ out.1.gate.cells := by
  obtain ⟨added, heq, -⟩ := hout.cells
  rw [heq]
  exact mem_append_left _ hd

theorem Muxing.materialized (h : Muxing m r₀ ctx) (hout : Materialized ctx out kind inputs)
    (hkind : kind ≠ .mux2)
    (hnotMux : ∀ kind p k, out.1.binopCache kind p = some k → kind ≠ .mux2) :
    Muxing m r₀ out.1 ∧ legWeight r₀ out.1.gate = legWeight r₀ ctx.gate := by
  obtain ⟨added, heq, hadded⟩ := hout.cells
  have hzero : ∀ d ∈ added, legWeightOf r₀ d = 0 := fun d hd =>
    if_neg (by rw [hadded d hd]; exact hkind)
  refine ⟨⟨hout.good, h.rewrites.trans hout.rewrites, hout.notCached, hout.binopCached h.binopCached,
    hnotMux, fun d hd hmux => ?_⟩, ?_⟩
  · rw [heq] at hd
    obtain hd | hd := mem_append.1 hd
    · exact h.legs d hd hmux
    · exact absurd ((hadded d hd).symm.trans hmux) hkind
  · have hsum : (added.map (legWeightOf r₀)).sum = 0 :=
      sum_eq_zero fun w hw => by
        obtain ⟨d, hd, rfl⟩ := List.mem_map.1 hw
        exact hzero d hd
    unfold legWeight
    rw [heq, map_append, sum_append, hsum, Nat.add_zero]

theorem notMux_materializeNot (h : Muxing m r₀ ctx) (src : NetId) (kind : CellKind)
    (p : NetId × NetId) (k : NetId)
    (hk : (ctx.materializeNot src).1.binopCache kind p = some k) : kind ≠ .mux2 := by
  unfold PostPassCtx.materializeNot at hk
  split at hk
  · exact h.notMux kind p k hk
  · exact h.notMux kind p k hk

theorem notMux_materializeBinop (h : Muxing m r₀ ctx) {binop : CellKind} (hbinop : binop ≠ .mux2)
    (a b : NetId) (kind : CellKind) (p : NetId × NetId) (k : NetId)
    (hk : (ctx.materializeBinop binop a b).1.binopCache kind p = some k) : kind ≠ .mux2 := by
  unfold PostPassCtx.materializeBinop at hk
  dsimp only at hk
  split at hk
  · exact h.notMux kind p k hk
  · dsimp only at hk
    split at hk
    · rename_i heq
      exact heq.1 ▸ hbinop
    · exact h.notMux kind p k hk

theorem binop_value (hkind : kind = .or2 ∨ kind = .and2) {k : NetId}
    (hmem : (⟨kind, [(sortPair a b).1, (sortPair a b).2], k⟩ : Cell) ∈ m.cells)
    (hρ : Solves m.nets m.cells ρ) : ρ k = kind.eval [ρ a, ρ b] := by
  have hvalue := hρ.cell_eq _ hmem
  refine hvalue.trans ?_
  unfold sortPair
  split
  · rfl
  · obtain rfl | rfl := hkind
    · exact Bool.or_comm _ _
    · exact Bool.and_comm _ _

theorem binop_below (hm : m.WellFormed) {x k : NetId} (h : Below m x ns)
    (hmem : (⟨kind, [(sortPair a b).1, (sortPair a b).2], k⟩ : Cell) ∈ m.cells) (hx : x ≠ k)
    (ha : a ∈ ns) (hb : b ∈ ns) : Below m x (k :: ns) := by
  refine h.cons hm hmem hx fun n hn => ?_
  simp only [mem_cons, not_mem_nil, or_false] at hn
  obtain rfl | rfl := sortPair_mem hn
  · exact ha
  · exact hb

theorem output_ne (hm : m.WellFormed) (hc : c ∈ m.cells) (hd : d ∈ m.cells)
    (hne : c.kind ≠ d.kind) : c.output ≠ d.output := by
  intro hout
  exact hne (congrArg Cell.kind (cell_unique hm hc hd hout))

/-- A select is made for an outer and an inner multiplexer. -/
structure Selected (m : GateModule) (r₀ : NetId → ℕ) (ctx : PostPassCtx) (c : Cell)
    (ns : List NetId) (out : PostPassCtx × NetId) (value : (NetId → Bool) → Bool) : Prop where
  muxing : Muxing m r₀ out.1
  weight : legWeight r₀ out.1.gate = legWeight r₀ ctx.gate
  rewrites : Rewrites ctx.gate out.1.gate
  cells : ∃ added, out.1.gate.cells = ctx.gate.cells ++ added
  below : Below out.1.gate c.output (out.2 :: ns)
  lt : out.2 < out.1.gate.nets.length
  reads_lt : ∀ n ∈ ns, n < out.1.gate.nets.length
  value_eq : ∀ ρ, Solves out.1.gate.nets out.1.gate.cells ρ → ρ out.2 = value ρ

theorem below_nested (hclosed : m.Closed) (hacyclic : m.Acyclic)
    (hc : c ∈ m.cells) (hd : d ∈ m.cells) (hleg : d.output ∈ c.inputs) :
    Below m c.output (c.inputs ++ d.inputs) ∧ ∀ n ∈ c.inputs ++ d.inputs, n < m.nets.length := by
  obtain ⟨r, hr⟩ := hacyclic
  refine ⟨⟨r, hr, fun n hn => ?_⟩, fun n hn => ?_⟩
  · obtain hn | hn := mem_append.1 hn
    · exact hr c hc n hn
    · exact Nat.lt_trans (hr d hd n hn) (hr c hc _ hleg)
  · obtain hn | hn := mem_append.1 hn
    · exact input_lt hclosed hc hn
    · exact input_lt hclosed hd hn

theorem ne_mux_of_binop (hkind : kind = .or2 ∨ kind = .and2) : kind ≠ .mux2 := by
  obtain rfl | rfl := hkind <;> simp

theorem selected_binop (h : Muxing m r₀ ctx) (hc : c ∈ ctx.gate.cells) (hkind : c.kind = .mux2)
    (hd : d ∈ ctx.gate.cells) (hleg : d.output ∈ c.inputs)
    (hbinop : kind = .or2 ∨ kind = .and2) (ha : a ∈ c.inputs ++ d.inputs)
    (hb : b ∈ c.inputs ++ d.inputs) :
    Selected m r₀ ctx c (c.inputs ++ d.inputs) (ctx.materializeBinop kind a b)
      fun ρ => kind.eval [ρ a, ρ b] := by
  obtain ⟨-, hlt⟩ := below_nested h.good.closed h.good.acyclic hc hd hleg
  have harity : kind.arity = 2 := by obtain rfl | rfl := hbinop <;> rfl
  have hmade := materializeBinop_spec h.good h.notCached h.binopCached harity (hlt a ha) (hlt b hb)
  obtain ⟨hmuxing, hweight⟩ := h.materialized hmade (ne_mux_of_binop hbinop)
    (notMux_materializeBinop h (ne_mux_of_binop hbinop) a b)
  have hc' := mem_of_materialized hmade hc
  have hd' := mem_of_materialized hmade hd
  obtain ⟨hbelow, hlt'⟩ := below_nested hmade.good.closed hmade.good.acyclic hc' hd' hleg
  have hne : c.output ≠ (ctx.materializeBinop kind a b).2 :=
    output_ne hmade.good.wellFormed hc' hmade.mem (by
      rw [hkind]
      exact (ne_mux_of_binop hbinop).symm)
  obtain ⟨added, hadded, -⟩ := hmade.cells
  exact ⟨hmuxing, hweight, hmade.rewrites, ⟨added, hadded⟩,
    binop_below hmade.good.wellFormed hbelow hmade.mem hne ha hb,
    output_lt hmade.good.wellFormed hmade.mem, hlt', fun ρ hρ => binop_value hbinop hmade.mem hρ⟩

/-- The same with one side inverted. -/
theorem selected_not (h : Muxing m r₀ ctx) (hc : c ∈ ctx.gate.cells) (hkind : c.kind = .mux2)
    (hd : d ∈ ctx.gate.cells) (hleg : d.output ∈ c.inputs)
    (ha : a ∈ c.inputs ++ d.inputs) (hb : b ∈ c.inputs ++ d.inputs) :
    (Selected m r₀ ctx c (c.inputs ++ d.inputs)
      ((ctx.materializeNot a).1.materializeBinop .and2 (ctx.materializeNot a).2 b)
      fun ρ => !ρ a && ρ b) ∧
    Selected m r₀ ctx c (c.inputs ++ d.inputs)
      ((ctx.materializeNot a).1.materializeBinop .and2 b (ctx.materializeNot a).2)
      fun ρ => ρ b && !ρ a := by
  obtain ⟨-, hlt⟩ := below_nested h.good.closed h.good.acyclic hc hd hleg
  have hnot := materializeNot_spec h.good h.notCached (hlt a ha)
  obtain ⟨hmuxing, hweight⟩ := h.materialized hnot (by simp) (notMux_materializeNot h a)
  have hc₁ := mem_of_materialized hnot hc
  have hd₁ := mem_of_materialized hnot hd
  have hlt₁ := (below_nested hnot.good.closed hnot.good.acyclic hc₁ hd₁ hleg).2
  have hnotlt := output_lt hnot.good.wellFormed hnot.mem
  have hand : CellKind.and2 = .or2 ∨ CellKind.and2 = .and2 := .inr rfl
  have hboth : ∀ x y : NetId, x < (ctx.materializeNot a).1.gate.nets.length →
      y < (ctx.materializeNot a).1.gate.nets.length →
      x ∈ (ctx.materializeNot a).2 :: (c.inputs ++ d.inputs) →
      y ∈ (ctx.materializeNot a).2 :: (c.inputs ++ d.inputs) → ∀ value : (NetId → Bool) → Bool,
      (∀ ρ : NetId → Bool, ρ (ctx.materializeNot a).2 = !ρ a → (ρ x && ρ y) = value ρ) →
      Selected m r₀ ctx c (c.inputs ++ d.inputs)
        ((ctx.materializeNot a).1.materializeBinop .and2 x y) value := by
    intro x y hxlt hylt hx hy value hvalue
    have hmade := materializeBinop_spec hnot.good hnot.notCached hmuxing.binopCached
      (show CellKind.arity .and2 = 2 from rfl) hxlt hylt
    obtain ⟨hmuxing', hweight'⟩ := hmuxing.materialized hmade (by simp)
      (notMux_materializeBinop hmuxing (by simp) x y)
    have hm := hmade.good.wellFormed
    have hc₂ := mem_of_materialized hmade hc₁
    have hd₂ := mem_of_materialized hmade hd₁
    have hnot₂ := mem_of_materialized hmade hnot.mem
    obtain ⟨hbelow, hlt₂⟩ := below_nested hmade.good.closed hmade.good.acyclic hc₂ hd₂ hleg
    have hbelow' := hbelow.cons hm hnot₂ (output_ne hm hc₂ hnot₂ (by simp [hkind])) (by simpa using ha)
    obtain ⟨r, hr, hall⟩ := binop_below hm hbelow' hmade.mem
      (output_ne hm hc₂ hmade.mem (by simp [hkind])) hx hy
    obtain ⟨added, hadded, -⟩ := hnot.cells
    obtain ⟨added', hadded', -⟩ := hmade.cells
    refine ⟨hmuxing', hweight'.trans hweight, hnot.rewrites.trans hmade.rewrites, ⟨added ++ added', by
      rw [hadded', hadded, append_assoc]⟩, ⟨r, hr, fun n hn => hall n ?_⟩,
      output_lt hm hmade.mem, hlt₂, fun ρ hρ => ?_⟩
    · obtain rfl | hn := mem_cons.1 hn
      · exact mem_cons_self ..
      · exact mem_cons_of_mem _ (mem_cons_of_mem _ hn)
    · rw [binop_value hand hmade.mem hρ]
      exact hvalue ρ (hρ.cell_eq _ hnot₂)
  refine ⟨hboth _ b hnotlt (hlt₁ b hb) (mem_cons_self ..) (mem_cons_of_mem _ hb) _
      fun ρ hρ => by rw [hρ], hboth b _ (hlt₁ b hb) hnotlt (mem_cons_of_mem _ hb)
      (mem_cons_self ..) _ fun ρ hρ => by rw [hρ]⟩

theorem Selected.rewrite {value : (NetId → Bool) → Bool} (h : Selected m r₀ ctx c ns out value)
    (hc : ctx.gate.cells[i]? = some c) (hkind : c.kind = .mux2) (ha : a ∈ ns)
    (hb : b ∈ ns)
    (hvalue : ∀ ρ, Solves out.1.gate.nets out.1.gate.cells ρ →
      ρ c.output = if value ρ then ρ b else ρ a)
    (hlegs : r₀ a < r₀ c.output ∧ r₀ b < r₀ c.output)
    (hlt : r₀ a + r₀ b < r₀ (netAt c.inputs 1) + r₀ (netAt c.inputs 2)) :
    Muxing m r₀ (out.1.rewriteCell i .mux2 [out.2, a, b]) ∧
      legWeight r₀ (out.1.rewriteCell i .mux2 [out.2, a, b]).gate < legWeight r₀ ctx.gate := by
  obtain ⟨added, hadded⟩ := h.cells
  have hc' : out.1.gate.cells[i]? = some c := by
    rw [hadded, getElem?_append_left (List.getElem?_eq_some_iff.1 hc).1, hc]
  rw [← h.weight]
  refine h.muxing.rewrite hc' hkind h.below (fun n hn => ?_) (fun ρ hρ => ?_) hlegs hlt
  · simp only [mem_cons, not_mem_nil, or_false] at hn
    obtain rfl | rfl | rfl := hn
    · exact ⟨mem_cons_self .., h.lt⟩
    · exact ⟨mem_cons_of_mem _ ha, h.reads_lt _ ha⟩
    · exact ⟨mem_cons_of_mem _ hb, h.reads_lt _ hb⟩
  · rw [h.value_eq ρ hρ]
    exact hvalue ρ hρ

theorem combineMuxOfMuxVisit_spec (h : Muxing m r₀ ctx)
    (hvisit : combineMuxOfMuxVisit ctx i = some ctx') :
    Muxing m r₀ ctx' ∧ legWeight r₀ ctx'.gate < legWeight r₀ ctx.gate := by
  have hm := h.good.wellFormed
  unfold combineMuxOfMuxVisit at hvisit
  split at hvisit
  · rename_i c hc
    have hmem := mem_of_getElem? hc
    split at hvisit
    · cases hvisit
    rename_i hkind
    have hkind : c.kind = .mux2 := not_not.1 hkind
    obtain ⟨⟨pat, s2, other⟩, hhit, rfl⟩ := map_eq_some_iff.1 hvisit
    obtain ⟨hself1, hself2⟩ := h.legs c hmem hkind
    have hs1 := netAt_mem_mux hm hmem hkind (show 0 < 3 by omega)
    have hd0 := netAt_mem_mux hm hmem hkind (show 1 < 3 by omega)
    have hd1 := netAt_mem_mux hm hmem hkind (show 2 < 3 by omega)
    have hvalue : ∀ {gate : GateModule}, Rewrites ctx.gate gate → ∀ d ∈ ctx.gate.cells,
        d.kind = .mux2 → ∀ ρ, Solves gate.nets gate.cells ρ → ρ d.output =
          if ρ (netAt d.inputs 0) then ρ (netAt d.inputs 2) else ρ (netAt d.inputs 1) :=
      fun hrewrites d hd hdkind ρ hρ => mux_value hm hd hdkind (hrewrites.equations ρ hρ)
    obtain hhit | ⟨-, hhit⟩ := or_eq_some_iff.1 hhit
    -- the inner multiplexer is at the first leg
    · obtain ⟨d, hd, hdkind, hout, rfl, hpat⟩ := classifyMom_spec hm hhit
      obtain ⟨hleg1, hleg2⟩ := h.legs d hd hdkind
      rw [hout] at hleg1 hleg2
      have hleg : d.output ∈ c.inputs := hout ▸ hd0
      have hinner := fun k hk => mem_append_right c.inputs (@netAt_mem_mux _ d hm hd hdkind k hk)
      obtain ⟨rfl, hshared, rfl⟩ | ⟨rfl, hshared, rfl⟩ := hpat
      · have hsel := selected_binop h hmem hkind hd hleg (.inl rfl) (mem_append_left _ hs1)
          (hinner 0 (by omega))
        refine hsel.rewrite hc hkind (hinner 1 (by omega)) (mem_append_left _ hd1)
          (fun ρ hρ => ?_) ⟨by omega, hself2⟩ (by omega)
        have hd' := hvalue hsel.rewrites d hd hdkind ρ hρ
        rw [hout, hshared] at hd'
        rw [hvalue hsel.rewrites c hmem hkind ρ hρ, hd']
        cases ρ (netAt c.inputs 0) <;> cases ρ (netAt d.inputs 0) <;> rfl
      · have hsel := (selected_not h hmem hkind hd hleg (mem_append_left _ hs1)
          (hinner 0 (by omega))).1
        refine hsel.rewrite hc hkind (mem_append_left _ hd1) (hinner 2 (by omega))
          (fun ρ hρ => ?_) ⟨hself2, by omega⟩ (by omega)
        have hd' := hvalue hsel.rewrites d hd hdkind ρ hρ
        rw [hout, hshared] at hd'
        rw [hvalue hsel.rewrites c hmem hkind ρ hρ, hd']
        cases ρ (netAt c.inputs 0) <;> cases ρ (netAt d.inputs 0) <;> rfl
    -- and here at the second
    · obtain ⟨d, hd, hdkind, hout, rfl, hpat⟩ := classifyMom_spec hm hhit
      obtain ⟨hleg1, hleg2⟩ := h.legs d hd hdkind
      rw [hout] at hleg1 hleg2
      have hleg : d.output ∈ c.inputs := hout ▸ hd1
      have hinner := fun k hk => mem_append_right c.inputs (@netAt_mem_mux _ d hm hd hdkind k hk)
      obtain ⟨rfl, hshared, rfl⟩ | ⟨rfl, hshared, rfl⟩ := hpat
      · have hsel := (selected_not h hmem hkind hd hleg (hinner 0 (by omega))
          (mem_append_left _ hs1)).2
        refine hsel.rewrite hc hkind (mem_append_left _ hd0) (hinner 1 (by omega))
          (fun ρ hρ => ?_) ⟨hself1, by omega⟩ (by omega)
        have hd' := hvalue hsel.rewrites d hd hdkind ρ hρ
        rw [hout, hshared] at hd'
        rw [hvalue hsel.rewrites c hmem hkind ρ hρ, hd']
        cases ρ (netAt c.inputs 0) <;> cases ρ (netAt d.inputs 0) <;> rfl
      · have hsel := selected_binop h hmem hkind hd hleg (.inr rfl) (mem_append_left _ hs1)
          (hinner 0 (by omega))
        refine hsel.rewrite hc hkind (mem_append_left _ hd0) (hinner 2 (by omega))
          (fun ρ hρ => ?_) ⟨hself1, by omega⟩ (by omega)
        have hd' := hvalue hsel.rewrites d hd hdkind ρ hρ
        rw [hout, hshared] at hd'
        rw [hvalue hsel.rewrites c hmem hkind ρ hρ, hd']
        cases ρ (netAt c.inputs 0) <;> cases ρ (netAt d.inputs 0) <;> rfl
  · cases hvisit

end Mux

end Veryl.Synthesizer
