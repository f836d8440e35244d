import Veryl.Synthesizer.PostPassMux

/-!
The phases that take gates apart, and the whole sweep: each rewrite leaves fewer
nets read, and only a gate with one reader changes its value.
-/

namespace Veryl.Synthesizer

open List Option Function Nat Prod GateModule

variable {compound : CellKind} {v ρ' : NetId → Bool}

variable {n : NetId} {kind : CellKind} {d : Cell} {ρ : NetId → Bool} {inputs : List NetId}
  {m : GateModule} {r : NetId → ℕ} {m' : GateModule}

/-- The endpoints stay on their nets and keep their values. -/
structure Keeps (m m' : GateModule) : Prop where
  nets : ∃ added : List ℕ, m'.nets = m.nets ++ added.map NetDriver.cell
  ports : m'.ports = m.ports
  ffs : m'.ffs = m.ffs
  ramBlocks : m'.ramBlocks = m.ramBlocks
  value : ∀ v ρ ρ', m.Solves v ρ → m'.Solves v ρ' → ∀ n ∈ m.endpointNets, ρ' n = ρ n

section Keeps

variable {m m' m'' : GateModule}

theorem references_of_endpoint (hn : n ∈ m.endpointNets) : m.References n := by
  simp only [endpointNets, mem_append, mem_flatMap, mem_cons, mem_toList, mem_flatten] at hn
  obtain (⟨ff, hff, hn⟩ | ⟨port, hport, hn⟩) | hn := hn
  · exact .inr (.inr (.inl ⟨ff, hff, hn.imp_right fun h => h.imp_right fun h => h⟩))
  · exact .inr (.inl ⟨port, hport, hn⟩)
  · exact .inr (.inr (.inr hn))

theorem endpoint_lt (hclosed : m.Closed) (hn : n ∈ m.endpointNets) :
    n < m.nets.length := hclosed n (references_of_endpoint hn)

theorem Rewrites.keeps (h : Rewrites m m') (hm : m.WellFormed) (hclosed : m.Closed)
    (hacyclic : m.Acyclic) : Keeps m m' :=
  ⟨h.nets, h.ports, h.ffs, h.ramBlocks, fun _ _ _ hρ hρ' _ hn =>
    h.value_eq hm hclosed hacyclic hρ hρ' (endpoint_lt hclosed hn)⟩

theorem endpointNets_congr (hports : m'.ports = m.ports) (hffs : m'.ffs = m.ffs)
    (hrams : m'.ramBlocks = m.ramBlocks) : m'.endpointNets = m.endpointNets := by
  simp only [endpointNets, ramInputNets, hports, hffs, hrams]

theorem Keeps.trans (h : Keeps m m') (h' : Keeps m' m'') (hm : m'.WellFormed)
    (hacyclic : m'.Acyclic) : Keeps m m'' := by
  refine ⟨extends_trans h.nets h'.nets, h'.ports.trans h.ports, h'.ffs.trans h.ffs,
    h'.ramBlocks.trans h.ramBlocks, fun v ρ ρ'' hρ hρ'' n hn => ?_⟩
  obtain ⟨r, hr⟩ := hacyclic.ranked hm
  obtain ⟨ρ', hρ', -⟩ := existsUnique_solves hr hm v
  have hn' : n ∈ m'.endpointNets := by rwa [endpointNets_congr h.ports h.ffs h.ramBlocks]
  rw [h'.value v ρ' ρ'' hρ' hρ'' n hn', h.value v ρ ρ' hρ hρ' n hn]

end Keeps

structure Sweeping (m : GateModule) (ctx : PostPassCtx) : Prop where
  good : ctx.Good
  keeps : Keeps m ctx.gate
  notCached : NotCached ctx

section Phases

variable {m : GateModule} {ctx ctx' : PostPassCtx} {i : ℕ} {c : Cell}

theorem Sweeping.rewrites (h : Sweeping m ctx) (hgood : ctx'.Good)
    (hrewrites : Rewrites ctx.gate ctx'.gate) (hnot : NotCached ctx') : Sweeping m ctx' :=
  ⟨hgood, h.keeps.trans (hrewrites.keeps h.good.wellFormed h.good.closed h.good.acyclic)
    h.good.wellFormed h.good.acyclic, hnot⟩

theorem notCache_rewriteCell (ctx : PostPassCtx) (i : ℕ) (kind : CellKind) (inputs : List NetId) :
    (ctx.rewriteCell i kind inputs).notCache = ctx.notCache := by
  unfold PostPassCtx.rewriteCell
  split <;> rfl

theorem NotCached.rewriteCell (h : NotCached ctx) (hc : ctx.gate.cells[i]? = some c)
    (hkind : c.kind ≠ .not) (kind : CellKind) (inputs : List NetId) :
    NotCached (ctx.rewriteCell i kind inputs) := by
  intro n k hk
  rw [notCache_rewriteCell] at hk
  rw [gate_rewriteCell hc]
  refine mem_setCell_of_ne hc (h n k hk) ?_ _ _
  rintro rfl
  exact hkind rfl

theorem commonInput_spec {xs ys : List NetId} (hxs : xs.length = 2) (hys : ys.length = 2)
    {common left right : NetId} (h : commonInput xs ys = some (common, left, right))
    (hkind : isFactor kind = true) :
    (common ∈ xs ∧ left ∈ xs ∧ common ∈ ys ∧ right ∈ ys) ∧ ∀ ρ : NetId → Bool,
      kind.eval (xs.map ρ) = kind.eval [ρ common, ρ left] ∧
        kind.eval (ys.map ρ) = kind.eval [ρ common, ρ right] := by
  have hcomm : ∀ a b, kind.eval [a, b] = kind.eval [b, a] := by
    intro a b
    cases kind <;> simp only [isFactor, Bool.false_eq_true] at hkind
    · exact Bool.and_comm a b
    · exact Bool.or_comm a b
    · exact Bool.xor_comm a b
  obtain ⟨a0, a1, rfl⟩ := length_eq_two.1 hxs
  obtain ⟨b0, b1, rfl⟩ := length_eq_two.1 hys
  simp only [commonInput, netAt, getD_cons_zero, getD_cons_succ] at h
  unfold findCommonInput at h
  split at h
  · rename_i heq
    subst heq
    obtain ⟨rfl, rfl, rfl⟩ : a0 = common ∧ a1 = left ∧ b1 = right := by simpa using h
    exact ⟨by simp, fun ρ => ⟨rfl, rfl⟩⟩
  · split at h
    · rename_i heq
      subst heq
      obtain ⟨rfl, rfl, rfl⟩ : a0 = common ∧ a1 = left ∧ b0 = right := by simpa using h
      exact ⟨by simp, fun ρ => ⟨rfl, hcomm _ _⟩⟩
    · split at h
      · rename_i heq
        subst heq
        obtain ⟨rfl, rfl, rfl⟩ : a1 = common ∧ a0 = left ∧ b1 = right := by simpa using h
        exact ⟨by simp, fun ρ => ⟨hcomm _ _, rfl⟩⟩
      · split at h
        · rename_i heq
          subst heq
          obtain ⟨rfl, rfl, rfl⟩ : a1 = common ∧ a0 = left ∧ b0 = right := by simpa using h
          exact ⟨by simp, fun ρ => ⟨hcomm _ _, hcomm _ _⟩⟩
        · cases h

/-- A rewrite of a cell that takes in a gate with no other reader. -/
structure Fused (ctx : PostPassCtx) (i : ℕ) (c : Cell) (kind : CellKind) (inputs : List NetId) :
    Prop where
  arity : inputs.length = kind.arity
  reads : ∀ k ∈ inputs, k ∈ c.inputs ∨ ∃ d ∈ ctx.gate.cells, d.output ∈ c.inputs ∧ k ∈ d.inputs
  sole : ∃ n ∈ c.inputs, ctx.consumerCount n = 1 ∧ n ∉ inputs
  value : ∀ ρ, Solves ctx.gate.nets ctx.gate.cells ρ → ρ c.output = kind.eval (inputs.map ρ)

theorem soleDriver_spec (hm : ctx.gate.WellFormed) {up : Cell} (h : soleDriver ctx n = some up) :
    ctx.consumerCount n = 1 ∧ up ∈ ctx.gate.cells ∧ up.output = n := by
  unfold soleDriver at h
  split at h
  · rename_i hone
    obtain ⟨⟨j, d⟩, hd, rfl⟩ := map_eq_some_iff.1 h
    exact ⟨hone, mem_of_driverCell hm hd⟩
  · cases h

theorem PostPassCtx.Good.not_read (h : ctx.Good) (hc : ctx.gate.cells[i]? = some c)
    (hn : n ∈ c.inputs) (hone : ctx.consumerCount n = 1) (hd : d ∈ ctx.gate.cells)
    (hne : d ≠ c) : n ∉ d.inputs := by
  obtain ⟨j, hj⟩ := mem_iff_getElem?.1 hd
  refine (sole_reader ((h.count n).symm.trans hone) hc hn).2.1 j d hj ?_
  rintro rfl
  exact hne (some.inj (hj.symm.trans hc))

theorem ne_of_read (hacyclic : m.Acyclic) (hc : c ∈ m.cells)
    (hd : d.output ∈ c.inputs) : d ≠ c := by
  obtain ⟨r, hr⟩ := hacyclic
  rintro rfl
  exact absurd (hr d hc _ hd) (lt_irrefl _)

theorem fuseNot_spec (h : ctx.Good) (hc : ctx.gate.cells[i]? = some c) (hkind : c.kind = .not)
    (hfuse : fuseNot ctx c.inputs = some (kind, inputs)) :
    Fused ctx i c kind inputs := by
  have hm := h.wellFormed
  have hmem := mem_of_getElem? hc
  obtain ⟨n, hn⟩ := length_eq_one_iff.1 ((hm.arity c hmem).trans (by rw [hkind]; rfl))
  have hnet : netAt c.inputs 0 = n := by simp [hn, netAt]
  unfold fuseNot at hfuse
  rw [hnet] at hfuse
  split at hfuse
  · rename_i up hup
    obtain ⟨hone, hupmem, rfl⟩ := soleDriver_spec hm hup
    obtain ⟨kind', hfused, heq⟩ := map_eq_some_iff.1 hfuse
    obtain ⟨rfl, rfl⟩ := mk.inj heq
    have hread : up.output ∈ c.inputs := by simp [hn]
    have hsound : kind'.arity = up.kind.arity ∧ ∀ vs : List Bool, vs.length = up.kind.arity →
        kind'.eval vs = !up.kind.eval vs := by
      unfold fusedNot at hfused
      split at hfused
      · rename_i hao
        obtain rfl := some.inj hfused
        refine ⟨by rw [hao]; rfl, fun vs hvs => ?_⟩
        rw [hao] at hvs ⊢
        obtain ⟨x, y, z, w, rfl⟩ := length_four hvs
        rfl
      · obtain ⟨harity, -, -, heval⟩ := CellKind.inverted_sound hfused
        exact ⟨harity, heval⟩
    refine ⟨(hm.arity up hupmem).trans hsound.1.symm, fun k hk => .inr ⟨up, hupmem, hread, hk⟩,
      ⟨up.output, hread, hone, h.not_read hc hread hone hupmem (ne_of_read h.acyclic hmem hread)⟩,
      fun ρ hρ => ?_⟩
    rw [hρ.cell_eq c hmem, hkind, hn, hsound.2 _ (by rw [length_map, hm.arity up hupmem]),
      ← hρ.cell_eq up hupmem]
    rfl
  · cases hfuse

theorem twoPivot_sound {leg : CellKind} (h : twoPivot kind = some (leg, compound)) :
    leg.arity = 2 ∧ compound.arity = 4 ∧ ∀ a b c d,
      compound.eval [a, b, c, d] = kind.eval [leg.eval [a, b], leg.eval [c, d]] := by
  unfold twoPivot at h
  split at h
  all_goals
    first
    | cases h
      exact ⟨rfl, rfl, fun _ _ _ _ => rfl⟩
    | cases h

theorem fusedPair_sound {up : CellKind} (h : fusedPair kind up = some compound) :
    compound.arity = up.arity + 1 ∧ ∀ (vs : List Bool) (b : Bool), vs.length = up.arity →
      compound.eval (vs ++ [b]) = kind.eval [up.eval vs, b] ∧
        compound.eval (vs ++ [b]) = kind.eval [b, up.eval vs] := by
  unfold fusedPair at h
  split at h
  all_goals try cases h
  all_goals
    refine ⟨rfl, fun vs b hvs => ?_⟩
    first
    | obtain ⟨x, y, rfl⟩ := length_eq_two.1 hvs
      cases x <;> cases y <;> cases b <;> exact ⟨rfl, rfl⟩
    | obtain ⟨x, y, z, rfl⟩ := length_eq_three.1 hvs
      cases x <;> cases y <;> cases z <;> cases b <;> exact ⟨rfl, rfl⟩

theorem fuseLegs_spec (h : ctx.Good) (hc : ctx.gate.cells[i]? = some c) (harity : c.kind.arity = 2)
    (hfuse : fuseLegs ctx c.kind c.inputs = some (kind, inputs)) : Fused ctx i c kind inputs := by
  have hm := h.wellFormed
  have hmem := mem_of_getElem? hc
  have hinputs := length_two ((hm.arity c hmem).trans harity)
  unfold fuseLegs at hfuse
  split at hfuse
  · rename_i leg compound lhs rhs hpivot hlhs hrhs
    split at hfuse
    · rename_i hlegs
      obtain ⟨rfl, rfl⟩ := mk.inj (some.inj hfuse)
      obtain ⟨hone, hlmem, hlout⟩ := soleDriver_spec hm hlhs
      obtain ⟨-, hrmem, hrout⟩ := soleDriver_spec hm hrhs
      obtain ⟨hleg, hcompound, heval⟩ := twoPivot_sound hpivot
      have hlread : lhs.output ∈ c.inputs := by
        rw [hinputs, hlout]
        simp
      have hrread : rhs.output ∈ c.inputs := by
        rw [hinputs, hrout]
        simp
      have hlinputs := length_two ((hm.arity lhs hlmem).trans (hlegs.1 ▸ hleg))
      have hrinputs := length_two ((hm.arity rhs hrmem).trans (hlegs.2 ▸ hleg))
      have happend : [netAt lhs.inputs 0, netAt lhs.inputs 1, netAt rhs.inputs 0, netAt rhs.inputs 1] =
          lhs.inputs ++ rhs.inputs := by
        rw [hlinputs, hrinputs]
        rfl
      rw [happend]
      refine ⟨by rw [length_append, hm.arity lhs hlmem, hm.arity rhs hrmem, hlegs.1, hlegs.2,
        hleg, hcompound], fun k hk => .inr ?_, ⟨lhs.output, hlread, hlout ▸ hone, fun hk => ?_⟩,
        fun ρ hρ => ?_⟩
      · obtain hk | hk := mem_append.1 hk
        · exact ⟨lhs, hlmem, hlread, hk⟩
        · exact ⟨rhs, hrmem, hrread, hk⟩
      · obtain hk | hk := mem_append.1 hk
        · exact h.not_read hc hlread (hlout ▸ hone) hlmem (ne_of_read h.acyclic hmem hlread) hk
        · exact h.not_read hc hlread (hlout ▸ hone) hrmem (ne_of_read h.acyclic hmem hrread) hk
      · have hl := hρ.cell_eq lhs hlmem
        have hr := hρ.cell_eq rhs hrmem
        rw [hlegs.1, hlinputs] at hl
        rw [hlegs.2, hrinputs] at hr
        rw [hρ.cell_eq c hmem, hinputs, ← hlout, ← hrout, ← happend]
        simp only [map_cons, map_nil, heval] at hl hr ⊢
        rw [hl, hr]
    · cases hfuse
  · cases hfuse

theorem fuseOne_spec (h : ctx.Good) (hc : ctx.gate.cells[i]? = some c) {upNet other : NetId}
    (hinputs : c.inputs = [upNet, other] ∨ c.inputs = [other, upNet])
    (hfuse : fuseOne ctx c.kind upNet other = some (kind, inputs)) :
    Fused ctx i c kind inputs := by
  have hm := h.wellFormed
  have hmem := mem_of_getElem? hc
  unfold fuseOne at hfuse
  split at hfuse
  · rename_i up hup
    obtain ⟨hone, hupmem, rfl⟩ := soleDriver_spec hm hup
    obtain ⟨compound, hpair, heq⟩ := map_eq_some_iff.1 hfuse
    obtain ⟨rfl, rfl⟩ := mk.inj heq
    obtain ⟨harity, heval⟩ := fusedPair_sound hpair
    have hread : up.output ∈ c.inputs := by obtain hin | hin := hinputs <;> simp [hin]
    have hother : other ∈ c.inputs := by obtain hin | hin := hinputs <;> simp [hin]
    -- the cell itself reads the net once
    have hne : up.output ≠ other := by
      intro heq
      have hcount := (sole_reader ((h.count _).symm.trans hone) hc hread).1
      obtain hin | hin := hinputs <;> simp [hin, heq] at hcount
    refine ⟨by rw [length_append, hm.arity up hupmem, harity]; rfl, fun k hk => ?_,
      ⟨up.output, hread, hone, fun hk => ?_⟩, fun ρ hρ => ?_⟩
    · obtain hk | hk := mem_append.1 hk
      · exact .inr ⟨up, hupmem, hread, hk⟩
      · exact .inl (mem_singleton.1 hk ▸ hother)
    · obtain hk | hk := mem_append.1 hk
      · exact h.not_read hc hread hone hupmem (ne_of_read h.acyclic hmem hread) hk
      · exact hne (mem_singleton.1 hk)
    · obtain ⟨hleft, hright⟩ := heval (up.inputs.map ρ) (ρ other)
        (by rw [length_map, hm.arity up hupmem])
      rw [hρ.cell_eq c hmem, map_append, map_singleton]
      obtain hin | hin := hinputs
      · rw [hleft, hin, ← hρ.cell_eq up hupmem]
        rfl
      · rw [hright, hin, ← hρ.cell_eq up hupmem]
        rfl
  · cases hfuse

theorem tryComplexFuse_spec (h : ctx.Good) (hfuse : tryComplexFuse ctx i = some (kind, inputs)) :
    ∃ c, ctx.gate.cells[i]? = some c ∧ Fused ctx i c kind inputs := by
  unfold tryComplexFuse at hfuse
  split at hfuse
  · rename_i c hc
    refine ⟨c, hc, ?_⟩
    have hpair : c.kind.arity = 2 → ((fuseLegs ctx c.kind c.inputs).or
        (fuseOne ctx c.kind (netAt c.inputs 0) (netAt c.inputs 1))).or
        (fuseOne ctx c.kind (netAt c.inputs 1) (netAt c.inputs 0)) = some (kind, inputs) →
        Fused ctx i c kind inputs := by
      intro harity hfuse
      have hinputs := length_two ((h.wellFormed.arity c (mem_of_getElem? hc)).trans harity)
      obtain hfuse | ⟨-, hfuse⟩ := or_eq_some_iff.1 hfuse
      · obtain hfuse | ⟨-, hfuse⟩ := or_eq_some_iff.1 hfuse
        · exact fuseLegs_spec h hc harity hfuse
        · exact fuseOne_spec h hc (.inl hinputs) hfuse
      · exact fuseOne_spec h hc (.inr hinputs) hfuse
    split at hfuse
    · rename_i hkind
      exact fuseNot_spec h hc hkind hfuse
    all_goals
      first
      | rename_i hkind
        exact hpair (by rw [hkind]; rfl) hfuse
      | cases hfuse
  · cases hfuse

theorem fuseVisit_spec (h : ctx.Good ∧ Keeps m ctx.gate) (hvisit : fuseVisit ctx i = some ctx') :
    (ctx'.Good ∧ Keeps m ctx'.gate) ∧ readCount ctx'.gate < readCount ctx.gate := by
  obtain ⟨hstart, hkeeps⟩ := h
  obtain ⟨⟨kind, inputs⟩, hfuse, rfl⟩ := map_eq_some_iff.1 hvisit
  obtain ⟨c, hc, hfused⟩ := tryComplexFuse_spec hstart hfuse
  have hmem := mem_of_getElem? hc
  obtain ⟨r, hr⟩ := hstart.acyclic
  obtain ⟨n, hn, hone, hnew⟩ := hfused.sole
  have hreads : ∀ k ∈ inputs, (k < ctx.gate.nets.length ∧ r k < r c.output) ∧ k ∈ ctx.gate.reads := by
    intro k hk
    obtain hk | ⟨d, hd, hread, hk⟩ := hfused.reads k hk
    · exact ⟨⟨input_lt hstart.closed hmem hk, hr c hmem k hk⟩, mem_reads_of_mem hmem hk⟩
    · exact ⟨⟨input_lt hstart.closed hd hk, Nat.lt_trans (hr d hd k hk) (hr c hmem _ hread)⟩,
        mem_reads_of_mem hd hk⟩
  obtain ⟨hgood, hrewrites⟩ := hstart.rewriteCell hr hc hfused.arity (fun k hk => (hreads k hk).1)
    hfused.value
  refine ⟨⟨hgood, hkeeps.trans (hrewrites.keeps hstart.wellFormed hstart.closed hstart.acyclic)
    hstart.wellFormed hstart.acyclic⟩, ?_⟩
  rw [gate_rewriteCell hc]
  exact readCount_setCell_lt hc ((hstart.count n).symm.trans hone) hn hnew fun k hk => (hreads k hk).2

theorem readCount_lt_of_drop {x y new : NetId} (hxy : x ≠ y) (hx : x ∈ m.reads) (hy : y ∈ m.reads)
    (hreads : ∀ k ∈ m'.reads, k = new ∨ k ∈ m.reads ∧ k ≠ x ∧ k ≠ y) :
    readCount m' < readCount m := by
  have hsub : m'.reads.toFinset ⊆ insert new ((m.reads.toFinset.erase x).erase y) := by
    intro k hk
    rw [List.mem_toFinset] at hk
    simp only [Finset.mem_insert, Finset.mem_erase, List.mem_toFinset]
    exact (hreads k hk).imp_right fun ⟨hmem, hx, hy⟩ => ⟨hy, hx, hmem⟩
  have hy' : y ∈ m.reads.toFinset.erase x :=
    Finset.mem_erase.2 ⟨Ne.symm hxy, List.mem_toFinset.2 hy⟩
  have hx' : x ∈ m.reads.toFinset := List.mem_toFinset.2 hx
  calc readCount m' ≤ (insert new ((m.reads.toFinset.erase x).erase y)).card :=
        Finset.card_le_card hsub
    _ ≤ ((m.reads.toFinset.erase x).erase y).card + 1 := Finset.card_insert_le ..
    _ = (m.reads.toFinset.erase x).card := Finset.card_erase_add_one hy'
    _ < readCount m := Finset.card_erase_lt_of_mem hx'

theorem legs_distinct {s d0 d1 : NetId} (h0 : [s, d0, d1].count d0 = 1)
    (h1 : [s, d0, d1].count d1 = 1) : d0 ≠ d1 ∧ d0 ≠ s ∧ d1 ≠ s := by
  refine ⟨?_, ?_, ?_⟩
  all_goals
    rintro rfl
    simp [count_cons] at h0 h1 <;> omega

theorem arity_of_isFactor (h : isFactor kind = true) : kind.arity = 2 := by
  cases kind <;> first | rfl | cases h

theorem factorMuxVisit_spec (h : Sweeping m ctx) (hvisit : factorMuxVisit ctx i = some ctx') :
    Sweeping m ctx' ∧ readCount ctx'.gate < readCount ctx.gate := by
  have hm := h.good.wellFormed
  unfold factorMuxVisit at hvisit
  split at hvisit
  · rename_i c hc
    have hmem := mem_of_getElem? hc
    dsimp only at hvisit
    split at hvisit
    · cases hvisit
    rename_i hkind
    have hkind : c.kind = .mux2 := not_not.1 hkind
    split at hvisit
    · cases hvisit
    rename_i hones
    obtain ⟨hone0, hone1⟩ : ctx.consumerCount (netAt c.inputs 1) = 1 ∧
        ctx.consumerCount (netAt c.inputs 2) = 1 := by simpa using hones
    split at hvisit
    · rename_i i0 arm0 i1 arm1 hdriver0 hdriver1
      obtain ⟨hmem0, hout0⟩ := mem_of_driverCell hm hdriver0
      obtain ⟨hmem1, hout1⟩ := mem_of_driverCell hm hdriver1
      split at hvisit
      · cases hvisit
      rename_i hkinds
      obtain ⟨hsame, hfactor⟩ : arm0.kind = arm1.kind ∧ isFactor arm0.kind = true := by
        simpa using hkinds
      obtain ⟨⟨common, left, right⟩, hcommon, rfl⟩ := map_eq_some_iff.1 hvisit
      have hlen0 := (hm.arity arm0 hmem0).trans (arity_of_isFactor hfactor)
      have hlen1 := (hm.arity arm1 hmem1).trans (hsame ▸ arity_of_isFactor hfactor)
      obtain ⟨⟨hcommon0, hleft, -, hright⟩, heval⟩ :=
        commonInput_spec hlen0 hlen1 hcommon hfactor
      have hs := netAt_mem_mux hm hmem hkind (show 0 < 3 by omega)
      have hd0 := netAt_mem_mux hm hmem hkind (show 1 < 3 by omega)
      have hd1 := netAt_mem_mux hm hmem hkind (show 2 < 3 by omega)
      have hread0 : arm0.output ∈ c.inputs := hout0 ▸ hd0
      have hread1 : arm1.output ∈ c.inputs := hout1 ▸ hd1
      -- the new multiplexer
      set out := ctx.mkCell .mux2 [netAt c.inputs 0, left, right]
      have hlt : ∀ n ∈ [netAt c.inputs 0, left, right], n < ctx.gate.nets.length := by
        intro n hn
        simp only [mem_cons, not_mem_nil, or_false] at hn
        obtain rfl | rfl | rfl := hn
        · exact input_lt h.good.closed hmem hs
        · exact input_lt h.good.closed hmem0 hleft
        · exact input_lt h.good.closed hmem1 hright
      obtain ⟨hgood, hrewrites⟩ := @PostPassCtx.Good.mkCell ctx .mux2
        [netAt c.inputs 0, left, right] h.good rfl hlt
      have hold : ∀ {d : Cell}, d ∈ ctx.gate.cells → d ∈ out.1.gate.cells :=
        fun hd => mem_append_left _ hd
      have hc' : out.1.gate.cells[i]? = some c :=
        (getElem?_append_left (List.getElem?_eq_some_iff.1 hc).1).trans hc
      have hnewmem : (⟨.mux2, [netAt c.inputs 0, left, right], ctx.gate.nets.length⟩ : Cell) ∈
          out.1.gate.cells :=
        mem_append_right _ (mem_singleton_self _)
      have houtlt := output_lt hm hmem
      obtain ⟨r, hr⟩ := hgood.acyclic
      have hbelow : Below out.1.gate c.output [netAt c.inputs 0, left, right, common] := by
        refine ⟨r, hr, fun n hn => ?_⟩
        simp only [mem_cons, not_mem_nil, or_false] at hn
        obtain rfl | rfl | rfl | rfl := hn
        · exact hr c (hold hmem) _ hs
        · exact Nat.lt_trans (hr arm0 (hold hmem0) _ hleft) (hr c (hold hmem) _ hread0)
        · exact Nat.lt_trans (hr arm1 (hold hmem1) _ hright) (hr c (hold hmem) _ hread1)
        · exact Nat.lt_trans (hr arm0 (hold hmem0) _ hcommon0) (hr c (hold hmem) _ hread0)
      obtain ⟨r', hr', hall⟩ := hbelow.cons hgood.wellFormed hnewmem (Nat.ne_of_lt houtlt)
        (fun n hn => by
          simp only [mem_cons, not_mem_nil, or_false] at hn ⊢
          tauto)
      have hnewlt : ctx.gate.nets.length < out.1.gate.nets.length :=
        output_lt hgood.wellFormed hnewmem
      obtain ⟨hgood', hrewrites'⟩ := @PostPassCtx.Good.rewriteCell _ i c arm0.kind
        [common, ctx.gate.nets.length] hgood r' hr' hc' (arity_of_isFactor hfactor).symm
        (fun n hn => by
          simp only [mem_cons, not_mem_nil, or_false] at hn
          obtain rfl | rfl := hn
          · exact ⟨Nat.lt_trans (input_lt h.good.closed hmem0 hcommon0) hnewlt,
              hall _ (by simp)⟩
          · exact ⟨hnewlt, hall _ (by simp)⟩)
        (fun ρ hρ => by
          have hρ₀ := hrewrites.equations ρ hρ
          have hnew := hρ.cell_eq _ hnewmem
          have h0 := hρ₀.cell_eq arm0 hmem0
          have h1 := hρ₀.cell_eq arm1 hmem1
          rw [(heval ρ).1, hout0] at h0
          rw [← hsame, (heval ρ).2, hout1] at h1
          rw [mux_value hm hmem hkind hρ₀, h0, h1, map_cons, map_singleton, hnew]
          show _ = arm0.kind.eval [ρ common, if ρ (netAt c.inputs 0) then ρ right else ρ left]
          cases ρ (netAt c.inputs 0) <;> rfl)
      have hnot : NotCached out.1 :=
        fun n k hk => hold (h.notCached n k hk)
      refine ⟨h.rewrites hgood' (hrewrites.trans hrewrites')
        (hnot.rewriteCell hc' (by simp [hkind]) _ _), ?_⟩
      show readCount (out.1.rewriteCell i arm0.kind [common, ctx.gate.nets.length]).gate < _
      rw [gate_rewriteCell hc']
      have hcounts : ∀ k, _ := fun k => (count_reads_setCell hc' arm0.kind
        [common, ctx.gate.nets.length] k).trans
        (congrArg (· + _) (count_reads_mkCell ctx.gate .mux2 [netAt c.inputs 0, left, right] k))
      -- a leg is read nowhere else
      have hdrop : ∀ n ∈ c.inputs, ctx.consumerCount n = 1 → n ≠ netAt c.inputs 0 →
          n ∉ (out.1.gate.setCell i arm0.kind [common, ctx.gate.nets.length]).reads := by
        intro n hn hone hns hk
        have hsole := (sole_reader ((h.good.count n).symm.trans hone) hc hn).1
        have hn0 := h.good.not_read hc hn hone hmem0 (ne_of_read h.good.acyclic hmem hread0)
        have hn1 := h.good.not_read hc hn hone hmem1 (ne_of_read h.good.acyclic hmem hread1)
        have hnlt := input_lt h.good.closed hmem hn
        have hleft' : n ≠ left := fun heq => hn0 (heq ▸ hleft)
        have hright' : n ≠ right := fun heq => hn1 (heq ▸ hright)
        have hcommon' : n ≠ common := fun heq => hn0 (heq ▸ hcommon0)
        have hcount := hcounts n
        have hpos := count_pos_iff.2 hk
        rw [count_eq_zero_of_not_mem (by simp [hns, hleft', hright'] :
            n ∉ [netAt c.inputs 0, left, right]),
          count_eq_zero_of_not_mem (by simp [hcommon', Nat.ne_of_lt hnlt] :
            n ∉ [common, ctx.gate.nets.length]), hsole, ← h.good.count, hone] at hcount
        omega
      have hin := mux_inputs hm hmem hkind
      have hcount : ∀ n ∈ c.inputs, ctx.consumerCount n = 1 →
          [netAt c.inputs 0, netAt c.inputs 1, netAt c.inputs 2].count n = 1 := by
        intro n hn hone
        rw [← hin]
        exact (sole_reader ((h.good.count n).symm.trans hone) hc hn).1
      obtain ⟨hne, hne0, hne1⟩ := legs_distinct (hcount _ hd0 hone0) (hcount _ hd1 hone1)
      refine @readCount_lt_of_drop _ _ _ _ ctx.gate.nets.length hne (mem_reads_of_mem hmem hd0)
        (mem_reads_of_mem hmem hd1) fun k hk => or_iff_not_imp_left.2 fun hknew => ⟨?_, ?_, ?_⟩
      · by_contra hno
        have hnotin : ∀ n ∈ ctx.gate.reads, k ≠ n := fun n hn heq => hno (heq ▸ hn)
        have hks := hnotin _ (mem_reads_of_mem hmem hs)
        have hkleft := hnotin _ (mem_reads_of_mem hmem0 hleft)
        have hkright := hnotin _ (mem_reads_of_mem hmem1 hright)
        have hkcommon := hnotin _ (mem_reads_of_mem hmem0 hcommon0)
        have hcount := hcounts k
        have hpos := count_pos_iff.2 hk
        rw [count_eq_zero_of_not_mem hno, count_eq_zero_of_not_mem (by simp [hks, hkleft, hkright] :
            k ∉ [netAt c.inputs 0, left, right]),
          count_eq_zero_of_not_mem (by simp [hkcommon, hknew] :
            k ∉ [common, ctx.gate.nets.length])] at hcount
        omega
      · rintro rfl
        exact hdrop _ hd0 hone0 hne0 hk
      · rintro rfl
        exact hdrop _ hd1 hone1 hne1 hk
    · cases hvisit
  · cases hvisit

theorem references_iff : m.References n ↔ n ∈ m.reads := by
  constructor
  · rintro (⟨c, hc, hn⟩ | ⟨port, hport, hn⟩ | ⟨ff, hff, hn⟩ | hn)
    · exact mem_reads_of_mem hc hn
    · refine mem_reads.2 (.inr (mem_append_left _ (mem_append_right _ ?_)))
      exact mem_flatten.2 ⟨port, hport, hn⟩
    · refine mem_reads.2 (.inr (mem_append_left _ (mem_append_left _ ?_)))
      refine mem_flatMap.2 ⟨ff, hff, ?_⟩
      obtain rfl | rfl | hn := hn
      · exact mem_cons_self ..
      · exact mem_cons_of_mem _ (mem_cons_self ..)
      · simp [hn]
    · exact mem_reads.2 (.inr (mem_append_right _ hn))
  · intro hn
    obtain hn | hn := mem_reads.1 hn
    · exact .inl hn
    · exact references_of_endpoint hn

theorem dualKind_sound {arm : CellKind} (h : dualKind kind = some arm) :
    kind.arity = 2 ∧ arm.arity = 2 ∧ kind ≠ arm ∧ kind ≠ .not ∧ arm ≠ .not ∧ isFactor arm = true ∧
      ∀ x l r, arm.eval [x, kind.eval [l, r]] = kind.eval [arm.eval [x, l], arm.eval [x, r]] := by
  unfold dualKind at h
  split at h
  · cases h
    exact ⟨rfl, rfl, by simp, by simp, by simp, rfl, by decide⟩
  · cases h
    exact ⟨rfl, rfl, by simp, by simp, by simp, rfl, by decide⟩
  · cases h

/-- A gate of one kind over two gates of the dual kind that it alone reads. -/
structure TwoArms (ctx : PostPassCtx) (i i0 : ℕ) (c arm0 arm1 : Cell)
    (common left right : NetId) : Prop where
  outer : ctx.gate.cells[i]? = some c
  inner : ctx.gate.cells[i0]? = some arm0
  other : arm1 ∈ ctx.gate.cells
  dual : dualKind c.kind = some arm0.kind
  same : arm1.kind = arm0.kind
  inputs : c.inputs = [arm0.output, arm1.output]
  one0 : ctx.consumerCount arm0.output = 1
  one1 : ctx.consumerCount arm1.output = 1
  ne : arm1 ≠ arm0
  shared : commonInput arm0.inputs arm1.inputs = some (common, left, right)

section TwoArms

variable {i0 : ℕ} {arm0 arm1 : Cell} {common left right : NetId}

theorem distributeVisit_cases (h : ctx.Good) (hvisit : distributeVisit ctx i = some ctx') :
    ∃ i0 c arm0 arm1 common left right, TwoArms ctx i i0 c arm0 arm1 common left right ∧
      ctx' = (ctx.rewriteCell i0 c.kind [left, right]).rewriteCell i arm0.kind
        [common, arm0.output] := by
  have hm := h.wellFormed
  unfold distributeVisit at hvisit
  split at hvisit
  · rename_i c hc
    split at hvisit
    · rename_i armKind hdual
      dsimp only at hvisit
      split at hvisit
      · cases hvisit
      rename_i hones
      obtain ⟨hone0, hone1⟩ : ctx.consumerCount (netAt c.inputs 0) = 1 ∧
          ctx.consumerCount (netAt c.inputs 1) = 1 := by simpa using hones
      split at hvisit
      · rename_i i0 arm0 i1 arm1 hdriver0 hdriver1
        obtain ⟨hc0, hout0⟩ := driverCell_eq hm hdriver0
        obtain ⟨hc1, hout1⟩ := driverCell_eq hm hdriver1
        split at hvisit
        · cases hvisit
        rename_i hguard
        obtain ⟨hkind0, hkind1, hne⟩ : arm0.kind = armKind ∧ arm1.kind = armKind ∧ i0 ≠ i1 := by
          simpa using hguard
        obtain ⟨⟨common, left, right⟩, hcommon, rfl⟩ := map_eq_some_iff.1 hvisit
        have hinputs := length_two
          ((hm.arity c (mem_of_getElem? hc)).trans (dualKind_sound hdual).1)
        refine ⟨i0, c, arm0, arm1, common, left, right, ⟨hc, hc0, mem_of_getElem? hc1,
          hkind0 ▸ hdual, hkind1.trans hkind0.symm, by rw [hout0, hout1, ← hinputs],
          hout0 ▸ hone0, hout1 ▸ hone1, ?_, hcommon⟩, by rw [hkind0]⟩
        rintro rfl
        exact hne (Drives.index_unique hm hc0 hc1 rfl)
      · cases hvisit
    · cases hvisit
  · cases hvisit

namespace TwoArms

section

variable (h : TwoArms ctx i i0 c arm0 arm1 common left right)

include h

theorem facts (hgood : ctx.Good) :
    (common ∈ arm0.inputs ∧ left ∈ arm0.inputs ∧ common ∈ arm1.inputs ∧ right ∈ arm1.inputs) ∧
      ∀ ρ, Solves ctx.gate.nets ctx.gate.cells ρ →
        ρ arm0.output = arm0.kind.eval [ρ common, ρ left] ∧
          ρ arm1.output = arm0.kind.eval [ρ common, ρ right] := by
  obtain ⟨-, harm, -, -, -, hfactor, -⟩ := dualKind_sound h.dual
  have hmem0 := mem_of_getElem? h.inner
  obtain ⟨hmem, heval⟩ := commonInput_spec ((hgood.wellFormed.arity arm0 hmem0).trans harm)
    ((hgood.wellFormed.arity arm1 h.other).trans (h.same ▸ harm)) h.shared hfactor
  refine ⟨hmem, fun ρ hρ => ⟨?_, ?_⟩⟩
  · rw [hρ.cell_eq arm0 hmem0, (heval ρ).1]
  · rw [hρ.cell_eq arm1 h.other, h.same, (heval ρ).2]

theorem read0 : arm0.output ∈ c.inputs := by
  simp [h.inputs]

theorem read1 : arm1.output ∈ c.inputs := by
  simp [h.inputs]

theorem ne_outer : i ≠ i0 := by
  rintro rfl
  have heq := some.inj (h.outer.symm.trans h.inner)
  exact (dualKind_sound h.dual).2.2.1 (congrArg Cell.kind heq)

theorem not_read (hgood : ctx.Good)
    (hd : d ∈ ctx.gate.cells) (hne : d ≠ c) : arm0.output ∉ d.inputs :=
  hgood.not_read h.outer h.read0 h.one0 hd hne

end

/-- The module afterwards. -/
def result (ctx : PostPassCtx) (i i0 : ℕ) (c arm0 : Cell) (common left right : NetId) :
    GateModule :=
  (ctx.gate.setCell i0 c.kind [left, right]).setCell i arm0.kind [common, arm0.output]

section

variable (h : TwoArms ctx i i0 c arm0 arm1 common left right)

include h

theorem outer' : (ctx.gate.setCell i0 c.kind [left, right]).cells[i]? = some c :=
  (getElem?_setCell_ne h.inner h.ne_outer).trans h.outer

theorem mem_result_of_ne (hd : d ∈ ctx.gate.cells) (hne : d ≠ c) (hne0 : d ≠ arm0) :
    d ∈ (result ctx i i0 c arm0 common left right).cells :=
  mem_setCell_of_ne h.outer' (mem_setCell_of_ne h.inner hd hne0 _ _) hne _ _

theorem nets_result : (result ctx i i0 c arm0 common left right).nets = ctx.gate.nets := by
  rw [result, setCell_eq h.outer', setCell_eq h.inner]

theorem outer_mem : (⟨arm0.kind, [common, arm0.output], c.output⟩ : Cell) ∈
      (result ctx i i0 c arm0 common left right).cells :=
  mem_of_getElem? (getElem?_setCell_self h.outer')

theorem inner_mem : (⟨c.kind, [left, right], arm0.output⟩ : Cell) ∈
      (result ctx i i0 c arm0 common left right).cells :=
  mem_of_getElem? ((getElem?_setCell_ne h.outer' (Ne.symm h.ne_outer)).trans
    (getElem?_setCell_self h.inner))

section

variable (hgood : ctx.Good)

include hgood

theorem output_ne : arm0.output ≠ c.output := fun heq =>
  h.ne_outer (Drives.index_unique hgood.wellFormed h.outer h.inner heq.symm)

theorem mem_result (hd : d ∈ (result ctx i i0 c arm0 common left right).cells) :
    d = ⟨arm0.kind, [common, arm0.output], c.output⟩ ∨ d = ⟨c.kind, [left, right], arm0.output⟩ ∨
      d ∈ ctx.gate.cells ∧ d.output ≠ c.output ∧ d.output ≠ arm0.output := by
  obtain ⟨j, hj⟩ := mem_iff_getElem?.1 hd
  rw [result] at hj
  by_cases hji : j = i
  · subst hji
    rw [getElem?_setCell_self h.outer'] at hj
    exact .inl (some.inj hj).symm
  · rw [getElem?_setCell_ne h.outer' hji] at hj
    by_cases hj0 : j = i0
    · subst hj0
      rw [getElem?_setCell_self h.inner] at hj
      exact .inr (.inl (some.inj hj).symm)
    · rw [getElem?_setCell_ne h.inner hj0] at hj
      refine .inr (.inr ⟨mem_of_getElem? hj, fun heq => ?_, fun heq => ?_⟩)
      · exact hji (Drives.index_unique hgood.wellFormed hj h.outer heq)
      · exact hj0 (Drives.index_unique hgood.wellFormed hj h.inner heq)

theorem wellFormed : (result ctx i i0 c arm0 common left right).WellFormed := by
  obtain ⟨hkind, harm, -⟩ := dualKind_sound h.dual
  have hfirst : (ctx.gate.setCell i0 c.kind [left, right]).WellFormed := by
    rw [setCell_eq h.inner]
    exact Drives.set hgood.wellFormed h.inner rfl hkind.symm
  rw [result, setCell_eq h.outer']
  exact Drives.set hfirst h.outer' rfl harm.symm

theorem reads_sub : (∀ k ∈ [left, right], k ∈ ctx.gate.reads) ∧
      ∀ k ∈ [common, arm0.output], k ∈ (ctx.gate.setCell i0 c.kind [left, right]).reads := by
  obtain ⟨⟨-, hleft, hcommon, hright⟩, -⟩ := h.facts hgood
  refine ⟨fun k hk => ?_, fun k hk => ?_⟩
  all_goals
    simp only [mem_cons, not_mem_nil, or_false] at hk
    obtain rfl | rfl := hk
  · exact mem_reads_of_mem (mem_of_getElem? h.inner) hleft
  · exact mem_reads_of_mem h.other hright
  · exact mem_reads_of_mem (mem_setCell_of_ne h.inner h.other h.ne _ _) hcommon
  · exact mem_reads_of_mem (mem_of_getElem? h.outer') h.read0

theorem closed : (result ctx i i0 c arm0 common left right).Closed := by
  intro n hn
  obtain ⟨hsub, hsub'⟩ := h.reads_sub hgood
  rw [h.nets_result]
  exact hgood.closed n (references_iff.2
    (mem_reads_setCell h.inner hsub (mem_reads_setCell h.outer' hsub' (references_iff.1 hn))))

theorem acyclic : (result ctx i i0 c arm0 common left right).Acyclic := by
  obtain ⟨⟨hcommon, hleft, -, hright⟩, -⟩ := h.facts hgood
  obtain ⟨r, hr⟩ := hgood.acyclic
  have hmem := mem_of_getElem? h.outer
  have hmem0 := mem_of_getElem? h.inner
  have hr0 := hr c hmem _ h.read0
  have hr1 := hr c hmem _ h.read1
  have hnot0 := h.not_read hgood hmem0 (ne_of_read hgood.acyclic hmem h.read0)
  have hnot1 := h.not_read hgood h.other (ne_of_read hgood.acyclic hmem h.read1)
  have hneout := h.output_ne hgood
  have hcommon0 : common ≠ arm0.output := fun heq => hnot0 (heq ▸ hcommon)
  have hleft0 : left ≠ arm0.output := fun heq => hnot0 (heq ▸ hleft)
  have hright0 : right ≠ arm0.output := fun heq => hnot1 (heq ▸ hright)
  refine ⟨Function.update r arm0.output (max (r arm0.output) (r arm1.output)), fun d hd n hn => ?_⟩
  obtain rfl | rfl | ⟨hd, hdout, hdout0⟩ := h.mem_result hgood hd
  · simp only [mem_cons, not_mem_nil, or_false] at hn
    rw [update_of_ne (Ne.symm hneout)]
    obtain rfl | rfl := hn
    · rw [update_of_ne hcommon0]
      exact Nat.lt_trans (hr arm0 hmem0 _ hcommon) hr0
    · rw [update_self]
      exact max_lt hr0 hr1
  · simp only [mem_cons, not_mem_nil, or_false] at hn
    rw [update_self]
    obtain rfl | rfl := hn
    · rw [update_of_ne hleft0]
      exact lt_max_of_lt_left (hr arm0 hmem0 _ hleft)
    · rw [update_of_ne hright0]
      exact lt_max_of_lt_right (hr arm1 h.other _ hright)
  · have hdc : d ≠ c := by
      rintro rfl
      exact hdout rfl
    have hn0 : n ≠ arm0.output := by
      rintro rfl
      exact h.not_read hgood hd hdc hn
    rw [update_of_ne hdout0, update_of_ne hn0]
    exact hr d hd n hn

theorem value (hρ : ctx.gate.Solves v ρ)
    (hρ' : (result ctx i i0 c arm0 common left right).Solves v ρ')
    (hn : n ≠ arm0.output) : ρ' n = ρ n := by
  have hm := hgood.wellFormed
  obtain ⟨hkind, harm, -, -, -, hfactor, hdistrib⟩ := dualKind_sound h.dual
  have hmem := mem_of_getElem? h.outer
  have hmem0 := mem_of_getElem? h.inner
  have hlen0 := (hm.arity arm0 hmem0).trans harm
  have hlen1 := (hm.arity arm1 h.other).trans (h.same ▸ harm)
  obtain ⟨-, heval⟩ := commonInput_spec hlen0 hlen1 h.shared hfactor
  have hne1 := ne_of_read hgood.acyclic hmem h.read1
  have hsolves' := hρ'.solves
  rw [h.nets_result] at hsolves'
  -- the valuation afterwards, with the arm as it was
  let σ : NetId → Bool := Function.update ρ' arm0.output (arm0.kind.eval [ρ' common, ρ' left])
  have hσ : ∀ k, k ≠ arm0.output → σ k = ρ' k := fun k hk => update_of_ne hk ..
  have hσinputs : ∀ d ∈ ctx.gate.cells, d ≠ c → d.inputs.map σ = d.inputs.map ρ' := by
    intro d hd hne
    refine map_congr_left fun k hk => hσ k ?_
    rintro rfl
    exact h.not_read hgood hd hne hk
  have hsource : ∀ k, ctx.gate.Source k → k ≠ arm0.output := by
    rintro k hk rfl
    exact hk.1 i0 (hm.driver_eq i0 arm0 h.inner)
  have hsolves : ctx.gate.Solves v σ := by
    refine ⟨⟨fun k b hk => ?_, fun d hd => ?_⟩, fun k hk => ?_⟩
    · have hne : k ≠ arm0.output := by
        rintro rfl
        rw [constOf, hm.driver_eq i0 arm0 h.inner] at hk
        cases hk
      rw [hσ k hne]
      exact hsolves'.const_eq k b hk
    · by_cases hdc : d = c
      · subst hdc
        have houter := hsolves'.cell_eq _ h.outer_mem
        have hinner := hsolves'.cell_eq _ h.inner_mem
        have hother := hsolves'.cell_eq arm1 (h.mem_result_of_ne h.other hne1 h.ne)
        rw [h.same, (heval ρ').2] at hother
        have hne01 : arm1.output ≠ arm0.output := fun heq => h.ne (cell_unique hm h.other hmem0 heq)
        rw [hσ _ (Ne.symm (h.output_ne hgood)), h.inputs, map_cons, map_singleton,
          hσ _ hne01, show σ arm0.output = _ from update_self .., hother]
        simp only [map_cons, map_nil] at houter hinner
        rw [houter, hinner]
        exact hdistrib _ _ _
      · rw [hσinputs d hd hdc]
        by_cases hd0 : d = arm0
        · subst hd0
          rw [(heval ρ').1]
          exact update_self ..
        · have hne : d.output ≠ arm0.output := fun heq => hd0 (cell_unique hm hd hmem0 heq)
          rw [hσ _ hne]
          exact hsolves'.cell_eq d (h.mem_result_of_ne hd hdc hd0)
    · rw [hσ k (hsource k hk)]
      refine hρ'.source_eq k ?_
      unfold GateModule.Source
      rw [h.nets_result]
      exact hk
  obtain ⟨r, hr⟩ := hgood.acyclic.ranked hm
  rw [(existsUnique_solves hr hm v).unique hρ hsolves, hσ n hn]

end

end

end TwoArms

theorem distributeVisit_spec (h : Sweeping m ctx) (hvisit : distributeVisit ctx i = some ctx') :
    Sweeping m ctx' ∧ readCount ctx'.gate < readCount ctx.gate := by
  obtain ⟨i0, c, arm0, arm1, common, left, right, harms, rfl⟩ := distributeVisit_cases h.good hvisit
  obtain ⟨hkind, harm, -, hnot, hnotarm, -⟩ := dualKind_sound harms.dual
  obtain ⟨⟨hcommon, hleft, -, hright⟩, -⟩ := harms.facts h.good
  obtain ⟨hsub, hsub'⟩ := harms.reads_sub h.good
  have hmem := mem_of_getElem? harms.outer
  have houter : (ctx.rewriteCell i0 c.kind [left, right]).gate.cells[i]? = some c := by
    rw [gate_rewriteCell harms.inner]
    exact harms.outer'
  have hgate : ((ctx.rewriteCell i0 c.kind [left, right]).rewriteCell i arm0.kind
      [common, arm0.output]).gate = TwoArms.result ctx i i0 c arm0 common left right := by
    rw [gate_rewriteCell houter, gate_rewriteCell harms.inner]
    rfl
  have hone := (h.good.count arm0.output).symm.trans harms.one0
  have hone1 := (h.good.count arm1.output).symm.trans harms.one1
  have hend := (sole_reader hone harms.outer harms.read0).2.2
  refine ⟨⟨⟨hgate ▸ harms.wellFormed h.good, hgate ▸ harms.closed h.good,
    hgate ▸ harms.acyclic h.good, count_rewriteCell
      (count_rewriteCell h.good.count harms.inner c.kind [left, right]) houter _ _⟩, ?_, ?_⟩, ?_⟩
  · refine h.keeps.trans ?_ h.good.wellFormed h.good.acyclic
    rw [hgate]
    refine ⟨⟨[], harms.nets_result.trans (append_nil _).symm⟩, ?_, ?_, ?_,
      fun v ρ ρ' hρ hρ' n hn => harms.value h.good hρ hρ' ?_⟩
    · rw [TwoArms.result, setCell_eq harms.outer', setCell_eq harms.inner]
    · rw [TwoArms.result, setCell_eq harms.outer', setCell_eq harms.inner]
    · rw [TwoArms.result, setCell_eq harms.outer', setCell_eq harms.inner]
    · rintro rfl
      exact hend hn
  · exact (h.notCached.rewriteCell harms.inner hnotarm _ _).rewriteCell houter hnot _ _
  · -- the second arm loses its reader
    have hnot0 : arm1.output ∉ arm0.inputs := h.good.not_read harms.outer harms.read1 harms.one1
      (mem_of_getElem? harms.inner) (ne_of_read h.good.acyclic hmem harms.read0)
    have hnot1 : arm1.output ∉ arm1.inputs := h.good.not_read harms.outer harms.read1 harms.one1
      harms.other (ne_of_read h.good.acyclic hmem harms.read1)
    have hne01 : arm1.output ≠ arm0.output := fun heq =>
      harms.ne (cell_unique h.good.wellFormed harms.other (mem_of_getElem? harms.inner) heq)
    have hcount := count_reads_setCell harms.inner c.kind [left, right] arm1.output
    have hnew : arm1.output ∉ [left, right] := by
      simp only [mem_cons, not_mem_nil, or_false, not_or]
      exact ⟨fun heq => hnot0 (heq ▸ hleft), fun heq => hnot1 (heq ▸ hright)⟩
    rw [count_eq_zero_of_not_mem hnot0, hone1, count_eq_zero_of_not_mem hnew] at hcount
    rw [hgate]
    refine Nat.lt_of_lt_of_le ?_ (@readCount_setCell_le _ _ _ c.kind _ harms.inner hsub)
    refine readCount_setCell_lt harms.outer' hcount harms.read1 ?_ hsub'
    simp only [mem_cons, not_mem_nil, or_false, not_or]
    exact ⟨fun heq => hnot0 (heq ▸ hcommon), hne01⟩

end TwoArms

/-- What a rewritten multiplexer computes from its select and its legs. -/
def MuxRewrite.value : MuxRewrite → Bool → Bool → Bool → Bool
  | andSel, s, _, d1 | andSelD1, s, _, d1 => s && d1
  | orSel, s, d0, _ | orSelD0, s, d0, _ => s || d0
  | andNotSel, s, d0, _ => !s && d0
  | orNotSel, s, _, d1 => !s || d1
  | xorSel, s, d0, _ => s ^^ d0
  | xnorSel, s, _, d1 => !(s ^^ d1)

theorem notOf_value (hm : m.WellFormed) {k : NetId} (h : notOf m n = some k)
    (hρ : Solves m.nets m.cells ρ) : ρ n = !ρ k := by
  unfold notOf at h
  split at h
  · rename_i j d hd
    obtain ⟨hmem, rfl⟩ := mem_of_driverCell hm hd
    split at h
    · rename_i hkind
      obtain rfl := some.inj h
      exact not_value hm hmem hkind hρ
    · cases h
  · cases h

theorem classifyMux_spec (hm : m.WellFormed) (hc : c ∈ m.cells) {rewrite : MuxRewrite}
    (h : classifyMux m c = some rewrite) :
    c.kind = .mux2 ∧ ∀ ρ, Solves m.nets m.cells ρ → ρ c.output =
      rewrite.value (ρ (netAt c.inputs 0)) (ρ (netAt c.inputs 1)) (ρ (netAt c.inputs 2)) := by
  unfold classifyMux at h
  dsimp only at h
  split at h
  · cases h
  rename_i hkind
  have hkind : c.kind = .mux2 := not_not.1 hkind
  refine ⟨hkind, fun ρ hρ => ?_⟩
  rw [mux_value hm hc hkind hρ]
  split at h
  · rename_i hconst
    obtain rfl := some.inj h
    rw [hρ.const_eq _ _ hconst.1]
    cases ρ (netAt c.inputs 0) <;> rfl
  · split at h
    · rename_i hconst
      obtain rfl := some.inj h
      rw [hρ.const_eq _ _ hconst.1]
      cases ρ (netAt c.inputs 0) <;> rfl
    · split at h
      · rename_i hsel
        obtain rfl := some.inj h
        rw [hsel]
        cases ρ (netAt c.inputs 0) <;> rfl
      · split at h
        · rename_i hsel
          obtain rfl := some.inj h
          rw [hsel]
          cases ρ (netAt c.inputs 0) <;> rfl
        · split at h
          · rename_i hconst
            obtain rfl := some.inj h
            rw [hρ.const_eq _ _ hconst.1]
            cases ρ (netAt c.inputs 0) <;> rfl
          · split at h
            · rename_i hconst
              obtain rfl := some.inj h
              rw [hρ.const_eq _ _ hconst.1]
              cases ρ (netAt c.inputs 0) <;> rfl
            · split at h
              · rename_i hnot
                obtain rfl := some.inj h
                rw [notOf_value hm hnot.2 hρ]
                cases ρ (netAt c.inputs 0) <;> simp [MuxRewrite.value]
              · split at h
                · rename_i hnot
                  obtain rfl := some.inj h
                  rw [notOf_value hm hnot.2 hρ]
                  cases ρ (netAt c.inputs 0) <;> simp [MuxRewrite.value]
                · cases h

/-- A gate is ready to take the place of a multiplexer. -/
structure Ready (ctx : PostPassCtx) (c : Cell) (out : PostPassCtx × CellKind × List NetId)
    (value : (NetId → Bool) → Bool) : Prop where
  good : out.1.Good
  rewrites : Rewrites ctx.gate out.1.gate
  notCached : NotCached out.1
  cells : ∃ added, out.1.gate.cells = ctx.gate.cells ++ added
  arity : out.2.2.length = out.2.1.arity
  below : Below out.1.gate c.output out.2.2
  reads_lt : ∀ n ∈ out.2.2, n < out.1.gate.nets.length
  value_eq : ∀ ρ, Solves out.1.gate.nets out.1.gate.cells ρ → out.2.1.eval (out.2.2.map ρ) = value ρ

theorem Below.mono {x : NetId} {ns ns' : List NetId} (h : Below m x ns) (hsub : ∀ n ∈ ns', n ∈ ns) :
    Below m x ns' := by
  obtain ⟨r, hr, hns⟩ := h
  exact ⟨r, hr, fun n hn => hns n (hsub n hn)⟩

theorem ready_pair (h : ctx.Good) (hnot : NotCached ctx) (hc : c ∈ ctx.gate.cells) {kind : CellKind}
    (hkind : kind.arity = 2) {a b : NetId} (ha : a ∈ c.inputs) (hb : b ∈ c.inputs) :
    Ready ctx c (ctx, kind, [a, b]) fun ρ => kind.eval [ρ a, ρ b] := by
  have hmem : ∀ n ∈ [a, b], n ∈ c.inputs := by
    intro n hn
    simp only [mem_cons, not_mem_nil, or_false] at hn
    obtain rfl | rfl := hn
    · exact ha
    · exact hb
  obtain ⟨r, hr⟩ := h.acyclic
  exact ⟨h, .refl h.wellFormed h.closed, hnot, ⟨[], (append_nil _).symm⟩, hkind.symm,
    ⟨r, hr, fun n hn => hr c hc n (hmem n hn)⟩, fun n hn => input_lt h.closed hc (hmem n hn),
    fun _ _ => rfl⟩

/-- With the inverse of the select. -/
theorem ready_not (h : ctx.Good) (hnot : NotCached ctx) (hc : c ∈ ctx.gate.cells)
    (hmux : c.kind = .mux2) {kind : CellKind} (hkind : kind.arity = 2) {a b : NetId}
    (ha : a ∈ c.inputs) (hb : b ∈ c.inputs) :
    Ready ctx c ((ctx.materializeNot a).1, kind, [(ctx.materializeNot a).2, b])
      fun ρ => kind.eval [!ρ a, ρ b] := by
  have hmade := materializeNot_spec h hnot (input_lt h.closed hc ha)
  have hm := hmade.good.wellFormed
  have hc' := mem_of_materialized hmade hc
  obtain ⟨r, hr⟩ := hmade.good.acyclic
  have hbelow : Below (ctx.materializeNot a).1.gate c.output c.inputs := ⟨r, hr, hr c hc'⟩
  have hbelow' := hbelow.cons hm hmade.mem (output_ne hm hc' hmade.mem (by simp [hmux]))
    (by simpa using ha)
  obtain ⟨added, hadded, -⟩ := hmade.cells
  refine ⟨hmade.good, hmade.rewrites, hmade.notCached, ⟨added, hadded⟩, hkind.symm,
    hbelow'.mono fun n hn => ?_, fun n hn => ?_, fun ρ hρ => ?_⟩
  · simp only [mem_cons, not_mem_nil, or_false] at hn
    obtain rfl | rfl := hn
    · exact mem_cons_self ..
    · exact mem_cons_of_mem _ hb
  · simp only [mem_cons, not_mem_nil, or_false] at hn
    obtain rfl | rfl := hn
    · exact output_lt hm hmade.mem
    · exact input_lt hmade.good.closed hc' hb
  · have hvalue : ρ (ctx.materializeNot a).2 = !ρ a := hρ.cell_eq _ hmade.mem
    simp [hvalue]

theorem muxPrimitive_spec (h : ctx.Good) (hnot : NotCached ctx) (hc : c ∈ ctx.gate.cells)
    (hmux : c.kind = .mux2) (rewrite : MuxRewrite) :
    Ready ctx c (muxPrimitive ctx (netAt c.inputs 0) (netAt c.inputs 1) (netAt c.inputs 2) rewrite)
      fun ρ => rewrite.value (ρ (netAt c.inputs 0)) (ρ (netAt c.inputs 1)) (ρ (netAt c.inputs 2)) := by
  have hs := netAt_mem_mux h.wellFormed hc hmux (show 0 < 3 by omega)
  have hd0 := netAt_mem_mux h.wellFormed hc hmux (show 1 < 3 by omega)
  have hd1 := netAt_mem_mux h.wellFormed hc hmux (show 2 < 3 by omega)
  cases rewrite with
  | andSel => exact @ready_pair ctx c h hnot hc .and2 rfl _ _ hs hd1
  | andSelD1 => exact @ready_pair ctx c h hnot hc .and2 rfl _ _ hs hd1
  | orSel => exact @ready_pair ctx c h hnot hc .or2 rfl _ _ hs hd0
  | orSelD0 => exact @ready_pair ctx c h hnot hc .or2 rfl _ _ hs hd0
  | andNotSel => exact @ready_not ctx c h hnot hc hmux .and2 rfl _ _ hs hd0
  | orNotSel => exact @ready_not ctx c h hnot hc hmux .or2 rfl _ _ hs hd1
  | xorSel => exact @ready_pair ctx c h hnot hc .xor2 rfl _ _ hs hd0
  | xnorSel => exact @ready_pair ctx c h hnot hc .xnor2 rfl _ _ hs hd1

/-- Some multiplexers are rewritten, the others are as they were matched. -/
structure Collapsing (m : GateModule) (todo : List (ℕ × MuxRewrite)) (ctx : PostPassCtx) : Prop where
  good : ctx.Good
  rewrites : Rewrites m ctx.gate
  notCached : NotCached ctx
  pending : ∀ p ∈ todo, ∃ c, m.cells[p.1]? = some c ∧ classifyMux m c = some p.2 ∧
    ctx.gate.cells[p.1]? = some c

theorem applyMuxRewrite_spec (hm : m.WellFormed) {p : ℕ × MuxRewrite}
    {todo : List (ℕ × MuxRewrite)} (hfresh : ∀ q ∈ todo, q.1 ≠ p.1)
    (h : Collapsing m (p :: todo) ctx) : Collapsing m todo (applyMuxRewrite ctx p) := by
  obtain ⟨c, hcm, hclass, hc⟩ := h.pending p (mem_cons_self ..)
  have hmem := mem_of_getElem? hc
  obtain ⟨hmux, hvalue⟩ := classifyMux_spec hm (mem_of_getElem? hcm) hclass
  have hready := muxPrimitive_spec h.good h.notCached hmem hmux p.2
  unfold applyMuxRewrite
  rw [hc]
  obtain ⟨added, hadded⟩ := hready.cells
  have hkept : ∀ {j : ℕ} {d : Cell}, ctx.gate.cells[j]? = some d →
      (muxPrimitive ctx (netAt c.inputs 0) (netAt c.inputs 1) (netAt c.inputs 2) p.2).1.gate.cells[j]? =
        some d := fun hd => by
    rw [hadded, getElem?_append_left (List.getElem?_eq_some_iff.1 hd).1, hd]
  obtain ⟨r, hr, hbelow⟩ := hready.below
  obtain ⟨hgood, hrewrites⟩ := hready.good.rewriteCell hr (hkept hc) hready.arity
    (fun n hn => ⟨hready.reads_lt n hn, hbelow n hn⟩) (fun ρ hρ => by
      rw [hready.value_eq ρ hρ]
      exact hvalue ρ (h.rewrites.equations ρ (hready.rewrites.equations ρ hρ)))
  refine ⟨hgood, (h.rewrites.trans hready.rewrites).trans hrewrites,
    hready.notCached.rewriteCell (hkept hc) (by simp [hmux]) _ _, fun q hq => ?_⟩
  obtain ⟨d, hdm, hdclass, hd⟩ := h.pending q (mem_cons_of_mem _ hq)
  refine ⟨d, hdm, hdclass, ?_⟩
  rw [gate_rewriteCell (hkept hc), getElem?_setCell_ne (hkept hc) (hfresh q hq)]
  exact hkept hd

theorem foldl_applyMuxRewrite (hm : m.WellFormed) (todo : List (ℕ × MuxRewrite)) :
    ∀ {ctx : PostPassCtx}, todo.Pairwise (fun p q => q.1 ≠ p.1) → Collapsing m todo ctx →
      Collapsing m [] (todo.foldl applyMuxRewrite ctx) := by
  induction todo with
  | nil => exact fun _ h => h
  | cons p todo ih =>
    intro ctx hpairwise h
    obtain ⟨hfresh, hrest⟩ := pairwise_cons.1 hpairwise
    exact ih hrest (applyMuxRewrite_spec hm hfresh h)

theorem muxRewrites_spec (m : GateModule) :
    (muxRewrites m).Pairwise (fun p q => q.1 ≠ p.1) ∧ ∀ p ∈ muxRewrites m,
      ∃ c, m.cells[p.1]? = some c ∧ classifyMux m c = some p.2 := by
  have hmatch : ∀ {j : ℕ} {p : ℕ × MuxRewrite},
      (m.cells[j]?.bind fun c => (classifyMux m c).map fun rewrite => (j, rewrite)) = some p →
        j = p.1 ∧ ∃ c, m.cells[j]? = some c ∧ classifyMux m c = some p.2 := by
    intro j p hp
    obtain ⟨c, hc, hp⟩ := bind_eq_some_iff.1 hp
    obtain ⟨rewrite, hclass, rfl⟩ := map_eq_some_iff.1 hp
    exact ⟨rfl, c, hc, hclass⟩
  refine ⟨?_, fun p hp => ?_⟩
  · have hnodup : (List.range m.cells.length).Pairwise (· ≠ ·) := nodup_range
    refine List.Pairwise.filterMap _ (fun j k hjk p hp q hq => ?_) hnodup
    obtain ⟨rfl, -⟩ := hmatch hp
    obtain ⟨rfl, -⟩ := hmatch hq
    exact Ne.symm hjk
  · obtain ⟨j, -, hp⟩ := mem_filterMap.1 hp
    obtain ⟨rfl, hrest⟩ := hmatch hp
    exact hrest

theorem collapseMuxToPrimitive_spec (h : Sweeping m ctx) :
    Sweeping m (collapseMuxToPrimitive ctx) := by
  obtain ⟨hpairwise, hmatched⟩ := muxRewrites_spec ctx.gate
  have hstart : Collapsing ctx.gate (muxRewrites ctx.gate) ctx :=
    ⟨h.good, .refl h.good.wellFormed h.good.closed, h.notCached, fun p hp => by
      obtain ⟨c, hc, hclass⟩ := hmatched p hp
      exact ⟨c, hc, hclass, hc⟩⟩
  have hend := foldl_applyMuxRewrite h.good.wellFormed _ hpairwise hstart
  exact h.rewrites hend.good hend.rewrites hend.notCached

end Phases

theorem good_new (hm : m.WellFormed) (hclosed : m.Closed) (hacyclic : m.Acyclic) :
    (PostPassCtx.new m).Good := ⟨hm, hclosed, hacyclic, fun _ => rfl⟩

theorem muxing_new (hm : m.WellFormed) (hclosed : m.Closed)
    (hr : m.Ranks r) : Muxing m r (PostPassCtx.new m) :=
  { good := good_new hm hclosed ⟨r, hr⟩
    rewrites := .refl hm hclosed
    notCached := notCached_new hm
    binopCached := fun _ _ _ h => by cases h
    notMux := fun _ _ _ h => by cases h
    legs := fun c hc hkind =>
      ⟨hr c hc _ (netAt_mem_mux hm hc hkind (by omega)), hr c hc _ (netAt_mem_mux hm hc hkind (by omega))⟩ }

theorem Muxing.sweeping {ctx : PostPassCtx}
    (h : Muxing m r ctx) (hm : m.WellFormed) (hclosed : m.Closed) (hacyclic : m.Acyclic) :
    Sweeping m ctx := ⟨h.good, h.rewrites.keeps hm hclosed hacyclic, h.notCached⟩

theorem observe_congr (hports : m'.ports = m.ports) (hffs : m'.ffs = m.ffs)
    (hrams : m'.ramBlocks = m.ramBlocks) (hvalue : ∀ n ∈ m.endpointNets, ρ' n = ρ n) :
    m'.observe ρ' = m.observe ρ := by
  have hport : ∀ port ∈ m.ports, ∀ n ∈ port, ρ' n = ρ n := fun port hport n hn =>
    hvalue n (mem_append_left _ (mem_append_right _ (mem_flatten.2 ⟨port, hport, hn⟩)))
  have hpins : ∀ ff ∈ m.ffs, ∀ n ∈ ff.d :: ff.clock :: ff.reset.toList, ρ' n = ρ n :=
    fun ff hff n hn => hvalue n
      (mem_append_left _ (mem_append_left _ (mem_flatMap.2 ⟨ff, hff, hn⟩)))
  have hram : ∀ n ∈ m.ramInputNets, ρ' n = ρ n := fun n hn => hvalue n (mem_append_right _ hn)
  have hnets : m'.ramInputNets = m.ramInputNets := by
    simp only [ramInputNets, hrams]
  unfold GateModule.observe
  rw [hnets, hports, hffs]
  refine Prod.ext (map_congr_left fun port hmem => map_congr_left (hport port hmem))
    (Prod.ext (map_congr_left fun ff hff => ?_) (map_congr_left hram))
  have hff := hpins ff hff
  have hreset : ff.reset.map ρ' = ff.reset.map ρ := by
    refine Option.map_congr fun n hn => hff n ?_
    simp [mem_def.1 hn]
  rw [hreset, hff ff.d (by simp), hff ff.clock (by simp)]

theorem Keeps.observe (h : Keeps m m')
    (hρ : m.Solves v ρ) (hρ' : m'.Solves v ρ') : m'.observe ρ' = m.observe ρ :=
  observe_congr h.ports h.ffs h.ramBlocks (h.value v ρ ρ' hρ hρ')

section Sweep

variable {m : GateModule} {r : NetId → ℕ}

/-- The phases as steps that keep an invariant and lose weight. -/
theorem complexGateReplacement_runs (hm : m.WellFormed) (hclosed : m.Closed) (hr : m.Ranks r) :
    (∃ turns out, complexGateReplacement turns m = some out) ∧
      ∀ turns out, complexGateReplacement turns m = some out →
        ∃ ctx : PostPassCtx, ctx.gate = out ∧ ctx.Good ∧ Keeps m out := by
  have hacyclic : m.Acyclic := ⟨r, hr⟩
  have hcollapse : ∀ ctx i ctx', Muxing m r ctx → collapseSameSelVisit ctx i = some ctx' →
      Muxing m r ctx' ∧ legWeight r ctx'.gate < legWeight r ctx.gate :=
    fun _ _ _ h hvisit => collapseSameSelVisit_spec h hvisit
  have hcombine : ∀ ctx i ctx', Muxing m r ctx → combineMuxOfMuxVisit ctx i = some ctx' →
      Muxing m r ctx' ∧ legWeight r ctx'.gate < legWeight r ctx.gate :=
    fun _ _ _ h hvisit => combineMuxOfMuxVisit_spec h hvisit
  have hdistribute : ∀ ctx i ctx', Sweeping m ctx → distributeVisit ctx i = some ctx' →
      Sweeping m ctx' ∧ readCount ctx'.gate < readCount ctx.gate :=
    fun _ _ _ h hvisit => distributeVisit_spec h hvisit
  have hfactor : ∀ ctx i ctx', Sweeping m ctx → factorMuxVisit ctx i = some ctx' →
      Sweeping m ctx' ∧ readCount ctx'.gate < readCount ctx.gate :=
    fun _ _ _ h hvisit => factorMuxVisit_spec h hvisit
  have hfuse : ∀ ctx i ctx', ctx.Good ∧ Keeps m ctx.gate → fuseVisit ctx i = some ctx' →
      (ctx'.Good ∧ Keeps m ctx'.gate) ∧ readCount ctx'.gate < readCount ctx.gate :=
    fun _ _ _ h hvisit => fuseVisit_spec h hvisit
  have hstart := muxing_new hm hclosed hr
  refine ⟨?_, fun turns out h => ?_⟩
  · obtain ⟨c₁, h₁⟩ := untilStable_ends hcollapse _ _ hstart (lt_succ_self _)
    have hP₁ := untilStable_keeps hcollapse _ _ hstart h₁
    obtain ⟨c₂, h₂⟩ := untilStable_ends hcombine _ _ hP₁ (lt_succ_self _)
    have hP₂ := (untilStable_keeps hcombine _ _ hP₁ h₂).sweeping hm hclosed hacyclic
    obtain ⟨c₃, h₃⟩ := untilStable_ends hdistribute _ _ hP₂ (lt_succ_self _)
    have hP₃ := untilStable_keeps hdistribute _ _ hP₂ h₃
    obtain ⟨c₄, h₄⟩ := untilStable_ends hfactor _ _ hP₃ (lt_succ_self _)
    have hP₄ := collapseMuxToPrimitive_spec (untilStable_keeps hfactor _ _ hP₃ h₄)
    obtain ⟨c₅, h₅⟩ := untilStable_ends hfuse _ _ ⟨hP₄.good, hP₄.keeps⟩ (lt_succ_self _)
    -- the turns of all the phases are enough for each
    refine ⟨(legWeight r (PostPassCtx.new m).gate + 1) + (legWeight r c₁.gate + 1) +
      (readCount c₂.gate + 1) + (readCount c₃.gate + 1) +
      (readCount (collapseMuxToPrimitive c₄).gate + 1), c₅.gate, ?_⟩
    exact bind_eq_some_iff.2 ⟨c₁, untilStable_mono (by omega) _ h₁,
      bind_eq_some_iff.2 ⟨c₂, untilStable_mono (by omega) _ h₂,
        bind_eq_some_iff.2 ⟨c₃, untilStable_mono (by omega) _ h₃,
          bind_eq_some_iff.2 ⟨c₄, untilStable_mono (by omega) _ h₄,
            bind_eq_some_iff.2 ⟨c₅, untilStable_mono (by omega) _ h₅, rfl⟩⟩⟩⟩⟩
  · obtain ⟨c₁, h₁, h⟩ := bind_eq_some_iff.1 h
    obtain ⟨c₂, h₂, h⟩ := bind_eq_some_iff.1 h
    obtain ⟨c₃, h₃, h⟩ := bind_eq_some_iff.1 h
    obtain ⟨c₄, h₄, h⟩ := bind_eq_some_iff.1 h
    obtain ⟨c₅, h₅, h⟩ := bind_eq_some_iff.1 h
    obtain rfl := some.inj h
    have hP₁ := untilStable_keeps hcollapse _ _ hstart h₁
    have hP₂ := (untilStable_keeps hcombine _ _ hP₁ h₂).sweeping hm hclosed hacyclic
    have hP₃ := untilStable_keeps hdistribute _ _ hP₂ h₃
    have hP₄ := collapseMuxToPrimitive_spec (untilStable_keeps hfactor _ _ hP₃ h₄)
    obtain ⟨hgood, hkeeps⟩ := untilStable_keeps hfuse _ _ ⟨hP₄.good, hP₄.keeps⟩ h₅
    exact ⟨c₅, rfl, hgood, hkeeps⟩

end Sweep

/-- The sweep ends. What it leaves is an acyclic module with the same ports,
flip-flops and RAMs, where every port bit, every pin of a flip-flop and every
input of a RAM has the value it had, over every valuation of the sources. -/
theorem complexGateReplacement_spec (m : GateModule) (hm : m.WellFormed) (hclosed : m.Closed)
    (hacyclic : m.Acyclic) :
    (∃ turns out, complexGateReplacement turns m = some out) ∧
      ∀ turns out, complexGateReplacement turns m = some out →
        out.WellFormed ∧ out.Closed ∧ out.Acyclic ∧ out.ports = m.ports ∧ out.ffs = m.ffs ∧
          out.ramBlocks = m.ramBlocks ∧ (∀ v, ∃! ρ, out.Solves v ρ) ∧
          ∀ v ρ ρ', m.Solves v ρ → out.Solves v ρ' → out.observe ρ' = m.observe ρ := by
  obtain ⟨r, hr⟩ := id hacyclic
  obtain ⟨hends, hruns⟩ := complexGateReplacement_runs hm hclosed hr
  refine ⟨hends, fun turns out h => ?_⟩
  obtain ⟨ctx, rfl, hgood, hkeeps⟩ := hruns turns out h
  obtain ⟨r', hr'⟩ := hgood.acyclic.ranked hgood.wellFormed
  exact ⟨hgood.wellFormed, hgood.closed, hgood.acyclic, hkeeps.ports, hkeeps.ffs, hkeeps.ramBlocks,
    existsUnique_solves hr' hgood.wellFormed, fun _ _ _ hρ hρ' => hkeeps.observe hρ hρ'⟩

/-- Two AND gates that share an input, below an OR gate. -/
def GateModule.sharedArms : GateModule where
  ports := [[2], [3], [4], [7]]
  nets := [.const false, .const true, .portInput, .portInput, .portInput, .cell 0, .cell 1, .cell 2]
  cells := [⟨.and2, [2, 3], 5⟩, ⟨.and2, [2, 4], 6⟩, ⟨.or2, [5, 6], 7⟩]
  ffs := []
  ramBlocks := []

theorem GateModule.wellFormed_sharedArms : sharedArms.WellFormed := by
  refine ⟨rfl, rfl, fun i c hc => ?_, fun n i hn => ?_, by decide⟩
  · obtain _ | _ | _ | i := i
    · obtain rfl := some.inj hc
      rfl
    · obtain rfl := some.inj hc
      rfl
    · obtain rfl := some.inj hc
      rfl
    · simp [sharedArms] at hc
  · obtain _ | _ | _ | _ | _ | _ | _ | _ | n := n
    all_goals simp [sharedArms] at hn
    all_goals
      subst hn
      exact ⟨_, rfl, rfl⟩

theorem GateModule.closed_sharedArms : sharedArms.Closed := by
  intro n hn
  have hreads : ∀ n ∈ sharedArms.reads, n < sharedArms.nets.length := by decide
  exact hreads n (references_iff.1 hn)

/-- The sweep of the shared arms ends with the value of the OR gate. -/
theorem complexGateReplacement_spec_sharedArms :
    ∃ turns out, complexGateReplacement turns .sharedArms = some out ∧
      ∀ v ρ ρ', sharedArms.Solves v ρ → out.Solves v ρ' →
        out.observe ρ' = sharedArms.observe ρ := by
  obtain ⟨⟨turns, out, hout⟩, hspec⟩ := complexGateReplacement_spec .sharedArms
    wellFormed_sharedArms closed_sharedArms ⟨id, by decide⟩
  obtain ⟨-, -, -, -, -, -, -, hobserve⟩ := hspec turns out hout
  exact ⟨turns, out, hout, hobserve⟩

end Veryl.Synthesizer
