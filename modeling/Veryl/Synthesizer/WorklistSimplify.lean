import Veryl.Synthesizer.WorklistExact

/-!
The whole worklist pass: every order of visits ends, and the module it leaves
has the same value at every endpoint as the module it was given.
-/

namespace Veryl.Synthesizer

open List Nat Function

variable {i : ℕ} {c : Cell} {n : NetId} {st : SimplifyState} {nets : List NetDriver}
  {cells : List Cell} {f : NetDriver → NetDriver} {α : Type*}

namespace GateModule

variable (m : GateModule)

/-- The drivers of a module agree with its cells. -/
abbrev WellFormed : Prop := Drives m.nets m.cells

def Acyclic : Prop := ∃ r : NetId → ℕ, ∀ c ∈ m.cells, ∀ n ∈ c.inputs, r n < r c.output

/-- A primary input, the output of a flip-flop or of a RAM, or an undriven net. -/
def Source (n : NetId) : Prop := (∀ i, m.nets[n]? ≠ some (.cell i)) ∧ constOf m.nets n = none

/-- The values of all nets over those of the sources. -/
structure Solves (v ρ : NetId → Bool) : Prop where
  solves : Synthesizer.Solves m.nets m.cells ρ
  source_eq : ∀ n, m.Source n → ρ n = v n

def ramInputNets : List NetId := m.ramBlocks.flatMap RamBlock.inputNets

/-- The values at the ports, at the pins of the flip-flops, and at the inputs of
the RAMs. -/
def observe (ρ : NetId → Bool) : List (List Bool) × List (Bool × Bool × Option Bool) × List Bool :=
  (m.ports.map (List.map ρ), m.ffs.map fun ff => (ρ ff.d, ρ ff.clock, ff.reset.map ρ),
    m.ramInputNets.map ρ)

/-- The nets that a module reads anywhere. -/
def References (n : NetId) : Prop :=
  (∃ c ∈ m.cells, n ∈ c.inputs) ∨ (∃ port ∈ m.ports, n ∈ port) ∨
    (∃ ff ∈ m.ffs, n = ff.d ∨ n = ff.clock ∨ ff.reset = some n) ∨ n ∈ m.ramInputNets

end GateModule

section Values

variable {m : GateModule} {r : NetId → ℕ} {v : NetId → Bool}

theorem GateModule.Acyclic.ranked (h : m.Acyclic) (hm : m.WellFormed) :
    ∃ r, Ranked m.nets m.cells r := by
  obtain ⟨r, hr⟩ := h
  classical
  refine ⟨fun n => if ∃ i, m.nets[n]? = some (.cell i) then r n + 1 else 0, fun n hn => ?_,
    fun c hc n hn => ?_⟩
  · exact if_neg fun ⟨i, hi⟩ => hn i hi
  · obtain ⟨i, hi⟩ := mem_iff_getElem?.1 hc
    have hlt := hr c hc n hn
    have hdriven : ∃ i, m.nets[c.output]? = some (.cell i) := ⟨i, hm.driver_eq i c hi⟩
    split <;> omega

/-- The value of a net, evaluated for at most `turns` levels. -/
def GateModule.value (m : GateModule) (v : NetId → Bool) : ℕ → NetId → Bool
  | 0, n => v n
  | turns + 1, n =>
    match m.nets[n]? with
    | some (.const b) => b
    | some (.cell i) =>
      match m.cells[i]? with
      | some c => c.kind.eval (c.inputs.map (m.value v turns))
      | none => v n
    | _ => v n

theorem value_stable (hr : Ranked m.nets m.cells r) (hm : m.WellFormed) (k : ℕ) :
    ∀ k' n, r n < k → r n < k' → m.value v k n = m.value v k' n := by
  induction k with
  | zero => exact fun k' n h => absurd h (Nat.not_lt_zero _)
  | succ k ih =>
    intro k' n hk hk'
    obtain ⟨k', rfl⟩ := exists_eq_succ_of_ne_zero (Nat.ne_zero_of_lt hk')
    unfold GateModule.value
    split
    · rfl
    · rename_i i hi
      obtain ⟨c, hc, rfl⟩ := hm.cell_of n i hi
      rw [hc]
      refine congrArg c.kind.eval (map_congr_left fun n hn => ?_)
      have hlt := hr.lt c (mem_of_getElem? hc) n hn
      exact ih k' n (by omega) (by omega)
    · rfl

theorem existsUnique_solves (hr : Ranked m.nets m.cells r) (hm : m.WellFormed)
    (v : NetId → Bool) : ∃! ρ, m.Solves v ρ := by
  refine ⟨fun n => m.value v (r n + 1) n, ⟨⟨fun n b hb => ?_, fun c hc => ?_⟩, fun n hn => ?_⟩,
    fun ρ hρ => funext fun n => ?_⟩
  · obtain ⟨d, hd, hconst⟩ := Option.bind_eq_some_iff.1 hb
    cases d with
    | const b' =>
      rw [GateModule.value, hd]
      exact Option.some.inj hconst
    | _ => cases hconst
  · obtain ⟨i, hi⟩ := mem_iff_getElem?.1 hc
    rw [GateModule.value, hm.driver_eq i c hi]
    dsimp only
    rw [hi]
    refine congrArg c.kind.eval (map_congr_left fun n hn => ?_)
    exact value_stable hr hm _ _ n (hr.lt c hc n hn) (lt_succ_self _)
  · show m.value v (r n + 1) n = v n
    unfold GateModule.value
    split
    · rename_i b hb
      have hconst := hn.2
      rw [constOf, hb] at hconst
      cases hconst
    · rename_i i hi
      exact absurd hi (hn.1 i)
    · rfl
  · show ρ n = m.value v (r n + 1) n
    obtain ⟨k, hk⟩ : ∃ k, k = r n := ⟨_, rfl⟩
    induction k using Nat.strongRecOn generalizing n with
    | ind k ih =>
    unfold GateModule.value
    split
    · rename_i b hb
      exact hρ.solves.const_eq n b (by rw [constOf, hb]; rfl)
    · rename_i i hi
      obtain ⟨c, hc, rfl⟩ := hm.cell_of n i hi
      have hmem := mem_of_getElem? hc
      rw [hc, hρ.solves.cell_eq c hmem]
      refine congrArg c.kind.eval (map_congr_left fun n hn => ?_)
      have hlt := hr.lt c hmem n hn
      rw [ih (r n) (hk ▸ hlt) n rfl]
      exact value_stable hr hm _ _ n (lt_succ_self _) hlt
    · rename_i hconst hcell
      refine hρ.source_eq n ⟨fun i hi => hcell i hi, ?_⟩
      cases hd : m.nets[n]? with
      | none => simp [constOf, hd]
      | some d =>
        cases d with
        | const b => exact absurd hd (hconst b)
        | _ => simp [constOf, hd, NetDriver.const?]

end Values

section Start

variable {nets : List NetDriver} {original : List Cell} {r : NetId → ℕ}

theorem mem_consumersOf
    (hc : cells[i]? = some c) (hn : n ∈ c.inputs) : i ∈ consumersOf cells n := by
  refine mem_flatMap.2 ⟨i, mem_range.2 (List.getElem?_eq_some_iff.1 hc).1, ?_⟩
  rw [hc]
  exact mem_replicate.2 ⟨Nat.ne_of_gt (count_pos_iff.2 hn), rfl⟩

theorem foldl_preVisit_inv (is : List ℕ) {settled : ℕ → Prop}
    (h : Inv nets original r settled st.cells st.seen st.consumers)
    (hempty : st.seen = fun _ => none) :
    Inv nets original r (fun i => settled i ∨ i ∈ is) (is.foldl preVisit st).cells
      (is.foldl preVisit st).seen (is.foldl preVisit st).consumers := by
  induction is generalizing settled st with
  | nil => exact { h with bypassed := fun i c hi => h.bypassed i c (by simpa using hi) }
  | cons idx is ih =>
    obtain ⟨hnext, hseen⟩ := @preVisit_inv nets original r settled idx st h hempty
    have hrest := ih hnext hseen
    refine { hrest with bypassed := fun i c hi => hrest.bypassed i c ?_ }
    obtain hi | hi := hi
    · exact .inl (.inl hi)
    · obtain rfl | hi := mem_cons.1 hi
      · exact .inl (.inr rfl)
      · exact .inr hi

/-- After the pre-pass nothing reads a buffer. -/
theorem settled_start {m : GateModule} (hm : m.WellFormed) (hr : Ranked m.nets m.cells r) :
    Settled m.nets m.cells r m.start := by
  have hinit : Inv m.nets m.cells r (fun _ => False) m.cells (fun _ => none)
      (consumersOf m.cells) :=
    ⟨hm, fun _ hρ => hρ, hr, fun i c n hc hn => mem_consumersOf hc hn,
      fun i c h => absurd h id, fun key i h => by cases h⟩
  let st : SimplifyState :=
    ⟨m.cells, consumersOf m.cells, fun _ => none, List.range m.cells.length⟩
  have hstart := foldl_preVisit_inv (List.range m.cells.length) (show Inv m.nets m.cells r
    (fun _ => False) st.cells st.seen st.consumers from hinit) rfl
  refine { hstart with bypassed := fun i c _ hc => hstart.bypassed i c (.inr ?_) hc }
  -- the drivers know how many cells there are
  obtain ⟨d, hd, -⟩ := hm.cell_of _ i (hstart.drives.driver_eq i c hc)
  exact mem_range.2 (List.getElem?_eq_some_iff.1 hd).1

theorem settled_of_steps {st' : SimplifyState}
    (hsteps : Relation.ReflTransGen (Step nets) st st') (h : Settled nets original r st) :
    ∃ r', Settled nets original r' st' := by
  induction hsteps with
  | refl => exact ⟨r, h⟩
  | tail _ hstep ih =>
    obtain ⟨r', h'⟩ := ih
    obtain ⟨-⟩ := hstep
    rename_i mid _ idx
    have hpopped : Settled nets original r' { mid with wl := mid.wl.erase idx } := h'
    obtain ⟨r'', h'', -⟩ := visit_spec hpopped idx
    exact ⟨r'', h''⟩

end Start

section Finish

variable {nets : List NetDriver} {original cells : List Cell} {r : NetId → ℕ} {m : GateModule}

/-- No buffer drives a net. -/
def Unbuffered (nets : List NetDriver) (cells : List Cell) (n : NetId) : Prop :=
  ∀ (i : ℕ) (c : Cell), nets[n]? = some (.cell i) → cells[i]? = some c → c.kind ≠ .buf

theorem resolveAlias_spec (h : Settled nets original r st) (n : NetId) :
    Unbuffered nets st.cells (resolveAlias nets st.cells (st.cells.length + 1) n) ∧
      ∀ ρ, Solves nets st.cells ρ →
        ρ (resolveAlias nets st.cells (st.cells.length + 1) n) = ρ n := by
  rw [resolveAlias]
  split
  · rename_i idx hidx
    obtain ⟨c, hc, rfl⟩ := h.drives.cell_of n idx hidx
    have hmem := mem_of_getElem? hc
    rw [hc]
    dsimp only
    by_cases hbuf : c.kind = .buf
    · rw [if_pos hbuf]
      obtain ⟨src, hsrc⟩ := length_eq_one_iff.1 ((h.drives.arity c hmem).trans (by rw [hbuf]; rfl))
      have hnet : netAt c.inputs 0 = src := by simp [hsrc, netAt]
      -- what a buffer reads is driven by no buffer
      have hfree : Unbuffered nets st.cells src := by
        intro i d hi hd hdbuf
        obtain ⟨e, he, hout⟩ := h.drives.cell_of src i hi
        obtain rfl := Option.some.inj (hd.symm.trans he)
        exact h.bypassed i d trivial hd hdbuf c hmem (by simp [hout, hsrc])
      have hstop : resolveAlias nets st.cells st.cells.length src = src := by
        obtain ⟨k, hk⟩ := exists_eq_succ_of_ne_zero
          (Nat.ne_zero_of_lt (List.getElem?_eq_some_iff.1 hc).1)
        rw [hk, resolveAlias]
        split
        · rename_i j hj
          cases hd : st.cells[j]? with
          | none => rfl
          | some d => exact if_neg (hfree j d hj hd)
        · rfl
      rw [hnet, hstop]
      refine ⟨hfree, fun ρ hρ => ?_⟩
      rw [hρ.cell_eq c hmem, hbuf, hsrc]
      rfl
    · rw [if_neg hbuf]
      refine ⟨fun i d hi hd hdbuf => hbuf ?_, fun ρ _ => rfl⟩
      obtain rfl : i = idx := by simpa using hi.symm.trans hidx
      exact Option.some.inj (hd.symm.trans hc) ▸ hdbuf
  · rename_i hno
    exact ⟨fun i d hi => absurd hi (hno i), fun ρ _ => rfl⟩

theorem filter_getElem? (p : α → Bool) (xs : List α) (j : ℕ) (x : α) : (xs.filter p)[j]? = some x ↔
      ∃ i, xs[i]? = some x ∧ p x ∧ ((xs.take i).filter p).length = j := by
  induction xs generalizing j with
  | nil => simp
  | cons y ys ih =>
    by_cases hy : p y
    · rw [filter_cons_of_pos hy]
      cases j with
      | zero =>
        constructor
        · intro h
          obtain rfl := Option.some.inj h
          exact ⟨0, rfl, hy, rfl⟩
        · rintro ⟨i, hi, -, hlength⟩
          cases i with
          | zero => exact hi
          | succ i => simp [hy] at hlength
      | succ j =>
        rw [getElem?_cons_succ, ih]
        constructor
        · rintro ⟨i, hi, hp, hlength⟩
          exact ⟨i + 1, hi, hp, by simp [hy, hlength]⟩
        · rintro ⟨i, hi, hp, hlength⟩
          cases i with
          | zero => simp at hlength
          | succ i => exact ⟨i, hi, hp, by simpa [hy] using hlength⟩
    · rw [filter_cons_of_neg hy, ih]
      constructor
      · rintro ⟨i, hi, hp, hlength⟩
        exact ⟨i + 1, hi, hp, by simp [hy, hlength]⟩
      · rintro ⟨i, hi, hp, hlength⟩
        cases i with
        | zero =>
          obtain rfl := Option.some.inj hi
          exact absurd hp hy
        | succ i => exact ⟨i, hi, hp, by simpa [hy] using hlength⟩

/-- The place of an element among those that stay. -/
theorem keptIndex_spec (p : α → Bool) (xs : List α) (i j : ℕ) :
    (xs[i]?.bind fun x => if p x then some ((xs.take i).filter p).length else none) = some j ↔
      ∃ x, xs[i]? = some x ∧ p x ∧ ((xs.take i).filter p).length = j := by
  cases hx : xs[i]? with
  | none => simp
  | some x => by_cases hp : p x <;> simp [hp]

theorem indexMap_spec {j : ℕ} : indexMap cells i = some j ↔
      ∃ c, cells[i]? = some c ∧ isLive c ∧ ((cells.take i).filter isLive).length = j := by
  rw [← keptIndex_spec, indexMap]
  cases cells[i]? <;> rfl

theorem isLive_iff : isLive c = true ↔ c.kind ≠ .buf := bne_iff_ne

theorem getElem?_map_driver {d : NetDriver}
    (hf : ∀ e, f e = d ↔ e = d) (n : NetId) : (nets.map f)[n]? = some d ↔ nets[n]? = some d := by
  rw [getElem?_map]
  cases nets[n]? with
  | none => rfl
  | some e => simp [hf]

theorem constOf_map_driver
    (hf : ∀ d, (f d).const? = d.const?) (n : NetId) : constOf (nets.map f) n = constOf nets n := by
  rw [constOf, constOf, getElem?_map]
  cases nets[n]? with
  | none => rfl
  | some d => exact hf d

/-- The drivers when cells move, or go. -/
def redrive (index : ℕ → Option ℕ) : NetDriver → NetDriver
  | .cell idx =>
    match index idx with
    | some newIdx => .cell newIdx
    | none => .undriven
  | driver => driver

theorem constOf_redrive (nets : List NetDriver) (index : ℕ → Option ℕ) (n : NetId) :
    constOf (nets.map (redrive index)) n = constOf nets n := by
  refine constOf_map_driver (fun d => ?_) n
  cases d with
  | cell i =>
    rw [redrive]
    split <;> rfl
  | _ => rfl

theorem redrive_eq {index : ℕ → Option ℕ} {d : NetDriver} (hd : ∀ i, d ≠ .cell i)
    (hundriven : d ≠ .undriven) : (nets.map (redrive index))[n]? = some d ↔ nets[n]? = some d := by
  refine getElem?_map_driver (fun e => ?_) n
  cases e with
  | cell i =>
    rw [redrive]
    split <;> simp [Ne.symm (hd _), Ne.symm hundriven]
  | _ => rfl

theorem redrive_eq_cell {index : ℕ → Option ℕ} {j : ℕ} :
    (nets.map (redrive index))[n]? = some (.cell j) ↔
      ∃ i, nets[n]? = some (.cell i) ∧ index i = some j := by
  rw [getElem?_map]
  cases nets[n]? with
  | none => simp
  | some d =>
    cases d with
    | cell i =>
      simp only [Option.map_some, redrive]
      cases hindex : index i <;> simp [hindex]
    | _ => simp [redrive]

theorem drives_redrive {index : ℕ → Option ℕ} {cells' : List Cell} (h : Drives nets cells)
    (hcells : ∀ (j : ℕ) (c : Cell), cells'[j]? = some c ↔
      ∃ i : ℕ, cells[i]? = some c ∧ index i = some j) :
    Drives (nets.map (redrive index)) cells' := by
  refine ⟨(constOf_redrive ..).trans h.gnd, (constOf_redrive ..).trans h.vdd, fun j c hc => ?_,
    fun n j hn => ?_, fun c hc => ?_⟩
  · obtain ⟨i, hi, hindex⟩ := (hcells j c).1 hc
    exact redrive_eq_cell.2 ⟨i, h.driver_eq i c hi, hindex⟩
  · obtain ⟨i, hi, hindex⟩ := redrive_eq_cell.1 hn
    obtain ⟨c, hc, hout⟩ := h.cell_of n i hi
    exact ⟨c, (hcells j c).2 ⟨i, hc, hindex⟩, hout⟩
  · obtain ⟨j, hj⟩ := mem_iff_getElem?.1 hc
    obtain ⟨i, hi, -⟩ := (hcells j c).1 hj
    exact h.arity c (mem_of_getElem? hi)

theorem map_compactDriver (nets : List NetDriver) (cells : List Cell) :
    nets.map (compactDriver cells) = nets.map (redrive (indexMap cells)) := by
  refine map_congr_left fun d _ => ?_
  cases d <;> rfl

theorem constOf_compact (nets : List NetDriver) (cells : List Cell) (n : NetId) :
    constOf (nets.map (compactDriver cells)) n = constOf nets n := by
  rw [map_compactDriver, constOf_redrive]

theorem compact_eq_cell {j : ℕ} : (nets.map (compactDriver cells))[n]? = some (.cell j) ↔
      ∃ i, nets[n]? = some (.cell i) ∧ indexMap cells i = some j := by
  rw [map_compactDriver, redrive_eq_cell]

theorem drives_compact (h : Drives nets cells) :
    Drives (nets.map (compactDriver cells)) (cells.filter isLive) := by
  rw [map_compactDriver]
  refine drives_redrive h fun j c => (filter_getElem? isLive cells j c).trans
    (exists_congr fun i => ⟨fun ⟨hi, hkept⟩ => ⟨hi, indexMap_spec.2 ⟨c, hi, hkept⟩⟩, ?_⟩)
  rintro ⟨hi, hindex⟩
  obtain ⟨d, hd, hkept⟩ := indexMap_spec.1 hindex
  obtain rfl := Option.some.inj (hi.symm.trans hd)
  exact ⟨hi, hkept⟩

theorem unbuffered_driver (h : Drives nets cells) (hn : Unbuffered nets cells n)
    (hi : nets[n]? = some (.cell i)) :
    ∃ j c, (nets.map (compactDriver cells))[n]? = some (.cell j) ∧
      (cells.filter isLive)[j]? = some c ∧ c.output = n := by
  obtain ⟨c, hc, hout⟩ := h.cell_of n i hi
  have hlive : isLive c := isLive_iff.2 (hn i c hi hc)
  have hmap : indexMap cells i = some ((cells.take i).filter isLive).length :=
    indexMap_spec.2 ⟨c, hc, hlive, rfl⟩
  exact ⟨_, c, compact_eq_cell.2 ⟨i, hi, hmap⟩,
    (filter_getElem? isLive cells _ c).2 ⟨i, hc, hlive, rfl⟩, hout⟩

theorem unbuffered_of_read (h : Settled nets original r st)
    (hc : c ∈ st.cells) (hn : n ∈ c.inputs) : Unbuffered nets st.cells n := by
  intro i d hi hd hbuf
  obtain ⟨e, he, hout⟩ := h.drives.cell_of n i hi
  obtain rfl := Option.some.inj (hd.symm.trans he)
  exact h.bypassed i d trivial hd hbuf c hc (hout ▸ hn)

theorem ranked_compact (h : Settled nets original r st) :
    ∃ r', Ranked (nets.map (compactDriver st.cells)) (st.cells.filter isLive) r' := by
  classical
  refine ⟨fun n => if ∃ j, (nets.map (compactDriver st.cells))[n]? = some (.cell j) then r n else 0,
    fun n hn => ?_, fun c hc n hn => ?_⟩
  · exact if_neg fun ⟨j, hj⟩ => hn j hj
  · have hmem := mem_of_mem_filter hc
    obtain ⟨j, hj⟩ := mem_iff_getElem?.1 hc
    have hdriven : ∃ j, (nets.map (compactDriver st.cells))[c.output]? = some (.cell j) :=
      ⟨j, (drives_compact h.drives).driver_eq j c hj⟩
    have hlt := h.ranked.lt c hmem n hn
    split <;> omega

/-- The values of the input module and of the result agree wherever no buffer
drives. -/
theorem solves_eq (h : Settled m.nets m.cells r st) {v ρ ρ' : NetId → Bool}
    (hρ : m.Solves v ρ) (hρ' : (m.finish st.cells).Solves v ρ') (n : NetId)
    (hn : Unbuffered m.nets st.cells n) : ρ' n = ρ n := by
  have hsolves := h.sound ρ hρ.solves
  obtain ⟨k, hk⟩ : ∃ k, k = r n := ⟨_, rfl⟩
  induction k using Nat.strongRecOn generalizing n with
  | ind k ih =>
  by_cases hdriven : ∃ i, m.nets[n]? = some (.cell i)
  · obtain ⟨i, hi⟩ := hdriven
    obtain ⟨c, hc, rfl⟩ := h.drives.cell_of n i hi
    have hmem := mem_of_getElem? hc
    have hlive : c ∈ st.cells.filter isLive :=
      mem_filter.2 ⟨hmem, isLive_iff.2 (hn i c hi hc)⟩
    rw [hsolves.cell_eq c hmem, hρ'.solves.cell_eq c hlive]
    refine congrArg c.kind.eval (map_congr_left fun n' hn' => ?_)
    exact ih (r n') (hk ▸ h.ranked.lt c hmem n' hn') n' (unbuffered_of_read h hmem hn') rfl
  · cases hconst : constOf m.nets n with
    | some b =>
      rw [hsolves.const_eq n b hconst]
      exact hρ'.solves.const_eq n b ((constOf_compact ..).trans hconst)
    | none =>
      have hsource : m.Source n := ⟨fun i hi => hdriven ⟨i, hi⟩, hconst⟩
      rw [hρ.source_eq n hsource]
      refine hρ'.source_eq n ⟨fun j hj => ?_, (constOf_compact ..).trans hconst⟩
      obtain ⟨i, hi, -⟩ := compact_eq_cell.1 hj
      exact hdriven ⟨i, hi⟩

theorem ramInputNets_finish (m : GateModule) (cells : List Cell) : (m.finish cells).ramInputNets =
      m.ramInputNets.map (resolveAlias m.nets cells (cells.length + 1)) := by
  simp [GateModule.ramInputNets, GateModule.finish, flatMap_map, map_flatMap]

/-- What the result reads is driven by no buffer. -/
theorem unbuffered_of_references (h : Settled m.nets m.cells r st)
    (hn : (m.finish st.cells).References n) : Unbuffered m.nets st.cells n := by
  have hresolve : ∀ n, Unbuffered m.nets st.cells
      (resolveAlias m.nets st.cells (st.cells.length + 1) n) := fun n => (resolveAlias_spec h n).1
  obtain ⟨c, hc, hn⟩ | ⟨port, hport, hn⟩ | ⟨ff, hff, hn⟩ | hn := hn
  · exact unbuffered_of_read h (mem_of_mem_filter hc) hn
  · obtain ⟨port, -, rfl⟩ := mem_map.1 hport
    obtain ⟨n, -, rfl⟩ := mem_map.1 hn
    exact hresolve n
  · obtain ⟨ff, -, rfl⟩ := mem_map.1 hff
    obtain rfl | rfl | hn := hn
    · exact hresolve _
    · exact hresolve _
    · obtain ⟨n, -, rfl⟩ := Option.map_eq_some_iff.1 hn
      exact hresolve n
  · rw [ramInputNets_finish] at hn
    obtain ⟨n, -, rfl⟩ := mem_map.1 hn
    exact hresolve n

theorem observe_finish (h : Settled m.nets m.cells r st)
    {v ρ ρ' : NetId → Bool} (hρ : m.Solves v ρ) (hρ' : (m.finish st.cells).Solves v ρ') :
    (m.finish st.cells).observe ρ' = m.observe ρ := by
  have hvalue : ∀ n, ρ' (resolveAlias m.nets st.cells (st.cells.length + 1) n) = ρ n := by
    intro n
    obtain ⟨hfree, hsame⟩ := resolveAlias_spec h n
    rw [solves_eq h hρ hρ' _ hfree, hsame ρ (h.sound ρ hρ.solves)]
  have hcomp : ρ' ∘ resolveAlias m.nets st.cells (st.cells.length + 1) = ρ := funext hvalue
  unfold GateModule.observe
  rw [ramInputNets_finish]
  simp only [GateModule.finish, map_map, Prod.mk.injEq]
  refine ⟨map_congr_left fun port _ => ?_, map_congr_left fun ff _ => ?_, ?_⟩
  · rw [comp_apply, map_map, hcomp]
  · simp [hvalue, hcomp]
  · rw [hcomp]

end Finish

/-- While the worklist is not empty a cell can be visited, so an order of visits
that ends does so with an empty one. -/
theorem exists_finished (h : Acc (fun a b => Step nets b a) st) :
    ∃ st', Relation.ReflTransGen (Step nets) st st' ∧ st'.wl = [] := by
  induction h with
  | intro st _ ih =>
    cases hwl : st.wl with
    | nil => exact ⟨st, .refl, hwl⟩
    | cons idx rest =>
      have hstep : Step nets st (visit nets idx { st with wl := st.wl.erase idx }) :=
        .visit (hwl ▸ mem_cons_self ..)
      obtain ⟨st', hsteps, hdone⟩ := ih _ hstep
      exact ⟨st', .head hstep hsteps, hdone⟩

theorem acc_start {m : GateModule} (hm : m.WellFormed) (hacyclic : m.Acyclic) :
    Acc (fun a b => Step m.nets b a) m.start := by
  obtain ⟨r, hr⟩ := hacyclic.ranked hm
  exact acc_step (settled_start hm hr)

/-- Every order of visits ends. The module it leaves has exactly one value at
every net over every valuation of the sources, this value is the one of the
input module at every endpoint, and every net it reads that a cell drove is
driven by a cell that is left. -/
theorem worklistSimplify_spec (m : GateModule) (hm : m.WellFormed) (hacyclic : m.Acyclic) :
    Acc (fun a b => Step m.nets b a) m.start ∧ (∃ m', WorklistSimplify m m') ∧
      (∀ v, ∃! ρ, m.Solves v ρ) ∧
      ∀ m', WorklistSimplify m m' → (∀ v, ∃! ρ, m'.Solves v ρ) ∧
          (∀ v ρ ρ', m.Solves v ρ → m'.Solves v ρ' → m'.observe ρ' = m.observe ρ) ∧
          ∀ n, m'.References n → ∀ i, m.nets[n]? = some (.cell i) →
            ∃ j c, m'.nets[n]? = some (.cell j) ∧ m'.cells[j]? = some c ∧ c.output = n := by
  obtain ⟨r, hr⟩ := hacyclic.ranked hm
  have hstart := settled_start hm hr
  have hacc := acc_step hstart
  obtain ⟨last, hlast, hdone⟩ := exists_finished hacc
  refine ⟨hacc, ⟨_, last, hlast, hdone, rfl⟩, existsUnique_solves hr hm, ?_⟩
  rintro m' ⟨st, hsteps, -, rfl⟩
  obtain ⟨r', hsettled⟩ := settled_of_steps hsteps hstart
  obtain ⟨r'', hr''⟩ := ranked_compact hsettled
  have hdrives : (m.finish st.cells).WellFormed := drives_compact hsettled.drives
  exact ⟨existsUnique_solves hr'' hdrives, fun v ρ ρ' hρ hρ' => observe_finish hsettled hρ hρ',
    fun n hn i hi => unbuffered_driver hsettled.drives (unbuffered_of_references hsettled hn) hi⟩

/-- An AND gate with one leg tied high, between two ports. -/
def GateModule.tiedAnd : GateModule :=
  ⟨[[2], [3]], [.const false, .const true, .portInput, .cell 0], [⟨.and2, [2, netConst1], 3⟩], [], []⟩

theorem GateModule.wellFormed_tiedAnd : tiedAnd.WellFormed := by
  refine ⟨rfl, rfl, fun i c hc => ?_, fun n i hn => ?_, fun c hc => ?_⟩
  · obtain _ | i := i
    · obtain rfl := Option.some.inj hc
      rfl
    · simp [tiedAnd] at hc
  · obtain _ | _ | _ | _ | n := n
    all_goals simp [tiedAnd] at hn
    subst hn
    exact ⟨_, rfl, rfl⟩
  · rw [mem_singleton.1 hc]
    rfl

theorem GateModule.acyclic_tiedAnd : tiedAnd.Acyclic := by
  refine ⟨id, fun c hc n hn => ?_⟩
  obtain rfl := mem_singleton.1 hc
  simp only [mem_cons, not_mem_nil, or_false] at hn
  obtain rfl | rfl := hn <;> decide

/-- The output port of the tied gate follows its input port. -/
theorem worklistSimplify_spec_tiedAnd :
    ∃ m', WorklistSimplify .tiedAnd m' ∧ ∀ v ρ ρ', GateModule.tiedAnd.Solves v ρ →
      m'.Solves v ρ' → m'.observe ρ' = GateModule.tiedAnd.observe ρ := by
  obtain ⟨-, ⟨m', hm'⟩, -, hspec⟩ := worklistSimplify_spec .tiedAnd GateModule.wellFormed_tiedAnd
    GateModule.acyclic_tiedAnd
  exact ⟨m', hm', (hspec m' hm').2.1⟩

end Veryl.Synthesizer
