import Veryl.Synthesizer.WorklistSimplify

/-!
Passes that add cells to a module and rewrite cells in place, and keep every net.
-/

namespace Veryl.Synthesizer

open List Option Nat Function

variable {n : ℕ} {ρ : NetId → Bool}

namespace GateModule

/-- Every net that is read exists. -/
def Closed (m : GateModule) : Prop := ∀ n : ℕ, m.References n → n < m.nets.length

/-- The reads of a cell lie below its output. -/
def Ranks (m : GateModule) (r : NetId → ℕ) : Prop := ∀ c ∈ m.cells, ∀ n ∈ c.inputs, r n < r c.output

/-- Adds a cell with a net of its own. -/
def mkCell (m : GateModule) (kind : CellKind) (inputs : List NetId) : GateModule × NetId :=
  ({ m with
      nets := m.nets ++ [.cell m.cells.length]
      cells := m.cells ++ [⟨kind, inputs, m.nets.length⟩] }, m.nets.length)

/-- Gives a cell another kind and other inputs; it keeps its output. -/
def setCell (m : GateModule) (i : ℕ) (kind : CellKind) (inputs : List NetId) : GateModule :=
  match m.cells[i]? with
  | some c => { m with cells := m.cells.set i ⟨kind, inputs, c.output⟩ }
  | none => m

/-- The cell that drives a net. -/
def driverCell (m : GateModule) (n : NetId) : Option (ℕ × Cell) :=
  match m.nets[n]? with
  | some (.cell i) => m.cells[i]?.map fun c => (i, c)
  | _ => none

end GateModule

/-- What a pass that keeps the nets leaves of a module. -/
structure Rewrites (m m' : GateModule) : Prop where
  wellFormed : m'.WellFormed
  closed : m'.Closed
  nets : ∃ added : List ℕ, m'.nets = m.nets ++ added.map NetDriver.cell
  output : ∀ (i : ℕ) (c : Cell), m.cells[i]? = some c → ∃ c', m'.cells[i]? = some c' ∧ c'.output = c.output
  ports : m'.ports = m.ports
  ffs : m'.ffs = m.ffs
  ramBlocks : m'.ramBlocks = m.ramBlocks
  equations : ∀ ρ, Solves m'.nets m'.cells ρ → Solves m.nets m.cells ρ

section Rewrites

variable {m m' m'' : GateModule} {r : NetId → ℕ} {i : ℕ} {c : Cell} {kind : CellKind}
  {inputs : List NetId}

theorem driverCell_eq (hm : m.WellFormed) (h : m.driverCell n = some (i, c)) :
    m.cells[i]? = some c ∧ c.output = n := by
  unfold GateModule.driverCell at h
  split at h
  · rename_i j hj
    obtain ⟨d, hd, hout⟩ := hm.cell_of n j hj
    rw [hd] at h
    obtain ⟨rfl, rfl⟩ := Prod.mk.inj (some.inj h)
    exact ⟨hd, hout⟩
  · cases h

theorem output_lt (hm : m.WellFormed) (hc : c ∈ m.cells) : c.output < m.nets.length := by
  obtain ⟨i, hi⟩ := mem_iff_getElem?.1 hc
  exact (List.getElem?_eq_some_iff.1 (hm.driver_eq i c hi)).1

theorem input_lt (hm : m.Closed) (hc : c ∈ m.cells) (hn : n ∈ c.inputs) :
    n < m.nets.length := hm n (.inl ⟨c, hc, hn⟩)

theorem extends_trans {nets nets' nets'' : List NetDriver}
    (h : ∃ added : List ℕ, nets' = nets ++ added.map NetDriver.cell)
    (h' : ∃ added : List ℕ, nets'' = nets' ++ added.map NetDriver.cell) :
    ∃ added : List ℕ, nets'' = nets ++ added.map NetDriver.cell := by
  obtain ⟨added, rfl⟩ := h
  obtain ⟨added', rfl⟩ := h'
  exact ⟨added ++ added', by rw [map_append, append_assoc]⟩

theorem Rewrites.refl (hm : m.WellFormed) (hclosed : m.Closed) : Rewrites m m :=
  ⟨hm, hclosed, ⟨[], (append_nil _).symm⟩, fun _ c hc => ⟨c, hc, rfl⟩, rfl, rfl, rfl, fun _ h => h⟩

theorem Rewrites.trans (h : Rewrites m m') (h' : Rewrites m' m'') : Rewrites m m'' := by
  refine ⟨h'.wellFormed, h'.closed, extends_trans h.nets h'.nets, fun i c hc => ?_,
    h'.ports.trans h.ports, h'.ffs.trans h.ffs, h'.ramBlocks.trans h.ramBlocks,
    fun ρ hρ => h.equations ρ (h'.equations ρ hρ)⟩
  obtain ⟨d, hd, hout⟩ := h.output i c hc
  obtain ⟨e, he, hout'⟩ := h'.output i d hd
  exact ⟨e, he, hout'.trans hout⟩

theorem Rewrites.length_le (h : Rewrites m m') : m.nets.length ≤ m'.nets.length := by
  obtain ⟨added, hadded⟩ := h.nets
  rw [hadded, length_append]
  omega

theorem Rewrites.net_eq (h : Rewrites m m') (hn : n < m.nets.length) :
    m'.nets[n]? = m.nets[n]? := by
  obtain ⟨added, hadded⟩ := h.nets
  rw [hadded, getElem?_append_left hn]

theorem lt_of_constOf {nets : List NetDriver} {b : Bool} (h : constOf nets n = some b) :
    n < nets.length := by
  by_contra hge
  rw [constOf, getElem?_eq_none (Nat.le_of_not_lt hge)] at h
  cases h

theorem Rewrites.value_eq (h : Rewrites m m') (hm : m.WellFormed) (hclosed : m.Closed)
    (hacyclic : m.Acyclic) {v ρ' : NetId → Bool} (hρ : m.Solves v ρ) (hρ' : m'.Solves v ρ')
    (hn : n < m.nets.length) : ρ' n = ρ n := by
  -- the valuation of the rewritten module, cut to the nets of the original
  have hcut : m.Solves v fun n => if n < m.nets.length then ρ' n else v n := by
    have heq := h.equations ρ' hρ'.solves
    refine ⟨⟨fun n b hb => ?_, fun c hc => ?_⟩, fun n hsource => ?_⟩
    · show (if n < m.nets.length then ρ' n else v n) = b
      rw [if_pos (lt_of_constOf hb)]
      exact heq.const_eq n b hb
    · show (if c.output < m.nets.length then ρ' c.output else v c.output) = _
      rw [if_pos (output_lt hm hc), heq.cell_eq c hc]
      refine congrArg c.kind.eval (map_congr_left fun n hn => ?_)
      rw [if_pos (input_lt hclosed hc hn)]
    · show (if n < m.nets.length then ρ' n else v n) = v n
      split
      · rename_i hlt
        refine hρ'.source_eq n ?_
        unfold GateModule.Source constOf at hsource ⊢
        rwa [h.net_eq hlt]
      · rfl
  obtain ⟨r, hr⟩ := hacyclic.ranked hm
  have huniq := (existsUnique_solves hr hm v).unique hρ hcut
  rw [huniq]
  exact (if_pos hn).symm

theorem rewrites_mkCell (hm : m.WellFormed) (hclosed : m.Closed)
    (harity : inputs.length = kind.arity) (hinputs : ∀ n : ℕ, n ∈ inputs → n < m.nets.length) :
    Rewrites m (m.mkCell kind inputs).1 := by
  have hnet : ∀ n : ℕ, n < m.nets.length → (m.nets ++ [NetDriver.cell m.cells.length])[n]? = m.nets[n]? :=
    fun n hn => getElem?_append_left hn
  have hconst : ∀ n b, constOf m.nets n = some b →
      constOf (m.nets ++ [NetDriver.cell m.cells.length]) n = some b := fun n b hb => by
    rw [constOf, hnet n (lt_of_constOf hb)]
    exact hb
  refine ⟨⟨hconst _ _ hm.gnd, hconst _ _ hm.vdd, fun i c hc => ?_, fun n i hn => ?_,
    fun c hc => ?_⟩, fun n hn => ?_, ⟨[_], rfl⟩, fun i c hc => ⟨c, ?_, rfl⟩, rfl, rfl, rfl,
    fun ρ hρ => ⟨fun n b hb => hρ.const_eq n b (hconst n b hb),
      fun c hc => hρ.cell_eq c (mem_append_left _ hc)⟩⟩
  · rcases Nat.lt_or_ge i m.cells.length with hi | hi
    · have hold : m.cells[i]? = some c := (getElem?_append_left hi).symm.trans hc
      show (m.nets ++ [NetDriver.cell m.cells.length])[c.output]? = _
      rw [hnet _ (output_lt hm (mem_of_getElem? hold)), hm.driver_eq i c hold]
    · have hnew : (m.cells ++ [Cell.mk kind inputs m.nets.length])[i]? = some c := hc
      rw [getElem?_append_right hi] at hnew
      obtain ⟨hlt, rfl⟩ := List.getElem?_eq_some_iff.1 hnew
      have hzero : i - m.cells.length = 0 := by
        rw [length_singleton] at hlt
        omega
      show (m.nets ++ [NetDriver.cell m.cells.length])[_]? = _
      simp only [hzero, getElem_cons_zero, getElem?_concat_length]
      congr 2
      omega
  · rcases Nat.lt_or_ge n m.nets.length with hlt | hge
    · have hold : m.nets[n]? = some (.cell i) := (hnet n hlt).symm.trans hn
      obtain ⟨c, hc, hout⟩ := hm.cell_of n i hold
      exact ⟨c, (getElem?_append_left (List.getElem?_eq_some_iff.1 hc).1).trans hc, hout⟩
    · have hnew : (m.nets ++ [NetDriver.cell m.cells.length])[n]? = some (.cell i) := hn
      obtain ⟨hlt, -⟩ := List.getElem?_eq_some_iff.1 hnew
      rw [length_append, length_singleton] at hlt
      obtain rfl : n = m.nets.length := Nat.le_antisymm (le_of_lt_succ hlt) hge
      obtain rfl : m.cells.length = i := by simpa using hnew
      exact ⟨⟨kind, inputs, m.nets.length⟩, getElem?_concat_length, rfl⟩
  · rcases mem_append.1 hc with hc | hc
    · exact hm.arity c hc
    · obtain rfl := mem_singleton.1 hc
      exact harity
  · show n < (m.nets ++ [NetDriver.cell m.cells.length]).length
    rw [length_append, length_singleton]
    rcases hn with ⟨c, hc, hn⟩ | hn | hn | hn
    · rcases mem_append.1 hc with hc | hc
      · exact lt_succ_of_lt (input_lt hclosed hc hn)
      · obtain rfl := mem_singleton.1 hc
        exact lt_succ_of_lt (hinputs n hn)
    · exact lt_succ_of_lt (hclosed n (.inr (.inl hn)))
    · exact lt_succ_of_lt (hclosed n (.inr (.inr (.inl hn))))
    · exact lt_succ_of_lt (hclosed n (.inr (.inr (.inr hn))))
  · exact (getElem?_append_left (List.getElem?_eq_some_iff.1 hc).1).trans hc

theorem mkCell_value (h : Solves (m.mkCell kind inputs).1.nets (m.mkCell kind inputs).1.cells ρ) :
    ρ (m.mkCell kind inputs).2 = kind.eval (inputs.map ρ) :=
  h.cell_eq ⟨kind, inputs, m.nets.length⟩ (mem_append_right _ (mem_singleton_self _))

theorem ranks_mkCell (hm : m.WellFormed) (hclosed : m.Closed) (hr : m.Ranks r) {k : ℕ}
    (hinputs : ∀ n : ℕ, n ∈ inputs → n < m.nets.length ∧ r n < k) :
    (m.mkCell kind inputs).1.Ranks (Function.update r m.nets.length k) := by
  intro c hc n hn
  rcases mem_append.1 hc with hc | hc
  · rw [update_of_ne (Nat.ne_of_lt (input_lt hclosed hc hn)),
      update_of_ne (Nat.ne_of_lt (output_lt hm hc))]
    exact hr c hc n hn
  · obtain rfl := mem_singleton.1 hc
    rw [update_of_ne (Nat.ne_of_lt (hinputs n hn).1), update_self]
    exact (hinputs n hn).2

theorem rewrites_setCell (hm : m.WellFormed) (hclosed : m.Closed) (hc : m.cells[i]? = some c)
    (harity : inputs.length = kind.arity) (hinputs : ∀ n : ℕ, n ∈ inputs → n < m.nets.length)
    (hvalue : ∀ ρ, Solves (m.setCell i kind inputs).nets (m.setCell i kind inputs).cells ρ →
      ρ c.output = c.kind.eval (c.inputs.map ρ)) :
    Rewrites m (m.setCell i kind inputs) := by
  have hset : m.setCell i kind inputs =
      { m with cells := m.cells.set i ⟨kind, inputs, c.output⟩ } := by
    unfold GateModule.setCell
    rw [hc]
  rw [hset] at hvalue ⊢
  refine ⟨hm.set hc rfl harity, fun n hn => ?_, ⟨[], (append_nil _).symm⟩, fun j d hd => ?_,
    rfl, rfl, rfl, fun ρ hρ => ⟨hρ.const_eq, fun d hd => ?_⟩⟩
  · show n < m.nets.length
    rcases hn with ⟨d, hd, hn⟩ | hn | hn | hn
    · rcases mem_set_cases hc hd with rfl | hd
      · exact hinputs n hn
      · exact input_lt hclosed hd hn
    · exact hclosed n (.inr (.inl hn))
    · exact hclosed n (.inr (.inr (.inl hn)))
    · exact hclosed n (.inr (.inr (.inr hn)))
  · by_cases hij : i = j
    · subst hij
      obtain rfl := some.inj (hc.symm.trans hd)
      exact ⟨_, getElem?_set_self (List.getElem?_eq_some_iff.1 hc).1, rfl⟩
    · exact ⟨d, (getElem?_set_ne hij).trans hd, rfl⟩
  · obtain ⟨j, hj⟩ := mem_iff_getElem?.1 hd
    by_cases hij : i = j
    · subst hij
      obtain rfl := some.inj (hc.symm.trans hj)
      exact hvalue ρ hρ
    · exact hρ.cell_eq d (mem_of_getElem? ((getElem?_set_ne hij).trans hj))

theorem ranks_setCell (hr : m.Ranks r) (hc : m.cells[i]? = some c)
    (hinputs : ∀ n ∈ inputs, r n < r c.output) : (m.setCell i kind inputs).Ranks r := by
  intro d hd n hn
  unfold GateModule.setCell at hd
  rw [hc] at hd
  rcases mem_set_cases hc hd with rfl | hd
  · exact hinputs n hn
  · exact hr d hd n hn

/-- A cell rewritten in place, by an equation that holds in the module itself: the
solutions of the two modules are the same, as both have one for every valuation
of the sources. -/
theorem rewrites_setCell_of_solves (hm : m.WellFormed) (hclosed : m.Closed) (hr : m.Ranks r)
    (hc : m.cells[i]? = some c) (harity : inputs.length = kind.arity)
    (hinputs : ∀ n : ℕ, n ∈ inputs → n < m.nets.length ∧ r n < r c.output)
    (hvalue : ∀ ρ, Solves m.nets m.cells ρ → ρ c.output = kind.eval (inputs.map ρ)) :
    Rewrites m (m.setCell i kind inputs) := by
  have hranks : (m.setCell i kind inputs).Ranks r := ranks_setCell hr hc fun n hn => (hinputs n hn).2
  refine rewrites_setCell hm hclosed hc harity (fun n hn => (hinputs n hn).1) fun ρ hρ => ?_
  have hset : m.setCell i kind inputs =
      { m with cells := m.cells.set i ⟨kind, inputs, c.output⟩ } := by
    unfold GateModule.setCell
    rw [hc]
  rw [hset] at hρ hranks
  have hm' : GateModule.WellFormed { m with cells := m.cells.set i ⟨kind, inputs, c.output⟩ } :=
    hm.set hc rfl harity
  have hacyclic : m.Acyclic := ⟨r, hr⟩
  obtain ⟨r₁, hr₁⟩ := hacyclic.ranked hm
  obtain ⟨r₂, hr₂⟩ := GateModule.Acyclic.ranked ⟨r, hranks⟩ hm'
  obtain ⟨σ, hσ, -⟩ := existsUnique_solves hr₁ hm ρ
  have heq : ρ = σ := (existsUnique_solves hr₂ hm' ρ).unique ⟨hρ, fun _ _ => rfl⟩
    ⟨hσ.solves.set hc (hvalue σ hσ.solves), hσ.source_eq⟩
  rw [heq]
  exact hσ.solves.cell_eq c (mem_of_getElem? hc)

end Rewrites

end Veryl.Synthesizer
