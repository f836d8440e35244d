import Veryl.Simulator.DerivedClockSettled

/-!
The schedule of derived clocks and resets is faithful in every settled state, for
statement lists in which the copies are steady.
-/

namespace Veryl.Simulator.DerivedClocks

open Veryl.Analyzer Veryl.Library Veryl.Simulator.LutCompress List Option

variable {env : Env} {external : List ProtoStatement → VarOffset → Bool}
  {stmts : List ProtoStatement} {inputClocks : VarOffset → Option VarId}
  {candidates : List EdgeCandidate} {negedgeInputs : List VarId}

/-- A clock candidate that is sensitive to the rising edge of a net. -/
def RisingClock (candidates : List EdgeCandidate) (v : VarId) (o : VarOffset) : Prop :=
  ∃ c ∈ candidates, c.varId = v ∧ c.offset = o ∧ c.polarity = none ∧ c.negedge = false

/-- An input clock at a net that is sensitive to its rising edge. -/
def RisingInput (inputClocks : VarOffset → Option VarId) (negedgeInputs : List VarId)
    (v : VarId) (o : VarOffset) : Prop :=
  inputClocks o = some v ∧ v ∉ negedgeInputs

/-- What the schedule says of the nets, in a state of the storage. -/
structure Faithful (external : List ProtoStatement → VarOffset → Bool)
    (stmts : List ProtoStatement) (inputClocks : VarOffset → Option VarId)
    (candidates : List EdgeCandidate) (negedgeInputs : List VarId)
    (schedule : DerivedClockSchedule) (m : Mem) : Prop where
  /-- An alias has the bit of its source, and both are sensitive to the rising edge. -/
  aliases : ∀ copy source, (copy, source) ∈ schedule.aliases →
    ∃ o o', RisingClock candidates copy o ∧ (RisingInput inputClocks negedgeInputs source o' ∨
      RisingClock candidates source o') ∧ bitAt m o = bitAt m o'
  /-- A member of a group has the bit of its net and its polarity. -/
  resets : ∀ r ∈ schedule.resets, ∀ v ∈ r.members, ∃ c ∈ candidates, c.varId = v ∧
    c.polarity = some r.activeLow ∧ bitAt m c.offset = bitAt m r.currentOffset
  /-- Every driven candidate has one place. -/
  places : (schedule.clocks.map (·.varId) ++ schedule.aliases.map (·.1) ++
    schedule.resets.flatMap (·.members)).Perm
      ((candidates.filter fun c => Driven external stmts c.offset).map (·.varId))
  /-- The source of an alias is kept, or is an input clock. -/
  sources : ∀ copy source, (copy, source) ∈ schedule.aliases →
    (∃ clk ∈ schedule.clocks, clk.varId = source) ∨ ∃ o, inputClocks o = some source
  /-- A clock is gated by a master where a chain of statements comes from an input clock. -/
  gated : ∀ clk ∈ schedule.clocks, clk.masterGated = true ↔
    ∃ o v, Boundary external stmts inputClocks o v ∧
      Relation.TransGen (Link external stmts) o clk.currentOffset

theorem alias_spec {copy source : VarId} (h : (copy, source) ∈
      (buildSchedule external stmts inputClocks candidates negedgeInputs).aliases) :
    ∃ clk ∈ sortedClocks external stmts candidates, clk.varId = copy ∧
      aliasOf external stmts inputClocks negedgeInputs (sortedClocks external stmts candidates)
        clk = some source := by
  simp only [buildSchedule, mem_filterMap, map_eq_some_iff, Prod.mk.injEq] at h
  obtain ⟨clk, hmem, v, halias, hcopy, rfl⟩ := h
  exact ⟨clk, hmem, hcopy, halias⟩

theorem risingClock_of_mem {clk : DerivedClock}
    (h : clk ∈ sortedClocks external stmts candidates) (hrising : clk.negedge = false) :
    RisingClock candidates clk.varId clk.currentOffset := by
  obtain ⟨c, hc, hpolarity, -, rfl⟩ := mem_sortedClocks.1 h
  exact ⟨c, hc, rfl, rfl, hpolarity, hrising⟩

theorem alias_source {copy source : VarId} (h : (copy, source) ∈
      (buildSchedule external stmts inputClocks candidates negedgeInputs).aliases) :
    (∃ clk ∈ (buildSchedule external stmts inputClocks candidates negedgeInputs).clocks,
      clk.varId = source) ∨ ∃ o, inputClocks o = some source := by
  obtain ⟨clk, -, -, halias⟩ := alias_spec h
  obtain ⟨-, -, o', -, -, hinput | ⟨clk', hmem, -, hvar, -, hkept⟩⟩ := aliasOf_spec halias
  · exact Or.inr ⟨o', hinput⟩
  · refine Or.inl ⟨gate external stmts inputClocks clk', ?_, ?_⟩
    · simp only [buildSchedule, List.mem_map, mem_filter]
      exact ⟨clk', ⟨hmem, by rw [hkept]; rfl⟩, rfl⟩
    · rw [gate]
      split <;> exact hvar

/-- The links on the chain of a candidate are steady. For a clock these are the links up to its
sources, and there are none for one that is sensitive to the falling edge, or with such a net on
its chain, as it is not an alias. -/
def SteadyChains (env : Env) (external : List ProtoStatement → VarOffset → Bool)
    (stmts : List ProtoStatement) (inputClocks : VarOffset → Option VarId)
    (candidates : List EdgeCandidate) (negedgeInputs : List VarId) : Prop :=
  let clocks := sortedClocks external stmts candidates
  ∀ c ∈ candidates, ∀ o o', Chain external stmts c.offset o → copiedFrom external stmts o = some o' →
    (c.polarity = none → c.negedge = false ∧
      Rises external stmts inputClocks negedgeInputs clocks c.offset ∧
        ∃ b, Chain external stmts o' b ∧ Sourced external stmts inputClocks clocks b) →
      Steady env external stmts o o'

section Between

def oneBit (o : VarOffset) : ProtoExpression := .variable o none none 1 1 ⟨1, false⟩

def bitValue (n : ℕ) : ProtoExpression := .value (.new n 1 false) 1 ⟨1, false⟩

def bitAssign (dst : VarOffset) (expr : ProtoExpression) : ProtoStatement :=
  .assign
    { dst := dst, dstWidth := 1, select := none, dynamicSelect := none, rhsSelect := none
      expr := expr, dstFfCurrentOffset := 0, combDirect := false }

/-- `src = 0; dst = src; src = 1`. -/
def between : List ProtoStatement :=
  [bitAssign (.comb 0) (bitValue 0), bitAssign (.comb 1) (oneBit (.comb 0)),
    bitAssign (.comb 0) (bitValue 1)]

def clockPair : List EdgeCandidate := [⟨0, .comb 0, 1, none, false⟩, ⟨1, .comb 1, 1, none, false⟩]

def betweenMem : Mem := fun o => if o = .comb 0 then 1 else 0

theorem bitAssign_stores {env : Env} (htwo : env.use4state = false) {n : ℤ} {o : VarOffset}
    {expr : ProtoExpression} (h : Stores env (bitAssign (.comb n) expr) o) : o = .comb n := by
  obtain ⟨_, ha, k, hk, rfl⟩ := h
  obtain rfl := mem_singleton.1 ha
  rw [htwo] at hk
  obtain rfl : k = 0 := Nat.lt_one_iff.1 hk
  exact VarOffset.add_zero _

theorem betweenMem_settled : Settled plainEnv between betweenMem := by
  have hbits : (runPass plainEnv between betweenMem).map
      (fun r => (r.state (.comb 0), r.state (.comb 1))) = some (1, 0) := by decide +kernel
  obtain ⟨r, hr, hstate⟩ := map_eq_some_iff.1 hbits
  obtain ⟨h0, h1⟩ := Prod.mk.inj hstate
  refine ⟨r, hr, funext fun o => ?_⟩
  by_cases ho : o = .comb 0
  · rw [ho, h0]
    rfl
  · by_cases ho' : o = .comb 1
    · rw [ho', h1]
      rfl
    · refine runPass_unchanged (fun s hs hstores => ?_) hr
      simp only [between, mem_cons, not_mem_nil, or_false] at hs
      rcases hs with rfl | rfl | rfl
      · exact ho (bitAssign_stores rfl hstores)
      · exact ho' (bitAssign_stores rfl hstores)
      · exact ho (bitAssign_stores rfl hstores)

/-- Two copies of an input clock, the second under `& 1`; and, after `x = 0; n = x; x = 1`, a copy
of `n`, which is sensitive to the falling edge. -/
def copies : List ProtoStatement :=
  [bitAssign (.comb 1) (oneBit (.comb 0)),
    bitAssign (.comb 2) (.binary (oneBit (.comb 1)) .bitAnd (bitValue 1) 1 ⟨1, false⟩),
    bitAssign (.comb 3) (bitValue 0), bitAssign (.comb 4) (oneBit (.comb 3)),
    bitAssign (.comb 3) (bitValue 1), bitAssign (.comb 5) (oneBit (.comb 4))]

def copyClocks : List EdgeCandidate :=
  [⟨1, .comb 1, 1, none, false⟩, ⟨2, .comb 2, 1, none, false⟩, ⟨4, .comb 4, 1, none, true⟩,
    ⟨5, .comb 5, 1, none, false⟩]

def copyInput (o : VarOffset) : Option VarId := if o = .comb 0 then some 0 else none

def copiesMem : Mem := fun o => if o ∈ [.comb 0, .comb 1, .comb 2, .comb 3] then 1 else 0

theorem copies_at {j : ℕ} {t : ProtoStatement} (ht : copies[j]? = some t) :
    ∃ n e, t = bitAssign (.comb n) e ∧ [1, 2, 3, 4, 3, 5][j]? = some n := by
  match j, ht with
  | 0, ht | 1, ht | 2, ht | 3, ht | 4, ht | 5, ht => exact ⟨_, _, (some.inj ht).symm, rfl⟩
  | _ + 6, ht => cases ht

theorem copiesMem_settled : Settled operatorEnv copies copiesMem := by
  have hbits : (runPass operatorEnv copies copiesMem).map (fun r => [1, 2, 3, 4, 5].map fun n : ℤ =>
      r.state (.comb n)) = some [1, 1, 1, 0, 0] := by decide +kernel
  obtain ⟨r, hr, hstate⟩ := map_eq_some_iff.1 hbits
  refine ⟨r, hr, funext fun o => ?_⟩
  simp only [map_cons, map_nil, cons.injEq, and_true] at hstate
  by_cases ho : o ∈ [.comb 1, .comb 2, .comb 3, .comb 4, .comb 5]
  · simp only [mem_cons, not_mem_nil, or_false] at ho
    rcases ho with rfl | rfl | rfl | rfl | rfl <;> simp only [hstate] <;> rfl
  · refine runPass_unchanged (fun s hs hstores => ho ?_) hr
    obtain ⟨j, hj⟩ := getElem?_of_mem hs
    obtain ⟨n, e, rfl, hn⟩ := copies_at hj
    rw [bitAssign_stores rfl hstores]
    have hmem := mem_of_getElem? hn
    simp only [mem_cons, not_mem_nil, or_false] at hmem ⊢
    rcases hmem with rfl | rfl | rfl | rfl | rfl | rfl <;> simp

end Between

end Veryl.Simulator.DerivedClocks
