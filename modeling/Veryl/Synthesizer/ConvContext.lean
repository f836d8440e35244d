import Veryl.Synthesizer.Cell

/-!
The netlist under construction, and what a cell that is added to it computes: a
gate whose inputs are known is folded to a constant.
-/

namespace Veryl.Synthesizer

open List Option

/-- The netlist under construction: the driver of every net, and the cells. -/
structure ConvContext where
  nets : List NetDriver
  cells : List Cell
  gnd : nets[netConst0]? = some (.const false)
  vdd : nets[netConst1]? = some (.const true)

namespace ConvContext

/-- The constant a net is tied to. -/
def constOf (ctx : ConvContext) (n : NetId) : Option Bool := ctx.nets[n]?.bind NetDriver.const?

def allocNet (ctx : ConvContext) (driver : NetDriver) : NetId × ConvContext :=
  (ctx.nets.length, { ctx with
    nets := ctx.nets ++ [driver]
    gnd := getElem?_append_left (List.getElem?_eq_some_iff.1 ctx.gnd).1 ▸ ctx.gnd
    vdd := getElem?_append_left (List.getElem?_eq_some_iff.1 ctx.vdd).1 ▸ ctx.vdd })

/-- Only a constant result is folded; an alias or an inversion of a live net
is left to the simplifier. -/
def foldedConst (ctx : ConvContext) : Simpl → Option Bool
  | .const v => some v
  | .aliasTo n => ctx.constOf n
  | .invert n => (ctx.constOf n).map not

def addCell (ctx : ConvContext) (kind : CellKind) (inputs : List NetId) : NetId × ConvContext :=
  match (simplify (inputs.map ctx.constOf) inputs kind).bind ctx.foldedConst with
  | some v => (if v then netConst1 else netConst0, ctx)
  | none =>
    let (output, ctx') := ctx.allocNet (.cell ctx.cells.length)
    (output, { ctx' with cells := ctx.cells ++ [⟨kind, inputs, output⟩] })

/-- Two constants and nothing else. -/
def constants : ConvContext := ⟨[.const false, .const true], [], rfl, rfl⟩

/-- The valuation follows the constants and the cells of a netlist. -/
structure Consistent (ρ : NetId → Bool) (ctx : ConvContext) : Prop where
  const_eq : ∀ n b, ctx.constOf n = some b → ρ n = b
  cell_eq : ∀ c ∈ ctx.cells, ρ c.output = c.kind.eval (c.inputs.map ρ)

variable {ρ : NetId → Bool} {ctx : ConvContext}

theorem constOf_gnd : ctx.constOf netConst0 = some false := by
  rw [constOf, ctx.gnd]
  rfl

theorem constOf_vdd : ctx.constOf netConst1 = some true := by
  rw [constOf, ctx.vdd]
  rfl

section

variable (h : ctx.Consistent ρ)

include h

theorem Consistent.gnd : ρ netConst0 = false := h.const_eq _ _ constOf_gnd

theorem Consistent.vdd : ρ netConst1 = true := h.const_eq _ _ constOf_vdd

theorem Consistent.agrees (inputs : List NetId) : Agrees ρ (inputs.map ctx.constOf) inputs := by
  refine ⟨h.gnd, h.vdd, length_map _, fun i b hb => ?_⟩
  rw [ivAt, getD_eq_getElem?_getD, getElem?_map] at hb
  rw [netAt, getD_eq_getElem?_getD]
  cases hi : inputs[i]? with
  | none => simp [hi] at hb
  | some n =>
    rw [hi] at hb
    exact h.const_eq n b hb

theorem foldedConst_eq {s : Simpl} {v : Bool}
    (hs : ctx.foldedConst s = some v) : s.value ρ = v := by
  cases s with
  | const w => exact some.inj hs
  | aliasTo n => exact h.const_eq n v hs
  | invert n =>
    obtain ⟨b, hb, rfl⟩ := map_eq_some_iff.1 hs
    exact congrArg not (h.const_eq n b hb)

end

theorem addCell_spec {kind : CellKind} {inputs : List NetId} (hn : inputs.length = kind.arity)
    (h : (ctx.addCell kind inputs).2.Consistent ρ) :
    ctx.Consistent ρ ∧ ρ (ctx.addCell kind inputs).1 = kind.eval (inputs.map ρ) := by
  unfold addCell at h ⊢
  cases hfold : (simplify (inputs.map ctx.constOf) inputs kind).bind ctx.foldedConst with
  | some v =>
    rw [hfold] at h
    obtain ⟨s, hs, hv⟩ := bind_eq_some_iff.1 hfold
    refine ⟨h, ?_⟩
    rw [simplify_sound (h.agrees inputs) hn hs, foldedConst_eq h hv]
    cases v
    · exact h.gnd
    · exact h.vdd
  | none =>
    rw [hfold] at h
    refine ⟨⟨fun n b hb => h.const_eq n b ?_, fun c hc => ?_⟩, ?_⟩
    · obtain ⟨d, hd, hb⟩ := bind_eq_some_iff.1 hb
      have hlt : n < ctx.nets.length := (List.getElem?_eq_some_iff.1 hd).1
      show (ctx.nets ++ [_])[n]?.bind NetDriver.const? = some b
      rw [getElem?_append_left hlt, hd]
      exact hb
    · exact h.cell_eq c (mem_append_left _ hc)
    · exact h.cell_eq ⟨kind, inputs, ctx.nets.length⟩
        (mem_append_right _ (mem_singleton_self _))

end ConvContext

end Veryl.Synthesizer
