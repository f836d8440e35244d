import Veryl.Synthesizer.PrefixExact

/-!
The technology mapping sweep over a settled module: nested multiplexers, shared legs and common
inputs are pulled together, and pairs of gates become compound gates.
-/

namespace Veryl.Synthesizer

namespace GateModule

/-- The nets that the flip-flops, the ports and the RAMs read. -/
def endpointNets (m : GateModule) : List NetId :=
  (m.ffs.flatMap fun ff => ff.d :: ff.clock :: ff.reset.toList) ++ m.ports.flatten ++ m.ramInputNets

/-- All reads of nets, each as often as it is made. -/
def reads (m : GateModule) : List NetId := m.cells.flatMap Cell.inputs ++ m.endpointNets

end GateModule

/-- The source counts consumers in 32 bits; here no net has 2 ^ 32 of them. -/
structure PostPassCtx where
  gate : GateModule
  consumerCount : NetId → ℕ
  notCache : NetId → Option NetId
  /-- Only OR and AND gates are entered, under their sorted inputs. -/
  binopCache : CellKind → NetId × NetId → Option NetId

namespace PostPassCtx

/-- Inverters of the module serve later rewrites; the other caches start empty. -/
def new (m : GateModule) : PostPassCtx where
  gate := m
  consumerCount n := m.reads.count n
  notCache n := (m.cells.find? fun c => c.kind = .not && netAt c.inputs 0 = n).map Cell.output
  binopCache _ _ := none

variable (ctx : PostPassCtx)

def mkCell (kind : CellKind) (inputs : List NetId) : PostPassCtx × NetId :=
  ({ ctx with
      gate := (ctx.gate.mkCell kind inputs).1
      consumerCount := fun n => ctx.consumerCount n + inputs.count n }, (ctx.gate.mkCell kind inputs).2)

def materializeNot (src : NetId) : PostPassCtx × NetId :=
  match ctx.notCache src with
  | some existing => (ctx, existing)
  | none =>
    let out := ctx.mkCell .not [src]
    ({ out.1 with notCache := Function.update ctx.notCache src (some out.2) }, out.2)

def materializeBinop (kind : CellKind) (a b : NetId) : PostPassCtx × NetId :=
  let key := sortPair a b
  match ctx.binopCache kind key with
  | some existing => (ctx, existing)
  | none =>
    let out := ctx.mkCell kind [key.1, key.2]
    ({ out.1 with
        binopCache := fun k p => if k = kind ∧ p = key then some out.2 else ctx.binopCache k p },
      out.2)

def rewriteCell (i : ℕ) (kind : CellKind) (inputs : List NetId) : PostPassCtx :=
  match ctx.gate.cells[i]? with
  | some c =>
    { ctx with
      gate := ctx.gate.setCell i kind inputs
      consumerCount := fun n => ctx.consumerCount n - c.inputs.count n + inputs.count n }
  | none => ctx

end PostPassCtx

section Loops

variable (visit : PostPassCtx → ℕ → Option PostPassCtx)

def sweepVisit (st : PostPassCtx × Bool) (i : ℕ) : PostPassCtx × Bool :=
  match visit st.1 i with
  | some ctx => (ctx, true)
  | none => st

/-- One visit of every cell there is at the start. -/
def sweep (ctx : PostPassCtx) : PostPassCtx × Bool :=
  (List.range ctx.gate.cells.length).foldl (sweepVisit visit) (ctx, false)

/-- Sweeps until one changes nothing; none if that takes more than the turns. -/
def untilStable : ℕ → PostPassCtx → Option PostPassCtx
  | 0, _ => none
  | turns + 1, ctx =>
    if (sweep visit ctx).2 then untilStable turns (sweep visit ctx).1
    else some (sweep visit ctx).1

end Loops

/-- The legs of the multiplexer that drives a net, if its select is the outer
one or the inverse of it. -/
def peekSameSelMux (m : GateModule) (net outerSel : NetId) : Option (NetId × NetId × Bool) :=
  match m.driverCell net with
  | some (_, inner) =>
    if inner.kind ≠ .mux2 then none
    else if netAt inner.inputs 0 = outerSel then
      some (netAt inner.inputs 1, netAt inner.inputs 2, true)
    else
      match m.driverCell (netAt inner.inputs 0) with
      | some (_, n) =>
        if n.kind = .not ∧ netAt n.inputs 0 = outerSel then
          some (netAt inner.inputs 1, netAt inner.inputs 2, false)
        else none
      | none => none
  | none => none

/-- Skips the leg of an inner multiplexer that the select rules out. -/
def collapseSameSelVisit (ctx : PostPassCtx) (i : ℕ) : Option PostPassCtx :=
  match ctx.gate.cells[i]? with
  | some c =>
    if c.kind ≠ .mux2 then none
    else
      let s := netAt c.inputs 0
      let d0 := netAt c.inputs 1
      let d1 := netAt c.inputs 2
      match peekSameSelMux ctx.gate d1 s with
      | some (inD0, inD1, same) =>
        some (ctx.rewriteCell i .mux2 [s, d0, if same then inD1 else inD0])
      | none =>
        match peekSameSelMux ctx.gate d0 s with
        | some (inD0, inD1, same) =>
          some (ctx.rewriteCell i .mux2 [s, if same then inD0 else inD1, d1])
        | none => none
  | none => none

/-- The place of the inner multiplexer and of the leg it shares with the outer. -/
inductive MomPattern where
  | a | b | c | d

def classifyMom (ctx : PostPassCtx) (s1 outerDInner outerDShared : NetId) (innerIsD0Leg : Bool) :
    Option (MomPattern × NetId × NetId) :=
  if ctx.consumerCount outerDInner ≠ 1 then none
  else
    match ctx.gate.driverCell outerDInner with
    | some (_, inner) =>
      let s2 := netAt inner.inputs 0
      let inD0 := netAt inner.inputs 1
      let inD1 := netAt inner.inputs 2
      if inner.kind ≠ .mux2 ∨ s2 = s1 then none
      else if innerIsD0Leg then
        if inD1 = outerDShared then some (.a, s2, inD0)
        else if inD0 = outerDShared then some (.c, s2, inD1)
        else none
      else if inD0 = outerDShared then some (.b, s2, inD1)
      else if inD1 = outerDShared then some (.d, s2, inD0)
      else none
    | none => none

/-- The new inputs of the outer multiplexer. -/
def momInputs (ctx : PostPassCtx) (s1 d0 d1 : NetId) :
    MomPattern × NetId × NetId → PostPassCtx × List NetId
  | (.a, s2, other) =>
    let sel := ctx.materializeBinop .or2 s1 s2
    (sel.1, [sel.2, other, d1])
  | (.b, s2, other) =>
    let sel := ctx.materializeBinop .and2 s1 s2
    (sel.1, [sel.2, d0, other])
  | (.c, s2, other) =>
    let notS1 := ctx.materializeNot s1
    let sel := notS1.1.materializeBinop .and2 notS1.2 s2
    (sel.1, [sel.2, d1, other])
  | (.d, s2, other) =>
    let notS2 := ctx.materializeNot s2
    let sel := notS2.1.materializeBinop .and2 s1 notS2.2
    (sel.1, [sel.2, d0, other])

def combineMuxOfMuxVisit (ctx : PostPassCtx) (i : ℕ) : Option PostPassCtx :=
  match ctx.gate.cells[i]? with
  | some c =>
    if c.kind ≠ .mux2 then none
    else
      let s1 := netAt c.inputs 0
      let d0 := netAt c.inputs 1
      let d1 := netAt c.inputs 2
      ((classifyMom ctx s1 d0 d1 true).or (classifyMom ctx s1 d1 d0 false)).map fun hit =>
        let out := momInputs ctx s1 d0 d1 hit
        out.1.rewriteCell i .mux2 out.2
  | none => none

def findCommonInput (a0 a1 b0 b1 : NetId) : Option (NetId × NetId × NetId) :=
  if a0 = b0 then some (a0, a1, b1)
  else if a0 = b1 then some (a0, a1, b0)
  else if a1 = b0 then some (a1, a0, b1)
  else if a1 = b1 then some (a1, a0, b0)
  else none

/-- The input that the two inputs of cells share, with the other two. -/
def commonInput (xs ys : List NetId) : Option (NetId × NetId × NetId) :=
  findCommonInput (netAt xs 0) (netAt xs 1) (netAt ys 0) (netAt ys 1)

/-- Two gates of one dual kind with a common input; one of them becomes the new
inner gate. -/
def distributeVisit (ctx : PostPassCtx) (i : ℕ) : Option PostPassCtx :=
  match ctx.gate.cells[i]? with
  | some c =>
    match dualKind c.kind with
    | some armKind =>
      let n0 := netAt c.inputs 0
      let n1 := netAt c.inputs 1
      if ctx.consumerCount n0 ≠ 1 ∨ ctx.consumerCount n1 ≠ 1 then none
      else
        match ctx.gate.driverCell n0, ctx.gate.driverCell n1 with
        | some (i0, arm0), some (i1, arm1) =>
          if arm0.kind ≠ armKind ∨ arm1.kind ≠ armKind ∨ i0 = i1 then none
          else
            (commonInput arm0.inputs arm1.inputs).map fun (common, left, right) =>
              (ctx.rewriteCell i0 c.kind [left, right]).rewriteCell i armKind [common, arm0.output]
        | _, _ => none
    | none => none
  | none => none

def isFactor : CellKind → Bool
  | .and2 | .or2 | .xor2 => true
  | _ => false

/-- A multiplexer between two gates of one kind with a common input. -/
def factorMuxVisit (ctx : PostPassCtx) (i : ℕ) : Option PostPassCtx :=
  match ctx.gate.cells[i]? with
  | some c =>
    let s := netAt c.inputs 0
    let d0 := netAt c.inputs 1
    let d1 := netAt c.inputs 2
    if c.kind ≠ .mux2 then none
    else if ctx.consumerCount d0 ≠ 1 ∨ ctx.consumerCount d1 ≠ 1 then none
    else
      match ctx.gate.driverCell d0, ctx.gate.driverCell d1 with
      | some (_, arm0), some (_, arm1) =>
        if arm0.kind ≠ arm1.kind ∨ !isFactor arm0.kind then none
        else
          (commonInput arm0.inputs arm1.inputs).map fun (common, left, right) =>
            let out := ctx.mkCell .mux2 [s, left, right]
            out.1.rewriteCell i arm0.kind [common, out.2]
      | _, _ => none
  | none => none

inductive MuxRewrite where
  | andSel | orSel | andSelD1 | orSelD0 | andNotSel | orNotSel | xorSel | xnorSel

/-- The input of the inverter that drives a net. -/
def notOf (m : GateModule) (n : NetId) : Option NetId :=
  match m.driverCell n with
  | some (_, c) => if c.kind = .not then some (netAt c.inputs 0) else none
  | none => none

def classifyMux (m : GateModule) (c : Cell) : Option MuxRewrite :=
  let s := netAt c.inputs 0
  let d0 := netAt c.inputs 1
  let d1 := netAt c.inputs 2
  let d0Const := constOf m.nets d0
  let d1Const := constOf m.nets d1
  if c.kind ≠ .mux2 then none
  else if d0Const = some false ∧ d1Const = none then some .andSel
  else if d1Const = some true ∧ d0Const = none then some .orSel
  else if d0 = s then some .andSelD1
  else if d1 = s then some .orSelD0
  else if d1Const = some false ∧ d0Const = none then some .andNotSel
  else if d0Const = some true ∧ d1Const = none then some .orNotSel
  else if d0Const = none ∧ notOf m d1 = some d0 then some .xorSel
  else if d1Const = none ∧ notOf m d0 = some d1 then some .xnorSel
  else none

def muxPrimitive (ctx : PostPassCtx) (s d0 d1 : NetId) :
    MuxRewrite → PostPassCtx × CellKind × List NetId
  | .andSel | .andSelD1 => (ctx, .and2, [s, d1])
  | .orSel | .orSelD0 => (ctx, .or2, [s, d0])
  | .andNotSel =>
    let notS := ctx.materializeNot s
    (notS.1, .and2, [notS.2, d0])
  | .orNotSel =>
    let notS := ctx.materializeNot s
    (notS.1, .or2, [notS.2, d1])
  | .xorSel => (ctx, .xor2, [s, d0])
  | .xnorSel => (ctx, .xnor2, [s, d1])

def applyMuxRewrite (ctx : PostPassCtx) (p : ℕ × MuxRewrite) : PostPassCtx :=
  match ctx.gate.cells[p.1]? with
  | some c =>
    let out := muxPrimitive ctx (netAt c.inputs 0) (netAt c.inputs 1) (netAt c.inputs 2) p.2
    out.1.rewriteCell p.1 out.2.1 out.2.2
  | none => ctx

/-- All matches first, so that none is disturbed by the rewrite of another. -/
def muxRewrites (m : GateModule) : List (ℕ × MuxRewrite) :=
  (List.range m.cells.length).filterMap fun i =>
    m.cells[i]?.bind fun c => (classifyMux m c).map fun rewrite => (i, rewrite)

def collapseMuxToPrimitive (ctx : PostPassCtx) : PostPassCtx :=
  (muxRewrites ctx.gate).foldl applyMuxRewrite ctx

def fusedNot : CellKind → Option CellKind
  | .ao22 => some .aoi22
  | kind => kind.inverted

def fusedPair : CellKind → CellKind → Option CellKind
  | .nor2, .and2 => some .aoi21
  | .nand2, .or2 => some .oai21
  | .or2, .and2 => some .ao21
  | .and2, .or2 => some .oa21
  | .and2, .and2 => some .and3
  | .or2, .or2 => some .or3
  | .nand2, .and2 => some .nand3
  | .nor2, .or2 => some .nor3
  | .or2, .and3 => some .ao31
  | .nor2, .and3 => some .aoi31
  | _, _ => none

/-- The kind of both legs and the compound gate that takes them in. -/
def twoPivot : CellKind → Option (CellKind × CellKind)
  | .or2 => some (.and2, .ao22)
  | .nor2 => some (.and2, .aoi22)
  | .nand2 => some (.or2, .oai22)
  | _ => none

section Fuse

variable (ctx : PostPassCtx)

/-- The cell that drives a net with one reader. -/
def soleDriver (n : NetId) : Option Cell :=
  if ctx.consumerCount n = 1 then (ctx.gate.driverCell n).map Prod.snd else none

def fuseNot (inputs : List NetId) : Option (CellKind × List NetId) :=
  match soleDriver ctx (netAt inputs 0) with
  | some up => (fusedNot up.kind).map fun kind => (kind, up.inputs)
  | none => none

def fuseLegs (kind : CellKind) (inputs : List NetId) : Option (CellKind × List NetId) :=
  match twoPivot kind, soleDriver ctx (netAt inputs 0), soleDriver ctx (netAt inputs 1) with
  | some (legKind, compound), some lhs, some rhs =>
    if lhs.kind = legKind ∧ rhs.kind = legKind then
      some (compound, [netAt lhs.inputs 0, netAt lhs.inputs 1, netAt rhs.inputs 0, netAt rhs.inputs 1])
    else none
  | _, _, _ => none

def fuseOne (kind : CellKind) (upNet other : NetId) : Option (CellKind × List NetId) :=
  match soleDriver ctx upNet with
  | some up => (fusedPair kind up.kind).map fun newKind => (newKind, up.inputs ++ [other])
  | none => none

def tryComplexFuse (i : ℕ) : Option (CellKind × List NetId) :=
  match ctx.gate.cells[i]? with
  | some cell =>
    match cell.kind with
    | .not => fuseNot ctx cell.inputs
    | .and2 | .or2 | .nand2 | .nor2 =>
      ((fuseLegs ctx cell.kind cell.inputs).or
        (fuseOne ctx cell.kind (netAt cell.inputs 0) (netAt cell.inputs 1))).or
        (fuseOne ctx cell.kind (netAt cell.inputs 1) (netAt cell.inputs 0))
    | _ => none
  | none => none

end Fuse

def fuseVisit (ctx : PostPassCtx) (i : ℕ) : Option PostPassCtx :=
  (tryComplexFuse ctx i).map fun (kind, inputs) => ctx.rewriteCell i kind inputs

/-- None only if a phase takes more than the turns. -/
def complexGateReplacement (turns : ℕ) (m : GateModule) : Option GateModule := do
  let ctx ← untilStable collapseSameSelVisit turns (PostPassCtx.new m)
  let ctx ← untilStable combineMuxOfMuxVisit turns ctx
  let ctx ← untilStable distributeVisit turns ctx
  let ctx ← untilStable factorMuxVisit turns ctx
  let ctx ← untilStable fuseVisit turns (collapseMuxToPrimitive ctx)
  some ctx.gate

end Veryl.Synthesizer
