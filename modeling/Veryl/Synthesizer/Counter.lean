import Veryl.Synthesizer.Growth

/-!
Chains of conditional increments rebuilt as population counts.
-/

namespace Veryl.Synthesizer

open List

/-- Shorter chains stay serial. -/
def minStages : ℕ := 8

/-- A conditional increment of a bus: the nets it reads and drives, the cells
that drive them, and the condition, a product of nets and inverted nets. -/
structure Stage where
  condTerms : List (NetId × Bool)
  outBus : List NetId
  inBus : List NetId
  cells : List ℕ

/-- A multiplexer whose one leg is the increment of the other. -/
structure IncMux where
  mux : ℕ
  k : ℕ
  b : NetId
  leaves : List NetId
  selHigh : Bool

section Recognition

variable (m : GateModule)

/-- The leaves of a cone of AND gates; none if it is deeper than the turns. -/
def collectAndLeaves : ℕ → NetId → Option (List NetId)
  | 0, _ => none
  | turns + 1, n =>
    match m.driverCell n with
    | some (_, c) =>
      if c.kind = .and2 ∨ c.kind = .and3 then
        (c.inputs.mapM (collectAndLeaves turns)).map List.flatten
      else some [n]
    | none => some [n]

/-- One orientation of a multiplexer: `sum` is taken for the increment of `b`. -/
def classifyLeg (turns mux : ℕ) (b sum : NetId) (selHigh : Bool) : Option (Option IncMux) :=
  match m.driverCell sum with
  | none => some none
  | some (_, t) =>
    match t.kind with
    | .not => some (if netAt t.inputs 0 = b then some ⟨mux, 0, b, [], selHigh⟩ else none)
    | .xor2 =>
      let carry :=
        if netAt t.inputs 0 = b then some (netAt t.inputs 1)
        else if netAt t.inputs 1 = b then some (netAt t.inputs 0)
        else none
      match carry with
      | none => some none
      | some carry =>
        (collectAndLeaves m turns carry).map fun leaves =>
          if leaves = [] then none else some ⟨mux, leaves.length, b, leaves, selHigh⟩
    | _ => some none

def classifyIncMux (turns i : ℕ) : Option (Option IncMux) :=
  match m.cells[i]? with
  | some mux =>
    if mux.kind ≠ .mux2 then some none
    else
      (classifyLeg m turns i (netAt mux.inputs 1) (netAt mux.inputs 2) true).bind fun first =>
        match first with
        | some im => some (some im)
        | none => classifyLeg m turns i (netAt mux.inputs 2) (netAt mux.inputs 1) false
  | none => some none

/-- The select of an increment, and the leg it must pick. -/
def IncMux.key (im : IncMux) : NetId × Bool :=
  (netAt ((m.cells[im.mux]?.map Cell.inputs).getD []) 0, im.selHigh)

def keyLe (a b : NetId × Bool) : Bool := a.1 < b.1 || (a.1 = b.1 && (!a.2 || b.2))

/-- Bit `pos` carries over the lower bits, which are the bus so far. -/
def matchBus : ℕ → List IncMux → Stage → Option Stage
  | _, [], stage => some stage
  | pos, im :: rest, stage =>
    if im.k ≠ pos then none
    else if im.leaves.mergeSort (· ≤ ·) ≠ stage.inBus.mergeSort (· ≤ ·) then none
    else
      matchBus (pos + 1) rest { stage with
        inBus := stage.inBus ++ [im.b]
        outBus := stage.outBus ++ ((m.cells[im.mux]?.map Cell.output).toList)
        cells := stage.cells ++ [im.mux] }

/-- A multiplexer between a net and its increment. -/
def isPassthrough (b i : NetId) (c : Cell) : Bool :=
  c.kind = .mux2 &&
    ((netAt c.inputs 1 = b && netAt c.inputs 2 = i) || (netAt c.inputs 1 = i && netAt c.inputs 2 = b))

/-- One layer over all bits: its select, whether the increment is on the high
leg, and its cells. -/
def passLayer : List (NetId × NetId) → Option (NetId × Bool) →
      Option (Option (NetId × Bool) × List ℕ)
  | [], layer => some (layer, [])
  | (ik, bk) :: rest, layer =>
    match m.cells.findIdx? (isPassthrough bk ik) with
    | none => none
    | some mi =>
      let inputs := (m.cells[mi]?.map Cell.inputs).getD []
      let found := (netAt inputs 0, decide (netAt inputs 2 = ik))
      if layer = none ∨ layer = some found then
        (passLayer rest (some found)).map fun out => (out.1, mi :: out.2)
      else none

/-- Folds the layers above a stage into its condition; none if there are more
than the turns. -/
def foldPassthroughLayers : ℕ → Stage → Option Stage
  | 0, _ => none
  | turns + 1, stage =>
    match passLayer m (stage.outBus.zip stage.inBus) none with
    | some (some (sel, incIsD1), outer) =>
      foldPassthroughLayers turns { stage with
        condTerms := stage.condTerms ++ [(sel, !incIsD1)]
        outBus := outer.map fun i => ((m.cells[i]?.map Cell.output).getD netConst0)
        cells := outer }
    | _ => some stage

def buildStage (turns : ℕ) (incs : List IncMux) (key : NetId × Bool) : Option (Option Stage) :=
  let group := (incs.filter fun im => im.key m = key).mergeSort fun a b => a.k ≤ b.k
  match matchBus m 0 group ⟨[(key.1, !key.2)], [], [], []⟩ with
  | none => some none
  | some stage =>
    if stage.inBus.length < 2 then some none
    else (foldPassthroughLayers m turns stage).map some

def collectStages (turns : ℕ) : Option (List Stage) :=
  ((List.range m.cells.length).mapM (classifyIncMux m turns)).bind fun classified =>
    let incs := classified.reduceOption
    let keys := ((incs.map (IncMux.key m)).dedup).mergeSort keyLe
    (keys.mapM (buildStage m turns incs)).map List.reduceOption

end Recognition

def follows (a b : Stage) : Bool := a.outBus = b.inBus

/-- The only stage that goes on from another. -/
def succStage (stages : List Stage) (i : ℕ) : Option ℕ :=
  match stages[i]? with
  | none => none
  | some a =>
    match (List.range stages.length).filter fun j => i ≠ j ∧ (stages[j]?.any (follows a)) with
    | [j] => some j
    | _ => none

def hasPred (stages : List Stage) (j : ℕ) : Bool :=
  (List.range stages.length).any fun i => succStage stages i = some j

/-- The stages from a head on; none if there are more than the turns. -/
def chainFrom (stages : List Stage) : ℕ → ℕ → Option (List ℕ)
  | 0, _ => none
  | turns + 1, i =>
    match succStage stages i with
    | some j => (chainFrom stages turns j).map (i :: ·)
    | none => some [i]

/-- A cell for a net and what was built before it. -/
def materializeTerm (st : GateModule × Option NetId) (term : NetId × Bool) :
    GateModule × Option NetId :=
  let lit := if term.2 then st.1.mkCell .not [term.1] else (st.1, term.1)
  match st.2 with
  | none => (lit.1, some lit.2)
  | some acc =>
    let out := lit.1.mkCell .and2 [acc, lit.2]
    (out.1, some out.2)

def materializeCond (m : GateModule) (terms : List (NetId × Bool)) : GateModule × NetId :=
  let out := terms.foldl materializeTerm (m, none)
  (out.1, out.2.getD netConst0)

def materializeConds (m : GateModule) : List (List (NetId × Bool)) → GateModule × List NetId
  | [] => (m, [])
  | terms :: rest =>
    let cond := materializeCond m terms
    let conds := materializeConds cond.1 rest
    (conds.1, cond.2 :: conds.2)

def halfAdder (m : GateModule) (a b : NetId) : GateModule × NetId × NetId :=
  let sum := m.mkCell .xor2 [a, b]
  let carry := sum.1.mkCell .and2 [a, b]
  (carry.1, sum.2, carry.2)

def fullAdder (m : GateModule) (a b c : NetId) : GateModule × NetId × NetId :=
  let ab := m.mkCell .xor2 [a, b]
  let sum := ab.1.mkCell .xor2 [ab.2, c]
  let abAnd := sum.1.mkCell .and2 [a, b]
  let cAb := abAnd.1.mkCell .and2 [c, ab.2]
  let carry := cAb.1.mkCell .or2 [abAnd.2, cAb.2]
  (carry.1, sum.2, carry.2)

/-- Adds up bits of one weight, until at most one is left. -/
def compress (m : GateModule) : List NetId → List NetId → GateModule × List NetId × List NetId
  | a :: b :: c :: rest, carries =>
    let out := fullAdder m a b c
    compress out.1 (rest ++ [out.2.1]) (carries ++ [out.2.2])
  | [a, b], carries =>
    let out := halfAdder m a b
    (out.1, [out.2.1], carries ++ [out.2.2])
  | level, carries => (m, level, carries)
termination_by level => level.length

theorem length_compress (k : ℕ) : ∀ (m : GateModule) (level carries : List NetId),
    level.length ≤ k →
      (compress m level carries).2.2.length + 1 ≤ carries.length + max level.length 1 := by
  induction k using Nat.strongRecOn with
  | ind k ih =>
  intro m level carries hk
  match level with
  | [] | [_] => simp [compress]
  | [_, _] => simp [compress]
  | a :: b :: c :: rest =>
    rw [compress]
    have hlen : (rest ++ [(fullAdder m a b c).2.1]).length < k := by
      simp only [length_append, length_cons, length_nil] at hk ⊢
      omega
    have h := ih _ hlen (fullAdder m a b c).1 _ (carries ++ [(fullAdder m a b c).2.2])
      (Nat.le_refl _)
    simp only [length_append, length_cons, length_nil] at h ⊢
    omega

/-- The number of ones, its lowest bit first. -/
def popcount (m : GateModule) (bits : List NetId) : GateModule × List NetId :=
  let out := compress m bits []
  if out.2.2 = [] then (out.1, [out.2.1.headD netConst0])
  else
    let higher := popcount out.1 out.2.2
    (higher.1, out.2.1.headD netConst0 :: higher.2)
termination_by bits.length
decreasing_by
  rename_i hne
  have hlen := length_compress bits.length m bits [] (Nat.le_refl _)
  have hpos : 0 < (compress m bits []).2.2.length := length_pos_iff.2 hne
  simp only [length_nil] at hlen
  show (compress m bits []).2.2.length < bits.length
  omega

/-- A ripple carry over the bits from a place on. -/
def addBits (a b : List NetId) : ℕ → ℕ → GateModule → NetId → GateModule × List NetId
  | 0, _, m, _ => (m, [])
  | left + 1, i, m, carry =>
    let x := a.getD i netConst0
    let y := b.getD i netConst0
    let xy := m.mkCell .xor2 [x, y]
    let sum := xy.1.mkCell .xor2 [xy.2, carry]
    if left = 0 then (sum.1, [sum.2])
    else
      let andXy := sum.1.mkCell .and2 [x, y]
      let andC := andXy.1.mkCell .and2 [carry, xy.2]
      let next := andC.1.mkCell .or2 [andXy.2, andC.2]
      let rest := addBits a b left (i + 1) next.1 next.2
      (rest.1, sum.2 :: rest.2)

def addMod (m : GateModule) (a b : List NetId) (width : ℕ) : GateModule × List NetId :=
  addBits a b width 0 m netConst0

/-- The cells of the last stage become buffers of the total. -/
def rebuildCounter (m : GateModule) (stages : List Stage) : GateModule :=
  match stages.head?, stages.getLast? with
  | some first, some last =>
    let conds := materializeConds m (stages.map Stage.condTerms)
    let count := popcount conds.1 conds.2
    let total := addMod count.1 first.inBus count.2 first.inBus.length
    (last.cells.zip total.2).foldl (fun m ct => m.setCell ct.1 .buf [ct.2]) total.1
  | _, _ => m

def countVisit (stages : List Stage) (turns : ℕ) (st : GateModule × Bool) (head : ℕ) :
    Option (GateModule × Bool) :=
  if hasPred stages head then some st
  else
    (chainFrom stages turns head).map fun chain =>
      if chain.length < minStages then st
      else (rebuildCounter st.1 (chain.filterMap fun i => stages[i]?), true)

/-- Rebuilds the chain of every head; none if a cone, a stack of layers or a
chain takes more than the turns. -/
def countScanRebuild (turns : ℕ) (m : GateModule) : Option (GateModule × Bool) :=
  (collectStages m turns).bind fun stages =>
    (List.range stages.length).foldlM (countVisit stages turns) (m, false)

end Veryl.Synthesizer
