import Mathlib

/-!
The cells of a gate module, what they compute, and the constant folding that
both the netlist builder and its simplifier apply to one cell at a time.
-/

namespace Veryl.Synthesizer

open List Option
abbrev NetId := ℕ

/-- The net tied to ground. -/
def netConst0 : NetId := 0

/-- The net tied to the supply. -/
def netConst1 : NetId := 1

/-- What drives a net. -/
inductive NetDriver where
  | const (b : Bool)
  | portInput
  | cell (idx : ℕ)
  | ffQ (idx : ℕ)
  | ramRead (block port bit : ℕ)
  | undriven
  deriving DecidableEq

/-- The constant a driver ties its net to. -/
def NetDriver.const? : NetDriver → Option Bool
  | .const b => some b
  | _ => none

inductive CellKind where
  | buf | not | and2 | or2 | nand2 | nor2 | xor2 | xnor2
  | and3 | or3 | nand3 | nor3
  | ao21 | aoi21 | oa21 | oai21 | ao31 | aoi31 | ao22 | aoi22 | oai22
  | mux2
  deriving DecidableEq

variable {kind : CellKind}

namespace CellKind

def arity : CellKind → ℕ
  | buf | not => 1
  | and2 | or2 | nand2 | nor2 | xor2 | xnor2 => 2
  | and3 | or3 | nand3 | nor3 | ao21 | aoi21 | oa21 | oai21 | mux2 => 3
  | ao31 | aoi31 | ao22 | aoi22 | oai22 => 4

/-- The output of a cell from the values of its inputs; a list of another
length than the arity gives `false`. -/
def eval : CellKind → List Bool → Bool
  | buf, [a] => a
  | not, [a] => !a
  | and2, [a, b] => a && b
  | or2, [a, b] => a || b
  | nand2, [a, b] => !(a && b)
  | nor2, [a, b] => !(a || b)
  | xor2, [a, b] => a ^^ b
  | xnor2, [a, b] => !(a ^^ b)
  | and3, [a, b, c] => a && b && c
  | or3, [a, b, c] => a || b || c
  | nand3, [a, b, c] => !(a && b && c)
  | nor3, [a, b, c] => !(a || b || c)
  | ao21, [a, b, c] => (a && b) || c
  | aoi21, [a, b, c] => !((a && b) || c)
  | oa21, [a, b, c] => (a || b) && c
  | oai21, [a, b, c] => !((a || b) && c)
  | ao31, [a, b, c, d] => (a && b && c) || d
  | aoi31, [a, b, c, d] => !((a && b && c) || d)
  | ao22, [a, b, c, d] => (a && b) || (c && d)
  | aoi22, [a, b, c, d] => !((a && b) || (c && d))
  | oai22, [a, b, c, d] => !((a || b) && (c || d))
  | mux2, [sel, d0, d1] => if sel then d1 else d0
  | _, _ => false

end CellKind

structure Cell where
  kind : CellKind
  inputs : List NetId
  output : NetId
  deriving DecidableEq

/-- The result of folding one cell. -/
inductive Simpl where
  | const (v : Bool)
  | aliasTo (n : NetId)
  | invert (n : NetId)
  deriving DecidableEq

namespace Simpl

def invertSimpl : Simpl → Simpl
  | const v => const !v
  | aliasTo n => invert n
  | invert n => aliasTo n

/-- The value a folded cell stands for. -/
def value (ρ : NetId → Bool) : Simpl → Bool
  | const v => v
  | aliasTo n => ρ n
  | invert n => !ρ n

@[simp] theorem value_invertSimpl (ρ : NetId → Bool) (s : Simpl) :
    s.invertSimpl.value ρ = !s.value ρ := by
  cases s <;> simp [invertSimpl, value]

end Simpl

/-- A gate one of whose input values decides its output. -/
structure AbsorbParams where
  dominant : Bool
  dominantOut : Bool
  unitInvert : Bool
  selfAlias : Bool

namespace AbsorbParams

def and : AbsorbParams := ⟨false, false, false, true⟩
def or : AbsorbParams := ⟨true, true, false, true⟩
def nand : AbsorbParams := ⟨false, true, true, false⟩
def nor : AbsorbParams := ⟨true, false, true, false⟩

end AbsorbParams

section Simplify

variable (iv : List (Option Bool)) (nets : List NetId)

/-- The known value of an input. -/
def ivAt (i : ℕ) : Option Bool := iv.getD i none

/-- The net of an input. -/
def netAt (i : ℕ) : NetId := nets.getD i netConst0

def simplOai22 : Option Simpl :=
  if (ivAt iv 0 = some false ∧ ivAt iv 1 = some false) ∨
      (ivAt iv 2 = some false ∧ ivAt iv 3 = some false) then
    some (.const true)
  else if (ivAt iv 0 = some true ∨ ivAt iv 1 = some true ∨ netAt nets 0 = netConst1 ∨
        netAt nets 1 = netConst1) ∧
      (ivAt iv 2 = some true ∨ ivAt iv 3 = some true ∨ netAt nets 2 = netConst1 ∨
        netAt nets 3 = netConst1) then
    some (.const false)
  else none

/-- When the other pair is zero, a pair with a one or with equal legs is a net. -/
def simplAo22Pair (i j : ℕ) : Option Simpl :=
  if ivAt iv i = some true then some (.aliasTo (netAt nets j))
  else if ivAt iv j = some true then some (.aliasTo (netAt nets i))
  else if netAt nets i = netAt nets j then some (.aliasTo (netAt nets i))
  else none

def simplAo22 : Option Simpl :=
  if (ivAt iv 0 = some true ∧ ivAt iv 1 = some true) ∨
      (ivAt iv 2 = some true ∧ ivAt iv 3 = some true) then
    some (.const true)
  else
    let abZero := ivAt iv 0 = some false ∨ ivAt iv 1 = some false ∨
      netAt nets 0 = netConst0 ∨ netAt nets 1 = netConst0
    let cdZero := ivAt iv 2 = some false ∨ ivAt iv 3 = some false ∨
      netAt nets 2 = netConst0 ∨ netAt nets 3 = netConst0
    if abZero ∧ cdZero then some (.const false)
    else
      (if abZero then simplAo22Pair iv nets 2 3 else none).or
        (if cdZero then simplAo22Pair iv nets 0 1 else none)

def simplAbsorb2 (p : AbsorbParams) : Option Simpl :=
  let make : NetId → Simpl := fun net => if p.unitInvert then .invert net else .aliasTo net
  if ivAt iv 0 = some p.dominant ∨ ivAt iv 1 = some p.dominant then some (.const p.dominantOut)
  else if ivAt iv 0 = some !p.dominant then some (make (netAt nets 1))
  else if ivAt iv 1 = some !p.dominant then some (make (netAt nets 0))
  else if p.selfAlias ∧ netAt nets 0 = netAt nets 1 then some (.aliasTo (netAt nets 0))
  else none

def simplAbsorb3 (p : AbsorbParams) : Option Simpl :=
  if some p.dominant ∈ iv then some (.const p.dominantOut)
  else if ∀ v ∈ iv, v = some !p.dominant then some (.const !p.dominantOut)
  else if p.selfAlias ∧ netAt nets 0 = netAt nets 1 ∧ netAt nets 1 = netAt nets 2 then
    some (.aliasTo (netAt nets 0))
  else none

def simplXorFamily (baseParity : Bool) : Option Simpl :=
  match ivAt iv 0, ivAt iv 1 with
  | some a, some b => some (.const (if baseParity then a == b else a != b))
  | a, b =>
    if a = some baseParity then some (.aliasTo (netAt nets 1))
    else if b = some baseParity then some (.aliasTo (netAt nets 0))
    else if a = some !baseParity then some (.invert (netAt nets 1))
    else if b = some !baseParity then some (.invert (netAt nets 0))
    else if netAt nets 0 = netAt nets 1 then some (.const baseParity)
    else none

def simplMux2 : Option Simpl :=
  match ivAt iv 0 with
  | some false => some (.aliasTo (netAt nets 1))
  | some true => some (.aliasTo (netAt nets 2))
  | none =>
    if netAt nets 1 = netAt nets 2 then some (.aliasTo (netAt nets 1))
    else if ivAt iv 1 = some false ∧ ivAt iv 2 = some true then some (.aliasTo (netAt nets 0))
    else if ivAt iv 1 = some true ∧ ivAt iv 2 = some false then some (.invert (netAt nets 0))
    else none

def simplAoiFamily (isAoi : Bool) : Option Simpl :=
  if ivAt iv 2 = some isAoi then some (.const !isAoi)
  else if ivAt iv 0 = some !isAoi ∨ ivAt iv 1 = some !isAoi then
    match ivAt iv 2 with
    | some b => some (.const !b)
    | none => some (.invert (netAt nets 2))
  else none

def simplAo31 (invert : Bool) : Option Simpl :=
  if ivAt iv 3 = some true then some (.const !invert)
  else if ivAt iv 0 = some false ∨ ivAt iv 1 = some false ∨ ivAt iv 2 = some false then
    match ivAt iv 3 with
    | some b => some (.const (if invert then !b else b))
    | none => some (if invert then .invert (netAt nets 3) else .aliasTo (netAt nets 3))
  else if ivAt iv 0 = some true ∧ ivAt iv 1 = some true ∧ ivAt iv 2 = some true then
    some (.const !invert)
  else none

def simplAoFamily (isAo : Bool) : Option Simpl :=
  if ivAt iv 2 = some isAo then some (.const isAo)
  else if ivAt iv 0 = some !isAo ∨ ivAt iv 1 = some !isAo then
    match ivAt iv 2 with
    | some b => some (.const b)
    | none => some (.aliasTo (netAt nets 2))
  else if ivAt iv 0 = some isAo ∧ ivAt iv 1 = some isAo then some (.const isAo)
  else none

def simplify (kind : CellKind) : Option Simpl :=
  match kind with
  | .buf => (ivAt iv 0).map .const
  | .not => (ivAt iv 0).map fun b => .const !b
  | .and2 => simplAbsorb2 iv nets .and
  | .or2 => simplAbsorb2 iv nets .or
  | .nand2 => simplAbsorb2 iv nets .nand
  | .nor2 => simplAbsorb2 iv nets .nor
  | .xor2 => simplXorFamily iv nets false
  | .xnor2 => simplXorFamily iv nets true
  | .mux2 => simplMux2 iv nets
  | .and3 => simplAbsorb3 iv nets .and
  | .or3 => simplAbsorb3 iv nets .or
  | .nand3 => simplAbsorb3 iv nets .nand
  | .nor3 => simplAbsorb3 iv nets .nor
  | .ao21 => simplAoFamily iv nets true
  | .aoi21 => simplAoiFamily iv nets true
  | .oa21 => simplAoFamily iv nets false
  | .oai21 => simplAoiFamily iv nets false
  | .ao31 => simplAo31 iv nets false
  | .aoi31 => simplAo31 iv nets true
  | .ao22 => simplAo22 iv nets
  | .aoi22 => (simplAo22 iv nets).map Simpl.invertSimpl
  | .oai22 => simplOai22 iv nets

end Simplify

section Soundness

variable {ρ : NetId → Bool} {iv : List (Option Bool)} {nets : List NetId} {s : Simpl}

/-- The known input values are those of the valuation. -/
structure Agrees (ρ : NetId → Bool) (iv : List (Option Bool)) (nets : List NetId) : Prop where
  gnd : ρ netConst0 = false
  vdd : ρ netConst1 = true
  length_eq : iv.length = nets.length
  iv_eq : ∀ i b, ivAt iv i = some b → ρ (netAt nets i) = b

theorem length_four {α : Type*} {xs : List α} (h : xs.length = 4) :
    ∃ a b c d, xs = [a, b, c, d] := by
  obtain ⟨a, tail, rfl⟩ := exists_cons_of_length_eq_add_one h
  obtain ⟨b, c, d, rfl⟩ := length_eq_three.1 (Nat.succ.inj h)
  exact ⟨a, b, c, d, rfl⟩

theorem simplify_sound_two (h : Agrees ρ iv nets) (hk : kind.arity = 2)
    (hn : nets.length = 2) (hs : simplify iv nets kind = some s) :
    kind.eval (nets.map ρ) = s.value ρ := by
  obtain ⟨a, b, rfl⟩ := length_eq_two.1 hn
  have h0 := h.iv_eq 0
  have h1 := h.iv_eq 1
  simp only [ivAt, netAt, getD_cons_zero, getD_cons_succ] at h0 h1
  cases kind <;> simp only [CellKind.arity] at hk <;> try omega
  all_goals
    simp only [simplify, simplAbsorb2, simplXorFamily, ivAt, netAt, getD_cons_zero, getD_cons_succ,
      AbsorbParams.and, AbsorbParams.or, AbsorbParams.nand, AbsorbParams.nor] at hs
    simp only [map_cons, map_nil, CellKind.eval]
    grind [Simpl.value]

theorem simplify_sound_three (h : Agrees ρ iv nets) (hk : kind.arity = 3)
    (hn : nets.length = 3) (hs : simplify iv nets kind = some s) :
    kind.eval (nets.map ρ) = s.value ρ := by
  obtain ⟨a, b, c, rfl⟩ := length_eq_three.1 hn
  obtain ⟨x, y, z, rfl⟩ := length_eq_three.1 (h.length_eq.trans hn)
  have h0 := h.iv_eq 0
  have h1 := h.iv_eq 1
  have h2 := h.iv_eq 2
  simp only [ivAt, netAt, getD_cons_zero, getD_cons_succ] at h0 h1 h2
  cases kind <;> simp only [CellKind.arity] at hk <;> try omega
  all_goals
    simp only [simplify, simplAbsorb3, simplAoFamily, simplAoiFamily, simplMux2, ivAt, netAt,
      getD_cons_zero, getD_cons_succ, mem_cons, not_mem_nil, or_false, forall_eq_or_imp, forall_eq,
      AbsorbParams.and, AbsorbParams.or, AbsorbParams.nand, AbsorbParams.nor] at hs
    simp only [map_cons, map_nil, CellKind.eval]
    grind [Simpl.value]

theorem simplAo22Pair_sound (h : Agrees ρ iv nets) {i j : ℕ}
    (hs : simplAo22Pair iv nets i j = some s) :
    (ρ (netAt nets i) && ρ (netAt nets j)) = s.value ρ := by
  have hi := h.iv_eq i
  have hj := h.iv_eq j
  unfold simplAo22Pair at hs
  grind [Simpl.value]

section

variable (h : Agrees ρ iv nets)

include h

/-- Both AND pairs are folded together. -/
theorem simplAo22_sound (hs : simplAo22 iv nets = some s) :
    ((ρ (netAt nets 0) && ρ (netAt nets 1)) || (ρ (netAt nets 2) && ρ (netAt nets 3))) =
      s.value ρ := by
  have h0 := h.iv_eq 0
  have h1 := h.iv_eq 1
  have h2 := h.iv_eq 2
  have h3 := h.iv_eq 3
  have hgnd := h.gnd
  have hab := fun s' => @simplAo22Pair_sound ρ iv nets s' h 0 1
  have hcd := fun s' => @simplAo22Pair_sound ρ iv nets s' h 2 3
  unfold simplAo22 at hs
  grind [Simpl.value]

theorem simplOai22_sound (hs : simplOai22 iv nets = some s) :
    (!((ρ (netAt nets 0) || ρ (netAt nets 1)) && (ρ (netAt nets 2) || ρ (netAt nets 3)))) =
      s.value ρ := by
  have h0 := h.iv_eq 0
  have h1 := h.iv_eq 1
  have h2 := h.iv_eq 2
  have h3 := h.iv_eq 3
  have hvdd := h.vdd
  unfold simplOai22 at hs
  grind [Simpl.value]

theorem simplAo31_sound {invert : Bool} (hs : simplAo31 iv nets invert = some s) :
    (invert ^^ ((ρ (netAt nets 0) && ρ (netAt nets 1) && ρ (netAt nets 2)) ||
      ρ (netAt nets 3))) = s.value ρ := by
  have h0 := h.iv_eq 0
  have h1 := h.iv_eq 1
  have h2 := h.iv_eq 2
  have h3 := h.iv_eq 3
  unfold simplAo31 at hs
  grind [Simpl.value]

theorem simplify_sound_four (hk : kind.arity = 4)
    (hn : nets.length = 4) (hs : simplify iv nets kind = some s) :
    kind.eval (nets.map ρ) = s.value ρ := by
  obtain ⟨a, b, c, d, rfl⟩ := length_four hn
  cases kind <;> simp only [CellKind.arity] at hk <;> try omega
  case ao31 => simpa [netAt, CellKind.eval] using simplAo31_sound h hs
  case aoi31 => simpa [netAt, CellKind.eval] using simplAo31_sound h hs
  case ao22 => simpa [netAt, CellKind.eval] using simplAo22_sound h hs
  case oai22 => simpa [netAt, CellKind.eval] using simplOai22_sound h hs
  case aoi22 =>
    obtain ⟨t, ht, rfl⟩ := map_eq_some_iff.1 hs
    have hsound := simplAo22_sound h ht
    simp only [netAt, getD_cons_zero, getD_cons_succ] at hsound
    simp [CellKind.eval, hsound]

theorem simplify_sound (hn : nets.length = kind.arity)
    (hs : simplify iv nets kind = some s) : kind.eval (nets.map ρ) = s.value ρ := by
  have hone : kind.arity = 1 ∨ kind.arity = 2 ∨ kind.arity = 3 ∨ kind.arity = 4 := by
    cases kind <;> simp [CellKind.arity]
  obtain hk | hk | hk | hk := hone
  · obtain ⟨a, rfl⟩ := length_eq_one_iff.1 (hn.trans hk)
    have h0 := h.iv_eq 0
    cases kind <;> simp only [CellKind.arity] at hk <;> try omega
    all_goals
      obtain ⟨b, hb, rfl⟩ := map_eq_some_iff.1 hs
      simpa [CellKind.eval, Simpl.value, netAt] using h0 b hb
  · exact simplify_sound_two h hk (hn.trans hk) hs
  · exact simplify_sound_three h hk (hn.trans hk) hs
  · exact simplify_sound_four h hk (hn.trans hk) hs

end

end Soundness

end Veryl.Synthesizer
