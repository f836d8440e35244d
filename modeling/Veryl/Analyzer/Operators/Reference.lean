import Veryl.Analyzer.Operators.Independence

/-!
What the operators mean on integers, for operands without unknown bits.
-/

namespace Veryl.Analyzer.Reference

/-- The number in a value that is extended, with its sign when it and the
operation are signed. -/
def extended (x : Value) (useSign : Bool) : ℤ :=
  if x.signed && useSign then (x.payload : ℤ).bmod (2 ^ x.width) else x.payload

/-- An operand at the width of the operation, read as a signed number by a signed
operation. -/
def operand (x : Value) (width : ℕ) (signed : Bool) : ℤ :=
  if signed then (extended x true).bmod (2 ^ width) else extended x false

/-- The bits of an operand at the width of the operation. -/
def pattern (x : Value) (width : ℕ) (signed : Bool) : ℤ := extended x signed % 2 ^ width

/-- The exponent of a power, signed or not by itself. -/
def exponent (y : Value) : ℤ := extended y true

/-- A power; the reciprocal of one is cut to an integer, and zero has none. -/
def power (base exponent : ℤ) : Option ℤ :=
  if 0 ≤ exponent then some (base ^ exponent.toNat)
  else if base = 0 then none
  else some (Int.tdiv 1 (base ^ exponent.natAbs))

/-- The operators that take their operands at the width of the operation. -/
def arithmetic (op : Op) (a b : ℤ) : Option (Option ℤ) :=
  match op with
  | .add => some (some (a + b))
  | .sub => some (some (a - b))
  | .mul => some (some (a * b))
  | .div => some (if b = 0 then none else some (a.tdiv b))
  | .rem => some (if b = 0 then none else some (a.tmod b))
  | _ => none

/-- The comparisons, at the larger width of the operands. -/
def comparison (op : Op) (a b : ℤ) : Option Bool :=
  match op with
  | .eq | .eqWildcard => some (decide (a = b))
  | .ne | .neWildcard => some (decide (a ≠ b))
  | .less => some (decide (a < b))
  | .lessEq => some (decide (a ≤ b))
  | .greater => some (decide (b < a))
  | .greaterEq => some (decide (b ≤ a))
  | _ => none

def isArithmetic (op : Op) : Bool := op ∈ [Op.add, .sub, .mul, .div, .rem]

def isComparison (op : Op) : Bool :=
  op ∈ [Op.eq, .eqWildcard, .ne, .neWildcard, .less, .lessEq, .greater, .greaterEq]

/-- The operators that compare by the sign of the operands alone. -/
def bySign (op : Op) : Bool := op ∈ [Op.eq, .eqWildcard, .ne, .neWildcard]

/-- The result of an operator, before it is cut to the width: none for an
operator that is not arithmetic, none inside for one that is all unknown. -/
def binary (op : Op) (x y : Value) (width : ℕ) (signed : Bool) : Option (Option ℤ) :=
  match op with
  | .pow => some (power (operand x width signed) (exponent y))
  | .logicShiftL | .arithShiftL => some (some (operand x width signed * 2 ^ y.payload))
  | .logicShiftR => some (some (pattern x width signed / 2 ^ y.payload))
  | .arithShiftR => some (some (operand x width signed / 2 ^ y.payload))
  | op =>
    match arithmetic op (operand x width signed) (operand y width signed) with
    | some result => some result
    | none =>
      let signed := if bySign op then x.signed && y.signed else signed
      (comparison op (operand x (max x.width y.width) signed)
        (operand y (max x.width y.width) signed)).map fun b => some b.toNat

/-- The value computed is the result cut to the width, or has every bit unknown. -/
def Computes (value : Option Value) (width : ℕ) (result : Option ℤ) : Prop :=
  ∃ v, value = some v ∧ v.width = width ∧
    match result with
    | some z => (v.payload : ℤ) = z % 2 ^ width ∧ v.maskXz = 0
    | none => v.payload = 0 ∧ v.maskXz = genMask width

end Veryl.Analyzer.Reference
