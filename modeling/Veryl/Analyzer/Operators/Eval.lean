import Veryl.Analyzer.Operators.ValueU64

/-!
The evaluation of the operators. Every operator has two bodies, one on native
words and one on big integers; `native` says at which widths a value is kept in
native words, which in the analyzer is up to 64 bits.
-/

namespace Veryl.Analyzer

open ValueU64

open ValueU64 (addSub asI64 divideRemainder newBit0x newBit1x)

namespace ValueBigUint

def newBiguint (payload width : ℕ) (signed : Bool) : Value := ⟨payload, 0, width, signed⟩

def newX (width : ℕ) (signed : Bool) : Value := ⟨0, Analyzer.genMask width, width, signed⟩

/-- A signed number cut to the width. -/
def newBigint (payload : ℤ) (width : ℕ) (signed : Bool) : Value :=
  let mask := genMask width
  let payload :=
    if payload < 0 then ((payload.natAbs ^^^ mask) + 1) &&& mask else payload.natAbs &&& mask
  ⟨payload, 0, width, signed⟩

/-- The payload as a signed number, none with an unknown bit. -/
def toBigint (x : Value) : Option ℤ :=
  if x.maskXz ≠ 0 then none
  else if x.payload.testBit (x.width - 1) then
    let mask := genMask x.width
    some (-(((x.payload ^^^ mask) + 1) &&& mask : ℕ))
  else some x.payload

/-- The order of optional numbers, none first. -/
def cmpBigint : Option ℤ → Option ℤ → Ordering
  | none, none => .eq
  | none, some _ => .lt
  | some _, none => .gt
  | some a, some b => compare a b

def expand (x : Value) (width : ℕ) (useSign : Bool) : Value :=
  let msb := x.payload.testBit (x.width - 1)
  let msbXz := x.maskXz.testBit (x.width - 1)
  let mask := genMask width ^^^ genMask x.width
  { payload := if (x.signed && useSign) && msb then x.payload ||| mask else x.payload
    maskXz := if (x.signed && useSign) && msbXz then x.maskXz ||| mask else x.maskXz
    width := width
    signed := if useSign then x.signed else false }

def negate (x : Value) (width : ℕ) : Value :=
  if x.isXz then newX width x.signed
  else { x with payload := ((x.payload ^^^ genMask width) + 1) &&& genMask width }

def bitNot (x : Value) (width : ℕ) : Value :=
  { x with payload := (x.payload ^^^ genMask width) &&& (x.maskXz ^^^ genMask width) }

def reduceAnd (x : Value) (negated : Bool) : Value :=
  let known := decide (x.payload ||| x.maskXz ≠ genMask x.width)
  let isX := decide (x.maskXz ≠ 0)
  if negated then newBit1x known isX else newBit0x known isX

def reduceOr (x : Value) (negated : Bool) : Value :=
  let known := decide (x.payload &&& (x.maskXz ^^^ genMask x.width) ≠ 0)
  let isX := decide (x.maskXz ≠ 0)
  if negated then newBit0x known isX else newBit1x known isX

def reduceXor (x : Value) (negated : Bool) : Value :=
  if x.isXz then ValueU64.newX 1 false
  else
    let ret := if negated then countOnes x.payload % 2 == 0 else countOnes x.payload % 2 == 1
    new ret.toNat 1 false

def add (x y : Value) (width : ℕ) (signed : Bool) : Value :=
  if x.isXz || y.isXz then newX width signed
  else newBiguint ((x.payload + y.payload) &&& genMask width) width signed

def sub (x y : Value) (width : ℕ) (signed : Bool) : Value :=
  if x.isXz || y.isXz then newX width signed
  else
    let mask := genMask width
    -- the opposite of the right operand
    let y := ((y.payload ^^^ mask) + 1) &&& mask
    newBiguint ((x.payload + y) &&& mask) width signed

def mul (x y : Value) (width : ℕ) (signed : Bool) : Value :=
  if x.isXz || y.isXz then newX width signed
  else newBiguint ((x.payload * y.payload) &&& genMask width) width signed

def divRem (x y : Value) (width : ℕ) (signed remainder : Bool) : Value :=
  if x.isXz || y.isXz || y.payload == 0 then newX width signed
  else if signed then
    let x := (toBigint x).getD 0
    let y := (toBigint y).getD 0
    newBigint (if remainder then x.tmod y else x.tdiv y) width signed
  else
    newBiguint ((if remainder then x.payload % y.payload else x.payload / y.payload) &&&
      genMask width) width signed

def bitAnd (x y : Value) (width : ℕ) : Value :=
  let mask := genMask width
  let maskXz := (x.maskXz &&& y.maskXz) ||| (x.maskXz &&& (y.maskXz ^^^ mask) &&& y.payload) |||
    (y.maskXz &&& (x.maskXz ^^^ mask) &&& x.payload)
  ⟨x.payload &&& y.payload &&& (maskXz ^^^ mask), maskXz, width, false⟩

def bitOr (x y : Value) (width : ℕ) : Value :=
  let mask := genMask width
  let maskXz := (x.maskXz &&& y.maskXz) |||
    (x.maskXz &&& (y.maskXz ^^^ mask) &&& (y.payload ^^^ mask)) |||
    (y.maskXz &&& (x.maskXz ^^^ mask) &&& (x.payload ^^^ mask))
  ⟨(x.payload ||| y.payload) &&& (maskXz ^^^ mask), maskXz, width, false⟩

def bitXor (x y : Value) (width : ℕ) : Value :=
  let mask := genMask width
  let maskXz := x.maskXz ||| y.maskXz
  ⟨(x.payload ^^^ y.payload) &&& (maskXz ^^^ mask), maskXz, width, false⟩

def bitXnor (x y : Value) (width : ℕ) : Value :=
  let mask := genMask width
  let maskXz := x.maskXz ||| y.maskXz
  ⟨(x.payload ^^^ y.payload ^^^ mask) &&& (maskXz ^^^ mask), maskXz, width, false⟩

/-- Both operands have been expanded to the width. -/
def equal (x y : Value) (width : ℕ) (wildcard negated : Bool) : Value :=
  let fullMask := genMask width
  let compareMask := if wildcard then y.maskXz ^^^ fullMask else fullMask
  let knownMask := compareMask &&& (x.maskXz ^^^ fullMask) &&& (y.maskXz ^^^ fullMask)
  let mismatch := decide ((x.payload ^^^ y.payload) &&& knownMask ≠ 0)
  let unknown := decide ((x.maskXz ||| y.maskXz) &&& compareMask ≠ 0)
  if negated then newBit1x mismatch unknown else newBit0x mismatch unknown

def order (x y : Value) (signed : Bool) : Ordering :=
  if signed then cmpBigint (toBigint x) (toBigint y) else compare x.payload y.payload

def ordered (x y : Value) (isOne : Bool) : Value :=
  newBitX1 (decide (x.maskXz ≠ 0) || decide (y.maskXz ≠ 0)) isOne

def knownOne (x : Value) : Bool := decide (x.payload &&& (x.maskXz ^^^ genMask x.width) ≠ 0)

def logicAnd (x y : Value) : Value :=
  let isZero := decide ((x.payload = 0 ∧ x.maskXz = 0) ∨ (y.payload = 0 ∧ y.maskXz = 0))
  let isX := !isZero && (decide (x.maskXz ≠ 0) || decide (y.maskXz ≠ 0))
  newBit1x (knownOne x && knownOne y) isX

def logicOr (x y : Value) : Value :=
  newBit1x (knownOne x || knownOne y) (decide (x.maskXz ≠ 0) || decide (y.maskXz ≠ 0))

def shiftLeft (x : Value) (amount : Option ℕ) (width : ℕ) (arithmetic : Bool) : Value :=
  match amount with
  | none => newX width false
  | some amount =>
    let amount := min amount width
    let mask := genMask width
    { payload := (x.payload <<< amount) &&& mask
      maskXz := (x.maskXz <<< amount) &&& mask
      width := x.width
      signed := if arithmetic then x.signed else false }

def logicShiftR (x : Value) (amount : Option ℕ) (width : ℕ) : Value :=
  match amount with
  | none => newX width false
  | some amount =>
    { payload := x.payload >>> amount
      maskXz := x.maskXz >>> amount
      width := x.width
      signed := false }

def arithShiftR (x : Value) (amount : Option ℕ) (width : ℕ) (signed : Bool) : Value :=
  match amount with
  | none => newX width false
  | some amount =>
    let extMask := genMask (width - amount) ^^^ genMask width
    let extPayload := if signed && x.payload.testBit (x.width - 1) then extMask else 0
    let extMaskXz := if signed && x.maskXz.testBit (x.width - 1) then extMask else 0
    { payload := (x.payload >>> amount) ||| extPayload
      maskXz := (x.maskXz >>> amount) ||| extMaskXz
      width := x.width
      signed := x.signed }

def powModWidth (mag : ℕ) (negative : Bool) (exp width : ℕ) : ℕ :=
  let modulus := genMask width + 1
  let ret := mag ^ exp % modulus
  if negative && decide (exp % 2 = 1) && decide (ret ≠ 0) then (modulus - ret) % modulus else ret

/-- A power with a negative exponent; `mask` is the mask of the width. -/
def powNegative (x : Value) (expOdd : Bool) (width mask : ℕ) : Value :=
  let p := x.payload &&& mask
  if x.isXz || p == 0 then ⟨0, mask, width, x.signed⟩
  else if p = 1 then newBiguint 1 width x.signed
  else if x.signed && p == mask then newBiguint (if expOdd then mask else 1) width true
  else newBiguint 0 width x.signed

/-- The power of a value in native words to an exponent that is not. -/
def powU64 (x : Value) (exponent width : ℕ) : Value :=
  if x.isXz then ValueU64.newX width x.signed
  else if x.signed then
    let base := asI64 (if x.payload.testBit (x.width - 1)
      then x.payload ||| ValueU64.not (ValueU64.genMask x.width) else x.payload)
    new (powModWidth base.natAbs (decide (base < 0)) exponent width) width true
  else new (powModWidth x.payload false exponent width) width false

def pow (x : Value) (exponent width : ℕ) : Value :=
  if x.isXz then newX width x.signed
  else if x.signed then
    let base := (toBigint x).getD 0
    newBiguint (powModWidth base.natAbs (decide (base < 0)) exponent width) width true
  else newBiguint (powModWidth x.payload false exponent width) width false

end ValueBigUint

namespace Op

variable (native : ℕ → Bool)

/-- An operand at the width of the operation; a value wider than that stays. -/
def expand (x : Value) (width : ℕ) (useSign : Bool) : Value :=
  if width ≤ x.width ∧ x.width ≠ 0 then x
  else if x.width = 0 then x.fillUnsized width
  else if native width then ValueU64.expand x width useSign
  else ValueBigUint.expand x width useSign

/-- As `expand`, with a wider value cut. -/
def resize (x : Value) (width : ℕ) (signed : Bool) : Value :=
  if width < x.width then
    if native x.width && native width then trunc x width else x.trunc width
  else expand native x width signed

/-- The body for the representation of a value. -/
def arm (x : Value) (u64 biguint : Value) : Value := if native x.width then u64 else biguint

/-- The body for the representation of both values; the analyzer has none for
values in different ones. -/
def arms (x y : Value) (u64 biguint : Value) : Option Value :=
  if native x.width then if native y.width then some u64 else none
  else if native y.width then none else some biguint

def evalValueUnary (op : Op) (x : Value) (width : ℕ) (signed : Bool) : Option Value :=
  match op with
  | add => some (expand native x width signed)
  | sub =>
    let x := expand native x width signed
    some (arm native x (ValueU64.negate x width) (ValueBigUint.negate x width))
  | bitNot =>
    let x := expand native x width signed
    some (arm native x (ValueU64.bitNot x width) (ValueBigUint.bitNot x width))
  | bitAnd =>
    let ret := arm native x (ValueU64.reduceAnd x false) (ValueBigUint.reduceAnd x false)
    some (expand native ret width false)
  | bitNand =>
    let ret := arm native x (ValueU64.reduceAnd x true) (ValueBigUint.reduceAnd x true)
    some (expand native ret width false)
  | bitOr =>
    let ret := arm native x (ValueU64.reduceOr x false) (ValueBigUint.reduceOr x false)
    some (expand native ret width false)
  | bitNor | logicNot =>
    let ret := arm native x (ValueU64.reduceOr x true) (ValueBigUint.reduceOr x true)
    some (expand native ret width false)
  | bitXor =>
    let ret := arm native x (ValueU64.reduceXor x false) (ValueBigUint.reduceXor x false)
    some (expand native ret width false)
  | bitXnor =>
    let ret := arm native x (ValueU64.reduceXor x true) (ValueBigUint.reduceXor x true)
    some (expand native ret width false)
  | _ => none

def evalArith (op : Op) (x y : Value) (width : ℕ) (signed : Bool) : Option Value :=
  let x := expand native x width signed
  let y := expand native y width signed
  match op with
  | add => arms native x y (addSub x y width signed false)
      (ValueBigUint.add x y width signed)
  | sub => arms native x y (addSub x y width signed true)
      (ValueBigUint.sub x y width signed)
  | mul => arms native x y (multiply x y width signed) (ValueBigUint.mul x y width signed)
  | div => arms native x y (divideRemainder x y width signed false)
      (ValueBigUint.divRem x y width signed false)
  | rem => arms native x y (divideRemainder x y width signed true)
      (ValueBigUint.divRem x y width signed true)
  | bitOr => arms native x y (ValueU64.bitOr x y width) (ValueBigUint.bitOr x y width)
  | bitXor => arms native x y (ValueU64.bitXor x y width) (ValueBigUint.bitXor x y width)
  | bitXnor => arms native x y (ValueU64.bitXnor x y width) (ValueBigUint.bitXnor x y width)
  | _ => none

/-- The operands are compared at the larger of their widths. -/
def evalEqual (x y : Value) (width : ℕ) (wildcard negated : Bool) : Option Value :=
  let xyWidth := max x.width y.width
  let eqSigned := x.signed && y.signed
  let x := expand native x xyWidth eqSigned
  let y := expand native y xyWidth eqSigned
  (arms native x y (ValueU64.equal x y wildcard negated)
    (ValueBigUint.equal x y xyWidth wildcard negated)).map fun ret => expand native ret width false

def evalCompare (x y : Value) (width : ℕ) (signed greater inclusive : Bool) : Option Value :=
  let xyWidth := max x.width y.width
  let x := expand native x xyWidth signed
  let y := expand native y xyWidth signed
  let order := ValueBigUint.order x y signed
  let isOne :=
    if greater then if inclusive then order.isGE else order.isGT
    else if inclusive then order.isLE else order.isLT
  (arms native x y (ValueU64.compare x y signed greater inclusive)
    (ValueBigUint.ordered x y isOne)).map fun ret => expand native ret width false

def evalLogic (x y : Value) (width : ℕ) (conjunction : Bool) : Option Value :=
  let xyWidth := max x.width y.width
  let x := expand native x xyWidth false
  let y := expand native y xyWidth false
  (arms native x y (logicalBinary x y conjunction)
    (if conjunction then ValueBigUint.logicAnd x y else ValueBigUint.logicOr x y)).map
      fun ret => expand native ret width false

/-- Whether the exponent is below zero. -/
def negativeExponent (y : Value) : Bool :=
  y.signed && decide (0 < y.width) && y.payload.testBit (y.width - 1)

def evalPow (x y : Value) (width : ℕ) (signed : Bool) : Value :=
  let x := expand native x width signed
  if native x.width && native y.width then power x y width
  else if y.isXz then (if native width then ValueU64.newX width false
    else ValueBigUint.newX width false)
  else if negativeExponent y then
    let expOdd := decide (y.payload % 2 = 1)
    arm native x (ValueBigUint.powNegative x expOdd width (ValueU64.genMask width))
      (ValueBigUint.powNegative x expOdd width (genMask width))
  else arm native x (ValueBigUint.powU64 x y.payload width) (ValueBigUint.pow x y.payload width)

def evalValueBinary (op : Op) (x y : Value) (width : ℕ) (signed : Bool) : Option Value :=
  match op with
  | bitAnd =>
    let x := resize native x width signed
    let y := resize native y width signed
    arms native x y (ValueU64.bitAnd x y width) (ValueBigUint.bitAnd x y width)
  | eq => evalEqual native x y width false false
  | ne => evalEqual native x y width false true
  | eqWildcard => evalEqual native x y width true false
  | neWildcard => evalEqual native x y width true true
  | greater => evalCompare native x y width signed true false
  | greaterEq => evalCompare native x y width signed true true
  | less => evalCompare native x y width signed false false
  | lessEq => evalCompare native x y width signed false true
  | logicAnd => evalLogic native x y width true
  | logicOr => evalLogic native x y width false
  | logicShiftR =>
    let x := expand native x width signed
    let amount := y.toUsizeSaturating
    some (expand native (arm native x (shiftRight x amount width signed false)
      (ValueBigUint.logicShiftR x amount width)) width false)
  | logicShiftL =>
    let x := expand native x width signed
    let amount := y.toUsizeSaturating
    some (expand native (arm native x (ValueU64.shiftLeft x amount width false)
      (ValueBigUint.shiftLeft x amount width false)) width false)
  | arithShiftR =>
    let x := expand native x width signed
    let amount := y.toUsizeSaturating
    some (expand native (arm native x (shiftRight x amount width signed true)
      (ValueBigUint.arithShiftR x amount width signed)) width false)
  | arithShiftL =>
    let x := expand native x width signed
    let amount := y.toUsizeSaturating
    some (expand native (arm native x (ValueU64.shiftLeft x amount width true)
      (ValueBigUint.shiftLeft x amount width true)) width false)
  | pow => some (evalPow native x y width signed)
  | as => some x
  | _ => evalArith native op x y width signed

end Op

/-- The source's test of a condition. -/
def Value.truth (native : ℕ → Bool) (x : Value) : Option Bool :=
  if native x.width then ValueU64.truth x
  else if x.payload ^^^ (x.payload &&& x.maskXz) ≠ 0 then some true
  else if x.maskXz ≠ 0 then none
  else some false

def Value.conditional (native : ℕ → Bool) (cond onTrue onFalse : Value) (contextWidth : ℕ)
    (signed : Bool) : Option Value :=
  let width := max (max contextWidth onTrue.width) onFalse.width
  let condition := cond.truth native
  if native width && native onTrue.width && native onFalse.width && decide (onTrue.width ≠ 0) &&
      decide (onFalse.width ≠ 0) then
    some (ValueU64.conditional onTrue onFalse condition contextWidth signed)
  else
    let a := Op.expand native onTrue width signed
    let b := Op.expand native onFalse width signed
    let ret := match condition with
      | some true => a
      | some false => b
      | none =>
        let mask := genMask width
        let different := (a.payload ^^^ b.payload) ||| a.maskXz ||| b.maskXz
        let same := mask ^^^ different
        ⟨a.payload &&& same, (a.maskXz &&& same) ||| (mask ^^^ same), width, signed⟩
    Op.arms native a b (ValueU64.conditional a b condition width signed) (ret.setSigned signed)

end Veryl.Analyzer
