import Veryl.Analyzer.Value

/-!
The operators on values of at most 64 bits, in native words: a payload and a
mask are numbers below `2 ^ 64`, and what leaves the word is cut.
-/

namespace Veryl.Analyzer

/-- The ones of a number. -/
def countOnes (p : ℕ) : ℕ := p.bits.count true

namespace ValueU64

/-- The complement in a native word. -/
def not (p : ℕ) : ℕ := (2 ^ 64 - 1) ^^^ p

/-- A native word read as `i64`. -/
def asI64 (p : ℕ) : ℤ := if p < 2 ^ 63 then p else p - 2 ^ 64

/-- An `i64` stored in a native word. -/
def asU64 (z : ℤ) : ℕ := (z % 2 ^ 64).toNat

def genMask (width : ℕ) : ℕ := if 64 ≤ width then 2 ^ 64 - 1 else 2 ^ width - 1

def new (payload width : ℕ) (signed : Bool) : Value := ⟨payload, 0, width, signed⟩

def newX (width : ℕ) (signed : Bool) : Value := ⟨0, genMask width, width, signed⟩

def newBit1x (isOne isX : Bool) : Value :=
  if isOne then new 1 1 false else if isX then newX 1 false else new 0 1 false

def newBit0x (isZero isX : Bool) : Value :=
  if isZero then new 0 1 false else if isX then newX 1 false else new 1 1 false

def newBitX1 (isX isOne : Bool) : Value :=
  if isX then newX 1 false else if isOne then new 1 1 false else new 0 1 false

def expand (x : Value) (width : ℕ) (useSign : Bool) : Value :=
  if width ≤ x.width then x
  else
    let msb := x.payload.testBit (x.width - 1)
    let msbXz := x.maskXz.testBit (x.width - 1)
    let mask := genMask width ^^^ genMask x.width
    { payload := if (x.signed && useSign) && msb then x.payload ||| mask else x.payload
      maskXz := if (x.signed && useSign) && msbXz then x.maskXz ||| mask else x.maskXz
      width := width
      signed := if useSign then x.signed else false }

def trunc (x : Value) (width : ℕ) : Value :=
  { x with
    payload := x.payload &&& genMask width
    maskXz := x.maskXz &&& genMask width
    width := width }

/-- The payload of a value of the given width as a signed number. -/
def signExtend (p width : ℕ) : ℤ := asI64 ((p <<< (64 - width)) % 2 ^ 64) >>> (64 - width)

def shiftLeft (x : Value) (amount : Option ℕ) (width : ℕ) (arithmetic : Bool) : Value :=
  match amount with
  | none => newX width false
  | some amount =>
    let mask := genMask width
    let s := min amount 64
    { payload := ((x.payload <<< s) % 2 ^ 64) &&& mask
      maskXz := ((x.maskXz <<< s) % 2 ^ 64) &&& mask
      width := x.width
      signed := if arithmetic then x.signed else false }

def shiftRight (x : Value) (amount : Option ℕ) (width : ℕ) (signed arithmetic : Bool) : Value :=
  match amount with
  | none => newX width false
  | some amount =>
    let extMask := genMask (width - amount) ^^^ genMask width
    let extPayload :=
      if (arithmetic && signed) && x.payload.testBit (x.width - 1) then extMask else 0
    let extMaskXz :=
      if (arithmetic && signed) && x.maskXz.testBit (x.width - 1) then extMask else 0
    let s := min amount 64
    { payload := (x.payload >>> s) ||| extPayload
      maskXz := (x.maskXz >>> s) ||| extMaskXz
      width := x.width
      signed := if arithmetic then x.signed else false }

def equal (x y : Value) (wildcard negated : Bool) : Value :=
  let compareMask := if wildcard then not y.maskXz else 2 ^ 64 - 1
  let knownMask := compareMask &&& not x.maskXz &&& not y.maskXz
  let mismatch := decide ((x.payload ^^^ y.payload) &&& knownMask ≠ 0)
  let unknown := decide ((x.maskXz ||| y.maskXz) &&& compareMask ≠ 0)
  if negated then newBit1x mismatch unknown else newBit0x mismatch unknown

def compare (x y : Value) (signed greater inclusive : Bool) : Value :=
  let order :=
    if signed then
      Ord.compare (signExtend x.payload (max x.width 1)) (signExtend y.payload (max x.width 1))
    else Ord.compare x.payload y.payload
  let relation := (if greater then order.isGT else order.isLT) || (inclusive && order.isEq)
  newBitX1 (x.isXz || y.isXz) relation

def bitAnd (x y : Value) (width : ℕ) : Value :=
  let mask := (x.maskXz &&& y.maskXz) ||| (x.maskXz &&& not y.maskXz &&& y.payload) |||
    (y.maskXz &&& not x.maskXz &&& x.payload)
  ⟨x.payload &&& y.payload &&& not mask, mask, width, false⟩

def bitOr (x y : Value) (width : ℕ) : Value :=
  let mask := (x.maskXz &&& y.maskXz) ||| (x.maskXz &&& not y.maskXz &&& not y.payload) |||
    (y.maskXz &&& not x.maskXz &&& not x.payload)
  ⟨(x.payload ||| y.payload) &&& not mask, mask, width, false⟩

def bitXor (x y : Value) (width : ℕ) : Value :=
  let mask := x.maskXz ||| y.maskXz
  ⟨(x.payload ^^^ y.payload) &&& not mask, mask, width, false⟩

def bitXnor (x y : Value) (width : ℕ) : Value :=
  let mask := x.maskXz ||| y.maskXz
  ⟨(x.payload ^^^ y.payload ^^^ genMask width) &&& not mask, mask, width, false⟩

def bitNot (x : Value) (width : ℕ) : Value :=
  { x with payload := (x.payload ^^^ genMask width) &&& (x.maskXz ^^^ genMask width) }

def reduceAnd (x : Value) (negated : Bool) : Value :=
  let knownZero := decide (x.payload ||| x.maskXz ≠ genMask x.width)
  if negated then newBit1x knownZero x.isXz else newBit0x knownZero x.isXz

def reduceOr (x : Value) (negated : Bool) : Value :=
  let knownOne := decide (x.payload &&& (x.maskXz ^^^ genMask x.width) ≠ 0)
  if negated then newBit0x knownOne x.isXz else newBit1x knownOne x.isXz

def reduceXor (x : Value) (negated : Bool) : Value :=
  if x.isXz then newX 1 false
  else
    let odd := countOnes x.payload % 2 == 1
    new (odd != negated).toNat 1 false

def logicalBinary (x y : Value) (conjunction : Bool) : Value :=
  let lhsOne := decide (x.payload &&& not x.maskXz ≠ 0)
  let rhsOne := decide (y.payload &&& not y.maskXz ≠ 0)
  let unknown := x.isXz || y.isXz
  if conjunction then
    let knownZero := decide ((x.payload = 0 ∧ x.maskXz = 0) ∨ (y.payload = 0 ∧ y.maskXz = 0))
    newBit1x (lhsOne && rhsOne) (!knownZero && unknown)
  else newBit1x (lhsOne || rhsOne) unknown

def addSub (x y : Value) (width : ℕ) (signed subtract : Bool) : Value :=
  if x.isXz || y.isXz then newX width signed
  else
    let payload := if subtract then asU64 ((x.payload : ℤ) - y.payload)
      else (x.payload + y.payload) % 2 ^ 64
    new (payload &&& genMask width) width signed

def negate (x : Value) (width : ℕ) : Value :=
  if x.isXz then newX width x.signed
  else
    { x with payload := (((x.payload ^^^ genMask width) + 1) % 2 ^ 64) &&& genMask width }

def multiply (x y : Value) (width : ℕ) (signed : Bool) : Value :=
  if x.isXz || y.isXz then newX width signed
  else new ((x.payload * y.payload % 2 ^ 64) &&& genMask width) width signed

/-- Truncating division; the least number has no opposite, so it stays. -/
def checkedDiv (a b : ℤ) : ℤ := if a = -2 ^ 63 ∧ b = -1 then a else a.tdiv b

def checkedRem (a b : ℤ) : ℤ := if a = -2 ^ 63 ∧ b = -1 then 0 else a.tmod b

def divideRemainder (x y : Value) (width : ℕ) (signed remainder : Bool) : Value :=
  let mask := genMask width
  if x.isXz || y.isXz || y.payload &&& mask == 0 then newX width signed
  else
    let payload :=
      if signed then
        let lhs := signExtend x.payload width
        let rhs := signExtend y.payload width
        asU64 (if remainder then checkedRem lhs rhs else checkedDiv lhs rhs)
      else if remainder then x.payload % y.payload
      else x.payload / y.payload
    new (payload &&& mask) width signed

/-- The loop of `power`, by squaring. -/
def powerLoop (base exponent result : ℕ) : ℕ :=
  if exponent = 0 then result
  else
    powerLoop (base * base % 2 ^ 64) (exponent / 2)
      (if exponent % 2 = 1 then result * base % 2 ^ 64 else result)
  termination_by exponent
  decreasing_by omega

def power (x exponent : Value) (width : ℕ) : Value :=
  let mask := genMask width
  if exponent.isXz then newX width false
  else if x.isXz then newX width x.signed
  else if exponent.signed && decide (0 < exponent.width) &&
      exponent.payload.testBit (exponent.width - 1) then
    if x.payload = 0 then newX width x.signed
    else if x.payload = 1 then new 1 width x.signed
    else if x.signed && x.payload == mask then
      new (if exponent.payload % 2 = 1 then mask else 1) width x.signed
    else new 0 width x.signed
  else new (powerLoop x.payload exponent.payload 1 &&& mask) width x.signed

def truth (x : Value) : Option Bool :=
  if x.payload &&& not x.maskXz ≠ 0 then some true
  else if x.maskXz ≠ 0 then none
  else some false

def conditional (x otherwise : Value) (condition : Option Bool) (contextWidth : ℕ)
    (signed : Bool) : Value :=
  let width := max (max contextWidth x.width) otherwise.width
  let onTrue := expand x width signed
  let onFalse := expand otherwise width signed
  let ret := match condition with
    | some true => onTrue
    | some false => onFalse
    | none =>
      let mask := genMask width
      let same := not ((onTrue.payload ^^^ onFalse.payload) |||
        (onTrue.maskXz ||| onFalse.maskXz)) &&& mask
      ⟨onTrue.payload &&& same, (onTrue.maskXz &&& same) ||| (mask ^^^ same), width, signed⟩
  ret.setSigned signed

end ValueU64

end Veryl.Analyzer
