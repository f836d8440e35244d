import Mathlib

/-!
Four-state values as the simulator evaluates them. A value keeps a payload and an `x`/`z` mask; the
source stores the two in native words up to 64 bits and in big integers above that, so the
representation is a function of the width and the model keeps only the numbers.
-/

namespace Veryl.Analyzer

/-- The operators of the analyzer's intermediate representation. -/
inductive Op where
  | pow | div | rem | mul | add | sub
  | arithShiftL | arithShiftR | logicShiftL | logicShiftR
  | lessEq | greaterEq | less | greater | eq | eqWildcard | ne | neWildcard
  | logicAnd | logicOr | logicNot
  | bitAnd | bitOr | bitXor | bitXnor | bitNand | bitNor | bitNot
  | as | ternary | concatenation | arrayLiteral | condition | repeat
  deriving DecidableEq, Repr

structure Value where
  payload : ℕ
  maskXz : ℕ
  width : ℕ
  signed : Bool
  deriving DecidableEq, Repr

/-- The low `width` bits set. -/
def genMask (width : ℕ) : ℕ := 2 ^ width - 1

/-- Bits `beg` down to `end` set. -/
def genMaskRange (beg end_ : ℕ) : ℕ := genMask (beg + 1) ^^^ (genMask (beg + 1) &&& genMask end_)

namespace Value

/-- Values of at most 64 bits live in native words. -/
def isU64 (v : Value) : Bool := v.width ≤ 64

def new (payload width : ℕ) (signed : Bool) : Value := ⟨payload, 0, width, signed⟩

def newX (width : ℕ) (signed : Bool) : Value := ⟨0, genMask width, width, signed⟩

def isXz (v : Value) : Bool := v.maskXz ≠ 0

def setSigned (v : Value) (signed : Bool) : Value := { v with signed := signed }

/-- Bits `beg` down to `end_`; positions at or past the width read `x`. A native
mask stops at the word. -/
def select (v : Value) (beg end_ : ℕ) : Value :=
  if beg < end_ then ⟨0, 0, 0, false⟩
  else
    let width := beg - end_ + 1
    let mask := genMask (if v.isU64 then min width 64 else width)
    if v.width ≤ end_ then ⟨0, mask, width, false⟩
    else
      let validMask := genMask (min (v.width - end_) width)
      { payload := (v.payload >>> end_) &&& validMask
        maskXz := ((v.maskXz >>> end_) &&& validMask) ||| (mask ^^^ validMask)
        width := width
        signed := false }

/-- Replicates the one-bit pattern of an unsized all-bit literal. -/
def fillUnsized (v : Value) (width : ℕ) : Value :=
  { payload := if v.payload ≠ 0 then genMask width else 0
    maskXz := if v.maskXz ≠ 0 then genMask width else 0
    width := width
    signed := false }

def trunc (v : Value) (width : ℕ) : Value :=
  if v.width = 0 then v.fillUnsized width
  else if v.width ≤ width then v
  else { v with
    payload := v.payload &&& genMask width
    maskXz := v.maskXz &&& genMask width
    width := width }

def expand (v : Value) (width : ℕ) (useSign : Bool) : Value :=
  if width ≤ v.width ∧ v.width ≠ 0 then v
  else if v.width = 0 then v.fillUnsized width
  else
    let high := genMask width ^^^ genMask v.width
    let extend := v.signed && useSign
    { payload := if extend && v.payload.testBit (v.width - 1)
        then v.payload ||| high else v.payload
      maskXz := if extend && v.maskXz.testBit (v.width - 1)
        then v.maskXz ||| high else v.maskXz
      width := width
      signed := useSign && v.signed }

/-- `x` in the low bits, `v` above it. A native result shifts in a native word,
which leaves the left operand alone when the right one fills the word. -/
def concat (v x : Value) : Value :=
  let width := v.width + x.width
  let shift (p : ℕ) : ℕ :=
    if 64 < width then p <<< x.width
    else if x.width ≠ 64 then (p <<< x.width) % 2 ^ 64 else p
  { payload := shift v.payload ||| x.payload
    maskXz := shift v.maskXz ||| x.maskXz
    width := width
    signed := false }

/-- Overwrites bits `beg` down to `end_`, clipped to the declared width. -/
def assign (v value : Value) (beg end_ : ℕ) : Value :=
  if beg < end_ ∨ v.width ≤ end_ then v
  else
    let beg := min beg (v.width - 1)
    let range := genMaskRange beg end_
    let keep := genMask v.width ^^^ range
    { v with
      payload := (v.payload &&& keep) ||| ((value.payload <<< end_) &&& range)
      maskXz := (v.maskXz &&& keep) ||| ((value.maskXz <<< end_) &&& range) }

def toUsize (v : Value) : Option ℕ :=
  if v.isU64 && !v.isXz then some v.payload else none

def toUsizeSaturating (v : Value) : Option ℕ :=
  if v.isXz then none else some (min v.payload (2 ^ 64 - 1))

def toU64 (v : Value) : Option ℕ := v.toUsize

/-- Some bit is a known one. -/
def hasKnownOne (v : Value) : Bool := (v.payload ^^^ (v.payload &&& v.maskXz)) ≠ 0

/-- The test of a statement condition, which looks at the low 128 bits only. -/
def isTrueCond (v : Value) : Bool :=
  let payload := v.payload % 2 ^ 128
  let mask := v.maskXz % 2 ^ 128
  (payload ^^^ (payload &&& mask)) ≠ 0

end Value

end Veryl.Analyzer
