import Veryl.Analyzer.Operators.Independence

/-!
Values with their storage. A value is kept in native words or in big integers, and each storage has
its own selection and its own assignment; a concatenation chooses the storage of its result by the
width.
-/

namespace Veryl.Analyzer

open Nat

namespace ValueU64

/-- Bits `beg` down to `end_` of a native word set. -/
def genMaskRange (beg end_ : ℕ) : ℕ := genMask (beg + 1) &&& not (genMask end_)

/-- Bits `beg` down to `end_`; a position past the declared width reads `x`. -/
def select (x : Value) (beg end_ : ℕ) : Value :=
  if beg < end_ then ⟨0, 0, 0, false⟩
  else
    let width := beg - end_ + 1
    let mask := genMask width
    if x.width ≤ end_ then ⟨0, mask, width % 2 ^ 32, false⟩
    else
      let validMask := genMask (min (x.width - end_) width)
      { payload := (x.payload >>> end_) &&& validMask
        maskXz := ((x.maskXz >>> end_) &&& validMask) ||| (mask ^^^ validMask)
        width := width % 2 ^ 32
        signed := false }

/-- Overwrites bits `beg` down to `end_`, clipped to the declared width. -/
def assign (x value : Value) (beg end_ : ℕ) : Value :=
  if beg < end_ ∨ x.width ≤ end_ ∨ 64 ≤ end_ then x
  else
    let beg := min beg (x.width - 1)
    let range := genMaskRange beg end_
    let keep := genMask x.width ^^^ range
    { x with
      payload := (x.payload &&& keep) ||| ((value.payload <<< end_) % 2 ^ 64 &&& range)
      maskXz := (x.maskXz &&& keep) ||| ((value.maskXz <<< end_) % 2 ^ 64 &&& range) }

end ValueU64

namespace ValueBigUint

def genMaskRange (beg end_ : ℕ) : ℕ :=
  genMask (beg + 1) &&& (genMask end_ ^^^ genMask (beg + 1))

def select (x : Value) (beg end_ : ℕ) : Value :=
  if beg < end_ then ⟨0, 0, 0, false⟩
  else
    let width := beg - end_ + 1
    let mask := genMask width
    if x.width ≤ end_ then ⟨0, mask, width % 2 ^ 32, false⟩
    else
      let validMask := genMask (min (x.width - end_) width)
      { payload := (x.payload >>> end_) &&& validMask
        maskXz := ((x.maskXz >>> end_) &&& validMask) ||| (mask ^^^ validMask)
        width := width % 2 ^ 32
        signed := false }

def assign (x value : Value) (beg end_ : ℕ) : Value :=
  if beg < end_ ∨ x.width ≤ end_ then x
  else
    let beg := min beg (x.width - 1)
    let range := genMaskRange beg end_
    let keep := genMask x.width ^^^ range
    { x with
      payload := (x.payload &&& keep) ||| ((value.payload <<< end_) &&& range)
      maskXz := (x.maskXz &&& keep) ||| ((value.maskXz <<< end_) &&& range) }

end ValueBigUint

/-- The numbers of a value and where they are stored. -/
inductive StoredValue where
  | u64 (x : Value)
  | bigUint (x : Value)
  deriving DecidableEq, Repr

namespace StoredValue

def value : StoredValue → Value
  | u64 x => x
  | bigUint x => x

def width (v : StoredValue) : ℕ := v.value.width

def signed (v : StoredValue) : Bool := v.value.signed

def isU64 : StoredValue → Bool
  | u64 _ => true
  | bigUint _ => false

/-- The payload and the mask at a position. -/
def bit (v : StoredValue) (i : ℕ) : Bool × Bool :=
  (v.value.payload.testBit i, v.value.maskXz.testBit i)

/-- A payload wider than a word stays a big integer. -/
def toValueU64 (x : Value) : Option Value :=
  if x.width ≤ 64 ∧ x.payload < 2 ^ 64 ∧ x.maskXz < 2 ^ 64 then some x else none

def new (payload width : ℕ) (signed : Bool) : StoredValue :=
  if width ≤ 64 then u64 ⟨payload, 0, width, signed⟩ else bigUint ⟨payload, 0, width, signed⟩

def select : StoredValue → ℕ → ℕ → StoredValue
  | u64 x, beg, end_ => u64 (ValueU64.select x beg end_)
  | bigUint x, beg, end_ =>
    let ret := ValueBigUint.select x beg end_
    match toValueU64 ret with
    | some y => u64 y
    | none => bigUint ret

/-- A replacement in the other storage is converted; a native target takes its low words. -/
def assign : StoredValue → StoredValue → ℕ → ℕ → StoredValue
  | u64 x, u64 v, beg, end_ => u64 (ValueU64.assign x v beg end_)
  | u64 x, bigUint v, beg, end_ =>
    u64 (ValueU64.assign x
      { v with payload := v.payload % 2 ^ 64, maskXz := v.maskXz % 2 ^ 64 } beg end_)
  | bigUint x, v, beg, end_ => bigUint (ValueBigUint.assign x v.value beg end_)

/-- `x` in the low bits, `v` above it. A result of at most 64 bits takes native operands only. -/
def concat (v x : StoredValue) : Option StoredValue :=
  let width := v.width + x.width
  if 64 < width then
    some (bigUint
      { payload := (v.value.payload <<< x.width) ||| x.value.payload
        maskXz := (v.value.maskXz <<< x.width) ||| x.value.maskXz
        width := width % 2 ^ 32
        signed := false })
  else
    match v, x with
    | u64 a, u64 b =>
      let shift (p : ℕ) : ℕ := if b.width ≠ 64 then (p <<< b.width) % 2 ^ 64 else p
      some (u64
        { payload := shift a.payload ||| b.payload
          maskXz := shift a.maskXz ||| b.maskXz
          width := width % 2 ^ 32
          signed := false })
    | _, _ => none

/-- The loop of `repeat`: the block doubles while the count is halved. -/
def repeatLoop (result block : StoredValue) (count : ℕ) : Option StoredValue :=
  if count = 0 then some result
  else
    (if count % 2 = 1 then result.concat block else some result).bind fun result =>
      (if count / 2 ≠ 0 then block.concat block else some block).bind fun block =>
        repeatLoop result block (count / 2)
termination_by count
decreasing_by omega

def «repeat» (v : StoredValue) (count : ℕ) : Option StoredValue :=
  repeatLoop (new 0 0 false) v count

/-- The concatenation of `count` copies, one after the other. -/
def concatTimes (v : StoredValue) : ℕ → Option StoredValue
  | 0 => some (new 0 0 false)
  | count + 1 => (concatTimes v count).bind fun result => result.concat v

/-- What a native word can hold. -/
def FitsU64 (x : Value) : Prop := x.width ≤ 64 ∧ x.payload < 2 ^ 64 ∧ x.maskXz < 2 ^ 64

instance (x : Value) : Decidable (FitsU64 x) := by unfold FitsU64; infer_instance

/-- A native value fits its words. -/
def WellFormed (v : StoredValue) : Prop := v.isU64 → FitsU64 v.value

/-- A value with bits of its own, stored by its width, with nothing above it. -/
structure Sized (v : StoredValue) : Prop where
  storage : v.isU64 = decide (v.width ≤ 64)
  payload_lt : v.value.payload < 2 ^ v.width
  maskXz_lt : v.value.maskXz < 2 ^ v.width

end StoredValue

theorem ValueU64.testBit_genMask (width i : ℕ) :
    (ValueU64.genMask width).testBit i = decide (i < width ∧ i < 64) := by
  unfold ValueU64.genMask
  split
  · rw [testBit_two_pow_sub_one]
    congr 1
    apply propext
    omega
  · rw [testBit_two_pow_sub_one]
    congr 1
    apply propext
    omega

theorem ValueU64.testBit_genMaskRange {beg : ℕ} (end_ : ℕ) (hbeg : beg < 64) (i : ℕ) :
    (ValueU64.genMaskRange beg end_).testBit i = decide (end_ ≤ i ∧ i ≤ beg) := by
  rw [ValueU64.genMaskRange, ValueU64.not, testBit_and, testBit_xor,
    testBit_two_pow_sub_one, ValueU64.testBit_genMask, ValueU64.testBit_genMask]
  by_cases h : end_ ≤ i ∧ i ≤ beg
  · have h1 : i < beg + 1 ∧ i < 64 := by omega
    have h2 : ¬ (i < end_ ∧ i < 64) := by omega
    rw [decide_eq_true h1, decide_eq_false h2, decide_eq_true h1.2, decide_eq_true h]
    rfl
  · by_cases h1 : i < beg + 1
    · have h2 : i < end_ ∧ i < 64 := by omega
      simp [h, h2]
    · simp [h, h1]

theorem ValueBigUint.testBit_genMaskRange (beg end_ i : ℕ) :
    (ValueBigUint.genMaskRange beg end_).testBit i = decide (end_ ≤ i ∧ i ≤ beg) := by
  rw [ValueBigUint.genMaskRange, testBit_and, testBit_xor, testBit_genMask, testBit_genMask]
  by_cases hi : end_ ≤ i ∧ i ≤ beg
  · have h1 : i < beg + 1 := by omega
    have h2 : ¬ i < end_ := by omega
    simp [hi, h1, h2]
  · by_cases h1 : i < beg + 1
    · have h2 : i < end_ := by omega
      simp [hi, h1, h2]
    · simp [hi, h1]

end Veryl.Analyzer
