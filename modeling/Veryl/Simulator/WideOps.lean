import Veryl.Analyzer.Operators.ValueU64
import Veryl.Library.Limbs

/-!
The helpers on values of more than 128 bits that compiled code calls.
-/

namespace Veryl.Simulator.WideOps

open Analyzer (countOnes ValueU64.not)

/-- The words of a buffer. -/
abbrev Buffer := ℕ → ℕ

def packNbWidth (nb width : ℕ) : ℕ := (nb % 2 ^ 32) ||| ((width % 2 ^ 32) <<< 16) % 2 ^ 32

def unpackNbWidth (packed : ℕ) : ℕ × ℕ := (packed % 2 ^ 16, packed >>> 16)

/-- Number of words. -/
def nw (nb : ℕ) : ℕ := nb / 8

def overflowingAdd (x y : ℕ) : ℕ × Bool := ((x + y) % 2 ^ 64, decide (2 ^ 64 ≤ x + y))

def overflowingSub (x y : ℕ) : ℕ × Bool := ((x + 2 ^ 64 - y) % 2 ^ 64, decide (x < y))

/-- Writes the words of a list of places. -/
def fill (dst : Buffer) (is : List ℕ) (f : ℕ → ℕ) : Buffer :=
  is.foldl (fun d i => Function.update d i (f i)) dst

/-- The bit at the end of the width. -/
def signBit (a : Buffer) (width : ℕ) : ℕ := (a ((width - 1) / 64) >>> ((width - 1) % 64)) % 2

/-- A word of a value with its sign continued above the width. -/
def sextWord (a : Buffer) (i width sign : ℕ) : ℕ :=
  let bitsBelow := i * 64
  if width ≤ bitsBelow then if sign = 1 then 2 ^ 64 - 1 else 0
  else
    let top := width - bitsBelow
    if 64 ≤ top then a i
    else
      let mask : ℕ := 2 ^ top - 1
      (a i &&& mask) ||| (if sign = 1 then ValueU64.not mask else 0)

/-- The width of the source and, in bit 32, whether its sign is continued. -/
def wideResize (dst src : Buffer) (srcInfo dstNb : ℕ) : Buffer :=
  let srcW := (unpackNbWidth (srcInfo % 2 ^ 32)).2
  let signed := decide ((srcInfo >>> 32) % 2 = 1)
  if srcW = 0 then fill dst (List.range (nw dstNb)) fun _ => 0
  else
    let sign := if signed then signBit src srcW else 0
    fill dst (List.range (nw dstNb)) fun i => sextWord src i srcW sign

def addStep (a b : Buffer) (st : Buffer × ℕ) (i : ℕ) : Buffer × ℕ :=
  let (sum1, c1) := overflowingAdd (a i) (b i)
  let (sum2, c2) := overflowingAdd sum1 st.2
  (Function.update st.1 i sum2, c1.toNat + c2.toNat)

def wideAdd (dst a b : Buffer) (nb : ℕ) : Buffer :=
  ((List.range (nw nb)).foldl (addStep a b) (dst, 0)).1

def subStep (a b : Buffer) (st : Buffer × ℕ) (i : ℕ) : Buffer × ℕ :=
  let (diff1, b1) := overflowingSub (a i) (b i)
  let (diff2, b2) := overflowingSub diff1 st.2
  (Function.update st.1 i diff2, b1.toNat + b2.toNat)

def wideSub (dst a b : Buffer) (nb : ℕ) : Buffer :=
  ((List.range (nw nb)).foldl (subStep a b) (dst, 0)).1

/-- The product is computed in 128 bits. -/
def mulStep (ai : ℕ) (b : Buffer) (i : ℕ) (st : Buffer × ℕ) (j : ℕ) : Buffer × ℕ :=
  let prod := (ai * b j + st.1 (i + j) + st.2) % 2 ^ 128
  (Function.update st.1 (i + j) (prod % 2 ^ 64), prod >>> 64)

/-- One word of the left operand; the loop stops at the end of the buffer. -/
def mulRow (a b : Buffer) (n : ℕ) (dst : Buffer) (i : ℕ) : Buffer :=
  if a i = 0 then dst
  else (((List.range n).takeWhile fun j => i + j < n).foldl (mulStep (a i) b i) (dst, 0)).1

def wideMul (dst a b : Buffer) (nb : ℕ) : Buffer :=
  (List.range (nw nb)).foldl (mulRow a b (nw nb)) (fill dst (List.range (nw nb)) fun _ => 0)

def negateStep (a : Buffer) (st : Buffer × ℕ) (i : ℕ) : Buffer × ℕ :=
  let (sum, c) := overflowingAdd (ValueU64.not (a i)) st.2
  (Function.update st.1 i sum, c.toNat)

def wideNegate (dst a : Buffer) (nb : ℕ) : Buffer :=
  ((List.range (nw nb)).foldl (negateStep a) (dst, 1)).1

def wideEq (a b : Buffer) (nb : ℕ) : ℤ :=
  if (List.range (nw nb)).any fun i => a i ≠ b i then 0 else 1

def wideNe (a b : Buffer) (nb : ℕ) : ℤ :=
  if (List.range (nw nb)).any fun i => a i ≠ b i then 1 else 0

/-- Compares the words from the last one down. -/
def cmpWords (a b : Buffer) : ℕ → ℤ
  | 0 => 0
  | i + 1 => if a i < b i then -1 else if b i < a i then 1 else cmpWords a b i

def wideUcmp (a b : Buffer) (nb : ℕ) : ℤ := cmpWords a b (nw nb)

def wideScmp (a b : Buffer) (packedNbWidth : ℕ) : ℤ :=
  let (nb, width) := unpackNbWidth packedNbWidth
  if width = 0 ∨ nb = 0 then 0
  else
    let aSign := signBit a width
    let bSign := signBit b width
    if aSign ≠ bSign then if aSign = 1 then -1 else 1
    else wideUcmp a b nb

def wideScmpAsym (a b : Buffer) (aPacked bPacked : ℕ) : ℤ :=
  let (aNb, aW) := unpackNbWidth aPacked
  let (bNb, bW) := unpackNbWidth bPacked
  if aW = 0 ∨ bW = 0 ∨ aNb = 0 ∨ bNb = 0 then 0
  else
    let aSign := signBit a aW
    let bSign := signBit b bW
    if aSign ≠ bSign then if aSign = 1 then -1 else 1
    else cmpWords (fun i => sextWord a i aW aSign) (fun i => sextWord b i bW bSign)
      (max (nw aNb) (nw bNb))

/-- The low and the next word of a window, put together. -/
def shlWord (lo hi bitShift : ℕ) : ℕ :=
  if bitShift = 0 then lo else (lo <<< bitShift) % 2 ^ 64 ||| (hi >>> (64 - bitShift))

def shrWord (lo hi bitShift : ℕ) : ℕ :=
  if bitShift = 0 then lo else (lo >>> bitShift) ||| (hi <<< (64 - bitShift)) % 2 ^ 64

def wideShl (dst a : Buffer) (amount nb : ℕ) : Buffer :=
  let n := nw nb
  let wordShift := amount / 64
  if n ≤ wordShift then fill dst (List.range n) fun _ => 0
  else
    fill dst (List.range n).reverse fun i =>
      shlWord (if wordShift ≤ i then a (i - wordShift) else 0)
        (if wordShift < i then a (i - wordShift - 1) else 0) (amount % 64)

def wideLshr (dst a : Buffer) (amount nb : ℕ) : Buffer :=
  let n := nw nb
  let wordShift := amount / 64
  if n ≤ wordShift then fill dst (List.range n) fun _ => 0
  else
    fill dst (List.range n) fun i =>
      shrWord (if i + wordShift < n then a (i + wordShift) else 0)
        (if i + wordShift + 1 < n then a (i + wordShift + 1) else 0) (amount % 64)

/-- Sets one bit. -/
def setBit (n : ℕ) (dst : Buffer) (bitPos : ℕ) : Buffer :=
  if bitPos / 64 < n then
    Function.update dst (bitPos / 64) (dst (bitPos / 64) ||| (1 <<< (bitPos % 64)))
  else dst

def wideAshr (dst a : Buffer) (amount packedNbWidth : ℕ) : Buffer :=
  let (nb, width) := unpackNbWidth packedNbWidth
  if nb = 0 ∨ width = 0 then dst
  else
    let sign := signBit a width
    let dst := wideLshr dst a amount nb
    if sign = 1 ∧ 0 < amount then
      let fillStart := if width ≤ amount then 0 else width - amount
      (List.range' fillStart (width - fillStart)).foldl (setBit (nw nb)) dst
    else dst

def wideIsNonzero (a : Buffer) (nb : ℕ) : ℤ :=
  if (List.range (nw nb)).any fun i => a i ≠ 0 then 1 else 0

def widePopcntParity (a : Buffer) (nb : ℕ) : ℕ :=
  (List.range (nw nb)).foldl (fun total i => total ^^^ countOnes (a i)) 0 % 2

def wideApplyMask (dst : Buffer) (packedNbWidth : ℕ) : Buffer :=
  let (nb, width) := unpackNbWidth packedNbWidth
  if width = 0 ∨ nb = 0 then dst
  else
    let n := nw nb
    let fullWords := width / 64
    let remaining := width % 64
    let dst :=
      if 0 < remaining ∧ fullWords < n then
        Function.update dst fullWords (dst fullWords &&& (2 ^ remaining - 1))
      else dst
    let first := fullWords + if 0 < remaining then 1 else 0
    fill dst (List.range' first (n - first)) fun _ => 0

def wideFillOnes (dst : Buffer) (packedNbWidth : ℕ) : Buffer :=
  let (nb, width) := unpackNbWidth packedNbWidth
  if nb = 0 then dst
  else
    let n := nw nb
    let fullWords := width / 64
    let remaining := width % 64
    let dst := fill dst (List.range (min fullWords n)) fun _ => 2 ^ 64 - 1
    let dst :=
      if 0 < remaining ∧ fullWords < n then Function.update dst fullWords (2 ^ remaining - 1)
      else dst
    let first := fullWords + if 0 < remaining then 1 else 0
    fill dst (List.range' first (n - first)) fun _ => 0

end Veryl.Simulator.WideOps
