import Veryl.Library.ByteBits
import Veryl.Simulator.WriteLog

/-!
The helpers that copy a window of bits between two buffers of bytes.
-/

namespace Veryl.Simulator.WideOps

open Library WriteLogBuffer List

/-- A word of a buffer. -/
def rd (ptr : List Byte) (i : ℕ) : BitVec 64 := fromLeBytes 64 (loadAt ptr (i * 8) 8)

/-- A word of a value of `nb` bytes, which may end inside the word. -/
def selectWord (src : List Byte) (nb word : ℕ) : BitVec 64 :=
  let offset := word * 8
  if nb ≤ offset then 0 else fromLeBytes 64 (loadAt src offset (min (nb - offset) 8))

def lowMask (cnt : ℕ) : BitVec 64 := BitVec.ofNat 64 ((1 <<< cnt) - 1)

/-- The 64 bits from a place of the source on, of its first words only. -/
def sourceWord (src : List Byte) (srcWords sbit : ℕ) : BitVec 64 :=
  let sw := sbit / 64
  let sb := sbit % 64
  let sLo := if sw < srcWords then rd src sw else 0
  let sHi := if sw + 1 < srcWords then rd src (sw + 1) else 0
  if sb = 0 then sLo else (sLo >>> sb) ||| (sHi <<< (64 - sb))

/-- A word with the part of the window that lies in it. -/
def mergedWord (src : List Byte) (srcBit srcWords amount width word : ℕ) (old : BitVec 64) :
    BitVec 64 :=
  let lo := max (word * 64) amount
  let hi := min ((word + 1) * 64) (amount + width)
  let shift := lo - word * 64
  let cnt := hi - lo
  let mask := if 64 ≤ cnt then BitVec.allOnes 64 else lowMask cnt <<< shift
  let sv := sourceWord src srcWords (srcBit + lo - amount)
  (old &&& ~~~mask) ||| ((sv <<< shift) &&& mask)

/-- Stores blocks of bytes, one at each word from an offset on. -/
def storeBlocks : List (List Byte) → ℕ → List Byte → List Byte
  | [], _, dst => dst
  | b :: bs, offset, dst => storeBlocks bs (offset + 8) (storeAt dst offset b)

/-- One wide record for every payload-sized chunk. -/
def pushWideRange (offset : ℕ) (bytes : List Byte) : List LogStep :=
  if bytes = [] then []
  else
    .pushWide offset (bytes.take writeLogWideEntryPayloadBytes)
        (by rw [length_take]; exact Nat.min_le_left _ _) ::
      pushWideRange (u32 (offset + writeLogWideEntryPayloadBytes))
        (bytes.drop writeLogWideEntryPayloadBytes)
termination_by bytes.length
decreasing_by
  rename_i hne
  have hpos := length_pos_iff.2 hne
  rw [length_drop, writeLogWideEntryPayloadBytes]
  omega

/-- Runs on a log, if there is one. -/
def pushAll (logBuf : Option WriteLogBuffer) (steps : List LogStep) :
    Option (Option WriteLogBuffer) :=
  match logBuf with
  | some b => (b.run steps).map some
  | none => some none

/-- The width of the window and of the destination. -/
def unpackWidths (packedWidth : ℕ) : ℕ × ℕ := (packedWidth % 2 ^ 32, packedWidth >>> 32)

/-- The offset of the destination in the flip-flop buffer, and whether to write in
place. -/
def unpackFlags (logAndFlags : ℕ) : ℕ × Bool :=
  (logAndFlags % 2 ^ 32, decide ((logAndFlags >>> 32) % 2 = 1))

def wideWindowStore (logBuf : Option WriteLogBuffer) (dst src : List Byte)
    (amount packedWidth logAndFlags : ℕ) : Option (Option WriteLogBuffer × List Byte) :=
  let (width, dstWidth) := unpackWidths packedWidth
  let (logOffset, inPlace) := unpackFlags logAndFlags
  if width = 0 ∨ dstWidth ≤ amount then some (logBuf, dst)
  else
    let width := min width (dstWidth - amount)
    let srcWords := (width + 63) / 64
    let w0 := amount / 64
    let w1 := (amount + width - 1) / 64
    let n := w1 - w0 + 1
    let merged := (List.range n).map fun k =>
      mergedWord src 0 srcWords amount width (w0 + k) (rd dst (w0 + k))
    let steps := pushWideRange (u32 (logOffset + w0 * 8)) (merged.flatMap (leBytes 8))
    (pushAll logBuf steps).map fun log =>
      (log, if inPlace then storeBlocks (merged.map (leBytes 8)) (w0 * 8) dst else dst)

def wideWindowStoreFrom (logBuf : Option WriteLogBuffer) (dst src : List Byte)
    (amount packedWidth logAndFlags srcBit : ℕ) : Option (Option WriteLogBuffer × List Byte) :=
  let (width, dstWidth) := unpackWidths packedWidth
  let (logOffset, inPlace) := unpackFlags logAndFlags
  if width = 0 ∨ dstWidth ≤ amount then some (logBuf, dst)
  else
    let width := min width (dstWidth - amount)
    let srcWords := (srcBit + width + 63) / 64
    let dstNb := nativeBytes dstWidth
    let w0 := amount / 64
    let w1 := (amount + width - 1) / 64
    let n := w1 - w0 + 1
    let merged := (List.range n).map fun k =>
      mergedWord src srcBit srcWords amount width (w0 + k) (selectWord dst dstNb (w0 + k))
    -- records of whole elements keep the order of the statements at the commit
    let steps :=
      if dstNb ≤ 16 then
        merged.mapIdx fun k value =>
          .pushNarrow (u32 (logOffset + (w0 + k) * 8)) value (min dstNb 8)
      else
        pushWideRange (u32 (logOffset + w0 * 8))
          ((merged.flatMap (leBytes 8)).take (min (dstNb - w0 * 8) (n * 8)))
    (pushAll logBuf steps).map fun log =>
      (log,
        if inPlace then
          storeBlocks (merged.mapIdx fun k v => (leBytes 8 v).take (min (dstNb - (w0 + k) * 8) 8))
            (w0 * 8) dst
        else dst)

/-- A word of the result of a read. -/
def readWord (src : List Byte) (srcNb window start skip count : ℕ) (fill : BitVec 64) (word : ℕ) :
    BitVec 64 :=
  let mask (bits : ℕ) : BitVec 64 := if 64 ≤ bits then BitVec.allOnes 64 else lowMask bits
  let out := word * 64
  let lo := max out skip
  let hi := min (min (out + 64) (skip + count)) window
  let value := fill &&& mask (min (window - out) 64)
  if lo < hi then
    let bit := start + lo - skip
    let shift := bit % 64
    let low := selectWord src srcNb (bit / 64)
    let selected :=
      if shift = 0 then low
      else (low >>> shift) ||| (selectWord src srcNb (bit / 64 + 1) <<< (64 - shift))
    let valid := mask (hi - lo) <<< (lo - out)
    (value &&& ~~~valid) ||| ((selected <<< (lo - out)) &&& valid)
  else value

/-- Reads a window of the source to a place of the result; the other bits of the
result are filled. -/
def wideWindowRead (dst src : List Byte) (sourceWidth window start skip count : ℕ)
    (fill : BitVec 64) : List Byte :=
  let nb := nativeBytes window
  let srcNb := nativeBytes sourceWidth
  storeBlocks ((List.range ((window + 63) / 64)).map fun word =>
    (leBytes 8 (readWord src srcNb window start skip count fill word)).take (min (nb - word * 8) 8)) 0 dst

end Veryl.Simulator.WideOps
