import Veryl.Library.Patches
import Veryl.Simulator.Memory

/-!
The write log of flip-flops. During a cycle every store is recorded in one of two pools, narrow for
words of up to eight bytes and wide for up to 56 bytes; at its end the records are applied to the
flip-flop buffer, narrow ones first.
-/

namespace Veryl.Simulator

open Veryl.Library List

structure WriteLogEntry where
  offset : ℕ
  maskXz : ℕ
  widthClass : ℕ
  payload : BitVec 64
  deriving DecidableEq, Repr

instance : Inhabited WriteLogEntry := ⟨⟨0, 0, 0, 0⟩⟩

/-- How many bytes a wide record can hold. -/
def writeLogWideEntryPayloadBytes : ℕ := 56

structure WriteLogWideEntry where
  offset : ℕ
  nativeBytes : ℕ
  payload : List Byte
  length_payload : payload.length = writeLogWideEntryPayloadBytes
  deriving DecidableEq, Repr

instance : Inhabited WriteLogWideEntry :=
  ⟨⟨0, 0, replicate writeLogWideEntryPayloadBytes 0, length_replicate⟩⟩

/-- A wide record of some bytes; the rest of the payload is zero. -/
def WriteLogWideEntry.new (offset : ℕ) (payload : List Byte)
    (h : payload.length ≤ writeLogWideEntryPayloadBytes) : WriteLogWideEntry where
  offset := offset
  nativeBytes := payload.length
  payload := payload ++ replicate (writeLogWideEntryPayloadBytes - payload.length) 0
  length_payload := by
    rw [length_append, length_replicate]
    omega

/-- A value stored in 32 bits. -/
def u32 (n : ℕ) : ℕ := n % 2 ^ 32

/-- The least power of two that is not less. -/
def nextPowerOfTwo (n : ℕ) : ℕ := 2 ^ Nat.clog 2 n

/-- An allocation, how many of its entries are live and what the header says about
its size. -/
structure LogPool (α : Type) where
  owner : List α
  count : ℕ
  capacity : ℕ

namespace LogPool

variable {α : Type} [Inhabited α]

def withCapacity (cap : ℕ) : LogPool α := ⟨replicate cap default, 0, u32 cap⟩

/-- Moves the live entries to a larger allocation; it has no result where the slices
of live entries do not exist. -/
def growTo (floor : ℕ) (p : LogPool α) (minCap : ℕ) : Option (LogPool α) :=
  let newCap := max (nextPowerOfTwo minCap) floor
  if p.count ≤ newCap ∧ p.count ≤ p.owner.length then
    some ⟨p.owner.take p.count ++ replicate (newCap - p.count) default, p.count, u32 newCap⟩
  else none

/-- Makes room for some more entries. -/
def reserve (floor : ℕ) (p : LogPool α) (extra : ℕ) : Option (LogPool α) :=
  let needed := p.count + extra
  if p.capacity < needed then p.growTo floor needed else some p

/-- Appends an entry and grows a full pool. -/
def push (floor : ℕ) (p : LogPool α) (entry : α) : Option (LogPool α) :=
  (if p.capacity ≤ p.count then p.growTo floor (p.capacity + 1) else some p).map fun p =>
    ⟨p.owner.set p.count entry, u32 (p.count + 1), p.capacity⟩

/-- The slice of as many entries as the header says. -/
def entriesSlice (p : LogPool α) : List α := p.owner.take p.capacity

/-- The entries a commit takes. -/
def live (p : LogPool α) : List α := p.entriesSlice.take p.count

def reset (p : LogPool α) : LogPool α := { p with count := 0 }

end LogPool

structure WriteLogBuffer where
  narrow : LogPool WriteLogEntry
  wide : LogPool WriteLogWideEntry

namespace WriteLogBuffer

def withCapacity (narrowCap wideCap : ℕ) : WriteLogBuffer :=
  ⟨.withCapacity narrowCap, .withCapacity wideCap⟩

def narrowFloor : ℕ := 4096

def wideFloor : ℕ := 64

def reserveNarrow (b : WriteLogBuffer) (extra : ℕ) : Option WriteLogBuffer :=
  (b.narrow.reserve narrowFloor extra).map fun narrow => { b with narrow }

def reserveWide (b : WriteLogBuffer) (extra : ℕ) : Option WriteLogBuffer :=
  (b.wide.reserve wideFloor extra).map fun wide => { b with wide }

def pushNarrow (b : WriteLogBuffer) (offset : ℕ) (payload : BitVec 64) (widthClass : ℕ) :
    Option WriteLogBuffer :=
  (b.narrow.push narrowFloor ⟨offset, 0, widthClass, payload⟩).map fun narrow =>
    { b with narrow }

def pushWide (b : WriteLogBuffer) (offset : ℕ) (payload : List Byte)
    (h : payload.length ≤ writeLogWideEntryPayloadBytes) : Option WriteLogBuffer :=
  (b.wide.push wideFloor (.new offset payload h)).map fun wide => { b with wide }

/-- What compiled code and the interpreter do with a log. -/
inductive LogStep where
  | pushNarrow (offset : ℕ) (payload : BitVec 64) (widthClass : ℕ)
  | pushWide (offset : ℕ) (payload : List Byte)
      (h : payload.length ≤ writeLogWideEntryPayloadBytes)
  | reserve (narrow wide : ℕ)

def step (b : WriteLogBuffer) : LogStep → Option WriteLogBuffer
  | .pushNarrow offset payload widthClass => b.pushNarrow offset payload widthClass
  | .pushWide offset payload h => b.pushWide offset payload h
  | .reserve narrow wide => (b.reserveNarrow narrow).bind fun b => b.reserveWide wide

def run (b : WriteLogBuffer) (steps : List LogStep) : Option WriteLogBuffer := steps.foldlM step b

end WriteLogBuffer

/-- The low bytes of a payload, the lowest first. -/
def leBytes (n : ℕ) (payload : BitVec 64) : List Byte :=
  (List.range n).map fun i => BitVec.ofNat 8 (payload.toNat >>> (8 * i))

section Commit

-- whether the commit reports changes
variable (marking : Bool)

/-- The buffer and the places and lengths of the records reported so far. -/
abbrev CommitState := List Byte × List (ℕ × ℕ)

/-- One load, compare and store. -/
def storeOne (st : CommitState) (offset nb : ℕ) (word : List Byte) : CommitState :=
  (storeAt st.1 offset word,
    if marking && loadAt st.1 offset word.length ≠ word then st.2 ++ [(offset, nb)] else st.2)

/-- Two words of `w` bytes, one at either end. -/
def storePair (st : CommitState) (offset nb : ℕ) (payload : List Byte) (w : ℕ) : CommitState :=
  let tail := nb - w
  let lo := loadAt payload 0 w
  let hi := loadAt payload tail w
  (storeAt (storeAt st.1 offset lo) (offset + tail) hi,
    if marking && (loadAt st.1 offset w ≠ lo || loadAt st.1 (offset + tail) w ≠ hi) then
      st.2 ++ [(offset, nb)]
    else st.2)

def commitNarrow (st : CommitState) (entry : WriteLogEntry) : CommitState :=
  let nb := entry.widthClass
  if st.1.length < entry.offset + nb then st
  else match nb with
    | 8 | 4 | 2 | 1 => storeOne marking st entry.offset nb (leBytes nb entry.payload)
    | _ => st

def commitWide (st : CommitState) (entry : WriteLogWideEntry) : CommitState :=
  let nb := entry.nativeBytes
  if nb = 0 ∨ writeLogWideEntryPayloadBytes < nb ∨ st.1.length < entry.offset + nb then st
  else if 16 < nb then storeOne marking st entry.offset nb (loadAt entry.payload 0 nb)
  else match nb with
    | 1 | 2 | 4 | 8 => storeOne marking st entry.offset nb (loadAt entry.payload 0 nb)
    | 3 => storePair marking st entry.offset nb entry.payload 2
    | 5 | 6 | 7 => storePair marking st entry.offset nb entry.payload 4
    | _ => storePair marking st entry.offset nb entry.payload 8

/-- Applies the live records, narrow ones first, each pool in order. -/
def commitFromLogImpl (ffValues : List Byte) (buffer : WriteLogBuffer) : CommitState :=
  buffer.wide.live.foldl (commitWide marking)
    (buffer.narrow.live.foldl (commitNarrow marking) (ffValues, []))

end Commit

def ffCommitFromLog (ffValues : List Byte) (buffer : WriteLogBuffer) : List Byte :=
  (commitFromLogImpl false ffValues buffer).1

def ffCommitFromLogMarking (ffValues : List Byte) (buffer : WriteLogBuffer) : CommitState :=
  commitFromLogImpl true ffValues buffer

/-- The aligned window of one, two, four or eight bytes around some bytes of an
element of `nb` bytes. -/
def logWindowForSpan (blo bhi nb : ℕ) : Option (ℕ × ℕ) :=
  if bhi < blo ∨ nb ≤ bhi then none
  else [1, 2, 4, 8].findSome? fun w =>
    let start := blo / w * w
    if bhi < start + w ∧ start + w ≤ nb then some (start, w) else none

example : logWindowForSpan 5 6 12 = some (4, 4) := by decide

end Veryl.Simulator
