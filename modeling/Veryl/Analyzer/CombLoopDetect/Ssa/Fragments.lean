import Veryl.Analyzer.CombLoopDetect.DagFlow

/-!
Rectangles of positions and sets of disjoint ones. A set is kept in the order of array and packed
starts, so that a query visits only the rectangles whose starts lie close enough.
-/

namespace Veryl.Analyzer.CombLoopDetect

open Veryl.Library

/-- A bit of a rectangle. -/
def PositionDomain.HasBit (d : PositionDomain) (p : BitPosition) : Prop :=
  (d.arrayStart ≤ p.1 ∧ p.1 < d.arrayStart + d.arrayLength) ∧
    d.packedStart ≤ p.2 ∧ p.2 < d.packedStart + d.packedLength

instance (d : PositionDomain) (p : BitPosition) : Decidable (d.HasBit p) := by
  unfold PositionDomain.HasBit
  infer_instance

/-- The smallest rectangle containing both. -/
def PositionDomain.hull (a b : PositionDomain) : PositionDomain :=
  let arrayStart := min a.arrayStart b.arrayStart
  let arrayEnd := max (a.arrayStart + a.arrayLength) (b.arrayStart + b.arrayLength)
  let packedStart := min a.packedStart b.packedStart
  let packedEnd := max (a.packedStart + a.packedLength) (b.packedStart + b.packedLength)
  ⟨arrayStart, arrayEnd - arrayStart, packedStart, packedEnd - packedStart⟩

def hull : Option PositionDomain → Option PositionDomain → Option PositionDomain
  | some a, some b => some (a.hull b)
  | a, none => a
  | none, b => b

/-- A rectangle from its ends, unless it is empty. -/
def rectangle (arrayStart arrayEnd packedStart packedEnd : ℕ) : Option PositionDomain :=
  if arrayStart < arrayEnd ∧ packedStart < packedEnd then
    some ⟨arrayStart, arrayEnd - arrayStart, packedStart, packedEnd - packedStart⟩
  else none

def intersection (a b : PositionDomain) : Option PositionDomain :=
  rectangle (max a.arrayStart b.arrayStart)
    (min (a.arrayStart + a.arrayLength) (b.arrayStart + b.arrayLength))
    (max a.packedStart b.packedStart)
    (min (a.packedStart + a.packedLength) (b.packedStart + b.packedLength))

/-- The rest of an extent. -/
def complement (extent region : PositionDomain) : List PositionDomain :=
  let arrayEnd := extent.arrayStart + extent.arrayLength
  let packedEnd := extent.packedStart + extent.packedLength
  let start := max region.arrayStart extent.arrayStart
  let stop := min (region.arrayStart + region.arrayLength) arrayEnd
  let low := max region.packedStart extent.packedStart
  let high := min (region.packedStart + region.packedLength) packedEnd
  if stop ≤ start ∨ high ≤ low then [extent]
  else [rectangle extent.arrayStart start extent.packedStart packedEnd,
    rectangle stop arrayEnd extent.packedStart packedEnd,
    rectangle start stop extent.packedStart low,
    rectangle start stop high packedEnd].filterMap id

/-- The parts of some rectangles outside of some regions. -/
def complementAll (parts regions : List PositionDomain) : List PositionDomain :=
  regions.foldl (fun parts region => parts.flatMap fun part => complement part region) parts

/-- The order of fragments. -/
def PositionDomain.startKey (d : PositionDomain) : ℕ ×ₗ ℕ ×ₗ ℕ ×ₗ ℕ :=
  toLex (d.arrayStart, toLex (d.packedStart, toLex (d.arrayLength, d.packedLength)))

/-- Disjoint rectangles in order, and their array lengths with multiplicities. -/
structure Fragments where
  boxes : List PositionDomain
  lengths : List ℕ
  deriving DecidableEq

namespace Fragments

def empty : Fragments := ⟨[], []⟩

def isEmpty (f : Fragments) : Bool := f.boxes.isEmpty

def insert (f : Fragments) (domain : PositionDomain) : Fragments :=
  if domain ∈ f.boxes then f
  else ⟨f.boxes.orderedInsert (fun a b => a.startKey ≤ b.startKey) domain,
    domain.arrayLength :: f.lengths⟩

def remove (f : Fragments) (domain : PositionDomain) : Fragments :=
  if domain ∈ f.boxes then ⟨f.boxes.erase domain, f.lengths.erase domain.arrayLength⟩ else f

def longest (f : Fragments) : ℕ := f.lengths.foldr max 0

/-- The boxes of one array start whose packed starts lie close enough: of those
below the query the last. -/
def candidatesAt (f : Fragments) (region : PositionDomain) (start : ℕ) : List PositionDomain :=
  ((f.boxes.filter fun b => b.arrayStart = start ∧ b.packedStart < region.packedStart).getLast?).toList ++
    f.boxes.filter fun b => b.arrayStart = start ∧ region.packedStart ≤ b.packedStart ∧
      b.packedStart < region.packedStart + region.packedLength

section Visit

variable {σ : Type} (visit : σ → PositionDomain → σ × Bool)

/-- Visits some boxes until a visit returns true. -/
def visitBoxes : List PositionDomain → σ → Metered ℕ (σ × Bool)
  | [], s => pure (s, false)
  | b :: boxes, s => do
    pay 1
    let (s, hit) := visit s b
    if hit then pure (s, true) else visitBoxes boxes s

/-- Passes the array starts from `array` on; as many turns as there are starts are
enough. -/
def visitStarts (f : Fragments) (region : PositionDomain) : ℕ → ℕ → σ → Metered ℕ (σ × Bool)
  | 0, _, s => pure (s, false)
  | turns + 1, array, s =>
    if array < region.arrayStart + region.arrayLength then do
      pay 1
      match (f.boxes.filter fun b => array ≤ b.arrayStart).head? with
      | none => pure (s, false)
      | some next =>
        if region.arrayStart + region.arrayLength ≤ next.arrayStart then pure (s, false)
        else do
          let (s, hit) ← visitBoxes visit (f.candidatesAt region next.arrayStart) s
          if hit then pure (s, true) else visitStarts f region turns (next.arrayStart + 1) s
    else pure (s, false)

/-- Visits the boxes whose starts lie close enough to meet a region. -/
def visitCandidates (f : Fragments) (region : PositionDomain) (s : σ) : Metered ℕ (σ × Bool) :=
  let array := region.arrayStart - (f.longest - 1)
  visitStarts visit f region (region.arrayStart + region.arrayLength - array) array s

end Visit

/-- The boxes that overlap a region. -/
def overlapping (f : Fragments) (region : PositionDomain) : Metered ℕ (List PositionDomain) := do
  let (found, _) ← f.visitCandidates (fun found fragment =>
    (if (intersection fragment region).isSome then found ++ [fragment] else found, false)) region []
  pure found

/-- Whether a box overlaps a region; stops at the first one. -/
def overlaps (f : Fragments) : Option PositionDomain → Metered ℕ Bool
  | none => pure false
  | some region => do
    let (_, hit) ← f.visitCandidates (fun (_ : Unit) fragment =>
      ((), (intersection fragment region).isSome)) region ()
    pure hit

/-- Adds boxes one after another. -/
def insertAll (f : Fragments) (parts : List PositionDomain) : Metered ℕ Fragments :=
  parts.foldlM (fun f part => do
    pay 1
    pure (f.insert part)) f

/-- Removes the positions of a region. -/
def subtract (f : Fragments) (region : PositionDomain) : Metered ℕ Fragments := do
  let found ← f.overlapping region
  found.foldlM (fun f fragment => (f.remove fragment).insertAll (complement fragment region)) f

/-- Adds the positions of a domain that are not present yet. -/
def add (f : Fragments) (domain : PositionDomain) : Metered ℕ Fragments := do
  let existing ← f.overlapping domain
  f.insertAll (complementAll [domain] existing)

/-- Moves the boxes that overlap a region into a set of their own. -/
def splitOff (f : Fragments) : Option PositionDomain → Metered ℕ (Fragments × Fragments)
  | none => pure (empty, f)
  | some region => do
    let found ← f.overlapping region
    pure (found.foldl insert empty, found.foldl remove f)

end Fragments
end Veryl.Analyzer.CombLoopDetect
