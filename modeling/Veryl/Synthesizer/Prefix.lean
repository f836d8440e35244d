import Veryl.Synthesizer.Growth

/-!
Linear scan chains rebuilt as prefix networks, after complements are absorbed.
-/

namespace Veryl.Synthesizer

open List

/-- Shorter chains stay linear. -/
def minChainCells : ℕ := 8

def isAssoc : CellKind → Bool
  | .and2 | .or2 | .xor2 => true
  | _ => false

section Absorb

variable (m : GateModule)

def notDrives (n target : NetId) : Bool :=
  match m.driverCell n with
  | some (_, c) => c.kind = .not && netAt c.inputs 0 = target
  | none => false

def complementary (p a : NetId) : Bool := notDrives m p a || notDrives m a p

/-- Both orders of two inputs. -/
def orders (inputs : List NetId) : List (NetId × NetId) :=
  [(netAt inputs 0, netAt inputs 1), (netAt inputs 1, netAt inputs 0)]

def dualKind : CellKind → Option CellKind
  | .or2 => some .and2
  | .and2 => some .or2
  | _ => none

/-- The new kind and inputs of a gate, with one input driven by a gate of the
dual kind. -/
def absorbInner (kind innerKind : CellKind) (x a : NetId) : Option (CellKind × List NetId) :=
  match m.driverCell x with
  | some (_, inner) =>
    if inner.kind ≠ innerKind then none
    else
      (orders inner.inputs).findSome? fun pq =>
        if pq.1 = a then some (.buf, [a])
        else if complementary m pq.1 a then some (kind, [pq.2, a])
        else none
  | none => none

def absorbCell (ci : ℕ) : Option (CellKind × List NetId) :=
  match m.cells[ci]? with
  | some cell =>
    match dualKind cell.kind with
    | some innerKind =>
      (orders cell.inputs).findSome? fun xa => absorbInner m cell.kind innerKind xa.1 xa.2
    | none => none
  | none => none

end Absorb

def absorbVisit (st : GateModule × Bool) (ci : ℕ) : GateModule × Bool :=
  match absorbCell st.1 ci with
  | some (kind, inputs) => (st.1.setCell ci kind inputs, true)
  | none => st

def absorbPass (m : GateModule) : GateModule × Bool :=
  (List.range m.cells.length).foldl absorbVisit (m, false)

/-- Passes until one changes nothing; none if that takes more than the turns. -/
def absorbComplement : ℕ → GateModule → Option (GateModule × Bool)
  | 0, _ => none
  | turns + 1, m =>
    if (absorbPass m).2 then
      (absorbComplement turns (absorbPass m).1).map fun out => (out.1, true)
    else some (absorbPass m)

section Chains

variable (m : GateModule)

/-- The cell of a kind that drives a net. -/
def sameKindDriver (kind : CellKind) (n : NetId) : Option ℕ :=
  match m.driverCell n with
  | some (di, d) => if d.kind = kind then some di else none
  | none => none

/-- The cells that read a net of their own kind, once for every read, of which the source
can count fewer than 2 ^ 32. -/
def sameKindReaders (n : NetId) : List ℕ :=
  (List.range m.cells.length).flatMap fun i =>
    match m.cells[i]? with
    | some c =>
      if isAssoc c.kind ∧ (sameKindDriver m c.kind n).isSome then
        replicate (c.inputs.count n) i
      else []
    | none => []

def sameKindConsumers (n : NetId) : ℕ := (sameKindReaders m n).length

/-- Two links make a tree join, and a second reader forks the scan. -/
def linkOf (kind : CellKind) : List NetId → Option ℕ → Option ℕ
  | [], link => link
  | n :: rest, link =>
    match sameKindDriver m kind n with
    | some di =>
      if link.isSome then none
      else if sameKindConsumers m n ≠ 1 then none
      else linkOf kind rest (some di)
    | none => linkOf kind rest link

/-- The unforked cell of the same kind that feeds a cell. -/
def pred (ci : ℕ) : Option ℕ :=
  match m.cells[ci]? with
  | some cell => if isAssoc cell.kind then linkOf m cell.kind cell.inputs none else none
  | none => none

def isLinked (ci : ℕ) : Bool := (List.range m.cells.length).any fun i => pred m i = some ci

/-- The chain that ends at a cell, its head first; none if the walk takes more
than the turns. -/
def chainTo : ℕ → ℕ → Option (List ℕ)
  | 0, _ => none
  | turns + 1, cur =>
    match pred m cur with
    | some p => (chainTo turns p).map (· ++ [cur])
    | none => some [cur]

end Chains

def combine (kind : CellKind) (carry : NetId) (st : GateModule × List NetId) (r : NetId) :
    GateModule × List NetId :=
  ((st.1.mkCell kind [carry, r]).1, st.2 ++ [(st.1.mkCell kind [carry, r]).2])

/-- One net for every prefix of the leaves. -/
def sklansky (m : GateModule) (kind : CellKind) (leaves : List NetId) : GateModule × List NetId :=
  if leaves.length < 2 then (m, leaves)
  else
    let half := leaves.length / 2
    let left := sklansky m kind (leaves.take half)
    let right := sklansky left.1 kind (leaves.drop half)
    right.2.foldl (combine kind (left.2.getLastD netConst0)) (right.1, left.2)
termination_by leaves.length
decreasing_by
  · rw [length_take]
    omega
  · rw [length_drop]
    omega

/-- The input of a cell that does not come from its predecessor. -/
def leafOf (m : GateModule) (p c : ℕ) : NetId :=
  match m.cells[p]?, m.cells[c]? with
  | some p, some c => if netAt c.inputs 0 = p.output then netAt c.inputs 1 else netAt c.inputs 0
  | _, _ => netConst0

/-- The head contributes both inputs. -/
def chainLeaves (m : GateModule) (head : Cell) (chain : List ℕ) : List NetId :=
  head.inputs ++ List.zipWith (leafOf m) chain chain.tail

/-- Every cell of the chain becomes a buffer of its prefix. -/
def rebuildChain (m : GateModule) (chain : List ℕ) : GateModule :=
  match chain.head?.bind fun c => m.cells[c]? with
  | some head =>
    let network := sklansky m head.kind (chainLeaves m head chain)
    (chain.zip network.2.tail).foldl (fun m cq => m.setCell cq.1 .buf [cq.2]) network.1
  | none => m

def prefixVisit (m : GateModule) (turns : ℕ) (st : GateModule × Bool) (tail : ℕ) :
    Option (GateModule × Bool) :=
  if isLinked m tail ∨ pred m tail = none then some st
  else
    (chainTo m turns tail).map fun chain =>
      if chain.length < minChainCells then st else (rebuildChain st.1 chain, true)

/-- Rebuilds the chain of every tail; none if a walk takes more than the turns. -/
def prefixParallelize (turns : ℕ) (m : GateModule) : Option (GateModule × Bool) :=
  (List.range m.cells.length).foldlM (prefixVisit m turns) (m, false)

end Veryl.Synthesizer
