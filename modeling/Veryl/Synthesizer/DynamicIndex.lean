import Veryl.Synthesizer.Arith

/-!
Arrays of flip-flops under run-time indices: the decoder of a write and the
multiplexer trees of a read, over the values of the nets.
-/

namespace Veryl.Synthesizer.DynamicIndex

/-- Truncates, or pads with the sign or with zeros. -/
def resize (nets : List Bool) (target : ℕ) (signed : Bool) : List Bool :=
  if target ≤ nets.length then nets.take target
  else nets ++ List.replicate (target - nets.length) (signed && nets.getLastD false)

theorem length_resize (nets : List Bool) (target : ℕ) (signed : Bool) :
    (resize nets target signed).length = target := by
  unfold resize
  split
  · rename_i hle
    rw [List.length_take, Nat.min_eq_left hle]
  · rw [List.length_append, List.length_replicate]
    omega

/-- An index expression: its declared width, the number that it stands for there, and what
its nets evaluate to when it is synthesized at a target width. The operands are synthesized at
the target width too, so that these need not spell the number. -/
structure IndexExpr where
  width : ℕ
  value : ℤ
  nets : ℕ → List Bool
  length_nets : ∀ targetWidth, (nets targetWidth).length = targetWidth

def synthesizeExpr (e : IndexExpr) (targetWidth : ℕ) : List Bool := e.nets targetWidth

/-- A variable, whose declared nets are resized. -/
def IndexExpr.ofVariable (nets : List Bool) (signed : Bool) : IndexExpr where
  width := nets.length
  value := if signed && nets.getLastD false then (busValue nets : ℤ) - 2 ^ nets.length
    else busValue nets
  nets targetWidth := resize nets targetWidth signed
  length_nets targetWidth := length_resize nets targetWidth signed

/-- A logical shift right by a constant: the operand is synthesized at the target width. -/
def IndexExpr.shiftRight (e : IndexExpr) (amount : ℕ) : IndexExpr where
  width := e.width
  value := e.value % 2 ^ e.width / 2 ^ amount
  nets targetWidth := (e.nets targetWidth).drop amount ++ List.replicate (min amount targetWidth) false
  length_nets targetWidth := by
    rw [List.length_append, List.length_drop, e.length_nets, List.length_replicate]
    omega

/-- The bits of an index into `n` elements. -/
def indexBitsFor (n : ℕ) : ℕ := if n ≤ 1 then 1 else Nat.log2 (n - 1) + 1

def buildConstant (value width : ℕ) : List Bool :=
  (List.range width).map fun i => decide (i < 64) && value.testBit i

inductive DstIndex where
  | static (flat : ℕ)
  | dynamic (indices : List IndexExpr)

inductive DstSelect where
  | whole
  | static (lo hi : ℕ)
  | dynamicSingle (idx : IndexExpr)

/-- An element of an array, or a part of it, as the target of an assignment. -/
structure Dst where
  scalarWidth : ℕ
  shape : List ℕ
  memberOffset : ℕ
  memberWidth : ℕ
  index : DstIndex
  select : DstSelect

/-- The match of a bit: that of its element and that of its place. -/
def combine : Option Bool → Option Bool → Option Bool
  | none, none => none
  | some em, none => some em
  | none, some bm => some bm
  | some em, some bm => some (CellKind.and2.eval [em, bm])

/-- One target bit; past the end of the variable nothing is written. -/
def writeTarget (newVal : Bool) (bit : ℕ) (bm : Option Bool) (current : List Bool)
    (element : ℕ × Option Bool) : List Bool :=
  let target := element.1 + bit
  if current.length ≤ target then current
  else
    current.set target (match combine element.2 bm with
      | none => newVal
      | some m => CellKind.mux2.eval [m, current.getD target false, newVal])

/-- The places of a write: each with its match and its new value. -/
def bitPositions (dst : Dst) (src : List Bool) : List (ℕ × Option Bool × Bool) :=
  match dst.select with
  | .whole =>
    ((List.range' dst.memberOffset dst.memberWidth).zip src).map fun p => (p.1, none, p.2)
  | .static lo hi => ((List.range' lo (hi + 1 - lo)).zip src).map fun p => (p.1, none, p.2)
  | .dynamicSingle idx =>
    let idxNets := synthesizeExpr idx (indexBitsFor (dst.memberOffset + dst.memberWidth))
    (List.range' dst.memberOffset dst.memberWidth).map fun b =>
      (b, some (eqConst idxNets b), src.headD false)

def writeElements (dst : Dst) (src : List Bool) (elements : List (ℕ × Option Bool))
    (current : List Bool) : List Bool :=
  (bitPositions dst src).foldl
    (fun current p => elements.foldl (writeTarget p.2.2 p.1 p.2.1) current) current

/-- A run-time index needs an array of one dimension. -/
def writeToDst (dst : Dst) (src current : List Bool) : Option (List Bool) :=
  match dst.index with
  | .static flat => some (writeElements dst src [(flat * dst.scalarWidth, none)] current)
  | .dynamic indices =>
    if dst.shape.length ≠ 1 ∨ dst.shape.prod = 0 then none
    else
      match indices with
      | [] => none
      | e :: _ =>
        let idxNets := synthesizeExpr e (indexBitsFor dst.shape.prod)
        let elements := (List.range dst.shape.prod).map fun k =>
          (k * dst.scalarWidth, some (eqConst idxNets k))
        some (writeElements dst src elements current)

/-- `slice::chunks`. -/
def chunks {α : Type*} (n : ℕ) (l : List α) : List (List α) :=
  (List.range ((l.length + n - 1) / n)).map fun g => (l.drop (g * n)).take n

/-- Resolves one dimension. A selector wider than the tree resolves is checked. -/
def selectDim (selector : List Bool × ℕ) (elements : List (List Bool)) :
    Option (List (List Bool)) :=
  let valid : Option (Option Bool) :=
    if Nat.clog 2 selector.2 < selector.1.length then
      (compareLess (resize selector.1 (selector.1.length + 1) false)
        (buildConstant selector.2 (selector.1.length + 1)) false).map some
    else some none
  valid.map fun valid => (chunks selector.2 elements).map fun group =>
    let selected := dynamicMuxTree group selector.1
    match valid with
    | none => selected
    | some v => selected.map fun n => CellKind.and2.eval [n, v]

def readArray (scalarWidth : ℕ) (shape : List ℕ) (indices : List IndexExpr)
    (srcNets : List Bool) : Option (List Bool) :=
  let width := scalarWidth * (shape.drop indices.length).prod
  let selectors := (indices.zip shape).map fun p =>
    (synthesizeExpr p.1 (max (indexBitsFor p.2) p.1.width), p.2)
  (selectors.foldrM selectDim (chunks width srcNets)).bind List.getLast?

/-- The place of an element in row-major order; none if an index is out of range. -/
def flatIndex : List (ℕ × ℤ) → Option ℕ
  | [] => some 0
  | (size, v) :: rest =>
    if 0 ≤ v ∧ v < size then
      (flatIndex rest).map fun k => v.toNat * (rest.map Prod.fst).prod + k
    else none

def indexPairs (shape : List ℕ) (indices : List IndexExpr) : List (ℕ × ℤ) :=
  (indices.zip shape).map fun p => (p.2, p.1.value)

def patch (current : List Bool) (start : ℕ) (src : List Bool) : List Bool :=
  current.take start ++ src ++ current.drop (start + src.length)

/-- A write into an element at a place; without one it is lost. -/
def patchElement (scalarWidth start : ℕ) (src current : List Bool) : Option ℕ → List Bool
  | some k => patch current (k * scalarWidth + start) src
  | none => current

/-- The nets of an element; without one they are zero. -/
def elementAt (width : ℕ) (srcNets : List Bool) : Option ℕ → List Bool
  | some k => (srcNets.drop (k * width)).take width
  | none => List.replicate width false

/-- A write into the addressed element; out of range it is lost. -/
def writeSpec (scalarWidth : ℕ) (shape : List ℕ) (indices : List IndexExpr) (start : ℕ)
    (src current : List Bool) : List Bool :=
  patchElement scalarWidth start src current (flatIndex (indexPairs shape indices))

/-- The addressed element; out of range it is zero. -/
def readSpec (scalarWidth : ℕ) (shape : List ℕ) (indices : List IndexExpr) (srcNets : List Bool) :
    List Bool :=
  elementAt (scalarWidth * (shape.drop indices.length).prod) srcNets
    (flatIndex (indexPairs shape indices))

end Veryl.Synthesizer.DynamicIndex
