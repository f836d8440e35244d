import Veryl.Analyzer.Span

/-!
The assigned and the referenced bits of every array element, as the analyzer records them while it
walks a process.
-/

namespace Veryl.Analyzer.AssignTables

abbrev VarId := ℕ

def checkedAdd (a b : ℕ) : Option ℕ := if a + b < 2 ^ 64 then some (a + b) else none

def checkedMul (a b : ℕ) : Option ℕ := if a * b < 2 ^ 64 then some (a * b) else none

/-- The extents of an unpacked array, outermost first; `none` is not known. -/
abbrev Shape := List (Option ℕ)

namespace Shape

/-- The number of elements, when every extent is known and the product is a
usize. -/
def total (shape : Shape) : Option ℕ :=
  if shape.any Option.isNone then none
  else if some 0 ∈ shape then some 0
  else shape.foldlM (fun total extent => extent.bind (checkedMul total)) 1

def indexStep (acc : ℕ × ℕ) (dimension : ℕ × Option ℕ) : Option (ℕ × ℕ) := do
  let extent ← dimension.2
  if extent ≤ dimension.1 then none
  else
    let term ← checkedMul dimension.1 acc.2
    let ret ← checkedAdd acc.1 term
    let base ← checkedMul acc.2 extent
    some (ret, base)

/-- The linear index, innermost extent first; `none` is out of range. -/
def calcIndex (shape : Shape) (index : List ℕ) : Option ℕ :=
  if shape = [] ∨ (shape = [some 1] ∧ index = []) then some 0
  else if index.length ≠ shape.length then none
  else do
    let _ ← shape.total
    let acc ← (index.zip shape).reverse.foldlM indexStep (0, 1)
    some acc.1

end Shape

structure VariableInfo where
  id : VarId
  array : Shape

/-- The declared variables with the shapes of their arrays. -/
structure Context where
  variableShapes : VarId → Option Shape

def Context.getVariableInfo (context : Context) (id : VarId) : Option VariableInfo :=
  (context.variableShapes id).map (VariableInfo.mk id)

/-- One zero for each element, and the mask at the element that is named. -/
def elementMasks (total : ℕ) (element : Option ℕ) (mask : ℕ) : List ℕ :=
  (List.range total).map fun i => if element = some i then mask else 0

structure AssignTableEntry where
  mask : List ℕ
  array : Shape
  deriving DecidableEq

namespace AssignTableEntry

def new (info : VariableInfo) (element : Option ℕ) (mask : ℕ) : AssignTableEntry where
  mask := match info.array.total with
    | some array => elementMasks array element mask
    | none => []
  array := info.array

/-- `none` is an index past the masks, where the source panics. -/
def add (entry : AssignTableEntry) (element : Option ℕ) (mask : ℕ) : Option AssignTableEntry :=
  match element with
  | none => some entry
  | some i =>
    if i < entry.mask.length then
      some { entry with mask := entry.mask.modify i (· ||| mask) }
    else none

end AssignTableEntry

structure ReferencedEntry where
  maskRef : List ℕ
  maskAssign : List ℕ
  array : Shape
  deriving DecidableEq

namespace ReferencedEntry

def newRef (index : List ℕ) (array : Shape) (mask : ℕ) : ReferencedEntry :=
  match array.total with
  | some total =>
    { maskRef := elementMasks total (array.calcIndex index) mask
      maskAssign := elementMasks total none 0
      array := array }
  | none => { maskRef := [], maskAssign := [], array := array }

/-- Without an element neither vector gets the shape of the variable. -/
def newAssign (element : Option ℕ) (array : Shape) (mask : ℕ) : ReferencedEntry :=
  match element, array.total with
  | some index, some total =>
    { maskRef := elementMasks total none 0
      maskAssign := elementMasks total (some index) mask
      array := array }
  | _, _ => { maskRef := [], maskAssign := [], array := array }

def addRef (entry : ReferencedEntry) (index : List ℕ) (mask : ℕ) : ReferencedEntry :=
  match entry.array.calcIndex index with
  | some i => { entry with maskRef := entry.maskRef.modify i (· ||| mask) }
  | none => entry

def addAssign (entry : ReferencedEntry) (element : Option ℕ) (mask : ℕ) : ReferencedEntry :=
  match element with
  | some i => { entry with maskAssign := entry.maskAssign.modify i (· ||| mask) }
  | none => entry

end ReferencedEntry

/-- The region of a summarized write. -/
structure RegionWrite where
  id : VarId
  array : ArraySpan
  packed : PackedSpan

/-- The bits of the span as a dense mask. -/
def packedMask (span : PackedSpan) : ℕ := (1 <<< span.length - 1) <<< span.start

structure AssignTable where
  arrayLimit : ℕ
  table : VarId → Option AssignTableEntry
  refernced : VarId → Option ReferencedEntry
  accumulatedReads : VarId → Option (List ℕ)

namespace AssignTable

def new (arrayLimit : ℕ) : AssignTable where
  arrayLimit := arrayLimit
  table := fun _ => none
  refernced := fun _ => none
  accumulatedReads := fun _ => none

def insertElement (t : AssignTable) (info : VariableInfo) (element : Option ℕ)
    (mask : ℕ) : Option AssignTable := do
  -- add assign bit
  let refernced := (t.refernced info.id).elim (.newAssign element info.array mask)
    (·.addAssign element mask)
  let entry ← (t.table info.id).elim (some (.new info element mask)) (·.add element mask)
  some { t with
    refernced := Function.update t.refernced info.id (some refernced)
    table := Function.update t.table info.id (some entry) }

def insertAssign (t : AssignTable) (info : VariableInfo) (index : List ℕ) (mask : ℕ) :
    Option AssignTable :=
  if t.arrayLimit < info.array.total.getD 0 then some t
  else t.insertElement info (info.array.calcIndex index) mask

def regionElements (array : ArraySpan) (total : ℕ) : List ℕ :=
  let stop := min ((checkedAdd array.start array.length).getD (2 ^ 64 - 1)) total
  List.range' array.start (stop - array.start)

def insertRegion (t : AssignTable) (context : Context) (write : RegionWrite) : Option AssignTable :=
  match context.getVariableInfo write.id with
  | none => some t
  | some info =>
    match info.array.total with
    | none => some t
    | some total =>
      if t.arrayLimit < total then some t
      else
        (regionElements write.array total).foldlM (fun t element =>
          t.insertElement info (some element) (packedMask write.packed)) t

def insertReference (t : AssignTable) (info : VariableInfo) (index : List ℕ)
    (mask : ℕ) : AssignTable :=
  if t.arrayLimit < info.array.total.getD 0 then t
  else
    let entry := (t.refernced info.id).elim (.newRef index info.array mask) (·.addRef index mask)
    let t := { t with refernced := Function.update t.refernced info.id (some entry) }
    match info.array.calcIndex index, info.array.total with
    | some flat, some total =>
      let reads := (t.accumulatedReads info.id).getD (elementMasks total none 0)
      { t with
        accumulatedReads := Function.update t.accumulatedReads info.id
          (some (reads.modify flat (· ||| mask))) }
    | _, _ => t

/-- `none` is an index past the recorded masks, where the source panics. -/
def checkRefered (t : AssignTable) (id : VarId) (index : List ℕ) (mask : ℕ) : Option Bool :=
  match t.refernced id with
  | none => some false
  | some x =>
    match x.array.calcIndex index with
    | none => some false
    | some i => do
      let maskRef ← x.maskRef[i]?
      if maskRef &&& mask = 0 then some false
      else
        let maskAssign ← x.maskAssign[i]?
        some (maskRef &&& mask &&& maskAssign = 0)

end AssignTable

/-- One call on the table. A caller holds the declaration of the variable it
names, so a call on an undeclared variable does not happen. -/
inductive Call where
  | insertAssign (id : VarId) (index : List ℕ) (mask : ℕ)
  | insertRegion (write : RegionWrite)
  | insertReference (id : VarId) (index : List ℕ) (mask : ℕ)

def Call.run (context : Context) (t : AssignTable) : Call → Option AssignTable
  | .insertAssign id index mask =>
    match context.getVariableInfo id with
    | some info => t.insertAssign info index mask
    | none => some t
  | .insertRegion write => t.insertRegion context write
  | .insertReference id index mask =>
    match context.getVariableInfo id with
    | some info => some (t.insertReference info index mask)
    | none => some t

/-- The table after a sequence of calls; `none` when one of them panics. -/
def record (context : Context) (arrayLimit : ℕ) (calls : List Call) : Option AssignTable :=
  calls.foldlM (Call.run context) (AssignTable.new arrayLimit)

end Veryl.Analyzer.AssignTables
