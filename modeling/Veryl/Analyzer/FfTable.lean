import Mathlib

/-!
Readers and writers of every element of every variable, as gathered for the classification of
registers, and the self-references that need a register.
-/

namespace Veryl.Analyzer.Registers

abbrev VarId := ℕ

/-- The variable, the element when its index is known, and the bits that are
assigned. -/
abbrev AssignTarget := VarId × Option ℕ × ℕ

/-- One reference to an element; `mask` zero means that its bits are unknown. -/
structure Refered where
  decl : ℕ
  target : Option AssignTarget
  mask : ℕ
  fromFf : Bool
  deriving DecidableEq

/-- The elements from `start` on and below `stop`. -/
structure Range where
  start : ℕ
  stop : ℕ
  deriving DecidableEq

namespace Range

def Contains (range : Range) (i : ℕ) : Prop := range.start ≤ i ∧ i < range.stop

instance (range : Range) (i : ℕ) : Decidable (range.Contains i) := by
  unfold Contains
  infer_instance

end Range

structure FfTableEntry where
  assigned : Option ℕ
  multiAssigned : Bool
  refered : List Refered
  isFf : Bool
  assignedComb : Option ℕ

structure WholeAssigned where
  len : ℕ
  assigned : Option ℕ
  multiAssigned : Bool
  assignedComb : Option ℕ
  forceFf : Bool

/-- The writers of an element: an always_ff declaration, whether another one
writes it too, and an always_comb declaration. -/
structure Writers where
  assigned : Option ℕ
  multiAssigned : Bool
  assignedComb : Option ℕ
  deriving DecidableEq

namespace Writers

def none : Writers := ⟨.none, false, .none⟩

def record (w : Writers) (decl : ℕ) : Writers :=
  { w with
    multiAssigned := w.multiAssigned || w.assigned.any (· != decl)
    assigned := some decl }

def recordComb (w : Writers) (decl : ℕ) : Writers := { w with assignedComb := some decl }

end Writers

def FfTableEntry.writers (e : FfTableEntry) : Writers :=
  ⟨e.assigned, e.multiAssigned, e.assignedComb⟩

def FfTableEntry.setWriters (e : FfTableEntry) (w : Writers) : FfTableEntry :=
  { e with assigned := w.assigned, multiAssigned := w.multiAssigned, assignedComb := w.assignedComb }

def WholeAssigned.writers (w : WholeAssigned) : Writers :=
  ⟨w.assigned, w.multiAssigned, w.assignedComb⟩

def WholeAssigned.setWriters (w : WholeAssigned) (ws : Writers) : WholeAssigned :=
  { w with assigned := ws.assigned, multiAssigned := ws.multiAssigned,
           assignedComb := ws.assignedComb }

/-- Whether a reader keeps the register of an element that `assignedDecl`
writes; `index` is none for an element no access names. -/
def needsFf (assignedDecl : ℕ) (multiAssigned : Bool) (id : VarId) (index : Option ℕ)
    (readable : Bool) (r : Refered) : Bool :=
  if !r.fromFf then false
  else if r.decl ≠ assignedDecl then true
  else if multiAssigned then true
  else
    match r.target with
    | some (targetId, targetIdx, _) =>
      if targetId ≠ id then true
      else
        match targetIdx with
        | some idx => if some idx = index then !readable else true
        | none => true
    | none => true

def classify (assignedDecl : ℕ) (multiAssigned : Bool) (id : VarId) (index : Option ℕ)
    (readable : Bool) (refs : List Refered) : Bool :=
  refs.any (needsFf assignedDecl multiAssigned id index readable)

structure FfTable where
  table : VarId → ℕ → Option FfTableEntry
  rangeRefered : VarId → List (Range × Refered)
  wholeAssigned : VarId → Option WholeAssigned
  indices : VarId → List ℕ
  perElement : Bool

namespace FfTable

def new (perElement : Bool) : FfTable :=
  ⟨fun _ _ => none, fun _ => [], fun _ => none, fun _ => [], perElement⟩

variable (t : FfTable)

def rangeRefs (id : VarId) (index : ℕ) : List Refered :=
  ((t.rangeRefered id).filter fun x => x.1.Contains index).map Prod.snd

/-- Every reference to an element, those through an unevaluated index too. -/
def refered (id : VarId) (index : ℕ) : List Refered :=
  ((t.table id index).elim [] FfTableEntry.refered) ++ t.rangeRefs id index

def whole (id : VarId) (index : ℕ) : Option WholeAssigned :=
  (t.wholeAssigned id).filter fun w => index < w.len

def writers (id : VarId) (index : ℕ) : Writers :=
  match t.table id index with
  | some e => e.writers
  | none => (t.whole id index).elim .none WholeAssigned.writers

def isFf (id : VarId) (index : ℕ) : Bool :=
  match t.table id index with
  | some e => e.isFf
  | none =>
    match t.whole id index with
    | some w =>
      w.forceFf || w.assigned.any fun decl =>
        classify decl w.multiAssigned id none true (t.rangeRefs id index)
    | none => false

/-- The entry of an element, created with what the writes through an
unevaluated index have recorded for it so far. -/
def freshEntry (id : VarId) (index : ℕ) : FfTableEntry :=
  FfTableEntry.setWriters ⟨none, false, [], false, none⟩
    ((t.whole id index).elim .none WholeAssigned.writers)

/-- Changes the entry of an element, creating it first if needed. -/
def modifyEntry (id : VarId) (index : ℕ) (f : FfTableEntry → FfTableEntry) : FfTable :=
  match t.table id index with
  | some e =>
    { t with table := Function.update t.table id (Function.update (t.table id) index (some (f e))) }
  | none =>
    { t with
      table := Function.update t.table id
        (Function.update (t.table id) index (some (f (t.freshEntry id index))))
      indices := Function.update t.indices id (t.indices id ++ [index]) }

def insertRefered (id : VarId) (index : ℕ) (r : Refered) : FfTable :=
  t.modifyEntry id index fun e => { e with refered := e.refered ++ [r] }

def insertAssigned (id : VarId) (index decl : ℕ) : FfTable :=
  t.modifyEntry id index fun e => e.setWriters (e.writers.record decl)

def insertAssignedComb (id : VarId) (index decl : ℕ) : FfTable :=
  t.modifyEntry id index fun e => e.setWriters (e.writers.recordComb decl)

def insertReferedRange (id : VarId) (range : Range) (r : Refered) : FfTable :=
  if t.perElement then
    (List.range' range.start (range.stop - range.start)).foldl (fun t i => t.insertRefered id i r) t
  else if range.stop ≤ range.start then t
  else
    { t with
      rangeRefered := Function.update t.rangeRefered id (t.rangeRefered id ++ [(range, r)]) }

def insertReferedWhole (id : VarId) (totalArray : ℕ) (r : Refered) : FfTable :=
  t.insertReferedRange id ⟨0, totalArray⟩ r

/-- Changes the writers of a whole array, in its own record and in the entries
of its elements. -/
def modifyWhole (id : VarId) (len : ℕ) (f : Writers → Writers) : FfTable :=
  let w := (t.wholeAssigned id).getD ⟨len, none, false, none, false⟩
  { t with
    wholeAssigned := Function.update t.wholeAssigned id (some (w.setWriters (f w.writers)))
    table := Function.update t.table id fun i =>
      if i ∈ t.indices id ∧ i < len then
        (t.table id i).map fun e => e.setWriters (f e.writers)
      else t.table id i }

def insertAssignedWhole (id : VarId) (totalArray decl : ℕ) : FfTable :=
  if totalArray ≠ 0 ∧ !t.perElement then t.modifyWhole id totalArray (·.record decl)
  else (List.range totalArray).foldl (fun t i => t.insertAssigned id i decl) t

def insertAssignedCombWhole (id : VarId) (totalArray decl : ℕ) : FfTable :=
  if totalArray ≠ 0 ∧ !t.perElement then t.modifyWhole id totalArray (·.recordComb decl)
  else (List.range totalArray).foldl (fun t i => t.insertAssignedComb id i decl) t

end FfTable

/-- One call that gathers an access. -/
inductive Access where
  | refered (id : VarId) (index : ℕ) (r : Refered)
  | referedRange (id : VarId) (range : Range) (r : Refered)
  | referedWhole (id : VarId) (totalArray : ℕ) (r : Refered)
  | assigned (id : VarId) (index decl : ℕ)
  | assignedWhole (id : VarId) (totalArray decl : ℕ)
  | assignedComb (id : VarId) (index decl : ℕ)
  | assignedCombWhole (id : VarId) (totalArray decl : ℕ)
  deriving DecidableEq

def FfTable.insert (t : FfTable) : Access → FfTable
  | .refered id index r => t.insertRefered id index r
  | .referedRange id range r => t.insertReferedRange id range r
  | .referedWhole id totalArray r => t.insertReferedWhole id totalArray r
  | .assigned id index decl => t.insertAssigned id index decl
  | .assignedWhole id totalArray decl => t.insertAssignedWhole id totalArray decl
  | .assignedComb id index decl => t.insertAssignedComb id index decl
  | .assignedCombWhole id totalArray decl => t.insertAssignedCombWhole id totalArray decl

def gather (perElement : Bool) (accesses : List Access) : FfTable :=
  accesses.foldl FfTable.insert (.new perElement)

/-- Bits touched at one element; none is unknown, taken as every bit. -/
abbrev Mask := Option ℕ

def mergeMask : Mask → Mask → Mask
  | some a, some b => some (a ||| b)
  | _, _ => none

def overlaps : Mask → Mask → Bool
  | some r, some w => (r &&& w) != 0
  | _, _ => true

/-- The merge of masks, none when there are none. -/
def unionMasks (masks : List Mask) : Option Mask :=
  masks.foldl (fun out m => some (mergeMask (out.getD (some 0)) m)) none

/-- A destination: one element, or every element below the length when the
index does not evaluate. -/
inductive Dst where
  | element (id : VarId) (index : ℕ) (mask : Mask)
  | whole (id : VarId) (len : ℕ) (mask : Mask)

/-- Bits written so far on the path that is walked: by variable and element, and
by variable and length of the whole array. -/
structure Written where
  elements : List ((VarId × ℕ) × Mask)
  whole : List ((VarId × ℕ) × Mask)

/-- Merges a mask into the record of a key, which starts with no bits. -/
def mergeAt (key : VarId × ℕ) (mask : Mask) : List ((VarId × ℕ) × Mask) → List ((VarId × ℕ) × Mask)
  | [] => [(key, mergeMask (some 0) mask)]
  | x :: rest => if x.1 = key then (key, mergeMask x.2 mask) :: rest else x :: mergeAt key mask rest

namespace Written

def empty : Written := ⟨[], []⟩

variable (w : Written)

def get (id : VarId) (index : ℕ) : Option Mask :=
  unionMasks (((w.elements.filter fun x => x.1 = (id, index)).map Prod.snd) ++
    (w.whole.filter fun x => x.1.1 = id ∧ index < x.1.2).map Prod.snd)

/-- What every element has in common. -/
def getWhole (id : VarId) : Option Mask :=
  unionMasks ((w.whole.filter fun x => x.1.1 = id).map Prod.snd)

def indices (id : VarId) : List ℕ :=
  (w.elements.filter fun x => x.1.1 = id).map fun x => x.1.2

def add : Dst → Written
  | .element id index mask => { w with elements := mergeAt (id, index) mask w.elements }
  | .whole id len mask => { w with whole := mergeAt (id, len) mask w.whole }

/-- Adds everything another path may have written. -/
def absorb (other : Written) : Written :=
  other.whole.foldl (fun w x => w.add (.whole x.1.1 x.1.2 x.2))
    (other.elements.foldl (fun w x => w.add (.element x.1.1 x.1.2 x.2)) w)

end Written

/-- Elements that must keep their register, by declaration and variable. -/
structure UnsafeSelfReads where
  elements : ℕ → VarId → List ℕ
  ranges : ℕ → VarId → List Range

namespace UnsafeSelfReads

def empty : UnsafeSelfReads := ⟨fun _ _ => [], fun _ _ => []⟩

variable (u : UnsafeSelfReads)

def contains (decl : ℕ) (id : VarId) (index : ℕ) : Bool :=
  ((u.ranges decl id).any fun r => r.Contains index) || (u.elements decl id).contains index

def insert (decl : ℕ) (id : VarId) (index : ℕ) : UnsafeSelfReads :=
  { u with
    elements := Function.update u.elements decl
      (Function.update (u.elements decl) id (index :: u.elements decl id)) }

/-- Joins a range with the ranges it touches; these are dropped. -/
def joinRanges : Range → List Range → Range × List Range
  | range, [] => (range, [])
  | range, other :: rest =>
    if range.start ≤ other.stop ∧ other.start ≤ range.stop then
      joinRanges ⟨min range.start other.start, max range.stop other.stop⟩ rest
    else
      let (range, kept) := joinRanges range rest
      (range, other :: kept)

def insertRange (decl : ℕ) (id : VarId) (range : Range) : UnsafeSelfReads :=
  if range.stop ≤ range.start then u
  else
    let (range, kept) := joinRanges range (u.ranges decl id)
    { u with
      ranges := Function.update u.ranges decl
        (Function.update (u.ranges decl) id (kept ++ [range])) }

def insertWhole (decl : ℕ) (id : VarId) (len : ℕ) : UnsafeSelfReads :=
  u.insertRange decl id ⟨0, len⟩

end UnsafeSelfReads

/-- The bits read through references, none when there are none. -/
def readMask (refs : List Refered) : Option Mask :=
  if refs = [] then none
  else some (refs.foldl (fun mask r => if r.mask = 0 then none else mergeMask mask (some r.mask))
    (some 0))

/-- Whether a statement reads a bit of an element that an earlier write reached;
without a source it reads the bits it writes. -/
def hit (reads : Option FfTable) (mask : Mask) (id : VarId) (index : ℕ) (written : Written) : Bool :=
  let read := match reads with
    | some reads => readMask (reads.refered id index)
    | none => some mask
  match read, written.get id index with
  | some read, some prior => overlaps read prior
  | _, _ => false

/-- A destination after its index and its select are evaluated: the elements
from `start` to `stop`, both included. -/
structure DstAccess where
  id : VarId
  mask : Mask
  range : Option (ℕ × ℕ)

/-- The statements of an always_ff declaration after indices, selects and loop bounds are
evaluated; the statements after the first are the last argument. -/
inductive FfStmts where
  | nil
  | assign (dsts : List DstAccess) (reads : List Access) (rest : FfStmts)
  | branches (trueSide falseSide rest : FfStmts)
  | loop (writes : List DstAccess) (body rest : FfStmts)
  | call (outputs : List (List DstAccess)) (rest : FfStmts)

section Walk

variable (perElement : Bool) (total : VarId → Option ℕ)

def addDst (d : DstAccess) : List Dst :=
  match d.range with
  | some (start, stop) =>
    if !perElement ∧ start = 0 ∧ some (stop + 1) = total d.id ∧ 0 < stop then
      [.whole d.id (stop + 1) d.mask]
    else (List.range' start (stop + 1 - start)).map fun index => .element d.id index d.mask
  | none => []

/-- Records the elements of a destination whose prior write is read. -/
def check (decl : ℕ) (reads : Option FfTable) (written : Written) (u : UnsafeSelfReads) :
    Dst → UnsafeSelfReads
  | .element id index mask =>
    if hit reads mask id index written then u.insert decl id index else u
  | .whole id len mask =>
    let u := match written.getWhole id with
      | some prior =>
        match reads with
        | some reads =>
          (reads.rangeRefered id).foldl (fun u x =>
            match readMask [x.2] with
            | some read =>
              if overlaps read prior then
                u.insertRange decl id ⟨x.1.start, min x.1.stop len⟩
              else u
            | none => u) u
        | none => if overlaps mask prior then u.insertWhole decl id len else u
      | none => u
    let named := (reads.elim [] fun reads => reads.indices id) ++ written.indices id
    named.foldl (fun u i =>
      if i < len ∧ hit reads mask id i written then u.insert decl id i else u) u

abbrev WalkState := Written × UnsafeSelfReads

def walkCall (decl : ℕ) (st : WalkState) (outputs : List DstAccess) : WalkState :=
  (outputs.flatMap (addDst perElement total)).foldl
    (fun st dst => (st.1.add dst, check decl none st.1 st.2 dst)) st

def walk (decl : ℕ) : FfStmts → WalkState → WalkState
  | .nil, st => st
  | .assign dsts reads rest, (written, u) =>
    let dsts := dsts.flatMap (addDst perElement total)
    -- the source runs before the store
    let u := dsts.foldl (check decl (some (gather false reads)) written) u
    walk decl rest (dsts.foldl Written.add written, u)
  | .branches t f rest, (written, u) =>
    let (wt, u) := walk decl t (written, u)
    let (wf, u) := walk decl f (written, u)
    walk decl rest (wt.absorb wf, u)
  | .loop writes body rest, (written, u) =>
    walk decl rest
      (walk decl body ((writes.flatMap (addDst perElement total)).foldl Written.add written, u))
  | .call outputs rest, st => walk decl rest (outputs.foldl (walkCall perElement total decl) st)

/-- Walks the always_ff declarations; any other declaration is none. -/
def unsafeSelfReads (decls : List (Option FfStmts)) : UnsafeSelfReads :=
  decls.zipIdx.foldl (fun u x =>
    match x.1 with
    | some stmts => (walk perElement total x.2 stmts (.empty, u)).2
    | none => u) .empty

end Walk

namespace FfTable

/-- Classifies every entry; an element without one is classified on demand. -/
def updateIsFf (t : FfTable) (total : VarId → Option ℕ) (decls : List (Option FfStmts)) : FfTable :=
  let unsafeReads := unsafeSelfReads t.perElement total decls
  { t with
    table := fun id index => (t.table id index).map fun e =>
      match e.assigned with
      | some decl =>
        { e with
          isFf := classify decl e.multiAssigned id (some index)
            (!unsafeReads.contains decl id index) (e.refered ++ t.rangeRefs id index) }
      | none => e }

end FfTable

end Veryl.Analyzer.Registers
