import Veryl.Simulator.Memory

/-!
Expressions before code generation, and their evaluation.
-/

namespace Veryl.Simulator

open Veryl.Analyzer List

variable {f : VarOffset → VarOffset} {m m' : Mem}

variable (u : Bool)

/-- One item of a memory image: a word, or an address that moves the load position. -/
inductive HexItem where
  | address (a : ℕ)
  | word (v : Value)

/-- What evaluation takes from outside the statements. -/
structure Env where
  use4state : Bool
  evalValueUnary : Op → Value → ℕ → Bool → Value
  evalValueBinary : Op → Value → Value → ℕ → Bool → Value
  /-- The operator on plain counters, for a `for` loop that steps by it. -/
  evalOp : Op → ℕ → ℕ → Option ℕ
  readHexFile : String → ℕ → List HexItem
  /-- A loop that needs more iterations than this has no outcome. -/
  maxIterations : ℕ

variable {env : Env}

structure ExpressionContext where
  width : ℕ
  signed : Bool
  deriving DecidableEq, Repr

/-- An unsigned context. -/
abbrev ExpressionContext.ofWidth (width : ℕ) : ExpressionContext := ⟨width, false⟩

/-- A dynamic bit select, its index aside. -/
structure DynamicBitSelect where
  lowAdjust : ℕ
  rowElements : Option ℕ
  elemWidth : ℕ
  window : ℕ
  numElements : ℕ
  deriving DecidableEq, Repr

inductive ProtoExpression where
  | resize (x : ProtoExpression) (width : ℕ) (signExtend : Bool) (exprContext : ExpressionContext)
  | variable (varOffset : VarOffset) (select : Option (ℕ × ℕ))
      (dynamicSelect : Option (DynamicBitSelect × ProtoExpression)) (width varFullWidth : ℕ)
      (exprContext : ExpressionContext)
  | value (value : Value) (width : ℕ) (exprContext : ExpressionContext)
  | unary (op : Op) (x : ProtoExpression) (width : ℕ) (exprContext : ExpressionContext)
  | binary (x : ProtoExpression) (op : Op) (y : ProtoExpression) (width : ℕ)
      (exprContext : ExpressionContext)
  | concatenation (elements : List (ProtoExpression × ℕ × ℕ)) (width : ℕ)
      (exprContext : ExpressionContext)
  | ternary (cond trueExpr falseExpr : ProtoExpression) (width : ℕ)
      (exprContext : ExpressionContext)
  | dynamicVariable (baseOffset : VarOffset) (stride : ℤ) (elementNativeBytes : ℕ)
      (indexExpr : ProtoExpression) (numElements : ℕ) (select : Option (ℕ × ℕ))
      (dynamicSelect : Option (DynamicBitSelect × ProtoExpression)) (width : ℕ)
      (exprContext : ExpressionContext)

variable {es : List (ProtoExpression × ℕ × ℕ)}

abbrev ProtoDynamicBitSelect := DynamicBitSelect × ProtoExpression

variable {ds : Option ProtoDynamicBitSelect}

/-- A product that overflows a machine word is no number. -/
def checkedUsize (n : ℕ) : Option ℕ := if n < 2 ^ 64 then some n else none

namespace DynamicBitSelect

/-- Elements of all rows together. -/
def storedElements (d : DynamicBitSelect) : ℕ :=
  match d.rowElements with
  | none => d.numElements
  | some row => d.numElements / (row + d.lowAdjust).nextPowerOfTwo * row

def storageWidth (d : DynamicBitSelect) : ℕ := d.storedElements * d.elemWidth

/-- The bounds for an index in a row. -/
def boundsInRow (d : DynamicBitSelect) (row index elements width : ℕ) : Option (ℕ × ℕ × ℕ) := do
  let skip ← checkedUsize ((d.lowAdjust - index) * d.elemWidth)
  let low := index - d.lowAdjust
  if elements ≤ low ∨ d.window ≤ skip then none
  else
    let rowStart ← (checkedUsize (row * elements)).bind fun x => checkedUsize (x * d.elemWidth)
    let end_ ← (checkedUsize (low * d.elemWidth)).bind fun x => checkedUsize (rowStart + x)
    let rowEnd ← (checkedUsize (elements * d.elemWidth)).bind fun x => checkedUsize (rowStart + x)
    let limit := min rowEnd width
    let last ← checkedUsize (end_ + (d.window - skip - 1))
    if limit = 0 then none
    else
      let beg := min last (limit - 1)
      if end_ ≤ beg then some (beg, end_, skip) else none

/-- The bit window an index addresses: its high and low bit, and how many low
bits of the value fall below the variable. -/
def writeBounds (d : DynamicBitSelect) (index width : ℕ) : Option (ℕ × ℕ × ℕ) :=
  if d.rowElements.isSome ∧ d.numElements ≤ index then none
  else
    match d.rowElements with
    | none => d.boundsInRow 0 index d.numElements width
    | some elements => do
      let sum ← checkedUsize (elements + d.lowAdjust)
      let stride ← checkedUsize sum.nextPowerOfTwo
      d.boundsInRow (index / stride) (index % stride) elements width

end DynamicBitSelect

/-- What an out-of-range dynamic index reads. -/
def outOfRangeRead (width : ℕ) (signed use4state : Bool) : Value :=
  -- the width field has 32 bits, the mask is made from the whole width
  if use4state then { Value.newX width signed with width := width % 2 ^ 32 }
  else Value.new 0 (width % 2 ^ 32) signed

def DynamicBitSelect.readValue (d : DynamicBitSelect) (source : Value) (index : ℕ)
    (use4state : Bool) : Value :=
  match checkedUsize (d.elemWidth * d.storedElements) with
  | none => outOfRangeRead d.window false use4state
  | some width =>
    match d.writeBounds index width with
    | none => outOfRangeRead d.window false use4state
    | some (beg, end_, skip) =>
      let selected := source.select beg end_
      if skip = 0 ∧ beg - end_ + 1 = d.window then selected
      else (outOfRangeRead d.window false use4state).assign selected (skip + beg - end_) skip

namespace ProtoExpression

def exprContext : ProtoExpression → ExpressionContext
  | .resize _ _ _ c | .variable _ _ _ _ _ c | .value _ _ c | .unary _ _ _ c
  | .binary _ _ _ _ c | .concatenation _ _ c | .ternary _ _ _ _ c
  | .dynamicVariable _ _ _ _ _ _ _ _ c => c

def width : ProtoExpression → ℕ
  | .resize _ w _ _ | .variable _ _ _ w _ _ | .value _ w _ | .unary _ _ w _
  | .binary _ _ _ w _ | .concatenation _ w _ | .ternary _ _ _ w _
  | .dynamicVariable _ _ _ _ _ _ _ w _ => w

/-- The leaf a store sees, as its width and signedness. -/
def storeLeaf : ProtoExpression → Option (ℕ × Bool)
  | .variable _ _ _ w _ c | .dynamicVariable _ _ _ _ _ _ _ w c
  | .resize _ w _ c | .concatenation _ w c => some (w, c.signed)
  | .value v w _ => some (w, v.signed)
  | _ => none

def storeSignExtendFrom (e : ProtoExpression) (dstWidth : ℕ) : Option ℕ :=
  match e.storeLeaf with
  | some (width, signed) => if signed ∧ 0 < width ∧ width < dstWidth then some width else none
  | none => none

@[elab_as_elim, induction_eliminator]
theorem ind {motive : ProtoExpression → Prop}
    (resize : ∀ x w s c, motive x → motive (.resize x w s c))
    (var : ∀ o sel ds w f c, (∀ d ∈ ds, motive d.2) → motive (.variable o sel ds w f c))
    (value : ∀ v w c, motive (.value v w c))
    (unary : ∀ op x w c, motive x → motive (.unary op x w c))
    (binary : ∀ x op y w c, motive x → motive y → motive (.binary x op y w c))
    (concatenation : ∀ es w c, (∀ e ∈ es, motive e.1) → motive (.concatenation es w c))
    (ternary : ∀ a b d w c, motive a → motive b → motive d → motive (.ternary a b d w c))
    (dynamicVariable : ∀ o s nb i n sel ds w c, motive i → (∀ d ∈ ds, motive d.2) →
      motive (.dynamicVariable o s nb i n sel ds w c))
    (e : ProtoExpression) : motive e :=
  ProtoExpression.rec (motive_1 := motive) (motive_2 := fun ds => ∀ d ∈ ds, motive d.2)
    (motive_3 := fun es => ∀ e ∈ es, motive e.1) (motive_4 := fun d => motive d.2)
    (motive_5 := fun e => motive e.1)
    resize var value unary binary concatenation ternary dynamicVariable
    (by simp) (by simp_all) (by simp) (by simp_all) (by simp) (by simp) e

mutual

/-- The variable reads of an expression, in the order the offset gathers visit
them: a variable before the index of its select, an array after its indices. -/
def leaves : ProtoExpression → List ProtoExpression
  | .resize x _ _ _ => x.leaves
  | .variable o sel ds w f c => .variable o sel ds w f c :: selectLeaves ds
  | .value _ _ _ => []
  | .unary _ x _ _ => x.leaves
  | .binary x _ y _ _ => x.leaves ++ y.leaves
  | .concatenation es _ _ => elementLeaves es
  | .ternary a b d _ _ => a.leaves ++ b.leaves ++ d.leaves
  | .dynamicVariable o s nb i n sel ds w c =>
    i.leaves ++ selectLeaves ds ++ [.dynamicVariable o s nb i n sel ds w c]
termination_by structural e => e

def selectLeaves : Option ProtoDynamicBitSelect → List ProtoExpression
  | none => []
  | some (_, e) => e.leaves
termination_by structural ds => ds

def elementLeaves : List (ProtoExpression × ℕ × ℕ) → List ProtoExpression
  | [] => []
  | (e, _, _) :: es => e.leaves ++ elementLeaves es
termination_by structural es => es

end

/-- The last element of an array. -/
def lastElement (base : VarOffset) (stride : ℤ) (numElements : ℕ) : VarOffset :=
  .new base.isFf (base.raw + stride * (numElements - 1))

/-- What a leaf contributes where an array is summarised by its first and last
element. -/
def leafOffsets : ProtoExpression → List VarOffset
  | .variable o _ _ _ _ _ => [o]
  | .dynamicVariable o stride _ _ n _ _ _ _ =>
    o :: if 1 < n then [lastElement o stride n] else []
  | _ => []

def gatherVariableOffsets (e : ProtoExpression) : List VarOffset :=
  e.leaves.flatMap leafOffsets

mutual

def remapOffsetsWith (f : VarOffset → VarOffset) : ProtoExpression → ProtoExpression
  | .resize x w s c => .resize (x.remapOffsetsWith f) w s c
  | .variable o sel ds w full c => .variable (f o) sel (remapSelect f ds) w full c
  | .value v w c => .value v w c
  | .unary op x w c => .unary op (x.remapOffsetsWith f) w c
  | .binary x op y w c => .binary (x.remapOffsetsWith f) op (y.remapOffsetsWith f) w c
  | .concatenation es w c => .concatenation (remapElements f es) w c
  | .ternary a b d w c =>
    .ternary (a.remapOffsetsWith f) (b.remapOffsetsWith f) (d.remapOffsetsWith f) w c
  | .dynamicVariable o s nb i n sel ds w c =>
    .dynamicVariable (f o) s nb (i.remapOffsetsWith f) n sel (remapSelect f ds) w c
termination_by structural e => e

def remapSelect (f : VarOffset → VarOffset) :
    Option ProtoDynamicBitSelect → Option ProtoDynamicBitSelect
  | none => none
  | some (d, e) => some (d, e.remapOffsetsWith f)
termination_by structural ds => ds

def remapElements (f : VarOffset → VarOffset) :
    List (ProtoExpression × ℕ × ℕ) → List (ProtoExpression × ℕ × ℕ)
  | [] => []
  | (e, repeat_, w) :: es => (e.remapOffsetsWith f, repeat_, w) :: remapElements f es
termination_by structural es => es

end

@[simp] theorem exprContext_remapOffsetsWith (f : VarOffset → VarOffset) (e : ProtoExpression) :
    (e.remapOffsetsWith f).exprContext = e.exprContext := by
  cases e <;> simp [remapOffsetsWith, exprContext]

@[simp] theorem width_remapOffsetsWith (f : VarOffset → VarOffset) (e : ProtoExpression) :
    (e.remapOffsetsWith f).width = e.width := by
  cases e <;> simp [remapOffsetsWith, width]

@[simp] theorem storeSignExtendFrom_remapOffsetsWith (f : VarOffset → VarOffset)
    (e : ProtoExpression) (w : ℕ) :
    (e.remapOffsetsWith f).storeSignExtendFrom w = e.storeSignExtendFrom w := by
  cases e <;> simp [remapOffsetsWith, storeSignExtendFrom, storeLeaf]

@[simp] theorem remapOffsetsWith_id (e : ProtoExpression) : e.remapOffsetsWith id = e := by
  have hselect : ∀ ds : Option ProtoDynamicBitSelect,
      (∀ d ∈ ds, d.2.remapOffsetsWith id = d.2) → remapSelect id ds = ds := by
    rintro (_ | d) h
    · rfl
    · simp [remapSelect, h d rfl]
  induction e with
  | concatenation es w c ih =>
    have : remapElements id es = es := by
      induction es with
      | nil => rfl
      | cons e es ihes =>
        simp only [remapElements, ih e (by simp)]
        rw [ihes fun e' he' => ih e' (by simp [he'])]
    simp [remapOffsetsWith, this]
  | var o sel ds w full c ih => simp [remapOffsetsWith, hselect ds ih]
  | _ => simp_all [remapOffsetsWith]

@[simp] theorem remapSelect_id (ds : Option ProtoDynamicBitSelect) : remapSelect id ds = ds := by
  cases ds <;> simp [remapSelect]

/-- Storage width a variable read covers. -/
def readWidth (select : Option (ℕ × ℕ)) (dynamicSelect : Option ProtoDynamicBitSelect)
    (width varFullWidth : ℕ) : ℕ :=
  match dynamicSelect, select with
  | some (d, _), _ => max varFullWidth d.storageWidth
  | none, some (beg, _) => max varFullWidth (max width (beg + 1))
  | none, none => max varFullWidth width

/-- Reads the slot at `o` through a select. A select needs the whole variable,
whose bits may lie past the width of the result. -/
def readSlot (env : Env) (m : Mem) (o : VarOffset) (nb : ℕ) (select : Option (ℕ × ℕ))
    (dynamicSelect : Option (DynamicBitSelect × Value)) (width : ℕ) (signed : Bool) : Value :=
  let hasSel := select.isSome || dynamicSelect.isSome
  let val := m.readNativeValue o nb env.use4state (if hasSel then nb * 8 else width) signed
  match dynamicSelect, select with
  | some (d, index), _ =>
    match index.toUsize with
    | none => outOfRangeRead d.window signed env.use4state
    | some i => (d.readValue val i env.use4state).setSigned signed
  | none, some (beg, end_) => (val.select beg end_).setSigned signed
  | none, none => val.setSigned signed

/-- Signedness of the operands of a binary operation. -/
def binaryOperandSigned (c : ExpressionContext) (op : Op) (x y : ExpressionContext) : Bool :=
  match op with
  | .div | .rem | .greater | .greaterEq | .less | .lessEq | .eq | .ne | .eqWildcard
  | .neWildcard => x.signed && y.signed
  | _ => c.signed

/-- `repeat_` copies of a part below what is there. -/
def concatRepeat (acc v : Value) : ℕ → Value
  | 0 => acc
  | n + 1 => concatRepeat (acc.concat v) v n

mutual

def eval (env : Env) (m : Mem) : ProtoExpression → Value
  | .resize x w signExtend c =>
    ((((x.eval env m).setSigned signExtend).expand w signExtend).trunc w).setSigned c.signed
  | .variable o sel ds w full c =>
    readSlot env m o (nativeBytes (readWidth sel ds w full)) sel (evalSelect env m ds) w c.signed
  | .value v _ _ => v
  | .unary op x _ c => env.evalValueUnary op (x.eval env m) c.width c.signed
  | .binary x op y _ c =>
    env.evalValueBinary op (x.eval env m) (y.eval env m) c.width
      (binaryOperandSigned c op x.exprContext y.exprContext)
  | .concatenation es _ c => (evalElements env m (.new 0 0 false) es).setSigned c.signed
  | .ternary a b d w _ =>
    let ret := if (a.eval env m).hasKnownOne then b.eval env m else d.eval env m
    if ret.width < w then ret.expand w (b.exprContext.signed && d.exprContext.signed) else ret
  | .dynamicVariable o stride nb i n sel ds w c =>
    match (i.eval env m).toUsizeSaturating with
    | none => outOfRangeRead w c.signed env.use4state
    | some index =>
      if index < n then
        readSlot env m (o.add (stride * index)) nb sel (evalSelect env m ds) w c.signed
      else outOfRangeRead w c.signed env.use4state
termination_by structural e => e

def evalSelect (env : Env) (m : Mem) :
    Option ProtoDynamicBitSelect → Option (DynamicBitSelect × Value)
  | none => none
  | some (d, e) => some (d, e.eval env m)
termination_by structural ds => ds

def evalElements (env : Env) (m : Mem) (acc : Value) : List (ProtoExpression × ℕ × ℕ) → Value
  | [] => acc
  | (e, repeat_, _) :: es => evalElements env m (concatRepeat acc (e.eval env m) repeat_) es
termination_by structural es => es

end

end ProtoExpression

/-- `bytes` storage bytes at the address `delta` past `base`. -/
structure Access where
  base : VarOffset
  delta : ℤ
  bytes : ℕ
  deriving DecidableEq, Repr

/-- The element of a variable or array an access addresses. -/
def Access.element (a : Access) : VarOffset := a.base.add a.delta

/-- The bytes an access covers. -/
def Access.cells (a : Access) : Set VarOffset :=
  {b | ∃ k < a.bytes, b = a.base.add (a.delta + k)}

/-- Every element of a strided array. -/
def stridedAccesses (base : VarOffset) (stride : ℤ) (n bytes : ℕ) : List Access :=
  (List.range n).map fun i : ℕ => ⟨base, stride * i, bytes⟩

/-- `m'` holds what `m` holds on the accesses, after a translation of their
base offsets. -/
def Agree (f : VarOffset → VarOffset) (m m' : Mem) (accesses : List Access) : Prop :=
  ∀ a ∈ accesses, ∀ k < a.bytes, m' ((f a.base).add (a.delta + k)) = m (a.base.add (a.delta + k))

@[simp] theorem agree_nil (f : VarOffset → VarOffset) (m m' : Mem) : Agree f m m' [] := by
  simp [Agree]

@[simp] theorem agree_append {as bs : List Access} :
    Agree f m m' (as ++ bs) ↔ Agree f m m' as ∧ Agree f m m' bs := by
  simp [Agree, or_imp, forall_and]

theorem Agree.subset {as bs : List Access}
    (h : Agree f m m' bs) (hsub : as ⊆ bs) : Agree f m m' as :=
  fun a ha => h a (hsub ha)

namespace ProtoExpression

/-- The slots a leaf may read. -/
def leafAccesses (use4state : Bool) : ProtoExpression → List Access
  | .variable o sel ds w full _ =>
    [⟨o, 0, valueSize (nativeBytes (readWidth sel ds w full)) use4state⟩]
  | .dynamicVariable o stride nb _ n _ _ _ _ =>
    stridedAccesses o stride n (valueSize nb use4state)
  | _ => []

/-- The slots an evaluation may read. -/
def accesses (use4state : Bool) (e : ProtoExpression) : List Access :=
  e.leaves.flatMap (leafAccesses use4state)

theorem evalSelect_congr (h : ∀ d ∈ ds, (d.2.remapOffsetsWith f).eval env m' = d.2.eval env m) :
    evalSelect env m' (remapSelect f ds) = evalSelect env m ds := by
  cases ds with
  | none => rfl
  | some d => simp [remapSelect, evalSelect, h d rfl]

theorem evalElements_congr {acc : Value}
    (h : ∀ e ∈ es, (e.1.remapOffsetsWith f).eval env m' = e.1.eval env m) :
    evalElements env m' acc (remapElements f es) = evalElements env m acc es := by
  induction es generalizing acc with
  | nil => rfl
  | cons e es ih =>
    simp only [remapElements, evalElements, h e (by simp)]
    exact ih fun e' he' => h e' (by simp [he'])

theorem readSlot_congr {o o' : VarOffset} {nb : ℕ}
    (sel : Option (ℕ × ℕ)) (ds : Option (DynamicBitSelect × Value)) (w : ℕ) (signed : Bool)
    (h : ∀ k < valueSize nb env.use4state, m' (o'.add k) = m (o.add k)) :
    readSlot env m' o' nb sel ds w signed = readSlot env m o nb sel ds w signed := by
  simp only [readSlot, Mem.readNativeValue_congr _ _ h]

theorem remapSelect_isSome (f : VarOffset → VarOffset) (ds : Option ProtoDynamicBitSelect) :
    (remapSelect f ds).isSome = ds.isSome := by
  cases ds <;> rfl

theorem readWidth_remapSelect (f : VarOffset → VarOffset) (sel : Option (ℕ × ℕ))
    (ds : Option ProtoDynamicBitSelect) (w full : ℕ) :
    readWidth sel (remapSelect f ds) w full = readWidth sel ds w full := by
  cases ds <;> rfl

@[simp] theorem accesses_resize (x : ProtoExpression) (w : ℕ) (s : Bool)
    (c : ExpressionContext) : (resize x w s c).accesses u = x.accesses u := rfl

@[simp] theorem accesses_variable (o : VarOffset) (sel : Option (ℕ × ℕ))
    (ds : Option ProtoDynamicBitSelect) (w full : ℕ) (c : ExpressionContext) :
    (ProtoExpression.variable o sel ds w full c).accesses u =
      ⟨o, 0, valueSize (nativeBytes (readWidth sel ds w full)) u⟩ ::
        (selectLeaves ds).flatMap (leafAccesses u) := rfl

@[simp] theorem accesses_value (v : Value) (w : ℕ) (c : ExpressionContext) :
    (value v w c).accesses u = [] := rfl

@[simp] theorem accesses_unary (op : Op) (x : ProtoExpression) (w : ℕ)
    (c : ExpressionContext) : (unary op x w c).accesses u = x.accesses u := rfl

@[simp] theorem accesses_binary (x : ProtoExpression) (op : Op) (y : ProtoExpression)
    (w : ℕ) (c : ExpressionContext) :
    (binary x op y w c).accesses u = x.accesses u ++ y.accesses u := by
  simp [accesses, leaves]

@[simp] theorem accesses_concatenation (es : List (ProtoExpression × ℕ × ℕ)) (w : ℕ)
    (c : ExpressionContext) :
    (concatenation es w c).accesses u = (elementLeaves es).flatMap (leafAccesses u) := rfl

@[simp] theorem accesses_ternary (a b d : ProtoExpression) (w : ℕ) (c : ExpressionContext) :
    (ternary a b d w c).accesses u = a.accesses u ++ (b.accesses u ++ d.accesses u) := by
  simp [accesses, leaves]

@[simp] theorem accesses_dynamicVariable (o : VarOffset) (stride : ℤ) (nb : ℕ)
    (i : ProtoExpression) (n : ℕ) (sel : Option (ℕ × ℕ)) (ds : Option ProtoDynamicBitSelect)
    (w : ℕ) (c : ExpressionContext) :
    (dynamicVariable o stride nb i n sel ds w c).accesses u =
      i.accesses u ++ ((selectLeaves ds).flatMap (leafAccesses u) ++
        stridedAccesses o stride n (valueSize nb u)) := by
  simp [accesses, leaves, leafAccesses]

theorem agree_of_mem_select {u : Bool}
    (h : Agree f m m' ((selectLeaves ds).flatMap (leafAccesses u))) :
    ∀ d ∈ ds, Agree f m m' (d.2.accesses u) := by
  rintro d rfl
  simpa [selectLeaves, accesses] using h

theorem agree_of_mem_elements {u : Bool}
    (h : Agree f m m' ((elementLeaves es).flatMap (leafAccesses u))) :
    ∀ e ∈ es, Agree f m m' (e.1.accesses u) := by
  induction es with
  | nil => simp
  | cons e es ih =>
    simp only [elementLeaves, flatMap_append, agree_append] at h
    rintro e' he'
    rcases mem_cons.1 he' with rfl | he'
    · exact h.1
    · exact ih h.2 e' he'

theorem eval_remapOffsetsWith (e : ProtoExpression) (h : Agree f m m' (e.accesses env.use4state)) :
    (e.remapOffsetsWith f).eval env m' = e.eval env m := by
  induction e with
  | resize x w s c ih => simp [remapOffsetsWith, eval, ih (by simpa using h)]
  | var o sel ds w full c ih =>
    have hslot := h _ mem_cons_self
    have hds : ∀ d ∈ ds, (d.2.remapOffsetsWith f).eval env m' = d.2.eval env m :=
      fun d hd => ih d hd (agree_of_mem_select (h.subset (subset_cons_self _ _)) d hd)
    simp only [remapOffsetsWith, eval, readWidth_remapSelect, evalSelect_congr hds]
    exact readSlot_congr _ _ _ _ fun k hk => by simpa using hslot k hk
  | value v w c => rfl
  | unary op x w c ih => simp [remapOffsetsWith, eval, ih (by simpa using h)]
  | binary x op y w c ihx ihy =>
    simp only [accesses_binary, agree_append] at h
    simp [remapOffsetsWith, eval, ihx h.1, ihy h.2]
  | concatenation es w c ih =>
    have hes : ∀ e ∈ es, (e.1.remapOffsetsWith f).eval env m' = e.1.eval env m :=
      fun e he => ih e he (agree_of_mem_elements (by simpa using h) e he)
    simp [remapOffsetsWith, eval, evalElements_congr hes]
  | ternary a b d w c iha ihb ihd =>
    simp only [accesses_ternary, agree_append] at h
    simp [remapOffsetsWith, eval, iha h.1, ihb h.2.1, ihd h.2.2]
  | dynamicVariable o s nb i n sel ds w c ih ihs =>
    simp only [accesses_dynamicVariable, agree_append] at h
    obtain ⟨hi, hsel, helem⟩ := h
    have hds : ∀ d ∈ ds, (d.2.remapOffsetsWith f).eval env m' = d.2.eval env m :=
      fun d hd => ihs d hd (agree_of_mem_select hsel d hd)
    simp only [remapOffsetsWith, eval, ih hi, evalSelect_congr hds]
    cases (i.eval env m).toUsizeSaturating with
    | none => rfl
    | some index =>
      by_cases hlt : index < n
      · simp only [hlt, if_true]
        refine readSlot_congr _ _ _ _ fun k hk => ?_
        simpa using helem _ (mem_map.2 ⟨index, by simpa using hlt, rfl⟩) k hk
      · simp [hlt]

end ProtoExpression
end Veryl.Simulator
