import Veryl.Simulator.Statement
import Veryl.Analyzer.Operators.Eval

/-!
Selector tables. A chain of choices whose conditions all compare one selector with constants is
replaced by a table of the choices, packed into words and indexed by the selector.
-/

namespace Veryl.Simulator.LutCompress

open Veryl.Analyzer

def lutMaxTableBits : ℕ := 4096

def lutMinArms : ℕ := 8

def lutMaxLeaves : ℕ := 8

def lutMaxLeafNodes : ℕ := 16

mutual

/-- The size of an expression, a constant counting its words. -/
def exprNodes : ProtoExpression → ℕ
  | .value _ w _ => max ((w + 63) / 64) 1
  | .variable _ _ ds _ _ _ => 1 + selectNodes ds
  | .unary _ x _ _ => 1 + exprNodes x
  | .resize x _ _ _ => 1 + exprNodes x
  | .binary x _ y _ _ => 1 + exprNodes x + exprNodes y
  | .ternary a b d _ _ => 1 + exprNodes a + exprNodes b + exprNodes d
  | .concatenation es _ _ => 1 + elementNodes es
  | .dynamicVariable _ _ _ i _ _ ds _ _ => 1 + exprNodes i + selectNodes ds
termination_by structural e => e

def selectNodes : Option ProtoDynamicBitSelect → ℕ
  | none => 0
  | some (_, e) => exprNodes e
termination_by structural ds => ds

def elementNodes : List (ProtoExpression × ℕ × ℕ) → ℕ
  | [] => 0
  | (e, _, _) :: es => exprNodes e + elementNodes es
termination_by structural es => es

end

def ctxOf (width : ℕ) : ExpressionContext := .ofWidth width

def lutConstU64 : ProtoExpression → Option ℕ
  | .value v _ _ => if v.isU64 ∧ v.maskXz = 0 then some v.payload else none
  | _ => none

/-- A condition on the selector: the bits of it that count, and what they must be. -/
structure LutCond where
  sel : ProtoExpression
  mask : ℕ
  value : ℕ

/-- The compare must see the selector bits unmodified. -/
def lutSelector (sel : ProtoExpression) (k : Value) (mask : ℕ) : Option LutCond :=
  if k.width < sel.width then none else some ⟨sel, mask, k.payload &&& mask⟩

/-- The comparison of an expression with a constant. -/
def lutCompare (x : ProtoExpression) (wild : Bool) (k : Value) : Option LutCond :=
  if k.signed ∨ k.maskXz ≠ 0 ∧ wild = false then none
  else
    let mask := ValueU64.genMask (min k.width 64) &&& ValueU64.not k.maskXz
    match x with
    | .binary ax .bitAnd ay _ _ => (lutConstU64 ay).bind fun m => lutSelector ax k (mask &&& m)
    | other => lutSelector other k mask

/-- Matches `sel == k`, `(sel & m) == k` or a wildcard form of these. -/
def lutCond : ProtoExpression → Option LutCond
  | .binary x op (.value k _ _) _ _ =>
    if k.isU64 then
      match op with
      | .eq => lutCompare x false k
      | .eqWildcard => lutCompare x true k
      | _ => none
    else none
  | _ => none

structure LutArm where
  mask : ℕ
  value : ℕ
  leaf : ℕ

/-- A chain: the arms in order and the last leaf name leaves by their number. -/
structure LutChain where
  sel : ProtoExpression
  arms : List LutArm
  default : ℕ
  leaves : List ProtoExpression

section Chain

-- the printed form of an expression, by which expressions are told apart
variable (debug : ProtoExpression → String)

/-- The number of a leaf, which is added when it is new. -/
def leafOf (leaves : List ProtoExpression) (e : ProtoExpression) :
    Option (List ProtoExpression × ℕ) :=
  match leaves.findIdx? fun l => debug l = debug e with
  | some i => some (leaves, i)
  | none =>
    if lutMaxLeaves ≤ leaves.length then none
    else if (lutConstU64 e).isNone ∧ lutMaxLeafNodes < exprNodes e then none
    else some (leaves ++ [e], leaves.length)

def chainFrom (sel : Option ProtoExpression) (arms : List LutArm)
    (leaves : List ProtoExpression) : ProtoExpression → Option LutChain
  | .ternary cond trueExpr falseExpr _ _ =>
    (lutCond cond).bind fun c =>
      (leafOf debug leaves trueExpr).bind fun l =>
        match sel with
        | none => chainFrom (some c.sel) (arms ++ [⟨c.mask, c.value, l.2⟩]) l.1 falseExpr
        | some s =>
          if debug c.sel = debug s then
            chainFrom (some s) (arms ++ [⟨c.mask, c.value, l.2⟩]) l.1 falseExpr
          else none
  | e =>
    (leafOf debug leaves e).bind fun l =>
      sel.bind fun s =>
        if arms.length < lutMinArms then none else some ⟨s, arms, l.2, l.1⟩

mutual

/-- A concatenation of one element wraps a chain without changing it. -/
def strip : ProtoExpression → Option ProtoExpression
  | .concatenation es _ _ => stripOne es
  | e => some e
termination_by structural e => e

def stripOne : List (ProtoExpression × ℕ × ℕ) → Option ProtoExpression
  | [] => none
  | (e, repeat_, _) :: es => if repeat_ = 1 ∧ es.isEmpty then strip e else none
termination_by structural es => es

end

def lutChain (e : ProtoExpression) (width : ℕ) : Option LutChain :=
  (strip e).bind fun e =>
    if 64 < width ∨ width ≠ 2 ^ width.log2 then none else chainFrom debug none [] [] e

end Chain

section Table

/-- The first arm that matches wins. -/
def LutChain.leafAt (chain : LutChain) (s : ℕ) : ℕ :=
  ((chain.arms.find? fun a => s &&& a.mask == a.value).map (·.leaf)).getD chain.default

def tableStep (ew : ℕ) (entry : ℕ → ℕ) (words : List ℕ) (s : ℕ) : List ℕ :=
  words.modify (s / (64 / ew)) fun w =>
    w ||| ((entry s &&& (2 ^ ew - 1)) <<< (s % (64 / ew) * ew))

/-- The entries of all selector values, packed. -/
def bakeTable (ew n : ℕ) (entry : ℕ → ℕ) : List ℕ :=
  (List.range n).foldl (tableStep ew entry) (List.replicate ((n + (64 / ew) - 1) / (64 / ew)) 0)

def val (v w : ℕ) : ProtoExpression := .value (.new v w false) w (ctxOf w)

def bin (x : ProtoExpression) (op : Op) (y : ProtoExpression) (w : ℕ) : ProtoExpression :=
  .binary x op y w (ctxOf w)

def selVar (off : ℤ) (w selw : ℕ) : ProtoExpression :=
  .variable (.comb off) none none w selw (ctxOf w)

/-- A balanced choice of a word by the upper bits of the selector. -/
def wordMux (words : List ℕ) (idx : ℕ → ProtoExpression) (lo hi : ℕ) : ProtoExpression :=
  if hi - lo ≤ 1 then val (words.getD lo 0) 64
  else
    let mid := lo + (hi - lo) / 2
    .ternary (idx mid) (wordMux words idx mid hi) (wordMux words idx lo mid) 64 (ctxOf 64)
termination_by hi - lo

/-- The entry of the selector value held at `off`. -/
def tableEntry (words : List ℕ) (ew : ℕ) (off : ℤ) (selw : ℕ) : ProtoExpression :=
  let perWord := 64 / ew
  let idx (mid : ℕ) : ProtoExpression :=
    bin (bin (selVar off selw selw) .logicShiftR (val perWord.log2 selw) selw) .greaterEq
      (val mid selw) 1
  let word := if words.length = 1 then val (words.getD 0 0) 64
    else wordMux words idx 0 words.length
  let shift :=
    if perWord = 1 then val 0 6
    else
      let within := bin (selVar off selw selw) .bitAnd (val (perWord - 1) selw) selw
      if ew = 1 then within else bin within .logicShiftL (val ew.log2 selw) 12
  bin (bin word .logicShiftR shift 64) .bitAnd (val (2 ^ ew - 1) ew) ew

/-- Chooses among the leaves by number, the default innermost. -/
def leafSelect (leaves : List ProtoExpression) (entry : ProtoExpression) (ew width default : ℕ)
    (out : ProtoExpression) : ProtoExpression :=
  leaves.zipIdx.foldl (fun out l =>
    if l.2 = default then out
    else .ternary (bin entry .eq (val l.2 ew) 1) l.1 out width (ctxOf width)) out

/-- The constants of a chain of narrow constants. -/
def directLeaves (leaves : List ProtoExpression) (width : ℕ) : Option (List ℕ) :=
  (leaves.mapM lutConstU64).filter fun vs => width ≤ 2 ∧ ∀ v ∈ vs, v < 2 ^ width

/-- The store that holds the selector ahead of the lookup. -/
def selTemp (sel : ProtoExpression) (off : ℤ) : ProtoAssignStatement where
  dst := .comb off
  dstWidth := sel.width
  select := none
  dynamicSelect := none
  rhsSelect := none
  expr := sel
  dstFfCurrentOffset := 0
  combDirect := false

def tryLutCompress (debug : ProtoExpression → String) (expr : ProtoExpression) (width : ℕ)
    (alloc : ℕ → ℤ) : Option (List ProtoAssignStatement × ProtoExpression) :=
  (lutChain debug expr width).bind fun chain =>
    let selw := chain.sel.width
    let direct := directLeaves chain.leaves width
    let ew := if direct.isSome then width else if chain.leaves.length ≤ 4 then 2 else 4
    if selw = 0 ∨ 12 < selw ∨ lutMaxTableBits < 2 ^ selw * ew then none
    else
      let off := alloc selw
      let entryOf (s : ℕ) : ℕ :=
        match direct with
        | some vs => vs.getD (chain.leafAt s) 0
        | none => chain.leafAt s
      let words := bakeTable ew (2 ^ selw) entryOf
      let entry := tableEntry words ew off selw
      match direct with
      | some _ => some ([selTemp chain.sel off], entry)
      | none =>
        let last := chain.leaves.getD chain.default entry
        some ([selTemp chain.sel off], leafSelect chain.leaves entry ew width chain.default last)

end Table

end Veryl.Simulator.LutCompress
