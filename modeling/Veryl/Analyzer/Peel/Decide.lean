import Veryl.Analyzer.Operators.Eval

/-!
Decisions at analysis time. The value of an expression over constants and known scalars is
computed in one native word, under rules that make the width and the sign of the recorded
contexts irrelevant; what the rules do not cover is left undecided.
-/

namespace Veryl.Analyzer.Peel

abbrev VarId := ℕ

inductive TypeKind where
  | bit | logic | enum | f32 | f64 | other
  deriving DecidableEq, Repr

def TypeKind.isFloat : TypeKind → Bool
  | .f32 | .f64 => true
  | _ => false

/-- A type; its width is none when it is not known. -/
structure TypeInfo where
  kind : TypeKind
  signed : Bool
  array : List (Option ℕ)
  totalWidth : Option ℕ
  deriving DecidableEq, Repr

structure ExpressionContext where
  width : ℕ
  signed : Bool
  deriving DecidableEq, Repr

/-- What the analyzer records at an expression. -/
structure Comptime where
  ty : TypeInfo
  exprContext : ExpressionContext
  isConst : Bool
  hasPartSelect : Bool
  value : Option Value
  deriving DecidableEq, Repr

/-- A leaf. The index and the select of a variable are only told apart from empty ones. -/
inductive Factor where
  | value (comptime : Comptime)
  | var (id : VarId) (indexed selected : Bool) (comptime : Comptime)
  | unknown (comptime : Comptime)
  | other (comptime : Comptime)

def Factor.comptime : Factor → Comptime
  | .value c | .var _ _ _ c | .unknown c | .other c => c

inductive Expression where
  | term (factor : Factor)
  | unary (op : Op) (x : Expression) (comptime : Comptime)
  | binary (x : Expression) (op : Op) (y : Expression) (comptime : Comptime)
  | concatenation (comptime : Comptime)
  | other (comptime : Comptime)

def Expression.comptime : Expression → Comptime
  | .term f => f.comptime
  | .unary _ _ c | .binary _ _ _ c | .concatenation c | .other c => c

inductive VarKind where
  | param | const | other
  deriving DecidableEq, Repr

structure Variable where
  kind : VarKind
  ty : TypeInfo
  value : List Value

/-- The variables as the analyzer holds them. -/
structure Context where
  vars : VarId → Option Variable

/-- The scalars with a known value. -/
abbrev KnownValues := VarId → Option ℕ

def mask (width : ℕ) : ℕ := if 64 ≤ width then 2 ^ 64 - 1 else 2 ^ width - 1

/-- Where an operand sits, which decides whether its sign can matter. -/
inductive Parent where
  /-- A whole expression or a self-determined operand. -/
  | root
  /-- An operand of a comparison. -/
  | compare
  /-- An operand of arithmetic, bitwise logic or a shift. -/
  | arith
  deriving DecidableEq, Repr

def integerType (x : Comptime) : Bool :=
  (x.ty.kind = .bit || x.ty.kind = .logic || x.ty.kind = .enum) && x.ty.array.isEmpty &&
    x.ty.totalWidth.any fun w => 1 ≤ w && w ≤ 64

/-- The value and the declared width of a constant. A value narrower than its type extends
by its own sign, so it is taken only where that cannot matter. -/
def constantLeaf (comptime : Comptime) (value : Value) : Option (ℕ × ℕ) := do
  let width ← comptime.ty.totalWidth
  if !integerType comptime || value.isXz || 64 < value.width then none
  else
    let signed := value.signed || comptime.ty.signed || comptime.exprContext.signed
    let negative := 0 < value.width && value.payload >>> (value.width - 1) ≠ 0
    if 0 < value.width && value.payload &&& (ValueU64.not (mask width)) = 0 &&
        !(signed && negative) then some (value.payload, width)
    else none

/-- A leaf's value and declared width: a literal, a scalar constant or a known scalar. -/
def leaf (context : Context) (env : KnownValues) : Factor → Option (ℕ × ℕ)
  | .value x => x.value.bind (constantLeaf x)
  | .var id false false x =>
    if x.hasPartSelect then none
    else
      match env id with
      | some value => do
        let width ← x.ty.totalWidth
        if integerType x then some (value, width) else none
      | none => do
        let var ← context.vars id
        if !x.isConst || !(var.kind = .param || var.kind = .const) || !var.ty.array.isEmpty then
          none
        else
          match var.value with
          | [value] => constantLeaf x value
          | _ => none
  | _ => none

def isKnown (env : KnownValues) : Expression → Bool
  | .term (.var id _ _ _) => (env id).isSome
  | _ => false

/-- The operators that compute a number of the width of their context. -/
def decideArith (op : Op) (x y : ℕ) : Option ℕ :=
  match op with
  | .add => some ((x + y) % 2 ^ 64)
  | .sub => some ((x + 2 ^ 64 - y) % 2 ^ 64)
  | .mul => some (x * y % 2 ^ 64)
  | .div => if y = 0 then none else some (x / y)
  | .rem => if y = 0 then none else some (x % y)
  | .bitAnd => some (x &&& y)
  | .bitOr => some (x ||| y)
  | .bitXor => some (x ^^^ y)
  | _ => none

def decideCompare (op : Op) (x y : ℕ) : Option Bool :=
  match op with
  | .eq => some (decide (x = y))
  | .ne => some (decide (x ≠ y))
  | .less => some (decide (x < y))
  | .lessEq => some (decide (x ≤ y))
  | .greater => some (decide (y < x))
  | .greaterEq => some (decide (y ≤ x))
  | _ => none

/-- The context and the type of an operator let it be decided. -/
def operable (c : Comptime) : Bool :=
  !(c.exprContext.width = 0 || 64 < c.exprContext.width || c.exprContext.signed || c.ty.signed ||
    !c.ty.totalWidth.any fun w => w ≠ 0 && w ≤ 64)

/-- The width a leaf is evaluated at; a whole expression folded at conversion carries no
context. -/
def leafWidth (ctx : ExpressionContext) (parent : Parent) (width : ℕ) : ℕ :=
  if ctx.width = 0 ∧ parent = .root then width else ctx.width

def decideLeaf (context : Context) (env : KnownValues) (x : Factor) (parent : Parent) :
    Option ℕ := do
  let (value, width) ← leaf context env x
  let ctx := x.comptime.exprContext
  let ctxWidth := leafWidth ctx parent width
  let signed := x.comptime.ty.signed || ctx.signed
  if ctxWidth < width || 64 < ctxWidth || (signed && value >>> (width - 1) ≠ 0) then none
  else if ctx.signed && parent = .arith then none
  else some value

def isTerm : Expression → Bool
  | .term _ => true
  | _ => false

def decideAt (context : Context) (env : KnownValues) : Expression → Parent → Option ℕ
  | .term x, parent => decideLeaf context env x parent
  | .unary op x c, _ =>
    if !operable c then none
    else
      match op with
      | .logicNot => do
        let x ← decideAt context env x .root
        some (decide (x = 0)).toNat
      | .bitNot => do
        let x ← decideAt context env x .arith
        some (ValueU64.not x &&& mask c.exprContext.width)
      | _ => none
  | .binary x op y c, _ =>
    if !operable c then none
    else
      let width := c.exprContext.width
      match op with
      | .logicAnd | .logicOr => do
        let x ← decideAt context env x .root
        let y ← decideAt context env y .root
        let both := if op = .logicAnd then decide (x ≠ 0) && decide (y ≠ 0)
          else decide (x ≠ 0) || decide (y ≠ 0)
        some (both.toNat &&& mask width)
      | .eq | .ne | .less | .lessEq | .greater | .greaterEq => do
        let x ← decideAt context env x .compare
        let y ← decideAt context env y .compare
        let result ← decideCompare op x y
        some (result.toNat &&& mask width)
      | .logicShiftL | .logicShiftR =>
        if !isTerm y || isKnown env y then none
        else do
          let amount ← decideAt context env y .root
          if width ≤ amount then none
          else
            let x ← decideAt context env x .arith
            let value := if op = .logicShiftL then (x <<< amount) % 2 ^ 64 else x >>> amount
            some (value &&& mask width)
      | .add | .sub | .mul | .div | .rem | .bitAnd | .bitOr | .bitXor => do
        let x ← decideAt context env x .arith
        let y ← decideAt context env y .arith
        let value ← decideArith op x y
        some (value &&& mask width)
      | _ => none
  | _, _ => none

/-- The value of an expression at the width its context evaluates it at, when it may be
decided. -/
def decideExpr (context : Context) (env : KnownValues) (e : Expression) : Option ℕ :=
  decideAt context env e .root

inductive CasePattern where
  | eq (x : Expression)
  | range (lo hi : Expression) (inclusive : Bool)

/-- A pattern of a case, which reads no known scalar. -/
def constantPattern (context : Context) (env : KnownValues) (x : Expression) : Option ℕ :=
  if !isTerm x || isKnown env x then none else decideExpr context env x

def patternHit (context : Context) (env : KnownValues) (target : ℕ) : CasePattern → Option Bool
  | .eq x => do
    let x ← constantPattern context env x
    some (decide (x = target))
  | .range lo hi inclusive => do
    let lo ← constantPattern context env lo
    let hi ← constantPattern context env hi
    some (decide (lo ≤ target) &&
      if inclusive then decide (target ≤ hi) else decide (target < hi))

/-- Whether some pattern is hit; the patterns before it have to be decided. -/
def armHit (context : Context) (env : KnownValues) (target : ℕ) : List CasePattern → Option Bool
  | [] => some false
  | pattern :: rest => do
    if ← patternHit context env target pattern then some true
    else armHit context env target rest

def firstArm (context : Context) (env : KnownValues) (target : ℕ) :
    List (List CasePattern) → ℕ → Option ℕ
  | [], i => some i
  | patterns :: arms, i => do
    if ← armHit context env target patterns then some i
    else firstArm context env target arms (i + 1)

/-- The index of the arm that a case takes, the number of arms for the default. -/
def evalCase (context : Context) (env : KnownValues) (target : Expression)
    (arms : List (List CasePattern)) : Option ℕ :=
  if target.comptime.ty.signed || !isTerm target then none
  else do
    let target ← decideExpr context env target
    firstArm context env target arms 0

/-- Values of at most 64 bits are kept in native words. -/
def native (width : ℕ) : Bool := decide (width ≤ 64)

/-- The values that evaluation reads: the whole variables, and whatever the expressions that
no decision covers evaluate to, also when one is given the context of another. -/
structure State where
  vars : VarId → Option Value
  factors : Factor → Option Value
  expressions : Expression → Option Value
  reevaluated : Expression → ExpressionContext → Option Value

def Factor.evalValue (s : State) : Factor → Option Value
  | .value x => x.value
  | .var id false false _ => s.vars id
  | f => s.factors f

def Expression.evalValue (s : State) : Expression → Option Value
  | .term f => f.evalValue s
  | .unary op x c =>
    if x.comptime.ty.kind.isFloat then s.expressions (.unary op x c)
    else do
      let v ← x.evalValue s
      Op.evalValueUnary native op v c.exprContext.width c.exprContext.signed
  | .binary x op y c =>
    if op = .as ∨ x.comptime.ty.kind.isFloat ∨ y.comptime.ty.kind.isFloat then
      s.expressions (.binary x op y c)
    else
      -- divisions and orders take their sign from the operands alone
      let signed :=
        if op ∈ [Op.div, .rem, .greater, .greaterEq, .less, .lessEq] then
          x.comptime.exprContext.signed && y.comptime.exprContext.signed
        else c.exprContext.signed
      do
        let v ← x.evalValue s
        let u ← y.evalValue s
        Op.evalValueBinary native op v u c.exprContext.width signed
  | e => s.expressions e

def unaryXSelfDetermined (op : Op) : Bool :=
  op ∈ [Op.bitAnd, .bitNand, .bitOr, .bitNor, .bitXor, .bitXnor, .logicNot]

def binaryXSelfDetermined (op : Op) : Bool := op ∈ [Op.logicAnd, .logicOr]

def binaryOpSelfDetermined (op : Op) : Bool :=
  op ∈ [Op.eq, .eqWildcard, .ne, .neWildcard, .greater, .greaterEq, .less, .lessEq]

/-- Whether an expression has a value of its own width whatever the context. -/
def Expression.isSelfDetermined : Expression → Bool
  | .term (.unknown _) => false
  | .term _ => true
  | .concatenation _ => true
  | .unary op _ _ => unaryXSelfDetermined op
  | .binary _ op _ _ => op = .as || binaryOpSelfDetermined op || binaryXSelfDetermined op
  | .other _ => false

/-- The target against an operand: evaluated again when its value depends on its context. -/
def CasePattern.targetValue (s : State) (target : Expression) (value : Value)
    (operand : Expression) : Option Value :=
  let pair := operand.comptime.exprContext
  let own := target.comptime.exprContext
  if (pair.width ≠ own.width || pair.signed ≠ own.signed) && !target.isSelfDetermined then
    s.reevaluated target pair
  else some value

/-- One comparison of a pattern, signed when both values are. -/
def CasePattern.test (s : State) (op : Op) (target : Expression) (value : Value)
    (operand : Expression) (targetFirst : Bool) : Option Bool := do
  let y ← operand.evalValue s
  let x ← CasePattern.targetValue s target value operand
  let (x, y) := if targetFirst then (x, y) else (y, x)
  let ret ← Op.evalValueBinary native op x y 1 (x.signed && y.signed)
  ret.truth native

/-- Whether a pattern matches the target, whose own value is given. -/
def CasePattern.matches' (s : State) (target : Expression) (value : Value) :
    CasePattern → Option Bool
  | .eq x => CasePattern.test s .eqWildcard target value x true
  | .range lo hi inclusive => do
    if ← CasePattern.test s .lessEq target value lo false then
      CasePattern.test s (if inclusive then .lessEq else .less) target value hi true
    else some false

/-- Whether some pattern of an arm matches, none when that is not known. -/
def armMatches (s : State) (target : Expression) (value : Value) (patterns : List CasePattern) :
    Option Bool :=
  if patterns.any fun p => p.matches' s target value = some true then some true
  else if patterns.any fun p => p.matches' s target value = none then none
  else some false

/-- The index of the first arm that matches, the number of arms for the default. -/
def takenArm (s : State) (target : Expression) (value : Value) :
    List (List CasePattern) → ℕ → Option ℕ
  | [], i => some i
  | patterns :: arms, i => do
    if ← armMatches s target value patterns then some i
    else takenArm s target value arms (i + 1)

end Veryl.Analyzer.Peel
