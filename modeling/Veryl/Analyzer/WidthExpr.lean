import Mathlib

/-!
Width expressions in the text of SystemVerilog. Brackets are written around a sum in a product,
and nowhere else.
-/

namespace Veryl.Analyzer

open List Option
abbrev StrId := ℕ

inductive WidthOp where
  | add | sub | mul | div | rem | pow
  deriving DecidableEq

variable {op : WidthOp}

inductive WidthExpr where
  | concrete (n : ℕ)
  | param (id : StrId)
  | binOp (lhs : WidthExpr) (op : WidthOp) (rhs : WidthExpr)
  deriving DecidableEq

namespace WidthExpr

/-- The words of a text; a blank stands on each side of an operator. -/
inductive Token where
  | num (n : ℕ)
  | name (id : StrId)
  | op (op : WidthOp)
  | lparen
  | rparen

def needsParens (op : WidthOp) : WidthExpr → Bool
  | binOp _ childOp _ => (childOp = .add ∨ childOp = .sub) ∧ (op = .mul ∨ op = .div ∨ op = .rem)
  | _ => false

def toSvExpr : WidthExpr → List Token
  | concrete n => [.num n]
  | param id => [.name id]
  | binOp lhs op rhs =>
    let lhsStr := if needsParens op lhs then .lparen :: lhs.toSvExpr ++ [.rparen] else lhs.toSvExpr
    let rhsStr := if needsParens op rhs then .lparen :: rhs.toSvExpr ++ [.rparen] else rhs.toSvExpr
    lhsStr ++ .op op :: rhsStr

/-- The bounds between the brackets of a range; the range of one bit is not written. -/
def toSvWidthString : WidthExpr → Option (List Token × List Token)
  | concrete 1 => none
  | e => some (e.toSvExpr ++ [.op .sub, .num 1], [.num 0])

/-- The operators in front of an operand that still wait for it, one for each precedence. -/
structure Frame where
  add : Option (WidthExpr × WidthOp)
  mul : Option (WidthExpr × WidthOp)
  pow : Option WidthExpr

namespace Frame

def empty : Frame := ⟨none, none, none⟩

def power (f : Frame) (x : WidthExpr) : WidthExpr :=
  match f.pow with
  | some base => binOp base .pow x
  | none => x

def product (f : Frame) (x : WidthExpr) : WidthExpr :=
  match f.mul with
  | some (lhs, op) => binOp lhs op (f.power x)
  | none => f.power x

def sum (f : Frame) (x : WidthExpr) : WidthExpr :=
  match f.add with
  | some (lhs, op) => binOp lhs op (f.product x)
  | none => f.product x

/-- An operator takes what binds at least as tightly on its left. -/
def operator (f : Frame) (x : WidthExpr) : WidthOp → Frame
  | .pow => { f with pow := some (f.power x) }
  | .mul => { f with mul := some (f.product x, .mul), pow := none }
  | .div => { f with mul := some (f.product x, .div), pow := none }
  | .rem => { f with mul := some (f.product x, .rem), pow := none }
  | .add => ⟨some (f.sum x, .add), none, none⟩
  | .sub => ⟨some (f.sum x, .sub), none, none⟩

end Frame

/-- The frames of the brackets around, the innermost frame and the operand after it. -/
structure Reader where
  outer : List Frame
  frame : Frame
  operand : Option WidthExpr

def Reader.step (r : Reader) : Token → Option Reader
  | .num n => if r.operand.isSome then none else some { r with operand := some (concrete n) }
  | .name id => if r.operand.isSome then none else some { r with operand := some (param id) }
  | .lparen => if r.operand.isSome then none else some ⟨r.frame :: r.outer, .empty, none⟩
  | .op op => r.operand.map fun x => { r with frame := r.frame.operator x op, operand := none }
  | .rparen =>
    match r.operand, r.outer with
    | some x, frame :: outer => some ⟨outer, frame, some (r.frame.sum x)⟩
    | _, _ => none

/-- Power binds tighter than the products and these tighter than the sums, all to the left. -/
def parse (text : List Token) : Option WidthExpr := do
  let r ← text.foldlM Reader.step ⟨[], .empty, none⟩
  if r.outer.isEmpty then r.operand.map r.frame.sum else none

/-- The numbers of an evaluation, with the operators that need not obey any law. -/
structure Meaning (R : Type) where
  ofNat : ℕ → R
  div : R → R → R
  rem : R → R → R
  pow : R → R → R

variable {R : Type} [CommRing R] (meaning : Meaning R) (values : StrId → R)

def apply : WidthOp → R → R → R
  | .add, a, b => a + b
  | .sub, a, b => a - b
  | .mul, a, b => a * b
  | .div, a, b => meaning.div a b
  | .rem, a, b => meaning.rem a b
  | .pow, a, b => meaning.pow a b

def eval : WidthExpr → R
  | concrete n => meaning.ofNat n
  | param id => values id
  | binOp lhs op rhs => apply meaning op lhs.eval rhs.eval

def isSum : WidthExpr → Bool
  | binOp _ op _ => op = .add ∨ op = .sub
  | _ => false

def isProduct : WidthExpr → Bool
  | binOp _ op _ => op = .mul ∨ op = .div ∨ op = .rem
  | _ => false

def isLeaf : WidthExpr → Bool
  | binOp _ _ _ => false
  | _ => true

/-- A product that may be read one factor after the other. -/
def timesOnly : WidthExpr → Bool
  | binOp lhs op _ => op = .mul ∧ lhs.timesOnly ∨ ¬(op = .mul ∨ op = .div ∨ op = .rem)
  | _ => true

/-- The trees without an operand that needs brackets which are not written. -/
def Bracketed : WidthExpr → Prop
  | binOp lhs op rhs => lhs.Bracketed ∧ rhs.Bracketed ∧
      match op with
      | .add => True
      | .sub => rhs.isSum = false
      | .mul => rhs.timesOnly
      | .div | .rem => rhs.isProduct = false
      | .pow => lhs.isSum = false ∧ lhs.isProduct = false ∧ rhs.isLeaf
  | _ => True

/-- An operand in the place of a waiting operator. -/
def plug (waiting : Option (WidthExpr × WidthOp)) (x : R) : R :=
  match waiting with
  | some (lhs, op) => apply meaning op (lhs.eval meaning values) x
  | none => x

/-- Reading a text leaves the outer frames alone. -/
def Reads (f : Frame) (text : List Token) (f' : Frame) (x : WidthExpr) : Prop :=
  ∀ outer, text.foldlM Reader.step ⟨outer, f, none⟩ = some ⟨outer, f', some x⟩

variable {meaning values} {f f' f₁ f₂ : Frame} {x x₁ x₂ e : WidthExpr} {text text' : List Token}

theorem Reads.binOp (h : Reads f text f₁ x₁)
    (h' : Reads (f₁.operator x₁ op) text' f₂ x₂) : Reads f (text ++ .op op :: text') f₂ x₂ := by
  intro outer
  rw [foldlM_append, h outer, bind_eq_bind, bind_some, foldlM_cons]
  exact h' outer

theorem Reads.brackets (h : Reads .empty text f' x) (f : Frame) :
    Reads f (Token.lparen :: text ++ [Token.rparen]) f (f'.sum x) := by
  intro outer
  change (text ++ [Token.rparen]).foldlM Reader.step ⟨f :: outer, .empty, none⟩ = _
  rw [foldlM_append, h (f :: outer)]
  rfl

theorem reads_leaf (h : e.isLeaf = true) (f : Frame) : Reads f e.toSvExpr f e := by
  cases e with
  | concrete n => exact fun _ => rfl
  | param id => exact fun _ => rfl
  | binOp => cases h

theorem eval_product (f : Frame) (x : WidthExpr) : (f.product x).eval meaning values =
    plug meaning values f.mul ((f.power x).eval meaning values) := by
  unfold Frame.product plug
  split <;> rfl

theorem eval_sum (f : Frame) (x : WidthExpr) : (f.sum x).eval meaning values =
    plug meaning values f.add ((f.product x).eval meaning values) := by
  unfold Frame.sum plug
  split <;> rfl

/-- What the operand and the waiting operators come to, at each precedence. -/
structure Powers (meaning : Meaning R) (values : StrId → R) (f f' : Frame) (x : WidthExpr)
    (value : R) : Prop where
  add : f'.add = f.add
  mul : f'.mul = f.mul
  eval : (f'.power x).eval meaning values = value

structure Products (meaning : Meaning R) (values : StrId → R) (f f' : Frame) (x : WidthExpr)
    (value : R) : Prop where
  add : f'.add = f.add
  eval : (f'.product x).eval meaning values = plug meaning values f.mul value

theorem Powers.products {value : R} (h : Powers meaning values f f' x value) :
    Products meaning values f f' x value :=
  ⟨h.add, by rw [eval_product, h.mul, h.eval]⟩

theorem Products.sums {value : R} (h : Products meaning values f f' x value) (hmul : f.mul = none) :
    (f'.sum x).eval meaning values = plug meaning values f.add value := by
  rw [eval_sum, h.add, h.eval, hmul]
  rfl

/-- A tree is read with its value where no operator waits that would take a part of it. -/
structure Survives (meaning : Meaning R) (values : StrId → R) (e : WidthExpr) : Prop where
  power : ∀ f : Frame, f.pow = none → e.isSum = false → e.isProduct = false →
    ∃ f' x, Reads f e.toSvExpr f' x ∧ Powers meaning values f f' x (e.eval meaning values)
  product : ∀ f : Frame, f.pow = none → e.isSum = false →
    (f.mul = none ∨ e.isProduct = false ∨ (∃ lhs, f.mul = some (lhs, .mul)) ∧ e.timesOnly) →
    ∃ f' x, Reads f e.toSvExpr f' x ∧ Products meaning values f f' x (e.eval meaning values)
  sum : ∀ f : Frame, f.pow = none → f.mul = none →
    (f.add = none ∨ e.isSum = false ∨ ∃ lhs, f.add = some (lhs, .add)) →
    ∃ f' x, Reads f e.toSvExpr f' x ∧
      (f'.sum x).eval meaning values = plug meaning values f.add (e.eval meaning values)

theorem Survives.ofProduct (hpower : ∀ f : Frame, f.pow = none → e.isProduct = false →
      ∃ f' x, Reads f e.toSvExpr f' x ∧ Powers meaning values f f' x (e.eval meaning values))
    (h : ∀ f : Frame, f.pow = none →
      (f.mul = none ∨ e.isProduct = false ∨ (∃ lhs, f.mul = some (lhs, .mul)) ∧ e.timesOnly) →
      ∃ f' x, Reads f e.toSvExpr f' x ∧ Products meaning values f f' x (e.eval meaning values)) :
    Survives meaning values e where
  power f hpow _ hp := hpower f hpow hp
  product f hpow _ := h f hpow
  sum f hpow hmul _ := by
    obtain ⟨f', x, hreads, hx⟩ := h f hpow (.inl hmul)
    exact ⟨f', x, hreads, hx.sums hmul⟩

theorem Survives.ofPower (h : ∀ f : Frame, f.pow = none → ∃ f' x, Reads f e.toSvExpr f' x ∧
      Powers meaning values f f' x (e.eval meaning values)) : Survives meaning values e :=
  .ofProduct (fun f hpow _ => h f hpow) fun f hpow _ => by
    obtain ⟨f', x, hreads, hx⟩ := h f hpow
    exact ⟨f', x, hreads, hx.products⟩

theorem toSvExpr_binOp {lhs rhs : WidthExpr} (hop : op = .add ∨ op = .sub ∨ op = .pow) :
    (binOp lhs op rhs).toSvExpr = lhs.toSvExpr ++ .op op :: rhs.toSvExpr := by
  have hparens (e : WidthExpr) : needsParens op e = false := by
    rcases hop with rfl | rfl | rfl <;> cases e <;> simp [needsParens]
  rw [toSvExpr, hparens, hparens, if_neg Bool.false_ne_true, if_neg Bool.false_ne_true]

theorem survives_leaf (h : e.isLeaf = true) : Survives meaning values e := by
  refine .ofPower fun f hpow => ⟨f, e, reads_leaf h f, rfl, rfl, ?_⟩
  rw [Frame.power, hpow]

theorem Survives.factor (h : Survives meaning values e)
    (hop : op = .mul ∨ op = .div ∨ op = .rem) (f : Frame) (hpow : f.pow = none)
    (hctx : f.mul = none ∨ e.isProduct = false ∨ (∃ lhs, f.mul = some (lhs, .mul)) ∧ e.timesOnly) :
    ∃ f' x, Reads f (if needsParens op e then .lparen :: e.toSvExpr ++ [.rparen] else e.toSvExpr)
      f' x ∧ Products meaning values f f' x (e.eval meaning values) := by
  have hparens : needsParens op e = e.isSum := by
    cases e with
    | binOp lhs childOp rhs => simp [needsParens, isSum, hop]
    | concrete n => rfl
    | param id => rfl
  rw [hparens]
  cases hs : e.isSum with
  | false => exact h.product f hpow hs hctx
  | true =>
    obtain ⟨f', x, hreads, hx⟩ := h.sum .empty rfl rfl (.inl rfl)
    refine ⟨f, f'.sum x, hreads.brackets f, rfl, ?_⟩
    rw [eval_product, Frame.power, hpow]
    exact congrArg _ hx

theorem survives_product {lhs rhs : WidthExpr}
    (hop : op = .mul ∨ op = .div ∨ op = .rem) (hl : Survives meaning values lhs)
    (hr : Survives meaning values rhs)
    (hctx : rhs.isProduct = false ∨ op = .mul ∧ rhs.timesOnly) :
    Survives meaning values (binOp lhs op rhs) := by
  have hp : (binOp lhs op rhs).isProduct = true := decide_eq_true hop
  refine .ofProduct (fun f _ h => absurd (h.symm.trans hp) Bool.false_ne_true) fun f hpow hf => ?_
  have htimes : (binOp lhs op rhs).timesOnly = true → op = .mul ∧ lhs.timesOnly = true := by
    intro h
    simpa [timesOnly, hop] using h
  obtain ⟨f₁, x₁, hreads₁, h₁⟩ := hl.factor hop f hpow (by
    rcases hf with h | h | ⟨h, h'⟩
    · exact .inl h
    · exact absurd (h.symm.trans hp) Bool.false_ne_true
    · exact .inr (.inr ⟨h, (htimes h').2⟩))
  have hop₁ : f₁.operator x₁ op = { f₁ with mul := some (f₁.product x₁, op), pow := none } := by
    rcases hop with rfl | rfl | rfl <;> rfl
  obtain ⟨f₂, x₂, hreads₂, h₂⟩ := hr.factor hop (f₁.operator x₁ op) (by rw [hop₁]) (by
    rcases hctx with h | ⟨rfl, h⟩
    · exact .inr (.inl h)
    · exact .inr (.inr ⟨⟨_, rfl⟩, h⟩))
  refine ⟨f₂, x₂, hreads₁.binOp hreads₂, h₂.add.trans (by rw [hop₁, h₁.add]), ?_⟩
  rw [h₂.eval, hop₁]
  change apply meaning op ((f₁.product x₁).eval meaning values) _ = plug meaning values f.mul
    (apply meaning op (lhs.eval meaning values) (rhs.eval meaning values))
  rw [h₁.eval]
  rcases hf with h | h | ⟨⟨m, h⟩, h'⟩
  · rw [h]
    rfl
  · exact absurd (h.symm.trans hp) Bool.false_ne_true
  · obtain ⟨rfl, -⟩ := htimes h'
    rw [h]
    exact mul_assoc _ _ _

theorem survives_sum {lhs rhs : WidthExpr} (hop : op = .add ∨ op = .sub)
    (hl : Survives meaning values lhs) (hr : Survives meaning values rhs)
    (hctx : op = .add ∨ rhs.isSum = false) : Survives meaning values (binOp lhs op rhs) := by
  have hs : (binOp lhs op rhs).isSum = true := decide_eq_true hop
  refine ⟨fun f _ h => absurd (h.symm.trans hs) Bool.false_ne_true,
    fun f _ h => absurd (h.symm.trans hs) Bool.false_ne_true,
    fun f hpow hmul hf => ?_⟩
  have hf : f.add = none ∨ ∃ lhs, f.add = some (lhs, .add) := by simpa [hs] using hf
  obtain ⟨f₁, x₁, hreads₁, h₁⟩ := hl.sum f hpow hmul (hf.imp_right .inr)
  have hop₁ : f₁.operator x₁ op = ⟨some (f₁.sum x₁, op), none, none⟩ := by
    rcases hop with rfl | rfl <;> rfl
  obtain ⟨f₂, x₂, hreads₂, h₂⟩ := hr.sum (f₁.operator x₁ op) (by rw [hop₁]) (by rw [hop₁]) (by
    rcases hctx with rfl | h
    · exact .inr (.inr ⟨_, rfl⟩)
    · exact .inr (.inl h))
  refine ⟨f₂, x₂, toSvExpr_binOp (hop.imp_right .inl) ▸ hreads₁.binOp hreads₂, ?_⟩
  rw [h₂, hop₁]
  change apply meaning op ((f₁.sum x₁).eval meaning values) _ = plug meaning values f.add
    (apply meaning op (lhs.eval meaning values) (rhs.eval meaning values))
  rw [h₁]
  rcases hf with h | ⟨a, h⟩
  · rw [h]
    rfl
  · rw [h]
    rcases hop with rfl | rfl
    · exact add_assoc _ _ _
    · exact add_sub_assoc _ _ _

theorem survives_power {lhs rhs : WidthExpr} (hl : Survives meaning values lhs)
    (hs : lhs.isSum = false) (hp : lhs.isProduct = false) (hr : rhs.isLeaf = true) :
    Survives meaning values (binOp lhs .pow rhs) := by
  refine .ofPower fun f hpow => ?_
  obtain ⟨f₁, x₁, hreads₁, h₁⟩ := hl.power f hpow hs hp
  refine ⟨f₁.operator x₁ .pow, rhs,
    toSvExpr_binOp (.inr (.inr rfl)) ▸ hreads₁.binOp (reads_leaf hr _), h₁.add, h₁.mul, ?_⟩
  exact congrArg (fun base => meaning.pow base (rhs.eval meaning values)) h₁.eval

theorem survives (he : e.Bracketed) : Survives meaning values e := by
  induction e with
  | concrete n => exact survives_leaf rfl
  | param id => exact survives_leaf rfl
  | binOp lhs op rhs ihl ihr =>
    obtain ⟨hl, hr, hop⟩ := he
    cases op with
    | add => exact survives_sum (.inl rfl) (ihl hl) (ihr hr) (.inl rfl)
    | sub => exact survives_sum (.inr rfl) (ihl hl) (ihr hr) (.inr hop)
    | mul => exact survives_product (.inl rfl) (ihl hl) (ihr hr) (.inr ⟨rfl, hop⟩)
    | div => exact survives_product (.inr (.inl rfl)) (ihl hl) (ihr hr) (.inl hop)
    | rem => exact survives_product (.inr (.inr rfl)) (ihl hl) (ihr hr) (.inl hop)
    | pow => exact survives_power (ihl hl) hop.1 hop.2.1 hop.2.2

/-- The text of a tree that needs no other brackets is read as a tree of the same value, in every
commutative ring and for every division, remainder and power; the upper bound of its range is
read as that value less one. -/
theorem eval_parse (he : e.Bracketed) :
    (∃ x, parse e.toSvExpr = some x ∧ ∀ (R : Type) [CommRing R] (meaning : Meaning R) values,
      x.eval meaning values = e.eval meaning values) ∧
    ∀ high low, e.toSvWidthString = some (high, low) → low = [.num 0] ∧
      ∃ x, parse high = some x ∧ ∀ (R : Type) [CommRing R] (meaning : Meaning R) values,
        x.eval meaning values = e.eval meaning values - meaning.ofNat 1 := by
  have hread {e : WidthExpr} (he : e.Bracketed) : ∃ x, parse e.toSvExpr = some x ∧
      ∀ (R : Type) [CommRing R] (meaning : Meaning R) values,
        x.eval meaning values = e.eval meaning values := by
    have hsome (R : Type) [CommRing R] (meaning : Meaning R) (values : StrId → R) :
        ∃ x, parse e.toSvExpr = some x ∧ x.eval meaning values = e.eval meaning values := by
      obtain ⟨f', x, hreads, hx⟩ := (@survives R _ meaning values e he).sum .empty rfl rfl (.inl rfl)
      refine ⟨f'.sum x, ?_, hx⟩
      rw [parse, hreads []]
      rfl
    obtain ⟨x, hparse, -⟩ := hsome ℤ ⟨fun n => n, fun a _ => a, fun a _ => a, fun a _ => a⟩ 0
    refine ⟨x, hparse, fun R _ meaning values => ?_⟩
    obtain ⟨y, hy, heval⟩ := hsome R meaning values
    obtain rfl := some.inj (hparse.symm.trans hy)
    exact heval
  refine ⟨hread he, fun high low h => ?_⟩
  have hbounds : e.toSvExpr ++ [.op .sub, .num 1] = high ∧ [.num 0] = low := by
    unfold toSvWidthString at h
    split at h
    · cases h
    · exact Prod.mk.inj (some.inj h)
  obtain ⟨x, hparse, heval⟩ := @hread (binOp e .sub (concrete 1)) ⟨he, trivial, rfl⟩
  rw [toSvExpr_binOp (.inr (.inl rfl))] at hparse
  exact ⟨hbounds.2.symm, x, hbounds.1 ▸ hparse, heval⟩

/-- `(A + 2) * (B - 1) - 2 ** N`. -/
def bankWidth : WidthExpr :=
  binOp (binOp (binOp (param 0) .add (concrete 2)) .mul (binOp (param 1) .sub (concrete 1))) .sub
    (binOp (concrete 2) .pow (param 2))

theorem eval_parse_bankWidth :
    bankWidth.toSvExpr = [.lparen, .name 0, .op .add, .num 2, .rparen, .op .mul, .lparen, .name 1,
        .op .sub, .num 1, .rparen, .op .sub, .num 2, .op .pow, .name 2] ∧
    (∃ x, parse bankWidth.toSvExpr = some x ∧ ∀ (R : Type) [CommRing R] (meaning : Meaning R)
      values, x.eval meaning values = bankWidth.eval meaning values) ∧
    ∀ high low, bankWidth.toSvWidthString = some (high, low) → low = [.num 0] ∧
      ∃ x, parse high = some x ∧ ∀ (R : Type) [CommRing R] (meaning : Meaning R) values,
        x.eval meaning values = bankWidth.eval meaning values - meaning.ofNat 1 :=
  ⟨rfl, eval_parse ⟨⟨⟨trivial, trivial, trivial⟩, ⟨trivial, trivial, rfl⟩, rfl⟩,
    ⟨trivial, trivial, rfl, rfl, rfl⟩, rfl⟩⟩

/-- `W - (A - B)` is written `W - A - B`. -/
theorem parse_sub_sub :
    ∃ x, parse (binOp (param 0) .sub (binOp (param 1) .sub (param 2))).toSvExpr = some x ∧
      ∀ meaning : Meaning ℤ, x.eval meaning (fun id => id) = -3 ∧
        (binOp (param 0) .sub (binOp (param 1) .sub (param 2))).eval meaning (fun id => id) = 1 :=
  ⟨binOp (binOp (param 0) .sub (param 1)) .sub (param 2), rfl, fun _ => ⟨rfl, rfl⟩⟩

end WidthExpr

end Veryl.Analyzer
