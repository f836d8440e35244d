import Veryl.Analyzer.Peel.DecideValues

/-!
Decisions are sound: a decided expression evaluates to the decided number, and a decided
case takes the decided arm, in every state that agrees with the known scalars.
-/

namespace Veryl.Analyzer.Peel

open Nat

variable {v u : Value} {k : ExpressionContext} {env : KnownValues} {context : Context} {width : ℕ}
  {parent : Parent} {d : ℕ} {s : State} {x : Comptime} {f : Factor} {r : Value}

/-- A constant as it is stored: no bit beyond its width, and no wider than its type when it
is signed. -/
structure Stored (ty : TypeInfo) (value : Value) : Prop where
  payload_lt : value.payload < 2 ^ value.width
  narrow : value.signed = true → ∀ w ∈ ty.totalWidth, value.width ≤ w

/-- A literal is stored at its type, and a variable is read at its declared type. -/
def Factor.Recorded (context : Context) : Factor → Prop
  | .value x => ∀ v ∈ x.value, Stored x.ty v
  | .var id false false x => x.hasPartSelect = false → ∀ var ∈ context.vars id,
      x.ty.signed = var.ty.signed ∧ x.ty.totalWidth = var.ty.totalWidth ∧
        ∀ v ∈ var.value, Stored x.ty v
  | _ => True

/-- An operand has been given a context; a function call may keep its own sign. -/
def Expression.HasContext (k : ExpressionContext) : Expression → Prop
  | .term (.other _) => True
  | e => e.comptime.exprContext = k

/-- The contexts that an operator passes to its operands: its own for arithmetic, bitwise
logic and the shifted number, a common one for comparisons. -/
def OperandContexts (op : Op) (x y : Expression) (k : ExpressionContext) : Prop :=
  match op with
  | .add | .sub | .mul | .div | .rem | .bitAnd | .bitOr | .bitXor =>
    x.HasContext k ∧ y.HasContext k
  | .logicShiftL | .logicShiftR => x.HasContext k
  | .eq | .ne | .less | .lessEq | .greater | .greaterEq => ∃ k', x.HasContext k' ∧ y.HasContext k'
  | _ => True

/-- An expression with the contexts and the types that the analyzer records. -/
def Expression.Recorded (context : Context) : Expression → Prop
  | .term f => f.Recorded context
  | .unary op x c => x.Recorded context ∧
      (x.comptime.ty.kind.isFloat = false → c.ty.kind.isFloat = false) ∧
      (op = .bitNot → x.HasContext c.exprContext)
  | .binary x op y c => x.Recorded context ∧ y.Recorded context ∧
      (x.comptime.ty.kind.isFloat = false → y.comptime.ty.kind.isFloat = false →
        c.ty.kind.isFloat = false) ∧
      OperandContexts op x y c.exprContext
  | _ => True

/-- A state agrees with the known scalars, which hold values of their types, and with the
constants. -/
structure Agrees (context : Context) (env : KnownValues) (s : State) : Prop where
  known : ∀ id d, env id = some d → ∃ var v, context.vars id = some var ∧ s.vars id = some v ∧
    v.payload = d ∧ v.maskXz = 0 ∧ v.payload < 2 ^ v.width ∧
    var.ty.totalWidth = some v.width ∧ v.signed = var.ty.signed
  constants : ∀ id var v, env id = none → context.vars id = some var →
    (var.kind = .param ∨ var.kind = .const) → var.value = [v] → v.isXz = false →
    s.vars id = some v

/-- A leaf's value in a state, with the width of its type. -/
structure Leaf (comptime : Comptime) (v : Value) (d w : ℕ) : Prop where
  known : Known v d
  width : comptime.ty.totalWidth = some w
  pos : 0 < w
  le : w ≤ 64
  lt : d < 2 ^ w
  notFloat : comptime.ty.kind.isFloat = false
  narrow : v.signed = true → v.width ≤ w
  sign : v.signed = true ∨ comptime.exprContext.signed = true →
    ((comptime.ty.signed || comptime.exprContext.signed) = true → d < 2 ^ (w - 1)) →
    d < 2 ^ (v.width - 1)

theorem lt_of_shiftRight {n : ℕ} (h : d >>> n = 0) : d < 2 ^ n := by
  rw [shiftRight_eq_div_pow, Nat.div_eq_zero_iff] at h
  exact h.resolve_left (Nat.two_pow_pos n).ne'

theorem lt_of_and_not_mask {p : ℕ} (hle : width ≤ 64) (hword : p < 2 ^ 64)
    (h : p &&& ValueU64.not (mask width) = 0) : p < 2 ^ width := by
  refine lt_pow_two_of_testBit p fun i hi => ?_
  by_cases hlow : i < 64
  · have hbit := congrArg (Nat.testBit · i) h
    simpa [ValueU64.testBit_not, hlow, mask_eq hle, show ¬ i < width by omega] using hbit
  · exact testBit_of_le hword (by omega)

theorem integerType_spec (h : integerType x = true) :
    x.ty.kind.isFloat = false ∧ ∀ w, x.ty.totalWidth = some w → 0 < w ∧ w ≤ 64 := by
  simp only [integerType, Bool.and_eq_true, Bool.or_eq_true, decide_eq_true_eq] at h
  obtain ⟨⟨hkind, -⟩, hwidth⟩ := h
  constructor
  · rcases hkind with (hk | hk) | hk <;> rw [hk] <;> rfl
  · intro w hw
    rw [hw] at hwidth
    simpa [Nat.pos_iff_ne_zero, one_le_iff_ne_zero] using hwidth

theorem constantLeaf_spec {w : ℕ} (h : constantLeaf x v = some (d, w))
    (hstored : Stored x.ty v) : Leaf x v d w := by
  simp only [constantLeaf, Option.bind_eq_bind, Option.bind_eq_some_iff] at h
  obtain ⟨w', hw, h⟩ := h
  split at h
  · cases h
  next hok =>
  simp only [Bool.or_eq_true, Bool.not_eq_true', decide_eq_true_eq, not_or,
    Bool.not_eq_false, Bool.not_eq_true, Nat.not_lt] at hok
  obtain ⟨⟨hint, hxz⟩, hwide⟩ := hok
  split at h
  · next hfit =>
    obtain ⟨rfl, rfl⟩ := Prod.mk.inj (Option.some.inj h)
    simp only [Bool.and_eq_true, decide_eq_true_eq] at hfit
    obtain ⟨⟨hpos, hand⟩, hsign⟩ := hfit
    obtain ⟨hfloat, hwidth⟩ := integerType_spec hint
    obtain ⟨hwpos, hwle⟩ := hwidth w' hw
    have hknown : Known v v.payload :=
      ⟨rfl, by simpa [Value.isXz] using hxz, hpos, hwide, hstored.payload_lt⟩
    refine ⟨hknown, hw, hwpos, hwle, lt_of_and_not_mask hwle hknown.word hand, hfloat,
      fun hs => hstored.narrow hs w' hw, fun hs _ => ?_⟩
    have hany : (v.signed || x.ty.signed || x.exprContext.signed) = true := by
      rcases hs with hs | hs <;> simp [hs]
    rw [hany] at hsign
    exact lt_of_shiftRight (by simpa [hpos] using hsign)
  · cases h

theorem leaf_spec {w : ℕ} (hagree : Agrees context env s) (hrec : f.Recorded context)
    (h : leaf context env f = some (d, w)) :
    ∃ v, f.evalValue s = some v ∧ Leaf f.comptime v d w := by
  cases f with
  | value x =>
    obtain ⟨v, hv, hleaf⟩ := Option.bind_eq_some_iff.1 h
    exact ⟨v, hv, constantLeaf_spec hleaf (hrec v hv)⟩
  | unknown x => simp [leaf] at h
  | other x => simp [leaf] at h
  | var id indexed selected x =>
    cases indexed with
    | true => simp [leaf] at h
    | false =>
      cases selected with
      | true => simp [leaf] at h
      | false =>
        simp only [leaf] at h
        split at h
        · cases h
        next hpart =>
        replace hrec := hrec (by simpa using hpart)
        cases henv : env id with
        | some value =>
          simp only [henv, Option.bind_eq_bind, Option.bind_eq_some_iff] at h
          obtain ⟨w', hw, h⟩ := h
          split at h
          · next hint =>
            obtain ⟨rfl, rfl⟩ := Prod.mk.inj (Option.some.inj h)
            obtain ⟨hfloat, hwidth⟩ := integerType_spec hint
            obtain ⟨hwpos, hwle⟩ := hwidth w' hw
            obtain ⟨var, v, hvar, hv, hpay, hxz, hlt, htotal, hsigned⟩ :=
              hagree.known id value henv
            obtain ⟨hs, hwidth', -⟩ := hrec var hvar
            obtain rfl : w' = v.width := by
              rw [hw, htotal] at hwidth'
              exact Option.some.inj hwidth'
            refine ⟨v, hv, ⟨hpay, hxz, hwpos, hwle, hpay ▸ hlt⟩, hw, hwpos, hwle, hpay ▸ hlt,
              hfloat, fun _ => le_rfl, fun hany hlow => hlow ?_⟩
            rcases hany with hany | hany
            · rw [show (Factor.var id false false x).comptime = x from rfl, hs, ← hsigned, hany,
                Bool.true_or]
            · rw [hany, Bool.or_true]
          · cases h
        | none =>
          simp only [henv, Option.bind_eq_bind, Option.bind_eq_some_iff] at h
          obtain ⟨var, hvar, h⟩ := h
          split at h
          · cases h
          next hok =>
          simp only [Bool.or_eq_true, Bool.not_eq_true', not_or, Bool.not_eq_false,
            Bool.or_eq_false_iff, decide_eq_false_iff_not] at hok
          split at h
          · next v hvalue =>
            obtain ⟨-, -, hstored⟩ := hrec var hvar
            have hleaf := constantLeaf_spec h (hstored v (by rw [hvalue]; simp))
            refine ⟨v, hagree.constants id var v henv hvar ?_ hvalue hleaf.known.isXz, hleaf⟩
            tauto
          · cases h

/-- The value of a decided operand in its context. Only a leaf or the complement of one may
still be flagged as signed, and then no operator extends it by a set sign bit. -/
structure Sound (k : ExpressionContext) (parent : Parent) (v : Value) (d : ℕ) : Prop where
  known : Known v d
  lt : parent ≠ .root → d < 2 ^ k.width
  narrow : v.signed = true → parent ≠ .root → v.width ≤ k.width
  flagged : v.signed = true → d < 2 ^ (v.width - 1) ∨ v.width = k.width
  sign : k.signed = true → d < 2 ^ (v.width - 1)
  arith : parent = .arith → k.signed = false

theorem sound_of_unsigned
    (hv : Known v d) (hsigned : v.signed = false) (hk : k.signed = false) (hlt : d < 2 ^ k.width) :
    Sound k parent v d where
  known := hv
  lt _ := hlt
  narrow h := absurd h (by simp [hsigned])
  flagged h := absurd h (by simp [hsigned])
  sign h := absurd h (by simp [hk])
  arith _ := hk

theorem decideLeaf_sound (hagree : Agrees context env s) (hrec : f.Recorded context)
    (h : decideLeaf context env f parent = some d) :
    f.comptime.ty.kind.isFloat = false ∧
      ∃ v, f.evalValue s = some v ∧ Sound f.comptime.exprContext parent v d ∧
        (v.signed = true → d < 2 ^ (v.width - 1)) := by
  simp only [decideLeaf, Option.bind_eq_bind, Option.bind_eq_some_iff] at h
  obtain ⟨⟨value, w⟩, hleaf, h⟩ := h
  obtain ⟨v, hv, hl⟩ := leaf_spec hagree hrec hleaf
  split at h
  · cases h
  next hfit =>
  split at h
  · cases h
  next harith =>
  obtain rfl := Option.some.inj h
  simp only [Bool.or_eq_true, Bool.and_eq_true, decide_eq_true_eq, not_or, not_and,
    Nat.not_lt] at hfit harith
  obtain ⟨⟨hwide, -⟩, hmsb⟩ := hfit
  have hcontext : parent ≠ .root → w ≤ f.comptime.exprContext.width := by
    intro hroot
    rwa [leafWidth, if_neg (fun hboth => hroot hboth.2)] at hwide
  have hlow : (f.comptime.ty.signed || f.comptime.exprContext.signed) = true →
      value < 2 ^ (w - 1) := by
    intro hsigned
    rw [Bool.or_eq_true] at hsigned
    exact lt_of_shiftRight (by simpa using hmsb hsigned)
  have hflagged : v.signed = true → value < 2 ^ (v.width - 1) :=
    fun hs => hl.sign (.inl hs) hlow
  refine ⟨hl.notFloat, v, hv, ⟨hl.known, fun hroot => ?_, fun hs hroot => ?_,
    fun hs => .inl (hflagged hs), fun hs => hl.sign (.inr hs) hlow, fun hp => ?_⟩, hflagged⟩
  · exact hl.lt.trans_le (Nat.pow_le_pow_right (by omega) (hcontext hroot))
  · exact (hl.narrow hs).trans (hcontext hroot)
  · by_contra hsigned
    exact harith (by simpa using hsigned) hp

theorem operable_spec {c : Comptime} (h : operable c = true) :
    0 < c.exprContext.width ∧ c.exprContext.width ≤ 64 ∧ c.exprContext.signed = false := by
  simp only [operable, Bool.not_eq_true', Bool.or_eq_false_iff, decide_eq_false_iff_not,
    Nat.not_lt] at h
  obtain ⟨⟨⟨⟨hpos, hle⟩, hsigned⟩, -⟩, -⟩ := h
  exact ⟨by omega, hle, hsigned⟩

theorem hasContext_eq {e : Expression} (h : decideAt context env e parent = some d)
    (hk : e.HasContext k) : e.comptime.exprContext = k := by
  cases e with
  | term f =>
    cases f with
    | unknown c => exact hk
    | other c => simp [decideAt, decideLeaf, leaf] at h
    | value c => exact hk
    | var id indexed selected c => exact hk
  | unary op x c => exact hk
  | binary x op y c => exact hk
  | concatenation c => exact hk
  | other c => exact hk

theorem toNat_and_mask (hpos : 0 < width) (hle : width ≤ 64) (b : Bool) :
    b.toNat &&& mask width = b.toNat := by
  rw [and_mask hle]
  refine mod_eq_of_lt ((?_ : b.toNat < 2).trans_le ?_)
  · cases b <;> decide
  · exact Nat.le_self_pow (by omega) 2

theorem toNat_lt (hpos : 0 < width) (b : Bool) : b.toNat < 2 ^ width := by
  refine (?_ : b.toNat < 2).trans_le (Nat.le_self_pow (by omega) 2)
  cases b <;> decide

theorem and_mask_lt (hle : width ≤ 64) (p : ℕ) : p &&& mask width < 2 ^ width := by
  rw [and_mask hle]
  exact mod_lt _ (Nat.two_pow_pos width)

theorem comparison_known {c : ℕ} {op : Op} {b : Bool}
    (hv : Sound k .compare v d) (hu : Sound k .compare u c) (hle : width ≤ 64)
    (h : decideCompare op d c = some b) :
    ∃ r, Op.evalValueBinary native op v u width
        (if op ∈ [Op.div, .rem, .greater, .greaterEq, .less, .lessEq] then k.signed && k.signed
          else false) = some r ∧ Known r b.toNat ∧ r.signed = false := by
  have hequal : ∀ negated, ∃ r, Op.evalEqual native v u width false negated = some r ∧
      Known r (decide (d = c) != negated).toNat ∧ r.signed = false := by
    intro negated
    refine equal_known hv.known hu.known hle (fun hs hs' hlt => ?_) (fun hs hs' hlt => ?_) false
      negated
    · have hn := hu.narrow hs' (by decide)
      exact (hv.flagged hs).resolve_right (by omega)
    · have hn := hv.narrow hs (by decide)
      exact (hu.flagged hs').resolve_right (by omega)
  have horder : ∀ greater inclusive, ∃ r,
      Op.evalCompare native v u width (k.signed && k.signed) greater inclusive = some r ∧
        Known r (inOrder greater inclusive d c).toNat ∧ r.signed = false := by
    intro greater inclusive
    rw [Bool.and_self]
    exact compare_known hv.known hu.known hle hv.sign hu.sign greater inclusive
  cases op with
  | eq =>
    obtain rfl := Option.some.inj h
    simpa [Op.evalValueBinary] using hequal false
  | ne =>
    obtain rfl := Option.some.inj h
    have hne := hequal true
    rw [show (decide (d = c) != true) = decide (d ≠ c) by by_cases h : d = c <;> simp [h]] at hne
    exact hne
  | less =>
    obtain rfl := Option.some.inj h
    have hless := horder false false
    rw [inOrder_less] at hless
    exact hless
  | lessEq =>
    obtain rfl := Option.some.inj h
    have hless := horder false true
    rw [inOrder_lessEq] at hless
    exact hless
  | greater =>
    obtain rfl := Option.some.inj h
    have hmore := horder true false
    rw [inOrder_greater] at hmore
    exact hmore
  | greaterEq =>
    obtain rfl := Option.some.inj h
    have hmore := horder true true
    rw [inOrder_greaterEq] at hmore
    exact hmore
  | _ => simp [decideCompare] at h

/-- The expression evaluates to the decided number. -/
def Evaluates (s : State) (e : Expression) (parent : Parent) (d : ℕ) : Prop :=
  e.comptime.ty.kind.isFloat = false ∧
    ∃ v, e.evalValue s = some v ∧ Sound e.comptime.exprContext parent v d

section Binary

variable {context : Context} {env : KnownValues} {s : State} {x y : Expression} {op : Op}
  {c : Comptime} {parent : Parent} {d : ℕ}

theorem evaluates_of_known (hop : op ≠ .as) (hoperable : operable c = true)
    (hfx : x.comptime.ty.kind.isFloat = false) (hfy : y.comptime.ty.kind.isFloat = false)
    (hfloat : x.comptime.ty.kind.isFloat = false → y.comptime.ty.kind.isFloat = false →
      c.ty.kind.isFloat = false)
    (hx : x.evalValue s = some v) (hy : y.evalValue s = some u)
    (hr : Op.evalValueBinary native op v u c.exprContext.width
      (if op ∈ [Op.div, .rem, .greater, .greaterEq, .less, .lessEq] then
        x.comptime.exprContext.signed && y.comptime.exprContext.signed
      else c.exprContext.signed) = some r)
    (hknown : Known r d) (hsigned : r.signed = false) (hlt : d < 2 ^ c.exprContext.width) :
    Evaluates s (.binary x op y c) parent d := by
  obtain ⟨-, -, hk⟩ := operable_spec hoperable
  refine ⟨hfloat hfx hfy, r, ?_, sound_of_unsigned hknown hsigned hk hlt⟩
  simp only [Expression.evalValue, hop, hfx, hfy, hx, hy, Bool.false_eq_true, or_self, if_false]
  exact hr

variable (ihx : ∀ parent d, decideAt context env x parent = some d → Evaluates s x parent d)
  (ihy : ∀ parent d, decideAt context env y parent = some d → Evaluates s y parent d)
  (hoperable : operable c = true)
  (hfloat : x.comptime.ty.kind.isFloat = false → y.comptime.ty.kind.isFloat = false →
    c.ty.kind.isFloat = false)

include ihx ihy hoperable hfloat

theorem arith_sound (hop : op ≠ .as)
    (hctx : x.HasContext c.exprContext ∧ y.HasContext c.exprContext)
    (h : (do
      let x ← decideAt context env x .arith
      let y ← decideAt context env y .arith
      let value ← decideArith op x y
      some (value &&& mask c.exprContext.width)) = some d) :
    Evaluates s (.binary x op y c) parent d := by
  obtain ⟨hpos, hle, hk⟩ := operable_spec hoperable
  simp only [Option.bind_eq_bind, Option.bind_eq_some_iff] at h
  obtain ⟨dx, hdx, dy, hdy, z, hz, h⟩ := h
  obtain rfl := Option.some.inj h
  obtain ⟨hfx, v, hv, hsx⟩ := ihx _ _ hdx
  obtain ⟨hfy, u, hu, hsy⟩ := ihy _ _ hdy
  have hkx := hasContext_eq hdx hctx.1
  have hky := hasContext_eq hdy hctx.2
  rw [hkx] at hsx
  rw [hky] at hsy
  obtain ⟨r, hr, hknown, hsigned⟩ := arith_known hsx.known hsy.known hpos hle
    (hsx.lt (by decide)) (hsy.lt (by decide)) hz
  refine evaluates_of_known hop hoperable hfx hfy hfloat hv hu ?_ hknown hsigned (and_mask_lt hle z)
  rw [hkx, hky, hk, Bool.and_self, ite_self]
  exact hr

theorem comparison_sound (hop : op ≠ .as) (hctx : ∃ k, x.HasContext k ∧ y.HasContext k) (h : (do
      let x ← decideAt context env x .compare
      let y ← decideAt context env y .compare
      let result ← decideCompare op x y
      some (result.toNat &&& mask c.exprContext.width)) = some d) :
    Evaluates s (.binary x op y c) parent d := by
  obtain ⟨hpos, hle, hk⟩ := operable_spec hoperable
  simp only [Option.bind_eq_bind, Option.bind_eq_some_iff] at h
  obtain ⟨dx, hdx, dy, hdy, b, hb, h⟩ := h
  obtain rfl := Option.some.inj h
  obtain ⟨hfx, v, hv, hsx⟩ := ihx _ _ hdx
  obtain ⟨hfy, u, hu, hsy⟩ := ihy _ _ hdy
  obtain ⟨k, hxk, hyk⟩ := hctx
  have hkx := hasContext_eq hdx hxk
  have hky := hasContext_eq hdy hyk
  rw [hkx] at hsx
  rw [hky] at hsy
  obtain ⟨r, hr, hknown, hsigned⟩ := comparison_known hsx hsy hle hb
  rw [toNat_and_mask hpos hle]
  refine evaluates_of_known hop hoperable hfx hfy hfloat hv hu ?_ hknown hsigned (toNat_lt hpos b)
  rw [hkx, hky, hk]
  exact hr

theorem logic_sound (hop : op = .logicAnd ∨ op = .logicOr) (h : (do
      let x ← decideAt context env x .root
      let y ← decideAt context env y .root
      let both := if op = .logicAnd then decide (x ≠ 0) && decide (y ≠ 0)
        else decide (x ≠ 0) || decide (y ≠ 0)
      some (both.toNat &&& mask c.exprContext.width)) = some d) :
    Evaluates s (.binary x op y c) parent d := by
  obtain ⟨hpos, hle, hk⟩ := operable_spec hoperable
  simp only [Option.bind_eq_bind, Option.bind_eq_some_iff] at h
  obtain ⟨dx, hdx, dy, hdy, h⟩ := h
  obtain rfl := Option.some.inj h
  obtain ⟨hfx, v, hv, hsx⟩ := ihx _ _ hdx
  obtain ⟨hfy, u, hu, hsy⟩ := ihy _ _ hdy
  rw [toNat_and_mask hpos hle]
  rcases hop with rfl | rfl
  · obtain ⟨r, hr, hknown, hsigned⟩ := logic_known hsx.known hsy.known hle true
    exact evaluates_of_known (by decide) hoperable hfx hfy hfloat hv hu hr hknown hsigned
      (toNat_lt hpos _)
  · obtain ⟨r, hr, hknown, hsigned⟩ := logic_known hsx.known hsy.known hle false
    exact evaluates_of_known (by decide) hoperable hfx hfy hfloat hv hu hr hknown hsigned
      (toNat_lt hpos _)

theorem shift_sound (hop : op = .logicShiftL ∨ op = .logicShiftR)
    (hctx : x.HasContext c.exprContext)
    (h : (do
      let amount ← decideAt context env y .root
      if c.exprContext.width ≤ amount then none
      else
        let x ← decideAt context env x .arith
        let value := if op = .logicShiftL then (x <<< amount) % 2 ^ 64 else x >>> amount
        some (value &&& mask c.exprContext.width)) = some d) :
    Evaluates s (.binary x op y c) parent d := by
  obtain ⟨hpos, hle, hk⟩ := operable_spec hoperable
  simp only [Option.bind_eq_bind, Option.bind_eq_some_iff] at h
  obtain ⟨amount, hdy, h⟩ := h
  split at h
  · cases h
  next hamount =>
  obtain ⟨dx, hdx, h⟩ := Option.bind_eq_some_iff.1 h
  obtain rfl := Option.some.inj h
  obtain ⟨hfx, v, hv, hsx⟩ := ihx _ _ hdx
  obtain ⟨hfy, u, hu, hsy⟩ := ihy _ _ hdy
  rw [hasContext_eq hdx hctx] at hsx
  rcases hop with rfl | rfl
  · obtain ⟨r, hr, hknown, hsigned⟩ := shiftLeft_known hsx.known hsy.known hle
      (Nat.not_le.1 hamount)
    rw [← hk] at hr
    exact evaluates_of_known (by decide) hoperable hfx hfy hfloat hv hu hr hknown hsigned
      (and_mask_lt hle _)
  · obtain ⟨r, hr, hknown, hsigned⟩ := shiftRight_known hsx.known hsy.known hle
      (Nat.not_le.1 hamount) (hsx.lt (by decide))
    rw [← hk] at hr
    exact evaluates_of_known (by decide) hoperable hfx hfy hfloat hv hu hr hknown hsigned
      (and_mask_lt hle _)

end Binary

theorem decideAt_sound
    (hagree : Agrees context env s) (e : Expression) (hrec : e.Recorded context) :
    ∀ parent d, decideAt context env e parent = some d → Evaluates s e parent d := by
  induction e with
  | term f =>
    intro parent d h
    obtain ⟨hfloat, v, hv, hsound, -⟩ := decideLeaf_sound hagree hrec h
    exact ⟨hfloat, v, hv, hsound⟩
  | concatenation c => exact fun parent d h => by simp [decideAt] at h
  | other c => exact fun parent d h => by simp [decideAt] at h
  | unary op x c ih =>
    intro parent d h
    obtain ⟨hrx, hfloat, hctx⟩ := hrec
    simp only [decideAt] at h
    split at h
    · cases h
    next hnot =>
    have hoperable : operable c = true := by simpa using hnot
    obtain ⟨hpos, hle, hk⟩ := operable_spec hoperable
    cases op
    case logicNot =>
      obtain ⟨dx, hdx, hd⟩ := Option.bind_eq_some_iff.1 h
      obtain rfl := Option.some.inj hd
      obtain ⟨hfx, v, hv, hsx⟩ := ih hrx _ _ hdx
      obtain ⟨r, hr, hknown, hsigned⟩ := logicNot_known hsx.known hle c.exprContext.signed
      refine ⟨hfloat hfx, r, ?_, sound_of_unsigned hknown hsigned hk (toNat_lt hpos _)⟩
      simpa only [Expression.evalValue, hfx, Bool.false_eq_true, if_false, hv,
        Option.bind_eq_bind, Option.bind_some] using hr
    case bitNot =>
      obtain ⟨dx, hdx, hd⟩ := Option.bind_eq_some_iff.1 h
      obtain rfl := Option.some.inj hd
      obtain ⟨hfx, v, hv, hsx⟩ := ih hrx _ _ hdx
      rw [hasContext_eq hdx (hctx rfl)] at hsx
      obtain ⟨r, hr, hknown, hwidth, hsigned⟩ := bitNot_known hsx.known hle
      refine ⟨hfloat hfx, r, ?_, hknown, fun _ => and_mask_lt hle _, fun hs _ => ?_,
        fun hs => .inr ?_, fun hs => absurd (hk.symm.trans hs) Bool.false_ne_true, fun _ => hk⟩
      · rw [← hk] at hr
        simpa only [Expression.evalValue, hfx, Bool.false_eq_true, if_false, hv,
          Option.bind_eq_bind, Option.bind_some] using hr
      all_goals
        -- the complement keeps the flag of an operand that already has the width
        obtain ⟨hflag, hwide⟩ := hsigned hs
        have hnarrow := hsx.narrow hflag (by decide)
        simp only [Expression.comptime]
        omega
    all_goals simp at h
  | binary x op y c ihx ihy =>
    intro parent d h
    obtain ⟨hrx, hry, hfloat, hctx⟩ := hrec
    simp only [decideAt] at h
    split at h
    · cases h
    next hnot =>
    have hoperable : operable c = true := by simpa using hnot
    cases op
    case add | sub | mul | div | rem | bitAnd | bitOr | bitXor =>
      exact arith_sound (ihx hrx) (ihy hry) hoperable hfloat (by decide) hctx h
    case eq | ne | less | lessEq | greater | greaterEq =>
      exact comparison_sound (ihx hrx) (ihy hry) hoperable hfloat (by decide) hctx h
    case logicAnd => exact logic_sound (ihx hrx) (ihy hry) hoperable hfloat (.inl rfl) h
    case logicOr => exact logic_sound (ihx hrx) (ihy hry) hoperable hfloat (.inr rfl) h
    case logicShiftL =>
      dsimp only at h
      split at h
      · cases h
      · exact shift_sound (ihx hrx) (ihy hry) hoperable hfloat (.inl rfl) hctx h
    case logicShiftR =>
      dsimp only at h
      split at h
      · cases h
      · exact shift_sound (ihx hrx) (ihy hry) hoperable hfloat (.inr rfl) hctx h
    all_goals simp at h

end Veryl.Analyzer.Peel
