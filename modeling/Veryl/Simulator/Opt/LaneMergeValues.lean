import Veryl.Simulator.Opt.LaneMerge
import Veryl.Simulator.Opt.LutCompressSafety
import Veryl.Analyzer.Operators.Independence

/-!
What the operators of a lane compute, bit by bit, on values without unknown bits: the bitwise
operators at the width of their operands, the logical ones on single bits, a reduction, and
the parts of a concatenation.
-/

namespace Veryl.Simulator.LaneVector

open Veryl.Analyzer Nat Op
open ProtoExpression (concatRepeat)
open LutCompress (native)

/-- A value of `w` bits, all of them known. -/
structure Bits (v : Value) (w : ℕ) : Prop where
  width : v.width = w
  maskXz : v.maskXz = 0
  lt : v.payload < 2 ^ w

variable {x y v : Value} {w n : ℕ}

theorem Bits.normalised (h : Bits x w) (hw : 0 < w) : x.Normalised := by
  refine ⟨h.width ▸ hw, h.width ▸ h.lt, ?_⟩
  rw [h.maskXz]
  exact Nat.two_pow_pos _

theorem native_le (w : ℕ) (h : native w = true) : w ≤ 64 := of_decide_eq_true h

theorem expand_self (h : Bits x w) (hw : 0 < w) (nat : ℕ → Bool) (s : Bool) :
    expand nat x w s = x := by
  rw [expand, if_pos ⟨h.width.ge, by rw [h.width]; omega⟩]

theorem resize_self (h : Bits x w) (hw : 0 < w) (nat : ℕ → Bool) (s : Bool) :
    resize nat x w s = x := by
  rw [resize, if_neg (by rw [h.width]; omega), expand_self h hw]

theorem zero_xor_genMask (w : ℕ) : 0 ^^^ genMask w = genMask w := Nat.zero_xor _

theorem and_genMask_self {p : ℕ} (hp : p < 2 ^ w) : p &&& genMask w = p := by
  rw [and_genMask, mod_eq_of_lt hp]

def bitsOp : Op → ℕ → ℕ → ℕ
  | .bitAnd => (· &&& ·)
  | .bitOr => (· ||| ·)
  | _ => (· ^^^ ·)

def boolOp : Op → Bool → Bool → Bool
  | .bitAnd => and
  | .bitOr => or
  | _ => xor

theorem testBit_bitsOp (op : Op) (p q i : ℕ) :
    (bitsOp op p q).testBit i = boolOp op (p.testBit i) (q.testBit i) := by
  cases op <;> simp [bitsOp, boolOp]

theorem bitsOp_lt {op : Op} (hop : op = .bitAnd ∨ op = .bitOr ∨ op = .bitXor) {p q : ℕ}
    (hp : p < 2 ^ w) (hq : q < 2 ^ w) : bitsOp op p q < 2 ^ w := by
  rcases hop with rfl | rfl | rfl
  · exact and_lt_two_pow p hq
  · exact or_lt_two_pow hp hq
  · exact xor_lt_two_pow hp hq

theorem evalBitwise {op : Op} (hop : op = .bitAnd ∨ op = .bitOr ∨ op = .bitXor) (hx : Bits x w)
    (hy : Bits y w) (hw : 0 < w) (s : Bool) :
    ∃ r, evalValueBinary native op x y w s = some r ∧ Bits r w ∧
      r.payload = bitsOp op x.payload y.payload := by
  have hlt := bitsOp_lt hop hx.lt hy.lt
  have hnative := evalValueBinary_native native_le op (hx.normalised hw) (hy.normalised hw)
    hx.width.le hy.width.le s
  refine ⟨⟨bitsOp op x.payload y.payload, 0, w, false⟩, ?_, ⟨rfl, rfl, hlt⟩, rfl⟩
  rw [hnative]
  rcases hop with rfl | rfl | rfl
  · simp only [evalValueBinary, resize_self hx hw, resize_self hy hw, arms_biguint,
      ValueBigUint.bitAnd, hx.maskXz, hy.maskXz, zero_and, or_zero, zero_xor_genMask]
    rw [and_genMask_self (show x.payload &&& y.payload < 2 ^ w from hlt)]
    rfl
  · simp only [evalValueBinary, evalArith, expand_self hx hw, expand_self hy hw,
      arms_biguint, ValueBigUint.bitOr, hx.maskXz, hy.maskXz, zero_and, or_zero,
      zero_xor_genMask]
    rw [and_genMask_self (show x.payload ||| y.payload < 2 ^ w from hlt)]
    rfl
  · simp only [evalValueBinary, evalArith, expand_self hx hw, expand_self hy hw,
      arms_biguint, ValueBigUint.bitXor, hx.maskXz, hy.maskXz, or_zero, zero_xor_genMask]
    rw [and_genMask_self (show x.payload ^^^ y.payload < 2 ^ w from hlt)]
    rfl

theorem evalBitNot (hx : Bits x w) (hw : 0 < w) (s : Bool) :
    ∃ r, evalValueUnary native .bitNot x w s = some r ∧ Bits r w ∧
      ∀ i < w, r.payload.testBit i = !x.payload.testBit i := by
  have hlt : x.payload ^^^ genMask w < 2 ^ w := xor_lt_two_pow hx.lt (genMask_lt w)
  rw [evalValueUnary_native native_le _ (hx.normalised hw) hx.width.le]
  refine ⟨_, rfl, ⟨?_, ?_, ?_⟩, ?_⟩
  · simp only [expand_self hx hw, arm, ValueBigUint.bitNot, Bool.false_eq_true, if_false]
    exact hx.width
  all_goals
    simp only [expand_self hx hw, arm, ValueBigUint.bitNot, Bool.false_eq_true, if_false,
      hx.maskXz, zero_xor_genMask, and_genMask_self hlt]
  · exact hlt
  · intro i hi
    rw [testBit_xor, testBit_genMask, decide_eq_true hi, Bool.xor_true]

theorem Bits.eq_toNat (h : Bits x 1) : x.payload = (x.payload.testBit 0).toNat := by
  have hlt : x.payload < 2 := h.lt
  rcases (show x.payload = 0 ∨ x.payload = 1 by omega) with hp | hp <;> rw [hp] <;> rfl

theorem Bits.ne_zero_iff (h : Bits x 1) : decide (x.payload ≠ 0) = x.payload.testBit 0 := by
  rw [h.eq_toNat]
  cases x.payload.testBit 0 <;> rfl

theorem bits_new (b : Bool) : Bits ⟨b.toNat, 0, 1, false⟩ 1 :=
  ⟨rfl, rfl, by cases b <;> decide⟩

theorem testBit_toNat (b : Bool) : b.toNat.testBit 0 = b := by cases b <;> rfl

theorem evalReduceOr (hx : Bits x n) (negated s : Bool) :
    ∃ r, evalValueUnary native (if negated then .logicNot else .bitOr) x 1 s = some r ∧
      Bits r 1 ∧ r.payload.testBit 0 = (decide (x.payload ≠ 0) != negated) := by
  have harm : arm native x (ValueU64.reduceOr x negated) (ValueBigUint.reduceOr x negated) =
      ValueBigUint.reduceOr x negated :=
    arm_native fun hword => reduceOr_eq (native_le _ hword) negated
  have hred : ValueBigUint.reduceOr x negated =
      ⟨(decide (x.payload ≠ 0) != negated).toNat, 0, 1, false⟩ := by
    simp only [ValueBigUint.reduceOr, hx.maskXz, zero_xor_genMask, hx.width, and_genMask_self hx.lt]
    by_cases hp : x.payload = 0 <;> cases negated <;>
      simp [hp, ValueU64.newBit0x, ValueU64.newBit1x, ValueU64.new]
  refine ⟨⟨(decide (x.payload ≠ 0) != negated).toNat, 0, 1, false⟩, ?_, bits_new _, testBit_toNat _⟩
  cases negated with
  | true =>
    simp only [evalValueUnary, if_true]
    rw [harm, hred, expand_self (bits_new _) Nat.one_pos]
  | false =>
    simp only [evalValueUnary, Bool.false_eq_true, if_false]
    rw [harm, hred, expand_self (bits_new _) Nat.one_pos]

theorem evalLogic_bit (hx : Bits x 1) (hy : Bits y 1) (conjunction s : Bool) :
    ∃ r, evalValueBinary native (if conjunction then .logicAnd else .logicOr) x y 1 s = some r ∧
      Bits r 1 ∧ r.payload.testBit 0 =
        if conjunction then x.payload.testBit 0 && y.payload.testBit 0
        else x.payload.testBit 0 || y.payload.testBit 0 := by
  rw [evalValueBinary_native native_le _ (hx.normalised Nat.one_pos)
    (hy.normalised Nat.one_pos) hx.width.le hy.width.le]
  have hxx := hx.ne_zero_iff
  have hyy := hy.ne_zero_iff
  have hmax : max x.width y.width = 1 := by rw [hx.width, hy.width, max_self]
  have hxk : x.payload &&& genMask x.width = x.payload := by
    rw [hx.width, and_genMask_self hx.lt]
  have hyk : y.payload &&& genMask y.width = y.payload := by
    rw [hy.width, and_genMask_self hy.lt]
  cases conjunction with
  | true =>
    refine ⟨⟨(x.payload.testBit 0 && y.payload.testBit 0).toNat, 0, 1, false⟩, ?_, bits_new _,
      testBit_toNat _⟩
    have hbit : ValueBigUint.logicAnd x y =
        ⟨(x.payload.testBit 0 && y.payload.testBit 0).toNat, 0, 1, false⟩ := by
      rw [← hxx, ← hyy]
      by_cases hp : x.payload = 0 <;> by_cases hq : y.payload = 0 <;>
        simp [ValueBigUint.logicAnd, ValueBigUint.knownOne, hx.maskXz, hy.maskXz, hxk, hyk, hp, hq,
          ValueU64.newBit1x, ValueU64.new]
    simp only [if_true, evalValueBinary, evalLogic, hmax, expand_self hx Nat.one_pos,
      expand_self hy Nat.one_pos, arms_biguint, Option.map_some, hbit]
    rw [expand_self (bits_new _) Nat.one_pos]
  | false =>
    refine ⟨⟨(x.payload.testBit 0 || y.payload.testBit 0).toNat, 0, 1, false⟩, ?_, bits_new _,
      testBit_toNat _⟩
    have hbit : ValueBigUint.logicOr x y =
        ⟨(x.payload.testBit 0 || y.payload.testBit 0).toNat, 0, 1, false⟩ := by
      rw [← hxx, ← hyy]
      by_cases hp : x.payload = 0 <;> by_cases hq : y.payload = 0 <;>
        simp [ValueBigUint.logicOr, ValueBigUint.knownOne, hx.maskXz, hy.maskXz, hxk, hyk, hp, hq,
          ValueU64.newBit1x, ValueU64.new]
    simp only [Bool.false_eq_true, if_false, evalValueBinary, evalLogic, hmax,
      expand_self hx Nat.one_pos, expand_self hy Nat.one_pos, arms_biguint, Option.map_some,
      hbit]
    rw [expand_self (bits_new _) Nat.one_pos]

/-- A part is appended below what is there. -/
theorem concat_bits (hx : Bits x w) (hv : Bits v n) :
    Bits (x.concat v) (w + n) ∧ (x.concat v).payload = x.payload <<< n ||| v.payload := by
  have hshift : x.payload <<< n < 2 ^ (w + n) := by
    rw [Nat.shiftLeft_eq, Nat.pow_add]
    exact Nat.mul_lt_mul_of_pos_right hx.lt (Nat.two_pow_pos n)
  have hlow : v.payload < 2 ^ (w + n) :=
    hv.lt.trans_le (Nat.pow_le_pow_right (by omega) (by omega))
  have hpay : (x.concat v).payload = x.payload <<< n ||| v.payload := by
    simp only [Value.concat, hx.width, hv.width]
    split_ifs with hwide hn
    · rfl
    · rw [mod_eq_of_lt (hshift.trans_le (Nat.pow_le_pow_right (by omega) (by omega)))]
    · -- a part of a whole word leaves no room above it
      have hzero : w = 0 := by omega
      subst hzero
      have hx0 : x.payload = 0 := by simpa using hx.lt
      rw [hx0, zero_shiftLeft]
  refine ⟨⟨?_, ?_, ?_⟩, hpay⟩
  · simp [Value.concat, hx.width, hv.width]
  · simp [Value.concat, hx.maskXz, hv.maskXz]
  · rw [hpay]
    exact or_lt_two_pow hshift hlow

theorem testBit_concat (hx : Bits x w) (hv : Bits v 1) (i : ℕ) : (x.concat v).payload.testBit i =
      if i = 0 then v.payload.testBit 0 else x.payload.testBit (i - 1) := by
  rw [(concat_bits hx hv).2, testBit_or, testBit_shiftLeft]
  split_ifs with hi
  · subst hi
    simp
  · rw [decide_eq_true (show i ≥ 1 by omega), Bool.true_and,
      testBit_of_le hv.lt (show 1 ≤ i by omega), Bool.or_false]

theorem concatRepeat_bits (hx : Bits x w) (hv : Bits v 1) (n : ℕ) :
    Bits (concatRepeat x v n) (w + n) ∧
      ∀ i, (concatRepeat x v n).payload.testBit i =
        if i < n then v.payload.testBit 0 else x.payload.testBit (i - n) := by
  induction n generalizing x w with
  | zero => exact ⟨hx, fun i => by simp [concatRepeat]⟩
  | succ n ih =>
    obtain ⟨hbits, htest⟩ := ih (concat_bits hx hv).1
    refine ⟨by rw [show w + (n + 1) = w + 1 + n by omega]; exact hbits, fun i => ?_⟩
    rw [concatRepeat, htest]
    split_ifs with h₁ h₂ h₂
    · rfl
    · omega
    · rw [testBit_concat hx hv, if_pos (by omega)]
    · rw [testBit_concat hx hv, if_neg (by omega), show i - n - 1 = i - (n + 1) by omega]

end Veryl.Simulator.LaneVector
