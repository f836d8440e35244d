import Veryl.Analyzer.Operators.Independence
import Veryl.Analyzer.Peel.Decide

/-!
The operators on values that hold a known number in a native word: what they compute is the
number that a decision computes, whatever the widths of the operands.
-/

namespace Veryl.Analyzer.Peel

open Option Nat Op
open ValueU64 (addSub asU64 divideRemainder genMask_eq logicalBinary newBit0x newBit1x signExtend)

/-- A value without unknown bits, in a native word, with the number it holds. -/
structure Known (v : Value) (d : ℕ) : Prop where
  payload : v.payload = d
  maskXz : v.maskXz = 0
  pos : 0 < v.width
  le : v.width ≤ 64
  lt : d < 2 ^ v.width

variable {v u : Value} {d c width : ℕ}

theorem mask_eq (h : width ≤ 64) : mask width = genMask width := genMask_eq h

theorem and_mask (h : width ≤ 64) (p : ℕ) : p &&& mask width = p % 2 ^ width := by
  rw [mask_eq h, and_genMask]

theorem Known.isXz (h : Known v d) : v.isXz = false := by simp [Value.isXz, h.maskXz]

theorem Known.native (h : Known v d) : native v.width = true := decide_eq_true h.le

theorem Known.word (h : Known v d) : d < 2 ^ 64 :=
  h.lt.trans_le (Nat.pow_le_pow_right (by omega) h.le)

theorem known_new {signed : Bool} (hpos : 0 < width) (hle : width ≤ 64) (hlt : d < 2 ^ width) :
    Known (ValueU64.new d width signed) d := ⟨rfl, rfl, hpos, hle, hlt⟩

theorem arms_known (hv : Known v d) (hu : Known u c) (r r' : Value) :
    arms native v u r r' = some r := by
  simp [arms, hv.native, hu.native]

theorem arm_known (hv : Known v d) (r r' : Value) : arm native v r r' = r := by
  simp [arm, hv.native]

theorem expand_known (h : Known v d) (hwidth : width ≤ 64) {useSign : Bool}
    (hsign : useSign = true → v.signed = true → v.width < width → d < 2 ^ (v.width - 1)) :
    Known (expand native v width useSign) d ∧
      (expand native v width useSign).width = max v.width width ∧
      (expand native v width useSign).signed =
        if width ≤ v.width then v.signed else (useSign && v.signed) := by
  have hpos := h.pos
  unfold expand
  by_cases hwide : width ≤ v.width
  · rw [if_pos ⟨hwide, by omega⟩, if_pos hwide]
    exact ⟨h, by omega, rfl⟩
  · rw [if_neg (fun hw => hwide hw.1), if_neg (by omega),
      if_pos (show native width = true from decide_eq_true hwidth), if_neg hwide, ValueU64.expand,
      if_neg hwide]
    have hpay : (if (v.signed && useSign) && v.payload.testBit (v.width - 1)
        then v.payload ||| (ValueU64.genMask width ^^^ ValueU64.genMask v.width)
        else v.payload) = d := by
      rw [h.payload]
      refine if_neg fun hset => ?_
      simp only [Bool.and_eq_true] at hset
      have hlow := hsign hset.1.2 hset.1.1 (by omega)
      rw [testBit_lt_two_pow hlow] at hset
      exact Bool.false_ne_true hset.2
    have hxz : (if (v.signed && useSign) && v.maskXz.testBit (v.width - 1)
        then v.maskXz ||| (ValueU64.genMask width ^^^ ValueU64.genMask v.width)
        else v.maskXz) = 0 := by
      rw [h.maskXz]
      simp
    have hwider : width = max v.width width := by omega
    have hpositive : 0 < width := by omega
    have hlt : d < 2 ^ width := h.lt.trans_le (Nat.pow_le_pow_right (by omega) (by omega))
    refine ⟨⟨hpay, hxz, hpositive, hwidth, hlt⟩, hwider, ?_⟩
    cases useSign <;> simp

theorem expand_unsigned (h : Known v d) (hwidth : width ≤ 64) :
    Known (expand native v width false) d ∧
      (expand native v width false).width = max v.width width :=
  ⟨(expand_known h hwidth (by simp)).1, (expand_known h hwidth (by simp)).2.1⟩

theorem bit_known (hle : width ≤ 64) (b : Bool) :
    Known (expand native ⟨b.toNat, 0, 1, false⟩ width false) b.toNat ∧
      (expand native ⟨b.toNat, 0, 1, false⟩ width false).signed = false := by
  have hbit : Known ⟨b.toNat, 0, 1, false⟩ b.toNat :=
    ⟨rfl, rfl, Nat.one_pos, (by decide : 1 ≤ 64), by cases b <;> decide⟩
  refine ⟨(expand_unsigned hbit hle).1, ?_⟩
  rw [(expand_known hbit hle (by simp)).2.2]
  split <;> rfl

theorem logicNot_known (h : Known v d) (hle : width ≤ 64) (signed : Bool) :
    ∃ r, evalValueUnary native .logicNot v width signed = some r ∧
      Known r (decide (d = 0)).toNat ∧ r.signed = false := by
  have hred : ValueU64.reduceOr v true = ⟨(decide (d = 0)).toNat, 0, 1, false⟩ := by
    have hand : v.payload &&& (v.maskXz ^^^ ValueU64.genMask v.width) = d := by
      rw [h.payload, h.maskXz, Nat.zero_xor, genMask_eq h.le, and_genMask, mod_eq_of_lt h.lt]
    simp only [ValueU64.reduceOr, hand, h.isXz, if_true]
    by_cases hd : d = 0 <;> simp [hd, newBit0x, ValueU64.new]
  refine ⟨_, rfl, ?_⟩
  simp only [arm_known h, hred]
  exact bit_known hle _

theorem bitNot_known (h : Known v d) (hle : width ≤ 64) :
    ∃ r, evalValueUnary native .bitNot v width false = some r ∧
      Known r (ValueU64.not d &&& mask width) ∧ r.width = max v.width width ∧
      (r.signed = true → v.signed = true ∧ width ≤ v.width) := by
  obtain ⟨hexp, hwidth, hsigned⟩ := @expand_known v d width h hle false (by simp)
  have hpay : ((expand native v width false).payload ^^^ ValueU64.genMask width) &&&
      ((expand native v width false).maskXz ^^^ ValueU64.genMask width) =
      ValueU64.not d &&& mask width := by
    rw [hexp.payload, hexp.maskXz, Nat.zero_xor]
    refine eq_of_testBit_eq fun i => ?_
    rw [testBit_and, testBit_and, testBit_xor, ValueU64.testBit_not, mask_eq hle,
      genMask_eq hle, testBit_genMask]
    by_cases hi : i < width
    · simp [hi, show i < 64 by omega, Bool.xor_comm]
    · simp [hi]
  refine ⟨_, rfl, ?_⟩
  simp only [arm_known hexp, ValueU64.bitNot]
  refine ⟨⟨hpay, hexp.maskXz, hexp.pos, hexp.le, ?_⟩, hwidth, fun hs => ?_⟩
  · rw [and_mask hle]
    refine (mod_lt _ (Nat.two_pow_pos width)).trans_le ?_
    exact Nat.pow_le_pow_right (by omega) (by rw [hwidth]; omega)
  · rw [show (expand native v width false).signed = _ from hsigned] at hs
    split at hs
    · exact ⟨hs, by assumption⟩
    · simp at hs

theorem and_not_zero {p : ℕ} (h : p < 2 ^ 64) : p &&& ValueU64.not 0 = p := by
  rw [show ValueU64.not 0 = 2 ^ 64 - 1 from Nat.xor_zero _, and_two_pow_sub_one_eq_mod,
    mod_eq_of_lt h]

theorem bitwise_known (hpos : 0 < width) (hle : width ≤ 64) {p : ℕ} (hp : p < 2 ^ width) :
    Known ⟨p &&& ValueU64.not 0, 0, width, false⟩ (p &&& mask width) := by
  have hword : p < 2 ^ 64 := hp.trans_le (Nat.pow_le_pow_right (by omega) hle)
  rw [and_not_zero hword, and_mask hle, mod_eq_of_lt hp]
  exact ⟨rfl, rfl, hpos, hle, hp⟩

theorem resize_known (h : Known v d) (hpos : 0 < width) (hle : width ≤ 64) (hd : d < 2 ^ width) :
    Known (resize native v width false) d := by
  unfold resize
  split
  · next hlt =>
    rw [if_pos (by rw [h.native, show native width = true from decide_eq_true hle]; rfl)]
    refine ⟨?_, ?_, hpos, hle, hd⟩
    · rw [ValueU64.trunc, h.payload]
      exact (and_mask hle d).trans (mod_eq_of_lt hd)
    · simp [ValueU64.trunc, h.maskXz]
  · exact (expand_unsigned h hle).1

theorem arith_known (hv : Known v d) (hu : Known u c) (hpos : 0 < width) (hle : width ≤ 64)
    (hd : d < 2 ^ width) (hc : c < 2 ^ width) {op : Op} {z : ℕ}
    (hz : decideArith op d c = some z) :
    ∃ r, evalValueBinary native op v u width false = some r ∧
      Known r (z &&& mask width) ∧ r.signed = false := by
  obtain ⟨hx, -⟩ := expand_unsigned hv hle
  obtain ⟨hy, -⟩ := expand_unsigned hu hle
  have hnew : ∀ p : ℕ, Known (ValueU64.new (p &&& mask width) width false) (p &&& mask width) := by
    intro p
    refine known_new hpos hle ?_
    rw [and_mask hle]
    exact mod_lt _ (Nat.two_pow_pos width)
  have hlow : ∀ p : ℕ, p < 2 ^ width → p &&& mask width = p := by
    intro p hp
    rw [and_mask hle, mod_eq_of_lt hp]
  have hdivisor : c ≠ 0 → (c &&& ValueU64.genMask width == 0) = false := by
    intro hne
    rw [show c &&& ValueU64.genMask width = c from hlow c hc]
    simpa using hne
  cases op with
  | add =>
    obtain rfl := some.inj hz
    refine ⟨_, arms_known hx hy _ _, ?_⟩
    simp only [addSub, hx.isXz, hy.isXz, hx.payload, hy.payload, Bool.or_self,
      Bool.false_eq_true, if_false]
    exact ⟨hnew _, rfl⟩
  | sub =>
    obtain rfl := some.inj hz
    refine ⟨_, arms_known hx hy _ _, ?_⟩
    have hword := hy.word
    have hsub : asU64 ((d : ℤ) - c) = (d + 2 ^ 64 - c) % 2 ^ 64 := by
      unfold asU64
      omega
    simp only [addSub, hx.isXz, hy.isXz, hx.payload, hy.payload, Bool.or_self,
      Bool.false_eq_true, if_false, if_true, hsub]
    exact ⟨hnew _, rfl⟩
  | mul =>
    obtain rfl := some.inj hz
    refine ⟨_, arms_known hx hy _ _, ?_⟩
    simp only [ValueU64.multiply, hx.isXz, hy.isXz, hx.payload, hy.payload, Bool.or_self,
      Bool.false_eq_true, if_false]
    exact ⟨hnew _, rfl⟩
  | div =>
    simp only [decideArith] at hz
    split at hz
    · cases hz
    · next hne =>
      obtain rfl := some.inj hz
      refine ⟨_, arms_known hx hy _ _, ?_⟩
      simp only [divideRemainder, hx.isXz, hy.isXz, hx.payload, hy.payload, Bool.or_self,
        hdivisor hne, Bool.false_eq_true, if_false]
      exact ⟨hnew _, rfl⟩
  | rem =>
    simp only [decideArith] at hz
    split at hz
    · cases hz
    · next hne =>
      obtain rfl := some.inj hz
      refine ⟨_, arms_known hx hy _ _, ?_⟩
      simp only [divideRemainder, hx.isXz, hy.isXz, hx.payload, hy.payload, Bool.or_self,
        hdivisor hne, Bool.false_eq_true, if_false, if_true]
      exact ⟨hnew _, rfl⟩
  | bitAnd =>
    obtain rfl := some.inj hz
    have hx' := resize_known hv hpos hle hd
    have hy' := resize_known hu hpos hle hc
    refine ⟨_, arms_known hx' hy' _ _, ?_⟩
    simp only [ValueU64.bitAnd, hx'.maskXz, hy'.maskXz, hx'.payload, hy'.payload, zero_and, or_zero]
    exact ⟨bitwise_known hpos hle (and_lt_two_pow d hc), trivial⟩
  | bitOr =>
    obtain rfl := some.inj hz
    refine ⟨_, arms_known hx hy _ _, ?_⟩
    simp only [ValueU64.bitOr, hx.maskXz, hy.maskXz, hx.payload, hy.payload, zero_and, or_zero]
    exact ⟨bitwise_known hpos hle (or_lt_two_pow hd hc), trivial⟩
  | bitXor =>
    obtain rfl := some.inj hz
    refine ⟨_, arms_known hx hy _ _, ?_⟩
    simp only [ValueU64.bitXor, hx.maskXz, hy.maskXz, hx.payload, hy.payload, or_zero]
    exact ⟨bitwise_known hpos hle (xor_lt_two_pow hd hc), trivial⟩
  | _ => simp [decideArith] at hz

theorem operands_known (hv : Known v d) (hu : Known u c) {signed : Bool}
    (hsv : signed = true → v.signed = true → v.width < u.width → d < 2 ^ (v.width - 1))
    (hsu : signed = true → u.signed = true → u.width < v.width → c < 2 ^ (u.width - 1)) :
    Known (expand native v (max v.width u.width) signed) d ∧
      Known (expand native u (max v.width u.width) signed) c ∧
      (expand native v (max v.width u.width) signed).width = max v.width u.width ∧
      (expand native u (max v.width u.width) signed).width = max v.width u.width := by
  have hle : max v.width u.width ≤ 64 := by
    have h₁ := hv.le
    have h₂ := hu.le
    omega
  obtain ⟨hx, hxw, -⟩ := @expand_known v d _ hv hle signed (fun hs hf hlt => hsv hs hf (by omega))
  obtain ⟨hy, hyw, -⟩ := @expand_known u c _ hu hle signed (fun hs hf hlt => hsu hs hf (by omega))
  exact ⟨hx, hy, by omega, by omega⟩

theorem equal_known (hv : Known v d) (hu : Known u c) (hle : width ≤ 64)
    (hsv : v.signed = true → u.signed = true → v.width < u.width → d < 2 ^ (v.width - 1))
    (hsu : v.signed = true → u.signed = true → u.width < v.width → c < 2 ^ (u.width - 1))
    (wildcard negated : Bool) :
    ∃ r, evalEqual native v u width wildcard negated = some r ∧
      Known r (decide (d = c) != negated).toNat ∧ r.signed = false := by
  obtain ⟨hx, hy, -, -⟩ := @operands_known v u d c hv hu (v.signed && u.signed)
    (fun hs _ hlt => hsv (Bool.and_eq_true_iff.1 hs).1 (Bool.and_eq_true_iff.1 hs).2 hlt)
    (fun hs _ hlt => hsu (Bool.and_eq_true_iff.1 hs).1 (Bool.and_eq_true_iff.1 hs).2 hlt)
  simp only [evalEqual, arms_known hx hy, map_some]
  refine ⟨_, rfl, ?_⟩
  have hnot : ValueU64.not 0 = 2 ^ 64 - 1 := Nat.xor_zero _
  have hall := and_not_zero (xor_lt_two_pow hv.word hu.word)
  rw [hnot] at hall
  have hbit : ValueU64.equal (expand native v (max v.width u.width) (v.signed && u.signed))
      (expand native u (max v.width u.width) (v.signed && u.signed)) wildcard negated =
      ⟨(decide (d = c) != negated).toNat, 0, 1, false⟩ := by
    simp only [ValueU64.equal, hx.maskXz, hy.maskXz, hx.payload, hy.payload, hnot, ite_self,
      Nat.and_self, hall, Nat.or_self, zero_and, ne_eq, not_true_eq_false, decide_false]
    by_cases hdc : d = c
    · subst hdc
      cases negated <;> simp [newBit1x, newBit0x, ValueU64.new]
    · have hne : d ^^^ c ≠ 0 := fun h => hdc (Nat.xor_eq_zero_iff.1 h)
      cases negated <;> simp [newBit1x, newBit0x, ValueU64.new, hne, hdc]
  rw [hbit]
  exact bit_known hle _

theorem compare_cast (d c : ℕ) : Ord.compare (d : ℤ) (c : ℤ) = Ord.compare d c := by
  rcases Nat.lt_trichotomy d c with h | h | h
  · rw [compare_lt_iff_lt.2 h, compare_lt_iff_lt.2 (by exact_mod_cast h)]
  · subst h
    rw [compare_eq_iff_eq.2 rfl, compare_eq_iff_eq.2 rfl]
  · rw [compare_gt_iff_gt.2 h, compare_gt_iff_gt.2 (by exact_mod_cast h)]

/-- The order of two numbers, as the operators ask for it. -/
def inOrder (greater inclusive : Bool) (d c : ℕ) : Bool :=
  (if greater then decide (c < d) else decide (d < c)) || (inclusive && decide (d = c))

theorem inOrder_less (d c : ℕ) : inOrder false false d c = decide (d < c) := by simp [inOrder]

theorem inOrder_lessEq (d c : ℕ) : inOrder false true d c = decide (d ≤ c) := by
  rw [Bool.eq_iff_iff]
  simp only [inOrder, Bool.false_eq_true, if_false, Bool.true_and, Bool.or_eq_true,
    decide_eq_true_eq]
  omega

theorem inOrder_greater (d c : ℕ) : inOrder true false d c = decide (c < d) := by simp [inOrder]

theorem inOrder_greaterEq (d c : ℕ) : inOrder true true d c = decide (c ≤ d) := by
  rw [Bool.eq_iff_iff]
  simp only [inOrder, if_true, Bool.true_and, Bool.or_eq_true, decide_eq_true_eq]
  omega

theorem order_eq (greater inclusive : Bool) (d c : ℕ) :
    ((if greater then (Ord.compare d c).isGT else (Ord.compare d c).isLT) ||
      (inclusive && (Ord.compare d c).isEq)) = inOrder greater inclusive d c := by
  unfold inOrder
  rcases Nat.lt_trichotomy d c with h | h | h
  · rw [compare_lt_iff_lt.2 h]
    cases greater <;> simp [Ordering.isGT, Ordering.isLT, Ordering.isEq, h, Nat.ne_of_lt h,
      Nat.le_of_lt h]
  · subst h
    cases greater <;> simp [Ordering.isGT, Ordering.isLT, Ordering.isEq]
  · rw [compare_gt_iff_gt.2 h]
    cases greater <;> simp [Ordering.isGT, Ordering.isLT, Ordering.isEq, h, Nat.ne_of_gt h,
      Nat.le_of_lt h]

theorem signExtend_known (h : Known v d) {w : ℕ} (hle : w ≤ v.width) (hpos : 0 < w)
    (hlow : d < 2 ^ (w - 1)) : signExtend v.payload v.width = d := by
  have hmsb : d < 2 ^ (v.width - 1) :=
    hlow.trans_le (Nat.pow_le_pow_right (by omega) (by omega))
  rw [h.payload, signExtend_eq h.pos h.le h.lt, signedPayload, testBit_lt_two_pow hmsb]
  simp

theorem compare_known (hv : Known v d) (hu : Known u c) (hle : width ≤ 64) {signed : Bool}
    (hsv : signed = true → d < 2 ^ (v.width - 1)) (hsu : signed = true → c < 2 ^ (u.width - 1))
    (greater inclusive : Bool) :
    ∃ r, evalCompare native v u width signed greater inclusive = some r ∧
      Known r (inOrder greater inclusive d c).toNat ∧ r.signed = false := by
  obtain ⟨hx, hy, hxw, hyw⟩ := @operands_known v u d c hv hu signed
    (fun hs _ _ => hsv hs) (fun hs _ _ => hsu hs)
  simp only [evalCompare, arms_known hx hy, map_some]
  refine ⟨_, rfl, ?_⟩
  have hvpos := hv.pos
  have hupos := hu.pos
  have hbit : ValueU64.compare (expand native v (max v.width u.width) signed)
      (expand native u (max v.width u.width) signed) signed greater inclusive =
      ⟨(inOrder greater inclusive d c).toNat, 0, 1, false⟩ := by
    have horder : (if signed then
        Ord.compare (signExtend (expand native v (max v.width u.width) signed).payload
            (max (expand native v (max v.width u.width) signed).width 1))
          (signExtend (expand native u (max v.width u.width) signed).payload
            (max (expand native v (max v.width u.width) signed).width 1))
        else Ord.compare (expand native v (max v.width u.width) signed).payload
          (expand native u (max v.width u.width) signed).payload) = Ord.compare d c := by
      cases signed with
      | false => simp only [Bool.false_eq_true, if_false, hx.payload, hy.payload]
      | true =>
        have hone : max (expand native v (max v.width u.width) true).width 1 =
            (expand native v (max v.width u.width) true).width := by omega
        have hsame : (expand native v (max v.width u.width) true).width =
            (expand native u (max v.width u.width) true).width := by omega
        rw [if_pos rfl, hone, signExtend_known hx (w := v.width) (by omega) hvpos (hsv rfl), hsame,
          signExtend_known hy (w := u.width) (by omega) hupos (hsu rfl), compare_cast]
    simp only [ValueU64.compare, horder, order_eq, hx.isXz, hy.isXz, Bool.or_self]
    cases inOrder greater inclusive d c <;> rfl
  rw [hbit]
  exact bit_known hle _

theorem logic_known (hv : Known v d) (hu : Known u c) (hle : width ≤ 64) (conjunction : Bool) :
    ∃ r, evalLogic native v u width conjunction = some r ∧
      Known r (if conjunction then decide (d ≠ 0) && decide (c ≠ 0)
        else decide (d ≠ 0) || decide (c ≠ 0)).toNat ∧ r.signed = false := by
  obtain ⟨hx, hy, -, -⟩ := @operands_known v u d c hv hu false (by simp) (by simp)
  simp only [evalLogic, arms_known hx hy, map_some]
  refine ⟨_, rfl, ?_⟩
  have hbit : logicalBinary (expand native v (max v.width u.width) false)
      (expand native u (max v.width u.width) false) conjunction =
      ⟨(if conjunction then decide (d ≠ 0) && decide (c ≠ 0)
        else decide (d ≠ 0) || decide (c ≠ 0)).toNat, 0, 1, false⟩ := by
    simp only [logicalBinary, hx.maskXz, hy.maskXz, hx.payload, hy.payload,
      and_not_zero hv.word, and_not_zero hu.word, hx.isXz, hy.isXz, Bool.or_self, Bool.and_false]
    by_cases hd : d = 0 <;> by_cases hc : c = 0 <;> cases conjunction <;>
      simp [hd, hc, newBit1x, ValueU64.new]
  rw [hbit]
  exact bit_known hle _

theorem truth_known {b : Bool} (h : Known v b.toNat) : v.truth native = some b := by
  simp only [Value.truth, h.native, if_true, ValueU64.truth, h.payload, h.maskXz]
  cases b <;> simp [ValueU64.not]

theorem toUsizeSaturating_eq (h : Known v d) : v.toUsizeSaturating = some d := by
  have hword := h.word
  simp only [Value.toUsizeSaturating, h.isXz, Bool.false_eq_true, if_false, h.payload, some.injEq]
  omega

theorem shiftLeft_known (hv : Known v d) (hu : Known u c) (hle : width ≤ 64) (hc : c < width) :
    ∃ r, evalValueBinary native .logicShiftL v u width false = some r ∧
      Known r ((d <<< c) % 2 ^ 64 &&& mask width) ∧ r.signed = false := by
  obtain ⟨hx, hxw⟩ := expand_unsigned hv hle
  have hamount : min c 64 = c := by omega
  have hshift : Known (ValueU64.shiftLeft (expand native v width false) (some c) width false)
      ((d <<< c) % 2 ^ 64 &&& mask width) := by
    refine ⟨?_, ?_, hx.pos, hx.le, ?_⟩
    · simp only [ValueU64.shiftLeft, hamount, hx.payload]
      rfl
    · simp [ValueU64.shiftLeft, hx.maskXz]
    · rw [and_mask hle]
      refine (mod_lt _ (Nat.two_pow_pos width)).trans_le ?_
      refine Nat.pow_le_pow_right (by omega) ?_
      simp only [ValueU64.shiftLeft]
      omega
  simp only [evalValueBinary, toUsizeSaturating_eq hu, arm_known hx]
  refine ⟨_, rfl, (expand_unsigned hshift hle).1, ?_⟩
  rw [(expand_known hshift hle (by simp)).2.2]
  split <;> rfl

theorem shiftRight_known (hv : Known v d) (hu : Known u c) (hle : width ≤ 64) (hc : c < width)
    (hd : d < 2 ^ width) :
    ∃ r, evalValueBinary native .logicShiftR v u width false = some r ∧
      Known r (d >>> c &&& mask width) ∧ r.signed = false := by
  obtain ⟨hx, hxw⟩ := expand_unsigned hv hle
  have hamount : min c 64 = c := by omega
  have hlow : d >>> c ≤ d := shiftRight_le d c
  have hshift : Known (ValueU64.shiftRight (expand native v width false) (some c) width false
      false) (d >>> c &&& mask width) := by
    rw [and_mask hle, mod_eq_of_lt (by omega)]
    refine ⟨?_, ?_, hx.pos, hx.le, ?_⟩
    · simp [ValueU64.shiftRight, hamount, hx.payload]
    · simp [ValueU64.shiftRight, hx.maskXz]
    · have hlt := hx.lt
      simp only [ValueU64.shiftRight]
      omega
  simp only [evalValueBinary, toUsizeSaturating_eq hu, arm_known hx]
  refine ⟨_, rfl, (expand_unsigned hshift hle).1, ?_⟩
  rw [(expand_known hshift hle (by simp)).2.2]
  split <;> rfl

end Veryl.Analyzer.Peel
