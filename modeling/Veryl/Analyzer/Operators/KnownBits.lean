import Veryl.Analyzer.Operators.Independence

/-!
A result bit that is known stays the same when unknown bits of the operands
become known: the bodies of the operators, bit by bit.
-/

namespace Veryl.Analyzer

open Nat ValueBigUint
open ValueBigUint (knownOne)
open ValueU64 (logicalBinary newBit0x newBit1x)

variable {n : ℕ} {c : ℕ → Bool} {wildcard : Bool}

namespace Value

/-- Nothing beyond the width; an unsized all-bit literal has width zero and its
one bit of pattern. -/
structure WellFormed (x : Value) : Prop where
  payload_lt : x.payload < 2 ^ max x.width 1
  maskXz_lt : x.maskXz < 2 ^ max x.width 1

/-- Every known bit of a value is kept. -/
structure Refines (x x' : Value) : Prop where
  width_eq : x'.width = x.width
  signed_eq : x'.signed = x.signed
  bits : ∀ i, x.maskXz.testBit i = false →
    x'.maskXz.testBit i = false ∧ x'.payload.testBit i = x.payload.testBit i

/-- Every known bit of a result is kept. -/
def Keeps (v v' : Value) : Prop :=
  ∀ i, i < v.width → v.maskXz.testBit i = false →
    v'.maskXz.testBit i = false ∧ v'.payload.testBit i = v.payload.testBit i

variable {x x' y y' : Value}

theorem Refines.refl (x : Value) : Refines x x := ⟨rfl, rfl, fun _ h => ⟨h, rfl⟩⟩

theorem Refines.keeps (h : Refines x x') : Keeps x x' := fun i _ => h.bits i

theorem Refines.eq_of_known (h : Refines x x') (hx : x.isXz = false) : x' = x := by
  have hmask : x.maskXz = 0 := by simpa [isXz] using hx
  have hbits := fun i => h.bits i (by rw [hmask, zero_testBit])
  have hmask' : x'.maskXz = x.maskXz :=
    eq_of_testBit_eq fun i => by rw [(hbits i).1, hmask, zero_testBit]
  have hpayload : x'.payload = x.payload := eq_of_testBit_eq fun i => (hbits i).2
  obtain ⟨p, m, w, s⟩ := x
  obtain ⟨p', m', w', s'⟩ := x'
  obtain rfl : w' = w := h.width_eq
  obtain rfl : s' = s := h.signed_eq
  obtain rfl : m' = m := hmask'
  obtain rfl : p' = p := hpayload
  rfl

theorem keeps_newX (width : ℕ) (signed : Bool) (v : Value) :
    Keeps (ValueBigUint.newX width signed) v := by
  intro i hi hmask
  have htrue : (genMask width).testBit i = true := by
    rw [testBit_genMask]
    exact decide_eq_true hi
  exact absurd (htrue.symm.trans hmask) (by decide)

end Value

open Value

theorem refines_newX_bit (isOne : Bool) :
    Refines (ValueU64.newX 1 false) (ValueU64.new isOne.toNat 1 false) := by
  refine ⟨rfl, rfl, fun i hi => ?_⟩
  have hpos : i ≠ 0 := by
    rintro rfl
    exact absurd hi (by decide)
  have hbit : isOne.toNat.testBit i = false :=
    testBit_lt_two_pow ((Bool.toNat_lt isOne).trans_le (Nat.pow_le_pow_right (by omega) (by omega) : 2 ^ 1 ≤ 2 ^ i))
  exact ⟨zero_testBit i, hbit.trans (zero_testBit i).symm⟩

section Bits

variable {a b a' b' : Bool}

theorem refines_newBit1x (hone : a = true → a' = true)
    (hzero : a = false → b = false → a' = false ∧ b' = false) :
    Refines (newBit1x a b) (newBit1x a' b') := by
  cases a with
  | true =>
    rw [hone rfl]
    exact .refl _
  | false =>
    cases b with
    | false =>
      obtain ⟨rfl, rfl⟩ := hzero rfl rfl
      exact .refl _
    | true =>
      cases a' with
      | true => exact refines_newX_bit true
      | false =>
        cases b' with
        | true => exact .refl _
        | false => exact refines_newX_bit false

theorem refines_newBit0x (hone : a = true → a' = true)
    (hzero : a = false → b = false → a' = false ∧ b' = false) :
    Refines (newBit0x a b) (newBit0x a' b') := by
  cases a with
  | true =>
    rw [hone rfl]
    exact .refl _
  | false =>
    cases b with
    | false =>
      obtain ⟨rfl, rfl⟩ := hzero rfl rfl
      exact .refl _
    | true =>
      cases a' with
      | true => exact refines_newX_bit false
      | false =>
        cases b' with
        | true => exact .refl _
        | false => exact refines_newX_bit true

theorem refines_newBitX1 (h : a = false → a' = false ∧ b' = b) :
    Refines (ValueU64.newBitX1 a b) (ValueU64.newBitX1 a' b') := by
  cases a with
  | false =>
    obtain ⟨rfl, rfl⟩ := h rfl
    exact .refl _
  | true =>
    cases a' with
    | true => exact .refl _
    | false => cases b' with
      | true => exact refines_newX_bit true
      | false => exact refines_newX_bit false

end Bits

/-- The rule of a bitwise operator; `c` is the bit of the complement's mask. -/
def andMask (c xm xp ym yp : Bool) : Bool :=
  ((xm && ym) || ((xm && (ym ^^ c)) && yp)) || ((ym && (xm ^^ c)) && xp)

def orMask (c xm xp ym yp : Bool) : Bool :=
  ((xm && ym) || ((xm && (ym ^^ c)) && (yp ^^ c))) || ((ym && (xm ^^ c)) && (xp ^^ c))

theorem and_bits : ∀ c xm xp ym yp xm' xp' ym' yp' : Bool, (xm = false → xm' = false ∧ xp' = xp) →
    (ym = false → ym' = false ∧ yp' = yp) → andMask c xm xp ym yp = false →
      andMask c xm' xp' ym' yp' = false ∧ ((xp' && yp') && (andMask c xm' xp' ym' yp' ^^ c)) =
          ((xp && yp) && (andMask c xm xp ym yp ^^ c)) := by
  decide

theorem or_bits : ∀ c xm xp ym yp xm' xp' ym' yp' : Bool, (xm = false → xm' = false ∧ xp' = xp) →
    (ym = false → ym' = false ∧ yp' = yp) → orMask c xm xp ym yp = false →
      orMask c xm' xp' ym' yp' = false ∧ ((xp' || yp') && (orMask c xm' xp' ym' yp' ^^ c)) =
          ((xp || yp) && (orMask c xm xp ym yp ^^ c)) := by
  decide

theorem xor_bits : ∀ c d xm xp ym yp xm' xp' ym' yp' : Bool,
    (xm = false → xm' = false ∧ xp' = xp) → (ym = false → ym' = false ∧ yp' = yp) →
      (xm || ym) = false → (xm' || ym') = false ∧
        (((xp' ^^ yp') ^^ d) && ((xm' || ym') ^^ c)) = (((xp ^^ yp) ^^ d) && ((xm || ym) ^^ c)) := by
  decide

section Operands

variable {x x' y y' : Value} {width : ℕ}

theorem refines_extend (h : Refines x x') (high width : ℕ) (extend : Bool) (signed : Bool) : Refines
      ⟨if extend && x.payload.testBit (x.width - 1) then x.payload ||| high else x.payload,
        if extend && x.maskXz.testBit (x.width - 1) then x.maskXz ||| high else x.maskXz,
        width, signed⟩
      ⟨if extend && x'.payload.testBit (x.width - 1) then x'.payload ||| high else x'.payload,
        if extend && x'.maskXz.testBit (x.width - 1) then x'.maskXz ||| high else x'.maskXz,
        width, signed⟩ := by
  refine ⟨rfl, rfl, fun i => ?_⟩
  have hfill : ∀ (fill : Bool) (p : ℕ), (if fill then p ||| high else p).testBit i =
      (p.testBit i || (fill && high.testBit i)) := by
    intro fill p
    cases fill <;> simp
  rw [hfill, hfill, hfill, hfill]
  have hbit := h.bits i
  have hmsb := h.bits (x.width - 1)
  cases extend with
  | false => simpa using hbit
  | true =>
    intro hmask
    obtain ⟨hknown, hhigh⟩ := Bool.or_eq_false_iff.1 hmask
    obtain ⟨hm, hp⟩ := hbit hknown
    rw [hm, hp]
    cases hhi : high.testBit i with
    | false => simp
    | true =>
      have hknownMsb : x.maskXz.testBit (x.width - 1) = false := by simpa [hhi] using hhigh
      obtain ⟨hmMsb, hpMsb⟩ := hmsb hknownMsb
      rw [hmMsb, hpMsb]
      simp

theorem refines_expand_biguint (h : Refines x x') (width : ℕ) (useSign : Bool) :
    Refines (ValueBigUint.expand x width useSign) (ValueBigUint.expand x' width useSign) := by
  unfold ValueBigUint.expand
  rw [h.width_eq, h.signed_eq]
  exact refines_extend h _ _ _ _

theorem refines_expand_u64 (h : Refines x x') (width : ℕ) (useSign : Bool) :
    Refines (ValueU64.expand x width useSign) (ValueU64.expand x' width useSign) := by
  unfold ValueU64.expand
  rw [h.width_eq, h.signed_eq]
  split
  · exact h
  · exact refines_extend h _ _ _ _

theorem refines_fillUnsized (h : Refines x x') (width : ℕ) :
    Refines (x.fillUnsized width) (x'.fillUnsized width) := by
  by_cases hxz : x.isXz = true
  · refine ⟨rfl, rfl, fun i hi => ?_⟩
    have hmask : x.maskXz ≠ 0 := by simpa [Value.isXz] using hxz
    have hzero : ∀ P : Prop, [Decidable P] → (if P then genMask width else 0).testBit i = false := by
      intro P _
      have hgen : (genMask width).testBit i = false := by
        unfold Value.fillUnsized at hi
        rwa [if_pos hmask] at hi
      split
      · exact hgen
      · exact zero_testBit i
    exact ⟨hzero _, (hzero _).trans (hzero _).symm⟩
  · rw [h.eq_of_known (by simpa using hxz)]
    exact .refl _

theorem refines_expand (native : ℕ → Bool) (h : Refines x x') (width : ℕ) (useSign : Bool) :
    Refines (Op.expand native x width useSign) (Op.expand native x' width useSign) := by
  unfold Op.expand
  rw [h.width_eq]
  split
  · exact h
  · split
    · exact refines_fillUnsized h width
    · split
      · exact refines_expand_u64 h width useSign
      · exact refines_expand_biguint h width useSign

theorem refines_and_mask (h : Refines x x') (mask width : ℕ) :
    Refines ⟨x.payload &&& mask, x.maskXz &&& mask, width, x.signed⟩
      ⟨x'.payload &&& mask, x'.maskXz &&& mask, width, x'.signed⟩ := by
  refine ⟨rfl, h.signed_eq, fun i => ?_⟩
  rw [testBit_and, testBit_and, testBit_and, testBit_and]
  cases mask.testBit i with
  | false => simp
  | true => simpa using h.bits i

theorem refines_resize (native : ℕ → Bool) (h : Refines x x') (width : ℕ) (signed : Bool) :
    Refines (Op.resize native x width signed) (Op.resize native x' width signed) := by
  unfold Op.resize
  rw [h.width_eq]
  split
  · split
    · exact refines_and_mask h _ _
    · unfold Value.trunc
      rw [h.width_eq]
      split
      · exact refines_fillUnsized h width
      · split
        · exact h
        · exact refines_and_mask h _ _
  · exact refines_expand native h width signed

end Operands

section Bitwise

variable {x x' y y' : Value} {width : ℕ}

theorem refines_bitNot_u64 (h : Refines x x') (width : ℕ) :
    Refines (ValueU64.bitNot x width) (ValueU64.bitNot x' width) := by
  refine ⟨h.width_eq, h.signed_eq, fun i hi => ?_⟩
  obtain ⟨hm, hp⟩ := h.bits i hi
  have hi : x.maskXz.testBit i = false := hi
  simp [ValueU64.bitNot, hm, hp, hi]

theorem refines_bitNot_biguint (h : Refines x x') (width : ℕ) :
    Refines (bitNot x width) (bitNot x' width) := by
  refine ⟨h.width_eq, h.signed_eq, fun i hi => ?_⟩
  obtain ⟨hm, hp⟩ := h.bits i hi
  have hi : x.maskXz.testBit i = false := hi
  simp [bitNot, hm, hp, hi]

theorem testBit_not_comm (q i : ℕ) :
    (ValueU64.not q).testBit i = (q.testBit i ^^ decide (i < 64)) := by
  rw [ValueU64.testBit_not, Bool.xor_comm]

section

variable (hx : Refines x x')

include hx

theorem refines_bitAnd (hy : Refines y y') (width : ℕ) :
    Refines (ValueU64.bitAnd x y width) (ValueU64.bitAnd x' y' width) ∧
      Refines (bitAnd x y width) (bitAnd x' y' width) := by
  constructor
  · refine ⟨rfl, rfl, fun i => ?_⟩
    simp only [ValueU64.bitAnd, testBit_and, testBit_or, testBit_not_comm]
    exact and_bits _ _ _ _ _ _ _ _ _ (hx.bits i) (hy.bits i)
  · refine ⟨rfl, rfl, fun i => ?_⟩
    simp only [bitAnd, testBit_and, testBit_or, testBit_xor]
    exact and_bits _ _ _ _ _ _ _ _ _ (hx.bits i) (hy.bits i)

theorem refines_bitOr (hy : Refines y y') (width : ℕ) :
    Refines (ValueU64.bitOr x y width) (ValueU64.bitOr x' y' width) ∧
      Refines (bitOr x y width) (bitOr x' y' width) := by
  constructor
  · refine ⟨rfl, rfl, fun i => ?_⟩
    simp only [ValueU64.bitOr, testBit_and, testBit_or, testBit_not_comm]
    exact or_bits _ _ _ _ _ _ _ _ _ (hx.bits i) (hy.bits i)
  · refine ⟨rfl, rfl, fun i => ?_⟩
    simp only [bitOr, testBit_and, testBit_or, testBit_xor]
    exact or_bits _ _ _ _ _ _ _ _ _ (hx.bits i) (hy.bits i)

theorem refines_bitXnor (hy : Refines y y') (width : ℕ) :
    Refines (ValueU64.bitXnor x y width) (ValueU64.bitXnor x' y' width) ∧
      Refines (bitXnor x y width) (bitXnor x' y' width) := by
  constructor
  · refine ⟨rfl, rfl, fun i => ?_⟩
    simp only [ValueU64.bitXnor, testBit_and, testBit_or, testBit_xor, testBit_not_comm]
    exact xor_bits _ _ _ _ _ _ _ _ _ _ (hx.bits i) (hy.bits i)
  · refine ⟨rfl, rfl, fun i => ?_⟩
    simp only [bitXnor, testBit_and, testBit_or, testBit_xor]
    exact xor_bits _ _ _ _ _ _ _ _ _ _ (hx.bits i) (hy.bits i)

theorem refines_bitXor (hy : Refines y y') (width : ℕ) :
    Refines (ValueU64.bitXor x y width) (ValueU64.bitXor x' y' width) ∧
      Refines (bitXor x y width) (bitXor x' y' width) := by
  constructor
  · refine ⟨rfl, rfl, fun i => ?_⟩
    have h := fun c => xor_bits c false _ _ _ _ _ _ _ _ (hx.bits i) (hy.bits i)
    simp only [Bool.xor_false] at h
    simp only [ValueU64.bitXor, testBit_and, testBit_or, testBit_xor, testBit_not_comm]
    exact h _
  · refine ⟨rfl, rfl, fun i => ?_⟩
    have h := fun c => xor_bits c false _ _ _ _ _ _ _ _ (hx.bits i) (hy.bits i)
    simp only [Bool.xor_false] at h
    simp only [bitXor, testBit_and, testBit_or, testBit_xor]
    exact h _

end

section

variable (h : Refines x x')

include h

theorem refines_shiftLeft (amount : ℕ) (width : ℕ) (arithmetic : Bool) :
    Refines (ValueU64.shiftLeft x (some amount) width arithmetic)
        (ValueU64.shiftLeft x' (some amount) width arithmetic) ∧
      Refines (ValueBigUint.shiftLeft x (some amount) width arithmetic)
        (ValueBigUint.shiftLeft x' (some amount) width arithmetic) := by
  constructor
  · refine ⟨h.width_eq, by simp only [ValueU64.shiftLeft, h.signed_eq], fun i => ?_⟩
    simp only [ValueU64.shiftLeft, testBit_and, testBit_mod_two_pow, testBit_shiftLeft]
    have hbit := h.bits (i - min amount 64)
    generalize decide (i < 64) = a
    generalize decide (i ≥ min amount 64) = b
    generalize (ValueU64.genMask width).testBit i = c
    revert hbit
    cases a <;> cases b <;> cases c <;> simp
  · refine ⟨h.width_eq, by simp only [ValueBigUint.shiftLeft, h.signed_eq], fun i => ?_⟩
    simp only [ValueBigUint.shiftLeft, testBit_and, testBit_shiftLeft]
    have hbit := h.bits (i - min amount width)
    generalize decide (i ≥ min amount width) = b
    generalize (genMask width).testBit i = c
    revert hbit
    cases b <;> cases c <;> simp

theorem refines_shiftRight (amount high : ℕ) (extend signed : Bool) : Refines
      ⟨(x.payload >>> amount) ||| (if extend && x.payload.testBit (x.width - 1) then high else 0),
        (x.maskXz >>> amount) |||
          (if extend && x.maskXz.testBit (x.width - 1) then high else 0), x.width, signed⟩
      ⟨(x'.payload >>> amount) |||
          (if extend && x'.payload.testBit (x'.width - 1) then high else 0),
        (x'.maskXz >>> amount) |||
          (if extend && x'.maskXz.testBit (x'.width - 1) then high else 0), x'.width, signed⟩ := by
  refine ⟨h.width_eq, rfl, fun i => ?_⟩
  have hfill : ∀ fill : Bool, (if fill then high else 0).testBit i = (fill && high.testBit i) := by
    intro fill
    cases fill <;> simp
  rw [h.width_eq]
  simp only [testBit_or, testBit_shiftRight, hfill]
  have hbit := h.bits (amount + i)
  have hmsb := h.bits (x.width - 1)
  intro hmask
  obtain ⟨hknown, hhigh⟩ := Bool.or_eq_false_iff.1 hmask
  obtain ⟨hm, hp⟩ := hbit hknown
  rw [hm, hp]
  cases hgate : extend && high.testBit i with
  | false =>
    cases extend <;> cases hhi : high.testBit i <;> simp_all
  | true =>
    obtain ⟨rfl, hhi⟩ := Bool.and_eq_true_iff.1 hgate
    have hknownMsb : x.maskXz.testBit (x.width - 1) = false := by simpa [hhi] using hhigh
    obtain ⟨hmMsb, hpMsb⟩ := hmsb hknownMsb
    rw [hmMsb, hpMsb]
    simp

theorem refines_shiftRight_u64 (amount width : ℕ) (signed arithmetic : Bool) :
    Refines (ValueU64.shiftRight x (some amount) width signed arithmetic)
      (ValueU64.shiftRight x' (some amount) width signed arithmetic) := by
  unfold ValueU64.shiftRight
  rw [h.signed_eq]
  exact refines_shiftRight h _ _ _ _

theorem refines_arithShiftR (amount width : ℕ) (signed : Bool) :
    Refines (arithShiftR x (some amount) width signed)
      (arithShiftR x' (some amount) width signed) := by
  unfold arithShiftR
  rw [h.signed_eq]
  exact refines_shiftRight h _ _ _ _

theorem refines_logicShiftR (amount width : ℕ) : Refines (logicShiftR x (some amount) width)
      (logicShiftR x' (some amount) width) := by
  refine ⟨h.width_eq, rfl, fun i => ?_⟩
  simp only [logicShiftR, testBit_shiftRight]
  exact h.bits _

end

end Bitwise

section WellFormedOperands

variable {x : Value} {native : ℕ → Bool}

theorem Value.Normalised.wellFormed (hx : x.Normalised) : x.WellFormed := by
  have hmax : max x.width 1 = x.width := by have := hx.width_pos; omega
  refine ⟨?_, ?_⟩
  · rw [hmax]
    exact hx.payload_lt
  · rw [hmax]
    exact hx.maskXz_lt

theorem Value.WellFormed.normalised (hx : x.WellFormed) (hpos : 0 < x.width) : x.Normalised := by
  have hmax : max x.width 1 = x.width := by omega
  exact ⟨hpos, hmax ▸ hx.payload_lt, hmax ▸ hx.maskXz_lt⟩

theorem wellFormed_fillUnsized (x : Value) (width : ℕ) : (x.fillUnsized width).WellFormed := by
  have hbits : ∀ P : Prop, [Decidable P] → (if P then genMask width else 0) < 2 ^ max width 1 := by
    intro P _
    split
    · exact (genMask_lt width).trans_le (Nat.pow_le_pow_right (by omega) (by omega))
    · exact Nat.two_pow_pos _
  exact ⟨hbits _, hbits _⟩

theorem wellFormed_expand (hnative : ∀ w, native w = true → w ≤ 64) (hx : x.WellFormed)
    (width : ℕ) (useSign : Bool) : (Op.expand native x width useSign).WellFormed := by
  rw [Op.expand_native hnative]
  by_cases hzero : x.width = 0
  · unfold Op.expand
    rw [if_neg (by omega), if_pos hzero]
    exact wellFormed_fillUnsized x width
  · by_cases hwide : width ≤ x.width
    · unfold Op.expand
      rw [if_pos ⟨hwide, hzero⟩]
      exact hx
    · exact (Op.normalised_expand (hx.normalised (by omega)) (by omega) useSign).1.wellFormed

theorem width_expand (native : ℕ → Bool) (x : Value) (width : ℕ) (useSign : Bool) :
    (Op.expand native x width useSign).width =
      if width ≤ x.width ∧ x.width ≠ 0 then x.width else width := by
  unfold Op.expand
  by_cases hwide : width ≤ x.width ∧ x.width ≠ 0
  · rw [if_pos hwide, if_pos hwide]
  · rw [if_neg hwide, if_neg hwide]
    split
    · rfl
    · split
      · unfold ValueU64.expand
        rw [if_neg (by omega)]
      · rfl

theorem le_width_expand (native : ℕ → Bool) (x : Value) (width : ℕ) (useSign : Bool) :
    width ≤ (Op.expand native x width useSign).width := by
  rw [width_expand]
  split
  · exact (‹_ ∧ _›).1
  · exact Nat.le_refl _

end WellFormedOperands

section Tests

variable {x x' y y' : Value} {width : ℕ}

theorem ne_zero_iff_testBit : n ≠ 0 ↔ ∃ i, n.testBit i = true := by
  constructor
  · intro h
    by_contra hnone
    refine h (eq_of_testBit_eq fun i => ?_)
    rw [zero_testBit]
    exact eq_false_of_ne_true fun hi => hnone ⟨i, hi⟩
  · rintro ⟨i, hi⟩ rfl
    rw [zero_testBit] at hi
    exact absurd hi (by decide)

/-- The two planes of an operand have no bit where the complement has none. -/
def Below (c : ℕ → Bool) (x : Value) : Prop :=
  ∀ i, c i = false → x.maskXz.testBit i = false ∧ x.payload.testBit i = false

theorem below_u64 (hx : x.WellFormed) (hle : x.width ≤ 64) :
    Below (fun i => decide (i < 64)) x := by
  intro i hi
  have hi : ¬i < 64 := of_decide_eq_false hi
  exact ⟨testBit_of_le hx.maskXz_lt (by omega), testBit_of_le hx.payload_lt (by omega)⟩

theorem below_width (hx : x.Normalised) : Below (fun i => decide (i < x.width)) x := by
  intro i hi
  have hi : ¬i < x.width := of_decide_eq_false hi
  exact ⟨testBit_of_le hx.maskXz_lt (by omega), testBit_of_le hx.payload_lt (by omega)⟩

theorem knownOne_mono {n' : ℕ}
    (hn : ∀ i, n.testBit i = (x.payload.testBit i && (x.maskXz.testBit i ^^ c i)))
    (hn' : ∀ i, n'.testBit i = (x'.payload.testBit i && (x'.maskXz.testBit i ^^ c i)))
    (hx : Refines x x') (hbelow : Below c x) (h : n ≠ 0) : n' ≠ 0 := by
  obtain ⟨i, hi⟩ := ne_zero_iff_testBit.1 h
  rw [hn] at hi
  refine ne_zero_iff_testBit.2 ⟨i, ?_⟩
  rw [hn']
  cases hc : c i with
  | false =>
    rw [(hbelow i hc).2, Bool.false_and] at hi
    exact absurd hi Bool.false_ne_true
  | true =>
    rw [hc] at hi
    cases hm : x.maskXz.testBit i with
    | true =>
      rw [hm] at hi
      simp at hi
    | false =>
      obtain ⟨hm', hp'⟩ := hx.bits i hm
      rw [hm', hp']
      rwa [hm] at hi

theorem knownOne_u64_mono (hx : Refines x x') (hwf : x.WellFormed) (hle : x.width ≤ 64)
    (h : x.payload &&& ValueU64.not x.maskXz ≠ 0) : x'.payload &&& ValueU64.not x'.maskXz ≠ 0 :=
  knownOne_mono (fun i => by rw [testBit_and, testBit_not_comm])
    (fun i => by rw [testBit_and, testBit_not_comm]) hx (below_u64 hwf hle) h

theorem knownOne_biguint_mono (hx : Refines x x') (hn : x.Normalised)
    (h : x.payload &&& (x.maskXz ^^^ genMask x.width) ≠ 0) :
    x'.payload &&& (x'.maskXz ^^^ genMask x'.width) ≠ 0 := by
  rw [hx.width_eq]
  exact knownOne_mono (fun i => by rw [testBit_and, testBit_xor, testBit_genMask])
    (fun i => by rw [testBit_and, testBit_xor, testBit_genMask]) hx (below_width hn) h

theorem not_isXz_iff : x.isXz = false ↔ x.maskXz = 0 := by simp [Value.isXz]

theorem refines_logic (one : Value → Bool) (hx : Refines x x') (hy : Refines y y')
    (honex : one x = true → one x' = true) (honey : one y = true → one y' = true)
    (hzero : ∀ v : Value, v.payload = 0 → one v = false) (conjunction : Bool) :
    Refines (if conjunction then newBit1x (one x && one y)
          (!decide ((x.payload = 0 ∧ x.maskXz = 0) ∨ (y.payload = 0 ∧ y.maskXz = 0)) &&
            (x.isXz || y.isXz))
        else newBit1x (one x || one y) (x.isXz || y.isXz))
      (if conjunction then newBit1x (one x' && one y')
          (!decide ((x'.payload = 0 ∧ x'.maskXz = 0) ∨ (y'.payload = 0 ∧ y'.maskXz = 0)) &&
            (x'.isXz || y'.isXz))
        else newBit1x (one x' || one y') (x'.isXz || y'.isXz)) := by
  have hsame : (x.isXz || y.isXz) = false → x' = x ∧ y' = y := by
    intro h
    obtain ⟨hxxz, hyxz⟩ := Bool.or_eq_false_iff.1 h
    exact ⟨hx.eq_of_known hxxz, hy.eq_of_known hyxz⟩
  cases conjunction with
  | true =>
    refine refines_newBit1x (fun h => ?_) (fun hone h => ?_)
    · obtain ⟨h1, h2⟩ := Bool.and_eq_true_iff.1 h
      rw [honex h1, honey h2]
      rfl
    · obtain hz | hknown := Bool.and_eq_false_iff.1 h
      · -- a known zero on one side decides both runs
        have hz : (x.payload = 0 ∧ x.maskXz = 0) ∨ (y.payload = 0 ∧ y.maskXz = 0) := by
          simpa only [Bool.not_eq_false', decide_eq_true_eq] using hz
        obtain hz | hz := hz
        · have hx' := hx.eq_of_known (not_isXz_iff.2 hz.2)
          rw [hx']
          simp [hz.1, hz.2, hzero x hz.1]
        · have hy' := hy.eq_of_known (not_isXz_iff.2 hz.2)
          rw [hy']
          simp [hz.1, hz.2, hzero y hz.1]
      · obtain ⟨rfl, rfl⟩ := hsame hknown
        exact ⟨hone, h⟩
  | false =>
    refine refines_newBit1x (fun h => ?_) (fun hone h => ?_)
    · obtain h1 | h2 := Bool.or_eq_true_iff.1 h
      · rw [honex h1, Bool.true_or]
      · rw [honey h2, Bool.or_true]
    · obtain ⟨rfl, rfl⟩ := hsame h
      exact ⟨hone, h⟩

section

variable (hx : Refines x x')

include hx

theorem reduced_same (known : Value → Bool) (hknown : known x = false)
    (hxz : decide (x.maskXz ≠ 0) = false) : known x' = false ∧ decide (x'.maskXz ≠ 0) = false := by
  rw [hx.eq_of_known hxz]
  exact ⟨hknown, hxz⟩

theorem refines_reduceAnd (hn : x.Normalised) (negated : Bool) :
    Refines (ValueBigUint.reduceAnd x negated) (ValueBigUint.reduceAnd x' negated) := by
  have hmono : x.payload ||| x.maskXz ≠ genMask x.width →
      x'.payload ||| x'.maskXz ≠ genMask x'.width := by
    rw [hx.width_eq]
    intro h hfull
    refine h (eq_of_testBit_eq fun i => ?_)
    have hbit := congrArg (fun n : ℕ => n.testBit i) hfull
    simp only [testBit_or, testBit_genMask] at hbit ⊢
    cases hm : x.maskXz.testBit i with
    | false =>
      obtain ⟨hm', hp'⟩ := hx.bits i hm
      rw [hm', hp'] at hbit
      exact hbit
    | true =>
      have hi : i < x.width := by
        by_contra hge
        rw [testBit_of_le hn.maskXz_lt (by omega)] at hm
        exact absurd hm Bool.false_ne_true
      rw [Bool.or_true, decide_eq_true hi]
  cases negated with
  | true =>
    exact refines_newBit1x (fun h => decide_eq_true (hmono (of_decide_eq_true h)))
      (reduced_same hx fun v => decide (v.payload ||| v.maskXz ≠ genMask v.width))
  | false =>
    exact refines_newBit0x (fun h => decide_eq_true (hmono (of_decide_eq_true h)))
      (reduced_same hx fun v => decide (v.payload ||| v.maskXz ≠ genMask v.width))

theorem refines_reduceOr (hn : x.Normalised) (negated : Bool) :
    Refines (ValueBigUint.reduceOr x negated) (ValueBigUint.reduceOr x' negated) := by
  cases negated with
  | true =>
    exact refines_newBit0x
      (fun h => decide_eq_true (knownOne_biguint_mono hx hn (of_decide_eq_true h)))
      (reduced_same hx knownOne)
  | false =>
    exact refines_newBit1x
      (fun h => decide_eq_true (knownOne_biguint_mono hx hn (of_decide_eq_true h)))
      (reduced_same hx knownOne)

theorem refines_reduceXor (negated : Bool) :
    Refines (ValueBigUint.reduceXor x negated) (ValueBigUint.reduceXor x' negated) := by
  by_cases hxz : x.isXz = true
  · unfold ValueBigUint.reduceXor
    rw [if_pos hxz]
    split
    · exact .refl _
    · exact refines_newX_bit _
  · rw [hx.eq_of_known (by simpa using hxz)]
    exact .refl _

section

variable (hy : Refines y y')

include hy

theorem refines_logic_u64 (hxwf : x.WellFormed)
    (hywf : y.WellFormed) (hxle : x.width ≤ 64) (hyle : y.width ≤ 64) (conjunction : Bool) :
    Refines (logicalBinary x y conjunction) (logicalBinary x' y' conjunction) :=
  refines_logic (fun v => decide (v.payload &&& ValueU64.not v.maskXz ≠ 0)) hx hy
    (fun h => decide_eq_true (knownOne_u64_mono hx hxwf hxle (of_decide_eq_true h)))
    (fun h => decide_eq_true (knownOne_u64_mono hy hywf hyle (of_decide_eq_true h)))
    (fun v hv => by simp [hv]) conjunction

theorem refines_logic_biguint (hxn : x.Normalised) (hyn : y.Normalised) (conjunction : Bool) :
    Refines (if conjunction then logicAnd x y else logicOr x y)
      (if conjunction then logicAnd x' y' else logicOr x' y') :=
  refines_logic knownOne hx hy
    (fun h => decide_eq_true (knownOne_biguint_mono hx hxn (of_decide_eq_true h)))
    (fun h => decide_eq_true (knownOne_biguint_mono hy hyn (of_decide_eq_true h)))
    (fun v hv => by simp [knownOne, hv]) conjunction

theorem refines_equal {compareMask compareMask' knownMask knownMask' : ℕ} (hxc : Below c x)
    (hyc : Below c y) (hwildcard : wildcard = true → y' = y)
    (hcompare : ∀ i, compareMask.testBit i = if wildcard then (y.maskXz.testBit i ^^ c i) else c i)
    (hcompare' : ∀ i, compareMask'.testBit i =
      if wildcard then (y'.maskXz.testBit i ^^ c i) else c i)
    (hknown : ∀ i, knownMask.testBit i = ((compareMask.testBit i && (x.maskXz.testBit i ^^ c i)) &&
      (y.maskXz.testBit i ^^ c i)))
    (hknown' : ∀ i, knownMask'.testBit i = ((compareMask'.testBit i &&
      (x'.maskXz.testBit i ^^ c i)) && (y'.maskXz.testBit i ^^ c i))) (negated : Bool) :
    Refines (if negated then newBit1x (decide ((x.payload ^^^ y.payload) &&& knownMask ≠ 0))
          (decide ((x.maskXz ||| y.maskXz) &&& compareMask ≠ 0))
        else newBit0x (decide ((x.payload ^^^ y.payload) &&& knownMask ≠ 0))
          (decide ((x.maskXz ||| y.maskXz) &&& compareMask ≠ 0)))
      (if negated then newBit1x (decide ((x'.payload ^^^ y'.payload) &&& knownMask' ≠ 0))
          (decide ((x'.maskXz ||| y'.maskXz) &&& compareMask' ≠ 0))
        else newBit0x (decide ((x'.payload ^^^ y'.payload) &&& knownMask' ≠ 0))
          (decide ((x'.maskXz ||| y'.maskXz) &&& compareMask' ≠ 0))) := by
  -- the bits that are compared are the same before and after
  have hsame : ∀ i, compareMask'.testBit i = compareMask.testBit i := by
    intro i
    rw [hcompare, hcompare']
    cases wildcard with
    | true => rw [hwildcard rfl]
    | false => rfl
  have hmismatch : (x.payload ^^^ y.payload) &&& knownMask ≠ 0 →
      (x'.payload ^^^ y'.payload) &&& knownMask' ≠ 0 := by
    intro h
    obtain ⟨i, hi⟩ := ne_zero_iff_testBit.1 h
    refine ne_zero_iff_testBit.2 ⟨i, ?_⟩
    rw [testBit_and, testBit_xor, hknown] at hi
    rw [testBit_and, testBit_xor, hknown', hsame]
    cases hc : c i with
    | false =>
      rw [(hxc i hc).2, (hyc i hc).2] at hi
      simp at hi
    | true =>
      rw [hc] at hi
      obtain ⟨hxor, hmasks⟩ := Bool.and_eq_true_iff.1 hi
      obtain ⟨hmasks, hym⟩ := Bool.and_eq_true_iff.1 hmasks
      obtain ⟨hcmp, hxm⟩ := Bool.and_eq_true_iff.1 hmasks
      obtain ⟨hxm', hxp'⟩ := hx.bits i (by simpa using hxm)
      obtain ⟨hym', hyp'⟩ := hy.bits i (by simpa using hym)
      rw [hxp', hyp', hxm', hym', hxor, hcmp]
      rfl
  have hknownBits : (x.maskXz ||| y.maskXz) &&& compareMask = 0 → ∀ i,
      compareMask.testBit i = true → x.maskXz.testBit i = false ∧ y.maskXz.testBit i = false := by
    intro h i hi
    have hbit := congrArg (fun n : ℕ => n.testBit i) h
    simp only [testBit_and, testBit_or, zero_testBit, hi, Bool.and_true] at hbit
    exact Bool.or_eq_false_iff.1 hbit
  have hzero : decide ((x.payload ^^^ y.payload) &&& knownMask ≠ 0) = false →
      decide ((x.maskXz ||| y.maskXz) &&& compareMask ≠ 0) = false →
        decide ((x'.payload ^^^ y'.payload) &&& knownMask' ≠ 0) = false ∧
          decide ((x'.maskXz ||| y'.maskXz) &&& compareMask' ≠ 0) = false := by
    intro hmis hunk
    have hmis : (x.payload ^^^ y.payload) &&& knownMask = 0 := by simpa using hmis
    have hunk : (x.maskXz ||| y.maskXz) &&& compareMask = 0 := by simpa using hunk
    have hbits := hknownBits hunk
    have hmis' : (x'.payload ^^^ y'.payload) &&& knownMask' = 0 := by
      rw [← hmis]
      refine eq_of_testBit_eq fun i => ?_
      rw [testBit_and, testBit_and, testBit_xor, testBit_xor, hknown, hknown', hsame]
      cases hcmp : compareMask.testBit i with
      | false => simp
      | true =>
        obtain ⟨hxm, hym⟩ := hbits i hcmp
        obtain ⟨hxm', hxp'⟩ := hx.bits i hxm
        obtain ⟨hym', hyp'⟩ := hy.bits i hym
        rw [hxm', hxp', hym', hyp', hxm, hym]
    have hunk' : (x'.maskXz ||| y'.maskXz) &&& compareMask' = 0 := by
      refine eq_of_testBit_eq fun i => ?_
      rw [testBit_and, testBit_or, hsame, zero_testBit]
      cases hcmp : compareMask.testBit i with
      | false => simp
      | true =>
        obtain ⟨hxm, hym⟩ := hbits i hcmp
        rw [(hx.bits i hxm).1, (hy.bits i hym).1]
        rfl
    simp [hmis', hunk']
  cases negated with
  | true =>
    exact refines_newBit1x (fun h => decide_eq_true (hmismatch (of_decide_eq_true h))) hzero
  | false =>
    exact refines_newBit0x (fun h => decide_eq_true (hmismatch (of_decide_eq_true h))) hzero

theorem refines_equal_u64 (hxwf : x.WellFormed)
    (hywf : y.WellFormed) (hxle : x.width ≤ 64) (hyle : y.width ≤ 64)
    (hwildcard : wildcard = true → y' = y) (negated : Bool) :
    Refines (ValueU64.equal x y wildcard negated) (ValueU64.equal x' y' wildcard negated) := by
  have hcompare : ∀ (v : Value) (i : ℕ),
      (if wildcard then ValueU64.not v.maskXz else 2 ^ 64 - 1).testBit i =
        if wildcard then (v.maskXz.testBit i ^^ decide (i < 64)) else decide (i < 64) := by
    intro v i
    cases wildcard with
    | true => exact testBit_not_comm _ i
    | false => exact testBit_two_pow_sub_one 64 i
  exact refines_equal hx hy (below_u64 hxwf hxle) (below_u64 hywf hyle) hwildcard (hcompare y)
    (hcompare y') (fun i => by simp [testBit_not_comm])
    (fun i => by simp [testBit_not_comm]) negated

theorem refines_equal_biguint (hxn : x.Normalised)
    (hyn : y.Normalised) (hxw : x.width = width) (hyw : y.width = width)
    (hwildcard : wildcard = true → y' = y) (negated : Bool) :
    Refines (equal x y width wildcard negated) (equal x' y' width wildcard negated) := by
  have hcompare : ∀ (v : Value) (i : ℕ),
      (if wildcard then v.maskXz ^^^ genMask width else genMask width).testBit i =
        if wildcard then (v.maskXz.testBit i ^^ decide (i < width)) else decide (i < width) := by
    intro v i
    cases wildcard with
    | true =>
      rw [if_pos rfl, if_pos rfl, testBit_xor, testBit_genMask]
    | false => exact testBit_genMask width i
  exact refines_equal hx hy (hxw ▸ below_width hxn) (hyw ▸ below_width hyn) hwildcard (hcompare y)
    (hcompare y') (fun i => by simp [testBit_genMask])
    (fun i => by simp [testBit_genMask]) negated

theorem refines_compare_u64 (signed greater inclusive : Bool) :
    Refines (ValueU64.compare x y signed greater inclusive)
      (ValueU64.compare x' y' signed greater inclusive) := by
  by_cases hxz : (x.isXz || y.isXz) = true
  · unfold ValueU64.compare
    rw [hxz]
    exact refines_newBitX1 fun h => absurd h.symm Bool.false_ne_true
  · obtain ⟨hxxz, hyxz⟩ : x.isXz = false ∧ y.isXz = false := by simpa using hxz
    rw [hx.eq_of_known hxxz, hy.eq_of_known hyxz]
    exact .refl _

theorem refines_ordered (relation : Ordering → Bool) (signed : Bool) :
    Refines (ordered x y (relation (order x y signed)))
      (ordered x' y' (relation (order x' y' signed))) := by
  by_cases hxz : (decide (x.maskXz ≠ 0) || decide (y.maskXz ≠ 0)) = true
  · unfold ordered
    rw [hxz]
    exact refines_newBitX1 fun h => absurd h.symm Bool.false_ne_true
  · obtain ⟨hxxz, hyxz⟩ : x.isXz = false ∧ y.isXz = false :=
      Bool.or_eq_false_iff.1 (eq_false_of_ne_true hxz)
    rw [hx.eq_of_known hxxz, hy.eq_of_known hyxz]
    exact .refl _

end

end

end Tests

end Veryl.Analyzer
