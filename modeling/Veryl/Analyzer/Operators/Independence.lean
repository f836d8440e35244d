import Veryl.Analyzer.Operators.Eval

/-!
The two bodies of every operator compute the same value: where values are kept
in native words does not matter, so long as they fit.
-/

namespace Veryl.Analyzer

open Nat Option ValueBigUint
open ValueU64 (addSub asI64 checkedDiv checkedRem divideRemainder logicalBinary powerLoop signExtend)
open ValueBigUint (divRem knownOne newBigint newBiguint powModWidth powNegative powU64 toBigint)

variable {p : ℕ} {u64 biguint : Value} {width : ℕ}

/-- A value of at least one bit with nothing beyond its width. -/
structure Value.Normalised (x : Value) : Prop where
  width_pos : 0 < x.width
  payload_lt : x.payload < 2 ^ x.width
  maskXz_lt : x.maskXz < 2 ^ x.width

@[simp] theorem testBit_genMask (width i : ℕ) : (genMask width).testBit i = decide (i < width) :=
  testBit_two_pow_sub_one width i

theorem and_genMask (p width : ℕ) : p &&& genMask width = p % 2 ^ width :=
  and_two_pow_sub_one_eq_mod p width

theorem xor_genMask (h : p < 2 ^ width) : p ^^^ genMask width = 2 ^ width - (p + 1) := by
  refine eq_of_testBit_eq fun i => ?_
  rw [testBit_xor, testBit_genMask, testBit_two_pow_sub_succ h]
  by_cases hi : i < width
  · simp [hi]
  · have hp : p.testBit i = false :=
      testBit_lt_two_pow (h.trans_le (Nat.pow_le_pow_right (by omega) (by omega)))
    simp [hi, hp]

theorem testBit_of_le {i : ℕ} (h : p < 2 ^ width) (hi : width ≤ i) : p.testBit i = false :=
  testBit_lt_two_pow (h.trans_le (Nat.pow_le_pow_right (by omega) hi))

theorem two_pow_dvd (h : width ≤ 64) : 2 ^ width ∣ 2 ^ 64 := Nat.pow_dvd_pow 2 h

theorem mod_and_genMask (p : ℕ) (h : width ≤ 64) :
    (p % 2 ^ 64) &&& genMask width = p &&& genMask width := by
  rw [and_genMask, and_genMask, mod_mod_of_dvd _ (two_pow_dvd h)]

namespace ValueU64

theorem genMask_eq (h : width ≤ 64) : genMask width = Analyzer.genMask width := by
  unfold genMask Analyzer.genMask
  split
  · have hwidth : width = 64 := by omega
    rw [hwidth]
  · rfl

theorem newX_eq (signed : Bool) (h : width ≤ 64) :
    newX width signed = ValueBigUint.newX width signed := by
  rw [newX, ValueBigUint.newX, genMask_eq h]

theorem testBit_not (p i : ℕ) : (not p).testBit i = (decide (i < 64) ^^ p.testBit i) := by
  rw [not, testBit_xor, testBit_two_pow_sub_one]

theorem asU64_and_genMask (z : ℤ) (h : width ≤ 64) :
    asU64 z &&& Analyzer.genMask width = (z % 2 ^ width).toNat := by
  rw [and_genMask, asU64]
  have hdvd : (2 ^ width : ℤ) ∣ 2 ^ 64 := pow_dvd_pow 2 h
  have hnonneg : 0 ≤ z % 2 ^ 64 := Int.emod_nonneg _ (by norm_num)
  zify
  rw [Int.toNat_of_nonneg hnonneg, Int.toNat_of_nonneg (Int.emod_nonneg _ (by positivity)),
    Int.emod_emod_of_dvd _ hdvd]

end ValueU64

/-- The signed number in a payload of the given width. -/
def signedPayload (p width : ℕ) : ℤ :=
  if p.testBit (width - 1) then (p : ℤ) - 2 ^ width else p

theorem testBit_msb (hwidth : 0 < width) (h : p < 2 ^ width) :
    p.testBit (width - 1) = true ↔ 2 ^ (width - 1) ≤ p := by
  constructor
  · exact ge_two_pow_of_testBit
  intro hle
  obtain ⟨n, rfl⟩ : ∃ n, width = n + 1 := ⟨width - 1, by omega⟩
  rw [Nat.add_sub_cancel] at hle ⊢
  rw [testBit_eq_decide_div_mod_eq, decide_eq_true_eq]
  have hdiv : p / 2 ^ n = 1 := by
    exact Nat.div_eq_of_lt_le (by omega) (by omega)
  rw [hdiv]

theorem signedPayload_bounds (hwidth : 0 < width) (h : p < 2 ^ width) :
    -2 ^ (width - 1) ≤ signedPayload p width ∧ signedPayload p width < 2 ^ (width - 1) := by
  obtain ⟨n, rfl⟩ : ∃ n, width = n + 1 := ⟨width - 1, by omega⟩
  have hmsb := testBit_msb hwidth h
  rw [Nat.add_sub_cancel] at hmsb ⊢
  unfold signedPayload
  have hlt : (p : ℤ) < 2 ^ (n + 1) := by exact_mod_cast h
  split
  · rename_i hbit
    have hle : (2 ^ n : ℤ) ≤ p := by exact_mod_cast hmsb.1 hbit
    constructor <;> omega
  · rename_i hbit
    have hle : ¬2 ^ n ≤ p := fun hle => hbit (hmsb.2 hle)
    have hp : (p : ℤ) < 2 ^ n := by exact_mod_cast Nat.lt_of_not_le hle
    constructor <;> omega

theorem signExtend_eq (hwidth : 0 < width) (hle : width ≤ 64) (h : p < 2 ^ width) :
    signExtend p width = signedPayload p width := by
  obtain ⟨s, hs⟩ : ∃ s, 64 - width = s := ⟨_, rfl⟩
  obtain ⟨n, rfl⟩ : ∃ n, width = n + 1 := ⟨width - 1, by omega⟩
  have hmsb := testBit_msb hwidth h
  rw [Nat.add_sub_cancel] at hmsb
  have hword : 2 ^ 64 = 2 ^ (n + 1) * 2 ^ s := by rw [← Nat.pow_add]; congr 1; omega
  have hhalf : 2 ^ 63 = 2 ^ n * 2 ^ s := by rw [← Nat.pow_add]; congr 1; omega
  have hpos : 0 < 2 ^ s := Nat.two_pow_pos s
  have hlt : p * 2 ^ s < 2 ^ 64 := by
    rw [hword]
    exact (Nat.mul_lt_mul_right hpos).2 h
  unfold signExtend asI64 signedPayload
  rw [hs, Nat.shiftLeft_eq, mod_eq_of_lt hlt, Nat.add_sub_cancel, Int.shiftRight_eq_div_pow]
  have hposInt : (2 ^ s : ℤ) ≠ 0 := by positivity
  by_cases hbit : 2 ^ n ≤ p
  · have hge : ¬p * 2 ^ s < 2 ^ 63 := by
      rw [hhalf, Nat.not_lt]
      exact Nat.mul_le_mul_right _ hbit
    rw [if_neg hge, if_pos (hmsb.2 hbit)]
    have hwordInt : (2 ^ 64 : ℤ) = 2 ^ (n + 1) * 2 ^ s := by exact_mod_cast hword
    rw [hwordInt]
    push_cast
    rw [← sub_mul, Int.mul_ediv_cancel _ hposInt]
  · have hsmall : p * 2 ^ s < 2 ^ 63 := by
      rw [hhalf]
      exact (Nat.mul_lt_mul_right hpos).2 (by omega)
    rw [if_pos hsmall, if_neg fun h => hbit (hmsb.1 h)]
    push_cast
    rw [Int.mul_ediv_cancel _ hposInt]

theorem toBigint_eq {x : Value} (hx : x.Normalised) (hxz : x.isXz = false) :
    toBigint x = some (signedPayload x.payload x.width) := by
  have hmask : ¬x.maskXz ≠ 0 := by simpa [Value.isXz] using hxz
  unfold toBigint signedPayload
  rw [if_neg hmask]
  split
  · rename_i hbit
    have hpos : 0 < x.payload :=
      (Nat.two_pow_pos _).trans_le ((testBit_msb hx.width_pos hx.payload_lt).1 hbit)
    have hlt := hx.payload_lt
    dsimp only
    rw [xor_genMask hlt, and_genMask, mod_eq_of_lt (by omega)]
    congr 1
    have hcast : ((2 ^ x.width - (x.payload + 1) + 1 : ℕ) : ℤ) = 2 ^ x.width - x.payload := by
      zify
      have hle : x.payload + 1 ≤ 2 ^ x.width := hlt
      push_cast [cast_sub hle]
      ring
    rw [hcast]
    ring
  · rfl

theorem newBigint_eq {z : ℤ} (signed : Bool) (h : z.natAbs < 2 ^ width) : newBigint z width signed =
      newBiguint (z % 2 ^ width).toNat width signed := by
  unfold newBigint newBiguint
  dsimp only
  congr 1
  split
  · obtain ⟨n, rfl⟩ : ∃ n : ℕ, z = -(n : ℤ) := ⟨z.natAbs, by omega⟩
    rw [Int.natAbs_neg, Int.natAbs_natCast] at h ⊢
    have hlt : (n : ℤ) < 2 ^ width := by exact_mod_cast h
    have hmod : -(n : ℤ) % 2 ^ width = -(n : ℤ) + 2 ^ width := by
      rw [← Int.add_emod_right]
      exact Int.emod_eq_of_lt (by omega) (by omega)
    have hle : n + 1 ≤ 2 ^ width := h
    rw [xor_genMask h, and_genMask, mod_eq_of_lt (by omega), hmod]
    zify
    rw [Int.toNat_of_nonneg (by omega)]
    push_cast [cast_sub hle]
    ring
  · obtain ⟨n, rfl⟩ : ∃ n : ℕ, z = n := ⟨z.natAbs, by omega⟩
    rw [Int.natAbs_natCast, and_genMask]
    exact (Int.toNat_natCast (n % 2 ^ width)).symm

section Bodies

variable {x y : Value} {width : ℕ}

theorem expand_eq (hx : x.width < width) (hle : width ≤ 64) (useSign : Bool) :
    ValueU64.expand x width useSign = ValueBigUint.expand x width useSign := by
  unfold ValueU64.expand ValueBigUint.expand
  rw [if_neg (by omega), ValueU64.genMask_eq hle, ValueU64.genMask_eq (by omega)]

theorem reduceAnd_eq (hle : x.width ≤ 64) (negated : Bool) :
    ValueU64.reduceAnd x negated = ValueBigUint.reduceAnd x negated := by
  unfold ValueU64.reduceAnd ValueBigUint.reduceAnd
  rw [ValueU64.genMask_eq hle]
  rfl

theorem reduceOr_eq (hle : x.width ≤ 64) (negated : Bool) :
    ValueU64.reduceOr x negated = ValueBigUint.reduceOr x negated := by
  unfold ValueU64.reduceOr ValueBigUint.reduceOr
  rw [ValueU64.genMask_eq hle]
  rfl

theorem reduceXor_eq (negated : Bool) :
    ValueU64.reduceXor x negated = ValueBigUint.reduceXor x negated := by
  unfold ValueU64.reduceXor ValueBigUint.reduceXor
  split
  · rfl
  · have hparity : countOnes x.payload % 2 = 0 ∨ countOnes x.payload % 2 = 1 := by omega
    obtain h | h := hparity <;> cases negated <;> simp [h]

theorem checked_emod (a b : ℤ) (hle : width ≤ 64) (remainder : Bool) :
    (if remainder then checkedRem a b else checkedDiv a b) % 2 ^ width =
      (if remainder then a.tmod b else a.tdiv b) % 2 ^ width := by
  unfold checkedRem checkedDiv
  by_cases hmin : a = -2 ^ 63 ∧ b = -1
  · obtain ⟨rfl, rfl⟩ := hmin
    cases remainder with
    | true => simp
    | false =>
      have hdvd : (2 ^ width : ℤ) ∣ 2 ^ 64 := pow_dvd_pow 2 hle
      have hquotient : (-2 ^ 63 : ℤ).tdiv (-1) = -2 ^ 63 + 2 ^ 64 := by decide
      simp only [Bool.false_eq_true, if_false, and_self, if_true, hquotient]
      exact (Int.emod_emod_of_dvd _ hdvd).symm.trans (by
        rw [← Int.emod_emod_of_dvd (-2 ^ 63 + 2 ^ 64 : ℤ) hdvd, Int.add_emod_right])
  · rw [if_neg hmin, if_neg hmin]

theorem natAbs_tdiv_tmod_lt {a b : ℤ} {n : ℕ} (ha : a.natAbs < n) (remainder : Bool) :
    (if remainder then a.tmod b else a.tdiv b).natAbs < n := by
  cases remainder with
  | true =>
    rw [if_pos rfl, Int.natAbs_tmod]
    exact (mod_le _ _).trans_lt ha
  | false =>
    rw [if_neg Bool.false_ne_true, Int.natAbs_tdiv]
    exact (Nat.div_le_self _ _).trans_lt ha

theorem divRem_eq (hx : x.Normalised) (hy : y.Normalised) (hxw : x.width = width)
    (hyw : y.width = width) (hle : width ≤ 64) (signed remainder : Bool) :
    divideRemainder x y width signed remainder = divRem x y width signed remainder := by
  subst hxw
  have hylt : y.payload < 2 ^ x.width := hyw ▸ hy.payload_lt
  unfold divideRemainder divRem
  rw [ValueU64.newX_eq _ hle, ValueU64.genMask_eq hle]
  dsimp only
  rw [and_genMask, mod_eq_of_lt hylt]
  split
  · rfl
  rename_i hknown
  simp only [Bool.or_eq_true, beq_iff_eq, not_or, Bool.not_eq_true] at hknown
  obtain ⟨⟨hxxz, hyxz⟩, -⟩ := hknown
  cases signed with
  | true =>
    have hbounds := signedPayload_bounds hx.width_pos hx.payload_lt
    have hpow : (2 : ℤ) ^ (x.width - 1) < 2 ^ x.width :=
      pow_lt_pow_right₀ (by norm_num) (by have := hx.width_pos; omega)
    have habs : (signedPayload x.payload x.width).natAbs < 2 ^ x.width := by
      zify
      rw [abs_lt]
      constructor <;> omega
    simp only [if_true]
    rw [toBigint_eq hx hxxz, toBigint_eq hy hyxz, getD_some, getD_some, hyw,
      newBigint_eq true (natAbs_tdiv_tmod_lt habs remainder),
      signExtend_eq hx.width_pos hle hx.payload_lt, signExtend_eq hx.width_pos hle hylt,
      ValueU64.asU64_and_genMask _ hle, checked_emod _ _ hle]
    rfl
  | false => rfl

theorem and_congr_low {a b : ℕ} (hp : p < 2 ^ width)
    (h : ∀ i, i < width → a.testBit i = b.testBit i) : p &&& a = p &&& b := by
  refine eq_of_testBit_eq fun i => ?_
  rw [testBit_and, testBit_and]
  by_cases hi : i < width
  · rw [h i hi]
  · rw [testBit_of_le hp (by omega), Bool.false_and, Bool.false_and]

theorem testBit_not_eq (q : ℕ) (hle : width ≤ 64) (i : ℕ) (hi : i < width) :
    (ValueU64.not q).testBit i = (q ^^^ genMask width).testBit i := by
  have hword : i < 64 := by omega
  rw [ValueU64.testBit_not, testBit_xor, testBit_genMask, Bool.xor_comm]
  simp [hi, hword]

theorem and_not (hp : p < 2 ^ width) (hle : width ≤ 64) (q : ℕ) :
    p &&& ValueU64.not q = p &&& (q ^^^ genMask width) :=
  and_congr_low hp (testBit_not_eq q hle)

theorem genMask_lt (width : ℕ) : genMask width < 2 ^ width :=
  sub_lt (Nat.two_pow_pos width) Nat.one_pos

theorem compare_eq (hx : x.Normalised) (hy : y.Normalised) (hxy : x.width = y.width)
    (hle : x.width ≤ 64) (signed greater inclusive : Bool) :
    ValueU64.compare x y signed greater inclusive = ordered x y
      (if greater then if inclusive then (order x y signed).isGE else (order x y signed).isGT
      else if inclusive then (order x y signed).isLE
        else (order x y signed).isLT) := by
  unfold ValueU64.compare ordered
  by_cases hxz : (x.isXz || y.isXz) = true
  · have hxz' : (decide (x.maskXz ≠ 0) || decide (y.maskXz ≠ 0)) = true := hxz
    rw [hxz, hxz']
    rfl
  · obtain ⟨hxxz, hyxz⟩ : x.isXz = false ∧ y.isXz = false := by simpa using hxz
    have horder : (if signed then
        compare (signExtend x.payload (max x.width 1)) (signExtend y.payload (max x.width 1))
        else compare x.payload y.payload) = order x y signed := by
      unfold order
      have hmax : max x.width 1 = x.width := by have := hx.width_pos; omega
      rw [hmax, signExtend_eq hx.width_pos hle hx.payload_lt,
        signExtend_eq hx.width_pos hle (hxy ▸ hy.payload_lt), toBigint_eq hx hxxz,
        toBigint_eq hy hyxz, ← hxy]
      rfl
    rw [horder]
    cases greater <;> cases inclusive <;> cases order x y signed <;> rfl

theorem logical_eq (hx : x.payload < 2 ^ x.width) (hy : y.payload < 2 ^ y.width)
    (hxle : x.width ≤ 64) (hyle : y.width ≤ 64) (conjunction : Bool) :
    logicalBinary x y conjunction =
      if conjunction then ValueBigUint.logicAnd x y else ValueBigUint.logicOr x y := by
  unfold logicalBinary ValueBigUint.logicAnd ValueBigUint.logicOr knownOne
  rw [and_not hx hxle, and_not hy hyle]
  rfl

section

variable (hle : width ≤ 64)

include hle

theorem negate_eq : ValueU64.negate x width = ValueBigUint.negate x width := by
  unfold ValueU64.negate ValueBigUint.negate
  rw [ValueU64.newX_eq _ hle, ValueU64.genMask_eq hle, mod_and_genMask _ hle]

theorem bitNot_eq : ValueU64.bitNot x width = ValueBigUint.bitNot x width := by
  unfold ValueU64.bitNot ValueBigUint.bitNot
  rw [ValueU64.genMask_eq hle]

theorem add_eq (signed : Bool) :
    addSub x y width signed false = ValueBigUint.add x y width signed := by
  unfold addSub ValueBigUint.add
  rw [ValueU64.newX_eq _ hle, ValueU64.genMask_eq hle]
  simp only [Bool.false_eq_true, if_false, mod_and_genMask _ hle]
  rfl

theorem sub_eq (hy : y.payload < 2 ^ width) (signed : Bool) :
    addSub x y width signed true = ValueBigUint.sub x y width signed := by
  unfold addSub ValueBigUint.sub
  rw [ValueU64.newX_eq _ hle, ValueU64.genMask_eq hle]
  simp only [if_true, ValueU64.asU64_and_genMask _ hle]
  rw [xor_genMask hy]
  simp only [and_genMask]
  have hmod : ((x.payload : ℤ) - y.payload) % 2 ^ width =
      ((x.payload + (2 ^ width - (y.payload + 1) + 1) % 2 ^ width) % 2 ^ width : ℕ) := by
    have hle : y.payload + 1 ≤ 2 ^ width := hy
    rw [add_mod_mod]
    push_cast [cast_sub hle]
    have hsum : (x.payload : ℤ) + (2 ^ width - (y.payload + 1) + 1) =
        (x.payload - y.payload) + 2 ^ width := by ring
    rw [hsum, Int.add_emod_right]
  rw [hmod, Int.toNat_natCast]
  rfl

theorem mul_eq (signed : Bool) :
    ValueU64.multiply x y width signed = ValueBigUint.mul x y width signed := by
  unfold ValueU64.multiply ValueBigUint.mul
  rw [ValueU64.newX_eq _ hle, ValueU64.genMask_eq hle, mod_and_genMask _ hle]
  rfl

theorem shiftLeft_eq (amount : Option ℕ) (arithmetic : Bool) :
    ValueU64.shiftLeft x amount width arithmetic =
      ValueBigUint.shiftLeft x amount width arithmetic := by
  cases amount with
  | none => exact ValueU64.newX_eq false hle
  | some amount =>
    have hshift : ∀ p : ℕ, (p <<< min amount 64 % 2 ^ 64) &&& genMask width =
        (p <<< min amount width) &&& genMask width := by
      intro p
      rw [mod_and_genMask _ hle]
      refine eq_of_testBit_eq fun i => ?_
      by_cases hi : i < width
      · by_cases hamount : amount ≤ i
        · have h64 : min amount 64 = amount := by omega
          have hwidth : min amount width = amount := by omega
          rw [h64, hwidth]
        · have h64 : ¬min amount 64 ≤ i := by omega
          have hwidth : ¬min amount width ≤ i := by omega
          simp [h64, hwidth]
      · simp [hi]
    unfold ValueU64.shiftLeft ValueBigUint.shiftLeft
    dsimp only
    rw [ValueU64.genMask_eq hle, hshift, hshift]

end

theorem shiftRight_min (hp : p < 2 ^ width) (hle : width ≤ 64) (amount : ℕ) :
    p >>> min amount 64 = p >>> amount := by
  by_cases hamount : amount ≤ 64
  · rw [Nat.min_eq_left hamount]
  · have hzero : ∀ n, 64 ≤ n → p >>> n = 0 := by
      intro n hn
      rw [shiftRight_eq_div_pow]
      exact div_eq_of_lt (hp.trans_le (Nat.pow_le_pow_right (by omega) (by omega)))
    rw [hzero _ (by omega), hzero _ (by omega)]

section

variable (hx : x.payload < 2 ^ width)

include hx

theorem bitAnd_eq (hxm : x.maskXz < 2 ^ width) (hym : y.maskXz < 2 ^ width) (hle : width ≤ 64) :
    ValueU64.bitAnd x y width = ValueBigUint.bitAnd x y width := by
  unfold ValueU64.bitAnd ValueBigUint.bitAnd
  dsimp only
  rw [and_not hxm hle, and_not hym hle, and_not (Nat.lt_of_le_of_lt and_le_left hx) hle]

section

variable (hy : y.payload < 2 ^ width)

include hy

theorem bitOr_eq (hxm : x.maskXz < 2 ^ width) (hym : y.maskXz < 2 ^ width) (hle : width ≤ 64) :
    ValueU64.bitOr x y width = ValueBigUint.bitOr x y width := by
  unfold ValueU64.bitOr ValueBigUint.bitOr
  dsimp only
  rw [and_not hxm hle, and_not hym hle, and_not (Nat.lt_of_le_of_lt and_le_left hxm) hle,
    and_not (Nat.lt_of_le_of_lt and_le_left hym) hle, and_not (or_lt_two_pow hx hy) hle]

theorem bitXor_eq (hle : width ≤ 64) :
    ValueU64.bitXor x y width = ValueBigUint.bitXor x y width := by
  unfold ValueU64.bitXor ValueBigUint.bitXor
  dsimp only
  rw [and_not (xor_lt_two_pow hx hy) hle]

theorem bitXnor_eq (hle : width ≤ 64) :
    ValueU64.bitXnor x y width = ValueBigUint.bitXnor x y width := by
  unfold ValueU64.bitXnor ValueBigUint.bitXnor
  dsimp only
  rw [ValueU64.genMask_eq hle,
    and_not (xor_lt_two_pow (xor_lt_two_pow hx hy) (genMask_lt width)) hle]

theorem equal_eq (hxm : x.maskXz < 2 ^ width) (hym : y.maskXz < 2 ^ width) (hle : width ≤ 64)
    (wildcard negated : Bool) :
    ValueU64.equal x y wildcard negated = ValueBigUint.equal x y width wildcard negated := by
  have hcompare : ∀ i, i < width →
      (if wildcard then ValueU64.not y.maskXz else 2 ^ 64 - 1).testBit i =
        (if wildcard then y.maskXz ^^^ genMask width else genMask width).testBit i := by
    intro i hi
    cases wildcard with
    | true => exact testBit_not_eq _ hle i hi
    | false =>
      have hword : i < 64 := by omega
      rw [if_neg Bool.false_ne_true, if_neg Bool.false_ne_true, testBit_two_pow_sub_one,
        testBit_genMask, decide_eq_true hi, decide_eq_true hword]
  unfold ValueU64.equal ValueBigUint.equal
  dsimp only
  rw [and_congr_low (or_lt_two_pow hxm hym) hcompare,
    and_congr_low (xor_lt_two_pow hx hy) fun i hi => ?_]
  rw [testBit_and, testBit_and, testBit_and, testBit_and, hcompare i hi,
    testBit_not_eq _ hle i hi, testBit_not_eq _ hle i hi]

end

theorem logicShiftR_eq (hxm : x.maskXz < 2 ^ width) (hle : width ≤ 64)
    (amount : Option ℕ) (signed : Bool) :
    ValueU64.shiftRight x amount width signed false = ValueBigUint.logicShiftR x amount width := by
  cases amount with
  | none => exact ValueU64.newX_eq false hle
  | some amount =>
    unfold ValueU64.shiftRight ValueBigUint.logicShiftR
    dsimp only
    rw [shiftRight_min hx hle, shiftRight_min hxm hle]
    simp

theorem arithShiftR_eq (hxm : x.maskXz < 2 ^ width) (hle : width ≤ 64)
    (amount : Option ℕ) (signed : Bool) :
    ValueU64.shiftRight x amount width signed true =
      ValueBigUint.arithShiftR x amount width signed := by
  cases amount with
  | none => exact ValueU64.newX_eq false hle
  | some amount =>
    unfold ValueU64.shiftRight ValueBigUint.arithShiftR
    dsimp only
    rw [shiftRight_min hx hle, shiftRight_min hxm hle, ValueU64.genMask_eq hle,
      ValueU64.genMask_eq (by omega), Bool.true_and]
    rfl

end

theorem powerLoop_modEq (base exponent result : ℕ) :
    powerLoop base exponent result ≡ result * base ^ exponent [MOD 2 ^ 64] := by
  induction exponent using Nat.strongRecOn generalizing base result with
  | ind exponent ih =>
    rw [powerLoop]
    split
    · rename_i hzero
      rw [hzero, pow_zero, Nat.mul_one]
    · rename_i hpos
      refine (ih (exponent / 2) (by omega) _ _).trans ?_
      have hsquare : (base * base % 2 ^ 64) ^ (exponent / 2) ≡ (base * base) ^ (exponent / 2)
          [MOD 2 ^ 64] := (mod_modEq _ _).pow _
      split
      · rename_i hodd
        have hstep : exponent = 2 * (exponent / 2) + 1 := by omega
        refine ((mod_modEq _ _).mul hsquare).trans ?_
        have hpow : result * base * (base * base) ^ (exponent / 2) = result * base ^ exponent := by
          conv_rhs => rw [hstep, pow_succ, pow_mul, pow_two]
          ring
        rw [hpow]
      · have hstep : exponent = 2 * (exponent / 2) := by omega
        refine (hsquare.mul_left result).trans ?_
        have hpow : result * (base * base) ^ (exponent / 2) = result * base ^ exponent := by
          conv_rhs => rw [hstep, pow_mul, pow_two]
        rw [hpow]

theorem powModWidth_eq (base : ℤ) (exponent width : ℕ) :
    powModWidth base.natAbs (decide (base < 0)) exponent width =
      (base ^ exponent % 2 ^ width).toNat := by
  have hmodulus : genMask width + 1 = 2 ^ width := Nat.sub_add_cancel (Nat.two_pow_pos width)
  unfold powModWidth
  dsimp only
  rw [hmodulus]
  by_cases hneg : base < 0
  · obtain ⟨n, rfl⟩ : ∃ n : ℕ, base = -(n : ℤ) := ⟨base.natAbs, by omega⟩
    rw [Int.natAbs_neg, Int.natAbs_natCast, decide_eq_true hneg, Bool.true_and]
    by_cases hodd : exponent % 2 = 1
    · have hpow : (-(n : ℤ)) ^ exponent = -((n ^ exponent : ℕ) : ℤ) := by
        rw [Odd.neg_pow (odd_iff.2 hodd)]
        push_cast
        rfl
      rw [hpow, decide_eq_true hodd, Bool.true_and]
      have hlt : n ^ exponent % 2 ^ width < 2 ^ width := mod_lt _ (Nat.two_pow_pos width)
      have hsplit : -((n ^ exponent : ℕ) : ℤ) % 2 ^ width =
          ((2 ^ width - n ^ exponent % 2 ^ width : ℕ) : ℤ) % 2 ^ width := by
        push_cast [cast_sub hlt.le]
        rw [← Int.add_emod_right, Int.sub_emod, Int.emod_emod_of_dvd _ dvd_rfl, ← Int.sub_emod]
        congr 1
        ring
      rw [hsplit]
      have hcast : (((2 ^ width - n ^ exponent % 2 ^ width : ℕ) : ℤ) % 2 ^ width).toNat =
          (2 ^ width - n ^ exponent % 2 ^ width) % 2 ^ width :=
        Int.toNat_natCast ((2 ^ width - n ^ exponent % 2 ^ width) % 2 ^ width)
      rw [hcast]
      by_cases hzero : n ^ exponent % 2 ^ width = 0
      · simp [hzero]
      · simp [hzero]
    · have heven : Even exponent := by
        rw [even_iff]
        omega
      rw [decide_eq_false hodd, Even.neg_pow heven]
      exact (Int.toNat_natCast (n ^ exponent % 2 ^ width)).symm
  · obtain ⟨n, rfl⟩ : ∃ n : ℕ, base = n := ⟨base.natAbs, by omega⟩
    exact (Int.toNat_natCast (n ^ exponent % 2 ^ width)).symm

theorem signedPayload_pow_emod (p exponent width : ℕ) :
    (signedPayload p width ^ exponent % 2 ^ width).toNat = p ^ exponent % 2 ^ width := by
  have hmod : signedPayload p width ≡ p [ZMOD 2 ^ width] := by
    unfold signedPayload
    split
    · exact Int.sub_emod_right _ _
    · rfl
  rw [hmod.pow exponent]
  exact Int.toNat_natCast (p ^ exponent % 2 ^ width)

theorem powModWidth_natCast (p exponent width : ℕ) :
    powModWidth p false exponent width = p ^ exponent % 2 ^ width := by
  have hmodulus : genMask width + 1 = 2 ^ width := Nat.sub_add_cancel (Nat.two_pow_pos width)
  unfold powModWidth
  rw [hmodulus]
  rfl

section

variable (hx : x.Normalised)

include hx

theorem pow_eq (exponent : ℕ) : ValueBigUint.pow x exponent x.width =
      if x.isXz then ValueBigUint.newX x.width x.signed
      else newBiguint (x.payload ^ exponent % 2 ^ x.width) x.width x.signed := by
  unfold ValueBigUint.pow
  by_cases hxz : x.isXz = true
  · rw [if_pos hxz, if_pos hxz]
  rw [if_neg hxz, if_neg hxz]
  split
  · rename_i hsigned
    rw [toBigint_eq hx (by simpa using hxz), getD_some]
    dsimp only
    rw [powModWidth_eq, signedPayload_pow_emod, hsigned]
  · rename_i hsigned
    rw [powModWidth_natCast, eq_false_of_ne_true hsigned]

theorem power_eq (hle : x.width ≤ 64) : ValueU64.power x y x.width =
      if y.isXz then ValueBigUint.newX x.width false
      else if Op.negativeExponent y then
        powNegative x (decide (y.payload % 2 = 1)) x.width (genMask x.width)
      else ValueBigUint.pow x y.payload x.width := by
  have hloop : powerLoop x.payload y.payload 1 &&& genMask x.width =
      x.payload ^ y.payload % 2 ^ x.width := by
    have h := (powerLoop_modEq x.payload y.payload 1).of_dvd (two_pow_dvd hle)
    rw [Nat.one_mul] at h
    rw [and_genMask]
    exact h
  rw [pow_eq hx]
  unfold ValueU64.power Op.negativeExponent powNegative
  rw [ValueU64.newX_eq _ hle, ValueU64.newX_eq _ hle, ValueU64.genMask_eq hle]
  dsimp only
  rw [hloop, and_genMask, mod_eq_of_lt hx.payload_lt]
  by_cases hy : y.isXz = true
  · rw [if_pos hy, if_pos hy]
  rw [if_neg hy, if_neg hy]
  by_cases hxz : x.isXz = true
  · rw [if_pos hxz]
    simp only [hxz, Bool.true_or, if_true]
    split <;> rfl
  · rw [if_neg hxz, if_neg hxz]
    split
    · simp only [eq_false_of_ne_true hxz, Bool.false_or, beq_iff_eq, Bool.and_eq_true,
        decide_eq_true_eq]
      split
      · rfl
      · split
        · rfl
        · split
          · rename_i hsigned
            rw [hsigned.1]
            rfl
          · rfl
    · rfl

theorem asI64_signExtend (hle : x.width ≤ 64) : asI64 (if x.payload.testBit (x.width - 1)
      then x.payload ||| ValueU64.not (ValueU64.genMask x.width) else x.payload) =
        signedPayload x.payload x.width := by
  unfold signedPayload
  obtain ⟨s, hs⟩ : ∃ s, x.width + s = 64 := ⟨64 - x.width, by omega⟩
  have hword : 2 ^ 64 = 2 ^ x.width * 2 ^ s := by rw [← Nat.pow_add, hs]
  have hlt := hx.payload_lt
  split
  · rename_i hbit
    have hhigh : ValueU64.not (ValueU64.genMask x.width) = 2 ^ x.width * (2 ^ s - 1) := by
      refine eq_of_testBit_eq fun i => ?_
      rw [ValueU64.testBit_not, ValueU64.genMask_eq hle, testBit_genMask, testBit_two_pow_mul,
        testBit_two_pow_sub_one]
      by_cases hi : i < x.width
      · have hword : i < 64 := by omega
        have hge : ¬i ≥ x.width := by omega
        simp [hi, hword, hge]
      · have hiff : i < 64 ↔ i - x.width < s := by omega
        have hge : i ≥ x.width := by omega
        simp [hi, hiff, hge]
    have hsum : 2 ^ x.width * (2 ^ s - 1) = 2 ^ 64 - 2 ^ x.width := by
      rw [hword, Nat.mul_sub, Nat.mul_one]
    have hpow : 2 ^ x.width ≤ 2 ^ 64 := Nat.pow_le_pow_right (by omega) hle
    have hhalf : 2 ^ (x.width - 1) * 2 = 2 ^ x.width := by
      rw [← Nat.pow_succ]
      congr 1
      have := hx.width_pos
      omega
    have hmsb := (testBit_msb hx.width_pos hlt).1 hbit
    rw [lor_comm, hhigh, ← two_pow_add_eq_or_of_lt hlt, hsum]
    unfold asI64
    have hcast : ((2 ^ 64 - 2 ^ x.width : ℕ) : ℤ) = 2 ^ 64 - 2 ^ x.width := by
      rw [cast_sub hpow]
      rfl
    rw [if_neg (by omega), cast_add, hcast]
    ring
  · rename_i hbit
    have hmsb : ¬2 ^ (x.width - 1) ≤ x.payload :=
      fun hle => hbit ((testBit_msb hx.width_pos hlt).2 hle)
    have hpow : 2 ^ (x.width - 1) ≤ 2 ^ 63 := Nat.pow_le_pow_right (by omega) (by omega)
    unfold asI64
    rw [if_pos (by omega)]

theorem powU64_eq (hle : x.width ≤ 64) (exponent : ℕ) :
    powU64 x exponent x.width = ValueBigUint.pow x exponent x.width := by
  unfold powU64 ValueBigUint.pow
  rw [ValueU64.newX_eq _ hle]
  by_cases hxz : x.isXz = true
  · rw [if_pos hxz, if_pos hxz]
  · rw [if_neg hxz, if_neg hxz, asI64_signExtend hx hle, toBigint_eq hx (by simpa using hxz)]
    rfl

end

end Bodies

namespace Op

variable {native : ℕ → Bool} {x y : Value} {width : ℕ}

theorem expand_native (hnative : ∀ w, native w = true → w ≤ 64) (x : Value) (width : ℕ)
    (useSign : Bool) : expand native x width useSign = expand (fun _ => false) x width useSign := by
  unfold expand
  by_cases hwide : width ≤ x.width ∧ x.width ≠ 0
  · rw [if_pos hwide, if_pos hwide]
  rw [if_neg hwide, if_neg hwide]
  by_cases hzero : x.width = 0
  · rw [if_pos hzero, if_pos hzero]
  · rw [if_neg hzero, if_neg hzero, if_neg Bool.false_ne_true]
    by_cases hword : native width = true
    · rw [if_pos hword]
      exact expand_eq (by omega) (hnative width hword) useSign
    · rw [if_neg hword]

theorem normalised_expand (hx : x.Normalised) (hwidth : x.width ≤ width) (useSign : Bool) :
    (expand (fun _ => false) x width useSign).Normalised ∧
      (expand (fun _ => false) x width useSign).width = width := by
  have hpos := hx.width_pos
  unfold expand
  by_cases hwide : width ≤ x.width ∧ x.width ≠ 0
  · rw [if_pos hwide]
    exact ⟨hx, by omega⟩
  · have hpow : 2 ^ x.width ≤ 2 ^ width := Nat.pow_le_pow_right (by omega) hwidth
    have hmask : genMask width ^^^ genMask x.width < 2 ^ width :=
      xor_lt_two_pow (genMask_lt width) ((genMask_lt x.width).trans_le hpow)
    have hbits : ∀ (p : ℕ) (fill : Bool), p < 2 ^ x.width →
        (if fill then p ||| (genMask width ^^^ genMask x.width) else p) < 2 ^ width := by
      intro p fill hp
      split
      · exact or_lt_two_pow (hp.trans_le hpow) hmask
      · exact hp.trans_le hpow
    rw [if_neg hwide, if_neg (by omega), if_neg Bool.false_ne_true]
    exact ⟨⟨hpos.trans_le hwidth, hbits _ _ hx.payload_lt, hbits _ _ hx.maskXz_lt⟩, rfl⟩

theorem arm_native (h : native x.width = true → u64 = biguint) :
    arm native x u64 biguint = biguint := by
  unfold arm
  split
  · exact h ‹_›
  · rfl

theorem arms_native (hxy : x.width = y.width)
    (h : native x.width = true → u64 = biguint) : arms native x y u64 biguint = some biguint := by
  unfold arms
  rw [← hxy]
  by_cases hword : native x.width = true
  · rw [if_pos hword, if_pos hword, h hword]
  · rw [if_neg hword, if_neg hword]

theorem arms_biguint (x y u64 biguint : Value) :
    arms (fun _ => false) x y u64 biguint = some biguint := rfl

section

variable (hnative : ∀ w, native w = true → w ≤ 64)

include hnative

theorem evalValueUnary_native (op : Op)
    (hx : x.Normalised) (hwidth : x.width ≤ width) (signed : Bool) :
    evalValueUnary native op x width signed =
      evalValueUnary (fun _ => false) op x width signed := by
  have hexpand := fun v w s => expand_native hnative v w s
  have hwide := (normalised_expand hx hwidth signed).2
  have hand : ∀ negated, arm native x (ValueU64.reduceAnd x negated)
      (ValueBigUint.reduceAnd x negated) = ValueBigUint.reduceAnd x negated :=
    fun negated => arm_native fun hword => reduceAnd_eq (hnative _ hword) negated
  have hor : ∀ negated, arm native x (ValueU64.reduceOr x negated)
      (ValueBigUint.reduceOr x negated) = ValueBigUint.reduceOr x negated :=
    fun negated => arm_native fun hword => reduceOr_eq (hnative _ hword) negated
  have hxor : ∀ negated, arm native x (ValueU64.reduceXor x negated)
      (ValueBigUint.reduceXor x negated) = ValueBigUint.reduceXor x negated :=
    fun negated => arm_native fun _ => reduceXor_eq negated
  unfold evalValueUnary
  cases op with
  | add => exact congrArg some (hexpand x width signed)
  | sub =>
    dsimp only
    rw [hexpand, arm_native fun hword => negate_eq (hwide ▸ hnative _ hword)]
    rfl
  | bitNot =>
    dsimp only
    rw [hexpand, arm_native fun hword => bitNot_eq (hwide ▸ hnative _ hword)]
    rfl
  | bitAnd =>
    dsimp only
    rw [hexpand, hand]
    rfl
  | bitNand =>
    dsimp only
    rw [hexpand, hand]
    rfl
  | bitOr =>
    dsimp only
    rw [hexpand, hor]
    rfl
  | bitNor =>
    dsimp only
    rw [hexpand, hor]
    rfl
  | logicNot =>
    dsimp only
    rw [hexpand, hor]
    rfl
  | bitXor =>
    dsimp only
    rw [hexpand, hxor]
    rfl
  | bitXnor =>
    dsimp only
    rw [hexpand, hxor]
    rfl
  | _ => rfl

theorem evalArith_native (op : Op) (hx : x.Normalised)
    (hy : y.Normalised) (hxwidth : x.width ≤ width) (hywidth : y.width ≤ width) (signed : Bool) :
    evalArith native op x y width signed = evalArith (fun _ => false) op x y width signed := by
  obtain ⟨hxn, hxw⟩ := normalised_expand hx hxwidth signed
  obtain ⟨hyn, hyw⟩ := normalised_expand hy hywidth signed
  unfold evalArith
  rw [expand_native hnative x, expand_native hnative y]
  generalize expand (fun _ => false) x width signed = a at hxn hxw
  generalize expand (fun _ => false) y width signed = b at hyn hyw
  have hab : a.width = b.width := hxw.trans hyw.symm
  have hle : native a.width = true → width ≤ 64 := fun hword => hxw ▸ hnative _ hword
  have ha := hxn.payload_lt
  have ham := hxn.maskXz_lt
  have hb := hyn.payload_lt
  have hbm := hyn.maskXz_lt
  rw [hxw] at ha ham
  rw [hyw] at hb hbm
  cases op with
  | add => exact arms_native hab fun hword => add_eq (hle hword) signed
  | sub => exact arms_native hab fun hword => sub_eq (hle hword) hb signed
  | mul => exact arms_native hab fun hword => mul_eq (hle hword) signed
  | div => exact arms_native hab fun hword => divRem_eq hxn hyn hxw hyw (hle hword) signed false
  | rem => exact arms_native hab fun hword => divRem_eq hxn hyn hxw hyw (hle hword) signed true
  | bitOr => exact arms_native hab fun hword => bitOr_eq ha hb ham hbm (hle hword)
  | bitXor => exact arms_native hab fun hword => bitXor_eq ha hb (hle hword)
  | bitXnor => exact arms_native hab fun hword => bitXnor_eq ha hb (hle hword)
  | _ => rfl

theorem evalEqual_native (hx : x.Normalised)
    (hy : y.Normalised) (width : ℕ) (wildcard negated : Bool) :
    evalEqual native x y width wildcard negated =
      evalEqual (fun _ => false) x y width wildcard negated := by
  obtain ⟨hxn, hxw⟩ := normalised_expand hx (Nat.le_max_left _ y.width) (x.signed && y.signed)
  obtain ⟨hyn, hyw⟩ := normalised_expand hy (Nat.le_max_right x.width _) (x.signed && y.signed)
  unfold evalEqual
  dsimp only
  rw [expand_native hnative x, expand_native hnative y]
  have ha := hxn.payload_lt
  have ham := hxn.maskXz_lt
  have hb := hyn.payload_lt
  have hbm := hyn.maskXz_lt
  rw [hxw] at ha ham
  rw [hyw] at hb hbm
  rw [arms_native (hxw.trans hyw.symm) fun hword =>
    equal_eq ha hb ham hbm (hxw ▸ hnative _ hword) wildcard negated, arms_biguint]
  exact congrArg some (expand_native hnative _ _ _)

theorem evalCompare_native (hx : x.Normalised)
    (hy : y.Normalised) (width : ℕ) (signed greater inclusive : Bool) :
    evalCompare native x y width signed greater inclusive =
      evalCompare (fun _ => false) x y width signed greater inclusive := by
  obtain ⟨hxn, hxw⟩ := normalised_expand hx (Nat.le_max_left _ y.width) signed
  obtain ⟨hyn, hyw⟩ := normalised_expand hy (Nat.le_max_right x.width _) signed
  unfold evalCompare
  dsimp only
  rw [expand_native hnative x, expand_native hnative y]
  have hab := hxw.trans hyw.symm
  rw [arms_native hab fun hword =>
    compare_eq hxn hyn hab (hnative _ hword) signed greater inclusive, arms_biguint]
  exact congrArg some (expand_native hnative _ _ _)

theorem evalLogic_native (hx : x.Normalised) (hy : y.Normalised) (width : ℕ) (conjunction : Bool) :
    evalLogic native x y width conjunction = evalLogic (fun _ => false) x y width conjunction := by
  obtain ⟨hxn, hxw⟩ := normalised_expand hx (Nat.le_max_left _ y.width) false
  obtain ⟨hyn, hyw⟩ := normalised_expand hy (Nat.le_max_right x.width _) false
  unfold evalLogic
  dsimp only
  rw [expand_native hnative x, expand_native hnative y]
  have hab := hxw.trans hyw.symm
  rw [arms_native hab fun hword => logical_eq hxn.payload_lt hyn.payload_lt (hnative _ hword)
    (hab ▸ hnative _ hword) conjunction, arms_biguint]
  exact congrArg some (expand_native hnative _ _ _)

theorem evalPow_native (hx : x.Normalised) (hwidth : x.width ≤ width) (y : Value) (signed : Bool) :
    evalPow native x y width signed = evalPow (fun _ => false) x y width signed := by
  obtain ⟨hxn, hxw⟩ := normalised_expand hx hwidth signed
  unfold evalPow
  rw [expand_native hnative x]
  generalize expand (fun _ => false) x width signed = a at hxn hxw
  subst hxw
  unfold arm
  by_cases hword : native a.width = true
  · have hle := hnative _ hword
    simp [hword, ValueU64.newX_eq _ hle, ValueU64.genMask_eq hle, powU64_eq hxn hle,
      power_eq hxn hle]
  · simp [eq_false_of_ne_true hword]

theorem evalValueBinary_native (op : Op)
    (hx : x.Normalised) (hy : y.Normalised) (hxwidth : x.width ≤ width) (hywidth : y.width ≤ width)
    (signed : Bool) : evalValueBinary native op x y width signed =
      evalValueBinary (fun _ => false) op x y width signed := by
  obtain ⟨hxn, hxw⟩ := normalised_expand hx hxwidth signed
  obtain ⟨hyn, hyw⟩ := normalised_expand hy hywidth signed
  have hexpand := fun v w s => expand_native hnative v w s
  have hresize : ∀ v : Value, v.width ≤ width → ∀ native : ℕ → Bool,
      resize native v width signed = expand native v width signed :=
    fun v hv native => if_neg (by omega)
  have ha := hxn.payload_lt
  have ham := hxn.maskXz_lt
  have hbm := hyn.maskXz_lt
  rw [hxw] at ha ham
  rw [hyw] at hbm
  have hle : native (expand (fun _ => false) x width signed).width = true → width ≤ 64 :=
    fun hword => hxw ▸ hnative _ hword
  have harith := evalArith_native hnative op hx hy hxwidth hywidth signed
  unfold evalValueBinary
  cases op with
  | bitAnd =>
    rw [hresize x hxwidth, hresize y hywidth, hresize x hxwidth, hresize y hywidth, hexpand x,
      hexpand y]
    exact arms_native (hxw.trans hyw.symm) fun hword => bitAnd_eq ha ham hbm (hle hword)
  | eq | ne | eqWildcard | neWildcard => exact evalEqual_native hnative hx hy width _ _
  | greater | greaterEq | less | lessEq => exact evalCompare_native hnative hx hy width signed _ _
  | logicAnd | logicOr => exact evalLogic_native hnative hx hy width _
  | logicShiftR =>
    dsimp only
    rw [hexpand x, hexpand, arm_native fun hword =>
      logicShiftR_eq ha ham (hle hword) y.toUsizeSaturating signed]
    rfl
  | arithShiftR =>
    dsimp only
    rw [hexpand x, hexpand, arm_native fun hword =>
      arithShiftR_eq ha ham (hle hword) y.toUsizeSaturating signed]
    rfl
  | logicShiftL | arithShiftL =>
    dsimp only
    rw [hexpand x, hexpand, arm_native fun hword => shiftLeft_eq (hle hword) y.toUsizeSaturating _]
    rfl
  | pow => exact congrArg some (evalPow_native hnative hx hxwidth y signed)
  | as => rfl
  | _ => exact harith

end

/-- Every operator has one meaning: native words, wherever the analyzer keeps
them, and big integers compute the same payload and the same mask. -/
theorem evalValue_native_eq_biguint (native : ℕ → Bool) (hnative : ∀ w, native w = true → w ≤ 64)
    (op : Op) (x y : Value) (width : ℕ) (signed : Bool) (hx : x.Normalised) (hy : y.Normalised)
    (hxwidth : x.width ≤ width) (hywidth : y.width ≤ width) :
    evalValueUnary native op x width signed = evalValueUnary (fun _ => false) op x width signed ∧
      evalValueBinary native op x y width signed =
        evalValueBinary (fun _ => false) op x y width signed :=
  ⟨evalValueUnary_native hnative op hx hxwidth signed,
    evalValueBinary_native hnative op hx hy hxwidth hywidth signed⟩

theorem evalValue_native_eq_biguint_div :
    evalValueUnary (fun w => decide (w ≤ 64)) .div ⟨200, 0, 8, true⟩ 8 true =
        evalValueUnary (fun _ => false) .div ⟨200, 0, 8, true⟩ 8 true ∧
      evalValueBinary (fun w => decide (w ≤ 64)) .div ⟨200, 0, 8, true⟩ ⟨3, 0, 7, true⟩ 8 true =
        evalValueBinary (fun _ => false) .div ⟨200, 0, 8, true⟩ ⟨3, 0, 7, true⟩ 8 true :=
  evalValue_native_eq_biguint (fun w => decide (w ≤ 64)) (by simp) .div ⟨200, 0, 8, true⟩
    ⟨3, 0, 7, true⟩ 8 true ⟨by decide, by decide, by decide⟩ ⟨by decide, by decide, by decide⟩
    (by decide) (by decide)

end Op

end Veryl.Analyzer
