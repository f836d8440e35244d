import Veryl.Analyzer.Operators.Reference

/-!
On operands without unknown bits the operators compute the integer operation,
cut to the width.
-/

namespace Veryl.Analyzer.Reference

open Op Option Int
open ValueBigUint (divRem powNegative)

variable {low high : ℕ} {v : Value}

variable {p amount : ℕ} {op : Op} {result : Option ℤ} {width : ℕ}

theorem bmod_two_pow (hwidth : 0 < width) (h : p < 2 ^ width) :
    (p : ℤ).bmod (2 ^ width) = signedPayload p width := by
  obtain ⟨n, rfl⟩ : ∃ n, width = n + 1 := ⟨width - 1, by omega⟩
  have hmsb := testBit_msb hwidth h
  have hhalf : ((2 ^ (n + 1) : ℕ) : ℤ) = 2 * 2 ^ n := by push_cast; ring
  have hlt : (p : ℤ) < ((2 ^ (n + 1) : ℕ) : ℤ) := by exact_mod_cast h
  have hmod : (p : ℤ) % ((2 ^ (n + 1) : ℕ) : ℤ) = p := emod_eq_of_lt (by omega) hlt
  unfold signedPayload
  split
  · rename_i hbit
    have hle : (2 ^ n : ℤ) ≤ p := by exact_mod_cast hmsb.1 hbit
    rw [bmod_neg _ _ (by omega), hmod]
    rfl
  · rename_i hbit
    have hle : ¬2 ^ n ≤ p := fun hle => hbit (hmsb.2 hle)
    rw [bmod_eq_emod_of_lt (by omega), hmod]

theorem genMask_xor_genMask (h : low ≤ high) :
    genMask high ^^^ genMask low = 2 ^ low * (2 ^ (high - low) - 1) := by
  refine Nat.eq_of_testBit_eq fun i => ?_
  rw [Nat.testBit_xor, testBit_genMask, testBit_genMask, Nat.testBit_two_pow_mul,
    Nat.testBit_two_pow_sub_one]
  by_cases hi : i < low
  · have hhigh : i < high := by omega
    have hge : ¬i ≥ low := by omega
    simp [hi, hhigh, hge]
  · have hiff : i < high ↔ i - low < high - low := by omega
    have hge : i ≥ low := by omega
    simp [hi, hge, hiff]

theorem or_genMask_xor (h : low ≤ high) (hp : p < 2 ^ low) :
    p ||| (genMask high ^^^ genMask low) = p + (2 ^ high - 2 ^ low) := by
  have hpow : 2 ^ low * 2 ^ (high - low) = 2 ^ high := by
    rw [← Nat.pow_add]
    congr 1
    omega
  rw [genMask_xor_genMask h, Nat.lor_comm, ← Nat.two_pow_add_eq_or_of_lt hp, Nat.mul_sub, hpow,
    Nat.mul_one, Nat.add_comm]

section Operands

variable {x : Value} {width : ℕ}

/-- What `expand` leaves of a known operand. -/
structure Extends (e x : Value) (width : ℕ) (signed : Bool) : Prop where
  normalised : e.Normalised
  width_eq : e.width = width
  known : e.isXz = false
  payload : (e.payload : ℤ) = pattern x width signed
  sign : e.signed = (x.signed && (signed || decide (x.width = width)))

theorem extended_emod (hx : x.Normalised) (useSign : Bool) :
    extended x useSign % 2 ^ x.width = x.payload := by
  have hlt : (x.payload : ℤ) < 2 ^ x.width := by exact_mod_cast hx.payload_lt
  have hmod : (x.payload : ℤ) % 2 ^ x.width = x.payload := emod_eq_of_lt (by omega) hlt
  unfold extended
  split
  · have h := @Int.bmod_emod x.payload (2 ^ x.width)
    exact h.trans hmod
  · exact hmod

theorem expand_extends (hx : x.Normalised) (hknown : x.isXz = false) (hwidth : x.width ≤ width)
    (signed : Bool) : Extends (expand (fun _ => false) x width signed) x width signed := by
  obtain ⟨hn, hw⟩ := normalised_expand hx hwidth signed
  have hpos := hx.width_pos
  have hmask : x.maskXz = 0 := by simpa [Value.isXz] using hknown
  refine ⟨hn, hw, ?_, ?_, ?_⟩
  · unfold expand ValueBigUint.expand
    by_cases hwide : width ≤ x.width ∧ x.width ≠ 0
    · rw [if_pos hwide]
      exact hknown
    · rw [if_neg hwide, if_neg (by omega), if_neg Bool.false_ne_true]
      simp [Value.isXz, hmask]
  · unfold pattern expand ValueBigUint.expand
    by_cases hwide : width ≤ x.width ∧ x.width ≠ 0
    · have heq : width = x.width := by omega
      rw [if_pos hwide, heq, extended_emod hx]
    · rw [if_neg hwide, if_neg (by omega), if_neg Bool.false_ne_true]
      have hlt := hx.payload_lt
      have hpow : 2 ^ x.width ≤ 2 ^ width := Nat.pow_le_pow_right (by omega) hwidth
      have hpowInt : (2 ^ x.width : ℤ) ≤ 2 ^ width := by exact_mod_cast hpow
      have hltInt : (x.payload : ℤ) < 2 ^ x.width := by exact_mod_cast hlt
      unfold extended
      dsimp only
      by_cases hsign : (x.signed && signed) = true
      · rw [hsign, Bool.true_and, if_pos rfl, bmod_two_pow hpos hlt]
        unfold signedPayload
        split
        · rw [or_genMask_xor hwidth hlt, ← add_emod_right, emod_eq_of_lt (by omega) (by omega)]
          push_cast [Nat.cast_sub hpow]
          ring
        · rw [emod_eq_of_lt (by omega) (by omega)]
      · rw [eq_false_of_ne_true hsign, Bool.false_and, if_neg Bool.false_ne_true,
          if_neg Bool.false_ne_true, emod_eq_of_lt (by omega) (by omega)]
  · unfold expand ValueBigUint.expand
    by_cases hwide : width ≤ x.width ∧ x.width ≠ 0
    · have heq : x.width = width := by omega
      rw [if_pos hwide, decide_eq_true heq, Bool.or_true, Bool.and_true]
    · have hne : x.width ≠ width := by omega
      rw [if_neg hwide, if_neg (by omega), if_neg Bool.false_ne_true, decide_eq_false hne]
      cases signed <;> simp

variable {e : Value} {signed : Bool}

section

variable (h : Extends e x width signed)

include h

theorem Extends.payload_lt : e.payload < 2 ^ width :=
  h.width_eq ▸ h.normalised.payload_lt

theorem Extends.width_pos : 0 < width :=
  h.width_eq ▸ h.normalised.width_pos

theorem Extends.maskXz : e.maskXz = 0 := by
  simpa [Value.isXz] using h.known

end

theorem Extends.signed_eq (h : Extends e x width true) :
    signedPayload e.payload width = operand x width true := by
  rw [← bmod_two_pow h.width_pos h.payload_lt, h.payload]
  unfold operand pattern
  rw [if_pos rfl]
  have hcast : (2 ^ width : ℤ) = ((2 ^ width : ℕ) : ℤ) := by push_cast; rfl
  rw [hcast, emod_bmod]

theorem Extends.unsigned_eq (h : Extends e x width false) (hx : x.Normalised)
    (hwidth : x.width ≤ width) : (e.payload : ℤ) = operand x width false := by
  have hlt : (x.payload : ℤ) < 2 ^ x.width := by exact_mod_cast hx.payload_lt
  have hpow : (2 ^ x.width : ℤ) ≤ 2 ^ width := by
    exact_mod_cast Nat.pow_le_pow_right (by omega) hwidth
  rw [h.payload]
  unfold operand pattern extended
  rw [Bool.and_false, if_neg Bool.false_ne_true, if_neg Bool.false_ne_true,
    emod_eq_of_lt (by omega) (by omega)]

theorem signedPayload_emod (p width : ℕ) :
    signedPayload p width % 2 ^ width = (p : ℤ) % 2 ^ width := by
  unfold signedPayload
  split
  · exact sub_emod_right _ _
  · rfl

section

variable (h : Extends e x width signed)

include h

theorem Extends.operand_emod (hx : x.Normalised)
    (hwidth : x.width ≤ width) : operand x width signed % 2 ^ width = e.payload := by
  have hlt : (e.payload : ℤ) < 2 ^ width := by exact_mod_cast h.payload_lt
  have hmod : (e.payload : ℤ) % 2 ^ width = e.payload := emod_eq_of_lt (by omega) hlt
  cases signed with
  | true => rw [← h.signed_eq, signedPayload_emod, hmod]
  | false => rw [← h.unsigned_eq hx hwidth, hmod]

theorem Extends.modEq (hx : x.Normalised)
    (hwidth : x.width ≤ width) : (e.payload : ℤ) ≡ operand x width signed [ZMOD 2 ^ width] := by
  have hmod := h.operand_emod hx hwidth
  exact (congrArg (· % (2 : ℤ) ^ width) hmod).symm.trans (mod_modEq _ _)

theorem Extends.operand_eq_zero (hx : x.Normalised)
    (hwidth : x.width ≤ width) : operand x width signed = 0 ↔ e.payload = 0 := by
  constructor
  · intro hzero
    have hmod := h.operand_emod hx hwidth
    rw [hzero, zero_emod] at hmod
    exact_mod_cast hmod.symm
  · intro hzero
    cases signed with
    | true =>
      rw [← h.signed_eq, hzero]
      simp [signedPayload]
    | false =>
      rw [← h.unsigned_eq hx hwidth, hzero]
      rfl

end

end Operands

theorem computes_some {z : ℤ} (hw : v.width = width)
    (hm : v.maskXz = 0) (hp : v.payload = p % 2 ^ width)
    (hz : (p : ℤ) % 2 ^ width = z % 2 ^ width) : Computes (some v) width (some z) := by
  refine ⟨v, rfl, hw, ?_, hm⟩
  rw [hp, ← hz]
  rfl

theorem computes_newX (width : ℕ) (signed : Bool) :
    Computes (some (ValueBigUint.newX width signed)) width none := ⟨_, rfl, rfl, rfl, rfl⟩

section Arithmetic

variable {x y a b : Value} {width : ℕ} {signed : Bool}

theorem negate_modEq (h : p < 2 ^ width) :
    (((p ^^^ genMask width) + 1 : ℕ) : ℤ) ≡ -(p : ℤ) [ZMOD 2 ^ width] := by
  have hle : p + 1 ≤ 2 ^ width := h
  have hcast : (((p ^^^ genMask width) + 1 : ℕ) : ℤ) = -(p : ℤ) + 2 ^ width := by
    rw [xor_genMask h]
    push_cast [Nat.cast_sub hle]
    ring
  rw [hcast]
  exact add_emod_right _ _

theorem negate_computes (ha : Extends a x width signed) (hx : x.Normalised)
    (hxw : x.width ≤ width) : Computes (some (ValueBigUint.negate a width)) width
      (some (-operand x width signed)) := by
  unfold ValueBigUint.negate
  rw [ha.known]
  exact computes_some ha.width_eq ha.maskXz (and_genMask _ _)
    ((negate_modEq ha.payload_lt).trans (ha.modEq hx hxw).neg)

section

variable (ha : Extends a x width signed) (hb : Extends b y width signed) (hx : x.Normalised)
  (hy : y.Normalised) (hxw : x.width ≤ width) (hyw : y.width ≤ width)

include ha hb hx hy hxw hyw

theorem add_computes :
    Computes (some (ValueBigUint.add a b width signed)) width
      (some (operand x width signed + operand y width signed)) := by
  unfold ValueBigUint.add
  rw [ha.known, hb.known]
  refine computes_some rfl rfl (and_genMask _ _) ?_
  exact (ha.modEq hx hxw).add (hb.modEq hy hyw)

theorem sub_computes :
    Computes (some (ValueBigUint.sub a b width signed)) width
      (some (operand x width signed - operand y width signed)) := by
  unfold ValueBigUint.sub
  rw [ha.known, hb.known]
  refine computes_some rfl rfl (and_genMask _ _) ?_
  have hneg := (negate_modEq hb.payload_lt).trans (hb.modEq hy hyw).neg
  have hcut : ((((b.payload ^^^ genMask width) + 1) % 2 ^ width : ℕ) : ℤ) ≡
      -operand y width signed [ZMOD 2 ^ width] := by
    exact (mod_modEq _ _).trans hneg
  rw [and_genMask, sub_eq_add_neg]
  exact (ha.modEq hx hxw).add hcut

theorem mul_computes :
    Computes (some (ValueBigUint.mul a b width signed)) width
      (some (operand x width signed * operand y width signed)) := by
  unfold ValueBigUint.mul
  rw [ha.known, hb.known]
  refine computes_some rfl rfl (and_genMask _ _) ?_
  exact (ha.modEq hx hxw).mul (hb.modEq hy hyw)

theorem divRem_computes (remainder : Bool) :
    Computes (some (divRem a b width signed remainder)) width
      (if operand y width signed = 0 then none
      else some (if remainder then (operand x width signed).tmod (operand y width signed)
        else (operand x width signed).tdiv (operand y width signed))) := by
  unfold divRem
  rw [ha.known, hb.known, Bool.false_or, Bool.false_or]
  by_cases hzero : b.payload = 0
  · rw [if_pos (beq_iff_eq.2 hzero), if_pos ((hb.operand_eq_zero hy hyw).2 hzero)]
    exact computes_newX width signed
  · rw [if_neg fun h => hzero (beq_iff_eq.1 h),
      if_neg fun h => hzero ((hb.operand_eq_zero hy hyw).1 h)]
    cases signed with
    | true =>
      have habs : (operand x width true).natAbs < 2 ^ width := by
        have hbounds := signedPayload_bounds ha.width_pos ha.payload_lt
        have hpow : (2 : ℤ) ^ (width - 1) < 2 ^ width :=
          pow_lt_pow_right₀ (by norm_num) (by have := ha.width_pos; omega)
        rw [← ha.signed_eq]
        zify
        rw [abs_lt]
        constructor <;> omega
      rw [if_pos rfl, toBigint_eq ha.normalised ha.known, toBigint_eq hb.normalised hb.known,
        getD_some, getD_some, ha.width_eq, hb.width_eq, ha.signed_eq, hb.signed_eq,
        newBigint_eq true (natAbs_tdiv_tmod_lt habs remainder)]
      exact ⟨_, rfl, rfl, toNat_of_nonneg (emod_nonneg _ (by positivity)), rfl⟩
    | false =>
      refine computes_some rfl rfl (and_genMask _ _) ?_
      rw [← ha.unsigned_eq hx hxw, ← hb.unsigned_eq hy hyw]
      cases remainder with
      | true => rfl
      | false => rfl

end

end Arithmetic

section Shifts

variable {x y a : Value} {width : ℕ} {signed : Bool}

theorem Computes.expand (h : Computes (some v) width result) (hpos : 0 < width) (useSign : Bool) :
    Computes (some (Op.expand (fun _ => false) v width useSign)) width result := by
  obtain ⟨u, hu, hw, hresult⟩ := h
  obtain rfl := some.inj hu
  have hself : Op.expand (fun _ => false) v width useSign = v := if_pos (by omega)
  rw [hself]
  exact ⟨v, rfl, hw, hresult⟩

theorem toUsizeSaturating_known (hy : y.isXz = false) :
    y.toUsizeSaturating = some (min y.payload (2 ^ 64 - 1)) := by
  unfold Value.toUsizeSaturating
  rw [hy]
  rfl

theorem shiftLeft_amount (hword : width < 2 ^ 64) (p : ℕ) :
    (p <<< min (min amount (2 ^ 64 - 1)) width) % 2 ^ width = p * 2 ^ amount % 2 ^ width := by
  rw [Nat.shiftLeft_eq]
  by_cases hle : amount ≤ width
  · have hmin : min (min amount (2 ^ 64 - 1)) width = amount := by omega
    rw [hmin]
  · have hmin : min (min amount (2 ^ 64 - 1)) width = width := by omega
    have hdvd : 2 ^ width ∣ p * 2 ^ amount :=
      Dvd.dvd.mul_left (Nat.pow_dvd_pow 2 (by omega)) p
    rw [hmin, Nat.mul_mod_left, Nat.mod_eq_zero_of_dvd hdvd]

theorem shiftLeft_computes (ha : Extends a x width signed) (hx : x.Normalised)
    (hxw : x.width ≤ width) (hy : y.isXz = false) (hword : width < 2 ^ 64) (arithmetic : Bool) :
    Computes (some (ValueBigUint.shiftLeft a y.toUsizeSaturating width arithmetic)) width
      (some (operand x width signed * 2 ^ y.payload)) := by
  rw [toUsizeSaturating_known hy]
  refine computes_some ha.width_eq ?_ ((and_genMask _ _).trans (shiftLeft_amount hword _)) ?_
  · show (a.maskXz <<< _) &&& _ = 0
    rw [ha.maskXz, Nat.zero_shiftLeft, Nat.zero_and]
  · push_cast
    exact (ha.modEq hx hxw).mul_right _

theorem shiftRight_amount (hp : p < 2 ^ width) (hword : width < 2 ^ 64) :
    p >>> min amount (2 ^ 64 - 1) = p / 2 ^ amount := by
  rw [Nat.shiftRight_eq_div_pow]
  by_cases hle : amount ≤ 2 ^ 64 - 1
  · rw [Nat.min_eq_left hle]
  · have hpow : ∀ n, width ≤ n → p / 2 ^ n = 0 := fun n hn =>
      Nat.div_eq_of_lt (hp.trans_le (Nat.pow_le_pow_right (by omega) hn))
    rw [hpow _ (by omega), hpow _ (by omega)]

theorem logicShiftR_computes (ha : Extends a x width signed) (hy : y.isXz = false)
    (hword : width < 2 ^ 64) :
    Computes (some (ValueBigUint.logicShiftR a y.toUsizeSaturating width)) width
      (some (pattern x width signed / 2 ^ y.payload)) := by
  rw [toUsizeSaturating_known hy]
  have hpayload : a.payload >>> min y.payload (2 ^ 64 - 1) = a.payload / 2 ^ y.payload :=
    shiftRight_amount ha.payload_lt hword
  refine computes_some ha.width_eq ?_ (hpayload.trans (Nat.mod_eq_of_lt ?_).symm) ?_
  · show a.maskXz >>> _ = 0
    rw [ha.maskXz, Nat.zero_shiftRight]
  · exact (Nat.div_le_self _ _).trans_lt ha.payload_lt
  · rw [← ha.payload]
    rfl

theorem fill_amount (hword : width < 2 ^ 64) :
    width - min amount (2 ^ 64 - 1) = width - amount := by omega

theorem arith_shift (amount : ℕ) (hp : p < 2 ^ width) :
    (((p / 2 ^ amount) ||| (genMask (width - amount) ^^^ genMask width) : ℕ) : ℤ) % 2 ^ width =
      ((p : ℤ) - 2 ^ width) / 2 ^ amount % 2 ^ width := by
  have hpInt : (p : ℤ) < 2 ^ width := by exact_mod_cast hp
  by_cases hle : amount ≤ width
  · have hdiv : p / 2 ^ amount < 2 ^ (width - amount) := by
      rw [Nat.div_lt_iff_lt_mul (Nat.two_pow_pos amount), ← Nat.pow_add, Nat.sub_add_cancel hle]
      exact hp
    have hpow : 2 ^ (width - amount) ≤ 2 ^ width := Nat.pow_le_pow_right (by omega) (by omega)
    have hsplit : (2 : ℤ) ^ width = 2 ^ (width - amount) * 2 ^ amount := by
      rw [← pow_add, Nat.sub_add_cancel hle]
    have hfloor : ((p : ℤ) - 2 ^ width) / 2 ^ amount =
        (p : ℤ) / 2 ^ amount - 2 ^ (width - amount) := by
      rw [hsplit, sub_mul_ediv_right _ _ (by positivity)]
    rw [Nat.xor_comm, or_genMask_xor (by omega) hdiv, hfloor]
    push_cast [Nat.cast_sub hpow]
    rw [← add_emod_right ((p : ℤ) / 2 ^ amount - 2 ^ (width - amount))]
    congr 1
    ring
  · have hzero : p / 2 ^ amount = 0 :=
      Nat.div_eq_of_lt (hp.trans_le (Nat.pow_le_pow_right (by omega) (by omega)))
    have hwidth : width - amount = 0 := by omega
    have hpow : (2 : ℤ) ^ width ≤ 2 ^ amount :=
      pow_le_pow_right₀ (by norm_num) (by omega)
    have hfloor : ((p : ℤ) - 2 ^ width) / 2 ^ amount = -1 := by
      rw [ediv_eq_iff_of_pos (by positivity)]
      constructor <;> omega
    have hmask : genMask width = 2 ^ width - 1 := rfl
    have hone : 1 ≤ 2 ^ width := Nat.one_le_two_pow
    rw [hzero, hwidth, hfloor, ← add_emod_right (-1 : ℤ)]
    have hcast : ((0 ||| (genMask 0 ^^^ genMask width) : ℕ) : ℤ) = -1 + 2 ^ width := by
      rw [show genMask 0 = 0 from rfl, Nat.zero_xor, Nat.zero_or, hmask]
      push_cast [Nat.cast_sub hone]
      ring
    rw [hcast]

theorem arithShiftR_computes (ha : Extends a x width signed) (hx : x.Normalised)
    (hxw : x.width ≤ width) (hy : y.isXz = false) (hword : width < 2 ^ 64) :
    Computes (some (ValueBigUint.arithShiftR a y.toUsizeSaturating width signed)) width
      (some (operand x width signed / 2 ^ y.payload)) := by
  rw [toUsizeSaturating_known hy]
  have hlt := ha.payload_lt
  have hpayload : a.payload >>> min y.payload (2 ^ 64 - 1) = a.payload / 2 ^ y.payload :=
    shiftRight_amount hlt hword
  have hfill : width - min y.payload (2 ^ 64 - 1) = width - y.payload := fill_amount hword
  have hdiv : a.payload / 2 ^ y.payload < 2 ^ width := (Nat.div_le_self _ _).trans_lt hlt
  unfold ValueBigUint.arithShiftR
  dsimp only
  rw [hpayload, hfill, ha.maskXz, Nat.zero_shiftRight, Nat.zero_testBit, Bool.and_false,
    if_neg Bool.false_ne_true, ha.width_eq]
  cases signed with
  | false =>
    rw [Bool.false_and, if_neg Bool.false_ne_true, Nat.or_zero, ← ha.unsigned_eq hx hxw]
    refine computes_some rfl rfl (Nat.mod_eq_of_lt hdiv).symm ?_
    rfl
  | true =>
    rw [Bool.true_and, ← ha.signed_eq]
    unfold signedPayload
    split
    · refine computes_some rfl rfl (Nat.mod_eq_of_lt ?_).symm (arith_shift y.payload hlt)
      have hmask : genMask (width - y.payload) ^^^ genMask width < 2 ^ width :=
        Nat.xor_lt_two_pow ((genMask_lt _).trans_le (Nat.pow_le_pow_right (by omega) (by omega)))
          (genMask_lt width)
      exact Nat.or_lt_two_pow hdiv hmask
    · rw [Nat.or_zero]
      refine computes_some rfl rfl (Nat.mod_eq_of_lt hdiv).symm ?_
      rfl

end Shifts

section Comparisons

variable {x y a b : Value} {width : ℕ} {signed : Bool}

theorem computes_bit (hpos : 0 < width) (bit : Bool) :
    Computes (some (expand (fun _ => false) ⟨bit.toNat, 0, 1, false⟩ width false)) width
      (some (bit.toNat : ℤ)) := by
  have hx : (Value.mk bit.toNat 0 1 false).Normalised :=
    ⟨Nat.one_pos, Nat.lt_succ_of_le (Bool.toNat_le bit), Nat.two_pow_pos 1⟩
  have he : Extends _ _ width false := expand_extends hx rfl hpos false
  refine ⟨_, rfl, he.width_eq, ?_, he.maskXz⟩
  rw [he.payload]
  rfl

theorem newBitX1_known (bit : Bool) : ValueU64.newBitX1 false bit = ⟨bit.toNat, 0, 1, false⟩ := by
  cases bit <;> rfl

theorem newBit1x_known (bit : Bool) : ValueU64.newBit1x bit false = ⟨bit.toNat, 0, 1, false⟩ := by
  cases bit <;> rfl

theorem newBit0x_known (bit : Bool) :
    ValueU64.newBit0x bit false = ⟨(!bit).toNat, 0, 1, false⟩ := by
  cases bit <;> rfl

section

variable (ha : Extends a x width signed) (hb : Extends b y width signed) (hx : x.Normalised)
  (hy : y.Normalised) (hxw : x.width ≤ width) (hyw : y.width ≤ width)

include ha hb hx hy hxw hyw

theorem order_operands :
    ValueBigUint.order a b signed = compare (operand x width signed) (operand y width signed) := by
  unfold ValueBigUint.order
  cases signed with
  | true =>
    rw [if_pos rfl, toBigint_eq ha.normalised ha.known, toBigint_eq hb.normalised hb.known,
      ha.width_eq, hb.width_eq, ha.signed_eq, hb.signed_eq]
    rfl
  | false =>
    rw [if_neg Bool.false_ne_true, ← ha.unsigned_eq hx hxw, ← hb.unsigned_eq hy hyw]
    rcases Nat.lt_trichotomy a.payload b.payload with h | h | h
    · rw [compare_lt_iff_lt.2 h, compare_lt_iff_lt.2 (by exact_mod_cast h)]
    · rw [h]
      simp
    · rw [compare_gt_iff_gt.2 h, compare_gt_iff_gt.2 (by exact_mod_cast h)]

theorem operand_eq_iff :
    operand x width signed = operand y width signed ↔ a.payload = b.payload := by
  constructor
  · intro heq
    have hmod := ha.operand_emod hx hxw
    rw [heq, hb.operand_emod hy hyw] at hmod
    exact_mod_cast hmod.symm
  · intro heq
    cases signed with
    | true => rw [← ha.signed_eq, ← hb.signed_eq, heq]
    | false => rw [← ha.unsigned_eq hx hxw, ← hb.unsigned_eq hy hyw, heq]

end

theorem equal_known (ha : Extends a x width signed) (hb : Extends b y width signed)
    (wildcard negated : Bool) :
    ValueBigUint.equal a b width wildcard negated =
      ⟨(if negated then decide (a.payload ≠ b.payload) else decide (a.payload = b.payload)).toNat,
        0, 1, false⟩ := by
  have hmask : (if wildcard then 0 ^^^ genMask width else genMask width) = genMask width := by
    rw [Nat.zero_xor, ite_self]
  have hmismatch : (a.payload ^^^ b.payload) &&& genMask width = a.payload ^^^ b.payload := by
    rw [and_genMask, Nat.mod_eq_of_lt (Nat.xor_lt_two_pow ha.payload_lt hb.payload_lt)]
  have hne : decide (a.payload ^^^ b.payload ≠ 0) = decide (a.payload ≠ b.payload) :=
    decide_eq_decide.2 (not_congr Nat.xor_eq_zero_iff)
  unfold ValueBigUint.equal
  dsimp only
  rw [ha.maskXz, hb.maskXz, hmask, Nat.zero_xor, Nat.and_self, Nat.and_self, hmismatch, hne,
    Nat.or_self, Nat.zero_and, decide_eq_false (by simp : ¬(0 : ℕ) ≠ 0)]
  cases negated with
  | true => exact newBit1x_known _
  | false =>
    rw [if_neg Bool.false_ne_true, if_neg Bool.false_ne_true, newBit0x_known, decide_not,
      Bool.not_not]

theorem evalEqual_computes (hx : x.Normalised) (hy : y.Normalised) (hxk : x.isXz = false)
    (hyk : y.isXz = false) (hpos : 0 < width) (wildcard negated : Bool) :
    Computes (evalEqual (fun _ => false) x y width wildcard negated) width (some ((if negated then
          decide (operand x (max x.width y.width) (x.signed && y.signed) ≠
            operand y (max x.width y.width) (x.signed && y.signed))
        else decide (operand x (max x.width y.width) (x.signed && y.signed) =
          operand y (max x.width y.width) (x.signed && y.signed))).toNat : ℤ)) := by
  have hxw := Nat.le_max_left x.width y.width
  have hyw := Nat.le_max_right x.width y.width
  have ha := expand_extends hx hxk hxw (x.signed && y.signed)
  have hb := expand_extends hy hyk hyw (x.signed && y.signed)
  have hiff := operand_eq_iff ha hb hx hy hxw hyw
  unfold evalEqual
  dsimp only
  rw [arms_biguint, equal_known ha hb, map_some, decide_eq_decide.2 hiff,
    decide_eq_decide.2 (not_congr hiff)]
  exact computes_bit hpos _

theorem evalCompare_computes (hx : x.Normalised) (hy : y.Normalised) (hxk : x.isXz = false)
    (hyk : y.isXz = false) (hpos : 0 < width) (signed greater inclusive : Bool) :
    Computes (evalCompare (fun _ => false) x y width signed greater inclusive) width (some ((
        let order := compare (operand x (max x.width y.width) signed)
          (operand y (max x.width y.width) signed)
        if greater then if inclusive then order.isGE else order.isGT
        else if inclusive then order.isLE else order.isLT).toNat : ℤ)) := by
  have hxw := Nat.le_max_left x.width y.width
  have hyw := Nat.le_max_right x.width y.width
  have ha := expand_extends hx hxk hxw signed
  have hb := expand_extends hy hyk hyw signed
  unfold evalCompare ValueBigUint.ordered
  dsimp only
  rw [arms_biguint, order_operands ha hb hx hy hxw hyw, ha.maskXz, hb.maskXz,
    decide_eq_false (by simp : ¬(0 : ℕ) ≠ 0), Bool.or_self, newBitX1_known, map_some]
  exact computes_bit hpos _

end Comparisons

section Powers

variable {x y a : Value} {width : ℕ} {signed : Bool}

theorem negativeExponent_iff (hy : y.Normalised) :
    negativeExponent y = decide (exponent y < 0) := by
  have hlt : (y.payload : ℤ) < 2 ^ y.width := by exact_mod_cast hy.payload_lt
  unfold negativeExponent exponent extended
  rw [decide_eq_true hy.width_pos, Bool.and_true]
  cases y.signed with
  | false =>
    rw [Bool.false_and, if_neg Bool.false_ne_true]
    exact (decide_eq_false (by omega)).symm
  | true =>
    rw [Bool.true_and, if_pos rfl, bmod_two_pow hy.width_pos hy.payload_lt]
    unfold signedPayload
    split
    · rename_i hbit
      rw [hbit, decide_eq_true (by omega)]
    · rename_i hbit
      rw [eq_false_of_ne_true hbit, decide_eq_false (by omega)]

theorem exponent_nonneg (hy : y.Normalised) (h : 0 ≤ exponent y) :
    (exponent y).toNat = y.payload := by
  have hlt : (y.payload : ℤ) < 2 ^ y.width := by exact_mod_cast hy.payload_lt
  unfold exponent extended at *
  split at h
  · rename_i hsigned
    rw [if_pos hsigned]
    rw [bmod_two_pow hy.width_pos hy.payload_lt] at h ⊢
    unfold signedPayload at *
    split at h
    · omega
    · rename_i hbit
      rw [if_neg hbit, toNat_natCast]
  · rename_i hsigned
    rw [if_neg hsigned, toNat_natCast]

theorem exponent_odd (hy : y.Normalised) (h : exponent y < 0) :
    (exponent y).natAbs % 2 = y.payload % 2 := by
  have heven : (2 : ℤ) ^ y.width = 2 * 2 ^ (y.width - 1) := by
    rw [← pow_succ']
    congr 1
    have := hy.width_pos
    omega
  unfold exponent extended at *
  split at h
  · rename_i hsigned
    rw [bmod_two_pow hy.width_pos hy.payload_lt] at h ⊢
    unfold signedPayload at *
    split at h
    · rename_i hbit
      omega
    · omega
  · omega

theorem tdiv_pow_of_large {b : ℤ} {n : ℕ} (hb : 2 ≤ b.natAbs) (hn : n ≠ 0) :
    Int.tdiv 1 (b ^ n) = 0 := by
  have hlt : 1 < (b ^ n).natAbs := by
    rw [natAbs_pow]
    exact Nat.one_lt_pow hn hb
  refine natAbs_eq_zero.1 ?_
  rw [natAbs_tdiv]
  exact Nat.div_eq_of_lt hlt

theorem pow_computes (ha : Extends a x width signed) (hx : x.Normalised) (hxw : x.width ≤ width)
    (n : ℕ) : Computes (some (ValueBigUint.pow a n width)) width
      (some (operand x width signed ^ n)) := by
  have hmod := ha.modEq hx hxw
  obtain ⟨hn, rfl, hknown, -, -⟩ := ha
  rw [pow_eq hn, hknown, if_neg Bool.false_ne_true]
  refine computes_some rfl rfl rfl ?_
  exact hmod.pow n

theorem tdiv_neg_one_pow (n : ℕ) : Int.tdiv 1 ((-1) ^ n) = if n % 2 = 1 then -1 else 1 := by
  split
  · rename_i hodd
    rw [Odd.neg_one_pow (Nat.odd_iff.2 hodd)]
    rfl
  · rename_i heven
    rw [Even.neg_one_pow (Nat.even_iff.2 (by omega))]
    rfl

theorem signedPayload_ones (hpos : 0 < width) : signedPayload (genMask width) width = -1 := by
  have hone : 1 ≤ 2 ^ width := Nat.one_le_two_pow
  unfold signedPayload
  rw [testBit_genMask, decide_eq_true (by omega), if_pos rfl]
  unfold genMask
  push_cast [Nat.cast_sub hone]
  ring

/-- The powers with a wrong sign: a base of ones that has the width of the operation, flagged
otherwise than it, with a negative exponent. -/
structure SignMismatch (x y : Value) (width : ℕ) (signed : Bool) : Prop where
  negative : exponent y < 0
  mismatch : x.signed ≠ signed
  width_eq : x.width = width
  ones : x.payload = genMask width
  wide : 1 < width

section

variable (ha : Extends a x width signed)

include ha

theorem operand_one (hx : x.Normalised) (hxw : x.width ≤ width) (hone : a.payload = 1) :
    operand x width signed = 1 ∨ operand x width signed = -1 ∧ width = 1 := by
  cases signed with
  | false => exact .inl (by rw [← ha.unsigned_eq hx hxw, hone]; rfl)
  | true =>
    rw [← ha.signed_eq, hone]
    by_cases hwidth : width = 1
    · subst hwidth
      exact .inr ⟨by decide, rfl⟩
    · have hbit : Nat.testBit 1 (width - 1) = false :=
        Nat.testBit_lt_two_pow (Nat.one_lt_two_pow (by have := ha.width_pos; omega))
      refine .inl ?_
      unfold signedPayload
      rw [hbit, if_neg Bool.false_ne_true]
      rfl

theorem operand_large (hx : x.Normalised) (hxw : x.width ≤ width)
    (hzero : a.payload ≠ 0) (hone : a.payload ≠ 1)
    (hones : ¬(signed = true ∧ a.payload = genMask width)) :
    2 ≤ (operand x width signed).natAbs := by
  have hlt : (a.payload : ℤ) < 2 ^ width := by exact_mod_cast ha.payload_lt
  cases signed with
  | false =>
    rw [← ha.unsigned_eq hx hxw, natAbs_natCast]
    omega
  | true =>
    have hmask : (genMask width : ℤ) = 2 ^ width - 1 := by
      have hle : 1 ≤ 2 ^ width := Nat.one_le_two_pow
      unfold genMask
      push_cast [Nat.cast_sub hle]
      rfl
    have hne : (a.payload : ℤ) ≠ genMask width := fun h => hones ⟨rfl, by exact_mod_cast h⟩
    rw [← ha.signed_eq]
    unfold signedPayload
    split
    · omega
    · omega

theorem payload_of_width_eq (hx : x.Normalised) (hwidth : x.width = width) :
    a.payload = x.payload := by
  have hpayload := ha.payload
  rw [pattern, ← hwidth, extended_emod hx] at hpayload
  exact_mod_cast hpayload

/-- A base that counts as minus one by its flag, or by the operation, has ones in all places. -/
theorem ones_of_payload (hx : x.Normalised) (hxw : x.width ≤ width)
    (hmask : a.payload = genMask width) (hone : a.payload ≠ 1)
    (hmismatch : x.signed ≠ signed) (hwidth : x.signed = true → x.width = width)
    (hneg : exponent y < 0) : SignMismatch x y width signed := by
  have hwide : 1 < width := by
    by_contra hle
    obtain rfl : width = 1 := by have := ha.width_pos; omega
    exact hone hmask
  have hfull : x.width = width := by
    cases hsigned : x.signed with
    | true => exact hwidth hsigned
    | false =>
      have hpayload : (a.payload : ℤ) = x.payload := by
        have hlt : (x.payload : ℤ) < 2 ^ x.width := by exact_mod_cast hx.payload_lt
        have hpow : (2 ^ x.width : ℤ) ≤ 2 ^ width := by
          exact_mod_cast Nat.pow_le_pow_right (by omega) hxw
        rw [ha.payload, pattern, extended, hsigned, Bool.false_and, if_neg Bool.false_ne_true,
          emod_eq_of_lt (by omega) (by omega)]
      have hlt := hx.payload_lt
      have hlow : genMask width < 2 ^ x.width := by omega
      by_contra hne
      have hpow : 2 ^ (x.width + 1) ≤ 2 ^ width := Nat.pow_le_pow_right (by omega) (by omega)
      have hone : 1 ≤ 2 ^ x.width := Nat.one_le_two_pow
      rw [Nat.pow_succ] at hpow
      unfold genMask at hlow
      omega
  exact ⟨hneg, hmismatch, hfull, (payload_of_width_eq ha hx hfull).symm.trans hmask, hwide⟩

theorem powNegative_computes (hx : x.Normalised)
    (hxw : x.width ≤ width) (hy : y.Normalised) (hneg : exponent y < 0)
    (hgood : ¬SignMismatch x y width signed) :
    Computes (some (powNegative a (decide (y.payload % 2 = 1)) width
      (genMask width))) width (power (operand x width signed) (exponent y)) := by
  have hlt := ha.payload_lt
  have hzero := ha.operand_eq_zero hx hxw
  have hodd := exponent_odd hy hneg
  have hn : (exponent y).natAbs ≠ 0 := by
    omega
  have hpower : power (operand x width signed) (exponent y) =
      if operand x width signed = 0 then none
      else some (Int.tdiv 1 (operand x width signed ^ (exponent y).natAbs)) :=
    if_neg (by omega)
  rw [hpower]
  unfold powNegative
  dsimp only
  rw [and_genMask, Nat.mod_eq_of_lt hlt, ha.known, Bool.false_or]
  by_cases hp0 : a.payload = 0
  · rw [if_pos (beq_iff_eq.2 hp0), if_pos (hzero.2 hp0)]
    exact ⟨_, rfl, rfl, rfl, rfl⟩
  rw [if_neg fun h => hp0 (beq_iff_eq.1 h), if_neg fun h => hp0 (hzero.1 h)]
  have hmod : (1 : ℕ) = 1 % 2 ^ width :=
    (Nat.mod_eq_of_lt (Nat.one_lt_two_pow (by have := ha.width_pos; omega))).symm
  by_cases hp1 : a.payload = 1
  · rw [if_pos hp1]
    refine computes_some rfl rfl hmod ?_
    rcases operand_one ha hx hxw hp1 with hbase | ⟨hbase, rfl⟩
    · rw [hbase, one_pow]
      rfl
    · rw [hbase, tdiv_neg_one_pow]
      split <;> rfl
  rw [if_neg hp1]
  by_cases hones : (a.signed && a.payload == genMask width) = true
  · obtain ⟨hsigned, hmask⟩ : a.signed = true ∧ a.payload = genMask width := by simpa using hones
    have hsign := ha.sign
    rw [hsigned] at hsign
    obtain ⟨hxs, hor⟩ : x.signed = true ∧ (signed = true ∨ x.width = width) := by
      simpa using hsign.symm
    obtain rfl : signed = true := by
      by_contra hs
      exact hgood (ones_of_payload ha hx hxw hmask hp1 (fun h => hs (h ▸ hxs))
        (fun _ => hor.resolve_left hs) hneg)
    have hbase : operand x width true = -1 := by
      rw [← ha.signed_eq, hmask, signedPayload_ones ha.width_pos]
    rw [if_pos hones, hbase, tdiv_neg_one_pow, hodd]
    by_cases hpar : y.payload % 2 = 1
    · rw [decide_eq_true hpar, if_pos rfl, if_pos hpar]
      refine computes_some rfl rfl (Nat.mod_eq_of_lt (genMask_lt width)).symm ?_
      have hle : 1 ≤ 2 ^ width := Nat.one_le_two_pow
      rw [← add_emod_right (-1 : ℤ)]
      unfold genMask
      push_cast [Nat.cast_sub hle]
      rw [sub_eq_neg_add]
    · rw [decide_eq_false hpar, if_neg Bool.false_ne_true, if_neg hpar]
      exact computes_some rfl rfl hmod rfl
  · rw [if_neg hones, tdiv_pow_of_large (operand_large ha hx hxw hp0 hp1 ?_) hn]
    · exact computes_some (p := 0) rfl rfl (Nat.zero_mod _).symm rfl
    · rintro ⟨rfl, hmask⟩
      have hxs : x.signed = false := by
        by_contra hxs
        refine hones ?_
        rw [ha.sign, eq_true_of_ne_false hxs, hmask]
        simp
      exact hgood (ones_of_payload ha hx hxw hmask hp1 (by simp [hxs]) (by simp [hxs]) hneg)

theorem powNegative_wrong (hx : x.Normalised)
    (hxw : x.width ≤ width) (hbad : SignMismatch x y width signed) :
    ¬Computes (some (powNegative a (decide (y.payload % 2 = 1)) width
      (genMask width))) width (power (operand x width signed) (exponent y)) := by
  obtain ⟨hneg, hmismatch, hwidth, hones, hwide⟩ := hbad
  have hfour : 2 ^ 2 ≤ 2 ^ width := Nat.pow_le_pow_right (by omega) hwide
  have hmask : a.payload = genMask width := (payload_of_width_eq ha hx hwidth).trans hones
  have hbig : 3 ≤ genMask width := by
    unfold genMask
    omega
  have hn : (exponent y).natAbs ≠ 0 := by
    omega
  have hnot : ¬(a.payload == 0) = true := by
    rw [beq_iff_eq]
    omega
  have hsigned : a.signed = x.signed := by
    rw [ha.sign, hwidth]
    simp
  unfold powNegative
  dsimp only
  rw [and_genMask, Nat.mod_eq_of_lt ha.payload_lt, ha.known, Bool.false_or, if_neg hnot,
    if_neg (by omega), hsigned, hmask, beq_self_eq_true, Bool.and_true]
  cases signed with
  | false =>
    -- The code takes the ones for minus one, the operation for the greatest number.
    have hbase : 2 ≤ (operand x width false).natAbs := by
      rw [← ha.unsigned_eq hx hxw, natAbs_natCast]
      omega
    have hpower : power (operand x width false) (exponent y) = some 0 := by
      unfold power
      rw [if_neg (by omega), if_neg (by omega), tdiv_pow_of_large hbase hn]
    rw [hpower, if_pos (eq_true_of_ne_false hmismatch)]
    rintro ⟨v, hv, -, hpayload, -⟩
    obtain rfl := some.inj hv
    have hzero : (if decide (y.payload % 2 = 1) = true then genMask width else 1) = 0 := by
      exact_mod_cast hpayload
    split at hzero
    · omega
    · exact absurd hzero Nat.one_ne_zero
  | true =>
    -- The other way round.
    have hbase : operand x width true = -1 := by
      rw [← ha.signed_eq, hmask, signedPayload_ones ha.width_pos]
    have hpower : power (operand x width true) (exponent y) =
        some (if (exponent y).natAbs % 2 = 1 then -1 else 1) := by
      unfold power
      rw [if_neg (by omega), hbase, if_neg (by decide), tdiv_neg_one_pow]
    rw [hpower, if_neg hmismatch]
    rintro ⟨v, hv, -, hpayload, -⟩
    obtain rfl := some.inj hv
    have hzero : ((2 : ℤ) ^ width) ∣ if (exponent y).natAbs % 2 = 1 then -1 else 1 :=
      dvd_of_emod_eq_zero (by exact_mod_cast hpayload.symm)
    have habs := natAbs_dvd_natAbs.2 hzero
    have hunit : (if (exponent y).natAbs % 2 = 1 then (-1 : ℤ) else 1).natAbs = 1 := by
      split <;> rfl
    rw [hunit, natAbs_pow, Nat.dvd_one] at habs
    exact absurd habs (by simpa using (by omega : 2 ^ width ≠ 1))

end

end Powers

section Operators

variable {native : ℕ → Bool} {x y : Value} {width : ℕ} {signed : Bool}

theorem isLT_compare (a b : ℤ) : (compare a b).isLT = decide (a < b) := by
  rcases lt_trichotomy a b with h | h | h
  · rw [compare_lt_iff_lt.2 h, decide_eq_true h]
    rfl
  · rw [compare_eq_iff_eq.2 h, decide_eq_false (by omega)]
    rfl
  · rw [compare_gt_iff_gt.2 h, decide_eq_false (by omega)]
    rfl

theorem isGT_compare (a b : ℤ) : (compare a b).isGT = decide (b < a) := by
  rcases lt_trichotomy a b with h | h | h
  · rw [compare_lt_iff_lt.2 h, decide_eq_false (by omega)]
    rfl
  · rw [compare_eq_iff_eq.2 h, decide_eq_false (by omega)]
    rfl
  · rw [compare_gt_iff_gt.2 h, decide_eq_true h]
    rfl

theorem isLE_compare (a b : ℤ) : (compare a b).isLE = decide (a ≤ b) := by
  have h : (compare a b).isLE = !(compare a b).isGT := by cases compare a b <;> rfl
  rw [h, isGT_compare, ← decide_not, decide_eq_decide]
  omega

theorem isGE_compare (a b : ℤ) : (compare a b).isGE = decide (b ≤ a) := by
  have h : (compare a b).isGE = !(compare a b).isLT := by cases compare a b <;> rfl
  rw [h, isLT_compare, ← decide_not, decide_eq_decide]
  omega

theorem binary_comparison (hop : isComparison op = true) : binary op x y width signed =
      (comparison op
        (operand x (max x.width y.width) (if bySign op then x.signed && y.signed else signed))
        (operand y (max x.width y.width) (if bySign op then x.signed && y.signed else signed))).map
          fun b => some (b.toNat : ℤ) := by
  cases op with
  | eq | eqWildcard | ne | neWildcard | less | lessEq | greater | greaterEq => rfl
  | _ => exact nomatch hop

theorem binary_arithmetic (hop : isArithmetic op = true) : binary op x y width signed =
      arithmetic op (operand x width signed) (operand y width signed) := by
  cases op with
  | add | sub | mul | div | rem => rfl
  | _ => exact nomatch hop

section

variable (hnative : ∀ w, native w = true → w ≤ 64)

include hnative

section

variable (hx : x.Normalised)

include hx

theorem arithmetic_computes (hy : y.Normalised) (hxk : x.isXz = false) (hyk : y.isXz = false)
    (hxw : x.width ≤ width) (hyw : y.width ≤ width)
    (hop : arithmetic op (operand x width signed) (operand y width signed) = some result) :
    Computes (evalArith native op x y width signed) width result := by
  have ha := expand_extends hx hxk hxw signed
  have hb := expand_extends hy hyk hyw signed
  rw [evalArith_native hnative op hx hy hxw hyw signed]
  cases op with
  | add =>
    obtain rfl := some.inj hop
    exact add_computes ha hb hx hy hxw hyw
  | sub =>
    obtain rfl := some.inj hop
    exact sub_computes ha hb hx hy hxw hyw
  | mul =>
    obtain rfl := some.inj hop
    exact mul_computes ha hb hx hy hxw hyw
  | div =>
    obtain rfl := some.inj hop
    exact divRem_computes ha hb hx hy hxw hyw false
  | rem =>
    obtain rfl := some.inj hop
    exact divRem_computes ha hb hx hy hxw hyw true
  | _ => exact nomatch hop

theorem shift_computes
    (hxk : x.isXz = false) (hyk : y.isXz = false) (hxw : x.width ≤ width) (hword : width < 2 ^ 64) :
    Computes (evalValueBinary native .logicShiftL x y width signed) width
        (some (operand x width signed * 2 ^ y.payload)) ∧
      Computes (evalValueBinary native .arithShiftL x y width signed) width
        (some (operand x width signed * 2 ^ y.payload)) ∧
      Computes (evalValueBinary native .logicShiftR x y width signed) width
        (some (pattern x width signed / 2 ^ y.payload)) ∧
      Computes (evalValueBinary native .arithShiftR x y width signed) width
        (some (operand x width signed / 2 ^ y.payload)) := by
  have ha := expand_extends hx hxk hxw signed
  have hlt := ha.payload_lt
  have hmask : (expand (fun _ => false) x width signed).maskXz < 2 ^ width := by
    rw [ha.maskXz]
    exact Nat.two_pow_pos width
  have hle : native (expand (fun _ => false) x width signed).width = true → width ≤ 64 :=
    fun hn => ha.width_eq ▸ hnative _ hn
  unfold evalValueBinary
  dsimp only
  rw [expand_native hnative x, expand_native hnative, expand_native hnative,
    expand_native hnative, expand_native hnative]
  rw [arm_native fun hn => shiftLeft_eq (hle hn) y.toUsizeSaturating false,
    arm_native fun hn => shiftLeft_eq (hle hn) y.toUsizeSaturating true,
    arm_native fun hn => logicShiftR_eq hlt hmask (hle hn) y.toUsizeSaturating signed,
    arm_native fun hn => arithShiftR_eq hlt hmask (hle hn) y.toUsizeSaturating signed]
  exact ⟨(shiftLeft_computes ha hx hxw hyk hword false).expand ha.width_pos false,
    (shiftLeft_computes ha hx hxw hyk hword true).expand ha.width_pos false,
    (logicShiftR_computes ha hyk hword).expand ha.width_pos false,
    (arithShiftR_computes ha hx hxw hyk hword).expand ha.width_pos false⟩

theorem comparison_computes (hy : y.Normalised) (hxk : x.isXz = false) (hyk : y.isXz = false)
    (hpos : 0 < width) {bit : Bool}
    (hop : comparison op
      (operand x (max x.width y.width) (if bySign op then x.signed && y.signed else signed))
      (operand y (max x.width y.width) (if bySign op then x.signed && y.signed else signed)) =
        some bit) :
    Computes (evalValueBinary native op x y width signed) width (some (bit.toNat : ℤ)) := by
  have hequal := evalEqual_computes hx hy hxk hyk hpos
  have hcompare := evalCompare_computes hx hy hxk hyk hpos signed
  simp only [← evalEqual_native hnative hx hy] at hequal
  simp only [← evalCompare_native hnative hx hy] at hcompare
  cases op with
  | eq =>
    obtain rfl := some.inj hop
    exact hequal false false
  | eqWildcard =>
    obtain rfl := some.inj hop
    exact hequal true false
  | ne =>
    obtain rfl := some.inj hop
    exact hequal false true
  | neWildcard =>
    obtain rfl := some.inj hop
    exact hequal true true
  | less =>
    obtain rfl := some.inj hop
    rw [← isLT_compare]
    exact hcompare false false
  | lessEq =>
    obtain rfl := some.inj hop
    rw [← isLE_compare]
    exact hcompare false true
  | greater =>
    obtain rfl := some.inj hop
    rw [← isGT_compare]
    exact hcompare true false
  | greaterEq =>
    obtain rfl := some.inj hop
    rw [← isGE_compare]
    exact hcompare true true
  | _ => exact nomatch hop

theorem pow_exact
    (hy : y.Normalised) (hxk : x.isXz = false) (hyk : y.isXz = false) (hxw : x.width ≤ width) :
    Computes (some (evalPow native x y width signed)) width
        (power (operand x width signed) (exponent y)) ↔
      ¬SignMismatch x y width signed := by
  have ha := expand_extends hx hxk hxw signed
  rw [evalPow_native hnative hx hxw y signed]
  unfold evalPow arm
  dsimp only
  rw [hyk, Bool.false_and, if_neg Bool.false_ne_true, if_neg Bool.false_ne_true,
    if_neg Bool.false_ne_true, negativeExponent_iff hy]
  by_cases hneg : exponent y < 0
  · rw [decide_eq_true hneg, if_pos rfl]
    exact ⟨fun h hbad => powNegative_wrong ha hx hxw hbad h,
      fun hgood => powNegative_computes ha hx hxw hy hneg hgood⟩
  · rw [decide_eq_false hneg, if_neg Bool.false_ne_true]
    refine ⟨fun _ hbad => hneg hbad.negative, fun _ => ?_⟩
    have hpower : power (operand x width signed) (exponent y) =
        some (operand x width signed ^ y.payload) := by
      unfold power
      rw [if_pos (by omega), exponent_nonneg hy (by omega)]
    rw [hpower]
    exact pow_computes ha hx hxw y.payload

theorem binary_computes (hy : y.Normalised) (hxk : x.isXz = false) (hyk : y.isXz = false)
    (hpos : 0 < width) (hword : width < 2 ^ 64) (hxw : isComparison op = false → x.width ≤ width)
    (hyw : isArithmetic op = true → y.width ≤ width) (hpow : op ≠ .pow)
    (hresult : binary op x y width signed = some result) :
    Computes (evalValueBinary native op x y width signed) width result := by
  have hcomparison : isComparison op = true →
      Computes (evalValueBinary native op x y width signed) width result := by
    intro hop
    rw [binary_comparison hop] at hresult
    obtain ⟨bit, hbit, rfl⟩ := map_eq_some_iff.1 hresult
    exact comparison_computes hnative hx hy hxk hyk hpos hbit
  cases op with
  | add | sub | mul | div | rem =>
    rw [binary_arithmetic rfl] at hresult
    exact arithmetic_computes hnative hx hy hxk hyk (hxw rfl) (hyw rfl) hresult
  | logicShiftL =>
    obtain rfl := some.inj hresult
    exact (shift_computes hnative hx hxk hyk (hxw rfl) hword).1
  | arithShiftL =>
    obtain rfl := some.inj hresult
    exact (shift_computes hnative hx hxk hyk (hxw rfl) hword).2.1
  | logicShiftR =>
    obtain rfl := some.inj hresult
    exact (shift_computes hnative hx hxk hyk (hxw rfl) hword).2.2.1
  | arithShiftR =>
    obtain rfl := some.inj hresult
    exact (shift_computes hnative hx hxk hyk (hxw rfl) hword).2.2.2
  | eq | eqWildcard | ne | neWildcard | less | lessEq | greater | greaterEq => exact hcomparison rfl
  | pow => exact absurd rfl hpow
  | _ => exact nomatch hresult

end

end

end Operators

end Veryl.Analyzer.Reference
