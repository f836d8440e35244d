import Veryl.Analyzer.StoredValue

/-!
The slices and the concatenations of stored values, bit by bit.
-/

namespace Veryl.Analyzer

open Nat

variable {x : Value} {p w i : ℕ}

namespace StoredValue

theorem genMask_mod (width : ℕ) : genMask width % 2 ^ 64 = ValueU64.genMask width := by
  apply eq_of_testBit_eq
  intro i
  rw [testBit_mod_two_pow, testBit_genMask, ValueU64.testBit_genMask]
  by_cases h : i < 64 <;> simp [h]

theorem selectU64_eq (hx : x.width ≤ 64) (beg end_ : ℕ) :
    ValueU64.select x beg end_ = { ValueBigUint.select x beg end_ with
      maskXz := (ValueBigUint.select x beg end_).maskXz % 2 ^ 64 } := by
  have hvalid : ValueU64.genMask (min (x.width - end_) (beg - end_ + 1)) =
      genMask (min (x.width - end_) (beg - end_ + 1)) :=
    ValueU64.genMask_eq (by omega)
  have hsmall : (x.maskXz >>> end_) &&& genMask (min (x.width - end_) (beg - end_ + 1)) < 2 ^ 64 :=
    and_lt_two_pow _ (lt_of_lt_of_le (genMask_lt _) (Nat.pow_le_pow_right Nat.two_pos (by omega)))
  have hmask : ValueU64.genMask (beg - end_ + 1) ^^^
      genMask (min (x.width - end_) (beg - end_ + 1)) =
      (genMask (beg - end_ + 1) ^^^ genMask (min (x.width - end_) (beg - end_ + 1))) % 2 ^ 64 := by
    rw [xor_mod_two_pow, genMask_mod, genMask_mod, hvalid]
  unfold ValueU64.select ValueBigUint.select
  by_cases hempty : beg < end_
  · rw [if_pos hempty, if_pos hempty]
    rfl
  · rw [if_neg hempty, if_neg hempty]
    by_cases hout : x.width ≤ end_
    · simp only [if_pos hout, genMask_mod]
    · simp only [if_neg hout, hvalid, hmask]
      rw [or_mod_two_pow, mod_eq_of_lt hsmall]

theorem genMaskRange_eq {beg end_ : ℕ} (hbeg : beg < 64) :
    ValueU64.genMaskRange beg end_ = ValueBigUint.genMaskRange beg end_ := by
  apply eq_of_testBit_eq
  intro i
  rw [ValueU64.testBit_genMaskRange end_ hbeg, ValueBigUint.testBit_genMaskRange]

theorem mod_and_genMaskRange (p : ℕ) {beg : ℕ} (end_ : ℕ) (hbeg : beg < 64) :
    p % 2 ^ 64 &&& ValueBigUint.genMaskRange beg end_ =
      p &&& ValueBigUint.genMaskRange beg end_ := by
  apply eq_of_testBit_eq
  intro i
  rw [testBit_and, testBit_and, testBit_mod_two_pow, ValueBigUint.testBit_genMaskRange]
  by_cases h : end_ ≤ i ∧ i ≤ beg
  · have hi : i < 64 := by omega
    rw [decide_eq_true hi, Bool.true_and]
  · rw [decide_eq_false h, Bool.and_false, Bool.and_false]

theorem assignU64_eq (hx : x.width ≤ 64) (v : Value) (beg end_ : ℕ) :
    ValueU64.assign x v beg end_ = ValueBigUint.assign x v beg end_ := by
  unfold ValueU64.assign ValueBigUint.assign
  by_cases hout : beg < end_ ∨ x.width ≤ end_
  · have hout' : beg < end_ ∨ x.width ≤ end_ ∨ 64 ≤ end_ := by omega
    rw [if_pos hout, if_pos hout']
  · have hout' : ¬ (beg < end_ ∨ x.width ≤ end_ ∨ 64 ≤ end_) := by omega
    have hbeg : min beg (x.width - 1) < 64 := by omega
    rw [if_neg hout, if_neg hout']
    simp only [genMaskRange_eq hbeg, ValueU64.genMask_eq hx, mod_and_genMaskRange _ _ hbeg]

theorem assignU64_low (hx : x.width ≤ 64) (v : Value) (beg end_ : ℕ) :
    ValueU64.assign x { v with payload := v.payload % 2 ^ 64, maskXz := v.maskXz % 2 ^ 64 }
      beg end_ = ValueBigUint.assign x v beg end_ := by
  rw [← assignU64_eq hx v beg end_]
  unfold ValueU64.assign
  have hlow : ∀ p : ℕ, (p % 2 ^ 64) <<< end_ % 2 ^ 64 = p <<< end_ % 2 ^ 64 := fun p => by
    rw [Nat.shiftLeft_eq, Nat.shiftLeft_eq, mod_mul_mod]
  simp only [hlow]

variable {v r : StoredValue} {beg end_ : ℕ}

theorem WellFormed.width_le (h : (u64 x).WellFormed) : x.width ≤ 64 := (h rfl).1

theorem value_select_u64 (hx : (u64 x).WellFormed) (beg end_ : ℕ) :
    ((u64 x).select beg end_).value = { ValueBigUint.select x beg end_ with
      maskXz := (ValueBigUint.select x beg end_).maskXz % 2 ^ 64 } :=
  selectU64_eq hx.width_le beg end_

theorem value_select_bigUint (x : Value) (beg end_ : ℕ) :
    ((bigUint x).select beg end_).value = ValueBigUint.select x beg end_ := by
  unfold select
  dsimp only
  split
  · rename_i y hy
    unfold toValueU64 at hy
    split at hy
    · exact (Option.some.inj hy).symm
    · cases hy
  · rfl

theorem testBit_selected (hi : end_ + i ≤ beg) (hw : end_ + i < w) :
    ((p >>> end_) &&& genMask (min (w - end_) (beg - end_ + 1))).testBit i =
      p.testBit (end_ + i) := by
  have hin : i < min (w - end_) (beg - end_ + 1) := by omega
  rw [testBit_and, testBit_shiftRight, testBit_genMask, decide_eq_true hin, Bool.and_true]

theorem testBit_select (hi : end_ + i ≤ beg) (hw : end_ + i < x.width) :
    (ValueBigUint.select x beg end_).payload.testBit i = x.payload.testBit (end_ + i) ∧
      (ValueBigUint.select x beg end_).maskXz.testBit i = x.maskXz.testBit (end_ + i) := by
  have hlt : ¬ beg < end_ := by omega
  have hin : ¬ x.width ≤ end_ := by omega
  have hmask : (genMask (beg - end_ + 1) ^^^
      genMask (min (x.width - end_) (beg - end_ + 1))).testBit i = false := by
    have h1 : i < beg - end_ + 1 := by omega
    have h2 : i < min (x.width - end_) (beg - end_ + 1) := by omega
    rw [testBit_xor, testBit_genMask, testBit_genMask, decide_eq_true h1, decide_eq_true h2]
    rfl
  unfold ValueBigUint.select
  rw [if_neg hlt]
  simp only [if_neg hin]
  rw [testBit_selected hi hw, testBit_or, testBit_selected hi hw, hmask, Bool.or_false]
  exact ⟨rfl, rfl⟩

theorem testBit_merged {q : ℕ} (hi : i < w) (hin : end_ ≤ beg ∧ end_ < w) :
    ((p &&& (genMask w ^^^ ValueBigUint.genMaskRange (min beg (w - 1)) end_)) |||
      ((q <<< end_) &&& ValueBigUint.genMaskRange (min beg (w - 1)) end_)).testBit i =
      if end_ ≤ i ∧ i ≤ beg then q.testBit (i - end_) else p.testBit i := by
  rw [testBit_or, testBit_and, testBit_and, testBit_xor, testBit_genMask,
    decide_eq_true hi, ValueBigUint.testBit_genMaskRange, testBit_shiftLeft]
  by_cases h : end_ ≤ i ∧ i ≤ beg
  · have h' : end_ ≤ i ∧ i ≤ min beg (w - 1) := by omega
    rw [if_pos h, decide_eq_true h', decide_eq_true h.1]
    simp
  · have h' : ¬ (end_ ≤ i ∧ i ≤ min beg (w - 1)) := by omega
    rw [if_neg h, decide_eq_false h']
    simp

theorem testBit_assign (x y : Value) (beg end_ : ℕ) (hi : i < x.width) :
    (ValueBigUint.assign x y beg end_).payload.testBit i =
        (if end_ ≤ i ∧ i ≤ beg then y.payload.testBit (i - end_) else x.payload.testBit i) ∧
      (ValueBigUint.assign x y beg end_).maskXz.testBit i =
        (if end_ ≤ i ∧ i ≤ beg then y.maskXz.testBit (i - end_) else x.maskXz.testBit i) := by
  unfold ValueBigUint.assign
  by_cases hout : beg < end_ ∨ x.width ≤ end_
  · have hnot : ¬ (end_ ≤ i ∧ i ≤ beg) := by omega
    rw [if_pos hout, if_neg hnot, if_neg hnot]
    exact ⟨rfl, rfl⟩
  · rw [if_neg hout]
    exact ⟨testBit_merged hi (by omega), testBit_merged hi (by omega)⟩

theorem isU64_assign (v r : StoredValue) (beg end_ : ℕ) :
    (v.assign r beg end_).isU64 = v.isU64 := by
  cases v <;> cases r <;> rfl

/-- Nothing is set above the width. -/
def Clean (v : StoredValue) : Prop :=
  v.value.payload < 2 ^ v.width ∧ v.value.maskXz < 2 ^ v.width

theorem Clean.bit (h : v.Clean) (hi : v.width ≤ i) : v.bit i = (false, false) :=
  have hpow : 2 ^ v.width ≤ 2 ^ i := Nat.pow_le_pow_right Nat.two_pos hi
  Prod.ext (testBit_lt_two_pow (h.1.trans_le hpow)) (testBit_lt_two_pow (h.2.trans_le hpow))

theorem merged_lt {q : ℕ} (hw : end_ < w) :
    ((p &&& (genMask w ^^^ ValueBigUint.genMaskRange (min beg (w - 1)) end_)) |||
      ((q <<< end_) &&& ValueBigUint.genMaskRange (min beg (w - 1)) end_)) < 2 ^ w := by
  refine lt_pow_two_of_testBit _ fun i hi => ?_
  have hout : ¬ i < w := by omega
  have hrange : ¬ (end_ ≤ i ∧ i ≤ min beg (w - 1)) := by omega
  rw [testBit_or, testBit_and, testBit_and, testBit_xor, testBit_genMask,
    ValueBigUint.testBit_genMaskRange, decide_eq_false hout, decide_eq_false hrange]
  simp

theorem ext_bits {v v' : StoredValue} (hstorage : v.isU64 = v'.isU64) (hwidth : v.width = v'.width)
    (hsigned : v.signed = v'.signed) (hv : v.Clean) (hv' : v'.Clean)
    (hbits : ∀ i < v.width, v.bit i = v'.bit i) : v = v' := by
  have hall : ∀ i, v.bit i = v'.bit i := fun i => by
    rcases Nat.lt_or_ge i v.width with hi | hi
    · exact hbits i hi
    · rw [hv.bit hi, hv'.bit (hwidth ▸ hi)]
  have hvalue : v.value = v'.value := by
    have hpayload := eq_of_testBit_eq fun i => congrArg Prod.fst (hall i)
    have hmask := eq_of_testBit_eq fun i => congrArg Prod.snd (hall i)
    unfold width signed at *
    cases hx : v.value
    simp_all
  cases v <;> cases v' <;> simp_all [isU64, value]

/-- What a slice promises: an assignment keeps the target's width, sign and storage and the
bits outside the range, the range then reads the replacement, putting a selection back changes
nothing, and the numbers do not tell which storage the operands were in. -/
structure SliceLaws (v r : StoredValue) (beg end_ : ℕ) : Prop where
  kept : (v.assign r beg end_).width = v.width ∧ (v.assign r beg end_).signed = v.signed ∧
    (v.assign r beg end_).isU64 = v.isU64
  outside : ∀ i < v.width, ¬ (end_ ≤ i ∧ i ≤ beg) → (v.assign r beg end_).bit i = v.bit i
  assigned : ∀ i, end_ + i ≤ beg → end_ + i < v.width →
    ((v.assign r beg end_).select beg end_).bit i = r.bit i
  restored : (∀ i < v.width, (v.assign (v.select beg end_) beg end_).bit i = v.bit i) ∧
    (v.Clean → v.assign (v.select beg end_) beg end_ = v)
  storages : ∀ v' r' : StoredValue, v'.WellFormed → r'.WellFormed → v'.value = v.value →
    r'.value = r.value → (v'.select beg end_).value = (v.select beg end_).value ∧
      (v'.assign r' beg end_).value = (v.assign r beg end_).value

section

variable (hv : v.WellFormed)

include hv

theorem value_assign (r : StoredValue) (beg end_ : ℕ) :
    (v.assign r beg end_).value = ValueBigUint.assign v.value r.value beg end_ := by
  cases v with
  | u64 x =>
    cases r with
    | u64 y => exact assignU64_eq hv.width_le y beg end_
    | bigUint y => exact assignU64_low hv.width_le y beg end_
  | bigUint x => rfl

theorem bit_assign (r : StoredValue) (hi : i < v.width) :
    (v.assign r beg end_).bit i = if end_ ≤ i ∧ i ≤ beg then r.bit (i - end_) else v.bit i := by
  obtain ⟨hpayload, hmask⟩ := testBit_assign v.value r.value beg end_ hi
  unfold bit
  rw [value_assign hv, hpayload, hmask]
  split <;> rfl

theorem bit_select (hi : end_ + i ≤ beg) (hw : end_ + i < v.width) :
    (v.select beg end_).bit i = v.bit (end_ + i) := by
  obtain ⟨hpayload, hmask⟩ := testBit_select (x := v.value) hi hw
  unfold bit
  cases v with
  | u64 x =>
    have hword : i < 64 := by
      have hwidth := hv.width_le
      have hin : end_ + i < x.width := hw
      omega
    rw [value_select_u64 hv]
    exact Prod.ext hpayload (by
      rw [testBit_mod_two_pow, decide_eq_true hword, Bool.true_and]
      exact hmask)
  | bigUint x =>
    rw [value_select_bigUint]
    exact Prod.ext hpayload hmask

theorem assign_width (r : StoredValue) (beg end_ : ℕ) :
    (v.assign r beg end_).width = v.width ∧ (v.assign r beg end_).signed = v.signed := by
  unfold width signed
  rw [value_assign hv]
  unfold ValueBigUint.assign
  split <;> exact ⟨rfl, rfl⟩

theorem Clean.assign (h : v.Clean) (r : StoredValue) (beg end_ : ℕ) :
    (v.assign r beg end_).Clean := by
  unfold Clean
  rw [(assign_width hv r beg end_).1, value_assign hv]
  unfold ValueBigUint.assign
  split
  · exact h
  · rename_i hout
    have hlt : end_ < v.value.width := by omega
    exact ⟨merged_lt hlt, merged_lt hlt⟩

theorem wellFormed_assign (r : StoredValue) (beg end_ : ℕ) :
    (v.assign r beg end_).WellFormed := fun hu => by
  rw [isU64_assign] at hu
  obtain ⟨hw, hpayload, hmask⟩ := hv hu
  refine ⟨(assign_width hv r beg end_).1.trans_le hw, ?_, ?_⟩ <;>
  · rw [value_assign hv]
    unfold ValueBigUint.assign
    split
    · assumption
    · rename_i hout
      exact (merged_lt (by omega)).trans_le (Nat.pow_le_pow_right Nat.two_pos hw)

theorem bit_restored (hi : i < v.width) :
    (v.assign (v.select beg end_) beg end_).bit i = v.bit i := by
  rw [bit_assign hv _ hi]
  split
  · rename_i h
    rw [bit_select hv (by omega) (by omega), show end_ + (i - end_) = i by omega]
  · rfl

end

theorem select_mod_iff (hx : x.width ≤ 64) (beg end_ : ℕ) :
    (ValueBigUint.select x beg end_).maskXz % 2 ^ 64 = (ValueBigUint.select x beg end_).maskXz ↔
      beg < end_ ∨ beg - end_ < 64 := by
  constructor
  · intro heq
    by_contra hlong
    have hset : (ValueBigUint.select x beg end_).maskXz.testBit (beg - end_) = true := by
      have hlt : ¬ beg < end_ := by omega
      have htop : beg - end_ < beg - end_ + 1 := lt_succ_self _
      unfold ValueBigUint.select
      rw [if_neg hlt]
      by_cases hout : x.width ≤ end_
      · simp only [if_pos hout, testBit_genMask, decide_eq_true htop]
      · have hvalid : ¬ beg - end_ < min (x.width - end_) (beg - end_ + 1) := by omega
        simp only [if_neg hout, testBit_or, testBit_xor, testBit_genMask,
          decide_eq_true htop, decide_eq_false hvalid]
        simp
    have hcut := congrArg (·.testBit (beg - end_)) heq
    have hword : ¬ beg - end_ < 64 := by omega
    rw [hset, testBit_mod_two_pow, decide_eq_false hword, Bool.false_and] at hcut
    cases hcut
  · intro hshort
    refine mod_eq_of_lt ?_
    unfold ValueBigUint.select
    by_cases hempty : beg < end_
    · rw [if_pos hempty]
      exact Nat.two_pow_pos 64
    · have hle : 2 ^ (beg - end_ + 1) ≤ 2 ^ 64 := Nat.pow_le_pow_right Nat.two_pos (by omega)
      have hfull : genMask (beg - end_ + 1) < 2 ^ 64 := (genMask_lt _).trans_le hle
      have hvalid : genMask (min (x.width - end_) (beg - end_ + 1)) < 2 ^ 64 :=
        (genMask_lt _).trans_le ((Nat.pow_le_pow_right Nat.two_pos (min_le_right _ _)).trans hle)
      rw [if_neg hempty]
      by_cases hout : x.width ≤ end_
      · simpa only [if_pos hout] using hfull
      · simp only [if_neg hout]
        exact or_lt_two_pow (and_lt_two_pow _ hvalid) (xor_lt_two_pow hfull hvalid)

theorem select_same (hx : FitsU64 x) (hshort : beg < end_ ∨ beg - end_ < 64) :
    ((u64 x).select beg end_).value = ((bigUint x).select beg end_).value := by
  rw [value_select_u64 fun _ => hx, value_select_bigUint, (select_mod_iff hx.1 beg end_).2 hshort]

end StoredValue

end Veryl.Analyzer
