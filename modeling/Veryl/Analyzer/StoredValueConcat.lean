import Veryl.Analyzer.StoredValueExact

/-!
Concatenation places the right operand below the left one, whichever storage the result takes,
and replication is the concatenation of the copies: the block of every round is a power of two
of copies, and the result so many copies as the bits of the count taken so far.
-/

namespace Veryl.Analyzer

open Nat

namespace StoredValue

variable {v x : StoredValue}

theorem Sized.clean (h : v.Sized) : v.Clean := ⟨h.payload_lt, h.maskXz_lt⟩

theorem shiftLeft_or_lt {p q m n : ℕ} (hp : p < 2 ^ m) (hq : q < 2 ^ n) :
    p <<< n ||| q < 2 ^ (m + n) := by
  have hhigh : p <<< n < 2 ^ (m + n) := by
    rw [Nat.shiftLeft_eq, Nat.pow_add]
    exact Nat.mul_lt_mul_of_pos_right hp (Nat.two_pow_pos n)
  exact or_lt_two_pow hhigh (hq.trans_le (Nat.pow_le_pow_right Nat.two_pos (by omega)))

theorem testBit_shiftLeft_or {p q n : ℕ} (hq : q < 2 ^ n) (i : ℕ) :
    (p <<< n ||| q).testBit i = if i < n then q.testBit i else p.testBit (i - n) := by
  rw [testBit_or, testBit_shiftLeft]
  split
  · rename_i h
    have hlow : ¬ n ≤ i := by omega
    rw [decide_eq_false hlow, Bool.false_and, Bool.false_or]
  · rename_i h
    have hhigh : n ≤ i := by omega
    rw [decide_eq_true hhigh, Bool.true_and,
      testBit_lt_two_pow (hq.trans_le (Nat.pow_le_pow_right Nat.two_pos hhigh)), Bool.or_false]

theorem shift_native {p m n : ℕ} (hp : p < 2 ^ m) (hmn : m + n ≤ 64) :
    (if n ≠ 64 then (p <<< n) % 2 ^ 64 else p) = p <<< n := by
  split
  · refine mod_eq_of_lt ?_
    have hzero := shiftLeft_or_lt (q := 0) (n := n) hp (Nat.two_pow_pos n)
    rw [or_zero] at hzero
    exact hzero.trans_le (Nat.pow_le_pow_right Nat.two_pos hmn)
  · rename_i h
    obtain rfl : m = 0 := by omega
    obtain rfl : p = 0 := by omega
    rw [zero_shiftLeft]

theorem concat_eq (hv : v.Sized) (hx : x.Sized) (hwidth : v.width + x.width < 2 ^ 32) :
    ∃ r, v.concat x = some r ∧ r.isU64 = decide (v.width + x.width ≤ 64) ∧ r.value =
      ⟨v.value.payload <<< x.width ||| x.value.payload,
        v.value.maskXz <<< x.width ||| x.value.maskXz, v.width + x.width, false⟩ := by
  unfold concat
  dsimp only
  rw [mod_eq_of_lt hwidth]
  by_cases hwide : 64 < v.width + x.width
  · have hbig : ¬ v.width + x.width ≤ 64 := by omega
    rw [if_pos hwide]
    exact ⟨_, rfl, (decide_eq_false hbig).symm, rfl⟩
  · have hvw : v.width ≤ 64 := by omega
    have hxw : x.width ≤ 64 := by omega
    rw [if_neg hwide]
    cases v with
    | bigUint a => exact absurd (hv.storage.symm.trans rfl) (by simp [hvw, isU64])
    | u64 a =>
      cases x with
      | bigUint b => exact absurd (hx.storage.symm.trans rfl) (by simp [hxw, isU64])
      | u64 b =>
        have hsum : a.width + b.width ≤ 64 := by
          have := hwide
          simp only [width, value] at this
          omega
        refine ⟨_, rfl, (decide_eq_true hsum).symm, ?_⟩
        have hpayload : a.payload < 2 ^ a.width := hv.payload_lt
        have hmask : a.maskXz < 2 ^ a.width := hv.maskXz_lt
        simp only [value, width]
        rw [shift_native hpayload hsum, shift_native hmask hsum]

/-- `r` is `x` with `v` above it. -/
structure Placed (v x r : StoredValue) : Prop where
  sized : r.Sized
  width : r.width = v.width + x.width
  unsigned : r.signed = false
  bit : ∀ i, r.bit i = if i < x.width then x.bit i else v.bit (i - x.width)

theorem concat_placed (hv : v.Sized) (hx : x.Sized) (hwidth : v.width + x.width < 2 ^ 32) :
    ∃ r, v.concat x = some r ∧ Placed v x r := by
  obtain ⟨r, hr, hstorage, hvalue⟩ := concat_eq hv hx hwidth
  have hw : r.width = v.width + x.width := by rw [StoredValue.width, hvalue]
  refine ⟨r, hr, ⟨hw ▸ hstorage, ?payload, ?mask⟩, hw, ?unsigned, fun i => ?bits⟩
  case payload =>
    rw [hw, hvalue]
    exact shiftLeft_or_lt hv.payload_lt hx.payload_lt
  case mask =>
    rw [hw, hvalue]
    exact shiftLeft_or_lt hv.maskXz_lt hx.maskXz_lt
  case unsigned => rw [signed, hvalue]
  case bits =>
    unfold StoredValue.bit
    rw [hvalue, testBit_shiftLeft_or hx.payload_lt, testBit_shiftLeft_or hx.maskXz_lt]
    split <;> rfl

/-- `r` is `n` copies of `v`. -/
structure Copies (v : StoredValue) (n : ℕ) (r : StoredValue) : Prop where
  sized : r.Sized
  width : r.width = v.width * n
  bit : ∀ i < v.width * n, r.bit i = v.bit (i % v.width)

theorem copies_zero (v : StoredValue) : Copies v 0 (new 0 0 false) where
  sized := ⟨rfl, Nat.one_pos, Nat.one_pos⟩
  width := rfl
  bit i hi := absurd hi (Nat.not_lt_zero i)

theorem copies_one (hv : v.Sized) : Copies v 1 v where
  sized := hv
  width := (Nat.mul_one _).symm
  bit i hi := by rw [mod_eq_of_lt (by omega)]

variable {a b r s : StoredValue} {m n count : ℕ}

theorem Copies.concat (ha : Copies v m a) (hb : Copies v n b) (hfit : v.width * (m + n) < 2 ^ 32) :
    ∃ r, a.concat b = some r ∧ Copies v (m + n) r ∧ r.signed = false := by
  rw [Nat.mul_add] at hfit
  obtain ⟨r, hr, hplaced⟩ := concat_placed ha.sized hb.sized (by rw [ha.width, hb.width]; omega)
  refine ⟨r, hr, ⟨hplaced.sized, ?_, fun i hi => ?_⟩, hplaced.unsigned⟩
  · rw [hplaced.width, ha.width, hb.width, Nat.mul_add]
  rw [Nat.mul_add] at hi
  rw [hplaced.bit, hb.width]
  split
  · rename_i hlow
    exact hb.bit i hlow
  · rename_i hhigh
    rw [ha.bit _ (by omega), ← add_mul_mod_self_left (i - v.width * n) v.width n,
      Nat.sub_add_cancel (by omega)]

theorem Copies.unique (hr : Copies v n r) (hs : Copies v n s) (hrs : r.signed = false)
    (hss : s.signed = false) : r = s := by
  have hwidth : r.width = s.width := hr.width.trans hs.width.symm
  refine ext_bits ?_ hwidth (hrs.trans hss.symm) hr.sized.clean hs.sized.clean fun i hi => ?_
  · rw [hr.sized.storage, hs.sized.storage, hwidth]
  · rw [hr.width] at hi
    rw [hr.bit i hi, hs.bit i hi]

theorem concatTimes_copies (hv : v.Sized) (hfit : v.width * n < 2 ^ 32) :
    ∃ r, v.concatTimes n = some r ∧ Copies v n r ∧ r.signed = false := by
  induction n with
  | zero => exact ⟨_, rfl, copies_zero v, rfl⟩
  | succ n ih =>
    obtain ⟨r, hr, hcopies, -⟩ := ih (lt_of_le_of_lt (Nat.mul_le_mul_left _ (le_succ n)) hfit)
    obtain ⟨s, hs, hcopies', hunsigned⟩ := hcopies.concat (copies_one hv) hfit
    refine ⟨s, ?_, hcopies', hunsigned⟩
    rw [concatTimes, hr]
    exact hs

theorem repeatLoop_copies (count : ℕ) (hresult : Copies v m a) (hunsigned : a.signed = false)
    (hblock : Copies v n b) (hfit : v.width * (m + n * count) < 2 ^ 32) :
    ∃ r, repeatLoop a b count = some r ∧ Copies v (m + n * count) r ∧ r.signed = false := by
  induction count using Nat.strong_induction_on generalizing a b m n with
  | _ count ih =>
    rw [repeatLoop]
    by_cases hzero : count = 0
    · subst hzero
      exact ⟨a, rfl, hresult, hunsigned⟩
    · rw [if_neg hzero]
      have hhalf : count = 2 * (count / 2) + count % 2 := by omega
      obtain ⟨a', ha', hresult', hunsigned'⟩ : ∃ a',
          (if count % 2 = 1 then a.concat b else some a) = some a' ∧
            Copies v (m + n * (count % 2)) a' ∧ a'.signed = false := by
        split
        · rename_i hodd
          rw [hodd, Nat.mul_one]
          refine hresult.concat hblock (lt_of_le_of_lt (Nat.mul_le_mul_left _ ?_) hfit)
          exact Nat.add_le_add_left (Nat.le_mul_of_pos_right n (Nat.pos_of_ne_zero hzero)) m
        · rename_i heven
          rw [show count % 2 = 0 by omega]
          exact ⟨a, rfl, hresult, hunsigned⟩
      have htotal : m + n * (count % 2) + (n + n) * (count / 2) = m + n * count := by
        conv_rhs => rw [hhalf]
        ring
      by_cases hlast : count / 2 = 0
      · have hone : n * count = n * (count % 2) := by
          congr 1
          omega
        refine ⟨a', ?_, hone ▸ hresult', hunsigned'⟩
        rw [ha', hlast]
        show repeatLoop a' b 0 = some a'
        rw [repeatLoop, if_pos rfl]
      · have hdouble : n + n ≤ m + n * count := by
          have : n * 2 ≤ n * count := Nat.mul_le_mul_left n (by omega)
          omega
        obtain ⟨b', hb', hblock', -⟩ := hblock.concat hblock
          (lt_of_le_of_lt (Nat.mul_le_mul_left _ hdouble) hfit)
        obtain ⟨r, hr, hcopies, hrs⟩ := ih (count / 2) (by omega) hresult' hunsigned' hblock'
          (htotal.symm ▸ hfit)
        refine ⟨r, ?_, htotal ▸ hcopies, hrs⟩
        rw [ha', if_pos hlast, hb']
        exact hr

/-- Concatenation is positional, and replication is the concatenation of the copies. -/
theorem concat_repeat_positional (hv : v.Sized) (hx : x.Sized) (n : ℕ)
    (hwidth : v.width + x.width < 2 ^ 32) (hcount : v.width * n < 2 ^ 32) :
    (∃ r, v.concat x = some r ∧ Placed v x r) ∧
      ∃ r, v.repeat n = some r ∧ v.concatTimes n = some r ∧ Copies v n r := by
  refine ⟨concat_placed hv hx hwidth, ?_⟩
  obtain ⟨r, hr, hcopies, hunsigned⟩ := concatTimes_copies hv hcount
  obtain ⟨s, hs, hcopies', hunsigned'⟩ := repeatLoop_copies n (copies_zero v) rfl
    (copies_one hv) (by rwa [Nat.zero_add, Nat.one_mul])
  rw [Nat.zero_add, Nat.one_mul] at hcopies'
  exact ⟨r, hs.trans (congrArg some (hcopies'.unique hcopies hunsigned' hunsigned)), hr, hcopies⟩

/-- A byte above a nibble, and nine copies of the byte, past the word. -/
theorem concat_repeat_byte :
    (∃ r, (u64 ⟨0xa5, 0, 8, false⟩).concat (u64 ⟨0x3, 0, 4, true⟩) = some r ∧
      Placed (u64 ⟨0xa5, 0, 8, false⟩) (u64 ⟨0x3, 0, 4, true⟩) r) ∧
    ∃ r, (u64 ⟨0xa5, 0, 8, false⟩).repeat 9 = some r ∧
      (u64 ⟨0xa5, 0, 8, false⟩).concatTimes 9 = some r ∧ Copies (u64 ⟨0xa5, 0, 8, false⟩) 9 r :=
  concat_repeat_positional ⟨rfl, by decide, by decide⟩ ⟨rfl, by decide, by decide⟩ 9 (by decide)
    (by decide)

/-- A result whose width does not fit the width field: two copies of `2 ^ 31` bits have the width
zero, and with four copies the block of the third round is a big integer of no bits. -/
theorem concat_repeat_wide : ∃ v : StoredValue, v.Sized ∧ v.width < 2 ^ 32 ∧
    (v.concat v).map width = some 0 ∧ v.repeat 4 = none := by
  have hconcat : (bigUint ⟨0, 0, 2 ^ 31, false⟩).concat (bigUint ⟨0, 0, 2 ^ 31, false⟩) =
      some (bigUint ⟨0, 0, 0, false⟩) := by
    unfold concat
    dsimp only [width, value]
    rw [if_pos (by decide), zero_shiftLeft]
    rfl
  refine ⟨bigUint ⟨0, 0, 2 ^ 31, false⟩, ⟨rfl, Nat.two_pow_pos _, Nat.two_pow_pos _⟩, by decide,
    congrArg (Option.map width) hconcat, ?_⟩
  rw [«repeat», repeatLoop]
  simp only [hconcat]
  rw [if_neg (by decide), if_neg (by decide), if_pos (by decide), Option.bind_some,
    Option.bind_some, repeatLoop]
  rfl

end StoredValue

end Veryl.Analyzer
