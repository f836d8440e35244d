import Mathlib

/-!
Numbers whose digits have a radix each, the first digit the most significant.
-/

namespace Veryl.Library.MixedRadix

open List Nat

/-- As many digits as radices, each below its radix. -/
abbrev Within (digits radices : List ℕ) : Prop := List.Forall₂ (· < ·) digits radices

def value : List ℕ → List ℕ → ℕ
  | _ :: radices, digit :: digits => digit * radices.prod + value radices digits
  | _, _ => 0

variable {radices radices' digits digits' : List ℕ}

theorem value_lt (h : Within digits radices) : value radices digits < radices.prod := by
  induction h with
  | nil => exact Nat.one_pos
  | cons hdigit _ ih =>
    exact lt_of_lt_of_le (Nat.add_lt_add_left ih _) (succ_mul _ _ ▸ Nat.mul_le_mul_right _ hdigit)

theorem eq_of_value_eq (h : Within digits radices) (h' : Within digits' radices)
    (heq : value radices digits = value radices digits') : digits = digits' := by
  induction h generalizing digits' with
  | nil => exact (List.forall₂_nil_right_iff.1 h').symm
  | @cons digit radix digits radices hdigit hrest ih =>
    obtain ⟨digit', digits', -, hrest', rfl⟩ := List.forall₂_cons_right_iff.1 h'
    have hlt := value_lt hrest
    have hlt' := value_lt hrest'
    rw [value, value] at heq
    have hfirst : digit = digit' := by
      have hdiv := congrArg (· / radices.prod) heq
      have hpos : 0 < radices.prod := by omega
      simpa only [mul_add_div hpos, Nat.mul_comm _ radices.prod, div_eq_of_lt hlt,
        div_eq_of_lt hlt', Nat.add_zero] using hdiv
    subst hfirst
    rw [ih hrest' (Nat.add_left_cancel heq)]

theorem exists_value {n : ℕ} (h : n < radices.prod) :
    ∃ digits, Within digits radices ∧ value radices digits = n := by
  induction radices generalizing n with
  | nil => exact ⟨[], .nil, (lt_one_iff.1 h).symm⟩
  | cons radix radices ih =>
    have hpos : 0 < radices.prod := Nat.pos_of_mul_pos_left (zero_lt_of_lt h)
    obtain ⟨digits, hwithin, hvalue⟩ := ih (mod_lt n hpos)
    refine ⟨n / radices.prod :: digits, .cons (Nat.div_lt_of_lt_mul (Nat.mul_comm radix _ ▸ h))
      hwithin, ?_⟩
    rw [value, hvalue, div_add_mod']

theorem value_append (hlen : digits.length = radices.length) :
    value (radices ++ radices') (digits ++ digits') =
      value radices digits * radices'.prod + value radices' digits' := by
  induction radices generalizing digits with
  | nil =>
    obtain rfl := length_eq_zero_iff.1 hlen
    exact (Nat.zero_add _).symm.trans (congrArg (· + _) (Nat.zero_mul _).symm)
  | cons radix radices ih =>
    obtain ⟨digit, digits, rfl⟩ := exists_cons_of_length_eq_add_one hlen
    rw [cons_append, cons_append, value, value, ih (Nat.succ.inj hlen), prod_append]
    ring

theorem within_append (hlen : digits.length = radices.length) :
    Within (digits ++ digits') (radices ++ radices') ↔
      Within digits radices ∧ Within digits' radices' := by
  induction radices generalizing digits with
  | nil =>
    obtain rfl := length_eq_zero_iff.1 hlen
    simp
  | cons radix radices ih =>
    obtain ⟨digit, digits, rfl⟩ := exists_cons_of_length_eq_add_one hlen
    simp [ih (Nat.succ.inj hlen), and_assoc]

section

variable (hlen : digits.length ≤ radices.length)

include hlen

theorem value_eq_take : value radices digits = value (radices.take digits.length) digits *
      (radices.drop digits.length).prod := by
  have h : value (radices.take digits.length ++ radices.drop digits.length) (digits ++ []) = _ :=
    value_append (length_take_of_le hlen).symm
  rw [take_append_drop, append_nil] at h
  rw [h]
  simp [value]

theorem value_add_le (h : Within digits (radices.take digits.length)) :
    value radices digits + (radices.drop digits.length).prod ≤ radices.prod := by
  rw [value_eq_take hlen, ← succ_mul, ← prod_take_mul_prod_drop radices digits.length]
  exact Nat.mul_le_mul_right _ (value_lt h)

theorem exists_completion_iff {n : ℕ} :
    (∃ rest, Within (digits ++ rest) radices ∧ value radices (digits ++ rest) = n) ↔
    Within digits (radices.take digits.length) ∧ value radices digits ≤ n ∧
      n < value radices digits + (radices.drop digits.length).prod := by
  have htake := (length_take_of_le hlen).symm
  have hsplit := take_append_drop digits.length radices
  rw [value_eq_take hlen]
  constructor
  · rintro ⟨rest, hwithin, rfl⟩
    rw [← hsplit, within_append htake] at hwithin
    rw [← hsplit, value_append htake, hsplit]
    exact ⟨hwithin.1, Nat.le_add_right _ _, Nat.add_lt_add_left (value_lt hwithin.2) _⟩
  · rintro ⟨hdigits, hle, hlt⟩
    obtain ⟨rest, hrest, hvalue⟩ := exists_value (Nat.sub_lt_left_of_lt_add hle hlt)
    refine ⟨rest, ?_, ?_⟩
    · rw [← hsplit, within_append htake]
      exact ⟨hdigits, hrest⟩
    · rw [← hsplit, value_append htake, hvalue, add_sub_of_le hle]

end

end Veryl.Library.MixedRadix
