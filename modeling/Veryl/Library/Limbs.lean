import Mathlib

/-!
Numbers in limbs of `w` bits, the lowest limb first.
-/

namespace Veryl.Limbs

open Nat Function List

/-- The number in the first `n` limbs. -/
def value (w : ℕ) : ℕ → (ℕ → ℕ) → ℕ
  | 0, _ => 0
  | n + 1, a => 2 ^ (w * n) * a n + value w n a

/-- The first `n` limbs have at most `w` bits. -/
def Bounded (w n : ℕ) (a : ℕ → ℕ) : Prop := ∀ i < n, a i < 2 ^ w

section Value

variable {w n : ℕ} {a b : ℕ → ℕ}

theorem Bounded.of_le {m : ℕ} (h : Bounded w n a) (hm : m ≤ n) : Bounded w m a :=
  fun i hi => h i (hi.trans_le hm)

theorem value_succ (w n : ℕ) (a : ℕ → ℕ) :
    value w (n + 1) a = 2 ^ (w * n) * a n + value w n a := rfl

theorem value_congr (h : ∀ i < n, a i = b i) : value w n a = value w n b := by
  induction n with
  | zero => rfl
  | succ n ih =>
    rw [value_succ, value_succ, h n (lt_succ_self n), ih fun i hi => h i (hi.trans (by omega))]

theorem value_zero (h : ∀ i < n, a i = 0) : value w n a = 0 := by
  induction n with
  | zero => rfl
  | succ n ih =>
    rw [value_succ, h n (lt_succ_self n), ih fun i hi => h i (hi.trans (by omega)), Nat.mul_zero]

theorem value_lt (h : Bounded w n a) : value w n a < 2 ^ (w * n) := by
  induction n with
  | zero => exact Nat.one_pos
  | succ n ih =>
    have hlow := ih (h.of_le (le_succ n))
    have hhigh : a n + 1 ≤ 2 ^ w := h n (lt_succ_self n)
    calc value w (n + 1) a < 2 ^ (w * n) * (a n + 1) := by rw [value_succ, mul_succ]; omega
      _ ≤ 2 ^ (w * n) * 2 ^ w := Nat.mul_le_mul_left _ hhigh
      _ = 2 ^ (w * (n + 1)) := by rw [← Nat.pow_add, mul_succ]

theorem testBit_value (h : Bounded w n a) (i : ℕ) :
    (value w n a).testBit i = (decide (i < w * n) && (a (i / w)).testBit (i % w)) := by
  induction n with
  | zero => simp [value]
  | succ n ih =>
    have hprefix := h.of_le (le_succ n)
    rw [value_succ, testBit_two_pow_mul_add _ (value_lt hprefix)]
    by_cases hlow : i < w * n
    · have hsucc : i < w * (n + 1) := hlow.trans_le (Nat.mul_le_mul_left w (le_succ n))
      rw [if_pos hlow, ih hprefix, decide_eq_true hlow, decide_eq_true hsucc]
    · rw [if_neg hlow]
      by_cases hhigh : i < w * (n + 1)
      · rw [mul_succ] at hhigh
        have hdiv : i / w = n := Nat.div_eq_of_lt_le (by rw [Nat.mul_comm]; omega)
          (by rw [succ_mul, Nat.mul_comm]; omega)
        have hmod : i % w = i - w * n := by
          have hsplit := div_add_mod i w
          rw [hdiv] at hsplit
          omega
        rw [decide_eq_true (by rw [mul_succ]; exact hhigh), hdiv, hmod, Bool.true_and]
      · rw [decide_eq_false hhigh, Bool.false_and]
        rw [mul_succ] at hhigh
        exact testBit_lt_two_pow ((h n (lt_succ_self n)).trans_le
          (Nat.pow_le_pow_right (by omega) (by omega)))

theorem value_eq_of_testBit (hw : 0 < w) (h : Bounded w n a) {p : ℕ} (hp : p < 2 ^ (w * n))
    (hbits : ∀ i < n, ∀ j < w, (a i).testBit j = p.testBit (w * i + j)) : value w n a = p := by
  refine eq_of_testBit_eq fun i => ?_
  rw [testBit_value h]
  by_cases hi : i < w * n
  · have hdiv : i / w < n := Nat.div_lt_of_lt_mul hi
    rw [decide_eq_true hi, Bool.true_and, hbits _ hdiv _ (mod_lt i hw), div_add_mod]
  · rw [decide_eq_false hi, Bool.false_and]
    exact (testBit_lt_two_pow (hp.trans_le (Nat.pow_le_pow_right (by omega) (by omega)))).symm

theorem testBit_limb (hw : 0 < w) (h : Bounded w n a) {i j : ℕ} (hi : i < n) (hj : j < w) :
    (a i).testBit j = (value w n a).testBit (w * i + j) := by
  have hlt : w * i + j < w * n := by
    have hle : w * (i + 1) ≤ w * n := Nat.mul_le_mul_left w hi
    rw [mul_succ] at hle
    omega
  have hdiv : (w * i + j) / w = i := by
    rw [mul_add_div hw, div_eq_of_lt hj, Nat.add_zero]
  have hmod : (w * i + j) % w = j := by rw [mul_add_mod, mod_eq_of_lt hj]
  rw [testBit_value h, decide_eq_true hlt, hdiv, hmod, Bool.true_and]

theorem value_add (w m n : ℕ) (a : ℕ → ℕ) :
    value w (m + n) a = value w m a + 2 ^ (w * m) * value w n fun j => a (m + j) := by
  induction n with
  | zero => rw [Nat.add_zero, value, Nat.mul_zero, Nat.add_zero]
  | succ n ih =>
    rw [← Nat.add_assoc, value_succ, value_succ, ih, Nat.mul_add, Nat.mul_add, Nat.pow_add,
      Nat.mul_assoc]
    omega

theorem value_lt_value_succ (ha : Bounded w n a) (h : a n < b n) :
    value w (n + 1) a < value w (n + 1) b := by
  have hlow := value_lt ha
  have hstep : 2 ^ (w * n) * (a n + 1) ≤ 2 ^ (w * n) * b n := Nat.mul_le_mul_left _ h
  rw [mul_succ] at hstep
  rw [value_succ, value_succ]
  omega

end Value

section Fill

variable {f : ℕ → ℕ}

theorem foldl_update (is : List ℕ) (dst : ℕ → ℕ) (i : ℕ) :
    is.foldl (fun d i => Function.update d i (f i)) dst i = if i ∈ is then f i else dst i := by
  induction is generalizing dst with
  | nil => rfl
  | cons j is ih =>
    rw [foldl_cons, ih]
    by_cases hi : i ∈ is
    · rw [if_pos hi, if_pos (mem_cons_of_mem _ hi)]
    · rw [if_neg hi]
      by_cases hij : i = j
      · subst hij
        rw [update_self, if_pos (mem_cons_self ..)]
      · rw [update_of_ne hij, if_neg (by simp [hij, hi])]

end Fill

section Carry

variable (w off : ℕ) (step : ℕ → ℕ → ℕ → ℕ × ℕ)

/-- One limb: from its place, what was there and the carry come the new limb and
the next carry. -/
def carryStep (st : (ℕ → ℕ) × ℕ) (j : ℕ) : (ℕ → ℕ) × ℕ :=
  let out := step j (st.1 (off + j)) st.2
  (Function.update st.1 (off + j) out.1, out.2)

/-- What the limbs and the carry hold after `n` steps. -/
structure Carried (C : ℕ → Prop) (K : ℕ → ℤ) (dst : ℕ → ℕ) (n : ℕ) (total : ℤ)
    (st : (ℕ → ℕ) × ℕ) : Prop where
  sum : (value w n fun j => st.1 (off + j) : ℤ) + 2 ^ (w * n) * K st.2 = total
  bounded : Bounded w n fun j => st.1 (off + j)
  frame : ∀ i, i < off ∨ off + n ≤ i → st.1 i = dst i
  carry : C st.2

variable {w off step}

theorem carried_foldl {C : ℕ → Prop} {K : ℕ → ℤ} {dst : ℕ → ℕ} {x X : ℕ → ℤ} {c : ℕ} (n : ℕ)
    (hzero : X 0 = 0) (hsucc : ∀ j, X (j + 1) = X j + 2 ^ (w * j) * x j) (hc : C c)
    (hstep : ∀ j < n, ∀ c, C c → C (step j (dst (off + j)) c).2 ∧
      (step j (dst (off + j)) c).1 < 2 ^ w ∧
      ((step j (dst (off + j)) c).1 : ℤ) + 2 ^ w * K (step j (dst (off + j)) c).2 = x j + K c) :
    Carried w off C K dst n (X n + K c) ((List.range n).foldl (carryStep off step) (dst, c)) := by
  induction n with
  | zero =>
    refine ⟨?_, fun j hj => absurd hj (Nat.not_lt_zero j), fun i _ => rfl, hc⟩
    simp [value, hzero]
  | succ n ih =>
    obtain ⟨hsum, hbounded, hframe, hcarry⟩ := ih fun j hj => hstep j (by omega)
    rw [range_succ, foldl_append, foldl_cons, foldl_nil]
    generalize (List.range n).foldl (carryStep off step) (dst, c) = st at hsum hbounded hframe hcarry
    have hold : st.1 (off + n) = dst (off + n) := hframe _ (Or.inr le_rfl)
    obtain ⟨hcarry', hlt, heq⟩ := hstep n (lt_succ_self n) st.2 hcarry
    unfold carryStep
    rw [hold]
    generalize step n (dst (off + n)) st.2 = out at hcarry' hlt heq
    have hlow : ∀ j < n, Function.update st.1 (off + n) out.1 (off + j) = st.1 (off + j) :=
      fun j hj => update_of_ne (by omega) _ _
    refine ⟨?_, fun j hj => ?_, fun i hi => ?_, hcarry'⟩
    · have hvalue : value w (n + 1) (fun j => Function.update st.1 (off + n) out.1 (off + j)) =
          2 ^ (w * n) * out.1 + value w n fun j => st.1 (off + j) := by
        rw [value_succ, update_self, value_congr hlow]
      rw [hvalue, hsucc, mul_succ, pow_add]
      push_cast
      linear_combination hsum + 2 ^ (w * n) * heq
    · rcases Nat.lt_succ_iff_lt_or_eq.1 hj with hj | rfl
      · show Function.update st.1 (off + n) out.1 (off + j) < 2 ^ w
        rw [hlow j hj]
        exact hbounded j hj
      · show Function.update st.1 (off + j) out.1 (off + j) < 2 ^ w
        rw [update_self]
        exact hlt
    · show Function.update st.1 (off + n) out.1 i = dst i
      rw [update_of_ne (by omega)]
      exact hframe i (by omega)

end Carry

end Veryl.Limbs
