import Veryl.Library.Patches

/-!
Sequences of bytes as sequences of bits, the lowest first.
-/

namespace Veryl.Library

open List Nat

variable {bytes xs ys buf : List (BitVec 8)} {offset i n : ℕ}

/-- A bit of a sequence of bytes; there is none above its end. -/
def bitOf (bytes : List (BitVec 8)) (i : ℕ) : Bool := (bytes.getD (i / 8) 0).getLsbD (i % 8)

theorem bitOf_of_getElem? {j : ℕ} (h : xs[i / 8]? = ys[j / 8]?) (hmod : i % 8 = j % 8) :
    bitOf xs i = bitOf ys j := by
  rw [bitOf, bitOf, getD_eq_getElem?_getD, getD_eq_getElem?_getD, h, hmod]

theorem bitOf_of_le (h : 8 * bytes.length ≤ i) : bitOf bytes i = false := by
  rw [bitOf, getD_eq_default _ _ (by omega)]
  exact BitVec.getLsbD_zero

theorem bitOf_append : bitOf (xs ++ ys) i =
    if i < 8 * xs.length then bitOf xs i else bitOf ys (i - 8 * xs.length) := by
  split
  · exact bitOf_of_getElem? (getElem?_append_left (by omega)) rfl
  · refine bitOf_of_getElem? ?_ (by omega)
    rw [getElem?_append_right (by omega)]
    congr 1
    omega

theorem bitOf_take : bitOf (bytes.take n) i = (decide (i < 8 * n) && bitOf bytes i) := by
  by_cases h : i < 8 * n
  · rw [decide_eq_true h, Bool.true_and]
    exact bitOf_of_getElem? (getElem?_take_of_lt (by omega)) rfl
  · rw [decide_eq_false h, Bool.false_and]
    refine bitOf_of_le ?_
    rw [length_take]
    omega

theorem bitOf_drop : bitOf (bytes.drop n) i = bitOf bytes (8 * n + i) := by
  refine bitOf_of_getElem? ?_ (by omega)
  rw [getElem?_drop]
  congr 1
  omega

theorem bitOf_loadAt :
    bitOf (loadAt buf offset n) i = (decide (i < 8 * n) && bitOf buf (8 * offset + i)) := by
  rw [loadAt, bitOf_take, bitOf_drop]

theorem bitOf_storeAt (h : offset + xs.length ≤ buf.length) : bitOf (storeAt buf offset xs) i =
      if 8 * offset ≤ i ∧ i < 8 * (offset + xs.length) then bitOf xs (i - 8 * offset)
      else bitOf buf i := by
  have hget := getElem?_storeAt h (i / 8)
  split
  · rename_i hin
    rw [if_pos (by omega)] at hget
    refine bitOf_of_getElem? (hget.trans ?_) (by omega)
    congr 1
    omega
  · rename_i hout
    rw [if_neg (by omega)] at hget
    exact bitOf_of_getElem? hget rfl

theorem eq_of_bitOf (hlen : xs.length = ys.length) (h : ∀ i, bitOf xs i = bitOf ys i) :
    xs = ys := by
  refine ext_getElem hlen fun k hx hy => BitVec.eq_of_getLsbD_eq fun j hj => ?_
  have hbit := h (8 * k + j)
  rw [bitOf, bitOf, show (8 * k + j) / 8 = k by omega, show (8 * k + j) % 8 = j by omega,
    getD_eq_getElem _ _ hx, getD_eq_getElem _ _ hy] at hbit
  exact hbit

section Words

variable {w : ℕ}

/-- The word that some bytes hold. -/
def fromLeBytes (w : ℕ) : List (BitVec 8) → BitVec w
  | [] => 0
  | b :: bytes => (fromLeBytes w bytes <<< 8) ||| b.setWidth w

theorem getLsbD_fromLeBytes : ∀ (bytes : List (BitVec 8)) (i : ℕ),
    (fromLeBytes w bytes).getLsbD i = (decide (i < w) && bitOf bytes i)
  | [], i => by
    rw [bitOf_of_le (by simp), Bool.and_false]
    exact BitVec.getLsbD_zero
  | b :: bytes, i => by
    have hcons : bitOf (b :: bytes) i = if i < 8 then b.getLsbD i else bitOf bytes (i - 8) := by
      have happend := @bitOf_append [b] bytes i
      rw [singleton_append, length_singleton, Nat.mul_one] at happend
      rw [happend]
      split
      · rename_i hi
        rw [bitOf, div_eq_of_lt hi, mod_eq_of_lt hi]
        rfl
      · rfl
    rw [fromLeBytes, BitVec.getLsbD_or, BitVec.getLsbD_shiftLeft, BitVec.getLsbD_setWidth,
      getLsbD_fromLeBytes bytes (i - 8), hcons]
    by_cases hw : i < w
    · have hw' : i - 8 < w := by omega
      by_cases h8 : i < 8
      · simp [hw, h8]
      · have hb : b.getLsbD i = false := BitVec.getLsbD_of_ge b i (by omega)
        simp [hw, hw', h8, hb]
    · simp [hw]

end Words

end Veryl.Library
