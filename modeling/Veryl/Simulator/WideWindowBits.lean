import Veryl.Simulator.WideWindow
import Veryl.Simulator.WriteLogCommit

/-!
The words that the window helpers read and merge, bit by bit, and the bytes they
store.
-/

namespace Veryl.Simulator.WideOps

open Library List Option Nat

section Words

variable {src dst : List Byte} {k : ℕ}

theorem getLsbD_rd (ptr : List Byte) (i : ℕ) (hk : k < 64) :
    (rd ptr i).getLsbD k = bitOf ptr (64 * i + k) := by
  rw [rd, getLsbD_fromLeBytes, bitOf_loadAt, decide_eq_true hk, Bool.true_and, Bool.true_and]
  congr 1
  omega

theorem getLsbD_selectWord (src : List Byte) (nb word : ℕ) (hk : k < 64) :
    (selectWord src nb word).getLsbD k =
      (decide (64 * word + k < 8 * nb) && bitOf src (64 * word + k)) := by
  unfold selectWord
  dsimp only
  split
  · rw [decide_eq_false (by omega), Bool.false_and]
    exact BitVec.getLsbD_zero
  · rename_i hnb
    have hlt : k < 8 * min (nb - word * 8) 8 ↔ 64 * word + k < 8 * nb := by omega
    rw [getLsbD_fromLeBytes, bitOf_loadAt, decide_eq_true hk, Bool.true_and, decide_eq_decide.2 hlt]
    congr 2
    omega

theorem getLsbD_lowMask (cnt : ℕ) (hk : k < 64) : (lowMask cnt).getLsbD k = decide (k < cnt) := by
  rw [lowMask, BitVec.getLsbD_ofNat, decide_eq_true hk, Bool.true_and, one_shiftLeft,
    testBit_two_pow_sub_one]

theorem getLsbD_mask (bits : ℕ) (hk : k < 64) :
    (if 64 ≤ bits then BitVec.allOnes 64 else lowMask bits).getLsbD k = decide (k < bits) := by
  split
  · rw [BitVec.getLsbD_allOnes, decide_eq_decide]
    omega
  · exact getLsbD_lowMask bits hk

theorem getLsbD_joined {lo hi : BitVec 64} {f : ℕ → Bool} {b : ℕ}
    (hlo : ∀ i < 64, lo.getLsbD i = f i) (hhi : ∀ i < 64, hi.getLsbD i = f (64 + i)) (hb : b < 64)
    (hk : k < 64) :
    (if b = 0 then lo else (lo >>> b) ||| (hi <<< (64 - b))).getLsbD k = f (b + k) := by
  split
  · rename_i hzero
    rw [hlo k hk, hzero, Nat.zero_add]
  · rw [BitVec.getLsbD_or, BitVec.getLsbD_ushiftRight, BitVec.getLsbD_shiftLeft,
      decide_eq_true hk, Bool.true_and]
    by_cases hcross : b + k < 64
    · rw [hlo _ hcross, decide_eq_true (by omega : k < 64 - b)]
      simp
    · rw [BitVec.getLsbD_of_ge lo _ (by omega), decide_eq_false (by omega : ¬ k < 64 - b),
        hhi _ (by omega), Bool.false_or, show 64 + (k - (64 - b)) = b + k by omega]
      rfl

theorem getLsbD_sourceWord (src : List Byte) (srcWords sbit : ℕ) (hk : k < 64) :
    (sourceWord src srcWords sbit).getLsbD k =
      (decide (sbit + k < 64 * srcWords) && bitOf src (sbit + k)) := by
  have hword : ∀ sw i, i < 64 → (if sw < srcWords then rd src sw else 0).getLsbD i =
      (decide (64 * sw + i < 64 * srcWords) && bitOf src (64 * sw + i)) := fun sw i hi => by
    split
    · rw [getLsbD_rd src sw hi, decide_eq_true (by omega), Bool.true_and]
    · rw [decide_eq_false (by omega), Bool.false_and]
      exact BitVec.getLsbD_zero
  have hjoin := @getLsbD_joined k _ _
    (fun i => decide (64 * (sbit / 64) + i < 64 * srcWords) && bitOf src (64 * (sbit / 64) + i))
    (sbit % 64) (hword (sbit / 64)) (fun i hi => by
      rw [hword (sbit / 64 + 1) i hi, show 64 * (sbit / 64 + 1) + i = 64 * (sbit / 64) + (64 + i) by omega])
    (mod_lt _ (by omega)) hk
  rw [show sbit + k = 64 * (sbit / 64) + (sbit % 64 + k) by omega]
  exact hjoin

theorem getLsbD_merge (old value mask : BitVec 64) (hk : k < 64) :
    ((old &&& ~~~mask) ||| (value &&& mask)).getLsbD k =
      if mask.getLsbD k then value.getLsbD k else old.getLsbD k := by
  rw [BitVec.getLsbD_or, BitVec.getLsbD_and, BitVec.getLsbD_and, BitVec.getLsbD_not,
    decide_eq_true hk, Bool.true_and]
  cases mask.getLsbD k <;> simp

theorem getLsbD_range {mask : BitVec 64} {lo cnt : ℕ}
    (hmask : ∀ i < 64, mask.getLsbD i = decide (i < cnt)) (hk : k < 64) :
    (mask <<< lo).getLsbD k = decide (lo ≤ k ∧ k < lo + cnt) := by
  rw [BitVec.getLsbD_shiftLeft, decide_eq_true hk, Bool.true_and, hmask _ (by omega)]
  by_cases hlo : k < lo
  · simp [hlo, show ¬ lo ≤ k by omega]
  · have hiff : k - lo < cnt ↔ lo ≤ k ∧ k < lo + cnt := by omega
    simp only [hlo, decide_false, Bool.not_false, Bool.true_and, decide_eq_decide]
    exact hiff

theorem getLsbD_mergedWord {srcBit srcWords amount width word : ℕ} {old : BitVec 64}
    (hstart : amount < (word + 1) * 64) (hend : word * 64 < amount + width)
    (hsrc : srcBit + width ≤ 64 * srcWords) (hk : k < 64) :
    (mergedWord src srcBit srcWords amount width word old).getLsbD k =
      if amount ≤ 64 * word + k ∧ 64 * word + k < amount + width then
        bitOf src (srcBit + (64 * word + k - amount))
      else old.getLsbD k := by
  unfold mergedWord
  generalize hlo : max (word * 64) amount = lo
  generalize hhi : min ((word + 1) * 64) (amount + width) = hi
  have hmask : (if 64 ≤ hi - lo then BitVec.allOnes 64
      else lowMask (hi - lo) <<< (lo - word * 64)).getLsbD k =
        decide (amount ≤ 64 * word + k ∧ 64 * word + k < amount + width) := by
    split
    · rw [BitVec.getLsbD_allOnes, decide_eq_decide]
      omega
    · rw [getLsbD_range (fun i hi => getLsbD_lowMask _ hi) hk, decide_eq_decide]
      omega
  rw [getLsbD_merge _ _ _ hk, hmask]
  refine ite_congr (propext decide_eq_true_iff) (fun hin => ?_) fun _ => rfl
  rw [BitVec.getLsbD_shiftLeft, decide_eq_true hk, decide_eq_false (by omega),
    getLsbD_sourceWord _ _ _ (by omega), decide_eq_true (by omega)]
  simp only [Bool.not_false, Bool.true_and]
  congr 1
  omega

end Words

section Bytes

variable {bs : List (List Byte)} {buf dst : List Byte} {offset : ℕ}

theorem bitOf_leBytes (n : ℕ) (v : BitVec 64) (i : ℕ) :
    bitOf (leBytes n v) i = (decide (i < 8 * n) && v.getLsbD i) := by
  by_cases hi : i < 8 * n
  · have hdiv : i / 8 < n := by omega
    have hget : (leBytes n v)[i / 8]? = some (BitVec.ofNat 8 (v.toNat >>> (8 * (i / 8)))) := by
      rw [leBytes, getElem?_map, getElem?_range hdiv]
      rfl
    rw [bitOf, getD_eq_getElem?_getD, hget, getD_some, decide_eq_true hi, Bool.true_and,
      BitVec.getLsbD_ofNat, decide_eq_true (by omega), Bool.true_and, testBit_shiftRight,
      BitVec.getLsbD]
    congr 1
    omega
  · rw [decide_eq_false hi, Bool.false_and]
    exact bitOf_of_le (by rw [length_leBytes]; omega)

/-- The bits of words written one after the other. -/
theorem bitOf_flatMap_leBytes : ∀ (vs : List (BitVec 64)) (i : ℕ),
    bitOf (vs.flatMap (leBytes 8)) i = (vs.getD (i / 64) 0).getLsbD (i % 64)
  | [], i => by
    rw [bitOf_of_le (by simp)]
    exact BitVec.getLsbD_zero.symm
  | v :: vs, i => by
    rw [flatMap_cons, bitOf_append, length_leBytes, bitOf_leBytes, bitOf_flatMap_leBytes vs]
    split
    · rename_i hi
      rw [decide_eq_true hi, Bool.true_and, div_eq_of_lt (by omega), mod_eq_of_lt (by omega)]
      rfl
    · rw [show i / 64 = (i - 8 * 8) / 64 + 1 by omega, show i % 64 = (i - 8 * 8) % 64 by omega]
      rfl

theorem length_flatMap_leBytes (vs : List (BitVec 64)) :
    (vs.flatMap (leBytes 8)).length = vs.length * 8 := by
  simp

/-- All blocks but the last are whole words. -/
def WholeWords : List (List Byte) → Prop
  | [] => True
  | [_] => True
  | b :: bs => b.length = 8 ∧ WholeWords bs

theorem storeBlocks_eq : ∀ (bs : List (List Byte)) (offset : ℕ) (dst : List Byte), WholeWords bs →
    offset + bs.flatten.length ≤ dst.length →
      storeBlocks bs offset dst = storeAt dst offset bs.flatten
  | [], offset, dst, _, hfits => by
    simp [storeBlocks, storeAt]
  | [b], offset, dst, _, _ => by
    rw [storeBlocks, storeBlocks, flatten_cons, flatten_nil, append_nil]
  | b :: c :: bs, offset, dst, hwhole, hfits => by
    obtain ⟨hlen, hrest⟩ := hwhole
    rw [flatten_cons, length_append] at hfits
    have hfirst : offset + b.length ≤ dst.length := by omega
    rw [storeBlocks, storeBlocks_eq (c :: bs) (offset + 8) _ hrest
      (by rw [length_storeAt hfirst]; omega), ← hlen, storeAt_append hfirst]
    rfl

theorem flatten_cut (nb : ℕ) : ∀ (vs : List (BitVec 64)) (w0 : ℕ),
    (vs.mapIdx fun k v => (leBytes 8 v).take (min (nb - (w0 + k) * 8) 8)).flatten =
      (vs.flatMap (leBytes 8)).take (nb - w0 * 8)
  | [], _ => by simp
  | v :: vs, w0 => by
    have htail := flatten_cut nb vs (w0 + 1)
    rw [mapIdx_cons, flatten_cons, flatMap_cons, take_append, length_leBytes]
    have hfun : (fun k v => (leBytes 8 v).take (min (nb - (w0 + (k + 1)) * 8) 8)) =
        fun k v => (leBytes 8 v).take (min (nb - (w0 + 1 + k) * 8) 8) := by
      funext k v
      rw [Nat.add_right_comm, Nat.add_assoc w0 k 1]
    rw [hfun, htail, Nat.add_zero, show nb - (w0 + 1) * 8 = nb - w0 * 8 - 8 by omega]
    rw [← take_take, take_of_length_le (Nat.le_of_eq (length_leBytes 8 v))]

theorem wholeWords_of_length (h : ∀ b ∈ bs, b.length = 8) : WholeWords bs := by
  induction bs with
  | nil => trivial
  | cons b bs ih =>
    cases bs with
    | nil => trivial
    | cons c bs => exact ⟨h b (by simp), ih fun d hd => h d (mem_cons_of_mem _ hd)⟩

end Bytes

end Veryl.Simulator.WideOps
