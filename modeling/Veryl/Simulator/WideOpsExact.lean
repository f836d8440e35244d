import Veryl.Analyzer.Operators.ReferenceExact
import Veryl.Simulator.WideOps

/-!
The helpers compute on the numbers in their buffers: what a helper writes is the
result of the operation on integers, cut to the words of the buffer.
-/

namespace Veryl.Simulator.WideOps

open Limbs Analyzer List Nat Function ValueBigUint

variable {s j m : ℕ}

variable {z : ℤ} {p lo hi : ℕ} {α : Type*}

/-- The words hold the number, as far as they can; the memory above them is left. -/
structure Writes (n : ℕ) (dst dst' : Buffer) (z : ℤ) : Prop where
  bounded : Bounded 64 n dst'
  holds : (value 64 n dst' : ℤ) = z % 2 ^ (64 * n)
  frame : ∀ i, n ≤ i → dst' i = dst i

@[simp] theorem nw_mul (n : ℕ) : nw (8 * n) = n := Nat.mul_div_cancel_left n (by norm_num)

section Arithmetic

variable {n i : ℕ} {dst a b : Buffer}

theorem value_emod (h : Bounded 64 n a) : (value 64 n a : ℤ) % 2 ^ (64 * n) = value 64 n a := by
  have hlt : (value 64 n a : ℤ) < 2 ^ (64 * n) := by exact_mod_cast value_lt h
  exact Int.emod_eq_of_lt (by omega) hlt

/-- The words after a loop with a carry. -/
theorem Writes.of_carried {C : ℕ → Prop} {K : ℕ → ℤ} {total : ℤ} {st : Buffer × ℕ}
    (h : Carried 64 0 C K dst n total st) (hz : z ≡ total [ZMOD 2 ^ (64 * n)]) :
    Writes n dst st.1 z := by
  have hshift : (fun j => st.1 (0 + j)) = st.1 := funext fun j => by rw [Nat.zero_add]
  have hbounded := h.bounded
  have hsum := h.sum
  rw [hshift] at hbounded hsum
  refine ⟨hbounded, ?_, fun i hi => h.frame i (Or.inr (by omega))⟩
  rw [hz, ← hsum, Int.add_mul_emod_self_left, value_emod hbounded]

theorem addStep_eq : addStep a b = carryStep 0 fun i _ c =>
    ((overflowingAdd (overflowingAdd (a i) (b i)).1 c).1, (overflowingAdd (a i) (b i)).2.toNat +
        (overflowingAdd (overflowingAdd (a i) (b i)).1 c).2.toNat) := by
  funext st i
  simp only [addStep, carryStep, Nat.zero_add]

theorem overflowingAdd_carry {x y c : ℕ} (hx : x < 2 ^ 64) (hy : y < 2 ^ 64) (hc : c ≤ 1) :
    (overflowingAdd x y).2.toNat + (overflowingAdd (overflowingAdd x y).1 c).2.toNat ≤ 1 ∧
      (overflowingAdd (overflowingAdd x y).1 c).1 + 2 ^ 64 *
        ((overflowingAdd x y).2.toNat + (overflowingAdd (overflowingAdd x y).1 c).2.toNat) =
      x + y + c := by
  unfold overflowingAdd
  by_cases hfirst : 2 ^ 64 ≤ x + y
  · have hsum : (x + y) % 2 ^ 64 = x + y - 2 ^ 64 := by omega
    have hsecond : ¬2 ^ 64 ≤ x + y - 2 ^ 64 + c := by omega
    simp only [hsum, decide_eq_true hfirst, decide_eq_false hsecond, Bool.toNat_true,
      Bool.toNat_false]
    omega
  · have hsum : (x + y) % 2 ^ 64 = x + y := by omega
    simp only [hsum, decide_eq_false hfirst, Bool.toNat_false]
    by_cases hsecond : 2 ^ 64 ≤ x + y + c
    · simp only [decide_eq_true hsecond, Bool.toNat_true]
      omega
    · simp only [decide_eq_false hsecond, Bool.toNat_false]
      omega

theorem subStep_eq : subStep a b = carryStep 0 fun i _ c =>
    ((overflowingSub (overflowingSub (a i) (b i)).1 c).1, (overflowingSub (a i) (b i)).2.toNat +
        (overflowingSub (overflowingSub (a i) (b i)).1 c).2.toNat) := by
  funext st i
  simp only [subStep, carryStep, Nat.zero_add]

theorem overflowingSub_borrow {x y c : ℕ} (hx : x < 2 ^ 64) (hy : y < 2 ^ 64) (hc : c ≤ 1) :
    (overflowingSub x y).2.toNat + (overflowingSub (overflowingSub x y).1 c).2.toNat ≤ 1 ∧
      (overflowingSub (overflowingSub x y).1 c).1 + y + c = x + 2 ^ 64 *
        ((overflowingSub x y).2.toNat + (overflowingSub (overflowingSub x y).1 c).2.toNat) := by
  unfold overflowingSub
  by_cases hfirst : x < y
  · have hdiff : (x + 2 ^ 64 - y) % 2 ^ 64 = x + 2 ^ 64 - y := by omega
    have hsecond : ¬x + 2 ^ 64 - y < c := by omega
    simp only [hdiff, decide_eq_true hfirst, decide_eq_false hsecond, Bool.toNat_true,
      Bool.toNat_false]
    omega
  · have hdiff : (x + 2 ^ 64 - y) % 2 ^ 64 = x - y := by omega
    simp only [hdiff, decide_eq_false hfirst, Bool.toNat_false]
    by_cases hsecond : x - y < c
    · simp only [decide_eq_true hsecond, Bool.toNat_true]
      omega
    · simp only [decide_eq_false hsecond, Bool.toNat_false]
      omega

theorem negateStep_eq : negateStep a = carryStep 0 fun i _ c =>
    ((overflowingAdd (ValueU64.not (a i)) c).1,
      (overflowingAdd (ValueU64.not (a i)) c).2.toNat) := by
  funext st i
  simp only [negateStep, carryStep, Nat.zero_add]

theorem not_word {x : ℕ} (hx : x < 2 ^ 64) : ValueU64.not x + x + 1 = 2 ^ 64 := by
  have h := xor_genMask hx
  have hnot : ValueU64.not x = x ^^^ genMask 64 := Nat.xor_comm _ _
  omega

theorem takeWhile_range' (i n s m : ℕ) :
    ((List.range' s m).takeWhile fun j => i + j < n) = List.range' s (min m (n - i - s)) := by
  induction m generalizing s with
  | zero => simp
  | succ m ih =>
    rw [range'_succ]
    by_cases hs : i + s < n
    · have hmin : min (m + 1) (n - i - s) = min m (n - i - (s + 1)) + 1 := by omega
      rw [takeWhile_cons_of_pos (by simpa using hs), ih, hmin, range'_succ]
    · have hmin : min (m + 1) (n - i - s) = 0 := by omega
      rw [takeWhile_cons_of_neg (by simpa using hs), hmin, range'_zero]

theorem row_words (i n : ℕ) :
    ((List.range n).takeWhile fun j => i + j < n) = List.range (n - i) := by
  rw [range_eq_range', range_eq_range', takeWhile_range', Nat.sub_zero,
    Nat.min_eq_right (sub_le n i)]

theorem mulStep_eq (c : ℕ) (b : Buffer) (i : ℕ) : mulStep c b i = carryStep i fun j d carry =>
    ((c * b j + d + carry) % 2 ^ 128 % 2 ^ 64, ((c * b j + d + carry) % 2 ^ 128) >>> 64) := by
  funext st j
  simp only [mulStep, carryStep]

/-- A product, a word and a carry fit in two words. -/
theorem mulStep_fits {x y d c : ℕ} (hx : x < 2 ^ 64) (hy : y < 2 ^ 64) (hd : d < 2 ^ 64)
    (hc : c < 2 ^ 64) : x * y + d + c < 2 ^ 128 := by
  have hprod : x * y ≤ (2 ^ 64 - 1) * (2 ^ 64 - 1) := Nat.mul_le_mul (by omega) (by omega)
  omega

theorem mulRow_adds (hc : a i < 2 ^ 64) (hb : Bounded 64 n b) (hd : Bounded 64 n dst) (hi : i < n) :
    Bounded 64 n (mulRow a b n dst i) ∧ (∀ j, n ≤ j → mulRow a b n dst i j = dst j) ∧
      (value 64 n (mulRow a b n dst i) : ℤ) ≡
        value 64 n dst + 2 ^ (64 * i) * a i * value 64 n b [ZMOD 2 ^ (64 * n)] := by
  unfold mulRow
  split
  · rename_i hzero
    refine ⟨hd, fun _ _ => rfl, ?_⟩
    rw [hzero]
    simp
  · rw [row_words, mulStep_eq]
    have hrow : Carried 64 i (· < 2 ^ 64) (fun c => (c : ℤ)) dst (n - i)
        ((a i * value 64 (n - i) b + value 64 (n - i) fun j => dst (i + j) : ℤ) + ((0 : ℕ) : ℤ))
        ((List.range (n - i)).foldl (carryStep i fun j d carry =>
          ((a i * b j + d + carry) % 2 ^ 128 % 2 ^ 64,
            ((a i * b j + d + carry) % 2 ^ 128) >>> 64)) (dst, 0)) := by
      refine carried_foldl (n - i) (x := fun j => a i * b j + dst (i + j))
        (X := fun k => a i * value 64 k b + value 64 k fun j => dst (i + j)) (by simp [value])
        (fun j => ?_) (Nat.two_pow_pos 64) fun j hj carry hcarry => ?_
      · rw [value_succ, value_succ]
        push_cast
        ring
      · have hlt := mulStep_fits hc (hb j (by omega)) (hd (i + j) (by omega)) hcarry
        simp only [mod_eq_of_lt hlt, shiftRight_eq_div_pow]
        refine ⟨Nat.div_lt_of_lt_mul hlt, mod_lt _ (Nat.two_pow_pos 64), ?_⟩
        exact_mod_cast mod_add_div (a i * b j + dst (i + j) + carry) (2 ^ 64)
    obtain ⟨hsum, hbounded, hframe, -⟩ := hrow
    generalize (List.range (n - i)).foldl _ (dst, 0) = st at hsum hbounded hframe
    have hbelow : value 64 i st.1 = value 64 i dst :=
      value_congr fun j hj => hframe j (Or.inl hj)
    have hn : i + (n - i) = n := by omega
    refine ⟨fun j hj => ?_, fun j hj => hframe j (Or.inr (by omega)), ?_⟩
    · by_cases hji : j < i
      · rw [hframe j (Or.inl hji)]
        exact hd j hj
      · have hplace : st.1 (i + (j - i)) < 2 ^ 64 := hbounded (j - i) (by omega)
        rwa [Nat.add_sub_cancel' (by omega : i ≤ j)] at hplace
    · have hdst := value_add 64 i (n - i) dst
      have hout := value_add 64 i (n - i) st.1
      have hright := value_add 64 (n - i) i b
      rw [hn] at hdst hout
      rw [Nat.sub_add_cancel hi.le] at hright
      have hpow : (2 : ℤ) ^ (64 * n) = 2 ^ (64 * i) * 2 ^ (64 * (n - i)) := by
        rw [← pow_add, ← Nat.mul_add, hn]
      -- what the row leaves out is beyond the buffer
      refine Int.modEq_iff_dvd.2 ⟨a i * (value 64 i fun j => b (n - i + j)) + st.2, ?_⟩
      rw [hdst, hout, hright, hpow, hbelow]
      push_cast
      linear_combination -(2 : ℤ) ^ (64 * i) * hsum

theorem fill_apply (f : ℕ → ℕ) (is : List ℕ) (i : ℕ) :
    fill dst is f i = if i ∈ is then f i else dst i := foldl_update is dst i

section

variable (ha : Bounded 64 n a)

include ha

theorem wideAdd_writes (hb : Bounded 64 n b) :
    Writes n dst (wideAdd dst a b (8 * n)) (value 64 n a + value 64 n b) := by
  unfold wideAdd
  rw [nw_mul, addStep_eq]
  refine Writes.of_carried (carried_foldl (C := (· ≤ 1)) (K := fun c => (c : ℤ)) n
    (x := fun j => a j + b j) (X := fun k => value 64 k a + value 64 k b) rfl (fun j => ?_)
    (Nat.zero_le 1) fun j hj c hc => ?_) (by simp)
  · rw [value_succ, value_succ]
    push_cast
    ring
  · obtain ⟨hcarry, hsum⟩ := overflowingAdd_carry (ha j hj) (hb j hj) hc
    exact ⟨hcarry, mod_lt _ (Nat.two_pow_pos 64), by exact_mod_cast hsum⟩

theorem wideSub_writes (hb : Bounded 64 n b) :
    Writes n dst (wideSub dst a b (8 * n)) (value 64 n a - value 64 n b) := by
  unfold wideSub
  rw [nw_mul, subStep_eq]
  refine Writes.of_carried (carried_foldl (C := (· ≤ 1)) (K := fun c => -(c : ℤ)) n
    (x := fun j => a j - b j) (X := fun k => value 64 k a - value 64 k b) rfl (fun j => ?_)
    (Nat.zero_le 1) fun j hj c hc => ?_) (by simp)
  · rw [value_succ, value_succ]
    push_cast
    ring
  · obtain ⟨hborrow, hdiff⟩ := overflowingSub_borrow (ha j hj) (hb j hj) hc
    refine ⟨hborrow, mod_lt _ (Nat.two_pow_pos 64), ?_⟩
    zify at hdiff
    push_cast
    linear_combination hdiff

/-- The complement and one more. -/
theorem wideNegate_writes : Writes n dst (wideNegate dst a (8 * n)) (-value 64 n a) := by
  unfold wideNegate
  rw [nw_mul, negateStep_eq]
  refine Writes.of_carried (carried_foldl (C := (· ≤ 1)) (K := fun c => (c : ℤ)) n
    (x := fun j => 2 ^ 64 - 1 - a j) (X := fun k => 2 ^ (64 * k) - 1 - value 64 k a) rfl
    (fun j => ?_) le_rfl fun j hj c hc => ?_) ?_
  · rw [value_succ, mul_succ, pow_add]
    push_cast
    ring
  · have hnot := not_word (ha j hj)
    unfold overflowingAdd
    by_cases hover : 2 ^ 64 ≤ ValueU64.not (a j) + c
    · simp only [decide_eq_true hover, Bool.toNat_true]
      omega
    · simp only [decide_eq_false hover, Bool.toNat_false]
      omega
  · refine Int.modEq_iff_dvd.2 ⟨1, ?_⟩
    push_cast
    ring

theorem mulRows_add (hb : Bounded 64 n b) (hd : Bounded 64 n dst) (k : ℕ) (hk : k ≤ n) :
    let out := (List.range k).foldl (mulRow a b n) dst
    Bounded 64 n out ∧ (∀ j, n ≤ j → out j = dst j) ∧
      (value 64 n out : ℤ) ≡ value 64 n dst + value 64 k a * value 64 n b [ZMOD 2 ^ (64 * n)] := by
  induction k with
  | zero =>
    refine ⟨hd, fun _ _ => rfl, ?_⟩
    simp [value]
  | succ k ih =>
    obtain ⟨hbounded, hframe, hsum⟩ := ih (by omega)
    rw [range_succ, foldl_append, foldl_cons, foldl_nil]
    obtain ⟨hrow, hrest, hadd⟩ := mulRow_adds (ha k hk) hb hbounded hk
    refine ⟨hrow, fun j hj => (hrest j hj).trans (hframe j hj), hadd.trans ?_⟩
    have hsplit : (value 64 n dst : ℤ) + value 64 (k + 1) a * value 64 n b =
        value 64 n dst + value 64 k a * value 64 n b + 2 ^ (64 * k) * a k * value 64 n b := by
      rw [value_succ]
      push_cast
      ring
    rw [hsplit]
    exact hsum.add_right _

theorem wideMul_writes (hb : Bounded 64 n b) :
    Writes n dst (wideMul dst a b (8 * n)) (value 64 n a * value 64 n b) := by
  unfold wideMul
  rw [nw_mul]
  have hzero : ∀ i < n, fill dst (List.range n) (fun _ => 0) i = 0 := fun i hi => by
    rw [fill_apply, if_pos (mem_range.2 hi)]
  have hrest : ∀ i, n ≤ i → fill dst (List.range n) (fun _ => 0) i = dst i := fun i hi => by
    rw [fill_apply, if_neg (by rw [mem_range]; omega)]
  generalize fill dst (List.range n) (fun _ => 0) = start at hzero hrest
  have hstart : Bounded 64 n start := fun i hi => by
    rw [hzero i hi]
    exact Nat.two_pow_pos 64
  obtain ⟨hbounded, hframe, hsum⟩ := mulRows_add ha hb hstart n le_rfl
  refine ⟨hbounded, ?_, fun i hi => (hframe i hi).trans (hrest i hi)⟩
  rw [value_zero hzero, cast_zero, zero_add] at hsum
  rw [← hsum, value_emod hbounded]

end

end Arithmetic

section Bits

variable {n : ℕ} {dst dst' a : Buffer}

/-- Words are determined by their bits. -/
theorem Writes.of_testBit (hbounded : Bounded 64 n dst')
    (hbits : ∀ i < n, ∀ j < 64, (dst' i).testBit j = p.testBit (64 * i + j))
    (hframe : ∀ i, n ≤ i → dst' i = dst i) : Writes n dst dst' p := by
  refine ⟨hbounded, ?_, hframe⟩
  have hvalue : value 64 n dst' = p % 2 ^ (64 * n) := by
    refine value_eq_of_testBit (by norm_num) hbounded (mod_lt _ (Nat.two_pow_pos _))
      fun i hi j hj => ?_
    rw [hbits i hi j hj, testBit_mod_two_pow, decide_eq_true (by omega), Bool.true_and]
  rw [hvalue]
  rfl

/-- Every word of the buffer is written. -/
theorem Writes.of_fill {f : ℕ → ℕ} {is : List ℕ} (hmem : ∀ i, i ∈ is ↔ i < n)
    (hbounded : ∀ i < n, f i < 2 ^ 64)
    (hbits : ∀ i < n, ∀ j < 64, (f i).testBit j = p.testBit (64 * i + j)) :
    Writes n dst (fill dst is f) p := by
  have hin : ∀ i < n, fill dst is f i = f i := fun i hi => by
    rw [fill_apply, if_pos ((hmem i).2 hi)]
  refine Writes.of_testBit (fun i hi => ?_) (fun i hi j hj => ?_) fun i hi => ?_
  · rw [hin i hi]
    exact hbounded i hi
  · rw [hin i hi]
    exact hbits i hi j hj
  · rw [fill_apply, if_neg fun h => by have := (hmem i).1 h; omega]

theorem shlWord_lt (hlo : lo < 2 ^ 64) (hhi : hi < 2 ^ 64) (s : ℕ) : shlWord lo hi s < 2 ^ 64 := by
  unfold shlWord
  split
  · exact hlo
  · exact or_lt_two_pow (mod_lt _ (Nat.two_pow_pos 64))
      ((shiftRight_le _ _).trans_lt hhi)

theorem testBit_shlWord (hhi : hi < 2 ^ 64) (hs : s < 64) (hj : j < 64) :
    (shlWord lo hi s).testBit j =
      if s ≤ j then lo.testBit (j - s) else hi.testBit (64 + j - s) := by
  unfold shlWord
  by_cases hzero : s = 0
  · subst hzero
    rw [if_pos rfl, if_pos (Nat.zero_le j), Nat.sub_zero]
  · rw [if_neg hzero, testBit_or, testBit_mod_two_pow, testBit_shiftLeft,
      testBit_shiftRight, decide_eq_true hj, Bool.true_and]
    by_cases hle : s ≤ j
    · have hhigh : hi.testBit (64 - s + j) = false := testBit_of_le hhi (by omega)
      rw [if_pos hle, hhigh, decide_eq_true hle, Bool.true_and, Bool.or_false]
    · rw [if_neg hle, decide_eq_false hle, Bool.false_and, Bool.false_or]
      congr 1
      omega

theorem shrWord_lt (hlo : lo < 2 ^ 64) (s : ℕ) : shrWord lo hi s < 2 ^ 64 := by
  unfold shrWord
  split
  · exact hlo
  · exact or_lt_two_pow ((shiftRight_le _ _).trans_lt hlo)
      (mod_lt _ (Nat.two_pow_pos 64))

theorem testBit_shrWord (hlo : lo < 2 ^ 64) (hs : s < 64) (hj : j < 64) :
    (shrWord lo hi s).testBit j =
      if s + j < 64 then lo.testBit (s + j) else hi.testBit (s + j - 64) := by
  unfold shrWord
  by_cases hzero : s = 0
  · subst hzero
    rw [if_pos rfl, if_pos (by omega), Nat.zero_add]
  · rw [if_neg hzero, testBit_or, testBit_mod_two_pow, testBit_shiftLeft,
      testBit_shiftRight, decide_eq_true hj, Bool.true_and]
    by_cases hlt : s + j < 64
    · rw [if_pos hlt, decide_eq_false (by omega), Bool.false_and, Bool.or_false]
    · have hlow : lo.testBit (s + j) = false := testBit_of_le hlo (by omega)
      rw [if_neg hlt, hlow, decide_eq_true (by omega), Bool.true_and, Bool.false_or]
      congr 1
      omega

theorem testBit_word (ha : Bounded 64 n a) (i j : ℕ) (hj : j < 64) :
    (if i < n then a i else 0).testBit j = (value 64 n a).testBit (64 * i + j) := by
  split
  · rename_i hi
    exact testBit_limb (by norm_num) ha hi hj
  · rename_i hi
    rw [zero_testBit, testBit_of_le (value_lt ha) (by omega)]

theorem wideShl_writes (ha : Bounded 64 n a) (amount : ℕ) :
    Writes n dst (wideShl dst a amount (8 * n)) (value 64 n a * 2 ^ amount) := by
  unfold wideShl
  dsimp only
  rw [nw_mul]
  have hcast : ((value 64 n a <<< amount : ℕ) : ℤ) = value 64 n a * 2 ^ amount := by
    rw [Nat.shiftLeft_eq]
    rfl
  rw [← hcast]
  split
  · rename_i hout
    refine Writes.of_fill (fun _ => mem_range) (fun _ _ => Nat.two_pow_pos 64) fun i hi j hj => ?_
    rw [zero_testBit, testBit_shiftLeft, decide_eq_false (by omega), Bool.false_and]
  · have hlo : ∀ i < n, (if amount / 64 ≤ i then a (i - amount / 64) else 0) < 2 ^ 64 :=
      fun i hi => by
        split
        · exact ha _ (by omega)
        · exact Nat.two_pow_pos 64
    have hhi : ∀ i < n, (if amount / 64 < i then a (i - amount / 64 - 1) else 0) < 2 ^ 64 :=
      fun i hi => by
        split
        · exact ha _ (by omega)
        · exact Nat.two_pow_pos 64
    refine Writes.of_fill (fun i => by rw [mem_reverse, mem_range])
      (fun i hi => shlWord_lt (hlo i hi) (hhi i hi) _) fun i hi j hj => ?_
    rw [testBit_shlWord (hhi i hi) (mod_lt _ (by norm_num)) hj, testBit_shiftLeft]
    split
    · split
      · rw [testBit_limb (by norm_num) ha (by omega) (by omega), decide_eq_true (by omega),
          Bool.true_and]
        congr 1
        omega
      · rw [zero_testBit, decide_eq_false (by omega), Bool.false_and]
    · split
      · rw [testBit_limb (by norm_num) ha (by omega) (by omega), decide_eq_true (by omega),
          Bool.true_and]
        congr 1
        omega
      · rw [zero_testBit, decide_eq_false (by omega), Bool.false_and]

theorem wideLshr_writes (ha : Bounded 64 n a) (amount : ℕ) :
    Writes n dst (wideLshr dst a amount (8 * n)) (value 64 n a / 2 ^ amount : ℕ) := by
  unfold wideLshr
  dsimp only
  rw [nw_mul, ← shiftRight_eq_div_pow]
  split
  · rename_i hout
    refine Writes.of_fill (fun _ => mem_range) (fun _ _ => Nat.two_pow_pos 64) fun i hi j hj => ?_
    rw [zero_testBit, testBit_shiftRight, testBit_of_le (value_lt ha) (by omega)]
  · have hlo : ∀ i < n, (if i + amount / 64 < n then a (i + amount / 64) else 0) < 2 ^ 64 :=
      fun i hi => by
        split
        · exact ha _ (by omega)
        · exact Nat.two_pow_pos 64
    refine Writes.of_fill (fun _ => mem_range) (fun i hi => shrWord_lt (hlo i hi) _)
      fun i hi j hj => ?_
    rw [testBit_shrWord (hlo i hi) (mod_lt _ (by norm_num)) hj, testBit_shiftRight]
    split
    · rw [testBit_word ha _ _ (by omega)]
      congr 1
      omega
    · rw [Nat.add_assoc i, testBit_word ha _ _ (by omega)]
      congr 1
      omega

end Bits

section Widths

variable {n width : ℕ} {dst dst' a : Buffer}

/-- Both numbers fit in their halves of the packed word. -/
theorem unpack_pack {nb : ℕ} (hnb : nb < 2 ^ 16) (hwidth : width < 2 ^ 16) :
    unpackNbWidth (packNbWidth nb width) = (nb, width) := by
  unfold unpackNbWidth packNbWidth
  have hlow : nb % 2 ^ 32 = nb := mod_eq_of_lt (by omega)
  have hhigh : ((width % 2 ^ 32) <<< 16) % 2 ^ 32 = width <<< 16 := by
    omega
  rw [hlow, hhigh, Nat.or_comm, ← shiftLeft_add_eq_or_of_lt hnb, Nat.shiftLeft_eq,
    shiftRight_eq_div_pow]
  refine Prod.ext ?_ ?_
  · show (width * 2 ^ 16 + nb) % 2 ^ 16 = nb
    omega
  · show (width * 2 ^ 16 + nb) / 2 ^ 16 = width
    omega

theorem cut_writes {d e : Buffer} (he : Bounded 64 n e)
    (hbelow : ∀ i < n, i < width / 64 → d i = e i) (hframe : ∀ i, n ≤ i → d i = dst i)
    (hp : ∀ i < n, ∀ j < 64,
      p.testBit (64 * i + j) = (decide (64 * i + j < width) && (e i).testBit j)) :
    Writes n dst (fill (if 0 < width % 64 ∧ width / 64 < n then
          Function.update d (width / 64) (e (width / 64) &&& (2 ^ (width % 64) - 1))
        else d)
        (List.range' (width / 64 + if 0 < width % 64 then 1 else 0)
          (n - (width / 64 + if 0 < width % 64 then 1 else 0))) fun _ => 0) p := by
  have hfirst : (width / 64 + if 0 < width % 64 then 1 else 0) * 64 < width + 64 ∧
      width ≤ (width / 64 + if 0 < width % 64 then 1 else 0) * 64 := by
    split <;> omega
  generalize width / 64 + (if 0 < width % 64 then 1 else 0) = first at hfirst
  have hword : ∀ i < n, ∀ x, fill (if 0 < width % 64 ∧ width / 64 < n then
          Function.update d (width / 64) (e (width / 64) &&& (2 ^ (width % 64) - 1))
        else d) (List.range' first (n - first)) (fun _ => 0) i = x →
      x < 2 ^ 64 ∧ ∀ j < 64, x.testBit j = p.testBit (64 * i + j) := by
    rintro i hi x rfl
    rw [fill_apply]
    by_cases hzero : first ≤ i
    · rw [if_pos (by rw [mem_range'_1]; omega)]
      refine ⟨Nat.two_pow_pos 64, fun j hj => ?_⟩
      rw [hp i hi j hj, zero_testBit, decide_eq_false (by omega), Bool.false_and]
    · rw [if_neg (by rw [mem_range'_1]; omega)]
      by_cases hpart : 0 < width % 64 ∧ width / 64 = i
      · obtain ⟨hrest, rfl⟩ := hpart
        rw [if_pos ⟨hrest, hi⟩, update_self]
        refine ⟨and_le_left.trans_lt (he _ hi), fun j hj => ?_⟩
        rw [hp _ hi j hj, testBit_and, testBit_two_pow_sub_one, Bool.and_comm]
        congr 1
        rw [decide_eq_decide]
        omega
      · have hsame : (if 0 < width % 64 ∧ width / 64 < n then
              Function.update d (width / 64) (e (width / 64) &&& (2 ^ (width % 64) - 1))
            else d) i = d i := by
          split
          · rw [update_of_ne (by omega)]
          · rfl
        rw [hsame, hbelow i hi (by omega)]
        refine ⟨he i hi, fun j hj => ?_⟩
        rw [hp i hi j hj, decide_eq_true (by omega), Bool.true_and]
  refine Writes.of_testBit (fun i hi => (hword i hi _ rfl).1)
    (fun i hi => (hword i hi _ rfl).2) fun i hi => ?_
  rw [fill_apply, if_neg (by rw [mem_range'_1]; omega)]
  split
  · rw [update_of_ne (by omega), hframe i hi]
  · exact hframe i hi

theorem wideApplyMask_writes (hd : Bounded 64 n dst) (hn : 8 * n < 2 ^ 16) (hpos : 0 < width)
    (hwidth : width < 2 ^ 16) :
    Writes n dst (wideApplyMask dst (packNbWidth (8 * n) width))
      (value 64 n dst % 2 ^ width : ℕ) := by
  unfold wideApplyMask
  rw [unpack_pack hn hwidth]
  dsimp only
  rw [nw_mul]
  split
  · obtain rfl : n = 0 := by omega
    refine ⟨hd, ?_, fun _ _ => rfl⟩
    simp [value]
  · refine cut_writes hd (fun _ _ _ => rfl) (fun _ _ => rfl) fun i hi j hj => ?_
    rw [testBit_mod_two_pow, testBit_limb (by norm_num) hd hi hj]

theorem wideFillOnes_writes (hn : 8 * n < 2 ^ 16) (hwidth : width < 2 ^ 16) :
    Writes n dst (wideFillOnes dst (packNbWidth (8 * n) width)) (2 ^ width - 1 : ℕ) := by
  unfold wideFillOnes
  rw [unpack_pack hn hwidth]
  dsimp only
  rw [nw_mul]
  split
  · obtain rfl : n = 0 := by omega
    refine ⟨fun i hi => absurd hi (Nat.not_lt_zero i), ?_, fun _ _ => rfl⟩
    simp [value]
  · have hmask : 2 ^ (width % 64) - 1 = (2 ^ 64 - 1) &&& (2 ^ (width % 64) - 1) := by
      have hlt : 2 ^ (width % 64) < 2 ^ 64 :=
        Nat.pow_lt_pow_right (by norm_num) (mod_lt _ (by norm_num))
      have hfit : 2 ^ (width % 64) - 1 < 2 ^ 64 := by omega
      rw [Nat.and_comm, and_two_pow_sub_one_eq_mod, mod_eq_of_lt hfit]
    rw [hmask]
    refine cut_writes (e := fun _ => 2 ^ 64 - 1) (fun _ _ => Nat.sub_one_lt (by norm_num))
      (fun i hi hlow => ?_) (fun i hi => ?_) fun i hi j hj => ?_
    · rw [fill_apply, if_pos (by rw [mem_range]; omega)]
    · rw [fill_apply, if_neg (by rw [mem_range]; omega)]
    · rw [testBit_two_pow_sub_one, testBit_two_pow_sub_one, decide_eq_true hj, Bool.and_true]

theorem signBit_eq (ha : Bounded 64 n a) (hpos : 0 < width) (hwidth : width ≤ 64 * n) :
    signBit a width = ((value 64 n a).testBit (width - 1)).toNat := by
  unfold signBit
  rw [shiftRight_eq_div_pow, ← toNat_testBit,
    testBit_limb (by norm_num) ha (by omega) (mod_lt _ (by norm_num)), div_add_mod]

theorem setBit_bits (hd : Bounded 64 n dst) (p : ℕ) :
    Bounded 64 n (setBit n dst p) ∧ (∀ i, n ≤ i → setBit n dst p i = dst i) ∧
      ∀ i < n, ∀ j < 64,
        (setBit n dst p i).testBit j = ((dst i).testBit j || decide (64 * i + j = p)) := by
  unfold setBit
  split
  · rename_i hp
    refine ⟨fun i hi => ?_, fun i hi => update_of_ne (by omega) _ _, fun i hi j hj => ?_⟩
    · by_cases hip : i = p / 64
      · subst hip
        rw [update_self, one_shiftLeft]
        exact or_lt_two_pow (hd _ hi) (Nat.pow_lt_pow_right (by norm_num) (mod_lt _ (by norm_num)))
      · rw [update_of_ne hip]
        exact hd i hi
    · by_cases hip : i = p / 64
      · subst hip
        rw [update_self, testBit_or, one_shiftLeft, testBit_two_pow]
        congr 1
        rw [decide_eq_decide]
        omega
      · rw [update_of_ne hip, decide_eq_false (by omega), Bool.or_false]
  · refine ⟨hd, fun _ _ => rfl, fun i hi j hj => ?_⟩
    rw [decide_eq_false (by omega), Bool.or_false]

theorem setBits_bits (is : List ℕ) (hd : Bounded 64 n dst) :
    Bounded 64 n (is.foldl (setBit n) dst) ∧ (∀ i, n ≤ i → is.foldl (setBit n) dst i = dst i) ∧
      ∀ i < n, ∀ j < 64,
        (is.foldl (setBit n) dst i).testBit j = ((dst i).testBit j || decide (64 * i + j ∈ is)) := by
  induction is generalizing dst with
  | nil => exact ⟨hd, fun _ _ => rfl, fun i _ j _ => by simp⟩
  | cons p is ih =>
    obtain ⟨hbounded, hframe, hbits⟩ := setBit_bits hd p
    obtain ⟨hbounded', hframe', hbits'⟩ := ih hbounded
    refine ⟨hbounded', fun i hi => (hframe' i hi).trans (hframe i hi), fun i hi j hj => ?_⟩
    rw [foldl_cons, hbits' i hi j hj, hbits i hi j hj, Bool.or_assoc]
    simp [mem_cons]

theorem wideAshr_writes (ha : Bounded 64 n a) (hn : 8 * n < 2 ^ 16) (hpos : 0 < width)
    (hwidth : width < 2 ^ 16) (hfit : width ≤ 64 * n) (hcut : value 64 n a < 2 ^ width)
    (amount : ℕ) :
    Writes n dst (wideAshr dst a amount (packNbWidth (8 * n) width))
      (signedPayload (value 64 n a) width / 2 ^ amount % 2 ^ width) := by
  have hshift : Writes n dst (wideLshr dst a amount (8 * n)) (value 64 n a / 2 ^ amount : ℕ) :=
    wideLshr_writes ha amount
  have hlt : value 64 n a / 2 ^ amount < 2 ^ width := (Nat.div_le_self _ _).trans_lt hcut
  have hsigned : ∀ z : ℤ, z = value 64 n a → ((value 64 n a / 2 ^ amount : ℕ) : ℤ) =
      z / 2 ^ amount % 2 ^ width := by
    rintro z rfl
    have hltInt : ((value 64 n a / 2 ^ amount : ℕ) : ℤ) < 2 ^ width := by exact_mod_cast hlt
    exact (Int.emod_eq_of_lt (by positivity) hltInt).symm
  unfold wideAshr
  rw [unpack_pack hn hwidth]
  dsimp only
  rw [if_neg (by omega), nw_mul, signBit_eq ha hpos hfit]
  unfold signedPayload
  cases hsign : (value 64 n a).testBit (width - 1) with
  | false =>
    rw [if_neg (by simp), if_neg (by simp), ← hsigned _ rfl]
    exact hshift
  | true =>
    by_cases hzero : amount = 0
    · subst hzero
      have hltInt : (value 64 n a : ℤ) < 2 ^ width := by exact_mod_cast hcut
      rw [Nat.pow_zero, Nat.div_one] at hshift
      rw [if_neg (by simp), if_pos rfl, pow_zero, Int.ediv_one, Int.sub_emod_right,
        Int.emod_eq_of_lt (by positivity) hltInt]
      exact hshift
    · have hstart : (if width ≤ amount then 0 else width - amount) = width - amount := by
        split <;> omega
      rw [if_pos ⟨rfl, Nat.pos_of_ne_zero hzero⟩, if_pos rfl, ← Reference.arith_shift amount hcut,
        hstart]
      have hmask : genMask (width - amount) ^^^ genMask width < 2 ^ width :=
        xor_lt_two_pow ((genMask_lt _).trans_le (Nat.pow_le_pow_right (by omega) (by omega)))
          (genMask_lt width)
      have hor : ((value 64 n a / 2 ^ amount) ||| (genMask (width - amount) ^^^ genMask width)) %
          2 ^ width = (value 64 n a / 2 ^ amount) ||| (genMask (width - amount) ^^^ genMask width) :=
        mod_eq_of_lt (or_lt_two_pow hlt hmask)
      have hout : (wideLshr dst a amount (8 * n) |> value 64 n) = value 64 n a / 2 ^ amount := by
        have hholds := hshift.holds
        have hroom : value 64 n a / 2 ^ amount < 2 ^ (64 * n) :=
          hlt.trans_le (Nat.pow_le_pow_right (by norm_num) hfit)
        norm_cast at hholds
        rwa [mod_eq_of_lt hroom] at hholds
      obtain ⟨hbounded, hframe, hbits⟩ := setBits_bits
        (List.range' (width - amount) (width - (width - amount))) hshift.bounded
      norm_cast
      rw [hor]
      refine Writes.of_testBit hbounded (fun i hi j hj => ?_) fun i hi =>
        (hframe i hi).trans (hshift.frame i hi)
      rw [hbits i hi j hj, testBit_limb (by norm_num) hshift.bounded hi hj, hout, testBit_or,
        testBit_xor, testBit_genMask, testBit_genMask]
      congr 1
      have hmem : 64 * i + j ∈ List.range' (width - amount) (width - (width - amount)) ↔
          width - amount ≤ 64 * i + j ∧ 64 * i + j < width := by
        rw [mem_range'_1]
        omega
      rw [decide_eq_decide.2 hmem]
      by_cases hlow : 64 * i + j < width - amount
      · have hbelow : 64 * i + j < width := by omega
        have hnot : ¬(width - amount ≤ 64 * i + j ∧ 64 * i + j < width) := by omega
        rw [decide_eq_true hlow, decide_eq_true hbelow, decide_eq_false hnot]
        rfl
      · rw [decide_eq_false hlow, Bool.false_xor, decide_eq_decide]
        omega

end Widths

/-- The number that a comparison answers. -/
def answer : Ordering → ℤ
  | .lt => -1
  | .eq => 0
  | .gt => 1

section Comparisons

variable {n width : ℕ} {a b : Buffer}

theorem answer_of_lt [LinearOrder α] {x y : α} (h : x < y) : answer (compare x y) = -1 := by
  rw [compare_lt_iff_lt.2 h, answer]

theorem answer_of_gt [LinearOrder α] {x y : α} (h : y < x) : answer (compare x y) = 1 := by
  rw [compare_gt_iff_gt.2 h, answer]

theorem answer_congr {β : Type*} [LinearOrder α] [LinearOrder β] {x y : α} {x' y' : β}
    (hlt : x < y ↔ x' < y') (hgt : y < x ↔ y' < x') :
    answer (compare x y) = answer (compare x' y') := by
  rcases lt_trichotomy x y with h | h | h
  · rw [answer_of_lt h, answer_of_lt (hlt.1 h)]
  · subst h
    have heq : x' = y' := le_antisymm (not_lt.1 fun h => lt_irrefl x (hgt.2 h))
      (not_lt.1 fun h => lt_irrefl x (hlt.2 h))
    rw [heq, compare_eq_iff_eq.2 rfl, compare_eq_iff_eq.2 rfl]
  · rw [answer_of_gt h, answer_of_gt (hgt.1 h)]

/-- The highest word that differs decides. -/
theorem cmpWords_eq (ha : Bounded 64 n a) (hb : Bounded 64 n b) :
    cmpWords a b n = answer (compare (value 64 n a) (value 64 n b)) := by
  induction n with
  | zero => rfl
  | succ n ih =>
    have ha' := ha.of_le (le_succ n)
    have hb' := hb.of_le (le_succ n)
    unfold cmpWords
    split
    · rename_i h
      rw [answer_of_lt (value_lt_value_succ ha' h)]
    · split
      · rename_i h
        rw [answer_of_gt (value_lt_value_succ hb' h)]
      · have heq : a n = b n := by omega
        rw [ih ha' hb']
        refine answer_congr ?_ ?_
        · rw [value_succ, value_succ, heq]
          omega
        · rw [value_succ, value_succ, heq]
          omega

theorem wideUcmp_eq (ha : Bounded 64 n a) (hb : Bounded 64 n b) :
    wideUcmp a b (8 * n) = answer (compare (value 64 n a) (value 64 n b)) := by
  unfold wideUcmp
  rw [nw_mul]
  exact cmpWords_eq ha hb

/-- A negative number is below one that is not. -/
theorem answer_signs {x y w w' : ℕ} (hx : x < 2 ^ w) (hy : y < 2 ^ w')
    (h : x.testBit (w - 1) ≠ y.testBit (w' - 1)) :
    answer (compare (signedPayload x w) (signedPayload y w')) =
      if (x.testBit (w - 1)).toNat = 1 then -1 else 1 := by
  have hxInt : (x : ℤ) < 2 ^ w := by exact_mod_cast hx
  have hyInt : (y : ℤ) < 2 ^ w' := by exact_mod_cast hy
  unfold signedPayload
  cases hxs : x.testBit (w - 1) with
  | false =>
    have hys : y.testBit (w' - 1) = true := by
      rw [hxs] at h
      simpa using h.symm
    rw [hys, if_neg Bool.false_ne_true, if_pos rfl, if_neg (by simp)]
    exact answer_of_gt (by omega)
  | true =>
    have hys : y.testBit (w' - 1) = false := by
      rw [hxs] at h
      simpa using h.symm
    rw [hys, if_neg Bool.false_ne_true, if_pos rfl]
    exact answer_of_lt (by omega)

theorem toNat_ne_iff (x y : Bool) : x.toNat ≠ y.toNat ↔ x ≠ y := by
  cases x <;> cases y <;> decide

section

variable (ha : Bounded 64 n a)

include ha

theorem wideScmp_eq (hb : Bounded 64 n b) (hn : 8 * n < 2 ^ 16)
    (hpos : 0 < width) (hwidth : width < 2 ^ 16) (hfit : width ≤ 64 * n)
    (hacut : value 64 n a < 2 ^ width) (hbcut : value 64 n b < 2 ^ width) :
    wideScmp a b (packNbWidth (8 * n) width) =
      answer (compare (signedPayload (value 64 n a) width) (signedPayload (value 64 n b) width)) := by
  unfold wideScmp
  rw [unpack_pack hn hwidth]
  dsimp only
  rw [if_neg (by omega), signBit_eq ha hpos hfit, signBit_eq hb hpos hfit]
  split
  · rename_i hsigns
    rw [answer_signs hacut hbcut ((toNat_ne_iff _ _).1 hsigns)]
  · rename_i hsigns
    rw [toNat_ne_iff, not_not] at hsigns
    rw [wideUcmp_eq ha hb]
    unfold signedPayload
    rw [hsigns]
    split
    · exact answer_congr (by omega) (by omega)
    · exact answer_congr (by omega) (by omega)

theorem sextWord_bits (hfit : width ≤ 64 * n) (sign i : ℕ) :
    sextWord a i width sign < 2 ^ 64 ∧ ∀ j < 64, (sextWord a i width sign).testBit j =
      if 64 * i + j < width then (value 64 n a).testBit (64 * i + j) else decide (sign = 1) := by
  unfold sextWord
  dsimp only
  split
  · rename_i habove
    refine ⟨by split <;> norm_num, fun j hj => ?_⟩
    have hlow : ¬64 * i + j < width := by omega
    split
    · rename_i hsign
      rw [testBit_two_pow_sub_one, decide_eq_true hj, decide_eq_true hsign]
    · rename_i hsign
      rw [zero_testBit, decide_eq_false hsign]
  · rename_i hbelow
    have hi : i < n := by omega
    split
    · refine ⟨ha i hi, fun j hj => ?_⟩
      rw [if_pos (by omega), testBit_limb (by norm_num) ha hi hj]
    · have hmask : (2 ^ (width - i * 64) - 1 : ℕ) < 2 ^ 64 :=
        (sub_lt (Nat.two_pow_pos _) Nat.one_pos).trans_le
          (Nat.pow_le_pow_right (by norm_num) (by omega))
      have hnot : (if sign = 1 then ValueU64.not (2 ^ (width - i * 64) - 1) else 0) < 2 ^ 64 := by
        split
        · exact xor_lt_two_pow (by norm_num) hmask
        · norm_num
      refine ⟨or_lt_two_pow (and_le_left.trans_lt (ha i hi)) hnot, fun j hj => ?_⟩
      rw [testBit_or, testBit_and, testBit_two_pow_sub_one, testBit_limb (by norm_num) ha hi hj]
      have hhigh : (if sign = 1 then ValueU64.not (2 ^ (width - i * 64) - 1) else 0).testBit j =
          (decide (sign = 1) && decide (¬j < width - i * 64)) := by
        split
        · rename_i hsign
          rw [ValueU64.testBit_not, testBit_two_pow_sub_one, decide_eq_true hj,
            decide_eq_true hsign, Bool.true_xor, decide_not, Bool.true_and]
        · rename_i hsign
          rw [zero_testBit, decide_eq_false hsign, Bool.false_and]
      rw [hhigh]
      by_cases hlow : 64 * i + j < width
      · rw [if_pos hlow, decide_eq_true (by omega : j < width - i * 64),
          decide_eq_false (by omega : ¬¬j < width - i * 64), Bool.and_false, Bool.or_false,
          Bool.and_true]
      · rw [if_neg hlow, decide_eq_false (by omega : ¬j < width - i * 64),
          decide_eq_true (by omega : ¬j < width - i * 64), Bool.and_false, Bool.false_or,
          Bool.and_true]

theorem sextWords_value (hfit : width ≤ 64 * n)
    (hroom : width ≤ 64 * m) (hcut : value 64 n a < 2 ^ width) (sign : ℕ) :
    Bounded 64 m (fun i => sextWord a i width sign) ∧
      value 64 m (fun i => sextWord a i width sign) =
        if sign = 1 then value 64 n a + (2 ^ (64 * m) - 2 ^ width) else value 64 n a := by
  have hbounded : Bounded 64 m fun i => sextWord a i width sign :=
    fun i _ => (sextWord_bits ha hfit sign i).1
  have hpow : 2 ^ width ≤ 2 ^ (64 * m) := Nat.pow_le_pow_right (by norm_num) hroom
  have hlow : ∀ i j, ¬64 * i + j < width → (value 64 n a).testBit (64 * i + j) = false :=
    fun i j h => testBit_of_le hcut (by omega)
  refine ⟨hbounded, ?_⟩
  split
  · rename_i hsign
    refine value_eq_of_testBit (by norm_num) hbounded (by omega) fun i hi j hj => ?_
    rw [(sextWord_bits ha hfit sign i).2 j hj, ← Reference.or_genMask_xor hroom hcut, testBit_or,
      testBit_xor, testBit_genMask, testBit_genMask, decide_eq_true hsign,
      decide_eq_true (by omega : 64 * i + j < 64 * m), Bool.true_xor]
    split
    · rename_i h
      rw [decide_eq_true h, Bool.not_true, Bool.or_false]
    · rename_i h
      rw [decide_eq_false h, Bool.not_false, Bool.or_true]
  · rename_i hsign
    refine value_eq_of_testBit (by norm_num) hbounded (by omega) fun i hi j hj => ?_
    rw [(sextWord_bits ha hfit sign i).2 j hj, decide_eq_false hsign]
    split
    · rfl
    · rename_i h
      exact (hlow i j h).symm

theorem wideScmpAsym_eq {n' width' : ℕ} (hb : Bounded 64 n' b)
    (hn : 8 * n < 2 ^ 16) (hn' : 8 * n' < 2 ^ 16) (hpos : 0 < width) (hpos' : 0 < width')
    (hwidth : width < 2 ^ 16) (hwidth' : width' < 2 ^ 16) (hfit : width ≤ 64 * n)
    (hfit' : width' ≤ 64 * n') (hacut : value 64 n a < 2 ^ width)
    (hbcut : value 64 n' b < 2 ^ width') :
    wideScmpAsym a b (packNbWidth (8 * n) width) (packNbWidth (8 * n') width') =
      answer (compare (signedPayload (value 64 n a) width)
        (signedPayload (value 64 n' b) width')) := by
  unfold wideScmpAsym
  rw [unpack_pack hn hwidth, unpack_pack hn' hwidth']
  dsimp only
  rw [if_neg (by omega), signBit_eq ha hpos hfit, signBit_eq hb hpos' hfit']
  split
  · rename_i hsigns
    rw [answer_signs hacut hbcut ((toNat_ne_iff _ _).1 hsigns)]
  · rename_i hsigns
    rw [toNat_ne_iff, not_not] at hsigns
    rw [nw_mul, nw_mul]
    have hroom : width ≤ 64 * max n n' := by omega
    have hroom' : width' ≤ 64 * max n n' := by omega
    obtain ⟨hax, hav⟩ := sextWords_value ha hfit hroom hacut
      ((value 64 n a).testBit (width - 1)).toNat
    obtain ⟨hbx, hbv⟩ := sextWords_value hb hfit' hroom' hbcut
      ((value 64 n' b).testBit (width' - 1)).toNat
    have hpow : 2 ^ width ≤ 2 ^ (64 * max n n') := Nat.pow_le_pow_right (by norm_num) hroom
    have hpow' : 2 ^ width' ≤ 2 ^ (64 * max n n') := Nat.pow_le_pow_right (by norm_num) hroom'
    rw [cmpWords_eq hax hbx, hav, hbv]
    unfold signedPayload
    rw [hsigns]
    generalize (value 64 n' b).testBit (width' - 1) = sign
    have hpowInt : ((2 ^ width : ℕ) : ℤ) = 2 ^ width := by push_cast; rfl
    have hpowInt' : ((2 ^ width' : ℕ) : ℤ) = 2 ^ width' := by push_cast; rfl
    cases sign with
    | false => exact answer_congr (by simp) (by simp)
    | true =>
      simp only [Bool.toNat_true, if_true]
      exact answer_congr (by omega) (by omega)

end

/-- The source continued to the words of the destination. -/
theorem wideResize_writes {dst : Buffer} (signed : Bool) (ha : Bounded 64 n a)
    (hn : 8 * n < 2 ^ 16) (hpos : 0 < width) (hwidth : width < 2 ^ 16) (hfit : width ≤ 64 * n)
    (hroom : width ≤ 64 * m) (hcut : value 64 n a < 2 ^ width) :
    Writes m dst (wideResize dst a (packNbWidth (8 * n) width + signed.toNat * 2 ^ 32) (8 * m))
      (if signed then signedPayload (value 64 n a) width else value 64 n a) := by
  have hpacked : packNbWidth (8 * n) width < 2 ^ 32 :=
    or_lt_two_pow (mod_lt _ (Nat.two_pow_pos 32)) (mod_lt _ (Nat.two_pow_pos 32))
  have hinfo : (packNbWidth (8 * n) width + signed.toNat * 2 ^ 32) % 2 ^ 32 =
      packNbWidth (8 * n) width := by omega
  have hflag : decide (((packNbWidth (8 * n) width + signed.toNat * 2 ^ 32) >>> 32) % 2 = 1) =
      signed := by
    rw [shiftRight_eq_div_pow, add_mul_div_right _ _ (Nat.two_pow_pos 32),
      div_eq_of_lt hpacked, Nat.zero_add]
    cases signed <;> rfl
  unfold wideResize
  rw [hinfo, hflag, unpack_pack hn hwidth, if_neg (by omega), nw_mul, signBit_eq ha hpos hfit]
  generalize hsign : (if signed = true then ((value 64 n a).testBit (width - 1)).toNat else 0) = sign
  obtain ⟨hbounded, hvalue⟩ := sextWords_value ha hfit hroom hcut sign
  have hin : ∀ i < m, fill dst (List.range m) (fun i => sextWord a i width sign) i =
      sextWord a i width sign := fun i hi => by
    rw [fill_apply, if_pos (mem_range.2 hi)]
  refine ⟨fun i hi => (hin i hi).symm ▸ hbounded i hi, ?_, fun i hi => ?_⟩
  · have hcast := value_emod hbounded
    rw [value_congr hin, ← hcast, hvalue, ← hsign]
    have hpow : 2 ^ width ≤ 2 ^ (64 * m) := Nat.pow_le_pow_right (by norm_num) hroom
    unfold signedPayload
    cases signed with
    | false => simp
    | true =>
      cases (value 64 n a).testBit (width - 1) with
      | false => simp
      | true =>
        simp only [Bool.toNat_true, if_true]
        have hsum : ((value 64 n a + (2 ^ (64 * m) - 2 ^ width) : ℕ) : ℤ) =
            value 64 n a - 2 ^ width + 2 ^ (64 * m) := by
          push_cast [cast_sub hpow]
          ring
        rw [hsum, Int.add_emod_right]
  · rw [fill_apply, if_neg (by rw [mem_range]; omega)]

end Comparisons

section Reductions

variable {n width : ℕ} {a b : Buffer}

theorem any_ne_iff (n : ℕ) (a b : Buffer) :
    ((List.range n).any fun i => a i ≠ b i) = true ↔ ¬∀ i < n, a i = b i := by
  simp

theorem countOnes_bit (b : Bool) (p : ℕ) : countOnes (Nat.bit b p) = b.toNat + countOnes p := by
  unfold countOnes
  by_cases h : p = 0 → b = true
  · rw [bits_append_bit p b h, count_cons]
    cases b <;> simp [Nat.add_comm]
  · obtain ⟨rfl, hb⟩ := not_forall.1 h
    rw [Bool.not_eq_true] at hb
    subst hb
    rfl

theorem countOnes_add (m x y : ℕ) (hy : y < 2 ^ m) :
    countOnes (2 ^ m * x + y) = countOnes x + countOnes y := by
  induction m generalizing y with
  | zero =>
    obtain rfl : y = 0 := by omega
    rw [Nat.pow_zero, Nat.one_mul]
    rfl
  | succ m ih =>
    have hsplit : Nat.bit (Nat.bodd y) (2 ^ m * x + Nat.div2 y) = 2 ^ (m + 1) * x + y := by
      have hy := bit_bodd_div2 y
      rw [bit_val] at hy ⊢
      have hdouble : 2 ^ (m + 1) * x = 2 * (2 ^ m * x) := by ring
      omega
    have hhalf : Nat.div2 y < 2 ^ m := by
      rw [div2_val]
      omega
    have hones := countOnes_bit (Nat.bodd y) (Nat.div2 y)
    rw [bit_bodd_div2] at hones
    rw [← hsplit, countOnes_bit, ih _ hhalf, hones]
    omega

section

variable (ha : Bounded 64 n a)

include ha

theorem value_eq_iff (hb : Bounded 64 n b) : value 64 n a = value 64 n b ↔ ∀ i < n, a i = b i := by
  refine ⟨fun h i hi => eq_of_testBit_eq fun j => ?_, value_congr⟩
  by_cases hj : j < 64
  · rw [testBit_limb (by norm_num) ha hi hj, h, testBit_limb (by norm_num) hb hi hj]
  · rw [testBit_of_le (ha i hi) (by omega), testBit_of_le (hb i hi) (by omega)]

theorem wideEq_eq (hb : Bounded 64 n b) :
    wideEq a b (8 * n) = if value 64 n a = value 64 n b then 1 else 0 := by
  unfold wideEq
  rw [nw_mul]
  simp only [any_ne_iff, value_eq_iff ha hb, ite_not]

theorem wideNe_eq (hb : Bounded 64 n b) :
    wideNe a b (8 * n) = if value 64 n a = value 64 n b then 0 else 1 := by
  unfold wideNe
  rw [nw_mul]
  simp only [any_ne_iff, value_eq_iff ha hb, ite_not]

theorem wideIsNonzero_eq : wideIsNonzero a (8 * n) = if value 64 n a = 0 then 0 else 1 := by
  have hzero := value_eq_iff ha (b := fun _ => 0) fun _ _ => Nat.two_pow_pos 64
  rw [value_zero fun _ _ => rfl] at hzero
  unfold wideIsNonzero
  rw [nw_mul]
  simp only [any_ne_iff n a fun _ => 0, hzero, ite_not]

theorem parity_fold : (List.range n).foldl (fun total i => total ^^^ countOnes (a i)) 0 % 2 =
      countOnes (value 64 n a) % 2 := by
  induction n with
  | zero => rfl
  | succ n ih =>
    have ha' := ha.of_le (le_succ n)
    rw [range_succ, foldl_append, foldl_cons, foldl_nil, value_succ,
      countOnes_add _ _ _ (value_lt ha'), xor_mod_two_eq, add_mod, ih ha', Nat.add_comm, ← add_mod]

theorem widePopcntParity_eq : widePopcntParity a (8 * n) = countOnes (value 64 n a) % 2 := by
  unfold widePopcntParity
  rw [nw_mul]
  exact parity_fold ha

end

end Reductions

section Agreement

variable {n width : ℕ} {dst dst' a b : Buffer} {x y : Value}

/-- The number is the payload of a known value. -/
def Is (p : ℕ) (v : Value) : Prop := v.payload = p ∧ v.maskXz = 0

/-- A value in words. -/
structure Stores (n width : ℕ) (a : Buffer) (x : Value) : Prop where
  bounded : Bounded 64 n a
  payload : value 64 n a = x.payload
  known : x.maskXz = 0
  width_eq : x.width = width
  payload_lt : x.payload < 2 ^ width

theorem Stores.isXz (h : Stores n width a x) : x.isXz = false := by
  unfold Value.isXz
  rw [h.known]
  rfl

theorem Stores.cut (h : Stores n width a x) : value 64 n a < 2 ^ width := by
  rw [h.payload]
  exact h.payload_lt

theorem Writes.masked {v : Value} (h : Writes n dst dst' z) (hn : 8 * n < 2 ^ 16)
    (hpos : 0 < width) (hwidth : width < 2 ^ 16) (hfit : width ≤ 64 * n)
    (hpayload : (v.payload : ℤ) = z % 2 ^ width) (hknown : v.maskXz = 0) :
    Is (value 64 n (wideApplyMask dst' (packNbWidth (8 * n) width))) v := by
  refine ⟨?_, hknown⟩
  have hmask := (wideApplyMask_writes h.bounded hn hpos hwidth).holds
  have hdvd : (2 ^ width : ℤ) ∣ 2 ^ (64 * n) := pow_dvd_pow 2 hfit
  have hcast : ((value 64 n dst' % 2 ^ width : ℕ) : ℤ) = z % 2 ^ width := by
    push_cast
    rw [h.holds, Int.emod_emod_of_dvd _ hdvd]
  have hlt : value 64 n dst' % 2 ^ width < 2 ^ (64 * n) :=
    (mod_lt _ (Nat.two_pow_pos width)).trans_le (Nat.pow_le_pow_right (by norm_num) hfit)
  have hltInt : ((value 64 n dst' % 2 ^ width : ℕ) : ℤ) < 2 ^ (64 * n) := by exact_mod_cast hlt
  rw [Int.emod_eq_of_lt (by positivity) hltInt, hcast, ← hpayload] at hmask
  exact_mod_cast hmask.symm

section

variable (hx : x.isXz = false)

include hx

theorem add_payload (hy : y.isXz = false) (signed : Bool) : ((add x y width signed).payload : ℤ) =
      ((x.payload : ℤ) + y.payload) % 2 ^ width ∧
      (add x y width signed).maskXz = 0 := by
  unfold add
  rw [hx, hy]
  refine ⟨?_, rfl⟩
  rw [and_genMask]
  rfl

theorem sub_payload (hy : y.isXz = false) (hlt : y.payload < 2 ^ width) (signed : Bool) :
    ((sub x y width signed).payload : ℤ) = ((x.payload : ℤ) - y.payload) % 2 ^ width ∧
      (sub x y width signed).maskXz = 0 := by
  unfold sub
  rw [hx, hy]
  refine ⟨?_, rfl⟩
  show (((x.payload + (((y.payload ^^^ genMask width) + 1) &&& genMask width)) &&&
    genMask width : ℕ) : ℤ) = _
  have hneg := Reference.negate_modEq hlt
  rw [and_genMask, and_genMask]
  push_cast at hneg ⊢
  rw [Int.add_emod_emod, sub_eq_add_neg]
  exact hneg.add_left _

theorem mul_payload (hy : y.isXz = false) (signed : Bool) : ((mul x y width signed).payload : ℤ) =
      ((x.payload : ℤ) * y.payload) % 2 ^ width ∧
      (mul x y width signed).maskXz = 0 := by
  unfold mul
  rw [hx, hy]
  refine ⟨?_, rfl⟩
  rw [and_genMask]
  rfl

theorem negate_payload (hlt : x.payload < 2 ^ width) :
    ((negate x width).payload : ℤ) = -(x.payload : ℤ) % 2 ^ width ∧
      (negate x width).maskXz = 0 := by
  have hknown : x.maskXz = 0 := by simpa [Value.isXz] using hx
  unfold negate
  rw [hx]
  refine ⟨?_, hknown⟩
  have hneg := Reference.negate_modEq hlt
  rw [and_genMask]
  exact hneg

end

theorem shiftLeft_payload (hx : x.maskXz = 0) (amount : ℕ) (arithmetic : Bool) :
    ((ValueBigUint.shiftLeft x (some amount) width arithmetic).payload : ℤ) =
      (x.payload : ℤ) * 2 ^ amount % 2 ^ width ∧
      (ValueBigUint.shiftLeft x (some amount) width arithmetic).maskXz = 0 := by
  unfold ValueBigUint.shiftLeft
  dsimp only
  rw [hx, zero_shiftLeft, zero_and]
  refine ⟨?_, rfl⟩
  rw [and_genMask, Nat.shiftLeft_eq]
  by_cases hle : amount ≤ width
  · rw [Nat.min_eq_left hle]
    rfl
  · have hdvd : ∀ k, width ≤ k → x.payload * 2 ^ k % 2 ^ width = 0 := fun k hk =>
      mod_eq_zero_of_dvd (Dvd.dvd.mul_left (Nat.pow_dvd_pow 2 hk) _)
    have hout := hdvd amount (by omega)
    rw [hdvd _ (by omega)]
    exact_mod_cast hout.symm

theorem logicShiftR_payload (hx : x.maskXz = 0) (amount : ℕ) (hlt : x.payload < 2 ^ width) :
    ((logicShiftR x (some amount) width).payload : ℤ) = (x.payload / 2 ^ amount : ℕ) % 2 ^ width ∧
      (logicShiftR x (some amount) width).maskXz = 0 := by
  unfold logicShiftR
  dsimp only
  rw [hx, zero_shiftRight, shiftRight_eq_div_pow]
  refine ⟨?_, rfl⟩
  have hdiv : x.payload / 2 ^ amount < 2 ^ width := (Nat.div_le_self _ _).trans_lt hlt
  exact_mod_cast (mod_eq_of_lt hdiv).symm

theorem arithShiftR_payload (hx : x.maskXz = 0) (hwidth : x.width = width) (amount : ℕ)
    (hlt : x.payload < 2 ^ width) :
    ((arithShiftR x (some amount) width true).payload : ℤ) =
      signedPayload x.payload width / 2 ^ amount % 2 ^ width ∧
      (arithShiftR x (some amount) width true).maskXz = 0 := by
  unfold arithShiftR
  dsimp only
  rw [hx, hwidth, zero_shiftRight, zero_testBit, Bool.and_false, Bool.true_and,
    if_neg Bool.false_ne_true, shiftRight_eq_div_pow]
  have hdiv : x.payload / 2 ^ amount < 2 ^ width := (Nat.div_le_self _ _).trans_lt hlt
  refine ⟨?_, rfl⟩
  unfold signedPayload
  split
  · have hmask : genMask (width - amount) ^^^ genMask width < 2 ^ width :=
      xor_lt_two_pow ((genMask_lt _).trans_le (Nat.pow_le_pow_right (by omega) (by omega)))
        (genMask_lt width)
    rw [← Reference.arith_shift amount hlt]
    exact_mod_cast (mod_eq_of_lt (or_lt_two_pow hdiv hmask)).symm
  · rw [or_zero]
    exact_mod_cast (mod_eq_of_lt hdiv).symm

theorem order_signed (hx : Stores n width a x) (hy : Stores n width b y) (hpos : 0 < width) :
    order x y true = compare (signedPayload x.payload width) (signedPayload y.payload width) := by
  have hnormal : ∀ {v : Value} {c : Buffer}, Stores n width c v → v.Normalised := fun h =>
    ⟨h.width_eq ▸ hpos, h.width_eq ▸ h.payload_lt, by rw [h.known]; exact Nat.two_pow_pos _⟩
  unfold order
  rw [if_pos rfl, toBigint_eq (hnormal hx) hx.isXz,
    toBigint_eq (hnormal hy) hy.isXz, hx.width_eq, hy.width_eq]
  rfl

end Agreement

/-- The helpers that take no width compute on the numbers in the words. -/
structure OnWords (n : ℕ) (dst a b : Buffer) : Prop where
  add : Writes n dst (wideAdd dst a b (8 * n)) (value 64 n a + value 64 n b)
  sub : Writes n dst (wideSub dst a b (8 * n)) (value 64 n a - value 64 n b)
  mul : Writes n dst (wideMul dst a b (8 * n)) (value 64 n a * value 64 n b)
  negate : Writes n dst (wideNegate dst a (8 * n)) (-value 64 n a)
  shl : ∀ amount, Writes n dst (wideShl dst a amount (8 * n)) (value 64 n a * 2 ^ amount)
  lshr : ∀ amount, Writes n dst (wideLshr dst a amount (8 * n)) (value 64 n a / 2 ^ amount)
  ucmp : wideUcmp a b (8 * n) = answer (compare (value 64 n a) (value 64 n b))
  eq : wideEq a b (8 * n) = if value 64 n a = value 64 n b then 1 else 0
  ne : wideNe a b (8 * n) = if value 64 n a = value 64 n b then 0 else 1
  isNonzero : wideIsNonzero a (8 * n) = if value 64 n a = 0 then 0 else 1
  parity : widePopcntParity a (8 * n) = countOnes (value 64 n a) % 2

/-- A width of the words that can be packed with their number of bytes. -/
structure Packs (n width : ℕ) : Prop where
  bytes : 8 * n < 2 ^ 16
  pos : 0 < width
  width_lt : width < 2 ^ 16
  fit : width ≤ 64 * n

/-- The helpers that take a width, on an operand of that width; the operand is
signed where the helper is. -/
structure OnWidth (n width n' width' : ℕ) (dst a b c : Buffer) : Prop where
  mask : Writes n a (wideApplyMask a (packNbWidth (8 * n) width)) (value 64 n a % 2 ^ width)
  fill : Writes n dst (wideFillOnes dst (packNbWidth (8 * n) width)) (2 ^ width - 1)
  ashr : value 64 n a < 2 ^ width → ∀ amount,
    Writes n dst (wideAshr dst a amount (packNbWidth (8 * n) width))
      (signedPayload (value 64 n a) width / 2 ^ amount % 2 ^ width)
  scmp : value 64 n a < 2 ^ width → value 64 n b < 2 ^ width →
    wideScmp a b (packNbWidth (8 * n) width) =
      answer (compare (signedPayload (value 64 n a) width) (signedPayload (value 64 n b) width))
  scmpAsym : Packs n' width' → value 64 n a < 2 ^ width → value 64 n' c < 2 ^ width' →
    wideScmpAsym a c (packNbWidth (8 * n) width) (packNbWidth (8 * n') width') =
      answer (compare (signedPayload (value 64 n a) width) (signedPayload (value 64 n' c) width'))
  resize : value 64 n a < 2 ^ width → ∀ m, width ≤ 64 * m → ∀ signed : Bool,
    Writes m dst (wideResize dst a (packNbWidth (8 * n) width + signed.toNat * 2 ^ 32) (8 * m))
      (if signed then signedPayload (value 64 n a) width else value 64 n a)

/-- At the width, the helpers and the operators on big integers agree. -/
structure Agrees (n width : ℕ) (dst a b : Buffer) (x y : Value) : Prop where
  add : ∀ signed, Is (value 64 n (wideApplyMask (wideAdd dst a b (8 * n))
    (packNbWidth (8 * n) width))) (add x y width signed)
  sub : ∀ signed, Is (value 64 n (wideApplyMask (wideSub dst a b (8 * n))
    (packNbWidth (8 * n) width))) (sub x y width signed)
  mul : ∀ signed, Is (value 64 n (wideApplyMask (wideMul dst a b (8 * n))
    (packNbWidth (8 * n) width))) (mul x y width signed)
  negate : Is (value 64 n (wideApplyMask (wideNegate dst a (8 * n))
    (packNbWidth (8 * n) width))) (negate x width)
  shl : ∀ amount arithmetic, Is (value 64 n (wideApplyMask (wideShl dst a amount (8 * n))
    (packNbWidth (8 * n) width))) (ValueBigUint.shiftLeft x (some amount) width arithmetic)
  lshr : ∀ amount, Is (value 64 n (wideApplyMask (wideLshr dst a amount (8 * n))
    (packNbWidth (8 * n) width))) (logicShiftR x (some amount) width)
  ashr : ∀ amount, Is (value 64 n (wideApplyMask (wideAshr dst a amount (packNbWidth (8 * n) width))
    (packNbWidth (8 * n) width))) (arithShiftR x (some amount) width true)
  ucmp : wideUcmp a b (8 * n) = answer (order x y false)
  scmp : wideScmp a b (packNbWidth (8 * n) width) = answer (order x y true)
  parity : Is (widePopcntParity a (8 * n)) (ValueBigUint.reduceXor x false)

section Helpers

variable {n n' width width' : ℕ} {dst a b c : Buffer} {x y : Value}

theorem onWords (dst : Buffer) (ha : Bounded 64 n a) (hb : Bounded 64 n b) : OnWords n dst a b where
  add := wideAdd_writes ha hb
  sub := wideSub_writes ha hb
  mul := wideMul_writes ha hb
  negate := wideNegate_writes ha
  shl := wideShl_writes ha
  lshr amount := by exact_mod_cast wideLshr_writes ha amount
  ucmp := wideUcmp_eq ha hb
  eq := wideEq_eq ha hb
  ne := wideNe_eq ha hb
  isNonzero := wideIsNonzero_eq ha
  parity := widePopcntParity_eq ha

theorem onWidth (dst : Buffer) (ha : Bounded 64 n a) (hb : Bounded 64 n b) (hc : Bounded 64 n' c)
    (h : Packs n width) : OnWidth n width n' width' dst a b c where
  mask := by exact_mod_cast wideApplyMask_writes ha h.bytes h.pos h.width_lt
  fill := by
    have hone : 1 ≤ 2 ^ width := Nat.one_le_two_pow
    have hfill : Writes n dst (wideFillOnes dst (packNbWidth (8 * n) width)) (2 ^ width - 1 : ℕ) :=
      wideFillOnes_writes h.bytes h.width_lt
    rwa [cast_sub hone, cast_pow] at hfill
  ashr hcut amount := wideAshr_writes ha h.bytes h.pos h.width_lt h.fit hcut amount
  scmp hacut hbcut := wideScmp_eq ha hb h.bytes h.pos h.width_lt h.fit hacut hbcut
  scmpAsym h' hacut hccut := wideScmpAsym_eq ha hc h.bytes h'.bytes h.pos h'.pos h.width_lt
    h'.width_lt h.fit h'.fit hacut hccut
  resize hcut _ hroom signed := wideResize_writes signed ha h.bytes h.pos h.width_lt h.fit hroom hcut

theorem agrees (dst : Buffer) (h : Packs n width) (hx : Stores n width a x)
    (hy : Stores n width b y) : Agrees n width dst a b x y := by
  have hmask : ∀ {z : ℤ} {d : Buffer} {v : Value}, Writes n dst d z →
      (v.payload : ℤ) = z % 2 ^ width ∧ v.maskXz = 0 →
      Is (value 64 n (wideApplyMask d (packNbWidth (8 * n) width))) v := fun hd hv =>
    hd.masked h.bytes h.pos h.width_lt h.fit hv.1 hv.2
  have hwords := onWords dst hx.bounded hy.bounded
  have hashr : ∀ amount, Writes n dst (wideAshr dst a amount (packNbWidth (8 * n) width))
      (signedPayload (value 64 n a) width / 2 ^ amount % 2 ^ width) := fun amount =>
    wideAshr_writes hx.bounded h.bytes h.pos h.width_lt h.fit hx.cut amount
  have hscmp := wideScmp_eq hx.bounded hy.bounded h.bytes h.pos h.width_lt h.fit hx.cut hy.cut
  obtain ⟨hadd, hsub, hmul, hneg, hshl, hlshr, hucmp, -, -, -, hparity⟩ := hwords
  simp only [hx.payload, hy.payload] at hadd hsub hmul hneg hshl hlshr hashr hucmp hscmp hparity
  refine ⟨fun signed => hmask hadd (add_payload hx.isXz hy.isXz signed),
    fun signed => hmask hsub (sub_payload hx.isXz hy.isXz hy.payload_lt signed),
    fun signed => hmask hmul (mul_payload hx.isXz hy.isXz signed),
    hmask hneg (negate_payload hx.isXz hx.payload_lt),
    fun amount arithmetic => hmask (hshl amount) (shiftLeft_payload hx.known amount arithmetic),
    fun amount => hmask (hlshr amount) ?_, fun amount => hmask (hashr amount) ?_, ?_, ?_, ?_⟩
  · exact_mod_cast logicShiftR_payload hx.known amount hx.payload_lt
  · rw [Int.emod_emod_of_dvd _ dvd_rfl]
    exact arithShiftR_payload hx.known hx.width_eq amount hx.payload_lt
  · rw [hucmp]
    rfl
  · rw [hscmp, order_signed hx hy h.pos]
  · rw [hparity]
    refine ⟨?_, ?_⟩
    · unfold ValueBigUint.reduceXor
      rw [hx.isXz]
      rcases mod_two_eq_zero_or_one (countOnes x.payload) with h | h
      · rw [h]
        rfl
      · rw [h]
        rfl
    · unfold ValueBigUint.reduceXor
      rw [hx.isXz]
      rfl

end Helpers

/-- Every helper computes on integers, for every number of words and all operands,
and agrees with the operators on big integers, where the width can be packed. -/
theorem wideOps_exact (n n' : ℕ) (dst a b c : Buffer) (ha : Bounded 64 n a)
    (hb : Bounded 64 n b) (hc : Bounded 64 n' c) :
    OnWords n dst a b ∧ ∀ width, Packs n width → (∀ width', OnWidth n width n' width' dst a b c) ∧
      ∀ x y, Stores n width a x → Stores n width b y → Agrees n width dst a b x y :=
  ⟨onWords dst ha hb, fun _ h => ⟨fun _ => onWidth dst ha hb hc h, fun _ _ => agrees dst h⟩⟩

theorem wideOps_exact_words :
    OnWords 3 (fun _ => 0) (fun i => i) (fun _ => 2 ^ 64 - 1) ∧ Packs 3 130 ∧
      Agrees 3 130 (fun _ => 0) (fun i => if i = 0 then 5 else 0) (fun i => if i = 0 then 7 else 0)
        ⟨5, 0, 130, false⟩ ⟨7, 0, 130, false⟩ := by
  have hsmall : ∀ k < 2 ^ 64, Bounded 64 3 fun i => if i = 0 then k else 0 := fun k hk i _ => by
    show (if i = 0 then k else 0) < 2 ^ 64
    split
    · exact hk
    · norm_num
  have hpacks : Packs 3 130 := ⟨by norm_num, by norm_num, by norm_num, by norm_num⟩
  have hstores : ∀ k < 2 ^ 64, Stores 3 130 (fun i => if i = 0 then k else 0) ⟨k, 0, 130, false⟩ :=
    fun k hk => ⟨hsmall k hk, by simp [value], rfl, rfl, hk.trans (by norm_num)⟩
  have hwords : OnWords 3 (fun _ => 0) (fun i => i) (fun _ => 2 ^ 64 - 1) :=
    (wideOps_exact 3 0 (fun _ => 0) (fun i => i) (fun _ => 2 ^ 64 - 1) (fun _ => 0)
      (fun i hi => by show i < 2 ^ 64; omega) (fun _ _ => by norm_num)
      (fun _ _ => by norm_num)).1
  exact ⟨hwords, hpacks, ((wideOps_exact 3 0 (fun _ => 0) _ _ (fun _ => 0) (hsmall 5 (by norm_num))
    (hsmall 7 (by norm_num)) (fun _ _ => by norm_num)).2 130 hpacks).2 _ _
    (hstores 5 (by norm_num)) (hstores 7 (by norm_num))⟩

/-- A width that leaves no room beside the number of bytes is lost: nothing is filled. -/
theorem wideFillOnes_overflow :
    ¬Writes 1024 (fun _ => 0) (wideFillOnes (fun _ => 0) (packNbWidth (8 * 1024) 65536))
      (2 ^ 65536 - 1) := by
  intro h
  have hunpack : unpackNbWidth (packNbWidth (8 * 1024) 65536) = (8 * 1024, 0) := rfl
  have hzero : ∀ i < 1024, wideFillOnes (fun _ => 0) (packNbWidth (8 * 1024) 65536) i = 0 := by
    intro i _
    unfold wideFillOnes
    rw [hunpack]
    dsimp only
    rw [if_neg (by norm_num), if_neg (by norm_num), fill_apply, fill_apply]
    simp
  have hvalue := h.holds
  rw [value_zero hzero] at hvalue
  have hones : ∀ k : ℕ, (0 : ℤ) = (2 ^ (k + 1) - 1) % 2 ^ (k + 1) → False := fun k hk => by
    have hpow : (2 : ℤ) ≤ 2 ^ (k + 1) := by
      have hpos : (0 : ℤ) < 2 ^ k := by positivity
      rw [pow_succ]
      omega
    rw [Int.emod_eq_of_lt (by omega) (by omega)] at hk
    omega
  exact hones 65535 hvalue

end Veryl.Simulator.WideOps
