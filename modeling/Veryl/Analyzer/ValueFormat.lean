import Veryl.Analyzer.StoredValueConcat
import Veryl.Library.Limbs

/-!
Values in binary, octal and hexadecimal digits. A big integer is printed word by word, each
word in its own digits.
-/

namespace Veryl.Analyzer

open List Option

open Nat (digitChar)

variable {n : ℕ} {shows' : ℕ → Char → Prop} {v : StoredValue} {gen : ℕ → ℕ → ℕ → List Char}
  {shows : ℕ → Char → Prop}

/-- The digits of a word, zeros in front of them up to `len`. -/
def padded (base n len : ℕ) : List Char := (Nat.toDigits base n).leftpad len '0'

/-- A digit with unknown bits, in capitals when only some of its bits are. -/
def symbol (all first : Char) (leading : Bool) (payload maskX maskZ : Char) : Char :=
  if maskX ≠ '0' then if maskX = all ∨ (leading ∧ maskX = first) then 'x' else 'X'
  else if maskZ ≠ '0' then if maskZ = all ∨ (leading ∧ maskZ = first) then 'z' else 'Z'
  else payload

/-- The loop over the digits of one word, `k` bits each. -/
def genString (k : ℕ) (symbol : Bool → Char → Char → Char → Char)
    (payload maskXz width : ℕ) : List Char :=
  let len := (width + k - 1) / k
  let maskX := padded (2 ^ k) (maskXz &&& ValueU64.not payload) len
  let maskZ := padded (2 ^ k) (maskXz &&& payload) len
  let payload := padded (2 ^ k) payload len
  (List.range len).map fun i =>
    symbol (i = 0) (payload.getD i '0') (maskX.getD i '0') (maskZ.getD i '0')

/-- The digit of the bits that the leading digit has. -/
def firstFullBitChar (k width : ℕ) : Char :=
  digitChar (2 ^ (if width % k = 0 then k else width % k) - 1)

def genHexString (payload maskXz width : ℕ) : List Char :=
  genString 4 (symbol 'f' (firstFullBitChar 4 width)) payload maskXz width

def genOctString (payload maskXz width : ℕ) : List Char :=
  genString 3 (symbol '7' (firstFullBitChar 3 width)) payload maskXz width

def genBinString (payload maskXz width : ℕ) : List Char :=
  genString 1 (fun _ payload maskX maskZ =>
    if maskX ≠ '0' then 'x' else if maskZ ≠ '0' then 'z' else payload) payload maskXz width

/-- A digit of a big integer, `0` above the highest one. -/
def toU64Digit (n i : ℕ) : ℕ := (Nat.digits (2 ^ 64) n).getD i 0

/-- The loop over the words of a big integer, the lowest first. -/
def formatWords (gen : ℕ → ℕ → ℕ → List Char) (payload maskXz i remaining : ℕ)
    (ret : List Char) : List Char :=
  if remaining = 0 then ret
  else
    let width := if remaining < 64 then remaining else 64
    formatWords gen payload maskXz (i + 1) (remaining - width)
      (gen (toU64Digit payload i) (toU64Digit maskXz i) width ++ ret)
termination_by remaining
decreasing_by split <;> omega

namespace StoredValue

def format (gen : ℕ → ℕ → ℕ → List Char) : StoredValue → List Char
  | u64 x => gen x.payload x.maskXz x.width
  | bigUint x => formatWords gen x.payload x.maskXz 0 x.width []

def formatBin : StoredValue → List Char := format genBinString

def formatOct : StoredValue → List Char := format genOctString

def formatHex : StoredValue → List Char := format genHexString

end StoredValue

/-- The `j`th digit from the right. -/
def digitAt (k n j : ℕ) : ℕ := n >>> (k * j) % 2 ^ k

/-- A character for the digit whose lowest bit is at `base`. -/
def Shows (k payload maskXz base : ℕ) (c : Char) : Prop :=
  ((∃ b < k, maskXz.testBit (base + b) ∧ payload.testBit (base + b) = false) ∧ c ∈ ['x', 'X']) ∨
  ((∀ b < k, maskXz.testBit (base + b) → payload.testBit (base + b)) ∧
    (∃ b < k, maskXz.testBit (base + b)) ∧ c ∈ ['z', 'Z']) ∨
  ((∀ b < k, maskXz.testBit (base + b) = false) ∧ c = digitChar (payload >>> base % 2 ^ k))

variable {k payload maskXz width j : ℕ}

theorem digitAt_lt (k n j : ℕ) : digitAt k n j < 2 ^ k := Nat.mod_lt _ (Nat.two_pow_pos k)

theorem testBit_digitAt (k n j b : ℕ) :
    (digitAt k n j).testBit b = (decide (b < k) && n.testBit (k * j + b)) := by
  rw [digitAt, Nat.testBit_mod_two_pow, Nat.testBit_shiftRight]

theorem digitAt_eq_zero (k n j : ℕ) :
    digitAt k n j = 0 ↔ ∀ b < k, n.testBit (k * j + b) = false := by
  refine ⟨fun h b hb => ?_, fun h => Nat.eq_of_testBit_eq fun b => ?_⟩
  · have hbit := testBit_digitAt k n j b
    rwa [h, Nat.zero_testBit, decide_eq_true hb, Bool.true_and, eq_comm] at hbit
  · rw [testBit_digitAt, Nat.zero_testBit]
    by_cases hb : b < k
    · rw [h b hb, Bool.and_false]
    · rw [decide_eq_false hb, Bool.false_and]

theorem digitChar_eq_zero : ∀ d < 16, (digitChar d = '0' ↔ d = 0) := by decide

theorem padded_reverse (hk : 0 < k) {len : ℕ} (hn : n < 2 ^ (k * len)) (hlen : 0 < len) :
    (padded (2 ^ k) n len).reverse = (List.range len).map fun j => digitChar (digitAt k n j) := by
  have hbase : 1 < 2 ^ k := Nat.one_lt_two_pow hk.ne'
  induction len, hlen using Nat.le_induction generalizing n with
  | base =>
    rw [Nat.mul_one] at hn
    rw [padded, Nat.toDigits_of_lt_base hn]
    simp [digitAt, List.leftpad, Nat.mod_eq_of_lt hn]
  | succ len hlen ih =>
    have hstep : padded (2 ^ k) n (len + 1) =
        padded (2 ^ k) (n / 2 ^ k) len ++ [digitChar (n % 2 ^ k)] := by
      unfold padded List.leftpad
      rw [Nat.toDigits_eq_if hbase]
      split
      · rename_i hlt
        rw [Nat.div_eq_of_lt hlt, Nat.mod_eq_of_lt hlt, Nat.toDigits_zero]
        obtain ⟨m, rfl⟩ := Nat.exists_eq_add_of_lt hlen
        simp [replicate_succ']
      · simp
    have hdiv : n / 2 ^ k < 2 ^ (k * len) := by
      rw [Nat.div_lt_iff_lt_mul (Nat.two_pow_pos k), ← Nat.pow_add]
      rwa [Nat.mul_succ] at hn
    rw [hstep, reverse_append, ih hdiv, range_succ_eq_map, map_cons, List.map_map]
    refine congrArg₂ List.cons ?_ (map_congr_left fun j _ => congrArg digitChar ?_)
    · simp [digitAt]
    · rw [digitAt, digitAt, Nat.shiftRight_eq_div_pow, Nat.shiftRight_eq_div_pow,
        Nat.div_div_eq_div_mul, ← Nat.pow_add, Nat.mul_succ, Nat.add_comm k]

theorem padded_getD (hk : 0 < k) {len i : ℕ} (hn : n < 2 ^ (k * len)) (hi : i < len) :
    (padded (2 ^ k) n len).getD i '0' = digitChar (digitAt k n (len - 1 - i)) := by
  have hrev := padded_reverse hk hn (Nat.zero_lt_of_lt hi)
  have hlen : (padded (2 ^ k) n len).length = len := by
    rw [← length_reverse, hrev, length_map, length_range]
  have hget : (padded (2 ^ k) n len).reverse[len - 1 - i]? =
      some (digitChar (digitAt k n (len - 1 - i))) := by
    rw [hrev, getElem?_map, getElem?_range (by omega), map_some]
  rw [getElem?_reverse (by omega), hlen, show len - 1 - (len - 1 - i) = i by omega] at hget
  rw [getD_eq_getElem?_getD, hget, getD_some]

/-- What the generators have in common: how they choose the character of a digit. -/
def Chooses (k : ℕ) (symbol : Bool → Char → Char → Char → Char) : Prop :=
  ∀ leading, ∀ p < 2 ^ k, ∀ x < 2 ^ k, ∀ z < 2 ^ k,
    (x ≠ 0 → symbol leading (digitChar p) (digitChar x) (digitChar z) ∈ ['x', 'X']) ∧
    (x = 0 → z ≠ 0 → symbol leading (digitChar p) (digitChar x) (digitChar z) ∈ ['z', 'Z']) ∧
    (x = 0 → z = 0 → symbol leading (digitChar p) (digitChar x) (digitChar z) = digitChar p)

theorem symbol_chooses (hk : k ≤ 4) (all first : Char) : Chooses k (symbol all first) := by
  intro leading p hp x hx z hz
  have hpow := Nat.pow_le_pow_right Nat.two_pos hk
  have hx0 := digitChar_eq_zero x (hx.trans_le hpow)
  have hz0 := digitChar_eq_zero z (hz.trans_le hpow)
  unfold symbol
  refine ⟨fun h => ?_, fun h h' => ?_, fun h h' => ?_⟩
  · rw [if_pos (mt hx0.1 h)]
    split <;> simp
  · rw [if_neg (not_not.2 (hx0.2 h)), if_pos (mt hz0.1 h')]
    split <;> simp
  · rw [if_neg (not_not.2 (hx0.2 h)), if_neg (not_not.2 (hz0.2 h'))]

/-- A text of so many digits, with what is said of each of them, counted from the right. -/
structure Prints (len : ℕ) (shows : ℕ → Char → Prop) (text : List Char) : Prop where
  length : text.length = len
  digit : ∀ j c, text.reverse[j]? = some c → shows j c

theorem genString_prints {symbol : Bool → Char → Char → Char → Char} (hk : 0 < k)
    (hsymbol : Chooses k symbol) (hwidth : width ≤ 64) (hp : payload < 2 ^ width)
    (hm : maskXz < 2 ^ width) :
    Prints ((width + k - 1) / k) (fun j => Shows k payload maskXz (k * j))
      (genString k symbol payload maskXz width) := by
  have hle : width ≤ k * ((width + k - 1) / k) := by
    have := Nat.lt_mul_div_succ (width + k - 1) hk
    rw [Nat.mul_succ] at this
    omega
  have hpow := Nat.pow_le_pow_right Nat.two_pos hle
  have hx : maskXz &&& ValueU64.not payload < 2 ^ (k * ((width + k - 1) / k)) :=
    Nat.and_le_left.trans_lt (hm.trans_le hpow)
  have hz : maskXz &&& payload < 2 ^ (k * ((width + k - 1) / k)) :=
    Nat.and_le_left.trans_lt (hm.trans_le hpow)
  refine ⟨by simp [genString], fun j c hc => ?_⟩
  have hj := (List.getElem?_eq_some_iff.1 hc).1
  simp only [genString, length_reverse, length_map, length_range] at hj hc
  rw [getElem?_reverse (by simpa using hj), length_map, length_range,
    getElem?_map, getElem?_range (by omega), map_some, some.injEq,
    padded_getD hk (hp.trans_le hpow) (by omega), padded_getD hk hx (by omega),
    padded_getD hk hz (by omega),
    show (width + k - 1) / k - 1 - ((width + k - 1) / k - 1 - j) = j by omega] at hc
  subst hc
  obtain ⟨hx, hz, hp⟩ := hsymbol _ _ (digitAt_lt k payload j) _
    (digitAt_lt k (maskXz &&& ValueU64.not payload) j) _ (digitAt_lt k (maskXz &&& payload) j)
  -- A word has no bits past 64, where the complement has none either.
  have hnot (i : ℕ) : (maskXz &&& ValueU64.not payload).testBit i =
      (maskXz.testBit i && !payload.testBit i) := by
    rw [Nat.testBit_and, ValueU64.not, Nat.testBit_xor, Nat.testBit_two_pow_sub_one]
    by_cases hi : i < 64
    · rw [decide_eq_true hi, Bool.true_xor]
    · rw [Nat.testBit_lt_two_pow (hm.trans_le (Nat.pow_le_pow_right Nat.two_pos (by omega))),
        Bool.false_and, Bool.false_and]
  by_cases hx0 : digitAt k (maskXz &&& ValueU64.not payload) j = 0
  · have hbits := (digitAt_eq_zero _ _ _).1 hx0
    by_cases hz0 : digitAt k (maskXz &&& payload) j = 0
    · have hbits' := (digitAt_eq_zero _ _ _).1 hz0
      refine .inr (.inr ⟨fun b hb => ?_, hp hx0 hz0⟩)
      grind
    · have hbits' := mt (digitAt_eq_zero _ _ _).2 hz0
      refine .inr (.inl ⟨fun b hb h => ?_, by grind, hz hx0 hz0⟩)
      have h' := hbits b hb
      rw [hnot, h] at h'
      simpa using h'
  · have hbits := mt (digitAt_eq_zero _ _ _).2 hx0
    exact .inl ⟨by grind, hx hx0⟩

theorem toU64Digit_eq (n i : ℕ) : toU64Digit n i = n >>> (64 * i) % 2 ^ 64 := by
  rw [toU64Digit, Nat.getD_digits _ _ (by decide), Nat.shiftRight_eq_div_pow, Nat.pow_mul]

theorem toU64Digit_lt (n i : ℕ) : toU64Digit n i < 2 ^ 64 :=
  toU64Digit_eq n i ▸ Nat.mod_lt _ (by decide)

theorem Prints.append {m : ℕ} {low high : List Char}
    (hlow : Prints m shows low) (hhigh : Prints n shows' high) :
    Prints (m + n) (fun j c => if j < m then shows j c else shows' (j - m) c) (high ++ low) := by
  refine ⟨by rw [length_append, hlow.length, hhigh.length, Nat.add_comm], fun j c hc => ?_⟩
  rw [reverse_append, getElem?_append, length_reverse, hlow.length] at hc
  split at hc
  · rename_i hj
    exact (if_pos hj).mpr (hlow.digit j c hc)
  · rename_i hj
    exact (if_neg hj).mpr (hhigh.digit _ c hc)

theorem Prints.mono {text : List Char}
    (h : Prints n shows text) (hshows : ∀ j < n, ∀ c, shows j c → shows' j c) :
    Prints n shows' text :=
  ⟨h.length, fun j c hc => hshows j
    (h.length ▸ length_reverse ▸ (List.getElem?_eq_some_iff.1 hc).1) c (h.digit j c hc)⟩

/-- What is printed at each position, word by word. -/
def ShowsWords (k payload maskXz i j : ℕ) : Char → Prop :=
  let perWord := (64 + k - 1) / k
  Shows k (toU64Digit payload (i + j / perWord)) (toU64Digit maskXz (i + j / perWord))
    (k * (j % perWord))

theorem formatWords_prints {gen : ℕ → ℕ → ℕ → List Char} (hk : 0 < k)
    (hgen : ∀ payload maskXz width, width ≤ 64 → payload < 2 ^ width → maskXz < 2 ^ width →
      Prints ((width + k - 1) / k) (fun j => Shows k payload maskXz (k * j))
        (gen payload maskXz width)) {i remaining : ℕ} (ret : List Char)
    (hp : payload >>> (64 * i) < 2 ^ remaining) (hm : maskXz >>> (64 * i) < 2 ^ remaining) :
    ∃ text, formatWords gen payload maskXz i remaining ret = text ++ ret ∧
      Prints (remaining / 64 * ((64 + k - 1) / k) + (remaining % 64 + k - 1) / k)
        (ShowsWords k payload maskXz i) text := by
  have hper : 0 < (64 + k - 1) / k := Nat.div_pos (by omega) hk
  induction remaining using Nat.strong_induction_on generalizing i ret with
  | _ remaining ih =>
    unfold formatWords
    split
    · rename_i hzero
      subst hzero
      refine ⟨[], rfl, ?_, nofun⟩
      rw [Nat.zero_div, Nat.zero_mul, Nat.zero_mod, Nat.div_eq_of_lt (show 0 + k - 1 < k by omega)]
      rfl
    · dsimp only
      split
      · rename_i hlt
        refine ⟨_, by rw [Nat.sub_self, formatWords, if_pos rfl], ?_⟩
        have hlt64 := Nat.pow_lt_pow_right Nat.one_lt_two hlt
        have hword (n : ℕ) (hn : n >>> (64 * i) < 2 ^ remaining) :
            toU64Digit n i < 2 ^ remaining := by
          rwa [toU64Digit_eq, Nat.mod_eq_of_lt (hn.trans hlt64)]
        have hprints := hgen _ _ remaining hlt.le (hword payload hp) (hword maskXz hm)
        rw [Nat.div_eq_of_lt hlt, Nat.zero_mul, Nat.zero_add, Nat.mod_eq_of_lt hlt]
        refine hprints.mono fun j hj c hc => ?_
        have hj' : j < (64 + k - 1) / k := hj.trans_le (Nat.div_le_div_right (by omega))
        rwa [ShowsWords, Nat.div_eq_of_lt hj', Nat.mod_eq_of_lt hj']
      · rename_i hge
        have hshift (n : ℕ) (hn : n >>> (64 * i) < 2 ^ remaining) :
            n >>> (64 * (i + 1)) < 2 ^ (remaining - 64) := by
          rw [Nat.mul_succ, Nat.shiftRight_add, Nat.shiftRight_eq_div_pow _ 64]
          refine Nat.div_lt_of_lt_mul ?_
          rwa [← Nat.pow_add, Nat.add_sub_of_le (by omega)]
        obtain ⟨high, heq, hhigh⟩ := ih (remaining - 64) (by omega) (_ ++ ret)
          (hshift payload hp) (hshift maskXz hm)
        refine ⟨_, by rw [heq, ← append_assoc], ?_⟩
        have hlow := hgen _ _ 64 le_rfl (toU64Digit_lt payload i) (toU64Digit_lt maskXz i)
        have hlen : (64 + k - 1) / k + ((remaining - 64) / 64 * ((64 + k - 1) / k) +
            ((remaining - 64) % 64 + k - 1) / k) =
            remaining / 64 * ((64 + k - 1) / k) + (remaining % 64 + k - 1) / k := by
          rw [show remaining / 64 = (remaining - 64) / 64 + 1 by omega,
            show remaining % 64 = (remaining - 64) % 64 by omega, Nat.succ_mul]
          omega
        rw [← hlen]
        refine (hlow.append hhigh).mono fun j _ c hc => ?_
        split at hc
        · rename_i hj
          rwa [ShowsWords, Nat.div_eq_of_lt hj, Nat.mod_eq_of_lt hj]
        · rename_i hj
          have hj' := Nat.le_of_not_lt hj
          rw [ShowsWords, Nat.add_right_comm, Nat.add_assoc, ← Nat.div_eq_sub_div hper hj',
            ← Nat.mod_eq_sub_mod hj'] at hc
          exact hc

theorem format_prints (h : v.Sized) (hk : 0 < k)
    (hgen : ∀ payload maskXz width, width ≤ 64 → payload < 2 ^ width → maskXz < 2 ^ width →
      Prints ((width + k - 1) / k) (fun j => Shows k payload maskXz (k * j))
        (gen payload maskXz width)) :
    Prints (v.width / 64 * ((64 + k - 1) / k) + (v.width % 64 + k - 1) / k)
      (ShowsWords k v.value.payload v.value.maskXz 0) (v.format gen) := by
  have hp := h.payload_lt
  have hm := h.maskXz_lt
  obtain ⟨text, heq, htext⟩ := @formatWords_prints k _ _ gen hk hgen 0 v.width [] hp hm
  cases v with
  | bigUint x =>
    rw [append_nil] at heq
    exact (show StoredValue.format gen (.bigUint x) = text from heq) ▸ htext
  | u64 x =>
    -- The value is its own first word.
    have hle : x.width ≤ 64 := of_decide_eq_true h.storage.symm
    have hword (n : ℕ) (hn : n < 2 ^ x.width) : toU64Digit n 0 = n := by
      rw [toU64Digit_eq, Nat.mul_zero, Nat.shiftRight_zero]
      exact Nat.mod_eq_of_lt (hn.trans_le (Nat.pow_le_pow_right Nat.two_pos hle))
    have hprints := hgen x.payload x.maskXz x.width hle hp hm
    have hlen : x.width / 64 * ((64 + k - 1) / k) + (x.width % 64 + k - 1) / k =
        (x.width + k - 1) / k := by
      rcases hle.lt_or_eq with hlt | heq
      · rw [Nat.div_eq_of_lt hlt, Nat.zero_mul, Nat.zero_add, Nat.mod_eq_of_lt hlt]
      · rw [heq, Nat.div_self (by decide), Nat.one_mul, Nat.mod_self,
          Nat.div_eq_of_lt (show 0 + k - 1 < k by omega), Nat.add_zero]
    change Prints (x.width / 64 * _ + (x.width % 64 + k - 1) / k) _ _
    rw [hlen]
    refine hprints.mono fun j hj c hc => ?_
    have hj' : j < (64 + k - 1) / k := hj.trans_le (Nat.div_le_div_right (by omega))
    rw [ShowsWords, Nat.div_eq_of_lt hj', Nat.mod_eq_of_lt hj']
    exact (hword _ hp).symm ▸ (hword _ hm).symm ▸ hc

theorem Shows.of_testBit {payload' maskXz' base base' : ℕ} {c : Char}
    (h : Shows k payload maskXz base c)
    (hp : ∀ b < k, payload.testBit (base + b) = payload'.testBit (base' + b))
    (hm : ∀ b < k, maskXz.testBit (base + b) = maskXz'.testBit (base' + b)) :
    Shows k payload' maskXz' base' c := by
  have hdigit : payload >>> base % 2 ^ k = payload' >>> base' % 2 ^ k := by
    refine Nat.eq_of_testBit_eq fun b => ?_
    rw [Nat.testBit_mod_two_pow, Nat.testBit_mod_two_pow, Nat.testBit_shiftRight,
      Nat.testBit_shiftRight]
    by_cases hb : b < k
    · rw [hp b hb]
    · rw [decide_eq_false hb, Bool.false_and, Bool.false_and]
  unfold Shows at h ⊢
  grind

theorem format_prints_whole (h : v.Sized) {perWord : ℕ} (hk : 0 < k) (hper : k * perWord = 64)
    (hgen : ∀ payload maskXz width, width ≤ 64 → payload < 2 ^ width → maskXz < 2 ^ width →
      Prints ((width + k - 1) / k) (fun j => Shows k payload maskXz (k * j))
        (gen payload maskXz width)) :
    Prints ((v.width + k - 1) / k)
      (fun j => Shows k v.value.payload v.value.maskXz (k * j)) (v.format gen) := by
  have hdiv : (64 + k - 1) / k = perWord := by
    rw [← hper, Nat.add_sub_assoc hk, Nat.mul_add_div hk, Nat.div_eq_of_lt (by omega), Nat.add_zero]
  have hlen : v.width / 64 * perWord + (v.width % 64 + k - 1) / k = (v.width + k - 1) / k := by
    have hsplit : v.width + k - 1 = k * (v.width / 64 * perWord) + (v.width % 64 + k - 1) := by
      rw [Nat.mul_left_comm, hper]
      omega
    rw [hsplit, Nat.mul_add_div hk]
  have hprints := format_prints h hk hgen
  rw [hdiv, hlen] at hprints
  refine hprints.mono fun j _ c hc => ?_
  rw [ShowsWords, hdiv, Nat.zero_add] at hc
  have hbit (n b : ℕ) (hb : b < k) : (toU64Digit n (j / perWord)).testBit (k * (j % perWord) + b) =
      n.testBit (k * j + b) := by
    have hpos : 0 < perWord := Nat.pos_of_ne_zero fun h => by
      rw [h] at hper
      omega
    have hin : k * (j % perWord + 1) ≤ 64 := hper ▸ Nat.mul_le_mul_left k (Nat.mod_lt j hpos)
    have hj : k * j = 64 * (j / perWord) + k * (j % perWord) := by
      rw [← hper, Nat.mul_assoc, ← Nat.mul_add, Nat.div_add_mod]
    rw [Nat.mul_succ] at hin
    rw [toU64Digit_eq, Nat.testBit_mod_two_pow, Nat.testBit_shiftRight, hj,
      decide_eq_true (by omega), Bool.true_and, Nat.add_assoc]
  exact hc.of_testBit (hbit _) (hbit _)

theorem genHexString_prints (hwidth : width ≤ 64) (hp : payload < 2 ^ width)
    (hm : maskXz < 2 ^ width) : Prints ((width + 4 - 1) / 4)
      (fun j => Shows 4 payload maskXz (4 * j)) (genHexString payload maskXz width) :=
  genString_prints (by decide) (symbol_chooses le_rfl _ _) hwidth hp hm

theorem genOctString_prints (hwidth : width ≤ 64) (hp : payload < 2 ^ width)
    (hm : maskXz < 2 ^ width) : Prints ((width + 3 - 1) / 3)
      (fun j => Shows 3 payload maskXz (3 * j)) (genOctString payload maskXz width) :=
  genString_prints (by decide) (symbol_chooses (by decide) _ _) hwidth hp hm

theorem genBinString_prints (hwidth : width ≤ 64) (hp : payload < 2 ^ width)
    (hm : maskXz < 2 ^ width) : Prints ((width + 1 - 1) / 1)
      (fun j => Shows 1 payload maskXz (1 * j)) (genBinString payload maskXz width) := by
  refine genString_prints (by decide) (fun leading p hp x hx z hz => ?_) hwidth hp hm
  interval_cases x <;> interval_cases z <;> simp [digitChar]

end Veryl.Analyzer
