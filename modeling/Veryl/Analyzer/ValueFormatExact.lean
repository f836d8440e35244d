import Veryl.Analyzer.ValueFormat

/-!
What the printed digits read as. The words of a big integer are 21 octal digits and a bit long,
and the words after the first are printed two bits off.
-/

namespace Veryl.Analyzer

open Nat List Option

open Nat (digitChar)

def charDigit (c : Char) : Option ℕ :=
  if '0' ≤ c ∧ c ≤ '9' then some (c.toNat - '0'.toNat)
  else if 'a' ≤ c ∧ c ≤ 'z' then some (c.toNat - 'a'.toNat + 10)
  else if 'A' ≤ c ∧ c ≤ 'Z' then some (c.toNat - 'A'.toNat + 10)
  else none

/-- The number that the digits write, when all of them are digits of the base. -/
def readDigits (radix : ℕ) (text : List Char) : Option ℕ :=
  text.foldlM (fun n c => (charDigit c).bind fun d =>
    if d < radix then some (n * radix + d) else none) 0

variable {k : ℕ} {text : List Char} {v : StoredValue}

theorem charDigit_digitChar : ∀ d < 16, charDigit (digitChar d) = some d := by decide

theorem digitChar_not_mem : ∀ d < 16, digitChar d ∉ ['x', 'X', 'z', 'Z'] := by decide

theorem readDigits_eq {a : ℕ → ℕ}
    (h : ∀ j c, text.reverse[j]? = some c → charDigit c = some (a j) ∧ a j < 2 ^ k) :
    readDigits (2 ^ k) text = some (Limbs.value k text.length a) := by
  suffices hloop : ∀ n, text.foldlM (fun n c => (charDigit c).bind fun d =>
      if d < 2 ^ k then some (n * 2 ^ k + d) else none) n =
      some (2 ^ (k * text.length) * n + Limbs.value k text.length a) by
    rw [readDigits, hloop, Nat.mul_zero, Nat.zero_add]
  induction text with
  | nil => simp [Limbs.value]
  | cons c text ih =>
    intro n
    obtain ⟨hc, hlt⟩ := h text.length c (by simp)
    have hrest := ih fun j d hd => h j d (by
      rw [reverse_cons, getElem?_append_left (List.getElem?_eq_some_iff.1 hd).1, hd])
    rw [foldlM_cons, hc, bind_some, if_pos hlt, bind_eq_bind, bind_some,
      hrest, length_cons, Limbs.value_succ, mul_succ, Nat.pow_add]
    congr 1
    ring

theorem value_digitAt {n len : ℕ} (hk : 0 < k) (hn : n < 2 ^ (k * len)) :
    Limbs.value k len (digitAt k n) = n :=
  Limbs.value_eq_of_testBit hk (fun j _ => digitAt_lt k n j) hn fun i _ j hj => by
    rw [testBit_digitAt, decide_eq_true hj, Bool.true_and]

/-- As many digits as the width needs, which read as the payload of a known value; a digit is
unknown only when one of its own bits is. -/
structure Faithful (k : ℕ) (v : StoredValue) (text : List Char) : Prop where
  known : v.value.maskXz = 0 → text.length = (v.width + k - 1) / k ∧
    readDigits (2 ^ k) text = some v.value.payload
  unknown : ∀ j c, text.reverse[j]? = some c → c ∈ ['x', 'X', 'z', 'Z'] →
    ∃ b < k, v.value.maskXz.testBit (k * j + b)

theorem Shows.unknown {payload maskXz base : ℕ} {c : Char} (hk : k ≤ 4)
    (h : Shows k payload maskXz base c) :
    c ∈ ['x', 'X', 'z', 'Z'] ↔ ∃ b < k, maskXz.testBit (base + b) := by
  have hpow := Nat.pow_le_pow_right Nat.two_pos hk
  rcases h with ⟨⟨b, hb, hbit, -⟩, hc⟩ | ⟨-, hbit, hc⟩ | ⟨hbit, rfl⟩
  · exact iff_of_true (by simp at hc ⊢; tauto) ⟨b, hb, hbit⟩
  · exact iff_of_true (by simp at hc ⊢; tauto) hbit
  · refine iff_of_false (digitChar_not_mem _ ((mod_lt _ (Nat.two_pow_pos k)).trans_le hpow)) ?_
    rintro ⟨b, hb, h⟩
    rw [hbit b hb] at h
    cases h

theorem Shows.known {payload base : ℕ} {c : Char} (hk : k ≤ 4) (h : Shows k payload 0 base c) :
    charDigit c = some (payload >>> base % 2 ^ k) := by
  have hpow := Nat.pow_le_pow_right Nat.two_pos hk
  rcases h with ⟨⟨b, -, hbit, -⟩, -⟩ | ⟨-, ⟨b, -, hbit⟩, -⟩ | ⟨-, rfl⟩
  · simp at hbit
  · simp at hbit
  · exact charDigit_digitChar _ ((mod_lt _ (Nat.two_pow_pos k)).trans_le hpow)

theorem faithful_of_prints (hk : 0 < k) (hk' : k ≤ 4) (h : v.Sized)
    (htext : Prints ((v.width + k - 1) / k)
      (fun j => Shows k v.value.payload v.value.maskXz (k * j)) text) :
    Faithful k v text := by
  refine ⟨fun hknown => ⟨htext.length, ?_⟩, fun j c hc => ((htext.digit j c hc).unknown hk').1⟩
  have hle : v.width ≤ k * ((v.width + k - 1) / k) := by
    have := lt_mul_div_succ (v.width + k - 1) hk
    rw [mul_succ] at this
    omega
  rw [@readDigits_eq k text (digitAt k v.value.payload) fun j c hc =>
      ⟨(hknown ▸ htext.digit j c hc).known hk', digitAt_lt k _ j⟩, htext.length,
    value_digitAt hk (h.payload_lt.trans_le (Nat.pow_le_pow_right Nat.two_pos hle))]

theorem formatOct_faithful_iff (h : v.Sized) : Faithful 3 v v.formatOct ↔
    (v.value.maskXz = 0 → v.width ≤ 64 ∨
      v.width < 128 ∧ v.width % 3 = 1 ∧ v.value.payload < 2 ^ 64) ∧
    ∀ i, v.value.maskXz.testBit i →
      ∃ b < 3, v.value.maskXz.testBit (66 * (i / 64) + 3 * (i % 64 / 3) + b) := by
  have hprints := format_prints h (k := 3) (by decide) fun _ _ _ => genOctString_prints
  have hlen : v.formatOct.length = v.width / 64 * 22 + (v.width % 64 + 2) / 3 := hprints.length
  have hshows (j : ℕ) (c : Char) (hc : v.formatOct.reverse[j]? = some c) :
      Shows 3 (toU64Digit v.value.payload (j / 22)) (toU64Digit v.value.maskXz (j / 22))
        (3 * (j % 22)) c := by
    have := hprints.digit j c hc
    rwa [ShowsWords, Nat.zero_add] at this
  -- What a known value of at most two words reads as.
  have hread (hknown : v.value.maskXz = 0) (hlt : v.width < 128) : readDigits (2 ^ 3) v.formatOct =
        some (v.value.payload % 2 ^ 64 + 2 ^ 66 * (v.value.payload / 2 ^ 64)) := by
    rw [@readDigits_eq 3 v.formatOct
      (fun j => digitAt 3 (toU64Digit v.value.payload (j / 22)) (j % 22)) fun j c hc =>
        ⟨(@Shows.known 3 _ _ _ (by decide) (by
          have := hshows j c hc
          rwa [hknown, toU64Digit_eq 0, zero_shiftRight, zero_mod] at this)),
          digitAt_lt 3 _ _⟩, hlen]
    -- The digits of one word, wherever they stand.
    have hpart (i n m w : ℕ) (hi : toU64Digit v.value.payload i = n) (hw : w ≤ 64)
        (hn : n < 2 ^ w) (hm : m = (w + 2) / 3) : Limbs.value 3 m (fun j =>
          digitAt 3 (toU64Digit v.value.payload ((22 * i + j) / 22)) ((22 * i + j) % 22)) = n := by
      refine (Limbs.value_congr fun j hj => ?_).trans (value_digitAt (by decide)
        (hn.trans_le (Nat.pow_le_pow_right Nat.two_pos (show w ≤ 3 * m by omega))))
      rw [show (22 * i + j) / 22 = i by omega, show (22 * i + j) % 22 = j by omega, hi]
    have hp := h.payload_lt
    by_cases hlow : v.width < 64
    · have hp64 := hp.trans (Nat.pow_lt_pow_right Nat.one_lt_two hlow)
      have hfirst := hpart 0 v.value.payload ((v.width + 2) / 3) v.width
        ((toU64Digit_eq _ 0).trans (mod_eq_of_lt hp64)) hlow.le hp rfl
      simp only [Nat.mul_zero, Nat.zero_add] at hfirst
      rw [div_eq_of_lt hlow, mod_eq_of_lt hlow, mod_eq_of_lt hp64,
        div_eq_of_lt hp64, Nat.zero_mul, Nat.zero_add, hfirst]
      rfl
    · have hhigh : v.value.payload / 2 ^ 64 < 2 ^ (v.width - 64) := by
        refine Nat.div_lt_of_lt_mul ?_
        rwa [← Nat.pow_add, add_sub_of_le (Nat.le_of_not_lt hlow)]
      have hfirst := hpart 0 (v.value.payload % 2 ^ 64) 22 64 (toU64Digit_eq _ 0) le_rfl
        (mod_lt _ (by decide)) rfl
      have hsecond := hpart 1 (v.value.payload / 2 ^ 64) ((v.width % 64 + 2) / 3) (v.width - 64) (by
          rw [toU64Digit_eq, shiftRight_eq_div_pow]
          exact mod_eq_of_lt (hhigh.trans_le
            (Nat.pow_le_pow_right Nat.two_pos (show v.width - 64 ≤ 64 by omega))))
        (by omega) hhigh (by omega)
      simp only [Nat.mul_zero, Nat.zero_add, Nat.mul_one] at hfirst hsecond
      rw [show v.width / 64 * 22 = 22 by omega, Limbs.value_add, hfirst, hsecond]
  refine ⟨fun hlaw => ⟨fun hknown => ?_, fun i hi => ?_⟩, fun hcond => ⟨fun hknown => ?_, ?_⟩⟩
  · obtain ⟨hlength, htext⟩ := hlaw.known hknown
    by_cases hle : v.width ≤ 64
    · exact .inl hle
    · have hlt : v.width < 128 := by omega
      rw [hread hknown hlt, some.injEq] at htext
      exact .inr ⟨hlt, by omega, by omega⟩
  · have hiw : i < v.width := by
      by_contra hge
      have hzero := testBit_lt_two_pow (h.maskXz_lt.trans_le
        (Nat.pow_le_pow_right Nat.two_pos (Nat.le_of_not_lt hge)))
      rw [hi] at hzero
      cases hzero
    have hj : i / 64 * 22 + i % 64 / 3 < v.formatOct.reverse.length := by
      rw [length_reverse, hlen]
      omega
    have hc := getElem?_eq_getElem hj
    have hshow := hshows _ _ hc
    rw [show (i / 64 * 22 + i % 64 / 3) / 22 = i / 64 by omega,
      show (i / 64 * 22 + i % 64 / 3) % 22 = i % 64 / 3 by omega] at hshow
    have hbit : (toU64Digit v.value.maskXz (i / 64)).testBit (3 * (i % 64 / 3) + i % 64 % 3) := by
      rw [div_add_mod, toU64Digit_eq, testBit_mod_two_pow, testBit_shiftRight,
        div_add_mod, hi, Bool.and_true]
      exact decide_eq_true (mod_lt i (by decide))
    obtain ⟨b, hb, hown⟩ := hlaw.unknown _ _ hc ((hshow.unknown (by decide)).2
      ⟨_, mod_lt _ (by decide), hbit⟩)
    refine ⟨b, hb, ?_⟩
    rwa [show 3 * (i / 64 * 22 + i % 64 / 3) + b = 66 * (i / 64) + 3 * (i % 64 / 3) + b by omega]
      at hown
  · rcases hcond.1 hknown with hle | ⟨hlt, hmod, hsmall⟩
    · refine ⟨by omega, ?_⟩
      have hp := h.payload_lt.trans_le (Nat.pow_le_pow_right Nat.two_pos hle)
      rw [hread hknown (by omega), mod_eq_of_lt hp, div_eq_of_lt hp]
      rfl
    · refine ⟨by omega, ?_⟩
      rw [hread hknown hlt, mod_eq_of_lt hsmall, div_eq_of_lt hsmall]
      rfl
  · intro j c hc hmem
    obtain ⟨b, hb, hbit⟩ := ((hshows j c hc).unknown (by decide)).1 hmem
    rw [toU64Digit_eq, testBit_mod_two_pow, testBit_shiftRight] at hbit
    simp only [Bool.and_eq_true, decide_eq_true_eq] at hbit
    obtain ⟨b', hb', hown⟩ := hcond.2 _ hbit.2
    refine ⟨b', hb', ?_⟩
    rwa [show 66 * ((64 * (j / 22) + (3 * (j % 22) + b)) / 64) +
      3 * ((64 * (j / 22) + (3 * (j % 22) + b)) % 64 / 3) + b' = 3 * j + b' by omega] at hown

/-- Binary and hexadecimal digits are faithful, and octal ones exactly when no digit of a later
word is moved to bits that it does not have. -/
theorem format_faithful (h : v.Sized) : Faithful 1 v v.formatBin ∧ Faithful 4 v v.formatHex ∧
    (Faithful 3 v v.formatOct ↔ (v.value.maskXz = 0 → v.width ≤ 64 ∨
        v.width < 128 ∧ v.width % 3 = 1 ∧ v.value.payload < 2 ^ 64) ∧
      ∀ i, v.value.maskXz.testBit i →
        ∃ b < 3, v.value.maskXz.testBit (66 * (i / 64) + 3 * (i % 64 / 3) + b)) :=
  ⟨faithful_of_prints (by decide) (by decide) h
      (format_prints_whole h (by decide) (show 1 * 64 = 64 from rfl) fun _ _ _ =>
        genBinString_prints),
    faithful_of_prints (by decide) le_rfl h
      (format_prints_whole h (by decide) (show 4 * 16 = 64 from rfl) fun _ _ _ =>
        genHexString_prints),
    formatOct_faithful_iff h⟩

theorem format_faithful_nibble : Faithful 4 (.u64 ⟨5, 0, 4, false⟩)
    (StoredValue.formatHex (.u64 ⟨5, 0, 4, false⟩)) :=
  (@format_faithful (.u64 ⟨5, 0, 4, false⟩) ⟨rfl, by decide, by decide⟩).2.1

/-- 65 bits take 22 octal digits, and 23 are printed for `66'o2000000000000000000000`. -/
theorem not_formatOct_faithful : ¬Faithful 3 (.bigUint ⟨2 ^ 64, 0, 66, false⟩)
      (StoredValue.formatOct (.bigUint ⟨2 ^ 64, 0, 66, false⟩)) := by
  have hsized : (StoredValue.bigUint ⟨2 ^ 64, 0, 66, false⟩).Sized :=
    ⟨rfl, by decide, by decide⟩
  intro h
  rcases ((formatOct_faithful_iff hsized).1 h).1 rfl with hle | ⟨-, hmod, -⟩
  · exact absurd hle (by decide)
  · exact absurd hmod (by decide)

end Veryl.Analyzer
