import Veryl.Analyzer.StoredValueConcat

/-!
Values in the vectors of the interface to SystemVerilog, and strings packed into values, a byte
in eight bits. A width field holds 32 bits.
-/

namespace Veryl.Analyzer

open List Nat

/-- The halves of 32 four-state bits: `bval` marks `x` and `z`, which differ in `aval`. -/
structure SvLogicVecVal where
  aval : ℕ
  bval : ℕ
  deriving DecidableEq

namespace SvLogicVecVal

def ofWords (payload maskXz : ℕ) : SvLogicVecVal := ⟨payload ^^^ maskXz, maskXz⟩

/-- The native loop shifts the words out. -/
def fromU64 : ℕ → ℕ → ℕ → List SvLogicVecVal
  | 0, _, _ => []
  | len + 1, payload, maskXz =>
    ofWords (payload &&& (2 ^ 32 - 1)) (maskXz &&& (2 ^ 32 - 1)) ::
      fromU64 len (payload >>> 32) (maskXz >>> 32)

def toU32Digits (n : ℕ) : List ℕ := Nat.digits (2 ^ 32) n

def fromBigUint (len payload maskXz : ℕ) : List SvLogicVecVal :=
  (List.range len).map fun i =>
    ofWords ((toU32Digits payload).getD i 0) ((toU32Digits maskXz).getD i 0)

def fromValue (value : StoredValue) : List SvLogicVecVal :=
  let len := if value.width % 32 = 0 then value.width / 32 else value.width / 32 + 1
  match value with
  | .u64 x => fromU64 len x.payload x.maskXz
  | .bigUint x => fromBigUint len x.payload x.maskXz

/-- The payload and the mask, the last element first; a native word loses what leaves it. -/
def collect (native : Bool) (value : List SvLogicVecVal) : ℕ × ℕ :=
  let shift (n : ℕ) : ℕ := if native then n <<< 32 % 2 ^ 64 else n <<< 32
  value.foldr (fun val acc => (shift acc.1 ||| (val.aval ^^^ val.bval), shift acc.2 ||| val.bval))
    (0, 0)

def toValue (value : List SvLogicVecVal) : StoredValue :=
  let width := value.length * 32 % 2 ^ 32
  if 64 < width then
    .bigUint ⟨(collect false value).1, (collect false value).2, width, false⟩
  else .u64 ⟨(collect true value).1, (collect true value).2, width, false⟩

variable {payload maskXz len : ℕ}

theorem length_fromU64 : (fromU64 len payload maskXz).length = len := by
  induction len generalizing payload maskXz with
  | zero => rfl
  | succ len ih => exact congrArg (· + 1) ih

theorem fromBigUint_eq : fromBigUint len payload maskXz = fromU64 len payload maskXz := by
  have hdigit (n i : ℕ) : (toU32Digits n).getD i 0 = n / (2 ^ 32) ^ i % 2 ^ 32 :=
    getD_digits n i (by decide)
  simp only [fromBigUint, hdigit]
  induction len generalizing payload maskXz with
  | zero => rfl
  | succ len ih =>
    rw [range_succ_eq_map, map_cons, map_map, fromU64, and_two_pow_sub_one_eq_mod,
      and_two_pow_sub_one_eq_mod, ← ih]
    simp [Function.comp_def, shiftRight_eq_div_pow, Nat.pow_succ', Nat.div_div_eq_div_mul]

theorem shift_or_word (n : ℕ) : ((n >>> 32) % 2 ^ (32 * len)) <<< 32 ||| n % 2 ^ 32 =
    n % 2 ^ (32 * (len + 1)) := by
  have hpow : 2 ^ (32 * (len + 1)) = 2 ^ 32 * 2 ^ (32 * len) := by
    rw [← Nat.pow_add, mul_succ, Nat.add_comm]
  rw [← shiftLeft_add_eq_or_of_lt (mod_lt n (by decide)), Nat.shiftLeft_eq,
    shiftRight_eq_div_pow, hpow, mod_mul, Nat.mul_comm, Nat.add_comm]

theorem collect_fromU64 (native : Bool) (h : native → len ≤ 2) :
    collect native (fromU64 len payload maskXz) =
      (payload % 2 ^ (32 * len), maskXz % 2 ^ (32 * len)) := by
  induction len generalizing payload maskXz with
  | zero => simp [fromU64, collect, mod_one]
  | succ len ih =>
    have hshift (n : ℕ) : (if native then (n % 2 ^ (32 * len)) <<< 32 % 2 ^ 64
        else (n % 2 ^ (32 * len)) <<< 32) = (n % 2 ^ (32 * len)) <<< 32 := by
      split
      · rename_i hnative
        have hlt : n % 2 ^ (32 * len) < 2 ^ (32 * 1) :=
          (mod_lt n (Nat.two_pow_pos _)).trans_le
            (Nat.pow_le_pow_right (by decide) (by have := h hnative; omega))
        omega
      · rfl
    have hrest := @ih (payload >>> 32) (maskXz >>> 32) fun hnative => by
      have := h hnative
      omega
    simp only [collect] at hrest
    simp only [fromU64, collect, foldr_cons, hrest, hshift, ofWords, Nat.xor_assoc,
      Nat.xor_self, xor_zero, and_two_pow_sub_one_eq_mod, shift_or_word]

theorem fromValue_eq (v : StoredValue) : fromValue v =
    fromU64 ((v.width + 31) / 32) v.value.payload v.value.maskXz := by
  have hlen : (if v.width % 32 = 0 then v.width / 32 else v.width / 32 + 1) =
      (v.width + 31) / 32 := by
    split <;> omega
  unfold fromValue
  rw [hlen]
  cases v with
  | u64 x => rfl
  | bigUint x => exact fromBigUint_eq

theorem toValue_fromValue {v : StoredValue} (h : v.Sized)
    (hwidth : (v.width + 31) / 32 * 32 < 2 ^ 32) :
    toValue (fromValue v) = (if v.width ≤ 64 then StoredValue.u64 else StoredValue.bigUint)
      ⟨v.value.payload, v.value.maskXz, (v.width + 31) / 32 * 32, false⟩ := by
  have hle : v.width ≤ 32 * ((v.width + 31) / 32) := by omega
  have hpow := Nat.pow_le_pow_right Nat.two_pos hle
  have hcollect (native : Bool) (hnative : native → (v.width + 31) / 32 ≤ 2) :=
    @collect_fromU64 v.value.payload v.value.maskXz _ native hnative
  rw [mod_eq_of_lt (h.payload_lt.trans_le hpow),
    mod_eq_of_lt (h.maskXz_lt.trans_le hpow)] at hcollect
  rw [fromValue_eq, toValue, length_fromU64, mod_eq_of_lt hwidth]
  split
  · rw [hcollect false nofun, if_neg (by omega)]
  · rw [hcollect true fun _ => by omega, if_pos (by omega)]

end SvLogicVecVal

/-- The bytes of a literal packed into a value, the first in the highest bits. -/
def stringToByteValue (bytes : List UInt8) : StoredValue :=
  let width := bytes.length * 8
  if width = 0 then .new 0 0 false
  else if bytes.length ≤ 8 then
    let payload := bytes.foldl (fun payload b => payload <<< 8 % 2 ^ 64 ||| b.toNat) 0
    .u64 ⟨payload, 0, width % 2 ^ 32, false⟩
  else
    let big := bytes.foldl (fun big b => big <<< 8 ||| b.toNat) 0
    .bigUint ⟨big, 0, width % 2 ^ 32, false⟩

/-- The last byte is taken first; both storages shift their payload out. -/
def byteValueBytes (payload : ℕ) : ℕ → List UInt8
  | 0 => []
  | numBytes + 1 => byteValueBytes (payload >>> 8) numBytes ++ [UInt8.ofNat (payload &&& 255)]

/-- `fromUtf8` is the decoder of the standard library. -/
def byteValueToString (fromUtf8 : List UInt8 → Option String) (value : StoredValue) :
    Option String :=
  if value.width = 0 then some ""
  else if value.width % 8 ≠ 0 then none
  else fromUtf8 (byteValueBytes value.value.payload (value.width / 8))

variable {bytes : List UInt8}

theorem shift_or_byte (n : ℕ) (b : UInt8) :
    (n <<< 8 ||| b.toNat) >>> 8 = n ∧ UInt8.ofNat ((n <<< 8 ||| b.toNat) &&& 255) = b := by
  have hb := b.toNat_lt
  rw [← shiftLeft_add_eq_or_of_lt hb, Nat.shiftLeft_eq, shiftRight_eq_div_pow]
  refine ⟨by omega, ?_⟩
  rw [show (255 : ℕ) = 2 ^ 8 - 1 from rfl, and_two_pow_sub_one_eq_mod,
    add_mod, mul_mod_left, Nat.zero_add, mod_mod, mod_eq_of_lt hb]
  exact UInt8.ofNat_toNat

theorem byteValueBytes_foldl :
    byteValueBytes (bytes.foldl (fun big b => big <<< 8 ||| b.toNat) 0) bytes.length = bytes := by
  induction bytes using List.reverseRecOn with
  | nil => rfl
  | append_singleton bytes b ih =>
    rw [foldl_concat, length_append, length_singleton, byteValueBytes,
      (shift_or_byte _ b).1, (shift_or_byte _ b).2, ih]

theorem foldl_native (h : bytes.length ≤ 8) :
    bytes.foldl (fun payload b => payload <<< 8 % 2 ^ 64 ||| b.toNat) 0 =
      bytes.foldl (fun big b => big <<< 8 ||| b.toNat) 0 ∧
    bytes.foldl (fun big b => big <<< 8 ||| b.toNat) 0 < 2 ^ (8 * bytes.length) := by
  induction bytes using List.reverseRecOn with
  | nil => exact ⟨rfl, Nat.one_pos⟩
  | append_singleton bytes b ih =>
    rw [length_append, length_singleton] at h
    obtain ⟨heq, hlt⟩ := ih (le_of_succ_le h)
    have hshift : bytes.foldl (fun big b => big <<< 8 ||| b.toNat) 0 <<< 8 <
        2 ^ (8 * (bytes.length + 1)) := by
      rw [Nat.shiftLeft_eq, mul_succ 8, Nat.pow_add]
      exact Nat.mul_lt_mul_of_pos_right hlt (by decide)
    have hword := Nat.pow_le_pow_right Nat.two_pos (show 8 * (bytes.length + 1) ≤ 64 by omega)
    rw [foldl_concat, foldl_concat, heq, mod_eq_of_lt (hshift.trans_le hword),
      length_append, length_singleton]
    have hb : b.toNat < 2 ^ (8 * (bytes.length + 1)) :=
      b.toNat_lt.trans_le (Nat.pow_le_pow_right Nat.two_pos (show 8 ≤ _ by omega))
    exact ⟨rfl, or_lt_two_pow hshift hb⟩

theorem stringToByteValue_eq (hwidth : bytes.length * 8 < 2 ^ 32) :
    (stringToByteValue bytes).width = bytes.length * 8 ∧
      byteValueBytes (stringToByteValue bytes).value.payload bytes.length = bytes := by
  unfold stringToByteValue
  dsimp only
  split
  · rename_i hzero
    obtain rfl : bytes = [] := length_eq_zero_iff.1 (by omega)
    exact ⟨rfl, rfl⟩
  · split
    · rename_i h
      refine ⟨mod_eq_of_lt hwidth, ?_⟩
      dsimp only [StoredValue.value]
      rw [(foldl_native h).1, byteValueBytes_foldl]
    · exact ⟨mod_eq_of_lt hwidth, byteValueBytes_foldl⟩

/-- What fits the width field is restored: a value from the vectors of the interface, and the
bytes of a string from its value. -/
theorem encodings_restore : (∀ v : StoredValue, v.Sized → (v.width + 31) / 32 * 32 < 2 ^ 32 →
      SvLogicVecVal.toValue (SvLogicVecVal.fromValue v) =
        (if v.width ≤ 64 then StoredValue.u64 else StoredValue.bigUint)
          ⟨v.value.payload, v.value.maskXz, (v.width + 31) / 32 * 32, false⟩) ∧
    ∀ bytes : List UInt8, bytes.length * 8 < 2 ^ 32 →
      byteValueBytes (stringToByteValue bytes).value.payload
        ((stringToByteValue bytes).width / 8) = bytes ∧
      ∀ fromUtf8, byteValueToString fromUtf8 (stringToByteValue bytes) =
        if bytes = [] then some "" else fromUtf8 bytes := by
  refine ⟨fun v h hwidth => SvLogicVecVal.toValue_fromValue h hwidth, fun bytes hwidth => ?_⟩
  obtain ⟨hw, hbytes⟩ := stringToByteValue_eq hwidth
  rw [hw, Nat.mul_div_cancel _ (by decide)]
  refine ⟨hbytes, fun fromUtf8 => ?_⟩
  unfold byteValueToString
  rw [hw, mul_mod_left, Nat.mul_div_cancel _ (by decide), hbytes]
  simp

theorem encodings_restore_word : SvLogicVecVal.toValue (SvLogicVecVal.fromValue
    (.u64 ⟨5, 4, 3, true⟩)) = .u64 ⟨5, 4, 32, false⟩ :=
  encodings_restore.1 (.u64 ⟨5, 4, 3, true⟩) ⟨rfl, by decide, by decide⟩ (by decide)

/-- The rounded width of the widest values does not fit the width field. -/
theorem toValue_fromValue_wide : ∃ v : StoredValue, v.Sized ∧ v.width < 2 ^ 32 ∧
    (SvLogicVecVal.toValue (SvLogicVecVal.fromValue v)).width = 0 ∧ 0 < v.width := by
  refine ⟨.bigUint ⟨0, 0, 2 ^ 32 - 1, false⟩, ⟨rfl, Nat.two_pow_pos _, Nat.two_pow_pos _⟩,
    by decide, ?_, by decide⟩
  rw [SvLogicVecVal.fromValue_eq, SvLogicVecVal.toValue, SvLogicVecVal.length_fromU64]
  rfl

end Veryl.Analyzer
