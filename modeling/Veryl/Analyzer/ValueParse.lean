import Veryl.Analyzer.ValueFormatExact

/-!
Based literals: how a value is written with its width, its sign and its base, and how the text is
read.
-/

namespace Veryl.Analyzer

open List Option Nat Prod StoredValue

open Nat (digitChar)

variable {all1Char base : Char} {calcEmittedWidth : List Char → ℕ → Option ℕ}

/-- The literals without a width. -/
def fillLiteral (x : Value) : List Char :=
  if x.maskXz = 0 then if x.payload = 0 then ['\'', '0'] else ['\'', '1']
  else if x.payload = 0 then ['\'', 'x'] else ['\'', 'z']

/-- The width, the sign and the base in front of the digits. -/
def literal (base : Char) (x : Value) (digits : List Char) : List Char :=
  Nat.toDigits 10 x.width ++ '\'' :: ((if x.signed then ['s'] else []) ++ base :: digits)

def StoredValue.fmt (base : Char) (gen : ℕ → ℕ → ℕ → List Char) : StoredValue → List Char
  | .u64 x => if x.width = 0 then fillLiteral x else literal base x (gen x.payload x.maskXz x.width)
  | .bigUint x => literal base x (formatWords gen x.payload x.maskXz 0 x.width [])

def fmtBinary : StoredValue → List Char := fmt 'b' genBinString

def fmtLowerHex : StoredValue → List Char := fmt 'h' genHexString

/-- A number in digits; an empty text is no number. -/
def fromStrRadix (text : List Char) (radix : ℕ) : Option ℕ :=
  if text = [] then none else readDigits radix text

def parseUsize (text : List Char) : Option ℕ :=
  (fromStrRadix text 10).filter (· < 2 ^ 64)

/-- The radix of a base, the bits of a digit and the digit of which all bits are set. -/
def baseOf : Char → Option (ℕ × ℕ × Char)
  | 'b' => some (2, 1, '1')
  | 'o' => some (8, 3, '7')
  | 'd' => some (10, 0, '0')
  | 'h' => some (16, 4, 'f')
  | _ => none

/-- A leading unknown digit is repeated up to the declared width. -/
def msbExpand (lexicalWidth width mask : ℕ) : ℕ :=
  if mask.testBit (lexicalWidth - 1) then mask ||| (genMask width ^^^ genMask lexicalWidth)
  else mask

/-- The digits of a literal that declares a width, or none. `calcEmittedWidth` sizes a literal
without a width. -/
def parseDigits (calcEmittedWidth : List Char → ℕ → Option ℕ) (width : Option ℕ) (signed : Bool)
    (radix charLen : ℕ) (all1Char : Char) (value : List Char) : StoredValue × ℕ :=
  let lexicalWidth := value.length * charLen
  let payload := (fromStrRadix
    (value.map fun c => if c ∈ ['x', 'X', 'z', 'Z'] then '0' else c) radix).getD 0
  let maskX := (fromStrRadix
    (value.map fun c => if c ∈ ['x', 'X'] then all1Char else '0') radix).getD 0
  let maskZ := (fromStrRadix
    (value.map fun c => if c ∈ ['z', 'Z'] then all1Char else '0') radix).getD 0
  let actualWidth := max (max payload.size maskX.size) maskZ.size
  let expand (mask : ℕ) : ℕ := match width with
    | some x => if lexicalWidth < x ∧ lexicalWidth ≠ 0 then msbExpand lexicalWidth x mask else mask
    | none => mask
  let width := width.getD (((calcEmittedWidth value radix).map (max · actualWidth)).getD 1)
  let maskZ := expand maskZ
  let maskXz := expand maskX ||| maskZ
  let payload := (payload &&& (maskXz ^^^ genMask actualWidth)) ||| maskZ
  let payloadWidth := (payload &&& (maskXz ^^^ genMask actualWidth)).size
  let trunc (n : ℕ) : ℕ := if width < actualWidth then n &&& genMask width else n
  let ret : Value := ⟨trunc payload, trunc maskXz, width % 2 ^ 32, signed⟩
  (match toValueU64 ret with
    | some x => .u64 x
    | none => .bigUint ret, payloadWidth)

/-- The text of the width, and what follows it: the sign, the base and the digits. -/
def splitBased (s : List Char) : List Char × Bool × List Char :=
  let (width, rest) := (s.filter (· ≠ '_')).span (· ≠ '\'')
  match rest.tail with
  | 's' :: rest => (width, true, rest)
  | rest => (width, false, rest)

/-- `none` is a text without a base, where the source panics. -/
def parseBased (calcEmittedWidth : List Char → ℕ → Option ℕ) (s : List Char) :
    Option (StoredValue × ℕ) :=
  match splitBased s with
  | (_, _, []) => none
  | (width, signed, base :: value) => (baseOf base).map fun (radix, charLen, all1Char) =>
    parseDigits calcEmittedWidth (parseUsize width) signed radix charLen all1Char value

variable {k : ℕ} {v : StoredValue} {text : List Char}

theorem parseUsize_toDigits {n : ℕ} (hn : n < 2 ^ 64) :
    parseUsize (Nat.toDigits 10 n) = some n := by
  have hread : ∀ (text : List Char) (init : ℕ), (∀ c ∈ text, c.isDigit) →
      text.foldlM (fun n c => (charDigit c).bind fun d =>
        if d < 10 then some (n * 10 + d) else none) init = some (Nat.ofDigitChars 10 text init) := by
    intro text
    induction text with
    | nil => exact fun _ _ => rfl
    | cons c text ih =>
      intro init hdigits
      have hc := hdigits c (by simp)
      simp only [Char.isDigit, Bool.and_eq_true, decide_eq_true_eq] at hc
      have hc : '0' ≤ c ∧ c ≤ '9' := hc
      have hlt : c.toNat - '0'.toNat < 10 := by
        have := UInt32.le_iff_toNat_le.1 hc.2
        change c.toNat ≤ 57 at this
        change c.toNat - 48 < 10
        omega
      rw [foldlM_cons, charDigit, if_pos hc, bind_some, if_pos hlt,
        bind_eq_bind, bind_some, ih _ fun d hd => hdigits d (by simp [hd]),
        ofDigitChars_cons, Nat.mul_comm 10]
  rw [parseUsize, fromStrRadix, if_neg toDigits_ne_nil, readDigits,
    hread _ 0 fun c hc => isDigit_of_mem_toDigits (by decide) (by decide) hc,
    ofDigitChars_ten_toDigits, filter_some, if_pos (decide_eq_true hn)]

/-- Every unknown digit has all of its bits in one unknown state. -/
def Uniform (k : ℕ) (v : StoredValue) : Prop :=
  ∀ j, (∀ i < v.width, i / k = j → (v.bit i).2 = false) ∨
    (∀ i < v.width, i / k = j → v.bit i = (false, true)) ∨
    ∀ i < v.width, i / k = j → v.bit i = (true, true)

theorem uniform_one (v : StoredValue) : Uniform 1 v := by
  intro j
  have hcases : ∀ p : Bool × Bool, p.2 = false ∨ p = (false, true) ∨ p = (true, true) := by decide
  simp only [Nat.div_one]
  rcases hcases (v.bit j) with h | h | h
  · exact .inl fun i _ hi => hi ▸ h
  · exact .inr (.inl fun i _ hi => hi ▸ h)
  · exact .inr (.inr fun i _ hi => hi ▸ h)

theorem readDigits_map {f : Char → Char} {a : ℕ → ℕ}
    (h : ∀ j c, text.reverse[j]? = some c → charDigit (f c) = some (a j) ∧ a j < 2 ^ k) :
    readDigits (2 ^ k) (text.map f) = some (Limbs.value k text.length a) := by
  rw [← length_map f]
  refine readDigits_eq fun j c hc => ?_
  rw [← map_reverse, getElem?_map] at hc
  obtain ⟨d, hd, rfl⟩ := map_eq_some_iff.1 hc
  exact h j d hd

/-- A digit with an unknown bit, and one with an `x`. -/
def hasXz (k : ℕ) (v : StoredValue) (j : ℕ) : Bool :=
  decide (∃ b < k, v.value.maskXz.testBit (k * j + b))

def hasX (k : ℕ) (v : StoredValue) (j : ℕ) : Bool :=
  decide (∃ b < k, v.value.maskXz.testBit (k * j + b) ∧ v.value.payload.testBit (k * j + b) = false)

/-- The digits that the parser reads: those of the known bits, of `x` and of `z`. -/
def payloadDigit (k : ℕ) (v : StoredValue) (j : ℕ) : ℕ :=
  if hasXz k v j then 0 else digitAt k v.value.payload j

def fillDigit (k : ℕ) (fill : Bool) : ℕ := if fill then 2 ^ k - 1 else 0

theorem read_digit {c : Char} {j : ℕ} (hk : k ≤ 4) (hall : charDigit all1Char = some (2 ^ k - 1))
    (hc : Shows k v.value.payload v.value.maskXz (k * j) c) :
    charDigit (if c ∈ ['x', 'X', 'z', 'Z'] then '0' else c) = some (payloadDigit k v j) ∧
    charDigit (if c ∈ ['x', 'X'] then all1Char else '0') = some (fillDigit k (hasX k v j)) ∧
    charDigit (if c ∈ ['z', 'Z'] then all1Char else '0') =
      some (fillDigit k (hasXz k v j && !hasX k v j)) := by
  have hpow := Nat.pow_le_pow_right Nat.two_pos hk
  have hzero : charDigit '0' = some 0 := rfl
  rcases hc with ⟨⟨b, hb, hm, hp⟩, hc⟩ | ⟨hz, hm, hc⟩ | ⟨hm, rfl⟩
  · have hx : hasX k v j = true := decide_eq_true ⟨b, hb, hm, hp⟩
    have hxz : hasXz k v j = true := decide_eq_true ⟨b, hb, hm⟩
    rw [payloadDigit, hx, hxz]
    rcases mem_pair.1 hc with rfl | rfl <;> exact ⟨hzero, hall, hzero⟩
  · have hx : hasX k v j = false := decide_eq_false fun ⟨b, hb, hm, hp⟩ => by
      rw [hz b hb hm] at hp
      cases hp
    have hxz : hasXz k v j = true := decide_eq_true hm
    rw [payloadDigit, hx, hxz]
    rcases mem_pair.1 hc with rfl | rfl <;> exact ⟨hzero, hzero, hall⟩
  · have hxz : hasXz k v j = false := decide_eq_false fun ⟨b, hb, h⟩ => by
      rw [hm b hb] at h
      cases h
    have hx : hasX k v j = false := decide_eq_false fun ⟨b, hb, h, _⟩ => by
      rw [hm b hb] at h
      cases h
    have hlt := (digitAt_lt k v.value.payload j).trans_le hpow
    have hchar := digitChar_not_mem _ hlt
    rw [payloadDigit, hx, hxz]
    change (charDigit (if digitChar (digitAt k v.value.payload j) ∈ ['x', 'X', 'z', 'Z'] then '0'
      else digitChar (digitAt k v.value.payload j))) = some (digitAt k v.value.payload j) ∧
      (charDigit (if digitChar (digitAt k v.value.payload j) ∈ ['x', 'X'] then all1Char else '0')) =
        some 0 ∧
      (charDigit (if digitChar (digitAt k v.value.payload j) ∈ ['z', 'Z'] then all1Char else '0')) =
        some 0
    have hsub (cs : List Char) (hcs : cs ⊆ ['x', 'X', 'z', 'Z']) :
        digitChar (digitAt k v.value.payload j) ∉ cs := fun h => hchar (hcs h)
    rw [if_neg hchar, if_neg (hsub _ (by decide)), if_neg (hsub _ (by decide))]
    exact ⟨charDigit_digitChar _ hlt, hzero, hzero⟩

theorem fillDigit_lt (k : ℕ) (fill : Bool) : fillDigit k fill < 2 ^ k := by
  have := Nat.two_pow_pos k
  cases fill
  · exact this
  · exact sub_lt this Nat.one_pos

theorem payloadDigit_lt (k : ℕ) (v : StoredValue) (j : ℕ) : payloadDigit k v j < 2 ^ k := by
  unfold payloadDigit
  split
  · exact Nat.two_pow_pos k
  · exact digitAt_lt k _ j

theorem hasX_eq (hk : 0 < k) (h : v.Sized) (hu : Uniform k v) {i : ℕ} (hi : i < v.width) :
    hasX k v (i / k) = (v.value.maskXz.testBit i && !v.value.payload.testBit i) ∧
    hasXz k v (i / k) = v.value.maskXz.testBit i := by
  have hself : k * (i / k) + i % k = i := div_add_mod i k
  have hmod := mod_lt i hk
  have hdiv {b : ℕ} (hb : b < k) : (k * (i / k) + b) / k = i / k := by
    rw [mul_add_div hk, div_eq_of_lt hb, Nat.add_zero]
  have hin {b : ℕ} (hm : v.value.maskXz.testBit (k * (i / k) + b)) : k * (i / k) + b < v.width := by
    by_contra hge
    rw [testBit_lt_two_pow (h.maskXz_lt.trans_le
      (Nat.pow_le_pow_right Nat.two_pos (Nat.le_of_not_lt hge)))] at hm
    cases hm
  rcases hu (i / k) with hknown | hx | hz
  · have hm : v.value.maskXz.testBit i = false := hknown i hi rfl
    rw [hm]
    refine ⟨decide_eq_false fun ⟨b, hb, h, _⟩ => ?_, decide_eq_false fun ⟨b, hb, h⟩ => ?_⟩ <;>
    · have := hknown _ (hin h) (hdiv hb)
      change v.value.maskXz.testBit _ = false at this
      rw [h] at this
      cases this
  · have hbit := mk.inj (hx i hi rfl)
    rw [hbit.1, hbit.2]
    exact ⟨decide_eq_true ⟨i % k, hmod, by rw [hself]; exact hbit.2, by rw [hself]; exact hbit.1⟩,
      decide_eq_true ⟨i % k, hmod, by rw [hself]; exact hbit.2⟩⟩
  · have hbit := mk.inj (hz i hi rfl)
    rw [hbit.1, hbit.2]
    refine ⟨decide_eq_false fun ⟨b, hb, h, hp⟩ => ?_,
      decide_eq_true ⟨i % k, hmod, by rw [hself]; exact hbit.2⟩⟩
    have := (mk.inj (hz _ (hin h) (hdiv hb))).1
    rw [hp] at this
    cases this

/-- What the parser makes of the numbers that it reads. -/
theorem assemble {p m vp vx vz width actual : ℕ} (hvp : vp < 2 ^ actual) (hvx : vx < 2 ^ actual)
    (hvz : vz < 2 ^ actual) (hp : p < 2 ^ width) (hm : m < 2 ^ width)
    (hbits : ∀ i < width, vp.testBit i = (p.testBit i && !m.testBit i) ∧
      vx.testBit i = (m.testBit i && !p.testBit i) ∧ vz.testBit i = (m.testBit i && p.testBit i)) :
    (if width < actual then ((vp &&& ((vx ||| vz) ^^^ genMask actual)) ||| vz) &&& genMask width
      else (vp &&& ((vx ||| vz) ^^^ genMask actual)) ||| vz) = p ∧
    (if width < actual then (vx ||| vz) &&& genMask width else vx ||| vz) = m := by
  have hhigh {n i j : ℕ} (hn : n < 2 ^ j) (hi : j ≤ i) : n.testBit i = false :=
    testBit_lt_two_pow (hn.trans_le (Nat.pow_le_pow_right Nat.two_pos hi))
  constructor <;> refine eq_of_testBit_eq fun i => ?_ <;> by_cases hi : i < width
  · obtain ⟨h1, h2, h3⟩ := hbits i hi
    split <;> simp only [testBit_and, testBit_or, testBit_xor, testBit_genMask,
      decide_eq_true hi, Bool.and_true] <;> grind
  · split
    · rw [testBit_and, testBit_genMask, decide_eq_false hi, Bool.and_false,
        hhigh hp (Nat.le_of_not_lt hi)]
    · have hle : actual ≤ i := by omega
      rw [testBit_or, testBit_and, hhigh hvp hle, hhigh hvz hle, Bool.false_and,
        Bool.false_or, hhigh hp (Nat.le_of_not_lt hi)]
  · obtain ⟨h1, h2, h3⟩ := hbits i hi
    split <;> simp only [testBit_and, testBit_or, testBit_genMask, decide_eq_true hi,
      Bool.and_true] <;> grind
  · split
    · rw [testBit_and, testBit_genMask, decide_eq_false hi, Bool.and_false,
        hhigh hm (Nat.le_of_not_lt hi)]
    · have hle : actual ≤ i := by omega
      rw [testBit_or, hhigh hvx hle, hhigh hvz hle, Bool.false_or, hhigh hm (Nat.le_of_not_lt hi)]

theorem splitBased_literal {x : Value} {digits : List Char} (hs : base ≠ 's')
    (hbase : base ≠ '_') (hdigits : '_' ∉ digits) : splitBased (literal base x digits) =
      (Nat.toDigits 10 x.width, x.signed, base :: digits) := by
  have hclean : (literal base x digits).filter (· ≠ '_') = literal base x digits := by
    refine filter_eq_self.2 fun c hc => decide_eq_true ?_
    rintro rfl
    rcases mem_append.1 hc with h | h
    · exact underscore_not_in_toDigits h
    · cases hsigned : x.signed <;> simp [hsigned, hdigits, hbase.symm] at h
  have hquote : ∀ c ∈ Nat.toDigits 10 x.width, decide (c ≠ '\'') = true := by
    intro c hc
    refine decide_eq_true ?_
    rintro rfl
    exact absurd (isDigit_of_mem_toDigits (by decide) (by decide) hc) (by decide)
  have hspan : (literal base x digits).span (· ≠ '\'') = (Nat.toDigits 10 x.width,
      '\'' :: ((if x.signed then ['s'] else []) ++ base :: digits)) := by
    rw [span_eq_takeWhile_dropWhile, literal, takeWhile_append_of_pos hquote,
      dropWhile_append_of_pos hquote]
    simp
  unfold splitBased
  rw [hclean, hspan]
  dsimp only [tail_cons]
  cases x.signed with
  | true => rfl
  | false =>
    split
    · rename_i h
      exact absurd (List.cons.inj h).1 hs
    · rfl

theorem parseDigits_eq (hk : 0 < k)
    (hk' : k ≤ 4) (hall : charDigit all1Char = some (2 ^ k - 1)) (h : v.Sized)
    (hpos : 0 < v.width) (hwidth : v.width < 2 ^ 32) (hu : Uniform k v)
    (htext : Prints ((v.width + k - 1) / k)
      (fun j => Shows k v.value.payload v.value.maskXz (k * j)) text) :
    (parseDigits calcEmittedWidth (some v.width) v.signed (2 ^ k) k all1Char text).1 = v := by
  have hlen := htext.length
  have hle : v.width ≤ k * text.length := by
    have := lt_mul_div_succ (v.width + k - 1) hk
    rw [mul_succ, ← hlen] at this
    omega
  have hne (f : Char → Char) : text.map f ≠ [] := by
    rintro h
    rw [map_eq_nil_iff] at h
    rw [h, length_nil] at hle
    omega
  have hread (j : ℕ) (c : Char) (hc : text.reverse[j]? = some c) :=
    read_digit hk' hall (htext.digit j c hc)
  -- The three numbers that are read, and their bits.
  have hvp := readDigits_map fun j c hc => ⟨(hread j c hc).1, payloadDigit_lt k v j⟩
  have hvx := readDigits_map fun j c hc => ⟨(hread j c hc).2.1, fillDigit_lt k _⟩
  have hvz := readDigits_map fun j c hc => ⟨(hread j c hc).2.2, fillDigit_lt k _⟩
  have hfill (fill : ℕ → Bool) {i : ℕ} (hi : i < v.width) :
      (Limbs.value k text.length fun j => fillDigit k (fill j)).testBit i = fill (i / k) := by
    rw [Limbs.testBit_value fun j _ => fillDigit_lt k _, decide_eq_true (hi.trans_le hle),
      Bool.true_and]
    cases hfill : fill (i / k) with
    | false => exact zero_testBit _
    | true =>
      exact (testBit_two_pow_sub_one k _).trans (decide_eq_true (mod_lt i hk))
  have hbits : ∀ i < v.width, (Limbs.value k text.length (payloadDigit k v)).testBit i =
        (v.value.payload.testBit i && !v.value.maskXz.testBit i) ∧
      (Limbs.value k text.length fun j => fillDigit k (hasX k v j)).testBit i =
        (v.value.maskXz.testBit i && !v.value.payload.testBit i) ∧
      (Limbs.value k text.length fun j => fillDigit k (hasXz k v j && !hasX k v j)).testBit i =
        (v.value.maskXz.testBit i && v.value.payload.testBit i) := by
    intro i hi
    obtain ⟨hx, hxz⟩ := hasX_eq hk h hu hi
    refine ⟨?_, (hfill _ hi).trans hx, (hfill _ hi).trans ?_⟩
    · rw [Limbs.testBit_value fun j _ => payloadDigit_lt k v j,
        decide_eq_true (hi.trans_le hle), Bool.true_and, payloadDigit, hxz]
      cases hm : v.value.maskXz.testBit i with
      | true => rw [if_pos rfl, zero_testBit, Bool.not_true, Bool.and_false]
      | false =>
        rw [if_neg Bool.false_ne_true, testBit_digitAt, decide_eq_true (mod_lt i hk),
          div_add_mod, Bool.true_and, Bool.not_false, Bool.and_true]
    · rw [hx, hxz]
      cases v.value.maskXz.testBit i <;> cases v.value.payload.testBit i <;> rfl
  have hsize {n a : ℕ} (hn : n.size ≤ a) : n < 2 ^ a := size_le.1 hn
  obtain ⟨hpayload, hmask⟩ := assemble (hsize ((Nat.le_max_left _ _).trans (Nat.le_max_left _ _)))
    (hsize ((Nat.le_max_right _ _).trans (Nat.le_max_left _ _))) (hsize (Nat.le_max_right _ _))
    h.payload_lt h.maskXz_lt hbits
  have hlex : ¬(text.length * k < v.width ∧ text.length * k ≠ 0) := fun hlt =>
    Nat.not_lt.2 hle (Nat.mul_comm k _ ▸ hlt.1)
  unfold parseDigits
  simp only [fromStrRadix, if_neg (hne _), hvp, hvx, hvz, getD_some, if_neg hlex, hpayload,
    hmask, mod_eq_of_lt hwidth]
  have hstorage := h.storage
  cases v with
  | u64 x =>
    have hle : x.width ≤ 64 := of_decide_eq_true hstorage.symm
    have hpow := Nat.pow_le_pow_right Nat.two_pos hle
    have hfits : toValueU64 x = some x :=
      if_pos ⟨hle, h.payload_lt.trans_le hpow, h.maskXz_lt.trans_le hpow⟩
    exact congrArg (fun o : Option Value => match o with
      | some x => u64 x
      | none => .bigUint x) hfits
  | bigUint x =>
    have hlt : ¬x.width ≤ 64 := of_decide_eq_false hstorage.symm
    have hnone : toValueU64 x = none := if_neg fun h => hlt h.1
    exact congrArg (fun o : Option Value => match o with
      | some x => u64 x
      | none => .bigUint x) hnone

theorem underscore_not_mem (hk : k ≤ 4) {len payload maskXz : ℕ}
    (htext : Prints len (fun j => Shows k payload maskXz (k * j)) text) : '_' ∉ text := by
  intro hmem
  obtain ⟨j, hj⟩ := getElem?_of_mem (mem_reverse.2 hmem)
  have hpow := Nat.pow_le_pow_right Nat.two_pos hk
  have hdigit : ∀ d < 16, digitChar d ≠ '_' := by decide
  rcases htext.digit j _ hj with ⟨-, hc⟩ | ⟨-, -, hc⟩ | ⟨-, hc⟩
  · exact absurd hc (by decide)
  · exact absurd hc (by decide)
  · exact hdigit _ ((mod_lt _ (Nat.two_pow_pos k)).trans_le hpow) hc.symm

theorem parseBased_fmt {gen : ℕ → ℕ → ℕ → List Char} (hk : 0 < k) (hk' : k ≤ 4)
    (hbase : baseOf base = some (2 ^ k, k, all1Char)) (hs : base ≠ 's') (hunder : base ≠ '_')
    (hall : charDigit all1Char = some (2 ^ k - 1)) (h : v.Sized) (hpos : 0 < v.width)
    (hwidth : v.width < 2 ^ 32) (hu : Uniform k v)
    (htext : Prints ((v.width + k - 1) / k)
      (fun j => Shows k v.value.payload v.value.maskXz (k * j)) (v.format gen)) :
    (parseBased calcEmittedWidth (v.fmt base gen)).map Prod.fst = some v := by
  have hfmt : v.fmt base gen = literal base v.value (v.format gen) := by
    cases v with
    | u64 x => exact if_neg (Nat.pos_iff_ne_zero.1 hpos)
    | bigUint x => rfl
  have hparse := parseUsize_toDigits (hwidth.trans (by decide) : v.width < 2 ^ 64)
  rw [hfmt, parseBased, splitBased_literal hs hunder (underscore_not_mem hk' htext)]
  change ((baseOf base).map _).map _ = _
  rw [hbase, map_some, map_some]
  change some (parseDigits _ (parseUsize (Nat.toDigits 10 v.width)) v.signed _ _ _ _).1 = _
  rw [hparse, parseDigits_eq hk hk' hall h hpos hwidth hu htext]

/-- A value is the value of its binary rendering, and of its hexadecimal one when no digit of it
mixes bits of different kinds. -/
theorem parseBased_fmtBinary_fmtLowerHex (calcEmittedWidth : List Char → ℕ → Option ℕ)
    (h : v.Sized) (hpos : 0 < v.width) (hwidth : v.width < 2 ^ 32) :
    (parseBased calcEmittedWidth (fmtBinary v)).map Prod.fst = some v ∧
    (Uniform 4 v → (parseBased calcEmittedWidth (fmtLowerHex v)).map Prod.fst = some v) :=
  ⟨parseBased_fmt (by decide) (by decide) rfl (by decide) (by decide) rfl h hpos hwidth
      (uniform_one v) (format_prints_whole h (by decide) (show 1 * 64 = 64 from rfl)
        fun _ _ _ => genBinString_prints),
    fun hu => parseBased_fmt (by decide) le_rfl rfl (by decide) (by decide) rfl h hpos hwidth hu
      (format_prints_whole h (by decide) (show 4 * 16 = 64 from rfl)
        fun _ _ _ => genHexString_prints)⟩

theorem parseBased_fmtBinary_x : (parseBased (fun _ _ => none)
    (fmtBinary (.u64 ⟨5, 2, 3, true⟩))).map Prod.fst = some (.u64 ⟨5, 2, 3, true⟩) :=
  (parseBased_fmtBinary_fmtLowerHex _ ⟨rfl, by decide, by decide⟩ (by decide) (by decide)).1

end Veryl.Analyzer
