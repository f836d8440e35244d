import Veryl.Simulator.Opt.LutCompress
import Veryl.Simulator.Footprint

/-!
The lookup gives what the chain gives. A condition of a chain tests the masked selector for
a constant; the table is baked from the same tests, made on numbers, so the lookup and the
chain agree unless a constant has a bit that the mask takes from the selector.
-/

namespace Veryl.Simulator.LutCompress

open Veryl.Analyzer List Nat ProtoExpression ValueU64
open ProtoExpression (binaryOperandSigned concatRepeat evalElements evalSelect readSlot readWidth)

variable {e sel : ProtoExpression} {a b k : ℕ} {r : Value} {c : LutCond}

variable {words : List ℕ} {n p wx wy kw : ℕ} {wild : Bool} {op : Op} {P : ProtoExpression → Prop}
  {leaves : List ProtoExpression} {w : ℕ} {entry : ProtoExpression} {arms : List LutArm} {ew : ℕ}
  {chain : LutChain} {s default : ℕ}

section Bake

variable {ew : ℕ} {entry : ℕ → ℕ}

/-- Entry `i` of a word. -/
def field (ew w i : ℕ) : ℕ := (w >>> (i * ew)) % 2 ^ ew

theorem field_zero (ew i : ℕ) : field ew 0 i = 0 := by
  rw [field, zero_shiftRight, zero_mod]

theorem field_or_of_ne {e : ℕ} (he : e < 2 ^ ew) (hab : a ≠ b) :
    field ew (w ||| e <<< (b * ew)) a = field ew w a := by
  apply eq_of_testBit_eq
  intro i
  simp only [field, testBit_mod_two_pow, testBit_shiftRight, testBit_or, testBit_shiftLeft]
  by_cases hi : i < ew
  · have hout : (decide (a * ew + i ≥ b * ew) && e.testBit (a * ew + i - b * ew)) = false := by
      rcases lt_or_gt_of_ne hab with hlt | hgt
      · have : (a + 1) * ew ≤ b * ew := Nat.mul_le_mul_right ew hlt
        rw [Nat.add_mul, Nat.one_mul] at this
        rw [decide_eq_false (by omega), Bool.false_and]
      · have : (b + 1) * ew ≤ a * ew := Nat.mul_le_mul_right ew hgt
        rw [Nat.add_mul, Nat.one_mul] at this
        have hbig : e < 2 ^ (a * ew + i - b * ew) :=
          he.trans_le (Nat.pow_le_pow_right Nat.two_pos (by omega))
        rw [testBit_lt_two_pow hbig, Bool.and_false]
    rw [hout, Bool.or_false]
  · rw [decide_eq_false hi, Bool.false_and, Bool.false_and]

theorem field_or_self {e : ℕ} (he : e < 2 ^ ew) (hw : field ew w a = 0) :
    field ew (w ||| e <<< (a * ew)) a = e := by
  have hbits : ((w ||| e <<< (a * ew)) >>> (a * ew)) = (w >>> (a * ew)) ||| e := by
    rw [shiftRight_or_distrib, shiftLeft_shiftRight]
  rw [field, hbits, or_mod_two_pow, mod_eq_of_lt he]
  rw [field] at hw
  rw [hw, zero_or]

/-- The entries baked so far are in place, and the rest of the table is zero. -/
def Baked (ew : ℕ) (entry : ℕ → ℕ) (t : ℕ) (words : List ℕ) : Prop :=
  ∀ s, s / (64 / ew) < words.length →
    field ew (words.getD (s / (64 / ew)) 0) (s % (64 / ew)) = if s < t then entry s else 0

theorem Baked.step {t : ℕ} (h : Baked ew entry t words)
    (hentry : entry t < 2 ^ ew) : Baked ew entry (t + 1) (tableStep ew entry words t) := by
  have hmask : entry t &&& (2 ^ ew - 1) = entry t := by
    rw [and_two_pow_sub_one_eq_mod, mod_eq_of_lt hentry]
  intro s hs
  rw [tableStep, hmask] at hs ⊢
  rw [length_modify] at hs
  have hget : (words.modify (t / (64 / ew))
      fun w => w ||| entry t <<< (t % (64 / ew) * ew)).getD (s / (64 / ew)) 0 =
      if t / (64 / ew) = s / (64 / ew) then
        words.getD (s / (64 / ew)) 0 ||| entry t <<< (t % (64 / ew) * ew)
      else words.getD (s / (64 / ew)) 0 := by
    rw [getD_eq_getElem?_getD, getD_eq_getElem?_getD, getElem?_modify, getElem?_eq_getElem hs]
    split_ifs <;> rfl
  rw [hget]
  have hold := h s hs
  by_cases hst : s = t
  · subst hst
    rw [if_neg (Nat.lt_irrefl s)] at hold
    rw [if_pos rfl, if_pos (lt_succ_self s), field_or_self hentry hold]
  · have hlt : s < t + 1 ↔ s < t := by omega
    rw [if_congr hlt rfl rfl, ← hold]
    split_ifs with hword
    · refine field_or_of_ne hentry fun hmod => hst ?_
      rw [← div_add_mod s (64 / ew), ← div_add_mod t (64 / ew), hword, hmod]
    · rfl

theorem length_bakeTable (ew n : ℕ) (entry : ℕ → ℕ) :
    (bakeTable ew n entry).length = (n + 64 / ew - 1) / (64 / ew) := by
  have hfold : ∀ l words : List ℕ, (l.foldl (tableStep ew entry) words).length = words.length := by
    intro l
    induction l with
    | nil => exact fun words => rfl
    | cons t l ih =>
      intro words
      rw [foldl_cons, ih, tableStep, length_modify]
  rw [bakeTable, hfold, length_replicate]

theorem div_lt_length_bakeTable (hperWord : 0 < 64 / ew) (hs : s < n) :
    s / (64 / ew) < (bakeTable ew n entry).length := by
  rw [length_bakeTable]
  calc s / (64 / ew) < s / (64 / ew) + 1 := lt_succ_self _
    _ = (s + 64 / ew) / (64 / ew) := (add_div_right s hperWord).symm
    _ ≤ (n + 64 / ew - 1) / (64 / ew) := Nat.div_le_div_right (by omega)

theorem field_bakeTable (hperWord : 0 < 64 / ew) (hentry : ∀ t < n, entry t < 2 ^ ew) (hs : s < n) :
    field ew ((bakeTable ew n entry).getD (s / (64 / ew)) 0) (s % (64 / ew)) = entry s := by
  have hbaked : ∀ t ≤ n, Baked ew entry t ((List.range t).foldl (tableStep ew entry)
      (replicate ((n + 64 / ew - 1) / (64 / ew)) 0)) := by
    intro t
    induction t with
    | zero =>
      intro _ s hs
      rw [range_zero, foldl_nil, getD_replicate _ (by simpa using hs), field_zero,
        if_neg (Nat.not_lt_zero s)]
    | succ t ih =>
      intro ht
      rw [range_succ, foldl_append, foldl_cons, foldl_nil]
      exact (ih (by omega)).step (hentry t ht)
  have h := hbaked n le_rfl s
  rw [← bakeTable, if_pos hs] at h
  exact h (div_lt_length_bakeTable hperWord hs)

end Bake
section Operators

/-- The values held in native words. -/
def native (w : ℕ) : Bool := decide (w ≤ 64)

/-- Two-state evaluation with the operators of the analyzer. -/
structure TwoState (env : Env) : Prop where
  use4state : env.use4state = false
  binary : ∀ op x y w s r, Op.evalValueBinary native op x y w s = some r →
    env.evalValueBinary op x y w s = r

variable {x y : Value} {w : ℕ}

theorem allOnes_and (hp : p < 2 ^ 64) : p &&& (2 ^ 64 - 1) = p := by
  rw [and_two_pow_sub_one_eq_mod, mod_eq_of_lt hp]

theorem not_zero : ValueU64.not 0 = 2 ^ 64 - 1 := by
  rw [ValueU64.not, Nat.xor_zero]

theorem expand_unsigned (hx : 0 < x.width) {s : Bool} (hs : (x.signed && s) = false) :
    (Op.expand native x w s).payload = x.payload ∧ (Op.expand native x w s).maskXz = x.maskXz ∧
      (Op.expand native x w s).width = max x.width w := by
  rw [Op.expand]
  split_ifs with hle hzero hw
  · exact ⟨rfl, rfl, (max_eq_left hle.1).symm⟩
  · omega
  · have hlt : ¬ w ≤ x.width := fun h => hle ⟨h, hx.ne'⟩
    rw [expand, if_neg hlt]
    simp only [hs, Bool.false_and, Bool.false_eq_true, if_false, true_and]
    exact (max_eq_right (by omega)).symm
  · have hlt : ¬ w ≤ x.width := fun h => hle ⟨h, hx.ne'⟩
    rw [ValueBigUint.expand]
    simp only [hs, Bool.false_and, Bool.false_eq_true, if_false, true_and]
    exact (max_eq_right (by omega)).symm

/-- The payload of an operand at a given width. -/
def cut (x : Value) (w : ℕ) : ℕ := if w < x.width then x.payload % 2 ^ w else x.payload

theorem genMask_eq_of_le (hw : w ≤ 64) : ValueU64.genMask w = 2 ^ w - 1 := by
  rw [ValueU64.genMask]
  split_ifs with h
  · rw [le_antisymm hw h]
  · rfl

theorem resize_known (hx : 0 < x.width) (hx64 : x.width ≤ 64) (hw : w ≤ 64)
    (hknown : x.maskXz = 0) {signed : Bool} (hs : (x.signed && signed) = false) :
    (Op.resize native x w signed).payload = cut x w ∧ (Op.resize native x w signed).maskXz = 0 ∧
      (Op.resize native x w signed).width = w := by
  rw [Op.resize, cut]
  split_ifs with hlt hn
  · rw [trunc, genMask_eq_of_le hw, and_two_pow_sub_one_eq_mod, hknown, zero_and]
    exact ⟨rfl, rfl, rfl⟩
  · simp [native, hx64, hw] at hn
  · obtain ⟨hp, hm, hwidth⟩ := expand_unsigned (w := w) hx hs
    rw [hp, hm, hwidth]
    exact ⟨rfl, hknown, max_eq_right (not_lt.1 hlt)⟩

theorem evalAnd_known (hx : 0 < x.width) (hx64 : x.width ≤ 64) (hxk : x.maskXz = 0)
    (hy : 0 < y.width) (hy64 : y.width ≤ 64) (hyk : y.maskXz = 0) (hw : w ≤ 64) {s : Bool}
    (hxs : (x.signed && s) = false) (hys : (y.signed && s) = false)
    (hbound : cut x w < 2 ^ 64) :
    Op.evalValueBinary native .bitAnd x y w s = some (.new (cut x w &&& cut y w) w false) := by
  obtain ⟨hpx, hmx, hwx⟩ := resize_known hx hx64 hw hxk hxs
  obtain ⟨hpy, hmy, hwy⟩ := resize_known hy hy64 hw hyk hys
  have hn : native w = true := decide_eq_true hw
  have hlt : cut x w &&& cut y w < 2 ^ 64 := lt_of_le_of_lt and_le_left hbound
  simp only [Op.evalValueBinary, Op.arms, hwx, hwy, hn, if_true, bitAnd, hpx, hpy, hmx,
    hmy, zero_and, or_zero, and_zero, not_zero, allOnes_and hlt, Value.new]

theorem hasKnownOne_known (h : x.maskXz = 0) : x.hasKnownOne = true ↔ x.payload ≠ 0 := by
  rw [Value.hasKnownOne, h, and_zero, Nat.xor_zero, decide_eq_true_iff]

theorem evalEqual_known (hx : 0 < x.width) (hx64 : x.width ≤ 64) (hxk : x.maskXz = 0)
    (hy : 0 < y.width) (hy64 : y.width ≤ 64) (hys : y.signed = false) (hyk : y.maskXz < 2 ^ 64)
    (hwild : wild = false → y.maskXz = 0) :
    ∃ r, Op.evalEqual native x y w wild false = some r ∧
      (r.hasKnownOne = true ↔ (x.payload ^^^ y.payload) &&& ValueU64.not y.maskXz = 0) := by
  have hflag : (x.signed && y.signed) = false := by rw [hys, Bool.and_false]
  obtain ⟨hpx, hmx, hwx⟩ := expand_unsigned (w := max x.width y.width)
    (s := x.signed && y.signed) hx (by rw [hflag, Bool.and_false])
  obtain ⟨hpy, hmy, hwy⟩ := expand_unsigned (w := max x.width y.width)
    (s := x.signed && y.signed) hy (by rw [hflag, Bool.and_false])
  have hn : ∀ {v : ℕ}, v ≤ 64 → native v = true := fun h => decide_eq_true h
  have hunknown : y.maskXz &&& (if wild then ValueU64.not y.maskXz else 2 ^ 64 - 1) = 0 := by
    cases wild with
    | true =>
      apply eq_of_testBit_eq
      intro i
      rw [if_pos rfl, testBit_and, ValueU64.not, testBit_xor, testBit_two_pow_sub_one, zero_testBit]
      by_cases hi : i < 64
      · simp [hi]
      · rw [testBit_lt_two_pow (hyk.trans_le (Nat.pow_le_pow_right Nat.two_pos (by omega))),
          Bool.false_and]
    | false => rw [hwild rfl, zero_and]
  have hnot : ValueU64.not y.maskXz < 2 ^ 64 :=
    xor_lt_two_pow (by decide) hyk
  have hmask : (if wild then ValueU64.not y.maskXz else 2 ^ 64 - 1) &&& ValueU64.not 0 &&&
      ValueU64.not y.maskXz = ValueU64.not y.maskXz := by
    cases wild with
    | true => rw [if_pos rfl, not_zero, allOnes_and hnot, Nat.and_self]
    | false =>
      rw [if_neg Bool.false_ne_true, not_zero, Nat.and_self, Nat.and_comm, allOnes_and hnot]
  refine ⟨Op.expand native (if (x.payload ^^^ y.payload) &&& ValueU64.not y.maskXz ≠ 0 then
    .new 0 1 false else .new 1 1 false) w false, ?_, ?_⟩
  · simp only [Op.evalEqual, Op.arms, hwx, hwy, hn (max_le hx64 hy64), if_true,
      max_eq_right (le_max_left x.width y.width), max_eq_right (le_max_right x.width y.width),
      Option.map_some, equal, hpx, hpy, hmx, hmy, hxk, hmask, zero_or, hunknown,
      Bool.false_eq_true, if_false, newBit0x, ne_eq, not_true_eq_false, decide_false,
      decide_eq_true_eq]
    rfl
  · obtain ⟨hp, hm, -⟩ := expand_unsigned (w := w) (s := false)
      (x := if (x.payload ^^^ y.payload) &&& ValueU64.not y.maskXz ≠ 0 then
        Value.new 0 1 false else .new 1 1 false) (by split_ifs <;> exact Nat.one_pos)
      (Bool.and_false _)
    rw [hasKnownOne_known (by rw [hm]; split_ifs <;> rfl), hp]
    split_ifs with h
    · exact iff_of_false (by simp [Value.new]) h
    · exact iff_of_true (by simp [Value.new]) (not_not.1 h)

theorem expand_new (hx : 0 < wx) (hw : w ≤ 64) :
    Op.expand native (.new p wx false) w false = .new p (max wx w) false := by
  rw [Op.expand]
  split_ifs with hle hzero hn
  · rw [max_eq_left (show w ≤ wx from hle.1)]
  · exact absurd hzero hx.ne'
  · have hlt : ¬ w ≤ wx := fun h => hle ⟨h, hx.ne'⟩
    rw [expand, if_neg (by simpa [Value.new] using hlt), max_eq_right (by omega)]
    rfl
  · exact absurd (decide_eq_true hw) hn

theorem toUsizeSaturating_new (ha : a < 64) :
    (Value.new a wy false).toUsizeSaturating = some a := by
  exact congrArg some (min_eq_left (by simp only [Value.new]; omega))

theorem evalShiftR_new (hx : 0 < wx) (hx64 : wx ≤ 64) (hw : w ≤ wx) (ha : a < 64) :
    Op.evalValueBinary native .logicShiftR (.new p wx false) (.new a wy false) w false =
      some (.new (p >>> a) wx false) := by
  have hn : native wx = true := decide_eq_true hx64
  have hshift : ValueU64.shiftRight (.new p wx false) (some a) w false false =
      .new (p >>> a) wx false := by
    simp only [ValueU64.shiftRight, Value.new, Bool.false_and, Bool.false_eq_true, if_false,
      or_zero, min_eq_left ha.le, zero_shiftRight]
  simp only [Op.evalValueBinary, toUsizeSaturating_new ha, Op.arm, expand_new hx (hw.trans hx64),
    max_eq_left hw]
  rw [if_pos (show native (Value.new p wx false).width = true from hn), hshift,
    expand_new hx (hw.trans hx64), max_eq_left hw]

theorem evalShiftL_new (hx : 0 < wx) (hw : wx ≤ w) (hw64 : w ≤ 64) (ha : a < 64)
    (hfits : p <<< a < 2 ^ w) :
    Op.evalValueBinary native .logicShiftL (.new p wx false) (.new a wy false) w false =
      some (.new (p <<< a) w false) := by
  have hn : native w = true := decide_eq_true hw64
  have hword : p <<< a < 2 ^ 64 := hfits.trans_le (Nat.pow_le_pow_right Nat.two_pos hw64)
  have hshift : ValueU64.shiftLeft (.new p w false) (some a) w false = .new (p <<< a) w false := by
    simp only [ValueU64.shiftLeft, Value.new, Bool.false_eq_true, if_false, min_eq_left ha.le,
      genMask_eq_of_le hw64, and_two_pow_sub_one_eq_mod, mod_eq_of_lt hword,
      mod_eq_of_lt hfits, zero_shiftLeft, zero_mod]
  simp only [Op.evalValueBinary, toUsizeSaturating_new ha, Op.arm, expand_new hx hw64,
    max_eq_right hw]
  rw [if_pos (show native (Value.new p w false).width = true from hn), hshift,
    expand_new (hx.trans_le hw) hw64, max_self]

theorem evalGe_new (hx : 0 < wx) (hx64 : wx ≤ 64) :
    ∃ r, Op.evalValueBinary native .greaterEq (.new a wx false) (.new b wx false) 1 false = some r ∧
      (r.hasKnownOne = true ↔ b ≤ a) := by
  have hn : native wx = true := decide_eq_true hx64
  have hcompare : ValueU64.compare (.new a wx false) (.new b wx false) false true true =
      if b ≤ a then .new 1 1 false else .new 0 1 false := by
    simp only [ValueU64.compare, Value.new, Value.isXz, newBitX1, Bool.false_eq_true,
      if_false, if_true, ne_eq, not_true_eq_false, decide_false, Bool.or_false, Bool.true_and]
    rcases lt_trichotomy a b with h | h | h
    · rw [Nat.compare_eq_lt.2 h, if_neg (not_le.2 h)]
      rfl
    · rw [Nat.compare_eq_eq.2 h, if_pos h.ge]
      rfl
    · rw [Nat.compare_eq_gt.2 h, if_pos h.le]
      rfl
  refine ⟨if b ≤ a then .new 1 1 false else .new 0 1 false, ?_, ?_⟩
  · simp only [Op.evalValueBinary, Op.evalCompare]
    rw [show max (Value.new a wx false).width (Value.new b wx false).width = wx from max_self wx,
      expand_new hx hx64, expand_new hx hx64, max_self, Op.arms]
    rw [show native (Value.new a wx false).width = true from hn,
      show native (Value.new b wx false).width = true from hn, if_pos rfl, if_pos rfl, hcompare]
    split_ifs
    · exact congrArg some (expand_new Nat.one_pos (by omega))
    · exact congrArg some (expand_new Nat.one_pos (by omega))
  · split_ifs with h
    · exact iff_of_true (by decide) h
    · exact iff_of_false (by decide) h

end Operators

section Lookup

variable {env : Env} {m : Mem} {off : ℤ} {selw s : ℕ}

theorem eval_val (v w : ℕ) : (val v w).eval env m = .new v w false := rfl

theorem eval_bin (henv : TwoState env) {x y : ProtoExpression} (hx : x.exprContext.signed = false)
    (h : Op.evalValueBinary native op (x.eval env m) (y.eval env m) w false = some r) :
    (bin x op y w).eval env m = r := by
  have hsigned : binaryOperandSigned (ctxOf w) op x.exprContext y.exprContext = false := by
    cases op <;> simp [binaryOperandSigned, ctxOf, hx]
  rw [bin, eval, hsigned]
  exact henv.binary _ _ _ _ _ _ h

theorem eval_wordMux {idx : ℕ → ProtoExpression} {q : ℕ}
    (hidx : ∀ mid, ((idx mid).eval env m).hasKnownOne = true ↔ mid ≤ q) (lo hi : ℕ)
    (hlo : lo ≤ q) (hhi : q < hi) :
    (wordMux words idx lo hi).eval env m = .new (words.getD q 0) 64 false := by
  induction lo, hi using wordMux.induct with
  | case1 lo hi hone =>
    obtain rfl : lo = q := by omega
    rw [wordMux, if_pos hone]
    rfl
  | case2 lo hi hmore mid ihr ihl =>
    rw [wordMux, if_neg hmore, eval]
    by_cases hmid : mid ≤ q
    · rw [if_pos ((hidx _).2 hmid), ihr hmid hhi]
      rfl
    · rw [if_neg (fun h => hmid ((hidx _).1 h)), ihl hlo (not_le.1 hmid)]
      rfl

theorem eval_tableEntry (henv : TwoState env) (hew : ew = 1 ∨ ew = 2 ∨ ew = 4)
    (hpos : 0 < selw) (hselw : selw ≤ 12) (hs : s < 2 ^ selw)
    (hsel : (selVar off selw selw).eval env m = .new s selw false)
    (hwords : s / (64 / ew) < words.length) :
    (tableEntry words ew off selw).eval env m =
      .new (field ew (words.getD (s / (64 / ew)) 0) (s % (64 / ew))) ew false := by
  have hidx : ∀ mid, ((bin (bin (selVar off selw selw) .logicShiftR (val (64 / ew).log2 selw) selw)
      .greaterEq (val mid selw) 1).eval env m).hasKnownOne = true ↔ mid ≤ s / (64 / ew) := by
    intro mid
    have hlog : (64 / ew).log2 < 64 := by rcases hew with rfl | rfl | rfl <;> decide
    have hdiv : s >>> (64 / ew).log2 = s / (64 / ew) := by
      rw [shiftRight_eq_div_pow]
      rcases hew with rfl | rfl | rfl <;> rfl
    have hshift : (bin (selVar off selw selw) .logicShiftR (val (64 / ew).log2 selw) selw).eval
        env m = .new (s / (64 / ew)) selw false := by
      refine eval_bin henv rfl ?_
      rw [hsel, eval_val, evalShiftR_new hpos (by omega) le_rfl hlog, hdiv]
    obtain ⟨r, hr, hiff⟩ := evalGe_new (a := s / (64 / ew)) (b := mid) hpos (by omega : selw ≤ 64)
    rw [eval_bin henv rfl (by rw [hshift, eval_val]; exact hr)]
    exact hiff
  have hword : (if words.length = 1 then val (words.getD 0 0) 64
      else wordMux words (fun mid => bin (bin (selVar off selw selw) .logicShiftR
        (val (64 / ew).log2 selw) selw) .greaterEq (val mid selw) 1) 0 words.length).eval env m =
      .new (words.getD (s / (64 / ew)) 0) 64 false := by
    split_ifs with hone
    · rw [hone, lt_one_iff] at hwords
      rw [hwords, eval_val]
    · exact eval_wordMux hidx 0 words.length (Nat.zero_le _) hwords
  have hwithin : (bin (selVar off selw selw) .bitAnd (val (64 / ew - 1) selw) selw).eval env m =
      .new (s % (64 / ew)) selw false := by
    have hcut : cut (.new s selw false) selw = s := if_neg (lt_irrefl _)
    have hcut' : cut (.new (64 / ew - 1) selw false) selw = 64 / ew - 1 := if_neg (lt_irrefl _)
    have hs64 : s < 2 ^ 64 := hs.trans_le (Nat.pow_le_pow_right Nat.two_pos (by omega))
    have hmod : s &&& (64 / ew - 1) = s % (64 / ew) := by
      rcases hew with rfl | rfl | rfl
      · exact and_two_pow_sub_one_eq_mod s 6
      · exact and_two_pow_sub_one_eq_mod s 5
      · exact and_two_pow_sub_one_eq_mod s 4
    refine eval_bin henv rfl ?_
    rw [hsel, eval_val, evalAnd_known (x := .new s selw false)
      (y := .new (64 / ew - 1) selw false) hpos (by simp only [Value.new]; omega) rfl hpos
      (by simp only [Value.new]; omega) rfl (by omega) rfl rfl (hcut.symm ▸ hs64), hcut, hcut',
      hmod]
  have hfits : s % (64 / ew) * ew < 64 := by
    rcases hew with rfl | rfl | rfl <;> omega
  obtain ⟨wshift, hshift⟩ : ∃ wy, (if 64 / ew = 1 then val 0 6
      else if ew = 1 then bin (selVar off selw selw) .bitAnd (val (64 / ew - 1) selw) selw
      else bin (bin (selVar off selw selw) .bitAnd (val (64 / ew - 1) selw) selw) .logicShiftL
        (val ew.log2 selw) 12).eval env m = .new (s % (64 / ew) * ew) wy false := by
    have hmany : ¬ 64 / ew = 1 := by rcases hew with rfl | rfl | rfl <;> decide
    split_ifs with hone
    · exact ⟨selw, by rw [hwithin, hone, Nat.mul_one]⟩
    have hmul : (s % (64 / ew)) <<< ew.log2 = s % (64 / ew) * ew := by
      rw [Nat.shiftLeft_eq]
      rcases hew with rfl | rfl | rfl
      · exact absurd rfl hone
      · rfl
      · rfl
    refine ⟨12, eval_bin henv rfl ?_⟩
    rw [hwithin, eval_val, evalShiftL_new hpos hselw (by omega)
      (by rcases hew with rfl | rfl | rfl <;> decide) (by rw [hmul]; omega), hmul]
  have hshifted : ∀ {x y : ProtoExpression}, x.exprContext.signed = false →
      x.eval env m = .new (words.getD (s / (64 / ew)) 0) 64 false →
      y.eval env m = .new (s % (64 / ew) * ew) wshift false →
      (bin x .logicShiftR y 64).eval env m =
        .new (words.getD (s / (64 / ew)) 0 >>> (s % (64 / ew) * ew)) 64 false := by
    intro x y hc hx hy
    refine eval_bin henv hc ?_
    rw [hx, hy, evalShiftR_new (by omega) le_rfl le_rfl hfits]
  have hctx : (if words.length = 1 then val (words.getD 0 0) 64
      else wordMux words (fun mid => bin (bin (selVar off selw selw) .logicShiftR
        (val (64 / ew).log2 selw) selw) .greaterEq (val mid selw) 1) 0
        words.length).exprContext.signed = false := by
    split_ifs
    · rfl
    · rw [wordMux]
      split_ifs <;> rfl
  refine eval_bin henv rfl ?_
  rw [hshifted hctx hword hshift, eval_val]
  have hew64 : ew < 64 := by rcases hew with rfl | rfl | rfl <;> decide
  have hewpos : 0 < ew := by rcases hew with rfl | rfl | rfl <;> decide
  have hcut : cut (.new (words.getD (s / (64 / ew)) 0 >>> (s % (64 / ew) * ew)) 64 false) ew =
      field ew (words.getD (s / (64 / ew)) 0) (s % (64 / ew)) := if_pos hew64
  have hcut' : cut (.new (2 ^ ew - 1) ew false) ew = 2 ^ ew - 1 := if_neg (lt_irrefl _)
  have hlt : field ew (words.getD (s / (64 / ew)) 0) (s % (64 / ew)) < 2 ^ ew :=
    mod_lt _ (Nat.two_pow_pos ew)
  have hlt64 : field ew (words.getD (s / (64 / ew)) 0) (s % (64 / ew)) < 2 ^ 64 :=
    hlt.trans (Nat.pow_lt_pow_right (by omega) hew64)
  rw [evalAnd_known (by simp [Value.new]) (by simp [Value.new]) rfl hewpos hew64.le rfl hew64.le
    rfl rfl (hcut.symm ▸ hlt64), hcut, hcut', and_two_pow_sub_one_eq_mod, mod_eq_of_lt hlt]

end Lookup

section Conditions

variable {env : Env} {m : Mem}

/-- An expression that has a known value of its declared width. -/
structure SelTyped (env : Env) (m : Mem) (sel : ProtoExpression) : Prop where
  known : (sel.eval env m).maskXz = 0
  bits : (sel.eval env m).payload < 2 ^ sel.width
  width : (sel.eval env m).width = sel.width

/-- The selector is typed, and a mask is applied at a width that keeps it. -/
def CompareTyped (env : Env) (m : Mem) : ProtoExpression → Prop
  | .binary ax .bitAnd (.value mv _ _) _ c =>
    SelTyped env m ax ∧ (ax.width ≤ c.width ∧ c.width ≤ 64 ∧ c.signed = false) ∧
      0 < mv.width ∧ mv.payload < 2 ^ mv.width
  | x => SelTyped env m x

/-- A condition compares a typed selector with a constant of its declared width. -/
def CondTyped (env : Env) (m : Mem) : ProtoExpression → Prop
  | .binary x _ (.value k _ _) _ _ =>
    k.payload < 2 ^ k.width ∧ k.maskXz < 2 ^ k.width ∧ CompareTyped env m x
  | _ => True

/-- Every bit of the constant, don't-cares aside, is one the mask lets through. -/
def NoStrayBits : ProtoExpression → Prop
  | .binary (.binary _ .bitAnd (.value mv _ _) _ _) _ (.value k _ _) _ _ =>
    ∀ i, k.payload.testBit i = true → k.maskXz.testBit i = false → mv.payload.testBit i = true
  | _ => True

/-- Numbers differ only in bits that do not count exactly when those that count agree. -/
theorem xor_and_eq_zero_iff : (a ^^^ b) &&& n = 0 ↔ a &&& n = b &&& n := by
  constructor
  · intro h
    apply eq_of_testBit_eq
    intro i
    have hi := congrArg (·.testBit i) h
    simp only [testBit_and, testBit_xor, zero_testBit] at hi ⊢
    revert hi
    cases a.testBit i <;> cases b.testBit i <;> cases n.testBit i <;> decide
  · intro h
    apply eq_of_testBit_eq
    intro i
    have hi := congrArg (·.testBit i) h
    simp only [testBit_and, testBit_xor, zero_testBit] at hi ⊢
    revert hi
    cases a.testBit i <;> cases b.testBit i <;> cases n.testBit i <;> decide

theorem genMask_and (hkw : kw ≤ 64) (hp : p < 2 ^ kw) :
    p &&& (ValueU64.genMask (min kw 64) &&& n) = p &&& n := by
  rw [min_eq_left hkw, genMask_eq_of_le hkw, ← Nat.and_assoc, and_two_pow_sub_one_eq_mod,
    mod_eq_of_lt hp]

theorem masked_iff {mx mask : ℕ} (hkw : kw ≤ 64) (hs : s < 2 ^ kw) (hk : k < 2 ^ kw)
    (hstray : ∀ i, k.testBit i = true → mx.testBit i = false → mask.testBit i = true) :
    (s &&& mask) &&& ValueU64.not mx = k &&& ValueU64.not mx ↔
      s &&& (ValueU64.genMask (min kw 64) &&& ValueU64.not mx &&& mask) =
        k &&& (ValueU64.genMask (min kw 64) &&& ValueU64.not mx &&& mask) := by
  have hk' : k &&& ValueU64.not mx &&& mask = k &&& ValueU64.not mx := by
    apply eq_of_testBit_eq
    intro i
    have hi := hstray i
    simp only [testBit_and, ValueU64.not, testBit_xor] at hi ⊢
    rw [testBit_two_pow_sub_one]
    revert hi
    by_cases hlt : i < 64
    · cases k.testBit i <;> cases mx.testBit i <;> cases mask.testBit i <;> simp [hlt]
    · have hki : k.testBit i = false :=
        testBit_lt_two_pow (hk.trans_le (Nat.pow_le_pow_right Nat.two_pos (by omega)))
      simp [hki]
  rw [Nat.and_assoc (ValueU64.genMask _), genMask_and hkw hs, genMask_and hkw hk,
    ← Nat.and_assoc k, hk', Nat.and_comm (ValueU64.not mx) mask, Nat.and_assoc s]

theorem eval_equal (henv : TwoState env) {x y : ProtoExpression}
    {c : ExpressionContext} (hop : op = if wild then .eqWildcard else .eq)
    (h : Op.evalEqual native (x.eval env m) (y.eval env m) c.width wild false = some r) :
    (ProtoExpression.binary x op y w c).eval env m = r := by
  subst hop
  cases wild with
  | true => exact henv.binary _ _ _ _ _ _ h
  | false => exact henv.binary _ _ _ _ _ _ h

theorem lutSelector_eq {k : Value} {mask : ℕ} (h : lutSelector sel k mask = some c) :
    sel.width ≤ k.width ∧ c = ⟨sel, mask, k.payload &&& mask⟩ := by
  rw [lutSelector] at h
  split_ifs at h with hlt
  exact ⟨not_lt.1 hlt, (Option.some.inj h).symm⟩

theorem lutCompare_holds (henv : TwoState env) {x : ProtoExpression} {k : Value}
    {kc ctx : ExpressionContext}
    (hop : op = if wild then .eqWildcard else .eq) (hk64 : k.width ≤ 64)
    (h : lutCompare x wild k = some c)
    (htyped : CondTyped env m (.binary x op (.value k kw kc) w ctx))
    (hstray : NoStrayBits (.binary x op (.value k kw kc) w ctx)) (hsel : 0 < c.sel.width) :
    SelTyped env m c.sel ∧
      (((ProtoExpression.binary x op (.value k kw kc) w ctx).eval env m).hasKnownOne = true ↔
        (c.sel.eval env m).payload &&& c.mask = c.value) := by
  obtain ⟨hkp, hkm, hcompare⟩ := htyped
  rw [lutCompare] at h
  split_ifs at h with hbad
  obtain ⟨hks, hwild⟩ := not_or.1 hbad
  have hks : k.signed = false := Bool.eq_false_iff.2 hks
  have hwild : wild = false → k.maskXz = 0 := fun hw =>
    not_not.1 fun hne => hwild ⟨hne, hw⟩
  have hkm64 : k.maskXz < 2 ^ 64 := hkm.trans_le (Nat.pow_le_pow_right Nat.two_pos hk64)
  have hplain : SelTyped env m x → lutSelector x k
      (ValueU64.genMask (min k.width 64) &&& ValueU64.not k.maskXz) = some c →
      SelTyped env m c.sel ∧
        (((ProtoExpression.binary x op (.value k kw kc) w ctx).eval env m).hasKnownOne = true ↔
          (c.sel.eval env m).payload &&& c.mask = c.value) := by
    intro hx hc
    obtain ⟨hle, rfl⟩ := lutSelector_eq hc
    have hpos : 0 < k.width := hsel.trans_le hle
    obtain ⟨r, hr, hiff⟩ := evalEqual_known (w := ctx.width) (hx.width.symm ▸ hsel)
      (hx.width.symm ▸ hle.trans hk64) hx.known hpos hk64 hks hkm64 hwild
    refine ⟨hx, ?_⟩
    have hs := hx.bits.trans_le (Nat.pow_le_pow_right Nat.two_pos hle)
    rw [eval_equal henv hop hr, hiff, xor_and_eq_zero_iff]
    dsimp only
    rw [genMask_and hk64 hs, genMask_and hk64 hkp]
  split at h
  · rename_i ax ay aw ac
    obtain ⟨mask, hmask, hc⟩ := Option.bind_eq_some_iff.1 h
    obtain ⟨hle, rfl⟩ := lutSelector_eq hc
    cases ay with
    | value mv mw mc =>
      rw [lutConstU64] at hmask
      split_ifs at hmask with hconst
      obtain rfl := Option.some.inj hmask
      obtain ⟨hax, ⟨hle', hac64, hsigned⟩, hmpos, hmp⟩ := hcompare
      have hmv64 : mv.width ≤ 64 := of_decide_eq_true hconst.1
      have hpos : 0 < k.width := hsel.trans_le hle
      have hs := hax.bits
      have hcut : cut (ax.eval env m) ac.width = (ax.eval env m).payload :=
        if_neg (not_lt.2 (hax.width.symm ▸ hle'))
      have hs64 : (ax.eval env m).payload < 2 ^ 64 :=
        hs.trans_le (Nat.pow_le_pow_right Nat.two_pos (hle'.trans hac64))
      have hcutm : (ax.eval env m).payload &&& cut mv ac.width =
          (ax.eval env m).payload &&& mv.payload := by
        rw [cut]
        split_ifs with hlt
        · rw [← and_two_pow_sub_one_eq_mod, Nat.and_comm mv.payload, ← Nat.and_assoc,
            and_two_pow_sub_one_eq_mod,
            mod_eq_of_lt (hs.trans_le (Nat.pow_le_pow_right Nat.two_pos hle'))]
        · rfl
      have hand := evalAnd_known (x := ax.eval env m) (y := mv) (w := ac.width) (s := ac.signed)
        (hax.width.symm ▸ hsel) (hax.width.symm ▸ hle'.trans hac64) hax.known hmpos hmv64
        hconst.2 hac64 (by rw [hsigned, Bool.and_false]) (by rw [hsigned, Bool.and_false])
        (hcut.symm ▸ hs64)
      rw [hcut, hcutm] at hand
      have hx : (ProtoExpression.binary ax .bitAnd (.value mv mw mc) aw ac).eval env m =
          .new ((ax.eval env m).payload &&& mv.payload) ac.width false :=
        henv.binary _ _ _ _ _ _ hand
      have hacpos : 0 < ac.width := hsel.trans_le hle'
      obtain ⟨r, hr, hiff⟩ := evalEqual_known (w := ctx.width)
        (x := .new ((ax.eval env m).payload &&& mv.payload) ac.width false) hacpos hac64 rfl hpos
        hk64 hks hkm64 hwild
      refine ⟨hax, ?_⟩
      rw [eval_equal henv hop (by rw [hx]; exact hr), hiff, xor_and_eq_zero_iff]
      exact masked_iff hk64 (hs.trans_le (Nat.pow_le_pow_right Nat.two_pos hle)) hkp hstray
    | _ => cases hmask
  · rename_i hother
    refine hplain ?_ h
    cases x with
    | binary ax aop ay aw ac =>
      cases aop with
      | bitAnd => exact absurd rfl (hother ax ay aw ac)
      | _ => exact hcompare
    | _ => exact hcompare

theorem lutCond_holds (henv : TwoState env) {cond : ProtoExpression}
    (h : lutCond cond = some c) (htyped : CondTyped env m cond) (hstray : NoStrayBits cond)
    (hsel : 0 < c.sel.width) :
    SelTyped env m c.sel ∧
      ((cond.eval env m).hasKnownOne = true ↔ (c.sel.eval env m).payload &&& c.mask = c.value) := by
  rw [lutCond.eq_def] at h
  split at h
  · split_ifs at h with hk
    have hk64 := of_decide_eq_true hk
    split at h
    · exact lutCompare_holds henv rfl hk64 h htyped hstray hsel
    · exact lutCompare_holds henv rfl hk64 h htyped hstray hsel
    · cases h
  · cases h

end Conditions

section Chains

variable {debug : ProtoExpression → String} {env : Env} {m : Mem} {W : ℕ}

/-- The same number, and the same unknown bits. -/
structure SameValue (v v' : Value) : Prop where
  payload : v.payload = v'.payload
  maskXz : v.maskXz = v'.maskXz

theorem SameValue.trans {a b c : Value} (h : SameValue a b) (h' : SameValue b c) : SameValue a c :=
  ⟨h.payload.trans h'.payload, h.maskXz.trans h'.maskXz⟩

/-- An expression whose value is as wide as the chain, or below that width and unsigned, as a
value or by its context. -/
def FitsIn (env : Env) (m : Mem) (W : ℕ) (e : ProtoExpression) : Prop :=
  0 < (e.eval env m).width ∧ ((e.eval env m).width = W ∨
    (e.eval env m).width < W ∧ ((e.eval env m).signed && e.exprContext.signed) = false)

/-- Every condition is typed, every leaf fits, and every choice is as wide as the chain. -/
def WellTyped (env : Env) (m : Mem) (W : ℕ) : ProtoExpression → Prop
  | .ternary cond t f w _ =>
    CondTyped env m cond ∧ FitsIn env m W t ∧ w = W ∧ WellTyped env m W f
  | e => FitsIn env m W e

def NoStrayBitsIn : ProtoExpression → Prop
  | .ternary cond _ f _ _ => NoStrayBits cond ∧ NoStrayBitsIn f
  | _ => True

/-- The selectors and the leaves of a chain. -/
def parts : ProtoExpression → List ProtoExpression
  | .ternary cond t f _ _ => ((lutCond cond).map (·.sel)).toList ++ t :: parts f
  | e => [e]

/-- The leaf of the first arm that matches. -/
def pick (arms : List LutArm) (default s : ℕ) : ℕ :=
  ((arms.find? fun a => s &&& a.mask == a.value).map (·.leaf)).getD default

theorem pick_cons (a : LutArm) (arms : List LutArm) (default s : ℕ) : pick (a :: arms) default s =
      if s &&& a.mask = a.value then a.leaf else pick arms default s := by
  rw [pick, pick, find?_cons]
  by_cases h : s &&& a.mask = a.value
  · rw [if_pos h, beq_iff_eq.2 h]
    rfl
  · rw [if_neg h, beq_eq_false_iff_ne.2 h]

theorem eval_choice {a b d : ProtoExpression} {c : ExpressionContext} (hb : FitsIn env m W b)
    (hd : FitsIn env m W d) :
    FitsIn env m W (.ternary a b d W c) ∧ SameValue ((ProtoExpression.ternary a b d W c).eval env m)
        (if (a.eval env m).hasKnownOne then b.eval env m else d.eval env m) := by
  have hwiden : ∀ {e : ProtoExpression} {s : Bool}, FitsIn env m W e →
      (e.exprContext.signed = false → s = false) →
      ∀ v, v = (if (e.eval env m).width < W then (e.eval env m).expand W s else e.eval env m) →
        v.width = W ∧ SameValue v (e.eval env m) := by
    rintro e s ⟨hpos, hfit⟩ hs v rfl
    split_ifs with hlt
    · have hsigned : ((e.eval env m).signed && s) = false := by
        rcases Bool.and_eq_false_iff.1 (hfit.resolve_left (by omega)).2 with h | h
        · rw [h, Bool.false_and]
        · rw [hs h, Bool.and_false]
      rw [Value.expand, if_neg (by omega), if_neg hpos.ne']
      simp only [hsigned, Bool.false_and, Bool.false_eq_true, if_false]
      exact ⟨trivial, rfl, rfl⟩
    · exact ⟨hfit.resolve_right fun h => hlt h.1, rfl, rfl⟩
  have hW : 0 < W := by
    rcases hb.2 with h | h
    · exact h ▸ hb.1
    · exact hb.1.trans h.1
  have hvalue : ((ProtoExpression.ternary a b d W c).eval env m).width = W ∧
      SameValue ((ProtoExpression.ternary a b d W c).eval env m)
        (if (a.eval env m).hasKnownOne then b.eval env m else d.eval env m) := by
    rw [eval]
    cases (a.eval env m).hasKnownOne with
    | true => exact hwiden hb (fun h => by rw [h, Bool.false_and]) _ rfl
    | false => exact hwiden hd (fun h => by rw [h, Bool.and_false]) _ rfl
  exact ⟨⟨hvalue.1.symm ▸ hW, .inl hvalue.1⟩, hvalue.2⟩

theorem leafOf_spec
    (hinj : ∀ a b, P a → P b → debug a = debug b → a = b) {l : List ProtoExpression × ℕ}
    (h : leafOf debug leaves e = some l)
    (hleaves : ∀ x ∈ leaves, P x) (he : P e) (hlen : leaves.length ≤ lutMaxLeaves) :
    (∃ more, l.1 = leaves ++ more ∧ ∀ x ∈ more, x = e) ∧ l.1[l.2]? = some e ∧
      l.1.length ≤ lutMaxLeaves := by
  rw [leafOf] at h
  split at h
  · rename_i i hi
    obtain rfl := Option.some.inj h
    obtain ⟨hlt, hdebug, -⟩ := findIdx?_eq_some_iff_getElem.1 hi
    have heq := hinj _ _ (hleaves _ (getElem_mem hlt)) he (of_decide_eq_true hdebug)
    refine ⟨⟨[], (append_nil _).symm, by simp⟩, ?_, hlen⟩
    rw [getElem?_eq_getElem hlt, heq]
  · split_ifs at h with hmax hbig
    obtain rfl := Option.some.inj h
    refine ⟨⟨[e], rfl, by simp⟩, by simp, ?_⟩
    rw [length_append, length_singleton]
    omega

/-- What a chain read from an expression on has in common with it. -/
structure Read (env : Env) (m : Mem) (arms : List LutArm) (leaves : List ProtoExpression)
    (e : ProtoExpression) (chain : LutChain) (rest : List LutArm) : Prop where
  arms_eq : chain.arms = arms ++ rest
  enough : lutMinArms ≤ chain.arms.length
  leaves_eq : ∃ more, chain.leaves = leaves ++ more ∧
    ∀ l ∈ more, l ∈ parts e ∧ ∀ W, WellTyped env m W e → FitsIn env m W l
  bound : (∀ a ∈ rest, a.leaf < chain.leaves.length) ∧ chain.default < chain.leaves.length
  leaves_le : chain.leaves.length ≤ lutMaxLeaves
  value : ∀ W, WellTyped env m W e → NoStrayBitsIn e → 0 < chain.sel.width →
    (rest ≠ [] → SelTyped env m chain.sel) ∧ FitsIn env m W e ∧
      ∃ l, chain.leaves[pick rest chain.default (chain.sel.eval env m).payload]? = some l ∧
        SameValue (e.eval env m) (l.eval env m)

variable {sel : Option ProtoExpression}

theorem read_leaf (hinj : ∀ a b, P a → P b → debug a = debug b → a = b)
    (h : ((leafOf debug leaves e).bind fun l => sel.bind fun s =>
      if arms.length < lutMinArms then none else some ⟨s, arms, l.2, l.1⟩) = some chain)
    (hleaves : ∀ l ∈ leaves, P l) (he : P e) (hlen : leaves.length ≤ lutMaxLeaves)
    (hself : e ∈ parts e) (htyped : ∀ W, WellTyped env m W e → FitsIn env m W e) :
    (∀ s ∈ sel, chain.sel = s) ∧ ∃ rest, Read env m arms leaves e chain rest := by
  obtain ⟨l, hl, h⟩ := Option.bind_eq_some_iff.1 h
  obtain ⟨s, hs, h⟩ := Option.bind_eq_some_iff.1 h
  split_ifs at h with hfew
  obtain rfl := Option.some.inj h
  obtain ⟨⟨more, hmore, heq⟩, hget, hle⟩ := leafOf_spec hinj hl hleaves he hlen
  refine ⟨fun s' hs' => ?_, [], ?_⟩
  · rw [hs] at hs'
    exact Option.some.inj hs'
  · exact
      { arms_eq := (append_nil _).symm
        enough := not_lt.1 hfew
        leaves_eq := ⟨more, hmore, fun x hx => by
          rw [heq x hx]
          exact ⟨hself, htyped⟩⟩
        bound := ⟨by simp, (List.getElem?_eq_some_iff.1 hget).1⟩
        leaves_le := hle
        value := fun W hW _ _ => ⟨fun hne => absurd rfl hne, htyped W hW, e, hget, rfl, rfl⟩ }

theorem read_chainFrom (henv : TwoState env) (hinj : ∀ a b, P a → P b → debug a = debug b → a = b)
    (h : chainFrom debug sel arms leaves e = some chain)
    (hleaves : ∀ l ∈ leaves, P l) (hsel : ∀ s ∈ sel, P s) (hparts : ∀ p ∈ parts e, P p)
    (hlen : leaves.length ≤ lutMaxLeaves) :
    (∀ s ∈ sel, chain.sel = s) ∧ ∃ rest, Read env m arms leaves e chain rest := by
  induction e generalizing sel arms leaves with
  | ternary cond t f w c _ _ ihf =>
    obtain ⟨lc, hlc, h⟩ := Option.bind_eq_some_iff.1 h
    obtain ⟨l, hl, h⟩ := Option.bind_eq_some_iff.1 h
    rw [parts, hlc] at hparts
    have hPsel : P lc.sel := hparts _ (mem_append_left _ (mem_singleton_self _))
    have hPt : P t := hparts _ (mem_append_right _ mem_cons_self)
    have hPf : ∀ p ∈ parts f, P p := fun p hp =>
      hparts p (mem_append_right _ (mem_cons_of_mem _ hp))
    -- the selector is the one of the arms before
    have hnext : (∀ s ∈ sel, lc.sel = s) ∧ chainFrom debug (some lc.sel)
        (arms ++ [⟨lc.mask, lc.value, l.2⟩]) l.1 f = some chain := by
      cases sel with
      | none => exact ⟨by simp, h⟩
      | some s =>
        dsimp only at h
        split_ifs at h with hdebug
        obtain rfl := hinj _ _ hPsel (hsel s rfl) hdebug
        exact ⟨fun s' hs' => Option.some.inj hs', h⟩
    obtain ⟨⟨more, hmore, heq⟩, hget, hle⟩ := leafOf_spec hinj hl hleaves hPt hlen
    have hPl : ∀ x ∈ l.1, P x := by
      intro x hx
      rw [hmore] at hx
      rcases mem_append.1 hx with hx | hx
      · exact hleaves x hx
      · exact heq x hx ▸ hPt
    obtain ⟨hchain, rest, hread⟩ := ihf hnext.2 hPl (fun s hs => Option.some.inj hs ▸ hPsel) hPf hle
    have hcs : chain.sel = lc.sel := hchain _ rfl
    refine ⟨fun s hs => hcs.trans (hnext.1 s hs), ⟨lc.mask, lc.value, l.2⟩ :: rest, ?_⟩
    obtain ⟨more', hmore', hfits⟩ := hread.leaves_eq
    refine
      { arms_eq := by rw [hread.arms_eq, append_assoc]; rfl
        enough := hread.enough
        leaves_eq := ⟨more ++ more', by rw [hmore', hmore, append_assoc], fun x hx => ?_⟩
        bound := ⟨forall_mem_cons.2 ⟨?_, hread.bound.1⟩, hread.bound.2⟩
        leaves_le := hread.leaves_le
        value := fun W hW hstray hpos => ?_ }
    · rcases mem_append.1 hx with hx | hx
      · obtain rfl := heq x hx
        exact ⟨mem_append_right _ mem_cons_self, fun W hW => hW.2.1⟩
      · obtain ⟨hpart, hfit⟩ := hfits x hx
        exact ⟨mem_append_right _ (mem_cons_of_mem _ hpart), fun W hW => hfit W hW.2.2.2⟩
    · rw [hmore', length_append]
      exact Nat.lt_add_right _ (List.getElem?_eq_some_iff.1 hget).1
    · obtain ⟨hcond, ht, rfl, hf⟩ := hW
      obtain ⟨-, hffits, lf, hlf, hsame⟩ := hread.value w hf hstray.2 hpos
      obtain ⟨hseltyped, hholds⟩ :=
        lutCond_holds henv hlc hcond hstray.1 (hcs ▸ hpos)
      obtain ⟨hfits', hchoice⟩ := eval_choice (a := cond) (c := c) ht hffits
      refine ⟨fun _ => hcs ▸ hseltyped, hfits', ?_⟩
      rw [pick_cons, hcs] at *
      by_cases hmatch : (lc.sel.eval env m).payload &&& lc.mask = lc.value
      · rw [if_pos hmatch]
        rw [if_pos (hholds.2 hmatch)] at hchoice
        refine ⟨t, ?_, hchoice⟩
        rw [hmore', getElem?_append_left (List.getElem?_eq_some_iff.1 hget).1, hget]
      · rw [if_neg hmatch]
        rw [if_neg fun hc => hmatch (hholds.1 hc)] at hchoice
        exact ⟨lf, hlf, hchoice.trans hsame⟩
  | _ =>
    exact read_leaf hinj h hleaves (hparts _ (mem_singleton_self _)) hlen
      (mem_singleton_self _) fun W hW => hW

theorem pick_lt (harms : ∀ a ∈ arms, a.leaf < n)
    (hdefault : default < n) : pick arms default s < n := by
  induction arms with
  | nil => exact hdefault
  | cons a arms ih =>
    obtain ⟨ha, harms⟩ := forall_mem_cons.1 harms
    rw [pick_cons]
    split_ifs
    · exact ha
    · exact ih harms

/-- A chain is not changed by the concatenations around it. -/
theorem sameValue_strip {e' : ProtoExpression} (h : strip e = some e') :
    SameValue (e.eval env m) (e'.eval env m) := by
  induction e with
  | concatenation es w c ih =>
    rw [strip] at h
    cases es with
    | nil => cases h
    | cons first rest =>
      obtain ⟨inner, repeat_, iw⟩ := first
      rw [stripOne] at h
      split_ifs at h with hone
      obtain ⟨rfl, hrest⟩ := hone
      obtain rfl := List.isEmpty_iff.1 hrest
      have hinner := ih (inner, 1, iw) mem_cons_self h
      refine SameValue.trans ?_ hinner
      constructor
      · simp [eval, evalElements, concatRepeat, Value.concat, Value.new, Value.setSigned]
      · simp [eval, evalElements, concatRepeat, Value.concat, Value.new, Value.setSigned]
  | _ =>
    obtain rfl := Option.some.inj h
    exact ⟨rfl, rfl⟩

end Chains

section Temp

variable {env : Env} {m : Mem} {off : ℤ}

theorem readPayload_of_bytes {o : VarOffset}
    (h : ∀ i < n, m (o.add i) = BitVec.ofNat 8 (p >>> (8 * i))) :
    m.readPayload o n = p % 256 ^ n := by
  induction n generalizing o p with
  | zero => rw [Mem.readPayload, Nat.pow_zero, mod_one]
  | succ n ih =>
    have hfirst : m o = BitVec.ofNat 8 p := by simpa using h 0 (succ_pos n)
    have hrest : ∀ i < n, m ((o.add 1).add i) = BitVec.ofNat 8 ((p / 256) >>> (8 * i)) := by
      intro i hi
      have hi' := h (i + 1) (succ_lt_succ hi)
      have hshift : p >>> (8 * (i + 1)) = (p / 256) >>> (8 * i) := by
        rw [Nat.mul_add, Nat.add_comm, shiftRight_add, shiftRight_eq_div_pow p]
      rw [VarOffset.add_add, ← hshift, ← hi']
      congr 2
      omega
    have hsplit : p % 256 ^ (n + 1) = p % 256 + 256 * (p / 256 % 256 ^ n) := by
      rw [Nat.pow_succ', mod_mul]
    rw [Mem.readPayload, ih hrest, hfirst, BitVec.toNat_ofNat, hsplit]

theorem le_nativeBytes (hw : w ≤ 12) : w ≤ 8 * nativeBytes w := by
  rw [nativeBytes]
  split_ifs <;> omega

/-- The storage once the selector is held. -/
def holdSelector (env : Env) (m : Mem) (sel : ProtoExpression) (off : ℤ) : Mem :=
  m.writeNativeValue (.comb off) (nativeBytes sel.width) false (sel.eval env m)

theorem exec_selTemp (henv : TwoState env) (hsel : SelTyped env m sel) (hpos : 0 < sel.width) :
    (selTemp sel off).exec env m = some ⟨⟨⟩, holdSelector env m sel off, []⟩ := by
  have hvalue : storedValue env m (.comb off) sel.width none none
      (storeRhs env m sel none sel.width) = some (sel.eval env m) := by
    have hrhs : storeRhs env m sel none sel.width = sel.eval env m := by
      exact if_neg fun h => absurd h.2 (not_lt.2 hsel.width.ge)
    rw [storedValue, hrhs, Value.trunc, if_neg (hsel.width.symm ▸ hpos.ne'), if_pos hsel.width.le]
  have hlog : (selTemp sel off).ffLogOffset = none := rfl
  have hpacked : (selTemp sel off).ffIsPacked = false := rfl
  rw [ProtoAssignStatement.exec, hlog, hpacked]
  simp only [selTemp, evalSelect, Library.Computation.bind_apply,
    Library.Computation.read, Option.bind_some, hvalue, deposit, Library.Computation.modify,
    Library.Computation.emit, Option.toList_none, map_nil, Option.map_some,
    nil_append, henv.use4state, Bool.false_eq_true, if_false, holdSelector]

theorem eval_selVar (henv : TwoState env) (hsel : SelTyped env m sel) (hle : sel.width ≤ 12) :
    (selVar off sel.width sel.width).eval env (holdSelector env m sel off) =
      .new (sel.eval env m).payload sel.width false := by
  have hbits := hsel.bits
  have hbytes := le_nativeBytes hle
  have hread : (holdSelector env m sel off).readPayload (.comb off) (nativeBytes sel.width) =
      (sel.eval env m).payload := by
    rw [readPayload_of_bytes (p := (sel.eval env m).payload)]
    · refine mod_eq_of_lt (hbits.trans_le ?_)
      rw [show 256 = 2 ^ 8 from rfl, ← Nat.pow_mul]
      exact Nat.pow_le_pow_right Nat.two_pos hbytes
    · intro i hi
      rw [holdSelector, Mem.writeNativeValue, if_neg Bool.false_ne_true,
        Mem.writePayload_of_mem _ _ _ hi]
  have h64 : (sel.eval env m).payload < 2 ^ 64 :=
    hbits.trans_le (Nat.pow_le_pow_right Nat.two_pos (by omega))
  rw [selVar, eval, readWidth, max_self]
  simp only [evalSelect, readSlot, Option.isSome_none,
    Bool.or_self, Bool.false_eq_true, if_false, Mem.readNativeValue, henv.use4state, hread,
    if_pos (show sel.width ≤ 64 by omega), mod_eq_of_lt h64, Value.setSigned, Value.new, ctxOf]

/-- A temporary of the given width is not a part of what an expression reads. -/
def Fresh (env : Env) (w : ℕ) (off : ℤ) (e : ProtoExpression) : Prop :=
  ∀ a ∈ e.accesses env.use4state, ∀ i < nativeBytes w, VarOffset.add (.comb off) i ∉ a.cells

theorem eval_of_fresh (h : Fresh env sel.width off e) :
    e.eval env (holdSelector env m sel off) = e.eval env m := by
  have hagree : Agree id m (holdSelector env m sel off) (e.accesses env.use4state) := by
    intro a ha k hk
    rw [holdSelector, Mem.writeNativeValue, if_neg Bool.false_ne_true, Mem.writePayload_of_not_mem]
    · rfl
    · intro i hi heq
      exact h a ha i hi ⟨k, hk, heq.symm⟩
  simpa using eval_remapOffsetsWith e hagree

end Temp

section Exact

variable {debug : ProtoExpression → String} {env : Env} {m : Mem} {W : ℕ}

/-- A leaf is told by its number. -/
theorem hasKnownOne_entry (henv : TwoState env)
    (hentry : entry.eval env m = .new n ew false) (hew : 0 < ew) (hew64 : ew ≤ 64)
    (hn : n < 2 ^ 64) (hk : k < 2 ^ 64) :
    ((bin entry .eq (val k ew) 1).eval env m).hasKnownOne = true ↔ n = k := by
  have hknown : ∃ r, Op.evalEqual native (.new n ew false) (.new k ew false) 1 false false =
      some r ∧ (r.hasKnownOne = true ↔ (n ^^^ k) &&& ValueU64.not 0 = 0) :=
    evalEqual_known hew hew64 rfl hew hew64 rfl (Nat.two_pow_pos 64) fun _ => rfl
  obtain ⟨r, hr, hiff⟩ := hknown
  have heval : (bin entry .eq (val k ew) 1).eval env m = r := by
    refine eval_equal henv ?_ (by rw [hentry]; exact hr)
    rfl
  rw [heval, hiff]
  rw [not_zero, allOnes_and (xor_lt_two_pow hn hk), Nat.xor_eq_zero_iff]

theorem eval_leafSelect_from (henv : TwoState env) {d : ℕ}
    (hentry : entry.eval env m = .new n ew false) (hew : 0 < ew) (hew64 : ew ≤ 64)
    (hn : n < 2 ^ 64) (leaves : List ProtoExpression) (k : ℕ) (out : ProtoExpression)
    (hk : k + leaves.length < 2 ^ 64) (hleaves : ∀ l ∈ leaves, FitsIn env m W l)
    (hout : FitsIn env m W out) :
    let r := (leaves.zipIdx k).foldl (fun out l =>
      if l.2 = d then out
      else .ternary (bin entry .eq (val l.2 ew) 1) l.1 out W (ctxOf W)) out
    (∃ l, k ≤ n ∧ n ≠ d ∧ leaves[n - k]? = some l ∧ SameValue (r.eval env m) (l.eval env m)) ∨
      ((n < k ∨ n = d ∨ leaves.length ≤ n - k) ∧ SameValue (r.eval env m) (out.eval env m)) := by
  induction leaves generalizing k out with
  | nil => exact .inr ⟨.inr (.inr (Nat.zero_le _)), rfl, rfl⟩
  | cons x leaves ih =>
    obtain ⟨hx, hleaves⟩ := forall_mem_cons.1 hleaves
    rw [length_cons] at hk
    rw [zipIdx_cons, foldl_cons]
    have hnext : ∀ {l : ProtoExpression}, k + 1 ≤ n → leaves[n - (k + 1)]? = some l →
        (x :: leaves)[n - k]? = some l := by
      intro l hle hl
      rw [show n - k = n - (k + 1) + 1 by omega, getElem?_cons_succ, hl]
    by_cases hdefault : k = d
    · rw [if_pos hdefault]
      rcases ih (k + 1) out (by omega) hleaves hout with ⟨l, hle, hne, hl, hsame⟩ | ⟨hnot, hsame⟩
      · exact .inl ⟨l, by omega, hne, hnext hle hl, hsame⟩
      · exact .inr ⟨by rw [length_cons]; omega, hsame⟩
    · rw [if_neg hdefault]
      obtain ⟨hfits, hchoice⟩ := eval_choice (a := bin entry .eq (val k ew) 1) (c := ctxOf W)
        hx hout
      have hcond := hasKnownOne_entry (k := k) henv hentry hew hew64 hn (by omega)
      rcases ih (k + 1) _ (by omega) hleaves hfits with ⟨l, hle, hne, hl, hsame⟩ | ⟨hnot, hsame⟩
      · exact .inl ⟨l, by omega, hne, hnext hle hl, hsame⟩
      · by_cases hnk : n = k
        · rw [if_pos (hcond.2 hnk)] at hchoice
          refine .inl ⟨x, hnk.ge, hnk ▸ hdefault, ?_, hsame.trans hchoice⟩
          rw [hnk, Nat.sub_self, getElem?_cons_zero]
        · rw [if_neg fun h => hnk (hcond.1 h)] at hchoice
          exact .inr ⟨by rw [length_cons]; omega, hsame.trans hchoice⟩

theorem eval_leafSelect (henv : TwoState env)
    (hentry : entry.eval env m = .new n ew false) (hew : 0 < ew) (hew64 : ew ≤ 64)
    (hlen : leaves.length < 2 ^ 64)
    (hleaves : ∀ l ∈ leaves, FitsIn env m W l) {last l : ProtoExpression}
    (hlast : leaves[default]? = some last) (hl : leaves[n]? = some l) :
    SameValue ((leafSelect leaves entry ew W default last).eval env m) (l.eval env m) := by
  have hnlt := (List.getElem?_eq_some_iff.1 hl).1
  rcases eval_leafSelect_from (d := default) henv hentry hew hew64 (hnlt.trans hlen) leaves 0
    last (by omega) hleaves (hleaves last (mem_of_getElem? hlast)) with
    ⟨l', -, -, hl', hsame⟩ | ⟨hor, hsame⟩
  · rw [Nat.sub_zero, hl] at hl'
    obtain rfl := Option.some.inj hl'
    exact hsame
  · have hdefault : n = default := by omega
    rw [← hdefault, hl] at hlast
    obtain rfl := Option.some.inj hlast
    exact hsame

theorem getElem?_mapM {α β : Type*} {f : α → Option β} {l : List α} {vs : List β}
    (h : l.mapM f = some vs) {i : ℕ} {a : α} (ha : l[i]? = some a) :
    ∃ b, f a = some b ∧ vs[i]? = some b := by
  induction l generalizing vs i with
  | nil => cases ha
  | cons x l ih =>
    rw [mapM_cons] at h
    obtain ⟨b, hb, h⟩ := Option.bind_eq_some_iff.1 h
    obtain ⟨bs, hbs, h⟩ := Option.bind_eq_some_iff.1 h
    obtain rfl := Option.some.inj h
    cases i with
    | zero =>
      obtain rfl := Option.some.inj ha
      exact ⟨b, hb, rfl⟩
    | succ i => exact ih hbs ha

theorem sameValue_const {v : ℕ} (h : lutConstU64 e = some v) :
    SameValue (.new v w false) (e.eval env m) := by
  cases e with
  | value k kw kc =>
    rw [lutConstU64] at h
    split_ifs at h with hk
    obtain rfl := Option.some.inj h
    exact ⟨rfl, hk.2.symm⟩
  | _ => cases h

/-- What the replacement of a chain rests on: the printed form tells the parts of the chain
apart, the temporary is new, and the chain is typed. -/
structure Suitable (debug : ProtoExpression → String) (env : Env) (m : Mem) (expr : ProtoExpression)
    (width : ℕ) (alloc : ℕ → ℤ) : Prop where
  distinct : ∀ e ∈ strip expr, ∀ a ∈ parts e, ∀ b ∈ parts e, debug a = debug b → a = b
  fresh : ∀ e ∈ strip expr, ∀ w, ∀ l ∈ parts e, Fresh env w (alloc w) l
  typed : ∀ e ∈ strip expr, WellTyped env m width e

variable {expr : ProtoExpression} {width : ℕ} {alloc : ℕ → ℤ}

theorem eval_lookup (henv : TwoState env) (off : ℤ)
    (hew : ew = 1 ∨ ew = 2 ∨ ew = 4) (hsel : SelTyped env m sel) (hpos : 0 < sel.width)
    (hle : sel.width ≤ 12) {entry : ℕ → ℕ} (hentry : ∀ t < 2 ^ sel.width, entry t < 2 ^ ew) :
    (tableEntry (bakeTable ew (2 ^ sel.width) entry) ew off sel.width).eval env
        (holdSelector env m sel off) =
      .new (entry (sel.eval env m).payload) ew false := by
  have hperWord : 0 < 64 / ew := by rcases hew with rfl | rfl | rfl <;> decide
  rw [eval_tableEntry henv hew hpos hle hsel.bits (eval_selVar henv hsel hle)
    (div_lt_length_bakeTable hperWord hsel.bits), field_bakeTable hperWord hentry hsel.bits]

/-- Evaluating the returned expression after its temporary gives what the chain gives, when
no constant of a condition has a bit that its mask takes away. -/
theorem tryLutCompress_sameValue (henv : TwoState env)
    {r : List ProtoAssignStatement × ProtoExpression}
    (h : tryLutCompress debug expr width alloc = some r)
    (hs : Suitable debug env m expr width alloc)
    (hstray : ∀ e ∈ strip expr, NoStrayBitsIn e) :
    ∃ m', Library.Computation.sequence (r.1.map (·.exec env)) m = some ⟨⟨⟩, m', []⟩ ∧
      SameValue (r.2.eval env m') (expr.eval env m) := by
  rw [tryLutCompress] at h
  obtain ⟨chain, hchain, h⟩ := Option.bind_eq_some_iff.1 h
  rw [lutChain] at hchain
  obtain ⟨e, he, hchain⟩ := Option.bind_eq_some_iff.1 hchain
  split_ifs at hchain with hwidth
  obtain ⟨-, rest, hread⟩ := read_chainFrom (P := (· ∈ parts e)) (m := m) henv
    (fun a b ha hb => hs.distinct e he a ha b hb) hchain (by simp) (by simp) (fun p hp => hp)
    (by simp)
  obtain ⟨more, hmore, hparts⟩ := hread.leaves_eq
  rw [nil_append] at hmore
  have harms : chain.arms = rest := hread.arms_eq
  have hleafAt : ∀ t, chain.leafAt t = pick rest chain.default t := by
    intro t
    rw [← harms]
    rfl
  have hbound : ∀ t, chain.leafAt t < chain.leaves.length := by
    intro t
    rw [hleafAt]
    exact pick_lt hread.bound.1 hread.bound.2
  have hleaf : ∀ x ∈ chain.leaves,
      x.eval env (holdSelector env m chain.sel (alloc chain.sel.width)) = x.eval env m := by
    intro x hx
    exact eval_of_fresh (hs.fresh e he _ x (hparts x (hmore ▸ hx)).1)
  have hfits : ∀ x ∈ chain.leaves, FitsIn env m width x := by
    intro x hx
    exact (hparts x (hmore ▸ hx)).2 width (hs.typed e he)
  -- the selector is typed, and the leaf it picks is the value of the chain
  have hpicked : 0 < chain.sel.width → SelTyped env m chain.sel ∧
      ∃ l, chain.leaves[chain.leafAt (chain.sel.eval env m).payload]? = some l ∧
        SameValue (l.eval env m) (expr.eval env m) := by
    intro hpos
    obtain ⟨hsel, -, l, hl, hsame⟩ := hread.value width (hs.typed e he) (hstray e he) hpos
    have hchain : SameValue (expr.eval env m) (l.eval env m) := (sameValue_strip he).trans hsame
    refine ⟨hsel fun hnil => ?_, l, (hleafAt _).symm ▸ hl, hchain.payload.symm, hchain.maskXz.symm⟩
    have henough := hread.enough
    rw [harms, hnil] at henough
    cases henough
  have htemp : 0 < chain.sel.width → Library.Computation.sequence
      ([selTemp chain.sel (alloc chain.sel.width)].map (·.exec env)) m =
      some ⟨⟨⟩, holdSelector env m chain.sel (alloc chain.sel.width), []⟩ := by
    intro hpos
    simp [Library.Computation.sequence, Library.Computation.bind_apply,
      exec_selTemp henv (hpicked hpos).1 hpos]
  cases hdirect : directLeaves chain.leaves width with
  | some vs =>
    simp only [hdirect, Option.isSome_some, if_true] at h
    split_ifs at h with hsize
    simp only [not_or, not_lt] at hsize
    have hpos := Nat.pos_of_ne_zero hsize.1
    obtain ⟨hsel, l, hl, hexpr⟩ := hpicked hpos
    obtain rfl := Option.some.inj h
    obtain ⟨hvs, hnarrow⟩ := Option.filter_eq_some_iff.1 hdirect
    obtain ⟨hwle, hvlt⟩ := of_decide_eq_true hnarrow
    have hew : width = 1 ∨ width = 2 ∨ width = 4 := by
      have hpow := not_not.1 (not_or.1 hwidth).2
      have := Nat.two_pow_pos width.log2
      omega
    obtain ⟨v, hv, hget⟩ := getElem?_mapM hvs hl
    have hentry : ∀ t < 2 ^ chain.sel.width, vs.getD (chain.leafAt t) 0 < 2 ^ width := by
      intro t _
      rw [getD_eq_getElem?_getD]
      cases hget : vs[chain.leafAt t]? with
      | none => exact Nat.two_pow_pos width
      | some v => exact hvlt v (mem_of_getElem? hget)
    refine ⟨_, htemp hpos, SameValue.trans ?_ hexpr⟩
    rw [eval_lookup henv _ hew hsel hpos hsize.2.1 hentry, getD_eq_getElem?_getD, hget]
    exact sameValue_const hv
  | none =>
    simp only [hdirect, Option.isSome_none, Bool.false_eq_true, if_false] at h
    generalize hewdef : (if chain.leaves.length ≤ 4 then 2 else 4) = ew at h
    split_ifs at h with hsize
    simp only [not_or, not_lt] at hsize
    have hpos := Nat.pos_of_ne_zero hsize.1
    obtain ⟨hsel, l, hl, hexpr⟩ := hpicked hpos
    obtain rfl := Option.some.inj h
    have hlen := hread.leaves_le
    have hew : ew = 1 ∨ ew = 2 ∨ ew = 4 := by
      rw [← hewdef]
      split_ifs
      · exact .inr (.inl rfl)
      · exact .inr (.inr rfl)
    have hentry : ∀ t < 2 ^ chain.sel.width, chain.leafAt t < 2 ^ ew := by
      intro t _
      have hlt := hbound t
      rw [lutMaxLeaves] at hlen
      rw [← hewdef]
      split_ifs with hfew
      · exact hlt.trans_le hfew
      · exact (hlt.trans_le hlen).trans (by decide)
    have hlookup := eval_lookup henv (alloc chain.sel.width) hew hsel hpos hsize.2.1 hentry
    obtain ⟨last, hlast⟩ : ∃ last, chain.leaves[chain.default]? = some last :=
      ⟨_, getElem?_eq_getElem hread.bound.2⟩
    refine ⟨_, htemp hpos, SameValue.trans ?_ hexpr⟩
    rw [getD_eq_getElem?_getD, hlast, Option.getD_some, ← hleaf l (mem_of_getElem? hl)]
    have hew64 : 0 < ew ∧ ew ≤ 64 := by rcases hew with rfl | rfl | rfl <;> decide
    refine eval_leafSelect henv hlookup hew64.1 hew64.2 ?_ ?_ hlast hl
    · rw [lutMaxLeaves] at hlen
      omega
    · intro x hx
      rw [FitsIn, hleaf x hx]
      exact hfits x hx

end Exact

/-!
Chains of tests of the lowest bit of a selector: for one of its values, and for a constant that has
another bit, which the mask takes away from the value the table is baked for.
-/

section LowBit

def operatorEnv : Env :=
  { plainEnv with
    evalValueBinary := fun op x y w s =>
      (Op.evalValueBinary native op x y w s).getD (.new 0 0 false) }

theorem twoState_operatorEnv : TwoState operatorEnv where
  use4state := rfl
  binary op x y w s r h := by
    change (Op.evalValueBinary native op x y w s).getD _ = r
    rw [h, Option.getD_some]

def selector : ProtoExpression := .variable (.comb 0) none none 4 4 (ctxOf 4)

def lowBitTest (k : ℕ) : ProtoExpression := bin (bin selector .bitAnd (val 1 4) 4) .eq (val k 4) 1

/-- As many arms as asked for, all alike. -/
def lowBitChain (k : ℕ) : ℕ → ProtoExpression
  | 0 => val 0 1
  | n + 1 => .ternary (lowBitTest k) (val 1 1) (lowBitChain k n) 1 (ctxOf 1)

/-- The printed form, as far as the chain needs it. -/
def shortDebug : ProtoExpression → String
  | .value v _ _ => if v.payload = 0 then "0" else "1"
  | _ => "selector"

def zeroMem : Mem := fun _ => 0

theorem parts_lowBitChain (k n : ℕ) :
    ∀ p ∈ parts (lowBitChain k n), p = selector ∨ p = val 1 1 ∨ p = val 0 1 := by
  induction n with
  | zero =>
    intro p hp
    exact .inr (.inr (mem_singleton.1 hp))
  | succ n ih =>
    have hsel : ((lutCond (lowBitTest k)).map (·.sel)) = some selector := rfl
    intro p hp
    rcases mem_append.1 hp with hp | hp
    · rw [hsel] at hp
      exact .inl (mem_singleton.1 hp)
    · rcases mem_cons.1 hp with hp | hp
      · exact .inr (.inl hp)
      · exact ih p hp

theorem wellTyped_lowBitChain (hk : k < 16) (n : ℕ) :
    WellTyped operatorEnv zeroMem 1 (lowBitChain k n) := by
  induction n with
  | zero => exact ⟨Nat.one_pos, .inl rfl⟩
  | succ n ih =>
    have hsel : SelTyped operatorEnv zeroMem selector := ⟨rfl, by decide, rfl⟩
    have hmask : (0 : ℕ) < 2 ^ 4 := by decide
    exact ⟨⟨hk, hmask, hsel, ⟨le_rfl, by decide, rfl⟩, by decide, by decide⟩,
      ⟨Nat.one_pos, .inl rfl⟩, rfl, ih⟩

theorem suitable_lowBitChain (hk : k < 16) (n : ℕ) :
    Suitable shortDebug operatorEnv zeroMem (lowBitChain k n) 1 fun _ => 1 := by
  have hstrip : strip (lowBitChain k n) = some (lowBitChain k n) := by
    cases n <;> rfl
  refine ⟨fun e he a ha b hb hdebug => ?_, fun e he w l hl => ?_, fun e he => ?_⟩
  · obtain rfl := Option.some.inj (hstrip.symm.trans he)
    rcases parts_lowBitChain k n a ha with rfl | rfl | rfl <;>
      rcases parts_lowBitChain k n b hb with rfl | rfl | rfl <;>
      first | rfl | exact absurd hdebug (by decide)
  · obtain rfl := Option.some.inj (hstrip.symm.trans he)
    have hcells : ∀ a ∈ l.accesses operatorEnv.use4state, a = ⟨.comb 0, 0, 1⟩ := by
      rcases parts_lowBitChain k n l hl with rfl | rfl | rfl
      · exact fun a ha => mem_singleton.1 ha
      · exact fun a ha => by cases ha
      · exact fun a ha => by cases ha
    intro a ha i _
    rw [hcells a ha]
    rintro ⟨j, hj, heq⟩
    have hj : j < 1 := hj
    have heq : (1 : ℤ) + i = 0 + (0 + j) := VarOffset.comb.inj heq
    omega
  · obtain rfl := Option.some.inj (hstrip.symm.trans he)
    exact wellTyped_lowBitChain hk n

theorem noStrayBits_lowBitChain (n : ℕ) : NoStrayBitsIn (lowBitChain 1 n) := by
  induction n with
  | zero => trivial
  | succ n ih => exact ⟨fun i hi _ => hi, ih⟩

/-- What the replacement of a chain of eight arms evaluates to on cleared storage. -/
def lookedUp (k : ℕ) : Option ℕ :=
  (tryLutCompress shortDebug (lowBitChain k 8) 1 fun _ => 1).bind fun r =>
    (Library.Computation.sequence (r.1.map (·.exec operatorEnv)) zeroMem).map fun o =>
      (r.2.eval operatorEnv o.state).payload

theorem lowBitIsOne_sameValue :
    ∃ r, tryLutCompress shortDebug (lowBitChain 1 8) 1 (fun _ => 1) = some r ∧
      ∃ m', Library.Computation.sequence (r.1.map (·.exec operatorEnv)) zeroMem =
          some ⟨⟨⟩, m', []⟩ ∧
        SameValue (r.2.eval operatorEnv m') ((lowBitChain 1 8).eval operatorEnv zeroMem) := by
  obtain ⟨r, hr⟩ := Option.isSome_iff_exists.1
    (by decide : (tryLutCompress shortDebug (lowBitChain 1 8) 1 fun _ => 1).isSome = true)
  refine ⟨r, hr, tryLutCompress_sameValue twoState_operatorEnv hr
    (suitable_lowBitChain (by decide) 8) fun e he => ?_⟩
  obtain rfl := Option.some.inj he
  exact noStrayBits_lowBitChain 8

theorem strayBit_not_sameValue : ¬ ∀ debug env m expr width alloc r, TwoState env →
      tryLutCompress debug expr width alloc = some r → Suitable debug env m expr width alloc →
      ∃ m', Library.Computation.sequence (r.1.map (·.exec env)) m = some ⟨⟨⟩, m', []⟩ ∧
        SameValue (r.2.eval env m') (expr.eval env m) := by
  intro hall
  have hlookup : lookedUp 2 = some 1 := by decide
  have hchain : ((lowBitChain 2 8).eval operatorEnv zeroMem).payload = 0 := by decide
  obtain ⟨r, hr, hrun⟩ := Option.bind_eq_some_iff.1 hlookup
  obtain ⟨m', hm', hsame⟩ := hall _ _ _ _ _ _ r twoState_operatorEnv hr
    (suitable_lowBitChain (by decide) 8)
  rw [hm'] at hrun
  have hone := Option.some.inj hrun
  have hpayload := hsame.payload
  rw [hchain] at hpayload
  exact absurd (hone.symm.trans hpayload) (by decide)

end LowBit

end Veryl.Simulator.LutCompress
