import Veryl.Simulator.Statement
import Veryl.Analyzer.StoredValueExact

/-!
Selects of bits at a run-time index: where the bits of the window lie in the variable, and what
reads and writes make of it.
-/

namespace Veryl.Simulator.DynamicBitSelect

open Veryl.Analyzer Nat

variable {d : DynamicBitSelect} {index width beg end_ skip j p : ℕ}

def elements (d : DynamicBitSelect) : ℕ := d.rowElements.getD d.numElements

/-- The row that an index addresses, and the index in the row. -/
def address (d : DynamicBitSelect) (index : ℕ) : ℕ × ℕ :=
  match d.rowElements with
  | none => (0, index)
  | some elements =>
    let stride := (elements + d.lowAdjust).nextPowerOfTwo
    (index / stride, index % stride)

/-- Bit `j` of the window lies in the row, at `p` in the variable. -/
def Position (d : DynamicBitSelect) (index j p : ℕ) : Prop :=
  (d.rowElements.isSome → index < d.numElements) ∧ j < d.window ∧
    ∃ q : ℕ, (q : ℤ) = ((d.address index).2 - d.lowAdjust) * d.elemWidth + j ∧
      q < d.elements * d.elemWidth ∧
      p = (d.address index).1 * d.elements * d.elemWidth + q

/-- The numbers on the way fit into a machine word. -/
structure Fits (d : DynamicBitSelect) (index : ℕ) : Prop where
  stride : ∀ elements ∈ d.rowElements,
    elements + d.lowAdjust < 2 ^ 64 ∧ (elements + d.lowAdjust).nextPowerOfTwo < 2 ^ 64
  row : ((d.address index).1 + 1) * d.elements * d.elemWidth < 2 ^ 64
  last : (d.address index).1 * d.elements * d.elemWidth + (d.address index).2 * d.elemWidth +
    d.window ≤ 2 ^ 64 + d.lowAdjust * d.elemWidth

theorem checkedUsize_eq_some_iff {n m : ℕ} : checkedUsize n = some m ↔ n < 2 ^ 64 ∧ n = m := by
  simp [checkedUsize]

theorem writeBounds_eq_some_iff {b : ℕ × ℕ × ℕ} :
    d.writeBounds index width = some b ↔
      (d.rowElements.isSome → index < d.numElements) ∧
      (∀ elements ∈ d.rowElements, elements + d.lowAdjust < 2 ^ 64 ∧
        (elements + d.lowAdjust).nextPowerOfTwo < 2 ^ 64) ∧
      d.boundsInRow (d.address index).1 (d.address index).2 d.elements width = some b := by
  unfold writeBounds address elements
  rcases d.rowElements with - | elements
  · simp
  · by_cases hindex : d.numElements ≤ index
    · simp [hindex]
    · simp [not_le.1 hindex, Option.bind_eq_some_iff, checkedUsize_eq_some_iff, and_assoc]

theorem boundsInRow_eq_some_iff {row i elements : ℕ} :
    d.boundsInRow row i elements width = some (beg, end_, skip) ↔
      i - d.lowAdjust < elements ∧ row * elements < 2 ^ 64 ∧
      row * elements * d.elemWidth + elements * d.elemWidth < 2 ^ 64 ∧
      end_ + (d.window - skip) ≤ 2 ^ 64 ∧ skip < 2 ^ 64 ∧ skip < d.window ∧
      skip = (d.lowAdjust - i) * d.elemWidth ∧
      end_ = row * elements * d.elemWidth + (i - d.lowAdjust) * d.elemWidth ∧
      beg + 1 = min (end_ + (d.window - skip))
        (min (row * elements * d.elemWidth + elements * d.elemWidth) width) ∧ end_ ≤ beg := by
  unfold boundsInRow
  simp only [bind, Option.bind_eq_some_iff, checkedUsize_eq_some_iff]
  generalize (d.lowAdjust - i) * d.elemWidth = k at *
  constructor
  · rintro ⟨_, ⟨hk, rfl⟩, h⟩
    by_cases hout : elements ≤ i - d.lowAdjust ∨ d.window ≤ k
    · simp [hout] at h
    · rw [if_neg hout] at h
      simp only [Option.bind_eq_some_iff, checkedUsize_eq_some_iff] at h
      obtain ⟨_, ⟨_, ⟨hc, rfl⟩, hr, rfl⟩, _, ⟨_, ⟨ho, rfl⟩, he, rfl⟩, _, ⟨_, ⟨hn, rfl⟩, hl, rfl⟩, _,
        ⟨hlast, rfl⟩, h⟩ := h
      split_ifs at h with hlimit hle
      obtain ⟨rfl, rfl, rfl⟩ := h
      exact ⟨by omega, hc, hl, by omega, hk, by omega, rfl, rfl, by omega, hle⟩
  · rintro ⟨hi, hc, hl, hlast, hk, hw, rfl, rfl, hbeg, hle⟩
    refine ⟨_, ⟨hk, rfl⟩, ?_⟩
    rw [if_neg (by omega)]
    simp only [Option.bind_eq_some_iff, checkedUsize_eq_some_iff]
    refine ⟨_, ⟨_, ⟨hc, rfl⟩, by omega, rfl⟩, _, ⟨_, ⟨by omega, rfl⟩, by omega, rfl⟩, _,
      ⟨_, ⟨by omega, rfl⟩, hl, rfl⟩, _, ⟨by omega, rfl⟩, ?_⟩
    rw [if_neg (by omega), if_pos (by omega)]
    simp only [Option.some.injEq, Prod.mk.injEq, and_true]
    omega

/-- The place of a window is that of its element, less what is cut off below the row. -/
theorem position_iff :
    d.Position index j p ↔
      (d.rowElements.isSome → index < d.numElements) ∧ j < d.window ∧
        ∃ q, q + d.lowAdjust * d.elemWidth = (d.address index).2 * d.elemWidth + j ∧
          q < d.elements * d.elemWidth ∧ p = (d.address index).1 * d.elements * d.elemWidth + q := by
  refine and_congr_right fun _ => and_congr_right fun _ => exists_congr fun q => and_congr_left' ?_
  rw [sub_mul]
  omega

/-- The bounds name the bits of the window in the row and in the variable. -/
theorem writeBounds_spec (h : d.writeBounds index width = some (beg, end_, skip)) :
    end_ ≤ beg ∧ beg < width ∧ skip = (d.lowAdjust - (d.address index).2) * d.elemWidth ∧
      ∀ j p, d.Position index j p ∧ p < width ↔ skip ≤ j ∧ p ≤ beg ∧ p + skip = end_ + j := by
  obtain ⟨hrow, -, h⟩ := writeBounds_eq_some_iff.1 h
  obtain ⟨hi, -, -, -, -, hw, hskip, hend, hbeg, hle⟩ := boundsInRow_eq_some_iff.1 h
  refine ⟨hle, by omega, hskip, fun j p => ?_⟩
  rw [position_iff]
  rw [Nat.sub_mul] at hskip hend
  generalize (d.address index).1 * d.elements * d.elemWidth = r at *
  constructor
  · rintro ⟨⟨-, hj, q, hq, hn, rfl⟩, hp⟩
    omega
  · rintro ⟨h1, h2, h3⟩
    exact ⟨⟨hrow, by omega, p - r, by omega, by omega, by omega⟩, by omega⟩

theorem exists_writeBounds (hwindow : d.window < 2 ^ 64) (hfits : d.Fits index) (h : d.Position index j p) (hp : p < width) :
    ∃ b, d.writeBounds index width = some b := by
  obtain ⟨hrow, hj, q, hq, hn, rfl⟩ := position_iff.1 h
  obtain ⟨hstride, hend, hlast⟩ := hfits
  have hew : 0 < d.elemWidth := Nat.pos_of_ne_zero fun h => by simp [h] at hn
  have hc : (d.address index).1 * d.elements ≤ (d.address index).1 * d.elements * d.elemWidth :=
    Nat.le_mul_of_pos_right _ hew
  have hk := Nat.sub_mul d.lowAdjust (d.address index).2 d.elemWidth
  have ho := Nat.sub_mul (d.address index).2 d.lowAdjust d.elemWidth
  have hi : (d.address index).2 - d.lowAdjust < d.elements :=
    lt_of_mul_lt_mul_right (a := d.elemWidth) (by omega) (Nat.zero_le _)
  rw [Nat.add_mul, Nat.add_mul, Nat.one_mul] at hend
  refine ⟨(_, _, _), writeBounds_eq_some_iff.2 ⟨hrow, hstride, boundsInRow_eq_some_iff.2
    ⟨hi, by omega, hend, ?_, ?_, ?_, rfl, rfl, (Nat.sub_add_cancel ?_), ?_⟩⟩⟩
  all_goals omega

/-- A bit of a value and whether it is unknown. -/
def bit (v : Value) (j : ℕ) : Bool × Bool := (v.payload.testBit j, v.maskXz.testBit j)

theorem bit_select {v : Value} (hj : end_ + j ≤ beg) (hw : end_ + j < v.width) :
    bit (v.select beg end_) j = bit v (end_ + j) := by
  have hmask : (genMask (if v.isU64 then min (beg - end_ + 1) 64 else beg - end_ + 1) ^^^
      genMask (min (v.width - end_) (beg - end_ + 1))).testBit j = false := by
    have hvalid : j < min (v.width - end_) (beg - end_ + 1) := by omega
    rw [testBit_xor, testBit_genMask, testBit_genMask, decide_eq_true hvalid, Bool.xor_true,
      Bool.not_eq_false', decide_eq_true_eq]
    split
    · have : v.width ≤ 64 := of_decide_eq_true ‹_›
      omega
    · omega
  unfold Value.select
  rw [if_neg (by omega), if_neg (by omega)]
  simp only [bit]
  rw [testBit_or, hmask, Bool.or_false, StoredValue.testBit_selected hj hw,
    StoredValue.testBit_selected hj hw]

theorem bit_assign {v : Value} (x : Value) (beg end_ : ℕ) (hj : j < v.width) :
    bit (v.assign x beg end_) j =
      if end_ ≤ j ∧ j ≤ beg then bit x (j - end_) else bit v j := by
  have hrange : ∀ b e, genMaskRange b e = ValueBigUint.genMaskRange b e := fun b e => by
    refine Nat.eq_of_testBit_eq fun i => ?_
    simp only [genMaskRange, ValueBigUint.genMaskRange, testBit_xor, testBit_and]
    cases (genMask (b + 1)).testBit i <;> cases (genMask e).testBit i <;> rfl
  have heq : v.assign x beg end_ = ValueBigUint.assign v x beg end_ := by
    simp only [Value.assign, ValueBigUint.assign, hrange]
  obtain ⟨hp, hm⟩ := StoredValue.testBit_assign v x beg end_ hj
  simp only [heq, bit, hp, hm]
  split <;> rfl

theorem width_assign (v x : Value) (beg end_ : ℕ) : (v.assign x beg end_).width = v.width := by
  unfold Value.assign
  split <;> rfl

theorem le_width_expand (v : Value) (w : ℕ) (signed : Bool) : w ≤ (v.expand w signed).width := by
  unfold Value.expand
  split
  · exact And.left ‹_›
  · split <;> exact le_rfl

section Read

variable {source : Value} {use4state : Bool} (hwidth : d.storageWidth ≤ source.width)
  (hword : source.width < 2 ^ 32) (hwindow : d.window < 2 ^ 32)

include hwidth hword

theorem readValue_eq :
    d.readValue source index use4state =
      match d.writeBounds index d.storageWidth with
      | none => outOfRangeRead d.window false use4state
      | some (beg, end_, skip) =>
        if skip = 0 ∧ beg - end_ + 1 = d.window then source.select beg end_
        else (outOfRangeRead d.window false use4state).assign (source.select beg end_)
          (skip + beg - end_) skip := by
  have hcheck : checkedUsize (d.elemWidth * d.storedElements) = some d.storageWidth := by
    rw [checkedUsize_eq_some_iff, Nat.mul_comm]
    exact ⟨by change d.storageWidth < _; omega, rfl⟩
  unfold readValue
  exact hcheck ▸ rfl

include hwindow

theorem bit_readValue (h : d.writeBounds index d.storageWidth = some (beg, end_, skip))
    (hj : j < d.window) :
    bit (d.readValue source index use4state) j =
      if skip ≤ j ∧ end_ + (j - skip) ≤ beg then bit source (end_ + (j - skip))
      else bit (outOfRangeRead d.window false use4state) j := by
  obtain ⟨hle, hbeg, -⟩ := writeBounds_spec h
  have hselect : ∀ i, end_ + i ≤ beg → bit (source.select beg end_) i = bit source (end_ + i) :=
    fun i hi => bit_select hi (by omega)
  rw [readValue_eq hwidth hword, h]
  dsimp only
  split
  · rename_i hwhole
    rw [if_pos (by omega), hselect j (by omega), hwhole.1, Nat.sub_zero]
  · have hresult : (outOfRangeRead d.window false use4state).width = d.window := by
      cases use4state <;> exact Nat.mod_eq_of_lt hwindow
    have hiff : skip ≤ j ∧ j ≤ skip + beg - end_ ↔ skip ≤ j ∧ end_ + (j - skip) ≤ beg := by omega
    rw [bit_assign _ _ _ (by rwa [hresult]), if_congr hiff rfl rfl]
    split
    · exact hselect _ (by omega)
    · rfl

end Read

/-- Reads and writes at one index. The width of a value is a number of 32 bits. -/
structure Exact (d : DynamicBitSelect) (index : ℕ) : Prop where
  bounds : ∀ width j p, d.Position index j p ∧ p < width ↔ ∃ beg end_ skip,
    d.writeBounds index width = some (beg, end_, skip) ∧
      skip ≤ j ∧ p ≤ beg ∧ p + skip = end_ + j
  none : ∀ width, d.writeBounds index width = none ↔ ∀ j p, d.Position index j p → width ≤ p
  read : ∀ source use4state j p, d.storageWidth ≤ source.width → source.width < 2 ^ 32 →
    d.window < 2 ^ 32 → d.Position index j p → p < d.storageWidth →
      bit (d.readValue source index use4state) j = bit source p
  default : ∀ source use4state j, d.storageWidth ≤ source.width → source.width < 2 ^ 32 →
    d.window < 2 ^ 32 → j < d.window → (∀ p, d.Position index j p → d.storageWidth ≤ p) →
      bit (d.readValue source index use4state) j = bit (outOfRangeRead d.window false use4state) j
  readBack : ∀ env m o width select i value new use4state j p, d.storageWidth ≤ width →
    width < 2 ^ 32 → d.window < 2 ^ 32 → i.toUsize = some index →
    storedValue env m o width select (some (d, i)) value = some new →
    d.Position index j p → p < d.storageWidth →
      bit (d.readValue new index use4state) j =
        bit (if d.lowAdjust ≤ (d.address index).2 then value else value.expand d.window false) j

theorem exact_of_fits (hmax : d.window < 2 ^ 64) (h : d.Fits index) : d.Exact index := by
  have hbounds : ∀ width j p, d.Position index j p ∧ p < width ↔ ∃ beg end_ skip,
      d.writeBounds index width = some (beg, end_, skip) ∧
        skip ≤ j ∧ p ≤ beg ∧ p + skip = end_ + j := by
    intro width j p
    constructor
    · rintro ⟨hpos, hp⟩
      obtain ⟨⟨beg, end_, skip⟩, hb⟩ := exists_writeBounds hmax h hpos hp
      exact ⟨beg, end_, skip, hb, ((writeBounds_spec hb).2.2.2 j p).1 ⟨hpos, hp⟩⟩
    · rintro ⟨beg, end_, skip, hb, hin⟩
      exact ((writeBounds_spec hb).2.2.2 j p).2 hin
  have hread : ∀ source use4state j p, d.storageWidth ≤ source.width → source.width < 2 ^ 32 →
      d.window < 2 ^ 32 → d.Position index j p → p < d.storageWidth →
        bit (d.readValue source index use4state) j = bit source p := by
    intro source use4state j p hw hword hwindow hpos hp
    obtain ⟨beg, end_, skip, hb, hlo, hhi, hp'⟩ := (hbounds _ _ _).1 ⟨hpos, hp⟩
    rw [bit_readValue hw hword hwindow hb hpos.2.1, if_pos ⟨hlo, by omega⟩]
    exact congrArg _ (by omega)
  refine ⟨hbounds, fun width => ⟨fun hnone j p hpos => ?_, fun hall => ?_⟩, hread,
    fun source use4state j hw hword hwindow hj hall => ?_,
    fun env m o width select i value new use4state j p hw hword hwindow hi hnew hpos
      hp => ?_⟩
  · by_contra! hp
    obtain ⟨b, hb⟩ := exists_writeBounds hmax h hpos hp
    simp [hnone] at hb
  · rw [Option.eq_none_iff_forall_ne_some]
    rintro ⟨beg, end_, skip⟩ hb
    obtain ⟨hle, -, -, hiff⟩ := writeBounds_spec hb
    have := (hiff skip end_).2 ⟨le_rfl, hle, rfl⟩
    exact absurd (hall _ _ this.1) (by omega)
  · cases hb : d.writeBounds index d.storageWidth with
    | none => rw [readValue_eq hw hword, hb]
    | some b =>
      obtain ⟨beg, end_, skip⟩ := b
      rw [bit_readValue hw hword hwindow hb hj, if_neg]
      rintro ⟨hlo, hhi⟩
      have := ((writeBounds_spec hb).2.2.2 j _).2 ⟨hlo, hhi, by omega⟩
      exact absurd (hall _ this.1) (by omega)
  · obtain ⟨beg, end_, skip, hb, hlo, hhi, hp'⟩ := (hbounds width j p).1 ⟨hpos, by omega⟩
    obtain ⟨-, -, hskip, -⟩ := writeBounds_spec hb
    simp only [storedValue, hi, hb, bind, Option.bind_some, Option.some.injEq] at hnew
    subst hnew
    rw [hread _ _ _ p (by rwa [width_assign]) (by rwa [width_assign]) hwindow hpos hp,
      bit_assign _ _ _ (by change p < width; omega), if_pos (by omega)]
    by_cases hle : d.lowAdjust ≤ (d.address index).2
    · have hzero : skip = 0 := by simp [hskip, Nat.sub_eq_zero_of_le hle]
      rw [if_pos hzero, if_pos hle]
      exact congrArg _ (by omega)
    · have hzero : skip ≠ 0 := fun h => by
        obtain ⟨-, -, q, -, hq, -⟩ := hpos
        rw [h, eq_comm, Nat.mul_eq_zero] at hskip
        simp [hskip.resolve_left (by omega)] at hq
      have hwide := le_width_expand value d.window false
      have hj := hpos.2.1
      rw [if_neg hzero, if_neg hle, bit_select (by omega) (by omega)]
      exact congrArg _ (by omega)

/-- The checked arithmetic gives bounds only where the numbers fit. -/
theorem fits_of_writeBounds (h : d.writeBounds index width = some (beg, end_, skip)) :
    d.Fits index := by
  obtain ⟨-, hstride, h⟩ := writeBounds_eq_some_iff.1 h
  obtain ⟨hi, -, hrow, hlast, -, hw, hskip, hend, -, -⟩ := boundsInRow_eq_some_iff.1 h
  rw [Nat.sub_mul] at hskip hend
  refine ⟨hstride, ?_, ?_⟩
  · rwa [Nat.add_mul, Nat.add_mul, Nat.one_mul]
  · rcases Nat.le_total d.lowAdjust (d.address index).2 with hle | hle <;>
      have := Nat.mul_le_mul_right d.elemWidth hle <;> omega

/-- Where the numbers fit, the bounds of a window are its bits in the row and the variable;
elsewhere there are no bounds and a read gives the default. -/
theorem dynamicSelect_exact (hmax : d.window < 2 ^ 64) (index : ℕ) :
    (d.Fits index → d.Exact index) ∧ (¬ d.Fits index → (∀ width, d.writeBounds index width = none) ∧
      ∀ source use4state,
        d.readValue source index use4state = outOfRangeRead d.window false use4state) := by
  refine ⟨exact_of_fits hmax, fun hfits => ?_⟩
  have hnone : ∀ width, d.writeBounds index width = none := by
    intro width
    rw [Option.eq_none_iff_forall_ne_some]
    rintro ⟨beg, end_, skip⟩ hb
    exact hfits (fits_of_writeBounds hb)
  refine ⟨hnone, fun source use4state => ?_⟩
  unfold readValue
  cases checkedUsize (d.elemWidth * d.storedElements) with
  | none => rfl
  | some width => simp only [hnone]

/-- An index that starts at one, below the first of the four elements. -/
theorem dynamicSelect_exact_below : (⟨1, none, 2, 4, 4⟩ : DynamicBitSelect).Exact 0 :=
  (dynamicSelect_exact (by decide) _).1 ⟨by decide, by decide, by decide⟩

/-- A window that reaches past the machine word has a bit in the row and no bounds. -/
theorem wideWindow_none :
    (⟨0, none, 1, 2 ^ 64 - 1, 4⟩ : DynamicBitSelect).writeBounds 2 4 = none ∧
      (⟨0, none, 1, 2 ^ 64 - 1, 4⟩ : DynamicBitSelect).Position 2 0 2 :=
  ⟨by decide, by decide, by decide, 2, by decide, by decide, by decide⟩

end Veryl.Simulator.DynamicBitSelect
