import Veryl.Simulator.BigArray

/-!
Which offsets an access stands for: the test whether an expression reads an
offset against the list of the elements, and the elements against the offsets
an access keeps where big arrays are folded.
-/

namespace Veryl.Simulator

open Veryl.Library List

variable {e l l' : ProtoExpression} {off base : VarOffset} {stride : ℤ} {n : ℕ}

def ProtoExpression.gatherDynamicReadRanges (e : ProtoExpression) : List (Bool × ℤ × ℤ × ℕ) :=
  e.leaves.filterMap fun
    | .dynamicVariable base stride _ _ n _ _ _ _ => some (base.isFf, base.raw, stride, n)
    | _ => none

def dynamicRangesContain (ranges : List (Bool × ℤ × ℤ × ℕ)) (off : VarOffset) : Bool :=
  ranges.any fun (isFf, base, stride, n) =>
    isFf = off.isFf ∧ 0 < stride ∧ base ≤ off.raw ∧ off.raw < base + stride * n ∧
      (off.raw - base) % stride = 0

def ProtoExpression.readsOffset (e : ProtoExpression) (off : VarOffset) : Bool :=
  dynamicRangesContain e.gatherDynamicReadRanges off || off ∈ e.gatherVariableOffsets

/-- The array of a leaf with a runtime index: base, stride and count. -/
def ProtoExpression.array : ProtoExpression → Option (VarOffset × ℤ × ℕ)
  | .dynamicVariable base stride _ _ n _ _ _ _ => some (base, stride, n)
  | _ => none

/-- The offset is an element of the array. -/
def Element (base : VarOffset) (stride : ℤ) (n : ℕ) (off : VarOffset) : Prop :=
  ∃ i < n, base.add (stride * i) = off

/-- The access can read the offset. -/
def ProtoExpression.Touches (l : ProtoExpression) (off : VarOffset) : Prop :=
  match l with
  | .variable o _ _ _ _ _ => o = off
  | .dynamicVariable base stride _ _ n _ _ _ _ => Element base stride n off
  | _ => False

/-- The access is known to the test for the offset: by an end of its array, or as an element
where the stride is positive. -/
def ProtoExpression.Known (l : ProtoExpression) (off : VarOffset) : Prop :=
  off ∈ leafOffsets l ∨ ∃ base stride n, l.array = some (base, stride, n) ∧ 0 < stride ∧
    Element base stride n off

theorem element_iff_range (hs : 0 < stride) : Element base stride n off ↔
    base.isFf = off.isFf ∧ base.raw ≤ off.raw ∧ off.raw < base.raw + stride * n ∧
      (off.raw - base.raw) % stride = 0 := by
  constructor
  · rintro ⟨i, hi, rfl⟩
    have hlt : stride * i < stride * n := by
      rw [Int.mul_lt_mul_left hs]
      omega
    have hle : 0 ≤ stride * i := Int.mul_nonneg hs.le (Int.natCast_nonneg i)
    simp only [VarOffset.isFf_add, VarOffset.raw_add, add_sub_cancel_left,
      Int.mul_emod_right, true_and, and_true]
    omega
  · rintro ⟨hff, hlo, hhi, hmod⟩
    obtain ⟨k, hk⟩ := Int.dvd_of_emod_eq_zero hmod
    have hk0 : 0 ≤ k := by
      by_contra hneg
      have := Int.mul_neg_of_pos_of_neg hs (not_le.1 hneg)
      omega
    have hkn : k < n := by
      rw [← Int.mul_lt_mul_left hs]
      omega
    refine ⟨k.toNat, by omega, (VarOffset.ext_iff_raw _ _).2 ⟨by simpa using hff, ?_⟩⟩
    rw [VarOffset.raw_add, Int.toNat_of_nonneg hk0]
    omega

theorem readsOffset_iff : e.readsOffset off ↔ ∃ l ∈ e.leaves, l.Known off := by
  have hrange : dynamicRangesContain e.gatherDynamicReadRanges off = true ↔
      ∃ l ∈ e.leaves, ∃ base stride n, l.array = some (base, stride, n) ∧ 0 < stride ∧
        Element base stride n off := by
    rw [dynamicRangesContain, any_eq_true]
    constructor
    · rintro ⟨r, hr, hhas⟩
      obtain ⟨l, hl, hsome⟩ := mem_filterMap.1 hr
      split at hsome
      · obtain rfl := Option.some.inj hsome
        obtain ⟨hff, hs, hrest⟩ := of_decide_eq_true hhas
        exact ⟨_, hl, _, _, _, rfl, hs, (element_iff_range hs).2 ⟨hff, hrest⟩⟩
      · cases hsome
    · rintro ⟨l, hl, base, stride, n, harray, hs, helement⟩
      unfold ProtoExpression.array at harray
      split at harray
      · obtain ⟨rfl, rfl, rfl⟩ := Option.some.inj harray
        obtain ⟨hff, hrest⟩ := (element_iff_range hs).1 helement
        exact ⟨_, mem_filterMap.2 ⟨_, hl, rfl⟩, decide_eq_true ⟨hff, hs, hrest⟩⟩
      · cases harray
  rw [ProtoExpression.readsOffset, Bool.or_eq_true, hrange, decide_eq_true_iff,
    ProtoExpression.gatherVariableOffsets, mem_flatMap]
  simp only [ProtoExpression.Known, and_or_left, exists_or, or_comm]

theorem mem_expanded_iff :
    off ∈ e.gatherVariableOffsetsExpanded ⟨[]⟩ ↔ ∃ l ∈ e.leaves, l.Touches off := by
  rw [ProtoExpression.gatherVariableOffsetsExpanded, mem_flatMap]
  refine exists_congr fun l => and_congr_right fun _ => ?_
  cases l <;> simp [ProtoExpression.Touches, BigArrayFold.canon, arrayOffsets,
    BigArrayFold.covers, BigArrayFold.find, Element, VarOffset.new_add, partitionPoint, eq_comm]

/-- An access may read what the test knows of it, unless its array is empty. -/
theorem ProtoExpression.Known.touches (h : l.Known off)
    (hsome : ∀ stride, l.array ≠ some (off, stride, 0)) : l.Touches off := by
  rcases h with h | ⟨base, stride, n, harray, -, h⟩
  · cases l with
    | «variable» o sel ds w f c => exact (mem_singleton.1 h).symm
    | dynamicVariable base stride nb i n sel ds w c =>
      have hn : 0 < n ∨ off ≠ base := by
        by_contra hnot
        obtain ⟨hn, rfl⟩ : n = 0 ∧ off = base := by simpa using hnot
        exact hsome stride (by rw [hn]; rfl)
      rcases mem_cons.1 h with rfl | h
      · exact ⟨0, hn.resolve_right (by simp), by simp⟩
      · rw [mem_ite_nil_right, mem_singleton] at h
        obtain ⟨hone, rfl⟩ := h
        have hcast : ((n - 1 : ℕ) : ℤ) = n - 1 := by omega
        exact ⟨n - 1, by omega, by rw [lastElement, VarOffset.new_add, hcast]⟩
    | _ => cases h
  · cases l with
    | dynamicVariable => cases harray; exact h
    | _ => cases harray

/-- The test knows what an access may read, unless it is inside a descending array. -/
theorem ProtoExpression.Touches.known (h : l.Touches off)
    (hinside : ∀ base stride n, l.array = some (base, stride, n) → stride < 0 →
      ∀ i, 0 < i → i + 1 < n → off ≠ base.add (stride * (i : ℕ))) : l.Known off := by
  cases l with
  | «variable» o sel ds w f c => exact .inl (mem_singleton.2 h.symm)
  | dynamicVariable base stride nb i n sel ds w c =>
    obtain ⟨i, hi, rfl⟩ := h
    rcases lt_trichotomy stride 0 with hs | rfl | hs
    · by_cases hzero : i = 0
      · exact .inl (by simp [leafOffsets, hzero])
      · by_cases hlast : i + 1 < n
        · exact absurd rfl (hinside _ _ _ rfl hs i (Nat.pos_of_ne_zero hzero) hlast)
        · obtain rfl : n = i + 1 := by omega
          refine .inl (mem_cons_of_mem _ ?_)
          rw [if_pos (by omega), mem_singleton, lastElement, VarOffset.new_add]
          simp
    · exact .inl (by simp [leafOffsets])
    · exact .inr ⟨_, _, _, rfl, hs, i, hi, rfl⟩
  | _ => exact h.elim

/-- The test agrees with the list exactly where each base of an empty array is read by some
access and each element inside a descending array is known of some access. -/
theorem readsOffset_eq_expanded_iff :
    (∀ off, e.readsOffset off = true ↔ off ∈ e.gatherVariableOffsetsExpanded ⟨[]⟩) ↔
      (∀ l ∈ e.leaves, ∀ base stride, l.array = some (base, stride, 0) →
        ∃ l' ∈ e.leaves, l'.Touches base) ∧
      ∀ l ∈ e.leaves, ∀ base stride n, l.array = some (base, stride, n) → stride < 0 →
        ∀ i, 0 < i → i + 1 < n → ∃ l' ∈ e.leaves, l'.Known (base.add (stride * i)) := by
  simp only [readsOffset_iff, mem_expanded_iff]
  constructor
  · intro h
    refine ⟨fun l hl base stride harray => (h base).1 ⟨l, hl, .inl ?_⟩,
      fun l hl base stride n harray _ i _ hi => (h _).2 ⟨l, hl, ?_⟩⟩ <;> cases l <;> cases harray
    · exact mem_cons_self
    · exact ⟨i, by omega, rfl⟩
  · rintro ⟨hempty, hinside⟩ off
    constructor
    · rintro ⟨l, hl, hknown⟩
      by_cases hsome : ∃ stride, l.array = some (off, stride, 0)
      · obtain ⟨stride, harray⟩ := hsome
        exact hempty l hl off stride harray
      · exact ⟨l, hl, hknown.touches (not_exists.1 hsome)⟩
    · rintro ⟨l, hl, htouches⟩
      by_cases hin : ∃ base stride n, l.array = some (base, stride, n) ∧ stride < 0 ∧
          ∃ i, 0 < i ∧ i + 1 < n ∧ off = base.add (stride * i)
      · obtain ⟨base, stride, n, harray, hs, i, hi, hin, rfl⟩ := hin
        exact hinside l hl base stride n harray hs i hi hin
      · exact ⟨l, hl, htouches.known fun base stride n harray hs i hi hi' heq =>
          hin ⟨base, stride, n, harray, hs, i, hi, hi', heq⟩⟩

/-- An access to `n` elements from `base` on, at an index that is read nowhere. -/
def arrayAccess (base : VarOffset) (stride : ℤ) (n : ℕ) : ProtoExpression :=
  .dynamicVariable base stride 1 (.value (.new 0 8 false) 8 ⟨8, false⟩) n none none 8 ⟨8, false⟩

theorem descending_element_unread : ¬ ∀ (e : ProtoExpression) (off : VarOffset),
    e.readsOffset off = true ↔ off ∈ e.gatherVariableOffsetsExpanded ⟨[]⟩ := fun h =>
  absurd (h (arrayAccess (.comb 16) (-8) 3) (.comb 8)) (by decide)

end Veryl.Simulator
