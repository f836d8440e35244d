import Veryl.Analyzer.Operators.KnownBits

/-!
Every operator and every conditional value keeps the known bits of its result;
the one exception is stated exactly.
-/

namespace Veryl.Analyzer

open Value Nat ValueBigUint
open ValueU64 (addSub divideRemainder genMask_eq newX_eq)

variable {v v' u u' b b' a a' : Value} {signed : Bool}

/-- The analyzer keeps values of up to 64 bits in native words. -/
def nativeWidth (width : ℕ) : Bool := decide (width ≤ 64)

/-- A run that has a result is followed by one that keeps its known bits. -/
def Stable (r r' : Option Value) : Prop := ∀ v, r = some v → ∃ v', r' = some v' ∧ v.Keeps v'

theorem stable_some (h : v.Keeps v') : Stable (some v) (some v') := by
  rintro _ ⟨⟩
  exact ⟨v', rfl, h⟩

namespace Op

variable {x x' y y' : Value} {width : ℕ}

theorem le_of_nativeWidth : ∀ w, nativeWidth w = true → w ≤ 64 := fun _ h => of_decide_eq_true h

theorem stable_arms (hx : x.Refines x') (hy : y.Refines y')
    (hu : x.width ≤ 64 → y.width ≤ 64 → u.Keeps u')
    (hb : 64 < x.width → 64 < y.width → b.Keeps b') :
    Stable (arms nativeWidth x y u b) (arms nativeWidth x' y' u' b') := by
  unfold arms
  rw [hx.width_eq, hy.width_eq]
  by_cases hxw : nativeWidth x.width = true
  · rw [if_pos hxw, if_pos hxw]
    split
    · exact stable_some (hu (le_of_nativeWidth _ hxw) (le_of_nativeWidth _ ‹_›))
    · exact fun v hv => nomatch hv
  · rw [if_neg hxw, if_neg hxw]
    split
    · exact fun v hv => nomatch hv
    · rename_i hyw
      refine stable_some (hb ?_ ?_)
      · simpa [nativeWidth] using hxw
      · simpa [nativeWidth] using hyw

theorem stable_arms_expand (hx : x.Refines x') (hy : y.Refines y')
    (hu : x.width ≤ 64 → y.width ≤ 64 → u.Refines u')
    (hb : 64 < x.width → 64 < y.width → b.Refines b') (width : ℕ) :
    Stable ((arms nativeWidth x y u b).map fun ret => expand nativeWidth ret width false)
      ((arms nativeWidth x' y' u' b').map fun ret => expand nativeWidth ret width false) := by
  unfold arms
  rw [hx.width_eq, hy.width_eq]
  by_cases hxw : nativeWidth x.width = true
  · rw [if_pos hxw, if_pos hxw]
    split
    · exact stable_some
        (refines_expand nativeWidth (hu (le_of_nativeWidth _ hxw) (le_of_nativeWidth _ ‹_›)) width false).keeps
    · exact fun v hv => nomatch hv
  · rw [if_neg hxw, if_neg hxw]
    split
    · exact fun v hv => nomatch hv
    · rename_i hyw
      refine stable_some (refines_expand nativeWidth (hb ?_ ?_) width false).keeps
      · simpa [nativeWidth] using hxw
      · simpa [nativeWidth] using hyw

theorem keeps_of_strict (hx : x.Refines x') (hy : y.Refines y') {f : Value → Value → Value}
    (hf : (x.isXz || y.isXz) = true → ∃ s, f x y = ValueBigUint.newX width s) :
    (f x y).Keeps (f x' y') := by
  by_cases hxz : (x.isXz || y.isXz) = true
  · obtain ⟨s, hs⟩ := hf hxz
    rw [hs]
    exact keeps_newX width s _
  · obtain ⟨hxxz, hyxz⟩ : x.isXz = false ∧ y.isXz = false := by simpa using hxz
    rw [hx.eq_of_known hxxz, hy.eq_of_known hyxz]
    exact (Refines.refl _).keeps

theorem stable_evalArith (op : Op) (hx : x.Refines x') (hy : y.Refines y') (width : ℕ)
    (signed : Bool) :
    Stable (evalArith nativeWidth op x y width signed)
      (evalArith nativeWidth op x' y' width signed) := by
  have hxe := refines_expand nativeWidth hx width signed
  have hye := refines_expand nativeWidth hy width signed
  have hwidth := le_width_expand nativeWidth x width signed
  unfold evalArith
  generalize expand nativeWidth x width signed = a at hxe hwidth
  generalize expand nativeWidth x' width signed = a' at hxe
  generalize expand nativeWidth y width signed = b at hye
  generalize expand nativeWidth y' width signed = b' at hye
  have hstrict : ∀ f g : Value → Value → Value,
      ((a.isXz || b.isXz) = true → f a b = ValueU64.newX width signed) →
        ((a.isXz || b.isXz) = true → g a b = ValueBigUint.newX width signed) →
          Stable (arms nativeWidth a b (f a b) (g a b))
            (arms nativeWidth a' b' (f a' b') (g a' b')) := by
    intro f g hf hg
    refine stable_arms hxe hye (fun hle _ => ?_)
      (fun _ _ => keeps_of_strict hxe hye fun h => ⟨signed, hg h⟩)
    have hword := newX_eq signed (hwidth.trans hle)
    exact keeps_of_strict hxe hye fun h => ⟨signed, (hf h).trans hword⟩
  have hor : ∀ z : Bool, (a.isXz || b.isXz) = true → (a.isXz || b.isXz || z) = true := by
    intro z h
    rw [h, Bool.true_or]
  cases op with
  | add =>
    exact hstrict (fun a b => addSub a b width signed false)
      (fun a b => ValueBigUint.add a b width signed) (fun h => if_pos h) (fun h => if_pos h)
  | sub =>
    exact hstrict (fun a b => addSub a b width signed true)
      (fun a b => ValueBigUint.sub a b width signed) (fun h => if_pos h) (fun h => if_pos h)
  | mul =>
    exact hstrict (fun a b => ValueU64.multiply a b width signed)
      (fun a b => ValueBigUint.mul a b width signed) (fun h => if_pos h) (fun h => if_pos h)
  | div =>
    exact hstrict (fun a b => divideRemainder a b width signed false)
      (fun a b => divRem a b width signed false) (fun h => if_pos (hor _ h))
      (fun h => if_pos (hor _ h))
  | rem =>
    exact hstrict (fun a b => divideRemainder a b width signed true)
      (fun a b => divRem a b width signed true) (fun h => if_pos (hor _ h))
      (fun h => if_pos (hor _ h))
  | bitOr =>
    exact stable_arms hxe hye (fun _ _ => (refines_bitOr hxe hye width).1.keeps)
      (fun _ _ => (refines_bitOr hxe hye width).2.keeps)
  | bitXor =>
    exact stable_arms hxe hye (fun _ _ => (refines_bitXor hxe hye width).1.keeps)
      (fun _ _ => (refines_bitXor hxe hye width).2.keeps)
  | bitXnor =>
    exact stable_arms hxe hye (fun _ _ => (refines_bitXnor hxe hye width).1.keeps)
      (fun _ _ => (refines_bitXnor hxe hye width).2.keeps)
  | _ => exact fun v hv => nomatch hv

theorem stable_evalEqual (hx : x.Refines x') (hy : y.Refines y') (hxwf : x.WellFormed)
    (hywf : y.WellFormed) {wildcard : Bool} (hwildcard : wildcard = true → y' = y)
    (negated : Bool) : Stable (evalEqual nativeWidth x y width wildcard negated)
      (evalEqual nativeWidth x' y' width wildcard negated) := by
  have hxwidth := width_expand nativeWidth x (max x.width y.width) (x.signed && y.signed)
  have hywidth := width_expand nativeWidth y (max x.width y.width) (x.signed && y.signed)
  have hxe := refines_expand nativeWidth hx (max x.width y.width) (x.signed && y.signed)
  have hye := refines_expand nativeWidth hy (max x.width y.width) (x.signed && y.signed)
  have hxwf' := wellFormed_expand le_of_nativeWidth hxwf (max x.width y.width) (x.signed && y.signed)
  have hywf' := wellFormed_expand le_of_nativeWidth hywf (max x.width y.width) (x.signed && y.signed)
  have hsame : wildcard = true → expand nativeWidth y' (max x.width y.width) (x.signed && y.signed) =
      expand nativeWidth y (max x.width y.width) (x.signed && y.signed) :=
    fun h => by rw [hwildcard h]
  unfold evalEqual
  rw [hx.width_eq, hy.width_eq, hx.signed_eq, hy.signed_eq]
  refine stable_arms_expand hxe hye (fun hxle hyle => ?_) (fun hxgt hygt => ?_) width
  · exact refines_equal_u64 hxe hye hxwf' hywf' hxle hyle hsame negated
  · refine refines_equal_biguint hxe hye (hxwf'.normalised (by omega)) (hywf'.normalised (by omega))
      ?_ ?_ hsame negated
    · rw [hxwidth]
      split <;> omega
    · rw [hywidth]
      split <;> omega

theorem stable_evalCompare (hx : x.Refines x') (hy : y.Refines y')
    (signed greater inclusive : Bool) :
    Stable (evalCompare nativeWidth x y width signed greater inclusive)
      (evalCompare nativeWidth x' y' width signed greater inclusive) := by
  unfold evalCompare
  rw [hx.width_eq, hy.width_eq]
  have hxe := refines_expand nativeWidth hx (max x.width y.width) signed
  have hye := refines_expand nativeWidth hy (max x.width y.width) signed
  exact stable_arms_expand hxe hye (fun _ _ => refines_compare_u64 hxe hye signed greater inclusive)
    (fun _ _ => refines_ordered hxe hye (fun order =>
      if greater then if inclusive then order.isGE else order.isGT
      else if inclusive then order.isLE else order.isLT) signed) width

theorem stable_evalLogic (hx : x.Refines x') (hy : y.Refines y') (hxwf : x.WellFormed)
    (hywf : y.WellFormed) (conjunction : Bool) :
    Stable (evalLogic nativeWidth x y width conjunction)
      (evalLogic nativeWidth x' y' width conjunction) := by
  unfold evalLogic
  rw [hx.width_eq, hy.width_eq]
  have hxe := refines_expand nativeWidth hx (max x.width y.width) false
  have hye := refines_expand nativeWidth hy (max x.width y.width) false
  have hxwf' := wellFormed_expand le_of_nativeWidth hxwf (max x.width y.width) false
  have hywf' := wellFormed_expand le_of_nativeWidth hywf (max x.width y.width) false
  exact stable_arms_expand hxe hye
    (fun hxle hyle => refines_logic_u64 hxe hye hxwf' hywf' hxle hyle conjunction)
    (fun hxgt hygt => refines_logic_biguint hxe hye (hxwf'.normalised (by omega))
      (hywf'.normalised (by omega)) conjunction) width

theorem evalPow_unknown (signed : Bool)
    (h : y.isXz = true ∨ (expand nativeWidth x width signed).isXz = true) :
    ∃ s, evalPow nativeWidth x y width signed = ValueBigUint.newX width s := by
  have hwidth := le_width_expand nativeWidth x width signed
  unfold evalPow
  generalize expand nativeWidth x width signed = a at h hwidth
  have hword : ∀ s, nativeWidth a.width = true →
      ValueU64.newX width s = ValueBigUint.newX width s :=
    fun s hnative => newX_eq s (hwidth.trans (le_of_nativeWidth _ hnative))
  by_cases hboth : (nativeWidth a.width && nativeWidth y.width) = true
  · have hnative := (Bool.and_eq_true_iff.1 hboth).1
    rw [if_pos hboth]
    by_cases hy : y.isXz = true
    · exact ⟨false, (if_pos hy).trans (hword false hnative)⟩
    · have hx := h.resolve_left hy
      exact ⟨a.signed, (if_neg hy).trans ((if_pos hx).trans (hword a.signed hnative))⟩
  · rw [if_neg hboth]
    by_cases hy : y.isXz = true
    · rw [if_pos hy]
      refine ⟨false, ?_⟩
      split
      · exact newX_eq false (le_of_nativeWidth _ ‹_›)
      · rfl
    · have hx := h.resolve_left hy
      rw [if_neg hy]
      refine ⟨a.signed, ?_⟩
      unfold arm powNegative powU64 ValueBigUint.pow
      simp only [hx, Bool.true_or, if_true]
      by_cases hnative : nativeWidth a.width = true
      · rw [if_pos hnative, if_pos hnative,
          genMask_eq (hwidth.trans (le_of_nativeWidth _ hnative)), hword _ hnative]
        split <;> rfl
      · rw [if_neg hnative, if_neg hnative]
        split <;> rfl

theorem keeps_evalPow (hx : x.Refines x') (hy : y.Refines y') (signed : Bool) :
    (evalPow nativeWidth x y width signed).Keeps (evalPow nativeWidth x' y' width signed) := by
  by_cases h : y.isXz = true ∨ (expand nativeWidth x width signed).isXz = true
  · obtain ⟨s, hs⟩ := evalPow_unknown signed h
    rw [hs]
    exact keeps_newX width s _
  · have hyxz : y.isXz = false := eq_false_of_ne_true fun hy => h (.inl hy)
    have hxxz : (expand nativeWidth x width signed).isXz = false :=
      eq_false_of_ne_true fun hx => h (.inr hx)
    unfold evalPow
    rw [hy.eq_of_known hyxz, (refines_expand nativeWidth hx width signed).eq_of_known hxxz]
    exact (Refines.refl _).keeps

theorem keeps_expand_newX (width : ℕ) (signed : Bool) (v : Value) :
    (expand nativeWidth (ValueBigUint.newX width signed) width false).Keeps v := by
  by_cases hzero : width = 0
  · intro i hi
    rw [width_expand] at hi
    simp [ValueBigUint.newX, hzero] at hi
  · have hsame : expand nativeWidth (ValueBigUint.newX width signed) width false =
        ValueBigUint.newX width signed := if_pos ⟨Nat.le_refl width, hzero⟩
    rw [hsame]
    exact keeps_newX width signed v

theorem keeps_shift (hy : y.Refines y') {f : Value → Option ℕ → Value}
    (hknown : ∀ amount, (f x (some amount)).Refines (f x' (some amount)))
    (hunknown : ∃ s, f x none = ValueBigUint.newX width s) :
    (expand nativeWidth (f x y.toUsizeSaturating) width false).Keeps
      (expand nativeWidth (f x' y'.toUsizeSaturating) width false) := by
  unfold Value.toUsizeSaturating
  by_cases hyxz : y.isXz = true
  · obtain ⟨s, hs⟩ := hunknown
    rw [if_pos hyxz, hs]
    exact keeps_expand_newX width s _
  · have hyxz : y.isXz = false := eq_false_of_ne_true hyxz
    rw [hy.eq_of_known hyxz, if_neg (by rw [hyxz]; exact Bool.false_ne_true)]
    exact (refines_expand nativeWidth (hknown _) width false).keeps

theorem arm_of_width (hx : x.Refines x') (hu : x.width ≤ 64 → u.Refines u')
    (hb : b.Refines b') : (arm nativeWidth x u b).Refines (arm nativeWidth x' u' b') := by
  unfold arm
  rw [hx.width_eq]
  split
  · exact hu (le_of_nativeWidth _ ‹_›)
  · exact hb

theorem stable_evalValueBinary (op : Op) (hx : x.Refines x') (hy : y.Refines y')
    (hxwf : x.WellFormed) (hywf : y.WellFormed)
    (hwildcard : op = .eqWildcard ∨ op = .neWildcard → y' = y) (signed : Bool) :
    Stable (evalValueBinary nativeWidth op x y width signed)
      (evalValueBinary nativeWidth op x' y' width signed) := by
  have hxe := refines_expand nativeWidth hx width signed
  have hwidth := le_width_expand nativeWidth x width signed
  have harith := stable_evalArith op hx hy width signed
  have hnone : ∀ v : Value, width ≤ v.width → (arm nativeWidth v (ValueU64.newX width false)
      (ValueBigUint.newX width false)) = ValueBigUint.newX width false := by
    intro v hv
    unfold arm
    split
    · exact newX_eq false (hv.trans (le_of_nativeWidth _ ‹_›))
    · rfl
  cases op with
  | bitAnd =>
    have hxr := refines_resize nativeWidth hx width signed
    have hyr := refines_resize nativeWidth hy width signed
    exact stable_arms hxr hyr (fun _ _ => (refines_bitAnd hxr hyr width).1.keeps)
      (fun _ _ => (refines_bitAnd hxr hyr width).2.keeps)
  | eq => exact stable_evalEqual hx hy hxwf hywf (fun h => absurd h Bool.false_ne_true) false
  | ne => exact stable_evalEqual hx hy hxwf hywf (fun h => absurd h Bool.false_ne_true) true
  | eqWildcard => exact stable_evalEqual hx hy hxwf hywf (fun _ => hwildcard (.inl rfl)) false
  | neWildcard => exact stable_evalEqual hx hy hxwf hywf (fun _ => hwildcard (.inr rfl)) true
  | greater => exact stable_evalCompare hx hy signed true false
  | greaterEq => exact stable_evalCompare hx hy signed true true
  | less => exact stable_evalCompare hx hy signed false false
  | lessEq => exact stable_evalCompare hx hy signed false true
  | logicAnd => exact stable_evalLogic hx hy hxwf hywf true
  | logicOr => exact stable_evalLogic hx hy hxwf hywf false
  | logicShiftR =>
    refine stable_some (keeps_shift (f := fun a amount => arm nativeWidth a
      (ValueU64.shiftRight a amount width signed false)
      (ValueBigUint.logicShiftR a amount width)) hy (fun amount => ?_) ⟨false, ?_⟩)
    · exact arm_of_width hxe (fun _ => refines_shiftRight_u64 hxe amount width signed false)
        (refines_logicShiftR hxe amount width)
    · exact hnone _ hwidth
  | arithShiftR =>
    refine stable_some (keeps_shift (f := fun a amount => arm nativeWidth a
      (ValueU64.shiftRight a amount width signed true)
      (ValueBigUint.arithShiftR a amount width signed)) hy (fun amount => ?_) ⟨false, ?_⟩)
    · exact arm_of_width hxe (fun _ => refines_shiftRight_u64 hxe amount width signed true)
        (refines_arithShiftR hxe amount width signed)
    · exact hnone _ hwidth
  | logicShiftL =>
    refine stable_some (keeps_shift (f := fun a amount => arm nativeWidth a
      (ValueU64.shiftLeft a amount width false)
      (shiftLeft a amount width false)) hy (fun amount => ?_) ⟨false, ?_⟩)
    · exact arm_of_width hxe (fun _ => (refines_shiftLeft hxe amount width false).1)
        (refines_shiftLeft hxe amount width false).2
    · exact hnone _ hwidth
  | arithShiftL =>
    refine stable_some (keeps_shift (f := fun a amount => arm nativeWidth a
      (ValueU64.shiftLeft a amount width true)
      (shiftLeft a amount width true)) hy (fun amount => ?_) ⟨false, ?_⟩)
    · exact arm_of_width hxe (fun _ => (refines_shiftLeft hxe amount width true).1)
        (refines_shiftLeft hxe amount width true).2
    · exact hnone _ hwidth
  | pow => exact stable_some (keeps_evalPow hx hy signed)
  | as => exact stable_some hx.keeps
  | _ => exact harith

/-- A reduction of the bits of an operand. An unsized all-bit literal has none,
so it is read as a known value even when its pattern is unknown. -/
def Materialised (op : Op) (x : Value) : Prop :=
  x.width = 0 → x.maskXz ≠ 0 → (op ≠ .bitAnd ∧ op ≠ .bitNand) ∧
    (x.payload ≠ 0 → op ≠ .bitOr ∧ op ≠ .bitNor ∧ op ≠ .logicNot)

instance (op : Op) (x : Value) : Decidable (Materialised op x) := by
  unfold Materialised
  infer_instance

theorem arm_reduceAnd (x : Value) (negated : Bool) :
    arm nativeWidth x (ValueU64.reduceAnd x negated) (reduceAnd x negated) = reduceAnd x negated :=
  arm_native fun h => reduceAnd_eq (le_of_nativeWidth _ h) negated

theorem arm_reduceOr (x : Value) (negated : Bool) :
    arm nativeWidth x (ValueU64.reduceOr x negated) (ValueBigUint.reduceOr x negated) =
      ValueBigUint.reduceOr x negated :=
  arm_native fun h => reduceOr_eq (le_of_nativeWidth _ h) negated

theorem arm_reduceXor (x : Value) (negated : Bool) :
    arm nativeWidth x (ValueU64.reduceXor x negated) (reduceXor x negated) = reduceXor x negated :=
  arm_native fun _ => reduceXor_eq negated

theorem arm_negate (x : Value) (width : ℕ) (hwidth : width ≤ x.width) :
    arm nativeWidth x (ValueU64.negate x width) (negate x width) = negate x width :=
  arm_native fun h => negate_eq (hwidth.trans (le_of_nativeWidth _ h))

theorem keeps_negate (hx : x.Refines x') (width : ℕ) : (negate x width).Keeps (negate x' width) :=
  keeps_of_strict hx hx (f := fun x _ => negate x width) fun h =>
    ⟨x.signed, if_pos (by simpa using h)⟩

theorem reduceAnd_of_materialised (hx : x.Refines x') (hwf : x.WellFormed) (negated : Bool)
    (h : x.width = 0 → x.maskXz = 0) :
    (reduceAnd x negated).Refines (reduceAnd x' negated) := by
  by_cases hzero : x.width = 0
  · rw [hx.eq_of_known (not_isXz_iff.2 (h hzero))]
    exact .refl _
  · exact refines_reduceAnd hx (hwf.normalised (by omega)) negated

theorem reduceOr_of_materialised (hx : x.Refines x') (hwf : x.WellFormed) (negated : Bool)
    (h : x.width = 0 → x.maskXz ≠ 0 → x.payload = 0) :
    (ValueBigUint.reduceOr x negated).Refines (ValueBigUint.reduceOr x' negated) := by
  by_cases hzero : x.width = 0
  · by_cases hmask : x.maskXz = 0
    · rw [hx.eq_of_known (not_isXz_iff.2 hmask)]
      exact .refl _
    · have hpayload := h hzero hmask
      unfold ValueBigUint.reduceOr
      simp only [hpayload, zero_and, ne_eq, not_true_eq_false, decide_false, hmask,
        not_false_eq_true, decide_true]
      cases negated with
      | true =>
        exact refines_newBit0x (fun h => absurd h Bool.false_ne_true)
          fun _ h => absurd h.symm Bool.false_ne_true
      | false =>
        exact refines_newBit1x (fun h => absurd h Bool.false_ne_true)
          fun _ h => absurd h.symm Bool.false_ne_true
  · exact refines_reduceOr hx (hwf.normalised (by omega)) negated

theorem stable_evalValueUnary (op : Op) (hx : x.Refines x') (hwf : x.WellFormed)
    (hop : Materialised op x) (signed : Bool) :
    Stable (evalValueUnary nativeWidth op x width signed)
      (evalValueUnary nativeWidth op x' width signed) := by
  have hxe := refines_expand nativeWidth hx width signed
  have hwidth := le_width_expand nativeWidth x width signed
  have hwidth' := le_width_expand nativeWidth x' width signed
  have hand : ∀ negated, op = .bitAnd ∨ op = .bitNand →
      Stable (some (expand nativeWidth (reduceAnd x negated) width false))
        (some (expand nativeWidth (reduceAnd x' negated) width false)) := by
    intro negated hop'
    refine stable_some (refines_expand nativeWidth (reduceAnd_of_materialised hx hwf negated ?_) _ _).keeps
    intro hzero
    by_contra hmask
    obtain ⟨hand, -⟩ := hop hzero hmask
    exact hop'.elim hand.1 hand.2
  have hor : ∀ negated, op = .bitOr ∨ op = .bitNor ∨ op = .logicNot →
      Stable (some (expand nativeWidth (ValueBigUint.reduceOr x negated) width false))
        (some (expand nativeWidth (ValueBigUint.reduceOr x' negated) width false)) := by
    intro negated hop'
    refine stable_some (refines_expand nativeWidth (reduceOr_of_materialised hx hwf negated ?_) _ _).keeps
    intro hzero hmask
    by_contra hpayload
    obtain ⟨hor, hnor, hnot⟩ := (hop hzero hmask).2 hpayload
    exact hop'.elim hor fun h => h.elim hnor hnot
  unfold evalValueUnary
  cases op with
  | add => exact stable_some hxe.keeps
  | sub =>
    dsimp only
    rw [arm_negate _ _ hwidth, arm_negate _ _ hwidth']
    exact stable_some (keeps_negate hxe width)
  | bitNot =>
    exact stable_some (arm_of_width hxe (fun _ => refines_bitNot_u64 hxe width)
      (refines_bitNot_biguint hxe width)).keeps
  | bitAnd =>
    dsimp only
    rw [arm_reduceAnd, arm_reduceAnd]
    exact hand false (.inl rfl)
  | bitNand =>
    dsimp only
    rw [arm_reduceAnd, arm_reduceAnd]
    exact hand true (.inr rfl)
  | bitOr =>
    dsimp only
    rw [arm_reduceOr, arm_reduceOr]
    exact hor false (.inl rfl)
  | bitNor =>
    dsimp only
    rw [arm_reduceOr, arm_reduceOr]
    exact hor true (.inr (.inl rfl))
  | logicNot =>
    dsimp only
    rw [arm_reduceOr, arm_reduceOr]
    exact hor true (.inr (.inr rfl))
  | bitXor =>
    dsimp only
    rw [arm_reduceXor, arm_reduceXor]
    exact stable_some (refines_expand nativeWidth (refines_reduceXor hx false) _ _).keeps
  | bitXnor =>
    dsimp only
    rw [arm_reduceXor, arm_reduceXor]
    exact stable_some (refines_expand nativeWidth (refines_reduceXor hx true) _ _).keeps
  | _ => exact fun v hv => nomatch hv

theorem not_stable_bit (width : ℕ) (h : (v.width = 1 ∧ v.signed = false ∧ v.maskXz = 0) ∧
      (v'.width = 1 ∧ v'.signed = false ∧ v'.maskXz = 0) ∧
        v.payload.testBit 0 ≠ v'.payload.testBit 0) :
    ¬Stable (some (expand nativeWidth v width false)) (some (expand nativeWidth v' width false)) := by
  obtain ⟨⟨hv, hv0, hmask⟩, ⟨hwidth', hv'0, hmask'⟩, hne⟩ := h
  have hpayload : ∀ u : Value, u.width = 1 → u.signed = false → u.maskXz = 0 →
      (expand nativeWidth u width false).payload = u.payload ∧
        (expand nativeWidth u width false).maskXz = 0 := by
    intro u hu hs hm
    rw [expand_native le_of_nativeWidth]
    unfold expand ValueBigUint.expand
    split
    · exact ⟨rfl, hm⟩
    · rw [if_neg (by omega), if_neg Bool.false_ne_true]
      simp [hs, hm]
  intro h
  obtain ⟨_, hsome, hkeeps⟩ := h _ rfl
  rw [← Option.some.inj hsome] at hkeeps
  have hpos : 0 < (expand nativeWidth v width false).width := by
    rw [width_expand]
    split <;> omega
  obtain ⟨-, hbit⟩ := hkeeps 0 hpos (by rw [(hpayload v hv hv0 hmask).2, zero_testBit])
  rw [(hpayload v hv hv0 hmask).1, (hpayload v' hwidth' hv'0 hmask').1] at hbit
  exact hne hbit.symm

theorem exists_unstable (op : Op) (hwf : x.WellFormed) (hop : ¬Materialised op x) (width : ℕ)
    (signed : Bool) : ∃ x' : Value, x'.WellFormed ∧ x'.isXz = false ∧ x.Refines x' ∧
      ¬Stable (evalValueUnary nativeWidth op x width signed)
        (evalValueUnary nativeWidth op x' width signed) := by
  obtain ⟨p, m, w, s⟩ := x
  have hzero : w = 0 := by
    by_contra hne
    exact hop fun h => absurd h hne
  have hmask : m ≠ 0 := by
    intro h
    exact hop fun _ hne => absurd h hne
  subst hzero
  have hm : m = 1 := by
    have hlt : m < 2 ^ max 0 1 := hwf.maskXz_lt
    have htwo : 2 ^ max 0 1 = 2 := rfl
    omega
  subst hm
  have hp : p = 0 ∨ p = 1 := by
    have hlt : p < 2 ^ max 0 1 := hwf.payload_lt
    have htwo : 2 ^ max 0 1 = 2 := rfl
    omega
  have hrefines : Refines ⟨p, 1, 0, s⟩ ⟨0, 0, 0, s⟩ := by
    refine ⟨rfl, rfl, fun i hi => ⟨zero_testBit i, ?_⟩⟩
    have hpos : 0 < i := by
      obtain rfl | h := Nat.eq_zero_or_pos i
      · have hone : (1 : ℕ).testBit 0 = false := hi
        exact absurd hone (by decide)
      · exact h
    have hlt : p < 2 ^ i :=
      Nat.lt_of_lt_of_le (by omega : p < 2 ^ 1) (Nat.pow_le_pow_right (by omega) hpos)
    exact (zero_testBit i).trans (testBit_lt_two_pow hlt).symm
  refine ⟨⟨0, 0, 0, s⟩, ⟨Nat.two_pow_pos _, Nat.two_pow_pos _⟩, rfl, hrefines, ?_⟩
  have hcase : ((op = .bitAnd ∨ op = .bitNand) ∨
      (p = 1 ∧ (op = .bitOr ∨ op = .bitNor ∨ op = .logicNot))) := by
    by_contra hnone
    rw [not_or] at hnone
    refine hop fun _ _ => ⟨not_or.1 hnone.1, fun hne => ?_⟩
    have hone : p = 1 := hp.resolve_left hne
    have hrest : ¬(op = .bitOr ∨ op = .bitNor ∨ op = .logicNot) := fun h => hnone.2 ⟨hone, h⟩
    exact ⟨fun h => hrest (.inl h), fun h => hrest (.inr (.inl h)), fun h => hrest (.inr (.inr h))⟩
  obtain hand | ⟨rfl, hor⟩ := hcase
  · clear hop hwf hrefines
    obtain rfl | rfl := hand
    · obtain rfl | rfl := hp <;> exact not_stable_bit width (by cases s <;> decide)
    · obtain rfl | rfl := hp <;> exact not_stable_bit width (by cases s <;> decide)
  · clear hop hwf hrefines hp
    obtain rfl | rfl | rfl := hor <;> exact not_stable_bit width (by cases s <;> decide)

theorem truth_mono (hx : x.Refines x') (hwf : x.WellFormed) (b : Bool)
    (h : x.truth nativeWidth = some b) : x'.truth nativeWidth = some b := by
  by_cases hxz : x.isXz = true
  · have hmask : x.maskXz ≠ 0 := by simpa [Value.isXz] using hxz
    unfold Value.truth ValueU64.truth at h ⊢
    rw [hx.width_eq]
    by_cases hword : nativeWidth x.width = true
    · rw [if_pos hword] at h ⊢
      by_cases hone : x.payload &&& ValueU64.not x.maskXz ≠ 0
      · rw [if_pos hone] at h
        rw [if_pos (knownOne_u64_mono hx hwf (le_of_nativeWidth _ hword) hone)]
        exact h
      · rw [if_neg hone, if_pos hmask] at h
        cases h
    · have hwide : 64 < x.width := by simpa [nativeWidth] using hword
      have hxor : ∀ v : Value, (v.payload ^^^ (v.payload &&& v.maskXz)).testBit =
          fun i => v.payload.testBit i && (v.maskXz.testBit i ^^ true) := by
        intro v
        funext i
        rw [testBit_xor, testBit_and]
        cases v.payload.testBit i <;> cases v.maskXz.testBit i <;> rfl
      rw [if_neg hword] at h ⊢
      by_cases hone : x.payload ^^^ (x.payload &&& x.maskXz) ≠ 0
      · rw [if_pos hone] at h
        have hone' : x'.payload ^^^ (x'.payload &&& x'.maskXz) ≠ 0 :=
          knownOne_mono (c := fun _ => true) (fun i => congrFun (hxor x) i)
            (fun i => congrFun (hxor x') i) hx (fun i hi => absurd hi.symm Bool.false_ne_true) hone
        rw [if_pos hone']
        exact h
      · rw [if_neg hone, if_pos hmask] at h
        cases h
  · rw [hx.eq_of_known (eq_false_of_ne_true hxz)]
    exact h

/-- The bits two branches have in common. -/
structure Merges (width : ℕ) (a b v : Value) : Prop where
  width_eq : v.width = width
  maskXz_eq : ∀ i, i < width → v.maskXz.testBit i =
    ((a.payload.testBit i ^^ b.payload.testBit i) || (a.maskXz.testBit i || b.maskXz.testBit i))
  payload_eq : ∀ i, i < width → v.payload.testBit i = (a.payload.testBit i &&
    !((a.payload.testBit i ^^ b.payload.testBit i) || (a.maskXz.testBit i || b.maskXz.testBit i)))

/-- The branch a condition selects, or what both have in common. -/
def choose (cond : Option Bool) (a b v : Value) : Value :=
  match cond with
  | some true => a
  | some false => b
  | none => v

theorem keeps_choice {cond cond' : Option Bool}
    (hcond : ∀ c, cond = some c → cond' = some c) (ha : a.Refines a') (hb : b.Refines b')
    (hv : Merges width a b v) (hv' : Merges width a' b' v') :
    Keeps ((choose cond a b v).setSigned signed) ((choose cond' a' b' v').setSigned signed) := by
  cases cond with
  | some c =>
    rw [hcond c rfl]
    cases c with
    | true => exact ha.keeps
    | false => exact hb.keeps
  | none =>
    intro i hi hmask
    have hi : i < v.width := hi
    rw [hv.width_eq] at hi
    have hmask : v.maskXz.testBit i = false := hmask
    rw [hv.maskXz_eq i hi] at hmask
    obtain ⟨hsame, hmasks⟩ := Bool.or_eq_false_iff.1 hmask
    obtain ⟨ham, hbm⟩ := Bool.or_eq_false_iff.1 hmasks
    obtain ⟨ham', hap'⟩ := ha.bits i ham
    obtain ⟨hbm', hbp'⟩ := hb.bits i hbm
    have heq : a.payload.testBit i = b.payload.testBit i := by
      cases hap : a.payload.testBit i <;> cases hbp : b.payload.testBit i <;> simp_all
    have hpayload : v.payload.testBit i = a.payload.testBit i := by
      rw [hv.payload_eq i hi, hmask]
      simp
    show _ ∧ _ = v.payload.testBit i
    rw [hpayload]
    cases cond' with
    | some c =>
      cases c with
      | true => exact ⟨ham', hap'⟩
      | false => exact ⟨hbm', hbp'.trans heq.symm⟩
    | none =>
      show v'.maskXz.testBit i = false ∧ v'.payload.testBit i = a.payload.testBit i
      rw [hv'.maskXz_eq i hi, hv'.payload_eq i hi, ham', hbm', hap', hbp', ← heq]
      simp

theorem merges_u64 (a b : Value) (hle : width ≤ 64) (signed : Bool) : Merges width a b
      ⟨a.payload &&& (ValueU64.not ((a.payload ^^^ b.payload) ||| (a.maskXz ||| b.maskXz)) &&&
          ValueU64.genMask width),
        (a.maskXz &&& (ValueU64.not ((a.payload ^^^ b.payload) ||| (a.maskXz ||| b.maskXz)) &&&
          ValueU64.genMask width)) |||
          (ValueU64.genMask width ^^^ (ValueU64.not ((a.payload ^^^ b.payload) |||
            (a.maskXz ||| b.maskXz)) &&& ValueU64.genMask width)), width, signed⟩ := by
  have hbits : ∀ i, i < width → (ValueU64.not ((a.payload ^^^ b.payload) |||
      (a.maskXz ||| b.maskXz)) &&& ValueU64.genMask width).testBit i =
        !((a.payload.testBit i ^^ b.payload.testBit i) ||
          (a.maskXz.testBit i || b.maskXz.testBit i)) := by
    intro i hi
    have hword : i < 64 := by omega
    rw [genMask_eq hle, testBit_and, testBit_genMask, testBit_not_comm, testBit_or,
      testBit_or, testBit_xor]
    simp [hi, hword]
  refine ⟨rfl, fun i hi => ?_, fun i hi => ?_⟩
  · dsimp only
    rw [testBit_or, testBit_and, testBit_xor, hbits i hi, genMask_eq hle,
      testBit_genMask, decide_eq_true hi]
    cases a.maskXz.testBit i <;> simp
  · dsimp only
    rw [testBit_and, hbits i hi]

theorem merges_biguint (a b : Value) (width : ℕ) (signed : Bool) : Merges width a b
      ⟨a.payload &&& (genMask width ^^^ ((a.payload ^^^ b.payload) ||| a.maskXz ||| b.maskXz)),
        (a.maskXz &&& (genMask width ^^^ ((a.payload ^^^ b.payload) ||| a.maskXz ||| b.maskXz))) |||
          (genMask width ^^^ (genMask width ^^^
            ((a.payload ^^^ b.payload) ||| a.maskXz ||| b.maskXz))), width, signed⟩ := by
  refine ⟨rfl, fun i hi => ?_, fun i hi => ?_⟩
  · dsimp only
    simp only [testBit_or, testBit_and, testBit_xor, testBit_genMask, decide_eq_true hi]
    cases a.maskXz.testBit i <;> simp
  · dsimp only
    simp [testBit_genMask, decide_eq_true hi, Bool.or_assoc]

theorem keeps_conditional_u64 {cond cond' : Option Bool} {contextWidth : ℕ}
    (hcond : ∀ c, cond = some c → cond' = some c) (ha : a.Refines a')
    (hb : b.Refines b') (hle : max (max contextWidth a.width) b.width ≤ 64) :
    Keeps (ValueU64.conditional a b cond contextWidth signed)
      (ValueU64.conditional a' b' cond' contextWidth signed) := by
  unfold ValueU64.conditional
  rw [ha.width_eq, hb.width_eq]
  exact keeps_choice hcond (refines_expand_u64 ha _ signed) (refines_expand_u64 hb _ signed)
    (merges_u64 _ _ hle signed) (merges_u64 _ _ hle signed)

theorem stable_conditional {c c' : Value} (hc : c.Refines c') (ha : a.Refines a')
    (hb : b.Refines b') (hcwf : c.WellFormed) (contextWidth : ℕ) (signed : Bool) :
    Stable (Value.conditional nativeWidth c a b contextWidth signed)
      (Value.conditional nativeWidth c' a' b' contextWidth signed) := by
  have hcond := truth_mono hc hcwf
  have hae := refines_expand nativeWidth ha (max (max contextWidth a.width) b.width) signed
  have hbe := refines_expand nativeWidth hb (max (max contextWidth a.width) b.width) signed
  have hawidth := le_width_expand nativeWidth a (max (max contextWidth a.width) b.width) signed
  unfold Value.conditional
  rw [ha.width_eq, hb.width_eq]
  by_cases hwords : (nativeWidth (max (max contextWidth a.width) b.width) && nativeWidth a.width &&
      nativeWidth b.width && decide (a.width ≠ 0) && decide (b.width ≠ 0)) = true
  · rw [if_pos hwords, if_pos hwords]
    have hle : nativeWidth (max (max contextWidth a.width) b.width) = true := by
      simp only [Bool.and_eq_true] at hwords
      exact hwords.1.1.1.1
    exact stable_some (keeps_conditional_u64 hcond ha hb (le_of_nativeWidth _ hle))
  · rw [if_neg hwords, if_neg hwords]
    refine stable_arms hae hbe (fun hale hble => ?_) (fun _ _ => ?_)
    · refine keeps_conditional_u64 hcond hae hbe ?_
      omega
    · exact keeps_choice hcond hae hbe (merges_biguint _ _ _ signed) (merges_biguint _ _ _ signed)

end Op

/-- One evaluation of an operator, or of a conditional value. -/
inductive Evaluation where
  | unary (op : Op) (x : Value)
  | binary (op : Op) (x y : Value)
  | conditional (cond onTrue onFalse : Value)

namespace Evaluation

def run (width : ℕ) (signed : Bool) : Evaluation → Option Value
  | unary op x => op.evalValueUnary nativeWidth x width signed
  | binary op x y => op.evalValueBinary nativeWidth x y width signed
  | conditional cond onTrue onFalse => cond.conditional nativeWidth onTrue onFalse width signed

def WellFormed : Evaluation → Prop
  | unary _ x => x.WellFormed
  | binary _ x y => x.WellFormed ∧ y.WellFormed
  | conditional cond onTrue onFalse => cond.WellFormed ∧ onTrue.WellFormed ∧ onFalse.WellFormed

/-- The same evaluation with unknown operand bits replaced; those of the right
operand of a wildcard comparison are no values but wildcards. -/
def Refines : Evaluation → Evaluation → Prop
  | unary op x, unary op' x' => op' = op ∧ x.Refines x'
  | binary op x y, binary op' x' y' => op' = op ∧ x.Refines x' ∧ y.Refines y' ∧
      (op = .eqWildcard ∨ op = .neWildcard → y' = y)
  | conditional c a b, conditional c' a' b' => c.Refines c' ∧ a.Refines a' ∧ b.Refines b'
  | _, _ => False

/-- No reduction of an unsized literal with an unknown pattern. -/
def Materialised : Evaluation → Prop
  | unary op x => op.Materialised x
  | _ => True

/-- Known result bits are kept exactly where no reduction reads an unsized
literal as no bits. -/
theorem stable_iff_materialised (e : Evaluation) (hwf : e.WellFormed) (width : ℕ) (signed : Bool) :
    (∀ e', e'.WellFormed → e.Refines e' → Stable (e.run width signed) (e'.run width signed)) ↔
      e.Materialised := by
  constructor
  · intro h
    cases e with
    | unary op x =>
      by_contra hop
      obtain ⟨x', hwf', -, hrefines, hunstable⟩ := Op.exists_unstable op hwf hop width signed
      exact hunstable (h (unary op x') hwf' ⟨rfl, hrefines⟩)
    | binary op x y => trivial
    | conditional c a b => trivial
  · intro hop e' hwf' hrefines
    cases e with
    | unary op x =>
      cases e' with
      | unary op' x' =>
        obtain ⟨rfl, hx⟩ := hrefines
        exact Op.stable_evalValueUnary op' hx hwf hop signed
      | binary op' x' y' => exact hrefines.elim
      | conditional c' a' b' => exact hrefines.elim
    | binary op x y =>
      cases e' with
      | unary op' x' => exact hrefines.elim
      | binary op' x' y' =>
        obtain ⟨rfl, hx, hy, hwildcard⟩ := hrefines
        exact Op.stable_evalValueBinary op' hx hy hwf.1 hwf.2 hwildcard signed
      | conditional c' a' b' => exact hrefines.elim
    | conditional c a b =>
      cases e' with
      | unary op' x' => exact hrefines.elim
      | binary op' x' y' => exact hrefines.elim
      | conditional c' a' b' =>
        obtain ⟨hc, ha, hb⟩ := hrefines
        exact Op.stable_conditional hc ha hb hwf.1 width signed

theorem stable_iff_materialised_and :
    (∀ e', e'.WellFormed → (binary .bitAnd ⟨10, 4, 4, false⟩ ⟨3, 1, 3, false⟩).Refines e' →
      Stable ((binary .bitAnd ⟨10, 4, 4, false⟩ ⟨3, 1, 3, false⟩).run 4 false) (e'.run 4 false)) ↔
      (binary .bitAnd ⟨10, 4, 4, false⟩ ⟨3, 1, 3, false⟩).Materialised :=
  stable_iff_materialised (binary .bitAnd ⟨10, 4, 4, false⟩ ⟨3, 1, 3, false⟩)
    ⟨⟨by decide, by decide⟩, ⟨by decide, by decide⟩⟩ 4 false

/-- The reduction of an unsized literal of unknown bits is a known zero, that of
zeros a one. -/
theorem not_stable_reduction :
    ¬∀ (e : Evaluation), e.WellFormed → ∀ (width : ℕ) (signed : Bool) (e' : Evaluation),
      e'.WellFormed → e.Refines e' → Stable (e.run width signed) (e'.run width signed) := by
  intro h
  have hstable := h (unary .bitAnd ⟨0, 1, 0, false⟩) ⟨by decide, by decide⟩ 1 false
    (unary .bitAnd ⟨0, 0, 0, false⟩) ⟨by decide, by decide⟩
    ⟨rfl, rfl, rfl, fun i _ => ⟨zero_testBit i, rfl⟩⟩
  exact Op.not_stable_bit 1 (by decide) hstable

end Evaluation

end Veryl.Analyzer
