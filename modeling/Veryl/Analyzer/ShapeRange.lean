import Veryl.Analyzer.AssignTableSteps
import Veryl.Library.MixedRadix

/-!
The positions of the elements of an array in its flat storage, and the positions of the
elements that an index of the outer dimensions leaves.
-/

namespace Veryl.Analyzer.AssignTables.Shape

open Library.MixedRadix List Nat

variable {a b i : ℕ}

def checkedSub (a b : ℕ) : Option ℕ := if b ≤ a then some (a - b) else none

/-- The start of the range, the stride of the dimension and the length of the range. -/
def rangeStep (acc : ℕ × ℕ × ℕ) (dimension : Option ℕ × Option ℕ) : Option (ℕ × ℕ × ℕ) := do
  let extent ← dimension.2
  if extent = 0 then none
  else
    match dimension.1 with
    | some i =>
      if extent ≤ i then none
      else
        let start ← checkedAdd acc.1 (← checkedMul i acc.2.1)
        some (start, ← checkedMul acc.2.1 extent, acc.2.2)
    | none =>
      let length ← checkedMul acc.2.2 extent
      some (acc.1, ← checkedMul acc.2.1 extent, length)

/-- The index of each of `n` dimensions, `none` for a dimension without one. -/
def indexOf (index : List ℕ) (n : ℕ) : List (Option ℕ) :=
  index.map some ++ replicate (n - index.length) none

/-- The first and the last position under an index of the outer dimensions. -/
def calcRange (shape : Shape) (index : List ℕ) : Option (ℕ × ℕ) :=
  if shape.length < index.length then none
  else do
    if (← shape.total) = 0 then none
    else
      let acc ← ((indexOf index shape.length).zip shape).reverse.foldlM rangeStep (0, 1, 1)
      some (acc.1, ← checkedAdd acc.1 (← checkedSub acc.2.2 1))

def extents (shape : Shape) : List ℕ := shape.map (·.getD 0)

/-- An index of every dimension, each below its extent. -/
abbrev InRange (shape : Shape) (index : List ℕ) : Prop := Within index shape.extents

variable {shape : Shape} {index : List ℕ} {extents : List ℕ} {t : ℕ}

theorem length_extents : shape.extents.length = shape.length :=
  length_map _

theorem map_some_extents (h : shape.total = some t) : shape.extents.map some = shape := by
  have hknown : ∀ extent ∈ shape, extent ≠ none := by
    rintro extent hextent rfl
    have hany : shape.any Option.isNone = true := any_eq_true.2 ⟨none, hextent, rfl⟩
    rw [total, if_pos hany] at h
    cases h
  rw [Shape.extents, map_map]
  refine (map_congr_left fun extent hextent => ?_).trans (map_id shape)
  obtain ⟨e, rfl⟩ := Option.ne_none_iff_exists'.1 (hknown extent hextent)
  rfl

theorem prod_extents (h : shape.total = some t) : shape.extents.prod = t :=
  (total_eq_product h).symm

theorem checkedMul_of_lt (h : a * b < 2 ^ 64) : checkedMul a b = some (a * b) :=
  if_pos h

theorem checkedAdd_of_lt (h : a + b < 2 ^ 64) : checkedAdd a b = some (a + b) :=
  if_pos h

theorem prod_tail_lt {extent : ℕ} (hpos : 0 < (extent :: extents).prod)
    (hlt : (extent :: extents).prod < 2 ^ 64) :
    0 < extent ∧ 0 < extents.prod ∧ extents.prod < 2 ^ 64 := by
  have hextent := Nat.pos_of_mul_pos_right hpos
  exact ⟨hextent, Nat.pos_of_mul_pos_left hpos,
    lt_of_le_of_lt (Nat.le_mul_of_pos_left _ hextent) hlt⟩

theorem prod_drop_pos (hpos : 0 < extents.prod) (n : ℕ) : 0 < (extents.drop n).prod := by
  rw [← prod_take_mul_prod_drop extents n] at hpos
  exact Nat.pos_of_mul_pos_left hpos

theorem term_lt {extent rest : ℕ} (hi : i < extent) (hrest : rest < extents.prod)
    (hlt : (extent :: extents).prod < 2 ^ 64) :
    i * extents.prod < 2 ^ 64 ∧ rest + i * extents.prod < 2 ^ 64 := by
  have hstep : (i + 1) * extents.prod ≤ (extent :: extents).prod :=
    Nat.mul_le_mul_right _ hi |>.trans_eq prod_cons.symm
  rw [succ_mul] at hstep
  omega

theorem foldlM_indexStep_within (hlen : index.length = extents.length)
    (hpos : 0 < extents.prod) (hlt : extents.prod < 2 ^ 64) :
    (index.zip (extents.map some)).reverse.foldlM indexStep (0, 1) =
      if Within index extents then some (value extents index, extents.prod) else none := by
  induction extents generalizing index with
  | nil =>
    obtain rfl := length_eq_zero_iff.1 hlen
    rfl
  | cons extent extents ih =>
    obtain ⟨i, index, rfl⟩ := exists_cons_of_length_eq_add_one hlen
    obtain ⟨-, hpos', hlt'⟩ := prod_tail_lt hpos hlt
    rw [map_cons, zip_cons_cons, reverse_cons, foldlM_append, ih (Nat.succ.inj hlen) hpos' hlt']
    by_cases hwithin : Within index extents
    · rw [if_pos hwithin]
      by_cases hi : i < extent
      · obtain ⟨hterm, hsum⟩ := term_lt hi (value_lt hwithin) hlt
        have hbase : extents.prod * extent < 2 ^ 64 := by
          rwa [Nat.mul_comm, ← prod_cons]
        simp [indexStep, Nat.not_le.2 hi, hwithin, hi, checkedMul_of_lt hterm,
          checkedAdd_of_lt hsum, checkedMul_of_lt hbase, value, Nat.add_comm, Nat.mul_comm]
      · simp [indexStep, hi, Nat.le_of_not_lt hi]
    · simp [hwithin]

theorem foldlM_rangeStep (hlen : index.length ≤ extents.length)
    (hpos : 0 < extents.prod) (hlt : extents.prod < 2 ^ 64) :
    ((indexOf index extents.length).zip (extents.map some)).reverse.foldlM rangeStep (0, 1, 1) =
      if Within index (extents.take index.length) then
        some (value extents index, extents.prod, (extents.drop index.length).prod)
      else none := by
  induction extents generalizing index with
  | nil =>
    obtain rfl := length_eq_zero_iff.1 (le_zero.1 hlen)
    rfl
  | cons extent extents ih =>
    obtain ⟨hextent, hpos', hlt'⟩ := prod_tail_lt hpos hlt
    have hbase : extents.prod * extent < 2 ^ 64 := by
      rwa [Nat.mul_comm, ← prod_cons]
    cases index with
    | nil =>
      have hrest := @ih [] (Nat.zero_le _) hpos' hlt'
      simp only [indexOf, map_nil, length_nil, nil_append, Nat.sub_zero] at hrest ⊢
      rw [length_cons, replicate_succ, map_cons, zip_cons_cons, reverse_cons, foldlM_append, hrest]
      simp [rangeStep, hextent.ne', checkedMul_of_lt hbase, value, Nat.mul_comm]
    | cons i index =>
      have hcons : indexOf (i :: index) (extent :: extents).length =
          some i :: indexOf index extents.length := by
        simp [indexOf]
      rw [hcons, map_cons, zip_cons_cons, reverse_cons, foldlM_append,
        ih (succ_le_succ_iff.1 hlen) hpos' hlt']
      by_cases hwithin : Within index (extents.take index.length)
      · rw [if_pos hwithin]
        by_cases hi : i < extent
        · have hle := value_add_le (succ_le_succ_iff.1 hlen) hwithin
          have hdrop := prod_drop_pos hpos' index.length
          have hrest : value extents index < extents.prod := by omega
          obtain ⟨hterm, hsum⟩ := term_lt hi hrest hlt
          simp [rangeStep, Nat.not_le.2 hi, hextent.ne', hwithin, hi, checkedMul_of_lt hterm,
            checkedAdd_of_lt hsum, checkedMul_of_lt hbase, value, Nat.add_comm, Nat.mul_comm]
        · simp [rangeStep, hi, Nat.le_of_not_lt hi]
      · simp [hwithin]

theorem calcIndex_eq (htotal : shape.total = some t) (hlen : index.length = shape.length) :
    shape.calcIndex index =
      if shape.InRange index then some (value shape.extents index) else none := by
  have hlen' : index.length = shape.extents.length := hlen.trans length_extents.symm
  rcases Nat.eq_zero_or_pos t with rfl | hpos
  · have hnone : shape.calcIndex index = none := by
      refine Option.eq_none_iff_forall_not_mem.2 fun i hi => ?_
      obtain ⟨n, hn, hlt⟩ := calcIndex_lt hi
      rw [htotal] at hn
      exact Nat.not_lt_zero i (Option.some.inj hn ▸ hlt)
    rw [hnone, if_neg fun h => Nat.not_lt_zero _ (prod_extents htotal ▸ value_lt h)]
  · rw [← prod_extents htotal] at hpos
    have hlt := prod_extents htotal ▸ total_lt htotal
    have hfold := foldlM_indexStep_within hlen' hpos hlt
    rw [map_some_extents htotal] at hfold
    unfold calcIndex
    split
    · rename_i hscalar
      rcases hscalar with rfl | ⟨rfl, rfl⟩
      · obtain rfl := length_eq_zero_iff.1 hlen
        rfl
      · cases hlen
    · rw [if_neg (not_not.2 hlen), htotal, hfold]
      by_cases h : shape.InRange index <;> simp [h]

theorem calcRange_eq (htotal : shape.total = some t) : shape.calcRange index =
    if 0 < t ∧ Within index (shape.extents.take index.length) then
      some (value shape.extents index,
        value shape.extents index + ((shape.extents.drop index.length).prod - 1))
    else none := by
  unfold calcRange
  split
  · rename_i hlong
    refine (if_neg fun h => ?_).symm
    have := h.2.length_eq
    rw [length_take, length_extents] at this
    omega
  · rename_i hlen
    rw [htotal, Option.bind_eq_bind, Option.bind_some]
    split
    · rename_i hzero
      rw [if_neg fun h => h.1.ne' hzero]
    · rename_i hne
      have hpos : 0 < shape.extents.prod := prod_extents htotal ▸ Nat.pos_of_ne_zero hne
      have hlt := prod_extents htotal ▸ total_lt htotal
      have hlen' : index.length ≤ shape.extents.length := by
        rw [length_extents]
        omega
      have hfold := foldlM_rangeStep hlen' hpos hlt
      rw [length_extents, map_some_extents htotal] at hfold
      rw [hfold]
      by_cases h : Within index (shape.extents.take index.length)
      · have hle := value_add_le (by omega) h
        have hdrop := prod_drop_pos hpos index.length
        have hlast : value shape.extents index + ((shape.extents.drop index.length).prod - 1) <
            2 ^ 64 := by omega
        rw [if_pos h, if_pos ⟨Nat.pos_of_ne_zero hne, h⟩]
        simp [checkedSub, if_pos (succ_le_of_lt hdrop), checkedAdd_of_lt hlast]
      · simp [h]

/-- The positions of the elements under an index of the outer dimensions. -/
def completions (shape : Shape) (index : List ℕ) : Set ℕ :=
  {i | ∃ rest, shape.InRange (index ++ rest) ∧ shape.calcIndex (index ++ rest) = some i}

theorem mem_completions (htotal : shape.total = some t) (hlen : index.length ≤ shape.length) :
    i ∈ shape.completions index ↔
      Within index (shape.extents.take index.length) ∧ value shape.extents index ≤ i ∧
        i < value shape.extents index + (shape.extents.drop index.length).prod := by
  rw [← exists_completion_iff (hlen.trans length_extents.ge)]
  refine exists_congr fun rest => and_congr_right fun h => ?_
  rw [calcIndex_eq htotal (h.length_eq.trans length_extents), if_pos h, Option.some.injEq]

/-- The elements of an array and the positions below its total are in bijection, and the range
of an index is the set of the positions under it. -/
theorem calcIndex_bijOn (htotal : shape.total = some t) :
    Set.BijOn shape.calcIndex {index | shape.InRange index} (some '' Set.Iio t) ∧
    (∀ index, ¬shape.InRange index → shape ≠ [] → (shape = [some 1] → index ≠ []) →
      shape.calcIndex index = none) ∧
    (∀ index, match shape.calcRange index with
      | some (first, last) => first ≤ last ∧ shape.completions index = Set.Icc first last
      | none => shape.completions index = ∅) ∧
    ∀ index index', index.length = index'.length → index ≠ index' →
      Disjoint (shape.completions index) (shape.completions index') := by
  have hvalue : ∀ {index}, shape.InRange index →
      shape.calcIndex index = some (value shape.extents index) := fun h => by
    rw [calcIndex_eq htotal (h.length_eq.trans length_extents), if_pos h]
  refine ⟨⟨fun index h => ?_, fun index h index' h' heq => ?_, ?_⟩, ?_, ?_, ?_⟩
  · exact ⟨_, prod_extents htotal ▸ value_lt h, (hvalue h).symm⟩
  · rw [hvalue h, hvalue h', Option.some.injEq] at heq
    exact eq_of_value_eq h h' heq
  · rintro _ ⟨i, hi, rfl⟩
    obtain ⟨index, h, rfl⟩ := exists_value (prod_extents htotal ▸ hi)
    exact ⟨index, h, hvalue h⟩
  · intro index h hne hone
    by_cases hlen : index.length = shape.length
    · rw [calcIndex_eq htotal hlen, if_neg h]
    · unfold calcIndex
      rw [if_neg (by tauto), if_pos hlen]
  · intro index
    by_cases hlen : index.length ≤ shape.length
    · rw [calcRange_eq htotal]
      split
      · rename_i first last heq
        split at heq
        · rename_i h
          obtain ⟨rfl, rfl⟩ := Prod.mk.inj (Option.some.inj heq)
          refine ⟨Nat.le_add_right _ _, Set.ext fun i => ?_⟩
          have hdrop := prod_drop_pos (prod_extents htotal ▸ h.1) index.length
          rw [mem_completions htotal hlen, Set.mem_Icc, and_iff_right h.2]
          omega
        · cases heq
      · rename_i heq
        refine Set.eq_empty_of_forall_notMem fun i hi => ?_
        obtain ⟨hwithin, hle, hlt⟩ := (mem_completions htotal hlen).1 hi
        have hle' := value_add_le (hlen.trans length_extents.ge) hwithin
        rw [prod_extents htotal] at hle'
        rw [if_pos ⟨by omega, hwithin⟩] at heq
        cases heq
    · rw [calcRange, if_pos (Nat.lt_of_not_le hlen)]
      refine Set.eq_empty_of_forall_notMem fun i ⟨rest, hrest, _⟩ => hlen ?_
      have := hrest.length_eq
      rw [length_append, length_extents] at this
      omega
  · intro index index' hlen hne
    refine Set.disjoint_left.2 ?_
    rintro i ⟨rest, hrest, hi⟩ ⟨rest', hrest', hi'⟩
    rw [hvalue hrest, Option.some.injEq] at hi
    rw [hvalue hrest', Option.some.injEq] at hi'
    exact hne (append_inj (eq_of_value_eq hrest hrest' (hi.trans hi'.symm)) hlen).1

theorem calcIndex_bijOn_pair :
    Set.BijOn (calcIndex [some 2, some 3]) {index | InRange [some 2, some 3] index}
      (some '' Set.Iio 6) :=
  (@calcIndex_bijOn [some 2, some 3] 6 rfl).1

/-- The number of elements leaves a word, and no index is accepted. -/
theorem calcIndex_overflow : InRange [some (2 ^ 33), some (2 ^ 33)] [0, 0] ∧
      calcIndex [some (2 ^ 33), some (2 ^ 33)] [0, 0] = none :=
  ⟨.cons (by decide) (.cons (by decide) .nil), by decide +kernel⟩

end Veryl.Analyzer.AssignTables.Shape
