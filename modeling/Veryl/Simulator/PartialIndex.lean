import Veryl.Analyzer.ShapeRange

/-!
The base of the slice that a constant index of the outer dimensions selects. The sums and
products wrap at the word.
-/

namespace Veryl.Simulator

open Library.MixedRadix Analyzer.AssignTables List Nat

/-- The elements that one step of each dimension spans, from the last dimension to the first. -/
def strides (dims : List ℕ) : List ℕ :=
  dims.tail.foldr (fun dim strides => strides.headD 1 * dim % 2 ^ 64 :: strides) [1]

def partialIndexBase (parentDims : Shape) (idxVals : List ℕ)
    (childElementCount parentElementCount : ℕ) : Option ℕ :=
  if parentDims.length ≤ idxVals.length then none
  else if (parentDims.take idxVals.length).any Option.isNone then none
  else
    let dims := parentDims.map (·.getD 1)
    let base := (zipWith (fun v stride => v * stride % 2 ^ 64) idxVals (strides dims)).foldl
      (fun sum term => (sum + term) % 2 ^ 64) 0
    let remaining := (dims.drop idxVals.length).foldl (fun product dim => product * dim % 2 ^ 64) 1
    if remaining ≠ childElementCount ∨ parentElementCount < (base + remaining) % 2 ^ 64 then none
    else some base

variable {dims idxVals : List ℕ} {child parent : ℕ}

theorem headD_strides (dim : ℕ) (dims : List ℕ) :
    (strides (dim :: dims)).headD 1 = dims.prod % 2 ^ 64 := by
  induction dims generalizing dim with
  | nil => rfl
  | cons dim' dims ih =>
    change (strides (dim' :: dims)).headD 1 * dim' % 2 ^ 64 = _
    rw [ih, prod_cons, mod_mul_mod, Nat.mul_comm]

theorem strides_cons (dim dim' : ℕ) (dims : List ℕ) : strides (dim :: dim' :: dims) =
      (dim' :: dims).prod % 2 ^ 64 :: strides (dim' :: dims) :=
  congrArg (· :: strides (dim' :: dims)) (headD_strides dim (dim' :: dims))

theorem foldl_terms (hlen : idxVals.length < dims.length) (sum : ℕ) :
    (zipWith (fun v stride => v * stride % 2 ^ 64) idxVals (strides dims)).foldl
      (fun sum term => (sum + term) % 2 ^ 64) (sum % 2 ^ 64) =
      (sum + value dims idxVals) % 2 ^ 64 := by
  induction idxVals generalizing dims sum with
  | nil => simp [value]
  | cons v idxVals ih =>
    obtain _ | ⟨dim, _ | ⟨dim', dims⟩⟩ := dims
    · exact absurd hlen (not_lt_zero _)
    · exact absurd (lt_of_succ_lt_succ hlen) (not_lt_zero _)
    · rw [strides_cons, zipWith_cons_cons, foldl_cons, mul_mod_mod, ← add_mod,
        ih (lt_of_succ_lt_succ hlen), value, Nat.add_assoc]

theorem foldl_product (product : ℕ) :
    dims.foldl (fun product dim => product * dim % 2 ^ 64) (product % 2 ^ 64) =
      product * dims.prod % 2 ^ 64 := by
  induction dims generalizing product with
  | nil => rw [foldl_nil, prod_nil, Nat.mul_one]
  | cons dim dims ih =>
    rw [foldl_cons, mod_mul_mod, ih, prod_cons, Nat.mul_assoc]

theorem partialIndexBase_eq (hlen : idxVals.length < dims.length) :
    partialIndexBase (dims.map some) idxVals child parent =
      if (dims.drop idxVals.length).prod % 2 ^ 64 ≠ child ∨
        parent < (value dims idxVals + (dims.drop idxVals.length).prod) % 2 ^ 64 then none
      else some (value dims idxVals % 2 ^ 64) := by
  have hknown : ((dims.map some).take idxVals.length).any Option.isNone = false := by
    rw [← map_take, any_map]
    exact any_eq_false.2 fun _ _ => Bool.false_ne_true
  have hdims : (dims.map some).map (·.getD 1) = dims := by
    rw [map_map]
    exact map_id dims
  have hbase := foldl_terms hlen 0
  have hremaining := @foldl_product (dims.drop idxVals.length) 1
  rw [Nat.zero_add] at hbase
  rw [Nat.one_mul] at hremaining
  rw [partialIndexBase, if_neg (by rw [length_map]; omega), hknown, if_neg Bool.false_ne_true,
    hdims]
  dsimp only
  rw [zero_mod] at hbase
  rw [show (1 : ℕ) % 2 ^ 64 = 1 from rfl] at hremaining
  rw [hbase, hremaining, ← add_mod]

/-- A base is given for an index in range only, and is then where the elements under the index
start; it is given for every index in range whose other dimensions match the child. -/
def SelectsSlice (dims idxVals : List ℕ) (child : ℕ) (result : Option ℕ) : Prop :=
  (∀ base ∈ result, Within idxVals (dims.take idxVals.length) ∧
    Shape.completions (dims.map some) idxVals = Set.Ico base (base + child)) ∧
  (Within idxVals (dims.take idxVals.length) → (dims.drop idxVals.length).prod = child →
    result.isSome)

/-- The slice is right unless an index is out of range, the other dimensions match the child and
the slice ends within the parent. -/
theorem partialIndexBase_selectsSlice (htotal : Shape.total (dims.map some) = some parent)
    (hlen : idxVals.length < dims.length) :
    SelectsSlice dims idxVals child (partialIndexBase (dims.map some) idxVals child parent) ↔
      Within idxVals (dims.take idxVals.length) ∨
      (dims.drop idxVals.length).prod % 2 ^ 64 ≠ child ∨
      parent < (value dims idxVals + (dims.drop idxVals.length).prod) % 2 ^ 64 := by
  have hextents : Shape.extents (dims.map some) = dims := by
    rw [Shape.extents, map_map]
    exact map_id dims
  rw [partialIndexBase_eq hlen]
  by_cases hwithin : Within idxVals (dims.take idxVals.length)
  · have hle := value_add_le hlen.le hwithin
    have hparent := Shape.prod_extents htotal
    have hword := Shape.total_lt htotal
    rw [hextents] at hparent
    refine iff_of_true ?_ (.inl hwithin)
    rw [mod_eq_of_lt (by omega), mod_eq_of_lt (by omega), mod_eq_of_lt (by omega)]
    by_cases hchild : (dims.drop idxVals.length).prod = child
    · rw [if_neg (by omega)]
      refine ⟨?_, fun _ _ => rfl⟩
      rintro _ ⟨⟩
      refine ⟨hwithin, Set.ext fun i => ?_⟩
      rw [Shape.mem_completions htotal (by rw [length_map]; exact hlen.le), hextents,
        and_iff_right hwithin, hchild]
      rfl
    · rw [if_pos (.inl hchild)]
      exact ⟨fun _ h => absurd h (Option.not_mem_none _), fun _ h => absurd h hchild⟩
  · rw [or_iff_right hwithin]
    split
    · rename_i h
      exact iff_of_true ⟨fun _ h => absurd h (Option.not_mem_none _), fun h => absurd h hwithin⟩ h
    · rename_i h
      exact iff_of_false (fun hlaw => hwithin (hlaw.1 _ rfl).1) h

theorem partialIndexBase_selectsSlice_row :
    SelectsSlice [2, 3, 4] [1] 12 (partialIndexBase [some 2, some 3, some 4] [1] 12 24) :=
  (@partialIndexBase_selectsSlice [2, 3, 4] [1] 12 24 rfl (by decide)).2
    (.inl (.cons (by decide) .nil))

/-- The inner index is past its dimension, and the slice of another row is given. -/
theorem partialIndexBase_aliases : partialIndexBase [some 2, some 3, some 4] [0, 5] 4 24 = some 20 ∧
      ¬SelectsSlice [2, 3, 4] [0, 5] 4 (partialIndexBase [some 2, some 3, some 4] [0, 5] 4 24) := by
  refine ⟨by decide +kernel, fun h => ?_⟩
  have hwithin : Within [0, 5] [2, 3] := (h.1 20 (by decide +kernel)).1
  exact absurd (forall₂_cons.1 (forall₂_cons.1 hwithin).2).1 (by decide)

end Veryl.Simulator
