import Veryl.Synthesizer.Multiply

/-!
The nets of a product evaluate to it. Every step of the compression is an equation of weighted
sums modulo the width: an adder trades the nets it takes for a sum of their weight and a carry
of twice that weight, and a carry past the top column weighs nothing.
-/

namespace Veryl.Synthesizer.Netlist

open List Option Nat

variable {aExt bExt : List NetId}

variable {ρ : NetId → Bool} {width c : ℕ} {buckets next : List (List NetId)} {c : ℕ}

theorem modEq_of_eq {a b n : ℕ} (h : a = b) : a ≡ b [MOD n] := h ▸ Nat.ModEq.refl a

theorem sum_range_bits (l : List Bool) (m : ℕ) :
    ((List.range m).map fun j => 2 ^ j * (l.getD j false).toNat).sum = busValue l % 2 ^ m := by
  induction l generalizing m with
  | nil =>
    simp [busValue]
  | cons b bs ih =>
    cases m with
    | zero => exact (mod_one _).symm
    | succ m =>
      have hhigh : (List.range m).map ((fun j => 2 ^ j * ((b :: bs).getD j false).toNat) ∘ Nat.succ)
          = (List.range m).map fun j => 2 * (2 ^ j * (bs.getD j false).toNat) :=
        map_congr_left fun j _ => by
          show 2 ^ (j + 1) * (bs.getD j false).toNat = _
          ring
      have hb := Bool.toNat_le b
      have hhalf : (b.toNat + 2 * busValue bs) / 2 = busValue bs := by omega
      have hlow : 2 ^ 0 * ((b :: bs).getD 0 false).toNat = b.toNat := Nat.one_mul _
      rw [range_succ_eq_map, map_cons, List.map_map, hhigh, sum_cons, hlow, sum_map_mul_left, ih,
        busValue, Nat.pow_succ, Nat.mul_comm _ 2, mod_mul, hhalf]
      omega

theorem shifted_modEq (i x y : ℕ) (hi : i ≤ width) :
    2 ^ i * (y * (x % 2 ^ (width - i))) ≡ 2 ^ i * y * x [MOD 2 ^ width] := by
  have hpow : 2 ^ width = 2 ^ i * 2 ^ (width - i) := by
    rw [← Nat.pow_add, Nat.add_sub_cancel' hi]
  rw [hpow, Nat.mul_assoc]
  exact ((mod_modEq x _).mul_left y).mul_left' (2 ^ i)

theorem number_products {l : List NetId} (y : Bool) (m : ℕ) (f : List NetId)
    (hf : f.map ρ = (List.range m).map fun j => y && (l.map ρ).getD j false) :
    number ρ f = y.toNat * (number ρ l % 2 ^ m) := by
  have hlen : (f.map ρ).length = m := by rw [hf, length_map, length_range]
  have hbits := sum_range_bits (f.map ρ) m
  rw [mod_eq_of_lt (hlen ▸ busValue_lt _)] at hbits
  rw [number, ← hbits, number, ← sum_range_bits, ← sum_map_mul_left]
  congr 1
  refine map_congr_left fun j hj => ?_
  rw [hf, getD_eq_getElem?_getD, getElem?_map, getElem?_range (mem_range.1 hj), map_some, getD_some]
  cases y <;> simp

/-- The weights of the rows that are still to come. -/
def rowsWeight (ρ : NetId → Bool) (bExt : List NetId) (rows : List ℕ) : ℕ :=
  (rows.map fun i => 2 ^ i * (ρ (netOf bExt i)).toNat).sum

theorem rowsWeight_range (ρ : NetId → Bool) (hb : bExt.length = width) :
    rowsWeight ρ bExt (List.range width) = number ρ bExt := by
  have hbits := sum_range_bits (bExt.map ρ) width
  rw [mod_eq_of_lt (by simpa [hb] using busValue_lt (bExt.map ρ))] at hbits
  rw [rowsWeight, number, ← hbits]
  congr 1
  refine map_congr_left fun i hi => ?_
  have hi' := mem_range.1 hi
  rw [value_netOf ρ (by omega)]

def columnSum (ρ : NetId → Bool) (col : List NetId) : ℕ := (col.map fun n => (ρ n).toNat).sum

/-- The sum of all columns, each net with the weight of its column. -/
def weight (ρ : NetId → Bool) : List (List NetId) → ℕ
  | [] => 0
  | col :: cols => columnSum ρ col + 2 * weight ρ cols

@[simp] theorem length_pushAt (buckets : List (List NetId)) (c : ℕ) (n : NetId) :
    (pushAt buckets c n).length = buckets.length := length_modify ..

@[simp] theorem length_pushCarry (buckets : List (List NetId)) (c : ℕ) (n : NetId) :
    (pushCarry width buckets c n).length = buckets.length := by
  unfold pushCarry
  split <;> simp

theorem weight_pushAt (hc : c < buckets.length) (n : NetId) :
    weight ρ (pushAt buckets c n) = weight ρ buckets + 2 ^ c * (ρ n).toNat := by
  induction buckets generalizing c with
  | nil => exact absurd hc (Nat.not_lt_zero _)
  | cons col cols ih =>
    cases c with
    | zero =>
      have hpush : pushAt (col :: cols) 0 n = (col ++ [n]) :: cols := rfl
      have hsum : columnSum ρ (col ++ [n]) = columnSum ρ col + (ρ n).toNat := by
        simp [columnSum]
      rw [hpush, weight, weight, hsum]
      omega
    | succ c =>
      have hpush : pushAt (col :: cols) (c + 1) n = col :: pushAt cols c n := rfl
      rw [hpush, weight, weight, ih (lt_of_succ_lt_succ hc), Nat.pow_succ]
      ring

theorem weight_pushCarry (hlen : buckets.length = width) (hc : c < width) (n : NetId) :
    weight ρ (pushCarry width buckets c n) ≡
      weight ρ buckets + 2 ^ (c + 1) * (ρ n).toNat [MOD 2 ^ width] := by
  unfold pushCarry
  split
  · rename_i hin
    rw [weight_pushAt (by omega)]
  · rename_i hout
    obtain rfl : width = c + 1 := by omega
    exact (modEq_of_eq (Nat.add_zero _).symm).trans
      (Nat.ModEq.add_left _ (modEq_zero_iff_dvd.2 (Dvd.intro _ rfl)).symm)

theorem weight_pushes (hlen : next.length = width) (hc : c < width) (s cy : NetId) :
    weight ρ (pushCarry width (pushAt next c s) c cy) ≡
      weight ρ next + 2 ^ c * ((ρ s).toNat + 2 * (ρ cy).toNat) [MOD 2 ^ width] := by
  refine (weight_pushCarry (by rw [length_pushAt, hlen]) hc cy).trans (modEq_of_eq ?_)
  rw [weight_pushAt (by omega), Nat.pow_succ]
  ring

theorem makes_compressColumn (hc : c < width) : ∀ (col : List NetId)
    (next : List (List NetId)), next.length = width →
      Makes (compressColumn width c col next) (fun next' => next'.length = width) fun ρ next' =>
        weight ρ next' ≡ weight ρ next + 2 ^ c * columnSum ρ col [MOD 2 ^ width]
  | x :: y :: z :: col, next, hnext => by
    refine (makes_of_gives (Q := fun _ => True) (fun _ => trivial)
      fun ρ => gives_fullAdder x y z).bind fun r _ => ?_
    refine (makes_compressColumn hc col (pushCarry width (pushAt next c r.1) c r.2)
      (by simpa using hnext)).imp (fun _ h => h) ?_
    rintro ρ - - next' - hnext' ⟨hs, hcy⟩
    refine hnext'.trans (((weight_pushes hnext hc r.1 r.2).add_right _).trans (modEq_of_eq ?_))
    have hadder : (ρ r.1).toNat + 2 * (ρ r.2).toNat = (ρ x).toNat + (ρ y).toNat + (ρ z).toNat := by
      rw [hs, hcy]
      cases ρ x <;> cases ρ y <;> cases ρ z <;> rfl
    rw [hadder]
    simp only [columnSum, map_cons, sum_cons]
    ring
  | [x, y], next, hnext => by
    refine (makes_cell rfl).bind fun s _ => (makes_cell rfl).bind fun cy _ => ?_
    refine makes_pure (by simpa using hnext) fun ρ _ _ hcy hs => ?_
    refine (weight_pushes hnext hc s cy).trans (modEq_of_eq ?_)
    have hadder : (ρ s).toNat + 2 * (ρ cy).toNat = columnSum ρ [x, y] := by
      rw [hs, hcy]
      simp only [columnSum, map_cons, map_nil, sum_cons, sum_nil]
      cases ρ x <;> cases ρ y <;> rfl
    rw [hadder]
  | [x], next, hnext => by
    refine makes_pure (by simpa using hnext) fun ρ _ _ => ?_
    refine modEq_of_eq ?_
    rw [weight_pushAt (by omega)]
    simp [columnSum]
  | [], next, hnext => makes_pure hnext fun ρ _ _ => modEq_of_eq (by simp [columnSum])

theorem makes_compressColumns (cols : List (List NetId)) : ∀ (c : ℕ) (next : List (List NetId)),
    c + cols.length = width → next.length = width →
      Makes (compressColumns width c cols next) (fun next' => next'.length = width) fun ρ next' =>
        weight ρ next' ≡ weight ρ next + 2 ^ c * weight ρ cols [MOD 2 ^ width] := by
  induction cols with
  | nil =>
    intro c next _ hnext
    exact makes_pure hnext fun ρ _ _ => modEq_of_eq (by simp [weight])
  | cons col cols ih =>
    intro c next hc hnext
    rw [length_cons] at hc
    refine (makes_compressColumn (by omega) col next hnext).bind fun next' hnext' => ?_
    refine (ih (c + 1) next' (by omega) hnext').imp (fun _ h => h)
      fun ρ _ _ next'' _ hrest hcol => ?_
    refine hrest.trans ((hcol.add_right _).trans (modEq_of_eq ?_))
    rw [weight, Nat.pow_succ]
    ring

theorem weight_empty (ρ : NetId → Bool) (n : ℕ) : weight ρ (replicate n []) = 0 := by
  induction n with
  | zero => rfl
  | succ n ih =>
    rw [replicate_succ, weight, ih]
    rfl

theorem makes_compressRound (buckets : List (List NetId)) (hlen : buckets.length = width) :
    Makes (compressRound width buckets) (fun next => next.length = width) fun ρ next =>
      weight ρ next ≡ weight ρ buckets [MOD 2 ^ width] := by
  refine (makes_compressColumns buckets 0 (replicate width []) (by omega)
    length_replicate).imp (fun _ h => h) fun ρ _ _ next _ hnext => ?_
  rwa [weight_empty, Nat.zero_add, Nat.pow_zero, Nat.one_mul] at hnext

/-- The rounds end with at most two nets in a column. -/
theorem makes_compressLoop (hlen : buckets.length = width) :
    Makes (compressLoop width buckets) (fun r => r.length = width ∧ maxHeight r ≤ 2) fun ρ r =>
      weight ρ r ≡ weight ρ buckets [MOD 2 ^ width] := by
  intro ctx
  induction buckets, ctx using compressLoop.induct width with
  | case1 buckets ctx hlow =>
    rw [compressLoop, if_pos hlow]
    exact ⟨⟨hlen, hlow⟩, fun ρ hctx => ⟨hctx, Nat.ModEq.refl _⟩⟩
  | case2 buckets ctx hhigh round ih =>
    rw [compressLoop, if_neg hhigh]
    obtain ⟨hround, hstep⟩ := makes_compressRound buckets hlen ctx
    obtain ⟨hshape, hrest⟩ := ih hround
    refine ⟨hshape, fun ρ hctx => ?_⟩
    obtain ⟨hmid, hweight⟩ := hrest ρ hctx
    obtain ⟨hbegin, hkept⟩ := hstep ρ hmid
    exact ⟨hbegin, hweight.trans hkept⟩

theorem makes_productRow (aExt bExt : List NetId) {i : ℕ} (js : List ℕ)
    (hjs : ∀ j ∈ js, i + j < width) : ∀ buckets : List (List NetId), buckets.length = width →
      Makes (productRow aExt bExt i js buckets) (fun r => r.length = width) fun ρ r =>
        weight ρ r = weight ρ buckets + (js.map fun j =>
          2 ^ i * (ρ (netOf bExt i)).toNat * (2 ^ j * (ρ (netOf aExt j)).toNat)).sum := by
  induction js with
  | nil => exact fun buckets hlen => makes_pure hlen fun ρ _ _ => rfl
  | cons j js ih =>
    intro buckets hlen
    have hj := hjs j mem_cons_self
    refine (makes_cell rfl).bind fun pp _ => ?_
    refine (ih (fun j' h => hjs j' (mem_cons_of_mem _ h)) (pushAt buckets (i + j) pp)
      (by simpa using hlen)).imp (fun _ h => h) fun ρ _ _ r _ hr hpp => ?_
    have hand : (ρ pp).toNat = (ρ (netOf bExt i)).toNat * (ρ (netOf aExt j)).toNat := by
      rw [hpp]
      show (ρ (netOf bExt i) && ρ (netOf aExt j)).toNat = _
      cases ρ (netOf bExt i) <;> cases ρ (netOf aExt j) <;> rfl
    rw [hr, weight_pushAt (by omega), hand, map_cons, sum_cons, Nat.pow_add]
    ring

theorem number_rows (hgnd : ρ netConst0 = false) (hlow : maxHeight buckets ≤ 2) :
    number ρ (buckets.map fun col => netOf col 0) + number ρ (buckets.map fun col => netOf col 1) =
      weight ρ buckets := by
  induction buckets with
  | nil => rfl
  | cons col cols ih =>
    have hcol : columnSum ρ col = (ρ (netOf col 0)).toNat + (ρ (netOf col 1)).toNat := by
      match col, (le_max_left _ _).trans hlow with
      | [], _ => simp [columnSum, netOf, hgnd]
      | [x], _ => simp [columnSum, netOf, hgnd]
      | [x, y], _ => simp [columnSum, netOf]
    have hrest := ih ((le_max_right _ _).trans hlow)
    simp only [number, map_cons, busValue] at hrest ⊢
    rw [weight, hcol, ← hrest]
    ring

section

variable (ha : aExt.length = width)

include ha

theorem makes_shiftAddRow (bExt : List NetId) {i : ℕ} (hw : i ≤ width) :
    Makes (shiftAddRow aExt bExt width i) (fun row => row.length = width) fun ρ row =>
      number ρ row ≡ 2 ^ i * (ρ (netOf bExt i)).toNat * number ρ aExt [MOD 2 ^ width] := by
  refine (makes_mapM (v := fun ρ j => ρ (netOf bExt i) && ρ (netOf aExt j))
    fun j _ ρ => gives_cell rfl).bind fun products hproducts => ?_
  rw [length_range] at hproducts
  refine makes_pure ?_ fun ρ hgnd _ hvalues => ?_
  · rw [length_append, length_replicate, hproducts]
    omega
  · have hbits : products.map ρ = (List.range (width - i)).map fun j =>
        ρ (netOf bExt i) && (aExt.map ρ).getD j false := by
      rw [hvalues]
      refine map_congr_left fun j hj => ?_
      have hj' := mem_range.1 hj
      rw [value_netOf ρ (by omega : j < aExt.length)]
    rw [number_append, number_zeros hgnd, Nat.zero_add, length_replicate,
      number_products _ _ _ hbits]
    exact shifted_modEq i _ _ hw

theorem succeeds_shiftAddLoop (bExt : List NetId) (rows : List ℕ) (hrows : ∀ i ∈ rows, i < width) :
    ∀ acc : List NetId, acc.length = width →
      Succeeds (shiftAddLoop aExt bExt width rows acc) (fun r => r.length = width) fun ρ r =>
        number ρ r ≡ number ρ acc + rowsWeight ρ bExt rows * number ρ aExt [MOD 2 ^ width] := by
  induction rows with
  | nil =>
    refine fun acc hacc => succeeds_done hacc fun ρ _ _ => ?_
    rw [rowsWeight, map_nil, sum_nil, Nat.zero_mul, Nat.add_zero]
  | cons i rows ih =>
    intro acc hacc
    have hi := hrows i mem_cons_self
    refine (makes_shiftAddRow ha bExt hi.le).built.andThen fun row hrow => ?_
    refine (succeeds_rippleAdd (hacc.trans hrow.symm) netConst0).andThen fun acc' hacc' => ?_
    refine (ih (fun j hj => hrows j (mem_cons_of_mem _ hj)) acc' (hacc'.trans hacc)).imp
      (fun _ h => h) fun ρ hgnd _ r _ hr hsum hrowV => ?_
    have hstep : number ρ acc' ≡ number ρ acc + number ρ row [MOD 2 ^ width] := by
      rw [hsum, hgnd, Bool.toNat_false, Nat.add_zero, hacc]
      exact mod_modEq _ _
    have htotal := hr.trans (Nat.ModEq.add_right _ (hstep.trans (hrowV.add_left _)))
    refine htotal.trans (modEq_of_eq ?_)
    rw [rowsWeight, rowsWeight, map_cons, sum_cons]
    ring

theorem succeeds_shiftAddMultiply
    (hb : bExt.length = width) : Succeeds (shiftAddMultiply aExt bExt width)
      (fun r => r.length = width) fun ρ r =>
        number ρ r ≡ number ρ aExt * number ρ bExt [MOD 2 ^ width] := by
  refine (succeeds_shiftAddLoop ha bExt (List.range width) (fun i hi => mem_range.1 hi) _
    length_replicate).imp (fun _ h => h) fun ρ hgnd _ r _ hr => ?_
  rwa [number_zeros hgnd, Nat.zero_add, rowsWeight_range ρ hb, Nat.mul_comm] at hr

theorem makes_productRows (bExt : List NetId) (rows : List ℕ) (hrows : ∀ i ∈ rows, i < width) :
    ∀ buckets : List (List NetId), buckets.length = width →
      Makes (productRows aExt bExt width rows buckets) (fun r => r.length = width) fun ρ r =>
        weight ρ r ≡ weight ρ buckets + rowsWeight ρ bExt rows * number ρ aExt [MOD 2 ^ width] := by
  induction rows with
  | nil =>
    exact fun buckets hlen => makes_pure hlen fun ρ _ _ => modEq_of_eq (by simp [rowsWeight])
  | cons i rows ih =>
    intro buckets hlen
    have hi := hrows i mem_cons_self
    refine (makes_productRow aExt bExt (List.range (width - i)) (fun j hj => by
      have := mem_range.1 hj
      omega) buckets hlen).bind fun buckets' hlen' => ?_
    refine (ih (fun j hj => hrows j (mem_cons_of_mem _ hj)) buckets' hlen').imp
      (fun _ h => h) fun ρ _ _ r _ hr hrow => ?_
    have hbits : ((List.range (width - i)).map fun j =>
        2 ^ i * (ρ (netOf bExt i)).toNat * (2 ^ j * (ρ (netOf aExt j)).toNat)).sum =
        2 ^ i * ((ρ (netOf bExt i)).toNat * (number ρ aExt % 2 ^ (width - i))) := by
      rw [sum_map_mul_left, number, ← sum_range_bits, Nat.mul_assoc]
      congr 3
      refine map_congr_left fun j hj => ?_
      have hj' := mem_range.1 hj
      rw [value_netOf ρ (by omega : j < aExt.length)]
    rw [hrow, hbits] at hr
    refine hr.trans (((shifted_modEq i _ _ hi.le).add_left _).add_right _ |>.trans (modEq_of_eq ?_))
    rw [rowsWeight, rowsWeight, map_cons, sum_cons]
    ring

theorem succeeds_wallaceMultiply
    (hb : bExt.length = width) : Succeeds (wallaceMultiply aExt bExt width)
      (fun r => r.length = width) fun ρ r =>
        number ρ r ≡ number ρ aExt * number ρ bExt [MOD 2 ^ width] := by
  refine (makes_productRows ha bExt (List.range width) (fun i hi => mem_range.1 hi) _
    length_replicate).built.andThen fun products hproducts => ?_
  refine (makes_compressLoop hproducts).built.andThen fun buckets hbuckets => ?_
  obtain ⟨hlen, hlow⟩ := hbuckets
  have hrow : ∀ i, (buckets.map fun col => netOf col i).length = width := fun i => by
    rw [length_map, hlen]
  refine (succeeds_rippleAdd ((hrow 0).trans (hrow 1).symm) netConst0).imp
    (fun r hr => hr.trans (hrow 0)) fun ρ hgnd _ r _ hr hloop hrows => ?_
  rw [weight_empty, Nat.zero_add, rowsWeight_range ρ hb, Nat.mul_comm] at hrows
  rw [hrow 0, hgnd, Bool.toNat_false, Nat.add_zero, number_rows hgnd hlow] at hr
  exact (modEq_of_eq hr).trans ((mod_modEq _ _).trans (hloop.trans hrows))

end

theorem succeeds_multiply (a b : List NetId) (width : ℕ) (signed : Bool) :
    Succeeds (multiply a b width signed) (fun r => r.length = width) fun ρ r =>
      (number ρ r : ℤ) = operand signed (a.map ρ) * operand signed (b.map ρ) % 2 ^ width := by
  unfold multiply
  split
  · rename_i hzero
    subst hzero
    refine succeeds_done rfl fun ρ _ _ => ?_
    rw [pow_zero, Int.emod_one]
    rfl
  · have ha := length_extend a width signed
    have hb := length_extend b width signed
    have hproduct : ∀ x : Synth (List NetId), Succeeds x (fun r => r.length = width) (fun ρ r =>
        number ρ r ≡ number ρ (extend a width signed) * number ρ (extend b width signed)
          [MOD 2 ^ width]) → Succeeds x (fun r => r.length = width) fun ρ r =>
        (number ρ r : ℤ) = operand signed (a.map ρ) * operand signed (b.map ρ) % 2 ^ width := by
      refine fun x hx => hx.imp (fun _ h => h) fun ρ hgnd _ r hr hmod => ?_
      have hlt := number_lt ρ r
      rw [hr] at hlt
      have hcast := congrArg (Nat.cast : ℕ → ℤ) ((mod_eq_of_lt hlt).symm.trans hmod)
      rw [Int.natCast_mod, cast_mul, number_extend hgnd, number_extend hgnd, cast_pow,
        cast_ofNat, ← Int.mul_emod] at hcast
      exact hcast
    split
    · exact hproduct _ (succeeds_wallaceMultiply ha hb)
    · exact hproduct _ (succeeds_shiftAddMultiply ha hb)

/-- The multiplier is exact, and its compression ends: a round keeps the weighted sum of the
columns modulo the width and lowers the highest column while it has more than two nets, and the
rounds end with at most two nets in each column. -/
theorem multiply_exact (a b : List NetId) (width : ℕ) (signed : Bool) :
    (Succeeds (multiply a b width signed) (fun r => r.length = width) fun ρ r =>
      (number ρ r : ℤ) = operand signed (a.map ρ) * operand signed (b.map ρ) % 2 ^ width) ∧
    ∀ buckets : List (List NetId), Makes (compressRound buckets.length buckets)
        (fun next => next.length = buckets.length ∧
          (maxHeight next < maxHeight buckets ∨ maxHeight buckets ≤ 2))
        (fun ρ next => weight ρ next ≡ weight ρ buckets [MOD 2 ^ buckets.length]) ∧
      Makes (compressLoop buckets.length buckets)
        (fun r => r.length = buckets.length ∧ ∀ col ∈ r, col.length ≤ 2)
        (fun ρ r => weight ρ r ≡ weight ρ buckets [MOD 2 ^ buckets.length]) := by
  refine ⟨succeeds_multiply a b width signed, fun buckets => ⟨fun ctx => ?round, ?loop⟩⟩
  case round =>
    obtain ⟨hlen, hweight⟩ := makes_compressRound buckets rfl ctx
    refine ⟨⟨hlen, ?_⟩, hweight⟩
    by_cases hlow : maxHeight buckets ≤ 2
    · exact Or.inr hlow
    · exact Or.inl (maxHeight_compressRound_lt _ hlow ctx)
  case loop =>
    exact (makes_compressLoop rfl).imp
      (fun r hr => ⟨hr.1, fun col hcol => (le_maxHeight hcol).trans hr.2⟩) fun _ _ _ _ _ h => h

end Veryl.Synthesizer.Netlist
