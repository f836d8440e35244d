import Veryl.Synthesizer.DynamicIndex

/-!
A write synthesizes its index at the bits that address the array, so that an index past the
end can reach an element, and one in range another; a read keeps the declared width and
checks the range.
-/

namespace Veryl.Synthesizer.DynamicIndex

open List Nat

variable {newVal : Bool} {src : List Bool} {dst : Dst} {g : ℕ} {selectors : List (List Bool × ℕ)}

variable {cur : List Bool} {sw w n P : ℕ} {shape : List ℕ} {elements : List (List Bool)}
  {indices : List IndexExpr}

theorem busValue_take (bs : List Bool) (k : ℕ) : busValue (bs.take k) = busValue bs % 2 ^ k := by
  rcases Nat.lt_or_ge bs.length k with hk | hk
  · rw [take_of_length_le (Nat.le_of_lt hk), mod_eq_of_lt]
    exact Nat.lt_of_lt_of_le (busValue_lt bs) (Nat.pow_le_pow_right Nat.two_pos (Nat.le_of_lt hk))
  · have hsplit := congrArg busValue (take_append_drop k bs)
    rw [busValue_append, length_take, Nat.min_eq_left hk] at hsplit
    have hlt := busValue_lt (bs.take k)
    rw [length_take, Nat.min_eq_left hk] at hlt
    rw [← hsplit, add_mul_mod_self_left, mod_eq_of_lt hlt]

theorem busValue_replicate_true (n : ℕ) : busValue (replicate n true) + 1 = 2 ^ n := by
  induction n with
  | zero => rfl
  | succ n ih =>
    rw [replicate_succ, busValue, Nat.pow_succ, Bool.toNat_true]
    omega

/-- Resizing keeps the number modulo a power of two. -/
theorem busValue_ofVariable (nets : List Bool) (signed : Bool) (target : ℕ) :
    (busValue (resize nets target signed) : ℤ) =
      (IndexExpr.ofVariable nets signed).value % 2 ^ target := by
  have hlt := busValue_lt nets
  unfold resize IndexExpr.ofVariable
  dsimp only
  split
  · rename_i hle
    obtain ⟨d, hd⟩ := Nat.exists_eq_add_of_le hle
    rw [busValue_take, Int.natCast_mod, Int.natCast_pow]
    split
    · have hpow : (2 : ℤ) ^ nets.length = 2 ^ target * 2 ^ d := by rw [hd, pow_add]
      rw [hpow]
      exact (Int.sub_mul_emod_self_left _ _ _).symm
    · rfl
  · rename_i hgt
    obtain ⟨d, rfl⟩ := Nat.exists_eq_add_of_le (Nat.le_of_not_le hgt)
    rw [Nat.add_sub_cancel_left, busValue_append]
    cases hsign : signed && nets.getLastD false with
    | false =>
      rw [busValue_replicate_false, Nat.mul_zero, Nat.add_zero, if_neg Bool.false_ne_true,
        Int.emod_eq_of_lt (Int.natCast_nonneg _)]
      have hle : (2 : ℕ) ^ nets.length ≤ 2 ^ (nets.length + d) :=
        Nat.pow_le_pow_right Nat.two_pos (Nat.le_add_right _ _)
      exact_mod_cast Nat.lt_of_lt_of_le hlt hle
    | true =>
      have hones := busValue_replicate_true d
      rw [if_pos rfl]
      have hpow : 2 ^ (nets.length + d) = 2 ^ nets.length * busValue (replicate d true) +
          2 ^ nets.length := by rw [Nat.pow_add, ← hones, mul_succ]
      have hcast : (2 : ℤ) ^ (nets.length + d) =
          ((2 ^ nets.length * busValue (replicate d true) : ℕ) : ℤ) + 2 ^ nets.length := by
        have hcast := congrArg (Nat.cast : ℕ → ℤ) hpow
        exact hcast
      have hshift : (busValue nets : ℤ) - 2 ^ nets.length =
          (busValue nets + 2 ^ nets.length * busValue (replicate d true) : ℕ) +
            (-1) * 2 ^ (nets.length + d) := by
        rw [hcast, Int.natCast_add]
        ring
      rw [hshift, Int.add_mul_emod_self_right, Int.emod_eq_of_lt (Int.natCast_nonneg _)]
      have hlt' : busValue nets + 2 ^ nets.length * busValue (replicate d true) <
          2 ^ (nets.length + d) := by omega
      exact_mod_cast hlt'

/-- A row below the end ends at it or before. -/
theorem mul_add_le {k : ℕ} (hk : k < n) (w : ℕ) : k * w + w ≤ n * w := by
  rw [← succ_mul]
  exact Nat.mul_le_mul_right _ hk

theorem length_getD (hwidth : ∀ e ∈ elements, e.length = w) (i : ℕ) :
    (elements.getD i (replicate w false)).length = w := by
  rcases Nat.lt_or_ge i elements.length with hi | hi
  · rw [getD_eq_getElem _ _ hi]
    exact hwidth _ (getElem_mem hi)
  · rw [getD_eq_default _ _ hi, length_replicate]

theorem le_two_pow_indexBitsFor (n : ℕ) : n ≤ 2 ^ indexBitsFor n := by
  unfold indexBitsFor
  split
  · rename_i hle
    omega
  · have hlt : n - 1 < 2 ^ ((n - 1).log2 + 1) := lt_log2_self
    omega

theorem writeTarget_spec {offset bit : ℕ} {m : Bool} (h : m = true → offset + bit < cur.length) :
    writeTarget newVal bit none cur (offset, some m) =
      if m then cur.set (offset + bit) newVal else cur := by
  unfold writeTarget
  dsimp only
  cases m with
  | true =>
    rw [if_neg (Nat.not_le_of_lt (h rfl)), if_pos rfl]
    rfl
  | false =>
    split
    · rfl
    · rename_i hlt
      show cur.set (offset + bit) (cur.getD (offset + bit) false) = cur
      rw [getD_eq_getElem _ _ (Nat.lt_of_not_le hlt), set_getElem_self]

theorem foldl_writeTarget {bit a : ℕ} {ks : List ℕ} (hfit : a ∈ ks → a * sw + bit < cur.length) :
    (ks.map fun k => (k * sw, some (decide (a = k)))).foldl (writeTarget newVal bit none) cur =
      if a ∈ ks then cur.set (a * sw + bit) newVal else cur := by
  induction ks generalizing cur with
  | nil => rfl
  | cons k ks ih =>
    rw [map_cons, foldl_cons, writeTarget_spec fun hk => by
      have hak := of_decide_eq_true hk
      rw [← hak]
      exact hfit (hak ▸ mem_cons_self ..)]
    by_cases hak : a = k
    · subst hak
      rw [if_pos (decide_eq_true rfl), if_pos (mem_cons_self ..), ih fun hin => by
        rw [length_set]
        exact hfit (mem_cons_of_mem _ hin), set_set, ite_self]
    · rw [if_neg (by simpa using hak), ih fun hin => hfit (mem_cons_of_mem _ hin)]
      simp [hak]

theorem foldl_set_eq_patch {start : ℕ} {p : ℕ} (hfit : p + start + src.length ≤ cur.length) :
    ((List.range' start src.length).zip src).foldl (fun cur q => cur.set (p + q.1) q.2) cur =
      patch cur (p + start) src := by
  induction src generalizing start cur with
  | nil => simp [patch]
  | cons b rest ih =>
    rw [length_cons] at hfit
    rw [length_cons, range'_succ, zip_cons_cons, foldl_cons, ih (by rw [length_set]; omega)]
    have hlt : p + start < cur.length := by omega
    have hlen : (cur.take (p + start)).length = p + start := by
      rw [length_take, Nat.min_eq_left (Nat.le_of_lt hlt)]
    unfold patch
    rw [set_eq_take_append_cons_drop, if_pos hlt]
    have htake : (cur.take (p + start) ++ b :: cur.drop (p + start + 1)).take (p + (start + 1)) =
        cur.take (p + start) ++ [b] := by
      rw [take_append, hlen, take_of_length_le (by rw [hlen]; omega),
        show p + (start + 1) - (p + start) = 1 by omega, take_succ_cons, take_zero]
    have hdrop : (cur.take (p + start) ++ b :: cur.drop (p + start + 1)).drop
        (p + (start + 1) + rest.length) = cur.drop (p + start + (rest.length + 1)) := by
      rw [drop_append, drop_eq_nil_of_le (by rw [hlen]; omega), hlen, nil_append,
        show p + (start + 1) + rest.length - (p + start) = rest.length + 1 by omega,
        drop_succ_cons, drop_drop]
      congr 1
      omega
    rw [htake, hdrop, length_cons, append_assoc, append_assoc, append_assoc]
    rfl

/-- The bits of an element that a write with a fixed range targets. -/
def Dst.slice (dst : Dst) : Option (ℕ × ℕ) :=
  match dst.select with
  | .whole => some (dst.memberOffset, dst.memberWidth)
  | .static lo hi => some (lo, hi + 1 - lo)
  | .dynamicSingle _ => none

theorem bitPositions_eq {start : ℕ} (hslice : dst.slice = some (start, w)) (src : List Bool) :
    bitPositions dst src = ((List.range' start w).zip src).map fun p => (p.1, none, p.2) := by
  cases hsel : dst.select with
  | whole =>
    simp only [Dst.slice, hsel, Option.some.injEq, Prod.mk.injEq] at hslice
    obtain ⟨rfl, rfl⟩ := hslice
    simp only [bitPositions, hsel]
  | static lo hi =>
    simp only [Dst.slice, hsel, Option.some.injEq, Prod.mk.injEq] at hslice
    obtain ⟨rfl, rfl⟩ := hslice
    simp only [bitPositions, hsel]
  | dynamicSingle e => simp [Dst.slice, hsel] at hslice

/-- The place of an element after the selectors; none if one is past its size. -/
def selectedIndex : List (List Bool × ℕ) → Option ℕ
  | [] => some 0
  | (selector, size) :: rest =>
    if busValue selector < size then
      (selectedIndex rest).map fun k => busValue selector * (rest.map Prod.snd).prod + k
    else none

theorem writeToDst_eq {dst : Dst} {e : IndexExpr} {rest : List IndexExpr} {start w : ℕ}
    (hindex : dst.index = .dynamic (e :: rest)) (hdims : dst.shape.length = 1)
    (hpos : dst.shape.prod ≠ 0) (hslice : dst.slice = some (start, w))
    (hfit : start + w ≤ dst.scalarWidth) {src cur : List Bool} (hsrc : src.length = w)
    (hcur : cur.length = dst.shape.prod * dst.scalarWidth) :
    writeToDst dst src cur = some (patchElement dst.scalarWidth start src cur
      (selectedIndex [(synthesizeExpr e (indexBitsFor dst.shape.prod), dst.shape.prod)])) := by
  unfold writeToDst
  rw [hindex]
  dsimp only
  rw [if_neg (by simp [hdims, hpos])]
  unfold writeElements
  rw [bitPositions_eq hslice]
  generalize synthesizeExpr e (indexBitsFor dst.shape.prod) = idx
  simp only [eqConst_spec]
  rw [foldl_map]
  -- every step sets one bit of the element, if there is one
  have hfold : ∀ (ps : List (ℕ × Bool)) (cur : List Bool),
      cur.length = dst.shape.prod * dst.scalarWidth → (∀ p ∈ ps, p.1 < dst.scalarWidth) →
        ps.foldl (fun cur p => ((List.range dst.shape.prod).map fun k =>
          (k * dst.scalarWidth, some (decide (busValue idx = k)))).foldl
            (writeTarget p.2 p.1 none) cur) cur =
          if busValue idx < dst.shape.prod then
            ps.foldl (fun cur p => cur.set (busValue idx * dst.scalarWidth + p.1) p.2) cur
          else cur := by
    intro ps
    induction ps with
    | nil => intro cur _ _; rw [foldl_nil, foldl_nil, ite_self]
    | cons p ps ih =>
      intro cur hlen hps
      have hbit := hps p (mem_cons_self ..)
      rw [foldl_cons, foldl_writeTarget fun hin => by
        have hle := mul_add_le (mem_range.1 hin) dst.scalarWidth
        omega]
      simp only [mem_range]
      split
      · rename_i hin
        rw [ih _ (by rw [length_set, hlen]) fun q hq => hps q (mem_cons_of_mem _ hq),
          if_pos hin, foldl_cons]
      · rename_i hout
        rw [ih _ hlen fun q hq => hps q (mem_cons_of_mem _ hq), if_neg hout]
  rw [hfold _ _ hcur fun p hp => by
    have hmem := (mem_range'_1.1 (of_mem_zip hp).1).2
    omega]
  subst hsrc
  rw [selectedIndex]
  split
  · rename_i hin
    rw [foldl_set_eq_patch]
    · simp [selectedIndex, patchElement]
    · have hle := mul_add_le hin dst.scalarWidth
      omega
  · rfl

section Chunks

variable {α : Type*}

variable {l : List α}

theorem length_chunks (hn : 0 < n) (hlen : l.length = P * n) : (chunks n l).length = P := by
  unfold chunks
  rw [length_map, length_range, hlen, Nat.add_sub_assoc hn, Nat.mul_comm,
    mul_add_div hn, div_eq_of_lt (by omega), Nat.add_zero]

theorem getD_chunks (hn : 0 < n) (hlen : l.length = P * n)
    (hg : g < P) (d : List α) : (chunks n l).getD g d = (l.drop (g * n)).take n := by
  rw [getD_eq_getElem _ _ (by rwa [length_chunks hn hlen])]
  unfold chunks
  rw [getElem_map, getElem_range]

theorem mem_chunks (hn : 0 < n) (hlen : l.length = P * n) {c : List α}
    (hc : c ∈ chunks n l) : ∃ g < P, c = (l.drop (g * n)).take n := by
  obtain ⟨g, hg, rfl⟩ := mem_map.1 hc
  refine ⟨g, ?_, rfl⟩
  have hlt := mem_range.1 hg
  rwa [hlen, Nat.add_sub_assoc hn, Nat.mul_comm, mul_add_div hn, div_eq_of_lt (by omega),
    Nat.add_zero] at hlt

theorem length_chunk (hlen : l.length = P * n) (hg : g < P) :
    ((l.drop (g * n)).take n).length = n := by
  have hle := mul_add_le hg n
  rw [length_take, length_drop, hlen]
  omega

end Chunks

theorem busValue_buildConstant {value width : ℕ} (h64 : value < 2 ^ 64) (hw : value < 2 ^ width) :
    busValue (buildConstant value width) = value := by
  have hbits : ∀ (width value : ℕ), busValue ((List.range width).map value.testBit) = value % 2 ^ width := by
    intro width
    induction width with
    | zero => exact fun value => (mod_one _).symm
    | succ width ih =>
      intro value
      rw [range_succ_eq_map, map_cons, busValue, map_map]
      have hshift : (value.testBit ∘ Nat.succ) = (value / 2).testBit :=
        funext fun i => testBit_succ value i
      rw [hshift, ih, Nat.pow_succ, Nat.mul_comm _ 2, mod_mul, testBit_zero]
      rcases mod_two_eq_zero_or_one value with h | h <;> rw [h] <;> rfl
  have heq : buildConstant value width = (List.range width).map value.testBit := by
    refine map_congr_left fun i _ => ?_
    rcases Nat.lt_or_ge i 64 with hi | hi
    · rw [decide_eq_true hi, Bool.true_and]
    · rw [decide_eq_false (Nat.not_lt_of_le hi), Bool.false_and, testBit_lt_two_pow
        (Nat.lt_of_lt_of_le h64 (Nat.pow_le_pow_right Nat.two_pos hi))]
  rw [heq, hbits, mod_eq_of_lt hw]

theorem selectDim_spec {selector : List Bool} {size : ℕ} (hsize : 0 < size)
    (h64 : size < 2 ^ 64) (hfit : size ≤ 2 ^ selector.length)
    (hlen : elements.length = P * size) (hwidth : ∀ e ∈ elements, e.length = w) :
    selectDim (selector, size) elements = some ((chunks size elements).map fun group =>
      group.getD (busValue selector) (replicate w false)) := by
  have hclog : Nat.clog 2 size ≤ selector.length := clog_le_of_le_pow hfit
  have hgroup : ∀ group ∈ chunks size elements, dynamicMuxTree group selector =
      group.getD (busValue selector % 2 ^ Nat.clog 2 size) (replicate w false) := by
    intro group hgroup
    obtain ⟨g, hg, rfl⟩ := mem_chunks hsize hlen hgroup
    have hlength := length_chunk hlen hg
    rw [dynamicMuxTree_spec (w := w) (ne_nil_of_length_pos (by omega))
      (fun e he => hwidth e (mem_of_mem_drop (mem_of_mem_take he))) (by omega), hlength,
      busValue_take]
  unfold selectDim
  dsimp only
  split
  · rename_i hwide
    have hsmall : size < 2 ^ (selector.length + 1) :=
      Nat.lt_of_le_of_lt hfit (Nat.pow_lt_pow_right Nat.one_lt_two (lt_succ_self _))
    have hext : busValue (resize selector (selector.length + 1) false) = busValue selector := by
      unfold resize
      rw [if_neg (by omega), busValue_append, Bool.false_and, busValue_replicate_false]
      rfl
    rw [compareLess_spec (by rw [length_resize]; simp [buildConstant]), hext,
      busValue_buildConstant h64 hsmall, Option.map_some, Option.map_some]
    refine congrArg some (map_congr_left fun group hmem => ?_)
    rw [hgroup group hmem]
    obtain ⟨g, hg, rfl⟩ := mem_chunks hsize hlen hmem
    by_cases hin : busValue selector < size
    · have hle : size ≤ 2 ^ Nat.clog 2 size := le_pow_clog Nat.one_lt_two size
      rw [decide_eq_true hin, mod_eq_of_lt (Nat.lt_of_lt_of_le hin hle)]
      exact (map_congr_left fun b _ => Bool.and_true b).trans (map_id _)
    · have hpast := getD_eq_default ((elements.drop (g * size)).take size) (replicate w false)
        (n := busValue selector) (by rw [length_chunk hlen hg]; omega)
      rw [decide_eq_false hin, hpast]
      refine eq_replicate_iff.2 ⟨by rw [length_map, length_getD fun e he =>
        hwidth e (mem_of_mem_drop (mem_of_mem_take he))], fun b hb => ?_⟩
      obtain ⟨b', -, rfl⟩ := mem_map.1 hb
      exact Bool.and_false b'
  · rename_i hexact
    have heq : Nat.clog 2 size = selector.length := by omega
    refine congrArg some (map_congr_left fun group hg => ?_)
    rw [hgroup group hg, heq, mod_eq_of_lt (busValue_lt selector)]

theorem selectedIndex_lt {k : ℕ}
    (h : selectedIndex selectors = some k) : k < (selectors.map Prod.snd).prod := by
  induction selectors generalizing k with
  | nil =>
    obtain rfl := Option.some.inj h
    exact Nat.one_pos
  | cons p rest ih =>
    obtain ⟨selector, size⟩ := p
    rw [selectedIndex] at h
    split at h
    · rename_i hin
      obtain ⟨k', hk', rfl⟩ := Option.map_eq_some_iff.1 h
      have hlt := ih hk'
      rw [map_cons, prod_cons]
      have hle := mul_add_le hin (rest.map Prod.snd).prod
      dsimp only
      omega
    · cases h

theorem foldrM_selectDim (hsel : ∀ p ∈ selectors, 0 < p.2 ∧ p.2 < 2 ^ 64 ∧ p.2 ≤ 2 ^ p.1.length)
    (hlen : elements.length = P * (selectors.map Prod.snd).prod)
    (hwidth : ∀ e ∈ elements, e.length = w) :
    ∃ out, selectors.foldrM selectDim elements = some out ∧ out.length = P ∧
      (∀ e ∈ out, e.length = w) ∧ ∀ g < P, out.getD g (replicate w false) =
        match selectedIndex selectors with
        | some k => elements.getD (g * (selectors.map Prod.snd).prod + k) (replicate w false)
        | none => replicate w false := by
  induction selectors generalizing P with
  | nil =>
    rw [map_nil, prod_nil, Nat.mul_one] at hlen
    refine ⟨elements, rfl, hlen, hwidth, fun g _ => ?_⟩
    rw [map_nil, prod_nil, Nat.mul_one]
    rfl
  | cons p rest ih =>
    obtain ⟨selector, size⟩ := p
    obtain ⟨hsize, h64, hfit⟩ := hsel _ (mem_cons_self ..)
    rw [map_cons, prod_cons, ← Nat.mul_assoc] at hlen
    dsimp only at hsize h64 hfit hlen
    obtain ⟨inner, hinner, hlength, hwidth', hget⟩ :=
      ih (fun q hq => hsel q (mem_cons_of_mem _ hq)) hlen
    have hout := selectDim_spec hsize h64 hfit hlength hwidth'
    refine ⟨_, by rw [foldrM_cons, hinner]; exact hout, by
      rw [length_map, length_chunks hsize hlength], fun e he => ?_, fun g hg => ?_⟩
    · obtain ⟨group, hgroup, rfl⟩ := mem_map.1 he
      obtain ⟨g, -, rfl⟩ := mem_chunks hsize hlength hgroup
      exact length_getD (fun e he => hwidth' e (mem_of_mem_drop (mem_of_mem_take he))) _
    · have hgroup : ((chunks size inner).map fun group =>
          group.getD (busValue selector) (replicate w false)).getD g (replicate w false) =
            ((inner.drop (g * size)).take size).getD (busValue selector) (replicate w false) := by
        have hg' : g < (chunks size inner).length := by rwa [length_chunks hsize hlength]
        rw [getD_eq_getElem _ _ (by rwa [length_map]), getElem_map,
          ← getD_eq_getElem _ [] hg', getD_chunks hsize hlength hg]
      rw [hgroup, selectedIndex]
      have hglen := length_chunk hlength hg
      by_cases hin : busValue selector < size
      · have hle := mul_add_le hg size
        rw [if_pos hin, getD_eq_getElem _ _ (by omega), getElem_take, getElem_drop,
          ← getD_eq_getElem _ (replicate w false) (by omega), hget _ (by omega)]
        cases selectedIndex rest with
        | none => rfl
        | some k =>
          show elements.getD _ _ = elements.getD _ _
          congr 1
          dsimp only
          rw [map_cons, prod_cons]
          ring
      · rw [if_neg hin, getD_eq_default _ _ (by omega)]

/-- The selector that a read makes of an index. -/
def selectorOf (p : IndexExpr × ℕ) : List Bool × ℕ :=
  (synthesizeExpr p.1 (max (indexBitsFor p.2) p.1.width), p.2)

theorem map_snd_zip {α β : Type*} (as : List α) (bs : List β) :
    (as.zip bs).map Prod.snd = bs.take as.length := by
  induction as generalizing bs with
  | nil => rfl
  | cons a as ih =>
    cases bs with
    | nil => rfl
    | cons b bs => rw [zip_cons_cons, map_cons, ih, length_cons, take_succ_cons]

theorem rest_pos (hsw : 0 < sw) (hshape : ∀ size ∈ shape, 0 < size ∧ size < 2 ^ 64) (k : ℕ) :
    0 < sw * (shape.drop k).prod :=
  Nat.mul_pos hsw (List.prod_pos_iff_forall_pos_nat.2 fun size hsize =>
    (hshape size (mem_of_mem_drop hsize)).1)

theorem mul_prod_eq (sw k : ℕ) (shape : List ℕ) :
    sw * shape.prod = (shape.take k).prod * (sw * (shape.drop k).prod) := by
  rw [← prod_take_mul_prod_drop shape k]
  ring

theorem readArray_eq (hsw : 0 < sw) (hshape : ∀ size ∈ shape, 0 < size ∧ size < 2 ^ 64)
    (hsrc : src.length = sw * shape.prod) :
    readArray sw shape indices src = some (elementAt (sw * (shape.drop indices.length).prod) src
      (selectedIndex ((indices.zip shape).map selectorOf))) := by
  have hsizes : ((indices.zip shape).map selectorOf).map Prod.snd = shape.take indices.length := by
    rw [map_map]
    exact map_snd_zip indices shape
  have hpos := rest_pos hsw hshape indices.length
  have hlen : src.length = (((indices.zip shape).map selectorOf).map Prod.snd).prod *
      (sw * (shape.drop indices.length).prod) := by
    rw [hsrc, hsizes, ← mul_prod_eq]
  have hcount := length_chunks hpos hlen
  have hselectors : ∀ p ∈ (indices.zip shape).map selectorOf,
      0 < p.2 ∧ p.2 < 2 ^ 64 ∧ p.2 ≤ 2 ^ p.1.length := fun p hp => by
    obtain ⟨q, hq, rfl⟩ := mem_map.1 hp
    obtain ⟨hsize, h64⟩ := hshape q.2 (of_mem_zip hq).2
    refine ⟨hsize, h64, ?_⟩
    show q.2 ≤ 2 ^ (synthesizeExpr q.1 (max (indexBitsFor q.2) q.1.width)).length
    rw [synthesizeExpr, q.1.length_nets]
    exact Nat.le_trans (le_two_pow_indexBitsFor q.2)
      (Nat.pow_le_pow_right Nat.two_pos (Nat.le_max_left _ _))
  obtain ⟨out, hout, hlength, -, hget⟩ := foldrM_selectDim (P := 1)
    (w := sw * (shape.drop indices.length).prod) hselectors
    (by rw [hcount, Nat.one_mul]) (fun e he => by
      obtain ⟨g, hg, rfl⟩ := mem_chunks hpos hlen he
      exact length_chunk hlen hg)
  obtain ⟨e, rfl⟩ := length_eq_one_iff.1 hlength
  have he := hget 0 Nat.one_pos
  show (((indices.zip shape).map selectorOf).foldrM selectDim _).bind List.getLast? = _
  rw [hout, Option.bind_some]
  show some e = _
  rw [show e = [e].getD 0 (replicate (sw * (shape.drop indices.length).prod) false) from rfl, he]
  cases hk : selectedIndex ((indices.zip shape).map selectorOf) with
  | some k =>
    dsimp only
    rw [Nat.zero_mul, Nat.zero_add, getD_chunks hpos hlen (selectedIndex_lt hk)]
    rfl
  | none => rfl

section Elements

/-- Ones put into zeros. -/
theorem getD_patch {p i : ℕ} (hfit : p + w ≤ n) :
    (patch (replicate n false) p (replicate w true)).getD i false =
      decide (p ≤ i ∧ i < p + w) := by
  have hlen : ((replicate n false).take p).length = p := by
    rw [length_take, length_replicate, Nat.min_eq_left (by omega)]
  rw [patch, getD_eq_getElem?_getD]
  rcases Nat.lt_or_ge i p with hlow | hlow
  · rw [getElem?_append_left (by simp; omega), getElem?_append_left (by omega),
      getElem?_take_of_lt hlow, getElem?_replicate, if_pos (by omega)]
    simp [show ¬ p ≤ i by omega]
  · rcases Nat.lt_or_ge i (p + w) with hhigh | hhigh
    · rw [getElem?_append_left (by simp; omega), getElem?_append_right (by omega), hlen,
        getElem?_replicate]
      simp [hlow, hhigh, show i - p < w by omega]
    · rw [getElem?_append_right (by simp; omega), getElem?_drop, getElem?_replicate]
      simp [show ¬ i < p + w by omega]
      split <;> rfl

variable {k? k'? : Option ℕ}

theorem fits {k : ℕ} {start : ℕ} (hk : k < n) (hfit : start + w ≤ sw) :
    k * sw + start + w ≤ n * sw := by
  have hle := mul_add_le hk sw
  omega

/-- An element is told by the place that a write of ones changes. -/
theorem getD_patchElement {start k : ℕ} (hw : 0 < w) (hfit : start + w ≤ sw)
    (hk? : ∀ k ∈ k?, k < n) :
    (patchElement sw start (replicate w true) (replicate (n * sw) false) k?).getD
      (k * sw + start) false = decide (k? = some k) := by
  cases k? with
  | none => simp [patchElement]
  | some k' =>
    rw [patchElement, getD_patch (fits (hk? k' rfl) hfit)]
    rw [decide_eq_decide, Option.some.injEq]
    constructor
    · rintro ⟨hlow, hhigh⟩
      by_contra hne
      rcases Nat.lt_or_ge k k' with hlt | hge
      · have := fits (w := w) hlt hfit
        omega
      · have := fits (w := w) (show k' < k by omega) hfit
        omega
    · rintro rfl
      omega

theorem eq_of_patchElement {start : ℕ} (hw : 0 < w) (hfit : start + w ≤ sw)
    (hk? : ∀ k ∈ k?, k < n) (hk'? : ∀ k ∈ k'?, k < n)
    (h : patchElement sw start (replicate w true) (replicate (n * sw) false) k? =
      patchElement sw start (replicate w true) (replicate (n * sw) false) k'?) : k? = k'? := by
  refine Option.ext fun k => ?_
  have hbit := congrArg (fun l => l.getD (k * sw + start) false) h
  rw [getD_patchElement hw hfit hk?, getD_patchElement hw hfit hk'?, decide_eq_decide] at hbit
  exact hbit

/-- An element is told by reading nets that are ones in one element only. -/
theorem getD_elementAt {k : ℕ} (hw : 0 < w) (hk : k < n) (hk? : ∀ k ∈ k?, k < n) :
    (elementAt w (patch (replicate (n * w) false) (k * w) (replicate w true)) k?).getD 0 false =
      decide (k? = some k) := by
  cases k? with
  | none => simp [elementAt]
  | some k' =>
    have hstart : (patchElement w 0 (replicate w true) (replicate (n * w) false) (some k)).getD
        (k' * w + 0) false = decide (some k = some k') :=
      getD_patchElement hw (by omega) (by simpa using hk)
    rw [patchElement, Nat.add_zero, Nat.add_zero] at hstart
    rw [elementAt, getD_eq_getElem?_getD, getElem?_take_of_lt hw, getElem?_drop, Nat.add_zero,
      ← getD_eq_getElem?_getD, hstart]
    simp [eq_comm]

theorem eq_of_elementAt (hw : 0 < w) (hk? : ∀ k ∈ k?, k < n) (hk'? : ∀ k ∈ k'?, k < n)
    (h : ∀ k < n, elementAt w (patch (replicate (n * w) false) (k * w) (replicate w true)) k? =
      elementAt w (patch (replicate (n * w) false) (k * w) (replicate w true)) k'?) :
    k? = k'? := by
  refine Option.ext fun k => ?_
  by_cases hk : k < n
  · have hbit := congrArg (fun l => l.getD 0 false) (h k hk)
    rw [getD_elementAt hw hk hk?, getD_elementAt hw hk hk'?, decide_eq_decide] at hbit
    exact hbit
  · exact ⟨fun hmem => absurd (hk? k hmem) hk, fun hmem => absurd (hk'? k hmem) hk⟩

theorem flatIndex_lt {ps : List (ℕ × ℤ)} {k : ℕ} (h : flatIndex ps = some k) :
    k < (ps.map Prod.fst).prod := by
  induction ps generalizing k with
  | nil =>
    obtain rfl := Option.some.inj h
    exact Nat.one_pos
  | cons p rest ih =>
    obtain ⟨size, v⟩ := p
    rw [flatIndex] at h
    split at h
    · rename_i hin
      obtain ⟨k', hk', rfl⟩ := Option.map_eq_some_iff.1 h
      have hlt := ih hk'
      have hle := mul_add_le (show v.toNat < size by omega) (rest.map Prod.fst).prod
      rw [map_cons, prod_cons]
      dsimp only
      omega
    · cases h

end Elements

/-- The nets of the index of a write address the element that its value addresses. -/
def WriteOk (shape : List ℕ) (e : IndexExpr) : Prop :=
  shape.length ≠ 1 ∨ shape.prod = 0 ∨
    selectedIndex [(synthesizeExpr e (indexBitsFor shape.prod), shape.prod)] =
      flatIndex [(shape.prod, e.value)]

/-- The selectors of a read address the element that the values of its indices address. -/
def ReadOk (shape : List ℕ) (indices : List IndexExpr) : Prop :=
  selectedIndex ((indices.zip shape).map selectorOf) = flatIndex (indexPairs shape indices)

theorem write_iff {e : IndexExpr} {rest : List IndexExpr} {start : ℕ}
    (hindex : dst.index = .dynamic (e :: rest)) (hslice : dst.slice = some (start, w)) (hw : 0 < w)
    (hfit : start + w ≤ dst.scalarWidth) :
    (∀ src cur out, src.length = w → cur.length = dst.shape.prod * dst.scalarWidth →
      writeToDst dst src cur = some out →
        out = writeSpec dst.scalarWidth dst.shape (e :: rest) start src cur) ↔ WriteOk dst.shape e := by
  by_cases hrefused : dst.shape.length ≠ 1 ∨ dst.shape.prod = 0
  · refine ⟨fun _ => hrefused.elim .inl fun h => .inr (.inl h), fun _ src cur out _ _ hout => ?_⟩
    unfold writeToDst at hout
    rw [hindex] at hout
    dsimp only at hout
    rw [if_pos hrefused] at hout
    cases hout
  · rw [not_or, not_not] at hrefused
    obtain ⟨hdims, hpos⟩ := hrefused
    obtain ⟨n, hn⟩ := length_eq_one_iff.1 hdims
    have hpairs : indexPairs dst.shape (e :: rest) = [(dst.shape.prod, e.value)] := by
      simp [indexPairs, hn]
    have heq := @writeToDst_eq dst e rest start w hindex hdims hpos hslice hfit
    simp only [WriteOk, hdims, hpos, ne_eq, not_true_eq_false, false_or, writeSpec, hpairs]
    constructor
    · intro h
      have hones := h (replicate w true) (replicate (dst.shape.prod * dst.scalarWidth) false) _
        length_replicate length_replicate (heq length_replicate length_replicate)
      refine eq_of_patchElement hw hfit (fun k hk => ?_) (fun k hk => ?_) hones
      · simpa using selectedIndex_lt hk
      · simpa using flatIndex_lt hk
    · intro h src cur out hsrc hcur hout
      rw [heq hsrc hcur] at hout
      rw [← Option.some.inj hout, h]

theorem read_iff (hsw : 0 < sw) (hshape : ∀ size ∈ shape, 0 < size ∧ size < 2 ^ 64) :
    (∀ src, src.length = sw * shape.prod →
      readArray sw shape indices src = some (readSpec sw shape indices src)) ↔ ReadOk shape indices := by
  have hpos := rest_pos hsw hshape indices.length
  have htotal := mul_prod_eq sw indices.length shape
  constructor
  · intro h
    refine eq_of_elementAt (n := (shape.take indices.length).prod) hpos (fun k hk => ?_)
      (fun k hk => ?_) fun k hk => ?_
    · have hlt := selectedIndex_lt hk
      rwa [map_map, show (Prod.snd ∘ selectorOf) = Prod.snd from rfl, map_snd_zip] at hlt
    · have hlt := flatIndex_lt hk
      rwa [indexPairs, map_map, show (Prod.fst ∘ fun p : IndexExpr × ℕ => (p.2, p.1.value)) =
        Prod.snd from rfl, map_snd_zip] at hlt
    · have hlen : (patch (replicate ((shape.take indices.length).prod *
          (sw * (shape.drop indices.length).prod)) false)
          (k * (sw * (shape.drop indices.length).prod))
          (replicate (sw * (shape.drop indices.length).prod) true)).length = sw * shape.prod := by
        have hle := mul_add_le hk (sw * (shape.drop indices.length).prod)
        rw [htotal, patch, length_append, length_append, length_take, length_drop,
          length_replicate, length_replicate]
        omega
      have heq := h _ hlen
      rw [readArray_eq hsw hshape hlen] at heq
      exact Option.some.inj heq
  · intro h src hsrc
    rw [readArray_eq hsw hshape hsrc, readSpec, h]

section Variables

/-- The nets spell the number modulo a power of two at every target width. -/
structure IndexExpr.Modular (e : IndexExpr) : Prop where
  busValue_nets : ∀ target, (busValue (synthesizeExpr e target) : ℤ) = e.value % 2 ^ target
  value_lt : e.value < 2 ^ e.width

theorem modular_ofVariable (nets : List Bool) (signed : Bool) :
    (IndexExpr.ofVariable nets signed).Modular where
  busValue_nets := busValue_ofVariable nets signed
  value_lt := by
    have hlt : (busValue nets : ℤ) < 2 ^ nets.length := by exact_mod_cast busValue_lt nets
    have hpos : (0 : ℤ) < 2 ^ nets.length := by exact_mod_cast Nat.two_pow_pos nets.length
    simp only [IndexExpr.ofVariable]
    split <;> omega

/-- Past the end, what is left of the index has to be past the end too. -/
theorem writeOk_iff {e : IndexExpr} (he : e.Modular) : WriteOk shape e ↔
    shape.length ≠ 1 ∨ shape.prod = 0 ∨ (0 ≤ e.value ∧ e.value < (shape.prod : ℤ)) ∨
      (shape.prod : ℤ) ≤ e.value % 2 ^ indexBitsFor shape.prod := by
  have hbits := he.busValue_nets (indexBitsFor shape.prod)
  have hsize : (shape.prod : ℤ) ≤ 2 ^ indexBitsFor shape.prod := by
    exact_mod_cast le_two_pow_indexBitsFor shape.prod
  rw [WriteOk, selectedIndex, flatIndex, selectedIndex, flatIndex, Option.map_some,
    Option.map_some]
  simp only [map_nil, prod_nil, Nat.mul_one, Nat.add_zero]
  by_cases hin : 0 ≤ e.value ∧ e.value < (shape.prod : ℤ)
  · rw [Int.emod_eq_of_lt hin.1 (hin.2.trans_le hsize)] at hbits
    rw [if_pos (show busValue _ < shape.prod by omega), if_pos hin]
    simp only [Option.some.injEq, hin, and_self, true_or, or_true, iff_true]
    exact .inr (.inr (by omega))
  · have hpast : (shape.prod : ℤ) ≤ busValue (synthesizeExpr e (indexBitsFor shape.prod)) ↔
        ¬ busValue (synthesizeExpr e (indexBitsFor shape.prod)) < shape.prod := by omega
    rw [if_neg hin, ← hbits, hpast]
    simp only [hin, false_or]
    split <;> simp_all

theorem busValue_selectorOf {p : IndexExpr × ℕ} (he : p.1.Modular) (h : 0 ≤ p.1.value) :
    (busValue (selectorOf p).1 : ℤ) = p.1.value := by
  have hle : (2 : ℤ) ^ p.1.width ≤ 2 ^ max (indexBitsFor p.2) p.1.width := by
    exact_mod_cast Nat.pow_le_pow_right Nat.two_pos (Nat.le_max_right _ _)
  rw [selectorOf, he.busValue_nets, Int.emod_eq_of_lt h (he.value_lt.trans_le hle)]

/-- A sign extension must not bring a negative index into range. -/
theorem readOk_of_nonneg (he : ∀ p ∈ indices.zip shape, p.1.Modular ∧ 0 ≤ p.1.value) :
    ReadOk shape indices := by
  rw [ReadOk, indexPairs]
  generalize indices.zip shape = ps at he
  induction ps with
  | nil => rfl
  | cons p rest ih =>
    obtain ⟨hp, hnonneg⟩ := he p mem_cons_self
    have hvalue := busValue_selectorOf hp hnonneg
    have hsizes : (rest.map fun p => (p.2, p.1.value)).map Prod.fst =
        (rest.map selectorOf).map Prod.snd := by
      rw [map_map, map_map]
      rfl
    have hnat : p.1.value.toNat = busValue (selectorOf p).1 := by omega
    have hiff : (0 ≤ p.1.value ∧ p.1.value < (p.2 : ℤ)) ↔ busValue (selectorOf p).1 < p.2 := by
      omega
    rw [map_cons, map_cons, flatIndex, ← ih fun q hq => he q (mem_cons_of_mem _ hq), hsizes, hnat]
    simp only [hiff]
    rfl

end Variables

/-- Four one-bit elements. -/
def Dst.fourBits (e : IndexExpr) : Dst := ⟨1, [4], 0, 1, .dynamic [e], .whole⟩

theorem writeToDst_fourBits (e : IndexExpr) (h : busValue (e.nets 2) = 0) :
    writeToDst (.fourBits e) [true] (replicate 4 false) = some [true, false, false, false] := by
  have hout := @writeToDst_eq (.fourBits e) e [] 0 1 rfl rfl (by simp [Dst.fourBits]) rfl
    (by simp [Dst.fourBits]) [true] (replicate 4 false) rfl rfl
  have hbits : indexBitsFor 4 = 2 := by decide
  simp only [Dst.fourBits, prod_cons, prod_nil, Nat.mul_one, hbits, synthesizeExpr, selectedIndex,
    h] at hout
  exact hout

/-- The number four. -/
def fourOfThree : IndexExpr := .ofVariable [false, false, true] false

/-- `16 >> 4`. -/
def sixteenShifted : IndexExpr :=
  (IndexExpr.ofVariable [false, false, false, false, true, false, false, false] false).shiftRight 4

/-- Two of three bits, and one of three bits with a sign. -/
def rowIndex : IndexExpr := .ofVariable [false, true, false] false

def columnIndex : IndexExpr := .ofVariable [true, false, false] true

end Veryl.Synthesizer.DynamicIndex
