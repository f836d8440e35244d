import Veryl.Synthesizer.Reduce

/-!
Shifts. Each stage of the barrel shifter shifts by a power of two or not at all, so that the stages
together shift by the low bits of the amount; an amount with a bit above the stages leaves fill
bits only.
-/

namespace Veryl.Synthesizer.Netlist

open Veryl.Analyzer List Nat Function

variable {j : ℕ}

/-- The bits of an amount below the width. -/
def stagesFor (n : ℕ) : ℕ := if n ≤ 1 then 0 else Nat.log2 (n - 1) + 1

/-- The net that comes to place `j` when `cur` is shifted. -/
def shiftSource (op : Op) (fill : NetId) (cur : List NetId) (shiftAmount j : ℕ) : NetId :=
  match op with
  | .logicShiftL | .arithShiftL => if shiftAmount ≤ j then netOf cur (j - shiftAmount) else netConst0
  | .logicShiftR | .arithShiftR =>
    if j + shiftAmount < cur.length then netOf cur (j + shiftAmount) else fill
  | _ => netConst0

/-- A stage: every bit stays, or comes from `shiftAmount` places away. -/
def shiftStage (op : Op) (fill bit : NetId) (shiftAmount : ℕ) (cur : List NetId) :
    Build (List NetId) :=
  let shifted := (List.range cur.length).map (shiftSource op fill cur shiftAmount)
  (cur.zip shifted).mapM fun cs => cell .mux2 [bit, cs.1, cs.2]

def shiftStages (op : Op) (fill : NetId) : ℕ → List NetId → List NetId → Build (List NetId)
  | i, bit :: bits, cur => do
    let next ← shiftStage op fill bit (2 ^ i) cur
    shiftStages op fill (i + 1) bits next
  | _, [], cur => pure cur

/-- What a shift to the right moves in. -/
def fillOf (xs : List NetId) (op : Op) (signedExt : Bool) : NetId :=
  if signedExt ∧ op = .arithShiftR then netOf xs (xs.length - 1) else netConst0

def barrelShift (xs amount : List NetId) (op : Op) (signedExt : Bool) : Build (List NetId) :=
  if xs = [] then pure []
  else do
    let fill := fillOf xs op signedExt
    let stages := stagesFor xs.length
    let cur ← shiftStages op fill 0 (amount.take stages) xs
    if stages < amount.length then do
      let anyHigh ← reduceOr (amount.drop stages)
      cur.mapM fun c => cell .mux2 [anyHigh, c, fill]
    else pure cur

/-- The arithmetic form adds in a machine word. -/
def constantShift (xs : List NetId) (op : Op) (amount : ℕ) (signedExt : Bool) : List NetId :=
  let width := xs.length
  let zeros := replicate width netConst0
  match op with
  | .logicShiftL | .arithShiftL =>
    if amount < width then replicate amount netConst0 ++ xs.take (width - amount) else zeros
  | .logicShiftR =>
    if amount < width then xs.drop amount ++ replicate amount netConst0 else zeros
  | .arithShiftR =>
    let pad := if signedExt ∧ 0 < width then netOf xs (width - 1) else netConst0
    (List.range width).map fun i =>
      if (i + amount) % 2 ^ 64 < width then netOf xs ((i + amount) % 2 ^ 64) else pad
  | _ => zeros

/-- The operators that shift. -/
def IsShift (op : Op) : Prop :=
  op = .logicShiftL ∨ op = .arithShiftL ∨ op = .logicShiftR ∨ op = .arithShiftR

/-- The bit at place `j` of a bus shifted by `k`. -/
def shiftedBit (op : Op) (fill : Bool) (bs : List Bool) (k j : ℕ) : Bool :=
  match op with
  | .logicShiftL | .arithShiftL => if k ≤ j then bs.getD (j - k) false else false
  | _ => if j + k < bs.length then bs.getD (j + k) false else fill

def shifted (op : Op) (fill : Bool) (bs : List Bool) (k : ℕ) : List Bool :=
  (List.range bs.length).map (shiftedBit op fill bs k)

variable {op : Op} {fill : Bool} {bs : List Bool} {k l : ℕ}

@[simp] theorem length_shifted (op : Op) (fill : Bool) (bs : List Bool) (k : ℕ) :
    (shifted op fill bs k).length = bs.length := by
  rw [shifted, length_map, length_range]

theorem getD_shifted (hj : j < bs.length) :
    (shifted op fill bs k).getD j false = shiftedBit op fill bs k j := by
  rw [shifted, getD_eq_getElem?_getD, getElem?_map, getElem?_range hj]
  rfl

theorem shifted_zero (hop : IsShift op) : shifted op fill bs 0 = bs := by
  refine ext_getElem (length_shifted op fill bs 0) fun j hj hj' => ?_
  have hbit : (shifted op fill bs 0).getD j false = shiftedBit op fill bs 0 j :=
    getD_shifted hj'
  rw [getD_eq_getElem _ _ hj] at hbit
  rw [hbit]
  rcases hop with rfl | rfl | rfl | rfl <;> simp [shiftedBit, hj']

theorem shiftedBit_shifted (hop : IsShift op) (hj : j < bs.length) :
    shiftedBit op fill (shifted op fill bs k) l j = shiftedBit op fill bs (k + l) j := by
  have hup : ∀ op : Op, (∀ bs k j, shiftedBit op fill bs k j =
      if k ≤ j then bs.getD (j - k) false else false) →
      shiftedBit op fill (shifted op fill bs k) l j = shiftedBit op fill bs (k + l) j := by
    intro op hbit
    rw [hbit, hbit]
    by_cases hl : l ≤ j
    · rw [if_pos hl, getD_shifted (by omega), hbit, Nat.sub_sub, Nat.add_comm l k]
      by_cases hk : k + l ≤ j
      · rw [if_pos hk, if_pos (by omega)]
      · rw [if_neg hk, if_neg (by omega)]
    · rw [if_neg hl, if_neg (by omega)]
  have hdown : ∀ op : Op, (∀ bs k j, shiftedBit op fill bs k j =
      if j + k < bs.length then bs.getD (j + k) false else fill) →
      shiftedBit op fill (shifted op fill bs k) l j = shiftedBit op fill bs (k + l) j := by
    intro op hbit
    rw [hbit, hbit, length_shifted]
    by_cases hl : j + l < bs.length
    · rw [if_pos hl, getD_shifted hl, hbit, Nat.add_assoc, Nat.add_comm l k]
    · rw [if_neg hl, if_neg (by omega)]
  rcases hop with rfl | rfl | rfl | rfl
  · exact hup _ fun _ _ _ => rfl
  · exact hup _ fun _ _ _ => rfl
  · exact hdown _ fun _ _ _ => rfl
  · exact hdown _ fun _ _ _ => rfl

theorem shifted_shifted (hop : IsShift op) :
    shifted op fill (shifted op fill bs k) l = shifted op fill bs (k + l) := by
  rw [shifted, length_shifted]
  exact map_congr_left fun j hj => shiftedBit_shifted hop (mem_range.1 hj)

theorem shifted_of_le (hop : IsShift op)
    (hfill : op = .logicShiftL ∨ op = .arithShiftL → fill = false)
    (hk : bs.length ≤ k) : shifted op fill bs k = bs.map fun _ => fill := by
  refine ext_getElem (by simp) fun j hj hj' => ?_
  have hlt : j < bs.length := by rwa [length_shifted] at hj
  have hbit : (shifted op fill bs k).getD j false = shiftedBit op fill bs k j :=
    getD_shifted hlt
  rw [getD_eq_getElem _ _ hj] at hbit
  rw [hbit, getElem_map]
  have hup : ¬ k ≤ j := by omega
  have hdown : ¬ j + k < bs.length := by omega
  rcases hop with rfl | rfl | rfl | rfl
  · rw [hfill (.inl rfl)]
    simp [shiftedBit, hup]
  · rw [hfill (.inr rfl)]
    simp [shiftedBit, hup]
  · simp [shiftedBit, hdown]
  · simp [shiftedBit, hdown]

theorem lt_stagesFor (n : ℕ) : n ≤ 2 ^ stagesFor n := by
  unfold stagesFor
  split
  · omega
  · have := lt_log2_self (n := n - 1)
    omega

variable {ρ : NetId → Bool} {xs cur amount : List NetId} {signedExt : Bool}

theorem value_shiftSource (hgnd : ρ netConst0 = false) (hop : IsShift op) (fill : NetId)
    (hj : j < cur.length) :
    ρ (shiftSource op fill cur k j) = shiftedBit op (ρ fill) (cur.map ρ) k j := by
  have hup : ρ (if k ≤ j then netOf cur (j - k) else netConst0) =
      if k ≤ j then (cur.map ρ).getD (j - k) false else false := by
    split
    · exact value_netOf ρ (by omega)
    · exact hgnd
  have hdown : ρ (if j + k < cur.length then netOf cur (j + k) else fill) =
      if j + k < (cur.map ρ).length then (cur.map ρ).getD (j + k) false else ρ fill := by
    rw [length_map]
    split
    · rename_i hin
      exact value_netOf ρ hin
    · rfl
  rcases hop with rfl | rfl | rfl | rfl
  · exact hup
  · exact hup
  · exact hdown
  · exact hdown

theorem makes_shiftStage (hop : IsShift op) (fill bit : NetId) (s : ℕ) (cur : List NetId) :
    Makes (shiftStage op fill bit s cur) (fun r => r.length = cur.length) fun ρ r =>
      r.map ρ = if ρ bit then shifted op (ρ fill) (cur.map ρ) s else cur.map ρ := by
  have hlen : cur.length = ((List.range cur.length).map (shiftSource op fill cur s)).length := by
    simp
  refine (makes_mapM (v := fun ρ cs => CellKind.mux2.eval [ρ bit, ρ cs.1, ρ cs.2])
    fun cs _ ρ => gives_cell rfl).imp (fun r hr => ?_) fun ρ hgnd _ r _ hr => ?_
  · rw [hr, length_zip, ← hlen, Nat.min_self]
  · rw [hr, map_zip_mux hlen, map_map, shifted, length_map]
    congr 1
    exact map_congr_left fun j hj => value_shiftSource hgnd hop fill (mem_range.1 hj)

theorem makes_shiftStages (hop : IsShift op) (fill : NetId) (bits : List NetId) :
    ∀ (i : ℕ) (cur : List NetId), Makes (shiftStages op fill i bits cur)
      (fun r => r.length = cur.length) fun ρ r =>
        r.map ρ = shifted op (ρ fill) (cur.map ρ) (2 ^ i * number ρ bits) := by
  induction bits with
  | nil =>
    refine fun i cur => makes_pure rfl fun ρ _ _ => ?_
    have hzero : 2 ^ i * number ρ [] = 0 := Nat.mul_zero _
    rw [hzero, shifted_zero hop]
  | cons bit bits ih =>
    intro i cur
    refine (makes_shiftStage hop fill bit (2 ^ i) cur).bind fun next hnext => ?_
    refine (ih (i + 1) next).imp (fun r hr => hr.trans hnext) fun ρ _ _ r _ hr hstage => ?_
    have hnumber : number ρ (bit :: bits) = (ρ bit).toNat + 2 * number ρ bits := rfl
    have hstep : next.map ρ = shifted op (ρ fill) (cur.map ρ) (2 ^ i * (ρ bit).toNat) := by
      rw [hstage]
      cases ρ bit with
      | true => rw [if_pos rfl, Bool.toNat_true, Nat.mul_one]
      | false =>
        rw [if_neg Bool.false_ne_true, Bool.toNat_false, Nat.mul_zero, shifted_zero hop]
    rw [hr, hstep, shifted_shifted hop, hnumber, Nat.pow_succ]
    congr 1
    ring

/-- The value that is moved in. -/
def fillValue (ρ : NetId → Bool) (xs : List NetId) (op : Op) (signedExt : Bool) : Bool :=
  ρ (fillOf xs op signedExt)

theorem fillValue_up (hgnd : ρ netConst0 = false) (h : op = .logicShiftL ∨ op = .arithShiftL) :
    fillValue ρ xs op signedExt = false := by
  unfold fillValue fillOf
  rcases h with rfl | rfl <;> simpa using hgnd

/-- Some bit above the stages is set exactly where the amount does not fit them. -/
theorem any_drop (bs : List Bool) (n : ℕ) : (bs.drop n).any id = decide (2 ^ n ≤ busValue bs) := by
  have hzero : ∀ l : List Bool, l.any id = decide (busValue l ≠ 0) := fun l => by
    induction l with
    | nil => rfl
    | cons b l ih =>
      rw [any_cons, ih, busValue]
      cases b <;> simp
  rw [hzero]
  rcases Nat.lt_or_ge bs.length n with hn | hn
  · have hlt := (busValue_lt bs).trans_le (Nat.pow_le_pow_right Nat.two_pos hn.le)
    have hsmall : ¬ 2 ^ n ≤ busValue bs := by omega
    rw [drop_eq_nil_of_le hn.le, decide_eq_false hsmall]
    rfl
  · have hsplit := congrArg busValue (take_append_drop n bs)
    have hlt := busValue_lt (bs.take n)
    rw [busValue_append, length_take, Nat.min_eq_left hn] at hsplit
    rw [length_take, Nat.min_eq_left hn] at hlt
    refine decide_eq_decide.2 ⟨fun h => ?_, fun h hzero => ?_⟩
    · have := Nat.le_mul_of_pos_right (2 ^ n) (Nat.pos_of_ne_zero h)
      omega
    · rw [hzero, Nat.mul_zero] at hsplit
      omega

theorem makes_barrelShift (hop : IsShift op) (xs amount : List NetId) (signedExt : Bool) :
    Makes (barrelShift xs amount op signedExt) (fun r => r.length = xs.length) fun ρ r =>
      r.map ρ = shifted op (fillValue ρ xs op signedExt) (xs.map ρ) (number ρ amount) := by
  unfold barrelShift
  split
  · rename_i hnil
    subst hnil
    exact makes_pure rfl fun ρ _ _ => rfl
  · refine (makes_shiftStages hop _ (amount.take (stagesFor xs.length)) 0 xs).bind
      fun cur hcur => ?_
    have hwidth := lt_stagesFor xs.length
    split
    · rename_i hmore
      refine (makes_of_gives (Q := fun _ => True) (fun _ => trivial)
        fun ρ => gives_reduceOr _).bind fun anyHigh _ => ?_
      refine (makes_mapM (v := fun ρ c => CellKind.mux2.eval [ρ anyHigh, ρ c,
        ρ (fillOf xs op signedExt)]) fun c _ ρ => gives_cell rfl).imp
        (fun r hr => hr.trans hcur) fun ρ hgnd _ r _ hr hany hstages => ?_
      rw [map_drop, any_drop] at hany
      rw [Nat.pow_zero, Nat.one_mul, number_take] at hstages
      have hmap : r.map ρ = (cur.map ρ).map fun c => if ρ anyHigh then
          fillValue ρ xs op signedExt else c := by
        rw [hr, map_map]
        rfl
      rw [hmap]
      by_cases hhigh : 2 ^ stagesFor xs.length ≤ number ρ amount
      · have hset : ρ anyHigh = true := hany.trans (decide_eq_true hhigh)
        rw [shifted_of_le hop (fun h => fillValue_up hgnd h) (by rw [length_map]; omega), hset]
        simp only [if_true, map_const', length_map, hcur]
      · have hclear : ρ anyHigh = false := hany.trans (decide_eq_false hhigh)
        rw [mod_eq_of_lt (by omega)] at hstages
        rw [hclear]
        simp only [Bool.false_eq_true, if_false, map_id']
        exact hstages
    · rename_i hall
      refine makes_pure hcur fun ρ _ _ hstages => ?_
      rwa [Nat.pow_zero, Nat.one_mul, take_of_length_le (by omega)] at hstages

theorem map_shiftUp (hgnd : ρ netConst0 = false) (k : ℕ) :
    (if k < xs.length then replicate k netConst0 ++ xs.take (xs.length - k)
      else replicate xs.length netConst0).map ρ =
      (List.range (xs.map ρ).length).map fun j =>
        if k ≤ j then (xs.map ρ).getD (j - k) false else false := by
  split
  · rename_i hk
    refine ext_getElem (by simp; omega) fun j hj hj' => ?_
    have hlt : j < xs.length := by simpa using hj'
    simp only [map_append, map_replicate, getElem_map, getElem_range]
    by_cases hlow : k ≤ j
    · rw [getElem_append_right (by simpa using hlow), if_pos hlow,
        getD_eq_getElem _ _ (by rw [length_map]; omega)]
      simp
    · rw [getElem_append_left (by simpa using hlow), if_neg hlow, getElem_replicate, hgnd]
  · rename_i hk
    refine ext_getElem (by simp) fun j hj hj' => ?_
    have hlt : j < xs.length := by simpa using hj'
    have hhigh : ¬ k ≤ j := by omega
    simp only [map_replicate, getElem_replicate, getElem_map, getElem_range, if_neg hhigh, hgnd]

theorem map_shiftDown (hgnd : ρ netConst0 = false) (k : ℕ) :
    (if k < xs.length then xs.drop k ++ replicate k netConst0
      else replicate xs.length netConst0).map ρ =
      (List.range (xs.map ρ).length).map fun j =>
        if j + k < (xs.map ρ).length then (xs.map ρ).getD (j + k) false else false := by
  split
  · rename_i hk
    refine ext_getElem (by simp; omega) fun j hj hj' => ?_
    simp only [map_append, map_replicate, getElem_map, getElem_range, length_map]
    by_cases hin : j + k < xs.length
    · rw [getElem_append_left (by rw [length_map, length_drop]; omega), if_pos hin,
        getD_eq_getElem _ _ (by rwa [length_map])]
      simp [Nat.add_comm]
    · rw [getElem_append_right (by rw [length_map, length_drop]; omega), if_neg hin,
        getElem_replicate, hgnd]
  · rename_i hk
    refine ext_getElem (by simp) fun j hj hj' => ?_
    have hout : ¬ j + k < xs.length := by omega
    simp only [map_replicate, getElem_replicate, getElem_map, getElem_range,
      length_map, if_neg hout, hgnd]

/-- The other forms compare the amount with the width first. -/
theorem constantShift_logic (hgnd : ρ netConst0 = false) (hop : IsShift op)
    (harith : op ≠ .arithShiftR) (k : ℕ) : (constantShift xs op k signedExt).map ρ =
      shifted op (fillValue ρ xs op signedExt) (xs.map ρ) k := by
  rcases hop with rfl | rfl | rfl | rfl
  · exact map_shiftUp hgnd k
  · exact map_shiftUp hgnd k
  · have hfill : fillValue ρ xs .logicShiftR signedExt = false := by
      simpa [fillValue, fillOf] using hgnd
    rw [hfill]
    exact map_shiftDown hgnd k
  · exact absurd rfl harith

theorem constantShift_arith_iff (hlen : xs.length < 2 ^ 64) (hk : k < 2 ^ 64) :
    (constantShift xs .arithShiftR k signedExt).map ρ =
      shifted .arithShiftR (fillValue ρ xs .arithShiftR signedExt) (xs.map ρ) k ↔
    ∀ j, j + 2 ^ 64 < k + xs.length → ρ (netOf xs j) = fillValue ρ xs .arithShiftR signedExt := by
  have hpad : ∀ i < xs.length, ρ (if signedExt ∧ 0 < xs.length then netOf xs (xs.length - 1)
      else netConst0) = fillValue ρ xs .arithShiftR signedExt := fun i hi => by
    have hpos : 0 < xs.length := by omega
    simp [fillValue, fillOf, hpos]
  have hbit : ∀ i < xs.length, ρ (if (i + k) % 2 ^ 64 < xs.length then netOf xs ((i + k) % 2 ^ 64)
      else if signedExt ∧ 0 < xs.length then netOf xs (xs.length - 1) else netConst0) =
      if 2 ^ 64 ≤ i + k then ρ (netOf xs (i + k - 2 ^ 64))
      else shiftedBit .arithShiftR (fillValue ρ xs .arithShiftR signedExt) (xs.map ρ) k i := by
    intro i hi
    by_cases hwrap : 2 ^ 64 ≤ i + k
    · have hmod : (i + k) % 2 ^ 64 = i + k - 2 ^ 64 := by
        rw [mod_eq_sub_mod hwrap, mod_eq_of_lt (by omega)]
      rw [if_pos hwrap, hmod, if_pos (by omega)]
    · have hshift : shiftedBit .arithShiftR (fillValue ρ xs .arithShiftR signedExt) (xs.map ρ) k i =
          if i + k < xs.length then (xs.map ρ).getD (i + k) false
          else fillValue ρ xs .arithShiftR signedExt := by
        have hmap : (xs.map ρ).length = xs.length := length_map ρ
        rw [← hmap]
        rfl
      rw [if_neg hwrap, mod_eq_of_lt (by omega), hshift]
      split
      · rename_i hin
        exact value_netOf ρ hin
      · exact hpad i hi
  have hfill : ∀ i < xs.length, 2 ^ 64 ≤ i + k →
      shiftedBit .arithShiftR (fillValue ρ xs .arithShiftR signedExt) (xs.map ρ) k i =
        fillValue ρ xs .arithShiftR signedExt := fun i hi hwrap => by
    have hout : ¬ i + k < xs.length := by omega
    simp [shiftedBit, hout]
  unfold constantShift shifted
  rw [map_map, length_map, map_inj_left]
  constructor
  · intro h j hj
    have hi : 2 ^ 64 + j - k < xs.length := by omega
    have hsum : 2 ^ 64 + j - k + k = 2 ^ 64 + j := by omega
    have hplace := h _ (mem_range.2 hi)
    dsimp only [comp_apply] at hplace
    rw [hbit _ hi, if_pos (by omega), hfill _ hi (by omega), hsum,
      Nat.add_sub_cancel_left] at hplace
    exact hplace
  · intro h i hi
    have hi := mem_range.1 hi
    dsimp only [comp_apply]
    rw [hbit i hi]
    split
    · rename_i hwrap
      rw [h _ (by omega), hfill i hi hwrap]
    · rfl

/-- What shifts by `k` promise on values `ρ` of the nets: the barrel shifter shifts by it,
whatever the width of the amount, and where `k` fits the word that holds a constant amount the
rewiring does, and the two agree. -/
structure ShiftExact (ρ : NetId → Bool) (xs : List NetId) (op : Op) (k : ℕ) (signedExt : Bool) :
    Prop where
  barrel : ∀ amount, number ρ amount = k → Gives ρ (barrelShift xs amount op signedExt) fun r =>
    r.map ρ = shifted op (fillValue ρ xs op signedExt) (xs.map ρ) k
  constant : k < 2 ^ 64 → (constantShift xs op k signedExt).map ρ =
    shifted op (fillValue ρ xs op signedExt) (xs.map ρ) k
  agree : k < 2 ^ 64 → ∀ amount, number ρ amount = k →
    Gives ρ (barrelShift xs amount op signedExt) fun r =>
      (constantShift xs op k signedExt).map ρ = r.map ρ

/-- Shifts are exact unless an arithmetic one adds past the machine word and then finds a bit
that is not the fill. -/
theorem shiftExact_iff (hop : IsShift op) (hgnd : ρ netConst0 = false)
    (hlen : xs.length < 2 ^ 64) : ShiftExact ρ xs op k signedExt ↔ op ≠ .arithShiftR ∨
      (k < 2 ^ 64 → ∀ j, j + 2 ^ 64 < k + xs.length →
        ρ (netOf xs j) = fillValue ρ xs op signedExt) := by
  have hconstant : (k < 2 ^ 64 → (constantShift xs op k signedExt).map ρ =
      shifted op (fillValue ρ xs op signedExt) (xs.map ρ) k) ↔ op ≠ .arithShiftR ∨
      (k < 2 ^ 64 → ∀ j, j + 2 ^ 64 < k + xs.length →
        ρ (netOf xs j) = fillValue ρ xs op signedExt) := by
    by_cases harith : op = .arithShiftR
    · subst harith
      rw [forall_congr' fun hk => constantShift_arith_iff hlen hk]
      exact ⟨Or.inr, fun h => h.resolve_left (not_not_intro rfl)⟩
    · exact ⟨fun _ => Or.inl harith, fun _ _ => constantShift_logic hgnd hop harith k⟩
  have hbarrel : ∀ amount, number ρ amount = k → Gives ρ (barrelShift xs amount op signedExt)
      fun r => r.map ρ = shifted op (fillValue ρ xs op signedExt) (xs.map ρ) k :=
    fun amount hamount => ((makes_barrelShift hop xs amount signedExt).gives ρ).imp
      fun r hr => hamount ▸ hr
  rw [← hconstant]
  exact ⟨ShiftExact.constant, fun h => ⟨hbarrel, h, fun hk amount hamount =>
    (hbarrel amount hamount).imp fun r hr => (h hk).trans hr.symm⟩⟩

/-- A negative number of two bits shifted by one. -/
theorem shiftExact_pair : ShiftExact (fun n => n = netConst1) [netConst0, netConst1]
    .arithShiftR 1 true :=
  (shiftExact_iff (.inr (.inr (.inr rfl))) rfl (by decide)).2
    (.inr fun _ j hj => absurd hj (by simp))

/-- One shifted by the greatest amount: the upper place takes in the lowest bit. -/
theorem not_shiftExact_wrap : ¬ ∀ (ρ : NetId → Bool) (xs : List NetId) (op : Op) (k : ℕ)
    (signedExt : Bool), ρ netConst0 = false → IsShift op → xs.length < 2 ^ 64 →
      ShiftExact ρ xs op k signedExt := by
  intro h
  have hwrap := (h (fun n => n = netConst1) [netConst1, netConst0] .arithShiftR (2 ^ 64 - 1) true
    rfl (.inr (.inr (.inr rfl))) (by decide)).constant (by decide)
  revert hwrap
  decide

end Veryl.Synthesizer.Netlist
