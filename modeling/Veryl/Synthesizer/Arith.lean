import Veryl.Synthesizer.CounterNetwork

/-!
Adders, comparisons, decoders and multiplexer trees over the values of their nets:
the net of an added cell has the value of the cell (`ConvContext.addCell_spec`).
-/

namespace Veryl.Synthesizer

open List Option Nat

variable {a b zero : List Bool} {cin : Bool}

/-- A ripple carry. -/
def rippleAddCore : List Bool → List Bool → Bool → List Bool
  | a :: as, b :: bs, cin =>
    let ab := CellKind.xor2.eval [a, b]
    let sum := CellKind.xor2.eval [ab, cin]
    let aAndB := CellKind.and2.eval [a, b]
    let cinAndAb := CellKind.and2.eval [cin, ab]
    sum :: rippleAddCore as bs (CellKind.or2.eval [aAndB, cinAndAb])
  | _, _, _ => []

/-- One level of the prefix network: a place takes in the place `d` below it. -/
def prefixLevel (d : ℕ) (pg : List Bool × List Bool) : List Bool × List Bool :=
  let at' (l : List Bool) (i : ℕ) := l.getD i false
  ((List.range pg.1.length).map fun i =>
      if d ≤ i then CellKind.and2.eval [at' pg.1 i, at' pg.1 (i - d)] else at' pg.1 i,
    (List.range pg.1.length).map fun i =>
      if d ≤ i then
        CellKind.or2.eval [at' pg.2 i, CellKind.and2.eval [at' pg.1 i, at' pg.2 (i - d)]]
      else at' pg.2 i)

/-- The levels at the distances `d`, `2 * d`, up to `n`. -/
def prefixLevels (n d : ℕ) (pg : List Bool × List Bool) : List Bool × List Bool :=
  if 0 < d ∧ d < n then prefixLevels n (d * 2) (prefixLevel d pg) else pg
termination_by n - d

def koggeStoneAdd (a b : List Bool) (cin : Bool) : List Bool :=
  let pSeed := List.zipWith (fun x y => CellKind.xor2.eval [x, y]) a b
  let gSeed := List.zipWith (fun x y => CellKind.and2.eval [x, y]) a b
  let pg := prefixLevels a.length 1 (pSeed, gSeed)
  (List.range a.length).map fun i =>
    if i = 0 then CellKind.xor2.eval [pSeed.getD 0 false, cin]
    else
      let carry := CellKind.or2.eval [pg.2.getD (i - 1) false,
        CellKind.and2.eval [pg.1.getD (i - 1) false, cin]]
      CellKind.xor2.eval [pSeed.getD i false, carry]

/-- Fails on operands of different widths. -/
def rippleAdd (a b : List Bool) (cin : Bool) : Option (List Bool) :=
  if a.length ≠ b.length then none
  else if a.length < 4 then some (rippleAddCore a b cin)
  else some (koggeStoneAdd a b cin)

def rippleSub (a b : List Bool) : Option (List Bool) :=
  if a.length ≠ b.length then none
  else rippleAdd a (b.map fun x => CellKind.not.eval [x]) true

/-- `a < b`, from the top bit of a difference one bit wider. -/
def compareLess (a b : List Bool) (signed : Bool) : Option Bool :=
  if a = [] then some false
  else
    let top (l : List Bool) := if signed then l.getD (a.length - 1) false else false
    (rippleSub (a ++ [top a]) (b ++ [top b])).map fun diff => diff.getLastD false

/-- A balanced tree of cells of one kind. -/
def reducePairs (kind : CellKind) : List Bool → List Bool
  | a :: b :: rest => kind.eval [a, b] :: reducePairs kind rest
  | rest => rest

theorem length_reducePairs (kind : CellKind) (bits : List Bool) :
    (reducePairs kind bits).length = (bits.length + 1) / 2 := by
  induction bits using reducePairs.induct with
  | case1 a b rest ih =>
    rw [reducePairs, length_cons, ih, length_cons, length_cons]
    omega
  | case2 rest hrest =>
    match rest, hrest with
    | [], _ => simp [reducePairs]
    | [a], _ => simp [reducePairs]
    | a :: b :: rest, h => exact absurd rfl (h a b rest)

def reduce (kind : CellKind) (identity : Bool) (bits : List Bool) : Bool :=
  match bits with
  | [] => identity
  | [a] => a
  | a :: b :: rest => reduce kind identity (reducePairs kind (a :: b :: rest))
termination_by bits.length
decreasing_by
  rw [length_reducePairs]
  simp only [length_cons]
  omega

def reduceAnd (bits : List Bool) : Bool := reduce .and2 true bits

/-- Whether the bits, lowest first, spell a constant. -/
def eqConst (idx : List Bool) (k : ℕ) : Bool :=
  if idx = [] then decide (k = 0)
  else
    let bits := idx.mapIdx fun i n => CellKind.xnor2.eval [n, k.testBit i]
    if k >>> idx.length ≠ 0 then false else reduceAnd bits

/-- Merges neighbours; the last one may meet the padding. -/
def muxPairs (sel : Bool) (zero : List Bool) : List (List Bool) → List (List Bool)
  | a :: b :: rest =>
    List.zipWith (fun x y => CellKind.mux2.eval [sel, x, y]) a b :: muxPairs sel zero rest
  | [a] => [List.zipWith (fun x y => CellKind.mux2.eval [sel, x, y]) a zero]
  | [] => []

def muxTree (zero : List Bool) : List (List Bool) → List Bool → List Bool
  | level, [] => level.headD []
  | level, sel :: sels =>
    if level.length = 1 then level.headD []
    else muxTree zero (muxPairs sel zero level) sels

def dynamicMuxTree (elements : List (List Bool)) (selBits : List Bool) : List Bool :=
  muxTree (replicate (elements.headD []).length false) elements selBits

/-- The carry into a place. -/
def carryInto : List Bool → List Bool → Bool → ℕ → Bool
  | a :: as, b :: bs, c, i + 1 => carryInto as bs (a && b || c && (a ^^ b)) i
  | _, _, c, _ => c

@[simp] theorem carryInto_zero (a b : List Bool) (c : Bool) : carryInto a b c 0 = c := by
  cases a <;> cases b <;> rfl

theorem busValue_rippleAddCore (a b : List Bool) (cin : Bool) (hlen : a.length = b.length) :
    (rippleAddCore a b cin).length = a.length ∧ busValue (rippleAddCore a b cin) =
      (busValue a + busValue b + cin.toNat) % 2 ^ a.length := by
  induction a generalizing b cin with
  | nil => exact ⟨rfl, (mod_one _).symm⟩
  | cons x xs ih =>
    obtain ⟨y, ys, rfl⟩ := exists_cons_of_length_eq_add_one hlen.symm
    obtain ⟨hlength, hvalue⟩ := ih ys (x && y || cin && (x ^^ y)) (Nat.succ.inj hlen)
    have hcell : rippleAddCore (x :: xs) (y :: ys) cin =
        (x ^^ y ^^ cin) :: rippleAddCore xs ys (x && y || cin && (x ^^ y)) := rfl
    have hbit : x.toNat + y.toNat + cin.toNat =
        (x ^^ y ^^ cin).toNat + 2 * (x && y || cin && (x ^^ y)).toNat := by
      cases x <;> cases y <;> cases cin <;> rfl
    have hsmall := Bool.toNat_le (x ^^ y ^^ cin)
    rw [hcell, length_cons, hlength, busValue, hvalue, busValue, busValue, length_cons,
      Nat.pow_succ, Nat.mul_comm _ 2, mod_mul]
    refine ⟨rfl, ?_⟩
    congr 1
    · omega
    · congr 2
      omega

theorem getElem?_rippleAddCore {a b : List Bool} (hlen : a.length = b.length) (cin : Bool) {i : ℕ}
    (hi : i < a.length) : (rippleAddCore a b cin)[i]? =
      some (a.getD i false ^^ b.getD i false ^^ carryInto a b cin i) := by
  induction a generalizing b cin i with
  | nil => exact absurd hi (Nat.not_lt_zero _)
  | cons x xs ih =>
    obtain ⟨y, ys, rfl⟩ := exists_cons_of_length_eq_add_one hlen.symm
    cases i with
    | zero => rfl
    | succ i => exact ih (Nat.succ.inj hlen) _ (lt_of_succ_lt_succ hi)

/-- The carry out of a place, from the carry into the place `d` below it. -/
def Spans (a b : List Bool) (cin : Bool) (d : ℕ) (pg : List Bool × List Bool) : Prop :=
  pg.1.length = a.length ∧ ∀ i < a.length, carryInto a b cin (i + 1) =
    (pg.2.getD i false || pg.1.getD i false && carryInto a b cin (i + 1 - d))

theorem Spans.level {d : ℕ} {pg : List Bool × List Bool}
    (h : Spans a b cin d pg) : Spans a b cin (d * 2) (prefixLevel d pg) := by
  obtain ⟨hlen, hspan⟩ := h
  refine ⟨by simp [prefixLevel, hlen], fun i hi => ?_⟩
  have hi' : i < pg.1.length := by rwa [hlen]
  have hget : ∀ f : ℕ → Bool, ((List.range pg.1.length).map f).getD i false = f i := fun f => by
    rw [getD_eq_getElem _ _ (by simpa using hi'), getElem_map, getElem_range]
  unfold prefixLevel
  simp only [hget]
  by_cases hd : d ≤ i
  · have hlow := hspan (i - d) (by omega)
    rw [hspan i hi, show i + 1 - d = i - d + 1 by omega, hlow,
      show i + 1 - d * 2 = i - d + 1 - d by omega,
      if_pos hd, if_pos hd]
    simp only [CellKind.eval]
    cases pg.2.getD i false <;> cases pg.1.getD i false <;> simp
  · rw [hspan i hi, if_neg hd, if_neg hd, show i + 1 - d = i + 1 - d * 2 by omega]

theorem spans_levels (n d : ℕ) (pg : List Bool × List Bool) (hd : 0 < d) (h : Spans a b cin d pg) :
    ∃ d', n ≤ d' ∧ Spans a b cin d' (prefixLevels n d pg) := by
  induction d, pg using prefixLevels.induct n with
  | case1 d pg hlt ih =>
    rw [prefixLevels, if_pos hlt]
    exact ih (by omega) h.level
  | case2 d pg hge =>
    rw [prefixLevels, if_neg hge]
    exact ⟨d, by omega, h⟩

theorem busValue_append (bs bs' : List Bool) :
    busValue (bs ++ bs') = busValue bs + 2 ^ bs.length * busValue bs' := by
  induction bs with
  | nil => simp [busValue]
  | cons b bs ih =>
    rw [cons_append, busValue, busValue, ih, length_cons, Nat.pow_succ,
      Nat.mul_comm (2 ^ bs.length) 2, Nat.mul_assoc]
    omega

theorem busValue_not (bs : List Bool) :
    busValue (bs.map fun x => CellKind.not.eval [x]) + busValue bs + 1 =
    2 ^ bs.length := by
  induction bs with
  | nil => rfl
  | cons b bs ih =>
    have hbit : (CellKind.not.eval [b]).toNat + b.toNat = 1 := by cases b <;> rfl
    rw [map_cons, busValue, busValue, length_cons, Nat.pow_succ]
    omega

theorem busValue_replicate_false (n : ℕ) : busValue (replicate n false) = 0 := by
  induction n with
  | zero => rfl
  | succ n ih =>
    rw [replicate_succ, busValue, ih]
    rfl

section

variable (hlen : a.length = b.length)

include hlen

theorem carryInto_succ (cin : Bool) {i : ℕ} (hi : i < a.length) : carryInto a b cin (i + 1) =
      (a.getD i false && b.getD i false || carryInto a b cin i && (a.getD i false ^^ b.getD i false)) := by
  induction a generalizing b cin i with
  | nil => exact absurd hi (Nat.not_lt_zero _)
  | cons x xs ih =>
    obtain ⟨y, ys, rfl⟩ := exists_cons_of_length_eq_add_one hlen.symm
    cases i with
    | zero =>
      show carryInto xs ys (x && y || cin && (x ^^ y)) 0 = _
      rw [carryInto_zero, carryInto_zero]
      rfl
    | succ i => exact ih (Nat.succ.inj hlen) _ (lt_of_succ_lt_succ hi)

theorem koggeStoneAdd_eq (cin : Bool) : koggeStoneAdd a b cin = rippleAddCore a b cin := by
  have hpSeed : ∀ i < a.length, (List.zipWith (fun x y => CellKind.xor2.eval [x, y]) a b).getD i false =
      (a.getD i false ^^ b.getD i false) := fun i hi => by
    rw [getD_eq_getElem _ _ (by simpa [← hlen] using hi), getElem_zipWith,
      getD_eq_getElem _ _ hi, getD_eq_getElem _ _ (hlen ▸ hi)]
    rfl
  have hgSeed : ∀ i < a.length, (List.zipWith (fun x y => CellKind.and2.eval [x, y]) a b).getD i false =
      (a.getD i false && b.getD i false) := fun i hi => by
    rw [getD_eq_getElem _ _ (by simpa [← hlen] using hi), getElem_zipWith,
      getD_eq_getElem _ _ hi, getD_eq_getElem _ _ (hlen ▸ hi)]
    rfl
  obtain ⟨d, hd, -, hspan⟩ := spans_levels a.length 1
    (List.zipWith (fun x y => CellKind.xor2.eval [x, y]) a b,
      List.zipWith (fun x y => CellKind.and2.eval [x, y]) a b) Nat.one_pos
    (⟨by simp [← hlen], fun i hi => by
      rw [carryInto_succ hlen cin hi, hpSeed i hi, hgSeed i hi, Nat.add_sub_cancel,
        Bool.and_comm (carryInto a b cin i)]⟩ :
        Spans a b cin 1 _)
  refine ext_getElem? fun i => ?_
  rcases Nat.lt_or_ge i a.length with hi | hi
  · rw [getElem?_rippleAddCore hlen cin hi]
    unfold koggeStoneAdd
    rw [getElem?_map, getElem?_range hi, map_some, hpSeed i hi]
    split
    · rename_i hzero
      subst hzero
      rw [hpSeed 0 hi, carryInto_zero]
      rfl
    · rename_i hpos
      have hcarry := hspan (i - 1) (by omega)
      rw [show i - 1 + 1 - d = 0 by omega, show i - 1 + 1 = i by omega] at hcarry
      rw [hcarry, carryInto_zero]
      rfl
  · rw [getElem?_eq_none (by simpa [koggeStoneAdd] using hi),
      getElem?_eq_none (by rw [(busValue_rippleAddCore a b cin hlen).1]; exact hi)]

theorem rippleAdd_spec (cin : Bool) : ∃ sum, rippleAdd a b cin = some sum ∧ sum.length = a.length ∧
      busValue sum = (busValue a + busValue b + cin.toNat) % 2 ^ a.length := by
  obtain ⟨hlength, hvalue⟩ := busValue_rippleAddCore a b cin hlen
  refine ⟨_, ?_, hlength, hvalue⟩
  unfold rippleAdd
  rw [if_neg (not_not.2 hlen)]
  split
  · rfl
  · rw [koggeStoneAdd_eq hlen]

theorem compareLess_spec : compareLess a b false = some (decide (busValue a < busValue b)) := by
  unfold compareLess
  split
  · rename_i hnil
    subst hnil
    obtain rfl := length_eq_zero_iff.1 hlen.symm
    rfl
  · simp only [Bool.false_eq_true, if_false]
    unfold rippleSub
    rw [if_neg (by simp [hlen])]
    obtain ⟨diff, hdiff, hlength, hvalue⟩ := rippleAdd_spec (a := a ++ [false])
      (b := (b ++ [false]).map fun x => CellKind.not.eval [x]) (by simp [hlen]) true
    rw [hdiff, map_some]
    obtain ⟨low, top, rfl⟩ : ∃ low top, diff = low ++ [top] := by
      rw [length_append, length_singleton] at hlength
      exact ⟨_, _, (dropLast_append_getLast (ne_nil_of_length_eq_add_one hlength)).symm⟩
    have hlow : low.length = a.length := by simpa using hlength
    have hnot := busValue_not (b ++ [false])
    have ha := busValue_lt a
    have hb := busValue_lt b
    have hsmall := busValue_lt low
    simp only [busValue_append, busValue, length_append, length_singleton, Nat.pow_succ,
      Bool.toNat_false, Bool.toNat_true, Nat.mul_zero, Nat.add_zero] at hvalue hnot
    rw [hlow] at hvalue hsmall
    rw [← hlen] at hnot hb
    rw [List.getLastD_eq_getLast?, getLast?_concat, getD_some]
    generalize busValue ((b ++ [false]).map fun x => CellKind.not.eval [x]) = nb at hvalue hnot
    generalize 2 ^ a.length = w at *
    by_cases hlt : busValue a < busValue b
    · rw [decide_eq_true hlt]
      cases top with
      | true => rfl
      | false =>
        rw [mod_eq_of_lt (by omega)] at hvalue
        simp only [Bool.toNat_false] at hvalue
        omega
    · rw [decide_eq_false hlt]
      cases top with
      | false => rfl
      | true =>
        have hwrap : busValue a + nb + 1 = w * 2 + (busValue a - busValue b) := by omega
        rw [hwrap, add_mod_left, mod_eq_of_lt (by omega)] at hvalue
        simp only [Bool.toNat_true] at hvalue
        omega

end

theorem all_reducePairs (bits : List Bool) : (reducePairs .and2 bits).all id = bits.all id := by
  induction bits using reducePairs.induct with
  | case1 a b rest ih =>
    rw [reducePairs, all_cons, ih, all_cons, all_cons, ← Bool.and_assoc]
    rfl
  | case2 rest hrest => rw [reducePairs]; exact hrest

theorem reduceAnd_eq (bits : List Bool) : reduceAnd bits = bits.all id := by
  unfold reduceAnd
  induction bits using reduce.induct CellKind.and2 with
  | case1 => simp [reduce]
  | case2 a => simp [reduce]
  | case3 a b rest ih => rw [reduce, ih, all_reducePairs]

theorem spells_eq (idx : List Bool) (k : ℕ) :
    ((idx.mapIdx fun i n => CellKind.xnor2.eval [n, k.testBit i]).all id &&
      decide (k >>> idx.length = 0)) = decide (busValue idx = k) := by
  induction idx generalizing k with
  | nil => simp [busValue, eq_comm]
  | cons b rest ih =>
    have hbit : CellKind.xnor2.eval [b, k.testBit 0] = decide (b.toNat = k % 2) := by
      rw [testBit_zero]
      rcases mod_two_eq_zero_or_one k with hk | hk <;> rw [hk] <;> cases b <;> rfl
    have hshift : k >>> (rest.length + 1) = (k / 2) >>> rest.length := by
      rw [Nat.add_comm, shiftRight_add]
      rfl
    have hhalf : (busValue (b :: rest) = k) ↔ b.toNat = k % 2 ∧ busValue rest = k / 2 := by
      have hb := Bool.toNat_le b
      rw [busValue]
      omega
    rw [mapIdx_cons, all_cons, id_eq, hbit, length_cons, hshift, Bool.and_assoc]
    simp only [testBit_succ]
    rw [ih, decide_eq_decide.2 hhalf, Bool.decide_and]

theorem eqConst_spec (idx : List Bool) (k : ℕ) : eqConst idx k = decide (busValue idx = k) := by
  rw [← spells_eq]
  unfold eqConst
  split
  · rename_i hnil
    subst hnil
    simp
  · dsimp only
    split
    · rename_i hhigh
      rw [decide_eq_false hhigh, Bool.and_false]
    · rename_i hhigh
      rw [decide_eq_true (not_not.1 hhigh), Bool.and_true, reduceAnd_eq]

theorem zipWith_mux2 (sel : Bool) (hlen : a.length = b.length) :
    List.zipWith (fun x y => CellKind.mux2.eval [sel, x, y]) a b = if sel then b else a := by
  induction a generalizing b with
  | nil =>
    obtain rfl := length_eq_zero_iff.1 hlen.symm
    cases sel <;> rfl
  | cons x xs ih =>
    obtain ⟨y, ys, rfl⟩ := exists_cons_of_length_eq_add_one hlen.symm
    rw [zipWith_cons_cons, ih (Nat.succ.inj hlen)]
    cases sel <;> rfl

variable {level : List (List Bool)}

theorem muxPairs_spec (sel : Bool) (hlevel : ∀ e ∈ level, e.length = zero.length) :
    (∀ e ∈ muxPairs sel zero level, e.length = zero.length) ∧
      (muxPairs sel zero level).length = (level.length + 1) / 2 ∧
      ∀ j, (muxPairs sel zero level).getD j zero = level.getD (2 * j + sel.toNat) zero := by
  induction level using muxPairs.induct with
  | case1 a b rest ih =>
    obtain ⟨hwidth, hlen, hget⟩ := ih fun e he =>
      hlevel e (mem_cons_of_mem _ (mem_cons_of_mem _ he))
    have ha := hlevel a (mem_cons_self ..)
    have hb := hlevel b (mem_cons_of_mem _ (mem_cons_self ..))
    rw [muxPairs, zipWith_mux2 sel (ha.trans hb.symm)]
    refine ⟨fun e he => ?_, ?_, fun j => ?_⟩
    · rcases mem_cons.1 he with rfl | he
      · split
        · exact hb
        · exact ha
      · exact hwidth e he
    · rw [length_cons, hlen, length_cons, length_cons]
      omega
    · cases j with
      | zero => cases sel <;> rfl
      | succ j =>
        rw [getD_cons_succ, hget, show 2 * (j + 1) + sel.toNat = 2 * j + sel.toNat + 1 + 1 by omega,
          getD_cons_succ, getD_cons_succ]
  | case2 a =>
    have ha := hlevel a (mem_cons_self ..)
    rw [muxPairs, zipWith_mux2 sel ha]
    refine ⟨fun e he => ?_, by simp, fun j => ?_⟩
    · obtain rfl := mem_singleton.1 he
      split
      · rfl
      · exact ha
    · cases j with
      | zero => cases sel <;> rfl
      | succ j =>
        rw [getD_cons_succ, getD_nil, getD_eq_default]
        simp only [length_singleton]
        omega
  | case3 => exact ⟨fun e he => absurd he not_mem_nil, rfl, fun j => rfl⟩

theorem muxTree_spec {sels : List Bool}
    (hne : level ≠ []) (hlevel : ∀ e ∈ level, e.length = zero.length)
    (hfit : level.length ≤ 2 ^ sels.length) :
    muxTree zero level sels = level.getD (busValue (sels.take (Nat.clog 2 level.length))) zero := by
  have hone : ∀ {level : List (List Bool)} (sels : List Bool), level.length = 1 →
      level.headD [] = level.getD (busValue (sels.take (Nat.clog 2 level.length))) zero :=
    fun sels hlen => by
      obtain ⟨e, rfl⟩ := length_eq_one_iff.1 hlen
      rfl
  induction sels generalizing level with
  | nil =>
    have hpos := length_pos_iff.2 hne
    rw [length_nil, Nat.pow_zero] at hfit
    exact hone [] (by omega)
  | cons sel sels ih =>
    unfold muxTree
    split
    · rename_i hlen
      exact hone (sel :: sels) hlen
    · rename_i hlen
      have hpos := length_pos_iff.2 hne
      obtain ⟨hwidth, hlength, hget⟩ := muxPairs_spec sel hlevel
      rw [length_cons, Nat.pow_succ] at hfit
      have hclog : Nat.clog 2 level.length = Nat.clog 2 ((level.length + 1) / 2) + 1 :=
        clog_of_two_le Nat.one_lt_two (by omega)
      rw [ih (length_pos_iff.1 (by omega)) hwidth (by omega), hget, hclog, hlength,
        take_succ_cons, busValue, Nat.add_comm sel.toNat]

theorem dynamicMuxTree_spec {w : ℕ} {elements : List (List Bool)} {selBits : List Bool}
    (hne : elements ≠ []) (hwidth : ∀ e ∈ elements, e.length = w)
    (hfit : elements.length ≤ 2 ^ selBits.length) : dynamicMuxTree elements selBits =
      elements.getD (busValue (selBits.take (Nat.clog 2 elements.length))) (replicate w false) := by
  have hhead : (elements.headD []).length = w := by
    obtain ⟨e, rest, rfl⟩ := exists_cons_of_ne_nil hne
    exact hwidth e (mem_cons_self ..)
  unfold dynamicMuxTree
  rw [hhead]
  exact muxTree_spec hne (fun e he => by rw [hwidth e he, length_replicate]) hfit

end Veryl.Synthesizer
