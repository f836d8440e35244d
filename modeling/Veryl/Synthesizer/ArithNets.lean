import Veryl.Analyzer.Value
import Veryl.Synthesizer.Arith

/-!
Adders, subtractors and comparisons as they add cells to a netlist, and what their nets
evaluate to under every assignment that the netlist admits.
-/

namespace Veryl.Synthesizer.Netlist

open Veryl.Analyzer List

variable {kind : CellKind} {a b : List Bool} {i d : ℕ} {pg : List (NetId × NetId)}

/-- Adds cells to a netlist. -/
abbrev Build := StateM ConvContext

def cell (kind : CellKind) (inputs : List NetId) : Build NetId := fun ctx => ctx.addCell kind inputs

def netOf (l : List NetId) (i : ℕ) : NetId := l.getD i netConst0

def fullAdder (a b cin : NetId) : Build (NetId × NetId) := do
  let aXorB ← cell .xor2 [a, b]
  let sum ← cell .xor2 [aXorB, cin]
  let aAndB ← cell .and2 [a, b]
  let cinAndAb ← cell .and2 [cin, aXorB]
  let cout ← cell .or2 [aAndB, cinAndAb]
  pure (sum, cout)

/-- The sum, and the carry that the loop is left with. -/
def rippleAddCore : List NetId → List NetId → NetId → Build (List NetId × NetId)
  | a :: as, b :: bs, carry => do
    let (s, c) ← fullAdder a b carry
    let (sum, carry) ← rippleAddCore as bs c
    pure (s :: sum, carry)
  | _, _, carry => pure ([], carry)

/-- The propagate and the generate net of a place. -/
def placeOf (pg : List (NetId × NetId)) (i : ℕ) : NetId × NetId := pg.getD i (netConst0, netConst0)

/-- One place of a level of the prefix network; it takes in the place `d` below it. -/
def prefixPlace (d : ℕ) (pg : List (NetId × NetId)) (i : ℕ) : Build (NetId × NetId) :=
  if d ≤ i then do
    let pAnd ← cell .and2 [(placeOf pg i).1, (placeOf pg (i - d)).1]
    let pAndG ← cell .and2 [(placeOf pg i).1, (placeOf pg (i - d)).2]
    let gOr ← cell .or2 [(placeOf pg i).2, pAndG]
    pure (pAnd, gOr)
  else pure (placeOf pg i)

def prefixLevel (d : ℕ) (pg : List (NetId × NetId)) : Build (List (NetId × NetId)) :=
  (List.range pg.length).mapM (prefixPlace d pg)

/-- The levels at the distances `d`, `2 * d`, up to `n`. -/
def prefixLevels (n d : ℕ) (pg : List (NetId × NetId)) : Build (List (NetId × NetId)) :=
  if 0 < d ∧ d < n then prefixLevel d pg >>= prefixLevels n (d * 2) else pure pg
termination_by n - d

/-- The sum bit of a place after the first one. -/
def sumPlace (pSeed : List NetId) (pg : List (NetId × NetId)) (cin : NetId) (i : ℕ) : Build NetId :=
  if i = 0 then cell .xor2 [netOf pSeed 0, cin]
  else do
    let pAndCin ← cell .and2 [(placeOf pg (i - 1)).1, cin]
    let carry ← cell .or2 [(placeOf pg (i - 1)).2, pAndCin]
    cell .xor2 [netOf pSeed i, carry]

/-- The sum, and the spans that the prefix network ends with. -/
def koggeStoneAdd (a b : List NetId) (cin : NetId) : Build (List NetId × List (NetId × NetId)) := do
  let pSeed ← (a.zip b).mapM fun x => cell .xor2 [x.1, x.2]
  let gSeed ← (a.zip b).mapM fun x => cell .and2 [x.1, x.2]
  let pg ← prefixLevels a.length 1 (pSeed.zip gSeed)
  let sum ← (List.range a.length).mapM (sumPlace pSeed pg cin)
  pure (sum, pg)

def rippleAdd (a b : List NetId) (cin : NetId) : Except String (Build (List NetId)) :=
  if a.length ≠ b.length then .error "add operand width mismatch"
  else if a.length < 4 then .ok (Prod.fst <$> rippleAddCore a b cin)
  else .ok (Prod.fst <$> koggeStoneAdd a b cin)

/-- `a + ~b + 1`. -/
def rippleSub (a b : List NetId) : Except String (Build (List NetId)) :=
  if a.length ≠ b.length then .error "ripple_sub operand width mismatch"
  else .ok do
    let invB ← b.mapM fun x => cell .not [x]
    match rippleAdd a invB netConst1 with
    | .ok sum => sum
    | .error _ => pure []

/-- The operand with one more bit, so that a difference does not wrap. -/
def extendOne (signed : Bool) (width : ℕ) (x : List NetId) : List NetId :=
  x ++ [if signed then netOf x (width - 1) else netConst0]

/-- The top bit of a difference. -/
def topOf (diff : Build (List NetId)) : Build NetId := (·.getLastD netConst0) <$> diff

/-- `a op b` for the ordering operators. -/
def compare (a b : List NetId) (op : Op) (signed : Bool) : Except String (Build NetId) :=
  if a = [] then .ok (pure netConst0)
  else do
    let aExt := extendOne signed a.length a
    let bExt := extendOne signed a.length b
    let diff ← rippleSub aExt bExt
    match op with
    | .less => .ok (topOf diff)
    | .greaterEq => .ok do
        let aLtB ← topOf diff
        cell .not [aLtB]
    | .greater => do
      let diff' ← rippleSub bExt aExt
      .ok do
        let _ ← diff
        topOf diff'
    | .lessEq => do
      let diff' ← rippleSub bExt aExt
      .ok do
        let _ ← diff
        let bLtA ← topOf diff'
        cell .not [bLtA]
    | _ => .error "compare() called with non-comparison op"

variable {α β : Type} {ρ : NetId → Bool}

/-- Under every assignment that the finished netlist admits, the one that was begun with
admits it too, and what is built is as stated. -/
def Gives (ρ : NetId → Bool) (build : Build α) (P : α → Prop) : Prop :=
  ∀ ctx, (build ctx).2.Consistent ρ → ctx.Consistent ρ ∧ P (build ctx).1

variable {P : α → Prop}

theorem Gives.imp {build : Build α} {Q : α → Prop} (h : Gives ρ build P)
    (hPQ : ∀ x, P x → Q x) : Gives ρ build Q :=
  fun ctx hctx => ⟨(h ctx hctx).1, hPQ _ (h ctx hctx).2⟩

theorem gives_pure {x : α} (h : P x) : Gives ρ (pure x) P := fun _ hctx => ⟨hctx, h⟩

variable {f : α → Build β}

variable {Q : β → Prop}

variable {x : Build α}

/-- What is built later is only known once what was built before is. -/
theorem Gives.bind
    (hx : Gives ρ x P) (hf : ∀ a, Gives ρ (f a) fun b => P a → Q b) : Gives ρ (x >>= f) Q := by
  intro ctx hctx
  obtain ⟨hmid, hQ⟩ := hf (x ctx).1 (x ctx).2 hctx
  obtain ⟨hbegin, hP⟩ := hx ctx hmid
  exact ⟨hbegin, hQ hP⟩

theorem Gives.map {f : α → β} (hx : Gives ρ x fun a => Q (f a)) : Gives ρ (f <$> x) Q := hx

theorem gives_cell {inputs : List NetId} (hn : inputs.length = kind.arity) :
    Gives ρ (cell kind inputs) fun n => ρ n = kind.eval (inputs.map ρ) :=
  fun _ hctx => ConvContext.addCell_spec hn hctx

theorem gives_mapM {l : List α} {γ : Type} {val : β → γ} {v : α → γ}
    (h : ∀ a ∈ l, Gives ρ (f a) fun b => val b = v a) :
    Gives ρ (l.mapM f) fun bs => bs.map val = l.map v := by
  induction l with
  | nil => exact gives_pure rfl
  | cons a l ih =>
    rw [mapM_cons]
    refine (h a mem_cons_self).bind fun b => ?_
    refine (ih fun a' ha' => h a' (mem_cons_of_mem _ ha')).bind fun bs => ?_
    refine gives_pure fun hbs hb => ?_
    rw [map_cons, map_cons, hb, hbs]

theorem gives_fullAdder (a b cin : NetId) : Gives ρ (fullAdder a b cin) fun r =>
    ρ r.1 = (ρ a ^^ ρ b ^^ ρ cin) ∧ ρ r.2 = (ρ a && ρ b || ρ cin && (ρ a ^^ ρ b)) := by
  refine (gives_cell rfl).bind fun aXorB => (gives_cell rfl).bind fun sum =>
    (gives_cell rfl).bind fun aAndB => (gives_cell rfl).bind fun cinAndAb =>
    (gives_cell rfl).bind fun cout => gives_pure ?_
  intro hcout hcinAndAb haAndB hsum haXorB
  rw [hsum, hcout]
  simp only [CellKind.eval, map_cons, map_nil, haXorB, haAndB, hcinAndAb]
  exact ⟨trivial, trivial⟩

theorem gives_rippleAddCore {a b : List NetId} (hlen : a.length = b.length) (cin : NetId) :
    Gives ρ (rippleAddCore a b cin) fun r =>
      r.1.map ρ = Synthesizer.rippleAddCore (a.map ρ) (b.map ρ) (ρ cin) ∧
        ρ r.2 = carryInto (a.map ρ) (b.map ρ) (ρ cin) a.length := by
  induction a generalizing b cin with
  | nil =>
    exact gives_pure ⟨rfl, rfl⟩
  | cons x xs ih =>
    obtain ⟨y, ys, rfl⟩ := exists_cons_of_length_eq_add_one hlen.symm
    refine (gives_fullAdder x y cin).bind fun sc => ?_
    refine (ih (Nat.succ.inj hlen) sc.2).bind fun rest => gives_pure ?_
    rintro ⟨hsum, hcarry⟩ ⟨hs, hc⟩
    rw [hc] at hsum hcarry
    refine ⟨?_, hcarry⟩
    rw [map_cons, hs, hsum]
    rfl

/-- What is carried out of the top place completes the sum. -/
theorem busValue_carry (hlen : a.length = b.length) (cin : Bool) :
    busValue (Synthesizer.rippleAddCore a b cin) +
      2 ^ a.length * (carryInto a b cin a.length).toNat = busValue a + busValue b + cin.toNat := by
  induction a generalizing b cin with
  | nil =>
    obtain rfl := length_eq_zero_iff.1 hlen.symm
    simp [Synthesizer.rippleAddCore, busValue, carryInto]
  | cons x xs ih =>
    obtain ⟨y, ys, rfl⟩ := exists_cons_of_length_eq_add_one hlen.symm
    have hrest := ih (Nat.succ.inj hlen) (x && y || cin && (x ^^ y))
    have hbit : x.toNat + y.toNat + cin.toNat =
        (x ^^ y ^^ cin).toNat + 2 * (x && y || cin && (x ^^ y)).toNat := by
      cases x <;> cases y <;> cases cin <;> rfl
    have hcell : Synthesizer.rippleAddCore (x :: xs) (y :: ys) cin =
        (x ^^ y ^^ cin) :: Synthesizer.rippleAddCore xs ys (x && y || cin && (x ^^ y)) := rfl
    have hinto : carryInto (x :: xs) (y :: ys) cin (xs.length + 1) =
        carryInto xs ys (x && y || cin && (x ^^ y)) xs.length := rfl
    rw [hcell, length_cons, hinto, busValue, busValue, busValue, Nat.pow_succ,
      Nat.mul_comm _ 2, Nat.mul_assoc]
    omega

theorem value_netOf (ρ : NetId → Bool) {l : List NetId} (hi : i < l.length) :
    ρ (netOf l i) = (l.map ρ).getD i false := by
  rw [netOf, getD_eq_getElem _ _ hi, getD_eq_getElem _ _ (by simpa using hi), getElem_map]

/-- What the nets of the places evaluate to. -/
def values (ρ : NetId → Bool) (pg : List (NetId × NetId)) : List Bool × List Bool :=
  (pg.map (ρ ·.1), pg.map (ρ ·.2))

theorem value_placeOf (ρ : NetId → Bool) {pg : List (NetId × NetId)} {i : ℕ} (hi : i < pg.length) :
    ρ (placeOf pg i).1 = (values ρ pg).1.getD i false ∧
      ρ (placeOf pg i).2 = (values ρ pg).2.getD i false := by
  rw [placeOf, values, getD_eq_getElem _ _ hi, getD_eq_getElem _ _ (by simpa using hi),
    getD_eq_getElem _ _ (by simpa using hi), getElem_map, getElem_map]
  exact ⟨rfl, rfl⟩

/-- What a place of a level evaluates to. -/
def placeValue (d : ℕ) (pg : List Bool × List Bool) (i : ℕ) : Bool × Bool :=
  (if d ≤ i then CellKind.and2.eval [pg.1.getD i false, pg.1.getD (i - d) false]
    else pg.1.getD i false,
    if d ≤ i then
      CellKind.or2.eval [pg.2.getD i false,
        CellKind.and2.eval [pg.1.getD i false, pg.2.getD (i - d) false]]
    else pg.2.getD i false)

theorem gives_prefixPlace (hi : i < pg.length) :
    Gives ρ (prefixPlace d pg i) fun r => (ρ r.1, ρ r.2) = placeValue d (values ρ pg) i := by
  obtain ⟨hp, hg⟩ := value_placeOf ρ hi
  obtain ⟨hp', hg'⟩ := @value_placeOf ρ pg (i - d) (by omega)
  rw [prefixPlace]
  split
  · rename_i hd
    refine (gives_cell rfl).bind fun pAnd => (gives_cell rfl).bind fun pAndG =>
      (gives_cell rfl).bind fun gOr => gives_pure ?_
    intro hgOr hpAndG hpAnd
    rw [hpAnd, hgOr, placeValue, if_pos hd, if_pos hd]
    simp only [map_cons, map_nil, hpAndG]
    rw [hp, hg, hp', hg']
  · rename_i hd
    refine gives_pure ?_
    rw [hp, hg, placeValue, if_neg hd, if_neg hd]

theorem gives_prefixLevel (d : ℕ) (pg : List (NetId × NetId)) :
    Gives ρ (prefixLevel d pg) fun r => values ρ r = Synthesizer.prefixLevel d (values ρ pg) := by
  have hplaces : Gives ρ (prefixLevel d pg) fun places =>
      places.map (fun r => (ρ r.1, ρ r.2)) =
        (List.range pg.length).map (placeValue d (values ρ pg)) :=
    gives_mapM fun i hi => gives_prefixPlace (mem_range.1 hi)
  refine hplaces.imp fun places hvalues => ?_
  have hfst := congrArg (List.map Prod.fst) hvalues
  have hsnd := congrArg (List.map Prod.snd) hvalues
  simp only [map_map] at hfst hsnd
  have hlen : (values ρ pg).1.length = pg.length := by simp [values]
  rw [Synthesizer.prefixLevel, hlen]
  exact Prod.ext hfst hsnd

theorem gives_prefixLevels (n d : ℕ) (pg : List (NetId × NetId)) :
    Gives ρ (prefixLevels n d pg) fun r =>
      values ρ r = Synthesizer.prefixLevels n d (values ρ pg) := by
  induction d, pg using prefixLevels.induct n with
  | case1 d pg hlt ih =>
    rw [prefixLevels, if_pos hlt, Synthesizer.prefixLevels, if_pos hlt]
    refine (gives_prefixLevel d pg).bind fun pg' => (ih pg').imp fun r hr hlevel => ?_
    rw [hr, hlevel]
  | case2 d pg hge =>
    rw [prefixLevels, if_neg hge, Synthesizer.prefixLevels, if_neg hge]
    exact gives_pure rfl

theorem values_zip (ρ : NetId → Bool) {p g : List NetId} (hlen : p.length = g.length) :
    values ρ (p.zip g) = (p.map ρ, g.map ρ) := by
  have hfst : (p.zip g).map (ρ ·.1) = ((p.zip g).map Prod.fst).map ρ := map_map.symm
  have hsnd : (p.zip g).map (ρ ·.2) = ((p.zip g).map Prod.snd).map ρ := map_map.symm
  rw [values, hfst, hsnd, map_fst_zip (by omega), List.map_snd_zip (by omega)]

theorem gives_zip (hkind : kind.arity = 2) (a b : List NetId) :
    Gives ρ ((a.zip b).mapM fun x => cell kind [x.1, x.2]) fun r =>
      r.map ρ = List.zipWith (fun x y => kind.eval [x, y]) (a.map ρ) (b.map ρ) := by
  have hcells : Gives ρ ((a.zip b).mapM fun x => cell kind [x.1, x.2]) fun r =>
      r.map ρ = (a.zip b).map fun x => kind.eval [ρ x.1, ρ x.2] :=
    gives_mapM fun x _ => gives_cell hkind.symm
  refine hcells.imp fun r hr => ?_
  rw [hr, zipWith_map, map_zip_eq_zipWith]
  rfl

/-- The carry into the place above the top one, from the spans of the network. -/
def carryOut (ρ : NetId → Bool) (pg : List (NetId × NetId)) (cin : NetId) : Bool :=
  match pg.getLast? with
  | some (p, g) => ρ g || ρ p && ρ cin
  | none => ρ cin

theorem spans_seeds (hlen : a.length = b.length) (cin : Bool) :
    ∃ d, a.length ≤ d ∧ Spans a b cin d (Synthesizer.prefixLevels a.length 1
      (List.zipWith (fun x y => CellKind.xor2.eval [x, y]) a b,
        List.zipWith (fun x y => CellKind.and2.eval [x, y]) a b)) := by
  refine spans_levels a.length 1 _ Nat.one_pos ⟨by simp [← hlen], fun i hi => ?_⟩
  have hi' : i < b.length := hlen ▸ hi
  have hseed : ∀ f : Bool → Bool → Bool, (List.zipWith f a b).getD i false =
      f (a.getD i false) (b.getD i false) := fun f => by
    rw [getD_eq_getElem _ _ (by rw [length_zipWith]; omega), getElem_zipWith,
      getD_eq_getElem _ _ hi, getD_eq_getElem _ _ hi']
  rw [carryInto_succ hlen cin hi, hseed, hseed, Nat.add_sub_cancel,
    Bool.and_comm (carryInto a b cin i)]
  rfl

theorem carryOut_eq {cin : NetId} (hspan : Spans a b (ρ cin) d (values ρ pg)) (hd : a.length ≤ d) :
    carryOut ρ pg cin = carryInto a b (ρ cin) a.length := by
  obtain ⟨hlen, hspan⟩ := hspan
  have hplaces : pg.length = a.length := by simpa [values] using hlen
  rw [carryOut, List.getLast?_eq_getElem?, hplaces]
  cases hn : a.length with
  | zero => simp [length_eq_zero_iff.1 (hplaces.trans hn)]
  | succ n =>
    have hlt : n < pg.length := by omega
    have hinto := hspan n (by omega)
    obtain ⟨hp, hg⟩ := value_placeOf ρ hlt
    rw [show n + 1 - d = 0 by omega, carryInto_zero, ← hp, ← hg] at hinto
    rw [Nat.add_sub_cancel, getElem?_eq_getElem hlt, hinto, placeOf, getD_eq_getElem _ _ hlt]

/-- What a sum place evaluates to, from what its seed and the span below it do. -/
def sumValue (ρ : NetId → Bool) (pSeed : List NetId) (pg : List (NetId × NetId)) (cin : NetId)
    (i : ℕ) : Bool :=
  if i = 0 then CellKind.xor2.eval [ρ (netOf pSeed 0), ρ cin]
  else CellKind.xor2.eval [ρ (netOf pSeed i), CellKind.or2.eval [ρ (placeOf pg (i - 1)).2,
    CellKind.and2.eval [ρ (placeOf pg (i - 1)).1, ρ cin]]]

theorem gives_sumPlace (pSeed : List NetId) (pg : List (NetId × NetId)) (cin : NetId) (i : ℕ) :
    Gives ρ (sumPlace pSeed pg cin i) fun n => ρ n = sumValue ρ pSeed pg cin i := by
  rw [sumPlace, sumValue]
  split
  · exact gives_cell rfl
  · refine (gives_cell rfl).bind fun pAndCin => (gives_cell rfl).bind fun carry =>
      (gives_cell rfl).imp fun sum hsum hcarry hpAndCin => ?_
    simp only [map_cons, map_nil] at hsum hcarry hpAndCin
    rw [hsum, hcarry, hpAndCin]

theorem gives_koggeStoneAdd {a b : List NetId} (hlen : a.length = b.length) (cin : NetId) :
    Gives ρ (koggeStoneAdd a b cin) fun r =>
      r.1.map ρ = Synthesizer.rippleAddCore (a.map ρ) (b.map ρ) (ρ cin) ∧
        carryOut ρ r.2 cin = carryInto (a.map ρ) (b.map ρ) (ρ cin) a.length := by
  have hlen' : (a.map ρ).length = (b.map ρ).length := by simpa using hlen
  refine (gives_zip rfl a b).bind fun pSeed => (gives_zip rfl a b).bind fun gSeed =>
    (gives_prefixLevels _ _ _).bind fun pg =>
    (gives_mapM fun i _ => gives_sumPlace pSeed pg cin i).bind fun sum => gives_pure ?_
  intro hsum hpg hgSeed hpSeed
  have hpLen : pSeed.length = a.length := by
    rw [← length_map (f := ρ), hpSeed, length_zipWith, ← hlen', Nat.min_self, length_map]
  have hgLen : gSeed.length = a.length := by
    rw [← length_map (f := ρ), hgSeed, length_zipWith, ← hlen', Nat.min_self, length_map]
  rw [values_zip ρ (hpLen.trans hgLen.symm), hpSeed, hgSeed] at hpg
  obtain ⟨d, hd, hspan⟩ := spans_seeds hlen' (ρ cin)
  rw [length_map] at hd hspan
  rw [← hpg] at hspan
  have hplaces : pg.length = a.length := by simpa [values] using hspan.1
  have hcarry := carryOut_eq hspan (by simpa using hd)
  rw [length_map] at hcarry
  refine ⟨?_, hcarry⟩
  rw [hsum, ← koggeStoneAdd_eq hlen', Synthesizer.koggeStoneAdd, length_map, ← hpg, ← hpSeed]
  refine map_congr_left fun i hi => ?_
  have hi := mem_range.1 hi
  have hseed := value_netOf ρ (hpLen ▸ hi)
  rw [sumValue]
  split
  · rename_i hzero
    subst hzero
    rw [hseed]
  · obtain ⟨hp, hg⟩ := @value_placeOf ρ pg (i - 1) (by omega)
    rw [hseed, hp, hg]

end Veryl.Synthesizer.Netlist
