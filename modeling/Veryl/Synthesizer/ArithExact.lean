import Veryl.Synthesizer.ArithNets
import Veryl.Synthesizer.ConvContext

/-!
The adders give sum and carry of the integers on their operands, the subtractor their
difference and borrow, and a comparison their order, except the two that hold of equal
operands where the operands have no bits.
-/

namespace Veryl.Synthesizer.Netlist

open Veryl.Analyzer List Nat Int

variable {ρ : NetId → Bool} {a b l : List NetId}

/-- The number on a bus in two's complement. -/
def busInt (bs : List Bool) : ℤ :=
  if bs.getD (bs.length - 1) false then busValue bs - 2 ^ bs.length else busValue bs

/-- The difference of two buses, modulo their width. -/
def difference (a b : List Bool) : List Bool :=
  Synthesizer.rippleAddCore a (b.map fun x => CellKind.not.eval [x]) true

theorem length_difference {a b : List Bool} (hlen : a.length = b.length) :
    (difference a b).length = a.length :=
  (busValue_rippleAddCore _ _ _ (by simpa using hlen)).1

theorem busValue_difference {a b : List Bool} (hlen : a.length = b.length) :
    busValue (difference a b) = (busValue a + 2 ^ a.length - busValue b) % 2 ^ a.length := by
  have hnot := busValue_not b
  rw [difference, (busValue_rippleAddCore _ _ _ (by simpa using hlen)).2, Bool.toNat_true]
  rw [← hlen] at hnot
  congr 1
  omega

theorem getLastD_eq_decide {bs : List Bool} {w : ℕ} (hlen : bs.length = w + 1) :
    bs.getLastD false = decide (2 ^ w ≤ busValue bs) := by
  obtain ⟨low, top, rfl⟩ : ∃ low top, bs = low ++ [top] :=
    ⟨_, _, (dropLast_append_getLast (ne_nil_of_length_eq_add_one hlen)).symm⟩
  have hlow : low.length = w := by simpa using hlen
  have hsmall := busValue_lt low
  rw [List.getLastD_eq_getLast?, getLast?_concat, Option.getD_some, busValue_append, hlow]
  rw [hlow] at hsmall
  cases top with
  | true =>
    simp [busValue]
  | false =>
    simp [busValue, hsmall]

theorem busInt_concat (low : List Bool) (top : Bool) :
    busInt (low ++ [top]) = busValue low - 2 ^ low.length * top.toNat ∧
      (busValue (low ++ [top]) : ℤ) = busValue low + 2 ^ low.length * top.toNat := by
  have hvalue : busValue (low ++ [top]) = busValue low + 2 ^ low.length * top.toNat := by
    rw [busValue_append]
    simp [busValue]
  have htop : (low ++ [top]).getD ((low ++ [top]).length - 1) false = top := by
    simp [getD_eq_getElem?_getD]
  rw [busInt, htop, hvalue, length_append, length_singleton, pow_succ]
  cases top with
  | true =>
    simp only [if_true, Bool.toNat_true]
    push_cast
    omega
  | false => simp

theorem sub_mod_width {x y w : ℕ} (hx : x < w) (hy : y < w) :
    (x + w - y) % w = if y ≤ x then x - y else x + w - y := by
  split
  · rw [show x + w - y = (x - y) + w by omega, add_mod_right, mod_eq_of_lt (by omega)]
  · exact mod_eq_of_lt (by omega)

theorem difference_borrow {a b : List Bool} (hlen : a.length = b.length) :
    (difference (a ++ [false]) (b ++ [false])).getLastD false =
      decide (busValue a < busValue b) := by
  have hlen' : (a ++ [false]).length = (b ++ [false]).length := by simpa using hlen
  have ha := busValue_lt a
  have hb := busValue_lt b
  rw [← hlen] at hb
  have hzero : ∀ l : List Bool, busValue (l ++ [false]) = busValue l := fun l => by
    rw [busValue_append]
    simp [busValue]
  rw [getLastD_eq_decide ((length_difference hlen').trans length_append), busValue_difference hlen',
    hzero, hzero, length_append, length_singleton, pow_succ, sub_mod_width (by omega) (by omega)]
  refine decide_eq_decide.2 ?_
  split <;> omega

/-- The number that a comparison reads. -/
def operand (signed : Bool) (bs : List Bool) : ℤ := if signed then busInt bs else busValue bs

/-- The operands with one more bit. -/
def extended (signed : Bool) (bs : List Bool) : List Bool :=
  bs ++ [signed && bs.getD (bs.length - 1) false]

theorem difference_extended {a b : List Bool} (signed : Bool) (hlen : a.length = b.length)
    (hpos : a ≠ []) :
    (difference (extended signed a) (extended signed b)).getLastD false =
      decide (operand signed a < operand signed b) := by
  have hlen' : (extended signed a).length = (extended signed b).length := by
    simpa [extended] using hlen
  have hwide : (extended signed a).length = a.length + 1 := by simp [extended]
  have hsmall := busValue_lt (extended signed a)
  have hsmall' := busValue_lt (extended signed b)
  rw [← hlen'] at hsmall'
  rw [getLastD_eq_decide ((length_difference hlen').trans hwide), busValue_difference hlen',
    sub_mod_width hsmall hsmall', hwide]
  refine decide_eq_decide.2 ?_
  obtain ⟨low, top, rfl⟩ : ∃ low top, a = low ++ [top] :=
    ⟨_, _, (dropLast_append_getLast hpos).symm⟩
  obtain ⟨low', top', rfl⟩ : ∃ low top, b = low ++ [top] :=
    ⟨_, _, (dropLast_append_getLast (l := b) (by
      rintro rfl
      simp at hlen)).symm⟩
  have hlow : low'.length = low.length := by simpa using hlen.symm
  have hvalue : ∀ (l : List Bool) (t : Bool), busValue (extended signed (l ++ [t])) =
      busValue l + 2 ^ l.length * t.toNat + 2 ^ l.length * 2 * (signed && t).toNat := by
    intro l t
    have htop : (l ++ [t]).getD ((l ++ [t]).length - 1) false = t := by
      simp [getD_eq_getElem?_getD]
    rw [extended, htop, busValue_append, busValue_append, length_append, length_singleton, pow_succ]
    simp [busValue]
  have hoperand : ∀ (l : List Bool) (t : Bool), operand signed (l ++ [t]) =
      busValue l + 2 ^ l.length * (if signed then - (t.toNat : ℤ) else t.toNat) := by
    intro l t
    obtain ⟨hint, hnat⟩ := busInt_concat l t
    cases signed with
    | true =>
      rw [operand, if_pos rfl, hint, if_pos rfl, Int.mul_neg, Int.sub_eq_add_neg]
    | false => simpa [operand] using hnat
  have hl := busValue_lt low
  have hl' := busValue_lt low'
  rw [hvalue, hvalue, hoperand, hoperand, hlow]
  rw [hlow] at hl'
  rw [length_append, length_singleton, pow_succ, pow_succ]
  generalize hw : 2 ^ low.length = w at *
  have hcast : (2 : ℤ) ^ low.length = w := by
    rw [← hw]
    rfl
  cases signed <;> cases top <;> cases top' <;>
    simp only [Bool.toNat_true, Bool.toNat_false, Bool.and_true, Bool.and_false,
      if_true, Bool.false_eq_true, if_false] <;>
    split <;> push_cast <;> omega

theorem gives_of_rails {α : Type} {build : Build α} {P : α → Prop}
    (h : ρ netConst0 = false → ρ netConst1 = true → Gives ρ build P) : Gives ρ build P :=
  fun ctx hctx => h hctx.gnd hctx.vdd ctx hctx

theorem value_getLastD (ρ : NetId → Bool) (hl : l ≠ []) :
    ρ (l.getLastD netConst0) = (l.map ρ).getLastD false := by
  obtain ⟨low, top, rfl⟩ : ∃ low top, l = low ++ [top] :=
    ⟨_, _, (dropLast_append_getLast hl).symm⟩
  simp

theorem map_extendOne (hgnd : ρ netConst0 = false) (hl : l ≠ []) (signed : Bool) :
    (extendOne signed l.length l).map ρ = extended signed (l.map ρ) := by
  have hlt : l.length - 1 < l.length := by
    have := length_pos_iff.2 hl
    omega
  rw [extendOne, extended, map_append, length_map, ← value_netOf ρ hlt]
  cases signed with
  | true => rfl
  | false =>
    rw [if_neg Bool.false_ne_true, Bool.false_and, map_singleton, hgnd]

/-- The number on a bus of nets. -/
def number (ρ : NetId → Bool) (l : List NetId) : ℕ := busValue (l.map ρ)

/-- The orders among the operators. -/
def IsOrder (op : Op) : Prop := op = .less ∨ op = .lessEq ∨ op = .greater ∨ op = .greaterEq

def ordered (op : Op) (x y : ℤ) : Bool :=
  match op with
  | .less => x < y
  | .lessEq => x ≤ y
  | .greater => y < x
  | .greaterEq => y ≤ x
  | _ => false

/-- What is built of two buses computes integers. -/
structure IntegerArith (a b : List NetId) (cin : NetId) (op : Op) (signed : Bool) : Prop where
  ripple : ∀ ρ, Gives ρ (rippleAddCore a b cin) fun r => r.1.length = a.length ∧
    number ρ r.1 + 2 ^ a.length * (ρ r.2).toNat = number ρ a + number ρ b + (ρ cin).toNat
  koggeStone : ∀ ρ, Gives ρ (koggeStoneAdd a b cin) fun r => r.1.length = a.length ∧
    number ρ r.1 + 2 ^ a.length * (carryOut ρ r.2 cin).toNat =
      number ρ a + number ρ b + (ρ cin).toNat
  agree : ∀ ρ ctx ctx', (rippleAddCore a b cin ctx).2.Consistent ρ →
    (koggeStoneAdd a b cin ctx').2.Consistent ρ →
      (rippleAddCore a b cin ctx).1.1.map ρ = (koggeStoneAdd a b cin ctx').1.1.map ρ
  add : ∃ build, rippleAdd a b cin = .ok build ∧ ∀ ρ, Gives ρ build fun sum =>
    sum.length = a.length ∧ number ρ sum = (number ρ a + number ρ b + (ρ cin).toNat) % 2 ^ a.length
  sub : ∃ build, rippleSub a b = .ok build ∧ ∀ ρ, Gives ρ build fun diff =>
    diff.length = a.length ∧ (number ρ diff : ℤ) = ((number ρ a : ℤ) - number ρ b) % 2 ^ a.length
  borrow : ∃ build, rippleSub (a ++ [netConst0]) (b ++ [netConst0]) = .ok build ∧
    ∀ ρ, Gives ρ build fun diff =>
      ρ (diff.getLastD netConst0) = decide (number ρ a < number ρ b)
  order : ∃ build, compare a b op signed = .ok build ∧ ∀ ρ, Gives ρ build fun n =>
    ρ n = ordered op (operand signed (a.map ρ)) (operand signed (b.map ρ))

section

variable (hlen : a.length = b.length)

include hlen

theorem gives_rippleAdd (cin : NetId) :
    ∃ build, rippleAdd a b cin = .ok build ∧ ∀ ρ, Gives ρ build fun sum =>
      sum.map ρ = Synthesizer.rippleAddCore (a.map ρ) (b.map ρ) (ρ cin) := by
  rw [rippleAdd, if_neg (not_not.2 hlen)]
  split
  · exact ⟨_, rfl, fun ρ => ((gives_rippleAddCore hlen cin).imp fun _ h => h.1).map⟩
  · exact ⟨_, rfl, fun ρ => ((gives_koggeStoneAdd hlen cin).imp fun _ h => h.1).map⟩

theorem gives_rippleSub :
    ∃ build, rippleSub a b = .ok build ∧ ∀ ρ, ρ netConst1 = true → Gives ρ build fun diff =>
      diff.map ρ = difference (a.map ρ) (b.map ρ) := by
  rw [rippleSub, if_neg (not_not.2 hlen)]
  refine ⟨_, rfl, fun ρ hvdd => ?_⟩
  have hnot : Gives ρ (b.mapM fun x => cell .not [x]) fun invB =>
      invB.map ρ = b.map fun x => CellKind.not.eval [ρ x] := gives_mapM fun x _ => gives_cell rfl
  refine hnot.bind fun invB => ?_
  by_cases hinv : a.length = invB.length
  · obtain ⟨build, hbuild, hgives⟩ := gives_rippleAdd hinv netConst1
    rw [hbuild]
    refine (hgives ρ).imp fun diff hdiff hvalues => ?_
    rw [hdiff, hvalues, hvdd, difference, map_map]
    rfl
  · have herror : rippleAdd a invB netConst1 = .error "add operand width mismatch" := by
      rw [rippleAdd, if_pos hinv]
    rw [herror]
    refine gives_pure fun hvalues => absurd ?_ hinv
    have hinvLen : (invB.map ρ).length = invB.length := length_map ρ
    rw [hlen, ← hinvLen, hvalues, length_map]

theorem gives_topOf (hpos : a ≠ []) (signed : Bool) :
    ∃ diff, rippleSub (extendOne signed a.length a) (extendOne signed a.length b) = .ok diff ∧
      ∀ ρ, Gives ρ (topOf diff) fun n =>
        ρ n = decide (operand signed (a.map ρ) < operand signed (b.map ρ)) := by
  have hpos' : b ≠ [] := by
    rintro rfl
    exact hpos (length_eq_zero_iff.1 hlen)
  obtain ⟨diff, hdiff, hgives⟩ := gives_rippleSub (a := extendOne signed a.length a)
    (b := extendOne signed a.length b) (by simp [extendOne, hlen])
  refine ⟨diff, hdiff, fun ρ => gives_of_rails fun hgnd hvdd => ?_⟩
  refine ((hgives ρ hvdd).imp fun d hd => ?_).map
  have hd' : d.map ρ = difference (extended signed (a.map ρ)) (extended signed (b.map ρ)) := by
    rw [hd, map_extendOne hgnd hpos, hlen, map_extendOne hgnd hpos']
  have hne : d ≠ [] := by
    rintro rfl
    have hnil := congrArg List.length hd'
    rw [length_difference (by simp [extended, hlen])] at hnil
    simp [extended] at hnil
  rw [value_getLastD ρ hne, hd',
    difference_extended signed (by simpa using hlen) (by simpa using hpos)]

theorem number_carry (cin : NetId) {sum : List NetId} {carry : Bool}
    (hsum : sum.map ρ = Synthesizer.rippleAddCore (a.map ρ) (b.map ρ) (ρ cin))
    (hcarry : carry = carryInto (a.map ρ) (b.map ρ) (ρ cin) a.length) :
    sum.length = a.length ∧
      number ρ sum + 2 ^ a.length * carry.toNat = number ρ a + number ρ b + (ρ cin).toNat := by
  have hlen' : (a.map ρ).length = (b.map ρ).length := by simpa using hlen
  have hcarries := busValue_carry hlen' (ρ cin)
  rw [length_map] at hcarries
  refine ⟨?_, ?_⟩
  · rw [← length_map (f := ρ), hsum, (busValue_rippleAddCore _ _ _ hlen').1, length_map]
  · rw [number, hsum, hcarry]
    exact hcarries

theorem number_difference {diff : List NetId}
    (hdiff : diff.map ρ = difference (a.map ρ) (b.map ρ)) :
    (number ρ diff : ℤ) = ((number ρ a : ℤ) - number ρ b) % 2 ^ a.length := by
  have hlen' : (a.map ρ).length = (b.map ρ).length := by simpa using hlen
  have hsmall := busValue_lt (b.map ρ)
  rw [← hlen', length_map] at hsmall
  rw [number, hdiff, busValue_difference hlen', length_map, ← number, ← number]
  rw [← number] at hsmall
  have hcast : ((number ρ a + 2 ^ a.length - number ρ b : ℕ) : ℤ) =
      ((number ρ a : ℤ) - number ρ b) + 2 ^ a.length := by
    push_cast [Nat.le_of_lt (Nat.lt_add_left (number ρ a) hsmall)]
    omega
  rw [natCast_mod, hcast]
  push_cast
  rw [add_emod_right]

theorem exists_compare {op : Op} (hop : IsOrder op) (signed : Bool)
    (h : a ≠ []) : ∃ build, compare a b op signed = .ok build ∧ ∀ ρ, Gives ρ build fun n =>
      ρ n = ordered op (operand signed (a.map ρ)) (operand signed (b.map ρ)) := by
  have hb : b ≠ [] := by
    rintro rfl
    exact h (length_eq_zero_iff.1 hlen)
  obtain ⟨diff, hdiff, hless⟩ := gives_topOf hlen h signed
  obtain ⟨diff', hdiff', hgreater⟩ := gives_topOf hlen.symm hb signed
  rw [← hlen] at hdiff'
  have hdrop : ∀ ρ, Gives ρ diff fun _ => True := fun ρ ctx hctx => ⟨(hless ρ ctx hctx).1, trivial⟩
  rw [compare, if_neg h]
  dsimp only
  rw [hdiff, hdiff']
  rcases hop with rfl | rfl | rfl | rfl
  · exact ⟨_, rfl, hless⟩
  · refine ⟨_, rfl, fun ρ => (hdrop ρ).bind fun _ => (hgreater ρ).bind fun n =>
      (gives_cell rfl).imp fun m hm hn _ => ?_⟩
    rw [hm, map_singleton, hn, ordered]
    simp [CellKind.eval, ← decide_not]
  · exact ⟨_, rfl, fun ρ => (hdrop ρ).bind fun _ => (hgreater ρ).imp fun n hn _ => hn⟩
  · refine ⟨_, rfl, fun ρ => (hless ρ).bind fun n => (gives_cell rfl).imp fun m hm hn => ?_⟩
    rw [hm, map_singleton, hn, ordered]
    simp [CellKind.eval, ← decide_not]

end

/-- A netlist of the rails alone, and what they carry. -/
def rails : ConvContext := .constants

theorem consistent_rails : rails.Consistent fun n => n = netConst1 where
  const_eq n c h := by
    match n with
    | 0 => cases h; rfl
    | 1 => cases h; rfl
  cell_eq c hc := by cases hc

/-- Integer arithmetic is computed, save that without bits no operand is at most or at
least the other. -/
theorem integerArith_iff (hlen : a.length = b.length) (cin : NetId) {op : Op} (hop : IsOrder op)
    (signed : Bool) : IntegerArith a b cin op signed ↔ a ≠ [] ∨ op = .less ∨ op = .greater := by
  constructor
  · intro h
    by_contra hcon
    simp only [not_or, not_not] at hcon
    obtain ⟨rfl, hless, hgreater⟩ := hcon
    obtain rfl := length_eq_zero_iff.1 hlen.symm
    obtain ⟨build, hbuild, hgives⟩ := h.order
    obtain rfl : pure netConst0 = build := Except.ok.inj hbuild
    have hfalse := (hgives _ rails consistent_rails).2
    rcases hop with rfl | rfl | rfl | rfl
    · exact hless rfl
    · cases signed <;> cases hfalse
    · exact hgreater rfl
    · cases signed <;> cases hfalse
  · intro h
    have hlen' : ∀ ρ : NetId → Bool, (a.map ρ).length = (b.map ρ).length := fun ρ => by
      simpa using hlen
    refine ⟨fun ρ => ?_, fun ρ => ?_, fun ρ ctx ctx' hctx hctx' => ?_, ?_, ?_, ?_, ?_⟩
    · exact (gives_rippleAddCore hlen cin).imp fun r hr => number_carry hlen cin hr.1 hr.2
    · exact (gives_koggeStoneAdd hlen cin).imp fun r hr => number_carry hlen cin hr.1 hr.2
    · rw [(gives_rippleAddCore hlen cin ctx hctx).2.1,
        (gives_koggeStoneAdd hlen cin ctx' hctx').2.1]
    · obtain ⟨build, hbuild, hgives⟩ := gives_rippleAdd hlen cin
      refine ⟨build, hbuild, fun ρ => (hgives ρ).imp fun sum hsum => ?_⟩
      obtain ⟨hlength, hvalue⟩ := busValue_rippleAddCore _ _ (ρ cin) (hlen' ρ)
      rw [number, hsum, hvalue, ← length_map (f := ρ), hsum, hlength, length_map]
      exact ⟨rfl, rfl⟩
    · obtain ⟨build, hbuild, hgives⟩ := gives_rippleSub hlen
      refine ⟨build, hbuild, fun ρ => gives_of_rails fun _ hvdd =>
        (hgives ρ hvdd).imp fun diff hdiff => ?_⟩
      rw [← length_map (f := ρ), hdiff, length_difference (hlen' ρ), length_map]
      exact ⟨rfl, number_difference hlen hdiff⟩
    · obtain ⟨build, hbuild, hgives⟩ := gives_rippleSub (a := a ++ [netConst0])
        (b := b ++ [netConst0]) (by simpa using hlen)
      refine ⟨build, hbuild, fun ρ => gives_of_rails fun hgnd hvdd =>
        (hgives ρ hvdd).imp fun diff hdiff => ?_⟩
      rw [map_append, map_append, map_singleton, hgnd] at hdiff
      have hne : diff ≠ [] := by
        rintro rfl
        have hnil := congrArg List.length hdiff
        rw [length_difference (by simp [hlen])] at hnil
        simp at hnil
      rw [value_getLastD ρ hne, hdiff, difference_borrow (hlen' ρ), number, number]
    · by_cases hnil : a = []
      · subst hnil
        obtain rfl := length_eq_zero_iff.1 hlen.symm
        refine ⟨_, rfl, fun ρ => gives_of_rails fun hgnd _ => gives_pure ?_⟩
        rcases h with h | rfl | rfl
        · exact absurd rfl h
        · cases signed <;> exact hgnd
        · cases signed <;> exact hgnd
      · exact exists_compare hlen hop signed hnil

/-- On two bits, `1 - 2` wraps and `-2 < 1`. -/
theorem integerArith_pair : IntegerArith [netConst1, netConst0] [netConst0, netConst1] netConst0
    .lessEq true :=
  (integerArith_iff (by rfl) netConst0 (.inr (.inl rfl)) true).2 (.inl (cons_ne_nil _ _))

theorem not_integerArith_nil : ¬ ∀ (a b : List NetId) (cin : NetId) (op : Op) (signed : Bool),
    a.length = b.length → IsOrder op → IntegerArith a b cin op signed := by
  intro h
  obtain ⟨build, hbuild, hgives⟩ := (h [] [] netConst0 .lessEq false rfl (.inr (.inl rfl))).order
  obtain rfl : pure netConst0 = build := Except.ok.inj hbuild
  cases (hgives _ rails consistent_rails).2

end Veryl.Synthesizer.Netlist
