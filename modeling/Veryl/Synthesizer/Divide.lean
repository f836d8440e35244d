import Veryl.Synthesizer.ArithBuild

/-!
The divider array. The partial remainder stays below the divisor, so that one more bit holds the
borrow of the trial subtraction; a zero divisor never borrows.
-/

namespace Veryl.Synthesizer.Netlist

open List

/-- One step of the restoring division: takes in a bit `x` of the dividend and gives a bit of
the quotient and the new remainder. -/
def divideStep (n : ℕ) (bExt rem : List NetId) (x : NetId) : Synth (NetId × List NetId) :=
  let shifted := x :: rem.take n
  (Synth.tried (rippleSub shifted bExt)).andThen fun trial => Synth.built do
    let qBit ← cell .not [netOf trial n]
    let rem ← (shifted.zip trial).mapM fun st => cell .mux2 [qBit, st.1, st.2]
    pure (qBit, rem)

/-- The bits of the dividend from the top one down; the quotient grows from its top bit down. -/
def divideLoop (n : ℕ) (bExt : List NetId) :
    List NetId → List NetId → List NetId → Synth (List NetId × List NetId)
  | [], rem, quo => Synth.done (quo, rem)
  | x :: xs, rem, quo => (divideStep n bExt rem x).andThen fun step =>
    divideLoop n bExt xs step.2 (step.1 :: quo)

/-- The quotient and the remainder. -/
def divideUnsigned (a b : List NetId) (n : ℕ) : Synth (List NetId × List NetId) :=
  if n = 0 then Synth.done ([], [])
  else
    let a := extend a n false
    let bExt := extend b n false ++ [netConst0]
    (divideLoop n bExt a.reverse (List.replicate (n + 1) netConst0) []).andThen fun qr =>
      Synth.done (qr.1, qr.2.take n)

def divideSigned (a b : List NetId) (n : ℕ) : Synth (List NetId × List NetId) :=
  if n = 0 then Synth.done ([], [])
  else
    let a := extend a n true
    let b := extend b n true
    let signA := netOf a (n - 1)
    let signB := netOf b (n - 1)
    (conditionalNegate a signA).andThen fun absA =>
    (conditionalNegate b signB).andThen fun absB =>
    (divideUnsigned absA absB n).andThen fun qr =>
    (Synth.built (cell .xor2 [signA, signB])).andThen fun qSign =>
    (conditionalNegate qr.1 qSign).andThen fun quo =>
    (conditionalNegate qr.2 signA).andThen fun rem => Synth.done (quo, rem)

/-- The quotient on so many bits; of a zero divisor all of them are set. -/
def quotientOn (bits a b : ℕ) : ℕ := if b = 0 then 2 ^ bits - 1 else a / b

/-- The trial subtraction, on one bit more than the divisor has, borrows exactly where the
divisor does not fit, and what is kept is the remainder of the longer dividend. -/
theorem restore {n a b x s t : ℕ} (hb : b < 2 ^ n) (hs : s = 2 * (a % b) + x) (hx : x ≤ 1)
    (hzero : b = 0 → s < 2 ^ n) (ht : t = (s + 2 ^ (n + 1) - b) % 2 ^ (n + 1)) :
    (if t < 2 ^ n then t else s) = (2 * a + x) % b ∧ (if t < 2 ^ n then t else s) < 2 ^ n ∧
      ∀ k, quotientOn (k + 1) (2 * a + x) b =
        (decide (t < 2 ^ n)).toNat + 2 * quotientOn k a b := by
  rw [Nat.pow_succ] at ht
  rcases Nat.eq_zero_or_pos b with rfl | hpos
  · have hsmall := hzero rfl
    rw [Nat.sub_zero, Nat.add_mod_right, Nat.mod_eq_of_lt (by omega)] at ht
    have hlt : t < 2 ^ n := by omega
    rw [if_pos hlt, decide_eq_true hlt]
    refine ⟨by omega, hlt, fun k => ?_⟩
    have hk := Nat.two_pow_pos k
    rw [quotientOn, quotientOn, if_pos rfl, if_pos rfl, Nat.pow_succ, Bool.toNat_true]
    omega
  · have hne : b ≠ 0 := hpos.ne'
    have hrem := Nat.mod_lt a hpos
    have hsplit := Nat.div_add_mod a b
    by_cases hfits : b ≤ s
    · rw [show s + 2 ^ n * 2 - b = s - b + 2 ^ n * 2 by omega, Nat.add_mod_right,
        Nat.mod_eq_of_lt (by omega)] at ht
      have hlt : t < 2 ^ n := by omega
      obtain ⟨hdiv, hmod⟩ := (Nat.div_mod_unique (a := 2 * a + x) (d := 2 * (a / b) + 1)
        (c := s - b) hpos).2 ⟨by
          rw [Nat.mul_add, ← Nat.mul_assoc, Nat.mul_comm b 2, Nat.mul_assoc]
          omega, by omega⟩
      rw [if_pos hlt, decide_eq_true hlt, hmod]
      refine ⟨ht, hlt, fun k => ?_⟩
      rw [quotientOn, quotientOn, if_neg hne, if_neg hne, hdiv, Bool.toNat_true]
      omega
    · rw [Nat.mod_eq_of_lt (by omega)] at ht
      have hge : ¬ t < 2 ^ n := by omega
      obtain ⟨hdiv, hmod⟩ := (Nat.div_mod_unique (a := 2 * a + x) (d := 2 * (a / b))
        (c := s) hpos).2 ⟨by
          rw [← Nat.mul_assoc, Nat.mul_comm b 2, Nat.mul_assoc]
          omega, by omega⟩
      rw [if_neg hge, decide_eq_false hge, hmod]
      refine ⟨rfl, by omega, fun k => ?_⟩
      rw [quotientOn, quotientOn, if_neg hne, if_neg hne, hdiv, Bool.toNat_false]
      omega

variable {ρ : NetId → Bool} {n : ℕ}

theorem value_top (ρ : NetId → Bool) {l : List NetId} (hlen : l.length = n + 1) :
    ρ (netOf l n) = decide (2 ^ n ≤ number ρ l) := by
  have hmap : (l.map ρ).length = n + 1 := by rwa [length_map]
  rw [value_netOf ρ (by omega), number, ← getLastD_eq_decide hmap, List.getLastD_eq_getLast?,
    List.getLast?_eq_getElem?, getD_eq_getElem?_getD, hmap, Nat.add_sub_cancel]

theorem succeeds_divideStep {bExt rem : List NetId} (hbLen : bExt.length = n + 1)
    (hremLen : rem.length = n + 1) (x : NetId) :
    Succeeds (divideStep n bExt rem x) (fun r => r.2.length = n + 1) fun ρ r =>
      ∀ a, number ρ bExt < 2 ^ n → number ρ (rem.take n) = a % number ρ bExt →
        (number ρ bExt = 0 → 2 * a + (ρ x).toNat < 2 ^ n) →
          number ρ (r.2.take n) = (2 * a + (ρ x).toNat) % number ρ bExt ∧
            ∀ k, quotientOn (k + 1) (2 * a + (ρ x).toNat) (number ρ bExt) =
              (ρ r.1).toNat + 2 * quotientOn k a (number ρ bExt) := by
  have hshifted : (x :: rem.take n).length = n + 1 := by
    rw [length_cons, length_take, hremLen]
    omega
  refine (succeeds_rippleSub (hshifted.trans hbLen.symm)).andThen fun trial htrial => ?_
  rw [hshifted] at htrial
  refine Makes.built ?_
  refine (makes_cell rfl).bind fun qBit _ => ?_
  refine (makes_mapM (v := fun ρ st => CellKind.mux2.eval [ρ qBit, ρ st.1, ρ st.2])
    fun st _ ρ => gives_cell rfl).bind fun rem' hrem' => ?_
  have hlen : rem'.length = n + 1 := by
    rw [hrem', length_zip, hshifted, htrial, Nat.min_self]
  refine makes_pure hlen fun ρ _ _ hmux hq ht a hb hrem hzero => ?_
  have hs : number ρ (x :: rem.take n) = 2 * (a % number ρ bExt) + (ρ x).toNat := by
    rw [← hrem, number, map_cons, busValue, number, Nat.add_comm]
  have hnot : ρ qBit = decide (number ρ trial < 2 ^ n) := by
    rw [hq, map_singleton, value_top ρ htrial]
    simp [CellKind.eval, ← decide_not]
  rw [hshifted] at ht
  obtain ⟨hmod, hlt, hquo⟩ := restore hb hs (Bool.toNat_le _) (fun h => by
      rw [hs, h, Nat.mod_zero]
      exact hzero h) ht
  have hkept : number ρ rem' = if number ρ trial < 2 ^ n then number ρ trial
      else number ρ (x :: rem.take n) := by
    rw [number, hmux, map_zip_mux (hshifted.trans htrial.symm), hnot]
    by_cases h : number ρ trial < 2 ^ n
    · rw [decide_eq_true h, if_pos rfl, if_pos h, number]
    · rw [decide_eq_false h, if_neg Bool.false_ne_true, if_neg h, number]
  rw [number_take, hkept, Nat.mod_eq_of_lt hlt, hnot]
  exact ⟨hmod, hquo⟩

theorem succeeds_divideLoop {bExt : List NetId} (hbLen : bExt.length = n + 1) (xs : List NetId) :
    ∀ rem quo : List NetId, rem.length = n + 1 → Succeeds (divideLoop n bExt xs rem quo)
        (fun r => r.1.length = quo.length + xs.length ∧ r.2.length = n + 1) fun ρ r =>
          ∀ a k, number ρ bExt < 2 ^ n → number ρ (rem.take n) = a % number ρ bExt →
            number ρ quo = quotientOn k a (number ρ bExt) → a < 2 ^ k → k + xs.length ≤ n →
              number ρ r.1 = quotientOn (k + xs.length)
                (a * 2 ^ xs.length + number ρ xs.reverse) (number ρ bExt) ∧
              number ρ (r.2.take n) =
                (a * 2 ^ xs.length + number ρ xs.reverse) % number ρ bExt := by
  induction xs with
  | nil =>
    refine fun rem quo hrem => succeeds_done ⟨rfl, hrem⟩ fun ρ _ _ a k _ hmod hquo _ _ => ?_
    have hnil : a * 2 ^ ([] : List NetId).length + number ρ ([] : List NetId).reverse = a := by
      simp [number, busValue]
    rw [hnil]
    exact ⟨hquo, hmod⟩
  | cons x xs ih =>
    refine fun rem quo hrem => (succeeds_divideStep hbLen hrem x).andThen fun step hstep => ?_
    refine (ih step.2 (step.1 :: quo) hstep).imp (fun r hr => ⟨?_, hr.2⟩)
      fun ρ _ _ r _ hr hgiven a k hb hmod hquo ha hk => ?_
    · rw [hr.1, length_cons, length_cons]
      omega
    · rw [length_cons] at hk
      have hx := Bool.toNat_le (ρ x)
      have hbound : 2 * a + (ρ x).toNat < 2 ^ (k + 1) := by
        omega
      have hpow : 2 ^ (k + 1) ≤ 2 ^ n := Nat.pow_le_pow_right Nat.two_pos (by omega)
      obtain ⟨hmod', hquo'⟩ := hgiven a hb hmod fun _ => hbound.trans_le hpow
      have hnext : number ρ (step.1 :: quo) =
          quotientOn (k + 1) (2 * a + (ρ x).toNat) (number ρ bExt) := by
        rw [hquo' k, ← hquo]
        rfl
      have htotal : (2 * a + (ρ x).toNat) * 2 ^ xs.length + number ρ xs.reverse =
          a * 2 ^ (xs.length + 1) + number ρ (xs.reverse ++ [x]) := by
        rw [number_append, length_reverse, Nat.pow_succ]
        simp only [number, map_singleton, busValue]
        ring
      have hdone := hr (2 * a + (ρ x).toNat) (k + 1) hb hmod' hnext hbound (by omega)
      rw [length_cons, reverse_cons, ← htotal, show k + (xs.length + 1) =
        k + 1 + xs.length by omega]
      exact hdone

theorem succeeds_divideUnsigned (a b : List NetId) (n : ℕ) :
    Succeeds (divideUnsigned a b n) (fun r => r.1.length = n ∧ r.2.length = n) fun ρ r =>
      number ρ r.1 = quotientOn n (number ρ a % 2 ^ n) (number ρ b % 2 ^ n) ∧
        number ρ r.2 = number ρ a % 2 ^ n % (number ρ b % 2 ^ n) := by
  unfold divideUnsigned
  split
  · rename_i hzero
    subst hzero
    refine succeeds_done ⟨rfl, rfl⟩ fun ρ _ _ => ?_
    rw [Nat.pow_zero, Nat.mod_one, Nat.mod_one]
    exact ⟨rfl, rfl⟩
  · have hbLen : (extend b n false ++ [netConst0]).length = n + 1 := by
      rw [length_append, length_extend, length_singleton]
    have haLen : (extend a n false).reverse.length = n := by
      rw [length_reverse, length_extend]
    refine (succeeds_divideLoop hbLen (extend a n false).reverse
      (List.replicate (n + 1) netConst0) [] length_replicate).andThen fun r hr => ?_
    refine succeeds_done ⟨?_, ?_⟩ fun ρ hgnd _ hloop => ?_
    · rw [hr.1, haLen, length_nil, Nat.zero_add]
    · rw [length_take, hr.2]
      omega
    · have hb : number ρ (extend b n false ++ [netConst0]) = number ρ b % 2 ^ n := by
        rw [number_append, number_extend_nat hgnd]
        simp [number, busValue, hgnd]
      have hstart : number ρ ((List.replicate (n + 1) netConst0).take n) = 0 := by
        rw [number_take, number_zeros hgnd, Nat.zero_mod]
      have hmod : number ρ b % 2 ^ n < 2 ^ n := Nat.mod_lt _ (Nat.two_pow_pos n)
      have hnone : quotientOn 0 0 (number ρ b % 2 ^ n) = 0 := by
        unfold quotientOn
        split
        · rfl
        · exact Nat.zero_div _
      rw [hb] at hloop
      obtain ⟨hquo, hrem⟩ := hloop 0 0 hmod (hstart.trans (Nat.zero_mod _).symm) hnone.symm
        Nat.one_pos (by rw [haLen]; omega)
      rw [haLen, reverse_reverse, number_extend_nat hgnd, Nat.zero_mul, Nat.zero_add,
        Nat.zero_add] at hquo
      rw [reverse_reverse, number_extend_nat hgnd, Nat.zero_mul, Nat.zero_add] at hrem
      exact ⟨hquo, hrem⟩

/-- An operand as a signed number of `n` bits. -/
def signedOn (n : ℕ) (ρ : NetId → Bool) (a : List NetId) : ℤ :=
  (operand true (a.map ρ)).bmod (2 ^ n)

theorem signedOn_eq (hgnd : ρ netConst0 = false) (hn : 0 < n) (a : List NetId) :
    signedOn n ρ a = if ρ (netOf (extend a n true) (n - 1))
      then (number ρ (extend a n true) : ℤ) - 2 ^ n else number ρ (extend a n true) := by
  obtain ⟨m, rfl⟩ := Nat.exists_eq_add_one_of_ne_zero hn.ne'
  have hnumber := number_extend hgnd a (m + 1) true
  have hhalf : (((2 ^ (m + 1) : ℕ) : ℤ) + 1) / 2 = 2 ^ m := by
    push_cast
    omega
  rw [Nat.add_sub_cancel, value_top ρ (length_extend a (m + 1) true), signedOn, Int.bmod_def,
    hhalf, Nat.cast_pow, Nat.cast_ofNat, ← hnumber]
  by_cases h : 2 ^ m ≤ number ρ (extend a (m + 1) true)
  · have hlt : ¬ (number ρ (extend a (m + 1) true) : ℤ) < 2 ^ m := by
      omega
    rw [if_neg hlt, decide_eq_true h, if_pos rfl]
  · have hlt : (number ρ (extend a (m + 1) true) : ℤ) < 2 ^ m := by
      exact_mod_cast Nat.lt_of_not_le h
    rw [if_pos hlt, decide_eq_false h, if_neg Bool.false_ne_true]

/-- What is left of an operand without its sign. -/
theorem magnitude (hgnd : ρ netConst0 = false) (hn : 0 < n) (a : List NetId) {m : ℕ}
    (hm : m = if ρ (netOf (extend a n true) (n - 1))
      then (2 ^ n - number ρ (extend a n true)) % 2 ^ n else number ρ (extend a n true)) :
    m < 2 ^ n ∧ (ρ (netOf (extend a n true) (n - 1)) = true → 0 < m) ∧
      signedOn n ρ a = if ρ (netOf (extend a n true) (n - 1)) then -(m : ℤ) else m := by
  have hlt := number_lt ρ (extend a n true)
  rw [length_extend] at hlt
  rw [signedOn_eq hgnd hn]
  cases hsign : ρ (netOf (extend a n true) (n - 1)) with
  | true =>
    obtain ⟨k, rfl⟩ := Nat.exists_eq_add_one_of_ne_zero hn.ne'
    rw [Nat.add_sub_cancel, value_top ρ (length_extend a (k + 1) true), decide_eq_true_eq] at hsign
    rw [hm, Nat.add_sub_cancel, value_top ρ (length_extend a (k + 1) true), decide_eq_true hsign,
      if_pos rfl, if_pos rfl, Nat.mod_eq_of_lt (by omega), if_pos rfl, Nat.cast_sub hlt.le]
    refine ⟨by omega, fun _ => by omega, ?_⟩
    push_cast
    ring
  | false =>
    rw [hsign] at hm
    rw [hm, if_neg Bool.false_ne_true, if_neg Bool.false_ne_true, if_neg Bool.false_ne_true]
    exact ⟨hlt, nofun, rfl⟩

theorem cast_negated {q : ℕ} (hq : q < 2 ^ n) (sign : Bool) :
    ((if sign then (2 ^ n - q) % 2 ^ n else q : ℕ) : ℤ) =
      (if sign then -(q : ℤ) else q) % 2 ^ n := by
  cases sign with
  | true =>
    rw [if_pos rfl, if_pos rfl, Int.natCast_mod, Nat.cast_sub hq.le]
    have hsplit : (((2 ^ n : ℕ) : ℤ) - q) = -(q : ℤ) + 2 ^ n := by
      push_cast
      ring
    rw [hsplit, Nat.cast_pow, Nat.cast_ofNat, Int.add_emod_right]
  | false =>
    rw [if_neg Bool.false_ne_true, if_neg Bool.false_ne_true,
      Int.emod_eq_of_lt (Int.natCast_nonneg _) (by exact_mod_cast hq)]

theorem tdiv_tmod_signs (sa sb : Bool) (x y : ℕ) :
    (if sa then -(x : ℤ) else x).tdiv (if sb then -(y : ℤ) else y) =
        (if sa ^^ sb then -((x / y : ℕ) : ℤ) else (x / y : ℕ)) ∧
      (if sa then -(x : ℤ) else x).tmod (if sb then -(y : ℤ) else y) =
        (if sa then -((x % y : ℕ) : ℤ) else (x % y : ℕ)) := by
  have hdiv : (x : ℤ).tdiv y = (x / y : ℕ) := rfl
  have hmod : (x : ℤ).tmod y = (x % y : ℕ) := rfl
  cases sa <;> cases sb <;>
    simp only [if_true, if_false, Bool.false_eq_true, Int.neg_tdiv, Int.tdiv_neg, Int.neg_tmod,
      Int.tmod_neg, Int.neg_neg, hdiv, hmod, Bool.xor_false, Bool.xor_true, Bool.not_true,
      Bool.not_false] <;>
    trivial

theorem quotientOn_lt {x : ℕ} (y : ℕ) (hx : x < 2 ^ n) : quotientOn n x y < 2 ^ n := by
  unfold quotientOn
  split
  · exact Nat.sub_lt (Nat.two_pow_pos n) Nat.one_pos
  · exact (Nat.div_le_self x y).trans_lt hx

theorem succeeds_divideSigned (a b : List NetId) (n : ℕ) :
    Succeeds (divideSigned a b n) (fun r => r.1.length = n ∧ r.2.length = n) fun ρ r =>
      (signedOn n ρ b ≠ 0 → (number ρ r.1 : ℤ) = (signedOn n ρ a).tdiv (signedOn n ρ b) % 2 ^ n) ∧
      (signedOn n ρ b = 0 → (number ρ r.1 : ℤ) = (if signedOn n ρ a < 0 then 1 else -1) % 2 ^ n) ∧
      (number ρ r.2 : ℤ) = (signedOn n ρ a).tmod (signedOn n ρ b) % 2 ^ n := by
  unfold divideSigned
  split
  · rename_i hzero
    subst hzero
    refine succeeds_done ⟨rfl, rfl⟩ fun ρ _ _ => ?_
    have hone : ∀ z : ℤ, z % 2 ^ 0 = 0 := fun z => by rw [pow_zero, Int.emod_one]
    rw [hone, hone, hone]
    exact ⟨fun _ => rfl, fun _ => rfl, rfl⟩
  · rename_i hn
    refine (succeeds_conditionalNegate _ _).andThen fun absA hA => ?_
    refine (succeeds_conditionalNegate _ _).andThen fun absB hB => ?_
    refine (succeeds_divideUnsigned absA absB n).andThen fun qr hqr => ?_
    refine (makes_cell rfl).built.andThen fun qSign _ => ?_
    refine (succeeds_conditionalNegate qr.1 qSign).andThen fun quo hquo => ?_
    refine (succeeds_conditionalNegate qr.2 _).andThen fun rem hrem => ?_
    refine succeeds_done ⟨hquo.trans hqr.1, hrem.trans hqr.2⟩ fun ρ hgnd _ => ?_
    intro hremV hquoV hsignV hqrV habsB habsA
    obtain ⟨hq, hr⟩ := hqrV
    rw [length_extend] at habsA habsB
    obtain ⟨hltA, hposA, hsA⟩ := magnitude hgnd (Nat.pos_of_ne_zero hn) a habsA
    obtain ⟨hltB, hposB, hsB⟩ := magnitude hgnd (Nat.pos_of_ne_zero hn) b habsB
    rw [Nat.mod_eq_of_lt hltA, Nat.mod_eq_of_lt hltB] at hq hr
    have hltQ : number ρ qr.1 < 2 ^ n := hq ▸ quotientOn_lt _ hltA
    have hltR : number ρ qr.2 < 2 ^ n := hr ▸ (Nat.mod_le _ _).trans_lt hltA
    have hxor : ρ qSign = (ρ (netOf (extend a n true) (n - 1)) ^^
        ρ (netOf (extend b n true) (n - 1))) := hsignV
    rw [hqr.1] at hquoV
    rw [hqr.2] at hremV
    obtain ⟨hdiv, hmod⟩ := tdiv_tmod_signs (ρ (netOf (extend a n true) (n - 1)))
      (ρ (netOf (extend b n true) (n - 1))) (number ρ absA) (number ρ absB)
    rw [← hsA, ← hsB, ← hxor] at hdiv
    rw [← hsA, ← hsB] at hmod
    rw [hquoV, hremV, cast_negated hltQ, cast_negated hltR, hq, hr, hdiv, hmod]
    have hzero : signedOn n ρ b = 0 ↔ number ρ absB = 0 := by
      rw [hsB]
      split <;> omega
    refine ⟨fun hne => ?_, fun heq => ?_, rfl⟩
    · rw [quotientOn, if_neg (mt hzero.2 hne)]
    have hB := hzero.1 heq
    have hsignB : ρ (netOf (extend b n true) (n - 1)) = false := by
      by_contra hset
      have := hposB (Bool.not_eq_false _ ▸ hset)
      omega
    have hones : ((2 ^ n - 1 : ℕ) : ℤ) = -1 + 2 ^ n := by
      rw [Nat.cast_sub (Nat.two_pow_pos n)]
      push_cast
      ring
    rw [quotientOn, if_pos hB, hxor, hsignB, Bool.xor_false, hones]
    cases hsignA : ρ (netOf (extend a n true) (n - 1)) with
    | true =>
      have hneg : signedOn n ρ a < 0 := by
        rw [hsA, hsignA, if_pos rfl]
        have := hposA hsignA
        omega
      rw [if_pos rfl, if_pos hneg, show -(-1 + (2 : ℤ) ^ n) = 1 + 2 ^ n * (-1) by ring,
        Int.add_mul_emod_self_left]
    | false =>
      have hnonneg : ¬ signedOn n ρ a < 0 := by
        rw [hsA, hsignA, if_neg Bool.false_ne_true]
        omega
      rw [if_neg Bool.false_ne_true, if_neg hnonneg, Int.add_emod_right]

/-- Unsigned division is that of the natural numbers, signed division truncates and its remainder
has the sign of the dividend, both on `n` bits. -/
theorem divide_exact (a b : List NetId) (n : ℕ) :
    (Succeeds (divideUnsigned a b n) (fun r => r.1.length = n ∧ r.2.length = n) fun ρ r =>
      (number ρ b % 2 ^ n ≠ 0 → number ρ r.1 = number ρ a % 2 ^ n / (number ρ b % 2 ^ n) ∧
          number ρ r.2 = number ρ a % 2 ^ n % (number ρ b % 2 ^ n)) ∧
      (number ρ b % 2 ^ n = 0 → number ρ r.1 = 2 ^ n - 1 ∧ number ρ r.2 = number ρ a % 2 ^ n)) ∧
    Succeeds (divideSigned a b n) (fun r => r.1.length = n ∧ r.2.length = n) fun ρ r =>
      (signedOn n ρ b ≠ 0 → (number ρ r.1 : ℤ) = (signedOn n ρ a).tdiv (signedOn n ρ b) % 2 ^ n ∧
          (number ρ r.2 : ℤ) = (signedOn n ρ a).tmod (signedOn n ρ b) % 2 ^ n) ∧
      (signedOn n ρ b = 0 → (number ρ r.1 : ℤ) = (if signedOn n ρ a < 0 then 1 else -1) % 2 ^ n ∧
          (number ρ r.2 : ℤ) = signedOn n ρ a % 2 ^ n) := by
  refine ⟨(succeeds_divideUnsigned a b n).imp (fun _ h => h) ?unsigned,
    (succeeds_divideSigned a b n).imp (fun _ h => h) ?signed⟩
  case unsigned =>
    rintro ρ - - r - ⟨hquo, hrem⟩
    rw [hquo, hrem, quotientOn]
    refine ⟨fun hne => ?_, fun heq => ?_⟩
    · rw [if_neg hne]
      exact ⟨rfl, rfl⟩
    · rw [if_pos heq, heq, Nat.mod_zero]
      exact ⟨rfl, rfl⟩
  case signed =>
    rintro ρ - - r - ⟨hquo, hzero, hrem⟩
    refine ⟨fun hne => ⟨hquo hne, hrem⟩, fun heq => ⟨hzero heq, ?_⟩⟩
    rw [hrem, heq, Int.tmod_zero]

/-- On two bits `-1` divided by zero gives one. -/
theorem not_divideSigned_ones : ¬ ∀ (a b : List NetId) (n : ℕ),
    Succeeds (divideSigned a b n) (fun _ => True) fun ρ r =>
      number ρ b = 0 → number ρ r.1 = 2 ^ n - 1 := by
  intro h
  have hbuilt : (divideSigned [netConst1, netConst1] [netConst0, netConst0] 2 rails).1.toOption =
      some ([netConst1, netConst0], [netConst1, netConst1]) := by decide +kernel
  have hcells : (divideSigned [netConst1, netConst1] [netConst0, netConst0] 2 rails).2 = rails := by
    rw [ConvContext.mk.injEq]
    decide +kernel
  obtain ⟨-, hones⟩ := h [netConst1, netConst1] [netConst0, netConst0] 2 rails
  rw [hcells] at hones
  have hvalues := (hones _ consistent_rails).2
  cases hdiv : (divideSigned [netConst1, netConst1] [netConst0, netConst0] 2 rails).1 with
  | error e =>
    rw [hdiv] at hbuilt
    cases hbuilt
  | ok r =>
    rw [hdiv] at hbuilt
    obtain rfl := Option.some.inj hbuilt
    have hquo := hvalues _ hdiv rfl
    revert hquo
    decide

end Veryl.Synthesizer.Netlist
