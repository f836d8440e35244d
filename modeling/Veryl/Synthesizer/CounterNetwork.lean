import Veryl.Synthesizer.Counter

/-!
The network of a rebuilt counter: products of literals, a population count and a
sum modulo the width of the bus.
-/

namespace Veryl.Synthesizer

open List Option Function

variable {ins' outs' : List NetId} {a b : ℕ} {terms : List (NetId × Bool)}

/-- The number on a bus, its lowest bit first. -/
def busValue : List Bool → ℕ
  | [] => 0
  | b :: bs => b.toNat + 2 * busValue bs

theorem busValue_lt (bs : List Bool) : busValue bs < 2 ^ bs.length := by
  induction bs with
  | nil => exact Nat.one_pos
  | cons b bs ih =>
    have hb := Bool.toNat_le b
    rw [busValue, length_cons, Nat.pow_succ]
    omega

theorem busValue_injective {bs bs' : List Bool} (hlen : bs.length = bs'.length)
    (h : busValue bs = busValue bs') : bs = bs' := by
  induction bs generalizing bs' with
  | nil => exact (length_eq_zero_iff.1 hlen.symm).symm
  | cons b bs ih =>
    obtain ⟨b', bs', rfl⟩ := exists_cons_of_length_eq_add_one hlen.symm
    rw [busValue, busValue] at h
    have hb := Bool.toNat_le b
    have hb' := Bool.toNat_le b'
    have hhead : b.toNat = b'.toNat := by omega
    have hbit : b = b' := by
      cases b <;> cases b' <;> first | rfl | cases hhead
    rw [ih (Nat.succ.inj hlen) (by omega), hbit]

/-- Adds one bit. -/
def increment : Bool → List Bool → List Bool
  | _, [] => []
  | c, b :: bs => (b ^^ c) :: increment (b && c) bs

theorem busValue_increment (c : Bool) (bs : List Bool) :
    busValue (increment c bs) = (busValue bs + c.toNat) % 2 ^ bs.length := by
  induction bs generalizing c with
  | nil => exact (Nat.mod_one _).symm
  | cons b bs ih =>
    have hsum : (b ^^ c).toNat + 2 * (b && c).toNat = b.toNat + c.toNat := by
      cases b <;> cases c <;> rfl
    have hbit := Bool.toNat_le (b ^^ c)
    rw [increment, busValue, ih, busValue, length_cons, Nat.pow_succ, Nat.mul_comm _ 2]
    have hsplit : b.toNat + 2 * busValue bs + c.toNat =
        (b ^^ c).toNat + 2 * (busValue bs + (b && c).toNat) := by omega
    have hlow : ((b ^^ c).toNat + 2 * (busValue bs + (b && c).toNat)) % 2 = (b ^^ c).toNat := by
      omega
    have hhigh : ((b ^^ c).toNat + 2 * (busValue bs + (b && c).toNat)) / 2 =
        busValue bs + (b && c).toNat := by omega
    rw [hsplit, Nat.mod_mul, hlow, hhigh]

theorem increment_concat (c b : Bool) (bs : List Bool) :
    increment c (bs ++ [b]) = increment c bs ++ [b ^^ (c && bs.all id)] := by
  induction bs generalizing c with
  | nil => simp [increment]
  | cons d bs ih =>
    rw [cons_append, increment, ih, increment, cons_append, all_cons, id_eq,
      Bool.and_comm d c, Bool.and_assoc]

theorem increment_false (bs : List Bool) : increment false bs = bs := by
  induction bs with
  | nil => rfl
  | cons b bs ih => rw [increment, Bool.xor_false, Bool.and_false, ih]

section Networks

variable {m m' m'' : GateModule} {ins outs : List NetId} {kind : CellKind} {inputs : List NetId}

/-- Cells added to a module: every net picked out lies above those it is built
from by at most the number of added cells. -/
structure Builds (m m' : GateModule) (ins outs : List NetId) : Prop where
  rewrites : Rewrites m m'
  length_le : m.cells.length ≤ m'.cells.length
  exist : ∀ n : ℕ, n ∈ outs → n < m'.nets.length
  ranks : ∀ r, m.Ranks r → ∃ r', m'.Ranks r' ∧ (∀ n : ℕ, n < m.nets.length → r' n = r n) ∧
    ∀ n ∈ outs, ∀ x, (∀ i ∈ ins, r i ≤ x) → r' n ≤ x + (m'.cells.length - m.cells.length)

theorem Builds.refl (hm : m.WellFormed) (hclosed : m.Closed)
    (hexist : ∀ n : ℕ, n ∈ ins → n < m.nets.length) : Builds m m ins ins :=
  ⟨Rewrites.refl hm hclosed, Nat.le_refl _, hexist, fun r hr => ⟨r, hr, fun _ _ => rfl,
    fun n hn _ hx => Nat.le_trans (hx n hn) (Nat.le_add_right _ _)⟩⟩

theorem Builds.mono (h : Builds m m' ins outs) (hins : ins ⊆ ins')
    (houts : outs' ⊆ outs) : Builds m m' ins' outs' := by
  refine ⟨h.rewrites, h.length_le, fun n hn => h.exist n (houts hn), fun r hr => ?_⟩
  obtain ⟨r', hr', hold, hle⟩ := h.ranks r hr
  exact ⟨r', hr', hold, fun n hn x hx => hle n (houts hn) x fun i hi => hx i (hins hi)⟩

/-- What is built next reads what was built before. -/
theorem Builds.trans (h : Builds m m' ins outs)
    (h' : Builds m' m'' ins' outs') (hins : ins' ⊆ outs) : Builds m m'' ins (outs ++ outs') := by
  refine ⟨h.rewrites.trans h'.rewrites, Nat.le_trans h.length_le h'.length_le, fun n hn => ?_,
    fun r hr => ?_⟩
  · rcases mem_append.1 hn with hn | hn
    · exact Nat.lt_of_lt_of_le (h.exist n hn) h'.rewrites.length_le
    · exact h'.exist n hn
  · obtain ⟨r', hr', hold, hle⟩ := h.ranks r hr
    obtain ⟨r'', hr'', hold', hle'⟩ := h'.ranks r' hr'
    have hlen := h.length_le
    have hlen' := h'.length_le
    refine ⟨r'', hr'', fun n hn => ?_, fun n hn x hx => ?_⟩
    · rw [hold' n (Nat.lt_of_lt_of_le hn h.rewrites.length_le), hold n hn]
    · rcases mem_append.1 hn with hn | hn
      · rw [hold' n (h.exist n hn)]
        have hbound := hle n hn x hx
        omega
      · have hbound := hle' n hn _ fun i hi => hle i (hins hi) x hx
        omega

theorem builds_mkCell (hm : m.WellFormed) (hclosed : m.Closed)
    (harity : inputs.length = kind.arity) (hinputs : ∀ n : ℕ, n ∈ inputs → n < m.nets.length) :
    Builds m (m.mkCell kind inputs).1 inputs [(m.mkCell kind inputs).2] := by
  have hcells : (m.mkCell kind inputs).1.cells.length = m.cells.length + 1 := by
    show (m.cells ++ [_]).length = _
    rw [length_append, length_singleton]
  refine ⟨rewrites_mkCell hm hclosed harity hinputs, by omega, fun n hn => ?_, fun r hr => ?_⟩
  · obtain rfl := mem_singleton.1 hn
    show m.nets.length < (m.nets ++ [_]).length
    rw [length_append, length_singleton]
    omega
  · refine ⟨_, ranks_mkCell hm hclosed hr (k := inputs.toFinset.sup r + 1) fun n hn =>
      ⟨hinputs n hn, Nat.lt_succ_of_le (Finset.le_sup (List.mem_toFinset.2 hn))⟩, fun n hn =>
        update_of_ne (Nat.ne_of_lt hn) _ _, fun n hn x hx => ?_⟩
    obtain rfl := mem_singleton.1 hn
    show Function.update r m.nets.length _ m.nets.length ≤ _
    have hsup : inputs.toFinset.sup r ≤ x :=
      Finset.sup_le fun i hi => hx i (List.mem_toFinset.1 hi)
    rw [update_self, hcells]
    omega

theorem Builds.mkCell (h : Builds m m' ins outs) (kind : CellKind) (inputs : List NetId)
    (harity : inputs.length = kind.arity) (hinputs : inputs ⊆ outs) :
    Builds m (m'.mkCell kind inputs).1 ins (outs ++ [(m'.mkCell kind inputs).2]) ∧
      Rewrites m' (m'.mkCell kind inputs).1 := by
  have hcell := builds_mkCell h.rewrites.wellFormed h.rewrites.closed harity fun n hn =>
    h.exist n (hinputs hn)
  exact ⟨h.trans hcell hinputs, hcell.rewrites⟩

theorem halfAdder_spec (hm : m.WellFormed) (hclosed : m.Closed)
    (hexist : ∀ n : ℕ, n ∈ [a, b] → n < m.nets.length) :
    let out := halfAdder m a b
    Builds m out.1 [a, b] [out.2.1, out.2.2] ∧ ∀ ρ, Solves out.1.nets out.1.cells ρ →
      (ρ out.2.1).toNat + 2 * (ρ out.2.2).toNat = (ρ a).toNat + (ρ b).toNat := by
  intro out
  obtain ⟨hsum, -⟩ := (Builds.refl hm hclosed hexist).mkCell .xor2 [a, b] rfl (List.Subset.refl _)
  obtain ⟨hcarry, hlast⟩ := hsum.mkCell .and2 [a, b] rfl (subset_append_left _ _)
  refine ⟨hcarry.mono (List.Subset.refl _) (subset_append_right [a, b] _), fun ρ hρ => ?_⟩
  have hc : ρ out.2.2 = (ρ a && ρ b) := mkCell_value hρ
  have hs : ρ out.2.1 = (ρ a ^^ ρ b) := mkCell_value (hlast.equations ρ hρ)
  rw [hc, hs]
  cases ρ a <;> cases ρ b <;> rfl

theorem fullAdder_spec {c : ℕ} (hm : m.WellFormed) (hclosed : m.Closed)
    (hexist : ∀ n : ℕ, n ∈ [a, b, c] → n < m.nets.length) :
    let out := fullAdder m a b c
    Builds m out.1 [a, b, c] [out.2.1, out.2.2] ∧ ∀ ρ, Solves out.1.nets out.1.cells ρ →
      (ρ out.2.1).toNat + 2 * (ρ out.2.2).toNat = (ρ a).toNat + (ρ b).toNat + (ρ c).toNat := by
  intro out
  let ab := m.mkCell .xor2 [a, b]
  let sum := ab.1.mkCell .xor2 [ab.2, c]
  let abAnd := sum.1.mkCell .and2 [a, b]
  let cAb := abAnd.1.mkCell .and2 [c, ab.2]
  let carry := cAb.1.mkCell .or2 [abAnd.2, cAb.2]
  obtain ⟨hab, -⟩ : Builds m ab.1 [a, b, c] [a, b, c, ab.2] ∧ _ :=
    (Builds.refl hm hclosed hexist).mkCell .xor2 [a, b] rfl (by simp)
  obtain ⟨hsum, hsumStep⟩ : Builds m sum.1 [a, b, c] [a, b, c, ab.2, sum.2] ∧ Rewrites ab.1 sum.1 :=
    hab.mkCell .xor2 [ab.2, c] rfl (by simp)
  obtain ⟨habAnd, hab'⟩ :
      Builds m abAnd.1 [a, b, c] [a, b, c, ab.2, sum.2, abAnd.2] ∧ Rewrites sum.1 abAnd.1 :=
    hsum.mkCell .and2 [a, b] rfl (by simp)
  obtain ⟨hcAb, hcAbStep⟩ :
      Builds m cAb.1 [a, b, c] [a, b, c, ab.2, sum.2, abAnd.2, cAb.2] ∧ Rewrites abAnd.1 cAb.1 :=
    habAnd.mkCell .and2 [c, ab.2] rfl (by simp)
  obtain ⟨hcarry, hlast⟩ :
      Builds m carry.1 [a, b, c] [a, b, c, ab.2, sum.2, abAnd.2, cAb.2, carry.2] ∧
        Rewrites cAb.1 carry.1 :=
    hcAb.mkCell .or2 [abAnd.2, cAb.2] rfl (by simp)
  have houts : [sum.2, carry.2] ⊆ [a, b, c, ab.2, sum.2, abAnd.2, cAb.2, carry.2] := by simp
  refine ⟨hcarry.mono (List.Subset.refl _) houts, fun ρ hρ => ?_⟩
  have h4 := hlast.equations ρ hρ
  have h3 := hcAbStep.equations ρ h4
  have h2 := hab'.equations ρ h3
  have hxor : ρ ab.2 = (ρ a ^^ ρ b) := mkCell_value (hsumStep.equations ρ h2)
  have hs : ρ out.2.1 = (ρ ab.2 ^^ ρ c) := mkCell_value h2
  have hand : ρ abAnd.2 = (ρ a && ρ b) := mkCell_value h3
  have hprop : ρ cAb.2 = (ρ c && ρ ab.2) := mkCell_value h4
  have hc : ρ out.2.2 = (ρ abAnd.2 || ρ cAb.2) := mkCell_value hρ
  rw [hc, hs, hand, hprop, hxor]
  cases ρ a <;> cases ρ b <;> cases ρ c <;> rfl

/-- The number of nets that are one. -/
def ones (ρ : NetId → Bool) (ns : List NetId) : ℕ := (ns.map fun n => (ρ n).toNat).sum

theorem compress_spec (k : ℕ) : ∀ {m : GateModule} {level carries : List NetId},
    level.length ≤ k → m.WellFormed → m.Closed →
    (∀ n : ℕ, n ∈ level ++ carries → n < m.nets.length) →
      Builds m (compress m level carries).1 (level ++ carries)
          ((compress m level carries).2.1 ++ (compress m level carries).2.2) ∧
        (compress m level carries).2.1.length = min level.length 1 ∧
        ∀ ρ, Solves (compress m level carries).1.nets (compress m level carries).1.cells ρ →
          ones ρ (compress m level carries).2.1 + 2 * ones ρ (compress m level carries).2.2 =
            ones ρ level + 2 * ones ρ carries := by
  induction k using Nat.strongRecOn with
  | ind k ih =>
  intro m level carries hk hm hclosed hexist
  match level with
  | [] =>
    rw [show compress m [] carries = (m, [], carries) by simp [compress]]
    exact ⟨Builds.refl hm hclosed hexist, rfl, fun _ _ => rfl⟩
  | [a] =>
    rw [show compress m [a] carries = (m, [a], carries) by simp [compress]]
    exact ⟨Builds.refl hm hclosed hexist, rfl, fun _ _ => rfl⟩
  | [a, b] =>
    have hab : [a, b] ⊆ [a, b] ++ carries := subset_append_left _ _
    obtain ⟨hbuild, hvalue⟩ := halfAdder_spec hm hclosed fun n hn => hexist n (hab hn)
    rw [compress]
    refine ⟨((Builds.refl hm hclosed hexist).trans hbuild hab).mono (List.Subset.refl _) ?_, rfl,
      fun ρ hρ => ?_⟩
    · intro n hn
      grind
    · have hsum := hvalue ρ hρ
      simp only [ones, map_append, map_cons, map_nil, sum_append, sum_cons, sum_nil]
      omega
  | a :: b :: c :: rest =>
    have habc : [a, b, c] ⊆ (a :: b :: c :: rest) ++ carries := fun n hn => by
      grind
    obtain ⟨hbuild, hvalue⟩ := fullAdder_spec hm hclosed fun n hn => hexist n (habc hn)
    have hstep := (Builds.refl hm hclosed hexist).trans hbuild habc
    rw [compress]
    have hlen : (rest ++ [(fullAdder m a b c).2.1]).length < k := by
      simp only [length_append, length_cons, length_nil] at hk ⊢
      omega
    have hins : rest ++ [(fullAdder m a b c).2.1] ++ (carries ++ [(fullAdder m a b c).2.2]) ⊆
        (a :: b :: c :: rest) ++ carries ++ [(fullAdder m a b c).2.1, (fullAdder m a b c).2.2] :=
      fun n hn => by
        grind
    obtain ⟨hrest, hlevel, hones⟩ := ih _ hlen (Nat.le_refl _) hbuild.rewrites.wellFormed
      hbuild.rewrites.closed fun n hn => hstep.exist n (hins hn)
    refine ⟨(hstep.trans hrest hins).mono (List.Subset.refl _) (subset_append_right _ _), ?_,
      fun ρ hρ => ?_⟩
    · rw [hlevel]
      simp only [length_append, length_cons, length_nil]
      omega
    · have hsum := hvalue ρ (hrest.rewrites.equations ρ hρ)
      rw [hones ρ hρ]
      simp only [ones, map_append, map_cons, map_nil, sum_append, sum_cons, sum_nil]
      omega

theorem popcount_spec (k : ℕ) : ∀ {m : GateModule} {bits : List NetId}, bits.length ≤ k →
    bits ≠ [] → m.WellFormed → m.Closed → (∀ n : ℕ, n ∈ bits → n < m.nets.length) →
      Builds m (popcount m bits).1 bits (popcount m bits).2 ∧
        ∀ ρ, Solves (popcount m bits).1.nets (popcount m bits).1.cells ρ →
          busValue ((popcount m bits).2.map ρ) = ones ρ bits := by
  induction k using Nat.strongRecOn with
  | ind k ih =>
  intro m bits hk hne hm hclosed hexist
  obtain ⟨hbuild, hlevel, hones⟩ := @compress_spec bits.length m bits [] (Nat.le_refl _) hm
    hclosed fun n hn => hexist n (by rwa [append_nil] at hn)
  rw [append_nil] at hbuild
  have hpos := length_pos_iff.2 hne
  rw [Nat.min_eq_right hpos] at hlevel
  obtain ⟨s, hs⟩ := length_eq_one_iff.1 hlevel
  have hshort := length_compress bits.length m bits [] (Nat.le_refl _)
  rw [length_nil, Nat.zero_add, Nat.max_eq_left hpos] at hshort
  rw [popcount]
  split
  · rename_i hcarries
    refine ⟨hbuild.mono (List.Subset.refl _) ?_, fun ρ hρ => ?_⟩
    · rw [hs, hcarries]
      exact List.Subset.refl _
    · have hsum := hones ρ hρ
      rw [hs, hcarries] at hsum
      simp only [hs, ones, headD_cons, map_cons, map_nil, sum_cons, sum_nil, busValue] at hsum ⊢
      omega
  · rename_i hcarries
    obtain ⟨hhigher, hvalue⟩ := ih _ (by omega) (Nat.le_refl _) hcarries hbuild.rewrites.wellFormed
      hbuild.rewrites.closed fun n hn => hbuild.exist n (mem_append_right _ hn)
    refine ⟨(hbuild.trans hhigher (subset_append_right _ _)).mono (List.Subset.refl _) ?_,
      fun ρ hρ => ?_⟩
    · intro n hn
      grind
    · have hsum := hones ρ (hhigher.rewrites.equations ρ hρ)
      have hrest := hvalue ρ hρ
      rw [hs] at hsum
      simp only [hs, headD_cons, map_cons, busValue, hrest]
      simp only [ones, map_cons, map_nil, sum_cons, sum_nil] at hsum ⊢
      omega

/-- The number on the bits of a bus from a place on, zeros above its top. -/
def window (ρ : NetId → Bool) (a : List NetId) : ℕ → ℕ → ℕ
  | 0, _ => 0
  | left + 1, i => (ρ (a.getD i netConst0)).toNat + 2 * window ρ a left (i + 1)

theorem window_eq {ρ : NetId → Bool} (hzero : ρ netConst0 = false) (a : List NetId) (left i : ℕ) :
    window ρ a left i = busValue ((a.drop i).map ρ) % 2 ^ left := by
  induction left generalizing i with
  | zero => exact (Nat.mod_one _).symm
  | succ left ih =>
    rw [window, ih, Nat.pow_succ, Nat.mul_comm _ 2, Nat.mod_mul]
    rcases Nat.lt_or_ge i a.length with hi | hi
    · have hbit := Bool.toNat_le (ρ a[i])
      rw [drop_eq_getElem_cons hi, map_cons, busValue, getD_eq_getElem _ _ hi]
      have hlow : ((ρ a[i]).toNat + 2 * busValue ((a.drop (i + 1)).map ρ)) % 2 =
          (ρ a[i]).toNat := by omega
      have hhigh : ((ρ a[i]).toNat + 2 * busValue ((a.drop (i + 1)).map ρ)) / 2 =
          busValue ((a.drop (i + 1)).map ρ) := by omega
      rw [hlow, hhigh]
    · rw [getD_eq_default _ _ hi, hzero, drop_eq_nil_of_le hi,
        drop_eq_nil_of_le (Nat.le_succ_of_le hi)]
      simp [busValue]

theorem addBits_succ (a b : List NetId) (left i : ℕ) (m : GateModule) (carry : NetId) :
    addBits a b (left + 1) i m carry =
      let x := a.getD i netConst0
      let y := b.getD i netConst0
      let xy := m.mkCell .xor2 [x, y]
      let sum := xy.1.mkCell .xor2 [xy.2, carry]
      if left = 0 then (sum.1, [sum.2])
      else
        let out := fullAdder m x y carry
        let rest := addBits a b left (i + 1) out.1 out.2.2
        (rest.1, out.2.1 :: rest.2) := rfl

/-- A sum of two buses: bit `k` is built from the bits up to `k`. -/
structure Sums (m m' : GateModule) (a b : List NetId) (carry : NetId) (left i : ℕ)
    (outs : List NetId) : Prop where
  rewrites : Rewrites m m'
  length_le : m.cells.length ≤ m'.cells.length
  length_eq : outs.length = left
  exist : ∀ n : ℕ, n ∈ outs → n < m'.nets.length
  value : ∀ ρ, Solves m'.nets m'.cells ρ → busValue (outs.map ρ) =
    (window ρ a left i + window ρ b left i + (ρ carry).toNat) % 2 ^ left
  ranks : ∀ r, m.Ranks r → ∃ r', m'.Ranks r' ∧ (∀ n : ℕ, n < m.nets.length → r' n = r n) ∧
    ∀ k n, outs[k]? = some n → ∀ x, r carry ≤ x →
      (∀ j ≤ i + k, r (a.getD j netConst0) ≤ x ∧ r (b.getD j netConst0) ≤ x) →
        r' n ≤ x + (m'.cells.length - m.cells.length)

theorem addBits_spec (a b : List NetId) (left : ℕ) : ∀ {i : ℕ} {m : GateModule} {carry : ℕ},
    m.WellFormed → m.Closed → carry < m.nets.length →
    (∀ j, (a.getD j netConst0 : ℕ) < m.nets.length ∧ (b.getD j netConst0 : ℕ) < m.nets.length) →
      Sums m (addBits a b left i m carry).1 a b carry left i (addBits a b left i m carry).2 := by
  induction left with
  | zero =>
    intro i m carry hm hclosed _ _
    refine ⟨Rewrites.refl hm hclosed, Nat.le_refl _, rfl, fun n hn => absurd hn not_mem_nil,
      fun ρ _ => (Nat.mod_one _).symm, fun r hr => ⟨r, hr, fun _ _ => rfl, fun k n h => ?_⟩⟩
    cases h
  | succ left ih =>
    intro i m carry hm hclosed hcarry hbits
    rw [addBits_succ]
    obtain ⟨hx, hy⟩ := hbits i
    generalize hxn : a.getD i netConst0 = x at hx
    generalize hyn : b.getD i netConst0 = y at hy
    have hins : ∀ n : ℕ, n ∈ [x, y, carry] → n < m.nets.length := fun n hn => by
      simp only [mem_cons, not_mem_nil, or_false] at hn
      obtain rfl | rfl | rfl := hn
      · exact hx
      · exact hy
      · exact hcarry
    have hle : ∀ (r : NetId → ℕ) (k z : ℕ), r carry ≤ z →
        (∀ j ≤ i + k, r (a.getD j netConst0) ≤ z ∧ r (b.getD j netConst0) ≤ z) →
          ∀ n ∈ [x, y, carry], r n ≤ z := fun r k z hc hz n hn => by
      obtain ⟨hza, hzb⟩ := hz i (Nat.le_add_right i k)
      rw [hxn] at hza
      rw [hyn] at hzb
      simp only [mem_cons, not_mem_nil, or_false] at hn
      obtain rfl | rfl | rfl := hn
      · exact hza
      · exact hzb
      · exact hc
    split
    · -- the top bit makes no carry
      rename_i hleft
      subst hleft
      let xy := m.mkCell .xor2 [x, y]
      let sum := xy.1.mkCell .xor2 [xy.2, carry]
      obtain ⟨hxy, -⟩ : Builds m xy.1 [x, y, carry] [x, y, carry, xy.2] ∧ _ :=
        (Builds.refl hm hclosed hins).mkCell .xor2 [x, y] rfl (by simp)
      obtain ⟨hsum, hstep⟩ : Builds m sum.1 [x, y, carry] [x, y, carry, xy.2, sum.2] ∧
          Rewrites xy.1 sum.1 := hxy.mkCell .xor2 [xy.2, carry] rfl (by simp)
      have houts : sum.2 ∈ [x, y, carry, xy.2, sum.2] := by simp
      refine ⟨hsum.rewrites, hsum.length_le, rfl, fun n hn => hsum.exist n ?_, fun ρ hρ => ?_,
        fun r hr => ?_⟩
      · obtain rfl := mem_singleton.1 hn
        exact houts
      · have hs : ρ sum.2 = (ρ xy.2 ^^ ρ carry) := mkCell_value hρ
        have hxor : ρ xy.2 = (ρ x ^^ ρ y) := mkCell_value (hstep.equations ρ hρ)
        show (ρ sum.2).toNat + 2 * 0 = _
        rw [hs, hxor]
        simp only [window, hxn, hyn]
        cases ρ x <;> cases ρ y <;> cases ρ carry <;> rfl
      · obtain ⟨r', hr', hold, hbound⟩ := hsum.ranks r hr
        refine ⟨r', hr', hold, fun k n hk z hc hz => hbound n ?_ z (hle r k z hc hz)⟩
        obtain rfl := mem_singleton.1 (mem_of_getElem? hk)
        exact houts
    · dsimp only
      obtain ⟨hadd, hvalue⟩ := fullAdder_spec hm hclosed hins
      have hgrow := hadd.rewrites.length_le
      obtain ⟨hrest, hlen, hlength, hexist, hrestValue, hranks⟩ := ih (i := i + 1)
        hadd.rewrites.wellFormed hadd.rewrites.closed
        (hadd.exist _ (mem_cons_of_mem _ (mem_singleton_self _)))
        fun j => ⟨Nat.lt_of_lt_of_le (hbits j).1 hgrow, Nat.lt_of_lt_of_le (hbits j).2 hgrow⟩
      have hsumNet : ((fullAdder m x y carry).2.1 : ℕ) < (fullAdder m x y carry).1.nets.length :=
        hadd.exist _ (mem_cons_self ..)
      have hlen' := hadd.length_le
      refine ⟨hadd.rewrites.trans hrest, Nat.le_trans hlen' hlen, congrArg Nat.succ hlength,
        fun n hn => ?_, fun ρ hρ => ?_, fun r hr => ?_⟩
      · rcases mem_cons.1 hn with rfl | hn
        · exact Nat.lt_of_lt_of_le hsumNet hrest.length_le
        · exact hexist n hn
      · have hbit := hvalue ρ (hrest.equations ρ hρ)
        have hhigh := hrestValue ρ hρ
        have hsmall := Bool.toNat_le (ρ (fullAdder m x y carry).2.1)
        rw [map_cons, busValue, hhigh, window, window, hxn, hyn, Nat.pow_succ,
          Nat.mul_comm _ 2, Nat.mod_mul]
        congr 1
        · omega
        · congr 2
          omega
      · obtain ⟨r', hr', hold, hbound⟩ := hadd.ranks r hr
        obtain ⟨r'', hr'', hold', hbound'⟩ := hranks r' hr'
        refine ⟨r'', hr'', fun n hn => ?_, fun k n hk z hc hz => ?_⟩
        · rw [hold' n (Nat.lt_of_lt_of_le hn hgrow), hold n hn]
        cases k with
        | zero =>
          obtain rfl := some.inj hk
          rw [hold' _ hsumNet]
          have hsum := hbound _ (mem_cons_self ..) z (hle r 0 z hc hz)
          omega
        | succ k =>
          have hnext := hbound' k n hk (z + ((fullAdder m x y carry).1.cells.length -
            m.cells.length)) (hbound _ (mem_cons_of_mem _ (mem_singleton_self _)) z
              (hle r (k + 1) z hc hz)) fun j hj => by
            obtain ⟨hja, hjb⟩ := hz j (by omega)
            rw [hold _ (hbits j).1, hold _ (hbits j).2]
            exact ⟨Nat.le_trans hja (Nat.le_add_right _ _),
              Nat.le_trans hjb (Nat.le_add_right _ _)⟩
          omega

/-- A product of nets and inverted nets. -/
def condValue (ρ : NetId → Bool) (terms : List (NetId × Bool)) : Bool :=
  terms.all fun t => ρ t.1 ^^ t.2

/-- The product of the terms so far. -/
structure Product (m : GateModule) (ins : List NetId) (st : GateModule × Option NetId)
    (terms : List (NetId × Bool)) : Prop where
  builds : Builds m st.1 ins (ins ++ st.2.toList)
  value : ∀ ρ, Solves st.1.nets st.1.cells ρ → ∀ n ∈ st.2, ρ n = condValue ρ terms
  isSome : terms ≠ [] → st.2.isSome

theorem Product.step {st : GateModule × Option NetId}
    (h : Product m ins st terms) (term : NetId × Bool) (hterm : term.1 ∈ ins)
    (hnone : st.2 = none → terms = []) :
    Product m ins (materializeTerm st term) (terms ++ [term]) := by
  -- the literal of the term
  have hlit : ∃ lit : GateModule × NetId,
      lit = (if term.2 then st.1.mkCell .not [term.1] else (st.1, term.1)) ∧
        Builds m lit.1 ins (ins ++ st.2.toList ++ [lit.2]) ∧ Rewrites st.1 lit.1 ∧
          ∀ ρ, Solves lit.1.nets lit.1.cells ρ → ρ lit.2 = (ρ term.1 ^^ term.2) := by
    refine ⟨_, rfl, ?_⟩
    cases hinv : term.2 with
    | true =>
      obtain ⟨hbuild, hstep⟩ := h.builds.mkCell .not [term.1] rfl
        fun n hn => mem_append_left _ (mem_singleton.1 hn ▸ hterm)
      exact ⟨hbuild, hstep, fun ρ hρ => (mkCell_value hρ).trans (Bool.xor_true _).symm⟩
    | false =>
      refine ⟨h.builds.mono (List.Subset.refl _) ?_, Rewrites.refl h.builds.rewrites.wellFormed
        h.builds.rewrites.closed, fun ρ _ => (Bool.xor_false _).symm⟩
      intro n hn
      rcases mem_append.1 hn with hn | hn
      · exact hn
      · exact mem_append_left _ (mem_singleton.1 hn ▸ hterm)
  obtain ⟨lit, hlit, hbuild, hstep, hvalue⟩ := hlit
  unfold materializeTerm
  rw [← hlit]
  have hall : ∀ ρ, condValue ρ (terms ++ [term]) = (condValue ρ terms && (ρ term.1 ^^ term.2)) :=
    fun ρ => by rw [condValue, all_append, condValue, all_cons, all_nil, Bool.and_true]
  cases hacc : st.2 with
  | none =>
    refine ⟨hbuild.mono (List.Subset.refl _) ?_, fun ρ hρ n hn => ?_, fun _ => rfl⟩
    · rw [hacc]
      simp
    · obtain rfl := some.inj hn
      rw [hvalue ρ hρ, hall, hnone hacc]
      rfl
  | some acc =>
    have hmem : [acc, lit.2] ⊆ ins ++ st.2.toList ++ [lit.2] := by
      rw [hacc]
      simp
    obtain ⟨hbuild', hstep'⟩ := hbuild.mkCell .and2 [acc, lit.2] rfl hmem
    refine ⟨hbuild'.mono (List.Subset.refl _) ?_, fun ρ hρ n hn => ?_, fun _ => rfl⟩
    · intro n hn
      grind
    · obtain rfl := some.inj hn
      have hlast := hstep'.equations ρ hρ
      have hand : ρ (lit.1.mkCell .and2 [acc, lit.2]).2 = (ρ acc && ρ lit.2) := mkCell_value hρ
      rw [hand, hvalue ρ hlast, hall, h.value ρ (hstep.equations ρ hlast) acc hacc]

theorem materializeCond_spec (hne : terms ≠ [])
    (hterms : ∀ t ∈ terms, t.1 ∈ ins) (hm : m.WellFormed) (hclosed : m.Closed)
    (hexist : ∀ n : ℕ, n ∈ ins → n < m.nets.length) :
    Builds m (materializeCond m terms).1 ins (ins ++ [(materializeCond m terms).2]) ∧
      ∀ ρ, Solves (materializeCond m terms).1.nets (materializeCond m terms).1.cells ρ →
        ρ (materializeCond m terms).2 = condValue ρ terms := by
  have hfold : ∀ (rest done : List (NetId × Bool)) (st : GateModule × Option NetId),
      (∀ t ∈ rest, t.1 ∈ ins) → Product m ins st done → (st.2 = none → done = []) →
        Product m ins (rest.foldl materializeTerm st) (done ++ rest) := fun rest => by
    induction rest with
    | nil =>
      intro done st _ h _
      rwa [append_nil]
    | cons term rest ih =>
      intro done st hin h hnone
      have hstep := h.step term (hin term (mem_cons_self ..)) hnone
      rw [foldl_cons, append_cons]
      refine ih _ _ (fun t ht => hin t (mem_cons_of_mem _ ht)) hstep fun hnil => ?_
      have hsome := hstep.isSome (by simp)
      rw [hnil] at hsome
      cases hsome
  have h := hfold terms [] (m, none) hterms
    ⟨(Builds.refl hm hclosed hexist).mono (List.Subset.refl _) (by simp),
      fun ρ _ n hn => (nomatch hn), fun h => absurd rfl h⟩ fun _ => rfl
  obtain ⟨n, hn⟩ := isSome_iff_exists.1 (h.isSome hne)
  unfold materializeCond
  dsimp only
  rw [hn, getD_some]
  refine ⟨?_, fun ρ hρ => h.value ρ hρ n hn⟩
  have hbuilds := h.builds
  rwa [hn] at hbuilds

theorem materializeConds_spec {conds : List (List (NetId × Bool))}
    (hne : ∀ terms ∈ conds, terms ≠ [])
    (hterms : ∀ terms ∈ conds, ∀ t ∈ terms, t.1 ∈ ins) (hm : m.WellFormed) (hclosed : m.Closed)
    (hexist : ∀ n : ℕ, n ∈ ins → n < m.nets.length) :
    Builds m (materializeConds m conds).1 ins (ins ++ (materializeConds m conds).2) ∧
      ∀ ρ, Solves (materializeConds m conds).1.nets (materializeConds m conds).1.cells ρ →
        (materializeConds m conds).2.map ρ = conds.map (condValue ρ) := by
  induction conds generalizing m with
  | nil =>
    refine ⟨(Builds.refl hm hclosed hexist).mono (List.Subset.refl _) ?_, fun _ _ => rfl⟩
    rw [materializeConds, append_nil]
    exact List.Subset.refl _
  | cons terms rest ih =>
    obtain ⟨hcond, hvalue⟩ := materializeCond_spec (hne terms (mem_cons_self ..))
      (hterms terms (mem_cons_self ..)) hm hclosed hexist
    obtain ⟨hconds, hvalues⟩ := ih (m := (materializeCond m terms).1)
      (fun t ht => hne t (mem_cons_of_mem _ ht))
      (fun t ht => hterms t (mem_cons_of_mem _ ht)) hcond.rewrites.wellFormed
      hcond.rewrites.closed fun n hn =>
        Nat.lt_of_lt_of_le (hexist n hn) hcond.rewrites.length_le
    rw [materializeConds]
    refine ⟨(hcond.trans hconds (subset_append_left _ _)).mono (List.Subset.refl _) ?_,
      fun ρ hρ => ?_⟩
    · intro n hn
      grind
    · rw [map_cons, map_cons, hvalues ρ hρ, hvalue ρ (hconds.rewrites.equations ρ hρ)]

end Networks

end Veryl.Synthesizer
