import Veryl.Synthesizer.Prefix

/-!
A rebuilt scan chain keeps the value of every net, and reads only what lies below
the cells it replaces.
-/

namespace Veryl.Synthesizer

open List Option Function Prod
open GateModule (setCell)

variable {n p : NetId} {innerKind : CellKind} {m' : GateModule} {outs : List NetId} {c0 : ℕ}
  {rest : List ℕ}

variable {x : NetId} {ρ : NetId → Bool} {st out : GateModule × Bool} {k i : ℕ} {m : GateModule}
  {chain : List ℕ} {a : NetId} {done : List ℕ}

section Absorb

variable {m : GateModule} {r : NetId → ℕ} {ci : ℕ} {cell : Cell} {kind : CellKind}
  {inputs : List NetId}

theorem length_two (h : inputs.length = 2) : inputs = [netAt inputs 0, netAt inputs 1] := by
  obtain ⟨a, b, rfl⟩ := length_eq_two.1 h
  rfl

theorem mem_orders (h : (x, a) ∈ orders inputs) (hlen : inputs.length = 2) :
    x ∈ inputs ∧ a ∈ inputs ∧ (inputs = [x, a] ∨ inputs = [a, x]) := by
  obtain ⟨b, c, rfl⟩ := length_eq_two.1 hlen
  simp only [orders, netAt, getD_cons_zero, getD_cons_succ, mem_cons, Prod.mk.injEq,
    not_mem_nil, or_false] at h
  obtain ⟨rfl, rfl⟩ | ⟨rfl, rfl⟩ := h
  · simp
  · simp

theorem notDrives_value (hm : m.WellFormed) {target : NetId} (h : notDrives m n target = true)
    (hρ : ∀ c ∈ m.cells, c.kind = .not → ρ c.output = c.kind.eval (c.inputs.map ρ)) :
    ρ n = !ρ target := by
  unfold notDrives at h
  split at h
  · rename_i i c hc
    obtain ⟨hi, hout⟩ := driverCell_eq hm hc
    rw [Bool.and_eq_true, decide_eq_true_eq, decide_eq_true_eq] at h
    obtain ⟨hkind, htarget⟩ := h
    have hmem := mem_of_getElem? hi
    have hlen := hm.arity c hmem
    have heq := hρ c hmem hkind
    rw [hkind] at heq hlen
    obtain ⟨a, ha⟩ := length_eq_one_iff.1 hlen
    rw [ha] at heq htarget
    rw [← hout, heq, ← htarget]
    rfl
  · cases h

theorem complementary_value (hm : m.WellFormed) (h : complementary m p a = true)
    (hρ : ∀ c ∈ m.cells, c.kind = .not → ρ c.output = c.kind.eval (c.inputs.map ρ)) :
    ρ p = !ρ a := by
  rcases Bool.or_eq_true_iff.1 h with h | h
  · exact notDrives_value hm h hρ
  · rw [notDrives_value hm h hρ, Bool.not_not]

/-- What absorption makes of a cell. -/
structure Absorbed (m : GateModule) (cell : Cell) (kind : CellKind) (inputs : List NetId) : Prop where
  dual : cell.kind = .and2 ∨ cell.kind = .or2
  arity : inputs.length = kind.arity
  live : kind = .buf ∧ (∃ a ∈ cell.inputs, inputs = [a]) ∨
    kind = cell.kind ∧ ∃ x a q, (cell.inputs = [x, a] ∨ cell.inputs = [a, x]) ∧ inputs = [q, a] ∧
      ∃ inner ∈ m.cells, inner.output = x ∧ q ∈ inner.inputs
  value : ∀ ρ : NetId → Bool,
    (∀ c ∈ m.cells, c.kind ≠ cell.kind → ρ c.output = c.kind.eval (c.inputs.map ρ)) →
      cell.kind.eval (cell.inputs.map ρ) = kind.eval (inputs.map ρ)

/-- `a | (a & b)` is `a`, and `a | (!a & b)` is `a | b`; so for the duals. -/
theorem absorb_value {q : NetId} {inner : List NetId}
    (hkind : cell.kind = .and2 ∧ innerKind = .or2 ∨ cell.kind = .or2 ∧ innerKind = .and2)
    (hinputs : inputs = [x, a] ∨ inputs = [a, x]) (hinner : inner = [p, q] ∨ inner = [q, p])
    (hx : ρ x = innerKind.eval (inner.map ρ)) :
    (p = a → cell.kind.eval (inputs.map ρ) = CellKind.buf.eval ([p].map ρ)) ∧
      (ρ p = !ρ a → cell.kind.eval (inputs.map ρ) = cell.kind.eval ([q, a].map ρ)) := by
  rcases hinputs with rfl | rfl <;> rcases hinner with rfl | rfl
  all_goals
    obtain ⟨hk, rfl⟩ | ⟨hk, rfl⟩ := hkind
    all_goals
      rw [hk]
      simp only [map_cons, map_nil, CellKind.eval] at hx ⊢
      rw [hx]
      refine ⟨fun hpa => ?_, fun hpa => ?_⟩
      · subst hpa
        cases ρ p <;> simp
      · rw [hpa]
        cases ρ a <;> simp

theorem absorbInner_spec (hm : m.WellFormed) (hcell : cell ∈ m.cells)
    (hdual : dualKind cell.kind = some innerKind) (hxa : (x, a) ∈ orders cell.inputs)
    (h : absorbInner m cell.kind innerKind x a = some (kind, inputs)) :
    Absorbed m cell kind inputs := by
  have hkind : cell.kind = .and2 ∧ innerKind = .or2 ∨ cell.kind = .or2 ∧ innerKind = .and2 := by
    cases hk : cell.kind <;> rw [hk] at hdual <;> simp [dualKind] at hdual <;> simp [hdual]
  have hlen : cell.inputs.length = 2 := by
    rw [hm.arity cell hcell]
    obtain ⟨hk, -⟩ | ⟨hk, -⟩ := hkind <;> rw [hk] <;> rfl
  obtain ⟨-, hain, hinputs⟩ := mem_orders hxa hlen
  unfold absorbInner at h
  split at h
  · rename_i i inner hinner
    obtain ⟨hi, hout⟩ := driverCell_eq hm hinner
    have hmem := mem_of_getElem? hi
    split at h
    · cases h
    rename_i hik
    rw [not_not] at hik
    have hilen : inner.inputs.length = 2 := by
      rw [hm.arity inner hmem, hik]
      obtain ⟨-, hk⟩ | ⟨-, hk⟩ := hkind <;> rw [hk] <;> rfl
    have hne : inner.kind ≠ cell.kind := by
      rw [hik]
      obtain ⟨hk, hk'⟩ | ⟨hk, hk'⟩ := hkind <;> rw [hk, hk'] <;> decide
    obtain ⟨pq, hpq, hsome⟩ := exists_of_findSome?_eq_some h
    obtain ⟨p, q⟩ := pq
    obtain ⟨-, hqin, hinner'⟩ := mem_orders hpq hilen
    split at hsome
    · rename_i hpa
      subst hpa
      obtain ⟨rfl, rfl⟩ := mk.inj (some.inj hsome)
      refine ⟨hkind.imp And.left And.left, rfl, .inl ⟨rfl, p, hain, rfl⟩, fun ρ hρ => ?_⟩
      have hx := hρ inner hmem hne
      rw [hout, hik] at hx
      exact (absorb_value hkind hinputs hinner' hx).1 rfl
    · split at hsome
      · rename_i hcomp
        obtain ⟨rfl, rfl⟩ := mk.inj (some.inj hsome)
        refine ⟨hkind.imp And.left And.left, ?_, .inr ⟨rfl, x, a, q, hinputs, rfl, inner, hmem,
          hout, hqin⟩, fun ρ hρ => ?_⟩
        · rw [← hm.arity cell hcell, hlen]
          rfl
        · have hx := hρ inner hmem hne
          have hp := complementary_value hm hcomp fun c hc hk => hρ c hc (by
            rw [hk]
            obtain ⟨hk, -⟩ | ⟨hk, -⟩ := hkind <;> rw [hk] <;> decide)
          rw [hout, hik] at hx
          exact (absorb_value hkind hinputs hinner' hx).2 hp
      · cases hsome
  · cases h

theorem absorbCell_spec (hm : m.WellFormed) (h : absorbCell m ci = some (kind, inputs)) :
    ∃ cell, m.cells[ci]? = some cell ∧ Absorbed m cell kind inputs := by
  unfold absorbCell at h
  split at h
  · rename_i cell hcell
    refine ⟨cell, hcell, ?_⟩
    split at h
    · rename_i innerKind hdual
      obtain ⟨xa, hxa, hsome⟩ := exists_of_findSome?_eq_some h
      exact absorbInner_spec hm (mem_of_getElem? hcell) hdual hxa hsome
    · cases h
  · cases h

/-- The ranks of what the gates read that can still be absorbed. -/
def absorbWeight (r : NetId → ℕ) (cells : List Cell) : ℕ :=
  (cells.map fun c => if (dualKind c.kind).isSome then 1 + (c.inputs.map r).sum else 0).sum

section

variable (h : Absorbed m cell kind inputs)

include h

theorem Absorbed.weight_lt (hr : m.Ranks r) (hcell : m.cells[ci]? = some cell) :
    absorbWeight r (m.setCell ci kind inputs).cells < absorbWeight r m.cells := by
  obtain ⟨xs, ys, heq, hset⟩ := set_split hcell
  have hlive : (dualKind cell.kind).isSome = true := by
    obtain hk | hk := h.dual <;> rw [hk] <;> rfl
  unfold setCell
  rw [hcell]
  dsimp only
  rw [hset, heq]
  unfold absorbWeight
  simp only [map_append, map_cons, sum_append, sum_cons, hlive, if_true]
  obtain ⟨rfl, -⟩ | ⟨rfl, x, a, q, hinputs, rfl, inner, hmem, rfl, hq⟩ := h.live
  · simp only [dualKind, isSome_none, Bool.false_eq_true, if_false]
    omega
  · have hlt := hr inner hmem q hq
    rw [hlive, if_pos rfl]
    obtain hin | hin := hinputs
    · simp only [hin, map_cons, map_nil, sum_cons, sum_nil]
      omega
    · simp only [hin, map_cons, map_nil, sum_cons, sum_nil]
      omega

theorem Absorbed.reads (hclosed : m.Closed) (hr : m.Ranks r)
    (hcell : cell ∈ m.cells) {n : ℕ} (hn : n ∈ inputs) :
    n < m.nets.length ∧ r n < r cell.output := by
  have hread : ∀ n : ℕ, n ∈ cell.inputs → n < m.nets.length ∧ r n < r cell.output := fun n hn =>
    ⟨input_lt hclosed hcell hn, hr cell hcell n hn⟩
  obtain ⟨rfl, a, ha, rfl⟩ | ⟨rfl, x, a, q, hinputs, rfl, inner, hmem, rfl, hq⟩ := h.live
  · obtain rfl := mem_singleton.1 hn
    exact hread n ha
  · have hx : inner.output ∈ cell.inputs := by obtain hin | hin := hinputs <;> rw [hin] <;> simp
    have ha : a ∈ cell.inputs := by obtain hin | hin := hinputs <;> rw [hin] <;> simp
    simp only [mem_cons, not_mem_nil, or_false] at hn
    obtain rfl | rfl := hn
    · exact ⟨input_lt hclosed hmem hq, Nat.lt_trans (hr inner hmem n hq) (hread _ hx).2⟩
    · exact hread n ha

theorem Absorbed.rewrites (hm : m.WellFormed)
    (hclosed : m.Closed) (hr : m.Ranks r) (hcell : m.cells[ci]? = some cell) :
    Rewrites m (m.setCell ci kind inputs) ∧ (m.setCell ci kind inputs).Ranks r := by
  have hmem := mem_of_getElem? hcell
  refine ⟨rewrites_setCell hm hclosed hcell h.arity
    (fun n hn => (h.reads hclosed hr hmem hn).1) fun ρ hρ => ?_,
    ranks_setCell hr hcell fun n hn => (h.reads hclosed hr hmem hn).2⟩
  have hcells : (m.setCell ci kind inputs).cells = m.cells.set ci ⟨kind, inputs, cell.output⟩ := by
    unfold setCell
    rw [hcell]
  have hnew := hρ.cell_eq ⟨kind, inputs, cell.output⟩ (by
    rw [hcells]
    exact mem_of_getElem? (getElem?_set_self (List.getElem?_eq_some_iff.1 hcell).1))
  rw [h.value ρ fun c hc hkind => hρ.cell_eq c ?_]
  · exact hnew
  · -- a cell of another kind is not the one rewritten
    obtain ⟨j, hj⟩ := mem_iff_getElem?.1 hc
    have hij : ci ≠ j := by
      rintro rfl
      exact hkind (by rw [some.inj (hj.symm.trans hcell)])
    rw [hcells]
    exact mem_of_getElem? ((getElem?_set_ne hij).trans hj)

end

/-- What absorption keeps; a change lowers the weight. -/
structure Absorbing (m : GateModule) (r : NetId → ℕ) (st : GateModule × Bool) : Prop where
  rewrites : Rewrites m st.1
  ranks : st.1.Ranks r
  weight : if st.2 then absorbWeight r st.1.cells < absorbWeight r m.cells else st.1 = m

theorem absorbing_visit (h : Absorbing m r st) (ci : ℕ) : Absorbing m r (absorbVisit st ci) := by
  unfold absorbVisit
  split
  · rename_i kind inputs hsome
    obtain ⟨cell, hcell, habs⟩ := absorbCell_spec h.rewrites.wellFormed hsome
    obtain ⟨hrewrites, hranks⟩ :=
      habs.rewrites h.rewrites.wellFormed h.rewrites.closed h.ranks hcell
    refine ⟨h.rewrites.trans hrewrites, hranks, ?_⟩
    have hlt := habs.weight_lt h.ranks hcell
    have hle : absorbWeight r st.1.cells ≤ absorbWeight r m.cells := by
      have hweight := h.weight
      split at hweight
      · exact Nat.le_of_lt hweight
      · exact Nat.le_of_eq (by rw [hweight])
    exact Nat.lt_of_lt_of_le hlt hle
  · exact h

theorem absorbing_pass (hm : m.WellFormed) (hclosed : m.Closed) (hr : m.Ranks r) :
    Absorbing m r (absorbPass m) := by
  unfold absorbPass
  generalize List.range m.cells.length = is
  suffices h : ∀ st, Absorbing m r st → Absorbing m r (is.foldl absorbVisit st) from
    h _ ⟨Rewrites.refl hm hclosed, hr, rfl⟩
  induction is with
  | nil => exact fun st h => h
  | cons ci is ih => exact fun st h => ih _ (absorbing_visit h ci)

theorem absorbComplement_ends (hm : m.WellFormed) (hclosed : m.Closed) (hr : m.Ranks r) (k : ℕ)
    (hk : absorbWeight r m.cells < k) : ∃ out, absorbComplement k m = some out := by
  induction k generalizing m with
  | zero => exact absurd hk (Nat.not_lt_zero _)
  | succ k ih =>
    have hpass := absorbing_pass hm hclosed hr
    unfold absorbComplement
    split
    · rename_i hchanged
      have hlt := hpass.weight
      rw [if_pos hchanged] at hlt
      obtain ⟨out, hout⟩ :=
        ih hpass.rewrites.wellFormed hpass.rewrites.closed hpass.ranks (by omega)
      exact ⟨_, by rw [hout, map_some]⟩
    · exact ⟨_, rfl⟩

theorem absorbComplement_rewrites (hm : m.WellFormed) (hclosed : m.Closed) (hr : m.Ranks r)
    (h : absorbComplement k m = some out) :
    Rewrites m out.1 ∧ out.1.Ranks r := by
  induction k generalizing m out with
  | zero => cases h
  | succ k ih =>
    have hpass := absorbing_pass hm hclosed hr
    unfold absorbComplement at h
    split at h
    · obtain ⟨last, hlast, rfl⟩ := map_eq_some_iff.1 h
      obtain ⟨hrewrites, hranks⟩ :=
        ih hpass.rewrites.wellFormed hpass.rewrites.closed hpass.ranks hlast
      exact ⟨hpass.rewrites.trans hrewrites, hranks⟩
    · obtain rfl := some.inj h
      exact ⟨hpass.rewrites, hpass.ranks⟩

end Absorb

section Scans

variable {α : Type*} {f : α → α → α}

theorem map_scanl (hassoc : ∀ a b c, f (f a b) c = f a (f b c)) (c x : α) (xs : List α) :
    (List.scanl f x xs).map (f c) = List.scanl f (f c x) xs := by
  induction xs generalizing x with
  | nil => rfl
  | cons y ys ih => rw [scanl_cons, scanl_cons, map_cons, ih, hassoc]

/-- The law of the network: the prefixes of the right half go on from the last
prefix of the left half. -/
theorem scanl_halves (hassoc : ∀ a b c, f (f a b) c = f a (f b c)) (x y : α) (xs ys : List α) :
    List.scanl f x (xs ++ y :: ys) =
      List.scanl f x xs ++ (List.scanl f y ys).map (f (xs.foldl f x)) := by
  rw [scanl_append, scanl_cons, tail_cons, map_scanl hassoc]

theorem head_of_scanl {y z : α} {ys l : List α} (h : y :: ys = List.scanl f z l) : y = z := by
  have hhead := congrArg List.head? h
  rw [head?_scanl] at hhead
  exact some.inj hhead

end Scans

section Networks

variable {kind : CellKind}

section

variable (h : isAssoc kind = true)

include h

theorem isAssoc_cases : kind = .and2 ∨ kind = .or2 ∨ kind = .xor2 := by
  cases kind <;> simp [isAssoc] at h ⊢

theorem arity_of_isAssoc : kind.arity = 2 := by
  obtain rfl | rfl | rfl := isAssoc_cases h <;> rfl

theorem eval_assoc (a b c : Bool) :
    kind.eval [kind.eval [a, b], c] = kind.eval [a, kind.eval [b, c]] := by
  obtain rfl | rfl | rfl := isAssoc_cases h
  · exact Bool.and_assoc a b c
  · exact Bool.or_assoc a b c
  · exact Bool.xor_assoc a b c

theorem eval_comm (a b : Bool) : kind.eval [a, b] = kind.eval [b, a] := by
  obtain rfl | rfl | rfl := isAssoc_cases h
  · exact Bool.and_comm a b
  · exact Bool.or_comm a b
  · exact Bool.xor_comm a b

end

/-- Cells added after those of a module, some of their nets picked out. -/
structure Network (m m' : GateModule) (outs : List NetId) : Prop where
  rewrites : Rewrites m m'
  cells : ∃ added, m'.cells = m.cells ++ added
  exist : ∀ n : ℕ, n ∈ outs → n < m'.nets.length

theorem Network.trans {m'' : GateModule} {outs' : List NetId} (h : Network m m' outs)
    (h' : Network m' m'' outs') : Network m m'' (outs ++ outs') := by
  obtain ⟨added, hadded⟩ := h.cells
  obtain ⟨added', hadded'⟩ := h'.cells
  refine ⟨h.rewrites.trans h'.rewrites, ⟨added ++ added', by rw [hadded', hadded, append_assoc]⟩,
    fun n hn => ?_⟩
  rcases mem_append.1 hn with hn | hn
  · exact Nat.lt_of_lt_of_le (h.exist n hn) h'.rewrites.length_le
  · exact h'.exist n hn

/-- Ranks of the added nets: those of the module stay, the ones picked out are
within their bounds. -/
structure Fits (m m' : GateModule) (outs : List NetId) (r r' : NetId → ℕ) (bound : ℕ → ℕ) : Prop where
  ranks : m'.Ranks r'
  old : ∀ n : ℕ, n < m.nets.length → r' n = r n
  le : ∀ i n, outs[i]? = some n → r' n ≤ bound i

/-- The cells from a place on follow their equations. -/
def ObeysFrom (k : ℕ) (cells : List Cell) (ρ : NetId → Bool) : Prop :=
  ∀ i c, k ≤ i → cells[i]? = some c → ρ c.output = c.kind.eval (c.inputs.map ρ)

theorem ObeysFrom.of_append {k' : ℕ} {cells cells' added : List Cell}
    (h : ObeysFrom k cells' ρ) (hcells : cells' = cells ++ added) (hk : k ≤ k') :
    ObeysFrom k' cells ρ := fun i c hi hc =>
  h i c (Nat.le_trans hk hi) (by
    rw [hcells, getElem?_append_left (List.getElem?_eq_some_iff.1 hc).1]
    exact hc)

theorem combine_spec (harity : kind.arity = 2) (rs : List NetId) {carry : ℕ}
    (outs : List NetId) (hm : m.WellFormed) (hclosed : m.Closed) (hcarry : carry < m.nets.length)
    (hrs : ∀ n : ℕ, n ∈ rs → n < m.nets.length) :
    ∃ m' news, rs.foldl (combine kind carry) (m, outs) = (m', outs ++ news) ∧
      Network m m' news ∧ news.length = rs.length ∧
      (∀ ρ, ObeysFrom m.cells.length m'.cells ρ → news.map ρ = rs.map fun n => kind.eval [ρ carry, ρ n]) ∧
      ∀ r bound, m.Ranks r → (∀ i n, rs[i]? = some n → r n < bound i ∧ r carry < bound i) →
        ∃ r', Fits m m' news r r' bound := by
  induction rs generalizing m outs with
  | nil =>
    refine ⟨m, [], by rw [foldl_nil, append_nil], ⟨Rewrites.refl hm hclosed,
      ⟨[], (append_nil _).symm⟩, fun n hn => absurd hn not_mem_nil⟩, rfl, fun _ _ => rfl,
      fun r bound hr _ => ⟨r, hr, fun _ _ => rfl, fun i n h => ?_⟩⟩
    cases h
  | cons n rest ih =>
    have hn := hrs n (mem_cons_self ..)
    have hinputs : ∀ k : ℕ, k ∈ [carry, n] → k < m.nets.length := fun k hk => by
      simp only [mem_cons, not_mem_nil, or_false] at hk
      obtain rfl | rfl := hk
      · exact hcarry
      · exact hn
    have hstep : Rewrites m (m.mkCell kind [carry, n]).1 :=
      rewrites_mkCell hm hclosed harity.symm hinputs
    have hlen : (m.mkCell kind [carry, n]).1.nets.length = m.nets.length + 1 := by
      show (m.nets ++ [_]).length = _
      rw [length_append, length_singleton]
    obtain ⟨m', news, hfold, hnet, hlength, hvalue, hrank⟩ := ih (m := (m.mkCell kind [carry, n]).1)
      (outs ++ [m.nets.length]) hstep.wellFormed hstep.closed (by omega) fun k hk => by
        have hk := hrs k (mem_cons_of_mem _ hk)
        omega
    have hfirst : Network m (m.mkCell kind [carry, n]).1 [m.nets.length] :=
      ⟨hstep, ⟨_, rfl⟩, fun k hk => by
        obtain rfl := mem_singleton.1 hk
        omega⟩
    refine ⟨m', m.nets.length :: news, ?_, hfirst.trans hnet, congrArg Nat.succ hlength,
      fun ρ hρ => ?_,        fun r bound hr hbound => ?_⟩
    · rw [foldl_cons]
      show rest.foldl (combine kind carry) ((m.mkCell kind [carry, n]).1, outs ++ [m.nets.length]) = _
      rw [hfold, append_assoc]
      rfl
    · obtain ⟨added, hadded⟩ := hnet.cells
      have hcell : m'.cells[m.cells.length]? = some ⟨kind, [carry, n], m.nets.length⟩ := by
        rw [hadded]
        show ((m.cells ++ [_]) ++ added)[_]? = _
        rw [append_assoc, getElem?_append_right (Nat.le_refl _), Nat.sub_self]
        rfl
      have hnew := hρ _ _ (Nat.le_refl _) hcell
      rw [map_cons, map_cons, hvalue ρ fun i c hi hc => hρ i c ?_ hc]
      · exact congrArg (· :: _) hnew
      · exact Nat.le_trans (by
          show m.cells.length ≤ (m.cells ++ [_]).length
          rw [length_append]
          omega) hi
    · have hzero := hbound 0 n rfl
      have hr' : (m.mkCell kind [carry, n]).1.Ranks (Function.update r m.nets.length (bound 0)) :=
        ranks_mkCell hm hclosed hr fun k hk => by
          refine ⟨hinputs k hk, ?_⟩
          simp only [mem_cons, not_mem_nil, or_false] at hk
          obtain rfl | rfl := hk
          · exact hzero.2
          · exact hzero.1
      have hold : ∀ k : ℕ, k < m.nets.length →
          Function.update r m.nets.length (bound 0) k = r k := fun k hk =>
        update_of_ne (Nat.ne_of_lt hk) _ _
      obtain ⟨r', hfits⟩ := hrank _ (fun i => bound (i + 1)) hr' fun i k hk => by
        have hmem := mem_of_getElem? hk
        rw [hold k (hrs k (mem_cons_of_mem _ hmem)), hold carry hcarry]
        exact hbound (i + 1) k (by rw [getElem?_cons_succ, hk])
      refine ⟨r', hfits.ranks, fun k hk => ?_, fun i k hk => ?_⟩
      · rw [hfits.old k (by omega), hold k hk]
      cases i with
      | zero =>
        obtain rfl := some.inj hk
        exact Nat.le_of_eq (by rw [hfits.old _ (by omega), update_self])
      | succ i =>
        exact hfits.le i k hk

theorem sklansky_spec (h : isAssoc kind = true) (leaves : List NetId)
    (hm : m.WellFormed) (hclosed : m.Closed) (hne : leaves ≠ [])
    (hleaves : ∀ n : ℕ, n ∈ leaves → n < m.nets.length) :
    ∃ m' outs, sklansky m kind leaves = (m', outs) ∧ Network m m' outs ∧
      outs.length = leaves.length ∧
      (∀ ρ, ObeysFrom m.cells.length m'.cells ρ → ∀ x xs, leaves.map ρ = x :: xs →
        outs.map ρ = List.scanl (fun a b => kind.eval [a, b]) x xs) ∧
      ∀ (r : NetId → ℕ) (bound : ℕ → ℕ) (gap : ℕ), m.Ranks r →
        (∀ i j, i < j → j < leaves.length → bound i + gap ≤ bound j) →
        (∀ i n, leaves[i]? = some n → r n ≤ bound i) → leaves.length ≤ gap →
        ∃ r', Fits m m' outs r r' fun i => bound i + (leaves.length - 1) := by
  obtain ⟨k, hk⟩ : ∃ k, k = leaves.length := ⟨_, rfl⟩
  induction k using Nat.strongRecOn generalizing leaves m with
  | ind k ih =>
  have hpos := length_pos_iff.2 hne
  rw [sklansky]
  by_cases hshort : leaves.length < 2
  · obtain ⟨leaf, rfl⟩ := length_eq_one_iff.1 (by omega : leaves.length = 1)
    refine ⟨m, [leaf], rfl, ⟨Rewrites.refl hm hclosed, ⟨[], (append_nil _).symm⟩, hleaves⟩, rfl,
      fun ρ _ x xs hx => ?_, fun r bound _ hr _ hle _ => ⟨r, hr, fun _ _ => rfl, fun i n hn => ?_⟩⟩
    · obtain ⟨rfl, rfl⟩ := List.cons.inj hx
      rfl
    · exact Nat.le_trans (hle i n hn) (Nat.le_add_right _ _)
  · rw [if_neg hshort]
    dsimp only
    have hhalf : 0 < leaves.length / 2 ∧ leaves.length / 2 < leaves.length := by omega
    generalize leaves.length / 2 = half at hhalf
    have htake : (leaves.take half).length = half := by
      rw [length_take]
      omega
    have hdrop : (leaves.drop half).length = leaves.length - half := length_drop
    obtain ⟨m1, left, hleft, hnet1, hlen1, hvalue1, hrank1⟩ := ih half (by omega) (leaves.take half)
      hm hclosed (ne_nil_of_length_pos (by omega))
      (fun n hn => hleaves n (mem_of_mem_take hn)) htake.symm
    obtain ⟨m2, right, hright, hnet2, hlen2, hvalue2, hrank2⟩ := ih (leaves.length - half) (by omega)
      (leaves.drop half) hnet1.rewrites.wellFormed hnet1.rewrites.closed
      (ne_nil_of_length_pos (by omega))
      (fun n hn => Nat.lt_of_lt_of_le (hleaves n (mem_of_mem_drop hn)) hnet1.rewrites.length_le)
      hdrop.symm
    have hcarry : left.getLastD netConst0 ∈ left := by
      rw [List.getLastD_eq_getLast?, getLast?_eq_getLast_of_ne_nil
        (ne_nil_of_length_pos (by omega) : left ≠ [])]
      exact getLast_mem _
    obtain ⟨m3, news, hfold, hnet3, hlen3, hvalue3, hrank3⟩ := combine_spec (arity_of_isAssoc h) right
      left hnet2.rewrites.wellFormed hnet2.rewrites.closed
      (Nat.lt_of_lt_of_le (hnet1.exist _ hcarry) hnet2.rewrites.length_le) hnet2.exist
    rw [hleft]
    rw [hright]
    rw [hfold]
    refine ⟨m3, left ++ news, rfl, ?_, ?_, fun ρ hρ x xs hx => ?_,
      fun r bound gap hr hgap hle hlong => ?_⟩
    · obtain ⟨added, hadded⟩ := (hnet1.trans hnet2).cells
      obtain ⟨added', hadded'⟩ := hnet3.cells
      refine ⟨hnet1.rewrites.trans (hnet2.rewrites.trans hnet3.rewrites), ⟨added ++ added', by
        rw [hadded', hadded, append_assoc]⟩, fun n hn => ?_⟩
      rcases mem_append.1 hn with hn | hn
      · exact Nat.lt_of_lt_of_le (hnet1.exist n hn)
          (Nat.le_trans hnet2.rewrites.length_le hnet3.rewrites.length_le)
      · exact hnet3.exist n hn
    · rw [length_append]
      omega
    · -- both halves are not empty
      obtain ⟨added1, hadded1⟩ := hnet1.cells
      obtain ⟨added2, hadded2⟩ := hnet2.cells
      obtain ⟨added3, hadded3⟩ := hnet3.cells
      have hle1 : m.cells.length ≤ m1.cells.length := by
        rw [hadded1, length_append]
        omega
      have hle2 : m1.cells.length ≤ m2.cells.length := by
        rw [hadded2, length_append]
        omega
      have hρ2 : ObeysFrom m1.cells.length m2.cells ρ := hρ.of_append hadded3 hle1
      have hρ1 : ObeysFrom m.cells.length m1.cells ρ :=
        hρ.of_append (by rw [hadded3, hadded2, append_assoc]) (Nat.le_refl _)
      have hρ3 : ObeysFrom m2.cells.length m3.cells ρ := fun i c hi hc =>
        hρ i c (by omega) hc
      obtain ⟨y, ys, hy⟩ : ∃ y ys, (leaves.drop half).map ρ = y :: ys :=
        exists_cons_of_ne_nil (ne_nil_of_length_pos (by rw [length_map]; omega))
      obtain ⟨x', xs', hx'⟩ : ∃ x' xs', (leaves.take half).map ρ = x' :: xs' :=
        exists_cons_of_ne_nil (ne_nil_of_length_pos (by rw [length_map]; omega))
      have hsplit : x :: xs = x' :: (xs' ++ y :: ys) := by
        rw [← hx, ← cons_append, ← hx', ← hy, ← map_append, take_append_drop]
      obtain ⟨rfl, rfl⟩ := List.cons.inj hsplit
      have hl := hvalue1 ρ hρ1 x xs' hx'
      have hlast : ρ (left.getLastD netConst0) = xs'.foldl (fun a b => kind.eval [a, b]) x := by
        have hmap : (left.map ρ).getLast? = some (xs'.foldl (fun a b => kind.eval [a, b]) x) := by
          rw [hl, getLast?_scanl]
        rw [getLast?_map] at hmap
        obtain ⟨n, hn, hval⟩ := map_eq_some_iff.1 hmap
        rw [List.getLastD_eq_getLast?, hn]
        exact hval
      rw [map_append, hl, hvalue3 ρ hρ3, scanl_halves (eval_assoc h), ← hvalue2 ρ hρ2 y ys hy,
        List.map_map, hlast]
      rfl
    · obtain ⟨r1, hfits1⟩ := hrank1 r bound gap hr (fun i j hij hj => hgap i j hij (by omega))
        (fun i n hn => hle i n (by
          rw [getElem?_take] at hn
          split at hn
          · exact hn
          · cases hn)) (by omega)
      obtain ⟨r2, hfits2⟩ := hrank2 r1 (fun i => bound (half + i)) gap hfits1.ranks
        (fun i j hij hj => by
          exact hgap _ _ (by omega) (by omega))
        (fun i n hn => by
          rw [hfits1.old n (hleaves n (mem_of_mem_drop (mem_of_getElem? hn)))]
          exact hle _ n (by rwa [getElem?_drop] at hn)) (by omega)
      obtain ⟨i, hi⟩ := mem_iff_getElem?.1 hcarry
      have hilt := (List.getElem?_eq_some_iff.1 hi).1
      have hcarry2 : r2 (left.getLastD netConst0) ≤ bound i + (half - 1) := by
        have hle1 := hfits1.le i _ hi
        rw [htake] at hle1
        rw [hfits2.old _ (hnet1.exist _ hcarry)]
        exact hle1
      obtain ⟨r3, hfits3⟩ := hrank3 r2 (fun j => bound (half + j) + (leaves.length - 1)) hfits2.ranks
        fun j n hn => by
          have hjlt := (List.getElem?_eq_some_iff.1 hn).1
          have hle2 := hfits2.le j n hn
          have hbelow := hgap i (half + j) (by omega) (by omega)
          omega
      refine ⟨r3, hfits3.ranks, fun n hn => ?_, fun j n hn => ?_⟩
      · have hlt1 := Nat.lt_of_lt_of_le hn hnet1.rewrites.length_le
        rw [hfits3.old n (Nat.lt_of_lt_of_le hlt1 hnet2.rewrites.length_le), hfits2.old n hlt1,
          hfits1.old n hn]
      · rcases Nat.lt_or_ge j left.length with hj | hj
        · rw [getElem?_append_left hj] at hn
          have hlt1 := hnet1.exist n (mem_of_getElem? hn)
          have hle1 := hfits1.le j n hn
          rw [hfits3.old n (Nat.lt_of_lt_of_le hlt1 hnet2.rewrites.length_le), hfits2.old n hlt1]
          omega
        · rw [getElem?_append_right hj] at hn
          have hle3 := hfits3.le _ n hn
          have hplace : half + (j - left.length) = j := by omega
          rwa [hplace] at hle3

end Networks

section Rebuild

variable {m m1 : GateModule} {r r' : NetId → ℕ} {kind : CellKind}

/-- A cell of the same kind reads the other. -/
def Linked (m : GateModule) (a b : ℕ) : Prop :=
  ∃ ca cb : Cell, m.cells[a]? = some ca ∧ m.cells[b]? = some cb ∧ isAssoc ca.kind = true ∧
    cb.kind = ca.kind ∧ ca.output ∈ cb.inputs

theorem Linked.value (hm : m.WellFormed) {a b : ℕ} (h : Linked m a b) {ca cb : Cell}
    (ha : m.cells[a]? = some ca) (hb : m.cells[b]? = some cb) (ρ : NetId → Bool) :
    leafOf m a b ∈ cb.inputs ∧
      cb.kind.eval (cb.inputs.map ρ) = ca.kind.eval [ρ ca.output, ρ (leafOf m a b)] := by
  obtain ⟨ca', cb', ha', hb', hassoc, hkind, hmem⟩ := h
  obtain rfl := some.inj (ha'.symm.trans ha)
  obtain rfl := some.inj (hb'.symm.trans hb)
  have hlen : cb'.inputs.length = 2 := by
    rw [hm.arity cb' (mem_of_getElem? hb), hkind, arity_of_isAssoc hassoc]
  obtain ⟨x, y, hxy⟩ := length_eq_two.1 hlen
  unfold leafOf
  rw [ha, hb]
  dsimp only
  rw [hkind, hxy]
  rw [hxy] at hmem
  simp only [netAt, getD_cons_zero, getD_cons_succ, map_cons, map_nil]
  split
  · rename_i heq
    rw [heq]
    exact ⟨by simp, rfl⟩
  · rename_i hne
    have hy : ca'.output = y := by
      simp only [mem_cons, not_mem_nil, or_false] at hmem
      exact hmem.resolve_left (Ne.symm hne)
    rw [hy, eval_comm hassoc]
    exact ⟨by simp, rfl⟩

theorem set_rest (rest : List ℕ) {prev : ℕ} {pc : Cell} {prevq : NetId} {qs : List NetId}
    {cur : GateModule} (hm : m.WellFormed) (hprev : m.cells[prev]? = some pc)
    (hkind : pc.kind = kind)
    (hlen : qs.length = rest.length) (hchain : List.IsChain (Linked m) (prev :: rest))
    (hnodup : (prev :: rest).Nodup) (hcur : Rewrites m1 cur) (hr : cur.Ranks r')
    (hkept : ∀ i, i ∈ rest ∨ m.cells.length ≤ i → cur.cells[i]? = m1.cells[i]?)
    (hold : ∀ i, i < m.cells.length → m1.cells[i]? = m.cells[i]?)
    (hbuf : cur.cells[prev]? = some ⟨.buf, [prevq], pc.output⟩)
    (hscan : ∀ ρ, ObeysFrom m.cells.length m1.cells ρ → (prevq :: qs).map ρ =
      List.scanl (fun a b => kind.eval [a, b]) (ρ prevq)
        ((List.zipWith (leafOf m) (prev :: rest) rest).map ρ))
    (hexist : ∀ n : ℕ, n ∈ qs → n < m1.nets.length)
    (hlow : ∀ (i c : ℕ) (q : NetId) (cell : Cell), rest[i]? = some c → qs[i]? = some q → m.cells[c]? = some cell →
      r' q < r' cell.output) :
    Rewrites m1 ((rest.zip qs).foldl (fun m cq => m.setCell cq.1 .buf [cq.2]) cur) ∧
      ((rest.zip qs).foldl (fun m cq => m.setCell cq.1 .buf [cq.2]) cur).Ranks r' ∧
      ∀ i, i ∉ rest → ((rest.zip qs).foldl (fun m cq => m.setCell cq.1 .buf [cq.2]) cur).cells[i]? =
          cur.cells[i]? := by
  induction rest generalizing prev pc prevq qs cur with
  | nil => exact ⟨hcur, hr, fun _ _ => rfl⟩
  | cons c rest ih =>
    obtain ⟨q, qs, rfl⟩ := exists_cons_of_length_eq_add_one hlen
    obtain ⟨hlink, hchain⟩ := isChain_cons_cons.1 hchain
    obtain ⟨hnotin, hnodup⟩ := nodup_cons.1 hnodup
    obtain ⟨ca, cell, ha, hcell, hassoc, hsame, hmem⟩ := id hlink
    obtain rfl := some.inj (ha.symm.trans hprev)
    have hclt := (List.getElem?_eq_some_iff.1 hcell).1
    have hcurc : cur.cells[c]? = some cell := by
      rw [hkept c (.inl (mem_cons_self ..)), hold c hclt, hcell]
    have hset : cur.setCell c .buf [q] = { cur with cells := cur.cells.set c ⟨.buf, [q], cell.output⟩ } := by
      unfold setCell
      rw [hcurc]
    have hother : ∀ i, i ≠ c → (cur.setCell c .buf [q]).cells[i]? = cur.cells[i]? := fun i hi => by
      rw [hset]
      exact getElem?_set_ne (Ne.symm hi)
    have hself : (cur.setCell c .buf [q]).cells[c]? = some ⟨.buf, [q], cell.output⟩ := by
      rw [hset]
      exact getElem?_set_self (List.getElem?_eq_some_iff.1 hcurc).1
    have hprevc : prev ≠ c := fun h => hnotin (h ▸ mem_cons_self ..)
    have hqlow : r' q < r' cell.output := hlow 0 c q cell rfl rfl hcell
    have htail : ∀ ρ, ObeysFrom m.cells.length m1.cells ρ → ρ q :: qs.map ρ =
        List.scanl (fun a b => kind.eval [a, b]) (kind.eval [ρ prevq, ρ (leafOf m prev c)])
          ((List.zipWith (leafOf m) (c :: rest) rest).map ρ) := fun ρ hρ => by
      have hvalues := hscan ρ hρ
      simp only [zipWith_cons_cons, map_cons, scanl_cons] at hvalues
      exact (List.cons.inj hvalues).2
    -- the equation of the cell, from its own buffer, the one before it and the network
    have hstep : Rewrites cur (cur.setCell c .buf [q]) := by
      refine rewrites_setCell hcur.wellFormed hcur.closed hcurc rfl (fun n hn => ?_) fun ρ hρ => ?_
      · obtain rfl := mem_singleton.1 hn
        exact Nat.lt_of_lt_of_le (hexist n (mem_cons_self ..)) hcur.length_le
      · have hobeys : ObeysFrom m.cells.length m1.cells ρ := fun i d hi hd => by
          refine hρ.cell_eq d (mem_of_getElem? (i := i) ?_)
          rw [hother i (by omega), hkept i (.inr hi), hd]
        have hq : ρ q = kind.eval [ρ prevq, ρ (leafOf m prev c)] := head_of_scanl (htail ρ hobeys)
        have hbufq := hρ.cell_eq _ (mem_of_getElem? hself)
        have hbufp := hρ.cell_eq ⟨.buf, [prevq], ca.output⟩
          (mem_of_getElem? ((hother prev hprevc).trans hbuf))
        rw [(hlink.value hm ha hcell ρ).2, hkind]
        have hbufq : ρ cell.output = ρ q := hbufq
        have hbufp : ρ ca.output = ρ prevq := hbufp
        rw [hbufq, hbufp, hq]
    have hranks : (cur.setCell c .buf [q]).Ranks r' :=
      ranks_setCell hr hcurc fun n hn => by
        obtain rfl := mem_singleton.1 hn
        exact hqlow
    have hkept' : ∀ i, i ∈ rest ∨ m.cells.length ≤ i →
        (cur.setCell c .buf [q]).cells[i]? = m1.cells[i]? := fun i hi => by
      have hic : i ≠ c := by
        rintro rfl
        exact hi.elim (nodup_cons.1 hnodup).1 (fun h => by omega)
      rw [hother i hic]
      exact hkept i (hi.imp_left (mem_cons_of_mem _))
    have hscan' : ∀ ρ, ObeysFrom m.cells.length m1.cells ρ → (q :: qs).map ρ =
        List.scanl (fun a b => kind.eval [a, b]) (ρ q)
          ((List.zipWith (leafOf m) (c :: rest) rest).map ρ) := fun ρ hρ => by
      rw [head_of_scanl (htail ρ hρ)]
      exact htail ρ hρ
    obtain ⟨hrewrites, hranks', hrest⟩ := ih hcell (hsame.trans hkind) (Nat.succ.inj hlen) hchain
      hnodup (hcur.trans hstep) hranks hkept' hself hscan'
      (fun n hn => hexist n (mem_cons_of_mem _ hn))
      (fun i d q' cell' hd hq' hcell' => hlow (i + 1) d q' cell' hd hq' hcell')
    refine ⟨hrewrites, hranks', fun i hi => ?_⟩
    rw [zip_cons_cons, foldl_cons, hrest i (fun h => hi (mem_cons_of_mem _ h)),
      hother i (fun h => hi (h ▸ mem_cons_self ..))]

/-- The rank of the output of a cell. -/
def cellRank (m : GateModule) (r : NetId → ℕ) (i : ℕ) : ℕ :=
  match m.cells[i]? with
  | some c => r c.output
  | none => 0

theorem cellRank_eq {c : Cell} (h : m.cells[i]? = some c) : cellRank m r i = r c.output := by
  unfold cellRank
  rw [h]

theorem Linked.lt (hr : m.Ranks r) {a b : ℕ} (h : Linked m a b) :
    cellRank m r a < cellRank m r b := by
  obtain ⟨ca, cb, ha, hb, -, -, hmem⟩ := h
  rw [cellRank_eq ha, cellRank_eq hb]
  exact hr cb (mem_of_getElem? hb) _ hmem

theorem chain_pairwise (hr : m.Ranks r) (h : List.IsChain (Linked m) chain) :
    chain.Pairwise fun a b => cellRank m r a < cellRank m r b := by
  have hlt := h.imp fun a b hab => hab.lt hr
  exact isChain_iff_pairwise.1 hlt

theorem chain_cell (hlen : 2 ≤ chain.length)
    (h : List.IsChain (Linked m) chain) {c : ℕ} (hc : chain[i]? = some c) :
    ∃ cell, m.cells[c]? = some cell := by
  obtain ⟨hi, hget⟩ := List.getElem?_eq_some_iff.1 hc
  have hlinks := isChain_iff_getElem.1 h
  cases i with
  | zero =>
    obtain ⟨ca, _, ha, -⟩ := hlinks 0 (by omega)
    exact ⟨ca, hget ▸ ha⟩
  | succ i =>
    obtain ⟨_, cb, -, hb, -⟩ := hlinks i hi
    exact ⟨cb, hget ▸ hb⟩

theorem leaf_read (hm : m.WellFormed) {head : Cell}
    (hhead : m.cells[c0]? = some head) (hlen : head.inputs.length = 2)
    (h : List.IsChain (Linked m) (c0 :: rest))
    (hn : (chainLeaves m head (c0 :: rest))[i + 1]? = some n) :
    ∃ c cell, (c0 :: rest)[i]? = some c ∧ m.cells[c]? = some cell ∧ n ∈ cell.inputs := by
  obtain ⟨a, b, hab⟩ := length_eq_two.1 hlen
  unfold chainLeaves at hn
  rw [hab, tail_cons] at hn
  cases i with
  | zero =>
    obtain rfl : b = n := by simpa using hn
    exact ⟨c0, head, rfl, hhead, by rw [hab]; simp⟩
  | succ i =>
    obtain ⟨p, c, hp, hc, rfl⟩ := getElem?_zipWith_eq_some.1 hn
    have hlinks := isChain_iff_getElem.1 h
    obtain ⟨hi, hget⟩ := List.getElem?_eq_some_iff.1 hc
    have hlink : Linked m p c := by
      have hl := hlinks i (by rw [length_cons]; omega)
      obtain ⟨hi', hget'⟩ := List.getElem?_eq_some_iff.1 hp
      rwa [hget', getElem_cons_succ, hget] at hl
    obtain ⟨ca, cb, ha, hb, -⟩ := id hlink
    exact ⟨c, cb, by rw [getElem?_cons_succ, hc], hb, (hlink.value hm ha hb fun _ => false).1⟩

theorem network_ranks (hr : m.Ranks r) {leaves : List NetId} {l0 : NetId}
    (hchainlen : 2 ≤ chain.length) (hchain : List.IsChain (Linked m) chain)
    (hm : m.WellFormed) (hlen : leaves.length = chain.length + 1) (hfirst : leaves[0]? = some l0)
    (hread : ∀ i n, leaves[i + 1]? = some n →
      ∃ c cell, chain[i]? = some c ∧ m.cells[c]? = some cell ∧ n ∈ cell.inputs)
    (hl0 : ∃ c cell, chain[0]? = some c ∧ m.cells[c]? = some cell ∧ l0 ∈ cell.inputs)
    (hrank : ∀ (r : NetId → ℕ) (bound : ℕ → ℕ) (gap : ℕ), m.Ranks r →
      (∀ i j, i < j → j < leaves.length → bound i + gap ≤ bound j) →
      (∀ i n, leaves[i]? = some n → r n ≤ bound i) → leaves.length ≤ gap →
      ∃ r', Fits m m1 outs r r' fun i => bound i + (leaves.length - 1)) :
    ∃ r', m1.Ranks r' ∧ ∀ (i c : ℕ) (q : NetId) (cell : Cell), chain[i]? = some c →
      outs[i + 1]? = some q → m.cells[c]? = some cell → r' q < r' cell.output := by
  obtain ⟨t, ht⟩ : ∃ t : ℕ → ℕ, ∀ i c, chain[i]? = some c → t i = cellRank m r c :=
    ⟨fun i => cellRank m r (chain.getD i 0), fun i c hc => by
      show cellRank m r (chain.getD i 0) = _
      rw [getD_eq_getElem?_getD, hc, getD_some]⟩
  have hmono : ∀ i j, i < j → j < chain.length → t i < t j := fun i j hij hj => by
    rw [ht i _ (getElem?_eq_getElem (by omega)), ht j _ (getElem?_eq_getElem hj)]
    exact pairwise_iff_getElem.1 (chain_pairwise hr hchain) i j (by omega) hj hij
  have hbelow : ∀ i n c cell, chain[i]? = some c → m.cells[c]? = some cell → n ∈ cell.inputs →
      r n + 1 ≤ t i := fun i n c cell hc hcell hn => by
    rw [ht i c hc, cellRank_eq hcell]
    exact hr cell (mem_of_getElem? hcell) n hn
  obtain ⟨size, hsize⟩ : ∃ size, size = leaves.length := ⟨_, rfl⟩
  have hscale : m.Ranks fun n => (2 * size + 1) * r n := fun c hc n hn =>
    Nat.mul_lt_mul_of_pos_left (hr c hc n hn) (by omega)
  have hmul : ∀ a b, a + 1 ≤ b → (2 * size + 1) * a + (2 * size + 1) ≤ (2 * size + 1) * b :=
    fun a b hab => Nat.mul_le_mul_left (2 * size + 1) hab
  have hzero : ∀ i, i < chain.length → r l0 + 1 ≤ t i := fun i hi => by
    obtain ⟨c, cell, hc, hcell, hn⟩ := hl0
    have hfst := hbelow 0 l0 c cell hc hcell hn
    cases i with
    | zero => exact hfst
    | succ i => exact Nat.le_trans hfst (Nat.le_of_lt (hmono 0 (i + 1) (by omega) hi))
  obtain ⟨bound, hbound0, hbound⟩ : ∃ bound : ℕ → ℕ, bound 0 = (2 * size + 1) * r l0 ∧
      ∀ i, bound (i + 1) = (2 * size + 1) * (t i - 1) + size :=
    ⟨fun i => i.casesOn ((2 * size + 1) * r l0) fun i => (2 * size + 1) * (t i - 1) + size,
      rfl, fun _ => rfl⟩
  have hgap : ∀ i j, i < j → j < leaves.length → bound i + size ≤ bound j := fun i j hij hj => by
    obtain ⟨j, rfl⟩ := Nat.exists_eq_succ_of_ne_zero (by omega : j ≠ 0)
    rw [hbound]
    cases i with
    | zero =>
      have hlow := hzero j (by omega)
      have hstep : (2 * size + 1) * r l0 ≤ (2 * size + 1) * (t j - 1) :=
        Nat.mul_le_mul_left _ (by omega)
      omega
    | succ i =>
      have hlow := hmono i j (by omega) (by omega)
      have hpos := hzero i (by omega)
      have hstep := hmul (t i - 1) (t j - 1) (by omega)
      rw [hbound]
      omega
  have hleaf : ∀ i n, leaves[i]? = some n → (2 * size + 1) * r n ≤ bound i := fun i n hn => by
    cases i with
    | zero =>
      obtain rfl := some.inj (hfirst.symm.trans hn)
      exact Nat.le_of_eq hbound0.symm
    | succ i =>
      obtain ⟨c, cell, hc, hcell, hmem⟩ := hread i n hn
      have hlow := hbelow i n c cell hc hcell hmem
      have hstep : (2 * size + 1) * r n ≤ (2 * size + 1) * (t i - 1) :=
        Nat.mul_le_mul_left _ (by omega)
      rw [hbound]
      omega
  obtain ⟨r', hfits⟩ := hrank _ bound size hscale hgap hleaf (by omega)
  refine ⟨r', hfits.ranks, fun i c q cell hc hq hcell => ?_⟩
  have hout := hfits.old cell.output (output_lt hm (mem_of_getElem? hcell))
  have hle := hfits.le (i + 1) q hq
  have hti : t i = r cell.output := by rw [ht i c hc, cellRank_eq hcell]
  have hpos := hzero i (List.getElem?_eq_some_iff.1 hc).1
  have hstep := hmul (t i - 1) (t i) (by omega)
  rw [hbound] at hle
  rw [hout, ← hti]
  omega

theorem rebuild_spec (hm : m.WellFormed) (hclosed : m.Closed) (hr : m.Ranks r) (hrest : rest ≠ [])
    (hchain : List.IsChain (Linked m) (c0 :: rest)) :
    Rewrites m (rebuildChain m (c0 :: rest)) ∧ (rebuildChain m (c0 :: rest)).Acyclic ∧
      ∀ i < m.cells.length, i ∉ c0 :: rest →
        (rebuildChain m (c0 :: rest)).cells[i]? = m.cells[i]? := by
  have hpos := length_pos_iff.2 hrest
  have hchainlen : 2 ≤ (c0 :: rest).length := by
    rw [length_cons]
    omega
  obtain ⟨c1, rest', hcons⟩ := exists_cons_of_ne_nil hrest
  obtain ⟨head, -, hhead, -, hassoc, -⟩ := (isChain_cons_cons.1 (hcons ▸ hchain)).1
  have hlen2 : head.inputs.length = 2 := by
    rw [hm.arity head (mem_of_getElem? hhead), arity_of_isAssoc hassoc]
  obtain ⟨l0, l1, hinputs⟩ := length_eq_two.1 hlen2
  have hnodup : (c0 :: rest).Nodup :=
    (chain_pairwise hr hchain).imp fun hab heq => by
      rw [heq] at hab
      exact Nat.lt_irrefl _ hab
  obtain ⟨leaves, hleaves⟩ : ∃ leaves, leaves = chainLeaves m head (c0 :: rest) := ⟨_, rfl⟩
  have hread := fun i n (hn : leaves[i + 1]? = some n) =>
    leaf_read hm hhead hlen2 hchain (hleaves ▸ hn)
  have hleaveslen : leaves.length = rest.length + 2 := by
    rw [hleaves, chainLeaves, length_append, hlen2, tail_cons, length_zipWith, length_cons]
    omega
  have hfirst : leaves[0]? = some l0 := by
    rw [hleaves, chainLeaves, hinputs]
    rfl
  have hexist : ∀ n : ℕ, n ∈ leaves → n < m.nets.length := fun n hn => by
    obtain ⟨i, hi⟩ := mem_iff_getElem?.1 hn
    cases i with
    | zero =>
      obtain rfl := some.inj (hfirst.symm.trans hi)
      exact input_lt hclosed (mem_of_getElem? hhead) (by rw [hinputs]; simp)
    | succ i =>
      obtain ⟨c, cell, -, hcell, hmem⟩ := hread i n hi
      exact input_lt hclosed (mem_of_getElem? hcell) hmem
  obtain ⟨m1, outs, hnetwork, hnet, houtslen, hvalue, hrank⟩ := sklansky_spec hassoc leaves hm
    hclosed (ne_nil_of_length_pos (by omega)) hexist
  obtain ⟨added, hadded⟩ := hnet.cells
  obtain ⟨r', hr', hlow⟩ := network_ranks hr hchainlen hchain hm (by
      rw [hleaveslen, length_cons]) hfirst hread
    ⟨c0, head, rfl, hhead, by rw [hinputs]; simp⟩ hrank
  obtain ⟨q', outs', rfl⟩ := exists_cons_of_ne_nil (ne_nil_of_length_pos (by omega) : outs ≠ [])
  obtain ⟨q0, qs, rfl⟩ := exists_cons_of_ne_nil
    (ne_nil_of_length_pos (by rw [length_cons] at houtslen; omega) : outs' ≠ [])
  have hold : ∀ i, i < m.cells.length → m1.cells[i]? = m.cells[i]? := fun i hi => by
    rw [hadded, getElem?_append_left hi]
  have hbuild : rebuildChain m (c0 :: rest) =
      (rest.zip qs).foldl (fun m cq => m.setCell cq.1 .buf [cq.2]) (m1.setCell c0 .buf [q0]) := by
    unfold rebuildChain
    rw [head?_cons, bind_some, hhead]
    dsimp only
    rw [← hleaves, hnetwork]
    rfl
  have hc0 := (List.getElem?_eq_some_iff.1 hhead).1
  have hhead1 : m1.cells[c0]? = some head := (hold c0 hc0).trans hhead
  have hset : m1.setCell c0 .buf [q0] =
      { m1 with cells := m1.cells.set c0 ⟨.buf, [q0], head.output⟩ } := by
    unfold setCell
    rw [hhead1]
  have hother : ∀ i, i ≠ c0 → (m1.setCell c0 .buf [q0]).cells[i]? = m1.cells[i]? := fun i hi => by
    rw [hset]
    exact getElem?_set_ne (Ne.symm hi)
  have hself : (m1.setCell c0 .buf [q0]).cells[c0]? = some ⟨.buf, [q0], head.output⟩ := by
    rw [hset]
    exact getElem?_set_self (List.getElem?_eq_some_iff.1 hhead1).1
  have hscan : ∀ ρ, ObeysFrom m.cells.length m1.cells ρ →
      ρ q0 = head.kind.eval [ρ l0, ρ l1] ∧ (q0 :: qs).map ρ =
        List.scanl (fun a b => head.kind.eval [a, b]) (ρ q0)
          ((List.zipWith (leafOf m) (c0 :: rest) rest).map ρ) := fun ρ hρ => by
    have hmap : leaves.map ρ = ρ l0 :: ρ l1 ::
        (List.zipWith (leafOf m) (c0 :: rest) rest).map ρ := by
      rw [hleaves, chainLeaves, hinputs]
      rfl
    have hvalues := hvalue ρ hρ _ _ hmap
    rw [map_cons, map_cons, scanl_cons] at hvalues
    have htail := (List.cons.inj hvalues).2
    have hq0 := head_of_scanl htail
    refine ⟨hq0, ?_⟩
    rw [hq0]
    exact htail
  have hstep : Rewrites m1 (m1.setCell c0 .buf [q0]) := by
    refine rewrites_setCell hnet.rewrites.wellFormed hnet.rewrites.closed hhead1 rfl
      (fun n hn => ?_) fun ρ hρ => ?_
    · obtain rfl := mem_singleton.1 hn
      exact hnet.exist n (mem_cons_of_mem _ (mem_cons_self ..))
    · have hobeys : ObeysFrom m.cells.length m1.cells ρ := fun i d hi hd =>
        hρ.cell_eq d (mem_of_getElem? ((hother i (by omega)).trans hd))
      have hbuf : ρ head.output = ρ q0 := hρ.cell_eq _ (mem_of_getElem? hself)
      rw [hbuf, (hscan ρ hobeys).1, hinputs]
      rfl
  have hranks : (m1.setCell c0 .buf [q0]).Ranks r' := ranks_setCell hr' hhead1 fun n hn => by
    obtain rfl := mem_singleton.1 hn
    exact hlow 0 c0 n head rfl rfl hhead
  have hnotin := (nodup_cons.1 hnodup).1
  obtain ⟨hrewrites, hfinal, hkept⟩ := set_rest rest hm hhead rfl
    (by rw [length_cons, length_cons] at houtslen; omega) hchain hnodup hstep hranks
    (fun i hi => hother i (by
      rintro rfl
      exact hi.elim hnotin (fun h => by omega))) hold hself (fun ρ hρ => (hscan ρ hρ).2)
    (fun n hn => hnet.exist n (mem_cons_of_mem _ (mem_cons_of_mem _ hn)))
    (fun i c q cell hc hq hcell => hlow (i + 1) c q cell hc hq hcell)
  rw [hbuild]
  refine ⟨hnet.rewrites.trans hrewrites, ⟨r', hfinal⟩, fun i hi hout => ?_⟩
  rw [hkept i (fun h => hout (mem_cons_of_mem _ h)),
    hother i (fun h => hout (h ▸ mem_cons_self ..)), hold i hi]

end Rebuild

section Chains

variable {m cur : GateModule} {r : NetId → ℕ} {kind : CellKind} {a b c d : ℕ}

theorem sameKindDriver_spec (hm : m.WellFormed) (h : sameKindDriver m kind n = some d) :
    ∃ cell, m.cells[d]? = some cell ∧ cell.output = n ∧ cell.kind = kind := by
  unfold sameKindDriver at h
  split at h
  · rename_i i cell hdriver
    obtain ⟨hcell, hout⟩ := driverCell_eq hm hdriver
    split at h
    · rename_i hkind
      obtain rfl := some.inj h
      exact ⟨cell, hcell, hout, hkind⟩
    · cases h
  · cases h

theorem linkOf_spec (ns : List NetId) (link : Option ℕ) (h : linkOf m kind ns link = some d) :
    link = some d ∨ ∃ n ∈ ns, sameKindDriver m kind n = some d ∧ sameKindConsumers m n = 1 := by
  induction ns generalizing link with
  | nil => exact .inl h
  | cons n rest ih =>
    unfold linkOf at h
    split at h
    · rename_i di hdriver
      split at h
      · cases h
      · split at h
        · cases h
        · rename_i hone
          rcases ih _ h with hlink | ⟨k, hk, hrest⟩
          · obtain rfl := some.inj hlink
            exact .inr ⟨n, mem_cons_self .., hdriver, not_not.1 hone⟩
          · exact .inr ⟨k, mem_cons_of_mem _ hk, hrest⟩
    · rcases ih _ h with hlink | ⟨k, hk, hrest⟩
      · exact .inl hlink
      · exact .inr ⟨k, mem_cons_of_mem _ hk, hrest⟩

theorem pred_spec (hm : m.WellFormed) (h : pred m b = some a) :
    ∃ ca cb : Cell, m.cells[a]? = some ca ∧ m.cells[b]? = some cb ∧ isAssoc cb.kind = true ∧
      ca.kind = cb.kind ∧ ca.output ∈ cb.inputs ∧ sameKindDriver m cb.kind ca.output = some a ∧
      sameKindConsumers m ca.output = 1 := by
  unfold pred at h
  split at h
  · rename_i cb hb
    split at h
    · rename_i hassoc
      rcases linkOf_spec _ _ h with hnone | ⟨n, hn, hdriver, hone⟩
      · cases hnone
      · obtain ⟨ca, ha, rfl, hkind⟩ := sameKindDriver_spec hm hdriver
        exact ⟨ca, cb, ha, hb, hassoc, hkind, hn, hdriver, hone⟩
    · cases h
  · cases h

theorem pred_linked (hm : m.WellFormed) (h : pred m b = some a) : Linked m a b := by
  obtain ⟨ca, cb, ha, hb, hassoc, hkind, hmem, -⟩ := pred_spec hm h
  exact ⟨ca, cb, ha, hb, hkind ▸ hassoc, hkind.symm, hmem⟩

theorem mem_sameKindReaders {cell : Cell} (hcell : m.cells[c]? = some cell)
    (hassoc : isAssoc cell.kind = true) (hdriver : sameKindDriver m cell.kind n = some d)
    (hn : n ∈ cell.inputs) : c ∈ sameKindReaders m n := by
  refine mem_flatMap.2 ⟨c, mem_range.2 (List.getElem?_eq_some_iff.1 hcell).1, ?_⟩
  rw [hcell]
  dsimp only
  rw [if_pos ⟨hassoc, by rw [hdriver]; rfl⟩, mem_replicate]
  exact ⟨Nat.ne_of_gt (count_pos_iff.2 hn), rfl⟩

section

variable (hm : m.WellFormed)

include hm

/-- A cell feeds at most one chain. -/
theorem pred_injective (hb : pred m b = some a) (hc : pred m c = some a) : b = c := by
  obtain ⟨ca, cb, ha, hcb, hassoc, -, hmem, hdriver, hone⟩ := pred_spec hm hb
  obtain ⟨ca', cc, ha', hcc, hassoc', -, hmem', hdriver', -⟩ := pred_spec hm hc
  obtain rfl := some.inj (ha.symm.trans ha')
  have hin := mem_sameKindReaders hcb hassoc hdriver hmem
  have hin' := mem_sameKindReaders hcc hassoc' hdriver' hmem'
  obtain ⟨i, hi⟩ := length_eq_one_iff.1 hone
  rw [hi, mem_singleton] at hin hin'
  rw [hin, hin']

theorem not_linked (h : isLinked m a = false) : pred m b ≠ some a := by
  intro hpred
  obtain ⟨-, cb, -, hb, -⟩ := pred_spec hm hpred
  have hlinked : isLinked m a = true := by
    refine List.any_eq_true.2 ⟨b, mem_range.2 (List.getElem?_eq_some_iff.1 hb).1, ?_⟩
    exact decide_eq_true hpred
  rw [h] at hlinked
  cases hlinked

theorem chainTo_spec (k : ℕ) (h : chainTo m k c = some chain) :
    List.IsChain (Linked m) chain ∧ chain.getLast? = some c ∧
      (∀ a ∈ chain, Relation.ReflTransGen (fun a b => pred m b = some a) a c) ∧
      (pred m c ≠ none → 2 ≤ chain.length) := by
  induction k generalizing c chain with
  | zero => cases h
  | succ k ih =>
    unfold chainTo at h
    split at h
    · rename_i p hp
      obtain ⟨front, hfront, rfl⟩ := map_eq_some_iff.1 h
      obtain ⟨hchain, hlast, hreach, -⟩ := ih hfront
      refine ⟨?_, getLast?_concat, fun a ha => ?_, fun _ => ?_⟩
      · refine isChain_append.2 ⟨hchain, isChain_singleton _, fun x hx y hy => ?_⟩
        obtain rfl : p = x := some.inj (hlast.symm.trans hx)
        obtain rfl : c = y := some.inj hy
        exact pred_linked hm hp
      · rcases mem_append.1 ha with ha | ha
        · exact (hreach a ha).tail hp
        · obtain rfl := mem_singleton.1 ha
          exact .refl
      · have hne : front ≠ [] := by
          rintro rfl
          cases hlast
        have hpos := length_pos_iff.2 hne
        rw [length_append, length_singleton]
        omega
    · rename_i hnone
      obtain rfl := some.inj h
      refine ⟨isChain_singleton _, rfl, fun a ha => ?_, fun hne => absurd hnone hne⟩
      obtain rfl := mem_singleton.1 ha
      exact .refl

theorem chainTo_ends (hr : m.Ranks r) (k : ℕ) (hk : cellRank m r c < k) :
    ∃ chain, chainTo m k c = some chain := by
  induction k generalizing c with
  | zero => exact absurd hk (Nat.not_lt_zero _)
  | succ k ih =>
    unfold chainTo
    split
    · rename_i p hp
      have hlt := (pred_linked hm hp).lt hr
      obtain ⟨front, hfront⟩ := ih (c := p) (by omega)
      exact ⟨_, by rw [hfront, map_some]⟩
    · exact ⟨_, rfl⟩

end

/-- A cell that ends a chain of at least two. -/
def IsTail (m : GateModule) (c : ℕ) : Prop := isLinked m c = false ∧ pred m c ≠ none

/-- Chains with different tails have no cell in common. -/
theorem tail_unique (hm : m.WellFormed) (hb : IsTail m b) (hc : IsTail m c)
    (hab : Relation.ReflTransGen (fun a b => pred m b = some a) a b)
    (hac : Relation.ReflTransGen (fun a b => pred m b = some a) a c) : b = c := by
  have hunique : Relator.RightUnique fun a b => pred m b = some a := fun _ _ _ hb hc =>
    pred_injective hm hb hc
  rcases Relation.ReflTransGen.total_of_right_unique hunique hab hac with h | h
  · rcases Relation.ReflTransGen.cases_head h with h | ⟨d, hd, -⟩
    · exact h
    · exact absurd hd (not_linked hm hb.1)
  · rcases Relation.ReflTransGen.cases_head h with h | ⟨d, hd, -⟩
    · exact h.symm
    · exact absurd hd (not_linked hm hc.1)

/-- What holds between two chains: the cells of the chains to come are as they were. -/
structure Rebuilt (m : GateModule) (done : List ℕ) (cur : GateModule) : Prop where
  rewrites : Rewrites m cur
  acyclic : cur.Acyclic
  kept : ∀ i < m.cells.length, (∀ t ∈ done, IsTail m t →
    ¬Relation.ReflTransGen (fun a b => pred m b = some a) i t) → cur.cells[i]? = m.cells[i]?

theorem linked_congr (h : ∀ i, i = a ∨ i = b → cur.cells[i]? = m.cells[i]?) (hab : Linked m a b) :
    Linked cur a b := by
  obtain ⟨ca, cb, ha, hb, hrest⟩ := hab
  exact ⟨ca, cb, (h a (.inl rfl)).trans ha, (h b (.inr rfl)).trans hb, hrest⟩

theorem rebuilt_visit (hm : m.WellFormed)
    (h : Rebuilt m done st.1) (hnew : c ∉ done) (hvisit : prefixVisit m k st c = some out) :
    Rebuilt m (c :: done) out.1 := by
  have hweaken : Rebuilt m (c :: done) st.1 := ⟨h.rewrites, h.acyclic, fun i hi hfree =>
    h.kept i hi fun t ht => hfree t (mem_cons_of_mem _ ht)⟩
  unfold prefixVisit at hvisit
  split at hvisit
  · obtain rfl := some.inj hvisit
    exact hweaken
  · rename_i htail
    obtain ⟨chain, hchain, rfl⟩ := map_eq_some_iff.1 hvisit
    split
    · exact hweaken
    have htail : IsTail m c := by
      rw [not_or] at htail
      exact ⟨Bool.eq_false_iff.2 htail.1, htail.2⟩
    obtain ⟨hlinks, -, hreach, hlong⟩ := chainTo_spec hm k hchain
    have hlen := hlong htail.2
    -- no chain that was rebuilt before meets this one
    have hkept : ∀ i ∈ chain, st.1.cells[i]? = m.cells[i]? := fun i hi => by
      obtain ⟨j, hj⟩ := mem_iff_getElem?.1 hi
      obtain ⟨cell, hcell⟩ := chain_cell hlen hlinks hj
      refine h.kept i (List.getElem?_eq_some_iff.1 hcell).1 fun t ht hist hit => hnew ?_
      rw [tail_unique hm htail hist (hreach i hi) hit]
      exact ht
    obtain ⟨c0, rest, rfl⟩ := exists_cons_of_ne_nil (ne_nil_of_length_pos (by omega) : chain ≠ [])
    have hlinks' : List.IsChain (Linked st.1) (c0 :: rest) :=
      List.IsChain.imp_of_mem_imp (fun x y hx hy hxy => linked_congr (fun i hi => by
        obtain rfl | rfl := hi
        · exact hkept i hx
        · exact hkept i hy) hxy) hlinks
    obtain ⟨r, hr⟩ := h.acyclic
    obtain ⟨hrewrites, hacyclic, hother⟩ := rebuild_spec h.rewrites.wellFormed h.rewrites.closed
      hr (ne_nil_of_length_pos (by rw [length_cons] at hlen; omega)) hlinks'
    refine ⟨h.rewrites.trans hrewrites, hacyclic, fun i hi hfree => ?_⟩
    have hout : i ∉ c0 :: rest := fun hin =>
      hfree c (mem_cons_self ..) htail (hreach i hin)
    have hlt : i < st.1.cells.length := by
      obtain ⟨c', hc', -⟩ := h.rewrites.output i _ (getElem?_eq_getElem hi)
      exact (List.getElem?_eq_some_iff.1 hc').1
    rw [hother i hlt hout]
    exact h.kept i hi fun t ht => hfree t (mem_cons_of_mem _ ht)

theorem rebuilt_all (hm : m.WellFormed) (tails : List ℕ) (h : Rebuilt m done st.1)
    (hnodup : tails.Nodup) (hnew : ∀ t ∈ tails, t ∉ done)
    (hfold : tails.foldlM (prefixVisit m k) st = some out) :
    ∃ done', Rebuilt m done' out.1 := by
  induction tails generalizing done st with
  | nil =>
    obtain rfl := some.inj hfold
    exact ⟨done, h⟩
  | cons t tails ih =>
    obtain ⟨mid, hmid, hrest⟩ := bind_eq_some_iff.1 hfold
    obtain ⟨hnotin, hnodup⟩ := nodup_cons.1 hnodup
    refine ih (rebuilt_visit hm h (hnew t (mem_cons_self ..)) hmid) hnodup
      (fun s hs hin => ?_) hrest
    rcases mem_cons.1 hin with rfl | hin
    · exact hnotin hs
    · exact hnew s (mem_cons_of_mem _ hs) hin

theorem prefixVisits_end (hm : m.WellFormed) (hr : m.Ranks r) (tails : List ℕ)
    (hk : ∀ t ∈ tails, cellRank m r t < k) (st : GateModule × Bool) :
    ∃ out, tails.foldlM (prefixVisit m k) st = some out := by
  induction tails generalizing st with
  | nil => exact ⟨st, rfl⟩
  | cons t tails ih =>
    have hvisit : ∃ mid, prefixVisit m k st t = some mid := by
      unfold prefixVisit
      split
      · exact ⟨st, rfl⟩
      · obtain ⟨chain, hchain⟩ := chainTo_ends hm hr k (hk t (mem_cons_self ..))
        exact ⟨_, by rw [hchain, map_some]⟩
    obtain ⟨mid, hmid⟩ := hvisit
    obtain ⟨out, hout⟩ := ih (fun s hs => hk s (mem_cons_of_mem _ hs)) mid
    exact ⟨out, by rw [foldlM_cons, hmid]; exact hout⟩

end Chains

/-- A pass that keeps the function of an acyclic module: every net it had keeps
its value over every valuation of the sources, its endpoints stay on the same
nets, and the result is acyclic again. -/
structure Preserves (m m' : GateModule) : Prop where
  wellFormed : m'.WellFormed
  closed : m'.Closed
  acyclic : m'.Acyclic
  ports : m'.ports = m.ports
  ffs : m'.ffs = m.ffs
  ramBlocks : m'.ramBlocks = m.ramBlocks
  unique : ∀ v, ∃! ρ, m'.Solves v ρ
  value : ∀ v ρ ρ', m.Solves v ρ → m'.Solves v ρ' → ∀ n : ℕ, n < m.nets.length → ρ' n = ρ n

theorem Rewrites.preserves (h : Rewrites m m') (hm : m.WellFormed)
    (hclosed : m.Closed) (hacyclic : m.Acyclic) (hacyclic' : m'.Acyclic) : Preserves m m' := by
  obtain ⟨r, hr⟩ := hacyclic'.ranked h.wellFormed
  exact ⟨h.wellFormed, h.closed, hacyclic', h.ports, h.ffs, h.ramBlocks,
    existsUnique_solves hr h.wellFormed, fun _ _ _ hρ hρ' _ hn =>
      h.value_eq hm hclosed hacyclic hρ hρ' hn⟩

theorem absorbComplement_preserves (hm : m.WellFormed) (hclosed : m.Closed) (hacyclic : m.Acyclic) :
    (∃ turns out, absorbComplement turns m = some out) ∧
      ∀ turns out, absorbComplement turns m = some out → Preserves m out.1 := by
  obtain ⟨r, hr⟩ := id hacyclic
  refine ⟨?_, fun turns out h => ?_⟩
  · obtain ⟨out, hout⟩ := absorbComplement_ends hm hclosed hr _ (Nat.lt_succ_self _)
    exact ⟨_, out, hout⟩
  · obtain ⟨hrewrites, hranks⟩ := absorbComplement_rewrites hm hclosed hr h
    exact hrewrites.preserves hm hclosed hacyclic ⟨r, hranks⟩

theorem prefixParallelize_preserves (hm : m.WellFormed) (hclosed : m.Closed)
    (hacyclic : m.Acyclic) :
    (∃ turns out, prefixParallelize turns m = some out) ∧
      ∀ turns out, prefixParallelize turns m = some out → Preserves m out.1 := by
  obtain ⟨r, hr⟩ := id hacyclic
  refine ⟨?_, fun turns out h => ?_⟩
  · have hbound : ∀ ts : List ℕ, ∃ k, ∀ t ∈ ts, cellRank m r t < k := fun ts => by
      induction ts with
      | nil => exact ⟨0, fun t ht => absurd ht not_mem_nil⟩
      | cons t ts ih =>
        obtain ⟨k, hk⟩ := ih
        refine ⟨k + cellRank m r t + 1, fun s hs => ?_⟩
        rcases mem_cons.1 hs with rfl | hs
        · omega
        · have hlt := hk s hs
          omega
    obtain ⟨k, hk⟩ := hbound (List.range m.cells.length)
    obtain ⟨out, hout⟩ := prefixVisits_end hm hr _ hk (m, false)
    exact ⟨k, out, hout⟩
  · obtain ⟨done, hdone⟩ := rebuilt_all hm _
      (⟨Rewrites.refl hm hclosed, hacyclic, fun _ _ _ => rfl⟩ : Rebuilt m [] m) nodup_range
      (fun _ _ => not_mem_nil) h
    exact hdone.rewrites.preserves hm hclosed hacyclic hdone.acyclic

/-- Absorption ends, after it every chain is rebuilt, and both passes preserve
the module. -/
theorem prefix_spec (m : GateModule) (hm : m.WellFormed) (hclosed : m.Closed)
    (hacyclic : m.Acyclic) :
    (∃ turns out, absorbComplement turns m = some out) ∧
      ∀ turns absorbed, absorbComplement turns m = some absorbed →
        Preserves m absorbed.1 ∧ (∃ turns out, prefixParallelize turns absorbed.1 = some out) ∧
          ∀ turns out, prefixParallelize turns absorbed.1 = some out →
            Preserves absorbed.1 out.1 := by
  obtain ⟨hends, habsorbed⟩ := absorbComplement_preserves hm hclosed hacyclic
  refine ⟨hends, fun turns absorbed h => ?_⟩
  have hpreserves := habsorbed turns absorbed h
  exact ⟨hpreserves, prefixParallelize_preserves hpreserves.wellFormed hpreserves.closed
    hpreserves.acyclic⟩

/-- A running OR of nine inputs, every partial result on a port. -/
def GateModule.orScan : GateModule where
  ports := [(List.range 9).map (· + 2), (List.range 8).map (· + 11)]
  nets := [.const false, .const true] ++ replicate 9 .portInput ++ (List.range 8).map NetDriver.cell
  cells := (List.range 8).map fun j => ⟨.or2, [if j = 0 then 2 else 10 + j, 3 + j], 11 + j⟩
  ffs := []
  ramBlocks := []

/-- The cell that drives a net. -/
def NetDriver.cellIndex : NetDriver → ℕ
  | .cell i => i
  | _ => 0

theorem GateModule.wellFormed_orScan : orScan.WellFormed := by
  have hdriver : ∀ i < 8, ∀ c ∈ orScan.cells[i]?, orScan.nets[c.output]? = some (.cell i) := by
    decide
  have hcell : ∀ n < 19, ∀ i < 8, orScan.nets[n]? = some (.cell i) →
      (orScan.cells[i]?.map Cell.output) = some n := by decide
  have hrange : ∀ n < 19, ∀ i ∈ orScan.nets[n]?.map NetDriver.cellIndex, i < 8 := by decide
  refine ⟨rfl, rfl, fun i c hc => ?_, fun n i hn => ?_, by decide⟩
  · exact hdriver i (List.getElem?_eq_some_iff.1 hc).1 c hc
  · have hlt : n < 19 := (List.getElem?_eq_some_iff.1 hn).1
    have hi : i < 8 := hrange n hlt i (by rw [hn]; rfl)
    exact map_eq_some_iff.1 (hcell n hlt i hi hn)

theorem GateModule.closed_orScan : orScan.Closed := by
  have hcells : ∀ c ∈ orScan.cells, ∀ n ∈ c.inputs, n < 19 := by decide
  have hports : ∀ port ∈ orScan.ports, ∀ n ∈ port, n < 19 := by decide
  rintro n (⟨c, hc, hn⟩ | ⟨port, hport, hn⟩ | ⟨ff, hff, -⟩ | hn)
  · exact hcells c hc n hn
  · exact hports port hport n hn
  · exact absurd hff not_mem_nil
  · exact absurd hn not_mem_nil

theorem GateModule.acyclic_orScan : orScan.Acyclic := ⟨id, by decide⟩

/-- The running OR is rebuilt. -/
theorem prefix_spec_orScan : (∃ turns out, absorbComplement turns .orScan = some out) ∧
      ∀ turns absorbed, absorbComplement turns .orScan = some absorbed →
        ∃ turns out, prefixParallelize turns absorbed.1 = some out ∧
          Preserves absorbed.1 out.1 := by
  obtain ⟨hends, hspec⟩ := prefix_spec .orScan GateModule.wellFormed_orScan
    GateModule.closed_orScan GateModule.acyclic_orScan
  refine ⟨hends, fun turns absorbed h => ?_⟩
  obtain ⟨-, ⟨turns', out, hout⟩, hall⟩ := hspec turns absorbed h
  exact ⟨turns', out, hout, hall turns' out hout⟩

end Veryl.Synthesizer
