import Veryl.Synthesizer.Worklist

/-!
The worklist simplifier preserves the value of every endpoint of a gate module,
in every order of visits.
-/

namespace Veryl.Synthesizer

open List Function

variable {b d' m : NetId} {d : Cell}

variable {a a' b' c' n : NetId} {e : Cell} {i : ℕ} {consumers : NetId → List ℕ} {cells : List Cell}
  {j : ℕ} {c : NetId} {seen : CseKey → Option ℕ} {ρ : NetId → Bool}

section Keys

variable {ρ : NetId → Bool} {kind kind' : CellKind} {inputs inputs' : List NetId}

theorem sortPair_eq (h : sortPair a b = sortPair a' b') :
    (a = a' ∧ b = b') ∨ (a = b' ∧ b = a') := by
  unfold sortPair at h
  grind

theorem sortPair_perm (ρ : NetId → Bool) (h : sortPair a b = sortPair a' b') :
    [a, b].Perm [a', b'] ∧ (ρ a && ρ b) = (ρ a' && ρ b') ∧ (ρ a || ρ b) = (ρ a' || ρ b') := by
  obtain ⟨rfl, rfl⟩ | ⟨rfl, rfl⟩ := sortPair_eq h
  · exact ⟨.refl _, rfl, rfl⟩
  · exact ⟨.swap _ _ _, Bool.and_comm _ _, Bool.or_comm _ _⟩

theorem sortTriple_perm (h : sortTriple a b c = sortTriple a' b' c') :
    [a, b, c].Perm [a', b', c'] := by
  have hleft : (sortTriple a b c).Perm [a, b, c] := mergeSort_perm _ _
  have hright : (sortTriple a' b' c').Perm [a', b', c'] := mergeSort_perm _ _
  exact hleft.symm.trans (h ▸ hright)

theorem length_sortTriple (a b c : NetId) : (sortTriple a b c).length = 3 :=
  length_mergeSort _

theorem and_triple (ρ : NetId → Bool) (h : [a, b, c].Perm [a', b', c']) :
    (ρ a && ρ b && ρ c) = (ρ a' && ρ b' && ρ c') := by
  have hall : [a, b, c].all ρ = [a', b', c'].all ρ := by
    rw [Bool.eq_iff_iff, all_eq_true, all_eq_true]
    exact forall_congr' fun n => by rw [h.mem_iff]
  simpa [Bool.and_assoc] using hall

theorem or_triple (ρ : NetId → Bool) (h : [a, b, c].Perm [a', b', c']) :
    (ρ a || ρ b || ρ c) = (ρ a' || ρ b' || ρ c') := by
  have hany : [a, b, c].any ρ = [a', b', c'].any ρ := by
    rw [Bool.eq_iff_iff, any_eq_true, any_eq_true]
    exact exists_congr fun n => by rw [h.mem_iff]
  simpa [Bool.or_assoc] using hany

theorem sortPairs_eq {d : NetId} (h : sortPairs a b c d = sortPairs a' b' c' d') :
    (sortPair a b = sortPair a' b' ∧ sortPair c d = sortPair c' d') ∨
      (sortPair a b = sortPair c' d' ∧ sortPair c d = sortPair a' b') := by
  unfold sortPairs at h
  grind

variable {key : CseKey}

theorem cseKey_fst (h : cseKey kind inputs = some key) : key.1 = kind := by
  unfold cseKey at h
  grind

theorem cseKey_sound_pair (hkind : kind.arity = 2) (h : cseKey kind [a, b] = cseKey kind [a', b']) :
    [a, b].Perm [a', b'] ∧ kind.eval ([a, b].map ρ) = kind.eval ([a', b'].map ρ) := by
  have hpair : sortPair a b = sortPair a' b' := by
    cases kind <;> simp only [CellKind.arity] at hkind <;> try omega
    all_goals
      simp only [cseKey, netAt, getD_cons_zero, getD_cons_succ, Option.some.injEq,
        Prod.mk.injEq, List.cons.injEq, true_and, and_true] at h
      exact Prod.ext h.1 h.2
  obtain ⟨rfl, rfl⟩ | ⟨rfl, rfl⟩ := sortPair_eq hpair
  · exact ⟨.refl _, rfl⟩
  · refine ⟨.swap _ _ _, ?_⟩
    cases kind <;> simp only [CellKind.arity] at hkind <;> try omega
    all_goals
      simp only [map_cons, map_nil, CellKind.eval]
      grind

theorem cseKey_sound_triple (hkind : kind.arity = 3)
    (h : cseKey kind [a, b, c] = cseKey kind [a', b', c']) :
    [a, b, c].Perm [a', b', c'] ∧ kind.eval ([a, b, c].map ρ) = kind.eval ([a', b', c'].map ρ) := by
  have hsort : sortTriple a b c ++ [csePad] = sortTriple a' b' c' ++ [csePad] →
      [a, b, c].Perm [a', b', c'] := fun heq => sortTriple_perm (append_cancel_right heq)
  cases kind <;> simp only [CellKind.arity] at hkind <;> try omega
  all_goals
    simp only [cseKey, netAt, getD_cons_zero, getD_cons_succ, Option.some.injEq,
      Prod.mk.injEq, List.cons.injEq, true_and, and_true] at h
    simp [CellKind.eval]
  case and3 | nand3 | or3 | nor3 =>
    have hperm := hsort h
    have hand := and_triple ρ hperm
    have hor := or_triple ρ hperm
    exact ⟨hperm, by grind⟩
  case mux2 =>
    obtain ⟨rfl, rfl, rfl⟩ := h
    exact ⟨.refl _, rfl⟩
  all_goals
    obtain ⟨hlo, hhi, rfl⟩ := h
    obtain ⟨rfl, rfl⟩ | ⟨rfl, rfl⟩ := sortPair_eq (Prod.ext hlo hhi)
    · exact ⟨.refl _, rfl⟩
    · exact ⟨.swap _ _ _, by grind⟩

theorem cseKey_sound_four (hkind : kind.arity = 4) {d : NetId}
    (h : cseKey kind [a, b, c, d] = cseKey kind [a', b', c', d']) :
    [a, b, c, d].Perm [a', b', c', d'] ∧
      kind.eval ([a, b, c, d].map ρ) = kind.eval ([a', b', c', d'].map ρ) := by
  have hpairs : sortPairs a b c d = sortPairs a' b' c' d' → [a, b, c, d].Perm [a', b', c', d'] ∧
        ((ρ a && ρ b) || (ρ c && ρ d)) = ((ρ a' && ρ b') || (ρ c' && ρ d')) ∧
        ((ρ a || ρ b) && (ρ c || ρ d)) = ((ρ a' || ρ b') && (ρ c' || ρ d')) := by
    intro heq
    obtain ⟨hab, hcd⟩ | ⟨hab, hcd⟩ := sortPairs_eq heq
    · obtain ⟨hperm, hand, hor⟩ := sortPair_perm ρ hab
      obtain ⟨hperm', hand', hor'⟩ := sortPair_perm ρ hcd
      exact ⟨hperm.append hperm', by rw [hand, hand'], by rw [hor, hor']⟩
    · obtain ⟨hperm, hand, hor⟩ := sortPair_perm ρ hab
      obtain ⟨hperm', hand', hor'⟩ := sortPair_perm ρ hcd
      refine ⟨(hperm.append hperm').trans perm_append_comm, ?_, ?_⟩
      · rw [hand, hand', Bool.or_comm]
      · rw [hor, hor', Bool.and_comm]
  cases kind <;> simp only [CellKind.arity] at hkind <;> try omega
  all_goals
    simp only [cseKey, netAt, getD_cons_zero, getD_cons_succ, Option.some.injEq,
      Prod.mk.injEq, true_and] at h
    simp [CellKind.eval]
  case ao31 | aoi31 =>
    have hinj := append_inj h (by simp [length_sortTriple])
    obtain ⟨htriple, hlast⟩ := hinj
    obtain rfl : d = d' := by simpa using hlast
    have hperm := sortTriple_perm htriple
    have hand := and_triple ρ hperm
    exact ⟨hperm.append_right [d], by grind⟩
  all_goals
    obtain ⟨hperm, hand, hor⟩ := hpairs h
    exact ⟨hperm, by grind⟩

theorem cseKey_sound (hn : inputs.length = kind.arity)
    (hn' : inputs'.length = kind'.arity) (h : cseKey kind inputs = some key)
    (h' : cseKey kind' inputs' = some key) :
    inputs.Perm inputs' ∧ kind.eval (inputs.map ρ) = kind'.eval (inputs'.map ρ) := by
  obtain rfl : kind = kind' := (cseKey_fst h).symm.trans (cseKey_fst h')
  have heq := h.trans h'.symm
  have hone : kind.arity = 1 ∨ kind.arity = 2 ∨ kind.arity = 3 ∨ kind.arity = 4 := by
    cases kind <;> simp [CellKind.arity]
  obtain hk | hk | hk | hk := hone
  · obtain ⟨a, rfl⟩ := length_eq_one_iff.1 (hn.trans hk)
    obtain ⟨a', rfl⟩ := length_eq_one_iff.1 (hn'.trans hk)
    have ha : a = a' := by
      cases kind <;> simp only [CellKind.arity] at hk <;> try omega
      case buf => simp [cseKey] at h
      simpa only [cseKey, netAt, getD_cons_zero, Option.some.injEq, Prod.mk.injEq,
        List.cons.injEq, true_and, and_true] using heq
    rw [ha]
    exact ⟨.refl _, rfl⟩
  · obtain ⟨a, b, rfl⟩ := length_eq_two.1 (hn.trans hk)
    obtain ⟨a', b', rfl⟩ := length_eq_two.1 (hn'.trans hk)
    exact cseKey_sound_pair hk heq
  · obtain ⟨a, b, c, rfl⟩ := length_eq_three.1 (hn.trans hk)
    obtain ⟨a', b', c', rfl⟩ := length_eq_three.1 (hn'.trans hk)
    exact cseKey_sound_triple hk heq
  · obtain ⟨a, b, c, d, rfl⟩ := length_four (hn.trans hk)
    obtain ⟨a', b', c', d', rfl⟩ := length_four (hn'.trans hk)
    exact cseKey_sound_four hk heq

end Keys

/-- A valuation follows the constants and the cells. -/
structure Solves (nets : List NetDriver) (cells : List Cell) (ρ : NetId → Bool) : Prop where
  const_eq : ∀ n b, constOf nets n = some b → ρ n = b
  cell_eq : ∀ c ∈ cells, ρ c.output = c.kind.eval (c.inputs.map ρ)

/-- The drivers agree with the cells. -/
structure Drives (nets : List NetDriver) (cells : List Cell) : Prop where
  gnd : constOf nets netConst0 = some false
  vdd : constOf nets netConst1 = some true
  driver_eq : ∀ (i : ℕ) (c : Cell), cells[i]? = some c → nets[c.output]? = some (.cell i)
  cell_of : ∀ (n : NetId) (i : ℕ), nets[n]? = some (.cell i) → ∃ c : Cell, cells[i]? = some c ∧ c.output = n
  arity : ∀ c ∈ cells, c.inputs.length = c.kind.arity

/-- The reads of a cell lie below its output, and what no cell drives lies at
the bottom. -/
structure Ranked (nets : List NetDriver) (cells : List Cell) (r : NetId → ℕ) : Prop where
  zero : ∀ n : NetId, (∀ i, nets[n]? ≠ some (.cell i)) → r n = 0
  lt : ∀ c ∈ cells, ∀ n ∈ c.inputs, r n < r c.output

/-- What holds of the cells, the keys and the consumers while cells are visited:
nothing reads a settled buffer. -/
structure Inv (nets : List NetDriver) (original : List Cell) (r : NetId → ℕ) (settled : ℕ → Prop)
    (cells : List Cell) (seen : CseKey → Option ℕ) (consumers : NetId → List ℕ) : Prop where
  drives : Drives nets cells
  sound : ∀ ρ, Solves nets original ρ → Solves nets cells ρ
  ranked : Ranked nets cells r
  reads : ∀ (i : ℕ) (c : Cell) (n : NetId), cells[i]? = some c → n ∈ c.inputs → i ∈ consumers n
  bypassed : ∀ (i : ℕ) (c : Cell), settled i → cells[i]? = some c → c.kind = .buf → ∀ d ∈ cells,
    c.output ∉ d.inputs
  fresh : ∀ key i, seen key = some i → ∃ c : Cell, cells[i]? = some c ∧ cseKey c.kind c.inputs = some key

section Invariant

variable {nets : List NetDriver} {original cells : List Cell} {r r' : NetId → ℕ}
  {settled : ℕ → Prop} {seen seen' : CseKey → Option ℕ} {consumers consumers' : NetId → List ℕ}
  {idx : ℕ} {c : Cell}

theorem getElem?_set_cases {i : ℕ} {d e : Cell} (hj : cells[j]? = some d)
    (h : (cells.set j e)[i]? = some c) : (i = j ∧ c = e) ∨ (i ≠ j ∧ cells[i]? = some c) := by
  by_cases hi : i = j
  · subst hi
    rw [getElem?_set_self (List.getElem?_eq_some_iff.1 hj).1] at h
    exact .inl ⟨rfl, (Option.some.inj h).symm⟩
  · exact .inr ⟨hi, by rwa [getElem?_set_ne (Ne.symm hi)] at h⟩

theorem mem_set_cases (hj : cells[j]? = some d) (h : c ∈ cells.set j e) : c = e ∨ c ∈ cells := by
  obtain ⟨i, hi⟩ := mem_iff_getElem?.1 h
  obtain ⟨-, rfl⟩ | ⟨-, hc⟩ := getElem?_set_cases hj hi
  · exact .inl rfl
  · exact .inr (mem_of_getElem? hc)

theorem Drives.set (h : Drives nets cells) (hc : cells[idx]? = some c)
    (hout : e.output = c.output) (harity : e.inputs.length = e.kind.arity) :
    Drives nets (cells.set idx e) := by
  refine ⟨h.gnd, h.vdd, fun i d hd => ?_, fun n i hn => ?_, fun d hd => ?_⟩
  · obtain ⟨rfl, rfl⟩ | ⟨-, hd⟩ := getElem?_set_cases hc hd
    · rw [hout]
      exact h.driver_eq i c hc
    · exact h.driver_eq i d hd
  · obtain ⟨d, hd, rfl⟩ := h.cell_of n i hn
    by_cases hi : i = idx
    · subst hi
      obtain rfl : d = c := Option.some.inj (hd.symm.trans hc)
      exact ⟨e, getElem?_set_self (List.getElem?_eq_some_iff.1 hc).1, hout⟩
    · exact ⟨d, (getElem?_set_ne (Ne.symm hi)).trans hd, rfl⟩
  · obtain rfl | hd := mem_set_cases hc hd
    · exact harity
    · exact h.arity d hd

theorem Drives.index_unique (h : Drives nets cells)
    (hi : cells[i]? = some c) (hj : cells[j]? = some d) (hout : c.output = d.output) : i = j := by
  have heq := (h.driver_eq i c hi).symm.trans (hout ▸ h.driver_eq j d hj)
  simpa using heq

theorem Solves.set (h : Solves nets cells ρ)
    (hc : cells[idx]? = some c) (he : ρ e.output = e.kind.eval (e.inputs.map ρ)) :
    Solves nets (cells.set idx e) ρ := by
  refine ⟨h.const_eq, fun d hd => ?_⟩
  obtain rfl | hd := mem_set_cases hc hd
  · exact he
  · exact h.cell_eq d hd

theorem mem_rewire {out src : NetId} (h : n ∈ (c.rewire out src).inputs) :
    n = src ∨ (n ∈ c.inputs ∧ n ≠ out) := by
  obtain ⟨m, hm, rfl⟩ := mem_map.1 h
  by_cases hout : m = out
  · exact .inl (if_pos hout)
  · rw [if_neg hout]
    exact .inr ⟨hm, hout⟩

section

variable (h : Inv nets original r settled cells seen consumers)

include h

theorem Inv.set (hc : cells[idx]? = some c) {kind : CellKind} {inputs : List NetId}
    (harity : inputs.length = kind.arity)
    (hvalue : ∀ ρ, Solves nets cells ρ → ρ c.output = kind.eval (inputs.map ρ))
    (hranked : Ranked nets (cells.set idx ⟨kind, inputs, c.output⟩) r')
    (hfree : ∀ n ∈ inputs, ∀ i d, settled i → cells[i]? = some d → d.kind = .buf → d.output ≠ n)
    (hother : ∀ i n, i ∈ consumers n → i ≠ idx → i ∈ consumers' n)
    (hreads : ∀ n ∈ inputs, idx ∈ consumers' n)
    (hseen : ∀ key i, seen' key = some i → seen key = some i ∧ i ≠ idx)
    (hsettled : settled idx → kind ≠ .buf) :
    Inv nets original r' settled (cells.set idx ⟨kind, inputs, c.output⟩) seen' consumers' := by
  refine ⟨h.drives.set hc rfl harity, fun ρ hρ => ?_, hranked, fun i d n hd hn => ?_,
    fun i d hi hd hbuf e he => ?_, fun key i hkey => ?_⟩
  · exact (h.sound ρ hρ).set hc (hvalue ρ (h.sound ρ hρ))
  · obtain ⟨rfl, rfl⟩ | ⟨hne, hd⟩ := getElem?_set_cases hc hd
    · exact hreads n hn
    · exact hother i n (h.reads i d n hd hn) hne
  · obtain ⟨rfl, rfl⟩ | ⟨hne, hd⟩ := getElem?_set_cases hc hd
    · exact absurd hbuf (hsettled hi)
    · obtain rfl | he := mem_set_cases hc he
      · exact fun hmem => hfree _ hmem i d hi hd hbuf rfl
      · exact h.bypassed i d hi hd hbuf e he
  · obtain ⟨hkey, hne⟩ := hseen key i hkey
    obtain ⟨d, hd, hcse⟩ := h.fresh key i hkey
    exact ⟨d, (getElem?_set_ne (Ne.symm hne)).trans hd, hcse⟩

/-- Moving the reads of one cell past a buffer. -/
theorem Inv.rewire {out src : NetId}
    (hbuf : cells[idx]? = some ⟨.buf, [src], out⟩) (hc : cells[j]? = some c)
    (hother : ∀ i n, i ∈ consumers n → n ≠ out ∨ i ≠ j → i ∈ consumers' n)
    (hreads : j ∈ consumers' src)
    (hseen : ∀ key i, seen' key = some i → seen key = some i ∧ i ≠ j) :
    Inv nets original r settled (cells.set j (c.rewire out src)) seen' consumers' := by
  have hmem : (⟨.buf, [src], out⟩ : Cell) ∈ cells := mem_of_getElem? hbuf
  refine ⟨h.drives.set hc rfl ?_, fun ρ hρ => ?_, ⟨h.ranked.zero, fun d hd n hn => ?_⟩,
    fun i d n hd hn => ?_, fun i d hi hd hkind e he => ?_, fun key i hkey => ?_⟩
  · exact (length_map _).trans (h.drives.arity c (mem_of_getElem? hc))
  · have hsolves := h.sound ρ hρ
    refine hsolves.set hc ?_
    have hsrc : ρ out = ρ src := hsolves.cell_eq _ hmem
    have hvalues : (c.rewire out src).inputs.map ρ = c.inputs.map ρ := by
      rw [Cell.rewire, map_map]
      refine map_congr_left fun n _ => ?_
      by_cases hn : n = out
      · simp [hn, hsrc]
      · simp [hn]
    rw [hvalues]
    exact hsolves.cell_eq c (mem_of_getElem? hc)
  · obtain rfl | hd := mem_set_cases hc hd
    · obtain rfl | ⟨hn, -⟩ := mem_rewire hn
      · by_cases hread : out ∈ c.inputs
        · exact Nat.lt_trans (h.ranked.lt _ hmem n (mem_singleton_self n))
            (h.ranked.lt c (mem_of_getElem? hc) out hread)
        · -- a cell that does not read the buffer keeps its inputs
          obtain ⟨m, hm, heq⟩ := mem_map.1 hn
          have hne : m ≠ out := fun h => hread (h ▸ hm)
          rw [if_neg hne] at heq
          exact heq ▸ h.ranked.lt c (mem_of_getElem? hc) m hm
      · exact h.ranked.lt c (mem_of_getElem? hc) n hn
    · exact h.ranked.lt d hd n hn
  · obtain ⟨rfl, rfl⟩ | ⟨hne, hd⟩ := getElem?_set_cases hc hd
    · obtain rfl | ⟨hn, hout⟩ := mem_rewire hn
      · exact hreads
      · exact hother i n (h.reads i c n hc hn) (.inl hout)
    · exact hother i n (h.reads i d n hd hn) (.inr hne)
  · have hunread : ∀ e ∈ cells, d.output ∉ e.inputs := by
      obtain ⟨rfl, rfl⟩ | ⟨-, hd⟩ := getElem?_set_cases hc hd
      · exact h.bypassed i c hi hc hkind
      · exact h.bypassed i d hi hd hkind
    obtain rfl | he := mem_set_cases hc he
    · intro hn
      obtain hsrc | ⟨hn, -⟩ := mem_rewire hn
      · exact hunread _ hmem (hsrc ▸ mem_singleton_self _)
      · exact hunread c (mem_of_getElem? hc) hn
    · exact hunread e he
  · obtain ⟨hkey, hne⟩ := hseen key i hkey
    obtain ⟨d, hd, hcse⟩ := h.fresh key i hkey
    exact ⟨d, (getElem?_set_ne (Ne.symm hne)).trans hd, hcse⟩

theorem Inv.mono (hmono : ∀ i n, i ∈ consumers n → i ∈ consumers' n) :
    Inv nets original r settled cells seen consumers' :=
  { h with reads := fun i c n hc hn => hmono i n (h.reads i c n hc hn) }

end

end Invariant

section Rewire

variable {nets : List NetDriver} {original : List Cell} {r : NetId → ℕ} {settled : ℕ → Prop}
  {idx : ℕ} {out src : NetId} {st : SimplifyState}

/-- The consumers of a net whose list is taken and partly worked off. -/
def withPending (consumers : NetId → List ℕ) (out : NetId) (todo : List ℕ) : NetId → List ℕ :=
  fun n => if n = out then consumers n ++ todo else consumers n

theorem mem_withPending {todo : List ℕ} :
    i ∈ withPending consumers out todo n ↔ i ∈ consumers n ∨ (n = out ∧ i ∈ todo) := by
  unfold withPending
  by_cases hn : n = out <;> simp [hn]

theorem mem_pushConsumer :
    i ∈ pushConsumer j consumers m n ↔ i ∈ consumers n ∨ (n = m ∧ i = j) := by
  unfold pushConsumer
  by_cases hn : n = m
  · subst hn
    simp
  · simp [hn]

theorem forgetKey_eq {c : Cell} (hfresh : ∀ key i, seen key = some i →
      ∃ c : Cell, cells[i]? = some c ∧ cseKey c.kind c.inputs = some key)
    (hc : cells[j]? = some c) (h : forgetKey seen j c key = some i) :
    seen key = some i ∧ i ≠ j := by
  unfold forgetKey at h
  have hown : seen key = some j → cseKey c.kind c.inputs = some key := by
    intro hkey
    obtain ⟨d, hd, hcse⟩ := hfresh key j hkey
    obtain rfl : d = c := Option.some.inj (hd.symm.trans hc)
    exact hcse
  cases hcse : cseKey c.kind c.inputs with
  | none =>
    rw [hcse] at h
    refine ⟨h, ?_⟩
    rintro rfl
    exact absurd (hown h) (by simp [hcse])
  | some own =>
    rw [hcse] at h
    dsimp only at h
    split at h
    · rename_i hentered
      by_cases hkey : key = own
      · simp [hkey] at h
      · rw [update_of_ne hkey] at h
        refine ⟨h, ?_⟩
        rintro rfl
        exact hkey (Option.some.inj ((hown h).symm.trans hcse))
    · rename_i hentered
      refine ⟨h, ?_⟩
      rintro rfl
      obtain rfl : key = own := Option.some.inj ((hown h).symm.trans hcse)
      exact hentered h

/-- What holds while the consumers of a buffer are worked off. -/
structure Rewiring (nets : List NetDriver) (original : List Cell) (r : NetId → ℕ)
    (settled : ℕ → Prop) (idx : ℕ) (out src : NetId) (st : SimplifyState) (todo : List ℕ) :
    Prop where
  inv : Inv nets original r settled st.cells st.seen (withPending st.consumers out todo)
  buf : st.cells[idx]? = some ⟨.buf, [src], out⟩
  taken : st.consumers out = []

namespace Rewiring

variable {todo : List ℕ} {j : ℕ}

theorem src_ne (h : Rewiring nets original r settled idx out src st todo) : src ≠ out := by
  intro heq
  have hlt := h.inv.ranked.lt _ (mem_of_getElem? h.buf) src (mem_singleton_self src)
  rw [heq] at hlt
  exact Nat.lt_irrefl _ hlt

/-- A pending consumer that does not read the buffer may be dropped. -/
theorem skip (h : Rewiring nets original r settled idx out src st (j :: todo))
    (hread : ∀ c, st.cells[j]? = some c → out ∉ c.inputs) :
    Rewiring nets original r settled idx out src st todo := by
  refine ⟨{ h.inv with reads := fun i c n hc hn => ?_ }, h.buf, h.taken⟩
  obtain hmem | ⟨hout, hmem⟩ := mem_withPending.1 (h.inv.reads i c n hc hn)
  · exact mem_withPending.2 (.inl hmem)
  · refine mem_withPending.2 (.inr ⟨hout, (mem_cons.1 hmem).resolve_left fun hi => ?_⟩)
    exact hread c (hi ▸ hc) (hout ▸ hn)

theorem idx_not_read (h : Rewiring nets original r settled idx out src st todo) :
    ∀ c, st.cells[idx]? = some c → out ∉ c.inputs := by
  intro c hc
  obtain rfl := Option.some.inj (hc.symm.trans h.buf)
  simpa using h.src_ne.symm

theorem move (h : Rewiring nets original r settled idx out src st (j :: todo)) {c : Cell}
    (hc : st.cells[j]? = some c) (hj : j ≠ idx)
    (hseen : ∀ key i, seen key = some i → st.seen key = some i ∧ i ≠ j) (wl : List ℕ) :
    Rewiring nets original r settled idx out src
      ⟨st.cells.set j (c.rewire out src), pushConsumer j st.consumers src, seen, wl⟩ todo := by
  refine ⟨h.inv.rewire h.buf hc (fun i n hi hn => ?_) ?_ hseen, ?_, ?_⟩
  · obtain hmem | ⟨hout, hmem⟩ := mem_withPending.1 hi
    · exact mem_withPending.2 (.inl (mem_pushConsumer.2 (.inl hmem)))
    · exact mem_withPending.2 (.inr ⟨hout, (mem_cons.1 hmem).resolve_left
        (hn.resolve_left (not_not.2 hout))⟩)
  · exact mem_withPending.2 (.inl (mem_pushConsumer.2 (.inr ⟨rfl, rfl⟩)))
  · exact (getElem?_set_ne hj).trans h.buf
  · show pushConsumer j st.consumers src out = []
    rw [pushConsumer, update_of_ne h.src_ne.symm, h.taken]

theorem finish (h : Rewiring nets original r settled idx out src st []) :
    Inv nets original r (fun i => settled i ∨ i = idx) st.cells st.seen st.consumers := by
  have hreads : ∀ (i : ℕ) (c : Cell) (n : NetId), st.cells[i]? = some c → n ∈ c.inputs →
      i ∈ st.consumers n := by
    intro i c n hc hn
    obtain hmem | ⟨-, hmem⟩ := mem_withPending.1 (h.inv.reads i c n hc hn)
    · exact hmem
    · exact absurd hmem not_mem_nil
  refine { h.inv with reads := hreads, bypassed := fun i c hi hc hbuf d hd hn => ?_ }
  obtain hi | rfl := hi
  · exact h.inv.bypassed i c hi hc hbuf d hd hn
  · obtain rfl := Option.some.inj (hc.symm.trans h.buf)
    obtain ⟨k, hk⟩ := mem_iff_getElem?.1 hd
    have hmem := hreads k d out hk hn
    rw [h.taken] at hmem
    exact absurd hmem not_mem_nil

section

variable (h : Rewiring nets original r settled idx out src st (j :: todo))

include h

theorem rewireConsumer :
    Rewiring nets original r settled idx out src (rewireConsumer idx out src st j) todo := by
  unfold Synthesizer.rewireConsumer
  by_cases hj : j = idx
  · rw [if_pos hj]
    exact h.skip (hj ▸ h.idx_not_read)
  · rw [if_neg hj]
    cases hc : st.cells[j]? with
    | none => exact h.skip (by simp [hc])
    | some c =>
      dsimp only
      by_cases hread : out ∉ c.inputs
      · rw [if_pos hread]
        exact h.skip fun d hd => Option.some.inj (hc.symm.trans hd) ▸ hread
      · rw [if_neg hread]
        exact h.move hc hj (fun key i => forgetKey_eq h.inv.fresh hc) _

theorem preRewire (hempty : st.seen = fun _ => none) :
    Rewiring nets original r settled idx out src (preRewire idx out src st j) todo := by
  unfold Synthesizer.preRewire
  by_cases hj : j = idx
  · rw [if_pos hj]
    exact h.skip (hj ▸ h.idx_not_read)
  · rw [if_neg hj]
    cases hc : st.cells[j]? with
    | none =>
      have hmodify : st.cells.modify j (Cell.rewire out src) = st.cells := by
        refine modify_eq_self ?_
        exact List.getElem?_eq_none_iff.1 hc
      have hskip := h.skip (by simp [hc])
      refine ⟨?_, ?_, ?_⟩
      · rw [hmodify]
        refine hskip.inv.mono fun i n hi => ?_
        obtain hi | hi := mem_withPending.1 hi
        · exact mem_withPending.2 (.inl (mem_pushConsumer.2 (.inl hi)))
        · exact mem_withPending.2 (.inr hi)
      · show (st.cells.modify j (Cell.rewire out src))[idx]? = _
        rw [hmodify]
        exact h.buf
      · show pushConsumer j st.consumers src out = []
        rw [pushConsumer, update_of_ne h.src_ne.symm, h.taken]
    | some c =>
      have hset : st.cells.modify j (Cell.rewire out src) = st.cells.set j (c.rewire out src) := by
        have hlt : j < st.cells.length := (List.getElem?_eq_some_iff.1 hc).1
        refine ext_getElem? fun i => ?_
        rw [getElem?_modify, getElem?_set]
        by_cases hi : j = i
        · subst hi
          rw [hc, if_pos rfl, if_pos hlt]
          exact congrArg some (if_pos rfl)
        · simp [hi]
      rw [hset]
      exact h.move hc hj (fun key i hkey => by simp [hempty] at hkey) _

end

section

variable (h : Rewiring nets original r settled idx out src st todo)

include h

theorem foldl_rewireConsumer : Rewiring nets original r settled idx out src
      (todo.foldl (Synthesizer.rewireConsumer idx out src) st) [] := by
  induction todo generalizing st with
  | nil => exact h
  | cons j todo ih => exact ih h.rewireConsumer

theorem foldl_preRewire (hempty : st.seen = fun _ => none) :
    Rewiring nets original r settled idx out src
      (todo.foldl (Synthesizer.preRewire idx out src) st) [] ∧
      (todo.foldl (Synthesizer.preRewire idx out src) st).seen = fun _ => none := by
  induction todo generalizing st with
  | nil => exact ⟨h, hempty⟩
  | cons j todo ih =>
    have hnext : (Synthesizer.preRewire idx out src st j).seen = fun _ => none := by
      unfold Synthesizer.preRewire
      split <;> exact hempty
    exact ih (h.preRewire hempty) hnext

end

theorem start (h : Inv nets original r settled st.cells st.seen st.consumers)
    (hbuf : st.cells[idx]? = some ⟨.buf, [src], out⟩) :
    Rewiring nets original r settled idx out src
      { st with consumers := Function.update st.consumers out [] } (st.consumers out) := by
  refine ⟨h.mono fun i n hi => ?_, hbuf, update_self ..⟩
  by_cases hn : n = out
  · exact mem_withPending.2 (.inr ⟨hn, hn ▸ hi⟩)
  · refine mem_withPending.2 (.inl ?_)
    show i ∈ Function.update st.consumers out [] n
    rwa [update_of_ne hn]

end Rewiring

theorem preVisit_inv (h : Inv nets original r settled st.cells st.seen st.consumers)
    (hempty : st.seen = fun _ => none) :
    Inv nets original r (fun i => settled i ∨ i = idx) (preVisit st idx).cells
        (preVisit st idx).seen (preVisit st idx).consumers ∧
      (preVisit st idx).seen = fun _ => none := by
  have hskip : (∀ c, st.cells[idx]? = some c → c.kind ≠ .buf) →
      Inv nets original r (fun i => settled i ∨ i = idx) st.cells st.seen st.consumers := by
    intro hkind
    refine { h with bypassed := fun i c hi hc hbuf => ?_ }
    obtain hi | rfl := hi
    · exact h.bypassed i c hi hc hbuf
    · exact absurd hbuf (hkind c hc)
  unfold preVisit
  cases hc : st.cells[idx]? with
  | none => exact ⟨hskip (by simp [hc]), hempty⟩
  | some c =>
    dsimp only
    have hmem := mem_of_getElem? hc
    by_cases hbuf : c.kind = .buf
    · obtain ⟨n, hn⟩ := length_eq_one_iff.1
        ((h.drives.arity c hmem).trans (by rw [hbuf]; rfl))
      have hcell : c = ⟨.buf, [n], c.output⟩ := by
        obtain ⟨kind, inputs, output⟩ := c
        simp_all
      have hsrc : netAt c.inputs 0 = n := by simp [hn, netAt]
      have hlt := h.ranked.lt c hmem n (by simp [hn])
      have hne : n ≠ c.output := fun heq => Nat.lt_irrefl _ (heq ▸ hlt)
      rw [if_neg (by simp [hbuf, hsrc, hne]), hsrc]
      have hstart := Rewiring.start h (hc.trans (congrArg some hcell))
      obtain ⟨hdone, hseen⟩ := hstart.foldl_preRewire hempty
      exact ⟨hdone.finish, hseen⟩
    · rw [if_pos (.inl hbuf)]
      refine ⟨hskip fun d hd => ?_, hempty⟩
      exact Option.some.inj (hc.symm.trans hd) ▸ hbuf

end Rewire

section Visit

variable {nets : List NetDriver} {original : List Cell} {r : NetId → ℕ} {idx : ℕ}
  {st : SimplifyState} {c : Cell}

/-- Every buffer is settled between two visits. -/
abbrev Settled (nets : List NetDriver) (original : List Cell) (r : NetId → ℕ)
    (st : SimplifyState) : Prop :=
  Inv nets original r (fun _ => True) st.cells st.seen st.consumers

theorem mem_swapRemove {xs : List ℕ} {pos : ℕ} {x y : ℕ} (hx : x ∈ xs) (hpos : xs[pos]? = some y)
    (hne : x ≠ y) : x ∈ swapRemove xs pos := by
  obtain ⟨init, last, rfl⟩ : ∃ init last, xs = init ++ [last] :=
    (eq_nil_or_concat' xs).resolve_left (ne_nil_of_mem hx)
  have hswap : swapRemove (init ++ [last]) pos = ((init ++ [last]).set pos last).dropLast := by
    simp [swapRemove]
  rw [hswap]
  by_cases hlt : pos < init.length
  · rw [set_append_left _ _ hlt, dropLast_concat]
    rw [getElem?_append_left hlt] at hpos
    obtain hx | hx := mem_append.1 hx
    · obtain ⟨i, hi⟩ := mem_iff_getElem?.1 hx
      have hi' : i ≠ pos := by
        rintro rfl
        exact hne (Option.some.inj (hi.symm.trans hpos))
      exact mem_iff_getElem?.2 ⟨i, (getElem?_set_ne (Ne.symm hi')).trans hi⟩
    · rw [mem_singleton.1 hx]
      exact mem_set hlt last
  · have hset : (init ++ [last]).set pos last = init ++ [last] := by
      rw [set_append_right _ _ (Nat.le_of_not_lt hlt)]
      cases hp : pos - init.length <;> simp
    rw [hset, dropLast_concat]
    obtain hx | hx := mem_append.1 hx
    · exact hx
    · obtain rfl := mem_singleton.1 hx
      rw [getElem?_append_right (Nat.le_of_not_lt hlt), getElem?_singleton] at hpos
      split at hpos
      · exact absurd (Option.some.inj hpos) hne
      · cases hpos

theorem mem_pruneConsumer
    (h : i ∈ consumers n) (hi : i ≠ idx) : i ∈ pruneConsumer idx consumers m n := by
  unfold pruneConsumer
  split
  · cases hpos : (consumers m).idxOf? idx with
    | none => exact h
    | some pos =>
      by_cases hn : n = m
      · subst hn
        dsimp only
        rw [update_self]
        obtain ⟨hlt, heq, -⟩ := idxOf?_eq_some_iff.1 hpos
        exact mem_swapRemove h ((getElem?_eq_getElem hlt).trans (congrArg some heq)) hi
      · dsimp only
        rwa [update_of_ne hn]
  · exact h

theorem mem_foldl_pruneConsumer (inputs : List NetId) (h : i ∈ consumers n) (hi : i ≠ idx) :
    i ∈ inputs.foldl (pruneConsumer idx) consumers n := by
  induction inputs generalizing consumers with
  | nil => exact h
  | cons m inputs ih => exact ih (mem_pruneConsumer h hi)

theorem mem_foldl_pushConsumer
    (inputs : List NetId) (h : i ∈ consumers n ∨ (n ∈ inputs ∧ i = idx)) :
    i ∈ inputs.foldl (pushConsumer idx) consumers n := by
  induction inputs generalizing consumers with
  | nil =>
    obtain h | ⟨h, -⟩ := h
    · exact h
    · exact absurd h not_mem_nil
  | cons m inputs ih =>
    refine ih ?_
    obtain h | ⟨h, hi⟩ := h
    · exact .inl (mem_pushConsumer.2 (.inl h))
    · obtain rfl | h := mem_cons.1 h
      · exact .inl (mem_pushConsumer.2 (.inr ⟨rfl, hi⟩))
      · exact .inr ⟨h, hi⟩

/-- What a rewrite of a cell has to satisfy. -/
structure Legal (nets : List NetDriver) (r' : NetId → ℕ) (st : SimplifyState) (idx : ℕ) (c : Cell)
    (kind : CellKind) (inputs : List NetId) : Prop where
  arity : inputs.length = kind.arity
  value : ∀ ρ, Solves nets st.cells ρ → ρ c.output = kind.eval (inputs.map ρ)
  ranked : Ranked nets (st.cells.set idx ⟨kind, inputs, c.output⟩) r'
  unbuffered : ∀ n ∈ inputs, ∀ d ∈ st.cells, d.kind = .buf → d.output ≠ n

theorem Drives.arity_pos (h : Drives nets st.cells) (hc : c ∈ st.cells) : ∃ n, n ∈ c.inputs := by
  refine exists_mem_of_length_pos ?_
  rw [h.arity c hc]
  cases c.kind <;> simp [CellKind.arity]

/-- A net that a cell may be made to read: a net that is read, or a constant. -/
def Readable (nets : List NetDriver) (cells : List Cell) (n : NetId) : Prop :=
  (∃ d ∈ cells, n ∈ d.inputs) ∨ constOf nets n ≠ none

theorem Ranked.const_zero (h : Ranked nets st.cells r) (hn : constOf nets n ≠ none) : r n = 0 := by
  refine h.zero n fun i hi => hn ?_
  rw [constOf, hi]
  rfl

theorem Ranked.set (h : Ranked nets st.cells r) (hc : st.cells[idx]? = some c) {kind : CellKind}
    {inputs : List NetId} (hlt : ∀ n ∈ inputs, r n < r c.output) :
    Ranked nets (st.cells.set idx ⟨kind, inputs, c.output⟩) r := by
  refine ⟨h.zero, fun d hd n hn => ?_⟩
  obtain rfl | hd := mem_set_cases hc hd
  · exact hlt n hn
  · exact h.lt d hd n hn

section

variable (h : Settled nets original r st)

include h

theorem install_inv (hc : st.cells[idx]? = some c)
    {kind : CellKind} {inputs : List NetId} {r' : NetId → ℕ}
    (hlegal : Legal nets r' st idx c kind inputs) :
    Settled nets original r' (install idx c kind inputs st) := by
  have hset : Inv nets original r' (fun i => kind = .buf → i ≠ idx)
      (st.cells.set idx ⟨kind, inputs, c.output⟩) (forgetKey st.seen idx c)
      (inputs.foldl (pushConsumer idx) (c.inputs.foldl (pruneConsumer idx) st.consumers)) := by
    have hweak : Inv nets original r (fun i => kind = .buf → i ≠ idx) st.cells st.seen
        st.consumers := { h with bypassed := fun i c _ => h.bypassed i c trivial }
    refine hweak.set hc hlegal.arity hlegal.value hlegal.ranked
      (fun n hn i d _ hd => hlegal.unbuffered n hn d (mem_of_getElem? hd))
      (fun i n hi hne => mem_foldl_pushConsumer _ (.inl (mem_foldl_pruneConsumer _ hi hne)))
      (fun n hn => mem_foldl_pushConsumer _ (.inr ⟨hn, rfl⟩))
      (fun key i => forgetKey_eq h.fresh hc) fun hne hkind => hne hkind rfl
  unfold install
  by_cases hbuf : kind = .buf
  · rw [if_pos hbuf]
    subst hbuf
    obtain ⟨src, rfl⟩ := length_eq_one_iff.1 hlegal.arity
    have hlt := (List.getElem?_eq_some_iff.1 hc).1
    let st' : SimplifyState := ⟨st.cells.set idx ⟨.buf, [src], c.output⟩,
      [src].foldl (pushConsumer idx) (c.inputs.foldl (pruneConsumer idx) st.consumers),
      forgetKey st.seen idx c, st.wl⟩
    have hcell : st'.cells[idx]? = some ⟨.buf, [src], c.output⟩ := getElem?_set_self hlt
    have hstart := Rewiring.start (show Inv nets original r' _ st'.cells st'.seen st'.consumers
      from hset) hcell
    have hdone := hstart.foldl_rewireConsumer.finish
    exact { hdone with bypassed := fun i d _ => hdone.bypassed i d (by
      by_cases hi : i = idx
      · exact .inr hi
      · exact .inl fun _ => hi) }
  · rw [if_neg hbuf]
    exact { hset with bypassed := fun i d _ => hset.bypassed i d fun hkind => absurd hkind hbuf }

theorem Ranked.pos (hc : c ∈ st.cells) : 0 < r c.output := by
  obtain ⟨n, hn⟩ := h.drives.arity_pos hc
  exact Nat.lt_of_le_of_lt (Nat.zero_le _) (h.ranked.lt c hc n hn)

theorem Readable.unbuffered
    (hn : Readable nets st.cells n) : ∀ d ∈ st.cells, d.kind = .buf → d.output ≠ n := by
  intro d hd hbuf heq
  obtain ⟨i, hi⟩ := mem_iff_getElem?.1 hd
  obtain ⟨e, he, hmem⟩ | hconst := hn
  · exact h.bypassed i d trivial hi hbuf e he (heq ▸ hmem)
  · refine hconst ?_
    rw [constOf, ← heq, h.drives.driver_eq i d hi]
    rfl

theorem Legal.of_readable (hc : st.cells[idx]? = some c)
    {kind : CellKind} {inputs : List NetId} (harity : inputs.length = kind.arity)
    (hvalue : ∀ ρ, Solves nets st.cells ρ → ρ c.output = kind.eval (inputs.map ρ))
    (hbelow : ∀ n ∈ inputs, Readable nets st.cells n ∧ r n < r c.output) :
    Legal nets r st idx c kind inputs :=
  ⟨harity, hvalue, h.ranked.set hc fun n hn => (hbelow n hn).2,
    fun n hn => (hbelow n hn).1.unbuffered h⟩

end

/-! #### Weights -/

/-- The highest rank a cell reads. -/
def maxRank (r : NetId → ℕ) (inputs : List NetId) : ℕ := (inputs.map r).foldr max 0

theorem le_maxRank {inputs : List NetId} {n : NetId} (h : n ∈ inputs) : r n ≤ maxRank r inputs := by
  induction inputs with
  | nil => exact absurd h not_mem_nil
  | cons m inputs ih =>
    show r n ≤ max (r m) (maxRank r inputs)
    obtain rfl | h := mem_cons.1 h
    · omega
    · have := ih h
      omega

theorem maxRank_le {inputs : List NetId} {b : ℕ} (h : ∀ n ∈ inputs, r n ≤ b) :
    maxRank r inputs ≤ b := by
  induction inputs with
  | nil => exact Nat.zero_le b
  | cons m inputs ih =>
    have hm := h m (mem_cons_self ..)
    have hrest := ih fun n hn => h n (mem_cons_of_mem _ hn)
    show max (r m) (maxRank r inputs) ≤ b
    omega

/-- A rewrite that leaves no buffer makes a cell lighter: it reads lower nets,
or fewer of the same. -/
def weight (r : NetId → ℕ) (inputs : List NetId) : ℕ := 4 * maxRank r inputs + inputs.length

theorem weight_lt_of_subset {inputs inputs' : List NetId} (hsub : ∀ n ∈ inputs', n ∈ inputs)
    (hlength : inputs'.length < inputs.length) : weight r inputs' < weight r inputs := by
  have hrank : maxRank r inputs' ≤ maxRank r inputs :=
    maxRank_le fun n hn => le_maxRank (hsub n hn)
  unfold weight
  omega

/-- What a visit may do to a cell that is no buffer. -/
structure Rewritten (nets : List NetDriver) (r : NetId → ℕ) (st : SimplifyState) (idx : ℕ)
    (c : Cell) (kind : CellKind) (inputs : List NetId) : Prop where
  legal : ∃ r', Legal nets r' st idx c kind inputs ∧ (kind ≠ .buf → r' = r)
  lighter : kind ≠ .buf → weight r inputs < weight r c.inputs

/-! #### Folding -/

theorem netAt_mem {inputs : List NetId} (h : i < inputs.length) : netAt inputs i ∈ inputs := by
  rw [netAt, getD_eq_getElem?_getD, getElem?_eq_getElem h]
  exact getElem_mem h

theorem simplify_reads {iv : List (Option Bool)} {inputs : List NetId} {kind : CellKind} {n : NetId}
    {s : Simpl} (hn : inputs.length = kind.arity) (hs : simplify iv inputs kind = some s) :
    (s = .aliasTo n → n ∈ inputs) ∧ (s = .invert n → n ∈ inputs ∧ 2 ≤ inputs.length) := by
  have hmem : ∀ i < inputs.length, netAt inputs i ∈ inputs := fun i hi => netAt_mem hi
  rw [hn] at hmem ⊢
  have h0 := hmem 0
  have h1 := hmem 1
  have h2 := hmem 2
  have h3 := hmem 3
  cases kind <;> simp only [CellKind.arity] at h0 h1 h2 h3 ⊢ <;>
    simp only [simplify, simplAbsorb2, simplAbsorb3, simplXorFamily, simplMux2, simplAoFamily,
      simplAoiFamily, simplAo31, simplAo22, simplAo22Pair, simplOai22, AbsorbParams.and,
      AbsorbParams.or, AbsorbParams.nand, AbsorbParams.nor] at hs
  all_goals
    grind [Simpl.invertSimpl, Option.map_eq_some_iff]

theorem Solves.agrees (h : Drives nets st.cells) (hρ : Solves nets st.cells ρ)
    (inputs : List NetId) : Agrees ρ (inputs.map (constOf nets)) inputs := by
  refine ⟨hρ.const_eq _ _ h.gnd, hρ.const_eq _ _ h.vdd, length_map _, fun i b hb => ?_⟩
  rw [ivAt, getD_eq_getElem?_getD, getElem?_map] at hb
  rw [netAt, getD_eq_getElem?_getD]
  cases hi : inputs[i]? with
  | none => simp [hi] at hb
  | some n =>
    rw [hi] at hb
    exact hρ.const_eq n b hb

/-- The rewrite a folded cell gets. -/
def foldRewrite : Simpl → CellKind × List NetId
  | .const v => (.buf, [if v then netConst1 else netConst0])
  | .aliasTo n => (.buf, [n])
  | .invert n => (.not, [n])

theorem rewritten_fold (h : Settled nets original r st) (hc : st.cells[idx]? = some c) {s : Simpl}
    (hs : simplify (c.inputs.map (constOf nets)) c.inputs c.kind = some s) :
    Rewritten nets r st idx c (foldRewrite s).1 (foldRewrite s).2 := by
  have hmem := mem_of_getElem? hc
  have harity := h.drives.arity c hmem
  have hvalue : ∀ ρ, Solves nets st.cells ρ → ρ c.output = s.value ρ := fun ρ hρ =>
    (hρ.cell_eq c hmem).trans (simplify_sound (hρ.agrees h.drives c.inputs) harity hs)
  have hread : ∀ n ∈ c.inputs, Readable nets st.cells n ∧ r n < r c.output :=
    fun n hn => ⟨.inl ⟨c, hmem, hn⟩, h.ranked.lt c hmem n hn⟩
  cases s with
  | const v =>
    have hconst : constOf nets (if v then netConst1 else netConst0) = some v := by
      cases v
      · exact h.drives.gnd
      · exact h.drives.vdd
    have hne : constOf nets (if v then netConst1 else netConst0) ≠ none := by simp [hconst]
    refine ⟨⟨r, .of_readable h hc rfl (fun ρ hρ => ?_) fun n hn => ?_, fun hbuf =>
      absurd rfl hbuf⟩, fun hbuf => absurd rfl hbuf⟩
    · exact (hvalue ρ hρ).trans (hρ.const_eq _ v hconst).symm
    · rw [mem_singleton.1 hn]
      exact ⟨.inr hne, (h.ranked.const_zero hne).symm ▸ Ranked.pos h hmem⟩
  | aliasTo n =>
    have hn := (@simplify_reads _ c.inputs c.kind n _ harity hs).1 rfl
    refine ⟨⟨r, .of_readable h hc rfl hvalue fun m hm => ?_, fun hbuf => absurd rfl hbuf⟩,
      fun hbuf => absurd rfl hbuf⟩
    exact mem_singleton.1 hm ▸ hread n hn
  | invert n =>
    obtain ⟨hn, hlength⟩ := (@simplify_reads _ c.inputs c.kind n _ harity hs).2 rfl
    refine ⟨⟨r, .of_readable h hc rfl hvalue fun m hm => ?_, fun _ => rfl⟩, fun _ => ?_⟩
    · exact mem_singleton.1 hm ▸ hread n hn
    · exact weight_lt_of_subset (fun m hm => mem_singleton.1 hm ▸ hn) hlength

theorem CellKind.inverted_sound {kind kind' : CellKind} (h : kind.inverted = some kind') :
    kind'.arity = kind.arity ∧ kind.arity ≤ 3 ∧ kind' ≠ .buf ∧
      ∀ xs : List Bool, xs.length = kind.arity → kind'.eval xs = !kind.eval xs := by
  cases kind <;> simp only [inverted, Option.some.injEq, reduceCtorEq] at h <;> subst h <;>
    refine ⟨rfl, by decide, by decide, fun xs hxs => ?_⟩
  all_goals
    first
    | obtain ⟨a, b, rfl⟩ := length_eq_two.1 hxs
      simp [eval]
    | obtain ⟨a, b, c, rfl⟩ := length_eq_three.1 hxs
      simp [eval]

section

variable (h : Settled nets original r st)

include h

section

variable (hc : st.cells[idx]? = some c)

include hc

theorem rewritten_not (hkind : c.kind = .not) {upIdx : ℕ} {up : Cell}
    (hup : nets[netAt c.inputs 0]? = some (.cell upIdx)) (hcell : st.cells[upIdx]? = some up) :
    (up.kind = .not → Rewritten nets r st idx c .buf [netAt up.inputs 0]) ∧
      ∀ kind, up.kind.inverted = some kind → Rewritten nets r st idx c kind up.inputs := by
  have hmem := mem_of_getElem? hc
  have humem := mem_of_getElem? hcell
  obtain ⟨n, hn⟩ := length_eq_one_iff.1 ((h.drives.arity c hmem).trans (by rw [hkind]; rfl))
  have hnet : netAt c.inputs 0 = n := by simp [hn, netAt]
  have hout : up.output = n := by
    obtain ⟨d, hd, hout⟩ := h.drives.cell_of _ _ hup
    obtain rfl := Option.some.inj (hcell.symm.trans hd)
    exact hout.trans hnet
  have hlow : r up.output < r c.output := by
    rw [hout]
    exact h.ranked.lt c hmem n (by simp [hn])
  have hread : ∀ m ∈ up.inputs, Readable nets st.cells m ∧ r m < r c.output :=
    fun m hm => ⟨.inl ⟨up, humem, hm⟩, Nat.lt_trans (h.ranked.lt up humem m hm) hlow⟩
  have hvalue : ∀ ρ, Solves nets st.cells ρ → ρ c.output = !up.kind.eval (up.inputs.map ρ) := by
    intro ρ hρ
    rw [hρ.cell_eq c hmem, hkind, hn, ← hρ.cell_eq up humem, hout]
    rfl
  constructor
  · intro hnot
    obtain ⟨m, hm⟩ := length_eq_one_iff.1 ((h.drives.arity up humem).trans (by rw [hnot]; rfl))
    have hmnet : netAt up.inputs 0 = m := by simp [hm, netAt]
    rw [hmnet]
    refine ⟨⟨r, .of_readable h hc rfl (fun ρ hρ => ?_) fun k hk => ?_, fun hbuf =>
      absurd rfl hbuf⟩, fun hbuf => absurd rfl hbuf⟩
    · rw [hvalue ρ hρ, hnot, hm]
      exact Bool.not_not _
    · exact mem_singleton.1 hk ▸ hread m (by simp [hm])
  · intro kind hinv
    obtain ⟨harity, hle, hne, hsound⟩ := CellKind.inverted_sound hinv
    have hlength := h.drives.arity up humem
    refine ⟨⟨r, .of_readable h hc (hlength.trans harity.symm) (fun ρ hρ => ?_) hread,
      fun _ => rfl⟩, fun _ => ?_⟩
    · rw [hvalue ρ hρ, hsound _ ((length_map _).trans hlength)]
    · -- at most three legs, all of them below the net that was read
      have hpos := Ranked.pos h humem
      have hmax : maxRank r up.inputs ≤ r up.output - 1 := by
        refine maxRank_le fun m hm => ?_
        have := h.ranked.lt up humem m hm
        omega
      have hown : r up.output ≤ maxRank r c.inputs := le_maxRank (by simp [hn, hout])
      unfold weight
      omega

theorem rewritten_mux (hkind : c.kind = .mux2) : (constOf nets (netAt c.inputs 1) = some false →
      Rewritten nets r st idx c .and2 [netAt c.inputs 0, netAt c.inputs 2]) ∧
    (constOf nets (netAt c.inputs 2) = some true →
      Rewritten nets r st idx c .or2 [netAt c.inputs 0, netAt c.inputs 1]) := by
  have hmem := mem_of_getElem? hc
  obtain ⟨sel, d0, d1, hn⟩ := length_eq_three.1 ((h.drives.arity c hmem).trans (by rw [hkind]; rfl))
  have h0 : netAt c.inputs 0 = sel := by simp [hn, netAt]
  have h1 : netAt c.inputs 1 = d0 := by simp [hn, netAt]
  have h2 : netAt c.inputs 2 = d1 := by simp [hn, netAt]
  have hvalue : ∀ ρ, Solves nets st.cells ρ → ρ c.output = if ρ sel then ρ d1 else ρ d0 := by
    intro ρ hρ
    rw [hρ.cell_eq c hmem, hkind, hn]
    rfl
  have hlegal : ∀ (kind : CellKind) (inputs : List NetId), kind.arity = 2 → inputs.length = 2 →
      (∀ n ∈ inputs, n ∈ c.inputs) →
      (∀ ρ, Solves nets st.cells ρ → ρ c.output = kind.eval (inputs.map ρ)) →
      Rewritten nets r st idx c kind inputs := by
    intro kind inputs harity hlength hsub hval
    refine ⟨⟨r, .of_readable h hc (hlength.trans harity.symm) hval fun n hn => ?_, fun _ => rfl⟩,
      fun _ => weight_lt_of_subset hsub ?_⟩
    · exact ⟨.inl ⟨c, hmem, hsub n hn⟩, h.ranked.lt c hmem n (hsub n hn)⟩
    · rw [hlength, hn]
      exact Nat.lt_succ_self 2
  rw [h0, h1, h2]
  constructor
  · intro hconst
    refine hlegal _ _ rfl rfl (by simp [hn]) fun ρ hρ => ?_
    rw [hvalue ρ hρ, hρ.const_eq d0 false hconst]
    cases hsel : ρ sel <;> simp [CellKind.eval, hsel]
  · intro hconst
    refine hlegal _ _ rfl rfl (by simp [hn]) fun ρ hρ => ?_
    rw [hvalue ρ hρ, hρ.const_eq d1 true hconst]
    cases hsel : ρ sel <;> simp [CellKind.eval, hsel]

theorem rewritten_fuse {kind : CellKind} {inputs : List NetId}
    (hs : algebraicFuse nets st c.kind c.inputs = some (kind, inputs)) :
    Rewritten nets r st idx c kind inputs := by
  unfold algebraicFuse at hs
  split at hs
  · rename_i hkind
    split at hs
    · rename_i upIdx hup
      split at hs
      · rename_i up hcell
        obtain ⟨hnot, hinv⟩ := rewritten_not h hc hkind hup hcell
        split at hs
        · rename_i hupKind
          obtain ⟨rfl, rfl⟩ := Prod.mk.inj (Option.some.inj hs)
          exact hnot hupKind
        · split at hs
          · cases hs
          · obtain ⟨k, hk, heq⟩ := Option.map_eq_some_iff.1 hs
            obtain ⟨rfl, rfl⟩ := Prod.mk.inj heq
            exact hinv k hk
      · cases hs
    · cases hs
  · rename_i hkind
    obtain ⟨hand, hor⟩ := rewritten_mux h hc hkind
    split at hs
    · rename_i hconst
      obtain ⟨rfl, rfl⟩ := Prod.mk.inj (Option.some.inj hs)
      exact hand hconst
    · split at hs
      · rename_i hconst
        obtain ⟨rfl, rfl⟩ := Prod.mk.inj (Option.some.inj hs)
        exact hor hconst
      · cases hs
  · cases hs

theorem rewritten_cse {other : ℕ} (hother : other ≠ idx) (hd : st.cells[other]? = some d)
    (hkey : cseKey c.kind c.inputs = some key) (hkey' : cseKey d.kind d.inputs = some key) :
    Rewritten nets r st idx c .buf [d.output] := by
  have hcmem := mem_of_getElem? hc
  have hdmem := mem_of_getElem? hd
  have hkeys := fun ρ : NetId → Bool => @cseKey_sound ρ _ _ _ _ key (h.drives.arity c hcmem)
    (h.drives.arity d hdmem) hkey hkey'
  have hne : d.output ≠ c.output := fun heq => hother (h.drives.index_unique hd hc heq)
  have hcpos : 0 < r c.output := Ranked.pos h hcmem
  let r' : NetId → ℕ := fun n =>
    if n = d.output then 2 * min (r c.output) (r d.output) - 1 else 2 * r n
  have hat : r' d.output = 2 * min (r c.output) (r d.output) - 1 := if_pos rfl
  have hoff : ∀ n, n ≠ d.output → r' n = 2 * r n := fun n hn => if_neg hn
  refine ⟨⟨r', ⟨rfl, fun ρ hρ => ?_, ⟨fun n hn => ?_, fun e he n hn => ?_⟩, ?_⟩,
    fun hbuf => absurd rfl hbuf⟩, fun hbuf => absurd rfl hbuf⟩
  · rw [hρ.cell_eq c hcmem, (hkeys ρ).2]
    exact (hρ.cell_eq d hdmem).symm
  · have hnd : n ≠ d.output := fun heq => hn other (heq ▸ h.drives.driver_eq other d hd)
    rw [hoff n hnd, h.ranked.zero n hn]
  · obtain rfl | he := mem_set_cases hc he
    · -- the new buffer lies above the cell it reads
      rw [mem_singleton.1 hn, hat, hoff _ hne.symm]
      omega
    · have hlt := h.ranked.lt e he n hn
      by_cases hed : e.output = d.output
      · obtain ⟨i, hi⟩ := mem_iff_getElem?.1 he
        obtain rfl := h.drives.index_unique hi hd hed
        obtain rfl := Option.some.inj (hi.symm.trans hd)
        have hnc := h.ranked.lt c hcmem n ((hkeys fun _ => false).1.mem_iff.2 hn)
        have hnd : n ≠ e.output := fun heq => Nat.lt_irrefl _ (heq ▸ hlt)
        rw [hat, hoff n hnd]
        omega
      · rw [hoff _ hed]
        by_cases hnd : n = d.output
        · rw [hnd, hat]
          rw [hnd] at hlt
          omega
        · rw [hoff n hnd]
          omega
  · intro n hn e he hbuf heq
    -- the other cell is no buffer, and no other cell has its output
    obtain ⟨i, hi⟩ := mem_iff_getElem?.1 he
    obtain rfl := h.drives.index_unique hi hd (heq.trans (mem_singleton.1 hn))
    obtain rfl := Option.some.inj (hi.symm.trans hd)
    rw [hbuf] at hkey'
    simp [cseKey] at hkey'

theorem chooseRewrite_spec :
    (∃ kind inputs, chooseRewrite nets st idx c = (st, some (kind, inputs)) ∧
      Rewritten nets r st idx c kind inputs) ∨
    ∃ seen, chooseRewrite nets st idx c = ({ st with seen := seen }, none) ∧
      Settled nets original r { st with seen := seen } := by
  unfold chooseRewrite
  split
  · rename_i v hs
    exact .inl ⟨_, _, rfl, rewritten_fold h hc hs⟩
  · rename_i n hs
    exact .inl ⟨_, _, rfl, rewritten_fold h hc hs⟩
  · rename_i n hs
    exact .inl ⟨_, _, rfl, rewritten_fold h hc hs⟩
  · split
    · rename_i rewrite hs
      exact .inl ⟨rewrite.1, rewrite.2, rfl, rewritten_fuse h hc hs⟩
    · unfold cseFold
      cases hkey : cseKey c.kind c.inputs with
      | none => exact .inr ⟨st.seen, rfl, h⟩
      | some key =>
        dsimp only
        cases hseen : st.seen key with
        | none =>
          refine .inr ⟨_, rfl, { h with fresh := fun k i hk => ?_ }⟩
          have hk : Function.update st.seen key (some idx) k = some i := hk
          by_cases heq : k = key
          · subst heq
            rw [update_self] at hk
            obtain rfl := Option.some.inj hk
            exact ⟨c, hc, hkey⟩
          · rw [update_of_ne heq] at hk
            exact h.fresh k i hk
        | some other =>
          dsimp only
          by_cases hother : other ≠ idx
          · obtain ⟨d, hd, hkey'⟩ := h.fresh key other hseen
            rw [if_pos hother, hd]
            exact .inl ⟨_, _, rfl, rewritten_cse h hc hother hd hkey hkey'⟩
          · rw [if_neg hother]
            exact .inr ⟨st.seen, rfl, h⟩

end

end

/-- The cells that are no buffers. -/
def liveCount (cells : List Cell) : ℕ := (cells.map Cell.kind).countP (· ≠ .buf)

def totalWeight (r : NetId → ℕ) (cells : List Cell) : ℕ :=
  (cells.map fun c => weight r c.inputs).sum

theorem set_split (h : cells[idx]? = some c) :
    ∃ xs ys, cells = xs ++ c :: ys ∧ ∀ e, cells.set idx e = xs ++ e :: ys := by
  obtain ⟨hlt, hget⟩ := List.getElem?_eq_some_iff.1 h
  refine ⟨cells.take idx, cells.drop (idx + 1), ?_, fun e => ?_⟩
  · rw [← hget, getElem_cons_drop, take_append_drop]
  · rw [set_eq_take_append_cons_drop, if_pos hlt]

theorem liveCount_set (h : cells[idx]? = some c) (hlive : c.kind ≠ .buf) (e : Cell) :
    (e.kind = .buf → liveCount (cells.set idx e) < liveCount cells) ∧
      (e.kind ≠ .buf → liveCount (cells.set idx e) = liveCount cells) := by
  obtain ⟨xs, ys, heq, hset⟩ := set_split h
  rw [hset, heq]
  unfold liveCount
  constructor <;> intro hkind <;> simp [hkind, hlive]

theorem totalWeight_set (h : cells[idx]? = some c) (hlt : weight r e.inputs < weight r c.inputs) :
    totalWeight r (cells.set idx e) < totalWeight r cells := by
  obtain ⟨xs, ys, heq, hset⟩ := set_split h
  rw [hset, heq]
  simp only [totalWeight, map_append, map_cons, sum_append, sum_cons]
  omega

theorem kinds_set_rewire (h : cells[j]? = some c) (out src : NetId) :
    (cells.set j (c.rewire out src)).map Cell.kind = cells.map Cell.kind := by
  obtain ⟨xs, ys, heq, hset⟩ := set_split h
  rw [hset, heq]
  simp [Cell.rewire]

theorem kinds_foldl_rewireConsumer {out src : NetId} (todo : List ℕ) (st : SimplifyState) :
    (todo.foldl (rewireConsumer idx out src) st).cells.map Cell.kind = st.cells.map Cell.kind := by
  induction todo generalizing st with
  | nil => rfl
  | cons j todo ih =>
    rw [foldl_cons, ih]
    unfold rewireConsumer
    split
    · rfl
    · split
      · rfl
      · rename_i hc
        split
        · rfl
        · exact kinds_set_rewire hc out src

theorem visit_spec (h : Settled nets original r st) (idx : ℕ) :
    ∃ r', Settled nets original r' (visit nets idx st) ∧
      (liveCount (visit nets idx st).cells < liveCount st.cells ∨
        liveCount (visit nets idx st).cells = liveCount st.cells ∧ r' = r ∧
          (totalWeight r (visit nets idx st).cells < totalWeight r st.cells ∨
            (visit nets idx st).cells = st.cells ∧ (visit nets idx st).wl = st.wl)) := by
  unfold visit
  cases hc : st.cells[idx]? with
  | none => exact ⟨r, h, .inr ⟨rfl, rfl, .inr ⟨rfl, rfl⟩⟩⟩
  | some c =>
    dsimp only
    by_cases hbuf : c.kind = .buf
    · rw [if_pos hbuf]
      exact ⟨r, h, .inr ⟨rfl, rfl, .inr ⟨rfl, rfl⟩⟩⟩
    rw [if_neg hbuf]
    obtain ⟨kind, inputs, hchoose, hrewritten⟩ | ⟨seen, hchoose, hsettled⟩ :=
      chooseRewrite_spec h hc
    · rw [hchoose]
      obtain ⟨r', hlegal, hrank⟩ := hrewritten.legal
      refine ⟨r', install_inv h hc hlegal, ?_⟩
      obtain ⟨hfewer, hsame⟩ := liveCount_set hc hbuf ⟨kind, inputs, c.output⟩
      unfold install
      dsimp only
      by_cases hkind : kind = .buf
      · rw [if_pos hkind]
        refine .inl ?_
        unfold rewireConsumers
        rw [liveCount, kinds_foldl_rewireConsumer]
        exact hfewer hkind
      · rw [if_neg hkind]
        obtain rfl := hrank hkind
        exact .inr ⟨hsame hkind, rfl, .inl (totalWeight_set hc (hrewritten.lighter hkind))⟩
    · rw [hchoose]
      exact ⟨r, hsettled, .inr ⟨rfl, rfl, .inr ⟨rfl, rfl⟩⟩⟩

/-- Every order of visits comes to an end. -/
theorem acc_step (h : Settled nets original r st) : Acc (fun a b => Step nets b a) st := by
  obtain ⟨live, hlive⟩ : ∃ live, live = liveCount st.cells := ⟨_, rfl⟩
  induction live using Nat.strongRecOn generalizing r st with
  | ind live ihLive =>
  obtain ⟨total, htotal⟩ : ∃ total, total = totalWeight r st.cells := ⟨_, rfl⟩
  induction total using Nat.strongRecOn generalizing st with
  | ind total ihTotal =>
  obtain ⟨len, hlen⟩ : ∃ len, len = st.wl.length := ⟨_, rfl⟩
  induction len using Nat.strongRecOn generalizing st with
  | ind len ihLen =>
  refine Acc.intro _ fun st' hstep => ?_
  obtain ⟨hidx⟩ := hstep
  rename_i idx
  have hstart : Settled nets original r { st with wl := st.wl.erase idx } := h
  obtain ⟨r', hsettled, hless⟩ := visit_spec hstart idx
  obtain hless | ⟨hsame, rfl, hless | ⟨hcells, hwl⟩⟩ := hless
  · exact ihLive _ (hlive ▸ hless) hsettled rfl
  · exact ihTotal _ (htotal ▸ hless) hsettled (hlive.trans hsame.symm) rfl
  have hshorter : (st.wl.erase idx).length < st.wl.length := by
    rw [length_erase_of_mem hidx]
    have := length_pos_of_mem hidx
    omega
  refine ihLen _ ?_ hsettled (hlive.trans hsame.symm) (htotal.trans ?_) rfl
  · rw [hwl, hlen]
    exact hshorter
  · rw [hcells]

end Visit

end Veryl.Synthesizer
