import Veryl.Synthesizer.CounterNetwork
import Veryl.Synthesizer.PrefixExact

/-!
A rebuilt counter keeps the value of every net: a chain of conditional increments
adds to its seed the number of conditions that hold, modulo its width.
-/

namespace Veryl.Synthesizer

open List Option Function Prod

variable {r : NetId → ℕ} {im : IncMux} {i : ℕ} {incs : List IncMux} {key : NetId × Bool} {s : Stage}
  {cones : List (List NetId)} {ρ : NetId → Bool} {heads : List ℕ} {ns : List NetId} {bound : ℕ}
  {s' : Stage} {n : NetId}

section Recognition

variable {α β : Type*}

variable {xs : List α}

variable {f : α → Option β}

theorem forall₂_of_mapM {ys : List β} (h : xs.mapM f = some ys) :
    List.Forall₂ (fun x y => f x = some y) xs ys := by
  induction xs generalizing ys with
  | nil =>
    obtain rfl := some.inj h
    exact .nil
  | cons x xs ih =>
    rw [mapM_cons] at h
    obtain ⟨y, hy, h⟩ := bind_eq_some_iff.1 h
    obtain ⟨rest, hrest, h⟩ := bind_eq_some_iff.1 h
    obtain rfl := some.inj h
    exact .cons hy (ih hrest)

theorem exists_mapM (h : ∀ x ∈ xs, ∃ y, f x = some y) : ∃ ys, xs.mapM f = some ys := by
  induction xs with
  | nil => exact ⟨[], mapM_nil⟩
  | cons x xs ih =>
    obtain ⟨y, hy⟩ := h x (mem_cons_self ..)
    obtain ⟨ys, hys⟩ := ih fun z hz => h z (mem_cons_of_mem _ hz)
    exact ⟨y :: ys, by rw [mapM_cons, hy, hys]; rfl⟩

variable {m : GateModule} {turns : ℕ}

/-- What holds of a net in every solution, and of its rank. -/
structure Cone (m : GateModule) (n : NetId) (leaves : List NetId) : Prop where
  value : ∀ ρ, Solves m.nets m.cells ρ → ρ n = leaves.all ρ
  ranks : ∀ r, m.Ranks r → ∀ leaf ∈ leaves, r leaf ≤ r n

theorem eval_and {kind : CellKind} (hkind : kind = .and2 ∨ kind = .and3) {bs : List Bool}
    (hlen : bs.length = kind.arity) : kind.eval bs = bs.all id := by
  obtain rfl | rfl := hkind
  · obtain ⟨a, b, rfl⟩ := length_eq_two.1 hlen
    simp [CellKind.eval]
  · obtain ⟨a, b, c, rfl⟩ := length_eq_three.1 hlen
    simp [CellKind.eval, Bool.and_assoc]

theorem all_flatten (h : List.Forall₂ (fun n leaves => ρ n = leaves.all ρ) ns cones) :
    cones.flatten.all ρ = (ns.map ρ).all id := by
  induction h with
  | nil => rfl
  | cons hhead _ ih => rw [flatten_cons, all_append, ih, map_cons, all_cons, id_eq, hhead]

theorem mem_flatten_of_forall₂ {P : NetId → List NetId → Prop} (h : List.Forall₂ P ns cones)
    {leaf : NetId}
    (hleaf : leaf ∈ cones.flatten) : ∃ n ∈ ns, ∃ leaves, P n leaves ∧ leaf ∈ leaves := by
  induction h with
  | nil => exact absurd hleaf not_mem_nil
  | @cons n leaves _ _ hhead _ ih =>
    rcases mem_append.1 hleaf with hleaf | hleaf
    · exact ⟨n, mem_cons_self .., leaves, hhead, hleaf⟩
    · obtain ⟨n', hn', hrest⟩ := ih hleaf
      exact ⟨n', mem_cons_of_mem _ hn', hrest⟩

theorem collectAndLeaves_spec (hm : m.WellFormed) {leaves : List NetId}
    (h : collectAndLeaves m turns n = some leaves) : Cone m n leaves := by
  have hself : Cone m n [n] := ⟨fun ρ _ => by rw [all_cons, all_nil, Bool.and_true],
    fun r _ leaf hleaf => Nat.le_of_eq (by rw [mem_singleton.1 hleaf])⟩
  induction turns generalizing n leaves with
  | zero => cases h
  | succ turns ih =>
    unfold collectAndLeaves at h
    split at h
    · rename_i i c hc
      obtain ⟨hi, hout⟩ := driverCell_eq hm hc
      have hmem := mem_of_getElem? hi
      split at h
      · rename_i hkind
        obtain ⟨cones, hcones, rfl⟩ := map_eq_some_iff.1 h
        have hall : List.Forall₂ (fun n leaves => Cone m n leaves) c.inputs cones :=
          (forall₂_of_mapM hcones).imp fun n leaves hn => ih hn
            ⟨fun ρ _ => by rw [all_cons, all_nil, Bool.and_true],
              fun r _ leaf hleaf => Nat.le_of_eq (by rw [mem_singleton.1 hleaf])⟩
        refine ⟨fun ρ hρ => ?_, fun r hr leaf hleaf => ?_⟩
        · rw [← hout, hρ.cell_eq c hmem, eval_and hkind (by rw [length_map, hm.arity c hmem]),
            all_flatten (hall.imp fun n leaves hn => hn.value ρ hρ)]
        · obtain ⟨n', hn', leaves, hcone, hleaf⟩ := mem_flatten_of_forall₂ hall hleaf
          have hle := hcone.ranks r hr leaf hleaf
          have hlt := hr c hmem n' hn'
          rw [hout] at hlt
          exact Nat.le_of_lt (Nat.lt_of_le_of_lt hle hlt)
      · obtain rfl := some.inj h
        exact hself
    · obtain rfl := some.inj h
      exact hself

theorem collectAndLeaves_ends (hm : m.WellFormed) (hr : m.Ranks r)
    (hn : r n < turns) : ∃ leaves, collectAndLeaves m turns n = some leaves := by
  induction turns generalizing n with
  | zero => exact absurd hn (Nat.not_lt_zero _)
  | succ turns ih =>
    unfold collectAndLeaves
    split
    · rename_i i c hc
      obtain ⟨hi, hout⟩ := driverCell_eq hm hc
      split
      · obtain ⟨cones, hcones⟩ := exists_mapM fun n' hn' => ih (n := n') (by
          have hlt := hr c (mem_of_getElem? hi) n' hn'
          rw [hout] at hlt
          exact Nat.lt_of_lt_of_le hlt (Nat.le_of_lt_succ hn))
        exact ⟨cones.flatten, by rw [hcones]; rfl⟩
      · exact ⟨_, rfl⟩
    · exact ⟨_, rfl⟩

/-- A net that is another one, flipped when all the leaves hold. -/
structure Leg (m : GateModule) (b sum : NetId) (leaves : List NetId) : Prop where
  value : ∀ ρ, Solves m.nets m.cells ρ → ρ sum = (ρ b ^^ leaves.all ρ)
  ranks : ∀ r, m.Ranks r → r b < r sum ∧ ∀ leaf ∈ leaves, r leaf < r sum

theorem classifyLeg_spec (hm : m.WellFormed) {mux : ℕ} {b sum : NetId} {selHigh : Bool}
    (h : classifyLeg m turns mux b sum selHigh = some (some im)) :
    ∃ leaves, im = ⟨mux, leaves.length, b, leaves, selHigh⟩ ∧ Leg m b sum leaves := by
  unfold classifyLeg at h
  split at h
  · cases h
  rename_i i t ht
  obtain ⟨hi, hout⟩ := driverCell_eq hm ht
  have hmem := mem_of_getElem? hi
  have harity := hm.arity t hmem
  split at h
  · -- the lowest bit has no carry
    rename_i hkind
    split at h
    · rename_i hb
      obtain rfl := some.inj (some.inj h)
      rw [hkind] at harity
      obtain ⟨a, ha⟩ := length_eq_one_iff.1 harity
      rw [ha] at hb
      obtain rfl : a = b := hb
      refine ⟨[], rfl, fun ρ hρ => ?_, fun r hr => ⟨?_, fun _ hl => absurd hl not_mem_nil⟩⟩
      · rw [← hout, hρ.cell_eq t hmem, hkind, ha, all_nil, Bool.xor_true]
        rfl
      · rw [← hout]
        exact hr t hmem a (by rw [ha]; exact mem_singleton_self _)
    · cases h
  · rename_i hkind
    rw [hkind] at harity
    have hinputs := length_two harity
    dsimp only at h
    have hread : ∀ n, n = netAt t.inputs 0 ∨ n = netAt t.inputs 1 → n ∈ t.inputs := fun n hn => by
      rw [hinputs]
      simpa using hn
    have hcarry : ∃ carry, (∃ leaves, collectAndLeaves m turns carry = some leaves ∧
        im = ⟨mux, leaves.length, b, leaves, selHigh⟩) ∧
        (∀ ρ, Solves m.nets m.cells ρ → ρ sum = (ρ b ^^ ρ carry)) ∧
          b ∈ t.inputs ∧ carry ∈ t.inputs := by
      have hxor : ∀ ρ, Solves m.nets m.cells ρ →
          ρ sum = (ρ (netAt t.inputs 0) ^^ ρ (netAt t.inputs 1)) := fun ρ hρ => by
        rw [← hout, hρ.cell_eq t hmem, hkind, hinputs]
        rfl
      have hleaves : ∀ carry, ((collectAndLeaves m turns carry).map fun leaves =>
          if leaves = [] then none else some (IncMux.mk mux leaves.length b leaves selHigh)) =
            some (some im) → ∃ leaves, collectAndLeaves m turns carry = some leaves ∧
              im = ⟨mux, leaves.length, b, leaves, selHigh⟩ := fun carry hc => by
        obtain ⟨leaves, hl, hsome⟩ := map_eq_some_iff.1 hc
        split at hsome
        · cases hsome
        · exact ⟨leaves, hl, (some.inj hsome).symm⟩
      split at h
      · cases h
      rename_i carry hsome
      split at hsome
      · rename_i hb
        obtain rfl := some.inj hsome
        refine ⟨_, hleaves _ h, fun ρ hρ => ?_, hread _ (.inl hb.symm), hread _ (.inr rfl)⟩
        rw [hxor ρ hρ, hb]
      · split at hsome
        · rename_i hb
          obtain rfl := some.inj hsome
          refine ⟨_, hleaves _ h, fun ρ hρ => ?_, hread _ (.inr hb.symm), hread _ (.inl rfl)⟩
          rw [hxor ρ hρ, hb, Bool.xor_comm]
        · cases hsome
    obtain ⟨carry, ⟨leaves, hl, rfl⟩, hvalue, hb, hc⟩ := hcarry
    have hcone := collectAndLeaves_spec hm hl
    refine ⟨leaves, rfl, fun ρ hρ => by rw [hvalue ρ hρ, hcone.value ρ hρ], fun r hr => ?_⟩
    rw [← hout]
    exact ⟨hr t hmem b hb, fun leaf hleaf =>
      Nat.lt_of_le_of_lt (hcone.ranks r hr leaf hleaf) (hr t hmem carry hc)⟩
  · cases h

/-- A recognised multiplexer: when its condition holds, it flips the bit if all
the leaves hold. -/
structure IncMuxOk (m : GateModule) (im : IncMux) : Prop where
  cell : ∃ c, m.cells[im.mux]? = some c ∧ im.b ∈ c.inputs ∧ (im.key m).1 ∈ c.inputs ∧
    (∀ ρ, Solves m.nets m.cells ρ →
      ρ c.output = (ρ im.b ^^ ((ρ (im.key m).1 ^^ !im.selHigh) && im.leaves.all ρ))) ∧
    ∀ r, m.Ranks r → ∀ leaf ∈ im.leaves, r leaf < r c.output

theorem classifyIncMux_spec (hm : m.WellFormed)
    (h : classifyIncMux m turns i = some (some im)) : IncMuxOk m im := by
  unfold classifyIncMux at h
  split at h
  · rename_i mux hmux
    split at h
    · cases h
    rename_i hkind
    rw [not_not] at hkind
    have hmem := mem_of_getElem? hmux
    have harity := hm.arity mux hmem
    rw [hkind] at harity
    obtain ⟨sel, d0, d1, hinputs⟩ := length_eq_three.1 harity
    obtain ⟨first, hfirst, h⟩ := bind_eq_some_iff.1 h
    have hvalue : ∀ ρ, Solves m.nets m.cells ρ → ρ mux.output = if ρ sel then ρ d1 else ρ d0 :=
      fun ρ hρ => by
        rw [hρ.cell_eq mux hmem, hkind, hinputs]
        rfl
    have hrank : ∀ r, m.Ranks r → ∀ n ∈ [sel, d0, d1], r n < r mux.output := fun r hr n hn =>
      hr mux hmem n (by rwa [hinputs])
    rw [hinputs] at hfirst h
    split at h
    · rename_i im'
      obtain rfl := some.inj (some.inj h)
      obtain ⟨leaves, rfl, hleg⟩ := classifyLeg_spec hm hfirst
      refine ⟨mux, hmux, ?_⟩
      have hkey : ((IncMux.mk i leaves.length (netAt [sel, d0, d1] 1) leaves true).key m).1 = sel := by
        simp [IncMux.key, hmux, hinputs, netAt]
      rw [hkey, hinputs]
      refine ⟨by simp [netAt], by simp, fun ρ hρ => ?_, fun r hr leaf hleaf => ?_⟩
      · have hsum : ρ d1 = (ρ d0 ^^ leaves.all ρ) := hleg.value ρ hρ
        show ρ mux.output = (ρ d0 ^^ ((ρ sel ^^ !true) && leaves.all ρ))
        rw [hvalue ρ hρ, hsum]
        cases ρ sel <;> simp
      · exact Nat.lt_trans ((hleg.ranks r hr).2 leaf hleaf) (hrank r hr _ (by simp [netAt]))
    · obtain ⟨leaves, rfl, hleg⟩ := classifyLeg_spec hm h
      refine ⟨mux, hmux, ?_⟩
      have hkey : ((IncMux.mk i leaves.length (netAt [sel, d0, d1] 2) leaves false).key m).1 = sel := by
        simp [IncMux.key, hmux, hinputs, netAt]
      rw [hkey, hinputs]
      refine ⟨by simp [netAt], by simp, fun ρ hρ => ?_, fun r hr leaf hleaf => ?_⟩
      · have hsum : ρ d0 = (ρ d1 ^^ leaves.all ρ) := hleg.value ρ hρ
        show ρ mux.output = (ρ d1 ^^ ((ρ sel ^^ !false) && leaves.all ρ))
        rw [hvalue ρ hρ, hsum]
        cases ρ sel <;> simp
      · exact Nat.lt_trans ((hleg.ranks r hr).2 leaf hleaf) (hrank r hr _ (by simp [netAt]))
  · cases h

theorem classifyIncMux_ends (hm : m.WellFormed) (hr : m.Ranks r)
    (hturns : ∀ c ∈ m.cells, r c.output < turns) (i : ℕ) :
    ∃ out, classifyIncMux m turns i = some out := by
  have hleg : ∀ mux b sum selHigh, ∃ out, classifyLeg m turns mux b sum selHigh = some out := by
    intro mux b sum selHigh
    unfold classifyLeg
    split
    · exact ⟨_, rfl⟩
    rename_i j t ht
    obtain ⟨hj, -⟩ := driverCell_eq hm ht
    have hmem := mem_of_getElem? hj
    split
    · exact ⟨_, rfl⟩
    · rename_i hkind
      have harity := hm.arity t hmem
      rw [hkind] at harity
      have hread : ∀ n ∈ t.inputs, ∃ leaves, collectAndLeaves m turns n = some leaves := fun n hn =>
        collectAndLeaves_ends hm hr (Nat.lt_trans (hr t hmem n hn) (hturns t hmem))
      have hinputs := length_two harity
      obtain ⟨leaves0, h0⟩ := hread (netAt t.inputs 0) (by rw [hinputs]; exact mem_cons_self ..)
      obtain ⟨leaves1, h1⟩ := hread (netAt t.inputs 1) (by rw [hinputs]; simp [netAt])
      dsimp only
      split
      · exact ⟨_, rfl⟩
      rename_i carry hsome
      split at hsome
      · obtain rfl := some.inj hsome
        exact ⟨_, by rw [h1]; rfl⟩
      · split at hsome
        · obtain rfl := some.inj hsome
          exact ⟨_, by rw [h0]; rfl⟩
        · cases hsome
    · exact ⟨_, rfl⟩
  unfold classifyIncMux
  split
  · rename_i mux _
    split
    · exact ⟨_, rfl⟩
    · obtain ⟨first, hfirst⟩ := hleg i (netAt mux.inputs 1) (netAt mux.inputs 2) true
      rw [hfirst, bind_some]
      cases first with
      | some im => exact ⟨_, rfl⟩
      | none => exact hleg i _ _ false
  · exact ⟨_, rfl⟩

/-- A conditional increment of a bus. -/
structure StageOk (m : GateModule) (s : Stage) : Prop where
  length_outBus : s.outBus.length = s.inBus.length
  length_cells : s.cells.length = s.inBus.length
  cell : ∀ (k i : ℕ), s.cells[k]? = some i →
    ∃ c, m.cells[i]? = some c ∧ s.outBus[k]? = some c.output
  cond : s.condTerms ≠ []
  value : ∀ ρ, Solves m.nets m.cells ρ →
    s.outBus.map ρ = increment (condValue ρ s.condTerms) (s.inBus.map ρ)
  ranks : ∀ r, m.Ranks r → ∀ (k : ℕ) (o : NetId), s.outBus[k]? = some o →
    (∀ t ∈ s.condTerms, r t.1 < r o) ∧ ∀ b ∈ s.inBus.take (k + 1), r b < r o
  exist : ∀ n : ℕ, n ∈ s.condTerms.map Prod.fst ∨ n ∈ s.inBus → n < m.nets.length

theorem StageOk.snoc (h : StageOk m s) (hclosed : m.Closed)
    (hcond : s.condTerms = [(key.1, !key.2)]) (him : IncMuxOk m im)
    (hkey : im.key m = key) (hleaves : im.leaves.mergeSort (· ≤ ·) = s.inBus.mergeSort (· ≤ ·)) :
    StageOk m { s with
      inBus := s.inBus ++ [im.b]
      outBus := s.outBus ++ ((m.cells[im.mux]?.map Cell.output).toList)
      cells := s.cells ++ [im.mux] } := by
  obtain ⟨c, hc, hb, hsel, hvalue, hranks⟩ := him.cell
  have hmem := mem_of_getElem? hc
  have hperm : im.leaves.Perm s.inBus :=
    (mergeSort_perm im.leaves (· ≤ ·)).symm.trans (hleaves ▸ mergeSort_perm s.inBus (· ≤ ·))
  have hhigh : im.selHigh = key.2 := by rw [← hkey]; rfl
  rw [hkey] at hsel hvalue
  have hout : ((m.cells[im.mux]?.map Cell.output).toList) = [c.output] := by
    rw [hc]
    rfl
  rw [hout]
  refine ⟨?_, ?_, fun k i hk => ?_, h.cond, fun ρ hρ => ?_, fun r hr k o ho => ?_, fun n hn => ?_⟩
  · show (s.outBus ++ [c.output]).length = (s.inBus ++ [im.b]).length
    rw [length_append, length_append, h.length_outBus]
    rfl
  · show (s.cells ++ [im.mux]).length = (s.inBus ++ [im.b]).length
    rw [length_append, length_append, h.length_cells]
    rfl
  · have hk' : (s.cells ++ [im.mux])[k]? = some i := hk
    rcases Nat.lt_or_ge k s.cells.length with hlt | hge
    · rw [getElem?_append_left hlt] at hk'
      rw [getElem?_append_left (by rwa [h.length_outBus, ← h.length_cells])]
      exact h.cell k i hk'
    · rw [getElem?_append_right hge] at hk'
      obtain ⟨hlt, rfl⟩ := List.getElem?_eq_some_iff.1 hk'
      rw [length_singleton] at hlt
      have hzero : k - s.cells.length = 0 := by omega
      refine ⟨c, by simpa [hzero] using hc, ?_⟩
      rw [getElem?_append_right (by rwa [h.length_outBus, ← h.length_cells]),
        h.length_outBus, ← h.length_cells, hzero]
      rfl
  · show (s.outBus ++ [c.output]).map ρ = increment (condValue ρ s.condTerms) ((s.inBus ++ [im.b]).map ρ)
    have hall : im.leaves.all ρ = (s.inBus.map ρ).all id := by
      rw [hperm.all_eq, List.all_map]
      rfl
    have hcv : condValue ρ s.condTerms = (ρ key.1 ^^ !im.selHigh) := by
      rw [hcond, condValue, all_cons, all_nil, Bool.and_true, hhigh]
    rw [map_append, map_append, h.value ρ hρ, map_cons, map_nil, map_cons,
      map_nil, increment_concat, hvalue ρ hρ, hall, hcv]
  · have ho' : (s.outBus ++ [c.output])[k]? = some o := ho
    rcases Nat.lt_or_ge k s.outBus.length with hlt | hge
    · rw [getElem?_append_left hlt] at ho'
      rw [take_append_of_le_length (by rw [← h.length_outBus]; exact hlt)]
      exact h.ranks r hr k o ho'
    · rw [getElem?_append_right hge] at ho'
      obtain rfl := mem_singleton.1 (mem_of_getElem? ho')
      refine ⟨fun t ht => ?_, fun b hb' => ?_⟩
      · rw [hcond] at ht
        obtain rfl := mem_singleton.1 ht
        exact hr c hmem _ hsel
      · rcases mem_append.1 (mem_of_mem_take hb') with hb' | hb'
        · exact hranks r hr b (hperm.mem_iff.2 hb')
        · obtain rfl := mem_singleton.1 hb'
          exact hr c hmem _ hb
  · have hn' : n ∈ s.condTerms.map Prod.fst ∨ n ∈ s.inBus ++ [im.b] := hn
    rcases hn' with hn' | hn'
    · exact h.exist n (.inl hn')
    · rcases mem_append.1 hn' with hn' | hn'
      · exact h.exist n (.inr hn')
      · obtain rfl := mem_singleton.1 hn'
        exact input_lt hclosed hmem hb

theorem matchBus_spec (hclosed : m.Closed) {ims : List IncMux}
    (hims : ∀ im ∈ ims, IncMuxOk m im ∧ im.key m = key) {pos : ℕ} (hs : StageOk m s)
    (hcond : s.condTerms = [(key.1, !key.2)]) (h : matchBus m pos ims s = some s') :
    StageOk m s' := by
  induction ims generalizing pos s with
  | nil =>
    obtain rfl := some.inj h
    exact hs
  | cons im rest ih =>
    unfold matchBus at h
    split at h
    · cases h
    · split at h
      · cases h
      · rename_i hleaves
        rw [not_not] at hleaves
        obtain ⟨him, hkey⟩ := hims im (mem_cons_self ..)
        exact ih (fun im him => hims im (mem_cons_of_mem _ him))
          (hs.snoc hclosed hcond him hkey hleaves) hcond h

/-- A multiplexer of a layer, over one bit. -/
def Passes (m : GateModule) (found : NetId × Bool) (p : NetId × NetId) (i : ℕ) : Prop :=
  ∃ c, m.cells[i]? = some c ∧ isPassthrough p.2 p.1 c = true ∧
    found = (netAt c.inputs 0, decide (netAt c.inputs 2 = p.1))

theorem passLayer_spec {pairs : List (NetId × NetId)} {layer layer' : Option (NetId × Bool)}
    {outer : List ℕ} (h : passLayer m pairs layer = some (layer', outer)) :
    (∀ found, layer = some found → layer' = some found) ∧
      List.Forall₂ (fun p i => ∃ found, layer' = some found ∧ Passes m found p i) pairs outer := by
  induction pairs generalizing layer outer with
  | nil =>
    obtain ⟨rfl, rfl⟩ := mk.inj (some.inj h)
    exact ⟨fun _ h => h, .nil⟩
  | cons p rest ih =>
    obtain ⟨ik, bk⟩ := p
    unfold passLayer at h
    split at h
    · cases h
    rename_i mi hmi
    obtain ⟨hlt, hpass, -⟩ := findIdx?_eq_some_iff_getElem.1 hmi
    have hc := getElem?_eq_getElem hlt
    dsimp only at h
    rw [hc, map_some, getD_some] at h
    split at h
    · rename_i hlayer
      obtain ⟨out, hout, heq⟩ := map_eq_some_iff.1 h
      obtain ⟨rfl, rfl⟩ := mk.inj heq
      obtain ⟨hkeep, hrest⟩ := @ih (some (netAt m.cells[mi].inputs 0,
        decide (netAt m.cells[mi].inputs 2 = ik))) out.2 hout
      have hfound := hkeep _ rfl
      refine ⟨fun found hf => ?_, .cons ⟨_, hfound, _, hc, hpass, rfl⟩ hrest⟩
      rcases hlayer with hnone | hsome
      · rw [hnone] at hf
        cases hf
      · rw [hfound, ← hsome, hf]
    · cases h

/-- A multiplexer of a layer takes the increment when its select agrees. -/
theorem Passes.spec (hm : m.WellFormed) {found : NetId × Bool} {p : NetId × NetId}
    (h : Passes m found p i) : ∃ c, m.cells[i]? = some c ∧ found.1 ∈ c.inputs ∧ p.1 ∈ c.inputs ∧
      ∀ ρ, Solves m.nets m.cells ρ →
        ρ c.output = if (ρ found.1 ^^ !found.2) then ρ p.1 else ρ p.2 := by
  obtain ⟨c, hc, hpass, rfl⟩ := h
  have hmem := mem_of_getElem? hc
  rw [isPassthrough, Bool.and_eq_true, decide_eq_true_eq] at hpass
  obtain ⟨hkind, hlegs⟩ := hpass
  have harity := hm.arity c hmem
  rw [hkind] at harity
  obtain ⟨sel, d0, d1, hinputs⟩ := length_eq_three.1 harity
  have hvalue : ∀ ρ, Solves m.nets m.cells ρ → ρ c.output = if ρ sel then ρ d1 else ρ d0 :=
    fun ρ hρ => by
      rw [hρ.cell_eq c hmem, hkind, hinputs]
      rfl
  rw [hinputs] at hlegs ⊢
  have hlegs' : (d0 = p.2 ∧ d1 = p.1) ∨ (d0 = p.1 ∧ d1 = p.2) := by
    simpa [netAt, Bool.or_eq_true, Bool.and_eq_true] using hlegs
  refine ⟨c, hc, ?_⟩
  rw [hinputs]
  show sel ∈ [sel, d0, d1] ∧ p.1 ∈ [sel, d0, d1] ∧ ∀ ρ, Solves m.nets m.cells ρ →
    ρ c.output = if (ρ sel ^^ !decide (d1 = p.1)) then ρ p.1 else ρ p.2
  refine ⟨mem_cons_self .., ?_, fun ρ hρ => ?_⟩
  · obtain ⟨-, rfl⟩ | ⟨rfl, -⟩ := hlegs' <;> simp
  rw [hvalue ρ hρ]
  obtain ⟨rfl, h1⟩ | ⟨h0, rfl⟩ := hlegs'
  · rw [h1, decide_eq_true rfl]
    cases ρ sel <;> rfl
  · rw [h0]
    by_cases heq : p.2 = p.1
    · rw [heq]
      cases ρ sel <;> simp
    · rw [decide_eq_false heq]
      cases ρ sel <;> rfl

theorem StageOk.fold (h : StageOk m s) (hm : m.WellFormed) (hclosed : m.Closed)
    {sel : NetId} {incIsD1 : Bool} {outer : List ℕ}
    (hlayer : passLayer m (s.outBus.zip s.inBus) none = some (some (sel, incIsD1), outer)) :
    StageOk m { s with
      condTerms := s.condTerms ++ [(sel, !incIsD1)]
      outBus := outer.map fun i => ((m.cells[i]?.map Cell.output).getD netConst0)
      cells := outer } := by
  obtain ⟨-, hall⟩ := passLayer_spec hlayer
  replace hall : List.Forall₂ (fun p i => Passes m (sel, incIsD1) p i) (s.outBus.zip s.inBus) outer :=
    hall.imp fun p i ⟨found, hf, hp⟩ => by
      obtain rfl := some.inj hf
      exact hp
  have hzip : (s.outBus.zip s.inBus).length = s.inBus.length := by
    rw [length_zip, h.length_outBus, Nat.min_self]
  have houter : outer.length = s.inBus.length := by rw [← hall.length_eq, hzip]
  -- the cells of the layer, one for each bit
  have hbit : ∀ (k i : ℕ), outer[k]? = some i → ∃ c o b, m.cells[i]? = some c ∧
      s.outBus[k]? = some o ∧ s.inBus[k]? = some b ∧ sel ∈ c.inputs ∧ o ∈ c.inputs ∧
        ∀ ρ, Solves m.nets m.cells ρ → ρ c.output = if (ρ sel ^^ !incIsD1) then ρ o else ρ b := by
    intro k i hk
    obtain ⟨hlt, hget⟩ := List.getElem?_eq_some_iff.1 hk
    have hlt' : k < (s.outBus.zip s.inBus).length := by rwa [hzip, ← houter]
    have hpass := (List.forall₂_iff_get.1 hall).2 k hlt' hlt
    simp only [get_eq_getElem, hget] at hpass
    obtain ⟨c, hc, hsel, ho, hvalue⟩ := hpass.spec hm
    rw [getElem_zip] at ho hvalue
    exact ⟨c, _, _, hc, getElem?_eq_getElem _, getElem?_eq_getElem _, hsel, ho, hvalue⟩
  have hnet : ∀ (k : ℕ) (o : NetId), (outer.map fun i => ((m.cells[i]?.map Cell.output).getD netConst0))[k]? = some o →
      ∃ i c, outer[k]? = some i ∧ m.cells[i]? = some c ∧ c.output = o := by
    intro k o ho
    rw [getElem?_map] at ho
    obtain ⟨i, hi, rfl⟩ := map_eq_some_iff.1 ho
    obtain ⟨c, -, -, hc, -⟩ := hbit k i hi
    exact ⟨i, c, hi, hc, by rw [hc]; rfl⟩
  have hcond : ∀ ρ, condValue ρ (s.condTerms ++ [(sel, !incIsD1)]) =
      (condValue ρ s.condTerms && (ρ sel ^^ !incIsD1)) := fun ρ => by
    rw [condValue, all_append, condValue, all_cons, all_nil, Bool.and_true]
  refine ⟨?_, houter, fun k i hk => ?_, by simp, fun ρ hρ => ?_, fun r hr k o ho => ?_, fun n hn => ?_⟩
  · show (outer.map _).length = _
    rw [length_map, houter]
  · obtain ⟨c, -, -, hc, -⟩ := hbit k i hk
    refine ⟨c, hc, ?_⟩
    rw [getElem?_map, show outer[k]? = some i from hk, map_some, hc]
    rfl
  · show (outer.map fun i => ((m.cells[i]?.map Cell.output).getD netConst0)).map ρ =
      increment (condValue ρ (s.condTerms ++ [(sel, !incIsD1)])) (s.inBus.map ρ)
    have hsplit : (outer.map fun i => ((m.cells[i]?.map Cell.output).getD netConst0)).map ρ =
        if (ρ sel ^^ !incIsD1) then s.outBus.map ρ else s.inBus.map ρ := by
      refine ext_getElem? fun k => ?_
      rcases Nat.lt_or_ge k outer.length with hlt | hge
      · obtain ⟨c, o, b, hc, ho, hb, -, -, hvalue⟩ := hbit k _ (getElem?_eq_getElem hlt)
        rw [getElem?_map, getElem?_map, getElem?_eq_getElem hlt, map_some,
          map_some, hc, map_some, getD_some, hvalue ρ hρ]
        split
        · rw [getElem?_map, ho, map_some]
        · rw [getElem?_map, hb, map_some]
      · rw [getElem?_eq_none (by rwa [length_map, length_map])]
        split
        · rw [getElem?_eq_none (by rwa [length_map, h.length_outBus, ← houter])]
        · rw [getElem?_eq_none (by rwa [length_map, ← houter])]
    rw [hsplit, hcond, h.value ρ hρ]
    split
    · rename_i hon
      rw [hon, Bool.and_true]
    · rename_i hoff
      rw [Bool.eq_false_iff.2 hoff, Bool.and_false, increment_false]
  · obtain ⟨i, c, hi, hc, rfl⟩ := hnet k o ho
    obtain ⟨c', o', b, hc', ho', hb, hsel, hin, -⟩ := hbit k i hi
    obtain rfl := some.inj (hc.symm.trans hc')
    obtain ⟨hterms, hbits⟩ := h.ranks r hr k o' ho'
    have hlt := hr c (mem_of_getElem? hc) o' hin
    refine ⟨fun t ht => ?_, fun b hb => Nat.lt_trans (hbits b hb) hlt⟩
    rcases mem_append.1 ht with ht | ht
    · exact Nat.lt_trans (hterms t ht) hlt
    · obtain rfl := mem_singleton.1 ht
      exact hr c (mem_of_getElem? hc) sel hsel
  · have hn' : n ∈ (s.condTerms ++ [(sel, !incIsD1)]).map Prod.fst ∨ n ∈ s.inBus := hn
    rcases hn' with hn' | hn'
    · rw [map_append] at hn'
      rcases mem_append.1 hn' with hn' | hn'
      · exact h.exist n (.inl hn')
      obtain rfl := mem_singleton.1 hn'
      -- a layer that was found has a cell
      cases houts : outer with
      | nil =>
        rw [houts] at hall hlayer
        rw [List.forall₂_nil_right_iff.1 hall] at hlayer
        cases hlayer
      | cons i rest =>
        obtain ⟨c, -, -, hc, -, -, hsel, -⟩ := hbit 0 i (by rw [houts]; rfl)
        exact input_lt hclosed (mem_of_getElem? hc) hsel
    · exact h.exist n (.inr hn')

theorem foldPassthroughLayers_spec (hm : m.WellFormed) (hclosed : m.Closed)
    (hs : StageOk m s) (h : foldPassthroughLayers m turns s = some s') :
    StageOk m s' ∧ s'.inBus = s.inBus := by
  induction turns generalizing s with
  | zero => cases h
  | succ turns ih =>
    unfold foldPassthroughLayers at h
    split at h
    · rename_i sel incIsD1 outer hlayer
      obtain ⟨hstage, hin⟩ := ih (hs.fold hm hclosed hlayer) h
      exact ⟨hstage, hin⟩
    · obtain rfl := some.inj h
      exact ⟨hs, rfl⟩

theorem StageOk.head (h : StageOk m s) (hne : s.inBus ≠ []) :
    ∃ o, s.outBus[0]? = some o ∧ ∃ c ∈ m.cells, c.output = o := by
  have hpos : 0 < s.cells.length := by
    rw [h.length_cells]
    exact length_pos_iff.2 hne
  obtain ⟨c, hc, ho⟩ := h.cell 0 _ (getElem?_eq_getElem hpos)
  exact ⟨c.output, ho, c, mem_of_getElem? hc, rfl⟩

theorem foldPassthroughLayers_ends (hm : m.WellFormed) (hclosed : m.Closed)
    (hr : m.Ranks r) (hbound : ∀ c ∈ m.cells, r c.output < bound)
    (hs : StageOk m s) (hne : s.inBus ≠ [])
    (hturns : ∀ o, s.outBus[0]? = some o → bound ≤ r o + turns) :
    ∃ s', foldPassthroughLayers m turns s = some s' := by
  induction turns generalizing s with
  | zero =>
    obtain ⟨o, ho, c, hc, rfl⟩ := hs.head hne
    have hle := hturns _ ho
    have hlt := hbound c hc
    omega
  | succ turns ih =>
    unfold foldPassthroughLayers
    split
    · rename_i sel incIsD1 outer hlayer
      have hnext := hs.fold hm hclosed hlayer
      refine ih hnext hne fun o' ho' => ?_
      obtain ⟨o, ho, -⟩ := hs.head hne
      -- the new bit reads the old one
      have hlt : r o < r o' := by
        obtain ⟨-, hall⟩ := passLayer_spec hlayer
        obtain ⟨o'', b, hzip⟩ : ∃ o'' b, (s.outBus.zip s.inBus)[0]? = some (o'', b) := by
          have hpos : 0 < (s.outBus.zip s.inBus).length := by
            rw [length_zip, hs.length_outBus, Nat.min_self]
            exact length_pos_iff.2 hne
          exact ⟨_, _, getElem?_eq_getElem hpos⟩
        obtain ⟨hpos, hget⟩ := List.getElem?_eq_some_iff.1 hzip
        have hout : 0 < outer.length := by rwa [← hall.length_eq]
        obtain ⟨found, -, hpass⟩ := (List.forall₂_iff_get.1 hall).2 0 hpos hout
        simp only [get_eq_getElem, hget] at hpass
        obtain ⟨c, hc, -, hin, -⟩ := hpass.spec hm
        have ho'' : s.outBus[0]? = some o'' := by
          rw [getElem_zip] at hget
          obtain ⟨hfst, -⟩ := mk.inj hget
          rw [← hfst]
          exact getElem?_eq_getElem _
        obtain rfl := some.inj (ho.symm.trans ho'')
        have hnew : (outer.map fun i => ((m.cells[i]?.map Cell.output).getD netConst0))[0]? =
            some o' := ho'
        rw [getElem?_map, getElem?_eq_getElem hout, map_some, hc] at hnew
        obtain rfl := some.inj hnew
        exact hr c (mem_of_getElem? hc) _ hin
      have hle := hturns o ho
      omega
    · exact ⟨_, rfl⟩

theorem buildStage_stage (hclosed : m.Closed)
    (hincs : ∀ im ∈ incs, IncMuxOk m im) (hkey : key ∈ incs.map (IncMux.key m))
    (h : matchBus m 0 ((incs.filter fun im => im.key m = key).mergeSort
      fun a b => a.k ≤ b.k) ⟨[(key.1, !key.2)], [], [], []⟩ = some s) : StageOk m s := by
  obtain ⟨im, him, hk⟩ := List.mem_map.1 hkey
  obtain ⟨c, hc, -, hsel, -⟩ := (hincs im him).cell
  rw [hk] at hsel
  have hstart : StageOk m ⟨[(key.1, !key.2)], [], [], []⟩ := by
    refine ⟨rfl, rfl, fun k i hi => ?_, by simp, fun _ _ => rfl, fun r _ k o ho => ?_, fun n hn => ?_⟩
    · cases hi
    · cases ho
    · rcases hn with hn | hn
      · obtain rfl := mem_singleton.1 hn
        exact input_lt hclosed (mem_of_getElem? hc) hsel
      · exact absurd hn not_mem_nil
  refine matchBus_spec hclosed (fun im him => ?_) hstart rfl h
  rw [mem_mergeSort, mem_filter, decide_eq_true_eq] at him
  exact ⟨hincs im him.1, him.2⟩

theorem buildStage_spec (hm : m.WellFormed) (hclosed : m.Closed)
    (hincs : ∀ im ∈ incs, IncMuxOk m im) (hkey : key ∈ incs.map (IncMux.key m))
    (h : buildStage m turns incs key = some (some s)) : StageOk m s ∧ s.inBus ≠ [] := by
  unfold buildStage at h
  dsimp only at h
  split at h
  · cases h
  rename_i stage hstage
  split at h
  · cases h
  rename_i hlen
  obtain ⟨s', hs', heq⟩ := map_eq_some_iff.1 h
  obtain rfl := some.inj heq
  obtain ⟨hok, hin⟩ :=
    foldPassthroughLayers_spec hm hclosed (buildStage_stage hclosed hincs hkey hstage) hs'
  refine ⟨hok, fun hnil => hlen ?_⟩
  rw [← hin, hnil]
  exact Nat.two_pos

theorem buildStage_ends (hm : m.WellFormed) (hclosed : m.Closed) (hr : m.Ranks r)
    (hturns : ∀ c ∈ m.cells, r c.output < turns)
    (hincs : ∀ im ∈ incs, IncMuxOk m im) (hkey : key ∈ incs.map (IncMux.key m)) :
    ∃ out, buildStage m turns incs key = some out := by
  unfold buildStage
  dsimp only
  split
  · exact ⟨_, rfl⟩
  rename_i stage hstage
  split
  · exact ⟨_, rfl⟩
  · rename_i hlen
    obtain ⟨s', hs'⟩ := foldPassthroughLayers_ends hm hclosed hr hturns
      (buildStage_stage hclosed hincs hkey hstage) (fun hnil => hlen (by rw [hnil]; exact Nat.two_pos))
      fun o _ => Nat.le_add_left turns (r o)
    exact ⟨some s', by rw [hs']; rfl⟩

theorem mem_of_forall₂_right {R : α → β → Prop} {ys : List β} (h : List.Forall₂ R xs ys)
    {y : β} (hy : y ∈ ys) : ∃ x ∈ xs, R x y := by
  induction h with
  | nil => exact absurd hy not_mem_nil
  | cons hhead _ ih =>
    rcases mem_cons.1 hy with rfl | hy
    · exact ⟨_, mem_cons_self .., hhead⟩
    · obtain ⟨x, hx, hr⟩ := ih hy
      exact ⟨x, mem_cons_of_mem _ hx, hr⟩

theorem mem_reduceOption_mapM {f : α → Option (Option β)} {ys : List (Option β)}
    (h : xs.mapM f = some ys) {y : β} (hy : y ∈ ys.reduceOption) : ∃ x ∈ xs, f x = some (some y) :=
  mem_of_forall₂_right (forall₂_of_mapM h) (reduceOption_mem_iff.1 hy)

theorem incMuxOk_of_mapM (hm : m.WellFormed) {classified : List (Option IncMux)}
    (h : (List.range m.cells.length).mapM (classifyIncMux m turns) = some classified) :
    ∀ im ∈ classified.reduceOption, IncMuxOk m im := fun im him => by
  obtain ⟨i, -, hi⟩ := mem_reduceOption_mapM h him
  exact classifyIncMux_spec hm hi

theorem collectStages_spec (hm : m.WellFormed) (hclosed : m.Closed) {stages : List Stage}
    (h : collectStages m turns = some stages) : ∀ s ∈ stages, StageOk m s ∧ s.inBus ≠ [] := by
  intro s hs
  obtain ⟨classified, hclassified, h⟩ := bind_eq_some_iff.1 h
  obtain ⟨built, hbuilt, rfl⟩ := map_eq_some_iff.1 h
  have hincs := incMuxOk_of_mapM hm hclassified
  obtain ⟨key, hkey, hstage⟩ := mem_reduceOption_mapM hbuilt hs
  rw [mem_mergeSort, List.mem_dedup] at hkey
  exact buildStage_spec hm hclosed hincs hkey hstage

theorem collectStages_ends (hm : m.WellFormed) (hclosed : m.Closed) (hr : m.Ranks r)
    (hturns : ∀ c ∈ m.cells, r c.output < turns) :
    ∃ stages, collectStages m turns = some stages := by
  obtain ⟨classified, hclassified⟩ :=
    exists_mapM fun i (_ : i ∈ List.range m.cells.length) => classifyIncMux_ends hm hr hturns i
  have hincs := incMuxOk_of_mapM hm hclassified
  have hkeys : ∀ key ∈ ((classified.reduceOption.map (IncMux.key m)).dedup).mergeSort keyLe,
      ∃ out, buildStage m turns classified.reduceOption key = some out := fun key hkey => by
    rw [mem_mergeSort, List.mem_dedup] at hkey
    exact buildStage_ends hm hclosed hr hturns hincs hkey
  obtain ⟨built, hbuilt⟩ := exists_mapM hkeys
  refine ⟨built.reduceOption, ?_⟩
  unfold collectStages
  rw [hclassified, bind_some]
  dsimp only
  rw [hbuilt, map_some]

variable {stages : List Stage} {s last : Stage} {ss : List Stage}

/-- Each stage goes on from the one before it. -/
def Consecutive (ss : List Stage) : Prop := ss.IsChain fun a b => a.outBus = b.inBus

theorem succStage_spec {j : ℕ} (h : succStage stages i = some j) :
    ∃ a b, stages[i]? = some a ∧ stages[j]? = some b ∧ a.outBus = b.inBus := by
  unfold succStage at h
  split at h
  · cases h
  rename_i a ha
  split at h
  · rename_i j' hj
    obtain rfl := some.inj h
    have hmem : j' ∈ (List.range stages.length).filter fun j =>
        i ≠ j ∧ (stages[j]?.any (follows a)) := by
      rw [hj]
      exact mem_singleton_self _
    obtain ⟨-, hfollows⟩ := mem_filter.1 hmem
    obtain ⟨-, hany⟩ := of_decide_eq_true hfollows
    obtain ⟨b, hb, hab⟩ := (Option.any_eq_true _ _).1 hany
    exact ⟨a, b, ha, hb, of_decide_eq_true hab⟩
  · cases h

theorem chainFrom_spec {chain : List ℕ} (hs : stages[i]? = some s)
    (h : chainFrom stages turns i = some chain) :
    ∃ ss, chain.filterMap (fun i => stages[i]?) = s :: ss ∧ Consecutive (s :: ss) ∧
      ∀ t ∈ s :: ss, t ∈ stages := by
  induction turns generalizing i s chain with
  | zero => cases h
  | succ turns ih =>
    unfold chainFrom at h
    split at h
    · rename_i j hj
      obtain ⟨rest, hrest, rfl⟩ := map_eq_some_iff.1 h
      obtain ⟨a, b, ha, hb, hab⟩ := succStage_spec hj
      obtain rfl := some.inj (hs.symm.trans ha)
      obtain ⟨ss, hss, hcons, hmem⟩ := ih hb hrest
      refine ⟨b :: ss, by rw [filterMap_cons, hs, hss], .cons_cons hab hcons, fun t ht => ?_⟩
      rcases mem_cons.1 ht with rfl | ht
      · exact mem_of_getElem? hs
      · exact hmem t ht
    · obtain rfl := some.inj h
      refine ⟨[], by rw [filterMap_cons, hs]; rfl, .singleton _, fun t ht => ?_⟩
      obtain rfl := mem_singleton.1 ht
      exact mem_of_getElem? hs

theorem chainFrom_ends (hr : m.Ranks r) (hbound : ∀ c ∈ m.cells, r c.output < bound)
    (hok : ∀ s ∈ stages, StageOk m s ∧ s.inBus ≠ []) (hs : stages[i]? = some s)
    (hturns : ∀ o, s.outBus[0]? = some o → bound ≤ r o + turns) :
    ∃ chain, chainFrom stages turns i = some chain := by
  induction turns generalizing i s with
  | zero =>
    obtain ⟨hstage, hne⟩ := hok s (mem_of_getElem? hs)
    obtain ⟨o, ho, c, hc, rfl⟩ := hstage.head hne
    have hle := hturns _ ho
    have hlt := hbound c hc
    omega
  | succ turns ih =>
    unfold chainFrom
    split
    · rename_i j hj
      obtain ⟨a, b, ha, hb, hab⟩ := succStage_spec hj
      obtain rfl := some.inj (hs.symm.trans ha)
      obtain ⟨chain, hchain⟩ := ih hb fun o' ho' => by
        obtain ⟨hstage, hne⟩ := hok s (mem_of_getElem? hs)
        obtain ⟨o, ho, -⟩ := hstage.head hne
        have hin : o ∈ b.inBus.take (0 + 1) := by
          refine mem_of_getElem? (i := 0) ?_
          rw [getElem?_take_of_lt Nat.one_pos, ← hab, ho]
        have hlt := ((hok b (mem_of_getElem? hb)).1.ranks r hr 0 o' ho').2 o hin
        have hle := hturns o ho
        omega
      exact ⟨i :: chain, by rw [hchain]; rfl⟩
    · exact ⟨_, rfl⟩

/-- The number of conditions that hold. -/
def holding (ρ : NetId → Bool) (ss : List Stage) : ℕ :=
  (ss.map fun t => (condValue ρ t.condTerms).toNat).sum

/-- What a chain of stages makes of its seed. -/
structure ChainOk (m : GateModule) (s last : Stage) (ss : List Stage) : Prop where
  stage : StageOk m last
  length_eq : last.outBus.length = s.inBus.length
  value : ∀ ρ, Solves m.nets m.cells ρ → busValue (last.outBus.map ρ) =
    (busValue (s.inBus.map ρ) + holding ρ (s :: ss)) % 2 ^ s.inBus.length
  ranks : ∀ r, m.Ranks r → ∀ (k : ℕ) (o : NetId), last.outBus[k]? = some o →
    (∀ t ∈ s :: ss, ∀ term ∈ t.condTerms, r term.1 < r o) ∧ ∀ b ∈ s.inBus.take (k + 1), r b < r o

theorem StageOk.value_add (h : StageOk m s)
    (hρ : Solves m.nets m.cells ρ) : busValue (s.outBus.map ρ) =
      (busValue (s.inBus.map ρ) + (condValue ρ s.condTerms).toNat) % 2 ^ s.inBus.length := by
  rw [h.value ρ hρ, busValue_increment, length_map]

theorem chainOk (hok : ∀ t ∈ s :: ss, StageOk m t) (hcons : Consecutive (s :: ss))
    (hlast : (s :: ss).getLast? = some last) : ChainOk m s last ss := by
  induction ss generalizing s with
  | nil =>
    obtain rfl := some.inj hlast
    have hs := hok s (mem_singleton_self _)
    refine ⟨hs, hs.length_outBus, fun ρ hρ => hs.value_add hρ, fun r hr k o ho => ?_⟩
    obtain ⟨hterms, hbits⟩ := hs.ranks r hr k o ho
    refine ⟨fun t ht => ?_, hbits⟩
    obtain rfl := mem_singleton.1 ht
    exact hterms
  | cons s' ss ih =>
    have hs := hok s (mem_cons_self ..)
    obtain ⟨hab, hrest⟩ := isChain_cons_cons.1 hcons
    have h := ih (fun t ht => hok t (mem_cons_of_mem _ ht)) hrest hlast
    have hlen : s'.inBus.length = s.inBus.length := by rw [← hab, hs.length_outBus]
    refine ⟨h.stage, h.length_eq.trans hlen, fun ρ hρ => ?_, fun r hr k o ho => ?_⟩
    · rw [h.value ρ hρ, ← hab, hs.value_add hρ, hs.length_outBus, Nat.mod_add_mod]
      congr 1
      simp only [holding, map_cons, sum_cons]
      omega
    · obtain ⟨hterms, hbits⟩ := h.ranks r hr k o ho
      have hk : k < s.outBus.length := by
        have hlt := (List.getElem?_eq_some_iff.1 ho).1
        rw [h.length_eq, ← hab] at hlt
        exact hlt
      have hmid := hbits s.outBus[k] (by
        rw [← hab]
        refine mem_of_getElem? (i := k) ?_
        rw [getElem?_take_of_lt (Nat.lt_succ_self k), getElem?_eq_getElem hk])
      obtain ⟨hterms', hbits'⟩ := hs.ranks r hr k _ (getElem?_eq_getElem hk)
      refine ⟨fun t ht term hterm => ?_, fun b hb => Nat.lt_trans (hbits' b hb) hmid⟩
      rcases mem_cons.1 ht with rfl | ht
      · exact Nat.lt_trans (hterms' term hterm) hmid
      · exact hterms t ht term hterm

end Recognition

section Pass

variable {m₀ m m' : GateModule} {s : Stage} {ss : List Stage}

theorem length_materializeConds (m : GateModule) (conds : List (List (NetId × Bool))) :
    (materializeConds m conds).2.length = conds.length := by
  induction conds generalizing m with
  | nil => rfl
  | cons terms rest ih => rw [materializeConds, length_cons, length_cons, ih]

theorem rewrites_buffers {mT : GateModule} {pairs : List (ℕ × NetId)}
    (hpairs : ∀ p ∈ pairs, ∃ c, mT.cells[p.1]? = some c ∧ (p.2 : ℕ) < mT.nets.length ∧
      r p.2 < r c.output ∧ ∀ ρ, Solves mT.nets mT.cells ρ → ρ c.output = ρ p.2)
    (h : Rewrites mT m) (hr : m.Ranks r) :
    Rewrites mT (pairs.foldl (fun m ct => m.setCell ct.1 .buf [ct.2]) m) ∧
      (pairs.foldl (fun m ct => m.setCell ct.1 .buf [ct.2]) m).Ranks r := by
  induction pairs generalizing m with
  | nil => exact ⟨h, hr⟩
  | cons p rest ih =>
    obtain ⟨c, hc, hexist, hrank, hvalue⟩ := hpairs p (mem_cons_self ..)
    obtain ⟨c', hc', hout⟩ := h.output p.1 c hc
    rw [← hout] at hrank hvalue
    have hstep : Rewrites m (m.setCell p.1 .buf [p.2]) :=
      rewrites_setCell_of_solves h.wellFormed h.closed hr hc' rfl (fun n hn => by
        obtain rfl := mem_singleton.1 hn
        exact ⟨Nat.lt_of_lt_of_le hexist h.length_le, hrank⟩) fun ρ hρ =>
          hvalue ρ (h.equations ρ hρ)
    refine ih (fun q hq => hpairs q (mem_cons_of_mem _ hq)) (h.trans hstep)
      (ranks_setCell hr hc' fun n hn => ?_)
    obtain rfl := mem_singleton.1 hn
    exact hrank

/-- What the pass keeps: the module it reads and the one it writes are ranked alike. -/
structure Counted (m₀ m : GateModule) : Prop where
  rewrites : Rewrites m₀ m
  ranks : ∃ r, m₀.Ranks r ∧ m.Ranks r

theorem ranks_netConst0 (hm : m.WellFormed) (hr : m.Ranks r) :
    m.Ranks (Function.update r netConst0 0) := by
  intro c hc n hn
  have hout : c.output ≠ netConst0 := fun heq => by
    obtain ⟨i, hi⟩ := mem_iff_getElem?.1 hc
    have hdriver := hm.driver_eq i c hi
    have hgnd := hm.gnd
    rw [heq] at hdriver
    rw [constOf, hdriver] at hgnd
    cases hgnd
  rw [update_of_ne hout]
  by_cases hn0 : n = netConst0
  · rw [hn0, update_self]
    exact Nat.lt_of_le_of_lt (Nat.zero_le _) (hr c hc n hn)
  · rw [update_of_ne hn0]
    exact hr c hc n hn

theorem rebuildCounter_counted (hm₀ : m₀.WellFormed) (hclosed₀ : m₀.Closed) (h : Counted m₀ m)
    (hok : ∀ t ∈ s :: ss, StageOk m₀ t) (hcons : Consecutive (s :: ss)) :
    Counted m₀ (rebuildCounter m (s :: ss)) := by
  obtain ⟨last, hlast⟩ : ∃ last, (s :: ss).getLast? = some last :=
    ⟨_, getLast?_eq_some_getLast (cons_ne_nil s ss)⟩
  have hchain := chainOk hok hcons hlast
  unfold rebuildCounter
  rw [head?_cons, hlast]
  dsimp only
  generalize hconds : (s :: ss).map Stage.condTerms = conds
  generalize hins : (s :: ss).flatMap (fun t => t.condTerms.map Prod.fst) = ins
  have hm := h.rewrites.wellFormed
  have hclosed := h.rewrites.closed
  have hgrow := h.rewrites.length_le
  -- the network: conditions, their number, the sum with the seed
  have hexist : ∀ n : ℕ, n ∈ ins → n < m.nets.length := fun n hn => by
    rw [← hins] at hn
    obtain ⟨t, ht, hn⟩ := mem_flatMap.1 hn
    exact Nat.lt_of_lt_of_le ((hok t ht).exist n (.inl hn)) hgrow
  have hnonempty : ∀ terms ∈ conds, terms ≠ [] := fun terms hterms => by
    rw [← hconds] at hterms
    obtain ⟨t, ht, rfl⟩ := List.mem_map.1 hterms
    exact (hok t ht).cond
  have hread : ∀ terms ∈ conds, ∀ term ∈ terms, term.1 ∈ ins := fun terms hterms term hterm => by
    rw [← hconds] at hterms
    obtain ⟨t, ht, rfl⟩ := List.mem_map.1 hterms
    rw [← hins]
    exact mem_flatMap.2 ⟨t, ht, List.mem_map_of_mem hterm⟩
  obtain ⟨hcond, hcondValue⟩ := materializeConds_spec hnonempty hread hm hclosed hexist
  have hlengthConds := length_materializeConds m conds
  generalize materializeConds m conds = condOut at hcond hcondValue hlengthConds ⊢
  have hne : condOut.2 ≠ [] := fun hnil => by
    rw [hnil, ← hconds] at hlengthConds
    cases hlengthConds
  obtain ⟨hcount, hcountValue⟩ := popcount_spec _ (Nat.le_refl _) hne hcond.rewrites.wellFormed
    hcond.rewrites.closed fun n hn => hcond.exist n (mem_append_right _ hn)
  generalize popcount condOut.1 condOut.2 = count at hcount hcountValue ⊢
  have hall : Builds m count.1 ins count.2 :=
    (hcond.trans hcount (subset_append_right _ _)).mono (List.Subset.refl _)
      (subset_append_right _ _)
  have hgrowAll := hall.rewrites.length_le
  have hzeroNet : (netConst0 : ℕ) < count.1.nets.length :=
    lt_of_constOf hall.rewrites.wellFormed.gnd
  have hsum := @addBits_spec s.inBus count.2 s.inBus.length 0 count.1
    netConst0 hall.rewrites.wellFormed hall.rewrites.closed hzeroNet fun j => by
      have hbit : ∀ a : List NetId, (∀ n : ℕ, n ∈ a → n < count.1.nets.length) →
          (a.getD j netConst0 : ℕ) < count.1.nets.length := fun a ha => by
        rcases Nat.lt_or_ge j a.length with hj | hj
        · rw [getD_eq_getElem _ _ hj]
          exact ha _ (getElem_mem hj)
        · rw [getD_eq_default _ _ hj]
          exact hzeroNet
      refine ⟨hbit _ fun n hn => ?_, hbit _ hall.exist⟩
      have hlt := (hok s (mem_cons_self ..)).exist n (.inr hn)
      omega
  replace hsum : Sums count.1 (addMod count.1 s.inBus count.2 s.inBus.length).1 s.inBus count.2
      netConst0 s.inBus.length 0 (addMod count.1 s.inBus count.2 s.inBus.length).2 := hsum
  generalize addMod count.1 s.inBus count.2 s.inBus.length = total at hsum ⊢
  have htotal : Rewrites m₀ total.1 := h.rewrites.trans (hall.rewrites.trans hsum.rewrites)
  -- the total is the last bus
  have hvalue : ∀ ρ, Solves total.1.nets total.1.cells ρ → last.outBus.map ρ = total.2.map ρ := by
    intro ρ hρ
    refine busValue_injective (by rw [length_map, length_map, hchain.length_eq, hsum.length_eq]) ?_
    have hcountρ := hsum.rewrites.equations ρ hρ
    have hzero : ρ netConst0 = false := hρ.const_eq _ _ hsum.rewrites.wellFormed.gnd
    have hones : ones ρ condOut.2 = holding ρ (s :: ss) := by
      have hmap := hcondValue ρ (hcount.rewrites.equations ρ hcountρ)
      have hlist : (condOut.2.map fun n => (ρ n).toNat) =
          (s :: ss).map fun t => (condValue ρ t.condTerms).toNat := by
        calc (condOut.2.map fun n => (ρ n).toNat) = (condOut.2.map ρ).map Bool.toNat := by
              rw [List.map_map]
              rfl
          _ = (conds.map (condValue ρ)).map Bool.toNat := by rw [hmap]
          _ = (s :: ss).map fun t => (condValue ρ t.condTerms).toNat := by
              rw [← hconds, List.map_map, List.map_map]
              rfl
      rw [ones, holding, hlist]
    rw [hchain.value ρ (htotal.equations ρ hρ), hsum.value ρ hρ, window_eq hzero, window_eq hzero,
      drop_zero, drop_zero, hcountValue ρ hcountρ, hones, hzero]
    exact (Nat.add_mod _ _ _)
  -- ranks with room for the new cells between any two
  obtain ⟨r₀, hr₀, hr⟩ := h.ranks
  let K := total.1.cells.length - m.cells.length + 1
  let r₁ := Function.update r₀ netConst0 0
  have hscale : ∀ {m : GateModule}, m.WellFormed → m.Ranks r₀ → m.Ranks fun n => K * r₁ n :=
    fun hm hr c hc n hn =>
      Nat.mul_lt_mul_of_pos_left (ranks_netConst0 hm hr c hc n hn) (Nat.succ_pos _)
  have hzeroRank : K * r₁ netConst0 = 0 := by
    show K * Function.update r₀ netConst0 0 netConst0 = 0
    rw [update_self, Nat.mul_zero]
  obtain ⟨r₃, hr₃, hold₃, hbound₃⟩ := hall.ranks _ (hscale hm hr)
  obtain ⟨r₄, hr₄, hold₄, hbound₄⟩ := hsum.ranks r₃ hr₃
  have hold : ∀ n : ℕ, n < m.nets.length → r₄ n = K * r₁ n := fun n hn => by
    rw [hold₄ n (Nat.lt_of_lt_of_le hn hgrowAll), hold₃ n hn]
  have hlt : ∀ (k : ℕ) (o t : ℕ), o < m.nets.length → last.outBus[k]? = some o → total.2[k]? = some t →
      r₄ t < r₄ o := by
    intro k o t ho hk ht
    obtain ⟨hterms, hbits⟩ := hchain.ranks r₁ (ranks_netConst0 hm₀ hr₀) k o hk
    -- everything the sum is built from lies a whole step below
    have hstep : ∀ n : ℕ, r₁ n < r₁ o → K * r₁ n ≤ K * (r₁ o - 1) := fun n hn =>
      Nat.mul_le_mul_left K (Nat.le_sub_one_of_lt hn)
    have hpos : 0 < r₁ o := by
      obtain ⟨term, hterm⟩ := exists_mem_of_ne_nil _ (hok s (mem_cons_self ..)).cond
      exact Nat.lt_of_le_of_lt (Nat.zero_le _) (hterms s (mem_cons_self ..) term hterm)
    have hcountBits : ∀ n ∈ count.2, r₃ n ≤ K * (r₁ o - 1) + (count.1.cells.length - m.cells.length) :=
      fun n hn => hbound₃ n hn _ fun i hi => by
        rw [← hins] at hi
        obtain ⟨u, hu, hi⟩ := mem_flatMap.1 hi
        obtain ⟨term, hterm, rfl⟩ := List.mem_map.1 hi
        exact hstep _ (hterms u hu term hterm)
    have hzero₃ : r₃ netConst0 = 0 := by rw [hold₃ _ (lt_of_constOf hm.gnd), hzeroRank]
    have hbound := hbound₄ k t ht (K * (r₁ o - 1) + (count.1.cells.length - m.cells.length))
      (by rw [hzero₃]; exact Nat.zero_le _) fun j hj => by
        refine ⟨?_, ?_⟩
        · rcases Nat.lt_or_ge j s.inBus.length with hlt | hge
          · rw [getD_eq_getElem _ _ hlt]
            have hmem : s.inBus[j] ∈ s.inBus.take (k + 1) := by
              refine mem_of_getElem? (i := j) ?_
              rw [getElem?_take_of_lt (by omega), getElem?_eq_getElem hlt]
            rw [hold₃ _ (Nat.lt_of_lt_of_le ((hok s (mem_cons_self ..)).exist _
              (.inr (getElem_mem hlt))) hgrow)]
            exact Nat.le_trans (hstep _ (hbits _ hmem)) (Nat.le_add_right _ _)
          · rw [getD_eq_default _ _ hge, hzero₃]
            exact Nat.zero_le _
        · rcases Nat.lt_or_ge j count.2.length with hlt | hge
          · rw [getD_eq_getElem _ _ hlt]
            exact hcountBits _ (getElem_mem hlt)
          · rw [getD_eq_default _ _ hge, hzero₃]
            exact Nat.zero_le _
    have hlen := hall.length_le
    have hlen' := hsum.length_le
    have hsplit : K * r₁ o = K * (r₁ o - 1) + K := by
      rw [← Nat.mul_succ, Nat.succ_eq_add_one, Nat.sub_add_cancel hpos]
    rw [hold o ho, hsplit]
    omega
  have hpairs : ∀ p ∈ last.cells.zip total.2, ∃ c, total.1.cells[p.1]? = some c ∧
      (p.2 : ℕ) < total.1.nets.length ∧ r₄ p.2 < r₄ c.output ∧
        ∀ ρ, Solves total.1.nets total.1.cells ρ → ρ c.output = ρ p.2 := fun p hp => by
      obtain ⟨k, hk⟩ := mem_iff_getElem?.1 hp
      obtain ⟨hcell, htot⟩ := getElem?_zip_eq_some.1 hk
      obtain ⟨c₀, hc₀, hout₀⟩ := hchain.stage.cell k p.1 hcell
      obtain ⟨c, hc, hout⟩ := htotal.output p.1 c₀ hc₀
      rw [← hout] at hout₀
      have houtNet : (c.output : ℕ) < m.nets.length := by
        rw [hout]
        exact Nat.lt_of_lt_of_le (output_lt hm₀ (mem_of_getElem? hc₀)) hgrow
      refine ⟨c, hc, hsum.exist _ (mem_of_getElem? htot), hlt k _ _ houtNet hout₀ htot,
        fun ρ hρ => ?_⟩
      have hbits := congrArg (fun l => l[k]?) (hvalue ρ hρ)
      simp only [getElem?_map, hout₀, htot, map_some] at hbits
      exact some.inj hbits
  obtain ⟨hrewrites, hranks⟩ := rewrites_buffers hpairs
    (Rewrites.refl hsum.rewrites.wellFormed hsum.rewrites.closed) hr₄
  refine ⟨htotal.trans hrewrites, r₄, fun c hc n hn => ?_, hranks⟩
  rw [hold n (Nat.lt_of_lt_of_le (input_lt hclosed₀ hc hn) hgrow),
    hold c.output (Nat.lt_of_lt_of_le (output_lt hm₀ hc) hgrow)]
  exact hscale hm₀ hr₀ c hc n hn

variable {stages : List Stage} {turns : ℕ}

theorem countVisit_counted (hm₀ : m₀.WellFormed) (hclosed₀ : m₀.Closed)
    (hok : ∀ s ∈ stages, StageOk m₀ s ∧ s.inBus ≠ []) {st st' : GateModule × Bool}
    (h : Counted m₀ st.1) {head : ℕ} (hhead : head < stages.length)
    (hst : countVisit stages turns st head = some st') : Counted m₀ st'.1 := by
  unfold countVisit at hst
  split at hst
  · obtain rfl := some.inj hst
    exact h
  · obtain ⟨chain, hchain, rfl⟩ := map_eq_some_iff.1 hst
    split
    · exact h
    · obtain ⟨ss, hss, hcons, hmem⟩ := chainFrom_spec (getElem?_eq_getElem hhead) hchain
      rw [hss]
      exact rebuildCounter_counted hm₀ hclosed₀ h (fun t ht => (hok t (hmem t ht)).1) hcons

theorem countVisits_counted (hm₀ : m₀.WellFormed) (hclosed₀ : m₀.Closed)
    (hok : ∀ s ∈ stages, StageOk m₀ s ∧ s.inBus ≠ [])
    (hheads : ∀ head ∈ heads, head < stages.length) {st st' : GateModule × Bool}
    (h : Counted m₀ st.1) (hst : heads.foldlM (countVisit stages turns) st = some st') :
    Counted m₀ st'.1 := by
  induction heads generalizing st with
  | nil =>
    obtain rfl := some.inj hst
    exact h
  | cons head rest ih =>
    obtain ⟨mid, hmid, hrest⟩ := bind_eq_some_iff.1 hst
    exact ih (fun head hhead => hheads head (mem_cons_of_mem _ hhead))
      (countVisit_counted hm₀ hclosed₀ hok h (hheads head (mem_cons_self ..)) hmid) hrest

theorem countVisits_end (hr : m₀.Ranks r) (hturns : ∀ c ∈ m₀.cells, r c.output < turns)
    (hok : ∀ s ∈ stages, StageOk m₀ s ∧ s.inBus ≠ [])
    (hheads : ∀ head ∈ heads, head < stages.length) (st : GateModule × Bool) :
    ∃ st', heads.foldlM (countVisit stages turns) st = some st' := by
  induction heads generalizing st with
  | nil => exact ⟨st, rfl⟩
  | cons head rest ih =>
    obtain ⟨mid, hmid⟩ : ∃ mid, countVisit stages turns st head = some mid := by
      unfold countVisit
      split
      · exact ⟨_, rfl⟩
      · obtain ⟨chain, hchain⟩ : ∃ chain, chainFrom stages turns head = some chain :=
          chainFrom_ends hr hturns hok
          (getElem?_eq_getElem (hheads head (mem_cons_self ..)))
          fun o _ => Nat.le_add_left turns (r o)
        exact ⟨_, by rw [hchain]; rfl⟩
    obtain ⟨st', hst'⟩ := ih (fun head hhead => hheads head (mem_cons_of_mem _ hhead)) mid
    exact ⟨st', by rw [foldlM_cons, hmid]; exact hst'⟩

/-- The pass ends and preserves the module. -/
theorem countScanRebuild_preserves (m : GateModule) (hm : m.WellFormed) (hclosed : m.Closed)
    (hacyclic : m.Acyclic) :
    (∃ turns out, countScanRebuild turns m = some out) ∧
      ∀ turns out, countScanRebuild turns m = some out → Preserves m out.1 := by
  obtain ⟨r, hr⟩ := id hacyclic
  refine ⟨?_, fun turns out h => ?_⟩
  · obtain ⟨turns, hturns⟩ : ∃ turns, ∀ c ∈ m.cells, r c.output < turns :=
      ⟨(m.cells.map Cell.output).toFinset.sup r + 1, fun c hc =>
        Nat.lt_succ_of_le (Finset.le_sup (List.mem_toFinset.2 (List.mem_map_of_mem hc)))⟩
    obtain ⟨stages, hstages⟩ := collectStages_ends hm hclosed hr hturns
    obtain ⟨out, hout⟩ := countVisits_end hr hturns (collectStages_spec hm hclosed hstages)
      (fun head hhead => mem_range.1 hhead) (m, false)
    exact ⟨turns, out, by rw [countScanRebuild, hstages]; exact hout⟩
  · obtain ⟨stages, hstages, hvisits⟩ := bind_eq_some_iff.1 h
    have hcounted := countVisits_counted hm hclosed (collectStages_spec hm hclosed hstages)
      (fun head hhead => mem_range.1 hhead)
      (⟨Rewrites.refl hm hclosed, r, hr, hr⟩ : Counted m m) hvisits
    obtain ⟨r', -, hr'⟩ := hcounted.ranks
    exact hcounted.rewrites.preserves hm hclosed hacyclic ⟨r', hr'⟩

/-- A counter of two bits, incremented on each of eight conditions. -/
def GateModule.eightStages : GateModule where
  ports := [(List.range 10).map (· + 2), [42, 43]]
  nets := [.const false, .const true] ++ replicate 10 .portInput ++
    (List.range 32).map NetDriver.cell
  cells := (List.range 8).flatMap fun j =>
    [⟨.not, [4 * j + 10], 4 * j + 12⟩, ⟨.xor2, [4 * j + 11, 4 * j + 10], 4 * j + 13⟩,
      ⟨.mux2, [j + 2, 4 * j + 10, 4 * j + 12], 4 * j + 14⟩,
      ⟨.mux2, [j + 2, 4 * j + 11, 4 * j + 13], 4 * j + 15⟩]
  ffs := []
  ramBlocks := []

theorem GateModule.wellFormed_eightStages : eightStages.WellFormed := by
  have hdriver : ∀ i < 32, ∀ c ∈ eightStages.cells[i]?, eightStages.nets[c.output]? = some (.cell i) := by
    decide
  have hcell : ∀ n < 44, ∀ i ∈ eightStages.nets[n]?.map NetDriver.cellIndex,
      n < 12 ∨ (eightStages.cells[i]?.map Cell.output) = some n := by decide
  have hinput : ∀ n < 12, ∀ d ∈ eightStages.nets[n]?, ∀ i < 32, d ≠ .cell i := by decide
  have hrange : ∀ n < 44, ∀ i ∈ eightStages.nets[n]?.map NetDriver.cellIndex, i < 32 := by decide
  refine ⟨rfl, rfl, fun i c hc => ?_, fun n i hn => ?_, by decide⟩
  · exact hdriver i (List.getElem?_eq_some_iff.1 hc).1 c hc
  · have hlt : n < 44 := (List.getElem?_eq_some_iff.1 hn).1
    have hi : i < 32 := hrange n hlt i (by rw [hn]; rfl)
    rcases hcell n hlt i (by rw [hn]; rfl) with hsmall | houtput
    · exact absurd rfl (hinput n hsmall _ hn i hi)
    · exact map_eq_some_iff.1 houtput

theorem GateModule.closed_eightStages : eightStages.Closed := by
  have hcells : ∀ c ∈ eightStages.cells, ∀ n ∈ c.inputs, n < 44 := by decide
  have hports : ∀ port ∈ eightStages.ports, ∀ n ∈ port, n < 44 := by decide
  rintro n (⟨c, hc, hn⟩ | ⟨port, hport, hn⟩ | ⟨ff, hff, -⟩ | hn)
  · exact hcells c hc n hn
  · exact hports port hport n hn
  · exact absurd hff not_mem_nil
  · exact absurd hn not_mem_nil

theorem GateModule.acyclic_eightStages : eightStages.Acyclic := ⟨id, by decide⟩

/-- The eight stages become a population count. -/
theorem countScanRebuild_preserves_eightStages :
    ∃ turns out, countScanRebuild turns .eightStages = some out ∧ Preserves .eightStages out.1 := by
  obtain ⟨⟨turns, out, hout⟩, hall⟩ := countScanRebuild_preserves .eightStages
    GateModule.wellFormed_eightStages GateModule.closed_eightStages GateModule.acyclic_eightStages
  exact ⟨turns, out, hout, hall turns out hout⟩

end Pass

end Veryl.Synthesizer
