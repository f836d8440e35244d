import Veryl.Library.MergeTree
import Veryl.Synthesizer.BalanceLevels

/-!
Balancing keeps the value of every net, and every rebuilt tree arrives first
among all trees over its leaves.
-/

namespace Veryl.Synthesizer

open Library List Option

/-- A net as a tree of cells of one kind, all of them among those picked. -/
def GateModule.Spells (m : GateModule) (P : ℕ → Prop) (kind : CellKind) :
    MergeTree NetId → NetId → Prop
  | .leaf a, n => n = a
  | .node l r, n => ∃ i x y, P i ∧ m.driverCell n = some (i, ⟨kind, [x, y], n⟩) ∧
      m.Spells P kind l x ∧ m.Spells P kind r y

def combineBits (kind : CellKind) (a b : Bool) : Bool := kind.eval [a, b]

section Trees

variable {m m' : GateModule} {P P' : ℕ → Prop} {kind : CellKind} {t : MergeTree NetId} {n : NetId}

theorem driverCell_of (hm : m.WellFormed) {i : ℕ} {c : Cell} (hc : m.cells[i]? = some c) :
    m.driverCell c.output = some (i, c) := by
  rw [GateModule.driverCell, hm.driver_eq i c hc]
  dsimp only
  rw [hc]
  rfl

theorem Spells.mono (hm : m.WellFormed) (hm' : m'.WellFormed)
    (h : ∀ (i : ℕ) (c : Cell), P i → m.cells[i]? = some c → P' i ∧ m'.cells[i]? = some c) :
    ∀ {t : MergeTree NetId} {n : NetId}, m.Spells P kind t n → m'.Spells P' kind t n
  | .leaf _, _, ht => ht
  | .node _ _, _, ⟨i, x, y, hi, hdriver, hl, hr⟩ => by
    obtain ⟨hi', hcell⟩ := h i _ hi (driverCell_eq hm hdriver).1
    exact ⟨i, x, y, hi', driverCell_of hm' hcell, Spells.mono hm hm' h hl, Spells.mono hm hm' h hr⟩

theorem Spells.value (hm : m.WellFormed) {ρ : NetId → Bool} (hρ : Solves m.nets m.cells ρ) :
    ∀ {t : MergeTree NetId} {n : NetId}, m.Spells P kind t n → ρ n = t.fold (combineBits kind) ρ
  | .leaf _, _, ht => congrArg ρ ht
  | .node l r, n, ⟨i, x, y, _, hdriver, hl, hr⟩ => by
    have hcell := hρ.cell_eq _ (mem_of_getElem? (driverCell_eq hm hdriver).1)
    rw [MergeTree.fold, ← Spells.value hm hρ hl, ← Spells.value hm hρ hr]
    exact hcell

theorem Spells.level {level : NetId → ℕ} (hlevel : m.Levels level) (hkind : kind ≠ .buf)
    (hlt : ∀ (i : ℕ) (c : Cell) (n : NetId), m.driverCell n = some (i, c) → n < m.nets.length) :
    ∀ {t : MergeTree NetId} {n : NetId}, m.Spells P kind t n → level n = t.level level
  | .leaf _, _, ht => congrArg level ht
  | .node l r, n, ⟨i, x, y, _, hdriver, hl, hr⟩ => by
    have hn := hlevel n (hlt i _ n hdriver)
    rw [hdriver] at hn
    rw [hn, MergeTree.level, ← Spells.level hlevel hkind hlt hl, ← Spells.level hlevel hkind hlt hr]
    exact arrival_pair rfl hkind

theorem fold_combineBits (h : isAssoc kind = true) (ρ : NetId → Bool) {s t : MergeTree NetId}
    (hperm : s.leaves.Perm t.leaves) :
    s.fold (combineBits kind) ρ = t.fold (combineBits kind) ρ := by
  have : Std.Associative (combineBits kind) := ⟨eval_assoc h⟩
  have : Std.Commutative (combineBits kind) := ⟨eval_comm h⟩
  obtain ⟨e, he⟩ : ∃ e, ∀ b, combineBits kind b e = b := by
    obtain rfl | rfl | rfl := isAssoc_cases h
    · exact ⟨true, Bool.and_true⟩
    · exact ⟨false, Bool.or_false⟩
    · exact ⟨false, Bool.xor_false⟩
  exact MergeTree.fold_perm he hperm

end Trees

section Chains

variable {m m' : GateModule} {r : NetId → ℕ} {kind : CellKind} {n : NetId} {i : ℕ} {c : Cell}

theorem read_once_iff : ¬ ((computeFanout m).count n ≠ 1 ∨ (computeFanout m).nonCell n = true) ↔
    m.reads.count n = 1 ∧ n ∉ m.endpointNets := by
  rw [not_or, not_not]
  exact and_congr_right fun _ => not_congr contains_iff_mem

theorem producerDissolvable_iff : (computeFanout m).producerDissolvable m' n kind = true ↔
    (m.reads.count n = 1 ∧ n ∉ m.endpointNets) ∧
      ∃ j d, m'.driverCell n = some (j, d) ∧ d.kind = kind := by
  unfold Fanout.producerDissolvable
  split
  · rename_i hread
    exact ⟨nofun, fun h => absurd hread (read_once_iff.2 h.1)⟩
  · rename_i hread
    cases hdriver : m'.driverCell n with
    | none => exact ⟨nofun, nofun⟩
    | some jd =>
      refine ⟨fun h => ⟨read_once_iff.1 hread, jd.1, jd.2, rfl, of_decide_eq_true h⟩, ?_⟩
      rintro ⟨-, j, d, hjd, hkind⟩
      obtain rfl := some.inj hjd
      exact decide_eq_true hkind

theorem isInteriorNode_of (hm : m.WellFormed) (hc : m.cells[i]? = some c) (hn : n ∈ c.inputs)
    (h : (computeFanout m).producerDissolvable m n c.kind = true) :
    ∃ j d, m.driverCell n = some (j, d) ∧ d.kind = c.kind ∧
      (computeFanout m).isInteriorNode m j = true := by
  obtain ⟨hread, j, d, hdriver, hkind⟩ := producerDissolvable_iff.1 h
  obtain ⟨hd, rfl⟩ := driverCell_eq hm hdriver
  have hreader : ∀ k, readBy m d.output k = true → k = i := fun k hk => by
    by_contra hne
    unfold readBy at hk
    split at hk
    · rename_i e he
      exact (sole_reader hread.1 hc hn).2.1 k e he hne (contains_iff_mem.1 hk)
    · cases hk
  have hmem : i ∈ (List.range m.cells.length).filter (readBy m d.output) := by
    refine mem_filter.2 ⟨mem_range.2 (List.getElem?_eq_some_iff.1 hc).1, ?_⟩
    rw [readBy, hc]
    exact contains_iff_mem.2 hn
  have hsole : (computeFanout m).consumerCell d.output = some i := by
    show ((List.range m.cells.length).filter (readBy m d.output)).getLast? = some i
    obtain ⟨k, hk⟩ := ne_none_iff_exists'.1 fun hnone =>
      ne_nil_of_mem hmem (getLast?_eq_none_iff.1 hnone)
    rw [hk, hreader k (mem_filter.1 (List.mem_of_getLast? hk)).2]
  refine ⟨j, d, hdriver, hkind, ?_⟩
  unfold Fanout.isInteriorNode
  rw [hd]
  dsimp only
  rw [hsole, bind_some, hc]
  rw [if_neg (read_once_iff.2 hread)]
  exact decide_eq_true hkind.symm

/-- A module in which only some roots of another have changed, their inputs only. -/
structure Touched (m m' : GateModule) (done : List ℕ) : Prop where
  rewrites : Rewrites m m'
  same : ∀ (j : ℕ) (d : Cell), m.cells[j]? = some d → j ∉ done → m'.cells[j]? = some d
  kind : ∀ (j : ℕ) (d : Cell), m.cells[j]? = some d → ∃ d', m'.cells[j]? = some d' ∧
    d'.kind = d.kind ∧ d'.output = d.output

variable {done : List ℕ}

theorem Touched.dissolvable (h : Touched m m' done) (hm : m.WellFormed) (hn : n < m.nets.length) :
    (computeFanout m).producerDissolvable m' n kind =
      (computeFanout m).producerDissolvable m n kind := by
  rw [Bool.eq_iff_iff, producerDissolvable_iff, producerDissolvable_iff]
  refine and_congr_right fun _ => ⟨?_, ?_⟩
  · rintro ⟨j, d', hdriver, hkind⟩
    obtain ⟨hd', hout⟩ := driverCell_eq h.rewrites.wellFormed hdriver
    have hnet := h.rewrites.wellFormed.driver_eq j d' hd'
    rw [hout, h.rewrites.net_eq hn] at hnet
    obtain ⟨d, hd, hout'⟩ := hm.cell_of n j hnet
    obtain ⟨e, he, hkind', -⟩ := h.kind j d hd
    obtain rfl := some.inj (he.symm.trans hd')
    exact ⟨j, d, hout' ▸ driverCell_of hm hd, hkind'.symm.trans hkind⟩
  · rintro ⟨j, d, hdriver, hkind⟩
    obtain ⟨hd, hout⟩ := driverCell_eq hm hdriver
    obtain ⟨d', hd', hkind', hout'⟩ := h.kind j d hd
    exact ⟨j, d', (hout'.trans hout) ▸ driverCell_of h.rewrites.wellFormed hd', hkind'.trans hkind⟩

theorem inputs_pair (hm : m.WellFormed) (hassoc : isAssoc kind = true) {d : Cell} (hd : d ∈ m.cells)
    (hkind : d.kind = kind) : ∃ x y, d = ⟨kind, [x, y], d.output⟩ := by
  obtain ⟨x, y, hxy⟩ := length_eq_two.1 ((hm.arity d hd).trans (hkind ▸ arity_of_isAssoc hassoc))
  exact ⟨x, y, by rw [← hkind, ← hxy]⟩

/-- What a chain collects from a net: the leaves of the tree it spells. -/
structure Collects (m : GateModule) (kind : CellKind) (n : NetId) (turns : ℕ)
    (t : MergeTree NetId) : Prop where
  spells : m.Spells (fun j => (computeFanout m).isInteriorNode m j = true) kind t n
  leaf : ∀ a ∈ t.leaves, (computeFanout m).producerDissolvable m a kind = false
  lt : ∀ a : ℕ, a ∈ t.leaves → a < m.nets.length
  runs : ∀ m' done, Touched m m' done →
    (∀ j ∈ done, (computeFanout m).isInteriorNode m j = false) → ∀ more stack leaves,
      (computeFanout m).collectLeaves m' kind (turns + more) (n :: stack) leaves =
        (computeFanout m).collectLeaves m' kind more stack (leaves ++ t.leaves.reverse)

theorem collects (hm : m.WellFormed) (hclosed : m.Closed) (hr : m.Ranks r)
    (hassoc : isAssoc kind = true) : ∀ (k : ℕ) (n : NetId), r n < k →
      (∃ (i : ℕ) (c : Cell), m.cells[i]? = some c ∧ c.kind = kind ∧ n ∈ c.inputs) →
        ∃ turns t, Collects m kind n turns t
  | k + 1, n, hk, ⟨i, c, hc, hkind, hn⟩ => by
    have hlt : n < m.nets.length := input_lt hclosed (mem_of_getElem? hc) hn
    by_cases hdiss : (computeFanout m).producerDissolvable m n kind = true
    · obtain ⟨j, d, hdriver, hdkind, hinterior⟩ := isInteriorNode_of hm hc hn (hkind ▸ hdiss)
      obtain ⟨hd, hout⟩ := driverCell_eq hm hdriver
      have hdmem := mem_of_getElem? hd
      obtain ⟨x, y, hxy⟩ := inputs_pair hm hassoc hdmem (hdkind.trans hkind)
      rw [hout] at hxy
      subst hxy
      have hbelow : ∀ z ∈ [x, y], r z < k := fun z hz => by
        have hz' := hr _ hdmem z hz
        have hout' : r n = r (Cell.output ⟨kind, [x, y], n⟩) := rfl
        omega
      obtain ⟨tx, l, hl⟩ := collects hm hclosed hr hassoc k x (hbelow x (by simp))
        ⟨j, _, hd, rfl, by simp⟩
      obtain ⟨ty, s, hs⟩ := collects hm hclosed hr hassoc k y (hbelow y (by simp))
        ⟨j, _, hd, rfl, by simp⟩
      refine ⟨1 + ty + tx, .node l s, ⟨j, x, y, hinterior, hdriver, hl.spells, hs.spells⟩,
        fun a ha => (mem_append.1 ha).elim (hl.leaf a) (hs.leaf a),
        fun a ha => (mem_append.1 ha).elim (hl.lt a) (hs.lt a),
        fun m' done htouched hdone more stack leaves => ?_⟩
      have hj : j ∉ done := fun hmem => by
        rw [hdone j hmem] at hinterior
        cases hinterior
      have hkept : m'.driverCell n = some (j, ⟨kind, [x, y], n⟩) :=
        driverCell_of htouched.rewrites.wellFormed (htouched.same j _ hd hj)
      rw [show 1 + ty + tx + more = ty + (tx + more) + 1 by omega, Fanout.collectLeaves,
        htouched.dissolvable hm hlt, hdiss, hkept]
      show (computeFanout m).collectLeaves m' kind (ty + (tx + more)) (y :: x :: stack) leaves = _
      rw [hs.runs m' done htouched hdone, hl.runs m' done htouched hdone, append_assoc,
        MergeTree.leaves, reverse_append]
    · have hdiss' := Bool.eq_false_iff.2 hdiss
      refine ⟨1, .leaf n, rfl, fun a ha => ?_, fun a ha => ?_,
        fun m' done htouched _ more stack leaves => ?_⟩
      · rwa [mem_singleton.1 ha]
      · rwa [mem_singleton.1 ha]
      · rw [Nat.add_comm, Fanout.collectLeaves, htouched.dissolvable hm hlt, hdiss']
        rfl

end Chains

end Veryl.Synthesizer
