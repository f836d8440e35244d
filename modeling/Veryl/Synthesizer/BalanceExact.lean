import Veryl.Synthesizer.BalanceTrees

/-!
Balancing keeps the value of every net, and every rebuilt tree arrives first
among all trees over its leaves.
-/

namespace Veryl.Synthesizer

open Library List Option Function Nat

variable {turns : ℕ} {l r before : MergeTree NetId}

section Heap

theorem arrivesBefore_iff {a b : ℕ × ℕ} : arrivesBefore a b = true ↔
    a.1 < b.1 ∨ a.1 = b.1 ∧ a.2 ≤ b.2 := by
  simp [arrivesBefore]

theorem pairwise_toHeap (entries : List (ℕ × NetId)) :
    (toHeap entries).Pairwise fun a b => a.1 ≤ b.1 := by
  refine (pairwise_mergeSort (fun a b c hab hbc => ?_) (fun a b => ?_) entries).imp fun h => ?_
  · rw [arrivesBefore_iff] at hab hbc ⊢
    omega
  · rw [Bool.or_eq_true, arrivesBefore_iff, arrivesBefore_iff]
    omega
  · rw [arrivesBefore_iff] at h
    omega

theorem toHeap_perm (entries : List (ℕ × NetId)) : (toHeap entries).Perm entries :=
  mergeSort_perm _ _

end Heap

/-- Cells added to a module, and the tree over its nets that every net stands for. -/
structure Merging (m₀ : GateModule) (kind : CellKind) (m : GateModule)
    (tree : NetId → MergeTree NetId) : Prop where
  rewrites : Rewrites m₀ m
  cells : ∃ added, m.cells = m₀.cells ++ added
  leaf : ∀ n : ℕ, n < m₀.nets.length → tree n = .leaf n
  spells : ∀ n : ℕ, n < m.nets.length → m.Spells (m₀.cells.length ≤ ·) kind (tree n) n
  node : ∀ c ∈ m.cells, c ∈ m₀.cells ∨ c.kind = kind ∧ ∃ x y, c.inputs = [x, y] ∧
    tree c.output = .node (tree x) (tree y)

section Merging

variable {m₀ m : GateModule} {kind : CellKind} {tree : NetId → MergeTree NetId} {c : Cell}
  {w : NetId → ℕ}

theorem merging_refl (hm : m.WellFormed) (hclosed : m.Closed) : Merging m kind m .leaf :=
  ⟨Rewrites.refl hm hclosed, ⟨[], (append_nil _).symm⟩, fun _ _ => rfl, fun _ _ => rfl,
    fun _ hc => .inl hc⟩

theorem Merging.mkCell (h : Merging m₀ kind m tree) (harity : kind.arity = 2) {a b : NetId}
    (ha : (a : ℕ) < m.nets.length) (hb : (b : ℕ) < m.nets.length) :
    Merging m₀ kind (m.mkCell kind [a, b]).1
      (Function.update tree m.nets.length (.node (tree a) (tree b))) := by
  have hm := h.rewrites.wellFormed
  have hclosed := h.rewrites.closed
  have hinputs : ∀ n : ℕ, n ∈ [a, b] → n < m.nets.length := by
    rintro n (_ | ⟨_, _ | ⟨_, ⟨⟩⟩⟩) <;> assumption
  have harity' : [a, b].length = kind.arity := harity.symm
  have hstep := rewrites_mkCell hm hclosed harity' hinputs
  have hold : ∀ n : ℕ, n < m.nets.length →
      Function.update tree m.nets.length (.node (tree a) (tree b)) n = tree n := fun n hn =>
    update_of_ne (Nat.ne_of_lt hn) _ _
  have hgrow := h.rewrites.length_le
  obtain ⟨added, hadded⟩ := h.cells
  have hlength : m₀.cells.length ≤ m.cells.length := by
    rw [hadded, length_append]
    omega
  have hkept : ∀ n : ℕ, n < m.nets.length →
      (m.mkCell kind [a, b]).1.Spells (m₀.cells.length ≤ ·) kind (tree n) n := fun n hn =>
    Spells.mono hm hstep.wellFormed (fun i d hi hd =>
      ⟨hi, (getElem?_append_left (List.getElem?_eq_some_iff.1 hd).1).trans hd⟩) (h.spells n hn)
  refine ⟨h.rewrites.trans hstep, ⟨added ++ [⟨kind, [a, b], m.nets.length⟩], ?_⟩,
    fun n hn => (hold n (by omega)).trans (h.leaf n hn), fun n hn => ?_, fun d hd => ?_⟩
  · show m.cells ++ _ = _
    rw [hadded, append_assoc]
  · rcases Nat.lt_or_ge n m.nets.length with hlt | hge
    · rw [hold n hlt]
      exact hkept n hlt
    · obtain rfl : n = m.nets.length := by
        have hlen : (m.mkCell kind [a, b]).1.nets.length = m.nets.length + 1 :=
          length_append
        omega
      rw [update_self]
      have hcell : (m.mkCell kind [a, b]).1.cells[m.cells.length]? =
          some ⟨kind, [a, b], m.nets.length⟩ := getElem?_concat_length
      exact ⟨m.cells.length, a, b, hlength, driverCell_of hstep.wellFormed hcell, hkept a ha,
        hkept b hb⟩
  · rcases mem_append.1 hd with hd | hd
    · rcases h.node d hd with hd' | ⟨hkind, x, y, hxy, htree⟩
      · exact .inl hd'
      · refine .inr ⟨hkind, x, y, hxy, ?_⟩
        have hx : x ∈ d.inputs := by simp [hxy]
        have hy : y ∈ d.inputs := by simp [hxy]
        rw [hold _ (output_lt hm hd), hold _ (input_lt hclosed hd hx),
          hold _ (input_lt hclosed hd hy)]
        exact htree
    · obtain rfl := mem_singleton.1 hd
      refine .inr ⟨rfl, a, b, rfl, ?_⟩
      rw [update_self, hold a ha, hold b hb]

/-- Entries of a heap under the levels of their trees. -/
def Entered (m : GateModule) (tree : NetId → MergeTree NetId) (w : NetId → ℕ)
    (heap : List (ℕ × NetId)) : Prop :=
  ∀ e ∈ heap, (e.2 : ℕ) < m.nets.length ∧ e.1 = (tree e.2).level w

theorem greedy_pair {la lb : ℕ} {na nb : NetId} {heap : List (ℕ × NetId)}
    (hentered : Entered m tree w ((la, na) :: (lb, nb) :: heap))
    (hsorted : ((la, na) :: (lb, nb) :: heap).Pairwise fun a b => a.1 ≤ b.1) {t : MergeTree NetId}
    (hrest : MergeTree.Greedy w (.node (tree na) (tree nb) :: heap.map fun e => tree e.2) t) :
    MergeTree.Greedy w (((la, na) :: (lb, nb) :: heap).map fun e => tree e.2) t := by
  obtain ⟨hfirst, hsorted⟩ := pairwise_cons.1 hsorted
  obtain ⟨hsecond, -⟩ := pairwise_cons.1 hsorted
  have ha : la = (tree na).level w := (hentered _ (mem_cons_self ..)).2
  have hb : lb = (tree nb).level w := (hentered _ (mem_cons_of_mem _ (mem_cons_self ..))).2
  refine .merge (.refl _) ?_ (fun c hc => ?_) hrest
  · rw [← ha, ← hb]
    exact hfirst _ (mem_cons_self ..)
  · obtain ⟨e, he, rfl⟩ := List.mem_map.1 hc
    rw [← hb, ← (hentered e (mem_cons_of_mem _ (mem_cons_of_mem _ he))).2]
    exact hsecond e he

theorem mergeHeap_spec (root : ℕ) (harity : kind.arity = 2) : ∀ (remaining : ℕ) (m : GateModule)
    (tree : NetId → MergeTree NetId) (heap : List (ℕ × NetId)), heap.length = remaining + 2 →
      Merging m₀ kind m tree → Entered m tree w heap → (heap.Pairwise fun a b => a.1 ≤ b.1) →
      ∃ m' tree' na nb, mergeHeap kind root (remaining + 1) m heap = m'.setCell root kind [na, nb] ∧
        Merging m₀ kind m' tree' ∧ (na : ℕ) < m'.nets.length ∧ (nb : ℕ) < m'.nets.length ∧
        MergeTree.Greedy w (heap.map fun e => tree e.2) (.node (tree' na) (tree' nb))
  | 0, m, tree, [(la, na), (lb, nb)], _, h, hentered, hsorted => by
    refine ⟨m, tree, na, nb, ?_, h, (hentered (la, na) (by simp)).1,
      (hentered (lb, nb) (by simp)).1, greedy_pair hentered hsorted (.one _)⟩
    rw [mergeHeap, if_pos rfl]
  | remaining + 1, m, tree, (la, na) :: (lb, nb) :: heap, hlen, h, hentered, hsorted => by
    have hna := (hentered (la, na) (by simp)).1
    have hnb := (hentered (lb, nb) (by simp)).1
    have hold : ∀ e ∈ heap, (Function.update tree m.nets.length (.node (tree na) (tree nb)) e.2) =
        tree e.2 := fun e he =>
      update_of_ne (Nat.ne_of_lt (hentered e (by simp [he])).1) _ _
    have hnew : Entered (m.mkCell kind [na, nb]).1
        (Function.update tree m.nets.length (.node (tree na) (tree nb))) w
        (toHeap ((max la lb + 1, m.nets.length) :: heap)) := by
      intro e he
      have hlen' : (m.mkCell kind [na, nb]).1.nets.length = m.nets.length + 1 :=
        length_append
      rcases mem_cons.1 ((toHeap_perm _).mem_iff.1 he) with rfl | he
      · refine ⟨hlen'.symm ▸ lt_succ_self _, ?_⟩
        rw [update_self, MergeTree.level, ← (hentered (la, na) (by simp)).2,
          ← (hentered (lb, nb) (by simp)).2]
      · have hin := hentered e (by simp [he])
        rw [hold e he]
        exact ⟨hlen'.symm ▸ lt_succ_of_lt hin.1, hin.2⟩
    obtain ⟨m', tree', a, b, hrun, hmerging, ha, hb, hgreedy⟩ := mergeHeap_spec root harity remaining _ _
      (toHeap ((max la lb + 1, m.nets.length) :: heap))
      (by rw [(toHeap_perm _).length_eq]; simpa using hlen) (h.mkCell harity hna hnb) hnew
      (pairwise_toHeap _)
    refine ⟨m', tree', a, b, ?_, hmerging, ha, hb, greedy_pair hentered hsorted ?_⟩
    · rw [mergeHeap, if_neg (succ_ne_zero _)]
      exact hrun
    · refine hgreedy.of_perm (List.Perm.trans (List.Perm.of_eq ?_) ((toHeap_perm _).map _).symm)
      rw [map_cons, update_self, map_congr_left hold]

end Merging

/-- What balancing leaves of a root: a narrow tree stays, a wide one gives way to
a tree over the same leaves that arrives no later than any other. -/
def Balanced (m m' : GateModule) (level : NetId → ℕ) (i : ℕ) (c : Cell) : Prop :=
  ∃ before : MergeTree NetId,
    m.Spells (fun j => j = i ∨ (computeFanout m).isInteriorNode m j = true) c.kind before c.output ∧
    (∀ a ∈ before.leaves, (computeFanout m).producerDissolvable m a c.kind = false) ∧
    before.level level = level c.output ∧
    if before.leaves.length < minChainLeaves then m'.cells[i]? = some c
    else ∃ after : MergeTree NetId,
      m'.Spells (fun j => j = i ∨ m.cells.length ≤ j) c.kind after c.output ∧
      after.leaves.Perm before.leaves ∧
      ∀ t : MergeTree NetId, t.leaves.Perm before.leaves → after.level level ≤ t.level level

/-- The module after some roots, with a level for every net. -/
structure Balancing (m : GateModule) (level : NetId → ℕ) (m' : GateModule) (done : List ℕ)
    (w : NetId → ℕ) : Prop where
  touched : Touched m m' done
  old : ∀ n : ℕ, n < m.nets.length → w n = level n
  bounds : ∀ c ∈ m'.cells, arrival c w ≤ w c.output
  gates : ∀ c ∈ m'.cells, c ∈ m.cells ∨ c.kind ≠ .buf
  trees : ∀ i ∈ done, ∀ c : Cell, m.cells[i]? = some c → Balanced m m' level i c

/-- The tree of a root and what is collected from it. -/
structure Chain (m : GateModule) (level : NetId → ℕ) (i : ℕ) (c : Cell) (turns : ℕ)
    (l r : MergeTree NetId) : Prop where
  inputs : ∃ x y, c = ⟨c.kind, [x, y], c.output⟩ ∧
    m.Spells (fun j => (computeFanout m).isInteriorNode m j = true) c.kind l x ∧
    m.Spells (fun j => (computeFanout m).isInteriorNode m j = true) c.kind r y
  leaf : ∀ a ∈ (MergeTree.node l r).leaves, (computeFanout m).producerDissolvable m a c.kind = false
  lt : ∀ a : ℕ, a ∈ (MergeTree.node l r).leaves → a < m.nets.length
  level_eq : (MergeTree.node l r).level level = level c.output
  runs : ∀ m' done, Touched m m' done →
    (∀ j ∈ done, (computeFanout m).isInteriorNode m j = false) → ∀ more,
      (computeFanout m).collectLeaves m' c.kind (turns + more) c.inputs.reverse [] =
        some (MergeTree.node l r).leaves.reverse

section Chain

variable {m m' : GateModule} {level w : NetId → ℕ} {rank : NetId → ℕ} {i : ℕ} {c : Cell}
    {done : List ℕ}

theorem chain_of_root (hm : m.WellFormed) (hclosed : m.Closed) (hr : m.Ranks rank)
    (hlevel : m.Levels level) (hc : m.cells[i]? = some c) (hassoc : isAssoc c.kind = true) :
    ∃ turns l r, Chain m level i c turns l r := by
  have hmem := mem_of_getElem? hc
  obtain ⟨x, y, hxy⟩ := inputs_pair hm hassoc hmem rfl
  have hinputs : c.inputs = [x, y] := by rw [hxy]
  obtain ⟨tx, l, hl⟩ := collects hm hclosed hr hassoc _ x (lt_succ_self _)
    ⟨i, c, hc, rfl, by simp [hinputs]⟩
  obtain ⟨ty, r, hs⟩ := collects hm hclosed hr hassoc _ y (lt_succ_self _)
    ⟨i, c, hc, rfl, by simp [hinputs]⟩
  have hkind : c.kind ≠ .buf := fun heq => by
    rw [heq] at hassoc
    cases hassoc
  have hlt : ∀ (i : ℕ) (c : Cell) (n : NetId), m.driverCell n = some (i, c) →
      n < m.nets.length := fun i c n hdriver => by
    obtain ⟨hc, rfl⟩ := driverCell_eq hm hdriver
    exact output_lt hm (mem_of_getElem? hc)
  refine ⟨ty + tx, l, r, ⟨x, y, hxy, hl.spells, hs.spells⟩,
    fun a ha => (mem_append.1 ha).elim (hl.leaf a) (hs.leaf a),
    fun a ha => (mem_append.1 ha).elim (hl.lt a) (hs.lt a), ?_,
    fun m' done htouched hdone more => ?_⟩
  · have hout := hlevel c.output (output_lt hm hmem)
    rw [driverCell_of hm hc] at hout
    rw [hout, MergeTree.level, ← Spells.level hlevel hkind hlt hl.spells,
      ← Spells.level hlevel hkind hlt hs.spells]
    exact (arrival_pair hinputs hkind).symm
  · rw [hinputs, Nat.add_assoc]
    show (computeFanout m).collectLeaves m' c.kind (ty + (tx + more)) [y, x] [] = _
    rw [hs.runs m' done htouched hdone, hl.runs m' done htouched hdone, nil_append,
      MergeTree.leaves, reverse_append]
    cases more <;> rfl

theorem Chain.spells (h : Chain m level i c turns l r)
    (hm : m.WellFormed) (hc : m.cells[i]? = some c) :
    m.Spells (fun j => j = i ∨ (computeFanout m).isInteriorNode m j = true) c.kind (.node l r)
      c.output := by
  obtain ⟨x, y, hxy, hl, hr⟩ := h.inputs
  exact ⟨i, x, y, .inl rfl, (driverCell_of hm hc).trans (by rw [← hxy]),
    Spells.mono hm hm (fun _ _ hj hd => ⟨.inr hj, hd⟩) hl,
    Spells.mono hm hm (fun _ _ hj hd => ⟨.inr hj, hd⟩) hr⟩

theorem Balanced.mono (h : Balanced m m' level i c) {m'' : GateModule} (hm' : m'.WellFormed)
    (hm'' : m''.WellFormed) (hkept : ∀ (j : ℕ) (d : Cell), j = i ∨ m.cells.length ≤ j →
      m'.cells[j]? = some d → m''.cells[j]? = some d) : Balanced m m'' level i c := by
  obtain ⟨before, hspells, hleaf, hlevel, hafter⟩ := h
  refine ⟨before, hspells, hleaf, hlevel, ?_⟩
  split
  · rename_i hnarrow
    rw [if_pos hnarrow] at hafter
    exact hkept i c (.inl rfl) hafter
  · rename_i hwide
    rw [if_neg hwide] at hafter
    obtain ⟨after, hspells', hperm, hbest⟩ := hafter
    exact ⟨after, Spells.mono hm' hm'' (fun j d hj hd => ⟨hj, hkept j d hj hd⟩) hspells', hperm,
      hbest⟩

/-- A module with the root rewritten over cells that were added for it. -/
structure Rerooted (m' : GateModule) (w : NetId → ℕ) (i : ℕ) (c : Cell) (before : MergeTree NetId)
    (m₁ : GateModule) (tree : NetId → MergeTree NetId) (a b : NetId) : Prop where
  merging : Merging m' c.kind m₁ tree
  left : (a : ℕ) < m₁.nets.length
  right : (b : ℕ) < m₁.nets.length
  leaves : (MergeTree.node (tree a) (tree b)).leaves.Perm before.leaves
  best : ∀ t : MergeTree NetId, t.leaves.Perm before.leaves →
    (MergeTree.node (tree a) (tree b)).level w ≤ t.level w

theorem rerooted (h : Balancing m level m' done w) (hassoc : isAssoc c.kind = true)
    (hlt : ∀ a : ℕ, a ∈ before.leaves → a < m.nets.length)
    (hwide : 2 ≤ before.leaves.length) :
    ∃ m₁ tree a b, mergeHeap c.kind i (before.leaves.reverse.length - 1) m'
        (toHeap (before.leaves.reverse.map fun n => (level n, n))) = m₁.setCell i c.kind [a, b] ∧
      Rerooted m' w i c before m₁ tree a b := by
  have hperm : (toHeap (before.leaves.reverse.map fun n => (level n, n))).Perm
      (before.leaves.map fun n => (level n, n)) :=
    (toHeap_perm _).trans ((reverse_perm _).map _)
  have hentered : Entered m' .leaf w (toHeap (before.leaves.reverse.map fun n => (level n, n))) := by
    intro e he
    obtain ⟨n, hn, rfl⟩ := List.mem_map.1 (hperm.mem_iff.1 he)
    exact ⟨Nat.lt_of_lt_of_le (hlt n hn) h.touched.rewrites.length_le, (h.old n (hlt n hn)).symm⟩
  obtain ⟨m₁, tree, a, b, hrun, hmerging, ha, hb, hgreedy⟩ := mergeHeap_spec i
    (arity_of_isAssoc hassoc) (before.leaves.length - 2) m' .leaf _
    (by rw [hperm.length_eq, length_map]; omega)
    (merging_refl h.touched.rewrites.wellFormed h.touched.rewrites.closed) hentered
    (pairwise_toHeap _)
  have hgreedy' : MergeTree.Greedy w (before.leaves.map .leaf) (.node (tree a) (tree b)) := by
    refine hgreedy.of_perm (List.Perm.trans (List.Perm.of_eq ?_) (hperm.map _).symm)
    rw [List.map_map]
    rfl
  refine ⟨m₁, tree, a, b, ?_, hmerging, ha, hb, ?_, fun t ht => hgreedy'.optimal ht⟩
  · rw [length_reverse, show before.leaves.length - 1 = before.leaves.length - 2 + 1 by omega]
    exact hrun
  · refine hgreedy'.leaves_perm.trans (List.Perm.of_eq ?_)
    rw [flatMap_map]
    exact flatMap_singleton' _

variable {m₁ : GateModule} {tree : NetId → MergeTree NetId} {a b : NetId}

theorem Rerooted.cell_kept (h : Rerooted m' w i c before m₁ tree a b)
    (hc : m'.cells[i]? = some c) {j : ℕ} {d : Cell} (hd : m'.cells[j]? = some d) (hj : j ≠ i) :
    (m₁.setCell i c.kind [a, b]).cells[j]? = some d := by
  obtain ⟨added, hadded⟩ := h.merging.cells
  have hold : ∀ (k : ℕ) (e : Cell), m'.cells[k]? = some e → m₁.cells[k]? = some e := fun k e he => by
    rw [hadded, getElem?_append_left (List.getElem?_eq_some_iff.1 he).1, he]
  rw [getElem?_setCell_ne (hold i c hc) hj]
  exact hold j d hd

theorem Rerooted.root (h : Rerooted m' w i c before m₁ tree a b)
    (hc : m'.cells[i]? = some c) : m₁.cells[i]? = some c := by
  obtain ⟨added, hadded⟩ := h.merging.cells
  rw [hadded, getElem?_append_left (List.getElem?_eq_some_iff.1 hc).1, hc]

section Rerooted

variable (h : Rerooted m' w i c (.node l r) m₁ tree a b) (hchain : Chain m level i c turns l r)
  (hm : m.WellFormed) (htouched : Touched m m' done) (hassoc : isAssoc c.kind = true)
  (hc : m'.cells[i]? = some c)
  (hdone : ∀ j ∈ i :: done, (computeFanout m).isInteriorNode m j = false)

include h hchain hm htouched hassoc hc hdone

/-- The new root has the value of the old one. -/
theorem Rerooted.rewrites :
    Rewrites m₁ (m₁.setCell i c.kind [a, b]) ∧
      ∀ n : ℕ, n < m₁.nets.length → (m₁.setCell i c.kind [a, b]).Spells (m'.cells.length ≤ ·) c.kind
        (tree n) n := by
  have hm₁ := h.merging.rewrites.wellFormed
  have hroot := h.root hc
  have harity : [a, b].length = c.kind.arity := (arity_of_isAssoc hassoc).symm
  have hm₂ : (m₁.setCell i c.kind [a, b]).WellFormed := by
    rw [setCell_eq hroot]
    exact hm₁.set hroot rfl harity
  have hnew : ∀ n : ℕ, n < m₁.nets.length →
      (m₁.setCell i c.kind [a, b]).Spells (m'.cells.length ≤ ·) c.kind (tree n) n := fun n hn => by
    refine Spells.mono hm₁ hm₂ (fun j d hj hd => ⟨hj, ?_⟩) (h.merging.spells n hn)
    have hi := (List.getElem?_eq_some_iff.1 hc).1
    exact (getElem?_setCell_ne hroot (by omega)).trans hd
  refine ⟨rewrites_setCell hm₁ h.merging.rewrites.closed hroot harity ?_ fun ρ hρ => ?_, hnew⟩
  · rintro n (_ | ⟨_, _ | ⟨_, ⟨⟩⟩⟩)
    · exact h.left
    · exact h.right
  -- both trees are spelled in the rewritten module
  · obtain ⟨x, y, hxy, hl, hr⟩ := hchain.inputs
    have hold : ∀ {t : MergeTree NetId} {n : NetId},
        m.Spells (fun j => (computeFanout m).isInteriorNode m j = true) c.kind t n →
          (m₁.setCell i c.kind [a, b]).Spells (fun _ => True) c.kind t n := by
      refine Spells.mono hm hm₂ fun j d hj hd => ⟨trivial, ?_⟩
      have hnot : j ∉ i :: done := fun hmem => by
        rw [hdone j hmem] at hj
        cases hj
      have hj' := not_or.1 (mt mem_cons.2 hnot)
      exact h.cell_kept hc (htouched.same j d hd hj'.2) hj'.1
    have hcell := hρ.cell_eq ⟨c.kind, [a, b], c.output⟩
      (mem_of_getElem? (getElem?_setCell_self hroot))
    calc ρ c.output = combineBits c.kind (ρ a) (ρ b) := hcell
      _ = (MergeTree.node (tree a) (tree b)).fold (combineBits c.kind) ρ := by
          rw [MergeTree.fold, ← Spells.value hm₂ hρ (hnew a h.left),
            ← Spells.value hm₂ hρ (hnew b h.right)]
      _ = (MergeTree.node l r).fold (combineBits c.kind) ρ := fold_combineBits hassoc ρ h.leaves
      _ = combineBits c.kind (ρ x) (ρ y) := by
          rw [MergeTree.fold, ← Spells.value hm₂ hρ (hold hl), ← Spells.value hm₂ hρ (hold hr)]
      _ = c.kind.eval (c.inputs.map ρ) := by
          have hinputs : c.inputs = [x, y] := by rw [hxy]
          rw [hinputs]
          rfl

theorem Rerooted.touched :
    Touched m (m₁.setCell i c.kind [a, b]) (i :: done) := by
  obtain ⟨hset, -⟩ := h.rewrites hchain hm htouched hassoc hc hdone
  refine ⟨htouched.rewrites.trans (h.merging.rewrites.trans hset), fun j d hd hj => ?_,
    fun j d hd => ?_⟩
  · obtain ⟨hji, hj'⟩ := not_or.1 (mt mem_cons.2 hj)
    exact h.cell_kept hc (htouched.same j d hd hj') hji
  · obtain ⟨d', hd', hkind, hout⟩ := htouched.kind j d hd
    by_cases hji : j = i
    · subst hji
      obtain rfl := some.inj (hc.symm.trans hd')
      exact ⟨_, getElem?_setCell_self (h.root hc), hkind, hout⟩
    · exact ⟨d', h.cell_kept hc hd' hji, hkind, hout⟩

end Rerooted

theorem Balancing.wide (h : Balancing m level m' done w)
    (hm : m.WellFormed) (hc : m.cells[i]? = some c) (hassoc : isAssoc c.kind = true)
    (hnot : i ∉ done) (hdone : ∀ j ∈ i :: done, (computeFanout m).isInteriorNode m j = false)
    (hchain : Chain m level i c turns l r)
    (hwide : minChainLeaves ≤ (MergeTree.node l r).leaves.length)
    (hre : Rerooted m' w i c (.node l r) m₁ tree a b) :
    Balancing m level (m₁.setCell i c.kind [a, b]) (i :: done) fun n => (tree n).level w := by
  have hc' := h.touched.same i c hc hnot
  have htouched := hre.touched hchain hm h.touched hassoc hc' hdone
  obtain ⟨-, hspells⟩ := hre.rewrites hchain hm h.touched hassoc hc' hdone
  have hm' := h.touched.rewrites.wellFormed
  have hgrow := h.touched.rewrites.length_le
  have hroot := hre.root hc'
  have hkind : c.kind ≠ .buf := fun heq => by
    rw [heq] at hassoc
    cases hassoc
  have hold : ∀ n : ℕ, n < m'.nets.length → (tree n).level w = w n := fun n hn => by
    rw [hre.merging.leaf n hn]
    rfl
  have hlevel : ∀ t : MergeTree NetId, t.leaves.Perm (MergeTree.node l r).leaves →
      t.level w = t.level level := fun t ht =>
    MergeTree.level_congr fun n hn => h.old n (hchain.lt n (ht.mem_iff.1 hn))
  have hbest : ∀ t : MergeTree NetId, t.leaves.Perm (MergeTree.node l r).leaves →
      (MergeTree.node (tree a) (tree b)).level level ≤ t.level level := fun t ht => by
    rw [← hlevel _ hre.leaves, ← hlevel t ht]
    exact hre.best t ht
  have hout : (tree c.output).level w = level c.output := by
    rw [hold _ (Nat.lt_of_lt_of_le (output_lt hm (mem_of_getElem? hc)) hgrow)]
    exact h.old _ (output_lt hm (mem_of_getElem? hc))
  refine ⟨htouched, fun n hn => ?_, fun d hd => ?_, fun d hd => ?_, fun j hj d hd => ?_⟩
  · exact (hold n (by omega)).trans (h.old n hn)
  · rw [setCell_eq hroot] at hd
    rcases mem_set_cases hroot hd with rfl | hd
    · calc arrival ⟨c.kind, [a, b], c.output⟩ (fun n => (tree n).level w)
          = (MergeTree.node (tree a) (tree b)).level w := arrival_pair rfl hkind
        _ = (MergeTree.node (tree a) (tree b)).level level := hlevel _ hre.leaves
        _ ≤ (MergeTree.node l r).level level := hbest _ (.refl _)
        _ = (tree c.output).level w := hchain.level_eq.trans hout.symm
    · rcases hre.merging.node d hd with hd | ⟨hdkind, x, y, hxy, htree⟩
      · rw [hold _ (output_lt hm' hd), arrival_congr fun n hn =>
          hold n (input_lt h.touched.rewrites.closed hd hn)]
        exact h.bounds d hd
      · rw [arrival_pair hxy (hdkind ▸ hkind), htree]
        exact Nat.le_refl _
  · rw [setCell_eq hroot] at hd
    rcases mem_set_cases hroot hd with rfl | hd
    · exact .inr hkind
    · rcases hre.merging.node d hd with hd | ⟨hdkind, -⟩
      · exact h.gates d hd
      · exact .inr (hdkind ▸ hkind)
  · have hlength : m.cells.length ≤ m'.cells.length := by
      by_contra hlt
      obtain ⟨d', hd', -⟩ := h.touched.kind m'.cells.length _
        (getElem?_eq_getElem (Nat.lt_of_not_le hlt))
      rw [getElem?_eq_none (Nat.le_refl _)] at hd'
      cases hd'
    rcases mem_cons.1 hj with rfl | hj
    · obtain rfl := some.inj (hc.symm.trans hd)
      refine ⟨.node l r, hchain.spells hm hc, hchain.leaf, hchain.level_eq, ?_⟩
      rw [if_neg (Nat.not_lt.2 hwide)]
      have hm₂ := htouched.rewrites.wellFormed
      have hpart : ∀ n : ℕ, n < m₁.nets.length → (m₁.setCell j c.kind [a, b]).Spells
          (fun k => k = j ∨ m.cells.length ≤ k) c.kind (tree n) n := fun n hn =>
        Spells.mono hm₂ hm₂ (fun _ _ hk hd => ⟨.inr (Nat.le_trans hlength hk), hd⟩) (hspells n hn)
      exact ⟨.node (tree a) (tree b), ⟨j, a, b, .inl rfl,
        driverCell_of hm₂ (getElem?_setCell_self hroot), hpart a hre.left, hpart b hre.right⟩,
        hre.leaves, hbest⟩
    · have hi := (List.getElem?_eq_some_iff.1 hc).1
      refine (h.trees j hj d hd).mono hm' htouched.rewrites.wellFormed fun k e hk he => ?_
      refine hre.cell_kept hc' he fun hki => ?_
      rcases hk with rfl | hk
      · exact hnot (hki ▸ hj)
      · omega

theorem Balancing.root (h : Balancing m level m' done w) (hm : m.WellFormed) (hclosed : m.Closed)
    (hr : m.Ranks rank) (hlevel : m.Levels level) (hc : m.cells[i]? = some c)
    (hassoc : isAssoc c.kind = true) (hnot : i ∉ done)
    (hdone : ∀ j ∈ i :: done, (computeFanout m).isInteriorNode m j = false) :
    ∃ turns out w', Balancing m level out.1 (i :: done) w' ∧
      ∀ more, rebalanceChain (turns + more) (computeFanout m) level m' i = some out := by
  obtain ⟨turns, l, r, hchain⟩ := chain_of_root hm hclosed hr hlevel hc hassoc
  have hc' := h.touched.same i c hc hnot
  have hruns := hchain.runs m' done h.touched fun j hj => hdone j (mem_cons_of_mem _ hj)
  have hrun : ∀ more, rebalanceChain (turns + more) (computeFanout m) level m' i =
      if (MergeTree.node l r).leaves.length < minChainLeaves then some (m', false)
      else some (mergeHeap c.kind i ((MergeTree.node l r).leaves.reverse.length - 1) m'
        (toHeap ((MergeTree.node l r).leaves.reverse.map fun n => (level n, n))), true) :=
    fun more => by
      rw [rebalanceChain, hc']
      dsimp only
      rw [hruns more, map_some, length_reverse]
      split <;> rfl
  rcases Nat.lt_or_ge (MergeTree.node l r).leaves.length minChainLeaves with hnarrow | hwide
  · refine ⟨turns, (m', false), w, ⟨⟨h.touched.rewrites, fun j d hd hj => ?_, h.touched.kind⟩, h.old,
      h.bounds, h.gates, fun j hj d hd => ?_⟩, fun more => by rw [hrun more, if_pos hnarrow]⟩
    · exact h.touched.same j d hd fun hmem => hj (mem_cons_of_mem _ hmem)
    · rcases mem_cons.1 hj with rfl | hj
      · obtain rfl := some.inj (hc.symm.trans hd)
        refine ⟨.node l r, hchain.spells hm hc, hchain.leaf, hchain.level_eq, ?_⟩
        rw [if_pos hnarrow]
        exact hc'
      · exact h.trees j hj d hd
  · obtain ⟨m₁, tree, a, b, hmerge, hre⟩ := rerooted h hassoc hchain.lt
      (Nat.le_trans (by decide) hwide)
    refine ⟨turns, (m₁.setCell i c.kind [a, b], true), _,
      h.wide hm hc hassoc hnot hdone hchain hwide hre, fun more => ?_⟩
    rw [hrun more, if_neg (Nat.not_lt.2 hwide), hmerge]

end Chain

section Roots

variable {m m' : GateModule} {level w : NetId → ℕ} {rank : NetId → ℕ} {done : List ℕ}

theorem isChainRoot_cell {i : ℕ} (h : isChainRoot m i = true) : ∃ c : Cell, m.cells[i]? = some c ∧
    isAssoc c.kind = true ∧ (computeFanout m).isInteriorNode m i = false := by
  unfold isChainRoot at h
  split at h
  · rename_i c hc
    rw [Bool.and_eq_true, Bool.not_eq_true'] at h
    exact ⟨c, hc, h.1, h.2⟩
  · cases h

theorem balancing_start (hm : m.WellFormed) (hclosed : m.Closed) (hlevel : m.Levels level) :
    Balancing m level m [] level := by
  refine ⟨⟨Rewrites.refl hm hclosed, fun _ _ hd _ => hd, fun _ d hd => ⟨d, hd, rfl, rfl⟩⟩,
    fun _ _ => rfl, fun c hc => ?_, fun _ hc => .inl hc, nofun⟩
  obtain ⟨i, hi⟩ := mem_iff_getElem?.1 hc
  have hout := hlevel c.output (output_lt hm hc)
  rw [driverCell_of hm hi] at hout
  exact Nat.le_of_eq hout.symm

theorem balancing_roots (hm : m.WellFormed) (hclosed : m.Closed) (hr : m.Ranks rank)
    (hlevel : m.Levels level) : ∀ (roots done : List ℕ) (st : GateModule × Bool) (w : NetId → ℕ),
      Balancing m level st.1 done w → (∀ i ∈ roots, isChainRoot m i = true) → roots.Nodup →
      (∀ i ∈ roots, i ∉ done) → (∀ j ∈ done, (computeFanout m).isInteriorNode m j = false) →
      ∃ turns out w' done', Balancing m level out.1 done' w' ∧
        (∀ i, i ∈ done' ↔ i ∈ roots ∨ i ∈ done) ∧
        ∀ more, roots.foldlM (rebalanceVisit (turns + more) (computeFanout m) level) st = some out
  | [], done, st, w, h, _, _, _, _ => ⟨0, st, w, done, h, fun i => by simp, fun _ => rfl⟩
  | i :: roots, done, st, w, h, hroots, hnodup, hfresh, hdone => by
    obtain ⟨c, hc, hassoc, hinterior⟩ := isChainRoot_cell (hroots i (mem_cons_self ..))
    have hdone' : ∀ j ∈ i :: done, (computeFanout m).isInteriorNode m j = false := fun j hj => by
      rcases mem_cons.1 hj with rfl | hj
      · exact hinterior
      · exact hdone j hj
    obtain ⟨turns, mid, w', hmid, hrun⟩ := h.root hm hclosed hr hlevel hc hassoc
      (hfresh i (mem_cons_self ..)) hdone'
    obtain ⟨hi, hnodup'⟩ := nodup_cons.1 hnodup
    obtain ⟨turns', out, w'', done'', hout, hmem, hrest⟩ := balancing_roots hm hclosed hr hlevel
      roots (i :: done) (mid.1, st.2 || mid.2) w' hmid
      (fun j hj => hroots j (mem_cons_of_mem _ hj)) hnodup' (fun j hj hin => by
        rcases mem_cons.1 hin with rfl | hin
        · exact hi hj
        · exact hfresh j (mem_cons_of_mem _ hj) hin) hdone'
    refine ⟨turns + turns', out, w'', done'', hout, fun j => ?_, fun more => ?_⟩
    · rw [hmem j, mem_cons, mem_cons]
      tauto
    · have hfirst := hrun (turns' + more)
      have hlast := hrest (turns + more)
      rw [← Nat.add_assoc] at hfirst
      rw [← Nat.add_assoc, Nat.add_comm turns' turns] at hlast
      rw [foldlM_cons, rebalanceVisit, hfirst]
      exact hlast

theorem collectLeaves_mono {kind : CellKind} {out : List NetId} (fanout : Fanout) (more : ℕ) :
    ∀ (turns : ℕ) (stack leaves : List NetId),
      fanout.collectLeaves m kind turns stack leaves = some out →
        fanout.collectLeaves m kind (turns + more) stack leaves = some out
  | turns, [], leaves, h => by
    cases turns <;> cases more <;> exact h
  | turns + 1, n :: stack, leaves, h => by
    rw [Nat.add_right_comm, Fanout.collectLeaves]
    rw [Fanout.collectLeaves] at h
    split
    · rename_i i d hdiss hdriver
      rw [hdiss, hdriver] at h
      exact collectLeaves_mono fanout more turns _ _ h
    · rename_i hnot
      split at h
      · rename_i i d hdiss hdriver
        exact absurd hdriver (hnot i d hdiss)
      · exact collectLeaves_mono fanout more turns _ _ h

theorem rebalanceVisit_mono {fanout : Fanout} (more : ℕ) (st : GateModule × Bool)
    (i : ℕ) (out : GateModule × Bool) (h : rebalanceVisit turns fanout level st i = some out) :
    rebalanceVisit (turns + more) fanout level st i = some out := by
  obtain ⟨mid, hmid, rfl⟩ := map_eq_some_iff.1 h
  refine map_eq_some_iff.2 ⟨mid, ?_, rfl⟩
  unfold rebalanceChain at hmid ⊢
  split
  · rename_i c hc
    rw [hc] at hmid
    obtain ⟨leaves, hleaves, rfl⟩ := map_eq_some_iff.1 hmid
    exact map_eq_some_iff.2 ⟨leaves, collectLeaves_mono _ more turns _ _ hleaves, rfl⟩
  · rename_i hc
    rwa [hc] at hmid

theorem Balancing.acyclic (h : Balancing m level m' done w) (hm : m.WellFormed)
    (hclosed : m.Closed) (hr : m.Ranks rank) : m'.Acyclic := by
  obtain ⟨b, hb⟩ : ∃ b, ∀ n : ℕ, n < m.nets.length → rank n < b :=
    ⟨((List.range m.nets.length).map rank).foldr max 0 + 1, fun n hn => lt_succ_of_le
      (le_max_of_le' 0 (List.mem_map_of_mem (mem_range.2 hn)) (Nat.le_refl _))⟩
  have hle : ∀ c ∈ m'.cells, ∀ n ∈ c.inputs, w n + (if c.kind = .buf then 0 else 1) ≤ w c.output :=
    fun c hc n hn => Nat.le_trans (le_arrival hn) (h.bounds c hc)
  refine ⟨fun n => w n * b + if n < m.nets.length then rank n else 0, fun c hc n hn => ?_⟩
  have hstep := hle c hc n hn
  show w n * b + (if n < m.nets.length then rank n else 0) <
    w c.output * b + if c.output < m.nets.length then rank c.output else 0
  rcases h.gates c hc with hold | hgate
  · have hlt := hr c hold n hn
    rw [if_pos (input_lt hclosed hold hn), if_pos (output_lt hm hold)]
    exact Nat.add_lt_add_of_le_of_lt (Nat.mul_le_mul_right b (le_of_add_right_le hstep)) hlt
  · rw [if_neg hgate] at hstep
    have hpos : 0 < b := Nat.lt_of_le_of_lt (Nat.zero_le _) (hb netConst0 (lt_of_constOf hm.gnd))
    have hbelow : (if n < m.nets.length then rank n else 0) < b := by
      split
      · rename_i hlt
        exact hb n hlt
      · exact hpos
    have hmul := Nat.mul_le_mul_right b hstep
    rw [Nat.add_mul, Nat.one_mul] at hmul
    omega

theorem Balancing.levels_le (h : Balancing m level m' done w) {rank' level' : NetId → ℕ}
    (hr : m'.Ranks rank') (hlevel : m'.Levels level') :
    ∀ (k : ℕ) (n : ℕ), rank' n < k → n < m'.nets.length → level' n ≤ w n
  | k + 1, n, hk, hn => by
    have hm' := h.touched.rewrites.wellFormed
    have hat := hlevel n hn
    split at hat
    · rename_i i c hdriver
      obtain ⟨hc, hout⟩ := driverCell_eq hm' hdriver
      have hmem := mem_of_getElem? hc
      have hinputs : ∀ x ∈ c.inputs, level' x ≤ w x := fun x hx => by
        have hlt := hr c hmem x hx
        rw [hout] at hlt
        exact h.levels_le hr hlevel k x (by omega) (input_lt h.touched.rewrites.closed hmem hx)
      rw [hat]
      exact Nat.le_trans (arrival_mono hinputs) (hout ▸ h.bounds c hmem)
    · rw [hat]
      exact Nat.zero_le _

end Roots

/-- Balancing ends, keeps the value of every net and lets none arrive later; the
tree of every wide chain arrives first among all trees over its leaves. -/
theorem balanceAssocChains_exact (m : GateModule) (hm : m.WellFormed) (hclosed : m.Closed)
    (hacyclic : m.Acyclic) :
    (∃ turns out, balanceAssocChains turns m = some out) ∧
      ∀ turns out, balanceAssocChains turns m = some out → Preserves m out.1 ∧
        ∃ level, computeLevels turns m = some level ∧ m.Levels level ∧
          (∃ turns' level', computeLevels turns' out.1 = some level' ∧ out.1.Levels level' ∧
            ∀ n : ℕ, n < m.nets.length → level' n ≤ level n) ∧
          ∀ (i : ℕ) (c : Cell), m.cells[i]? = some c →
            if isChainRoot m i then Balanced m out.1 level i c else out.1.cells[i]? = some c := by
  obtain ⟨rank, hr⟩ := id hacyclic
  obtain ⟨turns₁, level, hlevel, hrun₁⟩ := computeLevels_ends hm hr
  have hroots : ∀ i ∈ chainRoots m, isChainRoot m i = true := fun i hi => (mem_filter.1 hi).2
  obtain ⟨turns₂, out, w, done, hout, hmem, hrun₂⟩ := balancing_roots hm hclosed hr hlevel
    (chainRoots m) [] (m, false) level (balancing_start hm hclosed hlevel) hroots
    (nodup_range.filter _) nofun nofun
  have hrun : ∀ more, balanceAssocChains (turns₁ + turns₂ + more) m = some out := fun more => by
    have hsecond := hrun₂ (turns₁ + more)
    rw [← Nat.add_assoc, Nat.add_comm turns₂ turns₁] at hsecond
    rw [balanceAssocChains, Nat.add_assoc turns₁, hrun₁, bind_some, ← Nat.add_assoc]
    exact hsecond
  refine ⟨⟨_, out, hrun 0⟩, fun turns out' hout' => ?_⟩
  obtain ⟨level', hlevel', hfold⟩ := bind_eq_some_iff.1 hout'
  -- any number of turns that is enough gives the same result
  obtain rfl : level' = level := some.inj
    ((computeLevels_mono turns₁ hlevel').symm.trans (Nat.add_comm turns turns₁ ▸ hrun₁ turns))
  obtain rfl : out' = out := by
    have hmore := foldlM_mono (rebalanceVisit_mono turns₂) _ _ _ hfold
    rw [Nat.add_comm] at hmore
    exact some.inj (hmore.symm.trans (hrun₂ turns))
  have hacyclic' := hout.acyclic hm hclosed hr
  refine ⟨hout.touched.rewrites.preserves hm hclosed hacyclic hacyclic', level', hlevel', hlevel, ?_,
    fun i c hc => ?_⟩
  · obtain ⟨rank', hr'⟩ := hacyclic'
    obtain ⟨turns', after, hafter, hends⟩ := computeLevels_ends hout.touched.rewrites.wellFormed hr'
    refine ⟨_, after, hends 0, hafter, fun n hn => ?_⟩
    rw [← hout.old n hn]
    exact hout.levels_le hr' hafter _ n (lt_succ_self _)
      (Nat.lt_of_lt_of_le hn hout.touched.rewrites.length_le)
  · have hdone : i ∈ done ↔ isChainRoot m i = true := by
      rw [hmem i, chainRoots, mem_filter, mem_range]
      have hi := (List.getElem?_eq_some_iff.1 hc).1
      simp [hi]
    split
    · rename_i hroot
      exact hout.trees i (hdone.2 hroot) c hc
    · rename_i hroot
      exact hout.touched.same i c hc fun hin => hroot (hdone.1 hin)

/-- An OR of nine inputs, written as a running OR. -/
def GateModule.orRipple : GateModule :=
  { GateModule.orScan with ports := [(List.range 9).map (· + 2), [18]] }

theorem GateModule.closed_orRipple : orRipple.Closed := by
  have hports : ∀ port ∈ orRipple.ports, ∀ n ∈ port, n < 19 := by decide
  rintro n (hcell | ⟨port, hport, hn⟩ | ⟨ff, hff, -⟩ | hn)
  · exact closed_orScan n (.inl hcell)
  · exact hports port hport n hn
  · exact absurd hff not_mem_nil
  · exact absurd hn not_mem_nil

/-- The OR is rebuilt. -/
theorem balanceAssocChains_orRipple : (∃ turns out, balanceAssocChains turns .orRipple = some out) ∧
    ∀ turns out, balanceAssocChains turns .orRipple = some out → Preserves .orRipple out.1 := by
  obtain ⟨hends, hspec⟩ := balanceAssocChains_exact .orRipple GateModule.wellFormed_orScan
    GateModule.closed_orRipple GateModule.acyclic_orScan
  exact ⟨hends, fun turns out h => (hspec turns out h).1⟩

end Veryl.Synthesizer
