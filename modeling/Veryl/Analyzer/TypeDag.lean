import Veryl.Library.Greedy

/-!
The order of the files: dependencies first, and files without a symbol of their own last where
the graph allows a choice.
-/

namespace Veryl.Analyzer

open Veryl.Library List Function

variable {i : ℕ} {e : ℕ × ℕ}

namespace TypeDag

abbrev PathId := ℕ

inductive SymbolKind where
  | module | interface | package | other
  deriving DecidableEq

def Acyclic (edges : List (ℕ × ℕ)) : Prop :=
  ∀ i, ¬ Relation.TransGen (fun a b => (a, b) ∈ edges) i i

/-- The graph of the files; a graph with a cycle cannot be built. -/
structure FileDag where
  /-- The files of the nodes, in the order of their numbers. -/
  fileNodes : List PathId
  edges : List (ℕ × ℕ)
  nodup : fileNodes.Nodup
  inRange : ∀ e ∈ edges, e.1 < fileNodes.length ∧ e.2 < fileNodes.length
  single : edges.Nodup
  acyclic : Acyclic edges

/-- Whether a path of the graph leads from `a` to `b`: without its last edge, or over it. -/
def reaches : List (ℕ × ℕ) → ℕ → ℕ → Bool
  | [], a, b => a = b
  | e :: edges, a, b => reaches edges a b || reaches edges a e.1 && reaches edges e.2 b

theorem reaches_iff {edges : List (ℕ × ℕ)} {a b : ℕ} :
    reaches edges a b ↔ Relation.ReflTransGen (fun a b => (a, b) ∈ edges) a b := by
  induction edges generalizing a b with
  | nil =>
    simp only [reaches, decide_eq_true_eq]
    refine ⟨fun h => h ▸ .refl, fun h => ?_⟩
    cases h with
    | refl => rfl
    | tail _ hlast => cases hlast
  | cons e edges ih =>
    have hold {a b : ℕ} (h : reaches edges a b) :
        Relation.ReflTransGen (fun a b => (a, b) ∈ e :: edges) a b :=
      Relation.ReflTransGen.mono (fun _ _ => mem_cons_of_mem e) _ _ (ih.1 h)
    simp only [reaches, Bool.or_eq_true, Bool.and_eq_true]
    constructor
    · rintro (h | ⟨hfirst, hrest⟩)
      · exact hold h
      · exact ((hold hfirst).tail mem_cons_self).trans (hold hrest)
    · intro h
      induction h with
      | refl => exact .inl (ih.2 .refl)
      | @tail b c _ hbc hab =>
        rcases mem_cons.1 hbc with rfl | hbc
        · exact .inr ⟨hab.elim id And.left, ih.2 .refl⟩
        · exact hab.imp (fun h => ih.2 ((ih.1 h).tail hbc))
            (And.imp_right fun h => ih.2 ((ih.1 h).tail hbc))

theorem Acyclic.cons {edges : List (ℕ × ℕ)} {start stop : ℕ} (h : Acyclic edges)
    (hback : ¬ reaches edges stop start) : Acyclic ((start, stop) :: edges) := by
  intro i hcycle
  obtain ⟨j, hij, hji⟩ := Relation.TransGen.head'_iff.1 hcycle
  have hji := reaches_iff.2 hji
  simp only [reaches, Bool.or_eq_true, Bool.and_eq_true] at hji
  rcases mem_cons.1 hij with heq | hij
  · obtain ⟨rfl, rfl⟩ := Prod.mk.inj heq
    exact hback (hji.elim id And.left)
  · rcases hji with hji | ⟨hj, hi⟩
    · exact h i (.head' hij (reaches_iff.1 hji))
    · exact hback (reaches_iff.2 (((reaches_iff.1 hi).tail hij).trans (reaches_iff.1 hj)))

namespace FileDag

def empty : FileDag := ⟨[], [], nodup_nil, by simp, nodup_nil, fun i h => by
  obtain ⟨j, -, hj⟩ := Relation.TransGen.tail'_iff.1 h
  cases hj⟩

/-- A file has one node, made for its first symbol. -/
def insertFile (g : FileDag) (path : PathId) : FileDag :=
  if h : path ∈ g.fileNodes then g
  else { g with
    fileNodes := g.fileNodes ++ [path]
    nodup := concat_eq_append ▸ g.nodup.concat h
    inRange := fun e he => by
      have := g.inRange e he
      rw [length_append, length_singleton]
      omega }

/-- None where the edge would close a cycle; both files have their nodes before. -/
def insertFileEdge (g : FileDag) (startFile endFile : PathId) : Option FileDag :=
  if h : startFile ∈ g.fileNodes ∧ endFile ∈ g.fileNodes then
    let start := g.fileNodes.idxOf startFile
    let stop := g.fileNodes.idxOf endFile
    if start = stop then some g
    else if hnew : g.edges.contains (start, stop) then some g
    else if hback : reaches g.edges stop start then none
    else some { g with
      edges := (start, stop) :: g.edges
      inRange := forall_mem_cons.2 ⟨⟨idxOf_lt_length_iff.2 h.1, idxOf_lt_length_iff.2 h.2⟩, g.inRange⟩
      single := nodup_cons.2 ⟨fun h => hnew (contains_iff_mem.2 h), g.single⟩
      acyclic := g.acyclic.cons hback }
  else none

/-- What the symbols of the files bring into the graph, in any order. -/
inductive Insertion where
  | file (path : PathId)
  | edge (startFile endFile : PathId)

def insert (g : FileDag) : Insertion → Option FileDag
  | .file path => some (g.insertFile path)
  | .edge startFile endFile => g.insertFileEdge startFile endFile

def build (insertions : List Insertion) : Option FileDag := insertions.foldlM insert empty

/-- `b` depends on `a`. -/
def Depends (g : FileDag) (a b : PathId) : Prop :=
  ∃ e ∈ g.edges, g.fileNodes[e.1]? = some a ∧ g.fileNodes[e.2]? = some b

/-- What one insertion adds. -/
structure Inserted (g : FileDag) (i : Insertion) (g' : FileDag) : Prop where
  files : ∀ a, a ∈ g'.fileNodes ↔ a ∈ g.fileNodes ∨ i = .file a
  depends : ∀ a b, g'.Depends a b ↔ g.Depends a b ∨ a ≠ b ∧ i = .edge a b

theorem inserted_insertFile (g : FileDag) (path : PathId) :
    Inserted g (.file path) (g.insertFile path) := by
  unfold insertFile
  split
  · rename_i h
    refine ⟨fun a => ⟨.inl, fun ha => ha.elim id fun ha => ?_⟩, fun a b => by simp⟩
    cases ha
    exact h
  · refine ⟨fun a => by simp [eq_comm], fun a b => ?_⟩
    have hold : ∀ e ∈ g.edges, ∀ a b, ((g.fileNodes ++ [path])[e.1]? = some a ∧
        (g.fileNodes ++ [path])[e.2]? = some b) ↔
        g.fileNodes[e.1]? = some a ∧ g.fileNodes[e.2]? = some b := fun e he a b => by
      rw [getElem?_append_left (g.inRange e he).1, getElem?_append_left (g.inRange e he).2]
    simp only [reduceCtorEq, and_false, or_false]
    exact exists_congr fun e => and_congr_right fun he => hold e he a b

theorem getElem?_idxOf_eq {l : List PathId} {a b : PathId} (ha : a ∈ l) :
    l[l.idxOf a]? = some b ↔ a = b := by
  rw [getElem?_eq_getElem (idxOf_lt_length_iff.2 ha), getElem_idxOf, Option.some_inj]

theorem inserted_insertFileEdge {g g' : FileDag} {startFile endFile : PathId}
    (h : g.insertFileEdge startFile endFile = some g') :
    Inserted g (.edge startFile endFile) g' := by
  unfold insertFileEdge at h
  split at h
  · rename_i hfiles
    have hends : ∀ a b, (g.fileNodes[g.fileNodes.idxOf startFile]? = some a ∧
        g.fileNodes[g.fileNodes.idxOf endFile]? = some b) ↔ startFile = a ∧ endFile = b :=
      fun a b => and_congr (getElem?_idxOf_eq hfiles.1) (getElem?_idxOf_eq hfiles.2)
    have hkept : (∀ a b, a ≠ b ∧ startFile = a ∧ endFile = b → g.Depends a b) →
        Inserted g (.edge startFile endFile) g := fun hin => by
      refine ⟨fun a => by simp, fun a b => ⟨.inl, fun hab => hab.elim id fun hab => hin a b ?_⟩⟩
      simpa using hab
    dsimp only at h
    split at h
    · rename_i hsame
      obtain rfl := Option.some.inj h
      have := (idxOf_inj hfiles.1).1 hsame
      exact hkept fun a b hab => absurd (hab.2.1.symm.trans (this.trans hab.2.2)) hab.1
    · rename_i hdiff
      split at h
      · rename_i hnew
        obtain rfl := Option.some.inj h
        exact hkept fun a b hab => ⟨_, contains_iff_mem.1 hnew, (hends a b).2 hab.2⟩
      · split at h
        · cases h
        · obtain rfl := Option.some.inj h
          refine ⟨fun a => by simp, fun a b => ?_⟩
          simp only [Depends, mem_cons, exists_eq_or_imp, hends, Insertion.edge.injEq]
          rw [or_comm]
          refine or_congr_right (and_iff_right_of_imp fun hab => ?_).symm
          rintro rfl
          exact hdiff (by rw [hab.1, hab.2])
  · cases h

theorem inserted_insert {g g' : FileDag} {i : Insertion} (h : g.insert i = some g') :
    Inserted g i g' := by
  cases i with
  | file path =>
    obtain rfl := Option.some.inj h
    exact inserted_insertFile g path
  | edge startFile endFile => exact inserted_insertFileEdge h

theorem build_spec {insertions : List Insertion} {g : FileDag} (h : build insertions = some g) :
    (∀ a, a ∈ g.fileNodes ↔ .file a ∈ insertions) ∧
      ∀ a b, g.Depends a b ↔ a ≠ b ∧ .edge a b ∈ insertions := by
  have hrun : ∀ (l : List Insertion) (g₀ : FileDag), l.foldlM insert g₀ = some g →
      (∀ a, a ∈ g.fileNodes ↔ a ∈ g₀.fileNodes ∨ .file a ∈ l) ∧
        ∀ a b, g.Depends a b ↔ g₀.Depends a b ∨ a ≠ b ∧ .edge a b ∈ l := by
    intro l
    induction l with
    | nil =>
      rintro g₀ ⟨⟩
      simp
    | cons i l ih =>
      intro g₀ hfold
      obtain ⟨g₁, hi, hfold⟩ := Option.bind_eq_some_iff.1 hfold
      have hone := inserted_insert hi
      obtain ⟨hfiles, hdepends⟩ := ih g₁ hfold
      refine ⟨fun a => ?_, fun a b => ?_⟩
      · rw [hfiles, hone.files, mem_cons, or_assoc, eq_comm (a := i)]
      · rw [hdepends, hone.depends, mem_cons, or_assoc, ← and_or_left, eq_comm (a := i)]
  obtain ⟨hfiles, hdepends⟩ := hrun insertions empty h
  exact ⟨by simpa [empty] using hfiles, by simpa [empty, Depends] using hdepends⟩

end FileDag

end TypeDag

open TypeDag

structure TypeDag where
  fileDag : FileDag
  /-- The kinds of the symbols and the files that hold them. -/
  symbols : List (SymbolKind × Option PathId)

namespace TypeDag

structure TopoState where
  inDegree : ℕ → Option ℕ
  ready : List ℕ
  ret : List PathId

variable (name : PathId → String) (d : TypeDag)

def isOpaque (path : Option PathId) : Bool :=
  d.symbols.all fun s => ¬ (s.1 ∈ [.module, .interface, .package] ∧ s.2 = path)

def pathOf (node : ℕ) : Option PathId := d.fileDag.fileNodes[node]?

def sortKey (node : ℕ) : ℕ ×ₗ String :=
  toLex ((d.isOpaque (d.pathOf node)).toNat, ((d.pathOf node).map name).getD "")

def release (st : TopoState) (child : ℕ) : TopoState :=
  match st.inDegree child with
  | some degree =>
    if degree - 1 = 0 then
      { st with inDegree := update st.inDegree child none, ready := child :: st.ready }
    else { st with inDegree := update st.inDegree child (some (degree - 1)) }
  | none => st

def children (node : ℕ) : List ℕ := (d.fileDag.edges.filter (·.1 = node)).map (·.2)

def topoStep (st : TopoState) : Option TopoState := do
  let node ← st.ready.argmin fun node => toLex (d.sortKey name node, node)
  let st := { st with ready := st.ready.erase node, ret := st.ret ++ (d.pathOf node).toList }
  return (d.children node).foldl release st

def topoLoop : ℕ → TopoState → List PathId
  | 0, st => st.ret
  | fuel + 1, st =>
    match d.topoStep name st with
    | some st => topoLoop fuel st
    | none => st.ret

def topoInit : TopoState :=
  let degree node := (d.fileDag.edges.filter (·.2 = node)).length
  { inDegree := fun node => if degree node = 0 then none else some (degree node)
    ready := (range d.fileDag.fileNodes.length).filter fun node => degree node = 0
    ret := [] }

/-- A node is popped once, so the number of nodes bounds the loop. -/
def toposortFile : List PathId := d.topoLoop name d.fileDag.fileNodes.length d.topoInit

variable {name d} {st : TopoState} {done : List ℕ} {rem : Finset (ℕ × ℕ)}

def Edge (d : TypeDag) (a b : ℕ) : Prop := (a, b) ∈ d.fileDag.edges

def IsNode (d : TypeDag) (i : ℕ) : Prop := i < d.fileDag.fileNodes.length

/-- The edges of nodes that are not in the list yet. -/
def remaining (d : TypeDag) (done : List ℕ) : Finset (ℕ × ℕ) :=
  d.fileDag.edges.toFinset.filter (·.1 ∉ done)

def degree (rem : Finset (ℕ × ℕ)) (i : ℕ) : ℕ := (rem.filter (·.2 = i)).card

/-- The tables count the remaining edges, and the heap holds the nodes without one. -/
structure Counts (d : TypeDag) (done : List ℕ) (rem : Finset (ℕ × ℕ)) (st : TopoState) : Prop where
  inDegree : ∀ i, st.inDegree i = if degree rem i = 0 then none else some (degree rem i)
  nodup : st.ready.Nodup
  ready : ∀ i, i ∈ st.ready ↔ d.IsNode i ∧ i ∉ done ∧ degree rem i = 0
  ret : st.ret = done.filterMap d.pathOf

theorem degree_insert (he : e ∉ rem) (i : ℕ) :
    degree (insert e rem) i = degree rem i + if e.2 = i then 1 else 0 := by
  rw [degree, Finset.filter_insert]
  split
  · rw [Finset.card_insert_of_notMem fun h => he (Finset.mem_filter.1 h).1, degree]
  · rfl

theorem Counts.release (h : Counts d done (insert e rem) st) (he : e ∉ rem)
    (hnode : d.IsNode e.2) (hdone : e.2 ∉ done) : Counts d done rem (release st e.2) := by
  have hin := h.inDegree
  have hready := h.ready
  simp only [degree_insert he] at hin hready
  have hnot : e.2 ∉ st.ready := fun hmem => by simpa using ((hready _).1 hmem).2.2
  have hdeg := hin e.2
  rw [if_pos rfl, if_neg (by omega)] at hdeg
  have hcount : ∀ x, (x = if degree rem e.2 = 0 then none else some (degree rem e.2)) →
      ∀ i, update st.inDegree e.2 x i =
        if degree rem i = 0 then none else some (degree rem i) := fun x hx i => by
    by_cases hi : i = e.2
    · rw [hi, update_self, hx]
    · rw [update_of_ne hi, hin, if_neg (Ne.symm hi)]
      rfl
  have hfree : ∀ i, (i = e.2 ∧ degree rem e.2 = 0 ∨ i ∈ st.ready) ↔
      d.IsNode i ∧ i ∉ done ∧ degree rem i = 0 := fun i => by
    by_cases hi : i = e.2
    · simp [hi, hnot, hnode, hdone]
    · simp [hi, hready, Ne.symm hi]
  simp only [TypeDag.release, hdeg, Nat.add_sub_cancel]
  split
  · rename_i hzero
    exact ⟨hcount none (if_pos hzero).symm, nodup_cons.2 ⟨hnot, h.nodup⟩,
      fun i => by simpa [hzero] using hfree i, h.ret⟩
  · rename_i hpos
    exact ⟨hcount _ (if_neg hpos).symm, h.nodup, fun i => by simpa [hpos] using hfree i, h.ret⟩

theorem Counts.releaseAll {v : ℕ} : ∀ (cs : List ℕ) (rem : Finset (ℕ × ℕ)) (st : TopoState),
    cs.Nodup → (∀ c ∈ cs, (v, c) ∉ rem ∧ d.IsNode c ∧ c ∉ done) →
    Counts d done (rem ∪ (cs.map (v, ·)).toFinset) st →
    Counts d done rem (cs.foldl TypeDag.release st) := by
  intro cs
  induction cs with
  | nil => exact fun rem st _ _ h => by simpa using h
  | cons c cs ih =>
    intro rem st hnodup hcs h
    obtain ⟨hc, hnodup⟩ := nodup_cons.1 hnodup
    obtain ⟨hout, hnode, hdone⟩ := hcs c mem_cons_self
    refine ih rem _ hnodup (fun x hx => hcs x (mem_cons_of_mem _ hx)) ?_
    refine Counts.release (e := (v, c)) ?_ (by simp [hout, hc]) hnode hdone
    simpa [Finset.union_insert] using h

theorem degree_remaining_eq_zero :
    degree (d.remaining done) i = 0 ↔ ∀ a, d.Edge a i → a ∈ done := by
  rw [degree, Finset.card_eq_zero, Finset.filter_eq_empty_iff]
  simp only [remaining, Finset.mem_filter, mem_toFinset]
  constructor
  · exact fun h a ha => by_contra fun hn => h ⟨ha, hn⟩ rfl
  · rintro h ⟨a, b⟩ ⟨he, hn⟩ rfl
    exact hn (h a he)

abbrev orderKey (name : PathId → String) (d : TypeDag) (i : ℕ) : (ℕ ×ₗ String) ×ₗ ℕ :=
  toLex (d.sortKey name i, i)

/-- The nodes done so far were each a least one that was ready. -/
structure Inv (name : PathId → String) (d : TypeDag) (done : List ℕ) (st : TopoState) : Prop where
  counts : Counts d done (d.remaining done) st
  greedy : Greedy d.IsNode d.Edge (d.orderKey name) done
  nodup : done.Nodup
  nodes : ∀ i ∈ done, d.IsNode i

theorem mem_children {v c : ℕ} : c ∈ d.children v ↔ d.Edge v c := by
  simp [children, Edge]

theorem nodup_children (v : ℕ) : (d.children v).Nodup := by
  refine (d.fileDag.single.filter _).map_on fun a ha b hb hab => Prod.ext ?_ hab
  exact (of_decide_eq_true (mem_filter.1 ha).2).trans (of_decide_eq_true (mem_filter.1 hb).2).symm

theorem Inv.step (h : Inv name d done st) {st' : TopoState} (hst : d.topoStep name st = some st') :
    ∃ v, Inv name d (done ++ [v]) st' := by
  obtain ⟨v, hv, hst⟩ := Option.bind_eq_some_iff.1 hst
  obtain rfl := Option.some.inj hst
  have havail : ∀ i, i ∈ st.ready ↔ Available d.IsNode d.Edge done i := fun i => by
    rw [h.counts.ready, degree_remaining_eq_zero, Available]
  have hready := (havail v).1 (argmin_mem hv)
  refine ⟨v, ?_, h.greedy.concat hready fun i hi => le_of_mem_argmin ((havail i).2 hi) hv,
    concat_eq_append ▸ Nodup.concat hready.2.1 h.nodup, by simpa [or_imp, forall_and] using ⟨h.nodes, hready.1⟩⟩
  -- A child was not done: what is done has its predecessors done.
  have hchild : ∀ c, d.Edge v c → c ∉ done ++ [v] := fun c hc hmem => by
    rcases mem_append.1 hmem with hmem | hmem
    · obtain ⟨p, s, rfl⟩ := append_of_mem hmem
      exact hready.2.1 (mem_append_left _ ((h.greedy p c s rfl).1.2.2 v hc))
    · obtain rfl := mem_singleton.1 hmem
      exact hready.2.1 (hready.2.2 c hc)
  have hsplit : d.remaining (done ++ [v]) ∪ ((d.children v).map (v, ·)).toFinset =
      d.remaining done := by
    ext ⟨a, b⟩
    have := hready.2.1
    simp only [remaining, Finset.mem_union, Finset.mem_filter, mem_toFinset, mem_append,
      mem_singleton, mem_map, mem_children, Prod.mk.injEq, Edge]
    grind
  refine Counts.releaseAll (v := v) _ _ _ (nodup_children v) (fun c hc => ?_) ?_
  · have hc := mem_children.1 hc
    exact ⟨by simp [remaining], (d.fileDag.inRange _ hc).2, hchild c hc⟩
  · rw [hsplit]
    refine ⟨h.counts.inDegree, h.counts.nodup.erase v, fun i => ?_, ?_⟩
    · rw [h.counts.nodup.mem_erase_iff, h.counts.ready]
      simp only [mem_append, mem_singleton]
      tauto
    · simp only [h.counts.ret, filterMap_append, filterMap_cons, filterMap_nil]
      cases d.pathOf v <;> rfl

/-- Without a ready node all nodes are done. -/
theorem Inv.mem_of_none (h : Inv name d done st) (hst : d.topoStep name st = none)
    (hi : d.IsNode i) : i ∈ done := by
  have hempty : st.ready = [] :=
    argmin_eq_none.1 (Option.eq_none_iff_forall_ne_some.2 (by simpa [topoStep] using hst))
  by_contra hn
  let r : Fin d.fileDag.fileNodes.length → Fin d.fileDag.fileNodes.length → Prop :=
    fun a b => Relation.TransGen d.Edge a b
  have : Std.Irrefl r := ⟨fun a => d.fileDag.acyclic a⟩
  obtain ⟨m, hm, hmin⟩ := (Finite.wellFounded_of_trans_of_irrefl r).has_min {a | a.val ∉ done} ⟨⟨i, hi⟩, hn⟩
  have hmem := (h.counts.ready m).2 ⟨m.isLt, hm, degree_remaining_eq_zero.2 fun a ha =>
    by_contra fun hna => hmin ⟨a, (d.fileDag.inRange _ ha).1⟩ hna (.single ha)⟩
  rw [hempty] at hmem
  cases hmem

theorem topoLoop_spec (fuel : ℕ) (h : Inv name d done st)
    (hfuel : d.fileDag.fileNodes.length ≤ done.length + fuel) :
    ∃ order, d.topoLoop name fuel st = order.filterMap d.pathOf ∧
      Greedy d.IsNode d.Edge (d.orderKey name) order ∧ order.Perm (range d.fileDag.fileNodes.length) := by
  induction fuel generalizing done st with
  | zero =>
    have hsub : done.Subperm (range d.fileDag.fileNodes.length) :=
      subperm_of_subset h.nodup fun i hi => mem_range.2 (h.nodes i hi)
    exact ⟨done, h.counts.ret, h.greedy, hsub.perm_of_length_le (by simpa using hfuel)⟩
  | succ fuel ih =>
    rw [topoLoop]
    cases hst : d.topoStep name st with
    | none => exact ⟨done, h.counts.ret, h.greedy, (perm_ext_iff_of_nodup h.nodup nodup_range).2
        fun i => ⟨fun hi => mem_range.2 (h.nodes i hi),
          fun hi => h.mem_of_none hst (mem_range.1 hi)⟩⟩
    | some st' =>
      obtain ⟨v, hv⟩ := h.step hst
      exact ih hv (by simp; omega)

theorem length_filter_edges (i : ℕ) :
    (d.fileDag.edges.filter (·.2 = i)).length = degree (d.remaining []) i := by
  rw [degree, ← toFinset_card_of_nodup (d.fileDag.single.filter _), toFinset_filter]
  simp [remaining]

theorem inv_topoInit : Inv name d [] d.topoInit := by
  refine ⟨⟨fun i => ?_, nodup_range.filter _, fun i => ?_, rfl⟩, greedy_nil, nodup_nil, by simp⟩
  · simp only [topoInit, length_filter_edges]
  · simp [topoInit, length_filter_edges, IsNode]

def fileOf (d : TypeDag) (node : ℕ) : PathId := d.fileDag.fileNodes.getD node 0

def IsFile (d : TypeDag) (path : PathId) : Prop := ∃ i, d.IsNode i ∧ d.fileOf i = path

/-- `b` depends on `a`. -/
def Dependency (d : TypeDag) (a b : PathId) : Prop :=
  ∃ i j, d.Edge i j ∧ d.fileOf i = a ∧ d.fileOf j = b

abbrev fileKey (name : PathId → String) (d : TypeDag) (path : PathId) : ℕ ×ₗ String :=
  toLex ((d.isOpaque (some path)).toNat, name path)

theorem pathOf_eq (hi : d.IsNode i) : d.pathOf i = some (d.fileOf i) := by
  rw [pathOf, fileOf, getElem?_eq_getElem hi, getD_eq_getElem _ _ hi]

theorem mem_fileNodes {path : PathId} : path ∈ d.fileDag.fileNodes ↔ d.IsFile path := by
  rw [mem_iff_getElem]
  exact exists_congr fun i => ⟨fun ⟨hi, h⟩ => ⟨hi, (getD_eq_getElem _ _ hi).trans h⟩,
    fun ⟨hi, h⟩ => ⟨hi, (getD_eq_getElem _ _ hi).symm.trans h⟩⟩

theorem toposortFile_greedy (name : PathId → String) (d : TypeDag) :
    (d.toposortFile name).Perm d.fileDag.fileNodes ∧
      Greedy d.IsFile d.Dependency (d.fileKey name) (d.toposortFile name) := by
  obtain ⟨order, heq, hgreedy, hperm⟩ :=
    @topoLoop_spec name d _ _ d.fileDag.fileNodes.length inv_topoInit (by simp)
  have hnode : ∀ i ∈ order, d.IsNode i := fun i hi => mem_range.1 (hperm.mem_iff.1 hi)
  have hmap : d.toposortFile name = order.map d.fileOf := by
    rw [toposortFile, heq, ← filterMap_eq_map]
    exact filterMap_congr fun i hi => pathOf_eq (hnode i hi)
  rw [hmap]
  refine ⟨(hperm.map _).trans (.of_eq ?_), hgreedy.map (fun _ => Iff.rfl) (fun i j hi hj h => ?_)
    (fun _ _ => Iff.rfl) (fun a b hab => d.fileDag.inRange _ hab) hnode fun a b ha hb hab => ?_⟩
  · exact ext_getElem (by simp) fun i hi hi' => by simp [fileOf, hi']
  · rw [fileOf, fileOf, getD_eq_getElem _ _ hi, getD_eq_getElem _ _ hj] at h
    exact d.fileDag.nodup.getElem_inj_iff.1 h
  · have hle : d.sortKey name a ≤ d.sortKey name b := by
      rcases Prod.Lex.toLex_le_toLex.1 hab with h | h
      · exact h.le
      · exact h.1.le
    simpa [sortKey, pathOf_eq ha, pathOf_eq hb] using hle

/-- The order is settled by the files, the dependencies and the opaque files. -/
theorem toposortFile_unique {d' : TypeDag}
    (hname : ∀ a b, d.IsFile a → d.IsFile b → name a = name b → a = b)
    (hfile : ∀ a, d'.IsFile a ↔ d.IsFile a)
    (hdep : ∀ a b, d'.Dependency a b ↔ d.Dependency a b)
    (hop : ∀ a, d.IsFile a → d'.isOpaque (some a) = d.isOpaque (some a)) :
    d'.toposortFile name = d.toposortFile name := by
  obtain ⟨hperm, hgreedy⟩ := d.toposortFile_greedy name
  obtain ⟨hperm', hgreedy'⟩ := d'.toposortFile_greedy name
  have hlen : d'.fileDag.fileNodes.length = d.fileDag.fileNodes.length :=
    ((perm_ext_iff_of_nodup d'.fileDag.nodup d.fileDag.nodup).2 fun a => by
      rw [mem_fileNodes, mem_fileNodes, hfile]).length_eq
  have hV : d'.IsFile = d.IsFile := funext fun a => propext (hfile a)
  have hE : d'.Dependency = d.Dependency := funext₂ fun a b => propext (hdep a b)
  rw [hV, hE] at hgreedy'
  refine hgreedy'.unique hgreedy (fun a b ha hb hle hle' => hname a b ha hb ?_)
    (hperm'.length_eq.trans (hlen.trans hperm.length_eq.symm))
  rw [fileKey, fileKey, hop a ha, hop b hb] at hle
  exact (Prod.mk.inj (toLex_inj.1 (le_antisymm hle hle'))).2

theorem dependency_iff {a b : PathId} : d.Dependency a b ↔ d.fileDag.Depends a b := by
  constructor
  · rintro ⟨i, j, he, rfl, rfl⟩
    obtain ⟨hi, hj⟩ := d.fileDag.inRange _ he
    exact ⟨_, he, pathOf_eq hi, pathOf_eq hj⟩
  · rintro ⟨e, he, ha, hb⟩
    obtain ⟨hi, hj⟩ := d.fileDag.inRange _ he
    exact ⟨e.1, e.2, he, Option.some.inj ((pathOf_eq hi).symm.trans ha),
      Option.some.inj ((pathOf_eq hj).symm.trans hb)⟩

/-- Builds that insert the same files and edges, in any order and any number of times, emit the
files in the same order. -/
theorem toposortFile_build {insertions insertions' : List FileDag.Insertion}
    (hname : Injective name) (hmem : ∀ i, i ∈ insertions' ↔ i ∈ insertions)
    (hd : FileDag.build insertions = some d.fileDag) {d' : TypeDag}
    (hd' : FileDag.build insertions' = some d'.fileDag)
    (hop : ∀ a, d.IsFile a → d'.isOpaque (some a) = d.isOpaque (some a)) :
    d'.toposortFile name = d.toposortFile name := by
  obtain ⟨hfiles, hdepends⟩ := FileDag.build_spec hd
  obtain ⟨hfiles', hdepends'⟩ := FileDag.build_spec hd'
  refine toposortFile_unique (fun a b _ _ h => hname h) (fun a => ?_) (fun a b => ?_) hop
  · rw [← mem_fileNodes, ← mem_fileNodes, hfiles, hfiles', hmem]
  · rw [dependency_iff, dependency_iff, hdepends, hdepends', hmem]

/-- The order of the files. -/
theorem toposortFile_canonical (name : PathId → String) (d : TypeDag)
    (hname : ∀ a b, d.IsFile a → d.IsFile b → name a = name b → a = b) :
    (d.toposortFile name).Perm d.fileDag.fileNodes ∧
    Respects d.Dependency (d.toposortFile name) ∧
    (∀ p a s, d.toposortFile name = p ++ a :: s →
      ∀ b, Available d.IsFile d.Dependency p b → d.isOpaque (some a) → d.isOpaque (some b)) ∧
    ∀ d' : TypeDag, (∀ a, d'.IsFile a ↔ d.IsFile a) →
      (∀ a b, d'.Dependency a b ↔ d.Dependency a b) →
      (∀ a, d.IsFile a → d'.isOpaque (some a) = d.isOpaque (some a)) →
      d'.toposortFile name = d.toposortFile name := by
  obtain ⟨hperm, hgreedy⟩ := d.toposortFile_greedy name
  refine ⟨hperm, hgreedy.respects, fun p a s hp b hb ha => ?_,
    fun d' => toposortFile_unique hname⟩
  have hle := (hgreedy p a s hp).2 b hb
  rw [Prod.Lex.toLex_le_toLex] at hle
  cases hb' : d.isOpaque (some b) with
  | false => simp [ha, hb'] at hle
  | true => rfl

def fullInsertions : List FileDag.Insertion := [.file 7, .file 3, .file 5, .edge 7 5]

/-- A file that uses a module of another, and a file of embedded text. -/
def fullBuild : TypeDag where
  fileDag := (FileDag.build fullInsertions).get rfl
  symbols := [(.module, some 7), (.module, some 5)]

def incrementalInsertions : List FileDag.Insertion := [.file 5, .file 7, .edge 7 5, .file 3]

/-- The same project with its files inserted in another order. -/
def incrementalBuild : TypeDag where
  fileDag := (FileDag.build incrementalInsertions).get rfl
  symbols := [(.module, some 5), (.module, some 7)]

def fileName (path : PathId) : String := if path = 3 then "a" else if path = 7 then "b" else "c"

/-- The embedded file comes last although its name is the least and nothing is before it. -/
theorem toposortFile_canonical_threeFiles :
    incrementalBuild.toposortFile fileName = fullBuild.toposortFile fileName ∧
      fullBuild.toposortFile fileName = [7, 5, 3] := by
  have hfull := FileDag.build_spec
    (show FileDag.build fullInsertions = some fullBuild.fileDag from (Option.some_get rfl).symm)
  have hincremental := FileDag.build_spec (show FileDag.build incrementalInsertions =
    some incrementalBuild.fileDag from (Option.some_get rfl).symm)
  have hnodes : ∀ a, fullBuild.IsFile a ↔ a = 7 ∨ a = 3 ∨ a = 5 := fun a => by
    rw [← mem_fileNodes, hfull.1]
    simp [fullInsertions]
  refine ⟨(toposortFile_canonical fileName fullBuild fun a b ha hb h => ?_).2.2.2 incrementalBuild
    (fun a => ?_) (fun a b => ?_) fun a ha => ?_, by decide⟩
  · rw [hnodes] at ha hb
    rcases ha with rfl | rfl | rfl <;> rcases hb with rfl | rfl | rfl <;>
      first | rfl | exact absurd h (by decide)
  · rw [hnodes, ← mem_fileNodes, hincremental.1]
    simp only [incrementalInsertions, mem_cons, FileDag.Insertion.file.injEq, reduceCtorEq,
      not_mem_nil]
    tauto
  · rw [dependency_iff, dependency_iff, hfull.2, hincremental.2]
    simp [fullInsertions, incrementalInsertions]
  · rw [hnodes] at ha
    rcases ha with rfl | rfl | rfl <;> decide

end TypeDag

end Veryl.Analyzer
