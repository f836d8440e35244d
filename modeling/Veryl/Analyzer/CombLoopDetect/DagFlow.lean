import Veryl.Analyzer.CombLoopDetect.Dag

/-!
What flows into the nodes of a dependency graph: at each position of a node the
sources that reach it through inputs, within the domains of the nodes on the
way, for one choice of the branches.
-/

namespace Veryl.Analyzer.CombLoopDetect

open Nat

variable {domains' : List PositionDomain}

/-- An element and a bit of a value. -/
abbrev BitPosition := ℕ × ℕ

variable {p : BitPosition}

def BitPosition.at (p : BitPosition) : Axis → ℕ
  | .array => p.1
  | .packed => p.2

/-- A bit of one of the domains; no domains restrict nothing. -/
def InBits (domains : List PositionDomain) (p : BitPosition) : Prop :=
  domains = [] ∨ ∃ d ∈ domains, (d.arrayStart ≤ p.1 ∧ p.1 < d.arrayStart + d.arrayLength) ∧
      d.packedStart ≤ p.2 ∧ p.2 < d.packedStart + d.packedLength

/-- Whether an input carries one bit to another. -/
def PositionRelation.Carries (r : PositionRelation) (q p : BitPosition) : Prop :=
  (∀ k ∈ r.array, (p.1 : ℤ) = q.1 + k) ∧ ∀ k ∈ r.packed, (p.2 : ℤ) = q.2 + k

/-- One translation of a repetition. -/
def Replication.Moves (r : Replication) (q p : BitPosition) : Prop :=
  p.at r.axis = q.at r.axis + r.stride ∧ p.at r.axis.other = q.at r.axis.other

def Guard.Admits (g : Guard) (v : Valuation) : Prop := ∀ c ∈ g, c.allowed.Has (v.arm c.branch)

@[simp] theorem carries_identity (q p : BitPosition) :
    PositionRelation.identity.Carries q p ↔ q = p := by
  simp only [PositionRelation.identity, PositionRelation.Carries, Option.mem_some_iff, forall_eq',
    Int.add_zero, Prod.ext_iff, Int.natCast_inj]
  tauto

@[simp] theorem admits_nil (v : Valuation) : Guard.Admits [] v := by
  simp [Guard.Admits]

section Through

variable {α : Type} {domains : List PositionDomain} {rep : Option Replication}
  {base base' : BitPosition → α → Prop}

/-- What a node passes on: its own inputs, repeated within its domains. -/
inductive Through (domains : List PositionDomain) (rep : Option Replication)
    (base : BitPosition → α → Prop) : BitPosition → α → Prop
  | base {p s} : InBits domains p → base p s → Through domains rep base p s
  | again {p q s r} : InBits domains p → rep = some r → r.Moves q p →
      Through domains rep base q s → Through domains rep base p s

theorem Through.mono (h : ∀ p s, base p s → base' p s) {s : α}
    (hp : Through domains rep base p s) : Through domains rep base' p s := by
  induction hp with
  | base hd hb => exact .base hd (h _ _ hb)
  | again hd hr hm _ ih => exact .again hd hr hm ih

theorem through_congr (h : ∀ p s, base p s ↔ base' p s) (p : BitPosition) (s : α) :
    Through domains rep base p s ↔ Through domains rep base' p s :=
  ⟨.mono fun p s => (h p s).1, .mono fun p s => (h p s).2⟩

theorem inBits_of_through {s : α} (h : Through domains rep base p s) : InBits domains p := by
  cases h with
  | base hd _ => exact hd
  | again hd _ _ _ => exact hd

theorem through_none (p : BitPosition) (s : α) :
    Through domains none base p s ↔ InBits domains p ∧ base p s := by
  constructor
  · intro h
    cases h with
    | base hd hb => exact ⟨hd, hb⟩
    | again _ hr _ _ => cases hr
  · exact fun ⟨hd, hb⟩ => .base hd hb

theorem inBits_congr (h : ∀ d, d ∈ domains ↔ d ∈ domains')
    (p : BitPosition) : InBits domains p ↔ InBits domains' p := by
  have hnil : domains = [] ↔ domains' = [] := by
    simp only [List.eq_nil_iff_forall_not_mem, h]
  simp only [InBits, hnil, h]

theorem through_congr_domains (h : ∀ d, d ∈ domains ↔ d ∈ domains') (p : BitPosition) (s : α) :
    Through domains rep base p s ↔ Through domains' rep base p s := by
  constructor
  · intro hp
    induction hp with
    | base hd hb => exact .base ((inBits_congr h _).1 hd) hb
    | again hd hr hm _ ih => exact .again ((inBits_congr h _).1 hd) hr hm ih
  · intro hp
    induction hp with
    | base hd hb => exact .base ((inBits_congr h _).2 hd) hb
    | again hd hr hm _ ih => exact .again ((inBits_congr h _).2 hd) hr hm ih

theorem through_blocks {d : PositionDomain} {stride : ℕ} {pos : 0 < stride}
    (hstart : d.packedStart = 0) (hbase : ∀ p s, base p s → p.2 < stride) (p : BitPosition)
    (s : α) : Through [d] (some ⟨.packed, stride, pos⟩) base p s ↔
      InBits [d] p ∧ base (p.1, p.2 % stride) s := by
  have hmem : ∀ p : BitPosition, InBits [d] p ↔
      (d.arrayStart ≤ p.1 ∧ p.1 < d.arrayStart + d.arrayLength) ∧ p.2 < d.packedLength := by
    simp [InBits, hstart]
  constructor
  · intro h
    induction h with
    | @base p s hd hb => exact ⟨hd, by rwa [mod_eq_of_lt (hbase p s hb)]⟩
    | @again p q s r hd hr hm _ ih =>
      cases hr
      obtain ⟨hstep, hsame⟩ := hm
      simp only [BitPosition.at, Axis.other] at hstep hsame
      refine ⟨hd, ?_⟩
      rw [hstep, hsame, add_mod_right]
      exact ih.2
  · rintro ⟨hd, hb⟩
    obtain ⟨a, b⟩ := p
    -- from the place in the block one stride at a time
    have hsteps : ∀ k, b % stride + stride * k ≤ b →
        Through [d] (some ⟨.packed, stride, pos⟩) base (a, b % stride + stride * k) s := by
      intro k
      induction k with
      | zero =>
        intro hle
        refine .base ((hmem _).2 ?_) (by simpa using hb)
        have := (hmem _).1 hd
        exact ⟨this.1, by dsimp only at this ⊢; omega⟩
      | succ k ih =>
        intro hle
        rw [mul_succ] at hle ⊢
        refine .again ((hmem _).2 ?_) rfl (q := (a, b % stride + stride * k)) ⟨?_, rfl⟩
          (ih (by omega))
        · have := (hmem _).1 hd
          exact ⟨this.1, by dsimp only at this ⊢; omega⟩
        · simp only [BitPosition.at]
          omega
    have := hsteps (b / stride) (by rw [mod_add_div])
    rwa [mod_add_div] at this

end Through

/-- A graph of operations at one choice of the branches. -/
structure Flow (N α : Type) where
  /-- What a node supplies by itself. -/
  base : N → BitPosition → α → Prop
  edge : N → N → PositionRelation → Prop
  domains : N → List PositionDomain
  replication : N → Option Replication

namespace Flow

variable {N α : Type} (F : Flow N α)

/-- The sources that reach a bit of a node. -/
inductive Sources : N → BitPosition → α → Prop
  | base {n p s} : InBits (F.domains n) p → F.base n p s → Sources n p s
  | edge {m n p q s r} : InBits (F.domains n) p → F.edge m n r → r.Carries q p →
      Sources m q s → Sources n p s
  | again {n p q s r} : InBits (F.domains n) p → F.replication n = some r → r.Moves q p →
      Sources n q s → Sources n p s

/-- What enters a node. -/
def Enters (n : N) (p : BitPosition) (s : α) : Prop :=
  F.base n p s ∨ ∃ m r q, F.edge m n r ∧ r.Carries q p ∧ F.Sources m q s

theorem sources_iff (n : N) (p : BitPosition) (s : α) :
    F.Sources n p s ↔ Through (F.domains n) (F.replication n) (F.Enters n) p s := by
  constructor
  · intro h
    induction h with
    | base hd hb => exact .base hd (.inl hb)
    | edge hd he hc hm _ => exact .base hd (.inr ⟨_, _, _, he, hc, hm⟩)
    | again hd hr hm _ ih => exact .again hd hr hm ih
  · intro h
    induction h with
    | base hd hb =>
      rcases hb with hb | ⟨m, r, q, he, hc, hm⟩
      · exact .base hd hb
      · exact .edge hd he hc hm
    | again hd hr hm _ ih => exact .again hd hr hm ih

end Flow

variable {K : Type}

/-- The replication of a node of a graph. -/
def DependencyDag.replication (g : DependencyDag K) (n : ℕ) : Option Replication :=
  match g.nodes[n]? with
  | some (.replicated replication) => some replication
  | _ => none

/-- A built graph as a flow: its external nodes supply their key. -/
def DependencyDag.flow (g : DependencyDag K) (v : Valuation) : Flow ℕ (K × BitPosition) where
  base n p s := ∃ key, g.nodes[n]? = some (.external key) ∧ s = (key, p)
  edge m n r := ∃ e ∈ g.edges, e.source = m ∧ e.destination = n ∧ e.relation = r ∧
    e.condition.Admits v
  domains := g.domain
  replication := g.replication

/-- An imported graph as a flow: its external nodes supply what is bound to them. -/
def DependencyDag.importFlow {α : Type} (g : DependencyDag K)
    (branches : List (BranchId × BranchId))
    (bound : K → BitPosition → α → Prop) (v : Valuation) : Flow ℕ α where
  base n p s := ∃ key, g.nodes[n]? = some (.external key) ∧ bound key p s
  edge m n r := ∃ e ∈ g.edges, e.source = m ∧ e.destination = n ∧ e.relation = r ∧
    (e.condition.remapped branches).Admits v
  domains := g.domain
  replication := g.replication

end Veryl.Analyzer.CombLoopDetect
