import Veryl.Synthesizer.ArithBuild

/-!
Reductions of a bus by a balanced tree of cells of one kind.
-/

namespace Veryl.Synthesizer.Netlist

open List

/-- One level: a cell for every two neighbours, a last net alone. -/
def reduceLevel (kind : CellKind) : List NetId → Build (List NetId)
  | a :: b :: rest => do
    let n ← cell kind [a, b]
    let next ← reduceLevel kind rest
    pure (n :: next)
  | rest => pure rest

theorem length_reduceLevel (kind : CellKind) : ∀ (level : List NetId) (ctx : ConvContext),
    (reduceLevel kind level ctx).1.length = (level.length + 1) / 2
  | a :: b :: rest, ctx => by
    have hrest := length_reduceLevel kind rest (cell kind [a, b] ctx).2
    show (reduceLevel kind rest (cell kind [a, b] ctx).2).1.length + 1 = _
    rw [hrest, length_cons, length_cons]
    omega
  | [a], ctx => by simp [reduceLevel, pure, StateT.pure]
  | [], ctx => rfl

def reduceLoop (kind : CellKind) (identity : NetId) (level : List NetId) (ctx : ConvContext) :
    NetId × ConvContext :=
  match level with
  | [] => (identity, ctx)
  | [a] => (a, ctx)
  | a :: b :: rest =>
    let next := reduceLevel kind (a :: b :: rest) ctx
    reduceLoop kind identity next.1 next.2
termination_by level.length
decreasing_by
  rw [length_reduceLevel]
  simp only [length_cons]
  omega

def reduce (bits : List NetId) (kind : CellKind) (identity : NetId) : Build NetId :=
  reduceLoop kind identity bits

def reduceAnd (bits : List NetId) : Build NetId := reduce bits .and2 netConst1

def reduceOr (bits : List NetId) : Build NetId := reduce bits .or2 netConst0

variable {ρ : NetId → Bool} {kind : CellKind}

theorem gives_reduceLevel (hkind : kind.arity = 2) : ∀ level : List NetId,
    Gives ρ (reduceLevel kind level) fun next =>
      next.map ρ = reducePairs kind (level.map ρ)
  | a :: b :: rest => by
    have hpair : [a, b].length = kind.arity := hkind.symm
    refine (gives_cell hpair).bind fun n => ?_
    refine (gives_reduceLevel hkind rest).bind fun next => gives_pure fun hnext hn => ?_
    rw [map_cons, hn, hnext]
    rfl
  | [a] => gives_pure rfl
  | [] => gives_pure rfl

theorem gives_reduce (hkind : kind.arity = 2) (bits : List NetId) (identity : NetId) :
    Gives ρ (reduce bits kind identity) fun n =>
      ρ n = Synthesizer.reduce kind (ρ identity) (bits.map ρ) := by
  intro ctx
  unfold reduce
  induction bits, ctx using reduceLoop.induct kind with
  | case1 ctx =>
    rw [reduceLoop]
    exact fun hctx => ⟨hctx, by rw [map_nil, Synthesizer.reduce]⟩
  | case2 ctx a =>
    rw [reduceLoop]
    exact fun hctx => ⟨hctx, by rw [map_singleton, Synthesizer.reduce]⟩
  | case3 ctx a b rest next ih =>
    rw [reduceLoop]
    intro hctx
    obtain ⟨hmid, hvalue⟩ := ih hctx
    obtain ⟨hbegin, hlevel⟩ := gives_reduceLevel hkind (a :: b :: rest) ctx hmid
    refine ⟨hbegin, hvalue.trans ?_⟩
    rw [hlevel, map_cons, map_cons, ← Synthesizer.reduce]

theorem any_reducePairs (bits : List Bool) : (reducePairs .or2 bits).any id = bits.any id := by
  induction bits using reducePairs.induct with
  | case1 a b rest ih =>
    rw [reducePairs, any_cons, ih, any_cons, any_cons, ← Bool.or_assoc]
    rfl
  | case2 rest hrest => rw [reducePairs]; exact hrest

theorem reduceOr_eq (bits : List Bool) : Synthesizer.reduce .or2 false bits = bits.any id := by
  induction bits using Synthesizer.reduce.induct CellKind.or2 with
  | case1 => simp [Synthesizer.reduce]
  | case2 a => simp [Synthesizer.reduce]
  | case3 a b rest ih => rw [Synthesizer.reduce, ih, any_reducePairs]

theorem gives_reduceOr (bits : List NetId) :
    Gives ρ (reduceOr bits) fun n => ρ n = (bits.map ρ).any id :=
  gives_of_rails fun hgnd _ => (gives_reduce rfl bits netConst0).imp fun n hn => by
    rw [hn, hgnd, reduceOr_eq]

end Veryl.Synthesizer.Netlist
