import Veryl.Simulator.CombLayout

/-!
Derived clocks and internally produced resets. A candidate that only copies another net
is not monitored itself: a clock becomes an alias of its source, and a reset joins the
group of the source of its chain.
-/

namespace Veryl.Simulator.DerivedClocks

open Veryl.Analyzer Nat

abbrev VarId := ℕ

structure DerivedClock where
  varId : VarId
  currentOffset : VarOffset
  nativeBytes : ℕ
  /-- The comb closure reaches a master input clock. -/
  masterGated : Bool
  /-- Declared `clock_negedge`: the active edge is the fall of the net. -/
  negedge : Bool

structure DerivedReset where
  /-- The resets that assert with the net. -/
  members : List VarId
  currentOffset : VarOffset
  nativeBytes : ℕ
  activeLow : Bool

/-- A net to monitor; the polarity is that of a reset, and there is none for a clock. -/
structure EdgeCandidate where
  varId : VarId
  offset : VarOffset
  nativeBytes : ℕ
  polarity : Option Bool
  negedge : Bool

structure DerivedClockSchedule where
  clocks : List DerivedClock
  resets : List DerivedReset
  masterInputClocks : List VarId
  /-- Each clock that only copies another one, with its source. -/
  aliases : List (VarId × VarId)

/-- The clock whose event fires for the edges of a clock. -/
def DerivedClockSchedule.sourceOf (schedule : DerivedClockSchedule) (clock : VarId) : VarId :=
  (schedule.aliases.find? (·.1 = clock)).elim clock (·.2)

/-- The one-bit variable that an expression is. -/
def oneBitVariable : ProtoExpression → Option VarOffset
  | .variable o none none 1 1 _ => if o.isFf then none else some o
  | _ => none

def isOne : ProtoExpression → Bool
  | .value v 1 _ => v.toU64 = some 1
  | _ => false

/-- The one-bit variable that an expression copies, under the `& 1` of conversions. -/
def copiedBit : ProtoExpression → Option VarOffset
  | .binary x .bitAnd y 1 _ =>
    if isOne y then copiedBit x else if isOne x then copiedBit y else none
  | e => oneBitVariable e
termination_by structural e => e

/-- The source of a one-bit copy. -/
def copySource : ProtoStatement → Option VarOffset
  | .assign a =>
    if a.dstWidth ≠ 1 ∨ a.dst.isFf ∨ a.select.isSome ∨ a.dynamicSelect.isSome ∨
        a.rhsSelect.isSome then none
    else copiedBit a.expr
  | _ => none

section Schedule

variable (external : List ProtoStatement → VarOffset → Bool) (stmts : List ProtoStatement)

/-- The statement stores into the offset as far as the gather tells. -/
def Outputs (s : ProtoStatement) (o : VarOffset) : Prop :=
  o.isFf = false ∧ o ∈ (s.gatherVariableOffsets external).2

instance (s : ProtoStatement) (o : VarOffset) : Decidable (Outputs external s o) :=
  inferInstanceAs (Decidable (_ ∧ _))

/-- The indices of the statements that write an offset, in order. -/
def writers (o : VarOffset) : List ℕ :=
  (List.range stmts.length).filter fun i => ∃ s ∈ stmts[i]?, Outputs external s o

/-- What the one statement that writes the offset copies. -/
def copiedFrom (o : VarOffset) : Option VarOffset :=
  match writers external stmts o with
  | [writer] => stmts[writer]?.bind copySource
  | _ => none

/-- The start of the copy chain of an offset. -/
def copyRootLoop : ℕ → VarOffset → VarOffset
  | 0, offset => offset
  | turns + 1, offset =>
    match copiedFrom external stmts offset with
    | some next => copyRootLoop turns next
    | none => offset

-- A chain longer than the statement count would revisit a writer.
def copyRoot (offset : VarOffset) : VarOffset :=
  copyRootLoop external stmts (stmts.length + 1) offset

variable (inputClocks : VarOffset → Option VarId)

/-- The master input clock that the copy chain reaches, else the clock nearest to its
start. -/
def copiedSourceLoop (clockAt : VarOffset → Option (VarId × Bool)) :
    ℕ → VarOffset → Option VarId → Option VarId
  | 0, _, _ => none
  | turns + 1, offset, nearest =>
    match clockAt offset with
    | some (_, true) => none
    | clock =>
      let nearest := (clock.map (·.1)).or nearest
      if writers external stmts offset = [] then (inputClocks offset).or nearest
      else match copiedFrom external stmts offset with
        | some next => copiedSourceLoop clockAt turns next nearest
        | none => nearest

def copiedSource (clockAt : VarOffset → Option (VarId × Bool)) (offset : VarOffset) :
    Option VarId :=
  copiedSourceLoop external stmts inputClocks clockAt (stmts.length + 1) offset none

/-- The inputs of a statement that are not flip-flops. -/
def combInputs (i : ℕ) : List VarOffset :=
  stmts[i]?.toList.flatMap fun s => (s.gatherVariableOffsets external).1.filter (!·.isFf)

/-- The statements that a statement depends on. -/
def feeders (i : ℕ) : List ℕ := (combInputs external stmts i).flatMap (writers external stmts)

/-- The input clocks among the inputs of a statement that nothing writes. -/
def boundary (i : ℕ) : List VarId :=
  ((combInputs external stmts i).filter (writers external stmts · = [])).filterMap inputClocks

/-- Walks back from the statements on the stack: the statements that were met, and the
input clocks. -/
def collectCombClosure (depSet : List ℕ) (masterSet : List VarId) : List ℕ → List ℕ × List VarId
  | [] => (depSet, masterSet)
  | idx :: stack =>
    if idx ∈ depSet then collectCombClosure depSet masterSet stack
    else if _h : idx < stmts.length then
      collectCombClosure (idx :: depSet) (masterSet ++ boundary external stmts inputClocks idx)
        (((feeders external stmts idx).filter (· ∉ idx :: depSet)).reverse ++ stack)
    else collectCombClosure depSet masterSet stack
termination_by stack => ((Finset.range stmts.length \ depSet.toFinset).card, stack.length)
decreasing_by
  · exact Prod.Lex.right _ (lt_succ_self _)
  · refine Prod.Lex.left _ _ (Finset.card_lt_card ?_)
    have hsub : Finset.range stmts.length \ (idx :: depSet).toFinset ⊆
        Finset.range stmts.length \ depSet.toFinset :=
      Finset.sdiff_subset_sdiff (Finset.Subset.refl _) fun i hi => by simp_all
    refine (Finset.ssubset_iff_of_subset hsub).2 ?_
    exact ⟨idx, by simp_all, by simp⟩
  · exact Prod.Lex.right _ (lt_succ_self _)

def masters (offset : VarOffset) : List VarId :=
  (collectCombClosure external stmts inputClocks [] [] (writers external stmts offset).reverse).2

/-- Nets without a writer are driven by the testbench. -/
def Driven (o : VarOffset) : Prop := o.isFf = true ∨ writers external stmts o ≠ []

instance (o : VarOffset) : Decidable (Driven external stmts o) :=
  inferInstanceAs (Decidable (_ ∨ _))

def candidateClocks (candidates : List EdgeCandidate) : List DerivedClock :=
  (candidates.filter fun c => c.polarity.isNone ∧ Driven external stmts c.offset).map fun c =>
    ⟨c.varId, c.offset, c.nativeBytes, false, c.negedge⟩

/-- Adds a reset to the group of a source and a polarity, or a group for it. -/
def joinGroup (source : VarOffset) (activeLow : Bool) (c : EdgeCandidate) :
    List DerivedReset → List DerivedReset
  | [] => [⟨[c.varId], source, c.nativeBytes, activeLow⟩]
  | r :: resets =>
    if r.currentOffset = source ∧ r.activeLow = activeLow then
      { r with members := r.members ++ [c.varId] } :: resets
    else r :: joinGroup source activeLow c resets

def addReset (resets : List DerivedReset) (c : EdgeCandidate) : List DerivedReset :=
  match c.polarity.filter fun _ => Driven external stmts c.offset with
  | none => resets
  | some activeLow => joinGroup (copyRoot external stmts c.offset) activeLow c resets

/-- Flip-flops first, then by the last statement that writes the net. -/
def sortKey (clk : DerivedClock) : ℕ × ℕ :=
  if clk.currentOffset.isFf then (0, 0)
  else (1, ((writers external stmts clk.currentOffset).getLast?.getD (2 ^ 64 - 1)) % 2 ^ 32)

def keyLe (a b : ℕ × ℕ) : Prop := a.1 < b.1 ∨ a.1 = b.1 ∧ a.2 ≤ b.2

instance : DecidableRel keyLe := fun a b =>
  inferInstanceAs (Decidable (a.1 < b.1 ∨ a.1 = b.1 ∧ a.2 ≤ b.2))

def sortedClocks (candidates : List EdgeCandidate) : List DerivedClock :=
  (candidateClocks external stmts candidates).insertionSort fun a b =>
    keyLe (sortKey external stmts a) (sortKey external stmts b)

/-- The clock of an offset; a later one takes the place of an earlier one. -/
def clockAt (clocks : List DerivedClock) (o : VarOffset) : Option (VarId × Bool) :=
  (clocks.reverse.find? (·.currentOffset = o)).map fun clk => (clk.varId, clk.negedge)

/-- The source of a clock that is not kept. -/
def aliasOf (negedgeInputs : List VarId) (clocks : List DerivedClock) (clk : DerivedClock) :
    Option VarId :=
  if clk.negedge ∨ clk.currentOffset.isFf then none
  else (copiedSource external stmts inputClocks (clockAt clocks) clk.currentOffset).filter
    fun source => source ≠ clk.varId ∧ source ∉ negedgeInputs

def gate (clk : DerivedClock) : DerivedClock :=
  if clk.currentOffset.isFf then clk
  else { clk with
    masterGated := !(masters external stmts inputClocks clk.currentOffset).isEmpty }

def buildSchedule (candidates : List EdgeCandidate) (negedgeInputs : List VarId) :
    DerivedClockSchedule :=
  let clocks := sortedClocks external stmts candidates
  let source := aliasOf external stmts inputClocks negedgeInputs clocks
  let kept := clocks.filter fun clk => (source clk).isNone
  { clocks := kept.map (gate external stmts inputClocks)
    resets := candidates.foldl (addReset external stmts) []
    masterInputClocks := ((kept.filter (!·.currentOffset.isFf)).flatMap fun clk =>
      masters external stmts inputClocks clk.currentOffset).dedup
    aliases := clocks.filterMap fun clk => (source clk).map fun source => (clk.varId, source) }

end Schedule

end Veryl.Simulator.DerivedClocks
