import Veryl.Analyzer.AssignTableSteps
import Veryl.Simulator.Opt.MultiWriteCover

/-!
An element that one commit can write twice is found by the analysis: the counts of the
declarations cover every run of a commit, whatever branches it takes and however often its
loops iterate. A loop variable that is stored at its last value misleads the key of a write
only in a repeated loop, where the wrong element is counted twice.
-/

namespace Veryl.Simulator.MultiWrite

open List Option

open Veryl.Analyzer.AssignTables (VarId Shape)

variable {info : Variable} {forceAllFf : Bool} {event : EventKey}

variable {inFor : Bool} {m : Counts} {e : ℕ} {id : VarId}

section Runs

variable {ι ρ : Type}

/-- A turn of a loop: the values of its range in this run, and the one of the turn. -/
structure Turn (ρ : Type) where
  var : VarId
  range : ρ
  values : List ℕ
  value : ℕ

/-- An executed write with the turns of the loops around it, the innermost first. -/
structure Write (ι ρ : Type) where
  dst : AssignDestination ι
  turns : List (Turn ρ)

/-- The values of the loop variables in some turns of the loops. -/
def AnalyzerContext.during (ctx : AnalyzerContext ι ρ) (turns : List (Turn ρ)) : LoopValues :=
  turns.foldr (fun turn values => Function.update values turn.var (some turn.value)) ctx.stored

/-- What an index and a range can be at run time. What evaluates under the values that the
loop variables have there is what the run takes. -/
structure Runtime (ctx : AnalyzerContext ι ρ) where
  lands : Write ι ρ → ℕ → Prop
  iterates : List (Turn ρ) → ρ → List ℕ → Prop
  lands_evaluated : ∀ write flat e,
    elementKeyAt ctx (ctx.during write.turns) write.dst = some (some flat) →
      lands write e → e = flat
  iterates_evaluated : ∀ turns range values values',
    ctx.evalIter (ctx.during turns) range = some values → iterates turns range values' →
      values' = values

inductive Code (ι ρ : Type) where
  | one (s : Statement ι ρ)
  | seq (stmts : List (Statement ι ρ))
  | iterate (var : VarId) (range : ρ) (values : List ℕ) (body : List (Statement ι ρ))
      (rest : List ℕ)

variable {ctx : AnalyzerContext ι ρ} (rt : Runtime ctx)

/-- A run of some code inside the turns of the loops around it, with the writes it executes,
in order, and whether it leaves the innermost loop. -/
inductive Exec : List (Turn ρ) → Code ι ρ → List (Write ι ρ) → Bool → Prop
  | assign {turns} (dst) : Exec turns (.one (.assign dst)) (dst.map (⟨·, turns⟩)) false
  | condTrue {turns t f w b} (h : Exec turns (.seq t) w b) : Exec turns (.one (.cond t f)) w b
  | condFalse {turns t f w b} (h : Exec turns (.seq f) w b) : Exec turns (.one (.cond t f)) w b
  | resetTrue {turns t f w b} (h : Exec turns (.seq t) w b) :
      Exec turns (.one (.ifReset t f)) w b
  | resetFalse {turns t f w b} (h : Exec turns (.seq f) w b) :
      Exec turns (.one (.ifReset t f)) w b
  | arm {turns arms default body w b} (hmem : body ∈ arms) (h : Exec turns (.seq body) w b) :
      Exec turns (.one (.select arms default)) w b
  | selectDefault {turns arms default w b} (h : Exec turns (.seq default) w b) :
      Exec turns (.one (.select arms default)) w b
  | loop {turns var range values body w b} (hvalues : rt.iterates turns range values)
      (h : Exec turns (.iterate var range values body values) w b) :
      Exec turns (.one (.loop var range body)) w false
  | functionCall {turns} (outputs) :
      Exec turns (.one (.functionCall outputs)) (outputs.flatten.map (⟨·, turns⟩)) false
  | leave {turns} : Exec turns (.one .leave) [] true
  | other {turns} : Exec turns (.one .other) [] false
  | nil {turns} : Exec turns (.seq []) [] false
  | cons {turns s rest w w' b} (hs : Exec turns (.one s) w false)
      (hrest : Exec turns (.seq rest) w' b) : Exec turns (.seq (s :: rest)) (w ++ w') b
  | broken {turns s rest w} (hs : Exec turns (.one s) w true) :
      Exec turns (.seq (s :: rest)) w true
  | done {turns var range values body} : Exec turns (.iterate var range values body []) [] false
  | turn {turns var range values body value rest w w' b}
      (hbody : Exec (⟨var, range, values, value⟩ :: turns) (.seq body) w false)
      (hrest : Exec turns (.iterate var range values body rest) w' b) :
      Exec turns (.iterate var range values body (value :: rest)) (w ++ w') b
  | stop {turns var range values body value rest w}
      (hbody : Exec (⟨var, range, values, value⟩ :: turns) (.seq body) w true) :
      Exec turns (.iterate var range values body (value :: rest)) w true

/-- One commit: some of the declarations fire, each once. -/
inductive Commit : List (List (Statement ι ρ)) → List (Write ι ρ) → Prop
  | nil : Commit [] []
  | fires {stmts rest w w' b} (h : Exec rt [] (.seq stmts) w b) (hrest : Commit rest w') :
      Commit (stmts :: rest) (w ++ w')
  | idle {stmts rest w} (hrest : Commit rest w) : Commit (stmts :: rest) w

end Runs

section Known

variable {ι ρ : Type} (ctx : AnalyzerContext ι ρ)

/-- The range that the analysis evaluates, if it does, is the one of these turns. -/
def RangeKnown (turns : List (Turn ρ)) (range : ρ) : Prop :=
  ∀ values, ctx.evalIter ctx.stored range = some values →
    ctx.evalIter (ctx.during turns) range = some values

def RangesKnown : List (Turn ρ) → Prop
  | [] => True
  | turn :: turns => RangeKnown ctx turns turn.range ∧ RangesKnown turns

/-- The element that the analysis finds, if it does, is the one of the write's turns. -/
def IndexKnown (write : Write ι ρ) : Prop :=
  ∀ flat : ℕ, elementKey ctx write.dst = some (some flat) →
    elementKeyAt ctx (ctx.during write.turns) write.dst = some (some flat)

/-- A loop variable is an x, or stored at the last value of its range. -/
def StoresLast (turns : List (Turn ρ)) : Prop :=
  ∀ turn ∈ turns, ∀ values, ctx.evalIter ctx.stored turn.range = some values →
    ctx.stored turn.var = none ∨ ctx.stored turn.var = values.getLast?

/-- One of the loops is counted as a repeated one. -/
def repeats (turns : List (Turn ρ)) : Bool :=
  turns.any fun turn => repeated (ctx.evalIter ctx.stored turn.range)

open Classical in
/-- The writes that the counts stand for: every write in loops with known ranges, twice if one
of the loops is repeated. -/
noncomputable def counted (w : List (Write ι ρ)) : List (AssignDestination ι) :=
  w.flatMap fun write =>
    if RangesKnown ctx write.turns then
      if repeats ctx write.turns then [write.dst, write.dst] else [write.dst]
    else []

@[simp] theorem counted_nil : counted ctx ([] : List (Write ι ρ)) = [] := rfl

@[simp] theorem counted_append (w w' : List (Write ι ρ)) :
    counted ctx (w ++ w') = counted ctx w ++ counted ctx w' := flatMap_append

variable {ctx} {rt : Runtime ctx} {turns : List (Turn ρ)} {code : Code ι ρ} {b : Bool}

variable {w : List (Write ι ρ)} {write : Write ι ρ}

theorem counted_unknown_writes (hunknown : ¬ RangesKnown ctx turns)
    (dsts : List (AssignDestination ι)) : counted ctx (dsts.map (⟨·, turns⟩)) = [] := by
  simp [counted, flatMap_map, hunknown]

def Code.Known (ctx : AnalyzerContext ι ρ) (turns : List (Turn ρ)) : Code ι ρ → Prop
  | .iterate _ range _ _ _ => RangeKnown ctx turns range ∧ RangesKnown ctx turns
  | _ => RangesKnown ctx turns

theorem counted_unknown (h : Exec rt turns code w b) :
    ¬ code.Known ctx turns → counted ctx w = [] := by
  induction h with
  | assign dst => exact fun hunknown => counted_unknown_writes hunknown dst
  | condTrue _ ih => exact ih
  | condFalse _ ih => exact ih
  | resetTrue _ ih => exact ih
  | resetFalse _ ih => exact ih
  | arm _ _ ih => exact ih
  | selectDefault _ ih => exact ih
  | loop _ _ ih => exact fun hunknown => ih fun hknown => hunknown hknown.2
  | functionCall outputs => exact fun hunknown => counted_unknown_writes hunknown _
  | leave => exact fun _ => rfl
  | other => exact fun _ => rfl
  | nil => exact fun _ => rfl
  | cons _ _ ihs ihrest =>
    intro hunknown
    rw [counted_append, ihs hunknown, ihrest hunknown, nil_append]
  | broken _ ih => exact ih
  | done => exact fun _ => rfl
  | turn _ _ ihbody ihrest =>
    intro hunknown
    rw [counted_append, ihbody hunknown, ihrest hunknown, nil_append]
  | stop _ ih => exact ih

/-- The turns of a run: each loop takes a value of its range. -/
def Happens (rt : Runtime ctx) : List (Turn ρ) → Prop
  | [] => True
  | turn :: turns =>
    rt.iterates turns turn.range turn.values ∧ turn.value ∈ turn.values ∧ Happens rt turns

def Code.Happens (rt : Runtime ctx) (turns : List (Turn ρ)) : Code ι ρ → Prop
  | .iterate _ range values _ rest => rt.iterates turns range values ∧ rest ⊆ values
  | _ => True

theorem exec_happens (h : Exec rt turns code w b) :
    Happens rt turns → code.Happens rt turns → ∀ write ∈ w, Happens rt write.turns := by
  induction h with
  | assign dst =>
    intro hturns _ write hmem
    obtain ⟨d, -, rfl⟩ := mem_map.1 hmem
    exact hturns
  | condTrue _ ih => exact fun hturns _ => ih hturns trivial
  | condFalse _ ih => exact fun hturns _ => ih hturns trivial
  | resetTrue _ ih => exact fun hturns _ => ih hturns trivial
  | resetFalse _ ih => exact fun hturns _ => ih hturns trivial
  | arm _ _ ih => exact fun hturns _ => ih hturns trivial
  | selectDefault _ ih => exact fun hturns _ => ih hturns trivial
  | loop hvalues _ ih => exact fun hturns _ => ih hturns ⟨hvalues, Subset.refl _⟩
  | functionCall outputs =>
    intro hturns _ write hmem
    obtain ⟨d, -, rfl⟩ := mem_map.1 hmem
    exact hturns
  | leave => simp
  | other => simp
  | nil => simp
  | cons _ _ ihs ihrest =>
    intro hturns _ write hmem
    exact (mem_append.1 hmem).elim (ihs hturns trivial write) (ihrest hturns trivial write)
  | broken _ ih => exact fun hturns _ => ih hturns trivial
  | done => simp
  | turn _ _ ihbody ihrest =>
    rintro hturns ⟨hvalues, hrest⟩ write hmem
    obtain ⟨hvalue, hrest⟩ := cons_subset.1 hrest
    exact (mem_append.1 hmem).elim (ihbody ⟨hvalues, hvalue, hturns⟩ trivial write)
      (ihrest hturns ⟨hvalues, hrest⟩ write)
  | stop _ ih =>
    rintro hturns ⟨hvalues, hrest⟩
    exact ih ⟨hvalues, (cons_subset.1 hrest).1, hturns⟩ trivial

theorem commit_happens {lists : List (List (Statement ι ρ))} (h : Commit rt lists w) :
    ∀ write ∈ w, Happens rt write.turns := by
  induction h with
  | nil => simp
  | fires hexec _ ih =>
    intro write hmem
    exact (mem_append.1 hmem).elim (exec_happens hexec trivial trivial write) (ih write)
  | idle _ ih => exact ih

/-- Loops that do not repeat have one turn, and the stored value is the one of that turn. -/
theorem stored_during (hhappens : Happens rt turns) (hknown : RangesKnown ctx turns)
    (hstored : StoresLast ctx turns) (hsingle : repeats ctx turns = false) :
    ∀ v n, ctx.stored v = some n → ctx.during turns v = some n := by
  induction turns with
  | nil => exact fun v n hv => hv
  | cons turn turns ih =>
    intro v n hv
    obtain ⟨hiterates, hvalue, hrest⟩ := hhappens
    rw [repeats, any_cons, Bool.or_eq_false_iff] at hsingle
    rw [AnalyzerContext.during, foldr_cons]
    by_cases hvar : v = turn.var
    · subst hvar
      rw [Function.update_self]
      cases heval : ctx.evalIter ctx.stored turn.range with
      | none => simp [repeated, heval] at hsingle
      | some values =>
        have hlong : values.length ≤ 1 := by simpa [repeated, heval] using hsingle.1
        have hsame := rt.iterates_evaluated turns _ values _ (hknown.1 values heval) hiterates
        rw [hsame] at hvalue
        obtain ⟨last, rfl⟩ := length_eq_one_iff.1 (Nat.le_antisymm hlong (length_pos_of_mem hvalue))
        have hlast := hstored turn mem_cons_self _ heval
        rw [hv] at hlast
        simpa [mem_singleton.1 hvalue, eq_comm] using hlast
    · rw [Function.update_of_ne hvar]
      exact ih hrest hknown.2 (fun t ht => hstored t (mem_cons_of_mem _ ht)) hsingle.2 v n hv

theorem elementKeyAt_eq_some_iff {values : LoopValues} {dst : AssignDestination ι} {e : ℕ} :
    elementKeyAt ctx values dst = some (some e) ↔ ∃ info index,
      ctx.getVariableInfo dst.id = some info ∧ info.kind ≠ .letVar ∧
      ctx.evalIndex values dst.index = some index ∧ info.array.calcIndex index = some e := by
  unfold elementKeyAt
  cases ctx.getVariableInfo dst.id with
  | none => simp
  | some info => by_cases hkind : info.kind = .letVar <;> simp [hkind, bind_eq_some_iff]

/-- A key that is not the one of the write's turns is only found in a repeated loop. -/
theorem repeats_of_unknown (hhappens : Happens rt write.turns)
    (hknown : RangesKnown ctx write.turns) (hstored : StoresLast ctx write.turns)
    (hindex : ¬ IndexKnown ctx write) : repeats ctx write.turns = true := by
  by_contra hsingle
  refine hindex fun flat hkey => ?_
  have hmono := stored_during hhappens hknown hstored (Bool.eq_false_iff.2 hsingle)
  obtain ⟨info, index, hinfo, hkind, hindex, hflat⟩ := elementKeyAt_eq_some_iff.1 hkey
  exact elementKeyAt_eq_some_iff.2
    ⟨info, index, hinfo, hkind, ctx.evalIndex_mono hmono hindex, hflat⟩

end Known

section Covering

variable {ι ρ : Type} {ctx : AnalyzerContext ι ρ}

variable {w : List (AssignDestination ι)}

theorem covers_arm {arms : List (List (Statement ι ρ))} {body : List (Statement ι ρ)}
    (hmem : body ∈ arms) (default : Counts)
    (h : Covers ctx inFor (countWritesSeq ctx body inFor) w) :
    Covers ctx inFor (countWritesArms ctx arms default inFor) w := by
  induction arms with
  | nil => cases hmem
  | cons head arms ih =>
    rcases mem_cons.1 hmem with rfl | htail
    · exact h.merge_left _
    · exact (ih htail).merge_right _

theorem covers_default {default : Counts}
    (arms : List (List (Statement ι ρ))) (h : Covers ctx inFor default w) :
    Covers ctx inFor (countWritesArms ctx arms default inFor) w := by
  induction arms with
  | nil => rwa [countWritesArms]
  | cons head arms ih =>
    exact ih.merge_right _

/-- The counts of some code; a loop that iterates is counted by its body. -/
def Code.counts (ctx : AnalyzerContext ι ρ) (inFor : Bool) : Code ι ρ → Counts
  | .one s => countWritesOne ctx s inFor
  | .seq stmts => countWritesSeq ctx stmts inFor
  | .iterate _ _ _ body _ => countWritesSeq ctx body inFor

/-- More than one iteration is only counted as a repeated loop. -/
def Code.Repeats (ctx : AnalyzerContext ι ρ) (turns : List (Turn ρ)) (inFor : Bool) :
    Code ι ρ → Prop
  | .iterate _ range _ _ rest =>
    (repeated (ctx.evalIter ctx.stored range) = true → inFor = true) ∧
      (RangeKnown ctx turns range → inFor = true ∨ rest.length ≤ 1)
  | _ => True

theorem repeats_loop (rt : Runtime ctx) {turns : List (Turn ρ)} {range : ρ} {values : List ℕ}
    (hvalues : rt.iterates turns range values) (hknown : RangeKnown ctx turns range)
    (inFor : Bool) :
    (inFor || repeated (ctx.evalIter ctx.stored range)) = true ∨ values.length ≤ 1 := by
  cases heval : ctx.evalIter ctx.stored range with
  | none => simp [repeated]
  | some found =>
    obtain rfl := rt.iterates_evaluated turns range found values (hknown found heval) hvalues
    by_cases hlong : 1 < values.length
    · simp [repeated, hlong]
    · exact .inr (by omega)

theorem need_or (again : Bool) (h : Covers ctx (inFor || again) m w) : Covers ctx inFor m w := by
  cases again with
  | false => simpa using h
  | true => exact (by simpa using h : Covers ctx true m w).of_true

theorem hits_twice (dsts : List (AssignDestination ι)) (id : VarId) (key : ElementKey) :
    hits ctx (dsts.flatMap fun dst => [dst, dst]) id key = 2 * hits ctx dsts id key := by
  induction dsts with
  | nil => rfl
  | cons dst dsts ih =>
    rw [flatMap_cons, hits_append, ih]
    simp only [hits, countP_cons, countP_nil]
    omega

theorem need_true_twice (n : ℕ) : need true (2 * n) = need true n := by
  simp only [need]
  split_ifs <;> omega

theorem Covers.twice (h : Covers ctx true m w) :
    Covers ctx true m (w.flatMap fun dst => [dst, dst]) where
  dynamic id := by
    rw [hits_twice, need_true_twice]
    exact h.dynamic id
  element id e := by
    rw [hits_twice, hits_twice, ← Nat.mul_add, need_true_twice]
    exact h.element id e
  present id e hpos := h.present id e (by rw [hits_twice] at hpos; omega)

/-- The destinations of one statement. -/
theorem covers_writes {turns : List (Turn ρ)} (hinFor : repeats ctx turns = true → inFor = true)
    (dsts : List (AssignDestination ι)) :
    Covers ctx inFor (dsts.foldl (addDstWrite ctx inFor) .empty)
      (counted ctx (dsts.map (⟨·, turns⟩))) := by
  have hdsts := covers_dsts ctx inFor dsts
  by_cases hknown : RangesKnown ctx turns
  · cases hrep : repeats ctx turns with
    | false => simpa [counted, flatMap_map, hknown, hrep] using hdsts
    | true =>
      obtain rfl := hinFor hrep
      simpa [counted, flatMap_map, hknown, hrep] using hdsts.twice
  · rw [counted_unknown_writes hknown]
    exact Covers.nil inFor _

theorem exec_covers (rt : Runtime ctx) {turns : List (Turn ρ)} {code : Code ι ρ}
    {w : List (Write ι ρ)} {b : Bool} (h : Exec rt turns code w b) :
    ∀ inFor, (repeats ctx turns = true → inFor = true) → code.Repeats ctx turns inFor →
      Covers ctx inFor (code.counts ctx inFor) (counted ctx w) := by
  induction h with
  | assign dst =>
    intro inFor hinFor _
    simpa only [Code.counts, countWritesOne] using covers_writes hinFor dst
  | condTrue _ ih =>
    intro inFor hinFor _
    simpa only [Code.counts, countWritesOne] using (ih inFor hinFor trivial).merge_left _
  | condFalse _ ih =>
    intro inFor hinFor _
    simpa only [Code.counts, countWritesOne] using (ih inFor hinFor trivial).merge_right _
  | resetTrue _ ih =>
    intro inFor hinFor _
    simpa only [Code.counts, countWritesOne] using (ih inFor hinFor trivial).merge_left _
  | resetFalse _ ih =>
    intro inFor hinFor _
    simpa only [Code.counts, countWritesOne] using (ih inFor hinFor trivial).merge_right _
  | arm hmem _ ih =>
    intro inFor hinFor _
    simpa only [Code.counts, countWritesOne] using covers_arm hmem _ (ih inFor hinFor trivial)
  | selectDefault _ ih =>
    intro inFor hinFor _
    simpa only [Code.counts, countWritesOne] using covers_default _ (ih inFor hinFor trivial)
  | @loop turns var range values body w b hvalues hbody ih =>
    intro inFor hinFor _
    simp only [Code.counts, countWritesOne]
    split
    · next hempty =>
      -- a known range without values has no iteration to write in
      by_cases hknown : RangeKnown ctx turns range
      · obtain rfl := rt.iterates_evaluated turns range _ values (hknown [] hempty) hvalues
        cases hbody with
        | done => exact Covers.nil inFor _
      · rw [counted_unknown hbody fun h => hknown h.1]
        exact Covers.nil inFor _
    · refine need_or _ (ih _ (fun hrep => by simp [hinFor hrep]) ⟨fun hrep => by simp [hrep], ?_⟩)
      exact fun hknown => repeats_loop rt hvalues hknown inFor
  | functionCall outputs =>
    intro inFor hinFor _
    simpa only [Code.counts, countWritesOne] using covers_writes hinFor outputs.flatten
  | leave => exact fun inFor _ _ => Covers.nil inFor _
  | other => exact fun inFor _ _ => Covers.nil inFor _
  | nil => exact fun inFor _ _ => Covers.nil inFor _
  | cons _ _ ihs ihrest =>
    intro inFor hinFor _
    rw [counted_append]
    simpa only [Code.counts, countWritesSeq] using
      (ihs inFor hinFor trivial).append (ihrest inFor hinFor trivial)
  | broken _ ih =>
    intro inFor hinFor _
    simpa only [Code.counts, countWritesSeq] using (ih inFor hinFor trivial).addAll_left
  | done => exact fun inFor _ _ => Covers.nil inFor _
  | @turn turns var range values body value rest w w' b hbody hrest ihbody ihrest =>
    rintro inFor hinFor ⟨hrep, hlong⟩
    have hturn : repeats ctx (⟨var, range, values, value⟩ :: turns) = true → inFor = true := by
      intro h
      rw [repeats, any_cons, Bool.or_eq_true] at h
      exact h.elim hrep hinFor
    by_cases hknown : RangeKnown ctx turns range
    · rw [counted_append]
      rcases hlong hknown with rfl | hone
      · exact (ihbody true hturn trivial).again
          (ihrest true hinFor ⟨fun _ => rfl, fun _ => .inl rfl⟩)
      · -- the iteration is the only one
        obtain rfl : rest = [] := length_eq_zero_iff.1 (by simpa using hone)
        cases hrest with
        | done =>
          rw [counted_nil, append_nil]
          exact ihbody inFor hturn trivial
    · rw [counted_unknown (.turn hbody hrest) fun h => hknown h.1]
      exact Covers.nil inFor _
  | @stop turns var range values body value rest w hbody ih =>
    rintro inFor hinFor ⟨hrep, -⟩
    refine ih inFor (fun h => ?_) trivial
    rw [repeats, any_cons, Bool.or_eq_true] at h
    exact h.elim hrep hinFor

theorem commit_covers (rt : Runtime ctx) {lists : List (List (Statement ι ρ))}
    {w : List (Write ι ρ)} (h : Commit rt lists w) :
    Covers ctx false (eventCounts ctx lists) (counted ctx w) := by
  induction h with
  | nil => exact Covers.nil false _
  | fires hexec _ ih =>
    rw [counted_append]
    exact (exec_covers rt hexec false (by simp [repeats]) trivial).append ih
  | idle _ ih => exact ih.addAll_right

theorem countWritesArms_eq_lowerToNestedIf (ctx : AnalyzerContext ι ρ)
    (arms : List (List (Statement ι ρ))) (default : List (Statement ι ρ)) (inFor : Bool) :
    countWritesArms ctx arms (countWritesSeq ctx default inFor) inFor =
      countWritesSeq ctx (lowerToNestedIf arms default) inFor := by
  have hlast : ∀ m : Counts, m.addAll Counts.empty = m := fun m => rfl
  induction arms with
  | nil => rw [countWritesArms, lowerToNestedIf, foldr_nil]
  | cons body arms ih =>
    have hcons : lowerToNestedIf (body :: arms) default =
        [.cond body (lowerToNestedIf arms default)] := rfl
    rw [countWritesArms, ih, hcons, countWritesSeq, countWritesOne, countWritesSeq, hlast]

end Covering

section Reported

variable {ι ρ : Type} {ctx : AnalyzerContext ι ρ}

theorem countP_or_le {α : Type} (p q : α → Bool) (l : List α) :
    l.countP (fun a => p a || q a) ≤ l.countP p + l.countP q := by
  induction l with
  | nil => simp
  | cons a l ih =>
    simp only [countP_cons]
    cases p a <;> cases q a <;> simp <;> omega

/-- The analysis counts the write at the element or as a runtime index of its array. -/
def Reaches (ctx : AnalyzerContext ι ρ) (id : VarId) (e : ℕ) (dst : AssignDestination ι) : Prop :=
  dst.id = id ∧ (elementKey ctx dst = some (some e) ∨ elementKey ctx dst = some .dynamic)

theorem reaches_of_lands (rt : Runtime ctx) {write : Write ι ρ}
    (hinfo : ctx.getVariableInfo id = some info) (hkind : info.kind ≠ .letVar)
    (hindex : IndexKnown ctx write) (hwrite : write.dst.id = id ∧ rt.lands write e) :
    Reaches ctx id e write.dst := by
  obtain ⟨rfl, hlands⟩ := hwrite
  have hkey : elementKey ctx write.dst =
      some ((ctx.evalIndex ctx.stored write.dst.index).bind info.array.calcIndex) := by
    simp [elementKey, elementKeyAt, hinfo, hkind]
  cases hflat : (ctx.evalIndex ctx.stored write.dst.index).bind info.array.calcIndex with
  | none => exact ⟨rfl, .inr (by rw [hkey, hflat])⟩
  | some flat =>
    rw [hflat] at hkey
    rw [rt.lands_evaluated write flat e (hindex flat hkey) hlands]
    exact ⟨rfl, .inl hkey⟩

theorem two_hits {dsts : List (AssignDestination ι)} {d d' : AssignDestination ι}
    (htwo : [d, d'].Sublist dsts) (hd : Reaches ctx id e d) (hd' : Reaches ctx id e d') :
    2 ≤ hits ctx dsts id (some e) + hits ctx dsts id .dynamic := by
  have hle := countP_or_le
    (fun dst => dst.id == id && elementKey ctx dst == some (some e : ElementKey))
    (fun dst => dst.id == id && elementKey ctx dst == some ElementKey.dynamic) dsts
  have hsub := htwo.countP_le (p := fun dst =>
    (dst.id == id && elementKey ctx dst == some (some e : ElementKey)) ||
      (dst.id == id && elementKey ctx dst == some ElementKey.dynamic))
  have hcount : ∀ dst : AssignDestination ι, Reaches ctx id e dst →
      ((dst.id == id && elementKey ctx dst == some (some e : ElementKey)) ||
        (dst.id == id && elementKey ctx dst == some ElementKey.dynamic)) = true := by
    rintro dst ⟨rfl, h | h⟩ <;> simp [h]
  simp only [countP_cons, countP_nil, hcount d hd, hcount d' hd'] at hsub
  exact (by simpa using hsub : 2 ≤ _).trans hle

theorem exists_of_hits {w : List (Write ι ρ)} {key : ElementKey}
    (h : 0 < hits ctx (counted ctx w) id key) :
    ∃ write ∈ w, write.dst.id = id ∧ elementKey ctx write.dst = some key := by
  obtain ⟨dst, hmem, hdst⟩ := countP_pos_iff.1 h
  rw [Bool.and_eq_true, beq_iff_eq, beq_iff_eq] at hdst
  obtain ⟨write, hwrite, hmem⟩ := mem_flatMap.1 hmem
  have hsame : dst = write.dst := by
    split_ifs at hmem
    · simpa using hmem
    · simpa using hmem
    · cases hmem
  exact ⟨write, hwrite, hsame ▸ hdst⟩

theorem single_counted {write : Write ι ρ} (hknown : RangesKnown ctx write.turns) :
    [write.dst].Sublist (counted ctx [write]) := by
  cases hrep : repeats ctx write.turns <;> simp [counted, hknown, hrep]

theorem pair_counted {w : List (Write ι ρ)} {x y : Write ι ρ} (htwo : [x, y].Sublist w)
    (hx : RangesKnown ctx x.turns) (hy : RangesKnown ctx y.turns) :
    [x.dst, y.dst].Sublist (counted ctx w) := by
  have hsub : (counted ctx ([x] ++ [y])).Sublist (counted ctx w) := htwo.flatMap _
  rw [counted_append] at hsub
  exact ((single_counted hx).append (single_counted hy)).trans hsub

theorem repeated_counted {w : List (Write ι ρ)} {x : Write ι ρ} (hmem : x ∈ w)
    (hknown : RangesKnown ctx x.turns) (hrep : repeats ctx x.turns = true) :
    [x.dst, x.dst].Sublist (counted ctx w) := by
  have hsub : (counted ctx [x]).Sublist (counted ctx w) := (singleton_sublist.2 hmem).flatMap _
  simpa [counted, hknown, hrep] using hsub

theorem isSome_of_at_pos {k : VarId × ElementKey} (h : 0 < m.at' k) : (m k).isSome := by
  cases hk : m k with
  | none => simp [Counts.at', hk] at h
  | some n => rfl

theorem Covers.overflows {w : List (AssignDestination ι)} (h : Covers ctx false m w)
    (htwo : 2 ≤ hits ctx w id (some e) + hits ctx w id .dynamic) :
    overflows m id (some e) = true ∨
      (overflows m id .dynamic = true ∧ 0 < hits ctx w id .dynamic) := by
  have helem := h.element id e
  have hdyn := h.dynamic id
  simp only [need, Bool.false_eq_true, if_false] at helem hdyn
  have htotal : 2 ≤ m.at' (id, some e) + m.at' (id, .dynamic) := by omega
  by_cases hsome : (m (id, some e)).isSome
  · exact .inl (by simp [MultiWrite.overflows, entryTotal, hsome, htotal])
  · -- only runtime indices of the array were executed
    have hnone : hits ctx w id (some e) = 0 := by
      by_contra hne
      exact hsome (h.present id e (by omega))
    have hmany : 2 ≤ m.at' (id, .dynamic) := by omega
    refine .inr ⟨?_, by omega⟩
    have hkept : (m (id, .dynamic)).isSome := isSome_of_at_pos (by omega)
    simp [MultiWrite.overflows, entryTotal, hkept, hmany]

variable {decls : List (Declaration ι ρ)}

theorem analyzeMultiWrite_element
    (h : overflows (eventCounts ctx (eventStatements forceAllFf decls event)) id (some e) = true) :
    analyzeMultiWrite ctx decls forceAllFf id e = true := by
  refine any_eq_true.2 ⟨event, by cases event <;> simp, ?_⟩
  simp [h]

theorem analyzeMultiWrite_dynamic
    (h : overflows (eventCounts ctx (eventStatements forceAllFf decls event)) id .dynamic = true) :
    analyzeMultiWrite ctx decls forceAllFf id 0 = true := by
  refine any_eq_true.2 ⟨event, by cases event <;> simp, ?_⟩
  simp [h]

theorem packedFf_eq_false {isFfVar : Bool} {totalArray : ℕ} {multiRmwSet : ℕ → Bool}
    (he : e < totalArray) (h : multiRmwSet e = true) :
    packedFf isFfVar totalArray multiRmwSet = false := by
  have hany : (List.range totalArray).any multiRmwSet = true :=
    any_eq_true.2 ⟨e, mem_range.2 he, h⟩
  rw [packedFf, hany, Bool.not_true, Bool.and_false]

/-- Two counted destinations that reach an element are reported, at the element or as a
runtime index of its array, and the array is not packed. -/
theorem reported_of_two (rt : Runtime ctx) {w : List (Write ι ρ)}
    (h : Commit rt (eventStatements forceAllFf decls event) w) {d d' : AssignDestination ι}
    (htwo : [d, d'].Sublist (counted ctx w)) (hd : Reaches ctx id e d)
    (hd' : Reaches ctx id e d') :
    (analyzeMultiWrite ctx decls forceAllFf id e = true ∨
      (analyzeMultiWrite ctx decls forceAllFf id 0 = true ∧
        ∃ write ∈ w, write.dst.id = id ∧ elementKey ctx write.dst = some .dynamic)) ∧
    ∀ isFfVar totalArray, e < totalArray →
      packedFf isFfVar totalArray (analyzeMultiWrite ctx decls forceAllFf id) = false := by
  rcases (commit_covers rt h).overflows (two_hits htwo hd hd') with helem | ⟨hdyn, hpos⟩
  · have hreport := analyzeMultiWrite_element helem
    exact ⟨.inl hreport, fun _ _ he => packedFf_eq_false he hreport⟩
  · have hreport := analyzeMultiWrite_dynamic hdyn
    exact ⟨.inr ⟨hreport, exists_of_hits hpos⟩, fun _ _ he => packedFf_eq_false (by omega) hreport⟩

/-- A repeated write is counted twice at whatever element the analysis finds for it. -/
theorem not_packed_of_unknown (rt : Runtime ctx) {w : List (Write ι ρ)}
    (h : Commit rt (eventStatements forceAllFf decls event) w)
    (hinfo : ctx.getVariableInfo id = some info) {x : Write ι ρ} (hmem : x ∈ w)
    (hid : x.dst.id = id) (hknown : RangesKnown ctx x.turns) (hstored : StoresLast ctx x.turns)
    (hindex : ¬ IndexKnown ctx x) {isFfVar : Bool} {totalArray : ℕ}
    (htotal : info.array.total = some totalArray) :
    packedFf isFfVar totalArray (analyzeMultiWrite ctx decls forceAllFf id) = false := by
  have htwo := repeated_counted hmem hknown
    (repeats_of_unknown (commit_happens h x hmem) hknown hstored hindex)
  rw [IndexKnown, not_forall] at hindex
  obtain ⟨flat, hindex⟩ := hindex
  obtain ⟨hkey, -⟩ := Classical.not_imp.1 hindex
  have hreaches : Reaches ctx id flat x.dst := ⟨hid, .inl hkey⟩
  have hflat : flat < totalArray := by
    obtain ⟨info', index, hinfo', -, -, hcalc⟩ := elementKeyAt_eq_some_iff.1 hkey
    obtain rfl := some.inj (hinfo.symm.trans (hid ▸ hinfo'))
    obtain ⟨n, hn, hlt⟩ := Shape.calcIndex_lt hcalc
    rw [htotal] at hn
    rwa [some.inj hn]
  exact (reported_of_two rt h htwo hreaches hreaches).2 isFfVar totalArray hflat

/-- The run time that leaves open whatever does not evaluate. -/
def Runtime.free (ctx : AnalyzerContext ι ρ) : Runtime ctx where
  lands write e := ∀ flat,
    elementKeyAt ctx (ctx.during write.turns) write.dst = some (some flat) → e = flat
  iterates turns range values' := ∀ values,
    ctx.evalIter (ctx.during turns) range = some values → values' = values
  lands_evaluated _ flat _ hkey hlands := hlands flat hkey
  iterates_evaluated _ _ values _ heval hvalues := hvalues values heval

end Reported

/-- An index or a range: constants, a loop variable, as many values as are left up to a bound,
or something that is only known at run time. -/
inductive Given where
  | const (values : List ℕ)
  | var (v : VarId)
  | rest (bound : ℕ) (v : VarId)
  | runtime

def Given.eval (values : LoopValues) : Given → Option (List ℕ)
  | .const found => some found
  | .var v => (values v).map ([·])
  | .rest bound v => (values v).map fun n => List.range (bound - n)
  | .runtime => none

theorem Given.eval_mono {values values' : LoopValues} {given : Given} {found : List ℕ}
    (hmono : ∀ v n, values v = some n → values' v = some n)
    (h : given.eval values = some found) : given.eval values' = some found := by
  cases given with
  | const found => exact h
  | var v =>
    obtain ⟨n, hn, hfound⟩ := map_eq_some_iff.1 h
    exact map_eq_some_iff.2 ⟨n, hmono v n hn, hfound⟩
  | rest bound v =>
    obtain ⟨n, hn, hfound⟩ := map_eq_some_iff.1 h
    exact map_eq_some_iff.2 ⟨n, hmono v n hn, hfound⟩
  | runtime => exact h

/-- The variable 0 and the loop variables with their stored values. -/
def oneVariable (variable' : Variable) (stored : LoopValues) : AnalyzerContext Given Given where
  getVariableInfo id := if id = 0 then some variable' else none
  stored := stored
  evalIndex := Given.eval
  evalIter := Given.eval
  evalIndex_mono := Given.eval_mono

/-- Four words; the loop variable 1 is left at 3, and 2 at 0. -/
def registerFile : AnalyzerContext Given Given :=
  oneVariable ⟨.var, [some 4]⟩ fun v => if v = 1 then some 3 else if v = 2 then some 0 else none

/-- `if_reset { for i in 0..4 { mem[i] = 0; } mem[n] = 1; } else { mem[addr] = d; }`. -/
def resetDecls (n : ℕ) : List (Declaration Given Given) :=
  [.other, .ff [.ifReset
    [.loop 1 (.const [0, 1, 2, 3]) [.assign [⟨0, .var 1⟩]], .assign [⟨0, .const [n]⟩]]
    [.assign [⟨0, .runtime⟩]]]]

def resetTurn (i : ℕ) : Turn Given := ⟨1, .const [0, 1, 2, 3], [0, 1, 2, 3], i⟩

/-- The writes of the reset branch. -/
def resetWrites (n : ℕ) : List (Write Given Given) :=
  [⟨⟨0, .var 1⟩, [resetTurn 0]⟩, ⟨⟨0, .var 1⟩, [resetTurn 1]⟩, ⟨⟨0, .var 1⟩, [resetTurn 2]⟩,
    ⟨⟨0, .var 1⟩, [resetTurn 3]⟩, ⟨⟨0, .const [n]⟩, []⟩]

theorem commit_reset (n : ℕ) : Commit (Runtime.free registerFile)
    (eventStatements false (resetDecls n) .ff) (resetWrites n) := by
  have hbody : ∀ i, Exec (Runtime.free registerFile) [resetTurn i]
      (.seq [.assign [⟨0, .var 1⟩]]) [⟨⟨0, .var 1⟩, [resetTurn i]⟩] false :=
    fun i => .cons (.assign _) .nil
  have hloop : Exec (Runtime.free registerFile) []
      (.one (.loop 1 (.const [0, 1, 2, 3]) [.assign [⟨0, .var 1⟩]]))
      [⟨⟨0, .var 1⟩, [resetTurn 0]⟩, ⟨⟨0, .var 1⟩, [resetTurn 1]⟩,
        ⟨⟨0, .var 1⟩, [resetTurn 2]⟩, ⟨⟨0, .var 1⟩, [resetTurn 3]⟩] false :=
    .loop (fun values heval => some.inj heval)
      (.turn (hbody 0) (.turn (hbody 1) (.turn (hbody 2) (.turn (hbody 3) .done))))
  exact .fires (.cons (.resetTrue (.cons hloop (.cons (.assign _) .nil))) .nil) .nil

/-- Two executed writes land on an element, and neither it nor element 0 is reported. -/
def Missed (ctx : AnalyzerContext Given Given) (decls : List (Declaration Given Given)) : Prop :=
  ∃ w x y e, Commit (Runtime.free ctx) (eventStatements false decls .ff) w ∧
    [x, y].Sublist w ∧ x.dst.id = 0 ∧ y.dst.id = 0 ∧
    (Runtime.free ctx).lands x e ∧ (Runtime.free ctx).lands y e ∧
    analyzeMultiWrite ctx decls false 0 e = false ∧ analyzeMultiWrite ctx decls false 0 0 = false

/-- A let in a loop that iterates twice. -/
def letDecls : List (Declaration Given Given) :=
  [.ff [.loop 1 (.const [0, 1]) [.assign [⟨0, .const []⟩]]]]

theorem missed_let (stored : LoopValues) : Missed (oneVariable ⟨.letVar, []⟩ stored) letDecls := by
  let ctx := oneVariable ⟨.letVar, []⟩ stored
  let turn (i : ℕ) : Turn Given := ⟨1, .const [0, 1], [0, 1], i⟩
  have hbody : ∀ i, Exec (Runtime.free ctx) [turn i] (.seq [.assign [⟨0, .const []⟩]])
      [⟨⟨0, .const []⟩, [turn i]⟩] false := fun i => .cons (.assign _) .nil
  have hrun : Commit (Runtime.free ctx) (eventStatements false letDecls .ff)
      [⟨⟨0, .const []⟩, [turn 0]⟩, ⟨⟨0, .const []⟩, [turn 1]⟩] :=
    .fires (.cons (.loop (fun values heval => some.inj heval)
      (.turn (hbody 0) (.turn (hbody 1) .done))) .nil) .nil
  -- the write has no element, so it may land on the only one
  have hlands : ∀ turns, (Runtime.free ctx).lands ⟨⟨0, .const []⟩, turns⟩ 0 :=
    fun turns flat hkey => nomatch hkey
  exact ⟨_, _, _, 0, hrun, Sublist.refl _, rfl, rfl, hlands _, hlands _, rfl, rfl⟩

/-- Element 0 is written by the first turn and after the loop; both turns count at 3. -/
theorem missed_reset : Missed registerFile (resetDecls 0) := by
  have hkey : elementKeyAt registerFile (registerFile.during [resetTurn 0]) ⟨0, .var 1⟩ =
      some (some 0) := by decide
  refine ⟨_, ⟨⟨0, .var 1⟩, [resetTurn 0]⟩, ⟨⟨0, .const [0]⟩, []⟩, 0, commit_reset 0,
    .cons_cons _ (.cons _ (.cons _ (.cons _ (Sublist.refl _)))), rfl, rfl,
    fun flat hflat => some.inj (some.inj (hkey.symm.trans hflat)),
    fun flat hflat => some.inj (some.inj hflat), by decide, by decide⟩

/-- `for j in 1..4 { for i in 0..(3 - j) { mem[i] = 0; } }`: the inner range is evaluated
with the last `j`, where it is empty. -/
def triangleDecls : List (Declaration Given Given) :=
  [.ff [.loop 1 (.const [1, 2, 3]) [.loop 2 (.rest 3 1) [.assign [⟨0, .var 2⟩]]]]]

theorem missed_triangle : Missed registerFile triangleDecls := by
  let outer (j : ℕ) : Turn Given := ⟨1, .const [1, 2, 3], [1, 2, 3], j⟩
  let inner (values : List ℕ) (j i : ℕ) : List (Turn Given) :=
    [⟨2, .rest 3 1, values, i⟩, outer j]
  let write (values : List ℕ) (j i : ℕ) : Write Given Given := ⟨⟨0, .var 2⟩, inner values j i⟩
  have hbody : ∀ values j i, Exec (Runtime.free registerFile) (inner values j i)
      (.seq [.assign [⟨0, .var 2⟩]]) [write values j i] false :=
    fun values j i => .cons (.assign _) .nil
  have hloop : ∀ {values j w}, (Given.rest 3 1).eval (registerFile.during [outer j]) =
        some values →
      Exec (Runtime.free registerFile) [outer j]
        (.iterate 2 (.rest 3 1) values [.assign [⟨0, .var 2⟩]] values) w false →
      Exec (Runtime.free registerFile) [outer j]
        (.seq [.loop 2 (.rest 3 1) [.assign [⟨0, .var 2⟩]]]) (w ++ []) false :=
    fun hvalues hw => .cons
      (.loop (fun found heval => some.inj (hvalues.symm.trans heval)) hw) .nil
  have hrun : Commit (Runtime.free registerFile) (eventStatements false triangleDecls .ff)
      [write [0, 1] 1 0, write [0, 1] 1 1, write [0] 2 0] :=
    .fires (.cons (.loop (fun values heval => some.inj heval)
      (.turn (hloop (by decide) (.turn (hbody _ 1 0) (.turn (hbody _ 1 1) .done)))
      (.turn (hloop (by decide) (.turn (hbody _ 2 0) .done))
      (.turn (hloop (by decide) .done) .done)))) .nil) .nil
  have hlands : ∀ values j, (Runtime.free registerFile).lands (write values j 0) 0 := by
    intro values j flat hflat
    have hkey : elementKeyAt registerFile (registerFile.during (inner values j 0)) ⟨0, .var 2⟩ =
        some (some 0) := rfl
    exact some.inj (some.inj (hkey.symm.trans hflat))
  exact ⟨_, write [0, 1] 1 0, write [0] 2 0, 0, hrun, .cons_cons _ (.cons _ (Sublist.refl _)),
    rfl, rfl, hlands _ _, hlands _ _, by decide, by decide⟩

end Veryl.Simulator.MultiWrite
