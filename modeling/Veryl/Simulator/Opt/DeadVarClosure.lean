import Veryl.Simulator.Opt.DeadVarDce

/-!
The cascade of dead-variable elimination reaches the fixpoint of its rounds.
-/

namespace Veryl.Simulator.DeadVarDce

open Veryl.Analyzer List Function Census
open Census (addFullWrite addRead updateLive)

variable {body : List ProtoStatement} {c : Census} {D : Set VarOffset} {r : ArrayRange}

variable {o off : VarOffset} {dead : List VarOffset} {slices : List (List ProtoStatement)}

variable (inCompiled trace : Bool) {protect keys : List VarOffset}

/-- One read of an expression, in the order of the walk. -/
inductive Event where
  | read (off : VarOffset)
  | range (r : ArrayRange)
  deriving DecidableEq

inductive Write where
  | none
  | partialWrite (off : VarOffset)
  | full (off : VarOffset)
  deriving DecidableEq

/-- Reads made together, and the write they are made for. -/
structure Entry where
  events : List Event
  write : Write
  inCompiled : Bool

variable {es : List Entry} {e : Entry}

def eventReads (evs : List Event) : List VarOffset :=
  evs.filterMap fun
    | .read o => some o
    | .range _ => none

def eventRanges (evs : List Event) : List ArrayRange :=
  evs.filterMap fun
    | .range r => some r
    | .read _ => none

@[simp] theorem eventReads_nil : eventReads [] = [] := rfl

@[simp] theorem eventRanges_nil : eventRanges [] = [] := rfl

@[simp] theorem eventReads_read (o : VarOffset) (evs : List Event) :
    eventReads (.read o :: evs) = o :: eventReads evs := rfl

@[simp] theorem eventReads_range (r : ArrayRange) (evs : List Event) :
    eventReads (.range r :: evs) = eventReads evs := rfl

@[simp] theorem eventRanges_read (o : VarOffset) (evs : List Event) :
    eventRanges (.read o :: evs) = eventRanges evs := rfl

@[simp] theorem eventRanges_range (r : ArrayRange) (evs : List Event) :
    eventRanges (.range r :: evs) = r :: eventRanges evs := rfl

namespace Entry

def reads (e : Entry) : List VarOffset := eventReads e.events

def ranges (e : Entry) : List ArrayRange := eventRanges e.events

/-- The offset whose elimination drops the entry. -/
def owner (e : Entry) : Option VarOffset :=
  match e.write with
  | .full o => if e.inCompiled then none else some o
  | _ => none

end Entry

mutual

def exprEvents : ProtoExpression → List Event
  | .variable o _ ds _ _ _ => .read o :: selectEvents ds
  | .value _ _ _ => []
  | .unary _ x _ _ => exprEvents x
  | .resize x _ _ _ => exprEvents x
  | .binary x _ y _ _ => exprEvents x ++ exprEvents y
  | .concatenation es _ _ => elementEvents es
  | .ternary a b d _ _ => exprEvents a ++ exprEvents b ++ exprEvents d
  | .dynamicVariable o stride _ i n _ ds _ _ =>
    .range ⟨o, n, stride⟩ :: (exprEvents i ++ selectEvents ds)
termination_by structural e => e

def selectEvents : Option ProtoDynamicBitSelect → List Event
  | none => []
  | some (_, e) => exprEvents e
termination_by structural ds => ds

def elementEvents : List (ProtoExpression × ℕ × ℕ) → List Event
  | [] => []
  | (e, _, _) :: es => exprEvents e ++ elementEvents es
termination_by structural es => es

end

def argEvents (args : List ProtoExpression) : List Event := args.flatMap exprEvents

/-- A full-width assignment, the only kind that may be dropped. -/
def fullWidth (x : ProtoAssignStatement) : Bool :=
  x.select.isNone && x.dynamicSelect.isNone && x.rhsSelect.isNone

/-- The entries of one item of a walk. -/
def visitEntries (inCompiled : Bool) : Visit → List Entry
  | .cond e => [⟨exprEvents e, .none, inCompiled⟩]
  | .assign x =>
    [⟨exprEvents x.expr ++ selectEvents x.dynamicSelect,
      if fullWidth x then .full x.dst else .partialWrite x.dst, inCompiled⟩]
  | .assignDynamic x =>
    [⟨exprEvents x.dstIndexExpr ++ exprEvents x.expr ++ selectEvents x.dynamicSelect ++
      [.range ⟨x.dstBase, x.dstNumElements, x.dstStride⟩], .none, inCompiled⟩]
  | .loop x =>
    [⟨[], .partialWrite x.varOffset, inCompiled⟩,
      ⟨argEvents x.range.dynamicBounds, .none, inCompiled⟩]
  | .call x => [⟨argEvents (callArgs x), .none, inCompiled⟩]
  | .tb method => [⟨argEvents (tbArgs method), .none, inCompiled⟩]
  | .compiled _ => []

mutual

def stmtEntries (inCompiled : Bool) : ProtoStatement → List Entry
  | .assign x => visitEntries inCompiled (.assign x)
  | .assignDynamic x => visitEntries inCompiled (.assignDynamic x)
  | .ifStmt cond t f =>
    ⟨argEvents cond.toList, .none, inCompiled⟩ ::
      (bodyEntries inCompiled t ++ bodyEntries inCompiled f)
  | .caseStmt arms default => armEntries inCompiled arms ++ bodyEntries inCompiled default
  | .forStmt x body => visitEntries inCompiled (.loop x) ++ bodyEntries inCompiled body
  | .sequentialBlock body => bodyEntries inCompiled body
  | .systemFunctionCall x => visitEntries inCompiled (.call x)
  | .compiledBlock _ stmts => bodyEntries true stmts
  | .tbMethodCall _ method => visitEntries inCompiled (.tb method)
  | .breakStmt => []
termination_by structural s => s

def bodyEntries (inCompiled : Bool) : List ProtoStatement → List Entry
  | [] => []
  | s :: body => stmtEntries inCompiled s ++ bodyEntries inCompiled body
termination_by structural body => body

def armEntries (inCompiled : Bool) : List (ProtoExpression × List ProtoStatement) → List Entry
  | [] => []
  | (cond, body) :: arms =>
    ⟨exprEvents cond, .none, inCompiled⟩ ::
      (bodyEntries inCompiled body ++ armEntries inCompiled arms)
termination_by structural arms => arms

end

/-- The entries of a program. -/
def entries (slices : List (List ProtoStatement)) : List Entry :=
  slices.flatMap (bodyEntries false)

def Census.addEvent (c : Census) : Event → Census
  | .read o => c.addRead o
  | .range r => c.addRange r

def Census.addWrite (c : Census) (r₀ g₀ : ℕ) (inCompiled : Bool) : Write → Census
  | .none => c
  | .partialWrite o => c.addPartialWrite o
  | .full o =>
    { addFullWrite { c with inCompiled := inCompiled } o r₀ g₀ with
      inCompiled := c.inCompiled }

def Census.addEntry (c : Census) (e : Entry) : Census :=
  (e.events.foldl addEvent c).addWrite c.reads.length c.ranges.length e.inCompiled e.write

theorem walkSelectReads_eq {ds : Option ProtoDynamicBitSelect}
    (h : ∀ d ∈ ds, ∀ c, walkExprReads d.2 c = (exprEvents d.2).foldl Census.addEvent c)
    (c : Census) : walkSelectReads ds c = (selectEvents ds).foldl Census.addEvent c := by
  cases ds with
  | none => rfl
  | some d => exact h d rfl c

theorem walkExprReads_eq (e : ProtoExpression) (c : Census) :
    walkExprReads e c = (exprEvents e).foldl Census.addEvent c := by
  induction e generalizing c with
  | concatenation es w ctx ih =>
    show walkElementReads es c = (elementEvents es).foldl Census.addEvent c
    induction es generalizing c with
    | nil => rfl
    | cons e es ihes =>
      rw [walkElementReads, elementEvents, foldl_append, ih e (by simp)]
      exact ihes (fun e' he' => ih e' (by simp [he'])) _
  | var o sel ds w full ctx ih =>
    rw [walkExprReads, exprEvents, foldl_cons, walkSelectReads_eq ih]
    rfl
  | dynamicVariable o stride nb i n sel ds w ctx ih ihs =>
    rw [walkExprReads, exprEvents, foldl_cons, foldl_append, ih, walkSelectReads_eq ihs]
    rfl
  | _ => simp_all [walkExprReads, exprEvents, foldl_append]

theorem walkArgs_eq (args : List ProtoExpression) (c : Census) :
    walkArgs args c = (argEvents args).foldl Census.addEvent c := by
  induction args generalizing c with
  | nil => rfl
  | cons e args ih =>
    rw [walkArgs, foldl_cons, walkExprReads_eq]
    simpa [walkArgs, argEvents, foldl_append] using ih _

/-!
The flag for compiled blocks is part of each entry.
-/

def Census.setCompiled (c : Census) (b : Bool) : Census := { c with inCompiled := b }

theorem addEvent_setCompiled (c : Census) (b : Bool) (ev : Event) :
    (c.setCompiled b).addEvent ev = (c.addEvent ev).setCompiled b := by
  cases ev <;> rfl

theorem foldl_addEvent_setCompiled (evs : List Event) (c : Census) (b : Bool) :
    evs.foldl Census.addEvent (c.setCompiled b) = (evs.foldl Census.addEvent c).setCompiled b := by
  induction evs generalizing c with
  | nil => rfl
  | cons ev evs ih => rw [foldl_cons, addEvent_setCompiled, ih]; rfl

theorem foldl_addEvent_inCompiled (evs : List Event) (c : Census) :
    (evs.foldl Census.addEvent c).inCompiled = c.inCompiled := by
  simpa [setCompiled] using
    congrArg Census.inCompiled (foldl_addEvent_setCompiled evs c c.inCompiled)

theorem addWrite_setCompiled (c : Census) (b : Bool) (r₀ g₀ : ℕ) (inCompiled : Bool) (w : Write) :
    (c.setCompiled b).addWrite r₀ g₀ inCompiled w =
      (c.addWrite r₀ g₀ inCompiled w).setCompiled b := by
  cases w <;> rfl

theorem addEntry_setCompiled (c : Census) (b : Bool) (e : Entry) :
    (c.setCompiled b).addEntry e = (c.addEntry e).setCompiled b := by
  simp only [addEntry, foldl_addEvent_setCompiled, addWrite_setCompiled]
  rfl

theorem foldl_addEntry_setCompiled (es : List Entry) (c : Census) (b : Bool) :
    es.foldl addEntry (c.setCompiled b) = (es.foldl addEntry c).setCompiled b := by
  induction es generalizing c with
  | nil => rfl
  | cons e es ih => rw [foldl_cons, addEntry_setCompiled, ih]; rfl

theorem foldl_addEntry_inCompiled (es : List Entry) (c : Census) :
    (es.foldl addEntry c).inCompiled = c.inCompiled := by
  simpa [setCompiled] using
    congrArg Census.inCompiled (foldl_addEntry_setCompiled es c c.inCompiled)

theorem walkAssign_eq (x : ProtoAssignStatement) (c : Census) :
    walkAssign x c = (visitEntries c.inCompiled (.assign x)).foldl addEntry c := by
  have hreads : walkSelectReads x.dynamicSelect (walkExprReads x.expr c) =
      (exprEvents x.expr ++ selectEvents x.dynamicSelect).foldl Census.addEvent c := by
    rw [walkExprReads_eq, walkSelectReads_eq fun d _ => walkExprReads_eq d.2, foldl_append]
  have hcompiled := foldl_addEvent_inCompiled (exprEvents x.expr ++ selectEvents x.dynamicSelect) c
  have hfull : (x.select.isSome ∨ x.dynamicSelect.isSome ∨ x.rhsSelect.isSome) ↔
      fullWidth x = false := by
    unfold fullWidth
    cases x.select <;> cases x.dynamicSelect <;> cases x.rhsSelect <;> simp
  simp only [walkAssign, hreads, visitEntries, foldl_cons, foldl_nil, addEntry]
  cases h : fullWidth x with
  | true =>
    rw [if_neg (by simp [hfull, h]), ← hcompiled]
    rfl
  | false =>
    rw [if_pos (hfull.2 h)]
    rfl

theorem walkAssignDynamic_eq (x : ProtoAssignDynamicStatement) (c : Census) :
    walkAssignDynamic x c = (visitEntries c.inCompiled (.assignDynamic x)).foldl addEntry c := by
  simp [walkAssignDynamic, visitEntries, addEntry, addWrite, Census.addEvent,
    walkExprReads_eq, walkSelectReads_eq fun d _ => walkExprReads_eq d.2]

theorem addEntry_args (args : List ProtoExpression) (inCompiled : Bool) (c : Census) :
    c.addEntry ⟨argEvents args, .none, inCompiled⟩ = walkArgs args c := by
  rw [walkArgs_eq]
  rfl

theorem walkStmts_eq_of (h : ∀ s ∈ body, ∀ c, walkStmtLiveness s c =
      (stmtEntries c.inCompiled s).foldl addEntry c) (c : Census) :
    walkStmts body c = (bodyEntries c.inCompiled body).foldl addEntry c := by
  induction body generalizing c with
  | nil => rfl
  | cons s body ih =>
    rw [walkStmts, bodyEntries, foldl_append, h s (by simp),
      ih (fun s' hs' => h s' (by simp [hs'])), foldl_addEntry_inCompiled]

theorem walkStmtLiveness_eq (s : ProtoStatement) (c : Census) :
    walkStmtLiveness s c = (stmtEntries c.inCompiled s).foldl addEntry c := by
  induction s generalizing c with
  | assign x => exact walkAssign_eq x c
  | assignDynamic x => exact walkAssignDynamic_eq x c
  | ifStmt cond t f iht ihf =>
    have hcond : (walkArgs cond.toList c).inCompiled = c.inCompiled := by
      rw [walkArgs_eq, foldl_addEvent_inCompiled]
    rw [walkStmtLiveness, stmtEntries, foldl_cons, foldl_append, addEntry_args,
      walkStmts_eq_of ihf, walkStmts_eq_of iht, foldl_addEntry_inCompiled, hcond]
  | caseStmt arms d iha ihd =>
    have harms : ∀ c, walkArms arms c = (armEntries c.inCompiled arms).foldl addEntry c := by
      intro c
      induction arms generalizing c with
      | nil => rfl
      | cons a arms ih =>
        have hcond : (walkExprReads a.1 c).inCompiled = c.inCompiled := by
          rw [walkExprReads_eq, foldl_addEvent_inCompiled]
        have hentry : c.addEntry ⟨exprEvents a.1, .none, c.inCompiled⟩ = walkExprReads a.1 c := by
          rw [walkExprReads_eq]
          rfl
        rw [walkArms, armEntries, foldl_cons, foldl_append, hentry,
          walkStmts_eq_of (iha a (by simp)), hcond,
          ih fun a' ha' => iha a' (by simp [ha']), foldl_addEntry_inCompiled, hcond]
    rw [walkStmtLiveness, stmtEntries, foldl_append, walkStmts_eq_of ihd, harms,
      foldl_addEntry_inCompiled]
  | forStmt x body ih =>
    rw [walkStmtLiveness, stmtEntries, foldl_append, walkStmts_eq_of ih]
    have hrange : (walkForRange x.range (c.addPartialWrite x.varOffset)) =
        (visitEntries c.inCompiled (.loop x)).foldl addEntry c := by
      simp only [visitEntries, foldl_cons, foldl_nil, addEntry_args]
      rfl
    rw [hrange, foldl_addEntry_inCompiled]
  | breakStmt => rfl
  | systemFunctionCall x => exact (addEntry_args (callArgs x) c.inCompiled c).symm
  | compiledBlock x stmts ih =>
    rw [walkStmtLiveness, stmtEntries, walkStmts_eq_of ih]
    have := foldl_addEntry_setCompiled (bodyEntries true stmts) c true
    simp only [setCompiled] at this
    rw [this]
    have hback := foldl_addEntry_inCompiled (bodyEntries true stmts) c
    simp only [← hback]
  | sequentialBlock body ih => exact walkStmts_eq_of ih c
  | tbMethodCall inst method => exact (addEntry_args (tbArgs method) c.inCompiled c).symm

theorem walkStmts_eq (body : List ProtoStatement) (c : Census) :
    walkStmts body c = (bodyEntries c.inCompiled body).foldl addEntry c :=
  walkStmts_eq_of (fun s _ => walkStmtLiveness_eq s) c

theorem census_eq (slices : List (List ProtoStatement)) :
    census trace slices = (entries slices).foldl addEntry { trace := trace } := by
  have h : ∀ c : Census, c.inCompiled = false → slices.foldl (fun c slice => walkStmts slice c) c =
        (entries slices).foldl addEntry c := by
    intro c hc
    induction slices generalizing c with
    | nil => rfl
    | cons slice slices ih =>
      have hslice : walkStmts slice c = (bodyEntries false slice).foldl addEntry c := by
        rw [walkStmts_eq, hc]
      rw [foldl_cons, hslice, ih _ (by rw [foldl_addEntry_inCompiled, hc]), ← foldl_append]
      rfl
  exact h _ rfl

/-- The liveness of an offset, counted over the entries. -/
def liveOf (es : List Entry) (o : VarOffset) : Liveness where
  fullWrites := es.countP (·.write = .full o)
  partialWrites := es.countP (·.write = .partialWrite o)
  reads := (es.flatMap Entry.reads).count o

/-- Where the entries that `o` owns were recorded, when the first one starts at
the given positions. -/
def spansOf (o : VarOffset) : ℕ → ℕ → List Entry → List Span
  | _, _, [] => []
  | r, g, e :: es =>
    (if e.owner = some o then [⟨r, r + e.reads.length, g, g + e.ranges.length⟩] else []) ++
      spansOf o (r + e.reads.length) (g + e.ranges.length) es

theorem spansOf_append (o : VarOffset) (r g : ℕ) (es es' : List Entry) :
    spansOf o r g (es ++ es') = spansOf o r g es ++
      spansOf o (r + (es.flatMap Entry.reads).length) (g + (es.flatMap Entry.ranges).length)
        es' := by
  induction es generalizing r g with
  | nil => simp [spansOf]
  | cons e es ih => simp [spansOf, ih, Nat.add_assoc]

/-- `c` has counted the entries `es`. -/
structure Counts (c : Census) (es : List Entry) : Prop where
  live : ∀ o, c.live o = liveOf es o
  ranges : c.ranges = es.flatMap Entry.ranges
  reads : c.trace = true → c.reads = es.flatMap Entry.reads
  droppable : c.trace = true → ∀ o, c.droppable o = spansOf o 0 0 es
  keys : ∀ o, o ∉ c.keys → c.live o = {}

/-- What the reads of one entry add. -/
structure Reads (c c' : Census) (evs : List Event) : Prop where
  live : ∀ o, c'.live o =
    { c.live o with reads := (c.live o).reads + (eventReads evs).count o }
  ranges : c'.ranges = c.ranges ++ eventRanges evs
  reads : c.trace = true → c'.reads = c.reads ++ eventReads evs
  trace : c'.trace = c.trace
  droppable : c'.droppable = c.droppable
  keys : (∀ o, o ∉ c.keys → c.live o = {}) → ∀ o, o ∉ c'.keys → c'.live o = {}

theorem mem_keys_updateLive (c : Census) (o : VarOffset) (f : Liveness → Liveness)
    (o' : VarOffset) :
    o' ∈ (c.updateLive o f).keys ↔ o' = o ∨ o' ∈ c.keys := by
  by_cases h : o ∈ c.keys <;> simp [updateLive, h, or_comm]
  rintro rfl
  exact h

theorem keys_updateLive {f : Liveness → Liveness} (h : ∀ o, o ∉ c.keys → c.live o = {}) :
    ∀ o', o' ∉ (c.updateLive o f).keys → (c.updateLive o f).live o' = {} := by
  intro o' ho'
  rw [mem_keys_updateLive, not_or] at ho'
  simp [updateLive, update_of_ne ho'.1, h o' ho'.2]

theorem reads_foldl (c : Census) (evs : List Event) :
    Reads c (evs.foldl Census.addEvent c) evs := by
  induction evs generalizing c with
  | nil => exact ⟨fun o => by simp, by simp, by simp, rfl, rfl, fun h => h⟩
  | cons ev evs ih =>
    have h := ih (c.addEvent ev)
    rw [foldl_cons]
    cases ev with
    | range r =>
      refine ⟨h.live, ?_, h.reads, h.trace, h.droppable, h.keys⟩
      rw [h.ranges]
      simp [Census.addEvent, addRange]
    | read o =>
      refine ⟨fun o' => ?_, h.ranges, fun ht => ?_, h.trace, h.droppable,
        fun hc => h.keys fun o' => keys_updateLive (o := o)
          (f := fun l => { l with reads := l.reads + 1 }) hc o'⟩
      · rw [h.live]
        by_cases ho : o' = o
        · subst ho
          simp only [Census.addEvent, addRead, updateLive, update_self,
            eventReads_read, count_cons_self]
          congr 1
          omega
        · simp [Census.addEvent, addRead, updateLive,
            update_of_ne ho, count_cons_of_ne (Ne.symm ho)]
      · rw [h.reads ht]
        simp [Census.addEvent, addRead, updateLive, ht]

theorem droppable_addWrite_full (c : Census) (r₀ g₀ : ℕ) (inCompiled : Bool) (o : VarOffset) :
    (c.addWrite r₀ g₀ inCompiled (.full o)).droppable =
      if c.trace && !inCompiled then
        Function.update c.droppable o (c.droppable o ++ [⟨r₀, c.reads.length, g₀, c.ranges.length⟩])
      else c.droppable := rfl

theorem counts_addEntry (h : Counts c es) (e : Entry) : Counts (c.addEntry e) (es ++ [e]) := by
  have hr := reads_foldl c e.events
  have hkeys := hr.keys h.keys
  generalize hc' : e.events.foldl Census.addEvent c = c' at hr hkeys
  have hentry : c.addEntry e = c'.addWrite c.reads.length c.ranges.length e.inCompiled e.write := by
    rw [addEntry, hc']
  have hlive : ∀ o, c'.live o = { liveOf es o with
      reads := ((es ++ [e]).flatMap Entry.reads).count o } := by
    simp [hr.live, h.live, liveOf, Entry.reads]
  have hranges : c'.ranges = (es ++ [e]).flatMap Entry.ranges := by
    simp [hr.ranges, h.ranges, Entry.ranges]
  have hreads : c'.trace = true → c'.reads = (es ++ [e]).flatMap Entry.reads := by
    intro ht
    rw [hr.trace] at ht
    simp [hr.reads ht, h.reads ht, Entry.reads]
  have hdrop : c'.trace = true → ∀ o, e.owner ≠ some o →
      c'.droppable o = spansOf o 0 0 (es ++ [e]) := by
    intro ht o ho
    rw [hr.trace] at ht
    simp [hr.droppable, h.droppable ht, spansOf_append, spansOf, ho]
  rw [hentry]
  cases hw : e.write with
  | none =>
    refine ⟨fun o => ?_, hranges, hreads, fun ht o => hdrop ht o (by simp [Entry.owner, hw]), hkeys⟩
    simp [addWrite, hlive, liveOf, hw]
  | partialWrite o =>
    refine ⟨fun o' => ?_, hranges, hreads, fun ht o => hdrop ht o (by simp [Entry.owner, hw]),
      fun o' => keys_updateLive (o := o)
        (f := fun l => { l with partialWrites := l.partialWrites + 1 }) hkeys o'⟩
    by_cases ho : o' = o
    · subst ho
      simp [addWrite, addPartialWrite, updateLive, hlive, liveOf, hw]
    · simp [addWrite, addPartialWrite, updateLive, hlive, liveOf, hw, update_of_ne ho, Ne.symm ho]
  | full o =>
    refine ⟨fun o' => ?_, hranges, hreads, fun ht o' => ?_, fun o' => keys_updateLive (o := o)
        (f := fun l => { l with fullWrites := l.fullWrites + 1 }) hkeys o'⟩
    · by_cases ho : o' = o
      · subst ho
        simp [addWrite, addFullWrite, updateLive, hlive, liveOf, hw]
      · simp [addWrite, addFullWrite, updateLive, hlive, liveOf, hw, update_of_ne ho, Ne.symm ho]
    · have ht' : c'.trace = true := ht
      rw [droppable_addWrite_full]
      by_cases ho : e.owner = some o'
      · have hnot : e.inCompiled = false ∧ o = o' := by
          cases hcomp : e.inCompiled <;> simp_all [Entry.owner]
        obtain ⟨hnot, rfl⟩ := hnot
        rw [if_pos (by simp [ht', hnot]), update_self]
        rw [hr.trace] at ht'
        rw [hr.droppable, hr.ranges, hr.reads ht', h.droppable ht', h.ranges, h.reads ht',
          spansOf_append]
        simp [spansOf, ho, Entry.reads, Entry.ranges]
      · rw [← hdrop ht o' ho]
        split
        · have hne : o' ≠ o := by
            rintro rfl
            exact ho (by simp_all [Entry.owner])
          rw [update_of_ne hne]
        · rfl

theorem counts_census (slices : List (List ProtoStatement)) :
    Counts (census trace slices) (entries slices) := by
  have h : ∀ (es pre : List Entry) (c : Census), Counts c pre →
      Counts (es.foldl addEntry c) (pre ++ es) := by
    intro es
    induction es with
    | nil => intro pre c hc; simpa using hc
    | cons e es ih =>
      intro pre c hc
      have := ih _ _ (counts_addEntry hc e)
      rwa [append_assoc] at this
  rw [census_eq]
  refine h (entries slices) [] _ ⟨fun o => ?_, rfl, fun _ => rfl, fun _ _ => rfl, fun _ _ => rfl⟩
  simp [liveOf]

/-- The entries left when the writes of `dead` are dropped. -/
def left (dead : List VarOffset) (es : List Entry) : List Entry :=
  es.filter fun e => e.owner.all fun o => !dead.contains o

@[simp] theorem left_nil (dead : List VarOffset) : left dead [] = [] := rfl

theorem left_empty (es : List Entry) : left [] es = es :=
  filter_eq_self.2 fun e _ => by cases e.owner <;> simp

@[simp] theorem left_append (dead : List VarOffset) (es es' : List Entry) :
    left dead (es ++ es') = left dead es ++ left dead es' := filter_append ..

/-- Reads that are made for no write stay. -/
@[simp] theorem left_reader (dead : List VarOffset) (evs : List Event) (inCompiled : Bool)
    (es : List Entry) :
    left dead (⟨evs, .none, inCompiled⟩ :: es) = ⟨evs, .none, inCompiled⟩ :: left dead es := by
  simp [left, Entry.owner]

theorem mem_left : e ∈ left dead es ↔ e ∈ es ∧ ∀ o ∈ e.owner, o ∉ dead := by
  cases h : e.owner <;> simp [left, h]

/-- Entries nothing owns stay. -/
theorem left_eq_self (h : ∀ e ∈ es, e.owner = none) : left dead es = es := by
  rw [left, filter_eq_self]
  intro e he
  simp [h e he]

theorem owner_of_inCompiled (h : e.inCompiled = true) : e.owner = none := by
  cases hw : e.write <;> simp [Entry.owner, hw, h]

theorem visitEntries_compiled (v : Visit) : ∀ e ∈ visitEntries true v, e.inCompiled = true := by
  cases v <;> simp [visitEntries]

theorem bodyEntries_eq (body : List ProtoStatement) :
    bodyEntries inCompiled body = body.flatMap (stmtEntries inCompiled) := by
  induction body with
  | nil => rfl
  | cons s body ih => simp [bodyEntries, ih]

theorem armEntries_eq (arms : List (ProtoExpression × List ProtoStatement)) :
    armEntries inCompiled arms = arms.flatMap fun a =>
      ⟨exprEvents a.1, .none, inCompiled⟩ :: bodyEntries inCompiled a.2 := by
  induction arms with
  | nil => rfl
  | cons a arms ih => simp [armEntries, ih]

theorem stmtEntries_compiled (s : ProtoStatement) :
    ∀ e ∈ stmtEntries true s, e.inCompiled = true := by
  have body_of : ∀ {body : List ProtoStatement},
      (∀ s ∈ body, ∀ e ∈ stmtEntries true s, e.inCompiled = true) →
      ∀ e ∈ bodyEntries true body, e.inCompiled = true := by
    intro body h e he
    rw [bodyEntries_eq, mem_flatMap] at he
    obtain ⟨s, hs, he⟩ := he
    exact h s hs e he
  induction s with
  | ifStmt c t f iht ihf =>
    simp only [stmtEntries, mem_cons, mem_append]
    rintro e (rfl | he | he)
    · rfl
    · exact body_of iht e he
    · exact body_of ihf e he
  | caseStmt arms d iha ihd =>
    simp only [stmtEntries, mem_append, armEntries_eq, mem_flatMap, mem_cons]
    rintro e (⟨a, ha, rfl | he⟩ | he)
    · rfl
    · exact body_of (iha a ha) e he
    · exact body_of ihd e he
  | forStmt x body ih =>
    simp only [stmtEntries, mem_append]
    rintro e (he | he)
    · exact visitEntries_compiled _ e he
    · exact body_of ih e he
  | breakStmt => simp [stmtEntries]
  | compiledBlock x stmts ih => exact body_of ih
  | sequentialBlock body ih => exact body_of ih
  | assign x => exact visitEntries_compiled (.assign x)
  | assignDynamic x => exact visitEntries_compiled (.assignDynamic x)
  | systemFunctionCall x => exact visitEntries_compiled (.call x)
  | tbMethodCall inst method => exact visitEntries_compiled (.tb method)

theorem owner_bodyEntries_compiled (body : List ProtoStatement) :
    ∀ e ∈ bodyEntries true body, e.owner = none := by
  intro e he
  rw [bodyEntries_eq, mem_flatMap] at he
  obtain ⟨s, _, he⟩ := he
  exact owner_of_inCompiled (stmtEntries_compiled s e he)

/-- Dropping removes the entries the dead offsets own, and counts them. -/
structure Drops (dead : List VarOffset) (es rest : List Entry) (dropped : ℕ) : Prop where
  eq_left : rest = left dead es
  count : es.length = rest.length + dropped

theorem Drops.append {es' rest rest' : List Entry} {n n' : ℕ}
    (h : Drops dead es rest n) (h' : Drops dead es' rest' n') :
    Drops dead (es ++ es') (rest ++ rest') (n + n') :=
  ⟨by rw [h.eq_left, h'.eq_left, left_append],
    by simp only [length_append, h.count, h'.count]; omega⟩

/-- Nothing is dropped of entries nothing owns. -/
theorem Drops.unowned (dead : List VarOffset) (es : List Entry) (h : ∀ e ∈ es, e.owner = none) :
    Drops dead es es 0 :=
  ⟨(left_eq_self h).symm, rfl⟩

theorem drops_body_of (h : ∀ s ∈ body, Drops dead (stmtEntries false s)
      (bodyEntries false (applyStmt dead s).1.toList) (applyStmt dead s).2) :
    Drops dead (bodyEntries false body) (bodyEntries false (applyBody dead body).1)
      (applyBody dead body).2 := by
  induction body with
  | nil => exact .unowned _ _ (by simp [bodyEntries])
  | cons s body ih =>
    have := (h s (by simp)).append (ih fun s' hs' => h s' (by simp [hs']))
    simpa [bodyEntries, applyBody, bodyEntries_eq] using this

theorem drops_stmt (dead : List VarOffset) (s : ProtoStatement) :
    Drops dead (stmtEntries false s) (bodyEntries false (applyStmt dead s).1.toList)
      (applyStmt dead s).2 := by
  induction s with
  | assign x =>
    by_cases h : dropped dead x = true
    · have hfull : fullWidth x = true ∧ x.dst ∈ dead := by simpa [dropped, fullWidth] using h
      simp only [applyStmt, h, if_true]
      refine ⟨?_, rfl⟩
      simp [stmtEntries, visitEntries, left, Entry.owner, hfull, bodyEntries]
    · have hleft : left dead (stmtEntries false (.assign x)) = stmtEntries false (.assign x) := by
        refine filter_eq_self.2 ?_
        cases hf : fullWidth x with
        | false => simp [stmtEntries, visitEntries, Entry.owner, hf]
        | true =>
          have hdst : x.dst ∉ dead := by
            intro hmem
            refine h ?_
            have : dropped dead x = (fullWidth x && dead.contains x.dst) := rfl
            simp [this, hf, hmem]
          simp [stmtEntries, visitEntries, Entry.owner, hf, hdst]
      have hbody : bodyEntries false (applyStmt dead (.assign x)).1.toList =
          stmtEntries false (.assign x) := by
        simp [applyStmt, h, bodyEntries]
      exact ⟨hbody.trans hleft.symm, by rw [hbody]; simp [applyStmt, h]⟩
  | ifStmt c t f iht ihf =>
    have := (Drops.unowned dead [⟨argEvents c.toList, .none, false⟩]
      (by simp [Entry.owner])).append ((drops_body_of iht).append (drops_body_of ihf))
    simpa [applyStmt, stmtEntries, bodyEntries] using this
  | caseStmt arms d iha ihd =>
    have harms : Drops dead (armEntries false arms) (armEntries false (applyArms dead arms).1)
        (applyArms dead arms).2 := by
      induction arms with
      | nil => exact .unowned _ _ (by simp [armEntries])
      | cons a arms ih =>
        have hbody := drops_body_of (iha a (by simp))
        have := (Drops.unowned dead [⟨exprEvents a.1, .none, false⟩] (by simp [Entry.owner])).append
            (hbody.append (ih fun a' ha' => iha a' (by simp [ha'])))
        simpa [armEntries, applyArms] using this
    simpa [applyStmt, stmtEntries, bodyEntries] using harms.append (drops_body_of ihd)
  | forStmt x body ih =>
    have := (Drops.unowned dead (visitEntries false (.loop x))
      (by simp [visitEntries, Entry.owner])).append (drops_body_of ih)
    simpa [applyStmt, stmtEntries, bodyEntries] using this
  | sequentialBlock body ih => simpa [applyStmt, stmtEntries, bodyEntries] using drops_body_of ih
  | compiledBlock x stmts ih =>
    have := Drops.unowned dead _ (owner_bodyEntries_compiled stmts)
    simpa [applyStmt, stmtEntries, bodyEntries] using this
  | _ =>
    refine .unowned _ _ ?_
    simp [stmtEntries, visitEntries, Entry.owner]

theorem drops_applyCounting (dead : List VarOffset) (body : List ProtoStatement) :
    Drops dead (bodyEntries false body) (bodyEntries false (applyCounting body dead).1)
      (applyCounting body dead).2 := by
  cases dead with
  | nil => exact ⟨by simp [applyCounting, left], rfl⟩
  | cons o dead => exact drops_body_of fun s _ => drops_stmt _ s

theorem drops_applySlices (dead : List VarOffset) (slices : List (List ProtoStatement)) :
    Drops dead (entries slices) (entries (applySlices slices dead).1)
      (applySlices slices dead).2 := by
  induction slices with
  | nil => exact .unowned _ _ (by simp [entries])
  | cons slice slices ih =>
    simpa [entries, applySlices] using (drops_applyCounting dead slice).append ih

section Fixpoint

variable (protect : List VarOffset) (es : List Entry)

/-- Some entry that is not dropped with `D` reads `o`. -/
def ReadOutside (D : Set VarOffset) (o : VarOffset) : Prop :=
  ∃ e ∈ es, (∀ w ∈ e.owner, w ∉ D) ∧ (o ∈ e.reads ∨ ∃ r ∈ e.ranges, r.contains o)

/-- An offset the pass may eliminate once nothing reads it. -/
def Candidate (o : VarOffset) : Prop :=
  o.isFf = false ∧ o ∉ protect ∧ (∃ e ∈ es, e.write = .full o) ∧
    ∀ e ∈ es, e.write ≠ .partialWrite o

/-- What becomes dead once `D` is dropped. -/
def unreadStep : Set VarOffset →o Set VarOffset where
  toFun D := {o | Candidate protect es o ∧ ¬ ReadOutside es D o}
  monotone' := by
    rintro D D' hD o ⟨hc, hr⟩
    refine ⟨hc, fun ⟨e, he, hw, hread⟩ => hr ⟨e, he, fun w hwe hwD => hw w hwe (hD hwD), hread⟩⟩

/-- The offsets that are dead in the long run. -/
def deadSet : Set VarOffset := (unreadStep protect es).lfp

variable {protect es}

theorem mem_deadSet : o ∈ deadSet protect es ↔
      Candidate protect es o ∧ ¬ ReadOutside es (deadSet protect es) o := by
  conv_lhs => rw [deadSet, ← (unreadStep protect es).map_lfp]
  exact Iff.rfl

theorem mem_deadSet_of_step (hD : D ⊆ deadSet protect es)
    (hc : Candidate protect es o) (hr : ¬ ReadOutside es D o) : o ∈ deadSet protect es := by
  have : o ∈ unreadStep protect es (deadSet protect es) :=
    (unreadStep protect es).monotone hD ⟨hc, hr⟩
  rwa [deadSet, (unreadStep protect es).map_lfp] at this

theorem deadSet_subset (h : ∀ o, Candidate protect es o → ¬ ReadOutside es D o → o ∈ D) :
    deadSet protect es ⊆ D :=
  (unreadStep protect es).lfp_le fun _ ⟨hc, hr⟩ => h _ hc hr

end Fixpoint

theorem not_readOutside_iff : ¬ ReadOutside es {w | w ∈ dead} o ↔
      (liveOf (left dead es) o).reads = 0 ∧
        ∀ r ∈ (left dead es).flatMap Entry.ranges, r.contains o = false := by
  simp only [ReadOutside, liveOf, count_eq_zero, mem_flatMap, mem_left, not_exists,
    not_and, not_or, Set.mem_ofPred_eq]
  constructor
  · intro h
    refine ⟨fun e he => (h e he.1 he.2).1, fun r ⟨e, he, hr⟩ => ?_⟩
    simpa using (h e he.1 he.2).2 r hr
  · rintro ⟨h, h'⟩ e he hw
    exact ⟨h e ⟨he, hw⟩, fun r hr => by simp [h' r ⟨e, ⟨he, hw⟩, hr⟩]⟩

theorem candidate_iff :
    Candidate protect es o ↔ o.isFf = false ∧ o ∉ protect ∧ (liveOf es o).fullWrites ≠ 0 ∧
      (liveOf es o).partialWrites = 0 := by
  simp [Candidate, liveOf, countP_eq_zero]

section Rounds

variable {protect : List VarOffset} {es : List Entry}

theorem left_left (dead dead' : List VarOffset) (es : List Entry) :
    left dead' (left dead es) = left (dead ++ dead') es := by
  rw [left, left, left, filter_filter]
  congr 1
  funext e
  cases e.owner <;> simp [Bool.and_comm]

theorem partialWrites_left (dead : List VarOffset) (es : List Entry) (o : VarOffset) :
    (liveOf (left dead es) o).partialWrites = (liveOf es o).partialWrites := by
  simp only [liveOf, left, countP_filter]
  congr 1
  funext e
  by_cases h : e.write = .partialWrite o <;> simp [h, Entry.owner]

theorem fullWrites_left (ho : o ∉ dead)
    (h : (liveOf es o).fullWrites ≠ 0) : (liveOf (left dead es) o).fullWrites ≠ 0 := by
  simp only [liveOf, ne_eq, countP_eq_zero, not_forall, mem_left] at h ⊢
  obtain ⟨e, he, hw⟩ := h
  refine ⟨e, ⟨he, fun w hwe => ?_⟩, hw⟩
  cases hc : e.inCompiled <;> simp_all [Entry.owner]

theorem fullWrites_of_left
    (h : (liveOf (left dead es) o).fullWrites ≠ 0) : (liveOf es o).fullWrites ≠ 0 := by
  simp only [liveOf, ne_eq, countP_eq_zero, not_forall, mem_left] at h ⊢
  obtain ⟨e, he, hw⟩ := h
  exact ⟨e, he.1, hw⟩

theorem mem_round (hs : entries slices = left dead es) :
    o ∈ (collectDeadOffsets true slices).filter (fun off => !protect.contains off) ↔
      Candidate protect es o ∧ ¬ ReadOutside es {w | w ∈ dead} o ∧
        (liveOf (left dead es) o).fullWrites ≠ 0 := by
  have hc := counts_census false slices
  rw [hs] at hc
  have hkeys : (liveOf (left dead es) o).fullWrites ≠ 0 → o ∈ (census false slices).keys := by
    intro h
    by_contra hk
    have := hc.keys o hk
    rw [hc.live] at this
    simp [this] at h
  have hinherited : (liveOf (left dead es) o).inheritedWrites = 0 := rfl
  simp only [collectDeadOffsets, Bool.not_true, Bool.false_eq_true, if_false, mem_filter,
    hc.live, hc.ranges, not_readOutside_iff, candidate_iff, partialWrites_left, hinherited,
    Bool.and_eq_true, beq_iff_eq, bne_iff_ne, Bool.not_eq_true', any_eq_false,
    contains_eq_mem, decide_eq_false_iff_not]
  constructor
  · rintro ⟨⟨-, ⟨⟨⟨⟨hff, hreads⟩, hpartial⟩, -⟩, hfull⟩, hranges⟩, hprotect⟩
    refine ⟨⟨hff, hprotect, fullWrites_of_left hfull, hpartial⟩, ⟨hreads, fun r hr => ?_⟩, hfull⟩
    simpa using hranges r hr
  · rintro ⟨⟨hff, hprotect, -, hpartial⟩, ⟨hreads, hranges⟩, hfull⟩
    exact ⟨⟨hkeys hfull, ⟨⟨⟨⟨hff, hreads⟩, hpartial⟩, trivial⟩, hfull⟩,
      fun r hr => by simp [hranges r hr]⟩, hprotect⟩

theorem byRounds_eq {rounds : ℕ}
    (hs : entries slices = left dead es) (hdead : ∀ o ∈ dead, o ∈ deadSet protect es)
    (hrounds : (entries slices).length < rounds) :
    ∃ union, byRounds true protect rounds slices dead = some union ∧
      ∀ o, o ∈ union ↔ o ∈ deadSet protect es := by
  induction rounds generalizing slices dead with
  | zero => omega
  | succ rounds ih =>
    rw [byRounds]
    generalize hr : (collectDeadOffsets true slices).filter
      (fun off => !protect.contains off) = round
    have hmem : ∀ o, o ∈ round ↔ _ := fun o => hr ▸ mem_round hs
    have hround : ∀ o ∈ round, o ∈ deadSet protect es := fun o ho =>
      mem_deadSet_of_step hdead ((hmem o).1 ho).1 ((hmem o).1 ho).2.1
    -- whatever the offsets dropped so far leave unread is among them or found now
    have hclosed : ∀ o, Candidate protect es o → ¬ ReadOutside es {w | w ∈ dead} o →
        o ∈ dead ∨ o ∈ round := by
      intro o hc hread
      by_cases ho : o ∈ dead
      · exact .inl ho
      · exact .inr ((hmem o).2 ⟨hc, hread, fullWrites_left ho (candidate_iff.1 hc).2.2.1⟩)
    by_cases hempty : round.isEmpty = true
    · refine ⟨dead, by simp [hempty], fun o => ⟨hdead o, fun ho => ?_⟩⟩
      refine deadSet_subset (D := {w | w ∈ dead}) (fun o hc hread => ?_) ho
      rcases hclosed o hc hread with h | h
      · exact h
      · simp_all
    · have hdrops := drops_applySlices round slices
      have hrest : entries (applySlices slices round).1 = left (dead ++ round) es := by
        rw [hdrops.eq_left, hs, left_left]
      have hall : ∀ o ∈ dead ++ round, o ∈ deadSet protect es := by
        intro o ho
        rcases mem_append.1 ho with ho | ho
        · exact hdead o ho
        · exact hround o ho
      by_cases hdropped : (applySlices slices round).2 = 0
      · refine ⟨dead ++ round, by simp [hempty, hdropped], fun o => ⟨hall o, fun ho => ?_⟩⟩
        refine deadSet_subset (D := {w | w ∈ dead ++ round}) (fun o hc hread => ?_) ho
        have hsame : left (dead ++ round) es = left dead es := by
          have hlen := hdrops.count
          rw [hrest, hdropped, Nat.add_zero, hs, ← left_left] at hlen
          rw [← left_left]
          exact filter_sublist.eq_of_length hlen.symm
        have hread' : ¬ ReadOutside es {w | w ∈ dead} o := by
          rw [not_readOutside_iff] at hread ⊢
          rwa [hsame] at hread
        exact mem_append.2 (hclosed o hc hread')
      · obtain ⟨union, hu, hspec⟩ := ih hrest hall (by have := hdrops.count; omega)
        exact ⟨union, by simp [hempty, hdropped, hu], hspec⟩

end Rounds

/-! ### The cascade

`done` are the offsets whose writes have been released, `reads` and `ranges`
what of the writes being released is still counted, and `pending` the offsets
that may have become unread without being queued yet. -/

section Cascade

variable {protect : List VarOffset} {es : List Entry}

/-- What is counted of the reads. -/
structure Counted (es : List Entry) (st : Cascade) (done reads : List VarOffset)
    (ranges : List ArrayRange) : Prop where
  live : ∀ o, st.live o =
    { liveOf es o with reads := (liveOf (left done es) o).reads + reads.count o }
  refs : ∀ r, st.refs r = ((left done es).flatMap Entry.ranges).count r + ranges.count r

structure Inv (protect : List VarOffset) (es : List Entry) (st : Cascade) (done : List VarOffset)
    (reads : List VarOffset) (ranges : List ArrayRange) (pending : List VarOffset) : Prop
    extends Counted es st done reads ranges where
  perm : st.dead.Perm (done ++ st.queue)
  nodup : st.dead.Nodup
  sound : ∀ o ∈ st.dead, o ∈ deadSet protect es
  complete : ∀ o, qualifies protect (es.flatMap Entry.ranges) o st.live st.refs = true →
    o ∈ st.dead ∨ o ∈ pending

variable {st : Cascade} {done reads pending : List VarOffset} {ranges : List ArrayRange}

theorem Counted.qualifies_iff (h : Counted es st done reads ranges) :
    qualifies protect (es.flatMap Entry.ranges) o st.live st.refs = true ↔
      Candidate protect es o ∧ (liveOf (left done es) o).reads + reads.count o = 0 ∧
        ∀ r ∈ es.flatMap Entry.ranges,
          ((left done es).flatMap Entry.ranges).count r + ranges.count r ≠ 0 →
            r.contains o = false := by
  have hinherited : (liveOf es o).inheritedWrites = 0 := rfl
  simp only [qualifies, h.live, h.refs, candidate_iff, hinherited, Bool.and_eq_true, beq_iff_eq,
    bne_iff_ne, Bool.not_eq_true', any_eq_false, contains_eq_mem,
    decide_eq_false_iff_not, not_and, Bool.not_eq_true]
  tauto

theorem Counted.mem_deadSet (h : Counted es st done reads ranges)
    (hdone : {w | w ∈ done} ⊆ deadSet protect es)
    (hq : qualifies protect (es.flatMap Entry.ranges) o st.live st.refs = true) :
    o ∈ deadSet protect es := by
  obtain ⟨hc, hreads, hranges⟩ := h.qualifies_iff.1 hq
  refine mem_deadSet_of_step hdone hc (not_readOutside_iff.2 ⟨by omega, fun r hr => ?_⟩)
  refine hranges r ?_ (by have := count_pos_iff.2 hr; omega)
  obtain ⟨e, he, hr⟩ := mem_flatMap.1 hr
  exact mem_flatMap.2 ⟨e, (mem_left.1 he).1, hr⟩

theorem Inv.done_subset (h : Inv protect es st done reads ranges pending) :
    {w | w ∈ done} ⊆ deadSet protect es :=
  fun w hw => h.sound w (h.perm.mem_iff.2 (mem_append_left _ hw))

theorem Inv.enqueue (h : Inv protect es st done reads ranges (o :: pending)) :
    Inv protect es (st.enqueue protect (es.flatMap Entry.ranges) o) done reads ranges pending := by
  unfold Cascade.enqueue
  split
  · rename_i hcond
    simp only [Bool.and_eq_true, Bool.not_eq_true', contains_eq_mem,
      decide_eq_false_iff_not] at hcond
    refine ⟨⟨h.live, h.refs⟩, ?_, nodup_cons.2 ⟨hcond.1, h.nodup⟩, ?_, fun o' ho' => ?_⟩
    · exact (h.perm.cons o).trans perm_middle.symm
    · rintro o' ho'
      rcases mem_cons.1 ho' with rfl | ho'
      · exact h.mem_deadSet h.done_subset hcond.2
      · exact h.sound o' ho'
    · rcases h.complete o' ho' with hd | hp
      · exact .inl (mem_cons_of_mem _ hd)
      · rcases mem_cons.1 hp with rfl | hp
        · exact .inl mem_cons_self
        · exact .inr hp
  · rename_i hcond
    refine ⟨⟨h.live, h.refs⟩, h.perm, h.nodup, h.sound, fun o' ho' => ?_⟩
    rcases h.complete o' ho' with hd | hp
    · exact .inl hd
    · rcases mem_cons.1 hp with rfl | hp
      · refine .inl ?_
        by_contra hd
        exact hcond (by simp [hd, ho'])
      · exact .inr hp

theorem Inv.enqueueAll (h : Inv protect es st done reads ranges pending) :
    Inv protect es (pending.foldl (Cascade.enqueue protect (es.flatMap Entry.ranges)) st) done
      reads ranges [] := by
  induction pending generalizing st with
  | nil => exact h
  | cons o pending ih => exact ih h.enqueue

theorem Inv.releaseRead (h : Inv protect es st done (o :: reads) ranges []) :
    Inv protect es (st.releaseRead protect (es.flatMap Entry.ranges) o) done reads ranges [] := by
  refine Inv.enqueue ⟨⟨fun o' => ?_, h.refs⟩, h.perm, h.nodup, h.sound, fun o' ho' => ?_⟩
  · by_cases ho : o' = o
    · subst ho
      simp [h.live]
    · simp [update_of_ne ho, h.live, count_cons_of_ne (Ne.symm ho)]
  · by_cases ho : o' = o
    · exact .inr (by simp [ho])
    · refine (h.complete o' ?_).imp_right (by simp)
      simpa [qualifies, update_of_ne ho] using ho'

theorem mem_elements (h : r.contains o = true) : o ∈ r.elements := by
  unfold ArrayRange.contains at h
  split at h
  · cases h
  split at h
  · cases h
  simp only at h
  split at h
  · cases h
  split at h
  · cases h
  rename_i hff _ hneg hmod
  simp only [ne_eq, not_not] at hff hmod
  obtain ⟨hnonneg, hlt⟩ : 0 ≤ (o.raw - r.base.raw).tdiv r.stride ∧
      (o.raw - r.base.raw).tdiv r.stride < r.num := by simpa using h
  have hdelta := Int.mul_tdiv_add_tmod (o.raw - r.base.raw) r.stride
  rw [hmod, add_zero] at hdelta
  refine mem_map.2 ⟨((o.raw - r.base.raw).tdiv r.stride).toNat, ?_, ?_⟩
  · rw [mem_range]
    omega
  · rw [Int.toNat_of_nonneg hnonneg, mul_comm, hdelta, VarOffset.ext_iff_raw]
    simp [hff]

theorem Inv.releaseRange (h : Inv protect es st done reads (r :: ranges) []) :
    Inv protect es (st.releaseRange protect (es.flatMap Entry.ranges) r) done reads ranges [] := by
  have hrefs : ∀ r', Function.update st.refs r (st.refs r - 1) r' =
      ((left done es).flatMap Entry.ranges).count r' + ranges.count r' := by
    intro r'
    by_cases hr : r' = r
    · subst hr
      simp only [update_self, h.refs, count_cons_self]
      omega
    · simp [update_of_ne hr, h.refs, count_cons_of_ne (Ne.symm hr)]
  -- only elements of `r` can have become unread, and none while `r` is kept
  have hcomplete : ∀ o, qualifies protect (es.flatMap Entry.ranges) o st.live
      (Function.update st.refs r (st.refs r - 1)) = true → o ∈ st.dead ∨
        st.refs r - 1 = 0 ∧ r.contains o = true := by
    intro o ho
    by_cases hr : st.refs r - 1 = 0 ∧ r.contains o = true
    · exact .inr hr
    left
    have hq : qualifies protect (es.flatMap Entry.ranges) o st.live st.refs = true := by
      simp only [qualifies, Bool.and_eq_true, Bool.not_eq_true', any_eq_false] at ho ⊢
      refine ⟨ho.1, fun r' hr' => ?_⟩
      by_cases hrr : r' = r
      · subst hrr
        have := ho.2 r' hr'
        rcases not_and_or.1 hr with hne | hc
        · simp_all
        · simp [hc]
      · simpa [update_of_ne hrr] using ho.2 r' hr'
    simpa using h.complete o hq
  unfold Cascade.releaseRange
  simp only [update_self]
  split
  · rename_i hne
    refine ⟨⟨h.live, hrefs⟩, h.perm, h.nodup, h.sound, fun o ho => .inl ?_⟩
    rcases hcomplete o ho with hd | ⟨hz, -⟩
    · exact hd
    · exact absurd hz hne
  · refine Inv.enqueueAll ⟨⟨h.live, hrefs⟩, h.perm, h.nodup, h.sound, fun o ho => ?_⟩
    exact (hcomplete o ho).imp_right fun hr => mem_elements hr.2

theorem Inv.releaseSpan {rs : List VarOffset} {gs : List ArrayRange}
    {allReads : List VarOffset} {preG postG : List ArrayRange} {preR postR : List VarOffset}
    (hR : allReads = preR ++ (e.reads ++ postR))
    (hG : es.flatMap Entry.ranges = preG ++ (e.ranges ++ postG))
    (h : Inv protect es st done (e.reads ++ rs) (e.ranges ++ gs) []) :
    Inv protect es (st.releaseSpan protect (es.flatMap Entry.ranges) allReads
      ⟨preR.length, preR.length + e.reads.length, preG.length, preG.length + e.ranges.length⟩)
      done rs gs [] := by
  have hreads : (allReads.take (preR.length + e.reads.length)).drop preR.length = e.reads := by
    simp [hR, take_append]
  have hranges : ((es.flatMap Entry.ranges).take (preG.length + e.ranges.length)).drop
      preG.length = e.ranges := by
    simp [hG, take_append]
  have foldReads : ∀ (l : List VarOffset) (st : Cascade),
      Inv protect es st done (l ++ rs) (e.ranges ++ gs) [] →
      Inv protect es (l.foldl (Cascade.releaseRead protect (es.flatMap Entry.ranges)) st) done rs
        (e.ranges ++ gs) [] := by
    intro l
    induction l with
    | nil => exact fun st h => h
    | cons o l ih => exact fun st h => ih _ (Inv.releaseRead h)
  have foldRanges : ∀ (l : List ArrayRange) (st : Cascade), Inv protect es st done rs (l ++ gs) [] →
      Inv protect es (l.foldl (Cascade.releaseRange protect (es.flatMap Entry.ranges)) st) done rs
        gs [] := by
    intro l
    induction l with
    | nil => exact fun st h => h
    | cons r l ih => exact fun st h => ih _ (Inv.releaseRange h)
  rw [Cascade.releaseSpan, hreads, hranges]
  exact foldRanges _ _ (foldReads _ _ h)

theorem Inv.releaseSpans {es₁ : List Entry} {pre : List Entry} (hes : es = pre ++ es₁)
    (h : Inv protect es st done ((es₁.filter (·.owner = some off)).flatMap Entry.reads)
      ((es₁.filter (·.owner = some off)).flatMap Entry.ranges) []) :
    Inv protect es ((spansOf off (pre.flatMap Entry.reads).length
      (pre.flatMap Entry.ranges).length es₁).foldl (Cascade.releaseSpan protect
        (es.flatMap Entry.ranges) (es.flatMap Entry.reads)) st) done [] [] [] := by
  induction es₁ generalizing st pre with
  | nil => exact h
  | cons e es₁ ih =>
    have hpre : es = (pre ++ [e]) ++ es₁ := by simp [hes]
    by_cases ho : e.owner = some off
    · have hspan := h
      simp only [filter_cons, ho, decide_true, if_true, flatMap_cons] at hspan
      have hreads : es.flatMap Entry.reads =
          pre.flatMap Entry.reads ++ (e.reads ++ es₁.flatMap Entry.reads) := by simp [hes]
      have hranges : es.flatMap Entry.ranges =
          pre.flatMap Entry.ranges ++ (e.ranges ++ es₁.flatMap Entry.ranges) := by simp [hes]
      have := ih hpre (Inv.releaseSpan hreads hranges hspan)
      simpa [spansOf, ho] using this
    · have := ih hpre (by simpa [ho] using h)
      simpa [spansOf, ho] using this

theorem count_left {α : Type*} [DecidableEq α] (f : Entry → List α)
    (hoff : off ∉ done) (es : List Entry) (a : α) :
    ((left done es).flatMap f).count a = ((left (off :: done) es).flatMap f).count a +
      ((es.filter (·.owner = some off)).flatMap f).count a := by
  induction es with
  | nil => rfl
  | cons e es ih =>
    simp only [left, contains_eq_mem] at ih ⊢
    cases ho : e.owner with
    | none => simpa [ho, Nat.add_assoc] using ih
    | some o =>
      by_cases h : o = off
      · subst h
        simp only [filter_cons, ho, Option.all_some, hoff, decide_false, Bool.not_false,
          if_true, mem_cons_self, decide_true, Bool.not_true, Bool.false_eq_true, if_false,
          flatMap_cons, count_append, ih]
        omega
      · by_cases hd : o ∈ done <;> simpa [ho, h, hd, Nat.add_assoc] using ih

theorem Inv.dequeue {queue : List VarOffset}
    (h : Inv protect es st done [] [] []) (hq : st.queue = off :: queue) :
    Inv protect es { st with queue := queue } (off :: done)
      ((es.filter (·.owner = some off)).flatMap Entry.reads)
      ((es.filter (·.owner = some off)).flatMap Entry.ranges) [] := by
  have hperm : st.dead.Perm (off :: done ++ queue) := by
    have := h.perm
    rw [hq] at this
    exact this.trans perm_middle
  have hoff : off ∉ done := by
    have := hperm.nodup_iff.1 h.nodup
    rw [cons_append, nodup_cons, mem_append, not_or] at this
    exact this.1.1
  refine ⟨⟨fun o => ?_, fun r => ?_⟩, hperm, h.nodup, h.sound, h.complete⟩
  · rw [h.live, count_nil, Nat.add_zero]
    exact congrArg _ (count_left Entry.reads hoff es o)
  · rw [h.refs, count_nil, Nat.add_zero]
    exact count_left Entry.ranges hoff es r

theorem Inv.length_dead (h : Inv protect es st done reads ranges pending)
    (hkeys : ∀ o, (liveOf es o).fullWrites ≠ 0 → o ∈ keys) : st.dead.length ≤ keys.length := by
  refine (subperm_of_subset h.nodup fun o ho => hkeys o ?_).length_le
  exact (candidate_iff.1 (DeadVarDce.mem_deadSet.1 (h.sound o ho)).1).2.2.1

theorem Inv.drain (hkeys : ∀ o, (liveOf es o).fullWrites ≠ 0 → o ∈ keys) {fuel : ℕ}
    (hfuel : keys.length ≤ fuel + done.length) (h : Inv protect es st done [] [] []) :
    ∃ done', Inv protect es (st.drain protect (es.flatMap Entry.ranges)
        (es.flatMap Entry.reads) (fun o => spansOf o 0 0 es) fuel) done' [] [] [] ∧
      (st.drain protect (es.flatMap Entry.ranges) (es.flatMap Entry.reads)
        (fun o => spansOf o 0 0 es) fuel).queue = [] := by
  induction fuel generalizing st done with
  | zero =>
    have hlen := h.length_dead hkeys
    rw [h.perm.length_eq, length_append] at hlen
    exact ⟨done, h, length_eq_zero_iff.1 (show st.queue.length = 0 by omega)⟩
  | succ fuel ih =>
    cases hq : st.queue with
    | nil => exact ⟨done, by simpa [Cascade.drain, hq] using h, by simp [Cascade.drain, hq]⟩
    | cons off queue =>
      have hrel := Inv.releaseSpans (nil_append es).symm (h.dequeue hq)
      have := ih (by rw [length_cons]; omega) hrel
      simpa [Cascade.drain, hq] using this

theorem Inv.mem_dead_iff (h : Inv protect es st done [] [] []) (hq : st.queue = [])
    (o : VarOffset) : o ∈ st.dead ↔ o ∈ deadSet protect es := by
  refine ⟨h.sound o, fun ho => ?_⟩
  have hperm : st.dead.Perm done := by simpa [hq] using h.perm
  rw [hperm.mem_iff]
  refine deadSet_subset (D := {w | w ∈ done}) (fun o hc hread => ?_) ho
  obtain ⟨hreads, hranges⟩ := not_readOutside_iff.1 hread
  have hq := h.qualifies_iff.2 ⟨hc, hreads, fun r _ hr =>
    hranges r (count_pos_iff.1 (Nat.pos_of_ne_zero hr))⟩
  rcases h.complete o hq with hd | hp
  · exact hperm.mem_iff.1 hd
  · cases hp

end Cascade

theorem nodup_keys_census (slices : List (List ProtoStatement)) :
    (census trace slices).keys.Nodup := by
  have hlive : ∀ (c : Census) (o : VarOffset) (f : Liveness → Liveness), c.keys.Nodup →
      (c.updateLive o f).keys.Nodup := by
    intro c o f hc
    by_cases h : o ∈ c.keys
    · simpa [updateLive, h] using hc
    · simpa [updateLive, h, nodup_append] using
        ⟨hc, fun a ha hao => h (hao ▸ ha)⟩
  have hevents : ∀ (evs : List Event) (c : Census), c.keys.Nodup →
      (evs.foldl Census.addEvent c).keys.Nodup := by
    intro evs
    induction evs with
    | nil => exact fun c hc => hc
    | cons ev evs ih =>
      refine fun c hc => ih _ ?_
      cases ev with
      | read o => exact hlive c o (fun l => { l with reads := l.reads + 1 }) hc
      | range r => exact hc
  have hentries : ∀ (es : List Entry) (c : Census), c.keys.Nodup →
      (es.foldl addEntry c).keys.Nodup := by
    intro es
    induction es with
    | nil => exact fun c hc => hc
    | cons e es ih =>
      refine fun c hc => ih _ ?_
      have := hevents e.events c hc
      unfold addEntry
      cases e.write with
      | none => exact this
      | partialWrite o =>
        exact hlive _ o (fun l => { l with partialWrites := l.partialWrites + 1 }) this
      | full o => exact hlive _ o (fun l => { l with fullWrites := l.fullWrites + 1 }) this
  rw [census_eq]
  exact hentries _ _ nodup_nil

theorem trace_census (slices : List (List ProtoStatement)) :
    (census trace slices).trace = trace := by
  have hentry : ∀ (c : Census) (e : Entry), (c.addEntry e).trace = c.trace := by
    intro c e
    have := (reads_foldl c e.events).trace
    unfold addEntry
    cases e.write <;> exact this
  have hentries : ∀ (es : List Entry) (c : Census), (es.foldl addEntry c).trace = c.trace := by
    intro es
    induction es with
    | nil => exact fun c => rfl
    | cons e es ih => exact fun c => (ih _).trans (hentry c e)
  rw [census_eq]
  exact hentries _ _

theorem mem_collectDeadClosure :
    o ∈ collectDeadClosure true slices protect ↔ o ∈ deadSet protect (entries slices) := by
  have hc := counts_census true slices
  have htrace := trace_census true slices
  have hkeys : ∀ o, (liveOf (entries slices) o).fullWrites ≠ 0 → o ∈ (census true slices).keys := by
    intro o h
    by_contra hk
    have := hc.keys o hk
    rw [hc.live] at this
    simp [this] at h
  have hdrop : (census true slices).droppable = fun o => spansOf o 0 0 (entries slices) :=
    funext (hc.droppable htrace)
  have hlive : (census true slices).live = liveOf (entries slices) := funext hc.live
  simp only [collectDeadClosure, Bool.not_true, Bool.false_eq_true, if_false, hdrop, hc.ranges,
    hc.reads htrace, hlive]
  have hqualifies : ∀ o, qualifies protect ((entries slices).flatMap Entry.ranges) o
      (liveOf (entries slices)) (fun r => ((entries slices).flatMap Entry.ranges).count r) = true →
      o ∈ (census true slices).keys := by
    intro o ho
    refine hkeys o ?_
    simp only [qualifies, Bool.and_eq_true, bne_iff_ne] at ho
    exact ho.1.1.2
  generalize hdead : (census true slices).keys.filter (fun off =>
    qualifies protect ((entries slices).flatMap Entry.ranges) off (liveOf (entries slices))
      fun r => ((entries slices).flatMap Entry.ranges).count r) = dead
  have hcounted : Counted (entries slices)
      { live := liveOf (entries slices)
        refs := fun r => ((entries slices).flatMap Entry.ranges).count r
        dead := dead
        queue := dead } [] [] [] :=
    ⟨fun o => by simp [left_empty, liveOf], fun r => by simp [left_empty]⟩
  have hinit : Inv protect (entries slices) _ [] [] [] [] :=
    { hcounted with
      perm := List.Perm.refl _
      nodup := hdead ▸ (nodup_keys_census true slices).filter _
      sound := fun o ho => hcounted.mem_deadSet (by simp)
        (mem_filter.1 (hdead ▸ ho : o ∈ (census true slices).keys.filter _)).2
      complete := fun o ho => .inl (hdead ▸ mem_filter.2 ⟨hqualifies o ho, ho⟩) }
  obtain ⟨done, hinv, hqueue⟩ := hinit.drain hkeys (Nat.le_add_right _ _)
  exact hinv.mem_dead_iff hqueue o

theorem exists_byRounds_eq (enabled : Bool) (slices : List (List ProtoStatement))
    (protect : List VarOffset) :
    ∃ union, byRounds enabled protect ((entries slices).length + 1) slices [] = some union ∧
      ∀ o, o ∈ union ↔ o ∈ collectDeadClosure enabled slices protect := by
  cases enabled with
  | false => exact ⟨[], by simp [byRounds, collectDeadOffsets], by simp [collectDeadClosure]⟩
  | true =>
    have hnone : ∀ o ∈ ([] : List VarOffset), o ∈ deadSet protect (entries slices) := by simp
    obtain ⟨union, hu, hspec⟩ := byRounds_eq (left_empty _).symm hnone (Nat.lt_succ_self _)
    exact ⟨union, hu, fun o => (hspec o).trans mem_collectDeadClosure.symm⟩

end Veryl.Simulator.DeadVarDce
