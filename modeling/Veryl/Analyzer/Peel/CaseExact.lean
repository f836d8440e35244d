import Veryl.Analyzer.Peel.DecideExact

/-!
A decided case takes the decided arm: the comparisons that a case makes agree with those of
the numbers, since neither the target nor a pattern has a sign bit to extend.
-/

namespace Veryl.Analyzer.Peel

open List Option
open CasePattern (matches' targetValue test)

variable {e : Expression} {b : Bool} {i : ℕ} {arms : List (List CasePattern)}

/-- A known number without a set sign bit, when the value is flagged as signed. -/
structure Plain (v : Value) (d : ℕ) : Prop where
  known : Known v d
  flagged : v.signed = true → d < 2 ^ (v.width - 1)

def CasePattern.Recorded (context : Context) : CasePattern → Prop
  | .eq x => x.Recorded context
  | .range lo hi _ => lo.Recorded context ∧ hi.Recorded context

variable {context : Context} {env : KnownValues} {s : State}

theorem term_plain (hagree : Agrees context env s) (hrec : e.Recorded context)
    (hterm : isTerm e = true) {d : ℕ} (h : decideExpr context env e = some d) :
    e.isSelfDetermined = true ∧ ∃ v, e.evalValue s = some v ∧ Plain v d := by
  cases e with
  | term f =>
    obtain ⟨-, v, hv, hsound, hflagged⟩ := decideLeaf_sound hagree hrec h
    refine ⟨?_, v, hv, hsound.known, hflagged⟩
    cases f with
    | unknown c => simp [decideExpr, decideAt, decideLeaf, leaf] at h
    | value c | var id indexed selected c | other c => rfl
  | unary op x c | binary x op y c | concatenation c | other c => cases hterm

theorem constantPattern_plain (hagree : Agrees context env s)
    (hrec : e.Recorded context) {d : ℕ} (h : constantPattern context env e = some d) :
    ∃ v, e.evalValue s = some v ∧ Plain v d := by
  unfold constantPattern at h
  split at h
  · cases h
  · next hok =>
    have hterm : isTerm e = true := by
      by_contra hno
      exact hok (by simp [hno])
    exact (term_plain hagree hrec hterm h).2

section Comparisons

variable {v u : Value} {d c : ℕ}

theorem test_eqWildcard (hv : Plain v d) (hu : Plain u c) :
    ∃ r, Op.evalValueBinary native .eqWildcard v u 1 (v.signed && u.signed) = some r ∧
      r.truth native = some (decide (d = c)) := by
  obtain ⟨r, hr, hknown, -⟩ := equal_known hv.known hu.known (by decide : 1 ≤ 64)
    (fun hs _ _ => hv.flagged hs) (fun _ hs _ => hu.flagged hs) true false
  rw [Bool.bne_false] at hknown
  exact ⟨r, hr, truth_known hknown⟩

theorem test_order (hv : Plain v d) (hu : Plain u c) (inclusive : Bool) :
    ∃ r, Op.evalValueBinary native (if inclusive then .lessEq else .less) v u 1
        (v.signed && u.signed) = some r ∧
      r.truth native = some (if inclusive then decide (d ≤ c) else decide (d < c)) := by
  have hsigned : ∀ hs : (v.signed && u.signed) = true, v.signed = true ∧ u.signed = true :=
    fun hs => Bool.and_eq_true_iff.1 hs
  obtain ⟨r, hr, hknown, -⟩ := compare_known hv.known hu.known (by decide : 1 ≤ 64)
    (fun hs => hv.flagged (hsigned hs).1) (fun hs => hu.flagged (hsigned hs).2) false inclusive
  refine ⟨r, ?_, ?_⟩
  · cases inclusive <;> exact hr
  · rw [truth_known hknown]
    cases inclusive with
    | true => rw [inOrder_lessEq, if_pos rfl]
    | false => rw [inOrder_less, if_neg Bool.false_ne_true]

end Comparisons

section Target

variable {target : Expression} {value : Value} {d : ℕ}
  (hself : target.isSelfDetermined = true) (hvalue : Plain value d)

include hself in
theorem targetValue_eq (operand : Expression) :
    targetValue s target value operand = some value := by
  simp [targetValue, hself]

include hself hvalue

section

variable (hagree : Agrees context env s)

include hagree

theorem patternHit_matches {p : CasePattern}
    (hrec : p.Recorded context) (h : patternHit context env d p = some b) :
    p.matches' s target value = some b := by
  cases p with
  | eq x =>
    obtain ⟨c, hc, hb⟩ := bind_eq_some_iff.1 h
    obtain rfl := some.inj hb
    obtain ⟨u, hu, hplain⟩ := constantPattern_plain hagree hrec hc
    obtain ⟨r, hr, htruth⟩ := test_eqWildcard hvalue hplain
    simp [matches', test, hu, targetValue_eq hself, hr, htruth, eq_comm]
  | range lo hi inclusive =>
    simp only [patternHit, bind_eq_bind, bind_eq_some_iff] at h
    obtain ⟨l, hl, c, hc, hb⟩ := h
    obtain rfl := some.inj hb
    obtain ⟨w, hw, hlo⟩ := constantPattern_plain hagree hrec.1 hl
    obtain ⟨u, hu, hhi⟩ := constantPattern_plain hagree hrec.2 hc
    obtain ⟨r, hr, htruth⟩ := test_order hlo hvalue true
    obtain ⟨r', hr', htruth'⟩ := test_order hvalue hhi inclusive
    rw [if_pos rfl] at hr htruth
    have hfirst : test s .lessEq target value lo false = some (decide (l ≤ d)) := by
      simp [test, hw, targetValue_eq hself, hr, htruth]
    have hsecond : test s (if inclusive then .lessEq else .less) target value hi true =
        some (if inclusive then decide (d ≤ c) else decide (d < c)) := by
      simp [test, hu, targetValue_eq hself, hr', htruth']
    simp only [matches', hfirst, hsecond, bind_eq_bind, bind_some]
    by_cases hle : l ≤ d
    · simp [hle]
    · simp [hle]

theorem armHit_matches {patterns : List CasePattern} (hrec : ∀ p ∈ patterns, p.Recorded context)
    (h : armHit context env d patterns = some b) :
    armMatches s target value patterns = some b := by
  induction patterns with
  | nil =>
    obtain rfl := some.inj h
    rfl
  | cons p rest ih =>
    obtain ⟨hit, hhit, hb⟩ := bind_eq_some_iff.1 h
    have hp := patternHit_matches hself hvalue hagree (hrec p mem_cons_self) hhit
    cases hit with
    | true =>
      obtain rfl := some.inj hb
      simp [armMatches, hp]
    | false =>
      have hrest := ih (fun q hq => hrec q (mem_cons_of_mem p hq)) hb
      simpa [armMatches, hp] using hrest

theorem firstArm_takenArm (hrec : ∀ patterns ∈ arms, ∀ p ∈ patterns, p.Recorded context) {j : ℕ}
    (h : firstArm context env d arms i = some j) :
    takenArm s target value arms i = some j := by
  induction arms generalizing i with
  | nil => exact h
  | cons patterns arms ih =>
    obtain ⟨hit, hhit, hj⟩ := bind_eq_some_iff.1 h
    have hmatch := armHit_matches hself hvalue hagree (hrec patterns mem_cons_self) hhit
    simp only [takenArm, hmatch, bind_eq_bind, bind_some]
    cases hit with
    | true => exact hj
    | false => exact ih (fun q hq => hrec q (mem_cons_of_mem patterns hq)) hj

end

end Target

theorem evalCase_takenArm (hagree : Agrees context env s) {target : Expression}
    (htarget : target.Recorded context)
    (harms : ∀ patterns ∈ arms, ∀ p ∈ patterns, p.Recorded context)
    (h : evalCase context env target arms = some i) :
    ∃ v, target.evalValue s = some v ∧ takenArm s target v arms 0 = some i := by
  unfold evalCase at h
  split at h
  · cases h
  · next hok =>
    obtain ⟨d, hd, hfirst⟩ := bind_eq_some_iff.1 h
    have hterm : isTerm target = true := by
      by_contra hno
      exact hok (by simp [hno])
    obtain ⟨hself, v, hv, hplain⟩ := term_plain hagree htarget hterm hd
    exact ⟨v, hv, firstArm_takenArm hself hplain hagree harms hfirst⟩

/-- Decisions are sound in every state that agrees with the known scalars: a decided
expression evaluates to the decided number without an unknown bit, extended as its context
asks, and a case takes the arm that was decided. -/
theorem decisions_sound (hagree : Agrees context env s) :
    (∀ (e : Expression) (d : ℕ), e.Recorded context → decideExpr context env e = some d →
      ∃ v, e.evalValue s = some v ∧ v.payload = d ∧ v.maskXz = 0 ∧ d < 2 ^ v.width ∧
        (e.comptime.exprContext.signed = true → d < 2 ^ (v.width - 1))) ∧
    ∀ (target : Expression) (arms : List (List CasePattern)) (i : ℕ), target.Recorded context →
      (∀ patterns ∈ arms, ∀ p ∈ patterns, p.Recorded context) →
      evalCase context env target arms = some i →
      ∃ v, target.evalValue s = some v ∧ takenArm s target v arms 0 = some i := by
  refine ⟨fun e d hrec h => ?_, fun target arms i htarget harms h =>
    evalCase_takenArm hagree htarget harms h⟩
  obtain ⟨-, v, hv, hsound⟩ := decideAt_sound hagree e hrec .root d h
  have hknown := hsound.known
  exact ⟨v, hv, hknown.payload, hknown.maskXz, hknown.lt, hsound.sign⟩

/-!
A loop over an iterator of eight bits, in the iteration where it is five.
-/

def iteratorType : TypeInfo := ⟨.logic, false, [], some 8⟩

def iteratorComptime (value : Option Value) : Comptime :=
  ⟨iteratorType, ⟨8, false⟩, value.isSome, false, value⟩

def iterator : Expression := .term (.var 0 false false (iteratorComptime none))

def literal (n : ℕ) : Expression := .term (.value (iteratorComptime (some ⟨n, 0, 8, false⟩)))

def iteratorContext : Context where
  vars id := if id = 0 then some ⟨.other, iteratorType, []⟩ else none

def iteration : KnownValues := fun id => if id = 0 then some 5 else none

def iterationState : State where
  vars id := if id = 0 then some ⟨5, 0, 8, false⟩ else none
  factors _ := none
  expressions _ := none
  reevaluated _ _ := none

theorem iteration_agrees : Agrees iteratorContext iteration iterationState where
  known id d h := by
    by_cases hid : id = 0
    · subst hid
      obtain rfl := some.inj h
      exact ⟨_, _, rfl, rfl, rfl, rfl, by decide, rfl, rfl⟩
    · simp [iteration, hid] at h
  constants id var v _ hvar _ _ _ := by
    by_cases hid : id = 0
    · subst hid
      obtain rfl := some.inj hvar
      simp_all
    · simp [iteratorContext, hid] at hvar

theorem iterator_recorded : iterator.Recorded iteratorContext := by
  intro _ var hvar
  obtain rfl := some.inj hvar
  exact ⟨rfl, rfl, by simp⟩

theorem literal_recorded {n : ℕ} (hn : n < 2 ^ 8) : (literal n).Recorded iteratorContext := by
  intro v hv
  obtain rfl := some.inj hv
  exact ⟨hn, by simp⟩

theorem decisions_sound_iteration :
    (∃ v, (Expression.binary iterator .add (literal 253) (iteratorComptime none)).evalValue
        iterationState = some v ∧ v.payload = 2 ∧ v.maskXz = 0 ∧ 2 < 2 ^ v.width ∧
        (false = true → 2 < 2 ^ (v.width - 1))) ∧
      ∃ v, iterator.evalValue iterationState = some v ∧ takenArm iterationState iterator v
          [[.range (literal 0) (literal 5) false], [.eq (literal 7), .eq (literal 5)]] 0 =
            some 1 := by
  refine ⟨(decisions_sound iteration_agrees).1 _ 2
      ⟨iterator_recorded, literal_recorded (by decide), fun _ _ => rfl, rfl, rfl⟩ rfl,
    (decisions_sound iteration_agrees).2 iterator _ 1 iterator_recorded ?_ rfl⟩
  simp only [forall_mem_cons, not_mem_nil, false_imp_iff, implies_true, and_true]
  exact ⟨⟨literal_recorded (by decide), literal_recorded (by decide)⟩,
    literal_recorded (n := 7) (by decide), literal_recorded (n := 5) (by decide)⟩

end Veryl.Analyzer.Peel
