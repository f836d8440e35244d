import Veryl.Simulator.DerivedClockGating
import Veryl.Simulator.Opt.LutCompressSafety

/-!
The schedule in a settled state: the bits of a copy and of its source are equal, as long
as the copy is the only store into its net and the source is not stored both before and
after the copy.
-/

namespace Veryl.Simulator.DerivedClocks

open Veryl.Analyzer Veryl.Library Veryl.Simulator.LutCompress List Option Nat ProtoExpression
open Library.Computation (bind_eq_some)
open ProtoExpression (evalSelect readSlot readWidth)

variable {x : Value} {w : ℕ} {o' : VarOffset}

variable {e : ProtoExpression} {o : VarOffset} {m : Mem} {r : Outcome Mem Output Unit}
  {s : ProtoStatement} {i : ℕ}

variable {env : Env} {external : List ProtoStatement → VarOffset → Bool}
  {stmts : List ProtoStatement} {inputClocks : VarOffset → Option VarId}

/-- The bit of a one-bit net. -/
def bitAt (m : Mem) (o : VarOffset) : ℕ := (m o).toNat % 2

/-- A pass over the statements changes nothing. -/
def Settled (env : Env) (stmts : List ProtoStatement) (m : Mem) : Prop :=
  ∃ r, runPass env stmts m = some r ∧ r.state = m

/-- A run of the statement may store into the byte. -/
def Stores (env : Env) (s : ProtoStatement) (o : VarOffset) : Prop :=
  o ∈ cellsOf (s.writes env.use4state)

/-- The `& 1` of a copy is taken in two states, is unsigned and has a width. -/
def PlainCopy (env : Env) : ProtoExpression → Prop
  | .binary x .bitAnd y _ c =>
    TwoState env ∧ c.signed = false ∧ 0 < c.width ∧ c.width ≤ 64 ∧ PlainCopy env x ∧ PlainCopy env y
  | .value v _ _ => 0 < v.width
  | _ => True
termination_by structural e => e

/-- A known value whose lowest bit is that of a net. -/
structure Carries (m : Mem) (o : VarOffset) (v : Value) : Prop where
  known : v.maskXz = 0
  pos : 0 < v.width
  le : v.width ≤ 64
  lt : v.payload < 2 ^ 64
  bit : v.payload % 2 = bitAt m o

theorem eval_oneBitVariable (env : Env) (m : Mem) (h : oneBitVariable e = some o) :
    (e.eval env m).payload = (m o).toNat ∧ (e.eval env m).width = 1 ∧
      (env.use4state = false → (e.eval env m).maskXz = 0) := by
  unfold oneBitVariable at h
  split at h
  · rename_i o' c
    split at h
    · cases h
    obtain rfl := some.inj h
    refine ⟨?_, ?_, fun htwo => ?_⟩
    · simp [eval, evalSelect, readSlot, readWidth, nativeBytes,
        Mem.readNativeValue, Mem.readPayload, Value.setSigned]
      omega
    · simp [eval, evalSelect, readSlot, Mem.readNativeValue, Value.setSigned]
    · simp [eval, evalSelect, readSlot, Mem.readNativeValue, Value.setSigned, htwo]
  · cases h

theorem carries_oneBitVariable (henv : TwoState env) (h : oneBitVariable e = some o) :
    Carries m o (e.eval env m) := by
  obtain ⟨hpayload, hwidth, hmask⟩ := eval_oneBitVariable env m h
  refine ⟨hmask henv.use4state, ?_, ?_, ?_, ?_⟩
  · omega
  · omega
  · omega
  · rw [hpayload, bitAt]

theorem isOne_eval (env : Env) (m : Mem) (h : isOne e = true) (hplain : PlainCopy env e) :
    ∃ v, e.eval env m = v ∧ v.payload = 1 ∧ v.maskXz = 0 ∧ 0 < v.width ∧ v.width ≤ 64 := by
  unfold isOne at h
  split at h
  · rename_i v c
    simp only [Value.toU64, Value.toUsize, decide_eq_true_eq, ite_none_right_eq_some,
      Bool.and_eq_true, Bool.not_eq_true', some.injEq] at h
    obtain ⟨⟨hwidth, hknown⟩, hpayload⟩ := h
    exact ⟨v, rfl, hpayload, by simpa [Value.isXz] using hknown, hplain,
      by simpa [Value.isU64] using hwidth⟩
  · cases h

theorem cut_mod_two (hw : 0 < w) : cut x w % 2 = x.payload % 2 := by
  rw [cut]
  split
  · exact mod_mod_of_dvd _ (dvd_pow_self 2 hw.ne')
  · rfl

theorem Carries.and {y : Value} (hx : Carries m o x)
    (hy : y.payload = 1 ∧ y.maskXz = 0 ∧ 0 < y.width ∧ y.width ≤ 64) (hw : 0 < w)
    (hw64 : w ≤ 64) :
    (∃ r, Op.evalValueBinary native .bitAnd x y w false = some r ∧ Carries m o r) ∧
      ∃ r, Op.evalValueBinary native .bitAnd y x w false = some r ∧ Carries m o r := by
  obtain ⟨hone, hyk, hypos, hy64⟩ := hy
  have hcut : ∀ z : Value, z.payload < 2 ^ 64 → cut z w < 2 ^ 64 := by
    intro z hz
    rw [cut]
    split
    · exact lt_of_le_of_lt (mod_le _ _) hz
    · exact hz
  have hcutx := hcut x hx.lt
  have hcuty := hcut y (by rw [hone]; decide)
  have hparity : (cut x w &&& cut y w) % 2 = bitAt m o := by
    have hand := @Nat.and_mod_two_pow (cut x w) (cut y w) 1
    rw [pow_one, cut_mod_two hw, cut_mod_two hw, hone, hx.bit] at hand
    rw [hand]
    rcases mod_two_eq_zero_or_one (m o).toNat with hbit | hbit
    · rw [bitAt, hbit]
      rfl
    · rw [bitAt, hbit]
      rfl
  have hxand := evalAnd_known hx.pos hx.le hx.known hypos hy64 hyk hw64 (Bool.and_false _)
    (Bool.and_false _) hcutx
  have hyand := evalAnd_known hypos hy64 hyk hx.pos hx.le hx.known hw64 (Bool.and_false _)
    (Bool.and_false _) hcuty
  refine ⟨⟨_, hxand, rfl, hw, hw64, lt_of_le_of_lt and_le_left hcutx, hparity⟩,
    ⟨_, hyand, rfl, hw, hw64, lt_of_le_of_lt and_le_left hcuty, ?_⟩⟩
  rw [Nat.and_comm]
  exact hparity

theorem carries_copiedBit (henv : TwoState env)
    (h : copiedBit e = some o) (hplain : PlainCopy env e) : Carries m o (e.eval env m) := by
  fun_induction copiedBit e with
  | case1 x y c hone ih =>
    obtain ⟨-, hsigned, hw, hw64, hx, hy⟩ := hplain
    obtain ⟨v, hv, hvone⟩ := isOne_eval env m hone hy
    obtain ⟨⟨r, hr, hcarries⟩, -⟩ := (ih h hx).and hvone hw hw64
    have heval : eval env m (.binary x .bitAnd y 1 c) = r := by
      refine henv.binary _ _ _ _ _ _ ?_
      rw [hv]
      show Op.evalValueBinary native .bitAnd _ v c.width c.signed = some r
      rw [hsigned]
      exact hr
    rw [heval]
    exact hcarries
  | case2 x y c hone hone' ih =>
    obtain ⟨-, hsigned, hw, hw64, hx, hy⟩ := hplain
    obtain ⟨v, hv, hvone⟩ := isOne_eval env m hone' hx
    obtain ⟨-, r, hr, hcarries⟩ := (ih h hy).and hvone hw hw64
    have heval : eval env m (.binary x .bitAnd y 1 c) = r := by
      refine henv.binary _ _ _ _ _ _ ?_
      rw [hv]
      show Op.evalValueBinary native .bitAnd v _ c.width c.signed = some r
      rw [hsigned]
      exact hr
    rw [heval]
    exact hcarries
  | case3 => cases h
  | case4 e => exact carries_oneBitVariable henv h

theorem eval_copiedBit (h : copiedBit e = some o) (hplain : PlainCopy env e) :
    0 < (e.eval env m).width ∧ (e.eval env m).payload % 2 = bitAt m o := by
  by_cases htwo : TwoState env
  · have hcarries : Carries m o (e.eval env m) := carries_copiedBit htwo h hplain
    exact ⟨hcarries.pos, hcarries.bit⟩
  · -- Without the `& 1`, which is taken in two states, it is the variable.
    have hvariable : oneBitVariable e = some o := by
      unfold copiedBit at h
      split at h
      · exact absurd hplain.1 htwo
      · exact h
    obtain ⟨hpayload, hwidth, -⟩ := eval_oneBitVariable env m hvariable
    rw [hpayload, hwidth]
    exact ⟨Nat.one_pos, rfl⟩

theorem bitAt_copy {a : ProtoAssignStatement}
    (h : copySource (.assign a) = some o) (hplain : PlainCopy env a.expr)
    (hrun : (ProtoStatement.assign a).execTop env m = some r) :
    bitAt r.state a.dst = bitAt m o := by
  simp only [copySource] at h
  split at h
  · cases h
  rename_i hfull
  simp only [not_or, ne_eq, not_not, Bool.not_eq_true, isSome_eq_false_iff,
    isNone_iff_eq_none] at hfull
  obtain ⟨hwidth, hff, hselect, hdynamic, hrhs⟩ := hfull
  obtain ⟨hpos, hbit⟩ : 0 < (a.expr.eval env m).width ∧
      (a.expr.eval env m).payload % 2 = bitAt m o := eval_copiedBit h hplain
  have hstored : storedValue env m a.dst 1 a.select (evalSelect env m a.dynamicSelect)
      (storeRhs env m a.expr a.rhsSelect 1) = some ((a.expr.eval env m).trunc 1) := by
    simp [storedValue, storeRhs, hselect, hdynamic, hrhs, evalSelect, Nat.ne_of_gt hpos]
  have hstate : r.state =
      m.writeNativeValue a.dst 1 env.use4state ((a.expr.eval env m).trunc 1) := by
    have hpacked : a.ffIsPacked = false := by simp [ProtoAssignStatement.ffIsPacked, hff]
    simp only [ProtoStatement.execTop, ProtoStatement.exec, ProtoAssignStatement.exec,
      Library.Computation.bind_apply, Library.Computation.read, bind_some, deposit,
      hpacked, hwidth, map_some, Library.Computation.pure_apply] at hrun
    rw [hstored] at hrun
    simp only [Library.Computation.bind_apply, Library.Computation.modify,
      Library.Computation.emit, bind_some, map_some, some.injEq] at hrun
    rw [← hrun]
    rfl
  have hbyte : m.writeNativeValue a.dst 1 env.use4state ((a.expr.eval env m).trunc 1) a.dst =
      Value.storedByte ((a.expr.eval env m).trunc 1) 1 0 := by
    have hmem := @Mem.writeNativeValue_of_mem m a.dst 1 0 env.use4state
      ((a.expr.eval env m).trunc 1) (by cases env.use4state <;> decide)
    simpa using hmem
  have htrunc : ((a.expr.eval env m).trunc 1).payload % 2 = (a.expr.eval env m).payload % 2 := by
    rw [Value.trunc, if_neg (Nat.ne_of_gt hpos)]
    split
    · rfl
    · show ((a.expr.eval env m).payload &&& genMask 1) % 2 = _
      rw [genMask, and_two_pow_sub_one_eq_mod, pow_one, mod_mod]
  rw [bitAt, hstate, hbyte, Value.storedByte, if_pos Nat.one_pos, BitVec.toNat_ofNat,
    Nat.mul_zero, shiftRight_zero, mod_mod_of_dvd _ (by decide), htrunc, hbit]

theorem execTop_unchanged (h : ¬ Stores env s o) (hrun : s.execTop env m = some r) :
    r.state o = m o := by
  obtain ⟨a, b, ha, hb, rfl⟩ := bind_eq_some.1 hrun
  obtain rfl := some.inj hb
  exact (ProtoStatement.framed_exec env s ha).1 o h

theorem runPass_cons {rest : List ProtoStatement} (hrun : runPass env (s :: rest) m = some r) :
    ∃ r₁ r₂, s.execTop env m = some r₁ ∧ runPass env rest r₁.state = some r₂ ∧
      r.state = r₂.state := by
  obtain ⟨r₁, r₂, h₁, h₂, rfl⟩ := bind_eq_some.1 hrun
  exact ⟨r₁, r₂, h₁, h₂, rfl⟩

theorem runPass_unchanged {l : List ProtoStatement} (h : ∀ s ∈ l, ¬ Stores env s o)
    (hrun : runPass env l m = some r) : r.state o = m o := by
  induction l generalizing m r with
  | nil =>
    obtain rfl := some.inj hrun
    rfl
  | cons s rest ih =>
    obtain ⟨r₁, r₂, h₁, h₂, hstate⟩ := runPass_cons hrun
    rw [hstate, ih (fun s' hs' => h s' (mem_cons_of_mem _ hs')) h₂,
      execTop_unchanged (h s mem_cons_self) h₁]

theorem runPass_take_unchanged
    (h : ∀ j t, j < i → stmts[j]? = some t → ¬ Stores env t o)
    (hrun : runPass env (stmts.take i) m = some r) :
    r.state o = m o := by
  refine runPass_unchanged (fun t ht => ?_) hrun
  obtain ⟨k, hk⟩ := getElem?_of_mem ht
  rw [getElem?_take] at hk
  split at hk
  · rename_i hlt
    exact h k t hlt hk
  · cases hk

theorem runPass_drop_unchanged
    (h : ∀ j t, i ≤ j → stmts[j]? = some t → ¬ Stores env t o)
    (hrun : runPass env (stmts.drop i) m = some r) :
    r.state o = m o := by
  refine runPass_unchanged (fun t ht => ?_) hrun
  obtain ⟨k, hk⟩ := getElem?_of_mem ht
  rw [getElem?_drop] at hk
  exact h _ t (Nat.le_add_right i k) hk

theorem runPass_at (hs : stmts[i]? = some s) (hrun : runPass env stmts m = some r) :
    ∃ r₀ r₁ r₂, runPass env (stmts.take i) m = some r₀ ∧ s.execTop env r₀.state = some r₁ ∧
      runPass env (stmts.drop (i + 1)) r₁.state = some r₂ ∧ r.state = r₂.state := by
  induction stmts generalizing i m r with
  | nil => cases hs
  | cons t rest ih =>
    obtain ⟨r₁, r₂, h₁, h₂, hstate⟩ := runPass_cons hrun
    cases i with
    | zero =>
      obtain rfl : t = s := some.inj hs
      exact ⟨⟨(), m, []⟩, r₁, r₂, rfl, h₁, h₂, hstate⟩
    | succ i =>
      obtain ⟨a₀, a₁, a₂, ha₀, ha₁, ha₂, hstate'⟩ := ih hs h₂
      refine ⟨{ a₀ with out := r₁.out ++ a₀.out }, a₁, a₂, ?_, ha₁, ha₂, hstate.trans hstate'⟩
      exact bind_eq_some.2 ⟨r₁, a₀, h₁, ha₀, rfl⟩

/-- The copy of a net is the only store into it, and its source is not stored both before
the copy and from it on. -/
structure Steady (env : Env) (external : List ProtoStatement → VarOffset → Bool)
    (stmts : List ProtoStatement) (o o' : VarOffset) : Prop where
  alone : ∀ i, writers external stmts o = [i] → ∀ j t, stmts[j]? = some t → Stores env t o → j = i
  ordered : ∀ i, writers external stmts o = [i] →
    (∀ j t, j < i → stmts[j]? = some t → ¬ Stores env t o') ∨
      ∀ j t, i ≤ j → stmts[j]? = some t → ¬ Stores env t o'
  plain : ∀ i a, writers external stmts o = [i] → stmts[i]? = some (.assign a) →
    PlainCopy env a.expr

theorem bitAt_link (hsettled : Settled env stmts m) (hcopy : copiedFrom external stmts o = some o')
    (hsteady : Steady env external stmts o o') : bitAt m o = bitAt m o' := by
  obtain ⟨r, hrun, hstate⟩ := hsettled
  unfold copiedFrom at hcopy
  split at hcopy
  · rename_i i hwriters
    obtain ⟨s, hs, hsource⟩ := bind_eq_some_iff.1 hcopy
    have hmem : i ∈ writers external stmts o := by
      rw [hwriters]
      exact mem_singleton.2 rfl
    obtain ⟨s', hs', hout⟩ := mem_writers.1 hmem
    obtain rfl : s = s' := some.inj (hs.symm.trans hs')
    cases s with
    | assign a =>
      obtain rfl : o = a.dst := mem_singleton.1 hout.2
      obtain ⟨r₀, r₁, r₂, h₀, h₁, h₂, hlast⟩ := runPass_at hs hrun
      have hafter : ∀ {b : VarOffset},
          (∀ j t, i + 1 ≤ j → stmts[j]? = some t → ¬ Stores env t b) → m b = r₁.state b := by
        intro b hb
        rw [← hstate, hlast]
        exact runPass_drop_unchanged hb h₂
      have hdst : m a.dst = r₁.state a.dst := hafter fun j t hj ht hstores =>
        absurd (hsteady.alone i hwriters j t ht hstores) (by omega)
      have hsrc : r₀.state o' = m o' := by
        rcases hsteady.ordered i hwriters with hearly | hlate
        · exact runPass_take_unchanged hearly h₀
        · rw [hafter fun j t hj ht => hlate j t (by omega) ht,
            execTop_unchanged (hlate i _ (Nat.le_refl i) hs) h₁]
      have hbit := bitAt_copy hsource (hsteady.plain i a hwriters hs) h₁
      rw [bitAt, hdst, ← bitAt, hbit, bitAt, hsrc, bitAt]
    | _ => cases hsource
  · cases hcopy

theorem bitAt_chain (hsettled : Settled env stmts m) (hchain : Chain external stmts o o')
    (hsteady : ∀ b b', Chain external stmts o b → copiedFrom external stmts b = some b' →
      Chain external stmts b' o' → Steady env external stmts b b') : bitAt m o = bitAt m o' := by
  induction hchain with
  | refl => rfl
  | tail hchain hcopy ih =>
    have hbefore := ih fun b b' hb hlink htail => hsteady b b' hb hlink (htail.tail hcopy)
    exact hbefore.trans (bitAt_link hsettled hcopy (hsteady _ _ hchain hcopy .refl))

end Veryl.Simulator.DerivedClocks
