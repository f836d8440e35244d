import Veryl.Simulator.Opt.LaneMergeValues

/-!
Lane merging is exact: bit `j` of a merged word is lane `j`.
-/

namespace Veryl.Simulator.LaneVector

open Veryl.Analyzer List Nat ProtoExpression Value
open ProtoExpression (binaryOperandSigned concatRepeat evalElements evalSelect readSlot readWidth)
open LutCompress (native)

variable {v u : Value} {o : VarOffset} {x y : ProtoExpression} {xs : List Lane}
  {words : List ProtoExpression} {minOps : ℕ}

variable {e : ProtoExpression} {l : Lane} {n full k : ℕ} {lanes kids : List Lane} {op : Op}
  {s : Bool} {c : ExpressionContext} {es : Elements} {rs : List (Elements × ℕ)} {bitwise : Op}
  {read : VarOffset × Option (ℕ × ℕ) × ℕ} {mask : MaskRead} {width : ℕ}

/-- Two-state evaluation with the operators of the analyzer. -/
structure TwoState (env : Env) : Prop extends LutCompress.TwoState env where
  unary : ∀ op x w s r, Op.evalValueUnary native op x w s = some r → env.evalValueUnary op x w s = r

/-- Every value of an expression is known and has its declared width, which is also the width
an operator is evaluated at. -/
inductive Typed (env : Env) (m : Mem) : ProtoExpression → Prop
  | read {o sel ds w full c}
    (h : Bits ((ProtoExpression.variable o sel ds w full c).eval env m) w) :
    Typed env m (.variable o sel ds w full c)
  | value {v w c} (h : Bits v w) : Typed env m (.value v w c)
  | unary {op x w s} (hx : Typed env m x)
    (h : Bits ((ProtoExpression.unary op x w ⟨w, s⟩).eval env m) w) :
    Typed env m (.unary op x w ⟨w, s⟩)
  | binary {x op y w s} (hx : Typed env m x) (hy : Typed env m y)
    (h : Bits ((ProtoExpression.binary x op y w ⟨w, s⟩).eval env m) w) :
    Typed env m (.binary x op y w ⟨w, s⟩)
  | concatenation {es w c} (hes : ∀ p ∈ es, Typed env m p.1) (hw : ∀ p ∈ es, p.1.width = p.2.2)
    (h : Bits ((ProtoExpression.concatenation es w c).eval env m) w) :
    Typed env m (.concatenation es w c)
  | resize {x w se c} (h : Bits ((ProtoExpression.resize x w se c).eval env m) w) :
    Typed env m (.resize x w se c)
  | ternary {a b d w c} (h : Bits ((ProtoExpression.ternary a b d w c).eval env m) w) :
    Typed env m (.ternary a b d w c)
  | dynamicVariable {o st nb i n sel ds w c}
    (h : Bits ((ProtoExpression.dynamicVariable o st nb i n sel ds w c).eval env m) w) :
    Typed env m (.dynamicVariable o st nb i n sel ds w c)

variable {env : Env} {m : Mem} {w : ℕ}

theorem Typed.bits (h : Typed env m e) : Bits (e.eval env m) e.width := by
  cases h with
  | _ => assumption

/-- Bit `b` of an expression. -/
def bitOf (env : Env) (m : Mem) (e : ProtoExpression) (b : ℕ) : Bool :=
  (e.eval env m).payload.testBit b

/-- A word that holds the lanes. -/
structure Word (env : Env) (m : Mem) (w : ℕ) (lanes : List Lane) (e : ProtoExpression) : Prop where
  bits : Bits (e.eval env m) w
  lane : ∀ l ∈ lanes, bitOf env m e l.2 = bitOf env m l.1 0

structure LaneTyped (env : Env) (m : Mem) (w : ℕ) (l : Lane) : Prop where
  typed : Typed env m l.1
  width : l.1.width = 1
  lt : l.2 < w

theorem LaneTyped.bits (h : LaneTyped env m w l) : Bits (l.1.eval env m) 1 :=
  h.width ▸ h.typed.bits

theorem Bits.setSigned (h : Bits v n) (s : Bool) : Bits (v.setSigned s) n :=
  ⟨h.width, h.maskXz, h.lt⟩

theorem nativeBytes_bounds (full : ℕ) : full ≤ nativeBytes full * 8 ∧
    (full ≤ 64 ↔ nativeBytes full * 8 ≤ 64) := by
  unfold nativeBytes
  split_ifs <;> omega

theorem plainRead_spec {r : VarOffset × Option (ℕ × ℕ) × ℕ × ℕ}
    (h : plainRead e = some r) : ∃ c, e = .variable r.1 r.2.1 none r.2.2.1 r.2.2.2 c := by
  unfold plainRead at h
  split at h
  · obtain rfl := Option.some.inj h
    exact ⟨_, rfl⟩
  · cases h

theorem payload_read (o : VarOffset) (sel : Option (ℕ × ℕ)) (width full : ℕ)
    (c c' : ExpressionContext) :
    ((ProtoExpression.variable o sel none width full c).eval env m).payload =
      ((ProtoExpression.variable o sel none width full c').eval env m).payload := by
  cases sel <;> rfl

/-- The stored bits of a variable. -/
def stored (m : Mem) (o : VarOffset) (full : ℕ) : ℕ :=
  (m.readNativeValue o (nativeBytes full) false full false).payload

theorem genMask_select (h : width ≤ full) :
    (if nativeBytes full * 8 ≤ 64 then min width 64 else width) = width := by
  have := (nativeBytes_bounds full).2
  split_ifs <;> omega

theorem replicate_bits {v : ProtoExpression} (hv : Bits (v.eval env m) 1) (w : ℕ) :
    Bits ((ProtoExpression.concatenation [(v, w, 1)] w (ctx w)).eval env m) w ∧
      ∀ j, bitOf env m (.concatenation [(v, w, 1)] w (ctx w)) j =
        (decide (j < w) && bitOf env m v 0) := by
  have hnew : Bits (new 0 0 false) 0 := ⟨rfl, rfl, Nat.one_pos⟩
  obtain ⟨hbits, htest⟩ := concatRepeat_bits hnew hv w
  rw [Nat.zero_add] at hbits
  have heval : (ProtoExpression.concatenation [(v, w, 1)] w (ctx w)).eval env m =
      (concatRepeat (new 0 0 false) (v.eval env m) w).setSigned false := rfl
  refine ⟨heval ▸ hbits.setSigned false, fun j => ?_⟩
  have hj : bitOf env m (.concatenation [(v, w, 1)] w (ctx w)) j =
      if j < w then bitOf env m v 0 else (new 0 0 false).payload.testBit (j - w) := htest j
  rw [hj]
  by_cases hlt : j < w <;> simp [hlt, new]

theorem toU64_eq_some {p : ℕ} (h : v.toU64 = some p) : v.isU64 = true ∧ v.payload = p := by
  unfold toU64 toUsize at h
  split at h
  · next hok => exact ⟨(Bool.and_eq_true_iff.1 hok).1, Option.some.inj h⟩
  · cases h

theorem maskOf_eq (hw : w ≤ 64) : maskOf w = genMask w := ValueU64.genMask_eq hw

theorem word_constant (hw64 : w ≤ 64) (hlanes : ∀ l ∈ lanes, LaneTyped env m w l)
    (h : constantWord lanes w = some e) : Word env m w lanes e := by
  unfold constantWord at h
  split at h
  · next v wd c lane rest =>
    obtain ⟨bit, -, h⟩ := Option.bind_eq_some_iff.1 h
    split at h
    · cases h
    split at h
    · next hall =>
      obtain rfl := Option.some.inj h
      rw [maskOf_eq hw64]
      refine ⟨⟨rfl, rfl, ?_⟩, fun l hl => ?_⟩
      · simp only [eval, new]
        split_ifs
        · exact genMask_lt w
        · exact Nat.two_pow_pos w
      · have hlane := hlanes l hl
        have hsame := all_eq_true.1 hall l hl
        obtain ⟨e', j⟩ := l
        have hj : j < w := hlane.lt
        split at hsame
        · next v' wd' c' heq =>
          subst heq
          have hpay := (toU64_eq_some (of_decide_eq_true hsame)).2
          simp only [bitOf, eval, new, hpay]
          rcases (show bit = 0 ∨ bit = 1 by omega) with rfl | rfl
          · simp
          · simp [hj]
        · cases hsame
    · cases h
  · cases h

theorem mem_descend {kid : ProtoExpression → Option ProtoExpression}
    (h : descend kid lanes = some kids) :
    (∀ k ∈ kids, ∃ l ∈ lanes, kid l.1 = some k.1 ∧ k.2 = l.2) ∧
      ∀ l ∈ lanes, ∃ k ∈ kids, kid l.1 = some k.1 ∧ k.2 = l.2 := by
  induction lanes generalizing kids with
  | nil =>
    obtain rfl := Option.some.inj h
    simp
  | cons l rest ih =>
    obtain ⟨x, hx, h⟩ := Option.bind_eq_some_iff.1 h
    obtain ⟨kids', hkids, h⟩ := Option.bind_eq_some_iff.1 h
    obtain rfl := Option.some.inj h
    obtain ⟨hfrom, hto⟩ := ih hkids
    constructor
    · rintro k hk
      rcases mem_cons.1 hk with rfl | hk
      · exact ⟨l, mem_cons_self, hx, rfl⟩
      · obtain ⟨l', hl', hkid⟩ := hfrom k hk
        exact ⟨l', mem_cons_of_mem l hl', hkid⟩
    · rintro l' hl'
      rcases mem_cons.1 hl' with rfl | hl'
      · exact ⟨(x, l'.2), mem_cons_self, hx, rfl⟩
      · obtain ⟨k, hk, hkid⟩ := hto l' hl'
        exact ⟨k, mem_cons_of_mem _ hk, hkid⟩

theorem Typed.of_unary (h : Typed env m (.unary op x n c)) : Typed env m x ∧ ∃ s, c = ⟨n, s⟩ := by
  cases h with
  | unary hx => exact ⟨hx, _, rfl⟩

theorem Typed.of_binary (h : Typed env m (.binary x op y n c)) :
    Typed env m x ∧ Typed env m y ∧ ∃ s, c = ⟨n, s⟩ := by
  cases h with
  | binary hx hy => exact ⟨hx, hy, _, rfl⟩

section

variable (hlanes : ∀ l ∈ lanes, LaneTyped env m w l)

include hlanes

theorem word_invariantRead {v : ProtoExpression} (h : laneInvariantRead lanes = some v) :
    Word env m w lanes (.concatenation [(v, w, 1)] w (ctx w)) := by
  cases lanes with
  | nil => cases h
  | cons head rest =>
    simp only [laneInvariantRead, Option.bind_eq_bind, Option.bind_eq_some_iff] at h
    obtain ⟨⟨o, sel, width, full⟩, hread, h⟩ := h
    split at h
    · cases h
    split at h
    · next hall =>
      obtain rfl := Option.some.inj h
      have hv := (hlanes head mem_cons_self).bits
      obtain ⟨hbits, htest⟩ := replicate_bits hv w
      refine ⟨hbits, fun l hl => ?_⟩
      have hsame : bitOf env m l.1 0 = bitOf env m head.1 0 := by
        rcases mem_cons.1 hl with rfl | hl
        · rfl
        · have hother := of_decide_eq_true (all_eq_true.1 hall l hl)
          obtain ⟨c, hc⟩ := plainRead_spec hother
          obtain ⟨c', hc'⟩ := plainRead_spec hread
          rw [bitOf, bitOf, hc, hc', payload_read]
      rw [hsame, htest, decide_eq_true (hlanes l hl).lt, Bool.true_and]
    · cases h

theorem laneTyped_unaryKids (h : descend (unaryKid op) lanes = some kids) :
    ∀ k ∈ kids, LaneTyped env m w k := by
  intro k hk
  obtain ⟨l, hl, hkid, hlane⟩ := (mem_descend h).1 k hk
  obtain ⟨n, c, he, hwidth⟩ := unaryKid_spec hkid
  have htyped := (hlanes l hl).typed
  rw [he] at htyped
  exact ⟨htyped.of_unary.1, hwidth, hlane ▸ (hlanes l hl).lt⟩

theorem laneTyped_binaryKids {left : Bool}
    (h : descend (binaryKid left op) lanes = some kids) : ∀ k ∈ kids, LaneTyped env m w k := by
  intro k hk
  obtain ⟨l, hl, hkid, hlane⟩ := (mem_descend h).1 k hk
  obtain ⟨x, y, n, c, he, hx, hy, hz⟩ := binaryKid_spec hkid
  have htyped := (hlanes l hl).typed
  rw [he] at htyped
  have hlt := hlane ▸ (hlanes l hl).lt
  cases left with
  | true => exact ⟨hz ▸ htyped.of_binary.1, hz ▸ hx, hlt⟩
  | false => exact ⟨hz ▸ htyped.of_binary.2.1, hz ▸ hy, hlt⟩

end

theorem bitwiseUnary_spec (h : bitwiseUnary op = some bitwise) :
    bitwise = .bitNot ∧ (op = .bitNot ∨ op = .logicNot) := by
  cases op <;> simp_all [bitwiseUnary]

theorem bitwiseBinary_spec (h : bitwiseBinary op = some bitwise) :
    (bitwise = .bitAnd ∨ bitwise = .bitOr ∨ bitwise = .bitXor) ∧
      (op = bitwise ∨ (op = .logicAnd ∧ bitwise = .bitAnd) ∨ op = .logicOr ∧ bitwise = .bitOr) := by
  cases op <;> simp_all [bitwiseBinary]

theorem resize_mask (hv : Bits v k) (hk : k ≤ 64) (hn : 0 < n)
    (hpay : v.payload = genMask n) (s : Bool) :
    Bits (Op.resize native v n s) n ∧ (Op.resize native v n s).payload = genMask n := by
  have hlt := hv.lt
  rw [hpay, genMask] at hlt
  have hle : n ≤ k := by
    by_contra hgt
    have hpow : 2 ^ (k + 1) ≤ 2 ^ n := Nat.pow_le_pow_right (by omega) (by omega)
    omega
  rcases hle.eq_or_lt with rfl | hlt'
  · rw [resize_self hv hn]
    exact ⟨hv, hpay⟩
  · have hnat : (native v.width && native n) = true := by
      rw [hv.width, LutCompress.native, LutCompress.native, decide_eq_true hk,
        decide_eq_true (hle.trans hk)]
      rfl
    rw [Op.resize, if_pos (hv.width ▸ hlt'), if_pos hnat, ValueU64.trunc,
      ValueU64.genMask_eq (hle.trans hk), hpay, Nat.and_self, hv.maskXz, zero_and]
    exact ⟨⟨rfl, rfl, genMask_lt n⟩, rfl⟩

theorem evalAnd_resize {x y : Value} (hn : 0 < n)
    (hx : Bits (Op.resize native x n s) n) (hy : Bits (Op.resize native y n s) n) :
    ∃ r, Op.evalValueBinary native .bitAnd x y n s = some r ∧
      r.payload = (Op.resize native x n s).payload &&& (Op.resize native y n s).payload := by
  obtain ⟨r, hr, -, hpay⟩ := evalBitwise (.inl rfl) hx hy hn s
  refine ⟨r, ?_, hpay⟩
  rw [← hr]
  simp only [Op.evalValueBinary, resize_self hx hn, resize_self hy hn]

theorem evalAnd_ones (hn : 0 < n) (hv : Bits v n) (hu : Bits u k)
    (hk : k ≤ 64) (hones : u.payload = genMask n) (s : Bool) :
    (∃ r, Op.evalValueBinary native .bitAnd v u n s = some r ∧ r.payload = v.payload) ∧
      ∃ r, Op.evalValueBinary native .bitAnd u v n s = some r ∧ r.payload = v.payload := by
  obtain ⟨hmask, hpay⟩ := resize_mask hu hk hn hones s
  have hself := resize_self hv hn native s
  have hv' : Bits (Op.resize native v n s) n := hself.symm ▸ hv
  obtain ⟨r, hr, hp⟩ := evalAnd_resize hn hv' hmask
  obtain ⟨r', hr', hp'⟩ := evalAnd_resize hn hmask hv'
  rw [hself, hpay, and_genMask_self hv.lt] at hp
  rw [hself, hpay, Nat.and_comm, and_genMask_self hv.lt] at hp'
  exact ⟨⟨r, hr, hp⟩, r', hr', hp'⟩

theorem Bits.eq_of_zero (hv : Bits v 0) (hu : Bits u 0) : v.payload = u.payload := by
  have h₁ := hv.lt
  have h₂ := hu.lt
  omega

theorem allOnes_spec (h : allOnes n e = true) (ht : Typed env m e) :
    ∃ k ≤ 64, Bits (e.eval env m) k ∧ (e.eval env m).payload = genMask n := by
  unfold allOnes at h
  split at h
  · next v wd c =>
    rw [Bool.and_eq_true, decide_eq_true_eq, decide_eq_true_eq] at h
    obtain ⟨hn, hones⟩ := h
    have hbits : Bits v wd := ht.bits
    obtain ⟨h64, hpay⟩ := toU64_eq_some hones
    refine ⟨wd, ?_, hbits, hpay.trans (maskOf_eq hn)⟩
    rw [← hbits.width]
    simpa [isU64] using h64
  · cases h

section

variable (henv : TwoState env)

include henv

theorem read_select {hi lo : ℕ}
    (hlo : lo ≤ hi) (hhi : hi < full) (hwidth : width ≤ full) (c : ExpressionContext) :
    Bits ((ProtoExpression.variable o (some (hi, lo)) none width full c).eval env m) (hi - lo + 1) ∧
      ∀ i < hi - lo + 1, bitOf env m (.variable o (some (hi, lo)) none width full c) i =
        (stored m o full).testBit (lo + i) := by
  obtain ⟨hfull, hword⟩ := nativeBytes_bounds full
  have hread : readWidth (some (hi, lo)) none width full = full := by
    simp only [readWidth]
    omega
  have hmin : min (nativeBytes full * 8 - lo) (hi - lo + 1) = hi - lo + 1 := by omega
  have heval : (ProtoExpression.variable o (some (hi, lo)) none width full c).eval env m =
      ⟨(stored m o full >>> lo) &&& genMask (hi - lo + 1), 0, hi - lo + 1, c.signed⟩ := by
    simp [eval, evalSelect, hread, readSlot, henv.use4state, Mem.readNativeValue, select,
      if_neg (Nat.not_lt.2 hlo), isU64, if_neg (show ¬ nativeBytes full * 8 ≤ lo by omega), hmin,
      genMask_select (show hi - lo + 1 ≤ full by omega), setSigned, stored, hword]
  refine ⟨?_, fun i hi' => ?_⟩
  · rw [heval, and_genMask]
    exact ⟨rfl, rfl, mod_lt _ (Nat.two_pow_pos _)⟩
  · rw [bitOf, heval]
    simp only [testBit_and, testBit_shiftRight, testBit_genMask, decide_eq_true hi', Bool.and_true]

theorem read_whole (o : VarOffset) (full : ℕ) (c : ExpressionContext) :
    ((ProtoExpression.variable o none none full full c).eval env m).payload = stored m o full := by
  simp [eval, evalSelect, readSlot, readWidth, henv.use4state, Mem.readNativeValue, setSigned,
    stored]

theorem word_windowRead (hw : 0 < w) (hlanes : ∀ l ∈ lanes, LaneTyped env m w l)
    (h : windowRead lanes w = some e) : Word env m w lanes e := by
  unfold windowRead at h
  split at h
  · next o hi lo wd full c lane rest =>
    split at h
    · cases h
    dsimp only at h
    split at h
    · cases h
    next hfull =>
    split at h
    · next hall =>
      obtain rfl := Option.some.inj h
      generalize hi - lane = base at hfull hall ⊢
      have hspan : base + w - 1 - base + 1 = w := by omega
      obtain ⟨hbits, htest⟩ := read_select (m := m) (o := o) henv
        (show base ≤ base + w - 1 by omega) (show base + w - 1 < full by omega)
        (show w ≤ full by omega) (ctx w)
      rw [hspan] at hbits htest
      refine ⟨hbits, fun l hl => ?_⟩
      have hlane := hlanes l hl
      have hfollows := all_eq_true.1 hall l hl
      obtain ⟨e', j⟩ := l
      have hj : j < w := hlane.lt
      split at hfollows
      · next o' h' l' wd' full' c' heq =>
        simp only [Bool.and_eq_true, decide_eq_true_eq] at hfollows
        obtain ⟨⟨⟨rfl, rfl⟩, rfl⟩, rfl⟩ := hfollows
        subst heq
        have hone : wd' = 1 := hlane.width
        obtain ⟨-, hbit⟩ := read_select (m := m) (o := o') henv (le_refl (j + base))
          (show j + base < full' by omega) (show wd' ≤ full' by omega) c'
        rw [htest j hj, hbit 0 (by omega), Nat.add_zero, Nat.add_comm]
      · cases hfollows
    · cases h
  · cases h

theorem eval_unary {r : Value} (h : Op.evalValueUnary native op (x.eval env m) n s = some r) :
    (ProtoExpression.unary op x n ⟨n, s⟩).eval env m = r := by
  exact henv.unary _ _ _ _ _ h

theorem bitOf_unary (hop : bitwiseUnary op = some bitwise) (hx : Bits (x.eval env m) 1) :
    bitOf env m (.unary op x 1 ⟨1, s⟩) 0 = !bitOf env m x 0 := by
  rcases (bitwiseUnary_spec hop).2 with rfl | rfl
  · obtain ⟨r, hr, -, htest⟩ := evalBitNot hx Nat.one_pos s
    rw [bitOf, eval_unary henv hr, htest 0 Nat.one_pos]
    rfl
  · obtain ⟨r, hr, -, htest⟩ := evalReduceOr hx true s
    rw [if_pos rfl] at hr
    rw [bitOf, eval_unary henv hr, htest, hx.ne_zero_iff, Bool.bne_true]
    rfl

theorem word_unary (hw : 0 < w) (hop : bitwiseUnary op = some bitwise)
    (hlanes : ∀ l ∈ lanes, LaneTyped env m w l) (hxs : descend (unaryKid op) lanes = some xs)
    (hx : Word env m w xs x) : Word env m w lanes (.unary bitwise x w (ctx w)) := by
  obtain ⟨rfl, -⟩ := bitwiseUnary_spec hop
  obtain ⟨r, hr, hbits, htest⟩ := evalBitNot hx.bits hw false
  have heval := eval_unary (m := m) henv hr
  refine ⟨by rw [ctx, heval]; exact hbits, fun l hl => ?_⟩
  obtain ⟨k, hk, hkid, hlane⟩ := (mem_descend hxs).2 l hl
  obtain ⟨n, c, he, hwidth⟩ := unaryKid_spec hkid
  have hl' := hlanes l hl
  have htyped := hl'.typed
  have hn := hl'.width
  rw [he] at htyped hn
  obtain ⟨-, s, rfl⟩ := htyped.of_unary
  obtain rfl : n = 1 := hn
  have hkbits := (laneTyped_unaryKids hlanes hxs k hk).bits
  rw [he, bitOf_unary henv hop hkbits, ← hx.lane k hk, hlane, bitOf, ctx, heval, htest l.2 hl'.lt]
  rfl

theorem bitOf_binary (hop : bitwiseBinary op = some bitwise)
    (hx : Bits (x.eval env m) 1) (hy : Bits (y.eval env m) 1) :
    bitOf env m (.binary x op y 1 ⟨1, s⟩) 0 =
      boolOp bitwise (bitOf env m x 0) (bitOf env m y 0) := by
  obtain ⟨hbitwise, rfl | ⟨rfl, rfl⟩ | ⟨rfl, rfl⟩⟩ := bitwiseBinary_spec hop
  · have heval := fun s' => evalBitwise hbitwise hx hy Nat.one_pos s'
    obtain ⟨r, hr, -, hpay⟩ := heval (binaryOperandSigned ⟨1, s⟩ op x.exprContext y.exprContext)
    rw [bitOf, eval, henv.binary _ _ _ _ _ _ hr, hpay, testBit_bitsOp]
    rfl
  · obtain ⟨r, hr, -, htest⟩ := evalLogic_bit hx hy true (binaryOperandSigned
      ⟨1, s⟩ .logicAnd x.exprContext y.exprContext)
    rw [if_pos rfl] at hr htest
    rw [bitOf, eval, henv.binary _ _ _ _ _ _ hr, htest]
    rfl
  · obtain ⟨r, hr, -, htest⟩ := evalLogic_bit hx hy false (binaryOperandSigned
      ⟨1, s⟩ .logicOr x.exprContext y.exprContext)
    rw [if_neg Bool.false_ne_true] at hr htest
    rw [bitOf, eval, henv.binary _ _ _ _ _ _ hr, htest]
    rfl

theorem bits_bitwise (hop : op = .bitAnd ∨ op = .bitOr ∨ op = .bitXor)
    (hn : 0 < n) (hx : Bits (x.eval env m) n) (hy : Bits (y.eval env m) n) :
    Bits ((ProtoExpression.binary x op y n ⟨n, s⟩).eval env m) n ∧
      ((ProtoExpression.binary x op y n ⟨n, s⟩).eval env m).payload =
        bitsOp op (x.eval env m).payload (y.eval env m).payload := by
  obtain ⟨r, hr, hbits, hpay⟩ := evalBitwise hop hx hy hn
    (binaryOperandSigned ⟨n, s⟩ op x.exprContext y.exprContext)
  rw [eval, henv.binary _ _ _ _ _ _ hr]
  exact ⟨hbits, hpay⟩

theorem word_binary (hw : 0 < w) (hop : bitwiseBinary op = some bitwise) {ys : List Lane}
    (hlanes : ∀ l ∈ lanes, LaneTyped env m w l)
    (hxs : descend (binaryKid true op) lanes = some xs)
    (hys : descend (binaryKid false op) lanes = some ys)
    (hx : Word env m w xs x) (hy : Word env m w ys y) :
    Word env m w lanes (.binary x bitwise y w (ctx w)) := by
  obtain ⟨hbits, hpay⟩ := bits_bitwise henv (bitwiseBinary_spec hop).1 (s := false) hw hx.bits
    hy.bits
  refine ⟨hbits, fun l hl => ?_⟩
  obtain ⟨k, hk, hkid, hlane⟩ := (mem_descend hxs).2 l hl
  obtain ⟨k', hk', hkid', hlane'⟩ := (mem_descend hys).2 l hl
  obtain ⟨a, b, n, c, he, -, -, ha⟩ := binaryKid_spec hkid
  obtain ⟨a', b', n', c', he', -, -, hb⟩ := binaryKid_spec hkid'
  obtain ⟨rfl, -, rfl, rfl, rfl⟩ := ProtoExpression.binary.inj (he.symm.trans he')
  rw [if_pos rfl] at ha
  rw [if_neg Bool.false_ne_true] at hb
  have htyped := (hlanes l hl).typed
  have hn := (hlanes l hl).width
  rw [he] at htyped hn
  obtain ⟨-, -, s, rfl⟩ := htyped.of_binary
  obtain rfl : n = 1 := hn
  have hkbits := (laneTyped_binaryKids hlanes hxs k hk).bits
  have hkbits' := (laneTyped_binaryKids hlanes hys k' hk').bits
  rw [ha] at hkbits
  rw [hb] at hkbits'
  have hxl := hx.lane k hk
  have hyl := hy.lane k' hk'
  rw [ha, hlane] at hxl
  rw [hb, hlane'] at hyl
  rw [he, bitOf_binary henv hop hkbits hkbits', ← hxl, ← hyl, bitOf, bitOf, bitOf, ← testBit_bitsOp]
  exact congrArg (Nat.testBit · l.2) hpay

theorem peelClip_spec (e : ProtoExpression) (ht : Typed env m e) :
    Typed env m (peelClip e) ∧ (peelClip e).width = e.width ∧
      ((peelClip e).eval env m).payload = (e.eval env m).payload := by
  induction e with
  | binary x op y n c ihx ihy =>
    obtain ⟨hx, hy, s, rfl⟩ := ht.of_binary
    cases op
    case bitAnd =>
      have hbits : Bits _ n := ht.bits
      simp only [peelClip]
      split_ifs with hright hleft
      · rw [Bool.and_eq_true, decide_eq_true_eq] at hright
        obtain ⟨hp, hwidth, hpay⟩ := ihx hx
        refine ⟨hp, hwidth.trans hright.2, hpay.trans ?_⟩
        have hxb : Bits (x.eval env m) n := hright.2 ▸ hx.bits
        rcases Nat.eq_zero_or_pos n with rfl | hn
        · exact hxb.eq_of_zero hbits
        · obtain ⟨k, hk, hyb, hones⟩ := allOnes_spec hright.1 hy
          obtain ⟨⟨r, hr, hrp⟩, -⟩ := evalAnd_ones hn hxb hyb hk hones
            (binaryOperandSigned ⟨n, s⟩ .bitAnd x.exprContext y.exprContext)
          rw [eval, henv.binary _ _ _ _ _ _ hr, hrp]
      · rw [Bool.and_eq_true, decide_eq_true_eq] at hleft
        obtain ⟨hp, hwidth, hpay⟩ := ihy hy
        refine ⟨hp, hwidth.trans hleft.2, hpay.trans ?_⟩
        have hyb : Bits (y.eval env m) n := hleft.2 ▸ hy.bits
        rcases Nat.eq_zero_or_pos n with rfl | hn
        · exact hyb.eq_of_zero hbits
        · obtain ⟨k, hk, hxb, hones⟩ := allOnes_spec hleft.1 hx
          obtain ⟨-, r, hr, hrp⟩ := evalAnd_ones hn hyb hxb hk hones
            (binaryOperandSigned ⟨n, s⟩ .bitAnd x.exprContext y.exprContext)
          rw [eval, henv.binary _ _ _ _ _ _ hr, hrp]
      · exact ⟨ht, rfl, rfl⟩
    all_goals exact ⟨ht, rfl, rfl⟩
  | _ => exact ⟨ht, rfl, rfl⟩

end

theorem evalElements_bits (hones : ∀ p ∈ es, p.2.1 = 1)
    (hbits : ∀ p ∈ es, Bits (p.1.eval env m) 1) {acc : Value} {a : ℕ} (hacc : Bits acc a) :
    Bits (evalElements env m acc es) (a + es.length) ∧
      (∀ i p, i < es.length → es[es.length - 1 - i]? = some p →
        (evalElements env m acc es).payload.testBit i = bitOf env m p.1 0) ∧
      ∀ i, (evalElements env m acc es).payload.testBit (es.length + i) = acc.payload.testBit i := by
  induction es generalizing acc a with
  | nil => exact ⟨hacc, fun i p h => absurd h (Nat.not_lt_zero i), fun i => by
    simp [evalElements]⟩
  | cons q es ih =>
    obtain ⟨e, r, ew⟩ := q
    obtain rfl : r = 1 := hones _ mem_cons_self
    have hq : Bits (e.eval env m) 1 := hbits _ mem_cons_self
    obtain ⟨hb, hlow, hhigh⟩ := ih (fun p hp => hones p (mem_cons_of_mem _ hp))
      (fun p hp => hbits p (mem_cons_of_mem _ hp)) (concat_bits hacc hq).1
    have heval : evalElements env m acc ((e, 1, ew) :: es) =
        evalElements env m (acc.concat (e.eval env m)) es := rfl
    rw [heval, length_cons]
    refine ⟨by rw [show a + (es.length + 1) = a + 1 + es.length by omega]; exact hb,
      fun i p hi hp => ?_, fun i => ?_⟩
    · rcases (show i = es.length ∨ i < es.length by omega) with rfl | hlt
      · rw [show es.length + 1 - 1 - es.length = 0 by omega] at hp
        obtain rfl := Option.some.inj hp
        have htop := hhigh 0
        rw [Nat.add_zero, testBit_concat hacc hq, if_pos rfl] at htop
        exact htop
      · rw [show es.length + 1 - 1 - i = es.length - 1 - i + 1 by omega,
          getElem?_cons_succ] at hp
        exact hlow i p hlt hp
    · have htop := hhigh (i + 1)
      rw [testBit_concat hacc hq, if_neg (succ_ne_zero i), Nat.add_sub_cancel] at htop
      rw [show es.length + 1 + i = es.length + (i + 1) by omega]
      exact htop

theorem Typed.of_concatenation (h : Typed env m (.concatenation es n c)) :
    (∀ p ∈ es, Typed env m p.1) ∧ ∀ p ∈ es, p.1.width = p.2.2 := by
  cases h with
  | concatenation hes hw => exact ⟨hes, hw⟩

theorem concatenation_bits
    (ht : Typed env m (.concatenation es n c)) (hones : ∀ p ∈ es, p.2.1 = 1 ∧ p.2.2 = 1) :
    (∀ p ∈ es, Typed env m p.1 ∧ p.1.width = 1) ∧
      Bits ((ProtoExpression.concatenation es n c).eval env m) es.length ∧
      ∀ i p, i < es.length → es[es.length - 1 - i]? = some p →
        bitOf env m (.concatenation es n c) i = bitOf env m p.1 0 := by
  obtain ⟨htyped, hwidth⟩ := ht.of_concatenation
  have hone : ∀ p ∈ es, p.1.width = 1 := fun p hp => (hwidth p hp).trans (hones p hp).2
  have hnew : Bits (new 0 0 false) 0 := ⟨rfl, rfl, Nat.one_pos⟩
  obtain ⟨hbits, hlow, -⟩ := evalElements_bits (fun p hp => (hones p hp).1)
    (fun p hp => hone p hp ▸ (htyped p hp).bits) hnew
  rw [Nat.zero_add] at hbits
  exact ⟨fun p hp => ⟨htyped p hp, hone p hp⟩, hbits.setSigned c.signed, hlow⟩

section

variable (henv : TwoState env)

include henv

theorem bitOf_split {mask : ProtoExpression} (h : split e = some (es, mask)) (ht : Typed env m e) :
    (∀ p ∈ es, Typed env m p.1 ∧ p.1.width = 1) ∧ mask.width = es.length ∧
      (bitOf env m e 0 = true ↔ ∃ k < es.length, ∃ p, es[es.length - 1 - k]? = some p ∧
        bitOf env m p.1 0 = true ∧ bitOf env m mask k = true) := by
  obtain ⟨x, c, x', y, c', rfl, hpeel, hones, hmask, k, hsides⟩ := split_spec h
  obtain ⟨hx, s, rfl⟩ := ht.of_unary
  obtain ⟨hinner, hwidth, hpay⟩ := peelClip_spec henv x hx
  rw [hpeel] at hinner hwidth hpay
  obtain ⟨hx', hy, s', rfl⟩ := hinner.of_binary
  obtain ⟨hx't, hx'w, hx'p⟩ := peelClip_spec henv x' hx'
  obtain ⟨hyt, hyw, hyp⟩ := peelClip_spec henv y hy
  -- the concatenation and the mask, whichever side they are on
  obtain ⟨cat, hcat, hcatp, hcatt, hxw, hyw'⟩ : ∃ cat, cat = .concatenation es es.length k ∧
      ((x'.eval env m).payload &&& (y.eval env m).payload =
        (cat.eval env m).payload &&& (mask.eval env m).payload) ∧ Typed env m cat ∧
      x'.width = es.length ∧ y.width = es.length := by
    rcases hsides with ⟨hc, hm⟩ | ⟨hc, hm⟩
    · refine ⟨_, rfl, ?_, hc ▸ hx't, ?_, ?_⟩
      · rw [← hc, ← hm, hx'p, hyp]
      · rw [← hx'w, hc]
        rfl
      · rw [← hyw, hm, hmask]
    · refine ⟨_, rfl, ?_, hc ▸ hyt, ?_, ?_⟩
      · rw [← hc, ← hm, hx'p, hyp, Nat.and_comm]
      · rw [← hx'w, hm, hmask]
      · rw [← hyw, hc]
        rfl
  subst hcat
  obtain ⟨htyped, hcatb, hlow⟩ := concatenation_bits hcatt hones
  refine ⟨htyped, hmask, ?_⟩
  have hwidth' : es.length = x.width := hwidth
  have hxb : Bits (x.eval env m) es.length := hwidth' ▸ hx.bits
  obtain ⟨r, hr, -, htest⟩ := evalReduceOr hxb false s
  rw [if_neg Bool.false_ne_true] at hr
  rw [bitOf, eval_unary henv hr, htest, Bool.bne_false, decide_eq_true_eq]
  have hand : (x.eval env m).payload =
      ((ProtoExpression.concatenation es es.length k).eval env m).payload &&&
        (mask.eval env m).payload := by
    rcases Nat.eq_zero_or_pos es.length with hz | hpos
    · have hone : 2 ^ es.length = 1 := by rw [hz, Nat.pow_zero]
      have h₁ := hxb.lt
      have h₂ := hcatb.lt
      rw [hone, lt_one_iff] at h₁ h₂
      rw [h₁, h₂, zero_and]
    · rw [← hpay, (bits_bitwise henv (.inl rfl) hpos (hxw ▸ hx'.bits) (hyw' ▸ hy.bits)).2]
      exact hcatp
  rw [hand]
  constructor
  · intro hne
    obtain ⟨i, hi⟩ := exists_testBit_of_ne_zero hne
    rw [testBit_and, Bool.and_eq_true] at hi
    have hlt : i < es.length := by
      by_contra hge
      rw [testBit_of_le hcatb.lt (Nat.not_lt.1 hge)] at hi
      exact Bool.false_ne_true hi.1
    have hget := getElem?_eq_getElem (show es.length - 1 - i < es.length by omega)
    exact ⟨i, hlt, _, hget, (hlow i _ hlt hget).symm.trans hi.1, hi.2⟩
  · rintro ⟨i, hlt, p, hget, hp, hmaskBit⟩ hzero
    have hbit := congrArg (Nat.testBit · i) hzero
    simp only [testBit_and, zero_testBit] at hbit
    rw [show Nat.testBit _ i = true from (hlow i p hlt hget).trans hp] at hbit
    rw [show Nat.testBit _ i = true from hmaskBit] at hbit
    cases hbit

theorem bitOf_mask {mask : ProtoExpression}
    {sel : Option (ℕ × ℕ)} (hread : plainRead mask = some (o, sel, width, full))
    (hspans : spansN sel n full = true) (hwidth : mask.width = n) :
    (sel.map (·.2)).getD 0 + n ≤ full ∧ ∀ k < n,
      bitOf env m mask k = (stored m o full).testBit ((sel.map (·.2)).getD 0 + k) := by
  obtain ⟨c, rfl⟩ := plainRead_spec hread
  obtain rfl : width = n := hwidth
  cases sel with
  | none =>
    obtain rfl : full = width := of_decide_eq_true hspans
    refine ⟨(Nat.zero_add _).le, fun k _ => ?_⟩
    rw [bitOf, read_whole henv, Option.map_none, Option.getD_none, Nat.zero_add]
  | some b =>
    simp only [spansN, Bool.and_eq_true, decide_eq_true_eq] at hspans
    obtain ⟨⟨hlo, hspan⟩, hhi⟩ := hspans
    obtain ⟨-, hbit⟩ := read_select (m := m) (o := o) henv hlo hhi (show width ≤ full by omega) c
    simp only [Option.map_some, Option.getD_some]
    exact ⟨by omega, fun k hk => hbit k (by omega)⟩

theorem bits_maskedTerm (hw : 0 < w)
    (hk : mask.low + k < mask.varFullWidth) {word : ProtoExpression}
    (hword : Bits (word.eval env m) w) :
    Bits ((maskedTerm mask w k word).eval env m) w ∧ ∀ j,
      bitOf env m (maskedTerm mask w k word) j = (bitOf env m word j &&
        (stored m mask.varOffset mask.varFullWidth).testBit (mask.low + k)) := by
  obtain ⟨hbit, hread⟩ := read_select (m := m) (o := mask.varOffset) henv
    (le_refl (mask.low + k)) hk (show 1 ≤ mask.varFullWidth by omega) (ctx 1)
  rw [Nat.sub_self, Nat.zero_add] at hbit hread
  obtain ⟨hcopies, htest⟩ := replicate_bits hbit w
  obtain ⟨hbits, hpay⟩ := bits_bitwise henv (.inl rfl) (s := false) hw hword hcopies
  refine ⟨hbits, fun j => ?_⟩
  have hj : bitOf env m (maskedTerm mask w k word) j = (bitOf env m word j && _) :=
    (congrArg (Nat.testBit · j) hpay).trans (testBit_bitsOp .bitAnd _ _ j)
  refine hj.trans ((congrArg (bitOf env m word j && ·) (htest j)).trans ?_)
  by_cases hlt : j < w
  · rw [decide_eq_true hlt, Bool.true_and, hread 0 Nat.one_pos, Nat.add_zero]
  · have hzero : bitOf env m word j = false := testBit_of_le hword.lt (Nat.not_lt.1 hlt)
    rw [hzero, Bool.false_and, Bool.false_and]

theorem bits_maskedSum (hw : 0 < w) (hwords : ∀ word ∈ words, Bits (word.eval env m) w)
    (hk : mask.low + (k + words.length) ≤ mask.varFullWidth) {acc : Option ProtoExpression}
    (hacc : ∀ a ∈ acc, Bits (a.eval env m) w)
    (h : maskedSum mask w k acc words = some e) :
    Bits (e.eval env m) w ∧ ∀ j, bitOf env m e j = true ↔
      (∃ a ∈ acc, bitOf env m a j = true) ∨ ∃ i word, words[i]? = some word ∧
        bitOf env m word j = true ∧
        (stored m mask.varOffset mask.varFullWidth).testBit (mask.low + (k + i)) = true := by
  induction words generalizing k acc with
  | nil =>
    have hsome : acc = some e := by
      cases acc <;> exact h
    subst hsome
    exact ⟨hacc e rfl, fun j => by simp⟩
  | cons word words ih =>
    rw [length_cons] at hk
    obtain ⟨hterm, htest⟩ := bits_maskedTerm henv hw
      (show mask.low + k < mask.varFullWidth by omega) (hwords word mem_cons_self)
    have hrest := fun word' h' => hwords word' (mem_cons_of_mem word h')
    -- the accumulator after this word holds it where the mask has its bit
    obtain ⟨acc', hacc', hsum, htest'⟩ : ∃ a, Bits (a.eval env m) w ∧
        maskedSum mask w (k + 1) (some a) words = some e ∧ ∀ j, bitOf env m a j = true ↔
          (∃ a ∈ acc, bitOf env m a j = true) ∨ bitOf env m word j = true ∧
            (stored m mask.varOffset mask.varFullWidth).testBit (mask.low + k) = true := by
      cases acc with
      | none =>
        refine ⟨_, hterm, h, fun j => ?_⟩
        rw [htest, Bool.and_eq_true]
        simp
      | some a =>
        have hor : Op.bitOr = .bitAnd ∨ Op.bitOr = .bitOr ∨ Op.bitOr = .bitXor := .inr (.inl rfl)
        obtain ⟨hbits, hpay⟩ := bits_bitwise henv hor (s := false) hw (hacc a rfl) hterm
        refine ⟨_, hbits, h, fun j => ?_⟩
        have hj := (congrArg (Nat.testBit · j) hpay).trans (testBit_bitsOp .bitOr _ _ j)
        have hsplit : bitOf env m (.binary a .bitOr (maskedTerm mask w k word) w ⟨w, false⟩) j =
            (bitOf env m a j || bitOf env m (maskedTerm mask w k word) j) := hj
        refine (Bool.eq_iff_iff.1 hsplit).trans ?_
        rw [Bool.or_eq_true, htest, Bool.and_eq_true]
        simp
    obtain ⟨hbits, hiff⟩ := ih hrest (by omega) (fun a ha => Option.some.inj ha ▸ hacc') hsum
    refine ⟨hbits, fun j => (hiff j).trans ?_⟩
    have hfirst : (∃ a ∈ some acc', bitOf env m a j = true) ↔ bitOf env m acc' j = true := by simp
    rw [hfirst, htest', or_assoc]
    refine or_congr_right ⟨?_, ?_⟩
    · rintro (⟨hb, hs⟩ | ⟨i, word', hget, hb, hs⟩)
      · exact ⟨0, word, rfl, hb, hs⟩
      · exact ⟨i + 1, word', hget, hb, by rwa [show k + (i + 1) = k + 1 + i by omega]⟩
    · rintro ⟨i, word', hget, hb, hs⟩
      cases i with
      | zero =>
        obtain rfl := Option.some.inj hget
        exact .inl ⟨hb, hs⟩
      | succ i => exact .inr ⟨i, word', hget, hb, by rwa [show k + 1 + i = k + (i + 1) by omega]⟩

end

theorem mem_rows (h : rows read n lanes = some rs) :
    (∀ r ∈ rs, ∃ l ∈ lanes, ∃ mask, split l.1 = some (r.1, mask) ∧ r.2 = l.2) ∧
      ∀ l ∈ lanes, ∃ es mask width, split l.1 = some (es, mask) ∧
        plainRead mask = some (read.1, read.2.1, width, read.2.2) ∧ es.length = n ∧
        (es, l.2) ∈ rs := by
  induction lanes generalizing rs with
  | nil =>
    obtain rfl := Option.some.inj h
    simp
  | cons l rest ih =>
    obtain ⟨es, mask, width, rest', hsplit, hread, hlen, hrest, rfl⟩ := rows_cons h
    obtain ⟨hfrom, hto⟩ := ih hrest
    constructor
    · rintro r hr
      rcases mem_cons.1 hr with rfl | hr
      · exact ⟨l, mem_cons_self, mask, hsplit, rfl⟩
      · obtain ⟨l', hl', hrow⟩ := hfrom r hr
        exact ⟨l', mem_cons_of_mem l hl', hrow⟩
    · rintro l' hl'
      rcases mem_cons.1 hl' with rfl | hl'
      · exact ⟨es, mask, width, hsplit, hread, hlen, mem_cons_self⟩
      · obtain ⟨es', mask', width', hs, hr, hn, hmem⟩ := hto l' hl'
        exact ⟨es', mask', width', hs, hr, hn, mem_cons_of_mem _ hmem⟩

theorem mem_column :
    l ∈ column n rs k ↔ ∃ r ∈ rs, ∃ p, r.1[n - 1 - k]? = some p ∧ l = (p.1, r.2) := by
  simp only [column, mem_filterMap, Option.map_eq_some_iff]
  constructor <;>
  · rintro ⟨r, hr, p, hp, h⟩
    exact ⟨r, hr, p, hp, h.symm⟩

theorem forall₂_of_mapM {α β : Type*} {p : α → Prop} {f : α → Option β} {l : List {x // p x}}
    {ys : List β} (h : l.mapM (fun x => f x.1) = some ys) :
    List.Forall₂ (fun x y => f x = some y) (l.map Subtype.val) ys := by
  induction l generalizing ys with
  | nil =>
    obtain rfl := Option.some.inj h
    exact .nil
  | cons x l ih =>
    simp only [mapM_cons, Option.bind_eq_bind, Option.bind_eq_some_iff, Option.pure_def,
      Option.some.injEq] at h
    obtain ⟨y, hy, ys', hys, rfl⟩ := h
    exact .cons hy (ih hys)

theorem mergeLanes_cases (h : mergeLanes lanes w = some e) :
    (∃ v, laneInvariantRead lanes = some v ∧ e = .concatenation [(v, w, 1)] w (ctx w)) ∨
    (∃ mask columns words, maskedColumns lanes = some (mask, columns) ∧
      List.Forall₂ (fun kids word => mergeLanes kids w = some word) columns words ∧
      maskedSum mask w 0 none words = some e) ∨
    windowRead lanes w = some e ∨ constantWord lanes w = some e ∨
    (∃ l op bitwise xs x, lanes.head? = some l ∧ bitwiseUnary op = some bitwise ∧
      descend (unaryKid op) lanes = some xs ∧ mergeLanes xs w = some x ∧
      e = .unary bitwise x w (ctx w)) ∨
    ∃ l op bitwise xs ys x y, lanes.head? = some l ∧ bitwiseBinary op = some bitwise ∧
      descend (binaryKid true op) lanes = some xs ∧ descend (binaryKid false op) lanes = some ys ∧
      mergeLanes xs w = some x ∧ mergeLanes ys w = some y ∧
      e = .binary x bitwise y w (ctx w) := by
  rw [mergeLanes] at h
  split at h
  · next v hv => exact .inl ⟨v, hv, (Option.some.inj h).symm⟩
  split at h
  · next mask columns hmask =>
    obtain ⟨words, hwords, hsum⟩ := Option.bind_eq_some_iff.1 h
    have hall := @forall₂_of_mapM _ _ _ (fun kids => mergeLanes kids w) _ _ hwords
    rw [attach_map_subtype_val] at hall
    exact .inr (.inl ⟨mask, columns, words, hmask, hall, hsum⟩)
  · split at h
    · exact .inr (.inr (.inl h))
    · exact .inr (.inr (.inr (.inl h)))
    · next op _ _ _ _ hhead =>
      split at h
      · next bitwise xs hop hxs =>
        obtain ⟨x, hx, rfl⟩ := Option.map_eq_some_iff.1 h
        exact .inr (.inr (.inr (.inr (.inl ⟨_, op, bitwise, xs, x, hhead, hop, hxs, hx, rfl⟩))))
      · cases h
    · next op _ _ _ _ hhead =>
      split at h
      · next bitwise xs ys hop hxs hys =>
        obtain ⟨x, hx, h⟩ := Option.bind_eq_some_iff.1 h
        obtain ⟨y, hy, rfl⟩ := Option.map_eq_some_iff.1 h
        exact .inr (.inr (.inr (.inr (.inr
          ⟨_, op, bitwise, xs, ys, x, y, hhead, hop, hxs, hys, hx, hy, rfl⟩))))
      · cases h
    · cases h

theorem mem_lanesOf :
    l ∈ lanesOf es ↔ l.2 < es.length ∧ ∃ p, es[es.length - 1 - l.2]? = some p ∧ l.1 = p.1 := by
  induction es with
  | nil => simp [lanesOf]
  | cons q es ih =>
    rw [lanesOf, mem_cons, ih, length_cons]
    constructor
    · rintro (rfl | ⟨hlt, p, hp, he⟩)
      · exact ⟨lt_succ_self _, q, by simp, rfl⟩
      · refine ⟨by omega, p, ?_, he⟩
        rw [show es.length + 1 - 1 - l.2 = es.length - 1 - l.2 + 1 by omega, getElem?_cons_succ]
        exact hp
    · rintro ⟨hlt, p, hp, he⟩
      rcases (show l.2 = es.length ∨ l.2 < es.length by omega) with htop | hlow
      · rw [htop, show es.length + 1 - 1 - es.length = 0 by omega] at hp
        obtain rfl := Option.some.inj hp
        exact .inl (Prod.ext he htop)
      · rw [show es.length + 1 - 1 - l.2 = es.length - 1 - l.2 + 1 by omega,
          getElem?_cons_succ] at hp
        exact .inr ⟨hlow, p, hp, he⟩

/-- An expression of `w` bits that has each element of a concatenation in its place, and with
that the number of the concatenation. -/
structure Exact (env : Env) (m : Mem) (es : Elements) (w : ℕ) (c : ExpressionContext)
    (e : ProtoExpression) : Prop where
  bits : Bits (e.eval env m) w
  lane : ∀ l ∈ lanesOf es, l.2 < w ∧ bitOf env m e l.2 = bitOf env m l.1 0
  same : (e.eval env m).payload = ((ProtoExpression.concatenation es w c).eval env m).payload

section

variable (henv : TwoState env)

include henv

theorem laneTyped_column (hlanes : ∀ l ∈ lanes, LaneTyped env m w l)
    (h : rows read n lanes = some rs) : ∀ l ∈ column n rs k, LaneTyped env m w l := by
  intro l hl
  obtain ⟨r, hr, p, hp, rfl⟩ := mem_column.1 hl
  obtain ⟨l', hl', mask, hsplit, hlane⟩ := (mem_rows h).1 r hr
  obtain ⟨htyped, -, -⟩ := bitOf_split henv hsplit (hlanes l' hl').typed
  obtain ⟨ht, hwidth⟩ := htyped p (mem_of_getElem? hp)
  exact ⟨ht, hwidth, hlane ▸ (hlanes l' hl').lt⟩

theorem word_masked (hw : 0 < w)
    (hlanes : ∀ l ∈ lanes, LaneTyped env m w l) {columns : List (List Lane)}
    (hmask : maskedColumns lanes = some (mask, columns))
    (hwords : List.Forall₂ (fun kids word => Word env m w kids word) columns words)
    (h : maskedSum mask w 0 none words = some e) : Word env m w lanes e := by
  cases lanes with
  | nil => cases hmask
  | cons head rest =>
    obtain ⟨es, hm, o, sel, width, full, rs, hsplit, hread, hspans, hrows, rfl, rfl⟩ :=
      maskedColumns_spec hmask
    obtain ⟨-, hmw, -⟩ := bitOf_split henv hsplit (hlanes head mem_cons_self).typed
    obtain ⟨hfit, -⟩ := bitOf_mask (m := m) henv hread hspans hmw
    have hlen : words.length = es.length := by
      rw [← hwords.length_eq, length_map, length_range]
    have hcolumn : ∀ i word, words[i]? = some word → i < es.length ∧
        Word env m w (column es.length rs i) word := by
      intro i word hget
      obtain ⟨hi, rfl⟩ := List.getElem?_eq_some_iff.1 hget
      have hrel := hwords.get (by rw [length_map, length_range]; omega) hi
      simp only [get_eq_getElem, getElem_map, getElem_range] at hrel
      exact ⟨hlen ▸ hi, hrel⟩
    obtain ⟨hbits, htest⟩ := bits_maskedSum henv hw (fun word hword => by
        obtain ⟨i, hi, rfl⟩ := getElem_of_mem hword
        exact (hcolumn i _ (getElem?_eq_getElem hi)).2.bits)
      (k := 0) (by rw [Nat.zero_add, hlen]; exact hfit) (fun a ha => by cases ha) h
    refine ⟨hbits, fun l hl => Bool.eq_iff_iff.2 ((htest l.2).trans ?_)⟩
    obtain ⟨es', mask', width', hsplit', hread', hlen', hmem⟩ := (mem_rows hrows).2 l hl
    obtain ⟨-, hmw', hiff⟩ := bitOf_split henv hsplit' (hlanes l hl).typed
    rw [hlen'] at hmw' hiff
    obtain ⟨-, hmaskBit⟩ := bitOf_mask (m := m) henv hread' hspans hmw'
    rw [hiff]
    constructor
    · rintro (⟨a, ha, -⟩ | ⟨i, word, hget, hb, hs⟩)
      · cases ha
      · obtain ⟨hi, hword⟩ := hcolumn i word hget
        have hp := getElem?_eq_getElem (show es.length - 1 - i < es'.length by omega)
        have hlane := hword.lane _ (mem_column.2 ⟨_, hmem, _, hp, rfl⟩)
        refine ⟨i, hi, _, hp, hlane.symm.trans hb, ?_⟩
        rw [hmaskBit i hi]
        rwa [Nat.zero_add] at hs
    · rintro ⟨i, hi, p, hp, hb, hs⟩
      have hget := getElem?_eq_getElem (show i < words.length by omega)
      have hlane := (hcolumn i _ hget).2.lane _ (mem_column.2 ⟨_, hmem, _, hp, rfl⟩)
      refine .inr ⟨i, _, hget, hlane.trans hb, ?_⟩
      rw [Nat.zero_add, ← hmaskBit i hi]
      exact hs

theorem mergeLanes_word (hw : 0 < w) (hw64 : w ≤ 64) (hlanes : ∀ l ∈ lanes, LaneTyped env m w l)
    (h : mergeLanes lanes w = some e) : Word env m w lanes e := by
  induction hsize : headCount lanes using Nat.strong_induction_on generalizing lanes e with
  | _ size ih =>
    subst hsize
    rcases mergeLanes_cases h with ⟨v, hv, rfl⟩ | ⟨mask, columns, words, hmask, hwords, hsum⟩ |
      hwindow | hconstant | ⟨l, op, bitwise, xs, x, hhead, hop, hxs, hx, rfl⟩ |
      ⟨l, op, bitwise, xs, ys, x, y, hhead, hop, hxs, hys, hx, hy, rfl⟩
    · exact word_invariantRead hlanes hv
    · refine word_masked henv hw hlanes hmask ?_ hsum
      have hkids : ∀ kids ∈ columns, ∀ l ∈ kids, LaneTyped env m w l := by
        cases lanes with
        | nil => cases hmask
        | cons head rest =>
          obtain ⟨_, _, _, _, _, _, rs, -, -, -, hrows, -, rfl⟩ := maskedColumns_spec hmask
          intro kids hkids
          obtain ⟨k, -, rfl⟩ := mem_map.1 hkids
          exact laneTyped_column henv hlanes hrows
      refine ((List.forall₂_and_left columns words).2 ⟨fun kids hk => hk, hwords⟩).imp ?_
      rintro kids word ⟨hmem, hmerge⟩
      exact ih _ (headCount_maskedColumns hmask hmem) (hkids kids hmem) hmerge rfl
    · exact word_windowRead henv hw hlanes hwindow
    · exact word_constant hw64 hlanes hconstant
    · exact word_unary henv hw hop hlanes hxs (ih _ (headCount_descend nodeCount_unaryKid hxs hhead)
        (laneTyped_unaryKids hlanes hxs) hx rfl)
    · exact word_binary henv hw hop hlanes hxs hys
        (ih _ (headCount_descend nodeCount_binaryKid hxs hhead)
          (laneTyped_binaryKids hlanes hxs) hx rfl)
        (ih _ (headCount_descend nodeCount_binaryKid hys hhead)
          (laneTyped_binaryKids hlanes hys) hy rfl)

theorem bits_clip (hw : 0 < w) (h : Bits (e.eval env m) w) : Bits ((clip e w).eval env m) w ∧
      ((clip e w).eval env m).payload = (e.eval env m).payload := by
  unfold clip
  split_ifs
  · exact ⟨h, rfl⟩
  · have hones : Bits ((ProtoExpression.value (.new (2 ^ w - 1) w false) w (ctx w)).eval env m) w :=
      ⟨rfl, rfl, genMask_lt w⟩
    obtain ⟨hbits, hpay⟩ := bits_bitwise henv (.inl rfl) (s := false) hw h hones
    exact ⟨hbits, hpay.trans (and_genMask_self h.lt)⟩

theorem mergeConcatenation_exact (h : mergeConcatenation minOps es w = some e)
    (ht : Typed env m (.concatenation es w c)) : Exact env m es w c e := by
  unfold mergeConcatenation at h
  split at h
  · cases h
  next hok =>
  simp only [not_or, Nat.not_lt, Decidable.not_not, any_eq_true, Bool.or_eq_true,
    decide_eq_true_eq, not_exists, not_and] at hok
  obtain ⟨hw2, hw64, rfl, hones⟩ := hok
  have hw : 0 < es.length := by omega
  dsimp only at h
  split at h
  · cases h
  obtain ⟨e', hmerge, rfl⟩ := Option.map_eq_some_iff.1 h
  obtain ⟨htyped, hcat, hlow⟩ := concatenation_bits ht hones
  have hlanes : ∀ l ∈ lanesOf es, LaneTyped env m es.length l := by
    intro l hl
    obtain ⟨hlt, p, hp, he⟩ := mem_lanesOf.1 hl
    obtain ⟨hty, hwidth⟩ := htyped p (mem_of_getElem? hp)
    exact ⟨he ▸ hty, he ▸ hwidth, hlt⟩
  have hword := mergeLanes_word henv hw hw64 hlanes hmerge
  obtain ⟨hbits, hclip⟩ := bits_clip henv hw hword.bits
  have hlane : ∀ l ∈ lanesOf es, bitOf env m (clip e' es.length) l.2 = bitOf env m l.1 0 := by
    intro l hl
    rw [← hword.lane l hl, bitOf, bitOf, hclip]
  refine ⟨hbits, fun l hl => ⟨(hlanes l hl).lt, hlane l hl⟩, ?_⟩
  refine eq_of_testBit_eq fun i => ?_
  by_cases hi : i < es.length
  · have hp := getElem?_eq_getElem (show es.length - 1 - i < es.length by omega)
    have hmem : (es[es.length - 1 - i].1, i) ∈ lanesOf es :=
      mem_lanesOf.2 ⟨hi, _, hp, rfl⟩
    exact (hlane _ hmem).trans (hlow i _ hi hp).symm
  · rw [testBit_of_le hbits.lt (Nat.not_lt.1 hi), testBit_of_le hcat.lt (Nat.not_lt.1 hi)]

end

theorem mergedExpr_spec {a : ProtoAssignStatement} (h : mergedExpr minOps a = some e) :
    ∃ es w c, a.expr = .concatenation es w c ∧ mergeConcatenation minOps es w = some e := by
  unfold mergedExpr at h
  split at h
  · cases h
  split at h
  · next es w c hexpr =>
    split at h
    · split at h
      · cases h
      · exact ⟨es, w, c, hexpr, h⟩
    · exact ⟨es, w, c, hexpr, h⟩
  · cases h

/-- Every statement stays as it is or stores the word of the lanes of its concatenation. -/
theorem laneMerge_exact (henv : TwoState env) (minOps : ℕ) (stmts : List ProtoStatement)
    (ht : ∀ a, ProtoStatement.assign a ∈ stmts → (mergedExpr minOps a).isSome = true →
      Typed env m a.expr) :
    List.Forall₂ (fun s s' => s' = s ∨ ∃ a es w c e, s = .assign a ∧
      a.expr = .concatenation es w c ∧ s' = .assign { a with expr := e } ∧
      Exact env m es w c e) stmts (laneMerge minOps stmts).1 := by
  induction stmts with
  | nil => exact .nil
  | cons s stmts ih =>
    have hrest := ih fun a ha => ht a (mem_cons_of_mem s ha)
    unfold laneMerge
    split
    · next a =>
      split
      · next e he =>
        obtain ⟨es, w, c, hexpr, hmerge⟩ := mergedExpr_spec he
        have htyped := ht a mem_cons_self (by rw [he]; rfl)
        rw [hexpr] at htyped
        exact .cons (.inr ⟨a, es, w, c, e, rfl, hexpr, rfl,
          mergeConcatenation_exact henv hmerge htyped⟩) hrest
      · exact .cons (.inl rfl) hrest
    · exact .cons (.inl rfl) hrest

/-!
A mask of two bits with one enable: `{a[1] & s, a[0] & s}`.
-/

def maskedBit (i : ℕ) : ProtoExpression :=
  .binary (.variable (.comb 0) (some (i, i)) none 1 2 (ctx 1)) .bitAnd
    (.variable (.comb 1) none none 1 1 (ctx 1)) 1 (ctx 1)

def maskedBits : ProtoExpression :=
  .concatenation [(maskedBit 1, 1, 1), (maskedBit 0, 1, 1)] 2 (ctx 2)

def maskedStore : ProtoAssignStatement := ⟨.comb 2, 2, none, none, none, maskedBits, 0, false⟩

def operatorEnv : Env :=
  { LutCompress.operatorEnv with
    evalValueUnary := fun op x w s => (Op.evalValueUnary native op x w s).getD (.new 0 0 false) }

theorem twoState_operatorEnv : TwoState operatorEnv where
  toTwoState := ⟨rfl, LutCompress.twoState_operatorEnv.binary⟩
  unary op x w s r h := by
    change (Op.evalValueUnary native op x w s).getD _ = r
    rw [h, Option.getD_some]

def enabledMem : Mem := fun o => if o = .comb 0 then 2 else if o = .comb 1 then 1 else 0

theorem typed_maskedBit {i : ℕ} (hi : i < 2) : Typed operatorEnv enabledMem (maskedBit i) := by
  have henable : Typed operatorEnv enabledMem (.variable (.comb 1) none none 1 1 (ctx 1)) :=
    .read ⟨rfl, rfl, by decide⟩
  rcases (show i = 0 ∨ i = 1 by omega) with rfl | rfl
  · have hbit : Typed operatorEnv enabledMem
        (.variable (.comb 0) (some (0, 0)) none 1 2 (ctx 1)) := .read ⟨rfl, rfl, by decide⟩
    exact .binary hbit henable ⟨rfl, rfl, by decide⟩
  · have hbit : Typed operatorEnv enabledMem
        (.variable (.comb 0) (some (1, 1)) none 1 2 (ctx 1)) := .read ⟨rfl, rfl, by decide⟩
    exact .binary hbit henable ⟨rfl, rfl, by decide⟩

theorem mergedExpr_maskedStore : (mergedExpr 0 maskedStore).isSome = true := by
  have hwindow : ∃ e, mergeLanes [(.variable (.comb 0) (some (1, 1)) none 1 2 (ctx 1), 1),
      (.variable (.comb 0) (some (0, 0)) none 1 2 (ctx 1), 0)] 2 = some e := by
    rw [mergeLanes]
    exact ⟨_, rfl⟩
  have henable : ∃ e, mergeLanes [(.variable (.comb 1) none none 1 1 (ctx 1), 1),
      (.variable (.comb 1) none none 1 1 (ctx 1), 0)] 2 = some e := by
    rw [mergeLanes]
    exact ⟨_, rfl⟩
  obtain ⟨x, hx⟩ := hwindow
  obtain ⟨y, hy⟩ := henable
  have hmerge : mergeLanes [(maskedBit 1, 1), (maskedBit 0, 0)] 2 =
      some (.binary x .bitAnd y 2 (ctx 2)) := by
    rw [mergeLanes]
    change (mergeLanes _ 2).bind _ = _
    simp [hx, hy]
  change ((mergeLanes [(maskedBit 1, 1), (maskedBit 0, 0)] 2).map _).isSome = true
  rw [hmerge]
  rfl

theorem typed_maskedBits : Typed operatorEnv enabledMem maskedBits := by
  refine .concatenation ?_ ?_ ⟨rfl, rfl, by decide⟩
  · simp only [forall_mem_cons, not_mem_nil, false_imp_iff, implies_true, and_true]
    exact ⟨typed_maskedBit (by decide), typed_maskedBit (by decide)⟩
  · simp only [forall_mem_cons, not_mem_nil, false_imp_iff, implies_true, and_true]
    exact ⟨rfl, rfl⟩

theorem laneMerge_exact_maskedBits : (laneMerge 0 [.assign maskedStore]).2 = 1 ∧
      List.Forall₂ (fun s s' => s' = s ∨ ∃ a es w c e, s = .assign a ∧
        a.expr = .concatenation es w c ∧ s' = .assign { a with expr := e } ∧
        Exact operatorEnv enabledMem es w c e) [.assign maskedStore]
        (laneMerge 0 [.assign maskedStore]).1 := by
  refine ⟨?_, laneMerge_exact twoState_operatorEnv 0 _ ?_⟩
  · obtain ⟨e, he⟩ := Option.isSome_iff_exists.1 mergedExpr_maskedStore
    simp only [laneMerge, he]
  · intro a ha _
    obtain rfl : a = maskedStore := by simpa using ha
    exact typed_maskedBits

end Veryl.Simulator.LaneVector
