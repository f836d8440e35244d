import Veryl.Synthesizer.ArithExact
import Veryl.Synthesizer.DynamicIndexExact

/-!
What the loops over adders are proved with. A build that may fail is shown to succeed on every
netlist, with the shape of its result, and to give what it promises under every assignment
that the finished netlist admits.
-/

namespace Veryl.Synthesizer.Netlist

open List

variable {build : Build (List NetId)}

variable {α β : Type} {ρ : NetId → Bool} {a b : List NetId} {x : Build α}
  {S : (NetId → Bool) → α → Prop} {R : α → Prop}

/-- Adds cells to a netlist, or fails. -/
abbrev Synth (α : Type) := Build (Except String α)

namespace Synth

def built (x : Build α) : Synth α := fun ctx => (.ok (x ctx).1, (x ctx).2)

def done (a : α) : Synth α := fun ctx => (.ok a, ctx)

/-- A step whose failure is known before a cell is added. -/
def tried : Except String (Build α) → Synth α
  | .ok x => built x
  | .error e => fun ctx => (.error e, ctx)

def andThen (x : Synth α) (f : α → Synth β) : Synth β := fun ctx =>
  match x ctx with
  | (.ok a, ctx) => f a ctx
  | (.error e, ctx) => (.error e, ctx)

end Synth

/-- Sign- or zero-extends to `width` nets, or truncates. -/
def extend (xs : List NetId) (width : ℕ) (signed : Bool) : List NetId :=
  if width ≤ xs.length then xs.take width
  else xs ++ replicate (width - xs.length)
    (if signed ∧ xs ≠ [] then netOf xs (xs.length - 1) else netConst0)

/-- The opposite where `sign` is set, by `(x ^ sign) + sign`. -/
def conditionalNegate (x : List NetId) (sign : NetId) : Synth (List NetId) :=
  (Synth.built (x.mapM fun n => cell .xor2 [n, sign])).andThen fun inv =>
    Synth.tried (rippleAdd inv (replicate x.length netConst0) sign)

/-- The result has the shape `Q` on every netlist, and is as `P` says under every assignment
that the finished netlist admits. -/
def Makes (x : Build α) (Q : α → Prop) (P : (NetId → Bool) → α → Prop) : Prop :=
  ∀ ctx, Q (x ctx).1 ∧ ∀ ρ, (x ctx).2.Consistent ρ → ctx.Consistent ρ ∧ P ρ (x ctx).1

variable {Q : α → Prop} {P : (NetId → Bool) → α → Prop} {Q' : β → Prop}
  {P' : (NetId → Bool) → β → Prop}

theorem Makes.gives (h : Makes x Q P) (ρ : NetId → Bool) : Gives ρ x (P ρ) :=
  fun ctx hctx => (h ctx).2 ρ hctx

theorem makes_of_gives (hQ : ∀ ctx, Q (x ctx).1) (hP : ∀ ρ, Gives ρ x (P ρ)) : Makes x Q P :=
  fun ctx => ⟨hQ ctx, fun ρ hctx => hP ρ ctx hctx⟩

theorem makes_pure {a : α} (hQ : Q a)
    (hP : ∀ ρ, ρ netConst0 = false → ρ netConst1 = true → P ρ a) : Makes (pure a) Q P :=
  fun _ => ⟨hQ, fun ρ hctx => ⟨hctx, hP ρ hctx.gnd hctx.vdd⟩⟩

theorem Makes.imp (h : Makes x Q P) (hQ : ∀ a, Q a → R a)
    (hP : ∀ ρ, ρ netConst0 = false → ρ netConst1 = true → ∀ a, Q a → P ρ a → S ρ a) :
    Makes x R S :=
  fun ctx => ⟨hQ _ (h ctx).1, fun ρ hctx => ⟨((h ctx).2 ρ hctx).1,
    hP ρ hctx.gnd hctx.vdd _ (h ctx).1 ((h ctx).2 ρ hctx).2⟩⟩

theorem Makes.bind {f : α → Build β} (hx : Makes x Q P)
    (hf : ∀ a, Q a → Makes (f a) Q' fun ρ b => P ρ a → P' ρ b) : Makes (x >>= f) Q' P' := by
  intro ctx
  obtain ⟨hQ, hP⟩ := hx ctx
  obtain ⟨hQ', hP'⟩ := hf (x ctx).1 hQ (x ctx).2
  refine ⟨hQ', fun ρ hctx => ?_⟩
  obtain ⟨hmid, himp⟩ := hP' ρ hctx
  exact ⟨(hP ρ hmid).1, himp (hP ρ hmid).2⟩

theorem makes_cell {kind : CellKind} {inputs : List NetId} (hn : inputs.length = kind.arity) :
    Makes (cell kind inputs) (fun _ => True) fun ρ n => ρ n = kind.eval (inputs.map ρ) :=
  makes_of_gives (fun _ => trivial) fun _ => gives_cell hn

theorem length_mapM (l : List α) (f : α → Build β) (ctx : ConvContext) :
    ((l.mapM f) ctx).1.length = l.length := by
  induction l generalizing ctx with
  | nil => rfl
  | cons a l ih =>
    rw [mapM_cons]
    exact congrArg Nat.succ (ih _)

/-- One cell for every element. -/
theorem makes_mapM {l : List α} {f : α → Build NetId} {v : (NetId → Bool) → α → Bool}
    (h : ∀ a ∈ l, ∀ ρ, Gives ρ (f a) fun n => ρ n = v ρ a) :
    Makes (l.mapM f) (fun ns => ns.length = l.length) fun ρ ns => ns.map ρ = l.map (v ρ) :=
  makes_of_gives (length_mapM l f) fun ρ => gives_mapM fun a ha => h a ha ρ

/-- It never fails. -/
def Succeeds (x : Synth α) (Q : α → Prop) (P : (NetId → Bool) → α → Prop) : Prop :=
  Makes x (fun r => ∃ a, r = .ok a ∧ Q a) fun ρ r => ∀ a, r = .ok a → P ρ a

theorem Makes.built (h : Makes x Q P) : Succeeds (Synth.built x) Q P :=
  fun ctx => ⟨⟨_, rfl, (h ctx).1⟩, fun ρ hctx => ⟨((h ctx).2 ρ hctx).1, fun a ha => by
    obtain rfl := Except.ok.inj ha
    exact ((h ctx).2 ρ hctx).2⟩⟩

theorem Succeeds.andThen {x : Synth α} {f : α → Synth β} (hx : Succeeds x Q P)
    (hf : ∀ a, Q a → Succeeds (f a) Q' fun ρ b => P ρ a → P' ρ b) :
    Succeeds (x.andThen f) Q' P' := by
  intro ctx
  obtain ⟨⟨a, ha, hQ⟩, hP⟩ := hx ctx
  have hstep : x.andThen f ctx = f a (x ctx).2 := by
    unfold Synth.andThen
    rw [← Prod.mk.eta (p := x ctx), ha]
  rw [hstep]
  obtain ⟨hok, hP'⟩ := hf a hQ (x ctx).2
  refine ⟨hok, fun ρ hctx => ?_⟩
  obtain ⟨hmid, himp⟩ := hP' ρ hctx
  obtain ⟨hbegin, hPa⟩ := hP ρ hmid
  exact ⟨hbegin, fun b hb => himp b hb (hPa a ha)⟩

theorem succeeds_done {a : α} (hQ : Q a)
    (hP : ∀ ρ, ρ netConst0 = false → ρ netConst1 = true → P ρ a) :
    Succeeds (Synth.done a) Q P :=
  (makes_pure hQ hP).built

theorem Succeeds.imp {x : Synth α} (h : Succeeds x Q P) (hQ : ∀ a, Q a → R a)
    (hP : ∀ ρ, ρ netConst0 = false → ρ netConst1 = true → ∀ a, Q a → P ρ a → S ρ a) :
    Succeeds x R S :=
  Makes.imp h (fun _ ⟨a, ha, hQa⟩ => ⟨a, ha, hQ a hQa⟩) fun ρ hgnd hvdd r ⟨a, ha, hQa⟩ hPa b hb => by
    obtain rfl := Except.ok.inj (ha.symm.trans hb)
    exact hP ρ hgnd hvdd a hQa (hPa a ha)

theorem length_rippleAddCore (hlen : a.length = b.length) (cin : NetId) (ctx : ConvContext) :
    (rippleAddCore a b cin ctx).1.1.length = a.length := by
  induction a generalizing b cin ctx with
  | nil =>
    rfl
  | cons x xs ih =>
    obtain ⟨y, ys, rfl⟩ := exists_cons_of_length_eq_add_one hlen.symm
    exact congrArg Nat.succ (ih (Nat.succ.inj hlen) _ _)

theorem length_koggeStoneAdd (a b : List NetId) (cin : NetId) (ctx : ConvContext) :
    (koggeStoneAdd a b cin ctx).1.1.length = a.length :=
  (length_mapM (List.range a.length) _ _).trans length_range

theorem length_of_rippleAdd {cin : NetId}
    (h : rippleAdd a b cin = .ok build) (ctx : ConvContext) : (build ctx).1.length = a.length := by
  unfold rippleAdd at h
  split at h
  · cases h
  · rename_i hlen
    split at h
    · obtain rfl := Except.ok.inj h
      exact length_rippleAddCore (not_not.1 hlen) cin ctx
    · obtain rfl := Except.ok.inj h
      exact length_koggeStoneAdd a b cin ctx

theorem succeeds_rippleAdd (hlen : a.length = b.length) (cin : NetId) :
    Succeeds (Synth.tried (rippleAdd a b cin)) (fun sum => sum.length = a.length) fun ρ sum =>
      number ρ sum = (number ρ a + number ρ b + (ρ cin).toNat) % 2 ^ a.length := by
  obtain ⟨build, hbuild, hgives⟩ := gives_rippleAdd hlen cin
  rw [hbuild]
  refine (makes_of_gives (length_of_rippleAdd hbuild) fun ρ => (hgives ρ).imp fun sum hsum => ?_).built
  have hlen' : (a.map ρ).length = (b.map ρ).length := by simpa using hlen
  rw [number, hsum, (busValue_rippleAddCore _ _ _ hlen').2, length_map]
  rfl

theorem run_rippleAdd {l : List NetId} {sum : Build (List NetId)}
    (h : rippleAdd a l netConst1 = .ok sum) (ctx : ConvContext) :
    (match rippleAdd a l netConst1 with
      | .ok sum => sum
      | .error _ => pure []) ctx = sum ctx := by
  rw [h]

theorem length_of_rippleSub (h : rippleSub a b = .ok build)
    (ctx : ConvContext) : (build ctx).1.length = a.length := by
  unfold rippleSub at h
  split at h
  · cases h
  rename_i hlen
  obtain rfl := Except.ok.inj h
  have hinv : a.length = ((b.mapM fun x => cell .not [x]) ctx).1.length := by
    rw [length_mapM]
    exact not_not.1 hlen
  obtain ⟨build, hbuild, -⟩ := gives_rippleAdd hinv netConst1
  have hlength := length_of_rippleAdd hbuild ((b.mapM fun x => cell .not [x]) ctx).2
  rw [← hlength]
  exact congrArg (fun out => out.1.length) (run_rippleAdd hbuild _)

/-- The difference of two buses of one width. -/
theorem succeeds_rippleSub (hlen : a.length = b.length) :
    Succeeds (Synth.tried (rippleSub a b)) (fun diff => diff.length = a.length) fun ρ diff =>
      number ρ diff = (number ρ a + 2 ^ a.length - number ρ b) % 2 ^ a.length := by
  obtain ⟨build, hbuild, hgives⟩ := gives_rippleSub hlen
  rw [hbuild]
  refine (makes_of_gives (length_of_rippleSub hbuild) fun ρ => gives_of_rails fun _ hvdd =>
    (hgives ρ hvdd).imp fun diff hdiff => ?_).built
  have hlen' : (a.map ρ).length = (b.map ρ).length := by simpa using hlen
  rw [number, hdiff, busValue_difference hlen', length_map]
  rfl

theorem number_lt (ρ : NetId → Bool) (l : List NetId) : number ρ l < 2 ^ l.length := by
  simpa [number] using busValue_lt (l.map ρ)

theorem number_append (ρ : NetId → Bool) (l l' : List NetId) :
    number ρ (l ++ l') = number ρ l + 2 ^ l.length * number ρ l' := by
  rw [number, map_append, busValue_append, length_map]
  rfl

theorem number_take (ρ : NetId → Bool) (l : List NetId) (n : ℕ) :
    number ρ (l.take n) = number ρ l % 2 ^ n := by
  rw [number, map_take, DynamicIndex.busValue_take]
  rfl

theorem number_zeros (hgnd : ρ netConst0 = false) (n : ℕ) :
    number ρ (replicate n netConst0) = 0 := by
  rw [number, map_replicate, hgnd, busValue_replicate_false]

theorem length_extend (xs : List NetId) (width : ℕ) (signed : Bool) :
    (extend xs width signed).length = width := by
  unfold extend
  split
  · rename_i hle
    rw [length_take, Nat.min_eq_left hle]
  · rw [length_append, length_replicate]
    omega

theorem map_extend (hgnd : ρ netConst0 = false) (xs : List NetId) (width : ℕ) (signed : Bool) :
    (extend xs width signed).map ρ = DynamicIndex.resize (xs.map ρ) width signed := by
  unfold extend DynamicIndex.resize
  rw [length_map]
  split
  · rw [map_take]
  rw [map_append, map_replicate]
  congr 2
  rcases xs.eq_nil_or_concat with rfl | ⟨low, top, rfl⟩
  · simpa using hgnd
  · cases signed with
    | false => simpa using hgnd
    | true =>
      rw [if_pos ⟨rfl, by simp⟩, value_netOf ρ (by simp)]
      simp

theorem number_extend (hgnd : ρ netConst0 = false) (xs : List NetId) (width : ℕ) (signed : Bool) :
    (number ρ (extend xs width signed) : ℤ) = operand signed (xs.map ρ) % 2 ^ width := by
  have htop : (xs.map ρ).getD (xs.length - 1) false = (xs.map ρ).getLastD false := by
    rw [List.getLastD_eq_getLast?, List.getLast?_eq_getElem?, getD_eq_getElem?_getD, length_map]
  have hoperand : operand signed (xs.map ρ) =
      (DynamicIndex.IndexExpr.ofVariable (xs.map ρ) signed).value := by
    unfold operand busInt DynamicIndex.IndexExpr.ofVariable
    rw [length_map, htop]
    cases signed <;> simp
  rw [number, map_extend hgnd, hoperand]
  exact DynamicIndex.busValue_ofVariable _ signed width

theorem number_extend_nat (hgnd : ρ netConst0 = false) (xs : List NetId) (width : ℕ) :
    number ρ (extend xs width false) = number ρ xs % 2 ^ width := by
  have h : (number ρ (extend xs width false) : ℤ) = (number ρ xs : ℤ) % 2 ^ width :=
    number_extend hgnd xs width false
  exact_mod_cast h

/-- A multiplexer for every place. -/
theorem map_zip_mux {s t : List NetId} (hlen : s.length = t.length) (q : Bool) :
    (s.zip t).map (fun st => CellKind.mux2.eval [q, ρ st.1, ρ st.2]) =
      if q then t.map ρ else s.map ρ := by
  have hfst := congrArg (List.map ρ) (map_fst_zip hlen.le)
  have hsnd := congrArg (List.map ρ) (List.map_snd_zip hlen.ge)
  rw [map_map] at hfst hsnd
  cases q with
  | true => exact hsnd
  | false => exact hfst

theorem map_xor_true (l : List Bool) :
    (l.map fun x => CellKind.xor2.eval [x, true]) = l.map fun x => CellKind.not.eval [x] :=
  map_congr_left fun x _ => by cases x <;> rfl

theorem map_xor_false (l : List Bool) : (l.map fun x => CellKind.xor2.eval [x, false]) = l := by
  conv_rhs => rw [← map_id l]
  exact map_congr_left fun x _ => by cases x <;> rfl

theorem succeeds_conditionalNegate (x : List NetId) (sign : NetId) :
    Succeeds (conditionalNegate x sign) (fun r => r.length = x.length) fun ρ r =>
      number ρ r = if ρ sign then (2 ^ x.length - number ρ x) % 2 ^ x.length else number ρ x := by
  refine (makes_mapM (v := fun ρ n => CellKind.xor2.eval [ρ n, ρ sign])
    fun n _ ρ => gives_cell rfl).built.andThen fun inv hinv => ?_
  refine (succeeds_rippleAdd (by simpa using hinv) sign).imp (fun r hr => hr.trans hinv)
    fun ρ hgnd _ r _ hr hvalues => ?_
  have hlt := number_lt ρ x
  rw [hr, number_zeros hgnd, hinv, number, hvalues]
  have hmap : x.map (fun n => CellKind.xor2.eval [ρ n, ρ sign]) =
      (x.map ρ).map fun v => CellKind.xor2.eval [v, ρ sign] := by
    rw [map_map]
    rfl
  rw [hmap]
  cases hsign : ρ sign with
  | true =>
    have hnot := busValue_not (x.map ρ)
    rw [length_map, ← number] at hnot
    rw [map_xor_true, if_pos rfl, Bool.toNat_true]
    congr 1
    omega
  | false =>
    rw [map_xor_false, if_neg Bool.false_ne_true, Bool.toNat_false, ← number]
    exact Nat.mod_eq_of_lt hlt

end Veryl.Synthesizer.Netlist
