import Veryl.Simulator.Walk

/-!
What a statement reads, stores and emits, byte by byte, and the two facts about
its runs everything else uses: a run leaves the rest of the storage alone, and
runs from storages that agree on what it reads behave alike, also where a
translation has moved what it touches.
-/

namespace Veryl.Simulator

open Veryl.Analyzer Veryl.Library List
open VarOffset (add_add)

variable {a : Access} {w : ℕ} {base : VarOffset} {bs : List Access} {expr : ProtoExpression}

variable {m m' : Mem} {use4state : Bool} {v : Visit} {o : VarOffset} {nb : ℕ} {as : List Access}
  {s : ProtoStatement} {elements : List ReadmemhElement} {env : Env}

namespace ProtoExpression

/-- The slots the index of a select may read. -/
def selectAccesses (use4state : Bool) (ds : Option ProtoDynamicBitSelect) : List Access :=
  ds.toList.flatMap fun d => d.2.accesses use4state

theorem evalSelect_remapSelect {f : VarOffset → VarOffset}
    (ds : Option ProtoDynamicBitSelect) (h : Agree f m m' (selectAccesses env.use4state ds)) :
    evalSelect env m' (remapSelect f ds) = evalSelect env m ds := by
  refine evalSelect_congr fun d hd => eval_remapOffsetsWith _ (h.subset ?_)
  obtain rfl := hd
  simp [selectAccesses]

end ProtoExpression

/-- The slot a store of the given width fills. -/
def storeSlot (use4state : Bool) (dst : VarOffset) (dstWidth : ℕ) : Access :=
  ⟨dst, 0, valueSize (nativeBytes dstWidth) use4state⟩

/-- The slots a store through a runtime index may fill. -/
def storeElements (use4state : Bool) (x : ProtoAssignDynamicStatement) : List Access :=
  stridedAccesses x.dstBase x.dstStride x.dstNumElements
    (valueSize (nativeBytes x.dstWidth) use4state)

def ProtoForBound.accesses (use4state : Bool) : ProtoForBound → List Access
  | .const _ _ => []
  | .dynamic e => e.accesses use4state

namespace Visit

/-- The slots an item may read. A store of a part reads the rest of its slot. -/
def reads (use4state : Bool) : Visit → List Access
  | .cond e => e.accesses use4state
  | .assign x =>
    x.expr.accesses use4state ++ ProtoExpression.selectAccesses use4state x.dynamicSelect ++
      if x.select.isSome ∨ x.dynamicSelect.isSome then [storeSlot use4state x.dst x.dstWidth]
      else []
  | .assignDynamic x =>
    x.dstIndexExpr.accesses use4state ++ x.expr.accesses use4state ++
      ProtoExpression.selectAccesses use4state x.dynamicSelect ++
      if x.select.isSome ∨ x.dynamicSelect.isSome then storeElements use4state x else []
  | .loop x => x.range.start.accesses use4state ++ x.range.end_.accesses use4state
  | .call (.display _ args) | .call (.write _ args) => args.flatMap (·.accesses use4state)
  | .call (.assert _ condition _ args) =>
    condition.accesses use4state ++ args.flatMap (·.accesses use4state)
  | .call (.readmemh ..) | .call .finish | .compiled _ | .tb _ => []

/-- The slots an item may store into. -/
def writes (use4state : Bool) : Visit → List Access
  | .assign x => if x.ffIsPacked then [] else [storeSlot use4state x.dst x.dstWidth]
  | .assignDynamic x => if x.ffIsPacked then [] else storeElements use4state x
  | .loop x => [⟨x.varOffset, 0, valueSize x.varNativeBytes use4state⟩]
  | .call (.readmemh _ elements width) =>
    elements.flatMap fun e =>
      storeSlot use4state e.current width ::
        e.nextOffset.toList.map fun next => storeSlot use4state (.ff next) width
  | _ => []

/-- Whether an item can emit anything but the report of a stuck loop. -/
def mayEmit : Visit → Bool
  | .assign x => x.ffLogOffset.isSome
  | .assignDynamic x => 0 < x.dstNumElements && x.ffLogBaseCurrentOffset.isSome
  | .call (.display ..) | .call (.write ..) | .call (.assert ..) => true
  | _ => false

/-- The slots of the destination of a store. -/
def destination (use4state : Bool) : Visit → List Access
  | .assign x => [storeSlot use4state x.dst x.dstWidth]
  | .assignDynamic x => storeElements use4state x
  | _ => []

theorem mem_reads (h : a ∈ v.reads use4state) :
    (∃ e ∈ v.operands, a ∈ e.accesses use4state) ∨ a ∈ v.destination use4state := by
  have bound : ∀ {b : ProtoForBound} {r : ProtoForRange}, (b = r.start ∨ b = r.end_) →
      a ∈ b.accesses use4state → ∃ e ∈ r.dynamicBounds, a ∈ e.accesses use4state := by
    intro b r hb ha
    cases b with
    | const c signed => cases ha
    | dynamic e =>
      refine ⟨e, mem_filterMap.2 ⟨.dynamic e, ?_, rfl⟩, ha⟩
      rcases hb with hb | hb <;> simp [← hb]
  have select : ∀ {ds : Option ProtoDynamicBitSelect},
      a ∈ ProtoExpression.selectAccesses use4state ds →
      ∃ e ∈ ds.toList.map (·.2), a ∈ e.accesses use4state := by
    intro ds ha
    obtain ⟨d, hd, ha⟩ := mem_flatMap.1 ha
    exact ⟨d.2, mem_map_of_mem hd, ha⟩
  cases v with
  | cond e => exact .inl ⟨e, mem_singleton.2 rfl, h⟩
  | assign x =>
    simp only [reads, mem_append] at h
    rcases h with (h | h) | h
    · exact .inl ⟨x.expr, by simp [operands], h⟩
    · obtain ⟨e, he, ha⟩ := select h
      exact .inl ⟨e, mem_cons_of_mem _ he, ha⟩
    · split at h
      · exact .inr h
      · cases h
  | assignDynamic x =>
    simp only [reads, mem_append] at h
    rcases h with ((h | h) | h) | h
    · exact .inl ⟨x.dstIndexExpr, by simp [operands], h⟩
    · exact .inl ⟨x.expr, by simp [operands], h⟩
    · obtain ⟨e, he, ha⟩ := select h
      exact .inl ⟨e, mem_cons_of_mem _ (mem_cons_of_mem _ he), ha⟩
    · split at h
      · exact .inr h
      · cases h
  | loop x =>
    rcases mem_append.1 h with h | h
    · exact .inl (bound (.inl rfl) h)
    · exact .inl (bound (.inr rfl) h)
  | call x =>
    cases x with
    | display fmt es => exact .inl (mem_flatMap.1 h)
    | write fmt es => exact .inl (mem_flatMap.1 h)
    | assert kind condition fmt es =>
      rcases mem_append.1 h with h | h
      · exact .inl ⟨condition, mem_cons_self, h⟩
      · obtain ⟨e, he, ha⟩ := mem_flatMap.1 h
        exact .inl ⟨e, mem_cons_of_mem _ he, ha⟩
    | readmemh filename elements width => cases h
    | finish => cases h
  | compiled x => cases h
  | tb m => cases h

end Visit

namespace ProtoStatement

def reads (use4state : Bool) (s : ProtoStatement) : List Access :=
  (s.walk true).flatMap (Visit.reads use4state)

def writes (use4state : Bool) (s : ProtoStatement) : List Access :=
  (s.walk true).flatMap (Visit.writes use4state)

def mayEmit (s : ProtoStatement) : Bool := (s.walk true).any Visit.mayEmit

end ProtoStatement

/-- The bytes a list of accesses covers. -/
def cellsOf (accesses : List Access) : Set VarOffset := {b | ∃ a ∈ accesses, b ∈ a.cells}

def Output.isStuck : Output → Bool
  | .stuckLoop _ _ => true
  | _ => false

section Frame

variable {env : Env} {W : Set VarOffset} {emits : Prop}

/-- Storage unchanged outside `W`. -/
def UnchangedOff (W : Set VarOffset) (m m' : Mem) : Prop := ∀ b ∉ W, m' b = m b

instance : Std.Refl (UnchangedOff W) := ⟨fun _ _ _ => rfl⟩

theorem UnchangedOff.trans {m'' : Mem} (h : UnchangedOff W m m')
    (h' : UnchangedOff W m' m'') : UnchangedOff W m m'' :=
  fun b hb => (h' b hb).trans (h b hb)

instance : IsTrans Mem (UnchangedOff W) := ⟨fun _ _ _ => UnchangedOff.trans⟩

theorem UnchangedOff.write (m : Mem) (v : Value)
    (h : (Access.mk o 0 (valueSize nb use4state)).cells ⊆ W) :
    UnchangedOff W m (m.writeNativeValue o nb use4state v) := by
  intro b hb
  refine Mem.writeNativeValue_of_not_mem _ _ _ fun i hi he => hb (h ⟨i, hi, ?_⟩)
  simpa using he

/-- What a run of an item may do: store inside `W`, and emit only if `emits`. -/
abbrev Framed (W : Set VarOffset) (emits : Prop) {α : Type} (x : Exec α) : Prop :=
  Computation.Guarantees (UnchangedOff W) (fun o => o.isStuck = false → emits) x

theorem framed_deposit {isPacked : Bool} {log : Option ℤ} {span : Option (ℕ × ℕ)} (v : Option Value)
    (hslot : isPacked = false → (storeSlot env.use4state o w).cells ⊆ W)
    (hlog : log.isSome → emits) : Framed W emits (deposit env o w isPacked log span v) := by
  cases v with
  | none => exact .pure _
  | some v =>
    refine .bind (.modify fun m => ?_) fun _ => .emit ?_
    · cases isPacked with
      | true => exact Std.Refl.refl m
      | false => exact UnchangedOff.write m v (hslot rfl)
    · intro out hout _
      cases log with
      | none => simp at hout
      | some base => exact hlog rfl

theorem unchangedOff_readmemhLoad
    (hcur : ∀ e ∈ elements, (Access.mk e.current 0 (valueSize nb env.use4state)).cells ⊆ W)
    (hnext : ∀ e ∈ elements, ∀ next ∈ e.nextOffset,
      (Access.mk (.ff next) 0 (valueSize nb env.use4state)).cells ⊆ W)
    (items : List HexItem) (i : ℕ) (m : Mem) :
    UnchangedOff W m (readmemhLoad env elements nb items i m) := by
  induction items generalizing i m with
  | nil => exact Std.Refl.refl m
  | cons item items ih =>
    cases item with
    | address a => exact ih a m
    | word v =>
      cases he : elements[i]? with
      | none => simpa [readmemhLoad, he] using Std.Refl.refl m
      | some e =>
        have hmem : e ∈ elements := mem_of_getElem? he
        have h₁ := UnchangedOff.write m v (hcur e hmem)
        cases hn : e.nextOffset with
        | none => simpa [readmemhLoad, he, hn] using h₁.trans (ih _ _)
        | some next =>
          have h₂ := UnchangedOff.write (m.writeNativeValue e.current nb env.use4state v) v
            (hnext e hmem next hn)
          simpa [readmemhLoad, he, hn] using h₁.trans (h₂.trans (ih _ _))

theorem cells_subset_cellsOf (h : a ∈ as) : a.cells ⊆ cellsOf as :=
  fun _ hb => ⟨a, h, hb⟩

theorem element_mem_stridedAccesses {stride : ℤ} {n bytes i : ℕ} (hi : i < n) :
    ⟨base, stride * i, bytes⟩ ∈ stridedAccesses base stride n bytes :=
  mem_map.2 ⟨i, by simpa using hi, rfl⟩

theorem cells_element (base : VarOffset) (delta : ℤ) (bytes : ℕ) :
    (Access.mk (base.add delta) 0 bytes).cells = (Access.mk base delta bytes).cells := by
  simp [Access.cells]

theorem Visit.framed (hW : cellsOf (v.writes env.use4state) ⊆ W) (hE : v.mayEmit → emits) :
    v.Satisfies (fun x _ => Framed W emits x) id env := by
  cases v with
  | cond e => exact .read _
  | assign x =>
    refine .bind (.read _) fun v => framed_deposit v (fun hp => ?_) hE
    exact (cells_subset_cellsOf (by simp [Visit.writes, hp])).trans hW
  | assignDynamic x =>
    refine .bind (.read _) fun index => ?_
    cases index with
    | none => exact .pure _
    | some i =>
      by_cases hi : i < x.dstNumElements
      · simp only [hi, if_true]
        refine .bind (.read _) fun v => framed_deposit v (fun hp => ?_) fun hlog => hE ?_
        · rw [storeSlot, cells_element]
          refine (cells_subset_cellsOf ?_).trans hW
          simpa [Visit.writes, hp, storeElements] using element_mem_stridedAccesses hi
        · simpa [Visit.mayEmit, Nat.zero_lt_of_lt hi] using hlog
      · simpa [hi] using .pure _
  | loop x =>
    refine ⟨.read _, fun i => .modify fun m => ?_, fun i => .emit (by simp [Output.isStuck])⟩
    exact UnchangedOff.write m _ ((cells_subset_cellsOf (by simp [Visit.writes])).trans hW)
  | call x =>
    cases x with
    | display fmt args => exact .bind (.read _) fun _ => .emit fun _ _ _ => hE rfl
    | write fmt args => exact .bind (.read _) fun _ => .emit fun _ _ _ => hE rfl
    | readmemh filename elements width =>
      refine .modify fun m => unchangedOff_readmemhLoad (fun e he => ?_) (fun e he n hn => ?_) _ _ m
      · refine (cells_subset_cellsOf ?_).trans hW
        exact mem_flatMap.2 ⟨e, he, mem_cons_self⟩
      · refine (cells_subset_cellsOf ?_).trans hW
        refine mem_flatMap.2 ⟨e, he, mem_cons_of_mem _ ?_⟩
        exact mem_map.2 ⟨n, by simpa using hn, rfl⟩
    | assert kind condition fmt args =>
      refine .bind (.read _) fun r => ?_
      dsimp only
      split
      · exact .emit fun _ _ _ => hE rfl
      · exact .pure _
    | finish => exact .pure _
  | compiled x => trivial
  | tb m => trivial

theorem ProtoStatement.framed_exec (env : Env) (s : ProtoStatement) :
    Framed (cellsOf (s.writes env.use4state)) (s.mayEmit) (s.exec env) := by
  refine exec_congr (Φ := fun x _ => Framed (cellsOf (s.writes env.use4state)) s.mayEmit x)
    (f := id) Computation.Guarantees.congruence (fun _ => rfl)
    fun v hv => Visit.framed ?_ fun hE => ?_
  · rintro b ⟨a, ha, hb⟩
    exact ⟨a, mem_flatMap.2 ⟨v, hv, ha⟩, hb⟩
  · exact any_eq_true.2 ⟨v, hv, hE⟩

end Frame

/-! ### Relocation

`f` translates the offsets in statements and `φ` the bytes of storage. `K` is
the part of the storage that is moved faithfully and `W` what is stored into. -/

section Relocation

variable {env : Env} {f φ : VarOffset → VarOffset} {K W : Set VarOffset}

/-- Flip-flops stay in place, and no stored byte lands on another kept one. -/
structure Relocation (f φ : VarOffset → VarOffset) (K W : Set VarOffset) : Prop where
  ff : ∀ o, o.isFf → f o = o
  isFf : ∀ o, (f o).isFf = o.isFf
  inj : ∀ a ∈ W, ∀ b ∈ K, φ a = φ b → a = b

/-- The translation of the base moves every byte of the access. -/
def Access.Rigid (f φ : VarOffset → VarOffset) (a : Access) : Prop :=
  ∀ k < a.bytes, (f a.base).add (a.delta + k) = φ (a.base.add (a.delta + k))

/-- `m'` holds the bytes `K` of `m` where `φ` puts them. -/
def Relocated (φ : VarOffset → VarOffset) (K : Set VarOffset) (m m' : Mem) : Prop :=
  ∀ b ∈ K, m' (φ b) = m b

/-- Every access is moved rigidly and lies in `K`. -/
def Placed (f φ : VarOffset → VarOffset) (K : Set VarOffset) (as : List Access) : Prop :=
  ∀ a ∈ as, a.Rigid f φ ∧ a.cells ⊆ K

theorem Placed.subset (h : Placed f φ K bs) (hsub : as ⊆ bs) : Placed f φ K as :=
  fun a ha => h a (hsub ha)

@[simp] theorem placed_append : Placed f φ K (as ++ bs) ↔ Placed f φ K as ∧ Placed f φ K bs :=
  forall_mem_append

theorem Relocated.agree (h : Relocated φ K m m') (ha : Placed f φ K as) : Agree f m m' as := by
  intro a hmem k hk
  rw [(ha a hmem).1 k hk]
  exact h _ ((ha a hmem).2 ⟨k, hk, rfl⟩)

/-- A store keeps two storages related. -/
theorem Relocated.write (hr : Relocation f φ K W) {delta : ℤ} (v : Value)
    (ha : (Access.mk base delta (valueSize nb use4state)).Rigid f φ)
    (hW : (Access.mk base delta (valueSize nb use4state)).cells ⊆ W) (h : Relocated φ K m m') :
    Relocated φ K (m.writeNativeValue (base.add delta) nb use4state v)
      (m'.writeNativeValue ((f base).add delta) nb use4state v) := by
  intro b hb
  by_cases hin : ∃ i < valueSize nb use4state, b = (base.add delta).add i
  · obtain ⟨i, hi, rfl⟩ := hin
    have hmove := ha i hi
    rw [Mem.writeNativeValue_of_mem _ _ _ hi, add_add, ← hmove, ← add_add,
      Mem.writeNativeValue_of_mem _ _ _ hi]
  · have hold : ∀ i < valueSize nb use4state, b ≠ (base.add delta).add i :=
      fun i hi he => hin ⟨i, hi, he⟩
    have hnew : ∀ i < valueSize nb use4state, φ b ≠ ((f base).add delta).add i := by
      intro i hi he
      rw [add_add, ha i hi] at he
      have := hr.inj _ (hW ⟨i, hi, rfl⟩) b hb he.symm
      exact hold i hi (by rw [← this, add_add])
    rw [Mem.writeNativeValue_of_not_mem _ _ _ hold, Mem.writeNativeValue_of_not_mem _ _ _ hnew]
    exact h b hb

theorem storeRhs_congr (rhsSelect : Option (ℕ × ℕ))
    (w : ℕ) (h : Agree f m m' (expr.accesses env.use4state)) :
    storeRhs env m' (expr.remapOffsetsWith f) rhsSelect w = storeRhs env m expr rhsSelect w := by
  simp [storeRhs, ProtoExpression.eval_remapOffsetsWith _ h]

theorem storedValue_congr {o' : VarOffset} {sel : Option (ℕ × ℕ)}
    {ds : Option (DynamicBitSelect × Value)} (v : Value)
    (h : sel.isSome ∨ ds.isSome → ∀ k < valueSize (nativeBytes w) env.use4state,
      m' (o'.add k) = m (o.add k)) :
    storedValue env m' o' w sel ds v = storedValue env m o w sel ds v := by
  by_cases hsel : sel.isSome ∨ ds.isSome
  · simp only [storedValue, Mem.readNativeValue_congr _ _ (h hsel)]
  · cases sel <;> cases ds <;> simp_all [storedValue]

theorem sim_deposit (env : Env) (hr : Relocation f φ K W) (base : VarOffset) (delta : ℤ) (w : ℕ)
    (isPacked : Bool) (log : Option ℤ) (span : Option (ℕ × ℕ)) (v : Option Value)
    (hslot : isPacked = false →
      (Access.mk base delta (valueSize (nativeBytes w) env.use4state)).Rigid f φ ∧
        (Access.mk base delta (valueSize (nativeBytes w) env.use4state)).cells ⊆ W) :
    Computation.Sim (Relocated φ K) (deposit env (base.add delta) w isPacked log span v)
      (deposit env ((f base).add delta) w isPacked log span v) := by
  cases v with
  | none => exact .pure _
  | some v =>
    refine .bind (.modify fun m m' h => ?_) fun _ => .emit _
    cases isPacked with
    | true => exact h
    | false => exact h.write hr v (hslot rfl).1 (hslot rfl).2

theorem relocated_readmemhLoad (hr : Relocation f φ K W) {filename : String} {width : ℕ}
    (h : Placed f φ W ((Visit.call (.readmemh filename elements width)).writes env.use4state))
    (items : List HexItem) (i : ℕ) (hm : Relocated φ K m m') :
    Relocated φ K (readmemhLoad env elements (nativeBytes width) items i m)
      (readmemhLoad env (elements.map fun e => { e with current := f e.current })
        (nativeBytes width) items i m') := by
  have hcur : ∀ e ∈ elements, _ := fun e he =>
    h _ (mem_flatMap.2 ⟨e, he, mem_cons_self⟩)
  have hnext : ∀ e ∈ elements, ∀ next ∈ e.nextOffset, _ := fun e he next hn =>
    h (storeSlot env.use4state (.ff next) width) (mem_flatMap.2
      ⟨e, he, mem_cons_of_mem _ (mem_map.2 ⟨next, by simpa using hn, rfl⟩)⟩)
  induction items generalizing i m m' with
  | nil => exact hm
  | cons item items ih =>
    cases item with
    | address a => exact ih a hm
    | word v =>
      cases he : elements[i]? with
      | none => simpa [readmemhLoad, he] using hm
      | some e =>
        have hmem : e ∈ elements := mem_of_getElem? he
        have h₁ := hm.write hr v (hcur e hmem).1 (hcur e hmem).2
        cases hn : e.nextOffset with
        | none => simpa [readmemhLoad, he, hn] using ih (i + 1) h₁
        | some next =>
          have h₂ := h₁.write hr v (hnext e hmem next hn).1 (hnext e hmem next hn).2
          rw [hr.ff (.ff next) rfl] at h₂
          simpa [readmemhLoad, he, hn] using ih (i + 1) h₂

theorem Relocation.isPacked_eq (hr : Relocation f φ K W) (o : VarOffset) (combDirect : Bool)
    (current : ℤ) :
    ((f o).isFf && !combDirect && (f o).raw == current) =
      (o.isFf && !combDirect && o.raw == current) := by
  cases h : o.isFf with
  | true => rw [hr.ff o h, h]
  | false => rw [hr.isFf, h]; rfl

theorem stored_congr (base : VarOffset) (delta : ℤ) (w : ℕ)
    (sel rhsSelect : Option (ℕ × ℕ)) {ds : Option ProtoDynamicBitSelect} (hm : Relocated φ K m m')
    (hexpr : Placed f φ K (expr.accesses env.use4state))
    (hds : Placed f φ K (ProtoExpression.selectAccesses env.use4state ds))
    (hslot : sel.isSome ∨ ds.isSome →
      (Access.mk base delta (valueSize (nativeBytes w) env.use4state)).Rigid f φ ∧
        (Access.mk base delta (valueSize (nativeBytes w) env.use4state)).cells ⊆ K) :
    storedValue env m' ((f base).add delta) w sel
        (ProtoExpression.evalSelect env m' (ProtoExpression.remapSelect f ds))
        (storeRhs env m' (expr.remapOffsetsWith f) rhsSelect w) =
      storedValue env m (base.add delta) w sel (ProtoExpression.evalSelect env m ds)
        (storeRhs env m expr rhsSelect w) := by
  rw [ProtoExpression.evalSelect_remapSelect ds (hm.agree hds), storeRhs_congr _ _ (hm.agree hexpr)]
  refine storedValue_congr _ fun hsel k hk => ?_
  have hds' : (ProtoExpression.evalSelect env m ds).isSome = ds.isSome := by
    cases ds <;> rfl
  obtain ⟨hrigid, hK⟩ := hslot (by rwa [hds'] at hsel)
  rw [add_add, add_add, hrigid k hk]
  exact hm _ (hK ⟨k, hk, rfl⟩)

theorem bound_congr (b : ProtoForBound) (hm : Relocated φ K m m')
    (h : Placed f φ K (b.accesses env.use4state)) :
    (b.remapOffsetsWith f).eval env m' = b.eval env m := by
  cases b with
  | const v signed => rfl
  | dynamic e =>
    simp [ProtoForBound.remapOffsetsWith, ProtoForBound.eval,
      ProtoExpression.eval_remapOffsetsWith e (hm.agree h)]

/-- An item runs alike from related storages. -/
theorem Visit.sim (hr : Relocation f φ K W) (hreads : Placed f φ K (v.reads env.use4state))
    (hwrites : Placed f φ W (v.writes env.use4state)) :
    v.Satisfies (Computation.Sim (Relocated φ K)) f env := by
  have eval_eq : ∀ {e : ProtoExpression} {m m' : Mem},
      Placed f φ K (e.accesses env.use4state) → Relocated φ K m m' →
        (e.remapOffsetsWith f).eval env m' = e.eval env m :=
    fun h hm => ProtoExpression.eval_remapOffsetsWith _ (hm.agree h)
  have args_eq : ∀ {args : List ProtoExpression} {m m' : Mem},
      Placed f φ K (args.flatMap (·.accesses env.use4state)) → Relocated φ K m m' →
        (args.map (·.remapOffsetsWith f)).map (·.eval env m') = args.map (·.eval env m) := by
    intro args m m' h hm
    rw [map_map]
    refine map_congr_left fun e he => eval_eq (h.subset ?_) hm
    exact fun a ha => mem_flatMap.2 ⟨e, he, ha⟩
  cases v with
  | cond e => exact .read fun m m' hm => by rw [eval_eq hreads hm]
  | assign x =>
    simp only [Visit.reads, placed_append] at hreads
    obtain ⟨⟨hexpr, hds⟩, hslot⟩ := hreads
    have hpacked : (x.remapOffsetsWith f).ffIsPacked = x.ffIsPacked :=
      hr.isPacked_eq x.dst x.combDirect x.dstFfCurrentOffset
    have hlog : (x.remapOffsetsWith f).ffLogOffset = x.ffLogOffset := by
      simp [ProtoAssignStatement.ffLogOffset, ProtoAssignStatement.remapOffsetsWith, hr.isFf]
    refine .bind (.read fun m m' hm => ?_) fun v => ?_
    · have := stored_congr x.dst 0 x.dstWidth x.select x.rhsSelect hm hexpr hds
        fun hsel => hslot _ (by simp [hsel, storeSlot])
      simpa [ProtoAssignStatement.remapOffsetsWith] using this.symm
    · rw [hpacked, hlog]
      have := sim_deposit env hr x.dst 0 x.dstWidth x.ffIsPacked x.ffLogOffset
        (if x.dynamicSelect.isSome then none else x.select) v
        fun hp => hwrites _ (by simp [Visit.writes, hp, storeSlot])
      simpa [ProtoAssignStatement.remapOffsetsWith, ProtoExpression.remapSelect_isSome] using this
  | assignDynamic x =>
    simp only [Visit.reads, placed_append] at hreads
    obtain ⟨⟨⟨hindex, hexpr⟩, hds⟩, hslot⟩ := hreads
    have hpacked : (x.remapOffsetsWith f).ffIsPacked = x.ffIsPacked :=
      hr.isPacked_eq x.dstBase x.combDirect x.dstFfCurrentBaseOffset
    have hlog : (x.remapOffsetsWith f).ffLogBaseCurrentOffset = x.ffLogBaseCurrentOffset := by
      simp [ProtoAssignDynamicStatement.ffLogBaseCurrentOffset,
        ProtoAssignDynamicStatement.remapOffsetsWith, hr.isFf]
    refine .bind (.read fun m m' hm => by rw [← eval_eq hindex hm]; rfl) fun index => ?_
    cases index with
    | none => exact .pure _
    | some i =>
      by_cases hi : i < x.dstNumElements
      · have helem : ∀ {K' : Set VarOffset}, Placed f φ K' (storeElements env.use4state x) → _ :=
          fun {K'} h => h _ (element_mem_stridedAccesses hi)
        simp only [hi, if_true]
        rw [if_pos (show i < (x.remapOffsetsWith f).dstNumElements from hi)]
        refine .bind (.read fun m m' hm => ?_) fun v => ?_
        · have := stored_congr x.dstBase (x.dstStride * i) x.dstWidth x.select x.rhsSelect hm
            hexpr hds fun hsel => helem (by simpa [hsel] using hslot)
          exact this.symm
        · rw [hpacked, hlog]
          exact sim_deposit env hr _ _ _ _ _ _ v fun hp =>
            helem (by simpa [Visit.writes, hp] using hwrites)
      · simp only [hi, if_false]
        rw [if_neg (show ¬ i < (x.remapOffsetsWith f).dstNumElements from hi)]
        exact .pure _
  | loop x =>
    simp only [Visit.reads, placed_append] at hreads
    refine ⟨.read fun m m' hm => ?_, fun i => .modify fun m m' hm => ?_, fun i => .emit _⟩
    · have hs := bound_congr _ hm hreads.1
      have he := bound_congr _ hm hreads.2
      cases h : x.range <;>
        simp_all [ProtoForStatement.remapOffsetsWith, ProtoForRange.remapOffsetsWith,
          ProtoForRange.start, ProtoForRange.end_]
    · have hw := hwrites _ mem_cons_self
      simpa [ProtoForStatement.remapOffsetsWith] using hm.write hr _ hw.1 hw.2
  | call x =>
    cases x with
    | display fmt args =>
      exact .bind (.read fun m m' hm => (args_eq hreads hm).symm) fun _ => .emit _
    | write fmt args =>
      exact .bind (.read fun m m' hm => (args_eq hreads hm).symm) fun _ => .emit _
    | readmemh filename elements width =>
      exact .modify fun m m' hm => relocated_readmemhLoad hr hwrites _ _ hm
    | assert kind condition fmt args =>
      simp only [Visit.reads, placed_append] at hreads
      refine .bind (.read fun m m' hm => ?_) fun r => ?_
      · rw [eval_eq hreads.1 hm, args_eq hreads.2 hm]
      · dsimp only
        split
        · exact .emit _
        · exact .pure _
    | finish => exact .pure _
  | compiled x => trivial
  | tb m => trivial

namespace ProtoStatement

theorem sim_exec (hr : Relocation f φ K W) (hcb : s.containsCb → f = id)
    (hreads : Placed f φ K (s.reads env.use4state))
    (hwrites : Placed f φ W (s.writes env.use4state)) :
    Computation.Sim (Relocated φ K) (s.exec env) ((s.remapOffsetsWith f).exec env) := by
  refine exec_congr Computation.Sim.congruence hcb fun v hv => Visit.sim hr ?_ ?_
  · exact hreads.subset fun a ha => mem_flatMap.2 ⟨v, hv, ha⟩
  · exact hwrites.subset fun a ha => mem_flatMap.2 ⟨v, hv, ha⟩

theorem relocation_id (K W : Set VarOffset) : Relocation id id K W :=
  ⟨fun _ _ => rfl, fun _ => rfl, fun _ _ _ _ h => h⟩

theorem placed_id {K : Set VarOffset} (h : cellsOf as ⊆ K) : Placed id id K as :=
  fun _ ha => ⟨fun _ _ => rfl, (cells_subset_cellsOf ha).trans h⟩

theorem sim_exec_of_reads (h : cellsOf (s.reads env.use4state) ⊆ K) :
    Computation.Sim (Relocated id K) (s.exec env) (s.exec env) := by
  have := sim_exec (relocation_id K (cellsOf (s.writes env.use4state)))
    (fun _ => rfl) (placed_id h) (placed_id subset_rfl)
  simpa using this

end ProtoStatement
end Relocation

/-- What may be told about the outputs of a run: all but the reports of stuck
loops, in order. -/
def Output.view (_ : Unit) (o : Output) : Bool := !o.isStuck

namespace ProtoStatement

theorem footprint_execTop (env : Env) (s : ProtoStatement) :
    Computation.Footprint Output.view (s.execTop env) (cellsOf (s.reads env.use4state))
      (cellsOf (s.writes env.use4state)) {_c | s.mayEmit} where
  frame := by
    have h := (framed_exec env s).bind fun _ => Computation.Guarantees.pure (P := UnchangedOff _)
      (Q := fun o : Output => o.isStuck = false → s.mayEmit) PUnit.unit
    intro m a ha
    obtain ⟨hm, ho⟩ := h ha
    exact ⟨hm, fun o hmem c hc => ho o hmem (by simpa [Output.view] using hc)⟩
  locality K hK := (sim_exec_of_reads hK).bind fun _ => .pure _

theorem independent_execTop {t : ProtoStatement} (hst : ∀ b ∈ cellsOf (s.writes env.use4state),
      b ∉ cellsOf (t.reads env.use4state) ∧ b ∉ cellsOf (t.writes env.use4state))
    (hts : ∀ b ∈ cellsOf (t.writes env.use4state), b ∉ cellsOf (s.reads env.use4state))
    (hemit : s.mayEmit → ¬ t.mayEmit) :
    Computation.Independent Output.view (s.execTop env) (t.execTop env) :=
  (footprint_execTop env s).independent (footprint_execTop env t) hst hts fun _ hs => hemit hs

end ProtoStatement

end Veryl.Simulator
