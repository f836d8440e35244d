import Veryl.Simulator.CombLayoutUnits
import Veryl.Simulator.Footprint

/-!
What accesses assume contiguous. A variable slot is one group of bytes, and so are all elements of
an array indexed at run time.
-/

namespace Veryl.Simulator.CombLayout

open Veryl.Analyzer Veryl.Library List ProtoExpression
open ProtoExpression (elementLeaves leafAccesses selectLeaves)

variable {R S : ℤ → ℤ → Prop} {delta : ℤ} {bytes n nb : ℕ}

variable {g : List Access} {e : ProtoExpression} {o x : ℤ} {v : Visit} {stride : ℤ}

/-- The expressions an item evaluates, those of a method call included. -/
def readExprs : Visit → List ProtoExpression
  | .tb method => tbArgs method
  | v => v.operands

def readGroups (es : List ProtoExpression) : List (List Access) :=
  es.map (·.leafAccesses false)

def storeGroups : Visit → List (List Access)
  | .assign x => [[storeSlot false x.dst x.dstWidth]]
  | .assignDynamic x => [storeElements false x]
  | .loop x => [[⟨x.varOffset, 0, valueSize x.varNativeBytes false⟩]]
  | .call (.readmemh _ elements width) => elements.map fun e => [storeSlot false e.current width]
  | _ => []

/-- The groups of an item, in two-state storage. -/
def groups (v : Visit) : List (List Access) :=
  readGroups ((readExprs v).flatMap (·.leaves)) ++ storeGroups v

/-- Any two bytes of a group are related. -/
def Together (R : ℤ → ℤ → Prop) (g : List Access) : Prop :=
  ∀ x y, .comb x ∈ cellsOf g → .comb y ∈ cellsOf g → R x y

/-- The code of a block moves with its span, and so must every byte it touches. -/
def Anchored (external : List ProtoStatement → VarOffset → Bool) (R : ℤ → ℤ → Prop)
    (b : CompiledBlockStatement × List ProtoStatement) : Prop :=
  ∀ v ∈ ProtoStatement.walkBody true b.2, ∀ g ∈ groups v, ∀ y, .comb y ∈ cellsOf g →
    ∃ span, cbCombSpan external b.1 b.2 = some span ∧ R span.1 y

theorem Together.mono (hRS : ∀ x y, R x y → S x y) (h : Together R g) : Together S g :=
  fun x y hx hy => hRS x y (h x y hx hy)

theorem Anchored.mono {external : List ProtoStatement → VarOffset → Bool}
    (hRS : ∀ x y, R x y → S x y) {b : CompiledBlockStatement × List ProtoStatement}
    (h : Anchored external R b) : Anchored external S b := by
  intro v hv g hg y hy
  obtain ⟨span, hspan, hR⟩ := h v hv g hg y hy
  exact ⟨span, hspan, hRS _ _ hR⟩

mutual

/-- The leaves inside the bit select of an array access. -/
def hiddenLeaves : ProtoExpression → List ProtoExpression
  | .resize x _ _ _ => hiddenLeaves x
  | .variable _ _ ds _ _ _ => hiddenSelect ds
  | .value _ _ _ => []
  | .unary _ x _ _ => hiddenLeaves x
  | .binary x _ y _ _ => hiddenLeaves x ++ hiddenLeaves y
  | .concatenation es _ _ => hiddenElements es
  | .ternary a b d _ _ => hiddenLeaves a ++ hiddenLeaves b ++ hiddenLeaves d
  | .dynamicVariable _ _ _ i _ _ ds _ _ => hiddenLeaves i ++ selectLeaves ds
termination_by structural e => e

def hiddenSelect : Option ProtoDynamicBitSelect → List ProtoExpression
  | none => []
  | some (_, e) => hiddenLeaves e
termination_by structural ds => ds

def hiddenElements : List (ProtoExpression × ℕ × ℕ) → List ProtoExpression
  | [] => []
  | (e, _, _) :: es => hiddenLeaves e ++ hiddenElements es
termination_by structural es => es

end

def isVariable : ProtoExpression → Bool
  | .variable _ _ _ _ _ _ => true
  | _ => false

/-- The leaves whose extent no collector records: plain reads, what the bit
select of an array access reads, and what a loop bound or a call reads. -/
def missedLeaves (v : Visit) : List ProtoExpression :=
  match v with
  | .cond _ | .assign _ | .assignDynamic _ =>
    v.operands.flatMap fun e => e.leaves.filter isVariable ++ hiddenLeaves e
  | _ => (readExprs v).flatMap (·.leaves)

/-- The stores no collector records: counters wider than the eight bytes taken
for one, and memory images. -/
def missedStores (v : Visit) : List (List Access) :=
  match v with
  | .loop x => if 8 < x.varNativeBytes then storeGroups v else []
  | .call _ => storeGroups v
  | _ => []

def uncollected (v : Visit) : List (List Access) :=
  readGroups (missedLeaves v) ++ missedStores v

theorem leaf_visited :
    ∀ leaf ∈ e.leaves, isVariable leaf ∨ leaf ∈ hiddenLeaves e ∨ leaf ∈ visitedLeaves e := by
  have hselect : ∀ {ds : Option ProtoDynamicBitSelect}, (∀ d ∈ ds, ∀ leaf ∈ d.2.leaves,
        isVariable leaf ∨ leaf ∈ hiddenLeaves d.2 ∨ leaf ∈ visitedLeaves d.2) →
      ∀ leaf ∈ selectLeaves ds,
        isVariable leaf ∨ leaf ∈ hiddenSelect ds ∨ leaf ∈ visitedSelect ds := by
    intro ds ih leaf hleaf
    cases ds with
    | none => cases hleaf
    | some d => exact ih d rfl leaf hleaf
  induction e with
  | resize x w s c ih => exact ih
  | var o sel ds w full c ih =>
    intro leaf hleaf
    rcases mem_cons.1 hleaf with rfl | hleaf
    · exact .inl rfl
    · exact (hselect ih leaf hleaf).imp_right fun h => h.imp_right (mem_cons_of_mem _)
  | value v w c => exact fun _ h => by cases h
  | unary op x w c ih => exact ih
  | binary x op y w c ihx ihy =>
    intro leaf hleaf
    simp only [hiddenLeaves, visitedLeaves, mem_append]
    rcases mem_append.1 hleaf with h | h
    · exact (ihx leaf h).imp_right fun h => h.imp .inl .inl
    · exact (ihy leaf h).imp_right fun h => h.imp .inr .inr
  | concatenation es w c ih =>
    simp only [leaves, hiddenLeaves, visitedLeaves]
    induction es with
    | nil => exact fun _ h => by cases h
    | cons e es ihes =>
      intro leaf hleaf
      simp only [hiddenElements, visitedElements, mem_append]
      rcases mem_append.1 hleaf with h | h
      · exact (ih e (by simp) leaf h).imp_right fun h => h.imp .inl .inl
      · exact (ihes (fun e' he' => ih e' (by simp [he'])) leaf h).imp_right
          fun h => h.imp .inr .inr
  | ternary a b d w c iha ihb ihd =>
    intro leaf hleaf
    simp only [leaves, hiddenLeaves, visitedLeaves, mem_append] at hleaf ⊢
    rcases hleaf with (h | h) | h
    · exact (iha leaf h).imp_right fun h => h.imp (.inl ∘ .inl) (.inl ∘ .inl)
    · exact (ihb leaf h).imp_right fun h => h.imp (.inl ∘ .inr) (.inl ∘ .inr)
    · exact (ihd leaf h).imp_right fun h => h.imp .inr .inr
  | dynamicVariable o s nb i n sel ds w c ih ihs =>
    intro leaf hleaf
    simp only [leaves, hiddenLeaves, visitedLeaves, mem_append,
      mem_cons, not_mem_nil, or_false] at hleaf ⊢
    rcases hleaf with (h | h) | h
    · exact (ih leaf h).imp_right fun h => h.imp .inl .inr
    · exact .inr (.inl (.inr h))
    · exact .inr (.inr (.inl h))

theorem nativeBytes_pos (w : ℕ) : 0 < nativeBytes w := by
  unfold nativeBytes
  split_ifs <;> omega

@[simp] theorem comb_mem_cells : VarOffset.comb x ∈ (Access.mk (.comb o) delta bytes).cells ↔
      o + delta ≤ x ∧ x < o + delta + bytes := by
  constructor
  · rintro ⟨k, hk, he⟩
    change k < bytes at hk
    simp only [VarOffset.add_comb, VarOffset.comb.injEq] at he
    omega
  · rintro ⟨hlo, hhi⟩
    have hk : (x - o - delta).toNat < bytes := by omega
    refine ⟨(x - o - delta).toNat, hk, ?_⟩
    simp only [VarOffset.add_comb, VarOffset.comb.injEq]
    omega

theorem not_comb_mem_cells_ff : VarOffset.comb x ∉ (Access.mk (.ff o) delta bytes).cells := by
  rintro ⟨k, -, he⟩
  simp at he

theorem holds_stridedSpan {i : ℕ} (hi : i < n)
    (hlo : o + stride * i ≤ x) (hhi : x < o + stride * i + nb) :
    Holds (stridedSpan o stride n nb) x := by
  have hlast : ((n - 1 : ℕ) : ℤ) = n - 1 := by omega
  have hi' : (i : ℤ) ≤ n - 1 := by omega
  simp only [Holds, stridedSpan, hlast]
  rcases le_total 0 stride with hs | hs
  · have h₀ : 0 ≤ stride * i := Int.mul_nonneg hs (by omega)
    have h₁ : stride * i ≤ stride * (n - 1) := Int.mul_le_mul_of_nonneg_left hi' hs
    omega
  · have h₀ : stride * i ≤ 0 := Int.mul_nonpos_of_nonpos_of_nonneg hs (by omega)
    have h₁ : stride * (n - 1) ≤ stride * i := Int.mul_le_mul_of_nonpos_left hs hi'
    omega

theorem together_strided {base : VarOffset} :
    Together (Share (arraySpan base stride n nb)) (stridedAccesses base stride n nb) := by
  rintro x y ⟨a, ha, hx⟩ ⟨b, hb, hy⟩
  obtain ⟨i, hi, rfl⟩ := mem_map.1 ha
  obtain ⟨j, hj, rfl⟩ := mem_map.1 hb
  cases base with
  | ff o => exact absurd hx not_comb_mem_cells_ff
  | comb o =>
    rw [comb_mem_cells] at hx hy
    exact ⟨_, mem_singleton.2 rfl, holds_stridedSpan (by simpa using hi) hx.1 hx.2,
      holds_stridedSpan (by simpa using hj) hy.1 hy.2⟩

theorem together_storeSlot {dst : VarOffset} {w : ℕ} :
    Together (Share (storeSpan dst w)) [storeSlot false dst w] := by
  rintro x y ⟨a, ha, hx⟩ ⟨b, hb, hy⟩
  obtain rfl := mem_singleton.1 ha
  obtain rfl := mem_singleton.1 hb
  cases dst with
  | ff o => exact absurd hx not_comb_mem_cells_ff
  | comb o =>
    rw [storeSlot, comb_mem_cells] at hx hy
    simp only [valueSize, Bool.false_eq_true, if_false] at hx hy
    refine ⟨_, mem_singleton.2 rfl, ?_, ?_⟩ <;> simp only [Holds] <;> omega

theorem together_of_subset {rs rs' : List (ℤ × ℤ)} (h : rs ⊆ rs')
    (hg : Together (Share rs) g) : Together (Share rs') g :=
  hg.mono fun x y hxy => Share.mono h x y hxy

theorem together_of_visited {leaf : ProtoExpression} (he : e ∈ collectedOperands v)
    (hleaf : leaf ∈ visitedLeaves e) (hvar : isVariable leaf = false) :
    Together (Share (dynamicSpans v ++ writeSpans v)) (leaf.leafAccesses false) := by
  have hsub : leafSpan leaf ⊆ dynamicSpans v ++ writeSpans v := fun r hr =>
    mem_append_left _ (mem_append_right _ (mem_flatMap.2 ⟨e, he, mem_flatMap.2 ⟨leaf, hleaf, hr⟩⟩))
  refine together_of_subset hsub ?_
  cases leaf with
  | dynamicVariable o s nb i n sel ds w c =>
    simpa [leafAccesses, leafSpan, valueSize] using together_strided
  | «variable» o sel ds w full c => cases hvar
  | _ => exact fun x y hx => by simp [leafAccesses, cellsOf] at hx

theorem together_of_collected (hg : g ∈ groups v) :
    g ∈ uncollected v ∨ Together (Share (dynamicSpans v ++ writeSpans v)) g := by
  -- the reads of an item whose operands the collector visits
  have read : (∀ e ∈ v.operands, e ∈ collectedOperands v) → readExprs v = v.operands →
      missedLeaves v = v.operands.flatMap (fun e => e.leaves.filter isVariable ++ hiddenLeaves e) →
      g ∈ readGroups ((readExprs v).flatMap (·.leaves)) →
      g ∈ uncollected v ∨ Together (Share (dynamicSpans v ++ writeSpans v)) g := by
    intro hcollected hexprs hmissed hg
    obtain ⟨leaf, hleaf, rfl⟩ := mem_map.1 hg
    rw [hexprs] at hleaf
    obtain ⟨e, he, hleaf⟩ := mem_flatMap.1 hleaf
    have missed : leaf ∈ e.leaves.filter isVariable ++ hiddenLeaves e →
        leaf.leafAccesses false ∈ uncollected v := by
      intro h
      refine mem_append_left _ (mem_map_of_mem ?_)
      rw [hmissed]
      exact mem_flatMap.2 ⟨e, he, h⟩
    by_cases hvar : isVariable leaf = true
    · exact .inl (missed (mem_append_left _ (mem_filter.2 ⟨hleaf, hvar⟩)))
    · rcases (leaf_visited leaf hleaf).resolve_left hvar with h | h
      · exact .inl (missed (mem_append_right _ h))
      · exact .inr (together_of_visited (hcollected e he) h (by simpa using hvar))
  rcases mem_append.1 hg with hg | hg
  · cases v with
    | cond e => exact read (fun _ h => h) rfl rfl hg
    | assign x =>
      refine read (fun e he => ?_) rfl rfl hg
      simp only [Visit.operands, collectedOperands, mem_cons, mem_append] at he ⊢
      tauto
    | assignDynamic x => exact read (fun _ h => h) rfl rfl hg
    | _ => exact .inl (mem_append_left _ hg)
  · cases v with
    | assign x =>
      obtain rfl := mem_singleton.1 hg
      exact .inr (together_of_subset (subset_append_right _ _) together_storeSlot)
    | assignDynamic x =>
      obtain rfl := mem_singleton.1 hg
      have hsub : arraySpan x.dstBase x.dstStride x.dstNumElements
          (max (nativeBytes x.dstWidth) 1) ⊆
            dynamicSpans (.assignDynamic x) ++ writeSpans (.assignDynamic x) :=
        fun r hr => mem_append_left _ (mem_append_left _ hr)
      refine .inr (together_of_subset hsub ?_)
      rw [max_eq_left (nativeBytes_pos _)]
      simpa [storeElements, valueSize] using together_strided
    | loop x =>
      by_cases hwide : 8 < x.varNativeBytes
      · left
        refine mem_append_right _ ?_
        simpa [missedStores, hwide] using hg
      · right
        obtain rfl := mem_singleton.1 hg
        rintro y z ⟨a, ha, hy⟩ ⟨b, hb, hz⟩
        obtain rfl := mem_singleton.1 ha
        obtain rfl := mem_singleton.1 hb
        cases ho : x.varOffset with
        | ff o => exact absurd (ho ▸ hy) not_comb_mem_cells_ff
        | comb o =>
          rw [ho, comb_mem_cells] at hy hz
          simp only [valueSize, Bool.false_eq_true, if_false] at hy hz
          refine ⟨(o, o + 8), ?_, ?_, ?_⟩
          · simp [dynamicSpans, ho]
          · simp only [Holds]
            omega
          · simp only [Holds]
            omega
    | call x => exact .inl (mem_append_right _ hg)
    | cond e => cases hg
    | compiled x => cases hg
    | tb m => cases hg

theorem leaf_of_hidden : ∀ leaf ∈ hiddenLeaves e, leaf ∈ e.leaves := by
  have hselect : ∀ {ds : Option ProtoDynamicBitSelect},
      (∀ d ∈ ds, ∀ leaf ∈ hiddenLeaves d.2, leaf ∈ d.2.leaves) →
      ∀ leaf ∈ hiddenSelect ds, leaf ∈ selectLeaves ds := by
    intro ds ih leaf hleaf
    cases ds with
    | none => cases hleaf
    | some d => exact ih d rfl leaf hleaf
  induction e with
  | resize x w s c ih => exact ih
  | var o sel ds w full c ih =>
    exact fun leaf hleaf => mem_cons_of_mem _ (hselect ih leaf hleaf)
  | value v w c => exact fun _ h => by cases h
  | unary op x w c ih => exact ih
  | binary x op y w c ihx ihy =>
    intro leaf hleaf
    simp only [hiddenLeaves, leaves, mem_append] at hleaf ⊢
    exact hleaf.imp (ihx leaf) (ihy leaf)
  | concatenation es w c ih =>
    simp only [hiddenLeaves, leaves]
    induction es with
    | nil => exact fun _ h => by cases h
    | cons e es ihes =>
      intro leaf hleaf
      simp only [hiddenElements, elementLeaves, mem_append] at hleaf ⊢
      exact hleaf.imp (ih e (by simp) leaf) (ihes (fun e' he' => ih e' (by simp [he'])) leaf)
  | ternary a b d w c iha ihb ihd =>
    intro leaf hleaf
    simp only [hiddenLeaves, leaves, mem_append] at hleaf ⊢
    exact hleaf.imp (fun h => h.imp (iha leaf) (ihb leaf)) (ihd leaf)
  | dynamicVariable o s nb i n sel ds w c ih ihs =>
    intro leaf hleaf
    simp only [hiddenLeaves, leaves, mem_append] at hleaf ⊢
    exact .inl (hleaf.imp_left (ih leaf))

theorem mem_groups_of_uncollected (hg : g ∈ uncollected v) : g ∈ groups v := by
  have hoperand : readExprs v = v.operands → ∀ leaf ∈ v.operands.flatMap
      (fun e => e.leaves.filter isVariable ++ hiddenLeaves e),
        leaf ∈ (readExprs v).flatMap (·.leaves) := by
    intro hexprs leaf hleaf
    obtain ⟨e, he, hleaf⟩ := mem_flatMap.1 hleaf
    rw [hexprs]
    refine mem_flatMap.2 ⟨e, he, ?_⟩
    rcases mem_append.1 hleaf with hleaf | hleaf
    · exact (mem_filter.1 hleaf).1
    · exact leaf_of_hidden leaf hleaf
  rcases mem_append.1 hg with hg | hg
  · obtain ⟨leaf, hleaf, rfl⟩ := mem_map.1 hg
    refine mem_append_left _ (mem_map_of_mem ?_)
    cases v with
    | cond e => exact hoperand rfl leaf hleaf
    | assign x => exact hoperand rfl leaf hleaf
    | assignDynamic x => exact hoperand rfl leaf hleaf
    | _ => exact hleaf
  · refine mem_append_right _ ?_
    cases v with
    | loop x =>
      simp only [missedStores] at hg
      split at hg
      · exact hg
      · cases hg
    | call x => exact hg
    | _ => cases hg

end Veryl.Simulator.CombLayout
