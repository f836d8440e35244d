import Veryl.Simulator.CombLayoutGroups

/-!
The relayout renames the bytes of the combinational buffer faithfully exactly
when the groups its collectors miss are tied together by other spans.
-/

namespace Veryl.Simulator.CombLayout

open Veryl.Analyzer Veryl.Library List ProtoStatement VarOffset
open ProtoStatement (adjustArms adjustBody anyContainsCb armsContainCb blocksBody containsCb execBody
  remapArms remapBody remapBody_eq sim_exec walkArms_eq walkBody walkBody_eq)

variable {y lo hi : ℤ} {R : Mem → Mem → Prop}

variable {f : VarOffset → VarOffset} {a : Access} {delta : ℤ} {v : Visit} {g : List Access}
  {l : List ProtoStatement}

variable {external : List ProtoStatement → VarOffset → Bool} {inp : Inputs}
  {sched : CombLayoutSchedule} {env : Env} {stmts body : List ProtoStatement} {s : ProtoStatement}
  {x : CompiledBlockStatement}

/-- Two bytes of one placed unit. -/
def SameUnit (sched : CombLayoutSchedule) (x y : ℤ) : Prop :=
  ∃ t ∈ sched.units, Holds (oldRange t) x ∧ Holds (oldRange t) y

/-- The bytes the relayout keeps: the flip-flops, and the units. -/
def Kept (sched : CombLayoutSchedule) : Set VarOffset :=
  {b | b.isFf = true ∨ SameUnit sched b.raw b.raw}

theorem sameUnit_iff (h : buildSchedule external inp = .ok (some sched)) (x y : ℤ) :
    SameUnit sched x y ↔ Relation.TransGen (Tie external inp) x y := by
  obtain ⟨-, units, hunits, hperm⟩ := buildSchedule_spec h
  rw [← same_unit_iff hunits]
  constructor
  · rintro ⟨t, ht, hx, hy⟩
    obtain ⟨u, hu, he⟩ := mem_map.1 (hperm.subset (mem_map_of_mem ht))
    exact ⟨u, hu, he ▸ hx, he ▸ hy⟩
  · rintro ⟨u, hu, hx, hy⟩
    obtain ⟨t, ht, he⟩ := mem_map.1 (hperm.symm.subset (mem_map_of_mem hu))
    exact ⟨t, ht, he ▸ hx, he ▸ hy⟩

/-- A unit keeps its internal layout. -/
theorem translate_of_holds (h : Valid sched) {t : ℤ × ℤ × ℤ} (ht : t ∈ sched.units) {x : ℤ}
    (hx : Holds (oldRange t) x) : sched.translate x = (newRange t).1 + (x - t.1) := by
  obtain ⟨hne, hat⟩ := h.apart.search ht hx
  change partitionPoint sched.units (fun u => u.1 ≤ x) ≠ 0 at hne
  change sched.units[partitionPoint sched.units (fun u => u.1 ≤ x) - 1]? = some t at hat
  obtain ⟨old, stop, new⟩ := t
  have hlt : x < stop := hx.2
  simp only [CombLayoutSchedule.translate, hne, hat, if_false, hlt, if_true, newRange]
  split
  · omega
  · rfl

instance : Std.Symm fun a b => Disjoined (newRange a) (newRange b) := ⟨fun _ _ h => h.symm⟩

theorem translate_inj (h : Valid sched) {x : ℤ} (hx : SameUnit sched x x)
    (hy : SameUnit sched y y) (he : sched.translate x = sched.translate y) : x = y := by
  obtain ⟨t, ht, hxt, -⟩ := hx
  obtain ⟨u, hu, hyu, -⟩ := hy
  have hx' := translate_of_holds h ht hxt
  have hy' := translate_of_holds h hu hyu
  by_cases heq : t = u
  · subst heq
    omega
  · have hdisj := h.placed.forall ht hu heq
    refine absurd ?_ (hdisj (sched.translate x) ?_)
    · rw [he, hy']
      simp only [Holds, oldRange, newRange] at hyu ⊢
      omega
    · rw [hx']
      simp only [Holds, oldRange, newRange] at hxt ⊢
      omega

theorem translate_sameUnit (h : Valid sched) {x : ℤ} (hxy : SameUnit sched x y) :
    sched.translate y = sched.translate x + (y - x) := by
  obtain ⟨t, ht, hx, hy⟩ := hxy
  rw [translate_of_holds h ht hx, translate_of_holds h ht hy]
  omega

theorem relocation (h : Valid sched) (hff : ∀ o, o.isFf → f o = o)
    (hisFf : ∀ o, (f o).isFf = o.isFf) :
    Relocation f sched.translateOff (Kept sched) (Kept sched) := by
  refine ⟨hff, hisFf, fun a ha b hb he => ?_⟩
  cases a with
  | ff o =>
    cases b with
    | ff o' => exact he
    | comb o' => cases he
  | comb o =>
    cases b with
    | ff o' => cases he
    | comb o' =>
      have ho : SameUnit sched o o := ha.resolve_left (by simp [isFf])
      have ho' : SameUnit sched o' o' := hb.resolve_left (by simp [isFf])
      rw [translate_inj h ho ho' (comb.inj he)]

theorem translateOff_ff (o : VarOffset) (h : o.isFf) : sched.translateOff o = o := by
  cases o with
  | ff o => rfl
  | comb o => cases h

theorem isFf_translateOff (o : VarOffset) : (sched.translateOff o).isFf = o.isFf := by
  cases o <;> rfl

theorem adjust_ff (delta : ℤ) (o : VarOffset) (h : o.isFf) : o.adjust 0 delta = o := by
  cases o with
  | ff o => simp [adjust]
  | comb o => cases h

theorem isFf_adjust (delta : ℤ) (o : VarOffset) : (o.adjust 0 delta).isFf = o.isFf := by
  cases o <;> rfl

theorem placed_ff (hff : ∀ o, o.isFf → f o = o)
    (ha : a.base.isFf) : a.Rigid f sched.translateOff ∧ a.cells ⊆ Kept sched := by
  constructor
  · intro k hk
    rw [hff _ ha, translateOff_ff _ (by simpa using ha)]
  · rintro b ⟨k, hk, rfl⟩
    exact .inl (by simpa using ha)

theorem placed_comb {o : ℤ} {bytes : ℕ} {n : ℤ} (hf : f (.comb o) = .comb n)
    (h : ∀ x, .comb x ∈ (Access.mk (.comb o) delta bytes).cells →
      SameUnit sched x x ∧ sched.translate x = n + (x - o)) :
    (Access.mk (.comb o) delta bytes).Rigid f sched.translateOff ∧
      (Access.mk (.comb o) delta bytes).cells ⊆ Kept sched := by
  constructor
  · intro k hk
    have hx := (h (o + (delta + k)) ⟨k, hk, rfl⟩).2
    show (f (.comb o)).add (delta + k) = .comb (sched.translate (o + (delta + k)))
    rw [hf, hx, add_comb]
    congr 1
    omega
  · rintro b ⟨k, hk, rfl⟩
    exact .inr (h (o + (delta + k)) ⟨k, hk, rfl⟩).1

/-- The base of an access that covers something lies in its group. -/
def Based (g : List Access) : Prop := ∀ a ∈ g, 0 < a.bytes → a.base ∈ cellsOf g

theorem based_singleton (base : VarOffset) (bytes : ℕ) : Based [⟨base, 0, bytes⟩] := by
  intro a ha hpos
  obtain rfl := mem_singleton.1 ha
  exact ⟨_, mem_singleton.2 rfl, 0, hpos, by simp⟩

theorem based_strided (base : VarOffset) (stride : ℤ) (n bytes : ℕ) :
    Based (stridedAccesses base stride n bytes) := by
  intro a ha hpos
  obtain ⟨i, hi, rfl⟩ := mem_map.1 ha
  have hn : 0 < n := (Nat.zero_le i).trans_lt (by simpa using hi)
  exact ⟨_, element_mem_stridedAccesses hn, 0, hpos, by simp⟩

theorem based_leafAccesses (leaf : ProtoExpression) : Based (leaf.leafAccesses false) := by
  cases leaf with
  | «variable» o sel ds w full c => exact based_singleton _ _
  | dynamicVariable o s nb i n sel ds w c => exact based_strided _ _ _ _
  | _ => exact fun _ h => by cases h

theorem based_of_mem_groups (hg : g ∈ groups v) : Based g := by
  rcases mem_append.1 hg with hg | hg
  · obtain ⟨leaf, -, rfl⟩ := mem_map.1 hg
    exact based_leafAccesses leaf
  · cases v with
    | assign x =>
      obtain rfl := mem_singleton.1 hg
      exact based_singleton _ _
    | assignDynamic x =>
      obtain rfl := mem_singleton.1 hg
      exact based_strided _ _ _ _
    | loop x =>
      obtain rfl := mem_singleton.1 hg
      exact based_singleton _ _
    | call x =>
      cases x with
      | readmemh filename elements width =>
        obtain ⟨e, -, rfl⟩ := mem_map.1 hg
        exact based_singleton _ _
      | _ => cases hg
    | _ => cases hg

theorem mem_groups (h : a ∈ v.reads false ∨ a ∈ v.writes false) :
    a.base.isFf ∨ ∃ g ∈ groups v, a ∈ g := by
  have stored : ∀ {g}, g ∈ storeGroups v → a ∈ g → a.base.isFf ∨ ∃ g ∈ groups v, a ∈ g :=
    fun hg ha => .inr ⟨_, mem_append_right _ hg, ha⟩
  have destination : a ∈ v.destination false → a.base.isFf ∨ ∃ g ∈ groups v, a ∈ g := by
    intro ha
    cases v with
    | assign x => exact stored (mem_singleton.2 rfl) ha
    | assignDynamic x => exact stored (mem_singleton.2 rfl) ha
    | _ => cases ha
  rcases h with h | h
  · rcases Visit.mem_reads h with ⟨e, he, ha⟩ | ha
    · obtain ⟨leaf, hleaf, ha⟩ := mem_flatMap.1 ha
      have he' : e ∈ readExprs v := by
        cases v with
        | tb m => cases he
        | _ => exact he
      refine .inr ⟨_, mem_append_left _ (mem_map_of_mem ?_), ha⟩
      exact mem_flatMap.2 ⟨e, he', hleaf⟩
    · exact destination ha
  · cases v with
    | assign x =>
      simp only [Visit.writes] at h
      split at h
      · cases h
      · exact destination h
    | assignDynamic x =>
      simp only [Visit.writes] at h
      split at h
      · cases h
      · exact destination h
    | loop x => exact stored (mem_singleton.2 rfl) h
    | call x =>
      cases x with
      | readmemh filename elements width =>
        obtain ⟨e, he, ha⟩ := mem_flatMap.1 h
        rcases mem_cons.1 ha with rfl | ha
        · exact stored (mem_map_of_mem he) (mem_singleton.2 rfl)
        · obtain ⟨next, -, rfl⟩ := mem_map.1 ha
          exact .inl rfl
      | _ => cases h
    | _ => cases h

theorem placed_of_together (h : Valid sched) (hbase : Based g)
    (hg : Together (SameUnit sched) g) (ha : a ∈ g) :
    a.Rigid sched.translateOff sched.translateOff ∧ a.cells ⊆ Kept sched := by
  obtain ⟨base, delta, bytes⟩ := a
  cases base with
  | ff o => exact placed_ff translateOff_ff rfl
  | comb o =>
    refine placed_comb rfl fun x hx => ?_
    have hpos : 0 < bytes := by
      obtain ⟨k, hk, -⟩ := hx
      exact (Nat.zero_le k).trans_lt hk
    have hx' : comb x ∈ cellsOf g := ⟨_, ha, hx⟩
    exact ⟨hg x x hx' hx', translate_sameUnit h (hg o x (hbase _ ha hpos) hx')⟩

/-- Whether machine code is generated for an item. -/
def buildable : Visit → Bool
  | .call _ | .compiled _ | .tb _ => false
  | _ => true

/-- A list a compiled block may have been built from. -/
def Buildable (body : List ProtoStatement) : Prop :=
  ∀ v ∈ walkBody false body, buildable v

theorem Buildable.of_mem (h : Buildable body)
    (hs : s ∈ body) : ∀ v ∈ s.walk false, buildable v := by
  intro v hv
  refine h v ?_
  rw [walkBody_eq]
  exact mem_flatMap.2 ⟨s, hs, hv⟩

theorem adjustBody_eq
    (h : ∀ s ∈ body, s.adjustOffsets 0 delta = s.remapOffsetsWith (·.adjust 0 delta)) :
    adjustBody 0 delta body = remapBody (·.adjust 0 delta) body := by
  induction body with
  | nil => rfl
  | cons s body ih =>
    simp only [adjustBody, remapBody, h s (by simp)]
    rw [ih fun s' hs' => h s' (by simp [hs'])]

theorem adjustOffsets_eq (h : ∀ v ∈ s.walk false, buildable v) :
    s.adjustOffsets 0 delta = s.remapOffsetsWith (·.adjust 0 delta) := by
  have body : ∀ {body : List ProtoStatement}, (∀ s ∈ body, (∀ v ∈ s.walk false, buildable v) →
        s.adjustOffsets 0 delta = s.remapOffsetsWith (·.adjust 0 delta)) →
      Buildable body → adjustBody 0 delta body = remapBody (·.adjust 0 delta) body :=
    fun ih h => adjustBody_eq fun s hs => ih s hs (h.of_mem hs)
  induction s with
  | assign x =>
    simp [adjustOffsets, remapOffsetsWith,
      ProtoAssignStatement.adjustOffsets, ProtoAssignStatement.remapOffsetsWith]
  | assignDynamic x =>
    simp [adjustOffsets, remapOffsetsWith,
      ProtoAssignDynamicStatement.adjustOffsets, ProtoAssignDynamicStatement.remapOffsetsWith]
  | ifStmt c t e iht ihe =>
    simp only [walk, forall_mem_append] at h
    rw [adjustOffsets, remapOffsetsWith, body iht h.1.2, body ihe h.2]
  | caseStmt arms d iha ihd =>
    simp only [walk, forall_mem_append] at h
    have harms : adjustArms 0 delta arms = remapArms (·.adjust 0 delta) arms := by
      have harm := h.1
      clear h ihd
      induction arms with
      | nil => rfl
      | cons a arms ih =>
        simp only [walkArms, forall_mem_cons, forall_mem_append] at harm
        simp only [adjustArms, remapArms, body (iha a (by simp)) harm.2.1]
        rw [ih (fun a' ha' => iha a' (by simp [ha'])) harm.2.2]
    rw [adjustOffsets, remapOffsetsWith, harms, body ihd h.2]
  | forStmt x b ih =>
    simp only [walk, forall_mem_cons] at h
    rw [adjustOffsets, remapOffsetsWith, body ih h.2]
  | breakStmt => rfl
  | systemFunctionCall x => exact absurd (h (.call x) (by simp [walk])) (by simp [buildable])
  | compiledBlock x stmts ih => rfl
  | sequentialBlock b ih =>
    rw [adjustOffsets, remapOffsetsWith, body ih h]
  | tbMethodCall inst method => rfl

theorem containsCb_of_buildable (h : ∀ v ∈ s.walk false, buildable v) : s.containsCb = false := by
  have body : ∀ {body : List ProtoStatement},
      (∀ s ∈ body, (∀ v ∈ s.walk false, buildable v) → s.containsCb = false) →
      Buildable body → anyContainsCb body = false := by
    intro body ih h
    rw [anyContainsCb_eq, any_eq_false]
    intro s hs
    simp [ih s hs (h.of_mem hs)]
  induction s with
  | ifStmt c t e iht ihe =>
    simp only [walk, forall_mem_append] at h
    simp [containsCb, body iht h.1.2, body ihe h.2]
  | caseStmt arms d iha ihd =>
    simp only [walk, forall_mem_append, walkArms_eq, forall_mem_flatMap, forall_mem_cons] at h
    have harms : armsContainCb arms = false := by
      rw [armsContainCb_eq, any_eq_false]
      intro a ha
      simp [body (iha a ha) (h.1 a ha).2]
    simp [containsCb, harms, body ihd h.2]
  | forStmt x b ih =>
    simp only [walk, forall_mem_cons] at h
    exact body ih h.2
  | sequentialBlock b ih => exact body ih h
  | compiledBlock x stmts ih =>
    exact absurd (h (.compiled x) (by simp [walk])) (by simp [buildable])
  | _ => rfl

theorem mem_walk_of_body (hs : s ∈ body) (hv : v ∈ s.walk true) : v ∈ walkBody true body := by
  rw [walkBody_eq]
  exact mem_flatMap.2 ⟨s, hs, hv⟩

theorem sim_shifted (hv : Valid sched) (henv : env.use4state = false) (delta : ℤ)
    (hbuilt : Buildable stmts)
    (h : ∀ v ∈ walkBody true stmts, ∀ g ∈ groups v, ∀ y, .comb y ∈ cellsOf g →
      SameUnit sched y y ∧ sched.translate y = y + delta) :
    Computation.Sim (Relocated sched.translateOff (Kept sched)) (execBody env stmts)
      (execBody env (stmts.map (·.adjustOffsets 0 delta))) := by
  have placed : ∀ s ∈ stmts, ∀ v ∈ s.walk true, ∀ a, a ∈ v.reads false ∨ a ∈ v.writes false →
      a.Rigid (·.adjust 0 delta) sched.translateOff ∧ a.cells ⊆ Kept sched := by
    intro s hs v hv a ha
    obtain ⟨base, d, bytes⟩ := a
    rcases mem_groups ha with hff | ⟨g, hg, hag⟩
    · exact placed_ff (adjust_ff delta) hff
    · cases base with
      | ff o => exact placed_ff (adjust_ff delta) rfl
      | comb o =>
        refine placed_comb (n := o + delta) rfl fun x hx => ?_
        obtain ⟨hsame, htr⟩ := h v (mem_walk_of_body hs hv) g hg x ⟨_, hag, hx⟩
        exact ⟨hsame, by omega⟩
  have hmap : stmts.map (·.adjustOffsets 0 delta) = remapBody (·.adjust 0 delta) stmts := by
    rw [remapBody_eq]
    exact map_congr_left fun s hs => adjustOffsets_eq (hbuilt.of_mem hs)
  rw [hmap]
  refine execBody_congr Computation.Sim.congruence fun s hs => ?_
  refine sim_exec (relocation hv (adjust_ff delta) (isFf_adjust delta)) (fun hcb => ?_) ?_ ?_
  · rw [containsCb_of_buildable (hbuilt.of_mem hs)] at hcb
    cases hcb
  · rw [henv]
    intro a ha
    obtain ⟨v, hv, ha⟩ := mem_flatMap.1 ha
    exact placed s hs v hv a (.inl ha)
  · rw [henv]
    intro a ha
    obtain ⟨v, hv, ha⟩ := mem_flatMap.1 ha
    exact placed s hs v hv a (.inr ha)

theorem map_adjustOffsets_zero (hbuilt : Buildable stmts) :
    stmts.map (·.adjustOffsets 0 0) = stmts := by
  have hid : (fun o : VarOffset => o.adjust 0 0) = id := by
    funext o
    cases o <;> simp [adjust]
  conv_rhs => rw [← map_id stmts]
  refine map_congr_left fun s hs => ?_
  rw [adjustOffsets_eq (hbuilt.of_mem hs), hid, remapOffsetsWith_id]
  rfl

theorem sim_block {y : CompiledBlockStatement} {stmts' : List ProtoStatement}
    (h : Computation.Sim R (execBody env stmts) (execBody env stmts')) :
    Computation.Sim R ((ProtoStatement.compiledBlock x stmts).exec env)
      ((ProtoStatement.compiledBlock y stmts').exec env) :=
  h.bind fun _ => .pure _

/-- What the relayout needs of a block. -/
structure BlockOk (external : List ProtoStatement → VarOffset → Bool) (sched : CombLayoutSchedule)
    (b : CompiledBlockStatement × List ProtoStatement) : Prop where
  built : Buildable b.2
  span : ∀ lo hi, cbCombSpan external b.1 b.2 = some (lo, hi) → SameUnit sched lo (hi - 1)
  anchored : Anchored external (SameUnit sched) b

theorem SameUnit.right {x : ℤ} (h : SameUnit sched x y) : SameUnit sched y y := by
  obtain ⟨t, ht, -, hy⟩ := h
  exact ⟨t, ht, hy, hy⟩

theorem sim_rigidShift (hv : Valid sched) (henv : env.use4state = false)
    (h : BlockOk external sched (x, stmts)) :
    ∃ s', rigidShift external sched x stmts = .ok s' ∧
      Computation.Sim (Relocated sched.translateOff (Kept sched))
        ((ProtoStatement.compiledBlock x stmts).exec env) (s'.exec env) := by
  unfold rigidShift
  cases hspan : cbCombSpan external x stmts with
  | none =>
    refine ⟨_, rfl, sim_block ?_⟩
    have := sim_shifted hv henv 0 h.built fun v hv g hg y hy => by
      obtain ⟨span, hsome, -⟩ := h.anchored v hv g hg y hy
      rw [hspan] at hsome
      cases hsome
    rwa [map_adjustOffsets_zero h.built] at this
  | some span =>
    obtain ⟨lo, hi⟩ := span
    have hlast := translate_sameUnit hv (h.span lo hi hspan)
    have hsim := sim_shifted hv henv (sched.translate lo - lo) h.built fun v hv' g hg y hy => by
        obtain ⟨span, hsome, hsame⟩ := h.anchored v hv' g hg y hy
        obtain rfl := Option.some.inj (hspan.symm.trans hsome)
        have hy' : sched.translate y = sched.translate lo + (y - lo) :=
          translate_sameUnit hv hsame
        exact ⟨hsame.right, by omega⟩
    dsimp only
    rw [if_neg (by omega)]
    by_cases hzero : sched.translate lo - lo = 0
    · rw [if_pos hzero]
      refine ⟨_, rfl, sim_block ?_⟩
      rwa [hzero, map_adjustOffsets_zero h.built] at hsim
    · rw [if_neg hzero]
      exact ⟨_, rfl, sim_block hsim⟩

mutual

/-- A block below a branch or a loop. -/
def nestedCb : ProtoStatement → Bool
  | .compiledBlock _ _ => false
  | .sequentialBlock body => anyNestedCb body
  | s => s.containsCb
termination_by structural s => s

def anyNestedCb : List ProtoStatement → Bool
  | [] => false
  | s :: body => nestedCb s || anyNestedCb body
termination_by structural body => body

end

theorem anyNestedCb_eq (body : List ProtoStatement) : anyNestedCb body = body.any nestedCb := by
  induction body with
  | nil => rfl
  | cons s body ih => simp [anyNestedCb, ih]

theorem blocksBody_eq (body : List ProtoStatement) : blocksBody body = body.flatMap (·.blocks) := by
  induction body with
  | nil => rfl
  | cons s body ih => simp [blocksBody, ih]

theorem sim_applyToStmts (h : ∀ s ∈ body, ∃ s', applyOne external sched s = .ok s' ∧
      Computation.Sim R (s.exec env) (s'.exec env)) :
    ∃ body', applyToStmts external sched body = .ok body' ∧
      Computation.Sim R (execBody env body) (execBody env body') ∧
      Computation.Sim R (runPass env body) (runPass env body') := by
  induction body with
  | nil => exact ⟨[], rfl, .pure _, .pure _⟩
  | cons s body ih =>
    obtain ⟨s', hs', hsim⟩ := h s mem_cons_self
    obtain ⟨body', hbody', hexec, hrun⟩ := ih fun t ht => h t (mem_cons_of_mem _ ht)
    refine ⟨s' :: body', ?_, ?_, ?_⟩
    · rw [applyToStmts, hs', hbody']
      rfl
    · refine hsim.bind fun flow => ?_
      cases flow with
      | break_ => exact .pure _
      | continue_ => exact hexec
    · exact (hsim.bind fun _ => .pure _).bind fun _ => hrun

theorem sim_remapped (hv : Valid sched) (henv : env.use4state = false) (hcb : s.containsCb = false)
    (hs : ∀ v ∈ s.walk true, ∀ g ∈ groups v, Together (SameUnit sched) g) :
    Computation.Sim (Relocated sched.translateOff (Kept sched)) (s.exec env)
      ((s.remapOffsetsWith sched.translateOff).exec env) := by
  have placed : ∀ v ∈ s.walk true, ∀ a, a ∈ v.reads false ∨ a ∈ v.writes false →
      a.Rigid sched.translateOff sched.translateOff ∧ a.cells ⊆ Kept sched := by
    intro v hmem a ha
    rcases mem_groups ha with hff | ⟨g, hg, hag⟩
    · exact placed_ff translateOff_ff hff
    · exact placed_of_together hv (based_of_mem_groups hg) (hs v hmem g hg) hag
  refine sim_exec (relocation hv translateOff_ff isFf_translateOff) (fun h => ?_) ?_ ?_
  · rw [hcb] at h
    cases h
  · rw [henv]
    intro a ha
    obtain ⟨v, hmem, ha⟩ := mem_flatMap.1 ha
    exact placed v hmem a (.inl ha)
  · rw [henv]
    intro a ha
    obtain ⟨v, hmem, ha⟩ := mem_flatMap.1 ha
    exact placed v hmem a (.inr ha)

variable (external sched) in
theorem applyOne_eq_remap {s : ProtoStatement} (h : ∀ x stmts, s ≠ .compiledBlock x stmts)
    (h' : ∀ body, s ≠ .sequentialBlock body) (hcb : nestedCb s = false) :
    s.containsCb = false ∧
      applyOne external sched s = .ok (s.remapOffsetsWith sched.translateOff) := by
  cases s with
  | compiledBlock x stmts => exact absurd rfl (h x stmts)
  | sequentialBlock body => exact absurd rfl (h' body)
  | _ =>
    have hcb' := hcb
    rw [nestedCb] at hcb'
    · exact ⟨hcb', by simp [applyOne, hcb']⟩
    all_goals simp

theorem sim_applyOne (hv : Valid sched) (henv : env.use4state = false) (s : ProtoStatement)
    (hflat : nestedCb s = false) (hblocks : ∀ b ∈ s.blocks, BlockOk external sched b)
    (hs : ∀ v ∈ s.walk true, ∀ g ∈ groups v, Together (SameUnit sched) g) :
    ∃ s', applyOne external sched s = .ok s' ∧
      Computation.Sim (Relocated sched.translateOff (Kept sched)) (s.exec env) (s'.exec env) := by
  induction s with
  | compiledBlock x stmts ih => exact sim_rigidShift hv henv (hblocks _ (mem_singleton.2 rfl))
  | sequentialBlock body ih =>
    obtain ⟨body', hbody', hexec, -⟩ := sim_applyToStmts fun s hs' => by
      refine ih s hs' ?_ (fun b hb => hblocks b ?_) fun v hmem => hs v (mem_walk_of_body hs' hmem)
      · rw [nestedCb, anyNestedCb_eq, any_eq_false] at hflat
        simpa using hflat s hs'
      · rw [ProtoStatement.blocks, blocksBody_eq]
        exact mem_flatMap.2 ⟨s, hs', hb⟩
    exact ⟨.sequentialBlock body', by rw [applyOne, hbody']; rfl, hexec⟩
  | _ =>
    obtain ⟨hcb, happly⟩ := applyOne_eq_remap external sched (fun _ _ => by simp)
      (fun _ => by simp) hflat
    exact ⟨_, happly, sim_remapped hv henv hcb hs⟩

/-- What the collectors miss is tied together all the same, what a block
touches is tied to its span, and no block stands below a branch or a loop. -/
structure Tied (external : List ProtoStatement → VarOffset → Bool) (inp : Inputs) : Prop where
  flat : ∀ l ∈ inp.lists, anyNestedCb l = false
  items : ∀ l ∈ inp.lists, ∀ v ∈ walkBody true l, ∀ g ∈ uncollected v,
    Together (Relation.TransGen (Tie external inp)) g
  blocks : ∀ l ∈ inp.lists, ∀ b ∈ blocksBody l,
    Anchored external (Relation.TransGen (Tie external inp)) b

/-- The relayout is a renaming: units and places lie apart and inside the
buffer, units keep their layout, whatever an access assumes contiguous lies in
one unit, and the rewritten lists run as the originals. -/
structure Faithful (external : List ProtoStatement → VarOffset → Bool) (inp : Inputs)
    (sched : CombLayoutSchedule) : Prop where
  apart : sched.units.Pairwise fun a b => Disjoined (oldRange a) (oldRange b)
  placed : sched.units.Pairwise fun a b => Disjoined (newRange a) (newRange b)
  within : ∀ t ∈ sched.units, 0 ≤ (newRange t).1 ∧ (newRange t).2 ≤ sched.bufferEnd
  layout : ∀ t ∈ sched.units, ∀ x, Holds (oldRange t) x →
    sched.translate x = (newRange t).1 + (x - t.1)
  whole : ∀ l ∈ inp.lists, ∀ v ∈ walkBody true l, ∀ g ∈ groups v, Together (SameUnit sched) g
  blocks : ∀ l ∈ inp.lists, ∀ b ∈ blocksBody l, Anchored external (SameUnit sched) b
  runs : ∀ l ∈ inp.lists, ∃ l', applyToStmts external sched l = .ok l' ∧
    ∀ env : Env, env.use4state = false →
      Computation.Sim (Relocated sched.translateOff (Kept sched)) (runPass env l) (runPass env l')

theorem cbCombSpan_lt (h : cbCombSpan external x stmts = some (lo, hi)) : lo < hi := by
  unfold cbCombSpan at h
  simp only [Option.pure_def, Option.bind_eq_bind, Option.bind_eq_some_iff, Option.some.injEq,
    Prod.mk.injEq] at h
  obtain ⟨lo', hlo, hi', hhi, rfl, rfl⟩ := h
  have hle := (max?_eq_some_iff.1 hhi).2 _ (min?_mem hlo)
  omega

theorem mem_seedSpans_of_block (hl : l ∈ inp.lists)
    {b : CompiledBlockStatement × List ProtoStatement} (hb : b ∈ blocksBody l)
    (h : cbCombSpan external b.1 b.2 = some (lo, hi)) :
    (lo, hi) ∈ seedSpans external inp := by
  refine mem_filter.2 ⟨?_, by simpa using cbCombSpan_lt h⟩
  simp only [mem_append, mem_flatMap, mem_filterMap]
  exact .inl (.inl (.inr ⟨l, hl, b, hb, h⟩))

theorem mem_seedSpans_of_item (hl : l ∈ inp.lists) (hv : v ∈ walkBody true l) {r : ℤ × ℤ}
    (hr : r ∈ dynamicSpans v ++ writeSpans v) (hne : r.1 < r.2) : r ∈ seedSpans external inp := by
  refine mem_filter.2 ⟨?_, by simpa using hne⟩
  simp only [mem_append, mem_flatMap]
  rcases mem_append.1 hr with hr | hr
  · exact .inl (.inr ⟨l, hl, v, hv, hr⟩)
  · exact .inr ⟨l, hl, v, hv, hr⟩

theorem tied_of_collected (hl : l ∈ inp.lists) (hv : v ∈ walkBody true l)
    (hg : Together (Share (dynamicSpans v ++ writeSpans v)) g) :
    Together (Relation.TransGen (Tie external inp)) g := by
  refine hg.mono fun x y hxy => ?_
  obtain ⟨r, hr, hx, hy⟩ := hxy
  have hne : r.1 < r.2 := hx.1.trans_lt hx.2
  exact .single (.inl ⟨r, mem_seedSpans_of_item hl hv hr hne, hx, hy⟩)

theorem anyNestedCb_of_applyToStmts {l' : List ProtoStatement}
    (h : applyToStmts external sched l = .ok l') : anyNestedCb l = false := by
  have body : ∀ {l l' : List ProtoStatement},
      (∀ s ∈ l, ∀ s', applyOne external sched s = .ok s' → nestedCb s = false) →
      applyToStmts external sched l = .ok l' → anyNestedCb l = false := by
    intro l
    induction l with
    | nil => exact fun _ _ => rfl
    | cons s l ih =>
      intro l' hs h
      rw [applyToStmts] at h
      cases happly : applyOne external sched s with
      | error e =>
        rw [happly] at h
        cases h
      | ok s' =>
        cases hrest : applyToStmts external sched l with
        | error e =>
          rw [happly, hrest] at h
          cases h
        | ok l'' =>
          have hfirst := hs s (by simp) s' happly
          have hothers := ih (fun t ht => hs t (by simp [ht])) hrest
          simp [anyNestedCb, hfirst, hothers]
  have hflat : ∀ s : ProtoStatement, ∀ s', applyOne external sched s = .ok s' →
      nestedCb s = false := by
    intro s
    induction s with
    | compiledBlock x stmts ih => exact fun _ _ => rfl
    | sequentialBlock b ih =>
      intro s' hs'
      rw [applyOne] at hs'
      cases hb : applyToStmts external sched b with
      | error e =>
        rw [hb] at hs'
        cases hs'
      | ok b' => exact body ih hb
    | _ =>
      intro s' hs'
      simp only [applyOne] at hs'
      split at hs'
      · cases hs'
      · rename_i hcb
        exact Bool.eq_false_iff.2 hcb
  exact body (fun s _ => hflat s) h

/-- The relayout is a faithful renaming exactly when what its collectors miss is
tied together by the spans and orphans all the same. -/
theorem buildSchedule_faithful (h : buildSchedule external inp = .ok (some sched))
    (hbuilt : ∀ l ∈ inp.lists, ∀ b ∈ blocksBody l, Buildable b.2) :
    Faithful external inp sched ↔ Tied external inp := by
  have hsame := sameUnit_iff h
  obtain ⟨hvalid, -⟩ := buildSchedule_spec h
  constructor
  · intro hf
    refine ⟨fun l hl => ?_, fun l hl v hv g hg => ?_, fun l hl b hb => ?_⟩
    · obtain ⟨l', hl', -⟩ := hf.runs l hl
      exact anyNestedCb_of_applyToStmts hl'
    · exact (hf.whole l hl v hv g (mem_groups_of_uncollected hg)).mono fun x y => (hsame x y).1
    · exact (hf.blocks l hl b hb).mono fun x y => (hsame x y).1
  · intro ht
    have hwhole : ∀ l ∈ inp.lists, ∀ v ∈ walkBody true l, ∀ g ∈ groups v,
        Together (SameUnit sched) g := by
      intro l hl v hv g hg
      refine Together.mono (fun x y => (hsame x y).2) ?_
      rcases together_of_collected hg with hg | hg
      · exact ht.items l hl v hv g hg
      · exact tied_of_collected hl hv hg
    have hblocks : ∀ l ∈ inp.lists, ∀ b ∈ blocksBody l, Anchored external (SameUnit sched) b :=
      fun l hl b hb => (ht.blocks l hl b hb).mono fun x y => (hsame x y).2
    refine ⟨hvalid.apart.pairwise.imp fun h => disjoined_of_le h, hvalid.placed, hvalid.within,
      fun t ht x hx => translate_of_holds hvalid ht hx, hwhole, hblocks, fun l hl => ?_⟩
    have hok : ∀ b ∈ blocksBody l, BlockOk external sched b := by
      refine fun b hb => ⟨hbuilt l hl b hb, fun lo hi hspan => ?_, hblocks l hl b hb⟩
      have hlt := cbCombSpan_lt hspan
      refine (hsame lo (hi - 1)).2 (.single (.inl ⟨_, mem_seedSpans_of_block hl hb hspan, ?_⟩))
      simp only [Holds]
      omega
    have hsim : ∀ env : Env, env.use4state = false → ∃ l', applyToStmts external sched l = .ok l' ∧
        Computation.Sim (Relocated sched.translateOff (Kept sched)) (runPass env l)
          (runPass env l') := by
      intro env henv
      obtain ⟨l', happly, -, hrun⟩ := sim_applyToStmts fun s hs => by
        refine sim_applyOne hvalid henv s ?_ (fun b hb => hok b ?_) fun v hv =>
          hwhole l hl v (mem_walk_of_body hs hv)
        · have hflat := ht.flat l hl
          rw [anyNestedCb_eq, any_eq_false] at hflat
          simpa using hflat s hs
        · rw [blocksBody_eq]
          exact mem_flatMap.2 ⟨s, hs, hb⟩
      exact ⟨l', happly, hrun⟩
    obtain ⟨l', happly, -⟩ := hsim plainEnv rfl
    refine ⟨l', happly, fun env henv => ?_⟩
    obtain ⟨l'', happly', hrun⟩ := hsim env henv
    rwa [Except.ok.inj (happly.symm.trans happly')]

/-- One copy, whose two bytes are packed anew. -/
def copied : Inputs where
  metaUnits := [(0, 1), (8, 9)]
  unified := [byteAssign (.comb 8) (byteVariable (.comb 0))]
  events := []
  extraOffsets := []
  combTotal := 9

theorem buildSchedule_faithful_copied :
    Faithful (fun _ _ => false) copied ⟨[(0, 1, 0), (8, 9, 1)], 2⟩ ↔
      Tied (fun _ _ => false) copied :=
  buildSchedule_faithful (by decide +kernel) (by simp [copied, Inputs.lists, byteAssign,
    blocksBody, ProtoStatement.blocks])

/-- A read of an array of two bytes, one bit of which another array of three
bytes selects. Neither array belongs to a variable. -/
def hiddenArray : ProtoExpression :=
  .dynamicVariable (.comb 16) 1 1 (byteVariable (.comb 0)) 2 none (some (⟨0, none, 1, 1, 8⟩,
      .dynamicVariable (.comb 24) 1 1 (byteVariable (.comb 0)) 3 none none 8 ⟨8, false⟩))
    8 ⟨8, false⟩

/-- The last element of the hidden array is read first. -/
def hidden : Inputs where
  metaUnits := [(0, 1), (1, 2), (2, 3)]
  unified := [byteAssign (.comb 1) (byteVariable (.comb 26)), byteAssign (.comb 2) hiddenArray]
  events := []
  extraOffsets := []
  combTotal := 32

/-- The three bytes come apart: through its base, the last one is read from the
other array. -/
theorem buildSchedule_hidden : ∃ sched, buildSchedule (fun _ _ => false) hidden = .ok (some sched) ∧
      (∀ l ∈ hidden.lists, ∀ b ∈ blocksBody l, Buildable b.2) ∧
      sched.translate 24 + 2 = sched.translate 16 ∧ sched.translate 24 + 2 ≠ sched.translate 26 ∧
      ¬ Faithful (fun _ _ => false) hidden sched := by
  refine ⟨⟨[(0, 1, 7), (1, 2, 6), (2, 3, 12), (16, 18, 10), (24, 26, 8), (26, 32, 0)], 13⟩,
    by decide +kernel, ?_, by decide, by decide, fun hf => ?_⟩
  · simp [hidden, Inputs.lists, byteAssign, blocksBody, ProtoStatement.blocks]
  have hgroup : stridedAccesses (.comb 24) 1 3 1 ∈ groups (.assign
      { dst := .comb 2, dstWidth := 8, select := none, dynamicSelect := none, rhsSelect := none
        expr := hiddenArray, dstFfCurrentOffset := 0, combDirect := false }) := by
    simp [groups, readGroups, readExprs, Visit.operands, hiddenArray, ProtoExpression.leaves,
      ProtoExpression.selectLeaves, byteVariable, ProtoExpression.leafAccesses, valueSize]
  have hsame := hf.whole _ mem_cons_self _
    (by simp [hidden, byteAssign, walkBody, walk]) _ hgroup 24 26
    ⟨⟨.comb 24, 1 * 0, 1⟩, by decide, 0, by decide, rfl⟩
    ⟨⟨.comb 24, 1 * 2, 1⟩, by decide, 0, by decide, rfl⟩
  revert hsame
  simp [SameUnit, Holds, oldRange]

end Veryl.Simulator.CombLayout
