import Veryl.Simulator.TbDirty

/-!
What the verdict of a statement is worth. A statement is judged by the first byte of each of its
stores, or by a range that begins there, and this verdict stands for the variable the store stays
in.
-/

namespace Veryl.Simulator.TbDirty

open Veryl.Library List ProtoStatement
open ProtoStatement (walkArms_eq walkBody walkBody_eq)
open VarOffset (raw_add)

variable {s : ProtoStatement} {b : VarOffset} {env : Env} {comb : List ProtoStatement} {m : Mem}

variable {p : ℕ} {o : VarOffset} {a : Access}

variable (use4state : Bool) {runs : List Span} {done : List ℕ}

section Runs

variable {len : ℕ}

/-- The runs of the elements laid so far. -/
structure Runs (len : ℕ) (done : List ℕ) (runs : List Span) : Prop where
  nonempty : ∀ r ∈ runs, r.start < r.end_
  covers : ∀ p ∈ done, ∃ r ∈ runs, r.start ≤ p ∧ p + len ≤ r.end_
  holds : ∀ r ∈ runs, ∀ b, r.Has b → ∃ p ∈ done, p ≤ b ∧ b < p + len

theorem Runs.push (h : Runs len done runs) (hlen : 0 < len)
    (p : ℕ) : Runs len (done ++ [p]) (⟨p, p + len, false⟩ :: runs) where
  nonempty := forall_mem_cons.2 ⟨Nat.lt_add_of_pos_right hlen, h.nonempty⟩
  covers := covers_push h.covers ⟨le_rfl, le_rfl⟩
  holds := forall_mem_cons.2
    ⟨fun _ hb => exists_mem_snoc_self hb, fun r hr b hb => exists_mem_snoc (h.holds r hr b hb)⟩

theorem Runs.step (h : Runs len done runs) (hlen : 0 < len)
    (p : ℕ) : Runs len (done ++ [p]) (runStep len runs p) := by
  cases runs with
  | nil => exact h.push hlen p
  | cons run rest =>
    rw [runStep]
    split_ifs with hend
    · have hrun := forall_mem_cons.1 h.nonempty
      have hholds := forall_mem_cons.1 h.holds
      refine
        { nonempty := forall_mem_cons.2 ⟨by dsimp only; omega, hrun.2⟩
          covers := covers_merge h.covers (fun q hq => ⟨hq.1, by dsimp only; omega⟩)
            ⟨by dsimp only; omega, le_rfl⟩
          holds := forall_mem_cons.2 ⟨fun b hb => ?_,
            fun r hr b hb => exists_mem_snoc (hholds.2 r hr b hb)⟩ }
      rcases lt_or_ge b p with hlt | hge
      · exact exists_mem_snoc (hholds.1 b ⟨hb.1, by omega⟩)
      · exact exists_mem_snoc_self ⟨hge, hb.2⟩
    · exact h.push hlen p

theorem runs_runsOf (hlen : 0 < len) (starts : List ℕ) : Runs len starts (runsOf len starts) := by
  have h : Runs len starts (starts.foldl (runStep len) []) :=
    Library.foldl_rule ⟨by simp, by simp, by simp⟩ fun _ p _ _ _ h => h.step hlen p
  refine ⟨fun r hr => h.nonempty r (mem_reverse.1 hr), fun p hp => ?_,
    fun r hr => h.holds r (mem_reverse.1 hr)⟩
  obtain ⟨r, hr, hle⟩ := h.covers p hp
  exact ⟨r, mem_reverse.2 hr, hle⟩

theorem extent_holds {starts : List ℕ} {p : ℕ} (hp : p ∈ starts) :
    (extent len starts).1 ≤ p ∧ p + len ≤ (extent len starts).2 := by
  have hfold : ∀ (l : List ℕ) (e : ℕ × ℕ),
      let r := l.foldl (fun e start => (min e.1 start, max e.2 (start + len))) e
      (r.1 ≤ e.1 ∧ e.2 ≤ r.2) ∧ ∀ q ∈ l, r.1 ≤ q ∧ q + len ≤ r.2 := by
    intro l
    induction l with
    | nil => exact fun e => ⟨⟨le_rfl, le_rfl⟩, by simp⟩
    | cons q l ih =>
      intro e
      obtain ⟨⟨hlo, hhi⟩, hl⟩ := ih (min e.1 q, max e.2 (q + len))
      refine ⟨⟨hlo.trans (min_le_left _ _), (le_max_left _ _).trans hhi⟩,
        forall_mem_cons.2 ⟨⟨hlo.trans (min_le_right _ _), (le_max_right _ _).trans hhi⟩, hl⟩⟩
  exact (hfold starts (usizeMax, 0)).2 p hp

theorem anyIn_of_mem {set : List ℕ} (hset : set.Pairwise (· ≤ ·)) {x lo hi : ℕ} (hx : x ∈ set)
    (hlo : lo ≤ x) (hhi : x < hi) : anyIn set lo hi = true := by
  have hmem : x ∈ set.dropWhile (· < lo) := by
    rw [← takeWhile_append_dropWhile (p := fun y => decide (y < lo)) (l := set)] at hx
    refine (mem_append.1 hx).resolve_left fun htake => ?_
    have := all_eq_true.1 all_takeWhile _ htake
    simp only [decide_eq_true_eq] at this
    omega
  have hsorted := hset.sublist (dropWhile_sublist (fun y => decide (y < lo)))
  rw [anyIn, Bool.and_eq_true]
  refine ⟨decide_eq_true (by omega), ?_⟩
  cases hdrop : set.dropWhile (· < lo) with
  | nil => simp [hdrop] at hmem
  | cons y ys =>
    rw [hdrop] at hmem hsorted
    have hle : y ≤ x := by
      rcases mem_cons.1 hmem with rfl | hmem
      · exact le_rfl
      · exact rel_of_pairwise_cons hsorted hmem
    simpa using hle.trans_lt hhi

end Runs

namespace Layout

variable (L : Layout)

/-- A byte of an element of a variable. -/
def HasByte (v : TrackedVariable) (o : VarOffset) : Prop :=
  ∃ p ∈ L.starts v o.isFf, (p : ℤ) ≤ o.raw ∧ o.raw < p + L.stride v

/-- An access inside an element of a variable. -/
def Holds (v : TrackedVariable) (a : Access) : Prop :=
  ∃ p ∈ L.starts v a.base.isFf, (p : ℤ) ≤ a.base.raw + a.delta ∧
    a.base.raw + a.delta + a.bytes ≤ p + L.stride v

/-- What the table says of a byte. -/
def Verdict (touched : Bool) (o : VarOffset) : Prop :=
  ∃ s ∈ L.cover o.isFf, s.touched = touched ∧ (s.start : ℤ) ≤ o.raw ∧ o.raw < s.end_

/-- The table gives the bytes of a variable one verdict. -/
def Uniform : Prop := ∀ v ∈ L.vars, ∃ touched, ∀ o, L.HasByte v o → L.Verdict touched o

variable {L} {v : TrackedVariable} {isFf : Bool}

theorem stride_pos (v : TrackedVariable) : 0 < L.stride v :=
  v.pos.trans_le (valueSize_le_of_four _ _)

theorem lt_usizeMax_of_lt_len (h : p < L.len isFf) : p < usizeMax := by
  cases isFf with
  | true => exact h.trans L.ffLen_lt
  | false => exact h.trans L.combLen_lt

theorem lt_len_of_mem_starts (hp : p ∈ L.starts v isFf) : p < L.len isFf := by
  obtain ⟨o, -, ho⟩ := mem_filterMap.1 hp
  rw [position] at ho
  split_ifs at ho with hin
  obtain rfl := Option.some.inj ho
  omega

theorem mem_spansOf {s : Span} (hs : s ∈ L.spansOf isFf v) :
    s.start < s.end_ ∧ s.touched = L.isTouched v ∧
      ∀ b, s.Has b → ∃ p ∈ L.starts v isFf, p ≤ b ∧ b < p + L.stride v := by
  obtain ⟨run, hrun, rfl⟩ := mem_map.1 hs
  have hruns : Runs (L.stride v) (L.starts v isFf) _ := runs_runsOf (stride_pos v) _
  exact ⟨hruns.nonempty run hrun, rfl, hruns.holds run hrun⟩

theorem spans_nonempty : ∀ s ∈ L.vars.flatMap (L.spansOf isFf), s.start < s.end_ := by
  intro s hs
  obtain ⟨v, -, hs⟩ := mem_flatMap.1 hs
  exact (mem_spansOf hs).1

theorem apart_cover : Apart (L.cover isFf) := apart_disjointCover spans_nonempty

theorem exists_cover (hv : v ∈ L.vars) (hp : p ∈ L.starts v isFf) :
    ∃ s ∈ L.cover isFf, s.start ≤ p ∧ p + L.stride v ≤ s.end_ ∧ (L.isTouched v → s.touched) := by
  obtain ⟨run, hrun, hlo, hhi⟩ := (runs_runsOf (stride_pos v) _).covers p hp
  have hmem : { run with touched := L.isTouched v } ∈ L.vars.flatMap (L.spansOf isFf) :=
    mem_flatMap.2 ⟨v, hv, mem_map_of_mem hrun⟩
  obtain ⟨s, hs, hslo, hshi, hmark⟩ := (covers_disjointCover spans_nonempty).covers _ hmem
  exact ⟨s, mem_reverse.1 hs, hslo.trans hlo, hhi.trans hshi, hmark⟩

theorem exists_verdict (hv : v ∈ L.vars) (hp : p ∈ L.starts v isFf) :
    ∃ touched, (L.isTouched v → touched = true) ∧ ∀ o : VarOffset, o.isFf = isFf →
      (p : ℤ) ≤ o.raw → o.raw < p + L.stride v → L.Verdict touched o := by
  obtain ⟨s, hs, hlo, hhi, hmark⟩ := exists_cover hv hp
  refine ⟨s.touched, hmark, fun o ho hle hlt => ⟨s, ho ▸ hs, rfl, ?_, ?_⟩⟩
  · omega
  · omega

theorem Verdict.unique {t t' : Bool} (h : L.Verdict t o) (h' : L.Verdict t' o) : t = t' := by
  obtain ⟨s, hs, rfl, hlo, hhi⟩ := h
  obtain ⟨s', hs', rfl, hlo', hhi'⟩ := h'
  rw [apart_cover.eq_of_has hs hs' (b := o.raw.toNat) ⟨by omega, by omega⟩ ⟨by omega, by omega⟩]

theorem hasByte_of_holds (h : L.Holds v a) (hb : b ∈ a.cells) : L.HasByte v b := by
  obtain ⟨p, hp, hlo, hhi⟩ := h
  obtain ⟨k, hk, rfl⟩ := hb
  refine ⟨p, by simpa using hp, ?_, ?_⟩
  · rw [raw_add]
    omega
  · rw [raw_add]
    omega

theorem isTouched_of_mem (ho : o ∈ L.touched) (hbyte : L.HasByte v o) : L.isTouched v = true := by
  obtain ⟨p, hp, hlo, hhi⟩ := hbyte
  have hextent := @extent_holds (L.stride v) _ p hp
  have hmem : o.raw.toNat ∈ L.touchedIn o.isFf := by
    refine (mem_insertionSort _).2 (mem_filterMap.2 ⟨o, ho, ?_⟩)
    rw [if_pos ⟨rfl, by omega⟩]
  have hany : anyIn (L.touchedIn o.isFf) (extent (L.stride v) (L.starts v o.isFf)).1
      (extent (L.stride v) (L.starts v o.isFf)).2 = true :=
    anyIn_of_mem (pairwise_insertionSort _ _) hmem (by omega) (by omega)
  rw [isTouched, Bool.or_eq_true]
  cases hff : o.isFf with
  | true => exact .inl (hff ▸ hany)
  | false => exact .inr (hff ▸ hany)

theorem verdict_of_isTouched (hv : v ∈ L.vars) (htouched : L.isTouched v = true)
    (ho : L.HasByte v o) : L.Verdict true o := by
  obtain ⟨p, hp, hlo, hhi⟩ := ho
  obtain ⟨t, ht, hall⟩ := exists_verdict hv hp
  exact ht htouched ▸ hall o rfl hlo hhi

theorem writeMayReachComb_eq_false_iff {len : ℕ} :
    L.writeMayReachComb o len = false ↔ (0 ≤ o.raw ∧ o.raw < L.len o.isFf) ∧
      ∀ k : ℕ, k < max len 1 → o.raw + k < usizeMax → L.Verdict false (o.add k) := by
  rw [writeMayReachComb]
  split_ifs with hin
  · have hpos : o.raw.toNat < L.len o.isFf := by omega
    rw [rangeMayReach_eq_false_iff apart_cover (lt_usizeMax_of_lt_len hpos), and_iff_right hin]
    constructor
    · intro hall k hk hmax
      obtain ⟨s, hs, hb, hfree⟩ := hall (o.raw.toNat + k) (by omega) (lt_min (by omega) (by omega))
      refine ⟨s, by simpa using hs, hfree, ?_, ?_⟩
      · rw [raw_add]
        have := hb.1
        omega
      · rw [raw_add]
        have := hb.2
        omega
    · intro hall b hle hlt
      obtain ⟨hlen, hmax⟩ := lt_min_iff.1 hlt
      obtain ⟨s, hs, hfree, hlo, hhi⟩ := hall (b - o.raw.toNat) (by omega) (by omega)
      rw [raw_add] at hlo hhi
      exact ⟨s, by simpa using hs, ⟨by omega, by omega⟩, hfree⟩
  · exact iff_of_false (by simp) fun h => hin h.1

end Layout

/-! ### Store sites

A store goes to a variable its site names: a store statement names the first element, a
loop its counter, a compiled block the outputs recorded for it. -/

section Sites

/-- The slots an item may fill, those its log entries go to included. -/
def stored (use4state : Bool) : Visit → List Access
  | .assign x =>
    storeSlot use4state x.dst x.dstWidth ::
      x.ffLogOffset.toList.map fun base => storeSlot use4state (.ff base) x.dstWidth
  | .assignDynamic x =>
    storeElements use4state x ++ x.ffLogBaseCurrentOffset.toList.flatMap fun base =>
      stridedAccesses (.ff base) x.dstStride x.dstNumElements
        (valueSize (nativeBytes x.dstWidth) use4state)
  | v => v.writes use4state

theorem writes_subset_stored (v : Visit) : v.writes use4state ⊆ stored use4state v := by
  cases v with
  | assign x =>
    rw [Visit.writes]
    split_ifs with hpacked
    · exact nil_subset _
    · exact cons_subset.2 ⟨mem_cons_self, nil_subset _⟩
  | assignDynamic x =>
    rw [Visit.writes]
    split_ifs with hpacked
    · exact nil_subset _
    · exact subset_append_left _ _
  | cond e => exact List.Subset.refl _
  | loop x => exact List.Subset.refl _
  | call x => exact List.Subset.refl _
  | compiled x => exact List.Subset.refl _
  | tb m => exact List.Subset.refl _

/-- The offsets that name the variables of a site, and the slots it may fill. -/
structure Site where
  named : List VarOffset
  slots : List Access

variable {site : Site}

mutual

def sites (use4state : Bool) : ProtoStatement → List Site
  | .assign x => [⟨[x.dst], stored use4state (.assign x)⟩]
  | .assignDynamic x => [⟨[x.dstBase], stored use4state (.assignDynamic x)⟩]
  | .ifStmt _ t f => sitesBody use4state t ++ sitesBody use4state f
  | .caseStmt arms default => sitesArms use4state arms ++ sitesBody use4state default
  | .forStmt x body => ⟨[x.varOffset], stored use4state (.loop x)⟩ :: sitesBody use4state body
  | .breakStmt => []
  | .systemFunctionCall x => [⟨[], stored use4state (.call x)⟩]
  | .compiledBlock x stmts =>
    [⟨x.outputOffsets, (walkBody true stmts).flatMap (stored use4state)⟩]
  | .sequentialBlock body => sitesBody use4state body
  | .tbMethodCall _ _ => []
termination_by structural s => s

def sitesBody (use4state : Bool) : List ProtoStatement → List Site
  | [] => []
  | s :: body => sites use4state s ++ sitesBody use4state body
termination_by structural body => body

def sitesArms (use4state : Bool) : List (ProtoExpression × List ProtoStatement) → List Site
  | [] => []
  | (_, body) :: arms => sitesBody use4state body ++ sitesArms use4state arms
termination_by structural arms => arms

end

theorem sitesBody_eq (body : List ProtoStatement) :
    sitesBody use4state body = body.flatMap (sites use4state) := by
  induction body with
  | nil => rfl
  | cons s body ih => rw [sitesBody, ih, flatMap_cons]

theorem sitesArms_eq (arms : List (ProtoExpression × List ProtoStatement)) :
    sitesArms use4state arms = arms.flatMap fun a => a.2.flatMap (sites use4state) := by
  induction arms with
  | nil => rfl
  | cons a arms ih => rw [sitesArms, ih, sitesBody_eq, flatMap_cons]

theorem exists_site {use4state : Bool}
    (ha : a ∈ s.writes use4state) : ∃ site ∈ sites use4state s, a ∈ site.slots := by
  have hbody : ∀ {body : List ProtoStatement}, (∀ s ∈ body, a ∈ s.writes use4state →
      ∃ site ∈ sites use4state s, a ∈ site.slots) →
      a ∈ (walkBody true body).flatMap (Visit.writes use4state) →
      ∃ site ∈ sitesBody use4state body, a ∈ site.slots := by
    intro body ih ha
    rw [walkBody_eq, flatMap_assoc] at ha
    obtain ⟨s, hs, ha⟩ := mem_flatMap.1 ha
    obtain ⟨site, hsite, hslots⟩ := ih s hs ha
    rw [sitesBody_eq]
    exact ⟨site, mem_flatMap.2 ⟨s, hs, hsite⟩, hslots⟩
  have hone : ∀ {v : Visit}, a ∈ [v].flatMap (Visit.writes use4state) → a ∈ stored use4state v := by
    intro v ha
    exact writes_subset_stored use4state v (by simpa using ha)
  induction s with
  | assign x => exact ⟨_, mem_singleton_self _, hone ha⟩
  | assignDynamic x => exact ⟨_, mem_singleton_self _, hone ha⟩
  | ifStmt c t f iht ihf =>
    rw [writes, walk, flatMap_append, flatMap_append] at ha
    have hcond : a ∉ (c.toList.map Visit.cond).flatMap (Visit.writes use4state) := by
      cases c <;> simp [Visit.writes]
    rcases mem_append.1 ha with ha | ha
    · obtain ⟨site, hsite, hslots⟩ :=
        hbody iht ((mem_append.1 ha).resolve_left hcond)
      exact ⟨site, mem_append_left _ hsite, hslots⟩
    · obtain ⟨site, hsite, hslots⟩ := hbody ihf ha
      exact ⟨site, mem_append_right _ hsite, hslots⟩
  | caseStmt arms d iharms ihd =>
    rw [writes, walk, flatMap_append] at ha
    rcases mem_append.1 ha with ha | ha
    · rw [walkArms_eq, flatMap_assoc] at ha
      obtain ⟨arm, harm, ha⟩ := mem_flatMap.1 ha
      obtain ⟨site, hsite, hslots⟩ := hbody (iharms arm harm) ha
      rw [sitesBody_eq] at hsite
      refine ⟨site, mem_append_left _ ?_, hslots⟩
      rw [sitesArms_eq]
      exact mem_flatMap.2 ⟨arm, harm, hsite⟩
    · obtain ⟨site, hsite, hslots⟩ := hbody ihd ha
      exact ⟨site, mem_append_right _ hsite, hslots⟩
  | forStmt x body ih =>
    rcases mem_append.1 ha with ha | ha
    · exact ⟨_, mem_cons_self, ha⟩
    · obtain ⟨site, hsite, hslots⟩ := hbody ih ha
      exact ⟨site, mem_cons_of_mem _ hsite, hslots⟩
  | breakStmt => cases ha
  | systemFunctionCall x => exact ⟨_, mem_singleton_self _, hone ha⟩
  | compiledBlock x stmts ih =>
    refine ⟨_, mem_singleton_self _, ?_⟩
    rw [writes, walk] at ha
    split_ifs at ha with hopen
    · obtain ⟨v, hv, ha⟩ := mem_flatMap.1 ha
      exact mem_flatMap.2 ⟨v, hv, writes_subset_stored use4state v ha⟩
    · simp [Visit.writes] at ha
  | sequentialBlock body ih => exact hbody ih ha
  | tbMethodCall inst method =>
    simp [writes, walk, Visit.writes] at ha

theorem verdict_named {L : Layout} (hclean : isCleanStmt L s = true)
    (hsite : site ∈ sites L.use4state s) (ho : o ∈ site.named) :
    L.Verdict false o := by
  have hprobe : ∀ {o : VarOffset} {len : ℕ}, (!L.writeMayReachComb o len) = true →
      L.Verdict false o := by
    intro o len hprobe
    obtain ⟨hin, hall⟩ := L.writeMayReachComb_eq_false_iff.1 (by simpa using hprobe)
    have hpos : o.raw.toNat < L.len o.isFf := by omega
    have hlt := L.lt_usizeMax_of_lt_len hpos
    simpa using hall 0 (by omega) (by omega)
  have hbody : ∀ {body : List ProtoStatement}, (∀ s ∈ body, isCleanStmt L s = true →
      site ∈ sites L.use4state s → L.Verdict false o) → allClean L body = true →
      site ∈ sitesBody L.use4state body → L.Verdict false o := by
    intro body ih hclean hsite
    rw [sitesBody_eq] at hsite
    obtain ⟨s, hs, hsite⟩ := mem_flatMap.1 hsite
    rw [allClean_eq, all_eq_true] at hclean
    exact ih s hs (hclean s hs) hsite
  induction s with
  | assign x =>
    obtain rfl := mem_singleton.1 hsite
    obtain rfl := mem_singleton.1 ho
    exact hprobe hclean
  | assignDynamic x =>
    obtain rfl := mem_singleton.1 hsite
    obtain rfl := mem_singleton.1 ho
    exact hprobe hclean
  | ifStmt c t f iht ihf =>
    rw [isCleanStmt, Bool.and_eq_true] at hclean
    rcases mem_append.1 hsite with hsite | hsite
    · exact hbody iht hclean.1 hsite
    · exact hbody ihf hclean.2 hsite
  | caseStmt arms d iharms ihd =>
    rw [isCleanStmt, Bool.and_eq_true, armsClean_eq, all_eq_true] at hclean
    rcases mem_append.1 hsite with hsite | hsite
    · rw [sitesArms_eq] at hsite
      obtain ⟨arm, harm, hsite⟩ := mem_flatMap.1 hsite
      rw [← sitesBody_eq] at hsite
      exact hbody (iharms arm harm) (hclean.1 arm harm) hsite
    · exact hbody ihd hclean.2 hsite
  | forStmt x body ih =>
    rw [isCleanStmt, Bool.and_eq_true] at hclean
    rcases mem_cons.1 hsite with rfl | hsite
    · obtain rfl := mem_singleton.1 ho
      exact hprobe hclean.1
    · exact hbody ih hclean.2 hsite
  | breakStmt => cases hsite
  | systemFunctionCall x => cases hclean
  | compiledBlock x stmts ih =>
    obtain rfl := mem_singleton.1 hsite
    rw [isCleanStmt] at hclean
    split_ifs at hclean
    have hout := all_eq_true.1 hclean o ho
    rw [Bool.and_eq_true] at hout
    exact hprobe hout.2
  | sequentialBlock body ih => exact hbody ih hclean hsite
  | tbMethodCall inst method => cases hclean

end Sites

section Safety

/-- Every slot a statement may fill is inside an element of a variable its site names. -/
def StaysIn (L : Layout) (s : ProtoStatement) : Prop :=
  ∀ site ∈ sites L.use4state s, ∀ a ∈ site.slots,
    ∃ v ∈ L.vars, L.Holds v a ∧ ∃ o ∈ site.named, L.HasByte v o

/-- Every byte the combinational statements access is in a variable one of whose touched
offsets is recorded. -/
def Recorded (L : Layout) (comb : List ProtoStatement) : Prop :=
  ∀ s ∈ comb, ∀ a ∈ s.reads L.use4state ++ s.writes L.use4state, ∀ b ∈ a.cells,
    ∃ v ∈ L.vars, L.HasByte v b ∧ ∃ o ∈ L.touched, L.HasByte v o

/-- Another pass over the combinational statements changes nothing. -/
def Settled (env : Env) (comb : List ProtoStatement) (m : Mem) : Prop :=
  ∀ r, runPass env comb m = some r → r.state = m

/-- The filter never hides a write: neither a range it tells apart from what is touched nor
the slots of a statement it tells clean have a touched byte, and after a clean statement
nothing is left to settle. -/
structure Sound (L : Layout) : Prop where
  range : ∀ o len, L.writeMayReachComb o len = false → ∀ k : ℕ, k < len →
    o.raw + k < usizeMax → L.Verdict false (o.add k) ∧ ¬ L.Verdict true (o.add k)
  slots : ∀ s, StaysIn L s → isCleanStmt L s = true → ∀ site ∈ sites L.use4state s,
    ∀ a ∈ site.slots, ∀ b ∈ a.cells, L.Verdict false b ∧ ¬ L.Verdict true b
  settled : ∀ env comb s m r, env.use4state = L.use4state → Recorded L comb → StaysIn L s →
    isCleanStmt L s = true → Settled env comb m → s.exec env m = some r →
    Settled env comb r.state

variable {L : Layout}

theorem not_verdict_true (h : L.Verdict false o) : ¬ L.Verdict true o :=
  fun h' => absurd (h.unique h') Bool.false_ne_true

theorem settled_of_unchangedOff {m' : Mem}
    {K : Set VarOffset} (hreads : ∀ s ∈ comb, cellsOf (s.reads env.use4state) ⊆ K)
    (hwrites : ∀ s ∈ comb, cellsOf (s.writes env.use4state) ⊆ K)
    (hm : ∀ b ∈ K, m' b = m b) (h : Settled env comb m) : Settled env comb m' := by
  have hsim : Computation.Sim (Relocated id K) (runPass env comb) (runPass env comb) := by
    clear h hwrites
    induction comb with
    | nil => exact .pure _
    | cons s rest ih =>
      refine .bind (.bind (sim_exec_of_reads (hreads s mem_cons_self)) fun _ => .pure _) fun _ => ?_
      exact ih fun t ht => hreads t (mem_cons_of_mem _ ht)
  have hframe : Computation.Guarantees (UnchangedOff K) (fun _ => True) (runPass env comb) := by
    clear h hsim hreads
    induction comb with
    | nil => exact .pure _
    | cons s rest ih =>
      refine .bind ?_ fun _ => ih fun t ht => hwrites t (mem_cons_of_mem _ ht)
      refine .bind (fun m r hr => ⟨fun b hb => ?_, fun _ _ => trivial⟩) fun _ => .pure _
      exact ((s.framed_exec env) hr).1 b fun hb' => hb (hwrites s mem_cons_self hb')
  intro r' hr'
  have hrel := hsim (s := m) (t := m') hm
  rw [hr'] at hrel
  cases hr : runPass env comb m with
  | none =>
    rw [hr] at hrel
    cases hrel
  | some r =>
    rw [hr] at hrel
    cases hrel with
    | some hrel =>
      funext b
      by_cases hb : b ∈ K
      · exact (hrel.2.2 b hb).trans ((congrFun (h r hr) b).trans (hm b hb).symm)
      · exact (hframe hr').1 b hb

theorem verdict_of_clean (hL : L.Uniform) (hstays : StaysIn L s)
    (hclean : isCleanStmt L s = true) (hsite : site ∈ sites L.use4state s) (ha : a ∈ site.slots)
    (hb : b ∈ a.cells) :
    L.Verdict false b := by
  obtain ⟨v, hv, hholds, o, ho, hbyte⟩ := hstays site hsite a ha
  obtain ⟨touched, hall⟩ := hL v hv
  obtain rfl := (hall o hbyte).unique (verdict_named hclean hsite ho)
  exact hall b (Layout.hasByte_of_holds hholds hb)

theorem settled_of_clean (hL : L.Uniform) {r : Outcome Mem Output ControlFlow}
    (henv : env.use4state = L.use4state) (hcomb : Recorded L comb) (hstays : StaysIn L s)
    (hclean : isCleanStmt L s = true) (h : Settled env comb m) (hr : s.exec env m = some r) :
    Settled env comb r.state := by
  have haccess : ∀ t ∈ comb, ∀ a ∈ t.reads env.use4state ++ t.writes env.use4state,
      ∀ b ∈ a.cells, L.Verdict true b := by
    intro t ht a ha b hb
    rw [henv] at ha
    obtain ⟨v, hv, hbyte, o, ho, hobyte⟩ := hcomb t ht a ha b hb
    exact Layout.verdict_of_isTouched hv (Layout.isTouched_of_mem ho hobyte) hbyte
  refine settled_of_unchangedOff (K := {b | L.Verdict true b}) ?_ ?_ ?_ h
  · rintro t ht b ⟨a, ha, hb⟩
    exact haccess t ht a (mem_append_left _ ha) b hb
  · rintro t ht b ⟨a, ha, hb⟩
    exact haccess t ht a (mem_append_right _ ha) b hb
  · intro b hb
    refine ((s.framed_exec env) hr).1 b ?_
    rintro ⟨a, ha, hab⟩
    rw [henv] at ha
    obtain ⟨site, hsite, hslots⟩ := exists_site ha
    exact not_verdict_true (verdict_of_clean hL hstays hclean hsite hslots hab) hb

theorem sound_of_uniform (hL : L.Uniform) : Sound L where
  range o len h k hk hmax := by
    have hfree := (Layout.writeMayReachComb_eq_false_iff.1 h).2 k (lt_max_of_lt_left hk) hmax
    exact ⟨hfree, not_verdict_true hfree⟩
  slots s hstays hclean site hsite a ha b hb := by
    have hfree := verdict_of_clean hL hstays hclean hsite ha hb
    exact ⟨hfree, not_verdict_true hfree⟩
  settled env comb s m r henv hcomb hstays hclean h hr :=
    settled_of_clean hL henv hcomb hstays hclean h hr

/-- A block that records the element at `o` as its output and stores into the one at `p`. -/
def blockStore (o p : VarOffset) : ProtoStatement :=
  .compiledBlock
    { ffDeltaBytes := 0, combDeltaBytes := 0, inputOffsets := [], outputOffsets := [o]
      stmtDeps := [] }
    [.assign
      { dst := p, dstWidth := 8, select := none, dynamicSelect := none, rhsSelect := none
        expr := byteValue 0, dstFfCurrentOffset := p.raw, combDirect := true }]

theorem sites_blockStore (o p : VarOffset) :
    sites use4state (blockStore o p) = [⟨[o], [storeSlot use4state p 8]⟩] := by
  simp [blockStore, sites, walkBody, walk, stored, ProtoAssignStatement.ffLogOffset]

theorem uniform_of_sound (hL : Sound L) : L.Uniform := by
  intro v hv
  have helem : ∀ {o : VarOffset}, L.HasByte v o → ∃ t, ∃ p ∈ L.starts v o.isFf,
      L.Verdict t (.new o.isFf p) ∧ L.Verdict t o := by
    rintro o ⟨p, hp, hlo, hhi⟩
    obtain ⟨t, -, hall⟩ := Layout.exists_verdict hv hp
    have := L.stride_pos v
    refine ⟨t, p, hp, hall _ (by simp) (by simp) (by simpa using this), hall o rfl hlo hhi⟩
  by_cases hfree : ∃ o, L.HasByte v o ∧ L.Verdict false o
  · obtain ⟨o, ho, hofree⟩ := hfree
    obtain ⟨t, p, hp, hpt, hot⟩ := helem ho
    obtain rfl := hofree.unique hot
    refine ⟨false, fun o' ho' => ?_⟩
    obtain ⟨t', q, hq, hqt, hot'⟩ := helem ho'
    have hplen := Layout.lt_len_of_mem_starts hp
    have hclean : isCleanStmt L (blockStore (.new o.isFf p) (.new o'.isFf q)) = true := by
      have hone : L.writeMayReachComb (.new o.isFf p) 1 = false := by
        refine Layout.writeMayReachComb_eq_false_iff.2 ⟨by simpa using hplen, fun k hk _ => ?_⟩
        obtain rfl : k = 0 := by omega
        simpa using hpt
      simp [blockStore, isCleanStmt, hone]
    have hstays : StaysIn L (blockStore (.new o.isFf p) (.new o'.isFf q)) := by
      have hstride : valueSize (nativeBytes 8) L.use4state ≤ L.stride v := by
        have := v.pos
        unfold Layout.stride valueSize nativeBytes
        split_ifs <;> omega
      rw [StaysIn, sites_blockStore]
      refine forall_mem_singleton.2 (forall_mem_singleton.2 ⟨v, hv, ?_, ?_⟩)
      · exact ⟨q, by simpa [storeSlot] using hq, by simp [storeSlot],
          by simpa [storeSlot] using hstride⟩
      · refine ⟨_, mem_singleton_self _, p, by simpa using hp, by simp, ?_⟩
        simpa using L.stride_pos v
    have hstore := (hL.slots _ hstays hclean _
      (by rw [sites_blockStore]; exact mem_singleton_self _) _ (mem_singleton_self _)
      (.new o'.isFf q) ⟨0, by simp [storeSlot, nativeBytes, valueSize]; split_ifs <;> omega,
        by simp [storeSlot]⟩).1
    obtain rfl := hstore.unique hqt
    exact hot'
  · refine ⟨true, fun o ho => ?_⟩
    obtain ⟨t, p, -, -, hot⟩ := helem ho
    cases t with
    | true => exact hot
    | false => exact absurd ⟨o, ho, hot⟩ hfree

/-- An array of two elements laid out downwards. -/
def downwards : TrackedVariable := ⟨4, [.comb 8, .comb 0], by decide⟩

/-- A touched variable over the second element of the array, and one after the array. -/
def partialAlias : Layout where
  vars := [downwards, ⟨4, [.comb 0, .comb 100], by decide⟩, ⟨8, [.comb 12, .comb 20], by decide⟩]
  touched := [.comb 100]
  use4state := false
  ffLen := 0
  combLen := 128
  ffLen_lt := by decide
  combLen_lt := by decide

def storeDownwards : ProtoStatement :=
  .assignDynamic
    { dstBase := .comb 8, dstStride := -8, dstNumElements := 2, dstIndexExpr := byteValue 1
      dstWidth := 32, select := none, dynamicSelect := none, rhsSelect := none
      expr := byteValue 0, dstFfCurrentBaseOffset := 0, combDirect := false }

theorem storeDownwards_staysIn : StaysIn partialAlias storeDownwards := by
  have hv : downwards ∈ partialAlias.vars := mem_cons_self
  have hnamed : partialAlias.HasByte downwards (.comb 8) := ⟨8, by decide, by decide, by decide⟩
  intro site hsite a ha
  obtain rfl := mem_singleton.1 hsite
  have ha' : a ∈ stridedAccesses (.comb 8) (-8) 2 4 := by
    simpa [stored, storeElements, ProtoAssignDynamicStatement.ffLogBaseCurrentOffset,
      VarOffset.isFf, nativeBytes, valueSize, partialAlias] using ha
  refine ⟨downwards, hv, ?_, _, mem_singleton_self _, hnamed⟩
  obtain ⟨i, hi, rfl⟩ := mem_map.1 ha'
  rcases Nat.le_one_iff_eq_zero_or_eq_one.1 (Nat.lt_succ_iff.1 (mem_range.1 hi)) with
    rfl | rfl
  · exact ⟨8, by decide, by decide, by decide⟩
  · exact ⟨0, by decide, by decide, by decide⟩

end Safety

end Veryl.Simulator.TbDirty
