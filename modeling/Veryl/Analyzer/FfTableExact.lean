import Veryl.Analyzer.FfTableCompact

/-!
The compact table and the per-element one answer the same: references, writers
and, once every range reference that bears on an element of its own target finds
that element named, registers.
-/

namespace Veryl.Analyzer.Registers

open List

variable {total : VarId → Option ℕ}

variable (decls : List (Option FfStmts)) {len : ℕ} {multiAssigned : Bool} {decl : ℕ}

section Walks

variable {decl : ℕ} {reads : Option FfTable} {w : Written} {u : UnsafeSelfReads}

theorem contains_foldl_check (hw : ∀ x ∈ w.whole, total x.1.1 = some x.1.2)
    (hreads : ∀ t, reads = some t → Indexed t) (dsts : List Dst)
    (hdsts : ∀ dst ∈ dsts, Written.Spans total dst) (u : UnsafeSelfReads) (decl' : ℕ) (id : VarId)
    (index : ℕ) :
    (dsts.foldl (check decl reads w) u).contains decl' id index ↔
      u.contains decl' id index ∨ (decl' = decl ∧ ∃ dst ∈ dsts,
        ∃ mask, dst.covers id index = some mask ∧ hit reads mask id index w = true) := by
  induction dsts generalizing u with
  | nil => simp
  | cons dst dsts ih =>
    rw [foldl_cons, ih fun d hd => hdsts d (mem_cons_of_mem _ hd),
      contains_check hw hreads dst (hdsts dst (mem_cons_self ..)), or_assoc, ← and_or_left]
    simp

theorem exists_flatMap_addDst (total : VarId → Option ℕ) (perElement : Bool) (ds : List DstAccess)
    (id : VarId) (index : ℕ)
    (P : Mask → Prop) :
    (∃ dst ∈ ds.flatMap (addDst perElement total), ∃ mask, dst.covers id index = some mask ∧ P mask) ↔
      ∃ d ∈ ds, (∃ start stop, d.range = some (start, stop) ∧ d.id = id ∧ start ≤ index ∧
        index ≤ stop) ∧ P d.mask := by
  constructor
  · rintro ⟨dst, hdst, mask, hcovers, hP⟩
    obtain ⟨d, hd, hdst⟩ := mem_flatMap.1 hdst
    obtain ⟨start, stop, hrange, hid, hlo, hhi, rfl⟩ :=
      (exists_addDst total perElement d id index mask).1 ⟨dst, hdst, hcovers⟩
    exact ⟨d, hd, ⟨start, stop, hrange, hid, hlo, hhi⟩, hP⟩
  · rintro ⟨d, hd, ⟨start, stop, hrange, hid, hlo, hhi⟩, hP⟩
    obtain ⟨dst, hdst, hcovers⟩ := (exists_addDst total perElement d id index d.mask).2
      ⟨start, stop, hrange, hid, hlo, hhi, rfl⟩
    exact ⟨dst, mem_flatMap.2 ⟨d, hd, hdst⟩, d.mask, hcovers, hP⟩

theorem disjoint_addDst (perElement : Bool) (d : DstAccess) :
    (addDst perElement total d).Pairwise fun a b =>
      ∀ id index, a.covers id index = none ∨ b.covers id index = none := by
  unfold addDst
  cases d.range with
  | none => exact .nil
  | some range =>
    obtain ⟨start, stop⟩ := range
    dsimp only
    split
    · exact pairwise_singleton _ _
    rw [pairwise_map]
    refine List.Pairwise.imp ?_ (pairwise_lt_range' (s := start) (n := stop + 1 - start))
    intro a b hab id index
    by_cases ha : (d.id, a) = (id, index)
    · refine .inr (if_neg fun hb => ?_)
      have ha := congrArg Prod.snd ha
      have hb := congrArg Prod.snd hb
      omega
    · exact .inl (if_neg ha)

/-- One destination of a call's output. -/
def callStep (decl : ℕ) (st : WalkState) (dst : Dst) : WalkState :=
  (st.1.add dst, check decl none st.1 st.2 dst)

theorem fst_foldl_callStep (dsts : List Dst) (st : WalkState) :
    (dsts.foldl (callStep decl) st).1 = dsts.foldl Written.add st.1 := by
  induction dsts generalizing st with
  | nil => rfl
  | cons dst dsts ih => exact ih (callStep decl st dst)

theorem contains_foldl_callStep (dsts : List Dst) (st : WalkState)
    (hw : ∀ x ∈ st.1.whole, total x.1.1 = some x.1.2)
    (hdsts : ∀ dst ∈ dsts, Written.Spans total dst)
    (hdisjoint : dsts.Pairwise fun a b =>
      ∀ id index, a.covers id index = none ∨ b.covers id index = none)
    (decl' : ℕ) (id : VarId) (index : ℕ) :
    (dsts.foldl (callStep decl) st).2.contains decl' id index ↔
      st.2.contains decl' id index ∨ (decl' = decl ∧ ∃ dst ∈ dsts,
        ∃ mask, dst.covers id index = some mask ∧ hit none mask id index st.1 = true) := by
  induction dsts generalizing st with
  | nil => simp
  | cons dst dsts ih =>
    have hdst := hdsts dst (mem_cons_self ..)
    have hadd : ∀ x ∈ (st.1.add dst).whole, total x.1.1 = some x.1.2 :=
      Written.total_foldl_add [dst] (fun d hd => by rwa [mem_singleton.1 hd]) hw
    obtain ⟨hhead, htail⟩ := pairwise_cons.1 hdisjoint
    rw [foldl_cons, ih (callStep decl st dst) hadd
      (fun d hd => hdsts d (mem_cons_of_mem _ hd)) htail]
    have hcheck := @contains_check total decl none st.2 st.1 hw (fun _ h => nomatch h) dst hdst
    have hrest : (∃ d ∈ dsts, ∃ mask, d.covers id index = some mask ∧
        hit none mask id index (callStep decl st dst).1 = true) ↔
        ∃ d ∈ dsts, ∃ mask, d.covers id index = some mask ∧ hit none mask id index st.1 = true := by
      refine exists_congr fun d => and_congr_right fun hd => exists_congr fun mask =>
        and_congr_right fun hcovers => ?_
      have hnone : dst.covers id index = none := by
        obtain h | h := hhead d hd id index
        · exact h
        · rw [h] at hcovers
          exact nomatch hcovers
      have hget : (callStep decl st dst).1.get id index = st.1.get id index := by
        show (st.1.add dst).get id index = _
        rw [Written.get_add, hnone, joinMask_none]
      rw [hit_congr hget]
    rw [hrest]
    show (check decl none st.1 st.2 dst).contains decl' id index ∨ _ ↔ _
    rw [hcheck, or_assoc, ← and_or_left]
    simp

/-- The two forms of a walk's state. -/
structure Agrees (total : VarId → Option ℕ) (c p : WalkState) : Prop where
  written : c.1.Matches total p.1
  contains_iff : ∀ decl id index, c.2.contains decl id index ↔ p.2.contains decl id index

variable {c p : WalkState}

theorem Agrees.whole (h : Agrees total c p) : ∀ x ∈ p.1.whole, total x.1.1 = some x.1.2 := by
  rw [h.written.whole_eq]
  exact fun _ hx => absurd hx not_mem_nil

theorem spans_flatMap_addDst (perElement : Bool) (ds : List DstAccess) :
    ∀ dst ∈ ds.flatMap (addDst perElement total), Written.Spans total dst := by
  intro dst hdst
  obtain ⟨d, -, hdst⟩ := mem_flatMap.1 hdst
  exact spans_addDst perElement d dst hdst

theorem Agrees.assign (h : Agrees total c p) (ds : List DstAccess) (reads : List Access) :
    Agrees total ((ds.flatMap (addDst false total)).foldl Written.add c.1,
        (ds.flatMap (addDst false total)).foldl (check decl (some (gather false reads)) c.1) c.2)
      ((ds.flatMap (addDst true total)).foldl Written.add p.1,
        (ds.flatMap (addDst true total)).foldl (check decl (some (gather false reads)) p.1) p.2) := by
  have hreads : ∀ t, some (gather false reads) = some t → Indexed t := by
    rintro t ⟨⟩
    exact indexed_gather false reads
  refine ⟨h.written.add ds, fun decl' id index => ?_⟩
  rw [contains_foldl_check h.written.total_eq hreads _ (spans_flatMap_addDst false ds),
    contains_foldl_check h.whole hreads _ (spans_flatMap_addDst true ds),
    exists_flatMap_addDst total false ds id index
      (fun mask => hit (some (gather false reads)) mask id index c.1 = true),
    exists_flatMap_addDst total true ds id index
      (fun mask => hit (some (gather false reads)) mask id index p.1 = true),
    h.contains_iff]
  simp only [hit_congr (h.written.get_eq id index)]

theorem Agrees.output (h : Agrees total c p) (d : DstAccess) :
    Agrees total ((addDst false total d).foldl (callStep decl) c)
      ((addDst true total d).foldl (callStep decl) p) := by
  constructor
  · have hadd := h.written.add [d]
    simp only [flatMap_cons, flatMap_nil, append_nil] at hadd
    rw [fst_foldl_callStep, fst_foldl_callStep]
    exact hadd
  · intro decl' id index
    have hone : ∀ perElement : Bool, ∀ P : Mask → Prop,
        (∃ dst ∈ addDst perElement total d, ∃ mask, dst.covers id index = some mask ∧ P mask) ↔
          (∃ start stop, d.range = some (start, stop) ∧ d.id = id ∧ start ≤ index ∧
            index ≤ stop) ∧ P d.mask := by
      intro perElement P
      simpa using exists_flatMap_addDst total perElement [d] id index P
    rw [contains_foldl_callStep _ c h.written.total_eq (spans_addDst false d)
        (disjoint_addDst false d),
      contains_foldl_callStep _ p h.whole (spans_addDst true d) (disjoint_addDst true d),
      hone, hone, h.contains_iff, hit_congr (h.written.get_eq id index)]

theorem Agrees.call (h : Agrees total c p) (outputs : List DstAccess) :
    Agrees total (walkCall false total decl c outputs) (walkCall true total decl p outputs) := by
  unfold walkCall
  induction outputs generalizing c p with
  | nil => exact h
  | cons d outputs ih =>
    rw [flatMap_cons, flatMap_cons, foldl_append, foldl_append]
    exact ih (h.output d)

theorem Agrees.walk (stmts : FfStmts) (h : Agrees total c p) :
    Agrees total (walk false total decl stmts c) (walk true total decl stmts p) := by
  induction stmts generalizing c p with
  | nil => exact h
  | assign ds reads rest ih => exact ih (h.assign ds reads)
  | branches t f rest iht ihf ih =>
    have ht := iht h
    have hf := ihf (⟨h.written, ht.contains_iff⟩ : Agrees total
      (c.1, (Registers.walk false total decl t c).2) (p.1, (Registers.walk true total decl t p).2))
    exact ih ⟨ht.written.absorb hf.written, hf.contains_iff⟩
  | loop writes body rest ihbody ih =>
    exact ih (ihbody ⟨h.written.add writes, h.contains_iff⟩)
  | call outputs rest ih =>
    refine ih ?_
    induction outputs generalizing c p with
    | nil => exact h
    | cons output outputs ihoutputs => exact ihoutputs (h.call output)

theorem contains_foldl_walk (xs : List (Option FfStmts × ℕ)) (uc up : UnsafeSelfReads)
    (h : ∀ decl id index, uc.contains decl id index ↔ up.contains decl id index)
    (decl : ℕ) (id : VarId) (index : ℕ) :
    (xs.foldl (fun u x => match x.1 with
      | some stmts => (Registers.walk false total x.2 stmts (.empty, u)).2
      | none => u) uc).contains decl id index ↔
    (xs.foldl (fun u x => match x.1 with
      | some stmts => (Registers.walk true total x.2 stmts (.empty, u)).2
      | none => u) up).contains decl id index := by
  induction xs generalizing uc up with
  | nil => exact h decl id index
  | cons x xs ih =>
    refine ih _ _ ?_
    obtain ⟨stmts | _, n⟩ := x
    · exact h
    · exact (Agrees.walk (c := (.empty, uc)) (p := (.empty, up)) _ ⟨.empty, h⟩).contains_iff

theorem contains_unsafeSelfReads (decl : ℕ) (id : VarId) (index : ℕ) :
    (unsafeSelfReads false total decls).contains decl id index ↔
      (unsafeSelfReads true total decls).contains decl id index :=
  contains_foldl_walk decls.zipIdx .empty .empty (fun _ _ _ => Iff.rfl) decl id index

end Walks

@[simp] theorem FfTableEntry.writers_setWriters (e : FfTableEntry) (w : Writers) :
    (e.setWriters w).writers = w := rfl

namespace FfTable

variable {t : FfTable}

/-- The entry of an element, or the one that is created for it. -/
def entryAt (t : FfTable) (id : VarId) (index : ℕ) : FfTableEntry :=
  (t.table id index).getD (t.freshEntry id index)

/-- What a write to an element does to its writers. -/
def recordAt (t : FfTable) (id : VarId) (index : ℕ) (f : Writers → Writers) : FfTable :=
  t.modifyEntry id index fun e => e.setWriters (f e.writers)

theorem writers_modifyWhole (hindexed : Indexed t) {id : VarId}
    (hlen : ∀ w, t.wholeAssigned id = some w → w.len = len) (f : Writers → Writers) (id' : VarId)
    (i : ℕ) : (t.modifyWhole id len f).writers id' i =
      if id' = id ∧ i < len then f (t.writers id' i) else t.writers id' i := by
  unfold writers whole modifyWhole
  dsimp only
  by_cases hid : id' = id
  · subst hid
    rw [Function.update_self, Function.update_self]
    cases he : t.table id' i with
    | some e =>
      have hmem : i ∈ t.indices id' := (hindexed id' i).2 (by simp [he])
      by_cases hi : i < len
      · simp [hmem, hi]
      · simp [hi]
    | none =>
      have hmem : i ∉ t.indices id' := fun hin => (hindexed id' i).1 hin he
      cases hw : t.wholeAssigned id' with
      | none =>
        by_cases hi : i < len
        · simp [hmem, hi, WholeAssigned.setWriters, WholeAssigned.writers, Writers.none,
            Option.filter]
        · simp [hi, WholeAssigned.setWriters, Option.filter]
      | some w =>
        have hlen := hlen w hw
        by_cases hi : i < len
        · simp [hmem, hi, WholeAssigned.setWriters, WholeAssigned.writers, Option.filter, hlen]
        · simp [hi, WholeAssigned.setWriters, Option.filter, hlen]
  · simp [hid]

section

variable (id : VarId)

include id

section

variable (index : ℕ)

include index

theorem writers_entryAt : (t.entryAt id index).writers = t.writers id index := by
  unfold entryAt writers
  cases t.table id index <;> rfl

theorem refered_entryAt :
    (t.entryAt id index).refered = (t.table id index).elim [] FfTableEntry.refered := by
  unfold entryAt
  cases t.table id index <;> rfl

section

variable (f : FfTableEntry → FfTableEntry)

include f

theorem table_modifyEntry (id' : VarId) (i : ℕ) : (t.modifyEntry id index f).table id' i =
      if (id', i) = (id, index) then some (f (t.entryAt id index)) else t.table id' i := by
  have hupdate : ∀ e : Option FfTableEntry,
      Function.update t.table id (Function.update (t.table id) index e) id' i =
        if (id', i) = (id, index) then e else t.table id' i := by
    by_cases hid : id' = id
    · subst hid
      by_cases hi : i = index <;> simp [hi]
    · simp [hid]
  unfold modifyEntry entryAt
  cases t.table id index with
  | some e => exact hupdate _
  | none => exact hupdate _

theorem rest_modifyEntry : (t.modifyEntry id index f).rangeRefered = t.rangeRefered ∧
      (t.modifyEntry id index f).wholeAssigned = t.wholeAssigned ∧
        (t.modifyEntry id index f).perElement = t.perElement := by
  unfold modifyEntry
  cases t.table id index <;> exact ⟨rfl, rfl, rfl⟩

theorem writers_modifyEntry (id' : VarId) (i : ℕ) : (t.modifyEntry id index f).writers id' i =
      if (id', i) = (id, index) then (f (t.entryAt id index)).writers else t.writers id' i := by
  unfold writers whole
  rw [table_modifyEntry, (rest_modifyEntry id index f).2.1]
  by_cases h : (id', i) = (id, index)
  · rw [if_pos h, if_pos h]
  · rw [if_neg h, if_neg h]

theorem refered_modifyEntry (id' : VarId) (i : ℕ) : (t.modifyEntry id index f).refered id' i =
      (if (id', i) = (id, index) then (f (t.entryAt id index)).refered
        else (t.table id' i).elim [] FfTableEntry.refered) ++ t.rangeRefs id' i := by
  unfold refered rangeRefs
  rw [table_modifyEntry, (rest_modifyEntry id index f).1]
  split <;> rfl

end

theorem writers_insertRefered (r : Refered) : (t.insertRefered id index r).writers = t.writers := by
  ext1 id'
  ext1 i
  rw [insertRefered, writers_modifyEntry]
  split
  · rename_i h
    obtain ⟨rfl, rfl⟩ := Prod.mk.inj h
    exact writers_entryAt id' i
  · rfl

theorem mem_refered_insertRefered (r : Refered) (id' : VarId) (i : ℕ)
    (r' : Refered) : r' ∈ (t.insertRefered id index r).refered id' i ↔
      r' ∈ t.refered id' i ∨ (id' = id ∧ i = index ∧ r' = r) := by
  rw [insertRefered, refered_modifyEntry, refered]
  by_cases h : (id', i) = (id, index)
  · obtain ⟨rfl, rfl⟩ := Prod.mk.inj h
    rw [if_pos rfl, refered_entryAt]
    simp only [mem_append, mem_singleton, true_and]
    exact or_right_comm
  · rw [if_neg h]
    refine ⟨.inl, ?_⟩
    rintro (hmem | ⟨rfl, rfl, -⟩)
    · exact hmem
    · exact absurd rfl h

theorem writers_recordAt (f : Writers → Writers) (id' : VarId) (i : ℕ) :
    (t.recordAt id index f).writers id' i =
      if (id', i) = (id, index) then f (t.writers id' i) else t.writers id' i := by
  rw [recordAt, writers_modifyEntry]
  by_cases h : (id', i) = (id, index)
  · obtain ⟨rfl, rfl⟩ := Prod.mk.inj h
    rw [if_pos rfl, if_pos rfl, FfTableEntry.writers_setWriters, writers_entryAt]
  · rw [if_neg h, if_neg h]

theorem refered_recordAt (f : Writers → Writers) : (t.recordAt id index f).refered = t.refered := by
  ext1 id'
  ext1 i
  rw [recordAt, refered_modifyEntry, refered]
  refine congrArg (· ++ _) ?_
  split
  · rename_i h
    obtain ⟨rfl, rfl⟩ := Prod.mk.inj h
    exact refered_entryAt id' i
  · rfl

end

theorem writers_foldl_recordAt (len : ℕ) (f : Writers → Writers) (id' : VarId)
    (i : ℕ) : ((List.range len).foldl (fun t i => t.recordAt id i f) t).writers id' i =
      if id' = id ∧ i < len then f (t.writers id' i) else t.writers id' i := by
  induction len with
  | zero => simp
  | succ len ih =>
    rw [range_succ, foldl_append, foldl_cons, foldl_nil, writers_recordAt, ih]
    by_cases h : (id', i) = (id, len)
    · obtain ⟨rfl, rfl⟩ := Prod.mk.inj h
      rw [if_pos rfl, if_neg (by omega), if_pos ⟨rfl, by omega⟩]
    · rw [if_neg h]
      refine if_congr ?_ rfl rfl
      constructor
      · exact fun hlt => ⟨hlt.1, by omega⟩
      · rintro ⟨rfl, hlt⟩
        have hne : i ≠ len := fun heq => h (by rw [heq])
        exact ⟨rfl, by omega⟩

theorem refered_foldl_recordAt (xs : List ℕ) (f : Writers → Writers) :
    (xs.foldl (fun t i => t.recordAt id i f) t).refered = t.refered := by
  induction xs generalizing t with
  | nil => rfl
  | cons i xs ih => exact ih.trans (refered_recordAt id i f)

theorem refered_modifyWhole (len : ℕ) (f : Writers → Writers) :
    (t.modifyWhole id len f).refered = t.refered := by
  ext1 id'
  ext1 i
  unfold refered rangeRefs modifyWhole
  dsimp only
  by_cases hid : id' = id
  · subst hid
    rw [Function.update_self]
    split
    · cases t.table id' i <;> rfl
    · rfl
  · rw [Function.update_of_ne hid]

end

end FfTable

namespace Access

/-- The whole array that an access writes spans its variable. -/
def SpansTotal (total : VarId → Option ℕ) : Access → Prop
  | assignedWhole id totalArray _ => total id = some totalArray
  | assignedCombWhole id totalArray _ => total id = some totalArray
  | _ => True

/-- What an access does to the writers of an element. -/
def record (id : VarId) (index : ℕ) (w : Writers) : Access → Writers
  | assigned id' index' decl => if (id, index) = (id', index') then w.record decl else w
  | assignedComb id' index' decl => if (id, index) = (id', index') then w.recordComb decl else w
  | assignedWhole id' totalArray decl =>
    if id = id' ∧ index < totalArray then w.record decl else w
  | assignedCombWhole id' totalArray decl =>
    if id = id' ∧ index < totalArray then w.recordComb decl else w
  | _ => w

/-- A reference to the elements of a range. -/
def RefersRange (id : VarId) (range : Range) (r : Refered) : Access → Prop
  | referedRange id' range' r' => id = id' ∧ range = range' ∧ r = r'
  | referedWhole id' totalArray r' => id = id' ∧ range = ⟨0, totalArray⟩ ∧ r = r'
  | _ => False

/-- A reference to an element. -/
def Refers (id : VarId) (index : ℕ) (r : Refered) : Access → Prop
  | refered id' index' r' => id = id' ∧ index = index' ∧ r = r'
  | a => ∃ range, a.RefersRange id range r ∧ range.Contains index

/-- An access to one element by its index. -/
def Names (id : VarId) (index : ℕ) : Access → Prop
  | refered id' index' _ => id = id' ∧ index = index'
  | assigned id' index' _ => id = id' ∧ index = index'
  | assignedComb id' index' _ => id = id' ∧ index = index'
  | _ => False

end Access

/-- What holds while accesses are gathered. -/
structure Regular (total : VarId → Option ℕ) (t : FfTable) : Prop where
  indexed : Indexed t
  whole_eq : ∀ id w, t.wholeAssigned id = some w → total id = some w.len ∧ w.forceFf = false
  isFf_eq : ∀ id index e, t.table id index = some e → e.isFf = false
  perElement_eq : t.perElement = true →
    (∀ id, t.wholeAssigned id = none) ∧ ∀ id, t.rangeRefered id = []

namespace Regular

variable {t : FfTable}

theorem new (perElement : Bool) : Regular total (.new perElement) :=
  ⟨fun _ _ => by simp [FfTable.new], fun _ _ h => (nomatch h), fun _ _ _ h => (nomatch h),
    fun _ => ⟨fun _ => rfl, fun _ => rfl⟩⟩

theorem modifyEntry (h : Regular total t) (id : VarId) (index : ℕ)
    {f : FfTableEntry → FfTableEntry} (hf : ∀ e, (f e).isFf = e.isFf) :
    Regular total (t.modifyEntry id index f) := by
  obtain ⟨hrange, hwhole, hperElement⟩ := FfTable.rest_modifyEntry (t := t) id index f
  refine ⟨h.indexed.modifyEntry id index f, ?_, ?_, ?_⟩
  · rw [hwhole]
    exact h.whole_eq
  · intro id' i e he
    rw [FfTable.table_modifyEntry] at he
    split at he
    · rw [← Option.some.inj he, hf]
      unfold FfTable.entryAt
      cases hentry : t.table id index with
      | some e => exact h.isFf_eq id index e hentry
      | none => rfl
    · exact h.isFf_eq id' i e he
  · rw [hrange, hwhole, hperElement]
    exact h.perElement_eq

theorem foldl {f : FfTable → ℕ → FfTable} (hf : ∀ t i, Regular total t → Regular total (f t i))
    (xs : List ℕ) (h : Regular total t) : Regular total (xs.foldl f t) := by
  induction xs generalizing t with
  | nil => exact h
  | cons x xs ih => exact ih (hf t x h)

section

variable (h : Regular total t)

include h

theorem recordAt (id : VarId) (index : ℕ) (f : Writers → Writers) :
    Regular total (t.recordAt id index f) :=
  h.modifyEntry id index fun _ => rfl

theorem modifyWhole (hcompact : t.perElement = false) {id : VarId}
    (hlen : total id = some len) (f : Writers → Writers) :
    Regular total (t.modifyWhole id len f) := by
  refine ⟨h.indexed.modifyWhole id len f, ?_, ?_, fun hp => ?_⟩
  · intro id' w hw
    unfold FfTable.modifyWhole at hw
    dsimp only at hw
    by_cases hid : id' = id
    · subst hid
      rw [Function.update_self] at hw
      rw [← Option.some.inj hw]
      cases hentry : t.wholeAssigned id' with
      | none => exact ⟨hlen, rfl⟩
      | some w => exact h.whole_eq id' w hentry
    · rw [Function.update_of_ne hid] at hw
      exact h.whole_eq id' w hw
  · intro id' i e he
    unfold FfTable.modifyWhole at he
    dsimp only at he
    by_cases hid : id' = id
    · subst hid
      rw [Function.update_self] at he
      split at he
      · obtain ⟨e', he', rfl⟩ := Option.map_eq_some_iff.1 he
        exact h.isFf_eq id' i e' he'
      · exact h.isFf_eq id' i e he
    · rw [Function.update_of_ne hid] at he
      exact h.isFf_eq id' i e he
  · exact absurd (hcompact.symm.trans hp) Bool.false_ne_true

theorem insertRefered (id : VarId) (index : ℕ) (r : Refered) :
    Regular total (t.insertRefered id index r) :=
  h.modifyEntry id index (f := fun e => { e with refered := e.refered ++ [r] }) fun _ => rfl

theorem insertReferedRange (id : VarId) (range : Range) (r : Refered) :
    Regular total (t.insertReferedRange id range r) := by
  unfold FfTable.insertReferedRange
  split
  · exact foldl (fun t i ht => ht.insertRefered id i r) _ h
  · split
    · exact h
    · rename_i hcompact _
      exact ⟨h.indexed, h.whole_eq, h.isFf_eq, fun hp => absurd hp hcompact⟩

theorem insertWhole {id : VarId} (hlen : total id = some len)
    (f : Writers → Writers) : Regular total (if len ≠ 0 ∧ !t.perElement then t.modifyWhole id len f
        else (List.range len).foldl (fun t i => t.recordAt id i f) t) := by
  split
  · rename_i hwhole
    exact h.modifyWhole (by simpa using hwhole.2) hlen f
  · exact foldl (fun t i ht => ht.recordAt id i f) _ h

end

theorem insert (h : Regular total t) (a : Access) (ha : a.SpansTotal total) :
    Regular total (t.insert a) := by
  cases a with
  | refered id index r => exact h.insertRefered id index r
  | referedRange id range r => exact h.insertReferedRange id range r
  | referedWhole id totalArray r => exact h.insertReferedRange id _ r
  | assigned id index decl => exact h.recordAt id index (·.record decl)
  | assignedComb id index decl => exact h.recordAt id index (·.recordComb decl)
  | assignedWhole id totalArray decl => exact h.insertWhole ha (·.record decl)
  | assignedCombWhole id totalArray decl => exact h.insertWhole ha (·.recordComb decl)

theorem writers_insertWhole (h : Regular total t) {id : VarId}
    (hlen : total id = some len) (f : Writers → Writers) (id' : VarId) (i : ℕ) :
    (if len ≠ 0 ∧ !t.perElement then t.modifyWhole id len f
        else (List.range len).foldl (fun t i => t.recordAt id i f) t).writers id' i =
      if id' = id ∧ i < len then f (t.writers id' i) else t.writers id' i := by
  split
  · refine FfTable.writers_modifyWhole h.indexed (fun w hw => ?_) f id' i
    have htotal := (h.whole_eq id w hw).1
    rw [hlen] at htotal
    exact (Option.some.inj htotal).symm
  · exact FfTable.writers_foldl_recordAt id len f id' i

theorem writers_insert (h : Regular total t) (a : Access) (ha : a.SpansTotal total) (id : VarId)
    (index : ℕ) : (t.insert a).writers id index = a.record id index (t.writers id index) := by
  have hrange : ∀ id' range r, (t.insertReferedRange id' range r).writers id index =
      t.writers id index := by
    intro id' range r
    unfold FfTable.insertReferedRange
    split
    · have hfold : ∀ (xs : List ℕ) (t : FfTable),
          (xs.foldl (fun t i => t.insertRefered id' i r) t).writers = t.writers := by
        intro xs
        induction xs with
        | nil => exact fun _ => rfl
        | cons i xs ih => exact fun t => (ih _).trans (FfTable.writers_insertRefered id' i r)
      rw [hfold]
    · split
      · rfl
      · rfl
  cases a with
  | refered id' index' r =>
    exact congrFun (congrFun (FfTable.writers_insertRefered id' index' r) id) index
  | referedRange id' range r => exact hrange id' range r
  | referedWhole id' totalArray r => exact hrange id' _ r
  | assigned id' index' decl =>
    exact FfTable.writers_recordAt id' index' (·.record decl) id index
  | assignedComb id' index' decl =>
    exact FfTable.writers_recordAt id' index' (·.recordComb decl) id index
  | assignedWhole id' totalArray decl => exact h.writers_insertWhole ha (·.record decl) id index
  | assignedCombWhole id' totalArray decl =>
    exact h.writers_insertWhole ha (·.recordComb decl) id index

end Regular

section References

variable {t : FfTable}

theorem refered_insertWhole (id : VarId) (len : ℕ) (f : Writers → Writers) :
    (if len ≠ 0 ∧ !t.perElement then t.modifyWhole id len f
      else (List.range len).foldl (fun t i => t.recordAt id i f) t).refered = t.refered := by
  split
  · exact FfTable.refered_modifyWhole id len f
  · exact FfTable.refered_foldl_recordAt id _ f

theorem mem_refered_insertReferedRange (id' : VarId) (range : Range) (r' : Refered) (id : VarId)
    (index : ℕ) (r : Refered) : r ∈ (t.insertReferedRange id' range r').refered id index ↔
      r ∈ t.refered id index ∨ (id = id' ∧ range.Contains index ∧ r = r') := by
  have hfold : ∀ (xs : List ℕ) (t : FfTable),
      r ∈ (xs.foldl (fun t i => t.insertRefered id' i r') t).refered id index ↔
        r ∈ t.refered id index ∨ (id = id' ∧ index ∈ xs ∧ r = r') := by
    intro xs
    induction xs with
    | nil => simp
    | cons i xs ih =>
      intro t
      rw [foldl_cons, ih, FfTable.mem_refered_insertRefered, or_assoc, mem_cons]
      tauto
  unfold FfTable.insertReferedRange
  split
  · rw [hfold, mem_range'_1]
    refine or_congr_right (and_congr_right fun _ => and_congr_left fun _ => ?_)
    unfold Range.Contains
    omega
  · split
    · rename_i hempty
      refine ⟨.inl, ?_⟩
      rintro (h | ⟨-, hin, -⟩)
      · exact h
      · unfold Range.Contains at hin
        omega
    · unfold FfTable.refered FfTable.rangeRefs
      dsimp only
      by_cases hid : id = id'
      · subst hid
        simp only [mem_append, true_and, or_assoc]
        by_cases hin : range.Contains index <;> simp [hin]
      · rw [Function.update_of_ne hid]
        simp [hid]

theorem mem_refered_insert (a : Access) (id : VarId) (index : ℕ) (r : Refered) :
    r ∈ (t.insert a).refered id index ↔ r ∈ t.refered id index ∨ a.Refers id index r := by
  have hnone : ∀ t' : FfTable, t'.refered = t.refered →
      (r ∈ t'.refered id index ↔ r ∈ t.refered id index ∨ ∃ range : Range, False ∧ range.Contains index) := by
    intro t' ht
    rw [ht]
    simp
  cases a with
  | refered id' index' r' => exact FfTable.mem_refered_insertRefered id' index' r' id index r
  | referedRange id' range r' =>
    refine (mem_refered_insertReferedRange id' range r' id index r).trans (or_congr_right ?_)
    constructor
    · rintro ⟨hid, hin, hr⟩
      exact ⟨range, ⟨hid, rfl, hr⟩, hin⟩
    · rintro ⟨_, ⟨hid, rfl, hr⟩, hin⟩
      exact ⟨hid, hin, hr⟩
  | referedWhole id' totalArray r' =>
    refine (mem_refered_insertReferedRange id' _ r' id index r).trans (or_congr_right ?_)
    constructor
    · rintro ⟨hid, hin, hr⟩
      exact ⟨_, ⟨hid, rfl, hr⟩, hin⟩
    · rintro ⟨_, ⟨hid, rfl, hr⟩, hin⟩
      exact ⟨hid, hin, hr⟩
  | assigned id' index' decl =>
    exact hnone _ (FfTable.refered_recordAt id' index' (·.record decl))
  | assignedComb id' index' decl =>
    exact hnone _ (FfTable.refered_recordAt id' index' (·.recordComb decl))
  | assignedWhole id' totalArray decl =>
    exact hnone _ (refered_insertWhole id' totalArray (·.record decl))
  | assignedCombWhole id' totalArray decl =>
    exact hnone _ (refered_insertWhole id' totalArray (·.recordComb decl))

end References

section Gather

variable {perElement : Bool} {accesses : List Access} {id : VarId} {index : ℕ}

theorem gather_append (accesses : List Access) (a : Access) :
    gather perElement (accesses ++ [a]) = (gather perElement accesses).insert a := by
  rw [gather, foldl_append]
  rfl

theorem regular_gather (perElement : Bool) (hspans : ∀ a ∈ accesses, a.SpansTotal total) :
    Regular total (gather perElement accesses) := by
  induction accesses using List.reverseRecOn with
  | nil => exact .new perElement
  | append_singleton accesses a ih =>
    rw [gather_append]
    exact (ih fun b hb => hspans b (mem_append_left _ hb)).insert a
      (hspans a (mem_append_right _ (mem_singleton_self a)))

theorem writers_gather (hspans : ∀ a ∈ accesses, a.SpansTotal total) :
    (gather perElement accesses).writers id index =
      accesses.foldl (Access.record id index) .none := by
  induction accesses using List.reverseRecOn with
  | nil => rfl
  | append_singleton accesses a ih =>
    have hbefore : ∀ b ∈ accesses, b.SpansTotal total :=
      fun b hb => hspans b (mem_append_left _ hb)
    rw [gather_append, (regular_gather perElement hbefore).writers_insert a
      (hspans a (mem_append_right _ (mem_singleton_self a))), ih hbefore,
      foldl_append]
    rfl

theorem mem_refered_gather (r : Refered) :
    r ∈ (gather perElement accesses).refered id index ↔ ∃ a ∈ accesses, a.Refers id index r := by
  induction accesses using List.reverseRecOn with
  | nil => simp [gather, FfTable.new, FfTable.refered, FfTable.rangeRefs]
  | append_singleton accesses a ih =>
    rw [gather_append, mem_refered_insert, ih]
    simp [or_and_right, exists_or]

theorem perElement_insert (t : FfTable) (a : Access) : (t.insert a).perElement = t.perElement := by
  have hmodify : ∀ (t : FfTable) id index f, (t.modifyEntry id index f).perElement = t.perElement :=
    fun t id index f => (FfTable.rest_modifyEntry id index f).2.2
  have hfold : ∀ (xs : List ℕ) (id : VarId) (f : ℕ → FfTableEntry → FfTableEntry) (t : FfTable),
      (xs.foldl (fun t i => t.modifyEntry id i (f i)) t).perElement = t.perElement := by
    intro xs id f
    induction xs with
    | nil => exact fun _ => rfl
    | cons i xs ih => exact fun t => (ih _).trans (hmodify t id i (f i))
  have hrange : ∀ id range r, (t.insertReferedRange id range r).perElement = t.perElement := by
    intro id range r
    unfold FfTable.insertReferedRange
    split
    · exact hfold _ id (fun _ e => { e with refered := e.refered ++ [r] }) t
    · split <;> rfl
  have hwhole : ∀ id len (f : Writers → Writers),
      (if len ≠ 0 ∧ !t.perElement then t.modifyWhole id len f
        else (List.range len).foldl (fun t i => t.recordAt id i f) t).perElement = t.perElement := by
    intro id len f
    split
    · rfl
    · exact hfold _ id (fun _ e => e.setWriters (f e.writers)) t
  cases a with
  | refered id index r => exact hmodify t id index _
  | referedRange id range r => exact hrange id range r
  | referedWhole id totalArray r => exact hrange id _ r
  | assigned id index decl => exact hmodify t id index _
  | assignedComb id index decl => exact hmodify t id index _
  | assignedWhole id totalArray decl => exact hwhole id totalArray (·.record decl)
  | assignedCombWhole id totalArray decl => exact hwhole id totalArray (·.recordComb decl)

theorem perElement_gather : (gather perElement accesses).perElement = perElement := by
  induction accesses using List.reverseRecOn with
  | nil => rfl
  | append_singleton accesses a ih => rw [gather_append, perElement_insert, ih]

theorem table_insert {t : FfTable} (a : Access) (h : t.table id index ≠ none ∨ a.Names id index) :
    (t.insert a).table id index ≠ none := by
  have hmodify : ∀ (t : FfTable) id' index' f,
      (t.table id index ≠ none ∨ (id = id' ∧ index = index')) →
        (t.modifyEntry id' index' f).table id index ≠ none := by
    intro t id' index' f h
    rw [FfTable.table_modifyEntry]
    split
    · exact Option.some_ne_none _
    · rename_i hne
      obtain h | ⟨rfl, rfl⟩ := h
      · exact h
      · exact absurd rfl hne
  have hfold : ∀ (xs : List ℕ) (id' : VarId) (f : ℕ → FfTableEntry → FfTableEntry) (t : FfTable),
      t.table id index ≠ none →
        (xs.foldl (fun t i => t.modifyEntry id' i (f i)) t).table id index ≠ none := by
    intro xs id' f
    induction xs with
    | nil => exact fun _ h => h
    | cons i xs ih => exact fun t h => ih _ (hmodify t id' i (f i) (.inl h))
  have hrange : ∀ id' range r, t.table id index ≠ none →
      (t.insertReferedRange id' range r).table id index ≠ none := by
    intro id' range r h
    unfold FfTable.insertReferedRange
    split
    · exact hfold _ id' (fun _ e => { e with refered := e.refered ++ [r] }) t h
    · split
      · exact h
      · exact h
  have hwhole : ∀ id' len (f : Writers → Writers), t.table id index ≠ none →
      (if len ≠ 0 ∧ !t.perElement then t.modifyWhole id' len f
        else (List.range len).foldl (fun t i => t.recordAt id' i f) t).table id index ≠ none := by
    intro id' len f h
    split
    · unfold FfTable.modifyWhole
      dsimp only
      by_cases hid : id = id'
      · subst hid
        rw [Function.update_self]
        split
        · simpa using h
        · exact h
      · rwa [Function.update_of_ne hid]
    · exact hfold _ id' (fun _ e => e.setWriters (f e.writers)) t h
  cases a with
  | refered id' index' r => exact hmodify t id' index' _ h
  | assigned id' index' decl => exact hmodify t id' index' _ h
  | assignedComb id' index' decl => exact hmodify t id' index' _ h
  | referedRange id' range r => exact hrange id' range r (h.resolve_right fun hn => hn)
  | referedWhole id' totalArray r => exact hrange id' _ r (h.resolve_right fun hn => hn)
  | assignedWhole id' totalArray decl => exact hwhole id' totalArray (·.record decl) (h.resolve_right fun hn => hn)
  | assignedCombWhole id' totalArray decl =>
    exact hwhole id' totalArray (·.recordComb decl) (h.resolve_right fun hn => hn)

theorem table_gather (h : ∃ a ∈ accesses, a.Names id index) :
    (gather perElement accesses).table id index ≠ none := by
  induction accesses using List.reverseRecOn with
  | nil => simp at h
  | append_singleton accesses a ih =>
    rw [gather_append]
    refine table_insert a ?_
    obtain ⟨b, hb, hnames⟩ := h
    obtain hb | hb := mem_append.1 hb
    · exact .inl (ih ⟨b, hb, hnames⟩)
    · rw [mem_singleton.1 hb] at hnames
      exact .inr hnames

end Gather

section Classification

variable {t : FfTable} {id : VarId} {index : ℕ}

theorem mem_rangeRefered_gather {accesses : List Access} {x : Range × Refered}
    (hx : x ∈ (gather false accesses).rangeRefered id) :
    ∃ a ∈ accesses, a.RefersRange id x.1 x.2 := by
  have hmodify : ∀ (t : FfTable) id index f, (t.modifyEntry id index f).rangeRefered = t.rangeRefered :=
    fun t id index f => (FfTable.rest_modifyEntry id index f).1
  have hfold : ∀ (xs : List ℕ) (id : VarId) (f : Writers → Writers) (t : FfTable),
      (xs.foldl (fun t i => t.recordAt id i f) t).rangeRefered = t.rangeRefered := by
    intro xs id f
    induction xs with
    | nil => exact fun _ => rfl
    | cons i xs ih => exact fun t => (ih _).trans (hmodify t id i _)
  have hwhole : ∀ (t : FfTable) id len (f : Writers → Writers),
      (if len ≠ 0 ∧ !t.perElement then t.modifyWhole id len f
        else (List.range len).foldl (fun t i => t.recordAt id i f) t).rangeRefered =
          t.rangeRefered := by
    intro t id len f
    split
    · rfl
    · exact hfold _ id f t
  have hrange : ∀ (t : FfTable), t.perElement = false → ∀ id' range r,
      x ∈ (t.insertReferedRange id' range r).rangeRefered id →
        x ∈ t.rangeRefered id ∨ (id = id' ∧ x.1 = range ∧ x.2 = r) := by
    intro t hcompact id' range r h
    unfold FfTable.insertReferedRange at h
    rw [if_neg (by simp [hcompact])] at h
    split at h
    · exact .inl h
    by_cases hid : id = id'
    · subst hid
      dsimp only at h
      rw [Function.update_self, mem_append, mem_singleton] at h
      refine h.imp_right ?_
      rintro rfl
      exact ⟨rfl, rfl, rfl⟩
    · dsimp only at h
      rw [Function.update_of_ne hid] at h
      exact .inl h
  have hinsert : ∀ (t : FfTable), t.perElement = false → ∀ a : Access,
      x ∈ (t.insert a).rangeRefered id → x ∈ t.rangeRefered id ∨ a.RefersRange id x.1 x.2 := by
    intro t hcompact a h
    cases a with
    | refered id' index' r => exact .inl (hmodify t id' index' _ ▸ h)
    | assigned id' index' decl => exact .inl (hmodify t id' index' _ ▸ h)
    | assignedComb id' index' decl => exact .inl (hmodify t id' index' _ ▸ h)
    | referedRange id' range r => exact hrange t hcompact id' range r h
    | referedWhole id' totalArray r => exact hrange t hcompact id' _ r h
    | assignedWhole id' totalArray decl => exact .inl (hwhole t id' totalArray (·.record decl) ▸ h)
    | assignedCombWhole id' totalArray decl =>
      exact .inl (hwhole t id' totalArray (·.recordComb decl) ▸ h)
  induction accesses using List.reverseRecOn with
  | nil => exact absurd hx not_mem_nil
  | append_singleton accesses a ih =>
    rw [gather_append] at hx
    obtain hx | ha := hinsert _ perElement_gather a hx
    · obtain ⟨b, hb, hrefers⟩ := ih hx
      exact ⟨b, mem_append_left _ hb, hrefers⟩
    · exact ⟨a, mem_append_right _ (mem_singleton_self a), ha⟩

theorem whole_updateIsFf : (t.updateIsFf total decls).whole id index = t.whole id index := rfl

theorem rangeRefs_updateIsFf :
    (t.updateIsFf total decls).rangeRefs id index = t.rangeRefs id index := rfl

theorem table_updateIsFf :
    (t.updateIsFf total decls).table id index = (t.table id index).map fun e =>
      match e.assigned with
      | some decl =>
        { e with
          isFf := classify decl e.multiAssigned id (some index)
            (!(unsafeSelfReads t.perElement total decls).contains decl id index)
            (e.refered ++ t.rangeRefs id index) }
      | none => e := rfl

theorem isFf_updateIsFf (h : Regular total t) (decls : List (Option FfStmts)) (id : VarId)
    (index : ℕ) : (t.updateIsFf total decls).isFf id index =
      (t.writers id index).assigned.any fun decl =>
        if t.table id index = none then
          classify decl (t.writers id index).multiAssigned id none true (t.refered id index)
        else classify decl (t.writers id index).multiAssigned id (some index)
          (!(unsafeSelfReads t.perElement total decls).contains decl id index)
          (t.refered id index) := by
  unfold FfTable.isFf FfTable.writers FfTable.refered
  rw [table_updateIsFf, whole_updateIsFf, rangeRefs_updateIsFf]
  cases hentry : t.table id index with
  | some e =>
    simp only [Option.map_some, FfTableEntry.writers, reduceCtorEq, if_false, Option.elim_some]
    cases hassigned : e.assigned with
    | some decl => simp only [Option.any_some]
    | none => simpa using h.isFf_eq id index e hentry
  | none =>
    cases hwhole : t.whole id index with
    | none => rfl
    | some w =>
      have hforce : w.forceFf = false :=
        (h.whole_eq id w (Option.filter_eq_some_iff.1 hwhole).1).2
      simp [hforce, WholeAssigned.writers]

/-- The compact answer about an element is safe from the element's own name: an
access names it, or no range reference that covers it has it as target. -/
def Named (accesses : List Access) (id : VarId) (index : ℕ) : Prop :=
  (∃ a ∈ accesses, a.Names id index) ∨
    ∀ a ∈ accesses, ∀ range r, a.RefersRange id range r → range.Contains index →
      ∀ mask, r.target ≠ some (id, some index, mask)

theorem classify_congr {i j : Option ℕ} {a b : Bool}
    {xs ys : List Refered} (hmem : ∀ r, r ∈ xs ↔ r ∈ ys)
    (h : ∀ r ∈ xs, needsFf decl multiAssigned id i a r = needsFf decl multiAssigned id j b r) :
    classify decl multiAssigned id i a xs = classify decl multiAssigned id j b ys := by
  unfold classify
  rw [Bool.eq_iff_iff, any_eq_true, any_eq_true]
  constructor
  · rintro ⟨r, hr, hneeds⟩
    exact ⟨r, (hmem r).1 hr, (h r hr).symm.trans hneeds⟩
  · rintro ⟨r, hr, hneeds⟩
    have hr := (hmem r).2 hr
    exact ⟨r, hr, (h r hr).trans hneeds⟩

theorem needsFf_of_target_ne {readable : Bool} {r : Refered}
    (h : ∀ mask, r.target ≠ some (id, some index, mask)) :
    needsFf decl multiAssigned id none true r =
      needsFf decl multiAssigned id (some index) readable r := by
  unfold needsFf
  cases htarget : r.target with
  | none => rfl
  | some target =>
    obtain ⟨targetId, _ | targetIdx, mask⟩ := target
    · rfl
    · have hne : targetId = id → targetIdx ≠ index := by
        rintro rfl rfl
        exact h mask htarget
      by_cases hid : targetId = id
      · have hidx : ¬some targetIdx = some index := fun h => hne hid (Option.some.inj h)
        simp [hid, hidx]
      · simp [hid]

end Classification

/-- Both tables answer the same: references, writers and, for an element that
is named where it is its own target, whether it is a register. -/
theorem gather_compact_eq_perElement (total : VarId → Option ℕ) (accesses : List Access)
    (decls : List (Option FfStmts)) (hspans : ∀ a ∈ accesses, a.SpansTotal total) (id : VarId)
    (index : ℕ) :
    (∀ r, r ∈ (gather false accesses).refered id index ↔
      r ∈ (gather true accesses).refered id index) ∧
    (gather false accesses).writers id index = (gather true accesses).writers id index ∧
    (Named accesses id index → ((gather false accesses).updateIsFf total decls).isFf id index =
        ((gather true accesses).updateIsFf total decls).isFf id index) := by
  have hmem : ∀ r, r ∈ (gather false accesses).refered id index ↔
      r ∈ (gather true accesses).refered id index :=
    fun r => (mem_refered_gather r).trans (mem_refered_gather r).symm
  have hwriters : (gather false accesses).writers id index =
      (gather true accesses).writers id index :=
    (writers_gather hspans).trans (writers_gather hspans).symm
  refine ⟨hmem, hwriters, fun hnamed => ?_⟩
  have hc := regular_gather false hspans
  have hp := regular_gather true hspans
  rw [isFf_updateIsFf hc, isFf_updateIsFf hp, hwriters, perElement_gather, perElement_gather]
  cases hassigned : ((gather true accesses).writers id index).assigned with
  | none => rfl
  | some decl =>
    -- a per-element table has no writers without an entry
    have hentry : (gather true accesses).table id index ≠ none := by
      intro hnone
      unfold FfTable.writers FfTable.whole at hassigned
      rw [hnone, (hp.perElement_eq perElement_gather).1] at hassigned
      exact nomatch hassigned
    rw [Option.any_some, Option.any_some, if_neg hentry]
    split
    · rename_i hnone
      refine classify_congr hmem fun r hr => needsFf_of_target_ne fun mask htarget => ?_
      obtain hnames | hnever := hnamed
      · exact table_gather hnames hnone
      · rw [FfTable.refered, hnone] at hr
        obtain ⟨x, hx, rfl⟩ := mem_map.1 hr
        obtain ⟨hx, hin⟩ := mem_filter.1 hx
        obtain ⟨a, ha, hrefers⟩ := mem_rangeRefered_gather hx
        exact hnever a ha x.1 x.2 hrefers (by simpa using hin) mask htarget
    · refine classify_congr hmem fun r _ => ?_
      rw [Bool.eq_iff_iff.2 (contains_unsafeSelfReads decls decl id index)]

/-- An array of four elements that a loop writes and shifts by one, whose last
element is written by its index too. -/
theorem gather_compact_eq_perElement_shift :
    (∀ r, r ∈ (gather false [.referedRange 0 ⟨0, 3⟩ ⟨0, some (0, none, 1), 1, true⟩,
        .assignedWhole 0 4 0, .assigned 0 3 0]).refered 0 2 ↔
      r ∈ (gather true [.referedRange 0 ⟨0, 3⟩ ⟨0, some (0, none, 1), 1, true⟩,
        .assignedWhole 0 4 0, .assigned 0 3 0]).refered 0 2) ∧
    (gather false [.referedRange 0 ⟨0, 3⟩ ⟨0, some (0, none, 1), 1, true⟩,
        .assignedWhole 0 4 0, .assigned 0 3 0]).writers 0 2 =
      (gather true [.referedRange 0 ⟨0, 3⟩ ⟨0, some (0, none, 1), 1, true⟩,
        .assignedWhole 0 4 0, .assigned 0 3 0]).writers 0 2 ∧
    ((gather false [.referedRange 0 ⟨0, 3⟩ ⟨0, some (0, none, 1), 1, true⟩, .assignedWhole 0 4 0,
        .assigned 0 3 0]).updateIsFf (fun _ => some 4)
          [some (.assign [⟨0, some 1, some (0, 3)⟩] [] .nil)]).isFf 0 2 =
      ((gather true [.referedRange 0 ⟨0, 3⟩ ⟨0, some (0, none, 1), 1, true⟩, .assignedWhole 0 4 0,
        .assigned 0 3 0]).updateIsFf (fun _ => some 4)
          [some (.assign [⟨0, some 1, some (0, 3)⟩] [] .nil)]).isFf 0 2 := by
  have h := gather_compact_eq_perElement (fun _ => some 4)
    [.referedRange 0 ⟨0, 3⟩ ⟨0, some (0, none, 1), 1, true⟩, .assignedWhole 0 4 0, .assigned 0 3 0]
    [some (.assign [⟨0, some 1, some (0, 3)⟩] [] .nil)] (by simp [Access.SpansTotal]) 0 2
  refine ⟨h.1, h.2.1, h.2.2 (.inr fun a ha range r hrefers _ mask => ?_)⟩
  simp only [mem_cons, not_mem_nil, or_false] at ha
  obtain rfl | rfl | rfl := ha
  · obtain ⟨-, -, rfl⟩ := hrefers
    simp
  · exact hrefers.elim
  · exact hrefers.elim

/-- An element that only a reference to the whole array, with the element as
target, accounts for: the compact table has no index to compare with. -/
theorem gather_compact_ne_unnamed :
    ¬∀ (total : VarId → Option ℕ) (accesses : List Access) (decls : List (Option FfStmts)),
      (∀ a ∈ accesses, a.SpansTotal total) → ∀ (id : VarId) (index : ℕ),
        (∀ r, r ∈ (gather false accesses).refered id index ↔
          r ∈ (gather true accesses).refered id index) ∧
        (gather false accesses).writers id index = (gather true accesses).writers id index ∧
        ((gather false accesses).updateIsFf total decls).isFf id index =
          ((gather true accesses).updateIsFf total decls).isFf id index := by
  intro h
  have hisFf := (h (fun _ => some 4)
    [.assignedWhole 0 4 0, .referedWhole 0 4 ⟨0, some (0, some 2, 1), 1, true⟩] []
    (by simp [Access.SpansTotal]) 0 2).2.2
  revert hisFf
  decide

end Veryl.Analyzer.Registers
