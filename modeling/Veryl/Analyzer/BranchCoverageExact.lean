import Veryl.Analyzer.BranchCoverage

/-!
Both checks report the elements with a bit that some branch assigns, no base table does and
some branch does not, and the table behind the statement has the same bits in every order
of the branches.
-/

namespace Veryl.Analyzer.AssignTables.Branches

open List Nat
open Branches.AssignTableEntry (cleared isAlways length_orMask)
open Branches.AssignTable (accumulatedReads_mergeByOr mergeWith table_mergeByOr)

variable {α : Type} {i : ℕ} {e : AssignTableEntry}

/-- The bit of the element is assigned. -/
def Assigned (t : AssignTable) (key : VarId) (i bit : ℕ) : Prop :=
  ∃ e, t.table key = some e ∧ (e.mask.getD i 0).testBit bit

/-- Some branch assigns a bit of the element that is not assigned before, and some branch
does not. -/
def Uncovered (bases branches : List AssignTable) (key : VarId) (i : ℕ) : Prop :=
  ∃ bit, (∃ b ∈ branches, Assigned b key i bit) ∧ (¬ ∃ x ∈ bases, Assigned x key i bit) ∧
    ∃ b ∈ branches, ¬ Assigned b key i bit

/-- The element belongs to a variable that the checks look at: its array has a known number
of elements, and it is not declared inside of an `always`. -/
def Declaration.Checked (d : Declaration) (i : ℕ) : Prop :=
  (∃ array, d.array.total = some array ∧ i < array) ∧
    d.affiliation ≠ .alwaysFf ∧ d.affiliation ≠ .alwaysComb

/-- The tokens of the assignments to a variable, branch by branch. -/
def branchTokens (branches : List AssignTable) (key : VarId) : List TokenRange :=
  branches.flatMap fun b => (b.table key).elim [] (·.tokens)

section Masks

@[simp] theorem getD_orMask (mask value : List ℕ) (i : ℕ) (hi : i < mask.length) :
    (orMask mask value).getD i 0 = mask.getD i 0 ||| value.getD i 0 := by
  simp [orMask, getD_eq_getElem?_getD, hi]

theorem getElem_orMask (mask value : List ℕ) (i : ℕ) (hi : i < (orMask mask value).length) :
    (orMask mask value)[i] = mask.getD i 0 ||| value.getD i 0 := by
  rw [← getD_eq_getElem _ 0 hi, getD_orMask _ _ _ (by simpa using hi)]

theorem orMask_left_comm {x y z : List ℕ} (h : x.length = y.length) :
    orMask y (orMask x z) = orMask x (orMask y z) := by
  refine ext_getElem (by simp [h]) fun i hi hi' => ?_
  simp only [length_orMask] at hi hi'
  rw [getElem_orMask, getElem_orMask, getD_orMask x z i hi', getD_orMask y z i hi]
  exact Nat.or_left_comm _ _ _

theorem orMask_comm {x y : List ℕ} (h : x.length = y.length) : orMask x y = orMask y x := by
  refine ext_getElem (by simp [h]) fun i hi hi' => ?_
  rw [getElem_orMask, getElem_orMask]
  exact Nat.or_comm _ _

theorem mergeWith_left_comm {x y : Option (List ℕ)} {n : ℕ} (hx : ∀ m, x = some m → m.length = n)
    (hy : ∀ m, y = some m → m.length = n) (z : Option (List ℕ)) :
    mergeWith orMask y (mergeWith orMask x z) = mergeWith orMask x (mergeWith orMask y z) := by
  cases x with
  | none => cases y <;> rfl
  | some x =>
    cases y with
    | none => rfl
    | some y =>
      have hxy : x.length = y.length := by rw [hx x rfl, hy y rfl]
      cases z with
      | none => exact congrArg some (orMask_comm hxy.symm)
      | some z => exact congrArg some (orMask_left_comm hxy)

theorem testBit_foldl_or (f : α → ℕ) (l : List α) (acc bit : ℕ) :
    (l.foldl (fun union b => union ||| f b) acc).testBit bit ↔
      acc.testBit bit ∨ ∃ b ∈ l, (f b).testBit bit := by
  induction l generalizing acc with
  | nil => simp
  | cons b l ih => simp [ih, or_assoc]

end Masks

theorem exists_ne_union_iff (f : α → ℕ) (l : List α) :
    (∃ b ∈ l, f b ≠ l.foldl (fun union b => union ||| f b) 0) ↔
      ∃ bit, (∃ b ∈ l, (f b).testBit bit) ∧ ∃ b ∈ l, ¬ (f b).testBit bit := by
  constructor
  · rintro ⟨b, hb, hne⟩
    obtain ⟨bit, hbit⟩ := exists_testBit_ne_of_ne hne
    have hunion := testBit_foldl_or f l 0 bit
    cases hb' : (f b).testBit bit with
    | false =>
      rw [hb'] at hbit
      have htrue : (l.foldl (fun union b => union ||| f b) 0).testBit bit = true := by
        simpa using Ne.symm hbit
      obtain h | h := hunion.1 htrue
      · simp at h
      · exact ⟨bit, h, b, hb, by simp [hb']⟩
    | true =>
      rw [hb'] at hbit
      exact absurd (hunion.2 (.inr ⟨b, hb, hb'⟩)) (by simpa using Ne.symm hbit)
  · rintro ⟨bit, hsome, b, hb, hnot⟩
    refine ⟨b, hb, fun heq => hnot ?_⟩
    rw [heq]
    exact (testBit_foldl_or f l 0 bit).2 (.inr hsome)

section Bases

variable {decl : VarId → Declaration} (bases : List (DeclaredTable decl)) (key : VarId)

/-- The tables without what their declarations say. -/
abbrev plain (tables : List (DeclaredTable decl)) : List AssignTable :=
  tables.map DeclaredTable.toAssignTable

theorem map_mask_foldl (bases : List AssignTable) (acc : Option AssignTableEntry) :
    (bases.foldl (fun acc x => match x.table key, acc with
      | some x, some y => some (y.mergeByOr x)
      | some x, none => some x
      | none, acc => acc) acc).map (·.mask) =
    bases.foldl (fun acc x => match x.table key, acc with
      | some x, some acc => some (orMask acc x.mask)
      | some x, none => some x.mask
      | none, acc => acc) (acc.map (·.mask)) := by
  induction bases generalizing acc with
  | nil => rfl
  | cons b bases ih =>
    simp only [foldl_cons]
    rw [ih]
    cases b.table key <;> cases acc <;> rfl

theorem map_mask_baseVal (bases : List AssignTable) :
    (baseVal bases key).map (·.mask) = baseMask bases key :=
  map_mask_foldl key bases none

theorem baseMask_snoc (b : DeclaredTable decl) : baseMask (plain (bases ++ [b])) key =
    match b.table key, baseMask (plain bases) key with
      | some x, some acc => some (orMask acc x.mask)
      | some x, none => some x.mask
      | none, acc => acc := by
  simp only [baseMask, plain, map_append, foldl_append]
  rfl

theorem baseMask_spec : (∀ mask, baseMask (plain bases) key = some mask →
      mask.length = (decl key).array.total.getD 0) ∧
    ∀ i, i < (decl key).array.total.getD 0 → ∀ bit,
      ((baseMask (plain bases) key).elim 0 (·.getD i 0)).testBit bit ↔
        ∃ x ∈ plain bases, Assigned x key i bit := by
  induction bases using List.reverseRecOn with
  | nil => simp [baseMask]
  | append_singleton bases b ih =>
    obtain ⟨hlength, hbits⟩ := ih
    have hstep := baseMask_snoc bases key b
    cases hb : b.table key with
    | none =>
      rw [hb] at hstep
      refine ⟨by rw [hstep]; exact hlength, fun i hi bit => ?_⟩
      rw [hstep, hbits i hi bit]
      simp [plain, or_and_right, exists_or, Assigned, hb]
    | some e =>
      have he := (b.entries key e hb).length
      rw [hb] at hstep
      cases hacc : baseMask (plain bases) key with
      | none =>
        rw [hacc] at hstep hbits
        refine ⟨by rw [hstep]; rintro _ ⟨⟩; exact he, fun i hi bit => ?_⟩
        have hnone := (hbits i hi bit).not.1 (by simp)
        rw [hstep, plain, map_append]
        simp only [mem_append, or_and_right, exists_or, hnone, false_or]
        simp [Assigned, hb]
      | some acc =>
        rw [hacc] at hstep hbits
        have hacc' := hlength acc hacc
        refine ⟨by rw [hstep]; rintro _ ⟨⟩; simpa using hacc', fun i hi bit => ?_⟩
        rw [hstep, plain, map_append]
        simp only [mem_append, or_and_right, exists_or, ← hbits i hi bit,
          Option.elim_some, getD_orMask acc e.mask i (by omega), testBit_or]
        simp [Assigned, hb]

theorem testBit_combined (b : AssignTable) (hi : i < (decl key).array.total.getD 0) (bit : ℕ) :
    (combined (plain bases) key b i).testBit bit ↔
      Assigned b key i bit ∨ ∃ x ∈ plain bases, Assigned x key i bit := by
  have hraw : ((b.table key).elim 0 (·.mask.getD i 0)).testBit bit ↔ Assigned b key i bit := by
    cases hb : b.table key <;> simp [Assigned, hb]
  rw [← (baseMask_spec bases key).2 i hi bit, ← hraw, combined]
  cases baseMask (plain bases) key with
  | none => simp
  | some base => simp

end Bases

section NWay

variable {decl : VarId → Declaration} (bases branches : List (DeclaredTable decl)) (key : VarId)

theorem isAlways_iff {d : Declaration} (h : e.Declared d) :
    e.isAlways ↔ ¬ (d.affiliation ≠ .alwaysFf ∧ d.affiliation ≠ .alwaysComb) := by
  rw [isAlways, h.affiliation, decide_eq_true_iff]
  tauto

theorem any_ne_union_iff (hi : i < (decl key).array.total.getD 0) :
    ((plain branches).any fun b => combined (plain bases) key b i ≠
        (plain branches).foldl (fun union b => union ||| combined (plain bases) key b i) 0) ↔
      Uncovered (plain bases) (plain branches) key i := by
  simp only [any_eq_true, decide_eq_true_eq]
  rw [exists_ne_union_iff fun b => combined (plain bases) key b i]
  refine exists_congr fun bit => ?_
  simp only [testBit_combined bases key _ hi]
  constructor
  · rintro ⟨⟨b, hb, hassigned⟩, b', hb', hnot⟩
    rw [not_or] at hnot
    exact ⟨⟨b, hb, hassigned.resolve_right hnot.2⟩, hnot.2, b', hb', hnot.1⟩
  · rintro ⟨⟨b, hb, hassigned⟩, hbase, b', hb', hnot⟩
    exact ⟨⟨b, hb, .inl hassigned⟩, b', hb', not_or.2 ⟨hnot, hbase⟩⟩

theorem findSome?_spec {b : AssignTable} (hb : b ∈ plain branches) (he : b.table key = some e) :
    ∃ sample, (plain branches).findSome? (·.table key) = some sample ∧
      sample.Declared (decl key) ∧ branchTokens (plain branches) key ≠ [] := by
  cases hsample : (plain branches).findSome? (·.table key) with
  | none =>
    have := findSome?_eq_none_iff.1 hsample b hb
    rw [he] at this
    exact absurd this (by simp)
  | some sample =>
    obtain ⟨b', hb', hsome⟩ := exists_of_findSome?_eq_some hsample
    obtain ⟨t, -, rfl⟩ := mem_map.1 hb'
    have hdecl := t.entries key sample hsome
    refine ⟨sample, rfl, hdecl, fun hnil => hdecl.tokens ?_⟩
    simpa [hsome] using flatMap_eq_nil_iff.1 hnil t.toAssignTable hb'

theorem length_of_uncovered (h : Uncovered (plain bases) (plain branches) key i) :
    ¬ (plain branches).length < 2 ∧ ∃ b ∈ plain branches, ∃ e, b.table key = some e := by
  obtain ⟨bit, ⟨b, hb, hassigned⟩, -, b', hb', hnot⟩ := h
  refine ⟨fun hlength => ?_, b, hb, hassigned.imp fun e he => he.1⟩
  have hne : b ≠ b' := fun heq => hnot (heq ▸ hassigned)
  cases hbranches : plain branches with
  | nil => simp [hbranches] at hb
  | cons x rest =>
    rw [hbranches] at hlength hb hb'
    obtain rfl : rest = [] := length_eq_zero_iff.1 (by
      rw [length_cons] at hlength
      omega)
    exact hne ((mem_singleton.1 hb).trans (mem_singleton.1 hb').symm)

theorem mem_checkUncoverdNWay (i : ℕ) (err : UncoveredBranch) :
    (i, err) ∈ checkUncoverdNWay (plain bases) key (plain branches) ↔
      ((decl key).Checked i ∧ Uncovered (plain bases) (plain branches) key i) ∧
      err = ⟨(decl key).path, (branchTokens (plain branches) key).headD 0,
        branchTokens (plain branches) key⟩ := by
  rw [checkUncoverdNWay, branchTokens]
  constructor
  · intro herr
    split at herr
    · simp at herr
    split at herr
    · simp at herr
    rename_i halways
    cases hsample : (plain branches).findSome? (·.table key) with
    | none => simp [hsample] at herr
    | some sample =>
      obtain ⟨b, hb, hsome⟩ := exists_of_findSome?_eq_some hsample
      obtain ⟨t, -, rfl⟩ := mem_map.1 hb
      have hdecl := t.entries key sample hsome
      have hnot : ¬ sample.isAlways := fun h =>
        halways (any_eq_true.2 ⟨_, hb, by simpa [hsome] using h⟩)
      cases harray : sample.array.total with
      | none => simp [hsample, harray] at herr
      | some array =>
        simp only [hsample, harray] at herr
        split at herr
        · simp at herr
        simp only [mem_map, mem_filter, mem_range, Prod.mk.injEq] at herr
        obtain ⟨j, ⟨hj, hany⟩, rfl, rfl⟩ := herr
        rw [hdecl.array] at harray
        refine ⟨⟨⟨⟨array, harray, hj⟩,
          not_not.1 fun h => hnot ((isAlways_iff hdecl).2 h)⟩, ?_⟩, by rw [hdecl.path]⟩
        exact (any_ne_union_iff bases branches key (by rw [harray]; exact hj)).1 hany
  · rintro ⟨⟨⟨⟨array, harray, hi⟩, halways⟩, huncovered⟩, rfl⟩
    obtain ⟨hlength, b, hb, e, he⟩ := length_of_uncovered bases branches key huncovered
    obtain ⟨sample, hsample, hdecl, htokens⟩ := findSome?_spec branches key hb he
    have hany : ¬ (plain branches).any fun b => (b.table key).any (·.isAlways) := by
      intro hany
      obtain ⟨b', hb', hsome⟩ := any_eq_true.1 hany
      obtain ⟨t, -, rfl⟩ := mem_map.1 hb'
      cases he' : t.table key with
      | none => simp [he'] at hsome
      | some e' =>
        rw [he'] at hsome
        exact (isAlways_iff (t.entries key e' he')).1 hsome halways
    rw [if_neg hlength, if_neg hany]
    rw [branchTokens] at htokens
    simp only [hsample, hdecl.array, harray, hdecl.path, if_neg htokens]
    refine mem_map.2 ⟨i, mem_filter.2 ⟨mem_range.2 hi, ?_⟩, rfl⟩
    exact (any_ne_union_iff bases branches key (by rw [harray]; exact hi)).2 huncovered

theorem pairwise_checkUncoverdNWay (bases branches : List AssignTable) :
    ((checkUncoverdNWay bases key branches).map Prod.fst).Pairwise (· < ·) := by
  rw [checkUncoverdNWay]
  split
  · exact List.Pairwise.nil
  split
  · exact List.Pairwise.nil
  split
  · exact List.Pairwise.nil
  split
  · exact List.Pairwise.nil
  dsimp only
  split
  · exact List.Pairwise.nil
  rw [map_map]
  exact (pairwise_lt_range.filter _).map _ fun _ _ h => h

theorem uncovered_perm {bases branches branches' : List AssignTable} (h : branches.Perm branches')
    (i : ℕ) : Uncovered bases branches key i ↔ Uncovered bases branches' key i := by
  simp only [Uncovered, h.mem_iff]

theorem checkUncoverdNWay_perm {branches branches' : List (DeclaredTable decl)}
    (h : branches.Perm branches') :
    (checkUncoverdNWay (plain bases) key (plain branches)).map Prod.fst =
      (checkUncoverdNWay (plain bases) key (plain branches')).map Prod.fst := by
  have hmem : ∀ branches : List (DeclaredTable decl), ∀ i,
      i ∈ (checkUncoverdNWay (plain bases) key (plain branches)).map Prod.fst ↔
        (decl key).Checked i ∧ Uncovered (plain bases) (plain branches) key i := by
    simp [mem_checkUncoverdNWay]
  refine (pairwise_checkUncoverdNWay key _ _).eq_of_mem_iff
    (pairwise_checkUncoverdNWay key _ _) fun {i} => ?_
  rw [hmem, hmem, uncovered_perm key (h.map DeclaredTable.toAssignTable)]

end NWay

section TwoWay

variable {decl : VarId → Declaration} (bases : List (DeclaredTable decl)) (key : VarId)

theorem getD_cleared (e : AssignTableEntry) (i : ℕ) : e.cleared.mask.getD i 0 = 0 := by
  simp only [cleared, getD_eq_getElem?_getD, getElem?_map]
  cases e.mask[i]? <;> rfl

theorem xor_ne_zero_iff (x y : ℕ) : x ^^^ y ≠ 0 ↔ x ≠ 0 ||| x ||| y ∨ y ≠ 0 ||| x ||| y := by
  rw [Nat.xor_ne_zero_iff, zero_or]
  constructor
  · intro hne
    by_contra h
    rw [not_or, not_not, not_not] at h
    exact hne (h.1.trans h.2.symm)
  · rintro h rfl
    simp at h

theorem filter_two (t f : AssignTable) (x y : AssignTableEntry)
    (hx : ∀ i, x.mask.getD i 0 = (t.table key).elim 0 (·.mask.getD i 0))
    (hy : ∀ i, y.mask.getD i 0 = (f.table key).elim 0 (·.mask.getD i 0)) (i : ℕ) :
    decide ((match baseVal (plain bases) key with
      | some base =>
        (x.mask.getD i 0 ||| base.mask.getD i 0, y.mask.getD i 0 ||| base.mask.getD i 0)
      | none => (x.mask.getD i 0, y.mask.getD i 0)).1 ^^^
      (match baseVal (plain bases) key with
      | some base =>
        (x.mask.getD i 0 ||| base.mask.getD i 0, y.mask.getD i 0 ||| base.mask.getD i 0)
      | none => (x.mask.getD i 0, y.mask.getD i 0)).2 ≠ 0) =
    [t, f].any fun b => combined (plain bases) key b i ≠
      [t, f].foldl (fun union b => union ||| combined (plain bases) key b i) 0 := by
  have hbase := map_mask_baseVal key (plain bases)
  have hcombined : ∀ b, combined (plain bases) key b i =
      match baseVal (plain bases) key with
        | some base => (b.table key).elim 0 (·.mask.getD i 0) ||| base.mask.getD i 0
        | none => (b.table key).elim 0 (·.mask.getD i 0) := by
    intro b
    rw [combined, ← hbase]
    cases baseVal (plain bases) key <;> rfl
  rw [Bool.eq_iff_iff]
  simp only [decide_eq_true_eq, xor_ne_zero_iff, any_cons, any_nil, Bool.or_false,
    Bool.or_eq_true, foldl_cons, foldl_nil, hcombined, hx, hy]
  cases baseVal (plain bases) key <;> rfl

/-- What the pair of entries is, in the words of the other check. -/
structure IsPair (key : VarId) (t f : AssignTable) (x y : AssignTableEntry) : Prop where
  src : ∀ i, x.mask.getD i 0 = (t.table key).elim 0 (·.mask.getD i 0)
  tgt : ∀ i, y.mask.getD i 0 = (f.table key).elim 0 (·.mask.getD i 0)
  always : (x.isAlways || y.isAlways) = [t, f].any fun b => (b.table key).any (·.isAlways)
  sample : ∃ sample, [t, f].findSome? (·.table key) = some sample ∧
    sample.path = x.path ∧ sample.array = x.array
  tokens : x.tokens ++ y.tokens = branchTokens [t, f] key

theorem srcTgt_spec {t f : AssignTable} {x y : AssignTableEntry}
    (h : srcTgt key t f = some (x, y)) : IsPair key t f x y := by
  rw [srcTgt] at h
  cases ht : t.table key with
  | none =>
    cases hf : f.table key with
    | none => simp [ht, hf] at h
    | some e =>
      simp only [ht, hf, Option.some.injEq, Prod.mk.injEq] at h
      obtain ⟨rfl, rfl⟩ := h
      refine ⟨fun i => ?_, fun i => ?_, ?_, ⟨e, ?_, rfl, rfl⟩, ?_⟩
      · rw [getD_cleared, ht]
        rfl
      · rw [hf]
        rfl
      · simp [ht, hf, cleared, isAlways]
      · simp [ht, hf]
      · simp [branchTokens, ht, hf, cleared]
  | some e =>
    cases hf : f.table key with
    | none =>
      simp only [ht, hf, Option.some.injEq, Prod.mk.injEq] at h
      obtain ⟨rfl, rfl⟩ := h
      refine ⟨fun i => ?_, fun i => ?_, ?_, ⟨e, ?_, rfl, rfl⟩, ?_⟩
      · rw [ht]
        rfl
      · rw [getD_cleared, hf]
        rfl
      · simp [ht, hf, cleared, isAlways]
      · simp [ht]
      · simp [branchTokens, ht, hf, cleared]
    | some e' =>
      simp only [ht, hf, Option.some.injEq, Prod.mk.injEq] at h
      obtain ⟨rfl, rfl⟩ := h
      refine ⟨fun i => ?_, fun i => ?_, ?_, ⟨e, ?_, rfl, rfl⟩, ?_⟩
      · rw [ht]
        rfl
      · rw [hf]
        rfl
      · simp [ht, hf]
      · simp [ht]
      · simp [branchTokens, ht, hf]

theorem checkUncoverd_eq (t f : DeclaredTable decl) :
    checkUncoverd (plain bases) key t.toAssignTable f.toAssignTable =
      checkUncoverdNWay (plain bases) key [t.toAssignTable, f.toAssignTable] := by
  rw [checkUncoverd, checkUncoverdNWay, if_neg (by simp), ← branchTokens]
  cases hpair : srcTgt key t.toAssignTable f.toAssignTable with
  | none =>
    have hnone : t.table key = none ∧ f.table key = none := by
      rw [srcTgt] at hpair
      cases ht : t.table key <;> cases hf : f.table key <;> simp [ht, hf] at hpair ⊢
    simp [hnone.1, hnone.2]
  | some pair =>
    obtain ⟨x, y⟩ := pair
    obtain ⟨hsrc, htgt, halways, ⟨sample, hsample, hpath, harray⟩, htokens⟩ :=
      srcTgt_spec key hpair
    have hnonempty : branchTokens [t.toAssignTable, f.toAssignTable] key ≠ [] := by
      obtain ⟨b, hb, hsome⟩ := exists_of_findSome?_eq_some hsample
      exact (findSome?_spec [t, f] key hb hsome).choose_spec.2.2
    simp only [halways, hsample, harray, hpath, htokens, if_neg hnonempty]
    split
    · rfl
    cases x.array.total with
    | none => rfl
    | some array =>
      refine congrArg (List.map _) (filter_congr fun i _ => ?_)
      exact filter_two bases key _ _ x y hsrc htgt i

end TwoWay

section Merged

variable {decl : VarId → Declaration}

/-- The tables have the same entries, but for the order of their tokens. -/
structure AssignTable.SameBits (t t' : AssignTable) : Prop where
  table : ∀ key, (t.table key).map (fun e => { e with tokens := [] }) =
    (t'.table key).map fun e => { e with tokens := [] }
  tokens : ∀ key, (branchTokens [t] key).Perm (branchTokens [t'] key)
  accumulatedReads : t.accumulatedReads = t'.accumulatedReads

/-- The masks of a variable. -/
def masks (t : AssignTable) (key : VarId) : Option (List ℕ) := (t.table key).map (·.mask)

theorem length_of_masks (t : DeclaredTable decl) (key : VarId) :
    ∀ m, masks t.toAssignTable key = some m → m.length = (decl key).array.total.getD 0 := by
  intro m hm
  obtain ⟨e, he, rfl⟩ := Option.map_eq_some_iff.1 hm
  exact (t.entries key e he).length

theorem masks_mergeByOr (t value : DeclaredTable decl) (key : VarId) :
    masks (t.toAssignTable.mergeByOr value.toAssignTable) key =
      mergeWith orMask (masks t.toAssignTable key) (masks value.toAssignTable key) := by
  rw [masks, masks, masks, table_mergeByOr]
  cases ht : t.table key with
  | none => cases value.table key <;> rfl
  | some e =>
    cases hvalue : value.table key with
    | none => rfl
    | some val =>
      simp only [mergeWith, Option.map_some, Option.some.injEq, AssignTable.mergeEntry]
      split
      · rfl
      rename_i htotal
      -- no element is known, so both masks are empty
      have hlength := (t.entries key e ht).length
      rw [← (value.entries key val hvalue).array,
        Option.not_isSome_iff_eq_none.1 htotal] at hlength
      simp only [Option.getD_none, length_eq_zero_iff] at hlength
      rw [hlength]
      rfl

theorem branchTokens_mergeByOr (t value : AssignTable) (key : VarId) :
    branchTokens [t.mergeByOr value] key = branchTokens [t] key ++ branchTokens [value] key := by
  simp only [branchTokens, table_mergeByOr, flatMap_cons, flatMap_nil, append_nil]
  cases t.table key with
  | none => cases value.table key <;> simp [mergeWith]
  | some e =>
    cases value.table key with
    | none => simp [mergeWith]
    | some val =>
      simp only [mergeWith, AssignTable.mergeEntry, Option.elim_some]
      split <;> rfl

/-- The arms of a `case` statement, merged. -/
def DeclaredTable.mergeArms : List (DeclaredTable decl) → DeclaredTable decl
  | [] => ⟨⟨fun _ => none, fun _ => none⟩, by simp, by simp⟩
  | [t] => t
  | t :: rest => t.mergeByOr (mergeArms rest)

theorem mergeWith_none (f : α → α → α) (x : Option α) : mergeWith f x none = x := by
  cases x <;> rfl

theorem mergeArms_cons (t : AssignTable) (rest : List AssignTable) :
    mergeArms (t :: rest) = t.mergeByOr (mergeArms rest) := by
  cases rest with
  | nil => simp [mergeArms, AssignTable.mergeByOr, mergeWith_none]
  | cons t' rest => rfl

@[simp] theorem toAssignTable_mergeArms (branches : List (DeclaredTable decl)) :
    (DeclaredTable.mergeArms branches).toAssignTable = mergeArms (plain branches) := by
  induction branches with
  | nil => rfl
  | cons t rest ih =>
    cases rest with
    | nil => rfl
    | cons t' rest => exact congrArg t.toAssignTable.mergeByOr ih

theorem masks_mergeArms (branches : List (DeclaredTable decl)) (key : VarId) :
    masks (mergeArms (plain branches)) key = (branches.map fun b => masks b.toAssignTable key).foldr
        (mergeWith orMask) none := by
  induction branches with
  | nil => rfl
  | cons t rest ih =>
    rw [map_cons, foldr_cons, ← ih, plain, map_cons, mergeArms_cons,
      ← toAssignTable_mergeArms, masks_mergeByOr]

theorem accumulatedReads_mergeArms (branches : List AssignTable) (key : VarId) :
    (mergeArms branches).accumulatedReads key =
      (branches.map (·.accumulatedReads key)).foldr (mergeWith orMask) none := by
  induction branches with
  | nil => rfl
  | cons t rest ih =>
    rw [map_cons, foldr_cons, ← ih, mergeArms_cons, accumulatedReads_mergeByOr]

theorem branchTokens_mergeArms (branches : List AssignTable) (key : VarId) :
    branchTokens [mergeArms branches] key = branchTokens branches key := by
  induction branches with
  | nil => rfl
  | cons t rest ih =>
    rw [mergeArms_cons, branchTokens_mergeByOr, ih]
    simp [branchTokens]

theorem foldr_mergeWith_perm (n : ℕ) {l l' : List (Option (List ℕ))}
    (h : l.Perm l') (hl : ∀ x ∈ l, ∀ m, x = some m → m.length = n) :
    l.foldr (mergeWith orMask) none = l'.foldr (mergeWith orMask) none :=
  h.foldr_eq' (fun x hx y hy z => mergeWith_left_comm (hl x hx) (hl y hy) z) none

theorem sameBits_of_masks {t t' : DeclaredTable decl}
    (hmasks : ∀ key, masks t.toAssignTable key = masks t'.toAssignTable key)
    (htokens : ∀ key, (branchTokens [t.toAssignTable] key).Perm
      (branchTokens [t'.toAssignTable] key))
    (hreads : t.accumulatedReads = t'.accumulatedReads) :
    t.toAssignTable.SameBits t'.toAssignTable := by
  refine ⟨fun key => ?_, htokens, hreads⟩
  have hkey := hmasks key
  rw [masks, masks] at hkey
  cases ht : t.table key with
  | none =>
    rw [ht, Option.map_none, eq_comm, Option.map_eq_none_iff] at hkey
    rw [hkey]
  | some e =>
    rw [ht, Option.map_some, eq_comm, Option.map_eq_some_iff] at hkey
    obtain ⟨e', he', hmask⟩ := hkey
    have hdecl := t.entries key e ht
    have hdecl' := t'.entries key e' he'
    rw [he', Option.map_some, Option.map_some, Option.some.injEq,
      AssignTableEntry.mk.injEq, hdecl.path, hdecl.array, hdecl.affiliation]
    exact ⟨hmask.symm, hdecl'.path.symm, hdecl'.array.symm, hdecl'.affiliation.symm, rfl⟩

theorem caseTable_perm (assign : DeclaredTable decl)
    {branches branches' : List (DeclaredTable decl)} (h : branches.Perm branches') :
    (caseTable assign.toAssignTable (plain branches)).SameBits
      (caseTable assign.toAssignTable (plain branches')) := by
  have hcase : ∀ branches : List (DeclaredTable decl),
      caseTable assign.toAssignTable (plain branches) =
        (assign.mergeByOr (.mergeArms branches)).toAssignTable := by
    intro branches
    rw [caseTable, ← toAssignTable_mergeArms]
    rfl
  rw [hcase, hcase]
  refine sameBits_of_masks (fun key => ?_) (fun key => ?_) (funext fun key => ?_)
  · rw [← hcase, ← hcase, caseTable, caseTable, ← toAssignTable_mergeArms,
      ← toAssignTable_mergeArms, masks_mergeByOr, masks_mergeByOr, toAssignTable_mergeArms,
      toAssignTable_mergeArms, masks_mergeArms, masks_mergeArms]
    refine congrArg _ (foldr_mergeWith_perm ((decl key).array.total.getD 0) (h.map _)
      fun x hx m hm => ?_)
    obtain ⟨b, -, rfl⟩ := mem_map.1 hx
    exact length_of_masks b key m hm
  · rw [← hcase, ← hcase, caseTable, caseTable, branchTokens_mergeByOr, branchTokens_mergeByOr,
      branchTokens_mergeArms, branchTokens_mergeArms]
    exact ((h.map _).flatMap_right _).append_left _
  · rw [← hcase, ← hcase, caseTable, caseTable, accumulatedReads_mergeByOr,
      accumulatedReads_mergeByOr, accumulatedReads_mergeArms, accumulatedReads_mergeArms]
    refine congrArg _ (foldr_mergeWith_perm ((decl key).array.total.getD 0) ((h.map _).map _)
      fun x hx m hm => ?_)
    obtain ⟨b, hb, rfl⟩ := mem_map.1 hx
    obtain ⟨b', -, rfl⟩ := mem_map.1 hb
    exact b'.reads key m hm

end Merged

/-- The two checks report the same errors on two branches and leave the same table. -/
theorem checkUncoverd_agree (decl : VarId → Declaration) (bases : List (DeclaredTable decl)) :
    (∀ (t f : DeclaredTable decl) (key : VarId),
      checkUncoverd (plain bases) key t.toAssignTable f.toAssignTable =
          checkUncoverdNWay (plain bases) key [t.toAssignTable, f.toAssignTable] ∧
        ∀ assign : AssignTable, ifTable assign t.toAssignTable f.toAssignTable =
          caseTable assign [t.toAssignTable, f.toAssignTable]) ∧
    (∀ (branches : List (DeclaredTable decl)) (key : VarId) (i : ℕ) (err : UncoveredBranch),
      (i, err) ∈ checkUncoverdNWay (plain bases) key (plain branches) ↔
        ((decl key).Checked i ∧ Uncovered (plain bases) (plain branches) key i) ∧
        err = ⟨(decl key).path, (branchTokens (plain branches) key).headD 0,
          branchTokens (plain branches) key⟩) ∧
    ∀ branches branches' : List (DeclaredTable decl), branches.Perm branches' →
      (∀ key, (checkUncoverdNWay (plain bases) key (plain branches)).map Prod.fst =
        (checkUncoverdNWay (plain bases) key (plain branches')).map Prod.fst) ∧
      (∀ key, (branchTokens (plain branches) key).Perm (branchTokens (plain branches') key)) ∧
      ∀ assign : DeclaredTable decl, (caseTable assign.toAssignTable (plain branches)).SameBits
          (caseTable assign.toAssignTable (plain branches')) := by
  refine ⟨fun t f key => ⟨checkUncoverd_eq bases key t f, fun assign => rfl⟩,
    fun branches key i err => mem_checkUncoverdNWay bases branches key i err,
    fun branches branches' h => ⟨fun key => checkUncoverdNWay_perm bases key h,
      fun key => (h.map _).flatMap_right _, fun assign => caseTable_perm assign h⟩⟩

section Corner

/-- One variable that a procedure declares and one that the module does. -/
def cornerDecl (key : VarId) : Declaration :=
  if key = 0 then ⟨"x", [], .alwaysComb⟩ else ⟨"y", [], .module⟩

def emptyTable : DeclaredTable cornerDecl := ⟨⟨fun _ => none, fun _ => none⟩, by simp, by simp⟩

/-- A branch with one assignment. -/
def oneAssign (key : VarId) (mask : ℕ) (token : TokenRange) : DeclaredTable cornerDecl :=
  emptyTable.insertElement key (some 0) mask token

/-- A variable of the procedure is assigned in one branch only, and the order of two branches
shows in the tokens. -/
theorem alwaysComb_exempt :
    Uncovered [] [(oneAssign 0 1 7).toAssignTable, emptyTable.toAssignTable] 0 0 ∧
    checkUncoverd [] 0 (oneAssign 0 1 7).toAssignTable emptyTable.toAssignTable = [] ∧
    checkUncoverdNWay [] 0 [(oneAssign 0 1 7).toAssignTable, emptyTable.toAssignTable] = [] ∧
    checkUncoverdNWay [] 1 [(oneAssign 1 1 7).toAssignTable, (oneAssign 1 2 8).toAssignTable] ≠
      checkUncoverdNWay [] 1
        [(oneAssign 1 2 8).toAssignTable, (oneAssign 1 1 7).toAssignTable] := by
  have hassigned : Assigned (oneAssign 0 1 7).toAssignTable 0 0 0 := ⟨_, rfl, by decide⟩
  have hempty : ¬ Assigned emptyTable.toAssignTable 0 0 0 := by
    rintro ⟨e, he, -⟩
    cases he
  refine ⟨⟨0, ⟨_, mem_cons_self, hassigned⟩, by simp,
    emptyTable.toAssignTable, by simp, hempty⟩, ?_, ?_, ?_⟩
  · decide
  · decide
  · decide

/-- Two branches that assign one bit each, in either order. -/
theorem checkUncoverd_agree_pair :
    [oneAssign 1 1 7, oneAssign 1 2 8].Perm [oneAssign 1 2 8, oneAssign 1 1 7] ∧
    (checkUncoverdNWay (plain [emptyTable]) 1 (plain [oneAssign 1 1 7, oneAssign 1 2 8])).map
        Prod.fst =
      (checkUncoverdNWay (plain [emptyTable]) 1 (plain [oneAssign 1 2 8, oneAssign 1 1 7])).map
        Prod.fst :=
  ⟨List.Perm.swap _ _ _,
    ((checkUncoverd_agree cornerDecl [emptyTable]).2.2 _ _ (List.Perm.swap _ _ _)).1 1⟩

end Corner

end Veryl.Analyzer.AssignTables.Branches
