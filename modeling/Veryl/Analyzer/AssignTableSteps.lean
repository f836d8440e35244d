import Veryl.Analyzer.AssignTable

/-!
What one call does to the entries of the variable it names: which element an index
selects, and how the masks of an entry change, by the way the entry was created.
-/

namespace Veryl.Analyzer.AssignTables

open List Option Function AssignTableEntry
open ReferencedEntry (addAssign addRef newAssign newRef)

variable {index : List ℕ} {array : Shape}

variable {n i : ℕ} {element : Option ℕ} {shape : Shape} {a : ℕ}

namespace Shape

def product (shape : Shape) : ℕ := (shape.map (·.getD 0)).prod

theorem checkedMul_eq {b c : ℕ} (h : checkedMul a b = some c) : c = a * b ∧ c < 2 ^ 64 := by
  simp only [checkedMul] at h
  split at h
  · exact ⟨(some.inj h).symm, some.inj h ▸ ‹_›⟩
  · cases h

theorem foldlM_checkedMul
    (h : shape.foldlM (fun total extent => extent.bind (checkedMul total)) a = some n) :
    n = a * product shape := by
  induction shape generalizing a with
  | nil => simpa [product] using h.symm
  | cons extent shape ih =>
    simp only [foldlM_cons, bind_eq_bind, bind_eq_some_iff] at h
    obtain ⟨b, ⟨e, rfl, hb⟩, h⟩ := h
    rw [ih h, (checkedMul_eq hb).1]
    simp [product, Nat.mul_assoc]

theorem foldlM_checkedMul_lt (ha : a < 2 ^ 64)
    (h : shape.foldlM (fun total extent => extent.bind (checkedMul total)) a = some n) :
    n < 2 ^ 64 := by
  induction shape generalizing a with
  | nil => exact some.inj h ▸ ha
  | cons extent shape ih =>
    simp only [foldlM_cons, bind_eq_bind, bind_eq_some_iff] at h
    obtain ⟨b, ⟨e, rfl, hb⟩, h⟩ := h
    exact ih (checkedMul_eq hb).2 h

theorem total_eq_product (h : shape.total = some n) : n = product shape := by
  simp only [total] at h
  split at h
  · cases h
  · split at h
    · rename_i hzero
      have hmem : 0 ∈ shape.map (·.getD 0) := List.mem_map.2 ⟨some 0, hzero, rfl⟩
      rw [← some.inj h, product, prod_eq_zero hmem]
    · rw [foldlM_checkedMul h, Nat.one_mul]

theorem total_lt (h : shape.total = some n) : n < 2 ^ 64 := by
  simp only [total] at h
  split at h
  · cases h
  · split at h
    · rw [← some.inj h]
      decide
    · exact foldlM_checkedMul_lt (by decide) h

theorem foldlM_indexStep {dimensions : List (ℕ × Option ℕ)} {acc acc' : ℕ × ℕ}
    (hacc : acc.1 < acc.2) (h : dimensions.foldlM indexStep acc = some acc') :
    acc'.1 < acc'.2 ∧ acc'.2 = acc.2 * product (dimensions.map Prod.snd) := by
  induction dimensions generalizing acc with
  | nil =>
    obtain rfl := some.inj h
    simp [product, hacc]
  | cons dimension dimensions ih =>
    obtain ⟨i, extent⟩ := dimension
    simp only [foldlM_cons, bind_eq_bind, bind_eq_some_iff] at h
    obtain ⟨mid, hstep, h⟩ := h
    simp only [indexStep, bind_eq_bind, bind_eq_some_iff] at hstep
    obtain ⟨e, rfl, hstep⟩ := hstep
    split at hstep
    · cases hstep
    simp only [bind_eq_some_iff, some.injEq] at hstep
    obtain ⟨term, hterm, ret, hret, base, hbase, rfl⟩ := hstep
    have hret' : ret = acc.1 + term := by
      simp only [checkedAdd] at hret
      split at hret
      · exact (some.inj hret).symm
      · cases hret
    have hsum : ret < base := by
      rw [hret', (checkedMul_eq hterm).1, (checkedMul_eq hbase).1]
      calc acc.1 + i * acc.2 < acc.2 + i * acc.2 := by omega
        _ = (i + 1) * acc.2 := by rw [Nat.add_mul, Nat.one_mul, Nat.add_comm]
        _ ≤ e * acc.2 := Nat.mul_le_mul_right _ (by omega)
        _ = acc.2 * e := Nat.mul_comm _ _
    obtain ⟨hlt', hprod⟩ := ih hsum h
    refine ⟨hlt', hprod.trans ?_⟩
    rw [(checkedMul_eq hbase).1]
    simp [product, Nat.mul_assoc]

theorem product_reverse (shape : Shape) : product shape.reverse = product shape := by
  simp [product, map_reverse, prod_reverse]

theorem calcIndex_lt (h : shape.calcIndex index = some i) : ∃ n, shape.total = some n ∧ i < n := by
  simp only [calcIndex] at h
  split at h
  · rename_i hscalar
    obtain rfl := some.inj h
    rcases hscalar with rfl | ⟨rfl, -⟩
    · exact ⟨1, by decide, by decide⟩
    · exact ⟨1, by decide, by decide⟩
  · split at h
    · cases h
    simp only [bind_eq_bind, bind_eq_some_iff, some.injEq] at h
    obtain ⟨n, hn, acc, hacc, rfl⟩ := h
    obtain ⟨hlt, hprod⟩ := foldlM_indexStep (by decide) hacc
    refine ⟨n, hn, ?_⟩
    have hsnd : (index.zip shape).reverse.map Prod.snd = shape.reverse := by
      rw [map_reverse, List.map_snd_zip (by omega)]
    rw [total_eq_product hn, ← product_reverse, ← hsnd]
    simpa [hprod] using hlt

end Shape

/-- The number of elements that are recorded for an array. -/
def elements (array : Shape) : ℕ := array.total.getD 0

theorem calcIndex_lt_elements (h : array.calcIndex index = some i) : i < elements array := by
  obtain ⟨n, hn, hi⟩ := Shape.calcIndex_lt h
  simpa [elements, hn] using hi

/-- The masks of the first `n` elements. -/
def masks (n : ℕ) (f : ℕ → ℕ) : List ℕ := (List.range n).map f

/-- One more mask at an element, when there is one. -/
def addMask (f : ℕ → ℕ) (element : Option ℕ) (mask : ℕ) : ℕ → ℕ :=
  fun i => if element = some i then f i ||| mask else f i

@[simp] theorem length_masks (n : ℕ) (f : ℕ → ℕ) : (masks n f).length = n := by
  simp [masks]

@[simp] theorem masks_zero (f : ℕ → ℕ) : masks 0 f = [] := rfl

theorem getElem?_masks {n i : ℕ} (f : ℕ → ℕ) (h : i < n) : (masks n f)[i]? = some (f i) := by
  simp [masks, h]

@[simp] theorem addMask_none (f : ℕ → ℕ) (mask : ℕ) : addMask f none mask = f := by
  funext i
  simp [addMask]

theorem modify_masks (n i : ℕ) (f : ℕ → ℕ) (mask : ℕ) :
    (masks n f).modify i (· ||| mask) = masks n (addMask f (some i) mask) := by
  apply ext_getElem?
  intro j
  rw [getElem?_modify]
  simp only [masks, getElem?_map]
  rcases Nat.lt_or_ge j n with hj | hj
  · simp only [getElem?_range hj, map_some, addMask, some.injEq]
    split <;> rfl
  · simp [getElem?_eq_none (l := List.range n) (by simpa using hj)]

theorem elementMasks_eq (n : ℕ) (element : Option ℕ) (mask : ℕ) :
    elementMasks n element mask = masks n (addMask (fun _ => 0) element mask) := by
  simp [elementMasks, masks, addMask]

/-- How the entry of a variable came to be: there is none yet, it was created
without the shape of the variable, or with it. -/
inductive Tracked where
  | untracked
  | lost
  | full
  deriving DecidableEq

/-- What an assignment does: only the first call decides. -/
def Tracked.assign (element : Option ℕ) : Tracked → Tracked
  | .untracked => if element = none then .lost else .full
  | tracked => tracked

def Tracked.reference : Tracked → Tracked
  | .untracked => .full
  | tracked => tracked

/-- The contents of the table for one variable with the given shape, when the
in-range calls so far have assigned the masks `a` and referenced the masks `r`. -/
structure Holds (array : Shape) (a r : ℕ → ℕ) (tracked : Tracked)
    (entry : Option AssignTableEntry) (refernced : Option ReferencedEntry)
    (reads : Option (List ℕ)) : Prop where
  entry : entry = none ∧ (∀ i, a i = 0) ∨
    entry = some { mask := masks (elements array) a, array := array }
  refernced : match tracked with
    | .untracked => refernced = none ∧ (∀ i, a i = 0) ∧ ∀ i, r i = 0
    | .lost => refernced = some { maskRef := [], maskAssign := [], array := array }
    | .full => refernced = some
        { maskRef := masks (elements array) r
          maskAssign := masks (elements array) a
          array := array }
  reads : reads = none ∧ (∀ i, r i = 0) ∨ reads = some (masks (elements array) r)

theorem elementMasks_none (n : ℕ) : elementMasks n none 0 = masks n fun _ => 0 := by
  simp [elementMasks_eq]

theorem new_mask (info : VariableInfo) (element : Option ℕ) (mask : ℕ) : (new info element mask) =
      { mask := masks (elements info.array) (addMask (fun _ => 0) element mask)
        array := info.array } := by
  cases h : info.array.total with
  | none => simp [new, elements, h]
  | some n => simp [new, elements, h, elementMasks_eq]

theorem add_masks {a : ℕ → ℕ} (mask : ℕ) (h : ∀ i, element = some i → i < n) :
    add { mask := masks n a, array := array } element mask =
      some { mask := masks n (addMask a element mask), array := array } := by
  cases element with
  | none => simp [add]
  | some i => simp [add, h i rfl, modify_masks]

theorem newAssign_some (array : Shape) (mask : ℕ) (h : i < elements array) :
    newAssign (some i) array mask =
      { maskRef := masks (elements array) fun _ => 0
        maskAssign := masks (elements array) (addMask (fun _ => 0) (some i) mask)
        array := array } := by
  cases hn : array.total with
  | none => simp [elements, hn] at h
  | some n =>
    simp [newAssign, elements, hn, elementMasks_eq]

theorem addAssign_masks (n : ℕ) (array : Shape) (a r : ℕ → ℕ) (element : Option ℕ) (mask : ℕ) :
    addAssign
        { maskRef := masks n r, maskAssign := masks n a, array := array } element mask =
      { maskRef := masks n r, maskAssign := masks n (addMask a element mask),
        array := array } := by
  cases element with
  | none => simp [addAssign]
  | some i => simp [addAssign, modify_masks]

theorem newRef_eq (index : List ℕ) (array : Shape) (mask : ℕ) : newRef index array mask =
      { maskRef := masks (elements array)
          (addMask (fun _ => 0) (array.calcIndex index) mask)
        maskAssign := masks (elements array) fun _ => 0
        array := array } := by
  cases hn : array.total with
  | none => simp [newRef, elements, hn]
  | some n =>
    simp [newRef, elements, hn, elementMasks_eq]

theorem addRef_masks (n : ℕ) (array : Shape) (a r : ℕ → ℕ) (index : List ℕ) (mask : ℕ) : addRef
        { maskRef := masks n r, maskAssign := masks n a, array := array } index mask =
      { maskRef := masks n (addMask r (array.calcIndex index) mask),
        maskAssign := masks n a, array := array } := by
  cases h : array.calcIndex index with
  | none => simp [addRef, h]
  | some i => simp [addRef, h, modify_masks]

/-- The maps agree on a variable. -/
structure SameAt (t t' : AssignTable) (id : VarId) : Prop where
  table : t'.table id = t.table id
  refernced : t'.refernced id = t.refernced id
  reads : t'.accumulatedReads id = t.accumulatedReads id

theorem SameAt.refl (t : AssignTable) (id : VarId) : SameAt t t id := ⟨rfl, rfl, rfl⟩

theorem SameAt.trans {t t' t'' : AssignTable} {id : VarId} (h : SameAt t t' id)
    (h' : SameAt t' t'' id) : SameAt t t'' id :=
  ⟨h'.table.trans h.table, h'.refernced.trans h.refernced, h'.reads.trans h.reads⟩

def AssignTable.Holds (t : AssignTable) (info : VariableInfo) (a r : ℕ → ℕ)
    (tracked : Tracked) : Prop :=
  AssignTables.Holds info.array a r tracked (t.table info.id) (t.refernced info.id)
    (t.accumulatedReads info.id)

/-- One step on a variable whose entries hold: the other variables and the limit
are unchanged, and the variable holds the new masks. -/
structure Step (t t' : AssignTable) (info : VariableInfo) (a r : ℕ → ℕ)
    (tracked : Tracked) : Prop where
  arrayLimit : t'.arrayLimit = t.arrayLimit
  others : ∀ id, id ≠ info.id → SameAt t t' id
  holds : t'.Holds info a r tracked

section Steps

variable {t : AssignTable} {info : VariableInfo} {a r : ℕ → ℕ} {tracked : Tracked}

theorem assign_refernced (mask : ℕ) (h : t.Holds info a r tracked)
    (helement : ∀ i, element = some i → i < elements info.array) :
    match tracked.assign element with
    | .untracked => False
    | .lost => (t.refernced info.id).elim (.newAssign element info.array mask)
        (·.addAssign element mask) =
          { maskRef := [], maskAssign := [], array := info.array }
    | .full => (t.refernced info.id).elim (.newAssign element info.array mask)
        (·.addAssign element mask) =
          { maskRef := masks (elements info.array) r
            maskAssign := masks (elements info.array) (addMask a element mask)
            array := info.array } := by
  have href := h.refernced
  cases tracked with
  | untracked =>
    obtain ⟨hnone, ha, hr⟩ := href
    obtain rfl : a = fun _ => 0 := funext ha
    obtain rfl : r = fun _ => 0 := funext hr
    cases element with
    | none => simp [Tracked.assign, hnone, newAssign]
    | some i => simpa [Tracked.assign, hnone] using newAssign_some _ mask (helement i rfl)
  | lost =>
    have hsome : t.refernced info.id = some _ := href
    cases element with
    | none => simp [Tracked.assign, hsome, addAssign]
    | some i => simp [Tracked.assign, hsome, addAssign]
  | full =>
    have hsome : t.refernced info.id = some _ := href
    simp [Tracked.assign, hsome, addAssign_masks]

theorem assign_entry (mask : ℕ) (h : t.Holds info a r tracked)
    (helement : ∀ i, element = some i → i < elements info.array) :
    (t.table info.id).elim (some (.new info element mask)) (·.add element mask) =
      some { mask := masks (elements info.array) (addMask a element mask)
             array := info.array } := by
  rcases h.entry with ⟨hnone, ha⟩ | hsome
  · obtain rfl : a = fun _ => 0 := funext ha
    simp [hnone, new_mask]
  · simp [hsome, add_masks mask helement]

theorem insertElement_step (mask : ℕ) (h : t.Holds info a r tracked)
    (helement : ∀ i, element = some i → i < elements info.array) :
    ∃ t', t.insertElement info element mask = some t' ∧
      Step t t' info (addMask a element mask) r (tracked.assign element) := by
  simp only [AssignTable.insertElement, bind_eq_bind, assign_entry mask h helement,
    bind_some, some.injEq, exists_eq_left']
  · refine ⟨rfl, fun id hid => ⟨?_, ?_, rfl⟩, ?_, ?_, h.reads⟩
    · exact update_of_ne hid _ _
    · exact update_of_ne hid _ _
    · exact Or.inr (by simp)
    · have href := assign_refernced mask h helement
      cases htracked : tracked.assign element with
      | untracked => simp [htracked] at href
      | lost => simpa [htracked] using href
      | full => simpa [htracked] using href

theorem insertElements_step {region : List ℕ} (mask : ℕ)
    (hregion : ∀ i ∈ region, i < elements info.array) (h : t.Holds info a r tracked) :
    ∃ t', region.foldlM (fun t element => t.insertElement info (some element) mask) t = some t' ∧
      Step t t' info (fun i => a i ||| if i ∈ region then mask else 0) r
        (if region = [] then tracked else tracked.assign (some 0)) := by
  induction region generalizing t a tracked with
  | nil =>
    refine ⟨t, rfl, rfl, fun id _ => SameAt.refl t id, ?_⟩
    simpa using h
  | cons j region ih =>
    have hj : ∀ i, some j = some i → i < elements info.array := fun i hi => by
      rw [← some.inj hi]
      exact hregion j (by simp)
    obtain ⟨t₁, ht₁, hstep⟩ := insertElement_step mask h hj
    obtain ⟨t₂, ht₂, hstep₂⟩ := ih (fun i hi => hregion i (by simp [hi])) hstep.holds
    refine ⟨t₂, by simp [ht₁, ht₂], hstep₂.arrayLimit.trans hstep.arrayLimit,
      fun id hid => (hstep.others id hid).trans (hstep₂.others id hid), ?_⟩
    have hmask : (fun i => a i ||| if i ∈ j :: region then mask else 0) =
        fun i => addMask a (some j) mask i ||| if i ∈ region then mask else 0 := by
      funext i
      simp only [addMask, some.injEq, mem_cons, eq_comm (a := i)]
      by_cases hj : j = i
      · by_cases hi : i ∈ region
        · simp [hj, hi]
        · simp [hj, hi]
      · simp [hj]
    have htracked : (if j :: region = [] then tracked else tracked.assign (some 0)) =
        if region = [] then tracked.assign (some j)
          else (tracked.assign (some j)).assign (some 0) := by
      cases tracked <;> simp [Tracked.assign]
    rw [hmask, htracked]
    exact hstep₂.holds

theorem reference_refernced (index : List ℕ) (mask : ℕ) (h : t.Holds info a r tracked) :
    match tracked.reference with
    | .untracked => False
    | .lost => (t.refernced info.id).elim (.newRef index info.array mask) (·.addRef index mask) =
          { maskRef := [], maskAssign := [], array := info.array }
    | .full => (t.refernced info.id).elim (.newRef index info.array mask) (·.addRef index mask) =
          { maskRef := masks (elements info.array)
              (addMask r (info.array.calcIndex index) mask)
            maskAssign := masks (elements info.array) a
            array := info.array } := by
  have href := h.refernced
  cases tracked with
  | untracked =>
    obtain ⟨hnone, ha, hr⟩ := href
    obtain rfl : a = fun _ => 0 := funext ha
    obtain rfl : r = fun _ => 0 := funext hr
    simp [Tracked.reference, hnone, newRef_eq]
  | lost =>
    have hsome : t.refernced info.id = some _ := href
    cases hindex : info.array.calcIndex index with
    | none => simp [Tracked.reference, hsome, addRef, hindex]
    | some i => simp [Tracked.reference, hsome, addRef, hindex]
  | full =>
    have hsome : t.refernced info.id = some _ := href
    simp [Tracked.reference, hsome, addRef_masks]

theorem reference_reads (i mask : ℕ) (h : t.Holds info a r tracked) :
    ((t.accumulatedReads info.id).getD (elementMasks (elements info.array) none 0)).modify i
        (· ||| mask) =
      masks (elements info.array) (addMask r (some i) mask) := by
  rcases h.reads with ⟨hnone, hr⟩ | hsome
  · obtain rfl : r = fun _ => 0 := funext hr
    simp [hnone, elementMasks_none, modify_masks]
  · simp [hsome, modify_masks]

theorem insertReference_step (index : List ℕ) (mask : ℕ) (h : t.Holds info a r tracked)
    (hlimit : elements info.array ≤ t.arrayLimit) :
    Step t (t.insertReference info index mask) info a
      (addMask r (info.array.calcIndex index) mask) tracked.reference := by
  have hguard : ¬ t.arrayLimit < info.array.total.getD 0 := Nat.not_lt.2 hlimit
  have hentry := reference_refernced index mask h
  cases hindex : info.array.calcIndex index with
  | none =>
    simp only [AssignTable.insertReference, hguard, if_false, hindex]
    refine ⟨rfl, fun id hid => ⟨rfl, update_of_ne hid _ _, rfl⟩, h.entry, ?_, ?_⟩
    · cases htracked : tracked.reference with
      | untracked => simp [htracked] at hentry
      | lost => simpa [htracked, hindex] using hentry
      | full => simpa [htracked, hindex] using hentry
    · simpa using h.reads
  | some i =>
    obtain ⟨n, hn, -⟩ := Shape.calcIndex_lt hindex
    have helements : elements info.array = n := by simp [elements, hn]
    have hreads := reference_reads i mask h
    rw [helements] at hreads
    rw [hn, getD_some] at hguard
    simp only [AssignTable.insertReference, hguard, if_false, hindex, hn, hreads, getD_some]
    refine ⟨rfl, fun id hid =>
      ⟨rfl, update_of_ne hid _ _, update_of_ne hid _ _⟩, h.entry, ?_, ?_⟩
    · cases htracked : tracked.reference with
      | untracked => simp [htracked] at hentry
      | lost => simpa [htracked, hindex] using hentry
      | full => simpa [htracked, hindex] using hentry
    · exact Or.inr (by simp [helements])

end Steps

end Veryl.Analyzer.AssignTables
