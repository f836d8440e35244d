import Veryl.Analyzer.FfTable

/-!
The compact table and the per-element one record the same readers and writers
of every element, and classify the same registers.
-/

namespace Veryl.Analyzer.Registers

open List Function Dst

variable {t : FfTable}

variable (perElement : Bool) (d : DstAccess)

theorem mergeMask_comm (a b : Mask) : mergeMask a b = mergeMask b a := by
  cases a <;> cases b <;> simp [mergeMask, Nat.lor_comm]

theorem mergeMask_assoc (a b c : Mask) :
    mergeMask (mergeMask a b) c = mergeMask a (mergeMask b c) := by
  cases a <;> cases b <;> cases c <;> simp [mergeMask, Nat.lor_assoc]

@[simp] theorem mergeMask_zero (a : Mask) : mergeMask (some 0) a = a := by
  cases a <;> simp [mergeMask]

/-- What is written by two paths together. -/
def joinMask : Option Mask → Option Mask → Option Mask
  | some a, some b => some (mergeMask a b)
  | some a, none => some a
  | none, b => b

@[simp] theorem joinMask_none (a : Option Mask) : joinMask a none = a := by cases a <;> rfl

@[simp] theorem none_joinMask (a : Option Mask) : joinMask none a = a := rfl

theorem joinMask_comm (a b : Option Mask) : joinMask a b = joinMask b a := by
  cases a <;> cases b <;> simp [joinMask, mergeMask_comm]

theorem joinMask_assoc (a b c : Option Mask) :
    joinMask (joinMask a b) c = joinMask a (joinMask b c) := by
  cases a <;> cases b <;> cases c <;> simp [joinMask, mergeMask_assoc]

theorem foldl_unionMasks (masks : List Mask) (out : Option Mask) :
    masks.foldl (fun out m => some (mergeMask (out.getD (some 0)) m)) out =
      joinMask out (unionMasks masks) := by
  induction masks generalizing out with
  | nil => simp [unionMasks]
  | cons m masks ih =>
    have hstep : ∀ out : Option Mask,
        some (mergeMask (out.getD (some 0)) m) = joinMask out (some m) := by
      intro out
      cases out <;> simp [joinMask]
    rw [unionMasks, foldl_cons, foldl_cons, ih, ih, hstep, hstep, none_joinMask, joinMask_assoc]

@[simp] theorem unionMasks_nil : unionMasks [] = none := rfl

theorem unionMasks_cons (m : Mask) (masks : List Mask) :
    unionMasks (m :: masks) = joinMask (some m) (unionMasks masks) := by
  rw [unionMasks, foldl_cons, foldl_unionMasks]
  simp

theorem unionMasks_append (xs ys : List Mask) :
    unionMasks (xs ++ ys) = joinMask (unionMasks xs) (unionMasks ys) := by
  rw [unionMasks, foldl_append, foldl_unionMasks]
  rfl

theorem overlaps_merge_left (a b w : Mask) :
    overlaps (mergeMask a b) w = (overlaps a w || overlaps b w) := by
  cases a <;> cases b <;> cases w <;> simp [mergeMask, overlaps]
  rw [Nat.and_or_distrib_right, Bool.eq_iff_iff]
  simp only [bne_iff_ne, ne_eq, Nat.or_eq_zero_iff, Bool.or_eq_true]
  tauto

theorem overlaps_comm (a b : Mask) : overlaps a b = overlaps b a := by
  cases a <;> cases b <;> simp [overlaps, Nat.land_comm]

theorem overlaps_merge_right (r a b : Mask) :
    overlaps r (mergeMask a b) = (overlaps r a || overlaps r b) := by
  rw [overlaps_comm, overlaps_merge_left, overlaps_comm a, overlaps_comm b]

/-- What one reference reads. -/
def Refered.read (r : Refered) : Mask := if r.mask = 0 then none else some r.mask

theorem readMask_overlaps (refs : List Refered) (w : Mask) :
    (∃ read, readMask refs = some read ∧ overlaps read w) ↔
      ∃ r ∈ refs, overlaps r.read w := by
  have hfold : ∀ (refs : List Refered) (mask : Mask),
      overlaps (refs.foldl (fun mask r => if r.mask = 0 then none else mergeMask mask (some r.mask))
        mask) w = (overlaps mask w || refs.any fun r => overlaps r.read w) := by
    intro refs
    induction refs with
    | nil => simp
    | cons r refs ih =>
      intro mask
      rw [foldl_cons, ih, any_cons, ← Bool.or_assoc]
      refine congrArg (· || _) ?_
      unfold Refered.read
      split
      · cases mask <;> simp [overlaps]
      · rw [overlaps_merge_left]
  unfold readMask
  by_cases hnil : refs = []
  · simp [hnil]
  rw [if_neg hnil]
  simp only [Option.some.injEq, exists_eq_left', hfold, Bool.or_eq_true, any_eq_true]
  constructor
  · rintro (hzero | h)
    · obtain ⟨r, hr⟩ := exists_mem_of_ne_nil refs hnil
      cases w with
      | none => exact ⟨r, hr, by cases r.read <;> rfl⟩
      | some w => simp [overlaps] at hzero
    · exact h
  · exact .inr

/-- What a destination writes at an element. -/
def Dst.covers (id : VarId) (index : ℕ) : Dst → Option Mask
  | .element id' index' mask => if (id', index') = (id, index) then some mask else none
  | .whole id' len mask => if id' = id ∧ index < len then some mask else none

theorem unionMasks_mergeAt (P : VarId × ℕ → Bool) (key : VarId × ℕ) (mask : Mask)
    (xs : List ((VarId × ℕ) × Mask)) :
    unionMasks (((mergeAt key mask xs).filter fun x => P x.1).map Prod.snd) =
      joinMask (unionMasks ((xs.filter fun x => P x.1).map Prod.snd))
        (if P key then some mask else none) := by
  induction xs with
  | nil => by_cases hP : P key <;> simp [mergeAt, hP, unionMasks_cons]
  | cons x xs ih =>
    rw [mergeAt]
    by_cases hkey : x.1 = key
    · subst hkey
      by_cases hP : P x.1
      · simp only [filter_cons, hP, if_true, map_cons, unionMasks_cons]
        rw [joinMask_assoc, joinMask_comm _ (some mask), ← joinMask_assoc]
        rfl
      · simp [hP]
    · rw [if_neg hkey]
      by_cases hP : P x.1
      · simp [hP, unionMasks_cons, ih, joinMask_assoc]
      · rw [filter_cons_of_neg (by simpa using hP), filter_cons_of_neg (by simpa using hP), ih]

namespace Written

variable {w wc wp : Written} {id : VarId} {index : ℕ}

theorem get_eq (w : Written) (id : VarId) (index : ℕ) : w.get id index =
    joinMask (unionMasks ((w.elements.filter fun x => x.1 = (id, index)).map Prod.snd))
      (unionMasks ((w.whole.filter fun x => x.1.1 = id ∧ index < x.1.2).map Prod.snd)) :=
  unionMasks_append _ _

theorem get_add (w : Written) (dst : Dst) (id : VarId) (index : ℕ) :
    (w.add dst).get id index = joinMask (w.get id index) (dst.covers id index) := by
  rw [get_eq, get_eq]
  cases dst with
  | element id' index' mask =>
    have h := unionMasks_mergeAt (fun k => k = (id, index)) (id', index') mask w.elements
    simp only [decide_eq_true_eq] at h
    rw [add, h, covers, joinMask_assoc, joinMask_assoc]
    exact congrArg (joinMask _) (joinMask_comm _ _)
  | whole id' len mask =>
    have h := unionMasks_mergeAt (fun k => k.1 = id ∧ index < k.2) (id', len) mask w.whole
    simp only [decide_eq_true_eq] at h
    rw [add, h, covers, joinMask_assoc]

theorem get_foldl_add (dsts : List Dst) (w : Written) (id : VarId) (index : ℕ) :
    (dsts.foldl add w).get id index =
      joinMask (w.get id index) (unionMasks (dsts.filterMap (covers id index))) := by
  induction dsts generalizing w with
  | nil => simp
  | cons dst dsts ih =>
    rw [foldl_cons, ih, get_add, joinMask_assoc, filterMap_cons]
    cases dst.covers id index with
    | none => rfl
    | some mask => rw [unionMasks_cons]

theorem get_absorb (w other : Written) (id : VarId) (index : ℕ) :
    (w.absorb other).get id index = joinMask (w.get id index) (other.get id index) := by
  have helements : (other.elements.foldl (fun w x => w.add (.element x.1.1 x.1.2 x.2)) w) =
      (other.elements.map fun x => Dst.element x.1.1 x.1.2 x.2).foldl add w := by
    rw [foldl_map]
  have hwhole : ∀ w : Written, other.whole.foldl (fun w x => w.add (.whole x.1.1 x.1.2 x.2)) w =
      (other.whole.map fun x => Dst.whole x.1.1 x.1.2 x.2).foldl add w := by
    intro w
    rw [foldl_map]
  rw [absorb, helements, hwhole, get_foldl_add, get_foldl_add, joinMask_assoc, get_eq other]
  refine congrArg (joinMask _) (congrArg₂ joinMask (congrArg unionMasks ?_) (congrArg unionMasks ?_))
  · rw [filterMap_map]
    induction other.elements with
    | nil => rfl
    | cons x xs ih =>
      by_cases h : x.1 = (id, index)
      · have hx : (covers id index ∘ fun x : (VarId × ℕ) × Mask =>
            Dst.element x.1.1 x.1.2 x.2) x = some x.2 := if_pos h
        rw [filterMap_cons_some hx, filter_cons_of_pos (by simpa using h), map_cons, ih]
      · have hx : (covers id index ∘ fun x : (VarId × ℕ) × Mask =>
            Dst.element x.1.1 x.1.2 x.2) x = none := if_neg h
        rw [filterMap_cons_none hx, filter_cons_of_neg (by simpa using h), ih]
  · rw [filterMap_map]
    induction other.whole with
    | nil => rfl
    | cons x xs ih =>
      by_cases h : x.1.1 = id ∧ index < x.1.2
      · have hx : (covers id index ∘ fun x : (VarId × ℕ) × Mask =>
            Dst.whole x.1.1 x.1.2 x.2) x = some x.2 := if_pos h
        rw [filterMap_cons_some hx, filter_cons_of_pos (by simpa using h), map_cons, ih]
      · have hx : (covers id index ∘ fun x : (VarId × ℕ) × Mask =>
            Dst.whole x.1.1 x.1.2 x.2) x = none := if_neg h
        rw [filterMap_cons_none hx, filter_cons_of_neg (by simpa using h), ih]

/-- The two forms of what was written: every element reads the same, the
per-element one keeps no whole arrays, and a whole array has its one length. -/
structure Matches (total : VarId → Option ℕ) (wc wp : Written) : Prop where
  get_eq : ∀ id index, wc.get id index = wp.get id index
  whole_eq : wp.whole = []
  total_eq : ∀ x ∈ wc.whole, total x.1.1 = some x.1.2

theorem mem_mergeAt {key : VarId × ℕ} {mask : Mask} {xs : List ((VarId × ℕ) × Mask)}
    {x : (VarId × ℕ) × Mask} (h : x ∈ mergeAt key mask xs) : x.1 = key ∨ ∃ y ∈ xs, y.1 = x.1 := by
  induction xs with
  | nil => exact .inl (congrArg Prod.fst (mem_singleton.1 h))
  | cons y ys ih =>
    rw [mergeAt] at h
    split at h
    · obtain rfl | h := mem_cons.1 h
      · exact .inl rfl
      · exact .inr ⟨x, mem_cons_of_mem _ h, rfl⟩
    · obtain rfl | h := mem_cons.1 h
      · exact .inr ⟨x, mem_cons_self .., rfl⟩
      · obtain h | ⟨z, hz, hx⟩ := ih h
        · exact .inl h
        · exact .inr ⟨z, mem_cons_of_mem _ hz, hx⟩

/-- Destinations whose whole arrays have the length of their variable. -/
def Spans (total : VarId → Option ℕ) : Dst → Prop
  | .element _ _ _ => True
  | .whole id len _ => total id = some len

theorem total_foldl_add {total : VarId → Option ℕ} (dsts : List Dst)
    (hdsts : ∀ dst ∈ dsts, Spans total dst) (h : ∀ x ∈ w.whole, total x.1.1 = some x.1.2) :
    ∀ x ∈ (dsts.foldl add w).whole, total x.1.1 = some x.1.2 := by
  induction dsts generalizing w with
  | nil => exact h
  | cons dst dsts ih =>
    refine ih (fun d hd => hdsts d (mem_cons_of_mem _ hd)) ?_
    have hdst := hdsts dst (mem_cons_self ..)
    cases dst with
    | element id index mask => exact h
    | whole id len mask =>
      intro x hx
      obtain hx | ⟨y, hy, hx⟩ := mem_mergeAt hx
      · rw [hx]
        exact hdst
      · rw [← hx]
        exact h y hy

theorem whole_foldl_add (dsts : List Dst) (hdsts : ∀ dst ∈ dsts, ∃ id index mask,
    dst = .element id index mask) : (dsts.foldl add w).whole = w.whole := by
  induction dsts generalizing w with
  | nil => rfl
  | cons dst dsts ih =>
    rw [foldl_cons, ih fun d hd => hdsts d (mem_cons_of_mem _ hd)]
    obtain ⟨id, index, mask, rfl⟩ := hdsts dst (mem_cons_self ..)
    rfl

end Written

section Destinations

variable {total : VarId → Option ℕ}

theorem spans_addDst : ∀ dst ∈ addDst perElement total d, Written.Spans total dst := by
  intro dst hdst
  unfold addDst at hdst
  split at hdst
  · split at hdst
    · rename_i h
      rw [mem_singleton.1 hdst]
      exact h.2.2.1.symm
    · obtain ⟨i, -, rfl⟩ := mem_map.1 hdst
      trivial
  · exact absurd hdst not_mem_nil

theorem element_addDst :
    ∀ dst ∈ addDst true total d, ∃ id index mask, dst = .element id index mask := by
  intro dst hdst
  unfold addDst at hdst
  split at hdst
  · rw [if_neg (by simp)] at hdst
    obtain ⟨i, -, rfl⟩ := mem_map.1 hdst
    exact ⟨_, _, _, rfl⟩
  · exact absurd hdst not_mem_nil

theorem unionMasks_elements (id' : VarId) (mask : Mask) (start count : ℕ) (id : VarId) (index : ℕ) :
    unionMasks (((List.range' start count).map fun i => Dst.element id' i mask).filterMap
      (covers id index)) =
        if id' = id ∧ start ≤ index ∧ index < start + count then some mask else none := by
  induction count generalizing start with
  | zero =>
    rw [if_neg fun h => by have := h.2; omega]
    rfl
  | succ count ih =>
    rw [range'_succ, map_cons]
    by_cases hi : (id', start) = (id, index)
    · obtain ⟨rfl, rfl⟩ := Prod.mk.inj hi
      have hx : covers id' start (.element id' start mask) = some mask := if_pos rfl
      rw [filterMap_cons_some hx, unionMasks_cons, ih,
        if_neg fun h => by have := h.2; omega, if_pos ⟨rfl, by omega, by omega⟩]
      rfl
    · have hx : covers id index (.element id' start mask) = none := if_neg hi
      rw [filterMap_cons_none hx, ih]
      refine if_congr ?_ rfl rfl
      have hne : id' = id → start ≠ index := fun hid hstart => hi (by rw [hid, hstart])
      constructor
      · rintro ⟨hid, hlo, hhi⟩
        exact ⟨hid, by omega, by omega⟩
      · rintro ⟨hid, hlo, hhi⟩
        have := hne hid
        exact ⟨hid, by omega, by omega⟩

theorem unionMasks_addDst (id : VarId) (index : ℕ) :
    unionMasks ((addDst perElement total d).filterMap (covers id index)) =
      unionMasks ((addDst true total d).filterMap (covers id index)) := by
  unfold addDst
  cases d.range with
  | none => rfl
  | some range =>
    obtain ⟨start, stop⟩ := range
    dsimp only
    have hnever : ¬((!true) = true ∧ start = 0 ∧ some (stop + 1) = total d.id ∧ 0 < stop) := by
      simp
    split
    · rename_i h
      rw [unionMasks_elements]
      by_cases hcover : d.id = id ∧ index < stop + 1
      · have hx : covers id index (.whole d.id (stop + 1) d.mask) = some d.mask :=
          if_pos hcover
        have hrange : start ≤ index ∧ index < start + (stop + 1 - start) := by
          omega
        rw [filterMap_cons_some hx, if_pos ⟨hcover.1, hrange⟩, filterMap_nil, unionMasks_cons]
        rfl
      · have hx : covers id index (.whole d.id (stop + 1) d.mask) = none := if_neg hcover
        have hrange : ¬(d.id = id ∧ start ≤ index ∧ index < start + (stop + 1 - start)) :=
          fun hin => hcover ⟨hin.1, by have := hin.2; omega⟩
        rw [filterMap_cons_none hx, if_neg hrange]
        rfl
    · rfl

theorem unionMasks_flatMap_addDst (ds : List DstAccess) (id : VarId) (index : ℕ) :
    unionMasks ((ds.flatMap (addDst false total)).filterMap (covers id index)) =
      unionMasks ((ds.flatMap (addDst true total)).filterMap (covers id index)) := by
  induction ds with
  | nil => rfl
  | cons d ds ih =>
    rw [flatMap_cons, flatMap_cons, filterMap_append, filterMap_append,
      unionMasks_append, unionMasks_append, ih, unionMasks_addDst]

theorem Written.Matches.add {wc wp : Written} (h : Matches total wc wp) (ds : List DstAccess) :
    Matches total ((ds.flatMap (addDst false total)).foldl Written.add wc)
      ((ds.flatMap (addDst true total)).foldl Written.add wp) := by
  refine ⟨fun id index => ?_, ?_, ?_⟩
  · rw [get_foldl_add, get_foldl_add, h.get_eq, unionMasks_flatMap_addDst]
  · rw [whole_foldl_add _ fun dst hdst => ?_, h.whole_eq]
    obtain ⟨d, -, hdst⟩ := mem_flatMap.1 hdst
    exact element_addDst d dst hdst
  · refine total_foldl_add _ (fun dst hdst => ?_) h.total_eq
    obtain ⟨d, -, hdst⟩ := mem_flatMap.1 hdst
    exact spans_addDst _ d dst hdst

theorem Written.Matches.absorb {wc wp oc op : Written} (h : Matches total wc wp)
    (ho : Matches total oc op) : Matches total (wc.absorb oc) (wp.absorb op) := by
  refine ⟨fun id index => ?_, ?_, ?_⟩
  · rw [get_absorb, get_absorb, h.get_eq, ho.get_eq]
  · have helements := @whole_foldl_add wp
      (op.elements.map fun x => Dst.element x.1.1 x.1.2 x.2) fun dst hdst => by
        obtain ⟨x, -, rfl⟩ := mem_map.1 hdst
        exact ⟨_, _, _, rfl⟩
    rw [foldl_map] at helements
    rw [Written.absorb, ho.whole_eq]
    exact helements.trans h.whole_eq
  · have helements := @total_foldl_add wc total
      (oc.elements.map fun x => Dst.element x.1.1 x.1.2 x.2) (fun dst hdst => by
        obtain ⟨x, -, rfl⟩ := mem_map.1 hdst
        trivial) h.total_eq
    rw [foldl_map] at helements
    have hwhole := total_foldl_add (oc.whole.map fun x => Dst.whole x.1.1 x.1.2 x.2)
      (fun dst hdst => by
        obtain ⟨x, hx, rfl⟩ := mem_map.1 hdst
        exact ho.total_eq x hx) helements
    rw [foldl_map] at hwhole
    exact hwhole

theorem Written.Matches.empty : Matches total .empty .empty :=
  ⟨fun _ _ => rfl, rfl, fun _ h => absurd h not_mem_nil⟩

theorem exists_addDst (total : VarId → Option ℕ) (perElement : Bool) (d : DstAccess) (id : VarId)
    (index : ℕ) (mask : Mask) :
    (∃ dst ∈ addDst perElement total d, dst.covers id index = some mask) ↔
      ∃ start stop, d.range = some (start, stop) ∧ d.id = id ∧ start ≤ index ∧ index ≤ stop ∧
        d.mask = mask := by
  unfold addDst
  cases d.range with
  | none => simp
  | some range =>
    obtain ⟨start, stop⟩ := range
    dsimp only
    split
    · rename_i h
      simp only [mem_singleton, exists_eq_left, covers, Option.some.injEq, Prod.mk.injEq,
        Option.ite_none_right_eq_some]
      constructor
      · rintro ⟨⟨hid, hlt⟩, hmask⟩
        exact ⟨0, stop, ⟨h.2.1, rfl⟩, hid, Nat.zero_le _, Nat.lt_succ_iff.1 hlt, hmask⟩
      · rintro ⟨lo, hi, ⟨-, hstop⟩, hid, -, hle, hmask⟩
        exact ⟨⟨hid, by omega⟩, hmask⟩
    · simp only [mem_map, mem_range'_1, Option.some.injEq, Prod.mk.injEq]
      constructor
      · rintro ⟨dst, ⟨i, hi, rfl⟩, hcovers⟩
        simp only [covers, Prod.mk.injEq, Option.ite_none_right_eq_some,
          Option.some.injEq] at hcovers
        obtain ⟨⟨hid, rfl⟩, hmask⟩ := hcovers
        exact ⟨start, stop, ⟨rfl, rfl⟩, hid, hi.1, by omega, hmask⟩
      · rintro ⟨lo, hi, ⟨hstart, hstop⟩, hid, hlo, hhi, hmask⟩
        refine ⟨_, ⟨index, ⟨by omega, by omega⟩, rfl⟩, ?_⟩
        simp [covers, hid, hmask]

end Destinations

namespace UnsafeSelfReads

variable {u : UnsafeSelfReads}

theorem joinRanges_spec (range : Range) (xs : List Range) (i : ℕ) :
    ((joinRanges range xs).1.Contains i ∨ ∃ k ∈ (joinRanges range xs).2, k.Contains i) ↔
      range.Contains i ∨ ∃ k ∈ xs, k.Contains i := by
  induction xs generalizing range with
  | nil => simp [joinRanges]
  | cons other rest ih =>
    rw [joinRanges]
    split
    · rename_i htouch
      rw [ih]
      simp only [mem_cons, exists_eq_or_imp, ← or_assoc]
      refine or_congr_left ?_
      unfold Range.Contains
      dsimp only
      omega
    · simp only [mem_cons, exists_eq_or_imp]
      rw [or_left_comm, ih, or_left_comm]

theorem contains_insert (decl : ℕ) (id : VarId) (index : ℕ) (decl' : ℕ) (id' : VarId) (index' : ℕ) :
    (u.insert decl id index).contains decl' id' index' ↔
      u.contains decl' id' index' ∨ (decl' = decl ∧ id' = id ∧ index' = index) := by
  unfold contains insert
  by_cases hdecl : decl' = decl
  · subst hdecl
    by_cases hid : id' = id
    · subst hid
      simp only [update_self, contains_cons, Bool.or_eq_true, beq_iff_eq]
      tauto
    · simp [hid]
  · simp [hdecl]

theorem contains_insertRange (decl : ℕ) (id : VarId) (range : Range) (decl' : ℕ) (id' : VarId)
    (index : ℕ) :
    (u.insertRange decl id range).contains decl' id' index ↔
      u.contains decl' id' index ∨ (decl' = decl ∧ id' = id ∧ range.Contains index) := by
  unfold insertRange
  split
  · rename_i hempty
    have hnot : ¬range.Contains index := fun h => by
      unfold Range.Contains at h
      omega
    simp [hnot]
  · unfold contains
    by_cases hdecl : decl' = decl
    · subst hdecl
      by_cases hid : id' = id
      · subst hid
        have hjoin := joinRanges_spec range (u.ranges decl' id') index
        simp only [update_self, any_append, any_cons, any_nil,
          Bool.or_false, Bool.or_eq_true, any_eq_true, decide_eq_true_eq, true_and]
        rw [or_comm (a := ∃ x ∈ _, _), hjoin, or_comm (a := range.Contains index), or_right_comm]
      · simp [hid]
    · simp [hdecl]

end UnsafeSelfReads

/-- The indices of a variable are those of its entries. -/
def Indexed (t : FfTable) : Prop := ∀ id i, i ∈ t.indices id ↔ t.table id i ≠ none

theorem Indexed.modifyEntry (h : Indexed t) (id : VarId) (index : ℕ)
    (f : FfTableEntry → FfTableEntry) : Indexed (t.modifyEntry id index f) := by
  intro id' i
  unfold FfTable.modifyEntry
  cases he : t.table id index with
  | some e =>
    by_cases hid : id' = id
    · subst hid
      by_cases hi : i = index
      · subst hi
        simp [h id' i, he]
      · simp [h id' i, hi]
    · simp [h id' i, hid]
  | none =>
    by_cases hid : id' = id
    · subst hid
      by_cases hi : i = index
      · subst hi
        simp
      · simp [h id' i, hi]
    · simp [h id' i, hid]

theorem Indexed.modifyWhole (h : Indexed t) (id : VarId) (len : ℕ)
    (f : Writers → Writers) : Indexed (t.modifyWhole id len f) := by
  intro id' i
  unfold FfTable.modifyWhole
  dsimp only
  by_cases hid : id' = id
  · subst hid
    rw [update_self]
    refine (h id' i).trans ?_
    split <;> simp
  · rw [update_of_ne hid]
    exact h id' i

theorem Indexed.foldl {α : Type*} {f : FfTable → α → FfTable}
    (hf : ∀ t x, Indexed t → Indexed (f t x))
    (xs : List α) (h : Indexed t) : Indexed (xs.foldl f t) := by
  induction xs generalizing t with
  | nil => exact h
  | cons x xs ih => exact ih (hf t x h)

theorem Indexed.insert {t : FfTable} (h : Indexed t) (a : Access) : Indexed (t.insert a) := by
  have hrange : ∀ id range r, Indexed (t.insertReferedRange id range r) := by
    intro id range r
    unfold FfTable.insertReferedRange
    split
    · exact Indexed.foldl (fun t i ht => ht.modifyEntry _ _ _) _ h
    · split
      · exact h
      · exact h
  cases a with
  | refered id index r => exact h.modifyEntry _ _ _
  | referedRange id range r => exact hrange id range r
  | referedWhole id totalArray r => exact hrange id _ r
  | assigned id index decl => exact h.modifyEntry _ _ _
  | assignedComb id index decl => exact h.modifyEntry _ _ _
  | assignedWhole id totalArray decl =>
    unfold FfTable.insert FfTable.insertAssignedWhole
    dsimp only
    split
    · exact h.modifyWhole _ _ _
    · exact Indexed.foldl (fun t i ht => ht.modifyEntry _ _ _) _ h
  | assignedCombWhole id totalArray decl =>
    unfold FfTable.insert FfTable.insertAssignedCombWhole
    dsimp only
    split
    · exact h.modifyWhole _ _ _
    · exact Indexed.foldl (fun t i ht => ht.modifyEntry _ _ _) _ h

theorem indexed_gather (accesses : List Access) : Indexed (gather perElement accesses) :=
  Indexed.foldl (fun _ a ht => ht.insert a) accesses fun _ _ => by simp [FfTable.new]

section Check

variable {total : VarId → Option ℕ} {decl : ℕ} {reads : Option FfTable} {u : UnsafeSelfReads}
  {w : Written} {id : VarId} {index : ℕ} {mask : Mask}

theorem readMask_single (r : Refered) : readMask [r] = some r.read := by
  unfold readMask Refered.read
  simp

/-- What a statement reads at an element, each reference by itself. -/
def Reads (reads : Option FfTable) (mask : Mask) (id : VarId) (index : ℕ) (read : Mask) : Prop :=
  match reads with
  | some reads => ∃ r ∈ reads.refered id index, r.read = read
  | none => read = mask

theorem hit_iff : hit reads mask id index w = true ↔ ∃ prior, w.get id index = some prior ∧
      ∃ read, Reads reads mask id index read ∧ overlaps read prior = true := by
  unfold hit Reads
  cases hget : w.get id index with
  | none => cases reads <;> simp
  | some prior =>
    cases reads with
    | none => simp
    | some reads =>
      have h := readMask_overlaps (reads.refered id index) prior
      simp only [Option.some.injEq, exists_eq_left', ↓existsAndEq, and_true]
      rw [← h]
      cases readMask (reads.refered id index) <;> simp

theorem hit_congr {w' : Written} (h : w.get id index = w'.get id index) :
    hit reads mask id index w = hit reads mask id index w' := by
  unfold hit
  rw [h]

variable {read : Mask}

theorem overlaps_joinMask_right {prior : Mask} {a b : Option Mask} (hb : b = some prior)
    (h : overlaps read prior = true) :
    ∃ all, joinMask a b = some all ∧ overlaps read all = true := by
  subst hb
  cases a with
  | none => exact ⟨prior, rfl, h⟩
  | some a => exact ⟨_, rfl, by rw [overlaps_merge_right, h, Bool.or_true]⟩

theorem get_eq_getWhole (hw : ∀ x ∈ w.whole, total x.1.1 = some x.1.2) {len : ℕ}
    (hlen : total id = some len) (hindex : index < len) : w.get id index =
      joinMask (unionMasks ((w.elements.filter fun x => x.1 = (id, index)).map Prod.snd))
        (w.getWhole id) := by
  rw [Written.get_eq, Written.getWhole]
  refine congrArg (fun xs => joinMask _ (unionMasks (List.map Prod.snd xs))) ?_
  refine filter_congr fun x hx => ?_
  have htotal := hw x hx
  rw [decide_eq_decide]
  constructor
  · exact And.left
  · intro hid
    rw [hid, hlen, Option.some.injEq] at htotal
    exact ⟨hid, htotal ▸ hindex⟩

theorem elements_nil (h : index ∉ w.indices id) :
    (w.elements.filter fun x => x.1 = (id, index)) = [] := by
  rw [filter_eq_nil_iff]
  intro x hx heq
  rw [decide_eq_true_eq] at heq
  refine h (mem_map.2 ⟨x, mem_filter.2 ⟨hx, ?_⟩, congrArg Prod.snd heq⟩)
  rw [decide_eq_true_eq]
  exact congrArg Prod.fst heq

theorem contains_foldl_insert (P : ℕ → Prop) [DecidablePred P] (xs : List ℕ)
    (u : UnsafeSelfReads) (decl' : ℕ) (id' : VarId) (index' : ℕ) :
    (xs.foldl (fun u i => if P i then u.insert decl id i else u) u).contains decl' id' index' ↔
      u.contains decl' id' index' ∨ (decl' = decl ∧ id' = id ∧ index' ∈ xs ∧ P index') := by
  induction xs generalizing u with
  | nil => simp
  | cons i xs ih =>
    rw [foldl_cons, ih]
    by_cases hP : P i
    · rw [if_pos hP, UnsafeSelfReads.contains_insert, or_assoc]
      refine or_congr_right ?_
      constructor
      · rintro (⟨hdecl, hid, rfl⟩ | ⟨hdecl, hid, hmem, h⟩)
        · exact ⟨hdecl, hid, mem_cons_self .., hP⟩
        · exact ⟨hdecl, hid, mem_cons_of_mem _ hmem, h⟩
      · rintro ⟨hdecl, hid, hmem, h⟩
        obtain rfl | hmem := mem_cons.1 hmem
        · exact .inl ⟨hdecl, hid, rfl⟩
        · exact .inr ⟨hdecl, hid, hmem, h⟩
    · rw [if_neg hP]
      refine or_congr_right ?_
      constructor
      · rintro ⟨hdecl, hid, hmem, h⟩
        exact ⟨hdecl, hid, mem_cons_of_mem _ hmem, h⟩
      · rintro ⟨hdecl, hid, hmem, h⟩
        obtain rfl | hmem := mem_cons.1 hmem
        · exact absurd h hP
        · exact ⟨hdecl, hid, hmem, h⟩

theorem contains_foldl_insertRange (P : Range × Refered → Bool) (len : ℕ)
    (xs : List (Range × Refered)) (u : UnsafeSelfReads) (decl' : ℕ) (id' : VarId) (index' : ℕ) :
    (xs.foldl (fun u x => if P x then u.insertRange decl id ⟨x.1.start, min x.1.stop len⟩ else u)
        u).contains decl' id' index' ↔
      u.contains decl' id' index' ∨ (decl' = decl ∧ id' = id ∧ index' < len ∧
        ∃ x ∈ xs, x.1.Contains index' ∧ P x = true) := by
  induction xs generalizing u with
  | nil => simp
  | cons x xs ih =>
    rw [foldl_cons, ih]
    by_cases hP : P x = true
    · rw [if_pos hP, UnsafeSelfReads.contains_insertRange, or_assoc]
      have hin : (⟨x.1.start, min x.1.stop len⟩ : Range).Contains index' ↔
          index' < len ∧ x.1.Contains index' := by
        unfold Range.Contains
        dsimp only
        omega
      simp only [hin, mem_cons, exists_eq_or_imp, hP, and_true]
      tauto
    · rw [if_neg hP]
      simp [hP]

/-- What a statement reads at an element through unevaluated indices alone. -/
def RangeReads (reads : Option FfTable) (mask : Mask) (id : VarId) (index : ℕ) (read : Mask) :
    Prop :=
  match reads with
  | some reads => ∃ x ∈ reads.rangeRefered id, x.1.Contains index ∧ x.2.read = read
  | none => read = mask

/-- The first half of the check of a whole array. -/
def checkWhole (decl : ℕ) (reads : Option FfTable) (w : Written) (u : UnsafeSelfReads) (id : VarId)
    (len : ℕ) (mask : Mask) : UnsafeSelfReads :=
  match w.getWhole id with
  | some prior =>
    match reads with
    | some reads =>
      (reads.rangeRefered id).foldl (fun u x =>
        if overlaps x.2.read prior then u.insertRange decl id ⟨x.1.start, min x.1.stop len⟩
        else u) u
    | none => if overlaps mask prior then u.insertWhole decl id len else u
  | none => u

theorem check_whole (len : ℕ) : check decl reads w u (.whole id len mask) =
    ((reads.elim [] fun reads => reads.indices id) ++ w.indices id).foldl (fun u i =>
      if i < len ∧ hit reads mask id i w then u.insert decl id i else u)
      (checkWhole decl reads w u id len mask) := by
  rw [check, checkWhole]
  cases w.getWhole id with
  | none => rfl
  | some prior =>
    cases reads with
    | none => rfl
    | some reads =>
      simp only [readMask_single]

theorem contains_checkWhole (len : ℕ) (decl' : ℕ) (id' : VarId) (index' : ℕ) :
    (checkWhole decl reads w u id len mask).contains decl' id' index' ↔
      u.contains decl' id' index' ∨ (decl' = decl ∧ id' = id ∧ index' < len ∧
        ∃ prior, w.getWhole id = some prior ∧
          ∃ read, RangeReads reads mask id index' read ∧ overlaps read prior = true) := by
  unfold checkWhole RangeReads
  cases w.getWhole id with
  | none => simp
  | some prior =>
    cases reads with
    | none =>
      simp only [Option.some.injEq, exists_eq_left', exists_eq_left]
      by_cases hoverlap : overlaps mask prior = true
      · have hin : (⟨0, len⟩ : Range).Contains index' ↔ index' < len :=
          ⟨And.right, fun h => ⟨Nat.zero_le _, h⟩⟩
        rw [if_pos hoverlap, UnsafeSelfReads.insertWhole, UnsafeSelfReads.contains_insertRange, hin]
        simp [hoverlap]
      · simp [hoverlap]
    | some reads =>
      rw [contains_foldl_insertRange (fun x => overlaps x.2.read prior) len]
      refine or_congr_right (and_congr_right fun _ => and_congr_right fun _ =>
        and_congr_right fun _ => ?_)
      simp only [Option.some.injEq, exists_eq_left']
      constructor
      · rintro ⟨x, hx, hin, h⟩
        exact ⟨_, ⟨x, hx, hin, rfl⟩, h⟩
      · rintro ⟨read, ⟨x, hx, hin, rfl⟩, h⟩
        exact ⟨x, hx, hin, h⟩

theorem reads_of_rangeReads (h : RangeReads reads mask id index read) :
    Reads reads mask id index read := by
  cases reads with
  | none => exact h
  | some t =>
    obtain ⟨x, hx, hin, hread⟩ := h
    refine ⟨x.2, mem_append_right _ ?_, hread⟩
    exact mem_map.2 ⟨x, mem_filter.2 ⟨hx, by simpa using hin⟩, rfl⟩

theorem rangeReads_of_reads (hreads : ∀ t, reads = some t → Indexed t)
    (hindex : index ∉ reads.elim [] fun reads => reads.indices id)
    (h : Reads reads mask id index read) : RangeReads reads mask id index read := by
  cases reads with
  | none => exact h
  | some t =>
    obtain ⟨r, hr, hread⟩ := h
    have hentry : t.table id index = none := by
      by_contra hne
      exact hindex ((hreads t rfl id index).2 hne)
    rw [FfTable.refered, hentry] at hr
    obtain ⟨x, hx, rfl⟩ := mem_map.1 hr
    obtain ⟨hx, hin⟩ := mem_filter.1 hx
    exact ⟨x, hx, by simpa using hin, hread⟩

theorem contains_check (hw : ∀ x ∈ w.whole, total x.1.1 = some x.1.2)
    (hreads : ∀ t, reads = some t → Indexed t) (dst : Dst) (hdst : Written.Spans total dst)
    (decl' : ℕ) (id' : VarId) (index' : ℕ) :
    (check decl reads w u dst).contains decl' id' index' ↔
      u.contains decl' id' index' ∨ (decl' = decl ∧
        ∃ mask, dst.covers id' index' = some mask ∧ hit reads mask id' index' w = true) := by
  cases dst with
  | element id index mask =>
    rw [check]
    simp only [covers, Prod.mk.injEq, Option.ite_none_right_eq_some, Option.some.injEq]
    by_cases hhit : hit reads mask id index w = true
    · rw [if_pos hhit, UnsafeSelfReads.contains_insert]
      refine or_congr_right (and_congr_right fun _ => ?_)
      constructor
      · rintro ⟨rfl, rfl⟩
        exact ⟨mask, ⟨⟨rfl, rfl⟩, rfl⟩, hhit⟩
      · rintro ⟨-, ⟨⟨hid, hindex⟩, -⟩, -⟩
        exact ⟨hid.symm, hindex.symm⟩
    · rw [if_neg hhit]
      refine ⟨.inl, ?_⟩
      rintro (h | ⟨-, mask', ⟨⟨rfl, rfl⟩, rfl⟩, h⟩)
      · exact h
      · exact absurd h hhit
  | whole id len mask =>
    rw [check_whole, contains_foldl_insert, contains_checkWhole, or_assoc, ← and_or_left]
    refine or_congr_right (and_congr_right fun _ => ?_)
    simp only [covers, Option.ite_none_right_eq_some, Option.some.injEq]
    constructor
    · rintro (⟨rfl, hlt, prior, hprior, read, hread, h⟩ | ⟨rfl, -, hlt, hhit⟩)
      · obtain ⟨all, hall, h⟩ := overlaps_joinMask_right hprior h
        refine ⟨mask, ⟨⟨rfl, hlt⟩, rfl⟩, hit_iff.2 ⟨all, ?_, read, reads_of_rangeReads hread, h⟩⟩
        rw [get_eq_getWhole hw hdst hlt, hall]
      · exact ⟨mask, ⟨⟨rfl, hlt⟩, rfl⟩, hhit⟩
    · rintro ⟨_, ⟨⟨rfl, hlt⟩, rfl⟩, hhit⟩
      by_cases hnamed : index' ∈ (reads.elim [] fun reads => reads.indices id) ++ w.indices id
      · exact .inr ⟨rfl, hnamed, hlt, hhit⟩
      · rw [mem_append, not_or] at hnamed
        obtain ⟨prior, hprior, read, hread, h⟩ := hit_iff.1 hhit
        rw [get_eq_getWhole hw hdst hlt, elements_nil hnamed.2] at hprior
        exact .inl ⟨rfl, hlt, prior, hprior, read, rangeReads_of_reads hreads hnamed.1 hread, h⟩

end Check

end Veryl.Analyzer.Registers
