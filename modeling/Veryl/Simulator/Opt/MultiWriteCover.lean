import Veryl.Simulator.Opt.MultiWriteAnalysis

/-!
The counts of a block against the writes of a run. Up to two writes at each element are covered,
together with the runtime indices of its array, and every write of a repeated loop as two.
-/

namespace Veryl.Simulator.MultiWrite

open List Option
open Counts (addAll at' mergeBranchesMax)

open Veryl.Analyzer.AssignTables (VarId)

variable {y : ℕ} {m : Counts}

variable {x : ℕ} {inFor : Bool} {sub : Counts}

section Covering

variable {ι ρ : Type} (ctx : AnalyzerContext ι ρ)

/-- The writes of a run with a key. -/
def hits (w : List (AssignDestination ι)) (id : VarId) (key : ElementKey) : ℕ :=
  w.countP fun dst => dst.id == id && elementKey ctx dst == some key

@[simp] theorem hits_nil (id : VarId) (key : ElementKey) : hits ctx [] id key = 0 := rfl

@[simp] theorem hits_append (w w' : List (AssignDestination ι)) (id : VarId) (key : ElementKey) :
    hits ctx (w ++ w') id key = hits ctx w id key + hits ctx w' id key :=
  countP_append

/-- What a count must reach for a number of writes: two are enough, and in a repeated loop
every write is two. -/
def need (inFor : Bool) (n : ℕ) : ℕ := if inFor then (if n = 0 then 0 else 2) else min 2 n

@[simp] theorem need_zero (inFor : Bool) : need inFor 0 = 0 := by cases inFor <;> rfl

theorem need_add_le (inFor : Bool) (x y : ℕ) :
    need inFor (x + y) ≤ need inFor x + need inFor y := by
  cases inFor <;> simp only [need] <;> split_ifs <;> omega

theorem need_le_true (inFor : Bool) (n : ℕ) : need inFor n ≤ need true n := by
  cases inFor <;> simp only [need] <;> split_ifs <;> omega

/-- In a repeated loop the same count covers the writes of another iteration. -/
theorem need_true_add {m : ℕ} (hx : need true x ≤ m) (hy : need true y ≤ m) :
    need true (x + y) ≤ m := by
  simp only [need] at *
  split_ifs at * <;> omega

/-- The counts of a block cover a run of it. -/
structure Covers (inFor : Bool) (m : Counts) (w : List (AssignDestination ι)) : Prop where
  dynamic : ∀ id, need inFor (hits ctx w id .dynamic) ≤ m.at' (id, .dynamic)
  element : ∀ id (e : ℕ), need inFor (hits ctx w id (some e) + hits ctx w id .dynamic) ≤
    m.at' (id, some e) + m.at' (id, .dynamic)
  present : ∀ id (e : ℕ), 0 < hits ctx w id (some e) → (m (id, some e)).isSome

variable {ctx}

theorem Covers.nil (inFor : Bool) (m : Counts) : Covers ctx inFor m [] where
  dynamic id := by simp
  element id e := by simp
  present id e h := by simp at h

theorem at_addAll (m sub : Counts) (k : VarId × ElementKey) :
    (m.addAll sub).at' k = m.at' k + sub.at' k := by
  simp only [at', addAll]
  cases h : sub k <;> simp

theorem isSome_addAll (m sub : Counts) (k : VarId × ElementKey) :
    (m.addAll sub k).isSome = ((m k).isSome || (sub k).isSome) := by
  simp only [addAll]
  cases h : sub k <;> simp

variable {w : List (AssignDestination ι)}

variable {w' : List (AssignDestination ι)}

/-- Two blocks in a row. -/
theorem Covers.append (h : Covers ctx inFor m w) (h' : Covers ctx inFor sub w') :
    Covers ctx inFor (m.addAll sub) (w ++ w') where
  dynamic id := by
    rw [at_addAll, hits_append]
    exact (need_add_le _ _ _).trans (Nat.add_le_add (h.dynamic id) (h'.dynamic id))
  element id e := by
    rw [at_addAll, at_addAll, hits_append, hits_append]
    have hm := h.element id e
    have hsub := h'.element id e
    have hsplit := need_add_le inFor (hits ctx w id (some e) + hits ctx w id .dynamic)
      (hits ctx w' id (some e) + hits ctx w' id .dynamic)
    rw [show hits ctx w id (some e) + hits ctx w' id (some e) +
        (hits ctx w id .dynamic + hits ctx w' id .dynamic) =
        hits ctx w id (some e) + hits ctx w id .dynamic +
          (hits ctx w' id (some e) + hits ctx w' id .dynamic) by omega]
    omega
  present id e hpos := by
    rw [hits_append] at hpos
    rw [isSome_addAll, Bool.or_eq_true]
    rcases Nat.eq_zero_or_pos (hits ctx w id (some e)) with hzero | hw
    · exact .inr (h'.present id e (by omega))
    · exact .inl (h.present id e hw)

theorem Covers.mono {m' : Counts} (h : Covers ctx inFor m w)
    (hdyn : ∀ id, m.at' (id, .dynamic) ≤ m'.at' (id, .dynamic))
    (helem : ∀ id (e : ℕ), m.at' (id, some e) + m.at' (id, .dynamic) ≤
      m'.at' (id, some e) + m'.at' (id, .dynamic))
    (hsome : ∀ k, (m k).isSome → (m' k).isSome) : Covers ctx inFor m' w where
  dynamic id := (h.dynamic id).trans (hdyn id)
  element id e := (h.element id e).trans (helem id e)
  present id e hpos := hsome _ (h.present id e hpos)

theorem Covers.addAll_left (h : Covers ctx inFor m w) : Covers ctx inFor (m.addAll sub) w := by
  simpa using h.append (Covers.nil inFor sub)

theorem Covers.addAll_right (h : Covers ctx inFor sub w) : Covers ctx inFor (m.addAll sub) w := by
  simpa using (Covers.nil inFor m).append h

theorem Covers.of_true (h : Covers ctx true m w) : Covers ctx inFor m w where
  dynamic id := (need_le_true _ _).trans (h.dynamic id)
  element id e := (need_le_true _ _).trans (h.element id e)
  present := h.present

theorem Covers.again {m : Counts} (h : Covers ctx true m w)
    (h' : Covers ctx true m w') : Covers ctx true m (w ++ w') where
  dynamic id := by
    rw [hits_append]
    exact need_true_add (h.dynamic id) (h'.dynamic id)
  element id e := by
    rw [hits_append, hits_append, show hits ctx w id (some e) + hits ctx w' id (some e) +
        (hits ctx w id .dynamic + hits ctx w' id .dynamic) =
        hits ctx w id (some e) + hits ctx w id .dynamic +
          (hits ctx w' id (some e) + hits ctx w' id .dynamic) by omega]
    exact need_true_add (h.element id e) (h'.element id e)
  present id e hpos := by
    rw [hits_append] at hpos
    rcases Nat.eq_zero_or_pos (hits ctx w id (some e)) with hzero | hw
    · exact h'.present id e (by omega)
    · exact h.present id e hw

theorem at_addEntry (m : Counts) (k j : VarId × ElementKey) (n : ℕ) :
    (m.addEntry k n).at' j = m.at' j + if j = k then n else 0 := by
  by_cases h : j = k
  · subst h
    simp [Counts.addEntry, at']
  · simp [Counts.addEntry, at', h]

theorem isSome_addEntry (m : Counts) (k j : VarId × ElementKey) (n : ℕ) :
    (m.addEntry k n j).isSome = ((m j).isSome || decide (j = k)) := by
  by_cases h : j = k
  · subst h
    simp [Counts.addEntry]
  · simp [Counts.addEntry, h]

/-- One more write of a key, when the condition says that it is this key. -/
theorem need_succ_le {m : ℕ} (h : need inFor x ≤ m) (c : Prop) [Decidable c] :
    need inFor (x + if c then 1 else 0) ≤ m + if c then (if inFor then 2 else 1) else 0 := by
  have hsplit := need_add_le inFor x 1
  have hone : need inFor 1 = if inFor then 2 else 1 := by cases inFor <;> rfl
  by_cases hc : c
  · rw [if_pos hc, if_pos hc]
    omega
  · rwa [if_neg hc, if_neg hc]

variable {dst : AssignDestination ι}

theorem hits_single {key : ElementKey}
    (h : elementKey ctx dst = some key) (id : VarId) (key' : ElementKey) :
    hits ctx [dst] id key' = if (id, key') = (dst.id, key) then 1 else 0 := by
  have hfound : (dst.id == id && elementKey ctx dst == some key') =
      decide ((id, key') = (dst.id, key)) := by
    rw [h, Bool.eq_iff_iff]
    simp only [Bool.and_eq_true, beq_iff_eq, decide_eq_true_eq, some.injEq, Prod.mk.injEq]
    exact and_congr eq_comm eq_comm
  rw [hits, countP_singleton, hfound]
  by_cases hk : (id, key') = (dst.id, key) <;> simp [hk]

theorem hits_untracked (h : elementKey ctx dst = none) (id : VarId)
    (key : ElementKey) : hits ctx [dst] id key = 0 := by
  simp [hits, h]

theorem covers_addDstWrite (h : Covers ctx inFor m w) (dst : AssignDestination ι) :
    Covers ctx inFor (addDstWrite ctx inFor m dst) (w ++ [dst]) := by
  cases hkey : elementKey ctx dst with
  | none =>
    have hsame : addDstWrite ctx inFor m dst = m := by simp [addDstWrite, hkey]
    have hhits : ∀ id key, hits ctx (w ++ [dst]) id key = hits ctx w id key := by
      intro id key
      rw [hits_append, hits_untracked hkey, Nat.add_zero]
    rw [hsame]
    exact ⟨fun id => by simpa only [hhits] using h.dynamic id,
      fun id e => by simpa only [hhits] using h.element id e,
      fun id e hpos => h.present id e (by rwa [hhits] at hpos)⟩
  | some key =>
    have hstep : addDstWrite ctx inFor m dst =
        m.addEntry (dst.id, key) (if inFor then 2 else 1) := by simp [addDstWrite, hkey]
    rw [hstep]
    constructor
    · intro id
      rw [at_addEntry, hits_append, hits_single hkey]
      exact need_succ_le (h.dynamic id) _
    · intro id e
      rw [at_addEntry, at_addEntry, hits_append, hits_append, hits_single hkey, hits_single hkey]
      have htwice := need_succ_le (need_succ_le (h.element id e)
        ((id, (some e : ElementKey)) = (dst.id, key)))
        ((id, ElementKey.dynamic) = (dst.id, key))
      rw [Nat.add_add_add_comm, ← Nat.add_assoc, Nat.add_add_add_comm (m.at' (id, some e)),
        ← Nat.add_assoc (m.at' (id, some e) + _)]
      exact htwice
    · intro id e hpos
      rw [isSome_addEntry, Bool.or_eq_true, decide_eq_true_eq]
      rw [hits_append, hits_single hkey] at hpos
      by_cases hid : (id, (some e : ElementKey)) = (dst.id, key)
      · exact .inr hid
      · rw [if_neg hid, Nat.add_zero] at hpos
        exact .inl (h.present id e hpos)

theorem covers_foldl_addDstWrite (dsts : List (AssignDestination ι)) (h : Covers ctx inFor m w) :
    Covers ctx inFor (dsts.foldl (addDstWrite ctx inFor) m) (w ++ dsts) := by
  induction dsts generalizing m w with
  | nil => simpa using h
  | cons dst rest ih =>
    have hrest := ih (covers_addDstWrite h dst)
    rwa [append_assoc] at hrest

variable (ctx) in
theorem covers_dsts (inFor : Bool) (dsts : List (AssignDestination ι)) :
    Covers ctx inFor (dsts.foldl (addDstWrite ctx inFor) .empty) dsts :=
  covers_foldl_addDstWrite dsts (Covers.nil inFor .empty)

theorem at_merge_dynamic (a b : Counts) (id : VarId) : (a.mergeBranchesMax b).at' (id, .dynamic) =
      max (a.at' (id, .dynamic)) (b.at' (id, .dynamic)) := by
  by_cases h : ((a (id, .dynamic)).isNone && (b (id, .dynamic)).isNone) = true
  · have hnone := h
    rw [Bool.and_eq_true, isNone_iff_eq_none, isNone_iff_eq_none] at hnone
    simp [mergeBranchesMax, at', hnone.1, hnone.2]
  · simp [mergeBranchesMax, at', h]

theorem at_merge_element (a b : Counts) (id : VarId) (e : ℕ) :
    (a.mergeBranchesMax b).at' (id, some e) + (a.mergeBranchesMax b).at' (id, .dynamic) =
      max (a.at' (id, some e) + a.at' (id, .dynamic))
        (b.at' (id, some e) + b.at' (id, .dynamic)) := by
  rw [at_merge_dynamic]
  have hcase : (a.mergeBranchesMax b).at' (id, some e) =
      max (a.at' (id, some e) + a.at' (id, .dynamic)) (b.at' (id, some e) + b.at' (id, .dynamic)) -
        max (a.at' (id, .dynamic)) (b.at' (id, .dynamic)) := by
    by_cases h : ((a (id, some e)).isNone && (b (id, some e)).isNone) = true
    · have hnone := h
      rw [Bool.and_eq_true, isNone_iff_eq_none, isNone_iff_eq_none] at hnone
      simp [mergeBranchesMax, at', hnone.1, hnone.2]
    · simp [mergeBranchesMax, at', h]
  omega

theorem isSome_merge (a b : Counts) (k : VarId × ElementKey) :
    (a.mergeBranchesMax b k).isSome = ((a k).isSome || (b k).isSome) := by
  obtain ⟨id, key⟩ := k
  unfold mergeBranchesMax
  cases ha : a (id, key) <;> cases hb : b (id, key) <;> cases key <;> simp

theorem Covers.merge_left {a : Counts}
    (h : Covers ctx inFor a w) (b : Counts) : Covers ctx inFor (a.mergeBranchesMax b) w := by
  refine h.mono (fun id => ?_) (fun id e => ?_) (fun k hk => ?_)
  · rw [at_merge_dynamic]
    exact le_max_left _ _
  · rw [at_merge_element]
    exact le_max_left _ _
  · rw [isSome_merge, hk, Bool.true_or]

theorem Covers.merge_right {b : Counts}
    (h : Covers ctx inFor b w) (a : Counts) : Covers ctx inFor (a.mergeBranchesMax b) w := by
  refine h.mono (fun id => ?_) (fun id e => ?_) (fun k hk => ?_)
  · rw [at_merge_dynamic]
    exact le_max_right _ _
  · rw [at_merge_element]
    exact le_max_right _ _
  · rw [isSome_merge, hk, Bool.or_true]

end Covering

end Veryl.Simulator.MultiWrite
