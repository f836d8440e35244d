import Veryl.Analyzer.CombLoopDetect.SsaStore

/-!
A rollback gives back the bindings of its checkpoint and captures exactly what differs from
them, in every nesting of branches, and a merged key stands for its versions in the branches.
-/

namespace Veryl.Analyzer.CombLoopDetect.Ssa

open Veryl.Library List Option Function

variable {K : Type} {σ : Session K} {o : Checkpoint × (K → Option VersionId)} {s t : SsaStore K}
  {version : VersionId} {n : ℕ} {σ' : Session K} {u : SsaStore K}

/-- The second store has all versions and entries of the first. -/
structure SsaStore.Keeps (s t : SsaStore K) : Prop where
  versions : s.versions <+: t.versions
  entries : ∀ key version, s.entries key = some version → t.entries key = some version

/-- The second store only has more versions and entries. -/
structure SsaStore.Grows (s t : SsaStore K) : Prop extends Keeps s t where
  current : t.current = s.current
  undo : t.undo = s.undo
  checkpoints : t.checkpoints = s.checkpoints

/-- Entry versions are what they are recorded as. -/
def SsaStore.Entries (s : SsaStore K) : Prop :=
  ∀ key version, s.entries key = some version → s.versions[version]? = some (.entry key)

/-- The version stands for the set: it is the only one, or the list of all of them. -/
def SsaStore.Joins (s : SsaStore K) (version : VersionId) (sources : Set VersionId) : Prop :=
  sources = {version} ∨ ∃ inputs, s.versions[version]? = some (.phi inputs) ∧
    inputs.Pairwise (· < ·) ∧ sources = {v | v ∈ inputs}

namespace SsaStore

section Versions

theorem getElem?_of_isPrefix {α : Type} {l l' : List α} (h : l <+: l') {x : α}
    (hx : l[n]? = some x) : l'[n]? = some x := by
  obtain ⟨rest, rfl⟩ := h
  rwa [getElem?_append_left (List.getElem?_eq_some_iff.1 hx).1]

theorem Joins.of_isPrefix {sources : Set VersionId}
    (h : s.Joins version sources) (hlonger : s.versions <+: t.versions) :
    t.Joins version sources := by
  rcases h with h | ⟨inputs, hversion, hsorted, hsources⟩
  · exact .inl h
  · exact .inr ⟨inputs, getElem?_of_isPrefix hlonger hversion, hsorted, hsources⟩

theorem Keeps.refl (s : SsaStore K) : Keeps s s := ⟨prefix_rfl, fun _ _ h => h⟩

theorem Keeps.trans (h : Keeps s t) (h' : Keeps t u) : Keeps s u :=
  ⟨h.versions.trans h'.versions, fun key version hkey =>
    h'.entries key version (h.entries key version hkey)⟩

theorem Grows.refl (s : SsaStore K) : s.Grows s := ⟨.refl s, rfl, rfl, rfl⟩

theorem Grows.trans (h : s.Grows t) (h' : t.Grows u) : s.Grows u :=
  ⟨h.toKeeps.trans h'.toKeeps, h'.current.trans h.current, h'.undo.trans h.undo,
    h'.checkpoints.trans h.checkpoints⟩

theorem grows_pushVersion (s : SsaStore K) (version : Version K) :
    s.Grows (s.pushVersion version) :=
  ⟨⟨prefix_append _ _, fun _ _ h => h⟩, rfl, rfl, rfl⟩

theorem Entries.of_isPrefix (h : s.Entries)
    (hlonger : s.versions <+: t.versions) (hentries : t.entries = s.entries) : t.Entries := by
  intro key version hkey
  rw [hentries] at hkey
  exact getElem?_of_isPrefix hlonger (h key version hkey)

theorem grows_phi (s : SsaStore K) (inputs : List VersionId) : s.Grows (s.phi inputs).2 := by
  rw [phi]
  split
  · exact .refl s
  · exact s.grows_pushVersion _

theorem Entries.phi (h : s.Entries) (inputs : List VersionId) : (s.phi inputs).2.Entries := by
  refine h.of_isPrefix (s.grows_phi inputs).versions ?_
  rw [SsaStore.phi]
  split <;> rfl

theorem joins_phi (s : SsaStore K) (inputs : List VersionId) :
    (s.phi inputs).2.Joins (s.phi inputs).1 {v | v ∈ inputs} := by
  have hmem : ∀ v, v ∈ (inputs.insertionSort (· ≤ ·)).dedup ↔ v ∈ inputs := by simp
  rw [phi]
  split
  · rename_i version h
    rw [h] at hmem
    exact .inl (Set.ext fun v => by simpa using (hmem v).symm)
  · refine .inr ⟨_, by simp [pushVersion], ?_, Set.ext fun v => (hmem v).symm⟩
    have hle := (pairwise_insertionSort (· ≤ ·) inputs).sublist (dedup_sublist _)
    exact (hle.and (nodup_dedup _)).imp fun h => lt_of_le_of_ne h.1 h.2

end Versions

variable [DecidableEq K]

section Reads

theorem grows_entry (s : SsaStore K) (key : K) : s.Grows (s.entry key).2 := by
  rw [entry]
  split
  · exact .refl s
  · rename_i hnone
    refine ⟨⟨prefix_append _ _, fun key' version h => ?_⟩, rfl, rfl, rfl⟩
    have hne : key' ≠ key := by
      rintro rfl
      rw [hnone] at h
      cases h
    exact (update_of_ne hne _ _).trans h

theorem Entries.entry (h : s.Entries) (key : K) : (s.entry key).2.Entries := by
  rw [SsaStore.entry]
  split
  · exact h
  intro key' version hkey
  dsimp only at hkey
  by_cases heq : key' = key
  · subst heq
    rw [update_self] at hkey
    obtain rfl := some.inj hkey
    simp [pushVersion]
  · rw [update_of_ne heq] at hkey
    exact getElem?_of_isPrefix (prefix_append _ _) (h key' version hkey)

theorem entries_entry (s : SsaStore K) (key : K) :
    (s.entry key).2.entries key = some (s.entry key).1 := by
  rw [entry]
  split
  · assumption
  · exact update_self _ _ _

theorem grows_read (s : SsaStore K) (key : K) : s.Grows (s.read key).2 := by
  rw [read]
  split
  · exact .refl s
  · exact s.grows_entry key

theorem Entries.read (h : s.Entries) (key : K) : (s.read key).2.Entries := by
  rw [SsaStore.read]
  split
  · exact h
  · exact h.entry key

/-- The version of the key in the first store: what it is bound to, or its entry version, which
the second store knows. -/
def Before (s t : SsaStore K) (key : K) (version : VersionId) : Prop :=
  s.current key = some version ∨ s.current key = none ∧ t.entries key = some version

omit [DecidableEq K] in
theorem Before.of_keeps {s t u : SsaStore K} {key : K} {version : VersionId}
    (h : Before s t key version) (hkeeps : Keeps t u) : Before s u key version :=
  h.imp_right fun h => ⟨h.1, hkeeps.entries key version h.2⟩

theorem before_read (s : SsaStore K) (key : K) : Before s (s.read key).2 key (s.read key).1 := by
  rw [read]
  split
  · rename_i version h
    exact .inl h
  · rename_i h
    exact .inr ⟨h, s.entries_entry key⟩

end Reads

section Merges

/-- The versions of a key in the states, and the one before them if some state has none. -/
def sources (states : List (BranchState K)) (key : K) (before : VersionId) : Set VersionId :=
  {v | (∃ state ∈ states, state.bindings key = some v) ∨
    v = before ∧ ∃ state ∈ states, state.bindings key = none}

omit [DecidableEq K] in
theorem length_filterMap_lt_iff (states : List (BranchState K)) (key : K) :
    (states.filterMap (·.bindings key)).length < states.length ↔
      ∃ state ∈ states, state.bindings key = none := by
  induction states with
  | nil => simp
  | cons state states ih =>
    have hlength := length_filterMap_le (fun s : BranchState K => s.bindings key) states
    cases hstate : state.bindings key with
    | none => simpa [hstate, Nat.lt_succ_iff] using hlength
    | some version => simp [hstate, ih]

/-- The inputs of the phi that a merge makes for one key. -/
def mergeInputs (states : List (BranchState K)) (key : K) (fallback : VersionId) : List VersionId :=
  let inputs := states.filterMap (·.bindings key)
  if inputs.length < states.length then inputs ++ [fallback] else inputs

omit [DecidableEq K] in
theorem mem_mergeInputs (states : List (BranchState K)) (key : K) (fallback : VersionId) :
    {v | v ∈ mergeInputs states key fallback} = sources states key fallback := by
  refine Set.ext fun v => ?_
  rw [Set.mem_ofPred_eq, mergeInputs, sources, Set.mem_ofPred_eq, ← length_filterMap_lt_iff]
  split
  · rename_i h
    simp [h]
  · rename_i h
    simp [h]

theorem mergeKey_eq (states : List (BranchState K)) (s : SsaStore K) (key : K) :
    mergeKey states s key = ((s.read key).2.phi (mergeInputs states key (s.read key).1)).2.bind key
        ((s.read key).2.phi (mergeInputs states key (s.read key).1)).1 := rfl

@[simp] theorem current_bind (s : SsaStore K) (key : K) (version : VersionId) :
    (s.bind key version).current = Function.update s.current key (some version) := rfl

/-- What merging one key does: it is bound to a version that stands for its sources. -/
structure MergedKey (states : List (BranchState K)) (s t : SsaStore K) (key : K) : Prop where
  keeps : Keeps s t
  others : ∀ key', key' ≠ key → t.current key' = s.current key'
  merged : ∃ version before, t.current key = some version ∧ Before s t key before ∧
    t.Joins version (sources states key before)

theorem mergedKey_mergeKey (states : List (BranchState K)) (s : SsaStore K) (key : K) :
    MergedKey states s (mergeKey states s key) key := by
  have hread := s.grows_read key
  have hphi := (s.read key).2.grows_phi (mergeInputs states key (s.read key).1)
  rw [mergeKey_eq]
  refine ⟨⟨(hread.trans hphi).versions, (hread.trans hphi).entries⟩, fun key' hne => ?_,
    ⟨_, (s.read key).1, update_self _ _ _, ?_, ?_⟩⟩
  · rw [current_bind, update_of_ne hne, (hread.trans hphi).current]
  · exact (s.before_read key).of_keeps (t := (s.read key).2)
      ⟨hphi.versions, hphi.entries⟩
  · rw [← mem_mergeInputs]
    exact joins_phi _ _

theorem merge_spec (states : List (BranchState K)) {order : List K} (hnodup : order.Nodup)
    (s : SsaStore K) :
    Keeps s (s.merge states order) ∧
    (∀ key, key ∉ order → (s.merge states order).current key = s.current key) ∧
    ∀ key ∈ order, ∃ version before, (s.merge states order).current key = some version ∧
      Before s (s.merge states order) key before ∧
      (s.merge states order).Joins version (sources states key before) := by
  induction order generalizing s with
  | nil => exact ⟨⟨prefix_rfl, fun _ _ h => h⟩, fun _ _ => rfl, by simp⟩
  | cons key order ih =>
    obtain ⟨hkey, hnodup⟩ := nodup_cons.1 hnodup
    have hone := mergedKey_mergeKey states s key
    obtain ⟨hkeeps, hothers, hmerged⟩ := ih hnodup (mergeKey states s key)
    rw [merge, foldl_cons, ← merge]
    refine ⟨hone.keeps.trans hkeeps, fun key' hnot => ?_, fun key' hmem => ?_⟩
    · rw [mem_cons, not_or] at hnot
      rw [hothers key' hnot.2, hone.others key' hnot.1]
    · by_cases heq : key' = key
      · subst heq
        obtain ⟨version, before, hversion, hbefore, hjoins⟩ := hone.merged
        refine ⟨version, before, ?_, hbefore.of_keeps hkeeps, hjoins.of_isPrefix hkeeps.versions⟩
        rw [hothers key' hkey, hversion]
      · obtain ⟨version, before, hversion, hbefore, hjoins⟩ :=
          hmerged key' ((mem_cons.1 hmem).resolve_left heq)
        refine ⟨version, before, hversion, ?_, hjoins⟩
        rwa [Before, hone.others key' heq] at hbefore

end Merges

end SsaStore

section Sessions

variable [DecidableEq K]

/-- The open checkpoints are those of the store, and undoing back to each of them gives its
bindings. -/
structure Session.Sound (σ : Session K) : Prop where
  opened : Opened σ.store.undo σ.store.current
    (σ.opened.map fun o => (o.1.undoStart, o.2))
  logged : Logged σ.store.undo σ.store.current
  checkpoints : σ.store.checkpoints = (σ.opened.map (·.1.undoStart)).reverse
  depth : σ.opened.map (·.1.depth) = (List.range σ.opened.length).reverse
  entries : σ.store.Entries

namespace Session.Sound

theorem start : (Session.start : Session K).Sound where
  opened := rfl
  logged := .nil _
  checkpoints := rfl
  depth := rfl
  entries := fun _ _ h => by cases h

theorem current_of_boundSince {start : ℕ} {key : K}
    (h : s.boundSince start key = some version) : s.current key = some version := by
  rw [SsaStore.boundSince] at h
  split at h
  · exact h
  · cases h

section

variable (h : σ.Sound)

include h

theorem grows (hgrows : σ.store.Grows t)
    (hentries : t.Entries) : Session.Sound { σ with store := t } where
  opened := by
    rw [hgrows.undo, hgrows.current]
    exact h.opened
  logged := by
    rw [hgrows.undo, hgrows.current]
    exact h.logged
  checkpoints := hgrows.checkpoints.trans h.checkpoints
  depth := h.depth
  entries := hentries

theorem bind (key : K) (version : VersionId) :
    Session.Sound { σ with store := σ.store.bind key version } := by
  obtain ⟨store, held⟩ := σ
  have hcheckpoints := h.checkpoints
  cases held with
  | nil =>
    have hundo : store.undo = [] := h.opened
    have hnone : store.checkpoints = [] := hcheckpoints
    refine ⟨?_, ?_, hcheckpoints, h.depth, h.entries⟩
    · simp [SsaStore.bind, hnone, hundo, Opened]
    · simpa [SsaStore.bind, hnone, hundo] using Logged.nil _
  | cons o held =>
    have hsome : store.checkpoints ≠ [] := by
      rw [show store.checkpoints = _ from hcheckpoints]
      simp
    have hundo : (store.bind key version).undo =
        store.undo ++ [⟨key, store.current key⟩] := if_pos hsome
    refine ⟨?_, ?_, hcheckpoints, h.depth, h.entries⟩
    · dsimp only
      rw [hundo]
      exact Opened.push h.opened key version
    · dsimp only
      rw [hundo]
      exact h.logged.push key version

theorem read (key : K) : Session.Sound { σ with store := (σ.store.read key).2 } :=
  h.grows (σ.store.grows_read key) (h.entries.read key)

theorem phi (inputs : List VersionId) : Session.Sound { σ with store := (σ.store.phi inputs).2 } :=
  h.grows (σ.store.grows_phi inputs) (h.entries.phi inputs)

theorem merge (states : List (BranchState K)) (order : List K) :
    Session.Sound { σ with store := σ.store.merge states order } := by
  induction order generalizing σ with
  | nil => exact h
  | cons key order ih =>
    have hkey := ((h.read key).phi (SsaStore.mergeInputs states key (σ.store.read key).1)).bind key
      ((σ.store.read key).2.phi (SsaStore.mergeInputs states key (σ.store.read key).1)).1
    exact ih hkey

theorem checkpoint :
    Session.Sound ⟨σ.store.checkpoint.2, (σ.store.checkpoint.1, σ.store.current) :: σ.opened⟩ where
  opened := h.opened.start
  logged := h.logged
  checkpoints := by
    rw [map_cons, reverse_cons, ← h.checkpoints]
    rfl
  depth := by
    have hdepth : σ.store.checkpoint.1.depth = σ.opened.length := by
      rw [SsaStore.checkpoint, h.checkpoints]
      simp
    rw [map_cons, length_cons, range_succ, reverse_append, ← h.depth, hdepth]
    rfl
  entries := h.entries

theorem getElem?_checkpoints (ho : σ.opened[n]? = some o) :
    o.1.depth + n + 1 = σ.opened.length ∧ σ.store.checkpoints[o.1.depth]? = some o.1.undoStart := by
  obtain ⟨hlt, hget⟩ := List.getElem?_eq_some_iff.1 ho
  have hdepth : (σ.opened.map (·.1.depth))[n]? = some o.1.depth := by
    rw [getElem?_map, ho]
    rfl
  rw [h.depth, getElem?_reverse (by simpa using hlt)] at hdepth
  simp only [length_range] at hdepth
  rw [getElem?_range (by omega), some.injEq] at hdepth
  refine ⟨by omega, ?_⟩
  rw [h.checkpoints, getElem?_reverse (by simp; omega), length_map, ← hdepth,
    show σ.opened.length - 1 - (σ.opened.length - 1 - n) = n by omega, getElem?_map, ho]
  rfl

theorem boundSince_of_ne (ho : o ∈ σ.opened) {key : K} (hne : o.2 key ≠ σ.store.current key) :
    σ.store.boundSince o.1.undoStart key = σ.store.current key := by
  have hsaved := (h.opened.undo_of_mem _ (List.mem_map_of_mem ho)).2
  refine if_pos (by_contra fun hnot => hne ?_)
  rw [← show _ = o.2 from hsaved, undoAll_of_notMem hnot]

theorem captureAndRollback {checkpoint : Checkpoint}
    {saved : K → Option VersionId} {rest : List (Checkpoint × (K → Option VersionId))}
    (hopened : σ.opened = (checkpoint, saved) :: rest) :
    ∃ state store, σ.store.captureAndRollback checkpoint = some (state, store) ∧
      Session.Sound ⟨store, rest⟩ ∧ store.current = saved ∧
      store.versions = σ.store.versions ∧ store.entries = σ.store.entries ∧
      ∀ key version, state.bindings key = some version ↔
        σ.store.current key = some version ∧ saved key ≠ some version := by
  obtain ⟨store, opened⟩ := σ
  subst hopened
  obtain ⟨hle, hsaved, hrest⟩ := h.opened
  have hlast : checkpoint.depth + 1 = store.checkpoints.length ∧
      store.checkpoints.getLast? = some checkpoint.undoStart := by
    have hdepth := (h.getElem?_checkpoints (n := 0) rfl).1
    rw [show store.checkpoints = _ from h.checkpoints]
    refine ⟨by simpa using hdepth, by simp⟩
  have hall : (store.undo.drop checkpoint.undoStart).all fun u => (store.current u.key).isSome :=
    List.all_eq_true.2 fun u hu => h.logged.isSome u (mem_of_mem_drop hu)
  rw [SsaStore.captureAndRollback, if_pos hlast, if_pos hall, hsaved]
  refine ⟨_, _, rfl, ⟨hrest, ?_, ?_, ?_, h.entries⟩, rfl, rfl, rfl, fun key version => ?_⟩
  · have hlogged := h.logged
    rw [show store.undo = store.undo.take checkpoint.undoStart ++
      store.undo.drop checkpoint.undoStart from (take_append_drop _ _).symm] at hlogged
    exact hsaved ▸ hlogged.undo
  · rw [show store.checkpoints = _ from h.checkpoints]
    simp
  · have hdepth := h.depth
    rw [map_cons, length_cons, range_succ, reverse_append] at hdepth
    exact (List.cons.inj hdepth).2
  · rw [filter_eq_some_iff, decide_eq_true_eq]
    constructor
    · rintro ⟨hbound, hne⟩
      exact ⟨current_of_boundSince hbound, hne⟩
    · rintro ⟨hcurrent, hne⟩
      refine ⟨?_, hne⟩
      rw [h.boundSince_of_ne (o := (checkpoint, saved)) mem_cons_self
        (by rw [hcurrent]; exact hne), hcurrent]

theorem snapshotSince (ho : σ.opened[n]? = some o) :
    ∃ state, σ.store.snapshotSince o.1 = some state ∧ ∀ key version,
      (state.bindings key = some version → σ.store.current key = some version) ∧
      (σ.store.current key = some version → o.2 key ≠ some version →
        state.bindings key = some version) := by
  rw [SsaStore.snapshotSince, if_pos (h.getElem?_checkpoints ho).2]
  refine ⟨_, rfl, fun key version => ⟨current_of_boundSince, fun hcurrent hne => ?_⟩⟩
  have hbound := h.boundSince_of_ne (mem_of_getElem? ho) (by rw [hcurrent]; exact hne)
  exact hbound.trans hcurrent

theorem step {op : Op K} (hstep : σ.step op = some σ') : σ'.Sound := by
  cases op with
  | read key => exact (some.inj hstep) ▸ h.read key
  | pushVersion version =>
    exact (some.inj hstep) ▸ h.grows (σ.store.grows_pushVersion version)
      (h.entries.of_isPrefix (prefix_append _ _) rfl)
  | bind key version => exact (some.inj hstep) ▸ h.bind key version
  | weakBind key version =>
    exact (some.inj hstep) ▸ ((h.read key).phi _).bind key _
  | checkpoint => exact (some.inj hstep) ▸ h.checkpoint
  | captureAndRollback =>
    rw [Session.step] at hstep
    split at hstep
    · cases hstep
    · rename_i checkpoint saved rest hopened
      obtain ⟨state, store, hcapture, hsound, -⟩ := h.captureAndRollback hopened
      rw [hcapture] at hstep
      exact (some.inj hstep) ▸ hsound
  | snapshotSince n =>
    rw [Session.step] at hstep
    split at hstep
    · cases hstep
    · obtain ⟨state, -, rfl⟩ := map_eq_some_iff.1 hstep
      exact h
  | merge merging => exact (some.inj hstep) ▸ h.merge merging.states merging.order

theorem run {ops : List (Op K)} (hrun : σ.run ops = some σ') : σ'.Sound := by
  induction ops generalizing σ with
  | nil => exact (some.inj hrun) ▸ h
  | cons op ops ih =>
    obtain ⟨σ₁, hstep, hrest⟩ := bind_eq_some_iff.1 hrun
    exact ih (h.step hstep) hrest

end

end Session.Sound

/-- In every run, rolling back the latest checkpoint gives back the bindings of its time and
captures exactly the keys that differ from them; a snapshot since any open checkpoint has all
keys that differ, with their last version; and a merge binds the keys of the states, each to a
version that stands for its versions in them and, if some state has none, the one before. -/
theorem transactions_exact (ops : List (Op K)) (σ : Session K)
    (hrun : Session.start.run ops = some σ) :
    (∀ checkpoint saved rest, σ.opened = (checkpoint, saved) :: rest →
      ∃ state store, σ.store.captureAndRollback checkpoint = some (state, store) ∧
        store.current = saved ∧ ∀ key version, state.bindings key = some version ↔
          σ.store.current key = some version ∧ saved key ≠ some version) ∧
    (∀ checkpoint saved, (checkpoint, saved) ∈ σ.opened →
      ∃ state, σ.store.snapshotSince checkpoint = some state ∧ ∀ key version,
        (state.bindings key = some version → σ.store.current key = some version) ∧
        (σ.store.current key = some version → saved key ≠ some version →
          state.bindings key = some version)) ∧
    ∀ merging : Merging K,
      let merged := σ.store.merge merging.states merging.order
      merged.Entries ∧ ∀ key, ((∀ state ∈ merging.states, state.bindings key = none) →
          merged.current key = σ.store.current key) ∧
        ((∃ state ∈ merging.states, ∃ version, state.bindings key = some version) →
          ∃ version before, merged.current key = some version ∧
            SsaStore.Before σ.store merged key before ∧
            merged.Joins version (SsaStore.sources merging.states key before)) := by
  have hsound := Session.Sound.start.run hrun
  refine ⟨fun checkpoint saved rest hopened => ?_, fun checkpoint saved hmem => ?_,
    fun merging => ?_⟩
  · obtain ⟨state, store, hcapture, -, hcurrent, -, -, hstate⟩ :=
      hsound.captureAndRollback hopened
    exact ⟨state, store, hcapture, hcurrent, hstate⟩
  · obtain ⟨n, hn⟩ := getElem?_of_mem hmem
    exact hsound.snapshotSince hn
  · obtain ⟨-, hothers, hmerged⟩ := SsaStore.merge_spec merging.states merging.nodup σ.store
    refine ⟨(hsound.merge merging.states merging.order).entries, fun key => ⟨fun hnone => ?_,
      fun hsome => hmerged key ((merging.mem_order key).2 hsome)⟩⟩
    refine hothers key fun hmem => ?_
    obtain ⟨state, hstate, version, hversion⟩ := (merging.mem_order key).1 hmem
    rw [hnone state hstate] at hversion
    cases hversion

/-- Two branches, the inner one left early, and the write of the outer one. -/
def nestedOps : List (Op ℕ) :=
  [.bind 0 0, .checkpoint, .bind 0 1, .checkpoint, .weakBind 1 2, .snapshotSince 1,
    .captureAndRollback]

theorem transactions_exact_nested :
    ∃ σ : Session ℕ, Session.start.run nestedOps = some σ ∧
      ∃ state store, σ.store.captureAndRollback ⟨0, 0⟩ = some (state, store) ∧
        store.current 0 = some 0 ∧ state.bindings 0 = some 1 := by
  refine ⟨_, rfl, ?_⟩
  obtain ⟨state, store, hcapture, hcurrent, hstate⟩ :=
    (transactions_exact nestedOps _ rfl).1 ⟨0, 0⟩ _ _ rfl
  refine ⟨state, store, hcapture, ?_, (hstate 0 1).2 ⟨rfl, ?_⟩⟩
  · rw [hcurrent]
    rfl
  · decide

end Sessions

end Veryl.Analyzer.CombLoopDetect.Ssa
