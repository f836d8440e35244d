import Veryl.Simulator.WriteLog

/-!
Committing a log stores the patches of its records in order, so each byte is left with what the
last record over it holds.
-/

namespace Veryl.Simulator

open Veryl.Library List Option Nat
open Patch (changing final)

variable {cap extra k : ℕ}

variable {minCap : ℕ} {s : LogStep} {p : Patch Byte}

/-- The bytes a narrow record stores; other widths store nothing. -/
def WriteLogEntry.patch (e : WriteLogEntry) : Patch Byte :=
  ⟨e.offset, if e.widthClass ∈ [1, 2, 4, 8] then leBytes e.widthClass e.payload else []⟩

/-- The bytes a wide record stores. -/
def WriteLogWideEntry.patch (e : WriteLogWideEntry) : Patch Byte :=
  ⟨e.offset, if e.nativeBytes ≤ writeLogWideEntryPayloadBytes then e.payload.take e.nativeBytes
    else []⟩

/-- Stores a patch and reports it where it changes something. -/
def applyMarking (marking : Bool) (st : CommitState) (p : Patch Byte) : CommitState :=
  (p.apply st.1,
    if marking && p.apply st.1 ≠ st.1 then st.2 ++ [(p.offset, p.content.length)] else st.2)

variable {marking : Bool} {st : CommitState}

@[simp] theorem length_leBytes (n : ℕ) (payload : BitVec 64) : (leBytes n payload).length = n := by
  simp [leBytes]

theorem applyMarking_of_apply_eq (h : p.apply st.1 = st.1) : applyMarking marking st p = st := by
  unfold applyMarking
  rw [h]
  simp

theorem apply_nil (buf : List Byte) (offset : ℕ) : (Patch.mk offset []).apply buf = buf := by
  unfold Patch.apply
  split
  · simp [storeAt]
  · rfl

theorem applyMarking_of_not_fits (h : ¬ p.Fits st.1.length) : applyMarking marking st p = st :=
  applyMarking_of_apply_eq (if_neg h)

theorem storeOne_eq {offset : ℕ} {word : List Byte} (h : offset + word.length ≤ st.1.length) :
    storeOne marking st offset word.length word = applyMarking marking st ⟨offset, word⟩ := by
  have happly : (Patch.mk offset word).apply st.1 = storeAt st.1 offset word := if_pos h
  unfold storeOne applyMarking
  rw [happly]
  simp [storeAt_eq_self h]

theorem storePair_eq {offset w : ℕ} {payload xs : List Byte} (hxs : payload.take xs.length = xs)
    (hw : w ≤ xs.length) (hover : xs.length ≤ 2 * w) (h : offset + xs.length ≤ st.1.length) :
    storePair marking st offset xs.length payload w = applyMarking marking st ⟨offset, xs⟩ := by
  have happly : (Patch.mk offset xs).apply st.1 = storeAt st.1 offset xs := if_pos h
  have hlo : loadAt payload 0 w = xs.take w := by
    conv_rhs => rw [← hxs]
    rw [loadAt, drop_zero, take_take, Nat.min_eq_left hw]
  have hhi : loadAt payload (xs.length - w) w = xs.drop (xs.length - w) := by
    calc loadAt payload (xs.length - w) w = (payload.take xs.length).drop (xs.length - w) := by
          rw [loadAt, drop_take]
          congr 1
          omega
      _ = xs.drop (xs.length - w) := by rw [hxs]
  simp only [storePair, applyMarking, happly, hlo, hhi, storeAt_pair hw hover h]
  have hsame := (loadAt_pair hw hover h).trans (storeAt_eq_self h).symm
  simp only [ne_eq, ← hsame, not_and_or]
  simp

theorem commitNarrow_eq (e : WriteLogEntry) :
    commitNarrow marking st e = applyMarking marking st e.patch := by
  unfold commitNarrow WriteLogEntry.patch
  by_cases hclass : e.widthClass ∈ [1, 2, 4, 8]
  · rw [if_pos hclass]
    by_cases hfits : st.1.length < e.offset + e.widthClass
    · rw [if_pos hfits, applyMarking_of_not_fits]
      simp only [Patch.Fits, length_leBytes]
      omega
    · have hroom : e.offset + (leBytes e.widthClass e.payload).length ≤ st.1.length := by
        rw [length_leBytes]
        omega
      have hstore := @storeOne_eq marking st _ _ hroom
      rw [if_neg hfits, ← hstore]
      simp only [mem_cons, not_mem_nil, or_false] at hclass
      rcases hclass with h | h | h | h <;> simp [h]
  · rw [if_neg hclass, applyMarking_of_apply_eq (apply_nil _ _)]
    dsimp only
    split
    · rfl
    · split <;> simp_all

theorem commitWide_eq (e : WriteLogWideEntry) :
    commitWide marking st e = applyMarking marking st e.patch := by
  have hpayload := e.length_payload
  unfold commitWide WriteLogWideEntry.patch
  by_cases hzero : e.nativeBytes = 0
  · rw [if_pos (.inl hzero), hzero, applyMarking_of_apply_eq]
    simpa using apply_nil _ _
  by_cases hbytes : writeLogWideEntryPayloadBytes < e.nativeBytes
  · rw [if_pos (.inr (.inl hbytes)), if_neg (not_le.2 hbytes),
      applyMarking_of_apply_eq (apply_nil _ _)]
  have hle : e.nativeBytes ≤ e.payload.length := by omega
  have hlength : (e.payload.take e.nativeBytes).length = e.nativeBytes := by
    rw [length_take, Nat.min_eq_left hle]
  rw [@if_pos (e.nativeBytes ≤ _) _ (not_lt.1 hbytes)]
  by_cases hfits : st.1.length < e.offset + e.nativeBytes
  · rw [if_pos (.inr (.inr hfits)), applyMarking_of_not_fits]
    simp only [Patch.Fits, hlength]
    omega
  have hone : storeOne marking st e.offset e.nativeBytes (loadAt e.payload 0 e.nativeBytes) =
      applyMarking marking st ⟨e.offset, e.payload.take e.nativeBytes⟩ := by
    have hroom : e.offset + (e.payload.take e.nativeBytes).length ≤ st.1.length := by omega
    have h := @storeOne_eq marking st _ _ hroom
    rwa [hlength] at h
  have hpair : ∀ w, w ≤ e.nativeBytes → e.nativeBytes ≤ 2 * w →
      storePair marking st e.offset e.nativeBytes e.payload w =
        applyMarking marking st ⟨e.offset, e.payload.take e.nativeBytes⟩ := by
    intro w hw hover
    have h := @storePair_eq marking st e.offset w e.payload (e.payload.take e.nativeBytes)
      (by rw [hlength]) (by omega) (by omega) (by omega)
    rwa [hlength] at h
  rw [if_neg fun h => h.elim hzero fun h => h.elim hbytes hfits]
  split
  · exact hone
  -- every size up to sixteen bytes is stored by one word or by two that meet
  split
  all_goals
    try simp only [imp_false] at *
    first
      | exact hone
      | exact hpair _ (by omega) (by omega)

/-- The patches of the records a commit takes. -/
def WriteLogBuffer.patches (b : WriteLogBuffer) : List (Patch Byte) :=
  b.narrow.live.map WriteLogEntry.patch ++ b.wide.live.map WriteLogWideEntry.patch

theorem commitFromLogImpl_eq (ffValues : List Byte) (b : WriteLogBuffer) :
    commitFromLogImpl marking ffValues b = b.patches.foldl (applyMarking marking) (ffValues, []) := by
  have hnarrow : commitNarrow marking = fun st e => applyMarking marking st e.patch := by
    funext st e
    exact commitNarrow_eq e
  have hwide : commitWide marking = fun st e => applyMarking marking st e.patch := by
    funext st e
    exact commitWide_eq e
  rw [commitFromLogImpl, hnarrow, hwide, WriteLogBuffer.patches, foldl_append, foldl_map, foldl_map]

theorem fst_foldl_applyMarking (ps : List (Patch Byte)) (st : CommitState) :
    (ps.foldl (applyMarking marking) st).1 = ps.foldl (fun buf p => p.apply buf) st.1 := by
  induction ps generalizing st with
  | nil => rfl
  | cons p ps ih => exact ih (applyMarking marking st p)

theorem snd_foldl_applyMarking (ps : List (Patch Byte)) (st : CommitState) :
    (ps.foldl (applyMarking true) st).2 =
      st.2 ++ (changing ps st.1).map fun p => (p.offset, p.content.length) := by
  induction ps generalizing st with
  | nil => simp [changing]
  | cons p ps ih =>
    rw [foldl_cons, ih, changing]
    by_cases h : p.apply st.1 = st.1
    · rw [if_pos h, applyMarking_of_apply_eq h, h]
    · rw [if_neg h]
      simp [applyMarking, h]

namespace LogPool

variable {α : Type}

/-- The header describes the allocation. -/
structure Ok (p : LogPool α) : Prop where
  count_le : p.count ≤ p.capacity
  capacity_le : p.capacity ≤ p.owner.length
  capacity_lt : p.capacity < 2 ^ 32

/-- A pool has room for a number of entries or can get it. -/
def Roomy (p : LogPool α) (needed : ℕ) : Prop := needed ≤ p.capacity ∨ needed ≤ 2 ^ 31

variable {p p' : LogPool α} {floor : ℕ}

theorem live_eq (h : p.Ok) : p.live = p.owner.take p.count := by
  rw [live, entriesSlice, take_take, Nat.min_eq_left h.count_le]

theorem nextPowerOfTwo_le {n : ℕ} (h : n ≤ 2 ^ 31) : nextPowerOfTwo n ≤ 2 ^ 31 :=
  Nat.pow_le_pow_right (by omega) (clog_le_of_le_pow h)

theorem le_nextPowerOfTwo (n : ℕ) : n ≤ nextPowerOfTwo n := le_pow_clog (by omega) n

variable [Inhabited α]

theorem ok_withCapacity (h : cap < 2 ^ 32) : (withCapacity cap : LogPool α).Ok := by
  have hcap : u32 cap = cap := mod_eq_of_lt h
  refine ⟨Nat.zero_le _, ?_, ?_⟩
  · simp [withCapacity, hcap]
  · simpa only [withCapacity, hcap] using h

theorem live_withCapacity (cap : ℕ) : (withCapacity cap : LogPool α).live = [] := by
  simp [live, withCapacity]

/-- Growing within bounds keeps the live entries and makes room. -/
theorem growTo_ok (h : p.Ok) (hfloor : floor ≤ 2 ^ 31) (hmin : minCap ≤ 2 ^ 31)
    (hcount : p.count ≤ minCap) :
    ∃ p', p.growTo floor minCap = some p' ∧ p'.Ok ∧ p'.live = p.live ∧ p'.count = p.count ∧
      minCap ≤ p'.capacity := by
  have hle : minCap ≤ max (nextPowerOfTwo minCap) floor :=
    (le_nextPowerOfTwo minCap).trans (Nat.le_max_left _ _)
  have hbound : max (nextPowerOfTwo minCap) floor ≤ 2 ^ 31 := Nat.max_le.2 ⟨nextPowerOfTwo_le hmin, hfloor⟩
  have hcap : u32 (max (nextPowerOfTwo minCap) floor) = max (nextPowerOfTwo minCap) floor :=
    mod_eq_of_lt (by omega)
  have hlive : p.count ≤ p.owner.length := h.count_le.trans h.capacity_le
  refine ⟨_, if_pos ⟨hcount.trans hle, hlive⟩, ⟨?_, ?_, ?_⟩, ?_, rfl, ?_⟩
  · simp only [hcap]
    omega
  · simp only [hcap, length_append, length_take, length_replicate]
    omega
  · simp only [hcap]
    omega
  · simp only [live, entriesSlice, hcap, take_take]
    rw [Nat.min_eq_left (by omega), Nat.min_eq_left h.count_le,
      take_append_of_le_length (by simp [hlive]), take_take, Nat.min_self]
  · simp only [hcap]
    exact hle

theorem reserve_ok (h : p.Ok) (hfloor : floor ≤ 2 ^ 31) (hroom : p.Roomy (p.count + extra)) :
    ∃ p', p.reserve floor extra = some p' ∧ p'.Ok ∧ p'.live = p.live := by
  unfold reserve
  by_cases hfull : p.capacity < p.count + extra
  · obtain ⟨p', hp', hok, hlive, -⟩ := growTo_ok h hfloor
      (hroom.resolve_left (not_le.2 hfull)) (Nat.le_add_right _ _)
    exact ⟨p', by simp only [if_pos hfull, hp'], hok, hlive⟩
  · exact ⟨p, by simp only [if_neg hfull], h, rfl⟩

theorem push_ok (h : p.Ok) (hfloor : floor ≤ 2 ^ 31) (hroom : p.Roomy (p.count + 1)) (entry : α) :
    ∃ p', p.push floor entry = some p' ∧ p'.Ok ∧ p'.live = p.live ++ [entry] := by
  obtain ⟨q, hq, hok, hlive, hcount⟩ : ∃ q, (if p.capacity ≤ p.count then
      p.growTo floor (p.capacity + 1) else some p) = some q ∧ q.Ok ∧ q.live = p.live ∧
        q.count < q.capacity := by
    by_cases hfull : p.capacity ≤ p.count
    · have heq : p.capacity = p.count := Nat.le_antisymm hfull h.count_le
      obtain ⟨q, hq, hok, hlive, hcount, hcap⟩ := growTo_ok h hfloor
        (heq ▸ hroom.resolve_left (by omega)) (le_succ_of_le h.count_le)
      exact ⟨q, by rw [if_pos hfull, hq], hok, hlive, by omega⟩
    · exact ⟨p, if_neg hfull, h, rfl, not_le.1 hfull⟩
  have hcap := hok.capacity_lt
  have hlength := hok.capacity_le
  have hnext : u32 (q.count + 1) = q.count + 1 := mod_eq_of_lt (by omega)
  have hok' : Ok ⟨q.owner.set q.count entry, u32 (q.count + 1), q.capacity⟩ := by
    refine ⟨?_, ?_, hcap⟩
    · simp only [hnext]
      omega
    · simpa using hlength
  refine ⟨_, by rw [push, hq, map_some], hok', ?_⟩
  have hlt : q.count < q.owner.length := hcount.trans_le hlength
  have htake : (q.owner.take q.count).length = q.count := length_take_of_le hlt.le
  rw [live_eq hok', ← hlive, live_eq hok]
  simp only [hnext]
  rw [set_eq_take_append_cons_drop, if_pos hlt, take_append, htake, take_take,
    Nat.min_eq_right (le_succ _), Nat.add_sub_cancel_left]
  rfl

theorem count_growTo (h : p.growTo floor minCap = some p') : p'.count = p.count := by
  unfold growTo at h
  dsimp only at h
  split at h
  · exact (some.inj h) ▸ rfl
  · cases h

theorem count_reserve (h : p.reserve floor extra = some p') : p'.count = p.count := by
  unfold reserve at h
  dsimp only at h
  split at h
  · exact count_growTo h
  · exact (some.inj h) ▸ rfl

theorem count_push {entry : α} (h : p.push floor entry = some p') : p'.count ≤ p.count + 1 := by
  obtain ⟨q, hq, rfl⟩ := map_eq_some_iff.1 h
  have hcount : q.count = p.count := by
    split at hq
    · exact count_growTo hq
    · exact (some.inj hq) ▸ rfl
  exact (mod_le _ _).trans (by omega)

/-- A size past 2 ^ 31 does not fit into the header, and no entry is live any more. -/
theorem growTo_truncates (h : p.count ≤ p.owner.length) (hcount : p.count ≤ minCap)
    (hlo : 2 ^ 31 < minCap) (hhi : minCap ≤ 2 ^ 32) (hfloor : floor ≤ 2 ^ 32) :
    ∃ p', p.growTo floor minCap = some p' ∧ p'.capacity = 0 := by
  have hpow : nextPowerOfTwo minCap = 2 ^ 32 := by
    have hlt : 31 < Nat.clog 2 minCap := (lt_clog_iff_pow_lt (by omega)).2 hlo
    have hle : Nat.clog 2 minCap ≤ 32 := clog_le_of_le_pow hhi
    rw [nextPowerOfTwo, show Nat.clog 2 minCap = 32 by omega]
  have hcap : max (nextPowerOfTwo minCap) floor = 2 ^ 32 := by
    rw [hpow]
    exact Nat.max_eq_left hfloor
  have hle : p.count ≤ max (nextPowerOfTwo minCap) floor := by
    rw [hcap]
    exact hcount.trans hhi
  refine ⟨_, if_pos ⟨hle, h⟩, ?_⟩
  simp [hcap, u32]

omit [Inhabited α] in
theorem live_of_capacity_eq_zero (h : p.capacity = 0) : p.live = [] := by
  simp [live, entriesSlice, h]

end LogPool

namespace WriteLogBuffer

/-- The narrow record a step pushes. -/
def LogStep.narrowEntries : LogStep → List WriteLogEntry
  | .pushNarrow offset payload widthClass => [⟨offset, 0, widthClass, payload⟩]
  | _ => []

/-- The wide record a step pushes. -/
def LogStep.wideEntries : LogStep → List WriteLogWideEntry
  | .pushWide offset payload h => [.new offset payload h]
  | _ => []

/-- The patches of all narrow records in push order, then of all wide ones. -/
def recordPatches (steps : List LogStep) : List (Patch Byte) :=
  (steps.flatMap LogStep.narrowEntries).map WriteLogEntry.patch ++
    (steps.flatMap LogStep.wideEntries).map WriteLogWideEntry.patch

/-- The pools a step uses have room for its records or grow to at most 2 ^ 31 entries. -/
def Roomy (b : WriteLogBuffer) : LogStep → Prop
  | .pushNarrow _ _ _ => b.narrow.Roomy (b.narrow.count + 1)
  | .pushWide _ _ _ => b.wide.Roomy (b.wide.count + 1)
  | .reserve narrow wide =>
    b.narrow.Roomy (b.narrow.count + narrow) ∧ b.wide.Roomy (b.wide.count + wide)

/-- Every step of a run is in a state with room for it. -/
def RoomyRun : WriteLogBuffer → List LogStep → Prop
  | _, [] => True
  | b, s :: steps => b.Roomy s ∧ ∀ b', b.step s = some b' → RoomyRun b' steps

variable {b b' : WriteLogBuffer}

structure Ok (b : WriteLogBuffer) : Prop where
  narrow : b.narrow.Ok
  wide : b.wide.Ok

theorem step_ok (h : b.Ok) (hroom : b.Roomy s) :
    ∃ b', b.step s = some b' ∧ b'.Ok ∧ b'.narrow.live = b.narrow.live ++ s.narrowEntries ∧
      b'.wide.live = b.wide.live ++ s.wideEntries := by
  cases s with
  | pushNarrow offset payload widthClass =>
    obtain ⟨p, hp, hok, hlive⟩ := LogPool.push_ok h.narrow (by decide : narrowFloor ≤ 2 ^ 31) hroom
      ⟨offset, 0, widthClass, payload⟩
    exact ⟨⟨p, b.wide⟩, by simp [step, pushNarrow, hp], ⟨hok, h.wide⟩, hlive,
      by simp [LogStep.wideEntries]⟩
  | pushWide offset payload hle =>
    obtain ⟨p, hp, hok, hlive⟩ := LogPool.push_ok h.wide (by decide : wideFloor ≤ 2 ^ 31) hroom
      (.new offset payload hle)
    exact ⟨⟨b.narrow, p⟩, by simp [step, pushWide, hp], ⟨h.narrow, hok⟩,
      by simp [LogStep.narrowEntries], hlive⟩
  | reserve narrow wide =>
    obtain ⟨p, hp, hok, hlive⟩ := LogPool.reserve_ok h.narrow (by decide : narrowFloor ≤ 2 ^ 31)
      hroom.1
    obtain ⟨q, hq, hok', hlive'⟩ := LogPool.reserve_ok h.wide (by decide : wideFloor ≤ 2 ^ 31)
      hroom.2
    exact ⟨⟨p, q⟩, by simp [step, reserveNarrow, reserveWide, hp, hq], ⟨hok, hok'⟩,
      by simp [LogStep.narrowEntries, hlive], by simp [LogStep.wideEntries, hlive']⟩

theorem run_ok (steps : List LogStep) (h : b.Ok) (hroom : b.RoomyRun steps) :
    ∃ b', b.run steps = some b' ∧
      b'.narrow.live = b.narrow.live ++ steps.flatMap LogStep.narrowEntries ∧
      b'.wide.live = b.wide.live ++ steps.flatMap LogStep.wideEntries := by
  induction steps generalizing b with
  | nil => exact ⟨b, rfl, by simp, by simp⟩
  | cons s steps ih =>
    obtain ⟨b₁, hstep, hok, hnarrow, hwide⟩ := step_ok h hroom.1
    obtain ⟨b', hrun, hnarrow', hwide'⟩ := ih hok (hroom.2 b₁ hstep)
    refine ⟨b', ?_, ?_, ?_⟩
    · rw [run, foldlM_cons, hstep]
      exact hrun
    · rw [hnarrow', hnarrow, flatMap_cons, append_assoc]
    · rw [hwide', hwide, flatMap_cons, append_assoc]

/-- Committing a log that had room for its records leaves in each byte what the last
record over it holds; the marking commit leaves the same and reports the records that
change something. -/
theorem commit_spec {narrowCap wideCap : ℕ} (hnarrow : narrowCap < 2 ^ 32)
    (hwide : wideCap < 2 ^ 32) (steps : List LogStep)
    (hroom : (withCapacity narrowCap wideCap).RoomyRun steps) :
    ∃ b, (withCapacity narrowCap wideCap).run steps = some b ∧
      b.narrow.live = steps.flatMap LogStep.narrowEntries ∧
      b.wide.live = steps.flatMap LogStep.wideEntries ∧
      ∀ ffValues : List Byte, (ffCommitFromLog ffValues b).length = ffValues.length ∧
        (∀ i, (ffCommitFromLog ffValues b)[i]? = final (recordPatches steps) ffValues i) ∧
        (ffCommitFromLogMarking ffValues b).1 = ffCommitFromLog ffValues b ∧
        (ffCommitFromLogMarking ffValues b).2 =
          (changing (recordPatches steps) ffValues).map fun p =>
            (p.offset, p.content.length) := by
  have hok : (withCapacity narrowCap wideCap).Ok :=
    ⟨LogPool.ok_withCapacity hnarrow, LogPool.ok_withCapacity hwide⟩
  obtain ⟨b, hrun, hn, hw⟩ := run_ok steps hok hroom
  have hn : b.narrow.live = steps.flatMap LogStep.narrowEntries := by
    simpa [withCapacity, LogPool.live_withCapacity] using hn
  have hw : b.wide.live = steps.flatMap LogStep.wideEntries := by
    simpa [withCapacity, LogPool.live_withCapacity] using hw
  have hpatches : b.patches = recordPatches steps := by rw [patches, recordPatches, hn, hw]
  refine ⟨b, hrun, hn, hw, fun ffValues => ?_⟩
  have hcommit : ∀ marking, (commitFromLogImpl marking ffValues b).1 =
      (recordPatches steps).foldl (fun buf p => p.apply buf) ffValues := by
    intro marking
    rw [commitFromLogImpl_eq, fst_foldl_applyMarking, hpatches]
  refine ⟨?_, fun i => ?_, ?_, ?_⟩
  · rw [ffCommitFromLog, hcommit, Patch.length_foldl_apply]
  · rw [ffCommitFromLog, hcommit, Patch.getElem?_foldl_apply]
  · rw [ffCommitFromLogMarking, ffCommitFromLog, hcommit, hcommit]
  · rw [ffCommitFromLogMarking, commitFromLogImpl_eq, snd_foldl_applyMarking, hpatches]
    rfl

/-- How many entries a step asks for, narrow and wide. -/
def LogStep.demand : LogStep → ℕ × ℕ
  | .pushNarrow _ _ _ => (1, 0)
  | .pushWide _ _ _ => (0, 1)
  | .reserve narrow wide => (narrow, wide)

theorem count_step (h : b.step s = some b') :
    b'.narrow.count ≤ b.narrow.count + s.demand.1 ∧ b'.wide.count ≤ b.wide.count + s.demand.2 := by
  cases s with
  | pushNarrow offset payload widthClass =>
    obtain ⟨p, hp, rfl⟩ := map_eq_some_iff.1 (show Option.map _ _ = some b' from h)
    exact ⟨LogPool.count_push hp, Nat.le_refl _⟩
  | pushWide offset payload hle =>
    obtain ⟨p, hp, rfl⟩ := map_eq_some_iff.1 (show Option.map _ _ = some b' from h)
    exact ⟨Nat.le_refl _, LogPool.count_push hp⟩
  | reserve narrow wide =>
    obtain ⟨b₁, hb₁, hb'⟩ := bind_eq_some_iff.1 (show Option.bind _ _ = some b' from h)
    obtain ⟨p, hp, rfl⟩ := map_eq_some_iff.1 hb₁
    obtain ⟨q, hq, rfl⟩ := map_eq_some_iff.1 hb'
    have hp := LogPool.count_reserve hp
    have hq := LogPool.count_reserve hq
    dsimp only [LogStep.demand] at hp hq ⊢
    omega

/-- A cycle that asks for at most 2 ^ 31 entries of either pool has room for them. -/
theorem roomyRun_of_demand (steps : List LogStep)
    (hnarrow : b.narrow.count + (steps.map fun s => s.demand.1).sum ≤ 2 ^ 31)
    (hwide : b.wide.count + (steps.map fun s => s.demand.2).sum ≤ 2 ^ 31) : b.RoomyRun steps := by
  induction steps generalizing b with
  | nil => exact trivial
  | cons s steps ih =>
    simp only [map_cons, sum_cons] at hnarrow hwide
    have hroom : b.Roomy s := by
      cases s with
      | pushNarrow offset payload widthClass =>
        simp only [LogStep.demand] at hnarrow
        exact .inr (by omega)
      | pushWide offset payload hle =>
        simp only [LogStep.demand] at hwide
        exact .inr (by omega)
      | reserve narrow wide =>
        simp only [LogStep.demand] at hnarrow hwide
        exact ⟨.inr (by omega), .inr (by omega)⟩
    refine ⟨hroom, fun b' hb' => ?_⟩
    obtain ⟨hn, hw⟩ := count_step hb'
    exact ih (by omega) (by omega)

/-- Two narrow records and a wide one over each other. -/
theorem commit_spec_overlap :
    ∃ b, (withCapacity 1 0).run [.pushNarrow 0 0x0201 2, .pushWide 1 [7, 8] (by decide),
        .pushNarrow 1 0x09 1] = some b ∧
      ∀ i, (ffCommitFromLog [0, 0, 0, 0] b)[i]? = final (recordPatches
        [.pushNarrow 0 0x0201 2, .pushWide 1 [7, 8] (by decide), .pushNarrow 1 0x09 1])
          [0, 0, 0, 0] i := by
  obtain ⟨b, hrun, -, -, hcommit⟩ := commit_spec (by decide : 1 < 2 ^ 32)
    (by decide : 0 < 2 ^ 32) [.pushNarrow 0 0x0201 2, .pushWide 1 [7, 8] (by decide), .pushNarrow 1 0x09 1]
    (roomyRun_of_demand _ (by decide) (by decide))
  exact ⟨b, hrun, (hcommit [0, 0, 0, 0]).2.1⟩

theorem run_concat (h : b.run (replicate k s) = some b') :
    b.run (replicate (k + 1) s) = b'.step s := by
  rw [run] at h ⊢
  rw [replicate_succ', foldlM_append, h]
  simp

theorem run_replicate (hcap : cap < 2 ^ 32) (hk : k ≤ cap) (offset : ℕ)
    (payload : BitVec 64) (widthClass : ℕ) :
    ∃ b, (withCapacity cap 0).run (replicate k (.pushNarrow offset payload widthClass)) =
        some b ∧ b.narrow.count = k ∧ b.narrow.capacity = cap ∧ b.narrow.owner.length = cap ∧
          b.wide = .withCapacity 0 := by
  induction k with
  | zero =>
    refine ⟨withCapacity cap 0, rfl, rfl, mod_eq_of_lt hcap, ?_, rfl⟩
    simp [withCapacity, LogPool.withCapacity]
  | succ k ih =>
    obtain ⟨b, hrun, hcount, hcapacity, hlength, hwide⟩ := ih (by omega)
    have hpush : b.narrow.push narrowFloor ⟨offset, 0, widthClass, payload⟩ =
        some ⟨b.narrow.owner.set b.narrow.count ⟨offset, 0, widthClass, payload⟩,
          u32 (b.narrow.count + 1), b.narrow.capacity⟩ := by
      rw [LogPool.push, if_neg (by omega)]
      rfl
    refine ⟨⟨⟨b.narrow.owner.set b.narrow.count ⟨offset, 0, widthClass, payload⟩,
      u32 (b.narrow.count + 1), b.narrow.capacity⟩, b.wide⟩, ?_, ?_, hcapacity, ?_, hwide⟩
    · rw [run_concat hrun]
      simp only [step, pushNarrow, hpush]
      rfl
    · rw [hcount]
      exact mod_eq_of_lt (by omega)
    · rw [length_set, hlength]

/-- One record more than 2 ^ 31 in a full pool, and the commit takes none of them. -/
theorem commit_loses_all : ¬ ∀ (narrowCap wideCap : ℕ) (steps : List LogStep) (b : WriteLogBuffer),
      narrowCap < 2 ^ 32 → wideCap < 2 ^ 32 →
      (withCapacity narrowCap wideCap).run steps = some b →
      ∀ (ffValues : List Byte) (i : ℕ),
        (ffCommitFromLog ffValues b)[i]? = final (recordPatches steps) ffValues i := by
  intro h
  -- the number of pushes stays a variable, so nothing evaluates it
  obtain ⟨n, hn⟩ : ∃ n : ℕ, n = 2 ^ 31 := ⟨_, rfl⟩
  let s : LogStep := .pushNarrow 0 1 1
  obtain ⟨b, hrun, hcount, hcapacity, hlength, hwide⟩ :=
    run_replicate (by omega : n < 2 ^ 32) (Nat.le_refl n) 0 1 1
  obtain ⟨p, hp, hcap⟩ := LogPool.growTo_truncates
    (by omega : b.narrow.count ≤ b.narrow.owner.length) (by omega : b.narrow.count ≤ n + 1)
    (by omega) (by omega) (by decide : narrowFloor ≤ 2 ^ 32)
  have hfull : b.step s = some ⟨⟨p.owner.set p.count ⟨0, 0, 1, 1⟩, u32 (p.count + 1),
      p.capacity⟩, b.wide⟩ := by
    simp only [s, step, pushNarrow, LogPool.push, hcount, hcapacity]
    rw [if_pos (Nat.le_refl _), hp]
    rfl
  have hlast := h n 0 (replicate (n + 1) s) _ (by omega) (by omega)
    ((run_concat hrun).trans hfull) [0] 0
  -- nothing is committed, but every record stores a one
  have hnone : (WriteLogBuffer.mk ⟨p.owner.set p.count ⟨0, 0, 1, 1⟩, u32 (p.count + 1),
      p.capacity⟩ b.wide).patches = [] := by
    have hdead := LogPool.live_of_capacity_eq_zero (p := ⟨p.owner.set p.count ⟨0, 0, 1, 1⟩,
      u32 (p.count + 1), p.capacity⟩) hcap
    rw [patches, hdead, hwide, LogPool.live_withCapacity]
    rfl
  have hpatches : ∀ k, recordPatches (replicate k s) = replicate k ⟨0, [1]⟩ := by
    intro k
    simp [recordPatches, flatMap_replicate, s, LogStep.narrowEntries, LogStep.wideEntries]
    exact .inr rfl
  have hstored : ∀ k, (replicate k (Patch.mk 0 [(1 : Byte)])).foldl
      (fun buf p => p.apply buf) [1] = [1] := by
    intro k
    induction k with
    | zero => rfl
    | succ k ih => exact ih
  rw [ffCommitFromLog, commitFromLogImpl_eq, hnone, hpatches, ← Patch.getElem?_foldl_apply,
    replicate_succ, foldl_cons, show (Patch.mk 0 [(1 : Byte)]).apply [0] = [1] from rfl,
    hstored] at hlast
  exact absurd hlast (by decide)

end WriteLogBuffer
end Veryl.Simulator
