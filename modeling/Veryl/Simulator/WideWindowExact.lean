import Veryl.Simulator.WideWindowBits

/-!
The window helpers copy the bits of their window and no others, and a commit of
what they log leaves what they store in place.
-/

namespace Veryl.Simulator.WideOps

open Library WriteLogBuffer List Option LogStep WriteLogWideEntry

section Replay

variable {buf front dst bytes : List Byte} {offset narrowCap wideCap : ℕ} {steps : List LogStep}

theorem commit_steps (hnarrow : narrowCap < 2 ^ 32) (hwide : wideCap < 2 ^ 32)
    (hdemand : (steps.map fun s => s.demand.1).sum ≤ 2 ^ 31)
    (hdemand' : (steps.map fun s => s.demand.2).sum ≤ 2 ^ 31) (ffValues : List Byte) :
    ∃ b, pushAll (some (withCapacity narrowCap wideCap)) steps = some (some b) ∧
      ffCommitFromLog ffValues b =
        (recordPatches steps).foldl (fun buf p => p.apply buf) ffValues := by
  obtain ⟨b, hrun, hn, hw⟩ := run_ok (b := withCapacity narrowCap wideCap) steps
    ⟨LogPool.ok_withCapacity hnarrow, LogPool.ok_withCapacity hwide⟩
    (roomyRun_of_demand steps (by simpa [withCapacity, LogPool.withCapacity] using hdemand)
      (by simpa [withCapacity, LogPool.withCapacity] using hdemand'))
  refine ⟨b, by rw [pushAll, hrun]; rfl, ?_⟩
  rw [ffCommitFromLog, commitFromLogImpl_eq, fst_foldl_applyMarking, patches, recordPatches, hn, hw]
  simp [withCapacity, LogPool.live_withCapacity]

theorem apply_of_fits {p : Patch Byte} (h : p.offset + p.content.length ≤ buf.length) :
    p.apply buf = storeAt buf p.offset p.content := if_pos h

theorem patch_new (offset : ℕ) (payload : List Byte)
    (h : payload.length ≤ writeLogWideEntryPayloadBytes) :
    (new offset payload h).patch = ⟨offset, payload⟩ := by
  have hnb : (new offset payload h).nativeBytes = payload.length := rfl
  rw [patch, hnb, if_pos h]
  congr 1
  exact take_left

theorem pushWideRange_spec : ∀ (k offset : ℕ) (bytes : List Byte), bytes.length ≤ k →
    (pushWideRange offset bytes).flatMap narrowEntries = [] ∧
      ((pushWideRange offset bytes).map fun s => s.demand.1).sum = 0 ∧
      ((pushWideRange offset bytes).map fun s => s.demand.2).sum ≤ bytes.length ∧
      ∀ buf : List Byte, offset + bytes.length ≤ buf.length → buf.length ≤ 2 ^ 32 →
        (((pushWideRange offset bytes).flatMap wideEntries).map
          patch).foldl (fun buf p => p.apply buf) buf = storeAt buf offset bytes := by
  intro k
  induction k with
  | zero =>
    intro offset bytes hlen
    obtain rfl := eq_nil_of_length_eq_zero (Nat.le_zero.1 hlen)
    rw [pushWideRange, if_pos rfl]
    exact ⟨rfl, rfl, Nat.le_refl _, fun buf _ _ => by simp [storeAt]⟩
  | succ k ih =>
    intro offset bytes hlen
    by_cases hnil : bytes = []
    · obtain rfl := hnil
      rw [pushWideRange, if_pos rfl]
      exact ⟨rfl, rfl, Nat.le_refl _, fun buf _ _ => by simp [storeAt]⟩
    have hpos := length_pos_iff.2 hnil
    have hmax : writeLogWideEntryPayloadBytes = 56 := rfl
    have hdrop : (bytes.drop writeLogWideEntryPayloadBytes).length = bytes.length - 56 := by
      rw [length_drop, hmax]
    have htake : (bytes.take writeLogWideEntryPayloadBytes).length = min 56 bytes.length := by
      rw [length_take, hmax]
    obtain ⟨hnarrow, hdemand, hdemand', hstore⟩ := ih
      (u32 (offset + writeLogWideEntryPayloadBytes)) (bytes.drop writeLogWideEntryPayloadBytes)
      (by omega)
    rw [pushWideRange, if_neg hnil]
    refine ⟨hnarrow, ?_, ?_, fun buf hfits hbuf => ?_⟩
    · rw [map_cons, sum_cons, hdemand]
      rfl
    · rw [map_cons, sum_cons]
      show 1 + _ ≤ _
      omega
    · have hfirst : offset + (bytes.take writeLogWideEntryPayloadBytes).length ≤ buf.length := by
        omega
      have hhead : (((pushWide offset (bytes.take writeLogWideEntryPayloadBytes)
          (by rw [length_take]; exact Nat.min_le_left _ _)).wideEntries).map
            patch).foldl (fun buf p => p.apply buf) buf =
              storeAt buf offset (bytes.take writeLogWideEntryPayloadBytes) := by
        rw [wideEntries, map_singleton, patch_new, foldl_cons, foldl_nil, apply_of_fits hfirst]
      rw [flatMap_cons, map_append, foldl_append, hhead]
      by_cases hlast : bytes.length ≤ 56
      · have hempty : bytes.drop writeLogWideEntryPayloadBytes = [] :=
          drop_of_length_le (by rw [hmax]; exact hlast)
        rw [hempty, pushWideRange, if_pos rfl, take_of_length_le (by rw [hmax]; exact hlast)]
        rfl
      · have hnext : u32 (offset + writeLogWideEntryPayloadBytes) =
            offset + (bytes.take writeLogWideEntryPayloadBytes).length := by
          rw [htake, hmax, u32, Nat.mod_eq_of_lt (by omega)]
          omega
        rw [hstore _ (by rw [length_storeAt hfirst]; omega) (by rw [length_storeAt hfirst]; omega),
          hnext, storeAt_append hfirst, take_append_drop]

theorem storeAt_front (front dst bytes : List Byte) (offset : ℕ) :
    storeAt (front ++ dst) (front.length + offset) bytes = front ++ storeAt dst offset bytes := by
  rw [storeAt, storeAt, take_length_add_append, Nat.add_assoc, drop_length_add_append,
    append_assoc, append_assoc, append_assoc]

theorem foldl_narrow (width : ℕ) (hwidth : width ∈ [1, 2, 4, 8]) : ∀ (vs : List (BitVec 64))
    (offset : ℕ) (buf : List Byte), offset + vs.length * 8 ≤ buf.length + (8 - width) →
      buf.length ≤ 2 ^ 32 →
      (((vs.mapIdx fun k v => pushNarrow (u32 (offset + k * 8)) v width).flatMap
        narrowEntries).map WriteLogEntry.patch).foldl (fun buf p => p.apply buf) buf =
          storeBlocks (vs.map (leBytes width)) offset buf
  | [], _, _, _, _ => rfl
  | v :: vs, offset, buf, hfits, hbuf => by
    have hpos : 0 < width ∧ width ≤ 8 := by
      simp only [mem_cons, not_mem_nil, or_false] at hwidth
      omega
    rw [length_cons, Nat.add_mul, Nat.one_mul] at hfits
    have hlen : offset + (leBytes width v).length ≤ buf.length := by
      rw [length_leBytes]
      omega
    have hoff : u32 (offset + 0 * 8) = offset := by
      rw [u32, Nat.zero_mul, Nat.add_zero, Nat.mod_eq_of_lt (by omega)]
    have hpatch : (WriteLogEntry.mk offset 0 width v).patch = ⟨offset, leBytes width v⟩ := by
      rw [WriteLogEntry.patch, if_pos hwidth]
    have hfun : (fun k v => pushNarrow (u32 (offset + (k + 1) * 8)) v width) =
        fun k v => pushNarrow (u32 (offset + 8 + k * 8)) v width := by
      funext k v
      congr 2
      omega
    rw [mapIdx_cons, flatMap_cons, narrowEntries, hoff, hfun,
      singleton_append, map_cons, foldl_cons, hpatch, apply_of_fits hlen,
      foldl_narrow width hwidth vs (offset + 8) _ (by rw [length_storeAt hlen]; omega)
        (by rw [length_storeAt hlen]; exact hbuf)]
    rfl

end Replay

/-- The part of a window inside its destination. -/
def clippedWidth (amount packedWidth : ℕ) : ℕ :=
  min (unpackWidths packedWidth).1 ((unpackWidths packedWidth).2 - amount)

/-- What a store of a window does: the bits of the window come from the source and
all others stay, as one run of bytes in the words of the window is stored; in
place is only done on demand; and committing what is logged leaves the flip-flop
buffer with the same destination. -/
structure StoresWindow
    (store : Option WriteLogBuffer → ℕ → Option (Option WriteLogBuffer × List Byte))
    (dst src : List Byte) (amount width srcBit : ℕ) (dst' : List Byte) : Prop where
  bits : ∀ j, bitOf dst' j =
    if amount ≤ j ∧ j < amount + width then bitOf src (srcBit + (j - amount)) else bitOf dst j
  empty : width = 0 → dst' = dst
  words : 0 < width → ∃ bytes : List Byte, dst' = storeAt dst (amount / 64 * 8) bytes ∧
    amount / 64 * 8 + bytes.length ≤ min dst.length (((amount + width - 1) / 64 + 1) * 8)
  stores : ∀ flags, store none flags = some (none, if (unpackFlags flags).2 then dst' else dst)
  replays : ∀ (front : List Byte) (flags narrowCap wideCap : ℕ),
    front.length = (unpackFlags flags).1 → (front ++ dst).length ≤ 2 ^ 32 →
    narrowCap < 2 ^ 32 → wideCap < 2 ^ 32 →
    ∃ b, store (some (withCapacity narrowCap wideCap)) flags =
        some (some b, if (unpackFlags flags).2 then dst' else dst) ∧
      ffCommitFromLog (front ++ dst) b = front ++ dst'

section Stores

variable {dst src bytes : List Byte} {amount packed srcBit width : ℕ}

theorem clippedWidth_eq_zero : clippedWidth amount packed = 0 ↔
    (unpackWidths packed).1 = 0 ∨ (unpackWidths packed).2 ≤ amount := by
  unfold clippedWidth
  omega

theorem clippedWidth_lt : clippedWidth amount packed < 2 ^ 32 :=
  Nat.lt_of_le_of_lt (Nat.min_le_left _ _) (Nat.mod_lt _ (Nat.two_pow_pos 32))

theorem add_clippedWidth (h : clippedWidth amount packed ≠ 0) :
    amount + clippedWidth amount packed ≤ (unpackWidths packed).2 := by
  unfold clippedWidth at h ⊢
  omega

theorem storesWindow_nil
    {store : Option WriteLogBuffer → ℕ → Option (Option WriteLogBuffer × List Byte)}
    (h : ∀ log flags, store log flags = some (log, dst)) :
    StoresWindow store dst src amount 0 srcBit dst := by
  refine ⟨fun j => (if_neg (by omega)).symm, fun _ => rfl, fun hpos => absurd hpos (Nat.lt_irrefl _),
    fun flags => by rw [h, ite_self], fun front flags narrowCap wideCap _ _ hn hw => ?_⟩
  obtain ⟨b, hb, hcommit⟩ := @commit_steps narrowCap wideCap [] hn hw (by simp) (by simp)
    (front ++ dst)
  obtain rfl : withCapacity narrowCap wideCap = b := by
    exact some.inj (some.inj hb)
  exact ⟨_, by rw [h, ite_self], hcommit⟩

theorem bitOf_stored {w0 : ℕ} (hfits : w0 * 8 + bytes.length ≤ dst.length) (hw0 : 64 * w0 ≤ amount)
    (hcover : amount + width ≤ 64 * w0 + 8 * bytes.length)
    (hbits : ∀ i < 8 * bytes.length, bitOf bytes i =
      if amount ≤ 64 * w0 + i ∧ 64 * w0 + i < amount + width then
        bitOf src (srcBit + (64 * w0 + i - amount))
      else bitOf dst (64 * w0 + i)) (j : ℕ) :
    bitOf (storeAt dst (w0 * 8) bytes) j =
      if amount ≤ j ∧ j < amount + width then bitOf src (srcBit + (j - amount))
      else bitOf dst j := by
  rw [bitOf_storeAt hfits]
  split
  · rename_i hin
    rw [hbits _ (by omega), show 64 * w0 + (j - 8 * (w0 * 8)) = j by omega]
  · rw [if_neg (by omega)]

/-- The merged words of a window over those of its destination. -/
def mergedWords (src : List Byte) (srcBit srcWords amount width : ℕ) (old : ℕ → BitVec 64) :
    List (BitVec 64) :=
  (List.range ((amount + width - 1) / 64 - amount / 64 + 1)).map fun k =>
    mergedWord src srcBit srcWords amount width (amount / 64 + k) (old (amount / 64 + k))

theorem bitOf_mergedWords (limit : ℕ) {srcWords : ℕ} {old : ℕ → BitVec 64} (hwidth : 0 < width)
    (hsrc : srcBit + width ≤ 64 * srcWords) (hold : ∀ word k, k < 64 → 64 * word + k < limit →
      (old word).getLsbD k = bitOf dst (64 * word + k)) {i : ℕ}
    (hi : i < 64 * ((amount + width - 1) / 64 - amount / 64 + 1))
    (hlimit : 64 * (amount / 64) + i < limit) :
    bitOf ((mergedWords src srcBit srcWords amount width old).flatMap (leBytes 8)) i =
      if amount ≤ 64 * (amount / 64) + i ∧ 64 * (amount / 64) + i < amount + width then
        bitOf src (srcBit + (64 * (amount / 64) + i - amount))
      else bitOf dst (64 * (amount / 64) + i) := by
  have hget : (mergedWords src srcBit srcWords amount width old).getD (i / 64) 0 =
      mergedWord src srcBit srcWords amount width (amount / 64 + i / 64)
        (old (amount / 64 + i / 64)) := by
    rw [mergedWords, getD_eq_getElem?_getD, getElem?_map, getElem?_range (by omega)]
    rfl
  have hplace : 64 * (amount / 64 + i / 64) + i % 64 = 64 * (amount / 64) + i := by omega
  rw [bitOf_flatMap_leBytes, hget, getLsbD_mergedWord (by omega) (by omega) hsrc
    (Nat.mod_lt _ (by omega)), hplace]
  rw [hold _ _ (Nat.mod_lt _ (by omega)) (by omega), hplace]

theorem length_mergedWords (src : List Byte) (srcBit srcWords amount width : ℕ)
    (old : ℕ → BitVec 64) : (mergedWords src srcBit srcWords amount width old).length =
      (amount + width - 1) / 64 - amount / 64 + 1 := by
  rw [mergedWords, length_map, length_range]

theorem wideWindowStore_eq (dst src : List Byte) (h : clippedWidth amount packed ≠ 0)
    (log : Option WriteLogBuffer)
    (flags : ℕ) : wideWindowStore log dst src amount packed flags =
      let merged := mergedWords src 0 ((clippedWidth amount packed + 63) / 64) amount
        (clippedWidth amount packed) (rd dst)
      (pushAll log (pushWideRange (u32 ((unpackFlags flags).1 + amount / 64 * 8))
        (merged.flatMap (leBytes 8)))).map fun log =>
          (log, if (unpackFlags flags).2 then
            storeBlocks (merged.map (leBytes 8)) (amount / 64 * 8) dst else dst) := by
  exact if_neg fun hnone => h (clippedWidth_eq_zero.2 hnone)

/-- Bytes pushed as wide records are stored when the log is committed. -/
theorem commit_pushWideRange {front : List Byte} {offset narrowCap wideCap : ℕ}
    (hpos : 0 < bytes.length) (hbytes : bytes.length ≤ 2 ^ 31)
    (hfits : offset + bytes.length ≤ dst.length) (hbuf : (front ++ dst).length ≤ 2 ^ 32)
    (hn : narrowCap < 2 ^ 32) (hw : wideCap < 2 ^ 32) :
    ∃ b, pushAll (some (withCapacity narrowCap wideCap))
        (pushWideRange (u32 (front.length + offset)) bytes) = some (some b) ∧
      ffCommitFromLog (front ++ dst) b = front ++ storeAt dst offset bytes := by
  obtain ⟨hnarrow, hdemand, hdemand', hstore⟩ :=
    pushWideRange_spec _ (u32 (front.length + offset)) bytes (Nat.le_refl _)
  obtain ⟨b, hb, hcommit⟩ := commit_steps hn hw (by rw [hdemand]; omega) (hdemand'.trans hbytes)
    (front ++ dst)
  rw [length_append] at hbuf
  have hoffset : u32 (front.length + offset) = front.length + offset := Nat.mod_eq_of_lt (by omega)
  refine ⟨b, hb, ?_⟩
  rw [hcommit, recordPatches, hnarrow, map_nil, nil_append, hstore _
    (by rw [length_append, hoffset]; omega) (by rw [length_append]; exact hbuf), hoffset,
    storeAt_front]

theorem wideWindowStore_stores (dst src : List Byte) (amount packed : ℕ)
    (hdst : clippedWidth amount packed ≠ 0 →
      ((amount + clippedWidth amount packed - 1) / 64 + 1) * 8 ≤ dst.length) :
    ∃ dst', StoresWindow (fun log flags => wideWindowStore log dst src amount packed flags) dst src
      amount (clippedWidth amount packed) 0 dst' := by
  by_cases hzero : clippedWidth amount packed = 0
  · rw [hzero]
    refine ⟨dst, storesWindow_nil fun log flags => ?_⟩
    exact if_pos (clippedWidth_eq_zero.1 hzero)
  have hlt := @clippedWidth_lt amount packed
  have hrun := wideWindowStore_eq dst src hzero
  generalize clippedWidth amount packed = c at *
  dsimp only at hrun
  generalize hmerged : mergedWords src 0 ((c + 63) / 64) amount c (rd dst) = merged at hrun
  have hlength : (merged.flatMap (leBytes 8)).length =
      ((amount + c - 1) / 64 - amount / 64 + 1) * 8 := by
    rw [length_flatMap_leBytes, ← hmerged, length_mergedWords]
  have hfits : amount / 64 * 8 + (merged.flatMap (leBytes 8)).length ≤ dst.length := by omega
  have hplace : storeBlocks (merged.map (leBytes 8)) (amount / 64 * 8) dst =
      storeAt dst (amount / 64 * 8) (merged.flatMap (leBytes 8)) := by
    rw [storeBlocks_eq _ _ _ (wholeWords_of_length fun b hb => ?_)
      (by rwa [← flatMap_def]), ← flatMap_def]
    obtain ⟨v, -, rfl⟩ := mem_map.1 hb
    exact length_leBytes 8 v
  rw [hplace] at hrun
  refine ⟨storeAt dst (amount / 64 * 8) (merged.flatMap (leBytes 8)),
    bitOf_stored hfits (by omega) (by omega) fun i hi => ?_, fun h => absurd h hzero,
    fun _ => ⟨_, rfl, by omega⟩, fun flags => ?_, fun front flags narrowCap wideCap hfront hbuf hn hw => ?_⟩
  · rw [← hmerged]
    refine bitOf_mergedWords (8 * dst.length) (by omega) (by omega)
      (fun word k hk _ => getLsbD_rd dst word hk) (by omega) (by omega)
  · rw [hrun]
    rfl
  · obtain ⟨b, hb, hcommit⟩ := commit_pushWideRange (by omega) (by omega) hfits hbuf hn hw
    exact ⟨b, by rw [hrun, ← hfront, hb]; rfl, hcommit⟩

theorem wideWindowStoreFrom_eq (dst src : List Byte) (srcBit : ℕ)
    (h : clippedWidth amount packed ≠ 0) (log : Option WriteLogBuffer)
    (flags : ℕ) : wideWindowStoreFrom log dst src amount packed flags srcBit =
      let dstNb := nativeBytes (unpackWidths packed).2
      let merged := mergedWords src srcBit ((srcBit + clippedWidth amount packed + 63) / 64) amount
        (clippedWidth amount packed) (selectWord dst dstNb)
      let steps :=
        if dstNb ≤ 16 then
          merged.mapIdx fun k value => pushNarrow
            (u32 ((unpackFlags flags).1 + (amount / 64 + k) * 8)) value (min dstNb 8)
        else
          pushWideRange (u32 ((unpackFlags flags).1 + amount / 64 * 8))
            ((merged.flatMap (leBytes 8)).take (min (dstNb - amount / 64 * 8)
              (((amount + clippedWidth amount packed - 1) / 64 - amount / 64 + 1) * 8)))
      (pushAll log steps).map fun log =>
        (log, if (unpackFlags flags).2 then
          storeBlocks (merged.mapIdx fun k v =>
            (leBytes 8 v).take (min (dstNb - (amount / 64 + k) * 8) 8)) (amount / 64 * 8) dst
          else dst) := by
  exact if_neg fun hnone => h (clippedWidth_eq_zero.2 hnone)

theorem nativeBytes_words (width : ℕ) : width ≤ 8 * nativeBytes width ∧
    (nativeBytes width ∈ [1, 2, 4] ∧ width ≤ 32 ∨
      32 < width ∧ nativeBytes width = 8 * ((width + 63) / 64)) := by
  unfold nativeBytes
  simp only [mem_cons, not_mem_nil, or_false]
  split <;> try omega
  split <;> try omega
  split <;> try omega
  split <;> try omega
  split <;> omega

theorem wholeWords_cons {b : List Byte} {bs : List (List Byte)} (hb : b.length = 8)
    (hbs : WholeWords bs) : WholeWords (b :: bs) := by
  cases bs with
  | nil => trivial
  | cons c bs => exact ⟨hb, hbs⟩

theorem take_leBytes {n : ℕ} (v : BitVec 64) (hn : n ≤ 8) : (leBytes 8 v).take n = leBytes n v := by
  rw [leBytes, leBytes, ← map_take, take_range, Nat.min_eq_left hn]

theorem narrowSteps : ∀ steps : List LogStep,
    (∀ s ∈ steps, ∃ offset v width, s = .pushNarrow offset v width) →
      steps.flatMap wideEntries = [] ∧ (steps.map fun s => s.demand.1).sum = steps.length ∧
        (steps.map fun s => s.demand.2).sum = 0
  | [], _ => ⟨rfl, rfl, rfl⟩
  | s :: steps, h => by
    obtain ⟨hwide, hdemand, hdemand'⟩ := narrowSteps steps fun s hs => h s (mem_cons_of_mem _ hs)
    obtain ⟨offset, v, width, rfl⟩ := h s (mem_cons_self ..)
    refine ⟨hwide, ?_, ?_⟩
    · rw [map_cons, sum_cons, hdemand, length_cons]
      exact Nat.add_comm _ _
    · rw [map_cons, sum_cons, hdemand']
      rfl

theorem wholeWords_mapIdx (nb w0 : ℕ) : ∀ (vs : List (BitVec 64)) (k : ℕ),
    (∀ j, j + 1 < vs.length → (w0 + (k + j) + 1) * 8 ≤ nb) →
      WholeWords (vs.mapIdx fun j v => (leBytes 8 v).take (min (nb - (w0 + (k + j)) * 8) 8))
  | [], _, _ => trivial
  | [_], _, _ => trivial
  | v :: u :: vs, k, h => by
    have hfun : ∀ us : List (BitVec 64), (us.mapIdx fun j v =>
        (leBytes 8 v).take (min (nb - (w0 + (k + (j + 1))) * 8) 8)) =
          us.mapIdx fun j v => (leBytes 8 v).take (min (nb - (w0 + (k + 1 + j)) * 8) 8) := fun us => by
      congr 1
      funext j v
      rw [Nat.add_right_comm, Nat.add_assoc k j 1]
    have hfirst := h 0 (by simp)
    rw [mapIdx_cons, hfun]
    refine wholeWords_cons ?_ (wholeWords_mapIdx nb w0 (u :: vs) (k + 1) fun j hj => ?_)
    · rw [length_take, length_leBytes]
      omega
    · have hnext := h (j + 1) (by simpa using hj)
      omega

theorem wideWindowStoreFrom_stores (dst src : List Byte) (amount packed srcBit : ℕ)
    (hdst : nativeBytes (unpackWidths packed).2 ≤ dst.length) :
    ∃ dst', StoresWindow (fun log flags => wideWindowStoreFrom log dst src amount packed flags srcBit)
      dst src amount (clippedWidth amount packed) srcBit dst' := by
  by_cases hzero : clippedWidth amount packed = 0
  · rw [hzero]
    refine ⟨dst, storesWindow_nil fun log flags => ?_⟩
    exact if_pos (clippedWidth_eq_zero.1 hzero)
  have hend := add_clippedWidth hzero
  have hlt := @clippedWidth_lt amount packed
  have hrun := wideWindowStoreFrom_eq dst src srcBit hzero
  obtain ⟨hnb, hshape⟩ := nativeBytes_words (unpackWidths packed).2
  generalize clippedWidth amount packed = c at *
  generalize (unpackWidths packed).2 = dstWidth at *
  generalize nativeBytes dstWidth = nb at *
  dsimp only at hrun
  generalize hmerged : mergedWords src srcBit ((srcBit + c + 63) / 64) amount c (selectWord dst nb) =
    merged at hrun
  have hcount : merged.length = (amount + c - 1) / 64 - amount / 64 + 1 := by
    rw [← hmerged, length_mergedWords]
  -- the words of the window lie in whole words of the storage, or in a short one
  have hinside : (amount + c - 1) / 64 = 0 ∧ nb < 8 ∧ nb ∈ [1, 2, 4] ∨
      ((amount + c - 1) / 64 + 1) * 8 ≤ nb ∧ 8 ≤ nb := by
    rcases hshape with ⟨hmem, hshort⟩ | ⟨hlong, heq⟩
    · have hlt8 : nb < 8 := by
        simp only [mem_cons, not_mem_nil, or_false] at hmem
        omega
      exact .inl ⟨by omega, hlt8, hmem⟩
    · exact .inr ⟨by omega, by omega⟩
  have hflat := flatten_cut nb merged (amount / 64)
  generalize hbytes : (merged.flatMap (leBytes 8)).take (nb - amount / 64 * 8) = bytes at hflat
  have hlength : bytes.length = min (nb - amount / 64 * 8)
      (((amount + c - 1) / 64 - amount / 64 + 1) * 8) := by
    rw [← hbytes, length_take, length_flatMap_leBytes, hcount]
  have hfits : amount / 64 * 8 + bytes.length ≤ dst.length := by omega
  have hwhole : WholeWords (merged.mapIdx fun k v =>
      (leBytes 8 v).take (min (nb - (amount / 64 + k) * 8) 8)) := by
    have h := wholeWords_mapIdx nb (amount / 64) merged 0 fun j hj => by
      omega
    simpa only [Nat.zero_add] using h
  have hplace : ∀ (buf : List Byte) (offset : ℕ), offset + bytes.length ≤ buf.length →
      storeBlocks (merged.mapIdx fun k v => (leBytes 8 v).take (min (nb - (amount / 64 + k) * 8) 8))
        offset buf = storeAt buf offset bytes := fun buf offset h => by
    rw [storeBlocks_eq _ _ _ hwhole (by rwa [hflat]), hflat]
  rw [hplace dst _ hfits] at hrun
  refine ⟨storeAt dst (amount / 64 * 8) bytes,
    bitOf_stored hfits (by omega) (by omega) fun i hi => ?_, fun h => absurd h hzero,
    fun _ => ⟨_, rfl, by omega⟩, fun flags => ?_,
    fun front flags narrowCap wideCap hfront hbuf hn hw => ?_⟩
  · rw [← hbytes, bitOf_take, decide_eq_true (by omega), Bool.true_and, ← hmerged]
    refine bitOf_mergedWords (8 * nb) (by omega) (by omega) (fun word k hk hlimit => ?_) (by omega)
      (by omega)
    rw [getLsbD_selectWord dst nb word hk, decide_eq_true hlimit, Bool.true_and]
  · rw [hrun]
    rfl
  rw [length_append] at hbuf
  have hfront' : front.length + amount / 64 * 8 + bytes.length ≤ (front ++ dst).length := by
    rw [length_append]
    omega
  -- short values are logged in narrow records, the others in wide ones
  have hrun := hrun (some (withCapacity narrowCap wideCap)) flags
  by_cases hnarrow : nb ≤ 16
  · have hsteps : (fun k value => pushNarrow (u32 ((unpackFlags flags).1 + (amount / 64 + k) * 8))
        value (min nb 8)) =
          fun k value => .pushNarrow (u32 (front.length + amount / 64 * 8 + k * 8)) value (min nb 8) := by
      funext k value
      rw [hfront, Nat.add_mul, Nat.add_assoc]
    have hblocks : merged.map (leBytes (min nb 8)) = merged.mapIdx fun k v =>
        (leBytes 8 v).take (min (nb - (amount / 64 + k) * 8) 8) := by
      refine ext_getElem (by simp) fun k hk hk' => ?_
      rw [length_map] at hk
      rw [getElem_map, getElem_mapIdx, take_leBytes _ (Nat.min_le_right _ _)]
      congr 1
      omega
    rw [if_pos hnarrow, hsteps] at hrun
    obtain ⟨hwide, hdemand, hdemand'⟩ := narrowSteps (merged.mapIdx fun k value =>
      pushNarrow (u32 (front.length + amount / 64 * 8 + k * 8)) value (min nb 8)) fun s hs => by
          obtain ⟨k, hk, rfl⟩ := mem_mapIdx.1 hs
          exact ⟨_, _, _, rfl⟩
    rw [length_mapIdx] at hdemand
    obtain ⟨b, hb, hcommit⟩ := commit_steps hn hw (by rw [hdemand]; omega) (by rw [hdemand']; omega)
      (front ++ dst)
    refine ⟨b, by rw [hrun, hb]; rfl, ?_⟩
    have hwidth : min nb 8 ∈ [1, 2, 4, 8] := by
      simp only [mem_cons, not_mem_nil, or_false] at hinside ⊢
      omega
    rw [hcommit, recordPatches, hwide, map_nil, append_nil,
      foldl_narrow _ hwidth _ _ _ (by rw [length_append]; omega)
        (by rw [length_append]; exact hbuf), hblocks, hplace _ _ hfront', storeAt_front]
  · have htake : (merged.flatMap (leBytes 8)).take (min (nb - amount / 64 * 8)
        (((amount + c - 1) / 64 - amount / 64 + 1) * 8)) = bytes := by
      rw [← hbytes, ← take_take]
      congr 1
      exact take_of_length_le (by rw [length_flatMap_leBytes, hcount])
    rw [if_neg hnarrow, htake] at hrun
    obtain ⟨b, hb, hcommit⟩ := commit_pushWideRange (by omega) (by omega) hfits
      (by rwa [length_append]) hn hw
    exact ⟨b, by rw [hrun, ← hfront, hb]; rfl, hcommit⟩

end Stores

section Reads

variable {dst src : List Byte} {sourceWidth window start skip count : ℕ} {fill : BitVec 64}

/-- The window of a read lies inside the source and the result. -/
def Bounded (sourceWidth window start skip count : ℕ) : Prop :=
  count ≠ 0 → start + count ≤ sourceWidth ∧ skip + count ≤ window

instance : Decidable (Bounded sourceWidth window start skip count) :=
  inferInstanceAs (Decidable (_ → _))

theorem getLsbD_readWord {srcNb word k : ℕ} (hbounded : Bounded sourceWidth window start skip count)
    (hsrc : sourceWidth ≤ 8 * srcNb) (hk : k < 64) :
    (readWord src srcNb window start skip count fill word).getLsbD k =
      if skip ≤ 64 * word + k ∧ 64 * word + k < skip + count then
        bitOf src (start + (64 * word + k - skip))
      else decide (64 * word + k < window) && fill.getLsbD k := by
  have hwindow : skip ≤ 64 * word + k ∧ 64 * word + k < skip + count → start + count ≤ sourceWidth ∧
      skip + count ≤ window := fun h => hbounded (by omega)
  have hvalue : ∀ i < 64, (fill &&& if 64 ≤ min (window - word * 64) 64 then BitVec.allOnes 64
      else lowMask (min (window - word * 64) 64)).getLsbD i =
        (decide (64 * word + i < window) && fill.getLsbD i) := fun i hi => by
    have hiff : i < min (window - word * 64) 64 ↔ 64 * word + i < window := by omega
    rw [BitVec.getLsbD_and, getLsbD_mask _ hi, decide_eq_decide.2 hiff, Bool.and_comm]
  unfold readWord
  dsimp only
  generalize hlo : max (word * 64) skip = lo
  split
  · rename_i hlt
    rw [getLsbD_merge _ _ _ hk, getLsbD_range (fun i hi => getLsbD_mask _ hi) hk, hvalue k hk]
    refine ite_congr (propext (decide_eq_true_iff.trans ?_)) (fun hin => ?_) fun _ => rfl
    · refine ⟨fun hin => by omega, fun hin => ?_⟩
      omega
    · have hin' := hwindow hin
      have hjoin := @getLsbD_joined (k - (lo - word * 64)) _ _
        (fun i => decide (64 * ((start + lo - skip) / 64) + i < 8 * srcNb) &&
          bitOf src (64 * ((start + lo - skip) / 64) + i)) ((start + lo - skip) % 64)
        (fun i hi => getLsbD_selectWord src srcNb ((start + lo - skip) / 64) hi)
        (fun i hi => by
          rw [getLsbD_selectWord src srcNb ((start + lo - skip) / 64 + 1) hi, Nat.mul_add,
            Nat.add_assoc])
        (Nat.mod_lt _ (by omega)) (by omega)
      rw [BitVec.getLsbD_shiftLeft, decide_eq_true hk, decide_eq_false (by omega), hjoin,
        decide_eq_true (by omega)]
      simp only [Bool.not_false, Bool.true_and]
      congr 1
      omega
  · rw [hvalue k hk, if_neg]
    omega

theorem bitOf_wideWindowRead (hbounded : Bounded sourceWidth window start skip count)
    (hdst : nativeBytes window ≤ dst.length) (j : ℕ) :
    bitOf (wideWindowRead dst src sourceWidth window start skip count fill) j =
      if window ≠ 0 ∧ j < 8 * nativeBytes window then
        if skip ≤ j ∧ j < skip + count then bitOf src (start + (j - skip))
        else decide (j < window) && fill.getLsbD (j % 64)
      else bitOf dst j := by
  obtain ⟨hnb, hshape⟩ := nativeBytes_words window
  obtain ⟨hsrc, -⟩ := nativeBytes_words sourceWidth
  unfold wideWindowRead
  dsimp only
  generalize nativeBytes window = nb at *
  generalize nativeBytes sourceWidth = srcNb at *
  generalize hwords : (List.range ((window + 63) / 64)).map
    (readWord src srcNb window start skip count fill) = words
  have hlength : words.length = (window + 63) / 64 := by
    rw [← hwords, length_map, length_range]
  have hblocks : (List.range ((window + 63) / 64)).map (fun word =>
      (leBytes 8 (readWord src srcNb window start skip count fill word)).take (min (nb - word * 8) 8)) =
        words.mapIdx fun k v => (leBytes 8 v).take (min (nb - (0 + k) * 8) 8) := by
    refine ext_getElem (by simp [hlength]) fun k hk hk' => ?_
    simp [← hwords]
  have hinside : words.length = 0 ∨ words.length = 1 ∧ nb < 8 ∨ words.length * 8 = nb := by
    rcases hshape with ⟨hmem, hshort⟩ | ⟨hlong, heq⟩
    · have hlt8 : nb < 8 := by
        simp only [mem_cons, not_mem_nil, or_false] at hmem
        omega
      omega
    · omega
  have hwhole : WholeWords (words.mapIdx fun k v => (leBytes 8 v).take (min (nb - (0 + k) * 8) 8)) := by
    have h := wholeWords_mapIdx nb 0 words 0 fun j hj => by omega
    simpa only [Nat.zero_add] using h
  have hflat := flatten_cut nb words 0
  rw [Nat.zero_mul, Nat.sub_zero] at hflat
  have hlen : ((words.flatMap (leBytes 8)).take nb).length = if window = 0 then 0 else nb := by
    rw [length_take, length_flatMap_leBytes]
    split
    · omega
    · omega
  rw [hblocks, storeBlocks_eq _ _ _ hwhole (by rw [hflat, hlen]; split <;> omega), hflat,
    bitOf_storeAt (by rw [hlen]; split <;> omega), hlen]
  by_cases hzero : window = 0
  · rw [if_neg (by rw [if_pos hzero]; omega), if_neg fun h => h.1 hzero]
  rw [if_neg hzero]
  refine ite_congr (propext ⟨fun h => ⟨hzero, by omega⟩, fun h => by omega⟩) (fun hj => ?_)
    fun _ => rfl
  have hin : j < 8 * nb := by omega
  by_cases hword : j / 64 < words.length
  · have hget : words.getD (j / 64) 0 = readWord src srcNb window start skip count fill (j / 64) := by
      rw [getD_eq_getElem _ _ hword]
      simp [← hwords]
    rw [Nat.mul_zero, Nat.sub_zero, bitOf_take, decide_eq_true hin, Bool.true_and,
      bitOf_flatMap_leBytes, hget, getLsbD_readWord hbounded hsrc (Nat.mod_lt _ (by omega)),
      Nat.div_add_mod]
  · omega

end Reads

section Together

variable {store : Option WriteLogBuffer → ℕ → Option (Option WriteLogBuffer × List Byte)}
  {dst dst' src : List Byte} {amount width srcBit : ℕ}

section

variable (h : StoresWindow store dst src amount width srcBit dst')

include h

theorem StoresWindow.length_eq : dst'.length = dst.length := by
  rcases Nat.eq_zero_or_pos width with hzero | hpos
  · rw [h.empty hzero]
  · obtain ⟨bytes, rfl, hfits⟩ := h.words hpos
    exact length_storeAt (by omega)

theorem StoresWindow.unique
    {store' : Option WriteLogBuffer → ℕ → Option (Option WriteLogBuffer × List Byte)}
    {dst'' : List Byte}
    (h' : StoresWindow store' dst src amount width srcBit dst'') : dst' = dst'' :=
  eq_of_bitOf (h.length_eq.trans h'.length_eq.symm) fun j => (h.bits j).trans (h'.bits j).symm

theorem StoresWindow.read_back {dstWidth : ℕ} (hdst : amount + width ≤ dstWidth) {out : List Byte}
    (hout : nativeBytes width ≤ out.length) (fill : BitVec 64) {j : ℕ} (hj : j < width) :
    bitOf (wideWindowRead out dst' dstWidth width amount 0 width fill) j = bitOf src (srcBit + j) := by
  have hnb := (nativeBytes_words width).1
  rw [bitOf_wideWindowRead (fun _ => ⟨hdst, by omega⟩) hout, if_pos ⟨by omega, by omega⟩,
    if_pos ⟨Nat.zero_le _, by omega⟩, h.bits, if_pos ⟨by omega, by omega⟩]
  congr 1
  omega

end

end Together

/-- Both stores copy the bits of the window that lie in the destination, in the
words of the window, and agree; what they log leaves the same buffer at the
commit; a read copies the bits of the window and fills the rest of its result; and
a stored window is read back. -/
theorem wideWindow_exact : (∀ (dst src : List Byte) (amount packed : ℕ),
      (clippedWidth amount packed ≠ 0 →
        ((amount + clippedWidth amount packed - 1) / 64 + 1) * 8 ≤ dst.length) →
      ∃ dst', StoresWindow (fun log flags => wideWindowStore log dst src amount packed flags) dst src
          amount (clippedWidth amount packed) 0 dst' ∧
        (nativeBytes (unpackWidths packed).2 ≤ dst.length →
          StoresWindow (fun log flags => wideWindowStoreFrom log dst src amount packed flags 0) dst src
            amount (clippedWidth amount packed) 0 dst')) ∧
    (∀ (dst src : List Byte) (amount packed srcBit : ℕ),
      nativeBytes (unpackWidths packed).2 ≤ dst.length →
      ∃ dst', StoresWindow
          (fun log flags => wideWindowStoreFrom log dst src amount packed flags srcBit) dst src amount
          (clippedWidth amount packed) srcBit dst' ∧
        ∀ out : List Byte, nativeBytes (clippedWidth amount packed) ≤ out.length →
          ∀ fill, ∀ j < clippedWidth amount packed,
            bitOf (wideWindowRead out dst' (unpackWidths packed).2 (clippedWidth amount packed)
              amount 0 (clippedWidth amount packed) fill) j = bitOf src (srcBit + j)) ∧
    ∀ (dst src : List Byte) (sourceWidth window start skip count : ℕ) (fill : BitVec 64),
      Bounded sourceWidth window start skip count → nativeBytes window ≤ dst.length →
      ∀ j, bitOf (wideWindowRead dst src sourceWidth window start skip count fill) j =
        if window ≠ 0 ∧ j < 8 * nativeBytes window then
          if skip ≤ j ∧ j < skip + count then bitOf src (start + (j - skip))
          else decide (j < window) && fill.getLsbD (j % 64)
        else bitOf dst j := by
  refine ⟨fun dst src amount packed hdst => ?_, fun dst src amount packed srcBit hdst => ?_,
    fun dst src sourceWidth window start skip count fill hbounded hdst =>
      bitOf_wideWindowRead hbounded hdst⟩
  · obtain ⟨dst', hstore⟩ := wideWindowStore_stores dst src amount packed hdst
    refine ⟨dst', hstore, fun hnb => ?_⟩
    obtain ⟨dst'', hfrom⟩ := wideWindowStoreFrom_stores dst src amount packed 0 hnb
    rwa [← hfrom.unique hstore]
  · obtain ⟨dst', hstore⟩ := wideWindowStoreFrom_stores dst src amount packed srcBit hdst
    refine ⟨dst', hstore, fun out hout fill j hj => ?_⟩
    exact hstore.read_back (add_clippedWidth (by omega)) hout fill hj

/-- A window of ten bits over the end of the first word. -/
theorem wideWindow_exact_crossing : ∃ dst',
    StoresWindow (fun log flags => wideWindowStore log (replicate 24 0) [0xff, 0x3] 60
        (10 + 130 <<< 32) flags) (replicate 24 0) [0xff, 0x3] 60
      (clippedWidth 60 (10 + 130 <<< 32)) 0 dst' :=
  let ⟨dst', h, _⟩ := wideWindow_exact.1 (replicate 24 0) [0xff, 0x3] 60 (10 + 130 <<< 32)
    fun _ => by decide
  ⟨dst', h⟩

/-- A read does not keep the bits around its window. -/
theorem not_wideWindowRead_keeps :
    ¬ ∀ (dst src : List Byte) (sourceWidth window start skip count : ℕ) (fill : BitVec 64),
      Bounded sourceWidth window start skip count → nativeBytes window ≤ dst.length →
      ∀ j, ¬ (skip ≤ j ∧ j < skip + count) →
        bitOf (wideWindowRead dst src sourceWidth window start skip count fill) j = bitOf dst j := by
  intro h
  have hkeep := h [0xff] [0] 8 8 0 4 4 0 (by decide) (by decide) 0 (by decide)
  rw [bitOf_wideWindowRead (by decide) (by decide)] at hkeep
  exact absurd hkeep (by decide)

end Veryl.Simulator.WideOps
