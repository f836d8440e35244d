import Veryl.Synthesizer.Converge

/-!
The loop ends, and from a state in which every register with a reset holds its
reset value the module it leaves shows the same values at the ports, step after
step.
-/

namespace Veryl.Synthesizer

open List Function FfCell
open GateModule (dropDqFfs eliminateDqFfs sourceValue)

variable {ff' : FfCell} {nets : List NetDriver}

variable {ffs : List FfCell} {ff : FfCell} {i j : ℕ} {out : ℕ → List (List Bool)} {init : State}
  {n : NetId} {env : Environment} {d : NetDriver} {inputs : NetId → Bool}

section Alias

variable {m : GateModule}

theorem dqAlias_append (ffs : List FfCell) (ff : FfCell) : dqAlias (ffs ++ [ff]) =
      if ff.isDq then Function.update (dqAlias ffs) ff.q (some ff.constNet) else dqAlias ffs := by
  simp [dqAlias, foldl_append]

theorem dqAlias_eq_some {c : NetId} (h : dqAlias ffs n = some c) :
    ∃ ff ∈ ffs, ff.isDq ∧ ff.q = n ∧ ff.constNet = c := by
  induction ffs using List.reverseRecOn with
  | nil => cases h
  | append_singleton ffs last ih =>
    have hearlier : dqAlias ffs n = some c →
        ∃ ff ∈ ffs ++ [last], ff.isDq ∧ ff.q = n ∧ ff.constNet = c := by
      intro h
      obtain ⟨ff, hff, hrest⟩ := ih h
      exact ⟨ff, mem_append_left _ hff, hrest⟩
    rw [dqAlias_append] at h
    split at h
    · rename_i hdq
      rw [update_apply] at h
      split at h
      · rename_i hn
        exact ⟨last, by simp, hdq, hn.symm, Option.some.inj h⟩
      · exact hearlier h
    · exact hearlier h

theorem isSome_dqAlias (hff : ff ∈ ffs) (hdq : ff.isDq) : (dqAlias ffs ff.q).isSome := by
  induction ffs using List.reverseRecOn with
  | nil => cases hff
  | append_singleton ffs last ih =>
    rw [dqAlias_append]
    obtain hff | hff := mem_append.1 hff
    · split
      · rw [update_apply]
        split
        · rfl
        · exact ih hff
      · exact ih hff
    · obtain rfl := mem_singleton.1 hff
      rw [if_pos hdq, update_self]
      rfl

/-- The flip-flop that is removed from a net. -/
def goneFf (m : GateModule) (n : NetId) : Option FfCell :=
  m.ffs.find? fun ff => ff.isDq && ff.q == n

theorem goneFf_eq_some (h : goneFf m n = some ff) : ff ∈ m.ffs ∧ ff.isDq ∧ ff.q = n := by
  have hp := find?_some h
  simp only [Bool.and_eq_true, beq_iff_eq] at hp
  exact ⟨mem_of_find?_eq_some h, hp⟩

namespace GateModule.DrivesFfs

section

variable (h : m.DrivesFfs)

include h

/-- One net is the output of one flip-flop. -/
theorem eq_of_q (hff : ff ∈ m.ffs) (hff' : ff' ∈ m.ffs) (hq : ff.q = ff'.q) : ff = ff' := by
  obtain ⟨i, hi⟩ := mem_iff_getElem?.1 hff
  obtain ⟨j, hj⟩ := mem_iff_getElem?.1 hff'
  have hdriver := (h.driver_eq i ff hi).symm.trans (hq ▸ h.driver_eq j ff' hj)
  obtain rfl : i = j := by simpa using hdriver
  exact Option.some.inj (hi.symm.trans hj)

theorem driver_of_mem (hff : ff ∈ m.ffs) : ∃ i, m.nets[ff.q]? = some (.ffQ i) := by
  obtain ⟨i, hi⟩ := mem_iff_getElem?.1 hff
  exact ⟨i, h.driver_eq i ff hi⟩

theorem goneFf_q (hff : ff ∈ m.ffs) (hdq : ff.isDq) : goneFf m ff.q = some ff := by
  cases hgone : goneFf m ff.q with
  | none =>
    have hnone := find?_eq_none.1 hgone ff hff
    simp [hdq] at hnone
  | some ff' =>
    obtain ⟨hff', -, hq⟩ := goneFf_eq_some hgone
    rw [h.eq_of_q hff' hff hq]

theorem dqAlias_eq (n : NetId) : dqAlias m.ffs n = (goneFf m n).map constNet := by
  cases halias : dqAlias m.ffs n with
  | some c =>
    obtain ⟨ff, hff, hdq, rfl, rfl⟩ := dqAlias_eq_some halias
    rw [h.goneFf_q hff hdq]
    rfl
  | none =>
    cases hgone : goneFf m n with
    | none => rfl
    | some ff =>
      obtain ⟨hff, hdq, rfl⟩ := goneFf_eq_some hgone
      have hsome := isSome_dqAlias hff hdq
      rw [halias] at hsome
      cases hsome

theorem goneFf_eq_none (hn : ∀ i, m.nets[n]? ≠ some (.ffQ i)) : goneFf m n = none := by
  refine Option.eq_none_iff_forall_ne_some.2 fun ff hff => ?_
  obtain ⟨hmem, -, rfl⟩ := goneFf_eq_some hff
  obtain ⟨i, hi⟩ := h.driver_of_mem hmem
  exact hn i hi

end

end GateModule.DrivesFfs

end Alias

section Drop

variable {m : GateModule} {n : NetId}

theorem not_ffQ_of_constOf {b : Bool} (h : constOf nets n = some b) (i : ℕ) :
    nets[n]? ≠ some (.ffQ i) := by
  intro hi
  rw [constOf, hi] at h
  cases h

theorem rename_of_none (h : m.DrivesFfs) (hn : goneFf m n = none) :
    rename (dqAlias m.ffs) n = n := by
  rw [rename, h.dqAlias_eq, hn]
  rfl

theorem rename_of_some (h : m.DrivesFfs) (hn : goneFf m n = some ff) :
    rename (dqAlias m.ffs) n = ff.constNet := by
  rw [rename, h.dqAlias_eq, hn]
  rfl

theorem constOf_constNet (hm : m.WellFormed) (ff : FfCell) :
    constOf m.nets ff.constNet = some ff.resetValue := by
  unfold constNet
  cases ff.resetValue
  · exact hm.gnd
  · exact hm.vdd

theorem goneFf_rename (hm : m.WellFormed) (h : m.DrivesFfs) (n : NetId) :
    goneFf m (rename (dqAlias m.ffs) n) = none := by
  cases hn : goneFf m n with
  | none => rw [rename_of_none h hn, hn]
  | some ff =>
    rw [rename_of_some h hn]
    exact h.goneFf_eq_none (not_ffQ_of_constOf (constOf_constNet hm ff))

theorem getElem?_dropDqFfs (m : GateModule) (n : NetId) :
    m.dropDqFfs.nets[n]? = m.nets[n]?.map (compactFfDriver m.ffs) := getElem?_map

theorem driver_dropDqFfs (hd : ∀ i, d ≠ .ffQ i) (hundriven : d ≠ .undriven) :
    m.dropDqFfs.nets[n]? = some d ↔ m.nets[n]? = some d := by
  refine getElem?_map_driver (fun e => ?_) n
  cases e with
  | ffQ i =>
    rw [compactFfDriver]
    split <;> simp [Ne.symm (hd _), Ne.symm hundriven]
  | _ => rfl

theorem ffIndexMap_spec : ffIndexMap ffs i = some j ↔
      ∃ ff, ffs[i]? = some ff ∧ isKept ff ∧ ((ffs.take i).filter isKept).length = j := by
  rw [← keptIndex_spec, ffIndexMap]
  cases ffs[i]? <;> rfl

theorem dropDqFfs_eq_ffQ : m.dropDqFfs.nets[n]? = some (.ffQ j) ↔
      ∃ i, m.nets[n]? = some (.ffQ i) ∧ ffIndexMap m.ffs i = some j := by
  rw [getElem?_dropDqFfs]
  cases m.nets[n]? with
  | none => simp
  | some d =>
    cases d with
    | ffQ i =>
      simp only [Option.map_some, compactFfDriver]
      cases hmap : ffIndexMap m.ffs i <;> simp [hmap]
    | _ => simp [compactFfDriver]

theorem constOf_dropDqFfs (m : GateModule) (n : NetId) :
    constOf m.dropDqFfs.nets n = constOf m.nets n := by
  refine constOf_map_driver (fun d => ?_) n
  cases d with
  | ffQ i =>
    rw [compactFfDriver]
    split <;> rfl
  | _ => rfl

/-- The new form of a flip-flop that stays. -/
def FfCell.mapPins (f : NetId → NetId) (ff : FfCell) : FfCell :=
  { ff with d := f ff.d, clock := f ff.clock, reset := ff.reset.map f }

theorem getElem?_ffs_dropDqFfs {j : ℕ} {ff' : FfCell} : m.dropDqFfs.ffs[j]? = some ff' ↔
      ∃ i ff, m.ffs[i]? = some ff ∧ ffIndexMap m.ffs i = some j ∧
        ff.mapPins (rename (dqAlias m.ffs)) = ff' := by
  have hmap : m.dropDqFfs.ffs = (m.ffs.filter isKept).map (mapPins (rename (dqAlias m.ffs))) := rfl
  rw [hmap, getElem?_map, Option.map_eq_some_iff]
  constructor
  · rintro ⟨ff, hff, hpins⟩
    obtain ⟨i, hi, hkept, hlength⟩ := (filter_getElem? isKept m.ffs j ff).1 hff
    exact ⟨i, ff, hi, ffIndexMap_spec.2 ⟨ff, hi, hkept, hlength⟩, hpins⟩
  · rintro ⟨i, ff, hi, hindex, hpins⟩
    obtain ⟨ff', hi', hkept, hlength⟩ := ffIndexMap_spec.1 hindex
    obtain rfl := Option.some.inj (hi.symm.trans hi')
    exact ⟨ff, (filter_getElem? isKept m.ffs j ff).2 ⟨i, hi, hkept, hlength⟩, hpins⟩

theorem drives_dropDqFfs (hm : m.WellFormed) : m.dropDqFfs.WellFormed := by
  have hcell : ∀ {n : NetId} {i : ℕ},
      m.dropDqFfs.nets[n]? = some (.cell i) ↔ m.nets[n]? = some (.cell i) :=
    driver_dropDqFfs (by simp) (by simp)
  have hcells : ∀ i, m.dropDqFfs.cells[i]? = m.cells[i]?.map fun c : Cell =>
      { c with inputs := c.inputs.map (rename (dqAlias m.ffs)) } := fun i => getElem?_map
  refine ⟨(constOf_dropDqFfs ..).trans hm.gnd, (constOf_dropDqFfs ..).trans hm.vdd,
    fun i c hc => ?_, fun n i hn => ?_, fun c hc => ?_⟩
  · rw [hcells] at hc
    obtain ⟨d, hd, rfl⟩ := Option.map_eq_some_iff.1 hc
    exact hcell.2 (hm.driver_eq i d hd)
  · obtain ⟨c, hc, hout⟩ := hm.cell_of n i (hcell.1 hn)
    exact ⟨_, (hcells i).trans (congrArg _ hc), hout⟩
  · obtain ⟨d, hd, rfl⟩ := mem_map.1 hc
    rw [length_map]
    exact hm.arity d hd

theorem acyclic_dropDqFfs (hm : m.WellFormed) (h : m.DrivesFfs) (hacyclic : m.Acyclic) :
    m.dropDqFfs.Acyclic := by
  obtain ⟨r, hr⟩ := hacyclic.ranked hm
  refine ⟨r, fun c hc n hn => ?_⟩
  obtain ⟨d, hd, rfl⟩ := mem_map.1 hc
  obtain ⟨k, hk, rfl⟩ := mem_map.1 hn
  have hlt := hr.lt d hd k hk
  cases hgone : goneFf m k with
  | none => rwa [rename_of_none h hgone]
  | some ff =>
    -- a constant is at the bottom
    rw [rename_of_some h hgone, hr.zero ff.constNet fun i hi => ?_]
    · exact Nat.zero_lt_of_lt hlt
    · have hconst := constOf_constNet hm ff
      rw [constOf, hi] at hconst
      cases hconst

section

variable (h : m.DrivesFfs)

include h

theorem drivesFfs_dropDqFfs : m.dropDqFfs.DrivesFfs := by
  refine ⟨fun n j hn => ?_, fun j ff' hff' => ?_⟩
  · obtain ⟨i, hi, hindex⟩ := dropDqFfs_eq_ffQ.1 hn
    obtain ⟨ff, hff, hq⟩ := h.ff_of n i hi
    exact ⟨_, getElem?_ffs_dropDqFfs.2 ⟨i, ff, hff, hindex, rfl⟩, hq⟩
  · obtain ⟨i, ff, hff, hindex, rfl⟩ := getElem?_ffs_dropDqFfs.1 hff'
    exact dropDqFfs_eq_ffQ.2 ⟨i, h.driver_eq i ff hff, hindex⟩

/-- A flip-flop that drives a net and is not removed has a new place. -/
theorem ffIndexMap_of_goneFf_eq_none (hn : goneFf m n = none)
    (hi : m.nets[n]? = some (.ffQ i)) : ∃ j, ffIndexMap m.ffs i = some j := by
  obtain ⟨ff, hff, rfl⟩ := h.ff_of n i hi
  have hkept : isKept ff := by
    cases hdq : ff.isDq with
    | false => simp [isKept, hdq]
    | true =>
      rw [h.goneFf_q (mem_of_getElem? hff) hdq] at hn
      cases hn
  exact ⟨_, ffIndexMap_spec.2 ⟨ff, hff, hkept, rfl⟩⟩

/-- The flip-flop of a net is the new form of the one it had. -/
theorem ff_dropDqFfs
    (hn : m.dropDqFfs.nets[n]? = some (.ffQ j)) (hff' : m.dropDqFfs.ffs[j]? = some ff') :
    ∃ i ff, m.nets[n]? = some (.ffQ i) ∧ m.ffs[i]? = some ff ∧
      ff.mapPins (rename (dqAlias m.ffs)) = ff' := by
  obtain ⟨ff₂, hff₂, hq⟩ := (drivesFfs_dropDqFfs h).ff_of n j hn
  obtain rfl := Option.some.inj (hff'.symm.trans hff₂)
  obtain ⟨i, ff, hff, -, rfl⟩ := getElem?_ffs_dropDqFfs.1 hff'
  exact ⟨i, ff, hq ▸ h.driver_eq i ff hff, hff, rfl⟩

theorem sourceValue_dropDqFfs (hn : goneFf m n = none) (inputs : NetId → Bool)
    (ram : ℕ → ℕ → ℕ → Bool) (s : State) :
    m.dropDqFfs.sourceValue inputs ram s n = m.sourceValue inputs ram s n := by
  cases hd : m.nets[n]? with
  | none => simp [sourceValue, getElem?_dropDqFfs, hd]
  | some d =>
    cases d with
    | ffQ i =>
      obtain ⟨j, hj⟩ := ffIndexMap_of_goneFf_eq_none h hn hd
      have hdriver := dropDqFfs_eq_ffQ.2 ⟨i, hd, hj⟩
      simp [sourceValue, hd, hdriver]
    | _ => simp [sourceValue, getElem?_dropDqFfs, hd, compactFfDriver]

/-- The net of a removed flip-flop is left without a driver. -/
theorem undriven_of_goneFf (hn : goneFf m n = some ff) : m.dropDqFfs.nets[n]? = some .undriven := by
  obtain ⟨hmem, hdq, rfl⟩ := goneFf_eq_some hn
  obtain ⟨i, hi⟩ := mem_iff_getElem?.1 hmem
  have hindex : ffIndexMap m.ffs i = none := by simp [ffIndexMap, hi, isKept, hdq]
  rw [getElem?_dropDqFfs, h.driver_eq i ff hi]
  simp [compactFfDriver, hindex]

end

end Drop

theorem FfCell.next_hold {d clock : Bool} {reset : Option Bool} {s : FfState}
    (hd : d = ff.resetValue) (hs : s.q = ff.resetValue) :
    ff.next d clock reset s = ⟨ff.resetValue, clock⟩ := by
  simp [next, hd, hs]

@[simp] theorem FfCell.next_mapPins (f : NetId → NetId) (ff : FfCell) :
    (ff.mapPins f).next = ff.next := rfl

theorem FfCell.isDq_iff : ff.isDq = true ↔ ff.d = ff.q ∧ ff.reset.isSome := by
  simp [isDq]

section Runs

variable {m : GateModule} {env : Environment} {init : State} {s : ℕ → State} {ρ : ℕ → NetId → Bool}

theorem GateModule.Run.value_ffQ (hrun : m.Run env init s ρ)
    (hi : m.nets[n]? = some (.ffQ i)) (t : ℕ) : ρ t n = (s t n).q := by
  have hsource : m.Source n := ⟨fun j hj => by simp [hi] at hj, by simp [constOf, hi, NetDriver.const?]⟩
  rw [(hrun.solves t).source_eq n hsource]
  simp [sourceValue, hi]

theorem GateModule.Run.held (hrun : m.Run env init s ρ) (h : m.DrivesFfs) (hinit : m.Initial init)
    (hff : ff ∈ m.ffs) (hdq : ff.isDq) (t : ℕ) : ρ t ff.q = ff.resetValue := by
  obtain ⟨i, hi⟩ := mem_iff_getElem?.1 hff
  have hdriver := h.driver_eq i ff hi
  obtain ⟨hd, hreset⟩ := isDq_iff.1 hdq
  have hstored : (s t ff.q).q = ff.resetValue := by
    induction t with
    | zero =>
      rw [hrun.start]
      exact hinit ff hff hreset
    | succ t ih =>
      rw [hrun.next t ff.q i ff hdriver hi]
      have hvalue : ρ t ff.d = ff.resetValue := by rw [hd, hrun.value_ffQ hdriver, ih]
      rw [next_hold hvalue ih]
  rw [hrun.value_ffQ hdriver, hstored]

/-- A valuation with the inputs at the nets that lose their driver. -/
def withoutGone (m : GateModule) (inputs ρ : NetId → Bool) (n : NetId) : Bool :=
  if (goneFf m n).isSome then inputs n else ρ n

theorem withoutGone_of_none {ρ : NetId → Bool} (hn : goneFf m n = none) :
    withoutGone m inputs ρ n = ρ n := by
  rw [withoutGone, hn]
  rfl

theorem withoutGone_rename (hm : m.WellFormed) (h : m.DrivesFfs) {ρ : NetId → Bool}
    (hρ : Solves m.nets m.cells ρ) (hheld : ∀ ff ∈ m.ffs, ff.isDq → ρ ff.q = ff.resetValue)
    (n : NetId) : withoutGone m inputs ρ (rename (dqAlias m.ffs) n) = ρ n := by
  rw [withoutGone_of_none (goneFf_rename hm h n)]
  cases hn : goneFf m n with
  | none => rw [rename_of_none h hn]
  | some ff =>
    obtain ⟨hff, hdq, rfl⟩ := goneFf_eq_some hn
    rw [rename_of_some h hn, hρ.const_eq _ _ (constOf_constNet hm ff), hheld ff hff hdq]

theorem ramInputNets_dropDqFfs (m : GateModule) :
    m.dropDqFfs.ramInputNets = m.ramInputNets.map (rename (dqAlias m.ffs)) := by
  simp [GateModule.ramInputNets, dropDqFfs, flatMap_map, map_flatMap]

theorem ramHistory_dropDqFfs {ρ ρ' : ℕ → NetId → Bool}
    (hρ : ∀ t n, ρ' t (rename (dqAlias m.ffs) n) = ρ t n) (t : ℕ) :
    m.dropDqFfs.ramHistory ρ' t = m.ramHistory ρ t := by
  refine map_congr_left fun k _ => ?_
  rw [ramInputNets_dropDqFfs, map_map]
  exact map_congr_left fun n _ => hρ k n

theorem ports_dropDqFfs {ρ ρ' : NetId → Bool} (hρ : ∀ n, ρ' (rename (dqAlias m.ffs) n) = ρ n) :
    m.dropDqFfs.ports.map (List.map ρ') = m.ports.map (List.map ρ) := by
  show (m.ports.map (List.map (rename (dqAlias m.ffs)))).map (List.map ρ') = _
  rw [map_map]
  refine map_congr_left fun port _ => ?_
  rw [comp_apply, map_map]
  exact map_congr_left fun n _ => hρ n

theorem source_dropDqFfs : m.dropDqFfs.Source n ↔ m.Source n := by
  have hcell : ∀ i, m.dropDqFfs.nets[n]? = some (.cell i) ↔ m.nets[n]? = some (.cell i) :=
    fun i => driver_dropDqFfs (by simp) (by simp)
  simp [GateModule.Source, hcell, constOf_dropDqFfs]

theorem goneFf_of_cell (hm : m.WellFormed) (h : m.DrivesFfs) {c : Cell} (hc : c ∈ m.cells) :
    goneFf m c.output = none := by
  obtain ⟨i, hi⟩ := mem_iff_getElem?.1 hc
  exact h.goneFf_eq_none fun j hj => by simp [hm.driver_eq i c hi] at hj

theorem shows_dropDqFfs (hm : m.WellFormed) (h : m.DrivesFfs) (hinit : m.Initial init)
    (hout : m.Shows env init out) :
    m.dropDqFfs.Shows env init out := by
  obtain ⟨s, ρ, hrun, hout⟩ := hout
  have hvalue : ∀ t n, withoutGone m (env.inputs t) (ρ t) (rename (dqAlias m.ffs) n) = ρ t n :=
    fun t => withoutGone_rename hm h (hrun.solves t).solves fun ff hff hdq => hrun.held h hinit hff hdq t
  refine ⟨s, fun t => withoutGone m (env.inputs t) (ρ t),
    ⟨hrun.start, fun t => ⟨⟨fun n b hb => ?_, fun c hc => ?_⟩, fun n hn => ?_⟩,
      fun t n j ff' hn hff' => ?_⟩, fun t => (hout t).trans (ports_dropDqFfs (hvalue t)).symm⟩
  · rw [constOf_dropDqFfs] at hb
    rw [withoutGone_of_none (h.goneFf_eq_none (not_ffQ_of_constOf hb))]
    exact (hrun.solves t).solves.const_eq n b hb
  · obtain ⟨d, hd, rfl⟩ := mem_map.1 hc
    rw [withoutGone_of_none (goneFf_of_cell hm h hd), (hrun.solves t).solves.cell_eq d hd, map_map]
    exact congrArg d.kind.eval (map_congr_left fun n _ => (hvalue t n).symm)
  · cases hgone : goneFf m n with
    | none =>
      rw [withoutGone_of_none hgone, sourceValue_dropDqFfs h hgone, ramHistory_dropDqFfs hvalue]
      exact (hrun.solves t).source_eq n (source_dropDqFfs.1 hn)
    | some ff => simp [withoutGone, sourceValue, hgone, undriven_of_goneFf h hgone]
  · obtain ⟨i, ff, hi, hff, rfl⟩ := ff_dropDqFfs h hn hff'
    rw [hrun.next t n i ff hi hff]
    have hreset : (ff.reset.map (rename (dqAlias m.ffs))).map
        (withoutGone m (env.inputs t) (ρ t)) = ff.reset.map (ρ t) := by
      rw [Option.map_map]
      exact Option.map_congr fun n _ => hvalue t n
    rw [next_mapPins]
    simp only [mapPins, hvalue, hreset]

/-- The state with the registers that went: each holds its reset value. -/
def withGone (m : GateModule) (init : State) (ρ : ℕ → NetId → Bool) (s : ℕ → State) (t : ℕ) :
    State := fun n =>
  match goneFf m n, t with
  | none, t => s t n
  | some ff, 0 => ⟨ff.resetValue, (init n).clock⟩
  | some ff, t + 1 => ⟨ff.resetValue, ρ t ff.clock⟩

theorem withGone_q (hn : goneFf m n = some ff) (t : ℕ) :
    (withGone m init ρ s t n).q = ff.resetValue := by
  cases t <;> simp [withGone, hn]

theorem shows_of_dropDqFfs (hm : m.WellFormed) (h : m.DrivesFfs) (hinit : m.Initial init)
    (hout : m.dropDqFfs.Shows env init out) :
    m.Shows env init out := by
  obtain ⟨s, ρ', hrun, hout⟩ := hout
  let ρ : ℕ → NetId → Bool := fun t n => ρ' t (rename (dqAlias m.ffs) n)
  have hnone : ∀ t n, goneFf m n = none → ρ t n = ρ' t n := by
    intro t n hn
    show ρ' t (rename (dqAlias m.ffs) n) = ρ' t n
    rw [rename_of_none h hn]
  have hsome : ∀ t n ff, goneFf m n = some ff → ρ t n = ff.resetValue := by
    intro t n ff hn
    show ρ' t (rename (dqAlias m.ffs) n) = ff.resetValue
    rw [rename_of_some h hn]
    exact (hrun.solves t).solves.const_eq _ _ ((constOf_dropDqFfs ..).trans (constOf_constNet hm ff))
  refine ⟨withGone m init ρ s, ρ, ⟨funext fun n => ?_,
    fun t => ⟨⟨fun n b hb => ?_, fun c hc => ?_⟩, fun n hn => ?_⟩, fun t n i ff hi hff => ?_⟩,
    fun t => (hout t).trans (ports_dropDqFfs fun _ => rfl)⟩
  · cases hgone : goneFf m n with
    | none => simp [withGone, hgone, hrun.start]
    | some ff =>
      obtain ⟨hff, hdq, rfl⟩ := goneFf_eq_some hgone
      have hheld := hinit ff hff (isDq_iff.1 hdq).2
      simp [withGone, hgone, ← hheld]
  · rw [hnone t n (h.goneFf_eq_none (not_ffQ_of_constOf hb))]
    exact (hrun.solves t).solves.const_eq n b ((constOf_dropDqFfs ..).trans hb)
  · have hmem : ({ c with inputs := c.inputs.map (rename (dqAlias m.ffs)) } : Cell) ∈ m.dropDqFfs.cells :=
      mem_map_of_mem hc
    have hvalue := (hrun.solves t).solves.cell_eq _ hmem
    rw [hnone t _ (goneFf_of_cell hm h hc)]
    refine hvalue.trans (congrArg c.kind.eval ?_)
    rw [map_map]
    rfl
  · cases hgone : goneFf m n with
    | none =>
      rw [hnone t n hgone, (hrun.solves t).source_eq n (source_dropDqFfs.2 hn),
        sourceValue_dropDqFfs h hgone, @ramHistory_dropDqFfs m ρ ρ' (fun _ _ => rfl)]
      simp [sourceValue, withGone, hgone]
    | some ff =>
      obtain ⟨hff, -, hq⟩ := goneFf_eq_some hgone
      obtain ⟨i, hi⟩ := h.driver_of_mem hff
      rw [hsome t n ff hgone]
      simp [sourceValue, hq ▸ hi, withGone_q hgone]
  · cases hgone : goneFf m n with
    | none =>
      obtain ⟨j, hj⟩ := ffIndexMap_of_goneFf_eq_none h hgone hi
      have hnext := hrun.next t n j _ (dropDqFfs_eq_ffQ.2 ⟨i, hi, hj⟩)
        (getElem?_ffs_dropDqFfs.2 ⟨i, ff, hff, hj, rfl⟩)
      simp only [withGone, hgone]
      refine hnext.trans ?_
      show ff.next _ _ ((ff.reset.map _).map _) _ = _
      rw [Option.map_map]
      rfl
    | some ff' =>
      obtain ⟨hff', hdq, hq⟩ := goneFf_eq_some hgone
      obtain ⟨ff₂, hff₂, hq₂⟩ := h.ff_of n i hi
      obtain rfl := Option.some.inj (hff.symm.trans hff₂)
      obtain rfl := h.eq_of_q hff' (mem_of_getElem? hff) (hq.trans hq₂.symm)
      have hd : ρ t ff'.d = ff'.resetValue := by
        rw [(isDq_iff.1 hdq).1, hq]
        exact hsome t n ff' hgone
      rw [next_hold hd (withGone_q hgone t)]
      simp [withGone, hgone]

end Runs

/-- The modules have the same flip-flops and, over one valuation of the sources,
the same values at every endpoint. -/
structure Joined (m m' : GateModule) : Prop where
  exists_solves : ∀ v, ∃ ρ, m'.Solves v ρ
  observe_eq : ∀ v ρ ρ', m.Solves v ρ → m'.Solves v ρ' → m'.observe ρ' = m.observe ρ
  exists_source : ∀ (inputs : NetId → Bool) (ram : ℕ → ℕ → ℕ → Bool) (s : State),
    ∃ v : NetId → Bool, (∀ n, m.Source n → v n = m.sourceValue inputs ram s n) ∧
      ∀ n, m'.Source n → v n = m'.sourceValue inputs ram s n
  ff_of : ∀ (n : NetId) (i : ℕ) (ff' : FfCell), m'.nets[n]? = some (.ffQ i) → m'.ffs[i]? = some ff' →
    ∃ ff : FfCell, m.nets[n]? = some (.ffQ i) ∧ m.ffs[i]? = some ff ∧ ff.next = ff'.next

theorem GateModule.Solves.congr {m : GateModule} {v v' ρ : NetId → Bool} (h : m.Solves v ρ)
    (hv : ∀ n, m.Source n → v n = v' n) : m.Solves v' ρ :=
  ⟨h.solves, fun n hn => (h.source_eq n hn).trans (hv n hn)⟩

/-- A run of one module is a run of the other, with the same flip-flops. -/
theorem Joined.shows {m m' : GateModule} (h : Joined m m') (hout : m.Shows env init out) :
    m'.Shows env init out := by
  obtain ⟨s, ρ, hrun, hout⟩ := hout
  choose v hv hv' using fun t =>
    h.exists_source (env.inputs t) (env.ram (m.ramHistory ρ t)) (s t)
  choose ρ' hρ' using fun t => h.exists_solves (v t)
  have hobserve : ∀ t, m'.observe (ρ' t) = m.observe (ρ t) := fun t =>
    h.observe_eq (v t) _ _ ((hrun.solves t).congr fun n hn => (hv t n hn).symm) (hρ' t)
  have hhistory : ∀ t, m'.ramHistory ρ' t = m.ramHistory ρ t := fun t =>
    map_congr_left fun k _ => congrArg (fun values => values.2.2) (hobserve k)
  refine ⟨s, ρ', ⟨hrun.start, fun t => (hρ' t).congr fun n hn => ?_, fun t n i ff' hn hff' => ?_⟩,
    fun t => (hout t).trans (congrArg Prod.fst (hobserve t)).symm⟩
  · rw [hhistory]
    exact hv' t n hn
  · obtain ⟨ff, hi, hff, hnext⟩ := h.ff_of n i ff' hn hff'
    -- the pins of the two flip-flops have the same values
    have hpins := congrArg (fun values => values.2.1[i]?) (hobserve t)
    simp only [GateModule.observe, getElem?_map, hff, hff', Option.map_some, Option.some.injEq,
      Prod.mk.injEq] at hpins
    obtain ⟨hd, hclock, hreset⟩ := hpins
    rw [hrun.next t n i ff hi hff, hnext, hd, hclock, hreset]

section Simplify

variable {m m' : GateModule}

theorem WorklistSimplify.settled (h : WorklistSimplify m m') (hm : m.WellFormed)
    (hacyclic : m.Acyclic) : ∃ st r, Settled m.nets m.cells r st ∧ m' = m.finish st.cells := by
  obtain ⟨r, hr⟩ := hacyclic.ranked hm
  obtain ⟨st, hsteps, -, rfl⟩ := h
  obtain ⟨r', hsettled⟩ := settled_of_steps hsteps (settled_start hm hr)
  exact ⟨st, r', hsettled, rfl⟩

theorem length_le_of_drives {cells cells' : List Cell}
    (h : Drives nets cells) (h' : Drives nets cells') : cells.length ≤ cells'.length := by
  refine Nat.not_lt.1 fun hlt => ?_
  obtain ⟨c, hc⟩ : ∃ c, cells[cells'.length]? = some c := ⟨_, getElem?_eq_getElem hlt⟩
  obtain ⟨d, hd, -⟩ := h'.cell_of _ _ (h.driver_eq _ c hc)
  simp at hd

theorem length_worklistSimplify (h : WorklistSimplify m m') (hm : m.WellFormed)
    (hacyclic : m.Acyclic) :
    m'.cells.length ≤ m.cells.length ∧ m'.ffs.length = m.ffs.length := by
  obtain ⟨st, r, hsettled, rfl⟩ := h.settled hm hacyclic
  refine ⟨?_, length_map _⟩
  calc (st.cells.filter isLive).length ≤ st.cells.length := length_filter_le ..
    _ ≤ m.cells.length := length_le_of_drives hsettled.drives hm

theorem driver_finish (m : GateModule) (cells : List Cell)
    (hd : ∀ i, d ≠ .cell i) (hundriven : d ≠ .undriven) :
    (m.finish cells).nets[n]? = some d ↔ m.nets[n]? = some d := by
  show (m.nets.map (compactDriver cells))[n]? = some d ↔ _
  rw [map_compactDriver, redrive_eq hd hundriven]

theorem getElem?_ffs_finish (m : GateModule) (cells : List Cell) (i : ℕ) :
    (m.finish cells).ffs[i]? =
      m.ffs[i]?.map (mapPins (resolveAlias m.nets cells (cells.length + 1))) :=
  getElem?_map

theorem drivesFfs_finish (h : m.DrivesFfs) (cells : List Cell) : (m.finish cells).DrivesFfs := by
  have hffQ : ∀ {n : NetId} {i : ℕ},
      (m.finish cells).nets[n]? = some (.ffQ i) ↔ m.nets[n]? = some (.ffQ i) :=
    driver_finish m cells (by simp) (by simp)
  refine ⟨fun n i hn => ?_, fun i ff hff => ?_⟩
  · obtain ⟨ff, hff, hq⟩ := h.ff_of n i (hffQ.1 hn)
    exact ⟨_, (getElem?_ffs_finish m cells i).trans (congrArg _ hff), hq⟩
  · rw [getElem?_ffs_finish] at hff
    obtain ⟨before, hbefore, rfl⟩ := Option.map_eq_some_iff.1 hff
    exact hffQ.2 (h.driver_eq i before hbefore)

theorem sourceValue_redrive {index : ℕ → Option ℕ} (hnets : m'.nets = m.nets.map (redrive index))
    (hn : m.Source n) (inputs : NetId → Bool) (ram : ℕ → ℕ → ℕ → Bool) (s : State) :
    m'.sourceValue inputs ram s n = m.sourceValue inputs ram s n := by
  unfold sourceValue
  rw [hnets, getElem?_map]
  cases hd : m.nets[n]? with
  | none => rfl
  | some d =>
    cases d with
    | cell i => exact absurd hd (hn.1 i)
    | _ => rfl

theorem joined_worklistSimplify (h : WorklistSimplify m m') (hm : m.WellFormed)
    (hacyclic : m.Acyclic) : Joined m m' ∧ Joined m' m := by
  obtain ⟨st, r, hsettled, rfl⟩ := h.settled hm hacyclic
  obtain ⟨r₀, hr₀⟩ := hacyclic.ranked hm
  obtain ⟨r', hr'⟩ := ranked_compact hsettled
  have hobserve := fun v ρ ρ' => @observe_finish st r m hsettled v ρ ρ'
  have hffQ : ∀ {n : NetId} {i : ℕ},
      (m.finish st.cells).nets[n]? = some (.ffQ i) ↔ m.nets[n]? = some (.ffQ i) :=
    driver_finish m st.cells (by simp) (by simp)
  -- the values of the sources of the result serve both modules
  refine ⟨⟨fun v => (existsUnique_solves hr' (drives_compact hsettled.drives) v).exists, hobserve,
      fun inputs ram s =>
      ⟨(m.finish st.cells).sourceValue inputs ram s,
        fun n hn => sourceValue_redrive (map_compactDriver ..) hn inputs ram s, fun _ _ => rfl⟩,
      fun n i ff' hn hff' => ?_⟩,
    ⟨fun v => (existsUnique_solves hr₀ hm v).exists, fun v ρ ρ' hρ hρ' => (hobserve v ρ' ρ hρ' hρ).symm,
      fun inputs ram s => ⟨(m.finish st.cells).sourceValue inputs ram s, fun _ _ => rfl,
        fun n hn => sourceValue_redrive (map_compactDriver ..) hn inputs ram s⟩,
      fun n i ff hn hff => ?_⟩⟩
  · rw [getElem?_ffs_finish] at hff'
    obtain ⟨ff, hff, rfl⟩ := Option.map_eq_some_iff.1 hff'
    exact ⟨ff, hffQ.1 hn, hff, rfl⟩
  · exact ⟨_, hffQ.2 hn, (getElem?_ffs_finish m st.cells i).trans (congrArg _ hff), rfl⟩

end Simplify

/-- What every turn keeps. -/
structure GateModule.Sound (m : GateModule) : Prop where
  wellFormed : m.WellFormed
  acyclic : m.Acyclic
  drivesFfs : m.DrivesFfs

/-- Two modules with the same flip-flops, and the same values at the endpoints, show the same. -/
theorem shows_iff {m m' : GateModule} (hm : m.Sound) (hm' : m'.Sound) (hffs : m'.ffs = m.ffs)
    (hffQ : ∀ (n : NetId) (i : ℕ), m'.nets[n]? = some (.ffQ i) ↔ m.nets[n]? = some (.ffQ i))
    (hobserve : ∀ v ρ ρ', m.Solves v ρ → m'.Solves v ρ' → m'.observe ρ' = m.observe ρ)
    (hsource : ∀ (inputs : NetId → Bool) (ram : ℕ → ℕ → ℕ → Bool) (s : State),
      ∃ v : NetId → Bool, (∀ n, m.Source n → v n = m.sourceValue inputs ram s n) ∧
        ∀ n, m'.Source n → v n = m'.sourceValue inputs ram s n)
    (env : Environment) (init : State) (out : ℕ → List (List Bool)) :
    m'.Shows env init out ↔ m.Shows env init out := by
  obtain ⟨r, hr⟩ := hm.acyclic.ranked hm.wellFormed
  obtain ⟨r', hr'⟩ := hm'.acyclic.ranked hm'.wellFormed
  have hjoined' : Joined m' m := by
    refine ⟨fun v => (existsUnique_solves hr hm.wellFormed v).exists,
      fun v ρ ρ' hρ hρ' => (hobserve v ρ' ρ hρ' hρ).symm, fun inputs ram s => ?_,
      fun n i ff hn hff => ⟨ff, (hffQ n i).2 hn, hffs ▸ hff, rfl⟩⟩
    obtain ⟨v, hv, hv'⟩ := hsource inputs ram s
    exact ⟨v, hv', hv⟩
  have hjoined : Joined m m' := ⟨fun v => (existsUnique_solves hr' hm'.wellFormed v).exists,
    hobserve, hsource, fun n i ff hn hff => ⟨ff, (hffQ n i).1 hn, hffs ▸ hff, rfl⟩⟩
  exact ⟨hjoined'.shows, hjoined.shows⟩

section Loop

variable {m m' : GateModule}

theorem WorklistSimplify.sound (h : WorklistSimplify m m') (hm : m.Sound) : m'.Sound := by
  obtain ⟨st, r, hsettled, rfl⟩ := h.settled hm.wellFormed hm.acyclic
  obtain ⟨r', hr'⟩ := ranked_compact hsettled
  exact ⟨drives_compact hsettled.drives, ⟨r', hr'.lt⟩, drivesFfs_finish hm.drivesFfs _⟩

theorem eliminateDqFfs_sound (hm : m.Sound) : m.eliminateDqFfs.Sound := by
  unfold eliminateDqFfs
  split
  · exact ⟨drives_dropDqFfs hm.wellFormed,
      acyclic_dropDqFfs hm.wellFormed hm.drivesFfs hm.acyclic, drivesFfs_dropDqFfs hm.drivesFfs⟩
  · exact hm

theorem length_eliminateDqFfs (m : GateModule) :
    m.eliminateDqFfs.cells.length = m.cells.length ∧ m.eliminateDqFfs.ffs.length ≤ m.ffs.length := by
  unfold eliminateDqFfs
  split
  · refine ⟨length_map _, ?_⟩
    calc ((m.ffs.filter isKept).map _).length = (m.ffs.filter isKept).length := length_map _
      _ ≤ m.ffs.length := length_filter_le ..
  · exact ⟨rfl, Nat.le_refl _⟩

theorem Round.sound (h : Round m m') (hm : m.Sound) : m'.Sound := by
  obtain ⟨mid, hmid, rfl⟩ := h
  exact eliminateDqFfs_sound (hmid.sound hm)

/-- A turn that does not end the loop makes the module smaller. -/
theorem Again.length_lt (h : Again m m') (hm : m.Sound) :
    m'.cells.length + m'.ffs.length < m.cells.length + m.ffs.length := by
  obtain ⟨⟨mid, hmid, rfl⟩, hsame⟩ := h
  obtain ⟨hcells, hffs⟩ := length_worklistSimplify hmid hm.wellFormed hm.acyclic
  obtain ⟨hcells', hffs'⟩ := length_eliminateDqFfs mid
  unfold SameSize at hsame
  omega

theorem initial_eliminateDqFfs (hinit : m.Initial init) : m.eliminateDqFfs.Initial init := by
  unfold eliminateDqFfs
  split
  · intro ff hff hreset
    obtain ⟨before, hbefore, rfl⟩ := mem_map.1 hff
    exact hinit before (mem_of_mem_filter hbefore) (by simpa using hreset)
  · exact hinit

theorem WorklistSimplify.initial (h : WorklistSimplify m m')
    (hinit : m.Initial init) : m'.Initial init := by
  obtain ⟨st, -, -, rfl⟩ := h
  intro ff hff hreset
  obtain ⟨before, hbefore, rfl⟩ := mem_map.1 hff
  exact hinit before hbefore (by simpa using hreset)

theorem Round.initial (h : Round m m') (hinit : m.Initial init) : m'.Initial init := by
  obtain ⟨mid, hmid, rfl⟩ := h
  exact initial_eliminateDqFfs (hmid.initial hinit)

theorem shows_eliminateDqFfs (hm : m.Sound) (hinit : m.Initial init) (out : ℕ → List (List Bool)) :
    m.eliminateDqFfs.Shows env init out ↔ m.Shows env init out := by
  unfold eliminateDqFfs
  split
  · exact ⟨shows_of_dropDqFfs hm.wellFormed hm.drivesFfs hinit,
      shows_dropDqFfs hm.wellFormed hm.drivesFfs hinit⟩
  · rfl

theorem Round.shows (h : Round m m') (hm : m.Sound)
    (hinit : m.Initial init) (out : ℕ → List (List Bool)) :
    m'.Shows env init out ↔ m.Shows env init out := by
  obtain ⟨mid, hmid, rfl⟩ := h
  obtain ⟨hjoined, hjoined'⟩ := joined_worklistSimplify hmid hm.wellFormed hm.acyclic
  exact (shows_eliminateDqFfs (hmid.sound hm) (hmid.initial hinit) out).trans
    ⟨hjoined'.shows, hjoined.shows⟩

theorem ConvergeSimplify.shows (h : ConvergeSimplify m m') (hm : m.Sound) (hinit : m.Initial init)
    (out : ℕ → List (List Bool)) :
    m'.Shows env init out ↔ m.Shows env init out := by
  induction h with
  | stop h _ => exact h.shows hm hinit out
  | again h _ ih => exact (ih (h.1.sound hm) (h.1.initial hinit)).trans (h.1.shows hm hinit out)

/-- A sound module goes through finitely many turns. -/
theorem acc_again (hm : m.Sound) : Acc (fun a b => Again b a) m := by
  obtain ⟨k, hk⟩ : ∃ k, k = m.cells.length + m.ffs.length := ⟨_, rfl⟩
  induction k using Nat.strongRecOn generalizing m with
  | ind k ih =>
    refine ⟨_, fun m' hagain => ?_⟩
    exact ih _ (hk ▸ hagain.length_lt hm) (hagain.1.sound hm) rfl

theorem exists_round (hm : m.Sound) : ∃ m', Round m m' := by
  obtain ⟨st, hsteps, hdone⟩ := exists_finished (acc_start hm.wellFormed hm.acyclic)
  exact ⟨_, _, ⟨st, hsteps, hdone, rfl⟩, rfl⟩

theorem exists_convergeSimplify (hm : m.Sound) : ∃ m', ConvergeSimplify m m' := by
  have hacc := acc_again hm
  induction hacc with
  | intro m _ ih =>
    obtain ⟨mid, hround⟩ := exists_round hm
    by_cases hsame : SameSize m mid
    · exact ⟨mid, .stop hround hsame⟩
    · obtain ⟨m', hrest⟩ := ih mid ⟨hround, hsame⟩ (hround.sound hm)
      exact ⟨m', .again ⟨hround, hsame⟩ hrest⟩

theorem sound_of_reached (hreach : Relation.ReflTransGen Again m m') (hm : m.Sound) : m'.Sound := by
  induction hreach with
  | refl => exact hm
  | tail _ hagain ih => exact hagain.1.sound ih

end Loop

/-- The RAMs read at a step what their pins were before. -/
def Environment.Registered (env : Environment) : Prop :=
  ∀ earlier now now', env.ram (earlier ++ [now]) = env.ram (earlier ++ [now'])

section Determined

variable {m : GateModule} {env : Environment} {init : State}

theorem ramHistory_eq (m : GateModule) (ρ : ℕ → NetId → Bool) (t : ℕ) : m.ramHistory ρ t =
      ((List.range t).map fun k => m.ramInputNets.map (ρ k)) ++ [m.ramInputNets.map (ρ t)] := by
  simp [GateModule.ramHistory, range_succ]

theorem Environment.Registered.ram_eq (henv : env.Registered) {ρ ρ' : ℕ → NetId → Bool} {t : ℕ}
    (hρ : ∀ k < t, ρ k = ρ' k) : env.ram (m.ramHistory ρ t) = env.ram (m.ramHistory ρ' t) := by
  have hearlier : (List.range t).map (fun k => m.ramInputNets.map (ρ k)) =
      (List.range t).map fun k => m.ramInputNets.map (ρ' k) :=
    map_congr_left fun k hk => by rw [hρ k (mem_range.1 hk)]
  rw [ramHistory_eq, ramHistory_eq, hearlier]
  exact henv _ _ _

theorem sourceValue_congr {ram : ℕ → ℕ → ℕ → Bool} {s s' : State}
    (hs : ∀ n i, m.nets[n]? = some (.ffQ i) → s n = s' n) :
    m.sourceValue inputs ram s = m.sourceValue inputs ram s' := by
  funext n
  unfold sourceValue
  split
  · rename_i i hi
    rw [hs n i hi]
  · rfl
  · rfl

/-- Two runs agree at every step. -/
theorem GateModule.Run.unique (hm : m.Sound) (henv : env.Registered) {s s' : ℕ → State}
    {ρ ρ' : ℕ → NetId → Bool} (hrun : m.Run env init s ρ) (hrun' : m.Run env init s' ρ') (t : ℕ) :
    ρ t = ρ' t := by
  obtain ⟨r, hr⟩ := hm.acyclic.ranked hm.wellFormed
  have hstep : ∀ t, (∀ k < t, ρ k = ρ' k) → (∀ n i, m.nets[n]? = some (.ffQ i) → s t n = s' t n) →
      ρ t = ρ' t := by
    intro t hbefore hs
    have hsolves := hrun.solves t
    rw [@Environment.Registered.ram_eq m env henv ρ ρ' t hbefore, sourceValue_congr hs] at hsolves
    exact (existsUnique_solves hr hm.wellFormed _).unique hsolves (hrun'.solves t)
  have hboth : ∀ t, (∀ k < t, ρ k = ρ' k) ∧ ∀ n i, m.nets[n]? = some (.ffQ i) → s t n = s' t n := by
    intro t
    induction t with
    | zero => exact ⟨fun k hk => absurd hk (Nat.not_lt_zero k), fun n _ _ => by rw [hrun.start, hrun'.start]⟩
    | succ t ih =>
      have hnow := hstep t ih.1 ih.2
      refine ⟨fun k hk => ?_, fun n i hi => ?_⟩
      · obtain hk | rfl := Nat.lt_succ_iff_lt_or_eq.1 hk
        · exact ih.1 k hk
        · exact hnow
      · obtain ⟨ff, hff, -⟩ := hm.drivesFfs.ff_of n i hi
        rw [hrun.next t n i ff hi hff, hrun'.next t n i ff hi hff, hnow, ih.2 n i hi]
  exact hstep t (hboth t).1 (hboth t).2

def GateModule.nextState (m : GateModule) (ρ : NetId → Bool) (s : State) : State := fun n =>
  match m.nets[n]? with
  | some (.ffQ i) =>
    match m.ffs[i]? with
    | some ff => ff.next (ρ ff.d) (ρ ff.clock) (ff.reset.map ρ) (s n)
    | none => s n
  | _ => s n

/-- The pins of the RAMs before a step and the state at it, given how the nets
follow from the sources. -/
def GateModule.config (m : GateModule) (env : Environment) (init : State)
    (value : (NetId → Bool) → NetId → Bool) : ℕ → List (List Bool) × State
  | 0 => ([], init)
  | t + 1 =>
    let c := m.config env init value t
    let ρ := value (m.sourceValue (env.inputs t) (env.ram (c.1 ++ [[]])) c.2)
    (c.1 ++ [m.ramInputNets.map ρ], m.nextState ρ c.2)

theorem exists_run (hm : m.Sound) (henv : env.Registered) (init : State) :
    ∃ s ρ, m.Run env init s ρ := by
  obtain ⟨r, hr⟩ := hm.acyclic.ranked hm.wellFormed
  choose value hvalue using fun v => (existsUnique_solves hr hm.wellFormed v).exists
  let c := m.config env init value
  let ρ : ℕ → NetId → Bool := fun t =>
    value (m.sourceValue (env.inputs t) (env.ram ((c t).1 ++ [[]])) (c t).2)
  have hpins : ∀ t, (c t).1 = (List.range t).map fun k => m.ramInputNets.map (ρ k) := by
    intro t
    induction t with
    | zero => rfl
    | succ t ih =>
      rw [range_succ, map_append, ← ih]
      rfl
  refine ⟨fun t => (c t).2, ρ, ⟨rfl, fun t => ?_, fun t n i ff hi hff => ?_⟩⟩
  · have hram : env.ram (m.ramHistory ρ t) = env.ram ((c t).1 ++ [[]]) := by
      rw [ramHistory_eq, ← hpins]
      exact henv _ _ _
    rw [hram]
    exact hvalue _
  · show m.nextState (ρ t) (c t).2 n = _
    simp only [GateModule.nextState, hi, hff]

theorem existsUnique_shows (hm : m.Sound) (henv : env.Registered) (init : State) :
    ∃! out, m.Shows env init out := by
  obtain ⟨s, ρ, hrun⟩ := exists_run hm henv init
  refine ⟨fun t => m.ports.map (List.map (ρ t)), ⟨s, ρ, hrun, fun _ => rfl⟩, ?_⟩
  rintro out ⟨s', ρ', hrun', hout⟩
  funext t
  rw [hout t, hrun'.unique hm henv hrun t]

end Determined

/-- The loop ends, whatever the order of visits in every turn, and from a reset state the module
it leaves shows exactly what the module showed, at every port and every step, for all inputs and
whatever the RAMs hold. -/
theorem convergeSimplify_spec (m : GateModule) (hm : m.Sound) : Acc (fun a b => Again b a) m ∧
      (∀ m', Relation.ReflTransGen Again m m' → Acc (fun a b => Step m'.nets b a) m'.start) ∧
      (∃ m', ConvergeSimplify m m') ∧
      (∀ (env : Environment) (init : State), env.Registered → ∃! out, m.Shows env init out) ∧
      ∀ m', ConvergeSimplify m m' → ∀ (env : Environment) (init : State), m.Initial init →
        ∀ out, m'.Shows env init out ↔ m.Shows env init out :=
  ⟨acc_again hm, fun _ hreach =>
      acc_start (sound_of_reached hreach hm).wellFormed (sound_of_reached hreach hm).acyclic,
    exists_convergeSimplify hm, fun _ init henv => existsUnique_shows hm henv init,
    fun _ h _ _ hinit out => h.shows hm hinit out⟩

/-- An inverter behind a register that holds its reset value. -/
def GateModule.heldInverter : GateModule where
  ports := [[2], [3], [5]]
  nets := [.const false, .const true, .portInput, .portInput, .ffQ 0, .cell 0]
  cells := [⟨.not, [4], 5⟩]
  ffs := [⟨2, .posedge, some 3, .activeLow, false, 4, 4, true⟩]
  ramBlocks := []

theorem GateModule.sound_heldInverter : heldInverter.Sound := by
  refine ⟨⟨rfl, rfl, fun i c hc => ?_, fun n i hn => ?_, fun c hc => ?_⟩, ⟨id, fun c hc n hn => ?_⟩,
    ⟨fun n i hn => ?_, fun i ff hff => ?_⟩⟩
  · obtain _ | i := i
    · obtain rfl := Option.some.inj hc
      rfl
    · simp [heldInverter] at hc
  · obtain _ | _ | _ | _ | _ | _ | n := n
    all_goals simp [heldInverter] at hn
    subst hn
    exact ⟨_, rfl, rfl⟩
  · rw [mem_singleton.1 hc]
    rfl
  · obtain rfl := mem_singleton.1 hc
    obtain rfl := mem_singleton.1 hn
    decide
  · obtain _ | _ | _ | _ | _ | _ | n := n
    all_goals simp [heldInverter] at hn
    subst hn
    exact ⟨_, rfl, rfl⟩
  · obtain _ | i := i
    · obtain rfl := Option.some.inj hff
      rfl
    · simp [heldInverter] at hff

/-- With the register at its reset value, the loop is not seen at the ports. -/
theorem convergeSimplify_spec_heldInverter :
    ∃ m', ConvergeSimplify .heldInverter m' ∧ ∀ (env : Environment) (init : State),
      (init 4).q = true → ∀ out, m'.Shows env init out ↔ GateModule.heldInverter.Shows env init out := by
  obtain ⟨-, -, ⟨m', hm'⟩, -, hspec⟩ :=
    convergeSimplify_spec .heldInverter GateModule.sound_heldInverter
  refine ⟨m', hm', fun env init hinit => hspec m' hm' env init fun ff hff _ => ?_⟩
  obtain rfl := mem_singleton.1 hff
  exact hinit

end Veryl.Synthesizer
