import Veryl.Simulator.CombLayout

/-!
The units of the relayout, told from its inputs: two bytes lie in one unit exactly when a chain of
collected spans, or the extent of one orphan, joins them.
-/

namespace Veryl.Simulator.CombLayout

open Veryl.Library List

variable {x o : ℤ} {units us : List StorageUnit} {r : ℤ × ℤ} {total : ℤ} {starts : List ℤ}
  {u : StorageUnit} {s : ℤ × ℤ} {l : List ℤ}

section Apart

variable {β : Type} {range : β → ℤ × ℤ} {l : List β}

/-- Intervals in order that hold something and do not overlap. -/
structure Apart (range : β → ℤ × ℤ) (l : List β) : Prop where
  nonempty : ∀ u ∈ l, (range u).1 < (range u).2
  pairwise : l.Pairwise fun a b => (range a).2 ≤ (range b).1

theorem Apart.starts_le (h : Apart range l) {i j : ℕ} (hj : j < l.length) (hij : i ≤ j) :
    (range l[i]).1 ≤ (range l[j]).1 := by
  rcases hij.eq_or_lt with rfl | hij
  · exact le_rfl
  · have hne := h.nonempty l[i] (getElem_mem _)
    have := pairwise_iff_getElem.1 h.pairwise i j (by omega) hj hij
    omega

theorem Apart.search (h : Apart range l) {u : β} (hu : u ∈ l) (hx : Holds (range u) x) :
    partitionPoint l (fun v => (range v).1 ≤ x) ≠ 0 ∧
      l[partitionPoint l (fun v => (range v).1 ≤ x) - 1]? = some u := by
  obtain ⟨k, hk, rfl⟩ := mem_iff_getElem.1 hu
  have hlt : k < partitionPoint l fun u => (range u).1 ≤ x := by
    by_contra hle
    have hle := not_lt.1 hle
    have hnot := partitionPoint_not (hle.trans_lt hk)
    have := h.starts_le hk hle
    simp only [decide_eq_false_iff_not] at hnot
    have := hx.1
    omega
  have hle : partitionPoint l (fun u => (range u).1 ≤ x) ≤ k + 1 := by
    by_cases hk' : k + 1 < l.length
    · refine partitionPoint_le hk' ?_
      have := pairwise_iff_getElem.1 h.pairwise k (k + 1) hk hk' (by omega)
      have := hx.2
      simp only [decide_eq_false_iff_not]
      omega
    · exact (partitionPoint_le_length _ _).trans (by omega)
  have heq : partitionPoint l (fun u => (range u).1 ≤ x) - 1 = k := by omega
  exact ⟨by omega, by rw [heq]; exact getElem?_eq_getElem hk⟩

theorem Apart.eq_of_holds (h : Apart range l) {u v : β} (hu : u ∈ l) (hv : v ∈ l)
    (hxu : Holds (range u) x) (hxv : Holds (range v) x) : u = v := by
  have hu := (h.search hu hxu).2
  have hv := (h.search hv hxv).2
  exact Option.some.inj (hu.symm.trans hv)

/-- Intervals whose neighbours do not overlap. -/
theorem Apart.of_adjacent (hne : ∀ u ∈ l, (range u).1 < (range u).2)
    (h : (l.zip l.tail).all fun w => (range w.1).2 ≤ (range w.2).1) : Apart range l := by
  refine ⟨hne, ?_⟩
  induction l with
  | nil => exact .nil
  | cons u l ih =>
    cases l with
    | nil => exact pairwise_singleton _ _
    | cons v l =>
      simp only [tail_cons, zip_cons_cons, all_cons, Bool.and_eq_true, decide_eq_true_eq] at h
      have hrest := ih (fun w hw => hne w (mem_cons_of_mem _ hw)) h.2
      refine pairwise_cons.2 ⟨fun w hw => ?_, hrest⟩
      rcases mem_cons.1 hw with rfl | hw
      · exact h.1
      · have hv := hne v (by simp)
        have := rel_of_pairwise_cons hrest hw
        omega

end Apart

theorem search_sound {β : Type} {start : β → ℤ} {l : List β} {u : β}
    (hne : partitionPoint l (fun u => start u ≤ x) ≠ 0)
    (hu : l[partitionPoint l (fun u => start u ≤ x) - 1]? = some u) : u ∈ l ∧ start u ≤ x := by
  obtain ⟨hk, rfl⟩ := List.getElem?_eq_some_iff.1 hu
  refine ⟨getElem_mem hk, ?_⟩
  exact of_decide_eq_true (of_lt_partitionPoint (p := fun u => decide (start u ≤ x)) hk (by omega))

theorem locate_eq_none (h : Apart StorageUnit.range units) :
    locate units o = none ↔ ∀ u ∈ units, ¬ Holds u.range o := by
  constructor
  · intro hnone u hu ho
    obtain ⟨hne, hat⟩ := h.search hu ho
    change partitionPoint units (fun v => v.start ≤ o) ≠ 0 at hne
    change units[partitionPoint units (fun v => v.start ≤ o) - 1]? = some u at hat
    have hlt : o < u.stop := ho.2
    simp [locate, hne, hat, hlt] at hnone
  · intro hnot
    unfold locate
    dsimp only
    split
    · rfl
    rename_i hne
    rw [if_neg]
    intro hany
    obtain ⟨u, hat, hu⟩ := Option.any_eq_true _ _ |>.1 hany
    obtain ⟨hmem, hle⟩ := search_sound hne hat
    have hpos : u.start < u.stop := h.nonempty u hmem
    refine hnot u hmem ⟨hle, show o < u.stop from ?_⟩
    simp only [decide_eq_true_eq] at hu
    omega

section Tie

variable (external : List ProtoStatement → VarOffset → Bool) (inp : Inputs)

/-- A byte some collected span covers. -/
def Covered (x : ℤ) : Prop := ∃ r ∈ seedSpans external inp, Holds r x

/-- An offset in use that no collected span covers. -/
def Orphan (o : ℤ) : Prop :=
  (o ∈ sweptOffsets external inp ∨ o ∈ inp.extraOffsets.filterMap combRaw) ∧
    ¬ Covered external inp o

/-- The bytes from an orphan up to what comes next, a span, an orphan or the end. -/
def Extent (o x : ℤ) : Prop :=
  Orphan external inp o ∧ o ≤ x ∧ x < inp.combTotal ∧
    ∀ z, o ≤ z → z ≤ x → ¬ Covered external inp z ∧ (Orphan external inp z → z = o)

/-- Two bytes of one collected span, or of the extent of one orphan. -/
def Tie (x y : ℤ) : Prop :=
  Share (seedSpans external inp) x y ∨ ∃ o, Extent external inp o x ∧ Extent external inp o y

variable {external inp}

theorem seedSpans_nonempty (hr : r ∈ seedSpans external inp) : r.1 < r.2 := by
  simpa using (mem_filter.1 hr).2

theorem covered_iff :
    Covered external inp x ↔ ∃ u ∈ mergeOverlaps (seedSpans external inp), Holds u x := by
  constructor
  · rintro ⟨r, hr, hx⟩
    obtain ⟨u, hu, hlo, hhi⟩ := mergeOverlaps_covers (fun _ => seedSpans_nonempty) hr
    exact ⟨u, hu, hlo.trans hx.1, hx.2.trans_le hhi⟩
  · rintro ⟨u, hu, hx⟩
    obtain ⟨y, ⟨r, hr, hxr, -⟩, -⟩ := Relation.TransGen.head'_iff.1
      (transGen_of_merged (fun _ => seedSpans_nonempty) hu hx hx)
    exact ⟨r, hr, hxr⟩

/-- The merged spans, as units. -/
abbrev mergedUnits (external : List ProtoStatement → VarOffset → Bool) (inp : Inputs) :
    List StorageUnit :=
  (mergeOverlaps (seedSpans external inp)).map fun r => ⟨r.1, r.2, none⟩

theorem apart_mergedUnits : Apart StorageUnit.range (mergedUnits external inp) := by
  refine ⟨fun u hu => ?_, ?_⟩
  · obtain ⟨r, hr, rfl⟩ := mem_map.1 hu
    exact mergeOverlaps_nonempty (fun _ => seedSpans_nonempty) hr
  · exact pairwise_map.2 (mergeOverlaps_apart fun _ => seedSpans_nonempty)

theorem covered_iff_unit :
    Covered external inp x ↔ ∃ u ∈ mergedUnits external inp, Holds u.range x := by
  rw [covered_iff]
  constructor
  · rintro ⟨r, hr, hx⟩
    exact ⟨_, mem_map_of_mem hr, hx⟩
  · rintro ⟨u, hu, hx⟩
    obtain ⟨r, hr, rfl⟩ := mem_map.1 hu
    exact ⟨r, hr, hx⟩

theorem mem_orphans :
    o ∈ orphans external inp (mergedUnits external inp) ↔ Orphan external inp o := by
  rw [orphans, mem_insertionSort, List.mem_dedup, mem_filter, mem_append,
    Option.isNone_iff_eq_none, locate_eq_none apart_mergedUnits, Orphan, covered_iff_unit]
  simp only [not_exists, not_and]

theorem orphans_sorted : (orphans external inp (mergedUnits external inp)).Pairwise (· < ·) := by
  have hle := pairwise_insertionSort (· ≤ ·)
    (((sweptOffsets external inp ++ inp.extraOffsets.filterMap combRaw).filter
      fun o => (locate (mergedUnits external inp) o).isNone).dedup)
  have hnd : (orphans external inp (mergedUnits external inp)).Nodup :=
    (perm_insertionSort _ _).nodup_iff.2 (nodup_dedup _)
  exact (hle.and hnd).imp fun h => lt_of_le_of_ne h.1 h.2

/-!
Promotion.
-/

theorem lt_nextUnit (hs : starts.Pairwise (· ≤ ·)) (hx : x < total) :
    x < (starts.find? fun s => o < s).getD total ↔ ∀ s ∈ starts, o < s → x < s := by
  induction starts with
  | nil => simpa using hx
  | cons s starts ih =>
    by_cases ho : o < s
    · simp only [find?_cons, ho, decide_true, Option.getD_some]
      constructor
      · intro hxs s' hs' _
        rcases mem_cons.1 hs' with rfl | hs'
        · exact hxs
        · exact hxs.trans_le (rel_of_pairwise_cons hs hs')
      · exact fun h => h s mem_cons_self ho
    · simpa [ho] using ih hs.of_cons

theorem lt_nextOrphan (hl : l.Pairwise (· < ·)) (hx : x < total) :
    x < l.headD total ↔ ∀ z ∈ l, x < z := by
  cases l with
  | nil => simpa using hx
  | cons o l =>
    constructor
    · intro hxo z hz
      rcases mem_cons.1 hz with rfl | hz
      · exact hxo
      · exact lt_trans hxo (rel_of_pairwise_cons hl hz)
    · exact fun h => h o mem_cons_self

/-- A unit that reaches from its orphan to the next known boundary. -/
structure Promoted (starts : List ℤ) (total : ℤ) (l : List ℤ) (u : StorageUnit) : Prop where
  mem : u.start ∈ l
  nonempty : u.start < u.stop
  holds_iff : ∀ x, Holds u.range x ↔ u.start ≤ x ∧ x < total ∧
    (∀ s ∈ starts, u.start < s → x < s) ∧ ∀ z ∈ l, u.start < z → x < z

theorem promote_spec (hs : starts.Pairwise (· ≤ ·))
    (hl : l.Pairwise (· < ·)) (h : promote starts total l = .ok us) :
    us.map (·.start) = l ∧ ∀ u ∈ us, Promoted starts total l u := by
  induction l generalizing us with
  | nil =>
    obtain rfl : [] = us := by simpa [promote] using h
    exact ⟨rfl, by simp⟩
  | cons o rest ih =>
    simp only [promote] at h
    split at h
    · rename_i hlt
      cases hrest : promote starts total rest with
      | error e => simp [hrest, bind, Except.bind] at h
      | ok us' =>
        obtain ⟨hmap, hus⟩ := ih hl.of_cons hrest
        rw [hrest] at h
        obtain rfl := Except.ok.inj h
        refine ⟨by simp [hmap], fun u hu => ?_⟩
        rcases mem_cons.1 hu with rfl | hu
        · refine ⟨mem_cons_self, hlt, fun x => ?_⟩
          by_cases hx : x < total
          · have hunit := lt_nextUnit hs (o := o) hx
            have horphan := lt_nextOrphan hl.of_cons hx
            have hgt : ∀ z ∈ rest, o < z := fun z hz => rel_of_pairwise_cons hl hz
            simp only [Holds, StorageUnit.range, lt_min_iff, hx, hunit, horphan, and_true,
              true_and, mem_cons, forall_eq_or_imp, lt_irrefl, false_imp_iff]
            exact ⟨fun ⟨h₁, h₂, h₃⟩ => ⟨h₁, h₂, fun z hz _ => h₃ z hz⟩,
              fun ⟨h₁, h₂, h₃⟩ => ⟨h₁, h₂, fun z hz => h₃ z hz (hgt z hz)⟩⟩
          · simp [Holds, StorageUnit.range, hx]
        · have hp := hus u hu
          have hgt : o < u.start := rel_of_pairwise_cons hl hp.mem
          refine ⟨mem_cons_of_mem _ hp.mem, hp.nonempty, fun x => ?_⟩
          rw [hp.holds_iff x]
          simp [hgt.le]
    · cases h

/-- The units that orphans are promoted to. -/
abbrev PromotedUnits (external : List ProtoStatement → VarOffset → Bool) (inp : Inputs)
    (us : List StorageUnit) : Prop :=
  us.map (·.start) = orphans external inp (mergedUnits external inp) ∧ ∀ u ∈ us,
    Promoted ((mergedUnits external inp).map (·.start)) inp.combTotal
      (orphans external inp (mergedUnits external inp)) u

theorem storageUnits_spec (h : storageUnits external inp = .ok units) :
    Apart StorageUnit.range units ∧ ∃ us, PromotedUnits external inp us ∧
      ∀ u, u ∈ units ↔ u ∈ mergedUnits external inp ∨ u ∈ us := by
  have hstarts : ((mergedUnits external inp).map (·.start)).Pairwise (· ≤ ·) := by
    have happart : Apart StorageUnit.range (mergedUnits external inp) := apart_mergedUnits
    refine pairwise_map.2 (happart.pairwise.imp_of_mem fun ha _ hab => ?_)
    exact (happart.nonempty _ ha).le.trans hab
  simp only [storageUnits] at h
  split at h
  · rename_i hempty
    obtain rfl := Except.ok.inj h
    refine ⟨apart_mergedUnits, [], ⟨?_, by simp⟩, by simp⟩
    exact (List.isEmpty_iff.1 hempty).symm
  · cases hp : promote ((mergedUnits external inp).map (·.start)) inp.combTotal
      (orphans external inp (mergedUnits external inp)) with
    | error e =>
      rw [hp] at h
      cases h
    | ok us =>
      have hspec := promote_spec hstarts orphans_sorted hp
      rw [hp] at h
      change (if _ then _ else _) = _ at h
      split at h
      · rename_i hadj
        obtain rfl := Except.ok.inj h
        have hmem : ∀ u, u ∈ (mergedUnits external inp ++ us).insertionSort
            (fun a b => a.start ≤ b.start) ↔ u ∈ mergedUnits external inp ∨ u ∈ us := by
          intro u
          rw [mem_insertionSort, mem_append]
        refine ⟨.of_adjacent (fun u hu => ?_) hadj, us, hspec, hmem⟩
        rcases (hmem u).1 hu with hu | hu
        · exact apart_mergedUnits.nonempty u hu
        · exact (hspec.2 u hu).nonempty
      · cases h

theorem extent_iff (hus : PromotedUnits external inp us)
    (hu : u ∈ us) : Extent external inp u.start x ↔ Holds u.range x := by
  have hp := hus.2 u hu
  have horphan := mem_orphans.1 hp.mem
  rw [hp.holds_iff x]
  constructor
  · rintro ⟨-, hle, hlt, hfree⟩
    refine ⟨hle, hlt, fun s hs hus => ?_, fun z hz huz => ?_⟩
    · obtain ⟨v, hv, rfl⟩ := mem_map.1 hs
      by_contra hxs
      have hcov : Covered external inp v.start :=
        covered_iff_unit.2 ⟨v, hv, le_rfl, apart_mergedUnits.nonempty v hv⟩
      exact (hfree v.start hus.le (not_lt.1 hxs)).1 hcov
    · by_contra hxz
      exact huz.ne' ((hfree z huz.le (not_lt.1 hxz)).2 (mem_orphans.1 hz))
  · rintro ⟨hle, hlt, hspans, hothers⟩
    refine ⟨horphan, hle, hlt, fun z huz hzx => ⟨fun hcov => ?_, fun hz => ?_⟩⟩
    · obtain ⟨v, hv, hvz⟩ := covered_iff_unit.1 hcov
      rcases lt_or_ge u.start v.start with huv | hvu
      · have hxv := hspans v.start (mem_map_of_mem hv) huv
        exact absurd (hvz.1.trans hzx) (not_le.2 hxv)
      · exact horphan.2 (covered_iff_unit.2 ⟨v, hv, hvu, huz.trans_lt hvz.2⟩)
    · by_contra hne
      have huz' : u.start < z := lt_of_le_of_ne huz (Ne.symm hne)
      exact absurd hzx (not_le.2 (hothers z (mem_orphans.2 hz) huz'))

theorem same_unit_iff (h : storageUnits external inp = .ok units)
    (x y : ℤ) : (∃ u ∈ units, Holds u.range x ∧ Holds u.range y) ↔
      Relation.TransGen (Tie external inp) x y := by
  obtain ⟨hapart, us, hus, hmem⟩ := storageUnits_spec h
  constructor
  · rintro ⟨u, hu, hx, hy⟩
    rcases (hmem u).1 hu with hu | hu
    · obtain ⟨r, hr, rfl⟩ := mem_map.1 hu
      have hshare := transGen_of_merged (fun _ => seedSpans_nonempty) hr hx hy
      exact Relation.TransGen.mono (fun _ _ h => .inl h) _ _ hshare
    · exact .single (.inr ⟨u.start, (extent_iff hus hu).2 hx, (extent_iff hus hu).2 hy⟩)
  · have step : ∀ {x y : ℤ}, Tie external inp x y →
        ∃ u ∈ units, Holds u.range x ∧ Holds u.range y := by
      rintro x y (⟨r, hr, hx, hy⟩ | ⟨o, hx, hy⟩)
      · obtain ⟨u, hu, hlo, hhi⟩ := mergeOverlaps_covers (fun _ => seedSpans_nonempty) hr
        exact ⟨⟨u.1, u.2, none⟩, (hmem _).2 (.inl (mem_map_of_mem hu)),
          ⟨hlo.trans hx.1, hx.2.trans_le hhi⟩, ⟨hlo.trans hy.1, hy.2.trans_le hhi⟩⟩
      · obtain ⟨u, hu, rfl⟩ : ∃ u ∈ us, u.start = o := by
          have ho := mem_orphans.2 hx.1
          rw [← hus.1] at ho
          exact mem_map.1 ho
        exact ⟨u, (hmem u).2 (.inr hu), (extent_iff hus hu).1 hx, (extent_iff hus hu).1 hy⟩
    intro htie
    induction htie with
    | single htie => exact step htie
    | tail _ htie ih =>
      obtain ⟨u, hu, hx, hy⟩ := ih
      obtain ⟨v, hv, hy', hz⟩ := step htie
      obtain rfl := hapart.eq_of_holds hu hv hy hy'
      exact ⟨u, hu, hx, hz⟩

end Tie

@[simp] theorem map_range_rankStep (st : List StorageUnit × ℕ) (o : ℤ) :
    (rankStep st o).1.map StorageUnit.range = st.1.map StorageUnit.range := by
  unfold rankStep
  split
  · rfl
  split
  · apply ext_getElem?
    intro k
    simp only [getElem?_map, getElem?_modify]
    cases st.1[k]? with
    | none => rfl
    | some u =>
      split <;> rfl
  · rfl

theorem map_range_rank (os : List ℤ) (st : List StorageUnit × ℕ) :
    (os.foldl rankStep st).1.map StorageUnit.range = st.1.map StorageUnit.range := by
  induction os generalizing st with
  | nil => rfl
  | cons o os ih => rw [foldl_cons, ih, map_range_rankStep]

def oldRange (t : ℤ × ℤ × ℤ) : ℤ × ℤ := (t.1, t.2.1)

def newRange (t : ℤ × ℤ × ℤ) : ℤ × ℤ := (t.2.2, t.2.2 + (t.2.1 - t.1))

theorem alignOf_pos (start size : ℤ) : 0 < alignOf start size := by
  unfold alignOf
  split_ifs <;> decide

theorem le_alignUp {a : ℤ} (ha : 0 < a) (pos : ℤ) : pos ≤ alignUp a pos := by
  have := Int.lt_ediv_add_one_mul_self (pos + a - 1) ha
  unfold alignUp
  rw [Int.add_mul, Int.one_mul] at this
  omega

/-- What placing keeps: the units placed so far lie one after the other, up to
the next position. -/
structure PlacedUpTo (done : List StorageUnit) (st : List (ℤ × ℤ × ℤ) × ℤ) : Prop where
  ranges : st.1.map oldRange = done.map StorageUnit.range
  pos : 0 ≤ st.2
  within : ∀ t ∈ st.1, 0 ≤ (newRange t).1 ∧ (newRange t).2 ≤ st.2
  pairwise : st.1.Pairwise fun a b => (newRange a).2 ≤ (newRange b).1

theorem PlacedUpTo.step {done : List StorageUnit} {st : List (ℤ × ℤ × ℤ) × ℤ}
    (h : PlacedUpTo done st) (hu : u.start < u.stop) :
    PlacedUpTo (done ++ [u]) (placeStep st u) := by
  have hle := le_alignUp (alignOf_pos u.start (u.stop - u.start)) st.2
  have hpos := h.pos
  unfold placeStep
  generalize alignUp _ st.2 = pos at hle ⊢
  refine ⟨by simp [h.ranges, oldRange, StorageUnit.range], ?_, fun t ht => ?_, ?_⟩
  · show 0 ≤ pos + (u.stop - u.start)
    omega
  · show _ ∧ _ ≤ pos + (u.stop - u.start)
    rcases mem_append.1 ht with ht | ht
    · have := h.within t ht
      omega
    · rw [mem_singleton.1 ht]
      simp only [newRange]
      omega
  · refine pairwise_append.2 ⟨h.pairwise, pairwise_singleton _ _, fun t ht t' ht' => ?_⟩
    rw [mem_singleton.1 ht']
    exact (h.within t ht).2.trans hle

theorem placedUpTo_foldl (hus : ∀ u ∈ us, u.start < u.stop) :
    PlacedUpTo us (us.foldl placeStep ([], 0)) := by
  have hrun : ∀ (us done : List StorageUnit) (st : List (ℤ × ℤ × ℤ) × ℤ), PlacedUpTo done st →
      (∀ u ∈ us, u.start < u.stop) → PlacedUpTo (done ++ us) (us.foldl placeStep st) := by
    intro us
    induction us with
    | nil => exact fun done st h _ => by simpa using h
    | cons u us ih =>
      intro done st h hus
      have := ih (done ++ [u]) _ (h.step (hus u (by simp))) fun v hv => hus v (by simp [hv])
      simpa using this
  exact hrun us [] _ ⟨rfl, le_rfl, by simp, .nil⟩ hus

instance : Std.Total fun a b : ℤ × ℤ × ℤ => startsLe a b = true :=
  ⟨fun a b => by simpa [startsLe] using le_total a.1 b.1⟩

instance : IsTrans (ℤ × ℤ × ℤ) fun a b => startsLe a b = true :=
  ⟨fun a b c hab hbc => by
    simp only [startsLe, decide_eq_true_eq] at hab hbc ⊢
    exact hab.trans hbc⟩

/-- Two ranges without a common point. -/
def Disjoined (r s : ℤ × ℤ) : Prop := ∀ x, Holds r x → ¬ Holds s x

theorem Disjoined.symm (h : Disjoined r s) : Disjoined s r :=
  fun x hs hr => h x hr hs

theorem disjoined_of_le (h : r.2 ≤ s.1) : Disjoined r s :=
  fun _ hr hs => absurd (hr.2.trans_le (h.trans hs.1)) (lt_irrefl _)

/-- A schedule whose units and places lie apart, inside the new buffer. -/
structure Valid (sched : CombLayoutSchedule) : Prop where
  apart : Apart oldRange sched.units
  placed : sched.units.Pairwise fun a b => Disjoined (newRange a) (newRange b)
  within : ∀ t ∈ sched.units, 0 ≤ (newRange t).1 ∧ (newRange t).2 ≤ sched.bufferEnd

theorem Apart.perm (h : Apart StorageUnit.range units) {placed : List (ℤ × ℤ × ℤ)}
    (hperm : (placed.map oldRange).Perm (units.map StorageUnit.range)) :
    Apart oldRange (placed.insertionSort fun a b => startsLe a b) := by
  have hsort := perm_insertionSort (fun a b : ℤ × ℤ × ℤ => startsLe a b = true) placed
  have hnonempty : ∀ t ∈ placed, (oldRange t).1 < (oldRange t).2 := by
    intro t ht
    obtain ⟨u, hu, he⟩ := mem_map.1 (hperm.subset (mem_map_of_mem ht))
    rw [← he]
    exact h.nonempty u hu
  have hdisj : (placed.map oldRange).Pairwise Disjoined :=
    (hperm.pairwise_iff fun h => Disjoined.symm h).2
      (pairwise_map.2 (h.pairwise.imp fun h => disjoined_of_le h))
  have hdisj' : (placed.insertionSort fun a b => startsLe a b).Pairwise fun a b =>
      Disjoined (oldRange a) (oldRange b) :=
    (hsort.pairwise_iff fun h => Disjoined.symm h).2 (pairwise_map.1 hdisj)
  refine ⟨fun t ht => hnonempty t (hsort.subset ht), ?_⟩
  refine ((pairwise_insertionSort _ _).and hdisj').imp_of_mem fun {a b} ha hb hab => ?_
  -- in order of the starts, the earlier unit ends before the later one
  have hle : a.1 ≤ b.1 := by simpa [startsLe] using hab.1
  by_contra hlt
  exact hab.2 b.1 ⟨hle, not_le.1 hlt⟩ ⟨le_rfl, hnonempty b (hsort.subset hb)⟩

theorem buildSchedule_spec {external : List ProtoStatement → VarOffset → Bool} {inp : Inputs}
    {sched : CombLayoutSchedule} (h : buildSchedule external inp = .ok (some sched)) :
    Valid sched ∧ ∃ units, storageUnits external inp = .ok units ∧
      (sched.units.map oldRange).Perm (units.map StorageUnit.range) := by
  unfold buildSchedule at h
  split at h
  · cases h
  cases hunits : storageUnits external inp with
  | error e =>
    rw [hunits] at h
    cases h
  | ok units =>
    rw [hunits] at h
    change (if _ then _ else _) = _ at h
    split at h
    · cases h
    obtain ⟨happart, -⟩ := storageUnits_spec hunits
    obtain rfl := Option.some.inj (Except.ok.inj h)
    have hranked := map_range_rank (sweptOffsets external inp) (units, 0)
    generalize ((sweptOffsets external inp).foldl rankStep (units, 0)).1 = ranked at hranked ⊢
    have horder := perm_insertionSort (fun a b => rankLe a b = true) ranked
    generalize ranked.insertionSort (fun a b => rankLe a b) = order at horder ⊢
    have hrange : (order.map StorageUnit.range).Perm (units.map StorageUnit.range) :=
      hranked ▸ horder.map _
    have hne : ∀ u ∈ order, u.start < u.stop := by
      intro u hu
      obtain ⟨v, hv, he⟩ := mem_map.1 (hrange.subset (mem_map_of_mem hu))
      have := happart.nonempty v hv
      rwa [he] at this
    have hplaced := placedUpTo_foldl hne
    generalize order.foldl placeStep ([], 0) = st at hplaced ⊢
    have hsort := perm_insertionSort (fun a b => startsLe a b = true) st.1
    have hold : (st.1.map oldRange).Perm (units.map StorageUnit.range) :=
      hplaced.ranges ▸ hrange
    refine ⟨⟨happart.perm hold, ?_, fun t ht => hplaced.within t (hsort.subset ht)⟩,
      units, rfl, (hsort.map _).trans hold⟩
    exact (hsort.pairwise_iff fun h => Disjoined.symm h).2
      (hplaced.pairwise.imp fun h => disjoined_of_le h)

end Veryl.Simulator.CombLayout
