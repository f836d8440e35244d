import Veryl.Simulator.Footprint
import Veryl.Simulator.Opt.ConeOrderSort

/-!
The hazard edges of the cone reorder join every two statements of which one stores a byte the other
touches.
-/

namespace Veryl.Simulator.Opt.ConeOrder

open Veryl.Analyzer Veryl.Library List Option

variable {α : Type} {outs : StmtInfo → List (ℕ × ℕ)} {info : StmtInfo} {e : ℕ × ℕ}
  {v : List (ℕ × ℕ)}

variable {k : ℕ} {r : ℕ × ℕ} {i : ℕ} {w : List ℕ} {skip : ℕ → List ℕ → List ℕ}

section Lists

variable {infos : List StmtInfo} {spans : List (ℕ × ℕ)} {first : ℕ → ℕ}

theorem mem_zipIdx_of_getElem? {α : Type} {l : List α} {a : α} (h : l[i]? = some a) :
    (a, i) ∈ l.zipIdx :=
  List.mem_zipIdx_iff_getElem?.2 h

theorem lt_length_of_mem_zipIdx {l : List α} {x : α × ℕ} (h : x ∈ l.zipIdx) : x.2 < l.length := by
  have := List.mem_zipIdx_iff_getElem?.1 h
  exact (List.getElem?_eq_some_iff.1 this).1

theorem pairwise_zipIdx (l : List α) : l.zipIdx.Pairwise fun a b => a.2 < b.2 := by
  rw [pairwise_iff_getElem]
  intro i j hi hj hij
  simpa using hij

theorem mem_writersOf (hi : infos[i]? = some info) (hr : r ∈ outs info)
    (hk : k ∈ visit spans (first r.1) r.1 r.2) : i ∈ writersOf infos outs spans first k := by
  refine mem_flatMap.2 ⟨(info, i), mem_zipIdx_of_getElem? hi, ?_⟩
  exact mem_flatMap.2 ⟨r, hr, mem_filterMap.2 ⟨k, hk, by simp⟩⟩

theorem writersOf_lt (h : i ∈ writersOf infos outs spans first k) : i < infos.length := by
  obtain ⟨x, hx, h⟩ := mem_flatMap.1 h
  obtain ⟨r, -, h⟩ := mem_flatMap.1 h
  obtain ⟨j, -, h⟩ := mem_filterMap.1 h
  split at h
  · obtain rfl := some.inj h
    exact lt_length_of_mem_zipIdx hx
  · cases h

theorem writersOf_sorted (infos : List StmtInfo) (outs : StmtInfo → List (ℕ × ℕ))
    (spans : List (ℕ × ℕ)) (first : ℕ → ℕ) (k : ℕ) :
    (writersOf infos outs spans first k).Pairwise (· ≤ ·) := by
  have hsame : ∀ x : StmtInfo × ℕ, ∀ i ∈ (outs x.1).flatMap (fun r =>
      (visit spans (first r.1) r.1 r.2).filterMap fun j => if j = k then some x.2 else none),
      i = x.2 := by
    intro x i hi
    obtain ⟨r, -, hi⟩ := mem_flatMap.1 hi
    obtain ⟨j, -, hi⟩ := mem_filterMap.1 hi
    split at hi
    · exact (some.inj hi).symm
    · cases hi
  refine pairwise_flatMap.2 ⟨fun x _ => ?_, (pairwise_zipIdx infos).imp ?_⟩
  · refine pairwise_of_forall_mem_list fun a ha b hb => ?_
    rw [hsame x a ha, hsame x b hb]
  · intro x y hxy a ha b hb
    rw [hsame x a ha, hsame y b hb]
    exact hxy.le

variable {w : List ℕ} {skip : ℕ → List ℕ → List ℕ}

theorem exists_readerEdge_before (hw : w.Pairwise (· ≤ ·)) {a : ℕ} (ha : a ∈ w) (hai : a < i) :
    ∃ p ∈ w, a ≤ p ∧ (p, i) ∈ readerEdges skip w i := by
  obtain ⟨m, hm, rfl⟩ := mem_iff_getElem.1 ha
  have hmk : m < partitionPoint w fun x => x < i := by
    by_contra hk
    have hkl : (partitionPoint w fun x => x < i) < w.length := by omega
    have hnot := partitionPoint_not hkl
    have hle : w[partitionPoint w fun x => x < i] ≤ w[m] := by
      rcases Nat.lt_or_eq_of_le (not_lt.1 hk) with h | h
      · exact pairwise_iff_getElem.1 hw _ _ hkl hm h
      · simp [h]
    simp only [decide_eq_false_iff_not, not_lt] at hnot
    omega
  have hk := partitionPoint_le_length w fun x => x < i
  have hlast : (partitionPoint w fun x => x < i) - 1 < w.length := by omega
  refine ⟨w[(partitionPoint w fun x => x < i) - 1], getElem_mem _, ?_, ?_⟩
  · rcases Nat.lt_or_eq_of_le (show m ≤ (partitionPoint w fun x => x < i) - 1 by omega) with h | h
    · exact pairwise_iff_getElem.1 hw _ _ hm hlast h
    · simp [← h]
  · have hpos : (partitionPoint w fun x => x < i) ≠ 0 := by omega
    simp only [readerEdges, if_neg hpos, getElem?_eq_getElem hlast]
    simp

theorem exists_readerEdge_after (hw : w.Pairwise (· ≤ ·)) {b : ℕ} (hb : b ∈ w) (hib : i < b)
    (hskip : ∀ w, i ∉ w → skip i w = w) (hi : i ∉ w) :
    ∃ q ∈ w, q ≤ b ∧ (i, q) ∈ readerEdges skip w i := by
  obtain ⟨m, hm, rfl⟩ := mem_iff_getElem.1 hb
  have hkm : (partitionPoint w fun x => x < i) ≤ m :=
    partitionPoint_le hm (by simpa using hib.le)
  have hkl : (partitionPoint w fun x => x < i) < w.length := by omega
  refine ⟨w[partitionPoint w fun x => x < i], getElem_mem _, ?_, ?_⟩
  · rcases Nat.lt_or_eq_of_le hkm with h | h
    · exact pairwise_iff_getElem.1 hw _ _ hkl hm h
    · simp [h]
  · have hsame := hskip _ fun h : i ∈ w.drop (partitionPoint w fun x => x < i) =>
      hi (mem_of_mem_drop h)
    simp only [readerEdges, hsame, head?_drop, getElem?_eq_getElem hkl]
    simp

theorem skipOne_eq (w : List ℕ) (hi : i ∉ w) : skipOne i w = w := by
  cases w with
  | nil => rfl
  | cons x w =>
    have : x ≠ i := fun h => hi (h ▸ mem_cons_self)
    simp [skipOne, this]

theorem skipAll_eq (w : List ℕ) (hi : i ∉ w) : skipAll i w = w := by
  cases w with
  | nil => rfl
  | cons x w =>
    have : x ≠ i := fun h => hi (h ▸ mem_cons_self)
    simp [skipAll, this]

theorem mem_spanEdges {ins : StmtInfo → List (ℕ × ℕ)} {writers : ℕ → List ℕ}
    (hi : infos[i]? = some info) (hr : r ∈ ins info)
    (hk : k ∈ visit spans (first r.1) r.1 r.2)
    (he : e ∈ readerEdges skip (writers k) i) :
    e ∈ spanEdges infos ins spans first writers skip :=
  mem_flatMap.2 ⟨(info, i), mem_zipIdx_of_getElem? hi,
    mem_flatMap.2 ⟨r, hr, mem_flatMap.2 ⟨k, hk, he⟩⟩⟩

theorem mem_of_mem_windows (h : e ∈ windows w) : e.2 ∈ w :=
  mem_of_mem_tail (of_mem_zip h).2

theorem readerEdges_lt {n : ℕ} (hw : ∀ x ∈ w, x < n) (hi : i < n)
    (hskip : ∀ i w, skip i w ⊆ w) (he : e ∈ readerEdges skip w i) : e.2 < n := by
  rcases mem_append.1 he with he | he
  · split at he
    · cases he
    · obtain ⟨p, -, rfl⟩ := List.mem_map.1 he
      exact hi
  · obtain ⟨q, hq, rfl⟩ := List.mem_map.1 he
    exact hw q (mem_of_mem_drop (hskip _ _ (List.mem_of_mem_head? (mem_toList.1 hq))))

end Lists

section Bytes

variable (inputs : OwnerInputs)

/-- The owner span of an offset in either buffer. -/
def resolve (o : VarOffset) : Option (ℕ × ℕ) :=
  ((combSpan inputs o).map fun s => (s.start, s.stop)).or (ffSpan inputs o)

def Within (b : VarOffset) (r : ℕ × ℕ) : Prop := r.1 ≤ b.raw ∧ b.raw < r.2

def OwnedByte (b : VarOffset) : Prop :=
  ∃ o r, resolve inputs o = some r ∧ o.isFf = b.isFf ∧ Within b r

/-- The spans are in order, hold something, and are equal or disjoint. -/
structure WellFormed : Prop where
  sorted : (combSpans inputs).Pairwise fun a b => a.1 ≤ b.1
  nonempty : ∀ r ∈ combSpans inputs, r.1 < r.2
  disjoint : ∀ a ∈ combSpans inputs, ∀ b ∈ combSpans inputs, a = b ∨ a.2 ≤ b.1 ∨ b.2 ≤ a.1

end Bytes

namespace StmtInfo

def Reads (info : StmtInfo) (b : VarOffset) : Prop :=
  ∃ r ∈ if b.isFf then info.inFf else info.inComb, Within b r

def Writes (info : StmtInfo) (b : VarOffset) : Prop :=
  (∃ r ∈ if b.isFf then info.outFf else info.outComb, Within b r) ∧ (b.isFf → info.unbounded)

def Touches (info : StmtInfo) (b : VarOffset) : Prop := info.Reads b ∨ info.Writes b

end StmtInfo

section Paths

variable {inputs : OwnerInputs} {stmts : List ProtoStatement} {infos : List StmtInfo} {i j : ℕ}
  {p q : StmtInfo} {b : VarOffset}

abbrev Hazard (inputs : OwnerInputs) (stmts : List ProtoStatement) (infos : List StmtInfo) :
    ℕ → ℕ → Prop :=
  Edge (hazards inputs stmts infos)

theorem mem_specials {s : ProtoStatement} (hs : stmts[i]? = some s) (hp : infos[i]? = some p)
    (h : p.unbounded || hasSideEffects s) : i ∈ specials stmts infos := by
  refine List.mem_map.2 ⟨((s, p), i), mem_filter.2 ⟨?_, h⟩, rfl⟩
  refine mem_zipIdx_of_getElem? ?_
  rw [getElem?_zip_eq_some]
  exact ⟨hs, hp⟩

theorem specials_sorted (stmts : List ProtoStatement) (infos : List StmtInfo) :
    (specials stmts infos).Pairwise (· ≤ ·) := by
  refine List.Pairwise.map _ (fun a b h => h) ?_
  exact ((pairwise_zipIdx _).imp fun h => h.le).filter _

/-- The statements of the chain keep their order. -/
theorem transGen_specials (hij : i < j) (hi : i ∈ specials stmts infos)
    (hj : j ∈ specials stmts infos) : Relation.TransGen (Hazard inputs stmts infos) i j := by
  refine transGen_of_mem (specials_sorted stmts infos) (fun e he => ?_) hi hj hij
  exact mem_append_right _ he

theorem transGen_combWriters (hk : k < inputs.combOwner.length) (hij : i < j)
    (hi : i ∈ combWriters inputs infos k) (hj : j ∈ combWriters inputs infos k) :
    Relation.TransGen (Hazard inputs stmts infos) i j := by
  refine transGen_of_mem (writersOf_sorted _ _ _ _ _) (fun e he => ?_) hi hj hij
  refine mem_append_left _ (mem_append_left _ (mem_append_left _ ?_))
  exact mem_flatMap.2 ⟨k, mem_range.2 hk, he⟩

theorem reflTransGen_of_le {E : ℕ → ℕ → Prop} (hij : i ≤ j)
    (h : i < j → Relation.TransGen E i j) : Relation.ReflTransGen E i j := by
  rcases Nat.lt_or_eq_of_le hij with hlt | rfl
  · exact (h hlt).to_reflTransGen
  · exact .refl

theorem mem_of_combSpan {o : VarOffset} {sp : OwnerSpan} (h : combSpan inputs o = some sp) :
    sp ∈ inputs.combOwner := by
  cases o with
  | ff x => cases h
  | comb x =>
    simp only [combSpan, OwnerInputs.spanIn] at h
    split_ifs at h
    exact mem_of_getElem? (filter_eq_some_iff.1 h).1

theorem exists_combSpan (hwf : WellFormed inputs) (hb : OwnedByte inputs b)
    (hcomb : b.isFf = false) :
    ∃ k < inputs.combOwner.length, ∀ r, Within b r →
      k ∈ visit (combSpans inputs) (firstSpan (combSpans inputs) r.1) r.1 r.2 := by
  obtain ⟨o, r₀, hr₀, hff, hlo, hhi⟩ := hb
  cases o with
  | ff x =>
    rw [hcomb] at hff
    cases hff
  | comb x =>
    have hspan : (combSpan inputs (.comb x)).map (fun s => (s.start, s.stop)) = some r₀ := by
      simpa [resolve, ffSpan] using hr₀
    obtain ⟨sp, hsp, rfl⟩ := map_eq_some_iff.1 hspan
    have hmem := mem_of_combSpan hsp
    obtain ⟨k, hk, rfl⟩ := mem_iff_getElem.1 hmem
    have hk' : k < (combSpans inputs).length := by simpa [combSpans] using hk
    have hat : (combSpans inputs)[k] = (inputs.combOwner[k].start, inputs.combOwner[k].stop) := by
      simp [combSpans]
    refine ⟨k, hk, fun r hr => ?_⟩
    have hlo' : r.1 < (combSpans inputs)[k].2 := by
      rw [hat]
      have := hr.1
      omega
    have hhi' : (combSpans inputs)[k].1 < r.2 := by
      rw [hat]
      have := hr.2
      omega
    have hempty := hwf.sorted.imp_of_mem (S := fun a b => b.2 ≤ a.1 → a.2 ≤ b.2) fun _ hb hab hba =>
      absurd (hwf.nonempty _ hb) (not_lt.2 (hba.trans hab))
    exact mem_visit hwf.sorted hk' (firstSpan_le hempty hwf.disjoint hk' hlo') hlo' hhi'

theorem mem_combWriters (hp : infos[i]? = some p) (hw : p.Writes b) (hcomb : b.isFf = false)
    (hk : ∀ r, Within b r → k ∈ visit (combSpans inputs) (firstSpan (combSpans inputs) r.1) r.1 r.2) :
    i ∈ combWriters inputs infos k := by
  obtain ⟨⟨r, hr, hb⟩, -⟩ := hw
  rw [hcomb] at hr
  exact mem_writersOf hp hr (hk r hb)

theorem transGen_combReader (hk : k < inputs.combOwner.length) (hij : i < j)
    (hvisit : ∀ r, Within b r →
      k ∈ visit (combSpans inputs) (firstSpan (combSpans inputs) r.1) r.1 r.2)
    (hcomb : b.isFf = false) (hp : infos[i]? = some p) (hq : infos[j]? = some q)
    (h : p.Reads b ∧ j ∈ combWriters inputs infos k ∨ i ∈ combWriters inputs infos k ∧ q.Reads b) :
    Relation.TransGen (Hazard inputs stmts infos) i j := by
  have hsorted := writersOf_sorted infos StmtInfo.outComb (combSpans inputs)
    (firstSpan (combSpans inputs)) k
  have hedge : ∀ {x : ℕ} {info : StmtInfo}, infos[x]? = some info → info.Reads b →
      ∀ e ∈ readerEdges skipOne (combWriters inputs infos k) x, e ∈ hazards inputs stmts infos := by
    rintro x info hx ⟨r, hr, hb⟩ e he
    rw [hcomb] at hr
    refine mem_append_left _ (mem_append_left _ (mem_append_right _ ?_))
    exact mem_spanEdges hx hr (hvisit r hb) he
  rcases h with ⟨hreads, hj⟩ | ⟨hi, hreads⟩
  · by_cases hi : i ∈ combWriters inputs infos k
    · exact transGen_combWriters hk hij hi hj
    · obtain ⟨x, hx, hle, he⟩ := exists_readerEdge_after hsorted hj hij skipOne_eq hi
      exact .head' (hedge hp hreads _ he) (reflTransGen_of_le hle fun hlt =>
        transGen_combWriters hk hlt hx hj)
  · obtain ⟨x, hx, hle, he⟩ := exists_readerEdge_before hsorted hi hij
    exact .tail' (reflTransGen_of_le hle fun hlt => transGen_combWriters hk hlt hi hx)
      (hedge hq hreads _ he)

theorem ffSpans_sorted (infos : List StmtInfo) : (ffSpans infos).Pairwise fun a b => a.1 ≤ b.1 := by
  have h := (pairwise_insertionSort (fun a b => rangeLe a b = true)
    (infos.flatMap StmtInfo.outFf)).sublist (dedup_sublist _)
  refine h.imp fun hab => ?_
  simp [rangeLe] at hab
  omega

theorem exists_ffSpan (hp : infos[i]? = some p) (hw : p.Writes b) (hff : b.isFf = true) :
    ∃ k, ∀ r, Within b r → k ∈ visit (ffSpans infos) (ffFirst infos r.1) r.1 r.2 := by
  obtain ⟨⟨r₀, hr₀, hb₀⟩, -⟩ := hw
  rw [hff] at hr₀
  have hmem : r₀ ∈ ffSpans infos := by
    rw [ffSpans, List.mem_dedup, mem_insertionSort]
    exact mem_flatMap.2 ⟨p, mem_of_getElem? hp, hr₀⟩
  obtain ⟨k, hk, rfl⟩ := mem_iff_getElem.1 hmem
  refine ⟨k, fun r hr => ?_⟩
  have hlo : r.1 < (ffSpans infos)[k].2 := by
    have := hr.1
    have := hb₀.2
    omega
  have hhi : (ffSpans infos)[k].1 < r.2 := by
    have := hr.2
    have := hb₀.1
    omega
  exact mem_visit (ffSpans_sorted infos) hk (firstFfSpan_le hk hlo) hlo hhi

section

variable (hlen : infos.length = stmts.length)

include hlen

theorem ffWriters_mem_specials (hff : ∀ info ∈ infos, info.outFf ≠ [] → info.unbounded)
    (hi : i ∈ ffWriters infos k) : i ∈ specials stmts infos := by
  obtain ⟨x, hx, hi⟩ := mem_flatMap.1 hi
  obtain ⟨r, hr, hi⟩ := mem_flatMap.1 hi
  obtain ⟨k', -, hi⟩ := mem_filterMap.1 hi
  split at hi
  · obtain rfl := some.inj hi
    have hget := List.mem_zipIdx_iff_getElem?.1 hx
    have hlt := lt_length_of_mem_zipIdx hx
    have hs : stmts[x.2]? = some stmts[x.2] := getElem?_eq_getElem (hlen ▸ hlt)
    refine mem_specials hs hget ?_
    rw [hff x.1 (mem_of_getElem? hget) (ne_nil_of_mem hr)]
    rfl
  · cases hi

theorem transGen_ffReader
    (hunb : ∀ info ∈ infos, info.outFf ≠ [] → info.unbounded) (hff : b.isFf = true) (hij : i < j)
    (hp : infos[i]? = some p) (hq : infos[j]? = some q)
    (h : p.Reads b ∧ q.Writes b ∨ p.Writes b ∧ q.Reads b) :
    Relation.TransGen (Hazard inputs stmts infos) i j := by
  have hmemw : ∀ {x : ℕ} {info : StmtInfo} {k : ℕ}, infos[x]? = some info → info.Writes b →
      (∀ r, Within b r → k ∈ visit (ffSpans infos) (ffFirst infos r.1) r.1 r.2) →
        x ∈ ffWriters infos k := by
    rintro x info k hx ⟨⟨r, hr, hb⟩, -⟩ hk
    rw [hff] at hr
    exact mem_writersOf hx hr (hk r hb)
  have hedge : ∀ {x : ℕ} {info : StmtInfo} {k : ℕ}, infos[x]? = some info → info.Reads b →
      (∀ r, Within b r → k ∈ visit (ffSpans infos) (ffFirst infos r.1) r.1 r.2) →
      ∀ e ∈ readerEdges skipAll (ffWriters infos k) x, e ∈ hazards inputs stmts infos := by
    rintro x info k hx ⟨r, hr, hb⟩ hk e he
    rw [hff] at hr
    refine mem_append_left _ (mem_append_right _ ?_)
    exact mem_spanEdges hx hr (hk r hb) he
  have hchain : ∀ {k x y : ℕ}, x ∈ ffWriters infos k → y ∈ ffWriters infos k → x < y →
      Relation.TransGen (Hazard inputs stmts infos) x y := fun hx hy hxy =>
    transGen_specials hxy (ffWriters_mem_specials hlen hunb hx)
      (ffWriters_mem_specials hlen hunb hy)
  rcases h with ⟨hreads, hwrites⟩ | ⟨hwrites, hreads⟩
  · obtain ⟨k, hk⟩ := exists_ffSpan hq hwrites hff
    have hj := hmemw hq hwrites hk
    by_cases hi : i ∈ ffWriters infos k
    · exact hchain hi hj hij
    · obtain ⟨x, hx, hle, he⟩ := exists_readerEdge_after (writersOf_sorted _ _ _ _ _) hj hij
        skipAll_eq hi
      exact .head' (hedge hp hreads hk _ he) (reflTransGen_of_le hle (hchain hx hj))
  · obtain ⟨k, hk⟩ := exists_ffSpan hp hwrites hff
    have hi := hmemw hp hwrites hk
    obtain ⟨x, hx, hle, he⟩ := exists_readerEdge_before (writersOf_sorted _ _ _ _ _) hi hij
    exact .tail' (reflTransGen_of_le hle (hchain hi hx)) (hedge hq hreads hk _ he)

theorem mem_specials_of_unbounded (hp : infos[i]? = some p)
    (h : p.unbounded) : i ∈ specials stmts infos := by
  have hlt : i < stmts.length := hlen ▸ (List.getElem?_eq_some_iff.1 hp).1
  exact mem_specials (getElem?_eq_getElem hlt) hp (by simp [h])

end

theorem transGen_of_touches (hwf : WellFormed inputs) (hlen : infos.length = stmts.length)
    (hunb : ∀ info ∈ infos, info.outFf ≠ [] → info.unbounded) (hij : i < j)
    (hp : infos[i]? = some p) (hq : infos[j]? = some q) (hb : OwnedByte inputs b)
    (h : p.Writes b ∧ q.Touches b ∨ p.Touches b ∧ q.Writes b) :
    Relation.TransGen (Hazard inputs stmts infos) i j := by
  have hcases : p.Writes b ∧ q.Writes b ∨ p.Reads b ∧ q.Writes b ∨ p.Writes b ∧ q.Reads b := by
    unfold StmtInfo.Touches at h
    tauto
  cases hff : b.isFf with
  | true =>
    rcases hcases with ⟨hpw, hqw⟩ | hread
    · exact transGen_specials hij (mem_specials_of_unbounded hlen hp (hpw.2 hff))
        (mem_specials_of_unbounded hlen hq (hqw.2 hff))
    · exact transGen_ffReader hlen hunb hff hij hp hq hread
  | false =>
    obtain ⟨k, hk, hvisit⟩ := exists_combSpan hwf hb hff
    rcases hcases with ⟨hpw, hqw⟩ | ⟨hpr, hqw⟩ | ⟨hpw, hqr⟩
    · exact transGen_combWriters hk hij (mem_combWriters hp hpw hff hvisit)
        (mem_combWriters hq hqw hff hvisit)
    · exact transGen_combReader hk hij hvisit hff hp hq
        (.inl ⟨hpr, mem_combWriters hq hqw hff hvisit⟩)
    · exact transGen_combReader hk hij hvisit hff hp hq
        (.inr ⟨mem_combWriters hp hpw hff hvisit, hqr⟩)

/-- The owner spans that ranges reach. -/
def spansOf (inputs : OwnerInputs) (ranges : List (ℕ × ℕ)) : List ℕ :=
  ranges.flatMap fun r => visit (combSpans inputs) (firstSpan (combSpans inputs) r.1) r.1 r.2

theorem mem_spansOf_append {w : List (ℕ × ℕ)} :
    k ∈ spansOf inputs (v ++ w) ↔ k ∈ spansOf inputs v ∨ k ∈ spansOf inputs w := by
  rw [spansOf, flatMap_append, mem_append]
  rfl

theorem exists_of_mem_combWriters (h : i ∈ combWriters inputs infos k) :
    ∃ info, infos[i]? = some info ∧ k ∈ spansOf inputs info.outComb := by
  obtain ⟨x, hx, h⟩ := mem_flatMap.1 h
  obtain ⟨r, hr, h⟩ := mem_flatMap.1 h
  obtain ⟨k', hk, h⟩ := mem_filterMap.1 h
  split at h
  · rename_i hkk
    obtain rfl := some.inj h
    exact ⟨x.1, List.mem_zipIdx_iff_getElem?.1 hx, mem_flatMap.2 ⟨r, hr, hkk ▸ hk⟩⟩
  · cases h

theorem mem_of_mem_readerEdges (hskip : skip i (w.drop (partitionPoint w fun x => x < i)) ⊆ w)
    (he : e ∈ readerEdges skip w i) : e.1 ∈ w ∧ e.2 = i ∨ e.1 = i ∧ e.2 ∈ w := by
  rcases mem_append.1 he with he | he
  · split at he
    · cases he
    · obtain ⟨p, hp, rfl⟩ := List.mem_map.1 he
      exact .inl ⟨mem_of_getElem? (mem_toList.1 hp), rfl⟩
  · obtain ⟨q, hq, rfl⟩ := List.mem_map.1 he
    exact .inr ⟨rfl, hskip (List.mem_of_mem_head? (mem_toList.1 hq))⟩

/-- Without flip-flop readers and untracked statements an edge joins a writer of
an owner span with another writer or a reader of it. -/
theorem of_mem_hazards (hff : ∀ info ∈ infos, info.inFf = []) (hspec : specials stmts infos = [])
    (he : e ∈ hazards inputs stmts infos) :
    ∃ k p q, infos[e.1]? = some p ∧ infos[e.2]? = some q ∧
      (k ∈ spansOf inputs p.outComb ∧ k ∈ spansOf inputs (q.outComb ++ q.inComb) ∨
        k ∈ spansOf inputs p.inComb ∧ k ∈ spansOf inputs q.outComb) := by
  simp only [hazards, mem_append] at he
  rcases he with ((he | he) | he) | he
  · obtain ⟨k, -, he⟩ := mem_flatMap.1 he
    obtain ⟨p, hp, hkp⟩ := exists_of_mem_combWriters (of_mem_zip he).1
    obtain ⟨q, hq, hkq⟩ := exists_of_mem_combWriters (mem_of_mem_windows he)
    exact ⟨k, p, q, hp, hq, .inl ⟨hkp, mem_spansOf_append.2 (.inl hkq)⟩⟩
  · obtain ⟨x, hx, he⟩ := mem_flatMap.1 he
    obtain ⟨r, hr, he⟩ := mem_flatMap.1 he
    obtain ⟨k, hk, he⟩ := mem_flatMap.1 he
    have hread : k ∈ spansOf inputs x.1.inComb := mem_flatMap.2 ⟨r, hr, hk⟩
    have hx := List.mem_zipIdx_iff_getElem?.1 hx
    have hskip : skipOne x.2 ((combWriters inputs infos k).drop
        (partitionPoint (combWriters inputs infos k) fun y => y < x.2)) ⊆
          combWriters inputs infos k := by
      intro y hy
      unfold skipOne at hy
      split at hy
      · exact mem_of_mem_drop (mem_of_mem_tail hy)
      · exact mem_of_mem_drop hy
    rcases mem_of_mem_readerEdges hskip he with ⟨hw, he⟩ | ⟨he, hw⟩
    · obtain ⟨p, hp, hkp⟩ := exists_of_mem_combWriters hw
      exact ⟨k, p, x.1, hp, he ▸ hx, .inl ⟨hkp, mem_spansOf_append.2 (.inr hread)⟩⟩
    · obtain ⟨q, hq, hkq⟩ := exists_of_mem_combWriters hw
      exact ⟨k, x.1, q, he ▸ hx, hq, .inr ⟨hread, hkq⟩⟩
  · obtain ⟨x, hx, he⟩ := mem_flatMap.1 he
    obtain ⟨r, hr, he⟩ := mem_flatMap.1 he
    rw [hff _ (mem_of_getElem? (List.mem_zipIdx_iff_getElem?.1 hx))] at hr
    cases hr
  · rw [hspec] at he
    cases he

theorem visit_lt (spans : List (ℕ × ℕ)) (j s e : ℕ) : (visit spans j s e).Pairwise (· < ·) := by
  have hzip : (spans.zipIdx.drop j).Pairwise fun a b => a.2 < b.2 :=
    (pairwise_zipIdx spans).sublist (drop_sublist _ _)
  refine List.Pairwise.filterMap _ ?_ (hzip.sublist (takeWhile_sublist _))
  intro a b hab x hx y hy
  split at hx <;> split at hy <;> simp_all

theorem of_mem_visit {spans : List (ℕ × ℕ)} {j s e : ℕ} (h : k ∈ visit spans j s e) :
    ∃ hk : k < spans.length, spans[k].1 < e ∧ s < spans[k].2 := by
  obtain ⟨x, hx, hk⟩ := mem_filterMap.1 h
  split at hk
  · obtain rfl := some.inj hk
    have hlt := mem_takeWhile_imp hx
    have hget := List.mem_zipIdx_iff_getElem?.1 (mem_of_mem_drop ((takeWhile_sublist _).subset hx))
    obtain ⟨hk, hval⟩ := List.getElem?_eq_some_iff.1 hget
    refine ⟨hk, ?_⟩
    rw [hval]
    exact ⟨by simpa using hlt, by assumption⟩
  · cases hk

theorem apart_of_visit (hwf : WellFormed inputs)
    (hv : ∀ r ∈ v, r ∈ combSpans inputs) {r' : ℕ × ℕ} (hr : r ∈ mergeRanges v)
    (hr' : r' ∈ mergeRanges v) (hlt : r.2 < r'.1) {j j' : ℕ}
    (hk : k ∈ visit (combSpans inputs) j r.1 r.2)
    (hk' : k ∈ visit (combSpans inputs) j' r'.1 r'.2) : False := by
  have inside : ∀ {r : ℕ × ℕ} {j : ℕ}, r ∈ mergeRanges v → k ∈ visit (combSpans inputs) j r.1 r.2 →
      ∃ (hk : k < (combSpans inputs).length), ∃ x, r.1 ≤ x ∧ x < r.2 ∧
        (combSpans inputs)[k] ∈ v ∧ (combSpans inputs)[k].1 ≤ x ∧ x < (combSpans inputs)[k].2 := by
    intro r j hr hk
    obtain ⟨hk, hlo, hhi⟩ := of_mem_visit hk
    have hne := mergeRanges_nonempty (fun r hr => hwf.nonempty r (hv r hr)) hr
    have hkne := hwf.nonempty _ (getElem_mem hk)
    obtain ⟨s, hs, hslo, hshi⟩ := mergeRanges_sound hr
      (show r.1 ≤ max r.1 (combSpans inputs)[k].1 from le_max_left _ _) (max_lt hne hlo)
    have hmax : (combSpans inputs)[k].1 ≤ max r.1 (combSpans inputs)[k].1 := le_max_right _ _
    have hmax' := max_lt hhi hkne
    refine ⟨hk, max r.1 (combSpans inputs)[k].1, le_max_left _ _, max_lt hne hlo, ?_, hmax, hmax'⟩
    rcases hwf.disjoint _ (hv s hs) _ (getElem_mem hk) with he | he | he
    · rwa [he] at hs
    · omega
    · omega
  obtain ⟨hkl, x, hx⟩ := inside hr hk
  obtain ⟨_, y, hy⟩ := inside hr' hk'
  -- the span lies in one merged range, which then is both
  obtain ⟨m, hm, hmlo, hmhi⟩ := mergeRanges_covers hx.2.2.1
  have hapart := mergeRanges_apart v
  have hsame : ∀ {r : ℕ × ℕ}, r ∈ mergeRanges v → ∀ x, r.1 ≤ x → x < r.2 → m.1 ≤ x → x < m.2 →
      r = m := by
    intro r hr x hlo hhi hmlo hmhi
    obtain ⟨i, hi, rfl⟩ := mem_iff_getElem.1 hr
    obtain ⟨j, hj, rfl⟩ := mem_iff_getElem.1 hm
    rcases lt_trichotomy i j with hij | rfl | hij
    · have := pairwise_iff_getElem.1 hapart i j hi hj hij
      omega
    · rfl
    · have := pairwise_iff_getElem.1 hapart j i hj hi hij
      omega
  have h₁ := hsame hr x hx.1 hx.2.1 (by omega) (by omega)
  have h₂ := hsame hr' y hy.1 hy.2.1 (by omega) (by omega)
  rw [h₁, h₂] at hlt
  omega

/-- The comb outputs of a statement are owner spans, merged. -/
def OnOwners (inputs : OwnerInputs) (info : StmtInfo) : Prop :=
  ∃ v, (∀ r ∈ v, r ∈ combSpans inputs) ∧ info.outComb = mergeRanges v

theorem combWriters_lt (hwf : WellFormed inputs) (hown : ∀ info ∈ infos, OnOwners inputs info)
    (k : ℕ) : (combWriters inputs infos k).Pairwise (· < ·) := by
  have hmem : ∀ (x : StmtInfo × ℕ) (r : ℕ × ℕ), ∀ i ∈ (visit (combSpans inputs)
      (firstSpan (combSpans inputs) r.1) r.1 r.2).filterMap (fun j => if j = k then some x.2 else none),
      i = x.2 ∧ k ∈ visit (combSpans inputs) (firstSpan (combSpans inputs) r.1) r.1 r.2 := by
    intro x r i hi
    obtain ⟨j, hj, hi⟩ := mem_filterMap.1 hi
    split at hi
    · rename_i hjk
      exact ⟨(some.inj hi).symm, hjk ▸ hj⟩
    · cases hi
  refine pairwise_flatMap.2 ⟨fun x hx => ?_, (pairwise_zipIdx infos).imp ?_⟩
  · obtain ⟨v, hv, hout⟩ := hown x.1 (mem_of_getElem? (List.mem_zipIdx_iff_getElem?.1 hx))
    rw [hout]
    refine pairwise_flatMap.2 ⟨fun r _ => ?_, ?_⟩
    · refine (visit_lt _ _ _ _).filterMap _ fun a b hab i hi i' hi' => ?_
      -- of two visits only one is to `k`
      simp only [ite_none_right_eq_some] at hi hi'
      omega
    · refine (List.Pairwise.and_mem.1 (mergeRanges_apart v)).imp ?_
      intro r r' hrr i hi i' hi'
      exact (apart_of_visit hwf hv hrr.1 hrr.2.1 hrr.2.2 (hmem x r i hi).2 (hmem x r' i' hi').2).elim
  · intro x y hxy a ha b hb
    obtain ⟨r, -, ha⟩ := mem_flatMap.1 ha
    obtain ⟨r', -, hb⟩ := mem_flatMap.1 hb
    rw [(hmem x r a ha).1, (hmem y r' b hb).1]
    exact hxy

theorem windows_lt (hw : w.Pairwise (· < ·)) (he : e ∈ windows w) : e.1 < e.2 := by
  induction w with
  | nil => cases he
  | cons a w ih =>
    cases w with
    | nil => cases he
    | cons b w =>
      rcases mem_cons.1 he with rfl | he
      · exact rel_of_pairwise_cons hw mem_cons_self
      · exact ih hw.of_cons he

theorem readerEdges_fwd
    (hskip : ∀ q ∈ (skip i (w.drop (partitionPoint w fun x => x < i))).head?, i < q)
    (he : e ∈ readerEdges skip w i) : e.1 < e.2 := by
  rcases mem_append.1 he with he | he
  · split at he
    · cases he
    · rename_i hk
      obtain ⟨p, hp, rfl⟩ := List.mem_map.1 he
      obtain ⟨hlt, rfl⟩ := List.getElem?_eq_some_iff.1 (mem_toList.1 hp)
      simpa using of_lt_partitionPoint hlt (show _ < partitionPoint w fun x => decide (x < i) by omega)
  · obtain ⟨q, hq, rfl⟩ := List.mem_map.1 he
    exact hskip q (mem_toList.1 hq)

theorem le_of_mem_drop (hw : w.Pairwise (· ≤ ·)) {q : ℕ}
    (hq : q ∈ w.drop (partitionPoint w fun x => x < i)) : i ≤ q := by
  obtain ⟨m, hm, rfl⟩ := mem_iff_getElem.1 hq
  rw [length_drop] at hm
  have hk : (partitionPoint w fun x => x < i) < w.length := by omega
  have hnot := partitionPoint_not hk
  simp only [decide_eq_false_iff_not, not_lt] at hnot
  rw [getElem_drop]
  rcases Nat.eq_zero_or_pos m with rfl | hpos
  · simpa using hnot
  · exact hnot.trans (pairwise_iff_getElem.1 hw _ _ hk (by omega) (by omega))

theorem skipOne_fwd (hw : w.Pairwise (· < ·)) :
    ∀ q ∈ (skipOne i (w.drop (partitionPoint w fun x => x < i))).head?, i < q := by
  intro q hq
  have hle : ∀ q ∈ w.drop (partitionPoint w fun x => x < i), i ≤ q :=
    fun q => le_of_mem_drop (hw.imp le_of_lt)
  have hsorted := hw.sublist (drop_sublist (partitionPoint w fun x => x < i) w)
  generalize w.drop (partitionPoint w fun x => x < i) = l at hq hle hsorted
  unfold skipOne at hq
  cases l with
  | nil => simp at hq
  | cons a l =>
    split at hq
    · rename_i ha
      obtain rfl : a = i := by simpa using ha
      exact rel_of_pairwise_cons hsorted (List.mem_of_mem_head? hq)
    · rename_i ha
      obtain rfl : a = q := by simpa using hq
      have := hle a (by simp)
      have : a ≠ i := by simpa using ha
      omega

theorem skipAll_fwd (hw : w.Pairwise (· ≤ ·)) :
    ∀ q ∈ (skipAll i (w.drop (partitionPoint w fun x => x < i))).head?, i < q := by
  intro q hq
  have hle := le_of_mem_drop hw ((dropWhile_sublist _).subset (List.mem_of_mem_head? hq))
  have hne : q ≠ i := by
    have := head?_dropWhile_not (fun x => decide (x = i)) (w.drop (partitionPoint w fun x => x < i))
    rw [skipAll] at hq
    rw [mem_def.1 hq] at this
    simpa using this
  omega

/-- Every edge points forward. -/
theorem hazards_fwd (hwf : WellFormed inputs) (hown : ∀ info ∈ infos, OnOwners inputs info)
    (he : e ∈ hazards inputs stmts infos) : e.1 < e.2 := by
  simp only [hazards, mem_append] at he
  rcases he with ((he | he) | he) | he
  · obtain ⟨k, -, he⟩ := mem_flatMap.1 he
    exact windows_lt (combWriters_lt hwf hown k) he
  · obtain ⟨x, -, he⟩ := mem_flatMap.1 he
    obtain ⟨r, -, he⟩ := mem_flatMap.1 he
    obtain ⟨k, -, he⟩ := mem_flatMap.1 he
    exact readerEdges_fwd (skipOne_fwd (combWriters_lt hwf hown k)) he
  · obtain ⟨x, -, he⟩ := mem_flatMap.1 he
    obtain ⟨r, -, he⟩ := mem_flatMap.1 he
    obtain ⟨k, -, he⟩ := mem_flatMap.1 he
    exact readerEdges_fwd (skipAll_fwd (writersOf_sorted _ _ _ _ _)) he
  · refine windows_lt (List.Pairwise.map _ (fun a b h => h) ?_) he
    exact (pairwise_zipIdx _).filter _

/-- Every edge ends at a statement. -/
theorem hazards_lt (hlen : infos.length = stmts.length)
    (he : e ∈ hazards inputs stmts infos) : e.2 < stmts.length := by
  have hreader : ∀ {ins : StmtInfo → List (ℕ × ℕ)} {spans : List (ℕ × ℕ)} {first : ℕ → ℕ}
      {writers : ℕ → List ℕ} {skip : ℕ → List ℕ → List ℕ},
      (∀ k, ∀ x ∈ writers k, x < infos.length) → (∀ i w, skip i w ⊆ w) →
      e ∈ spanEdges infos ins spans first writers skip → e.2 < stmts.length := by
    intro ins spans first writers skip hw hskip he
    obtain ⟨x, hx, he⟩ := mem_flatMap.1 he
    obtain ⟨r, -, he⟩ := mem_flatMap.1 he
    obtain ⟨k, -, he⟩ := mem_flatMap.1 he
    rw [← hlen]
    exact readerEdges_lt (hw k) (lt_length_of_mem_zipIdx hx) hskip he
  simp only [hazards, mem_append] at he
  rcases he with ((he | he) | he) | he
  · obtain ⟨k, -, he⟩ := mem_flatMap.1 he
    rw [← hlen]
    exact writersOf_lt (mem_of_mem_windows he)
  · refine hreader (fun k x hx => writersOf_lt hx) (fun i w => ?_) he
    unfold skipOne
    split
    · exact fun x hx => mem_of_mem_tail hx
    · exact List.Subset.refl w
  · exact hreader (fun k x hx => writersOf_lt hx) (fun i w => (dropWhile_sublist _).subset) he
  · obtain ⟨x, hx, hx2⟩ := List.mem_map.1 (mem_of_mem_windows he)
    have := lt_length_of_mem_zipIdx (mem_of_mem_filter hx)
    rw [length_zip] at this
    omega

end Paths

end Veryl.Simulator.Opt.ConeOrder
