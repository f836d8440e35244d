import Veryl.Simulator.Opt.OwnersSort
import Veryl.Simulator.Opt.OwnersTour

/-!
What the owner tables answer. Flip-flop elements fold into strided runs, which tell the element
of a byte.
-/

namespace Veryl.Simulator.Opt

open Veryl.Library List

variable (elems : List (ℕ × ℕ))

/-- The elements of a run, the first `count` of them seen, that go on in its pattern. -/
def runCount (start stride bytes count : ℕ) : List (ℕ × ℕ) → ℕ
  | [] => count
  | (off, nb) :: elems =>
    if nb ≠ bytes ∨ off ≠ start + count * stride then count
    else runCount start stride bytes (count + 1) elems

/-- Two elements decide the stride; a lone one strides by its own width. -/
def runStride (start bytes : ℕ) : List (ℕ × ℕ) → ℕ
  | (next, nb) :: _ => if nb = bytes ∧ start < next then next - start else bytes
  | [] => bytes

def foldFfRuns : List (ℕ × ℕ) → List FfRun
  | [] => []
  | (start, bytes) :: elems =>
    let stride := runStride start bytes elems
    let count := runCount start stride bytes 1 elems
    ⟨start, stride, count, bytes⟩ :: foldFfRuns (elems.drop (count - 1))
termination_by elems => elems.length

def FfRun.element (r : FfRun) (k : ℕ) : ℕ × ℕ := (r.start + k * r.stride, r.bytes)

def FfRun.elements (r : FfRun) : List (ℕ × ℕ) := (range r.count).map r.element

/-- Elements of positive width in order, none overlapping a later one. -/
def ApartElements (elems : List (ℕ × ℕ)) : Prop :=
  (∀ x ∈ elems, 0 < x.2) ∧ elems.Pairwise fun x y => x.1 + x.2 ≤ y.1

theorem runCount_spec (start stride bytes : ℕ) (elems : List (ℕ × ℕ)) (count : ℕ) :
    count ≤ runCount start stride bytes count elems ∧
    (range (runCount start stride bytes count elems)).map
        (FfRun.element ⟨start, stride, 0, bytes⟩) ++
      elems.drop (runCount start stride bytes count elems - count) =
    (range count).map (FfRun.element ⟨start, stride, 0, bytes⟩) ++ elems := by
  induction elems generalizing count with
  | nil => simp [runCount]
  | cons e elems ih =>
    obtain ⟨off, nb⟩ := e
    rw [runCount]
    split
    · simp
    obtain ⟨rfl, rfl⟩ : nb = bytes ∧ off = start + count * stride := by omega
    obtain ⟨hle, heq⟩ := ih (count + 1)
    refine ⟨by omega, ?_⟩
    rw [range_succ, map_append, append_assoc] at heq
    rw [show runCount start stride nb (count + 1) elems - count =
      runCount start stride nb (count + 1) elems - (count + 1) + 1 by omega, drop_succ_cons]
    exact heq

theorem foldFfRuns_elements : (foldFfRuns elems).flatMap FfRun.elements = elems := by
  induction elems using foldFfRuns.induct with
  | case1 => rw [foldFfRuns, flatMap_nil]
  | case2 start bytes elems stride count ih =>
    rw [foldFfRuns, flatMap_cons, ih]
    have h := (runCount_spec start stride bytes elems 1).2
    simp only [range_one, map_singleton, FfRun.element, zero_mul, singleton_append] at h
    exact h

theorem bytes_le_runStride {start bytes : ℕ} {elems : List (ℕ × ℕ)}
    (h : ApartElements ((start, bytes) :: elems)) : bytes ≤ runStride start bytes elems := by
  unfold runStride
  split
  · split
    · have := rel_of_pairwise_cons h.2 mem_cons_self
      omega
    · exact le_rfl
  · exact le_rfl

/-- A run has an element, of positive width, and its elements do not overlap. -/
def FfRun.Strided (r : FfRun) : Prop := 0 < r.count ∧ 0 < r.bytes ∧ r.bytes ≤ r.stride

theorem strided_foldFfRuns (h : ApartElements elems) : ∀ r ∈ foldFfRuns elems, r.Strided := by
  induction elems using foldFfRuns.induct with
  | case1 => simp [foldFfRuns]
  | case2 start bytes elems stride count ih =>
    rw [foldFfRuns]
    refine forall_mem_cons.2 ⟨?_, ih ?_⟩
    · exact ⟨(runCount_spec start stride bytes elems 1).1, h.1 _ mem_cons_self,
        bytes_le_runStride h⟩
    · exact ⟨fun x hx => h.1 x (mem_cons_of_mem _ (mem_of_mem_drop hx)),
        h.2.of_cons.sublist (drop_sublist _ _)⟩

/-- A byte of an element of one run lies before the later runs. -/
theorem foldFfRuns_apart (h : ApartElements elems) :
    (foldFfRuns elems).Pairwise fun r later => ∀ x ∈ r.elements, x.1 + x.2 ≤ later.start := by
  have hall := h.2
  rw [← foldFfRuns_elements elems, pairwise_flatMap] at hall
  refine hall.2.imp_of_mem fun {r later} _ hl hrl x hx => ?_
  have hpos := (strided_foldFfRuns elems h later hl).1
  have := hrl x hx (later.element 0) (mem_map_of_mem (mem_range.2 hpos))
  simpa [FfRun.element] using this

theorem span_foldFfRuns (h : ApartElements elems) (x : ℕ) (p : ℕ × ℕ) :
    (FfOwner.mk (foldFfRuns elems)).span x = some p ↔
      ∃ e ∈ elems, e.1 ≤ x ∧ x < e.1 + e.2 ∧ p = (e.1, e.1 + e.2) := by
  have hstrided := strided_foldFfRuns elems h
  have hapart := pairwise_iff_getElem.1 (foldFfRuns_apart elems h)
  have hmem : ∀ e, e ∈ elems ↔ ∃ r ∈ foldFfRuns elems, ∃ k < r.count, r.element k = e := by
    intro e
    conv_lhs => rw [← foldFfRuns_elements elems]
    simp [FfRun.elements, mem_flatMap]
  generalize foldFfRuns elems = runs at *
  simp only [FfOwner.span]
  constructor
  · intro hs
    split at hs
    · cases hs
    have hi := partitionPoint_le_length runs fun r => r.start ≤ x
    have hi : (partitionPoint runs fun r => r.start ≤ x) - 1 < runs.length := by omega
    have hstart := of_decide_eq_true
      (of_lt_partitionPoint (p := fun r : FfRun => r.start ≤ x) hi (by omega))
    have hr := getElem_mem hi
    rw [getElem?_eq_getElem hi, Option.bind_eq_bind, Option.bind_some] at hs
    generalize runs[(partitionPoint runs fun r => r.start ≤ x) - 1] = r at hs hstart hr
    split at hs
    · cases hs
    rename_i hk
    split at hs
    · rename_i hlt
      have := Nat.div_mul_le_self (x - r.start) r.stride
      refine ⟨_, (hmem _).2 ⟨r, hr, _, not_le.1 hk, rfl⟩, ?_, hlt, (Option.some.inj hs).symm⟩
      simp only [FfRun.element]
      omega
    · cases hs
  · rintro ⟨e, he, hlo, hhi, rfl⟩
    obtain ⟨r, hr, k, hk, rfl⟩ := (hmem e).1 he
    obtain ⟨j, hj, rfl⟩ := mem_iff_getElem.1 hr
    have helem : ∀ i (hi : i < runs.length), ∀ k < runs[i].count,
      runs[i].element k ∈ runs[i].elements := fun i hi k hk => mem_map_of_mem (mem_range.2 hk)
    simp only [FfRun.element] at hlo hhi helem
    -- The byte lies in the last run that starts by then.
    have hpp : (partitionPoint runs fun r => r.start ≤ x) = j + 1 := by
      refine le_antisymm (not_lt.1 fun hlt => ?_) (not_lt.1 fun hle => ?_)
      · have hi := hlt.trans_le (partitionPoint_le_length runs _)
        have hnext := of_decide_eq_true (of_lt_partitionPoint hi hlt)
        have := hapart j (j + 1) hj hi (by omega) _ (helem j hj k hk)
        omega
      · have hi := (Nat.lt_succ_iff.1 hle).trans_lt hj
        have hlate := of_decide_eq_false (partitionPoint_not hi)
        rcases (Nat.lt_succ_iff.1 hle).eq_or_lt with heq | hlt
        · simp only [heq] at hlate
          omega
        · have := hapart _ j hi hj hlt _ (helem _ hi 0 (hstrided _ (getElem_mem hi)).1)
          omega
    have hk' : (x - runs[j].start) / runs[j].stride = k := by
      obtain ⟨-, hpos, hle⟩ := hstrided _ hr
      refine Nat.div_eq_of_lt_le ?_ ?_
      · omega
      · rw [Nat.succ_mul]
        omega
    rw [hpp, if_neg j.succ_ne_zero, Nat.add_sub_cancel, getElem?_eq_getElem hj]
    simp [hk', if_neg (not_le.2 hk), if_pos hhi, FfRun.element]

/-- The four tables: ancestry, the sorted spans, the element of a byte, and the spans of a range. -/
theorem ownerTables_exact :
    (∀ parent, Tour.Numbered parent → ∀ m < parent.length, ∀ a < parent.length,
      ((Tour.of parent).isDesc m a = true ↔ Tour.Below parent m a)) ∧
    (∀ v, SortedPerm v (radixSortIntervals v)) ∧
    (∀ elems, ApartElements elems → ∀ x p, (FfOwner.mk (foldFfRuns elems)).span x = some p ↔
      ∃ e ∈ elems, e.1 ≤ x ∧ x < e.1 + e.2 ∧ p = (e.1, e.1 + e.2)) ∧
    ∀ spans : List (ℕ × ℕ), spans.Pairwise (fun a b => rangeLe a b = true) →
      ∀ s e k, ∀ hk : k < spans.length, s < spans[k].2 → spans[k].1 < e →
      k ∈ visit spans (firstFfSpan (prefixMaxEnd spans) s) s e ∧
      ((∀ r ∈ spans, r.1 ≤ r.2) → (∀ a ∈ spans, ∀ b ∈ spans, a = b ∨ a.2 ≤ b.1 ∨ b.2 ≤ a.1) →
        k ∈ visit spans (firstSpan spans s) s e) := by
  refine ⟨fun parent h m hm a ha => Tour.isDesc_eq_true_iff h hm ha,
    sortedPerm_radixSortIntervals, span_foldFfRuns, ?_⟩
  intro spans hsorted s e k hk hlo hhi
  have hs : spans.Pairwise fun a b => a.1 ≤ b.1 := hsorted.imp fun hab => by
    simp only [rangeLe, decide_eq_true_eq] at hab
    omega
  refine ⟨mem_visit hs hk (firstFfSpan_le hk hlo) hlo hhi, fun hspans hdisj => ?_⟩
  refine mem_visit hs hk (firstSpan_le (hsorted.imp_of_mem fun _ hb hab => ?_) hdisj hk hlo) hlo hhi
  have := hspans _ hb
  simp only [rangeLe, decide_eq_true_eq] at hab
  omega

theorem ownerTables_exact_pair : (Tour.of [none, some 0]).isDesc 1 0 = true ∧
    (FfOwner.mk (foldFfRuns [(0, 4), (8, 4)])).span 9 = some (8, 12) ∧
    1 ∈ visit [(0, 4), (4, 8)] (firstSpan [(0, 4), (4, 8)] 5) 5 6 := by
  have hchild : Tour.Child [none, some 0] 1 0 := ⟨by decide, by decide, rfl⟩
  refine ⟨(ownerTables_exact.1 _ (fun m hpos hm => ?_) 1 (by decide) 0 (by decide)).2
    (.single hchild), ?_, ?_⟩
  · obtain rfl : m = 1 := by simp at hm; omega
    exact ⟨0, hpos, hchild⟩
  · exact (ownerTables_exact.2.2.1 _ ⟨by simp, by simp⟩ 9 (8, 12)).2 ⟨(8, 4), by simp⟩
  · exact (ownerTables_exact.2.2.2 [(0, 4), (4, 8)] (by simp [rangeLe]) 5 6 1 (by decide)
      (by decide) (by decide)).2 (by simp) (by simp)

end Veryl.Simulator.Opt
