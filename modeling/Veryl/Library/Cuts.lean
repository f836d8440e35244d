import Mathlib

/-!
A strictly increasing list of cuts divides the points between its ends into windows.
-/

namespace Veryl.Library

open List Option Nat

variable {k : ℕ} {α : Type*}

/-- The neighbours of a list. -/
def windows {α : Type*} (l : List α) : List (α × α) := l.zip l.tail

/-- The number of leading entries that satisfy `p`, which a list partitioned by `p` has at
its front. -/
def partitionPoint {α : Type*} (l : List α) (p : α → Bool) : ℕ := (l.takeWhile p).length

section PartitionPoint

variable {l : List α} {p : α → Bool}

theorem partitionPoint_le (hk : k < l.length) (h : p l[k] = false) : partitionPoint l p ≤ k := by
  induction l generalizing k with
  | nil => simp at hk
  | cons a l ih =>
    cases k with
    | zero => simp_all [partitionPoint]
    | succ k =>
      have := ih (k := k) (by simpa using hk) (by simpa using h)
      by_cases ha : p a = true
      · simpa [partitionPoint, ha] using this
      · simp [partitionPoint, ha]

theorem of_lt_partitionPoint (hk : k < l.length) (h : k < partitionPoint l p) : p l[k] = true := by
  by_contra hp
  exact absurd (partitionPoint_le hk (by simpa using hp)) (Nat.not_le.2 h)

theorem partitionPoint_not
    (hk : partitionPoint l p < l.length) : p l[partitionPoint l p] = false := by
  induction l with
  | nil => simp at hk
  | cons a l ih =>
    by_cases ha : p a = true
    · have heq : partitionPoint (a :: l) p = partitionPoint l p + 1 := by
        simp [partitionPoint, ha]
      simp only [heq, getElem_cons_succ]
      exact ih (by simpa [heq] using hk)
    · have heq : partitionPoint (a :: l) p = 0 := by simp [partitionPoint, ha]
      simpa [heq] using ha

theorem partitionPoint_le_length (l : List α) (p : α → Bool) : partitionPoint l p ≤ l.length :=
  (takeWhile_sublist p).length_le

end PartitionPoint

section Windows

variable {α : Type*}

theorem length_windows (l : List α) : (windows l).length = l.length - 1 := by
  rw [windows, length_zip, length_tail]
  omega

theorem getElem?_windows {l : List α} {w : α × α} :
    (windows l)[k]? = some w ↔ l[k]? = some w.1 ∧ l[k + 1]? = some w.2 := by
  rw [windows, getElem?_zip_eq_some, getElem?_tail]

theorem getElem?_flatMap_rows {β : Type*} (f : α → List β) {rows : List α} {width : ℕ}
    (hwidth : ∀ a ∈ rows, (f a).length = width) {i j : ℕ} (hj : j < width) :
    (rows.flatMap f)[i * width + j]? = (rows[i]?).bind fun a => (f a)[j]? := by
  induction rows generalizing i with
  | nil => simp
  | cons a rows ih =>
    have ha : (f a).length = width := hwidth a (by simp)
    rw [flatMap_cons]
    cases i with
    | zero =>
      rw [Nat.zero_mul, Nat.zero_add, getElem?_append_left (by omega)]
      rfl
    | succ i =>
      rw [getElem?_append_right (by rw [ha, succ_mul]; omega), getElem?_cons_succ,
        ← ih fun b hb => hwidth b (by simp [hb])]
      congr 1
      rw [ha, succ_mul]
      omega

variable [LinearOrder α] {l : List α}

theorem exists_window {x a : α} {rest : List α} (hsorted : (a :: rest).Pairwise (· < ·))
    (ha : a ≤ x) (hb : ∃ b ∈ rest, x < b) :
    ∃ (k : ℕ) (w : α × α), (windows (a :: rest))[k]? = some w ∧ w.1 ≤ x ∧ x < w.2 := by
  induction rest generalizing a with
  | nil => simp at hb
  | cons b rest ih =>
    by_cases hx : x < b
    · exact ⟨0, (a, b), rfl, ha, hx⟩
    have hlater : ∃ b ∈ rest, x < b := by
      obtain ⟨c, hc, hxc⟩ := hb
      rcases mem_cons.1 hc with rfl | hc
      · exact absurd hxc hx
      · exact ⟨c, hc, hxc⟩
    obtain ⟨k, w, hw, hin⟩ := ih hsorted.tail (not_lt.1 hx) hlater
    obtain ⟨hw₁, hw₂⟩ := getElem?_windows.1 hw
    exact ⟨k + 1, w, getElem?_windows.2 ⟨by simpa using hw₁, by simpa using hw₂⟩, hin⟩

theorem exists_window_of_mem {x low high : α} (hsorted : l.Pairwise (· < ·)) (hlow : low ∈ l)
    (hhigh : high ∈ l) (hlo : low ≤ x) (hhi : x < high) :
    ∃ (k : ℕ) (w : α × α), (windows l)[k]? = some w ∧ w.1 ≤ x ∧ x < w.2 := by
  cases l with
  | nil => simp at hlow
  | cons a rest =>
    have hfirst : ∀ b ∈ rest, a < b := (pairwise_cons.1 hsorted).1
    have ha : a ≤ x := by
      rcases mem_cons.1 hlow with rfl | hmem
      · exact hlo
      · exact (hfirst low hmem).le.trans hlo
    refine exists_window hsorted ha ⟨high, ?_, hhi⟩
    rcases mem_cons.1 hhigh with rfl | hmem
    · exact absurd hhi (not_lt.2 ha)
    · exact hmem

theorem getElem?_lt (hsorted : l.Pairwise (· < ·)) {i j : ℕ} {a b : α} (hi : l[i]? = some a)
    (hj : l[j]? = some b) (hij : i < j) : a < b := by
  obtain ⟨hi', rfl⟩ := List.getElem?_eq_some_iff.1 hi
  obtain ⟨hj', rfl⟩ := List.getElem?_eq_some_iff.1 hj
  exact pairwise_iff_getElem.1 hsorted i j hi' hj' hij

section

variable (hsorted : l.Pairwise (· < ·))

include hsorted

theorem window_unique {x : α} {i j : ℕ} {w u : α × α}
    (hw : (windows l)[i]? = some w) (hu : (windows l)[j]? = some u) (hxw : w.1 ≤ x ∧ x < w.2)
    (hxu : u.1 ≤ x ∧ x < u.2) : i = j := by
  obtain ⟨hw₁, hw₂⟩ := getElem?_windows.1 hw
  obtain ⟨hu₁, hu₂⟩ := getElem?_windows.1 hu
  -- of two windows the earlier one ends where the later one has started
  have hbefore : ∀ {i j : ℕ} {w u : α × α}, l[i + 1]? = some w.2 → l[j]? = some u.1 → i < j →
      w.2 ≤ u.1 := by
    intro i j w u hw hu hij
    rcases Nat.lt_or_ge (i + 1) j with hlt | hge
    · exact (getElem?_lt hsorted hw hu hlt).le
    · obtain rfl : j = i + 1 := by omega
      rw [hw] at hu
      exact (some.inj hu).le
  rcases Nat.lt_trichotomy i j with hij | hij | hij
  · exact absurd (hxw.2.trans_le (hbefore hw₂ hu₁ hij)) (not_lt.2 hxu.1)
  · exact hij
  · exact absurd (hxu.2.trans_le (hbefore hu₂ hw₁ hij)) (not_lt.2 hxw.1)

theorem lt_partitionPoint {p : α → Bool}
    (hp : ∀ a b, a < b → p b = true → p a = true) {a : α} (hk : l[k]? = some a) :
    k < partitionPoint l p ↔ p a = true := by
  induction l generalizing k with
  | nil => simp at hk
  | cons b rest ih =>
    have hfirst := (pairwise_cons.1 hsorted).1
    cases hb : p b with
    | false =>
      have hnone : partitionPoint (b :: rest) p = 0 := by simp [partitionPoint, hb]
      rw [hnone]
      refine ⟨fun h => absurd h (Nat.not_lt_zero k), fun ha => ?_⟩
      cases k with
      | zero =>
        rw [← some.inj hk, hb] at ha
        cases ha
      | succ k =>
        have hmem : a ∈ rest := mem_of_getElem? (by simpa using hk)
        rw [hp b a (hfirst a hmem) ha] at hb
        cases hb
    | true =>
      have hmore : partitionPoint (b :: rest) p = partitionPoint rest p + 1 := by
        simp [partitionPoint, hb]
      cases k with
      | zero =>
        obtain rfl := some.inj hk
        exact ⟨fun _ => hb, fun _ => by omega⟩
      | succ k =>
        rw [← ih hsorted.tail (by simpa using hk)]
        omega

theorem window_in_range {w : α × α} {x start stop : α}
    (hw : (windows l)[k]? = some w) (hx : w.1 ≤ x ∧ x < w.2) (hstart : start ≤ x)
    (hstop : x < stop) :
    partitionPoint l (fun cut => decide (cut ≤ start)) - 1 ≤ k ∧
      k < min (partitionPoint l (fun cut => decide (cut < stop))) (l.length - 1) := by
  obtain ⟨hw₁, hw₂⟩ := getElem?_windows.1 hw
  have hlast : k < partitionPoint l (fun cut => decide (cut < stop)) := by
    rw [lt_partitionPoint hsorted (fun a b hab hb => decide_eq_true
      (hab.trans (of_decide_eq_true hb))) hw₁]
    exact decide_eq_true (hx.1.trans_lt hstop)
  have hfirst : ¬ k + 1 < partitionPoint l (fun cut => decide (cut ≤ start)) := by
    rw [lt_partitionPoint hsorted (fun a b hab hb => decide_eq_true
      (hab.le.trans (of_decide_eq_true hb))) hw₂]
    simpa using hstart.trans_lt hx.2
  have hlength : k + 1 < l.length := (List.getElem?_eq_some_iff.1 hw₂).1
  omega

end

end Windows

/-- Sorted and without repetitions. -/
def sortedCuts {α : Type*} [LinearOrder α] (l : List α) : List α :=
  (l.insertionSort (· ≤ ·)).dedup

theorem pairwise_sortedCuts [LinearOrder α] (l : List α) : (sortedCuts l).Pairwise (· < ·) := by
  have hle : (sortedCuts l).Pairwise (· ≤ ·) :=
    (pairwise_insertionSort (· ≤ ·) l).sublist (dedup_sublist _)
  exact (hle.and (nodup_dedup _)).imp fun h => lt_of_le_of_ne h.1 h.2

theorem mem_sortedCuts [LinearOrder α] {l : List α} {a : α} : a ∈ sortedCuts l ↔ a ∈ l := by
  rw [sortedCuts, List.mem_dedup, mem_insertionSort]

end Veryl.Library
