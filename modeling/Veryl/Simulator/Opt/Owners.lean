import Veryl.Library.Folds
import Veryl.Simulator.BigArray

/-!
Which instance of the design owns which storage: the instance tree, the
ownership tables, and the range algebra the planners share.
-/

namespace Veryl.Simulator.Opt

open Veryl.Analyzer Veryl.Library List

variable {r r' : ℕ × ℕ}

variable {s k : ℕ} {v : List (ℕ × ℕ)}

/-- A uniformly strided run of flip-flop elements. -/
structure FfRun where
  start : ℕ
  stride : ℕ
  count : ℕ
  bytes : ℕ
  deriving DecidableEq, Repr

structure FfOwner where
  runs : List FfRun
  deriving DecidableEq, Repr

/-- The element span covering `x`. The padding a wider stride leaves belongs to
no element. -/
def FfOwner.span (o : FfOwner) (x : ℕ) : Option (ℕ × ℕ) :=
  let i := partitionPoint o.runs fun r => r.start ≤ x
  if i = 0 then none
  else do
    let r ← o.runs[i - 1]?
    let k := (x - r.start) / r.stride
    if r.count ≤ k then none
    else
      let start := r.start + k * r.stride
      if x < start + r.bytes then some (start, start + r.bytes) else none

/-- A comb-buffer interval and the node that owns it. -/
structure OwnerSpan where
  start : ℕ
  stop : ℕ
  node : ℕ
  deriving DecidableEq, Repr

structure OwnerInputs where
  /-- Parent of each node; the root has none. -/
  nodeParent : List (Option ℕ)
  combOwner : List OwnerSpan
  ffOwner : FfOwner

/-- Entry and exit numbers of a walk over the instance tree. -/
structure Tour where
  tin : ℕ → ℕ
  tout : ℕ → ℕ

namespace Tour

/-- Subtree sizes, children before parents. -/
def sizes (parent : List (Option ℕ)) : ℕ → ℕ :=
  ((List.range parent.length).drop 1).reverse.foldl (fun size m =>
      match parent.getD m none with
      | some p => Function.update size p (size p + size m)
      | none => size)
    fun _ => 1

/-- Numbers the nodes, parents before children. -/
def of (parent : List (Option ℕ)) : Tour :=
  let size := sizes parent
  let numbered := (List.range parent.length).foldl (fun (t : (ℕ → ℕ) × (ℕ → ℕ)) m =>
      -- `t.2 m` is where the next child of `m` starts
      let t := match (if m = 0 then none else parent.getD m none) with
        | some p => (Function.update t.1 m (t.2 p), Function.update t.2 p (t.2 p + size m))
        | none => t
      (t.1, Function.update t.2 m (t.1 m + 1)))
    (fun _ => 0, fun _ => 0)
  { tin := numbered.1, tout := fun m => numbered.1 m + size m }

def isDesc (t : Tour) (m a : ℕ) : Bool := t.tin a ≤ t.tin m && t.tin m < t.tout a

end Tour

namespace OwnerInputs

variable (inputs : OwnerInputs)

def parent (m : ℕ) : Option ℕ := inputs.nodeParent.getD m none

/-- A node and its ancestors. A node is numbered after its parent, so the
number of nodes bounds the walk. -/
def ancestors (m : ℕ) : List ℕ := go inputs.nodeParent.length m
where
  go : ℕ → ℕ → List ℕ
  | 0, m => [m]
  | fuel + 1, m => m :: match inputs.parent m with
    | some p => go fuel p
    | none => []

/-- The first ancestor of `a` that has `b` below it. -/
def lca (a b : ℕ) : ℕ :=
  let tour := Tour.of inputs.nodeParent
  ((inputs.ancestors a).find? fun a => tour.isDesc b a).getD a

/-- The owner span of a comb byte. -/
def spanIn (x : ℕ) : Option OwnerSpan :=
  let i := partitionPoint inputs.combOwner fun o => o.start ≤ x
  if i = 0 then none
  else (inputs.combOwner[i - 1]?).filter fun o => o.start ≤ x ∧ x < o.stop

end OwnerInputs

/-- Whether a statement has effects a skip could lose. -/
def hasSideEffects (s : ProtoStatement) : Bool := (s.walk false).any fun
  | .call _ | .compiled _ | .tb _ => true
  | .cond _ | .assign _ | .assignDynamic _ | .loop _ => false

/-- Steps back over spans that still end past `s`. -/
def walkBack (spans : List (ℕ × ℕ)) (s : ℕ) : ℕ → ℕ
  | 0 => 0
  | j + 1 => if s < (spans.getD j (0, 0)).2 then walkBack spans s j else j + 1

/-- The first of the owner spans that can overlap byte `s`. -/
def firstSpan (spans : List (ℕ × ℕ)) (s : ℕ) : ℕ :=
  walkBack spans s (partitionPoint spans fun o => o.1 ≤ s)

/-- Largest end among each prefix. -/
def prefixMaxEnd (spans : List (ℕ × ℕ)) : List ℕ := go 0 spans
where
  go : ℕ → List (ℕ × ℕ) → List ℕ
  | _, [] => []
  | run, (_, e) :: spans => max run e :: go (max run e) spans

def firstFfSpan (maxEnd : List ℕ) (s : ℕ) : ℕ := partitionPoint maxEnd fun e => e ≤ s

/-- The spans from `j` on that overlap `[s, e)`. -/
def visit (spans : List (ℕ × ℕ)) (j s e : ℕ) : List ℕ :=
  ((spans.zipIdx.drop j).takeWhile fun x => x.1.1 < e).filterMap fun x =>
    if s < x.1.2 then some x.2 else none

def rangeLe (a b : ℕ × ℕ) : Bool := a.1 < b.1 ∨ a.1 = b.1 ∧ a.2 ≤ b.2

/-- Merges the next range in order into those merged so far, the last one first. -/
def mergeRangesStep (out : List (ℕ × ℕ)) (r : ℕ × ℕ) : List (ℕ × ℕ) :=
  match out with
  | last :: rest => if r.1 ≤ last.2 then (last.1, max last.2 r.2) :: rest else r :: last :: rest
  | [] => [r]

def mergeRanges (v : List (ℕ × ℕ)) : List (ℕ × ℕ) :=
  ((v.insertionSort fun a b => rangeLe a b).foldl mergeRangesStep []).reverse

section Spans

variable {spans : List (ℕ × ℕ)}

theorem mem_visit (hs : spans.Pairwise fun a b => a.1 ≤ b.1) {j e : ℕ} (hk : k < spans.length)
    (hj : j ≤ k) (hlo : s < spans[k].2) (hhi : spans[k].1 < e) : k ∈ visit spans j s e := by
  have hsplit : spans.zipIdx.drop j =
      (spans.zipIdx.take k).drop j ++ (spans[k], k) :: spans.zipIdx.drop (k + 1) := by
    have hk' : k < spans.zipIdx.length := by simpa using hk
    have hat : spans.zipIdx[k] = (spans[k], k) := by simp
    rw [← hat, getElem_cons_drop, ← drop_append_of_le_length (by simp; omega), take_append_drop]
  have hbefore : ∀ x ∈ (spans.zipIdx.take k).drop j, x.1.1 < e := by
    intro x hx
    obtain ⟨i, hi, rfl⟩ := mem_iff_getElem.1 (mem_of_mem_drop hx)
    have hi' : i < k := by simp at hi; omega
    have := pairwise_iff_getElem.1 hs i k (by omega) hk hi'
    simp only [getElem_take, getElem_zipIdx]
    omega
  refine mem_filterMap.2 ⟨(spans[k], k), ?_, by simp [hlo]⟩
  rw [hsplit, takeWhile_append_of_pos (by simpa using hbefore)]
  simp [hhi]

theorem firstSpan_le (hempty : spans.Pairwise fun a b => b.2 ≤ a.1 → a.2 ≤ b.2)
    (hdisj : ∀ a ∈ spans, ∀ b ∈ spans, a = b ∨ a.2 ≤ b.1 ∨ b.2 ≤ a.1)
    (hk : k < spans.length) (hlo : s < spans[k].2) : firstSpan spans s ≤ k := by
  have hback : ∀ j ≤ partitionPoint spans (fun o => o.1 ≤ s), walkBack spans s j ≤ k := by
    intro j
    induction j with
    | zero => simp [walkBack]
    | succ j ih =>
      intro hj
      rw [walkBack]
      split
      · exact ih (by omega)
      rename_i hend
      have hjl := (Nat.lt_of_succ_le hj).trans_le (partitionPoint_le_length _ _)
      have hjs := of_decide_eq_true (of_lt_partitionPoint hjl hj)
      rw [getD_eq_getElem _ _ hjl] at hend
      by_contra hjk
      rcases Nat.lt_or_ge k j with hkj | hkj
      · have hafter := pairwise_iff_getElem.1 hempty k j hk hjl hkj
        rcases hdisj _ (getElem_mem hk) _ (getElem_mem hjl) with he | he | he
        · exact hend (he ▸ hlo)
        · omega
        · have := hafter he
          omega
      · obtain rfl : j = k := by omega
        exact hend hlo
  exact hback _ le_rfl

theorem getElem_prefixMaxEnd (run : ℕ) (hk : k < spans.length) :
    ∃ h : k < (prefixMaxEnd.go run spans).length, spans[k].2 ≤ (prefixMaxEnd.go run spans)[k] := by
  induction spans generalizing run k with
  | nil => simp at hk
  | cons r spans ih =>
    cases k with
    | zero => exact ⟨by simp [prefixMaxEnd.go], by simp [prefixMaxEnd.go]⟩
    | succ k =>
      obtain ⟨h, hle⟩ := ih (max run r.2) (k := k) (by simpa using hk)
      exact ⟨by simpa [prefixMaxEnd.go] using h, by simpa [prefixMaxEnd.go] using hle⟩

theorem firstFfSpan_le (hk : k < spans.length) (hlo : s < spans[k].2) :
    firstFfSpan (prefixMaxEnd spans) s ≤ k := by
  obtain ⟨h, hle⟩ := getElem_prefixMaxEnd 0 hk
  refine partitionPoint_le h (decide_eq_false ?_)
  change ¬ (prefixMaxEnd.go 0 spans)[k] ≤ s
  omega

end Spans

instance : Std.Total fun a b : ℕ × ℕ => rangeLe a b = true :=
  ⟨fun a b => by simp [rangeLe]; omega⟩

instance : IsTrans (ℕ × ℕ) fun a b => rangeLe a b = true :=
  ⟨fun a b c hab hbc => by simp [rangeLe] at hab hbc ⊢; omega⟩

/-- What merging keeps: the merged ranges, the last one first, lie apart, and
they cover what is merged and nothing else. -/
structure Merged (done out : List (ℕ × ℕ)) : Prop where
  apart : out.Pairwise fun later earlier => earlier.2 < later.1
  covers : ∀ r ∈ done, ∃ r' ∈ out, r'.1 ≤ r.1 ∧ r.2 ≤ r'.2
  sound : ∀ r' ∈ out, ∀ x, r'.1 ≤ x → x < r'.2 → ∃ r ∈ done, r.1 ≤ x ∧ x < r.2
  start : ∀ r' ∈ out, ∃ r ∈ done, r.1 = r'.1 ∧ r.2 ≤ r'.2

theorem Merged.step {done out : List (ℕ × ℕ)} (h : Merged done out)
    (hr : ∀ d ∈ done, rangeLe d r) : Merged (done ++ [r]) (mergeRangesStep out r) := by
  have hstart : ∀ r' ∈ out, r'.1 ≤ r.1 := by
    intro r' hr'
    obtain ⟨d, hd, he, -⟩ := h.start r' hr'
    have := hr d hd
    simp only [rangeLe, decide_eq_true_eq] at this
    omega
  have sound : ∀ r' ∈ out, ∀ x, r'.1 ≤ x → x < r'.2 → ∃ d ∈ done ++ [r], d.1 ≤ x ∧ x < d.2 :=
    fun r' hr' x hlo hhi => exists_mem_snoc (h.sound r' hr' x hlo hhi)
  have start : ∀ r' ∈ out, ∃ d ∈ done ++ [r], d.1 = r'.1 ∧ d.2 ≤ r'.2 :=
    fun r' hr' => exists_mem_snoc (h.start r' hr')
  have push (hgap : ∀ e ∈ out, e.2 < r.1) : Merged (done ++ [r]) (r :: out) :=
    { apart := pairwise_cons.2 ⟨hgap, h.apart⟩
      covers := covers_push h.covers ⟨le_rfl, le_rfl⟩
      sound := forall_mem_cons.2 ⟨fun _ hlo hhi => exists_mem_snoc_self ⟨hlo, hhi⟩, sound⟩
      start := forall_mem_cons.2 ⟨exists_mem_snoc_self ⟨rfl, le_rfl⟩, start⟩ }
  unfold mergeRangesStep
  cases out with
  | nil => exact push (by simp)
  | cons last rest =>
    have hlast := hstart last (by simp)
    have hsound := forall_mem_cons.1 sound
    have hold := forall_mem_cons.1 start
    dsimp only
    split
    · refine
        { apart := pairwise_cons.2 ⟨fun e he => rel_of_pairwise_cons h.apart he, h.apart.of_cons⟩
          covers := covers_merge h.covers (fun d hd => ⟨hd.1, hd.2.trans (le_max_left _ _)⟩)
            ⟨hlast, le_max_right _ _⟩
          sound := forall_mem_cons.2 ⟨fun x hlo hhi => ?_, hsound.2⟩
          start := forall_mem_cons.2
            ⟨hold.1.imp fun d hd => ⟨hd.1, hd.2.1, hd.2.2.trans (le_max_left _ _)⟩, hold.2⟩ }
      rcases lt_max_iff.1 hhi with hhi | hhi
      · exact hsound.1 x hlo hhi
      · by_cases hx : x < last.2
        · exact hsound.1 x hlo hx
        · exact exists_mem_snoc_self ⟨by omega, hhi⟩
    · refine push (forall_mem_cons.2 ⟨by omega, fun e he => ?_⟩)
      have := rel_of_pairwise_cons h.apart he
      omega

theorem merged_mergeRanges (v : List (ℕ × ℕ)) : Merged v (mergeRanges v).reverse := by
  have h : Merged (v.insertionSort fun a b => rangeLe a b)
      ((v.insertionSort fun a b => rangeLe a b).foldl mergeRangesStep []) :=
    foldl_insertionSort ⟨by simp, by simp, by simp, by simp⟩
      fun _ _ _ _ hd h => h.step fun d hmem => (hd d hmem).2
  have hmem : ∀ r, r ∈ v.insertionSort (fun a b => rangeLe a b) ↔ r ∈ v := fun r =>
    mem_insertionSort _
  rw [mergeRanges, reverse_reverse]
  refine ⟨h.apart, fun r hr => h.covers r ((hmem r).2 hr), fun r' hr' x hlo hhi => ?_,
    fun r' hr' => ?_⟩
  · obtain ⟨r, hr, hx⟩ := h.sound r' hr' x hlo hhi
    exact ⟨r, (hmem r).1 hr, hx⟩
  · obtain ⟨r, hr, hx⟩ := h.start r' hr'
    exact ⟨r, (hmem r).1 hr, hx⟩

theorem mergeRanges_covers (hr : r ∈ v) : ∃ r' ∈ mergeRanges v, r'.1 ≤ r.1 ∧ r.2 ≤ r'.2 := by
  obtain ⟨r', hr', h⟩ := (merged_mergeRanges v).covers r hr
  exact ⟨r', mem_reverse.1 hr', h⟩

theorem mergeRanges_apart (v : List (ℕ × ℕ)) : (mergeRanges v).Pairwise fun a b => a.2 < b.1 := by
  simpa [pairwise_reverse] using (merged_mergeRanges v).apart

theorem mergeRanges_sound (hr' : r' ∈ mergeRanges v) {x : ℕ}
    (hlo : r'.1 ≤ x) (hhi : x < r'.2) : ∃ r ∈ v, r.1 ≤ x ∧ x < r.2 :=
  (merged_mergeRanges v).sound r' (mem_reverse.2 hr') x hlo hhi

theorem mergeRanges_nonempty (hv : ∀ r ∈ v, r.1 < r.2)
    (hr' : r' ∈ mergeRanges v) : r'.1 < r'.2 := by
  obtain ⟨r, hr, he, hle⟩ := (merged_mergeRanges v).start r' (mem_reverse.2 hr')
  have := hv r hr
  omega

end Veryl.Simulator.Opt
