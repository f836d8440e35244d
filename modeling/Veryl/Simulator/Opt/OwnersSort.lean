import Veryl.Simulator.Opt.Owners

/-!
Sorting the owner spans: byte passes over the starts, then the ties among equal starts.
-/

namespace Veryl.Simulator.Opt

open List Function

variable (v : List OwnerSpan) (t : OwnerSpan)

/-- The order of the fields, one after the other. -/
def OwnerSpan.le (a b : OwnerSpan) : Bool :=
  a.start < b.start ∨ a.start = b.start ∧ (a.stop < b.stop ∨ a.stop = b.stop ∧ a.node ≤ b.node)

def sortUnstable (v : List OwnerSpan) : List OwnerSpan := v.insertionSort fun a b => a.le b

namespace Radix

def digit (pass : ℕ) (t : OwnerSpan) : ℕ := t.start >>> (pass * 8) &&& 0xff

def hist (pass : ℕ) (src : List OwnerSpan) (b : ℕ) : ℕ := src.countP fun t => digit pass t = b

/-- Where the entries with byte `b` start. -/
def pos (pass : ℕ) (src : List OwnerSpan) (b : ℕ) : ℕ := ((range b).map (hist pass src)).sum

/-- Stores an entry where its byte goes on. -/
def scatter (pass : ℕ) (s : (ℕ → OwnerSpan) × (ℕ → ℕ)) (t : OwnerSpan) :
    (ℕ → OwnerSpan) × (ℕ → ℕ) :=
  let b := digit pass t
  (update s.1 (s.2 b) t, update s.2 b (s.2 b + 1))

/-- One pass over the source buffer, which then becomes the target of the next. -/
def radixPass (buffers : List OwnerSpan × List OwnerSpan) (pass : ℕ) :
    List OwnerSpan × List OwnerSpan :=
  let (src, dst) := buffers
  if ∃ b ∈ range 256, hist pass src b = src.length then buffers
  else
    let stored := (src.foldl (scatter pass) (fun i => dst.getD i ⟨0, 0, 0⟩, pos pass src)).1
    ((range dst.length).map stored, src)

end Radix

/-- Breaks the ties among equal starts. -/
def sortTies : List OwnerSpan → List OwnerSpan
  | [] => []
  | t :: v => sortUnstable (t :: v.takeWhile fun u => u.start = t.start) ++
      sortTies (v.dropWhile fun u => u.start = t.start)
termination_by v => v.length
decreasing_by exact Nat.lt_succ_of_le (dropWhile_sublist _).length_le

def radixSortIntervals (v : List OwnerSpan) : List OwnerSpan :=
  if v.length < 2 then v
  else if v.any fun t => 2 ^ 32 - 1 < t.start then sortUnstable v
  else sortTies ((range 4).foldl Radix.radixPass (v, replicate v.length ⟨0, 0, 0⟩)).1

instance : Std.Total fun a b : OwnerSpan => a.le b = true :=
  ⟨fun a b => by simp [OwnerSpan.le]; omega⟩

instance : IsTrans OwnerSpan fun a b => a.le b = true :=
  ⟨fun a b c hab hbc => by simp [OwnerSpan.le] at hab hbc ⊢; omega⟩

/-- The entries of `v` in order. -/
def SortedPerm (v out : List OwnerSpan) : Prop := out.Pairwise (fun a b => a.le b = true) ∧ out ~ v

theorem sortedPerm_sortUnstable : SortedPerm v (sortUnstable v) :=
  ⟨pairwise_insertionSort _ v, perm_insertionSort _ v⟩

theorem lt_of_mem_dropWhile {t b : OwnerSpan} {v : List OwnerSpan}
    (hv : (t :: v).Pairwise fun a b => a.start ≤ b.start)
    (hb : b ∈ v.dropWhile fun u => u.start = t.start) : t.start < b.start := by
  induction v with
  | nil => cases hb
  | cons c v ih =>
    obtain ⟨ht, hv⟩ := pairwise_cons.1 hv
    obtain ⟨hc, hv⟩ := pairwise_cons.1 hv
    have htc := ht c mem_cons_self
    rw [dropWhile_cons] at hb
    split at hb
    · exact ih (pairwise_cons.2 ⟨fun u hu => ht u (mem_cons_of_mem _ hu), hv⟩) hb
    · rename_i hne
      have hne : c.start ≠ t.start := by simpa using hne
      rcases mem_cons.1 hb with rfl | hb
      · omega
      · have := hc b hb
        omega

theorem sortedPerm_sortTies (hv : v.Pairwise fun a b => a.start ≤ b.start) :
    SortedPerm v (sortTies v) := by
  induction v using sortTies.induct with
  | case1 => simp [sortTies, SortedPerm]
  | case2 t v ih =>
    rw [sortTies]
    have hties := sortedPerm_sortUnstable (t :: v.takeWhile fun u => u.start = t.start)
    have hrest := ih (hv.of_cons.sublist (dropWhile_sublist _))
    refine ⟨pairwise_append.2 ⟨hties.1, hrest.1, fun a ha b hb => ?_⟩, ?_⟩
    · have ha : a.start = t.start := by
        rcases mem_cons.1 (hties.2.mem_iff.1 ha) with rfl | ha
        · rfl
        · simpa using mem_takeWhile_imp ha
      have hb := lt_of_mem_dropWhile hv (hrest.2.mem_iff.1 hb)
      simp only [OwnerSpan.le, decide_eq_true_eq]
      omega
    · refine (hties.2.append hrest.2).trans ?_
      rw [cons_append, takeWhile_append_dropWhile]

namespace Radix

variable {pass : ℕ} {src : List OwnerSpan}

/-- The entries whose byte is `b`, as they stand. -/
def bucket (pass : ℕ) (src : List OwnerSpan) (b : ℕ) : List OwnerSpan :=
  src.filter fun t => digit pass t = b

theorem digit_eq : digit pass t = t.start / 2 ^ (pass * 8) % 2 ^ 8 := by
  rw [digit, Nat.shiftRight_eq_div_pow]
  exact Nat.and_two_pow_sub_one_eq_mod _ 8

theorem digit_lt : digit pass t < 256 := by
  rw [digit_eq]
  exact Nat.mod_lt _ (by decide)

theorem buckets_perm (n : ℕ) : (range n).flatMap (bucket pass src) ~
    src.filter fun t => digit pass t < n := by
  induction n with
  | zero => simp
  | succ n ih =>
    have hsplit := filter_append_perm (fun t => decide (digit pass t < n))
      (src.filter fun t => digit pass t < n + 1)
    rw [filter_filter, filter_filter] at hsplit
    rw [range_succ, flatMap_append, flatMap_singleton]
    refine (ih.append_right _).trans (.trans (.of_eq ?_) hsplit)
    congr 1
    · exact filter_congr fun t _ => Bool.eq_iff_iff.2 (by simp; omega)
    · exact filter_congr fun t _ => Bool.eq_iff_iff.2 (by simp; omega)

theorem buckets_perm_src : (range 256).flatMap (bucket pass src) ~ src :=
  (buckets_perm 256).trans (.of_eq (filter_eq_self.2 fun t _ => decide_eq_true (digit_lt t)))

theorem length_eq_pos : src.length = pos pass src 256 := by
  rw [← (@buckets_perm_src pass src).length_eq, length_flatMap, pos]
  exact congrArg sum (map_congr_left fun b _ => countP_eq_length_filter.symm)

theorem pos_succ (b : ℕ) : pos pass src (b + 1) = pos pass src b + hist pass src b := by
  simp [pos, range_succ]

theorem pos_le {b c : ℕ} (h : b < c) : pos pass src b + hist pass src b ≤ pos pass src c :=
  @pos_succ pass src b ▸ monotone_nat_of_le_succ (fun b => pos_succ b ▸ Nat.le_add_right _ _) h

/-- The entries scattered so far stand in order from the start of their bytes. -/
theorem scatter_spec (dst : ℕ → OwnerSpan) (rest : List OwnerSpan) : ∀ done, src = done ++ rest →
    ∀ next, (∀ b < 256, next b = pos pass src b + hist pass done b ∧
      (range' (pos pass src b) (hist pass done b)).map dst = bucket pass done b) →
    ∀ b < 256, (range' (pos pass src b) (hist pass src b)).map
      (rest.foldl (scatter pass) (dst, next)).1 = bucket pass src b := by
  induction rest generalizing dst with
  | nil =>
    rintro done rfl next h b hb
    rw [append_nil] at h ⊢
    exact (h b hb).2
  | cons t rest ih =>
    intro done hsrc next h
    have hhist : ∀ b, hist pass done b + hist pass (t :: rest) b = hist pass src b := fun b => by
      rw [hsrc, hist, hist, hist, countP_append]
    have hpos : 0 < hist pass (t :: rest) (digit pass t) := by simp [hist]
    refine ih _ (done ++ [t]) (hsrc.trans (append_cons ..)) _ fun b hb => ?_
    simp only [hist, bucket, countP_append, filter_append, countP_singleton, filter_singleton]
    rw [← hist, ← bucket, (h _ (digit_lt t)).1]
    -- The entry is stored behind those of its byte, outside those of the others.
    have hkept : (range' (pos pass src b) (hist pass done b)).map
        (update dst (pos pass src (digit pass t) + hist pass done (digit pass t)) t) =
        bucket pass done b := by
      refine (map_congr_left (g := dst) fun i hi => update_of_ne ?_ _ _).trans (h b hb).2
      have hi := mem_range'_1.1 hi
      have := hhist b
      have := hhist (digit pass t)
      rcases lt_trichotomy b (digit pass t) with hlt | rfl | hlt
      · have := @pos_le pass src _ _ hlt
        omega
      · omega
      · have := @pos_le pass src _ _ hlt
        omega
    by_cases heq : digit pass t = b
    · subst heq
      rw [decide_eq_true rfl, if_pos rfl, range'_concat, map_append, hkept, update_self]
      simp [add_assoc]
    · rw [decide_eq_false heq, update_of_ne (Ne.symm heq)]
      simpa [hkept] using (h b hb).1

theorem map_eq_buckets (dst : ℕ → OwnerSpan) (n : ℕ) (h : ∀ b < n,
    (range' (pos pass src b) (hist pass src b)).map dst = bucket pass src b) :
    (range (pos pass src n)).map dst = (range n).flatMap (bucket pass src) := by
  induction n with
  | zero => rfl
  | succ n ih =>
    rw [range_succ, flatMap_append, flatMap_singleton, ← ih fun b hb => h b (by omega),
      ← h n n.lt_succ_self, pos_succ, range_eq_range', range_eq_range', ← range'_append_1,
      map_append, zero_add]

/-- The order of the starts' low bytes. -/
def LowOrder (pass : ℕ) (src : List OwnerSpan) : Prop :=
  src.Pairwise fun a b => a.start % 2 ^ (pass * 8) ≤ b.start % 2 ^ (pass * 8)

theorem low_succ : t.start % 2 ^ ((pass + 1) * 8) =
    t.start % 2 ^ (pass * 8) + 2 ^ (pass * 8) * digit pass t := by
  rw [digit_eq, add_mul, pow_add, Nat.mod_mul]

theorem radixPass_spec (dst : List OwnerSpan) (hdst : dst.length = src.length)
    (h : LowOrder pass src) :
    LowOrder (pass + 1) (radixPass (src, dst) pass).1 ∧ (radixPass (src, dst) pass).1 ~ src ∧
      (radixPass (src, dst) pass).2.length = src.length := by
  simp only [radixPass]
  split
  · rename_i hall
    obtain ⟨b, -, hb⟩ := hall
    rw [hist, countP_eq_length] at hb
    refine ⟨h.imp_of_mem fun ha hb' hab => ?_, .rfl, hdst⟩
    rw [low_succ, low_succ, of_decide_eq_true (hb _ ha), of_decide_eq_true (hb _ hb')]
    omega
  · have hfirst := @scatter_spec pass src (fun i => dst.getD i ⟨0, 0, 0⟩) src [] rfl
      (pos pass src) fun b _ => ⟨by simp [hist], by simp [hist, bucket]⟩
    rw [hdst, @length_eq_pos pass src, map_eq_buckets _ 256 hfirst]
    refine ⟨pairwise_flatMap.2 ⟨fun b _ => ?_, ?_⟩, buckets_perm_src, rfl⟩
    · refine (h.sublist filter_sublist).imp_of_mem fun ha hb' hab => ?_
      rw [low_succ, low_succ, of_decide_eq_true (mem_filter.1 ha).2,
        of_decide_eq_true (mem_filter.1 hb').2]
      omega
    · refine pairwise_lt_range.imp fun hbc x hx y hy => ?_
      rw [low_succ, low_succ, of_decide_eq_true (mem_filter.1 hx).2,
        of_decide_eq_true (mem_filter.1 hy).2]
      have := Nat.mul_le_mul_left (2 ^ (pass * 8)) hbc
      rw [Nat.mul_succ] at this
      omega

theorem passes_spec (v dst : List OwnerSpan) (hdst : dst.length = v.length) (n : ℕ) :
    LowOrder n ((range n).foldl radixPass (v, dst)).1 ∧ ((range n).foldl radixPass (v, dst)).1 ~ v ∧
      ((range n).foldl radixPass (v, dst)).2.length = v.length := by
  induction n with
  | zero => exact ⟨pairwise_of_forall fun a b => by simp [Nat.mod_one], .rfl, hdst⟩
  | succ n ih =>
    rw [range_succ, foldl_append, foldl_cons, foldl_nil]
    generalize (range n).foldl radixPass (v, dst) = buffers at ih ⊢
    obtain ⟨src, dst⟩ := buffers
    obtain ⟨hlow, hperm, hlen⟩ := ih
    obtain ⟨hlow', hperm', hlen'⟩ := radixPass_spec dst (hlen.trans hperm.length_eq.symm) hlow
    exact ⟨hlow', hperm'.trans hperm, hlen'.trans hperm.length_eq⟩

end Radix

theorem sortedPerm_radixSortIntervals : SortedPerm v (radixSortIntervals v) := by
  unfold radixSortIntervals
  split
  · rename_i hlt
    rcases v with _ | ⟨a, _ | ⟨b, v⟩⟩
    · simp [SortedPerm]
    · simp [SortedPerm]
    · simp only [length_cons] at hlt
      omega
  · split
    · exact sortedPerm_sortUnstable v
    rename_i hword
    obtain ⟨hlow, hperm, -⟩ := Radix.passes_spec v (replicate v.length ⟨0, 0, 0⟩) (by simp) 4
    have hlt : ∀ t ∈ v, t.start < 2 ^ (4 * 8) := fun t ht => by
      have := any_eq_false.1 (Bool.eq_false_iff.2 hword) t ht
      simp at this
      omega
    have hsorted := sortedPerm_sortTies _ (hlow.imp_of_mem fun ha hb hab => by
      rwa [Nat.mod_eq_of_lt (hlt _ (hperm.mem_iff.1 ha)),
        Nat.mod_eq_of_lt (hlt _ (hperm.mem_iff.1 hb))] at hab)
    exact ⟨hsorted.1, hsorted.2.trans hperm⟩

end Veryl.Simulator.Opt
