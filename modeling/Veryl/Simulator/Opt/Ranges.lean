import Veryl.Simulator.Opt.Owners

/-!
The algebra of byte ranges: merged ranges stand for a set of bytes, and both
walks over two of them compute what the set operations say.
-/

namespace Veryl.Simulator.Opt

open List

/-- What is left of one range, and the ranges from the cursor on. -/
def subtractRange (s e : ℕ) (b : List (ℕ × ℕ)) : List (ℕ × ℕ) × List (ℕ × ℕ) :=
  if s < e then
    match b with
    | [] => ([(s, e)], [])
    | (bs, be) :: rest =>
      if be ≤ s then subtractRange s e rest
      else if bs < e then
        let r := subtractRange (max be s) e ((bs, be) :: rest)
        (if s < bs then (s, bs) :: r.1 else r.1, r.2)
      else ([(s, e)], (bs, be) :: rest)
  else ([], b)
termination_by (b.length, e - s)
decreasing_by all_goals simp_wf; omega

def subtractRanges : List (ℕ × ℕ) → List (ℕ × ℕ) → List (ℕ × ℕ)
  | [], _ => []
  | (s, e) :: a, b => let r := subtractRange s e b; r.1 ++ subtractRanges a r.2

def intersectRanges : List (ℕ × ℕ) → List (ℕ × ℕ) → List (ℕ × ℕ)
  | r :: a, t :: b =>
    let rest := if r.2 < t.2 then intersectRanges a (t :: b) else intersectRanges (r :: a) b
    if max r.1 t.1 < min r.2 t.2 then (max r.1 t.1, min r.2 t.2) :: rest else rest
  | _, _ => []
termination_by a b => a.length + b.length

/-- The byte lies in one of the ranges. -/
def Covers (v : List (ℕ × ℕ)) (x : ℕ) : Prop := ∃ r ∈ v, r.1 ≤ x ∧ x < r.2

/-- Non-empty ranges in order from `lo` on, none before the end of another. -/
def Ordered : ℕ → List (ℕ × ℕ) → Prop
  | _, [] => True
  | lo, r :: v => lo ≤ r.1 ∧ r.1 < r.2 ∧ Ordered r.2 v

/-- Non-empty ranges in order with a gap between each two. -/
structure Apart (v : List (ℕ × ℕ)) : Prop where
  nonempty : ∀ r ∈ v, r.1 < r.2
  gaps : v.Pairwise fun a b => a.2 < b.1

variable {a b v w : List (ℕ × ℕ)} {s e x lo lo' mid : ℕ} {r : ℕ × ℕ}

@[simp] theorem covers_nil : ¬ Covers [] x := by simp [Covers]

@[simp] theorem covers_cons : Covers (r :: v) x ↔ r.1 ≤ x ∧ x < r.2 ∨ Covers v x := by
  simp [Covers]

theorem covers_append : Covers (v ++ w) x ↔ Covers v x ∨ Covers w x := by
  simp only [Covers, mem_append, or_and_right, exists_or]

namespace Ordered

theorem mono (h : Ordered lo v) (hlo : lo' ≤ lo) : Ordered lo' v := by
  cases v with
  | nil => trivial
  | cons r v => exact ⟨hlo.trans h.1, h.2⟩

theorem le_of_covers (h : Ordered lo v) (hx : Covers v x) : lo ≤ x := by
  induction v generalizing lo with
  | nil => simp at hx
  | cons r v ih =>
    obtain ⟨hlo, hr, hv⟩ := h
    rcases covers_cons.1 hx with hx | hx
    · exact hlo.trans hx.1
    · exact (hlo.trans hr.le).trans (ih hv hx)

theorem append (hv : Ordered lo v) (hw : Ordered mid w) (hmid : lo ≤ mid)
    (hbound : ∀ x, Covers v x → x < mid) : Ordered lo (v ++ w) := by
  induction v generalizing lo with
  | nil => exact hw.mono hmid
  | cons r v ih =>
    obtain ⟨hlo, hr, hv⟩ := hv
    have hlast := hbound (r.2 - 1) (covers_cons.2 (.inl ⟨by omega, by omega⟩))
    exact ⟨hlo, hr, ih hv (by omega) fun x hx => hbound x (covers_cons.2 (.inr hx))⟩

end Ordered

theorem Apart.ordered (h : Apart v) : Ordered 0 v := by
  suffices hall : ∀ lo, (∀ r ∈ v, lo ≤ r.1) → Ordered lo v from hall 0 fun _ _ => Nat.zero_le _
  induction v with
  | nil => exact fun _ _ => trivial
  | cons r v ih =>
    obtain ⟨hne, hgaps⟩ := h
    obtain ⟨hr, hgaps⟩ := pairwise_cons.1 hgaps
    exact fun lo hlo => ⟨hlo r mem_cons_self, hne r mem_cons_self,
      ih ⟨fun t ht => hne t (mem_cons_of_mem _ ht), hgaps⟩ r.2 fun t ht => (hr t ht).le⟩

/-- What one range leaves, and what it needs not look at any more. -/
structure Subtracts (s e : ℕ) (b : List (ℕ × ℕ)) (result : List (ℕ × ℕ) × List (ℕ × ℕ)) :
    Prop where
  ordered : Ordered s result.1
  covers : ∀ x, Covers result.1 x ↔ (s ≤ x ∧ x < e) ∧ ¬ Covers b x
  cursor : Ordered 0 result.2
  skipped : ∀ x, e ≤ x → (Covers result.2 x ↔ Covers b x)

theorem subtractRange_spec (hb : Ordered 0 b) : Subtracts s e b (subtractRange s e b) := by
  fun_induction subtractRange s e b with
  | case1 s hse => exact ⟨by simp [Ordered, hse], by simp, hb, by simp⟩
  | case2 s hse bs be rest hbe ih =>
    obtain ⟨-, hne, hrest⟩ := hb
    have h := ih (hrest.mono (Nat.zero_le _))
    refine ⟨h.ordered, fun x => (h.covers x).trans ?_, h.cursor, fun x hx => ?_⟩
    · rw [covers_cons]
      exact and_congr_right fun hx => by simp; omega
    · rw [h.skipped x hx, covers_cons]
      simp
      omega
  | case3 s hse bs be rest hbe hbse r ih =>
    have h := ih hb
    obtain ⟨-, hne, hrest⟩ := hb
    have hmax : max be s = be := max_eq_left (by omega)
    have hafter : ∀ x, Covers rest x → be ≤ x := fun x hx => hrest.le_of_covers hx
    have hcovers : ∀ x, Covers r.1 x ↔ (be ≤ x ∧ x < e) ∧ ¬ Covers rest x := fun x => by
      rw [h.covers x, hmax, covers_cons]
      exact and_congr_right fun hx => by simp; omega
    refine ⟨?_, fun x => ?_, h.cursor, h.skipped⟩
    · split
      · exact ⟨le_rfl, by assumption, h.ordered.mono (by omega)⟩
      · exact h.ordered.mono (by omega)
    · have hx := hafter x
      split <;> grind [covers_cons]
  | case4 s hse bs be rest hbe hbse =>
    have hhead : Ordered bs ((bs, be) :: rest) := ⟨le_rfl, hb.2⟩
    have hafter : ∀ x, Covers ((bs, be) :: rest) x → bs ≤ x := fun x hx => hhead.le_of_covers hx
    refine ⟨⟨le_rfl, hse, trivial⟩, fun x => ?_, hb, fun x _ => Iff.rfl⟩
    rw [covers_cons, or_iff_left covers_nil]
    exact ⟨fun hx => ⟨hx, fun hc => by have := hafter x hc; omega⟩, fun hx => hx.1⟩
  | case5 s b hse => exact ⟨trivial, fun x => by simp; omega, hb, fun x _ => Iff.rfl⟩

theorem subtractRanges_spec (ha : Ordered lo a) (hb : Ordered 0 b) :
    Ordered lo (subtractRanges a b) ∧
      ∀ x, Covers (subtractRanges a b) x ↔ Covers a x ∧ ¬ Covers b x := by
  induction a generalizing lo b with
  | nil => exact ⟨trivial, by simp [subtractRanges]⟩
  | cons r a ih =>
    obtain ⟨hlo, hr, ha⟩ := ha
    have hone := subtractRange_spec (s := r.1) (e := r.2) hb
    obtain ⟨hordered, hcovers⟩ := ih ha hone.cursor
    refine ⟨(hone.ordered.mono hlo).append hordered (by omega) fun x hx => ?_, fun x => ?_⟩
    · exact ((hone.covers x).1 hx).1.2
    · rw [subtractRanges, covers_append, covers_cons, hone.covers, hcovers, or_and_right]
      refine or_congr_right (and_congr_right fun hx => not_congr (hone.skipped x ?_))
      exact ha.le_of_covers hx

theorem intersectRanges_spec (ha : Ordered lo a) (hb : Ordered lo' b) :
    Ordered (max lo lo') (intersectRanges a b) ∧
      ∀ x, Covers (intersectRanges a b) x ↔ Covers a x ∧ Covers b x := by
  induction a generalizing lo lo' b with
  | nil => simp [intersectRanges, Ordered]
  | cons r a iha =>
    induction b generalizing lo' with
    | nil => simp [intersectRanges, Ordered]
    | cons t b ihb =>
      obtain ⟨hlo, hr, ha'⟩ := ha
      obtain ⟨hlo', ht, hb'⟩ := hb
      have hafter : ∀ x, Covers a x → r.2 ≤ x := fun x hx => ha'.le_of_covers hx
      have hafter' : ∀ x, Covers b x → t.2 ≤ x := fun x hx => hb'.le_of_covers hx
      -- the range that ends first is done
      have hrest : ∃ rest, intersectRanges (r :: a) (t :: b) =
          (if max r.1 t.1 < min r.2 t.2 then (max r.1 t.1, min r.2 t.2) :: rest else rest) ∧
          Ordered (max (max lo lo') (min r.2 t.2)) rest ∧ ∀ x, Covers rest x ↔
            (Covers (r :: a) x ∧ Covers (t :: b) x) ∧
              ¬ (max r.1 t.1 ≤ x ∧ x < min r.2 t.2) := by
        refine ⟨_, by rw [intersectRanges], ?_⟩
        split
        · obtain ⟨hordered, hcovers⟩ := iha (b := t :: b) ha' ⟨le_rfl, ht, hb'⟩
          refine ⟨hordered.mono (by omega), fun x => ?_⟩
          simp only [hcovers, covers_cons]
          grind
        · obtain ⟨hordered, hcovers⟩ := ihb hb'
          refine ⟨hordered.mono (by omega), fun x => ?_⟩
          simp only [hcovers, covers_cons]
          grind
      obtain ⟨rest, heq, hordered, hcovers⟩ := hrest
      rw [heq]
      split
      · refine ⟨⟨by omega, by assumption, hordered.mono (by omega)⟩, fun x => ?_⟩
        rw [covers_cons, hcovers]
        simp only [covers_cons]
        grind
      · refine ⟨hordered.mono (by omega), fun x => ?_⟩
        rw [hcovers]
        exact and_iff_left (by omega)

/-- Merging, subtracting and intersecting ranges are exact on the bytes they stand for, and the
ranges that come out are in order and do not overlap. -/
theorem ranges_exact (hv : ∀ r ∈ v, r.1 < r.2) (ha : Apart a) (hb : Apart b) :
    (Apart (mergeRanges v) ∧ ∀ x, Covers (mergeRanges v) x ↔ Covers v x) ∧
    (Ordered 0 (subtractRanges a b) ∧
      ∀ x, Covers (subtractRanges a b) x ↔ Covers a x ∧ ¬ Covers b x) ∧
    Ordered 0 (intersectRanges a b) ∧
      ∀ x, Covers (intersectRanges a b) x ↔ Covers a x ∧ Covers b x := by
  refine ⟨⟨⟨fun r hr => mergeRanges_nonempty hv hr, mergeRanges_apart v⟩, fun x => ⟨?_, ?_⟩⟩,
    subtractRanges_spec ha.ordered hb.ordered, intersectRanges_spec ha.ordered hb.ordered⟩
  · rintro ⟨r, hr, hlo, hhi⟩
    exact mergeRanges_sound hr hlo hhi
  · rintro ⟨r, hr, hlo, hhi⟩
    obtain ⟨r', hr', hle, hle'⟩ := mergeRanges_covers hr
    exact ⟨r', hr', hle.trans hlo, hhi.trans_le hle'⟩

theorem ranges_exact_pair : Apart (mergeRanges [(2, 3), (0, 2)]) ∧
    ∀ x, Covers (intersectRanges [(0, 4), (6, 9)] [(1, 2), (3, 7)]) x ↔
      Covers [(0, 4), (6, 9)] x ∧ Covers [(1, 2), (3, 7)] x := by
  have h := ranges_exact (v := [(2, 3), (0, 2)]) (a := [(0, 4), (6, 9)]) (b := [(1, 2), (3, 7)])
    (by decide) ⟨by decide, by decide⟩ ⟨by decide, by decide⟩
  exact ⟨h.1.1, h.2.2.2⟩

end Veryl.Simulator.Opt
