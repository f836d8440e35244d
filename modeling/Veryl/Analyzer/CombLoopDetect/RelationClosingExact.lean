import Veryl.Analyzer.CombLoopDetect.RelationClosing
import Veryl.Analyzer.CombLoopDetect.RelationExact

/-!
A repeated translation closes a relation exactly when some number of steps, each started inside of
the guard, leads from a position that the relation reaches back to its anchor.
-/

namespace Veryl.Analyzer.CombLoopDetect

open Veryl.Library List Prod
open PositionRelationSet (closesAfterTranslationCount closesAnyOf intersectsIdentity_iff rel_andThen)

variable {x n stop shift : ℤ} {condition : Prop} {lower upper : ℤ × ℤ}
  {lowers uppers : List (ℤ × ℤ)} {lines : List (ℤ × ℤ) × List (ℤ × ℤ)}

variable {g : AxisRange} {α β : Type} {t m : ℤ} {r : AxisRelation} {bounds' : ℤ × ℤ}
  {p : RelationPiece} {budget : SearchBudget} {pairs : List (RelationPiece × FeasiblePosition)}
  {bounds : ℤ × ℤ} {f : α → Except Stop β} {start range : AxisRange} {b : SearchBudget} {count : ℤ}

def FeasiblePosition.Has (guard : FeasiblePosition) (y : Position) : Prop :=
  InRange guard.array y.1 ∧ InRange guard.packed y.2

/-- Steps of a translation, each started inside of the guard. -/
def TranslationSteps (offset : ℤ × ℤ) (guard : FeasiblePosition) : ℕ → Position → Position → Prop
  | 0 => fun y z => y = z
  | n + 1 => fun y z => guard.Has y ∧ TranslationSteps offset guard n (y + offset) z

/-- Steps along one axis back to where the relation started. -/
def AxisCloses (r : AxisRelation) (t : ℤ) (g : AxisRange) (n : ℤ) : Prop :=
  ∃ x y, r.Rel x y ∧ x = y + n * t ∧ InRange g y ∧ InRange g (y + (n - 1) * t)

section Steps

theorem inRange_between {a b : ℤ} (ha : InRange g a) (hb : InRange g b)
    (hx : a ≤ x ∧ x ≤ b ∨ b ≤ x ∧ x ≤ a) : InRange g x := by
  cases g with
  | none => exact inRange_none x
  | some s =>
    rw [inRange_some] at ha hb ⊢
    obtain ⟨ha, ha'⟩ := ha
    obtain ⟨hb, hb'⟩ := hb
    exact ⟨by omega, by omega⟩

theorem between_mul (y t : ℤ) {k : ℤ} (hk : 0 ≤ k) (hn : k ≤ n) :
    y ≤ y + k * t ∧ y + k * t ≤ y + n * t ∨ y + n * t ≤ y + k * t ∧ y + k * t ≤ y := by
  rcases le_total 0 t with ht | ht
  · have h₁ := mul_nonneg hk ht
    have h₂ := mul_le_mul_of_nonneg_right hn ht
    exact .inl ⟨by omega, by omega⟩
  · have h₁ := mul_nonpos_of_nonneg_of_nonpos hk ht
    have h₂ := mul_le_mul_of_nonpos_right hn ht
    exact .inr ⟨by omega, by omega⟩

theorem translationSteps_iff (offset : ℤ × ℤ) (guard : FeasiblePosition) (n : ℕ) (y z : Position) :
    TranslationSteps offset guard (n + 1) y z ↔
      (z.1 = y.1 + (n + 1) * offset.1 ∧ z.2 = y.2 + (n + 1) * offset.2) ∧
      (InRange guard.array y.1 ∧ InRange guard.array (y.1 + n * offset.1)) ∧
      InRange guard.packed y.2 ∧ InRange guard.packed (y.2 + n * offset.2) := by
  induction n generalizing y with
  | zero =>
    simp only [TranslationSteps, FeasiblePosition.Has, Prod.ext_iff, fst_add, snd_add,
      Nat.cast_zero, zero_add, one_mul, zero_mul, add_zero, and_self, eq_comm]
    tauto
  | succ n ih =>
    have hone : ∀ a t : ℤ, a + t + (n : ℤ) * t = a + ((n : ℤ) + 1) * t := fun a t => by ring
    have htwo : ∀ a t : ℤ, a + t + ((n : ℤ) + 1) * t = a + ((n : ℤ) + 1 + 1) * t :=
      fun a t => by ring
    have hmid : ∀ {g : AxisRange} {a t : ℤ}, InRange g a → InRange g (a + ((n : ℤ) + 1) * t) →
        InRange g (a + t) := by
      intro g a t ha hb
      have hbetween := between_mul a t (k := 1) (n := (n : ℤ) + 1) (by omega) (by omega)
      rw [one_mul] at hbetween
      exact inRange_between ha hb (hbetween.imp_right fun h => ⟨h.1, h.2⟩)
    rw [TranslationSteps]
    dsimp only
    rw [ih]
    simp only [fst_add, snd_add, hone, htwo, Nat.cast_succ, FeasiblePosition.Has]
    constructor
    · rintro ⟨⟨hy₁, hy₂⟩, hz, ⟨-, hl₁⟩, -, hl₂⟩
      exact ⟨hz, ⟨hy₁, hl₁⟩, hy₂, hl₂⟩
    · rintro ⟨hz, ⟨hy₁, hl₁⟩, hy₂, hl₂⟩
      exact ⟨⟨hy₁, hy₂⟩, hz, ⟨hmid hy₁ hl₁, hl₁⟩, hmid hy₂ hl₂, hl₂⟩

theorem closes_iff_axes (p : RelationPiece) (offset : ℤ × ℤ) (guard : FeasiblePosition) (n : ℕ) :
    (∃ x y, p.Rel x y ∧ TranslationSteps offset guard (n + 1) y x) ↔
      AxisCloses p.array offset.1 guard.array (n + 1) ∧
        AxisCloses p.packed offset.2 guard.packed (n + 1) := by
  have hn : ((n : ℤ) + 1 - 1) = n := by omega
  simp only [AxisCloses, hn]
  constructor
  · rintro ⟨x, y, ⟨ha, hb⟩, hsteps⟩
    obtain ⟨⟨hx₁, hx₂⟩, ⟨hy₁, hl₁⟩, hy₂, hl₂⟩ := (translationSteps_iff _ _ _ _ _).1 hsteps
    exact ⟨⟨x.1, y.1, ha, hx₁, hy₁, hl₁⟩, x.2, y.2, hb, hx₂, hy₂, hl₂⟩
  · rintro ⟨⟨x₁, y₁, ha, hx₁, hy₁, hl₁⟩, x₂, y₂, hb, hx₂, hy₂, hl₂⟩
    exact ⟨(x₁, x₂), (y₁, y₂), ⟨ha, hb⟩,
      (translationSteps_iff _ _ _ _ _).2 ⟨⟨hx₁, hx₂⟩, ⟨hy₁, hl₁⟩, hy₂, hl₂⟩⟩

end Steps

section Checked

theorem checked_eq_ok {y : ℤ} (h : checked x = .ok y) : y = x ∧ isizeMin ≤ x ∧ x ≤ isizeMax := by
  rw [checked] at h
  split at h
  · rename_i hx
    exact ⟨(Except.ok.inj h).symm, hx⟩
  · cases h

theorem checked_of_ne {f : ℤ → Except Stop α} (h : (checked x >>= f) ≠ .error .overflow) :
    (checked x >>= f) = f x ∧ isizeMin ≤ x ∧ x ≤ isizeMax := by
  rw [checked] at h ⊢
  split
  · rename_i hx
    exact ⟨rfl, hx⟩
  · rename_i hx
    rw [if_neg hx] at h
    exact absurd rfl h

theorem refuseUnless_bind [Decidable condition]
    (h : condition) (f : Unit → Except Stop α) : (refuseUnless condition >>= f) = f () := by
  rw [refuseUnless, if_pos h]
  rfl

theorem refuseUnless_eq_ok [Decidable condition]
    {f : Unit → Except Stop α} {a : α} (h : (refuseUnless condition >>= f) = .ok a) :
    condition ∧ f () = .ok a := by
  rw [refuseUnless] at h
  split at h
  · rename_i hcondition
    exact ⟨hcondition, h⟩
  · cases h

theorem bind_eq_ok {x : Except Stop α} {b : β}
    (h : (x >>= f) = .ok b) : ∃ a, x = .ok a ∧ f a = .ok b := by
  cases x with
  | ok a => exact ⟨a, rfl, h⟩
  | error e => cases h

theorem checked_bind_ne_never {f : ℤ → Except Stop α}
    (hf : ∀ y, f y ≠ .error .never) : (checked x >>= f) ≠ .error .never := by
  rw [checked]
  split
  · exact hf x
  · exact fun h => by cases h

theorem ok_of_bind_ne {x : Except Stop α}
    (hx : x ≠ .error .never) (h : (x >>= f) ≠ .error .overflow) :
    ∃ a, x = .ok a ∧ f a ≠ .error .overflow := by
  cases x with
  | ok a => exact ⟨a, rfl, h⟩
  | error e =>
    cases e with
    | never => exact absurd rfl hx
    | overflow => exact absurd rfl h

end Checked

section Linked

theorem axisCloses_linked {offset : ℤ}
    (h : AxisCloses (.linked offset start) t g n) : n * t = -offset := by
  obtain ⟨x, y, ⟨-, hy⟩, hx, -⟩ := h
  omega

theorem AxisCloses.of_zero (h : AxisCloses r 0 g n) (m : ℤ) : AxisCloses r 0 g m := by
  simpa only [AxisCloses, mul_zero] using h

theorem linkedRepetitionCount_complete
    {count : Option ℤ} (hn : 1 ≤ n) (hcloses : AxisCloses r t g n) (hcount : ∀ c ∈ count, c = n)
    (h : linkedRepetitionCount r t count ≠ .error .overflow) :
    ∃ count', linkedRepetitionCount r t count = .ok count' ∧ (∀ c ∈ count', c = n) ∧
      (count' = none → count = none ∧ ((∃ offset start, r = .linked offset start) → t = 0)) := by
  cases r with
  | unlinked start current =>
    exact ⟨count, rfl, hcount, fun hnone => ⟨hnone, by rintro ⟨_, _, h⟩; cases h⟩⟩
  | linked offset start =>
    have heq := axisCloses_linked hcloses
    rw [linkedRepetitionCount] at h ⊢
    split
    · rename_i ht
      rw [ht, mul_zero] at heq
      rw [refuseUnless_bind (by omega)]
      exact ⟨count, rfl, hcount, fun hnone => ⟨hnone, fun _ => ht⟩⟩
    · rename_i ht
      rw [if_neg ht] at h
      obtain ⟨hchecked, -⟩ := checked_of_ne h
      rw [hchecked]
      have hmod : (-offset).tmod t = 0 := by rw [← heq, Int.mul_tmod_left]
      have hdiv : (-offset).tdiv t = n := by rw [← heq, Int.mul_tdiv_cancel _ ht]
      rw [refuseUnless_bind hmod, hdiv, refuseUnless_bind ⟨hn, hcount⟩]
      refine ⟨some n, rfl, fun c hc => (Option.some.inj hc).symm, fun hnone => ?_⟩
      cases hnone

theorem linkedRepetitionCount_pos {count count' : Option ℤ}
    (hcount : ∀ c ∈ count, 1 ≤ c) (h : linkedRepetitionCount r t count = .ok count') :
    ∀ c ∈ count', 1 ≤ c := by
  cases r with
  | unlinked start current => exact (Except.ok.inj h) ▸ hcount
  | linked offset start =>
    rw [linkedRepetitionCount] at h
    split at h
    · obtain ⟨-, h⟩ := refuseUnless_eq_ok h
      exact (Except.ok.inj h) ▸ hcount
    · obtain ⟨required, -, h⟩ := bind_eq_ok h
      obtain ⟨-, h⟩ := refuseUnless_eq_ok h
      obtain ⟨hpos, h⟩ := refuseUnless_eq_ok h
      intro c hc
      obtain rfl := Except.ok.inj h
      exact (Option.some.inj hc) ▸ hpos.1

end Linked

section Unlinked

/-- The value of a line at a number of steps. -/
def lineAt (line : ℤ × ℤ) (n : ℤ) : ℤ := line.1 * n + line.2

theorem constrain_sound (h : constrainStrictInequality lower upper bounds = .ok bounds') :
    bounds.1 ≤ bounds'.1 ∧ bounds'.2 ≤ bounds.2 ∧
      ∀ m, bounds'.1 ≤ m → m ≤ bounds'.2 → lineAt lower m < lineAt upper m := by
  have hline : ∀ m, lineAt lower m < lineAt upper m ↔
      (lower.1 - upper.1) * m < upper.2 - lower.2 := by
    intro m
    rw [lineAt, lineAt, sub_mul]
    omega
  obtain ⟨slope, hslope, h⟩ := bind_eq_ok h
  obtain ⟨rfl, -⟩ := checked_eq_ok hslope
  obtain ⟨intercept, hintercept, h⟩ := bind_eq_ok h
  obtain ⟨rfl, -⟩ := checked_eq_ok hintercept
  simp only [hline]
  split at h
  · rename_i hzero
    obtain ⟨hpos, h⟩ := refuseUnless_eq_ok h
    obtain rfl := Except.ok.inj h
    refine ⟨le_refl _, le_refl _, fun m _ _ => ?_⟩
    rw [hzero, zero_mul]
    exact hpos
  split at h
  · rename_i hpos
    obtain ⟨numerator, hnumerator, h⟩ := bind_eq_ok h
    obtain ⟨rfl, -⟩ := checked_eq_ok hnumerator
    obtain ⟨-, h⟩ := refuseUnless_eq_ok h
    obtain rfl := Except.ok.inj h
    refine ⟨le_refl _, min_le_left _ _, fun m _ hm => ?_⟩
    have hle := (Int.le_ediv_iff_mul_le hpos).1 (hm.trans (min_le_right _ _))
    rw [mul_comm] at hle
    omega
  · rename_i hzero hneg
    obtain ⟨divisor, hdivisor, h⟩ := bind_eq_ok h
    obtain ⟨rfl, -⟩ := checked_eq_ok hdivisor
    obtain ⟨numerator, hnumerator, h⟩ := bind_eq_ok h
    obtain ⟨rfl, -⟩ := checked_eq_ok hnumerator
    obtain ⟨least, hleast, h⟩ := bind_eq_ok h
    obtain ⟨rfl, -⟩ := checked_eq_ok hleast
    obtain ⟨-, h⟩ := refuseUnless_eq_ok h
    obtain rfl := Except.ok.inj h
    refine ⟨le_max_left _ _, le_refl _, fun m hm _ => ?_⟩
    have hdiv : 0 < -(lower.1 - upper.1) := by omega
    have hlt := (Int.ediv_lt_iff_lt_mul hdiv).1
      (Int.lt_of_lt_of_le (Int.lt_succ _) ((le_max_right _ _).trans hm))
    rw [mul_neg, mul_comm] at hlt
    omega

theorem constrain_complete (hn : bounds.1 ≤ min n isizeMax ∧ min n isizeMax ≤ bounds.2)
    (hlt : lineAt lower n < lineAt upper n)
    (h : constrainStrictInequality lower upper bounds ≠ .error .overflow) :
    ∃ bounds', constrainStrictInequality lower upper bounds = .ok bounds' ∧
      bounds'.1 ≤ min n isizeMax ∧ min n isizeMax ≤ bounds'.2 := by
  have hline : (lower.1 - upper.1) * n < upper.2 - lower.2 := by
    rw [lineAt, lineAt] at hlt
    rw [sub_mul]
    omega
  rw [constrainStrictInequality] at h ⊢
  obtain ⟨hslope, -⟩ := checked_of_ne h
  rw [hslope] at h ⊢
  obtain ⟨hintercept, -⟩ := checked_of_ne h
  rw [hintercept] at h ⊢
  split
  · rename_i hzero
    rw [hzero, zero_mul] at hline
    rw [refuseUnless_bind hline]
    exact ⟨bounds, rfl, hn⟩
  rename_i hzero
  rw [if_neg hzero] at h
  split
  · rename_i hpos
    rw [if_pos hpos] at h
    obtain ⟨hnumerator, -⟩ := checked_of_ne h
    have hle : n ≤ (upper.2 - lower.2 - 1) / (lower.1 - upper.1) := by
      rw [Int.le_ediv_iff_mul_le hpos, mul_comm]
      omega
    have hmin : min n isizeMax ≤ min bounds.2 ((upper.2 - lower.2 - 1) / (lower.1 - upper.1)) :=
      le_min hn.2 ((min_le_left _ _).trans hle)
    rw [hnumerator, refuseUnless_bind (hn.1.trans hmin)]
    exact ⟨_, rfl, hn.1, hmin⟩
  · rename_i hneg
    rw [if_neg hneg] at h
    obtain ⟨hdivisor, -⟩ := checked_of_ne h
    rw [hdivisor] at h ⊢
    obtain ⟨hnumerator, -⟩ := checked_of_ne h
    rw [hnumerator] at h ⊢
    obtain ⟨hleast, -, hmax⟩ := checked_of_ne h
    have hdiv : 0 < -(lower.1 - upper.1) := by omega
    have hle : -(upper.2 - lower.2) / -(lower.1 - upper.1) + 1 ≤ n := by
      rw [Int.add_one_le_iff, Int.ediv_lt_iff_lt_mul hdiv, mul_neg, mul_comm]
      omega
    have hmin : max bounds.1 (-(upper.2 - lower.2) / -(lower.1 - upper.1) + 1) ≤
        min n isizeMax := max_le hn.1 (le_min hle hmax)
    rw [hleast, refuseUnless_bind (hmin.trans hn.2)]
    exact ⟨_, rfl, hmin, hn.2⟩

theorem constrainAll_sound (h : constrainAll lowers uppers bounds = .ok bounds') :
    bounds.1 ≤ bounds'.1 ∧ bounds'.2 ≤ bounds.2 ∧ ∀ m, bounds'.1 ≤ m → m ≤ bounds'.2 →
      ∀ l ∈ lowers, ∀ u ∈ uppers, lineAt l m < lineAt u m := by
  suffices hpairs : ∀ (pairs : List ((ℤ × ℤ) × (ℤ × ℤ))) (bounds : ℤ × ℤ),
      pairs.foldlM (fun bounds pair => constrainStrictInequality pair.1 pair.2 bounds) bounds =
        .ok bounds' →
      bounds.1 ≤ bounds'.1 ∧ bounds'.2 ≤ bounds.2 ∧ ∀ m, bounds'.1 ≤ m → m ≤ bounds'.2 →
        ∀ pair ∈ pairs, lineAt pair.1 m < lineAt pair.2 m by
    obtain ⟨hlower, hupper, hall⟩ := hpairs _ _ h
    refine ⟨hlower, hupper, fun m hm hm' l hl u hu => hall m hm hm' (l, u) ?_⟩
    exact mem_flatMap.2 ⟨l, hl, mem_map_of_mem hu⟩
  intro pairs
  induction pairs with
  | nil =>
    intro bounds hok
    obtain rfl := Except.ok.inj hok
    exact ⟨le_refl _, le_refl _, fun _ _ _ _ hmem => absurd hmem not_mem_nil⟩
  | cons pair pairs ih =>
    intro bounds hok
    obtain ⟨bounds₁, hone, hrest⟩ := bind_eq_ok hok
    obtain ⟨hlower, hupper, hline⟩ := constrain_sound hone
    obtain ⟨hlower', hupper', hall⟩ := ih bounds₁ hrest
    refine ⟨hlower.trans hlower', hupper'.trans hupper, fun m hm hm' => ?_⟩
    exact forall_mem_cons.2 ⟨hline m (hlower'.trans hm) (hm'.trans hupper'), hall m hm hm'⟩

theorem constrainAll_complete (hn : bounds.1 ≤ min n isizeMax ∧ min n isizeMax ≤ bounds.2)
    (hlt : ∀ l ∈ lowers, ∀ u ∈ uppers, lineAt l n < lineAt u n)
    (h : constrainAll lowers uppers bounds ≠ .error .overflow) :
    ∃ bounds', constrainAll lowers uppers bounds = .ok bounds' ∧
      bounds'.1 ≤ min n isizeMax ∧ min n isizeMax ≤ bounds'.2 := by
  suffices hpairs : ∀ (pairs : List ((ℤ × ℤ) × (ℤ × ℤ))) (bounds : ℤ × ℤ),
      bounds.1 ≤ min n isizeMax ∧ min n isizeMax ≤ bounds.2 →
      (∀ pair ∈ pairs, lineAt pair.1 n < lineAt pair.2 n) →
      pairs.foldlM (fun bounds pair => constrainStrictInequality pair.1 pair.2 bounds) bounds ≠
        .error .overflow →
      ∃ bounds', pairs.foldlM
          (fun bounds pair => constrainStrictInequality pair.1 pair.2 bounds) bounds =
          .ok bounds' ∧ bounds'.1 ≤ min n isizeMax ∧ min n isizeMax ≤ bounds'.2 by
    refine hpairs _ _ hn (fun pair hpair => ?_) h
    obtain ⟨l, hl, hmap⟩ := mem_flatMap.1 hpair
    obtain ⟨u, hu, rfl⟩ := mem_map.1 hmap
    exact hlt l hl u hu
  intro pairs
  induction pairs with
  | nil => exact fun bounds hn _ _ => ⟨bounds, rfl, hn⟩
  | cons pair pairs ih =>
    intro bounds hn hlt h
    rw [foldlM_cons] at h ⊢
    have hone : constrainStrictInequality pair.1 pair.2 bounds ≠ .error .overflow := by
      intro hone
      rw [hone] at h
      exact h rfl
    obtain ⟨bounds₁, hok, hn₁⟩ := constrain_complete hn (hlt pair mem_cons_self) hone
    rw [hok] at h ⊢
    exact ih bounds₁ hn₁ (fun q hq => hlt q (mem_cons_of_mem _ hq)) h

theorem exists_between_iff (lowers uppers : List ℤ) :
    (∃ y, (∀ l ∈ lowers, l ≤ y) ∧ ∀ u ∈ uppers, y < u) ↔ ∀ l ∈ lowers, ∀ u ∈ uppers, l < u := by
  constructor
  · rintro ⟨y, hl, hu⟩ l hlmem u humem
    exact (hl l hlmem).trans_lt (hu u humem)
  intro hlt
  have hgreatest : lowers = [] ∨ ∃ y ∈ lowers, ∀ l ∈ lowers, l ≤ y := by
    induction lowers with
    | nil => exact .inl rfl
    | cons l lowers ih =>
      rcases ih fun l' hl' => hlt l' (mem_cons_of_mem _ hl') with rfl | ⟨y, hy, hmax⟩
      · exact .inr ⟨l, by simp, by simp⟩
      · rcases le_total l y with hle | hle
        · exact .inr ⟨y, mem_cons_of_mem _ hy, forall_mem_cons.2 ⟨hle, hmax⟩⟩
        · exact .inr ⟨l, mem_cons_self, forall_mem_cons.2
            ⟨le_refl _, fun l' hl' => (hmax l' hl').trans hle⟩⟩
  have hbelow : ∃ y, ∀ u ∈ uppers, y < u := by
    clear hlt
    induction uppers with
    | nil => exact ⟨0, by simp⟩
    | cons u uppers ih =>
      obtain ⟨y, hy⟩ := ih
      refine ⟨min y (u - 1), forall_mem_cons.2 ⟨?_, fun u' hu' => ?_⟩⟩
      · exact (min_le_right _ _).trans_lt (by omega)
      · exact (min_le_left _ _).trans_lt (hy u' hu')
  rcases hgreatest with rfl | ⟨y, hy, hmax⟩
  · obtain ⟨y, hy⟩ := hbelow
    exact ⟨y, by simp, hy⟩
  · exact ⟨y, hmax, fun u hu => hlt y hy u hu⟩

/-- What lines say about a position after some number of steps. -/
def Between (lines : List (ℤ × ℤ) × List (ℤ × ℤ)) (m y : ℤ) : Prop :=
  (∀ l ∈ lines.1, lineAt l m ≤ y) ∧ ∀ u ∈ lines.2, y < lineAt u m

theorem between_append (a b : List (ℤ × ℤ) × List (ℤ × ℤ)) (m y : ℤ) :
    Between (a.1 ++ b.1, a.2 ++ b.2) m y ↔ Between a m y ∧ Between b m y := by
  simp only [Between, forall_mem_append]
  tauto

theorem between_currentLines (current : AxisRange) (m y : ℤ) :
    Between (currentLines current) m y ↔ InRange current y := by
  cases current with
  | none => simp [Between, currentLines]
  | some s => simp [Between, currentLines, lineAt, Span.Has]

theorem between_startLines (h : startLines t start = .ok lines) (m y : ℤ) :
    Between lines m y ↔ InRange start (y + m * t) := by
  cases start with
  | none =>
    obtain rfl := Except.ok.inj h
    simp [Between]
  | some s =>
    obtain ⟨slope, hslope, h⟩ := bind_eq_ok h
    obtain ⟨rfl, -⟩ := checked_eq_ok hslope
    obtain rfl := Except.ok.inj h
    have hline : -t * m = -(m * t) := by ring
    simp only [Between, lineAt, forall_mem_singleton, inRange_some, Span.Has, hline]
    constructor <;> rintro ⟨h₁, h₂⟩ <;> constructor <;> omega

theorem between_guardLines {guard : AxisRange}
    (h : guardLines t guard = .ok lines) (hm : 1 ≤ m) (y : ℤ) :
    Between lines m y ↔ InRange guard y ∧ InRange guard (y + (m - 1) * t) := by
  cases guard with
  | none =>
    obtain rfl := Except.ok.inj h
    simp [Between]
  | some s =>
    have hline : -t * m = -((m - 1) * t) - t := by ring
    rw [guardLines] at h
    split at h
    · rename_i ht
      obtain ⟨intercept, hintercept, h⟩ := bind_eq_ok h
      obtain ⟨rfl, -⟩ := checked_eq_ok hintercept
      obtain rfl := Except.ok.inj h
      have hshift : 0 ≤ (m - 1) * t := mul_nonneg (by omega) ht
      simp only [Between, lineAt, forall_mem_singleton, inRange_some, Span.Has, hline]
      omega
    · rename_i ht
      obtain ⟨slope, hslope, h⟩ := bind_eq_ok h
      obtain ⟨rfl, -⟩ := checked_eq_ok hslope
      obtain ⟨intercept, hintercept, h⟩ := bind_eq_ok h
      obtain ⟨rfl, -⟩ := checked_eq_ok hintercept
      obtain rfl := Except.ok.inj h
      have hshift : (m - 1) * t ≤ 0 :=
        mul_nonpos_of_nonneg_of_nonpos (by omega) (by omega)
      simp only [Between, lineAt, forall_mem_singleton, inRange_some, Span.Has, hline]
      omega

theorem axisCloses_unlinked_iff {current : AxisRange}
    {guard first : List (ℤ × ℤ) × List (ℤ × ℤ)} (hguard : guardLines t g = .ok guard)
    (hfirst : startLines t start = .ok first) (hm : 1 ≤ m) :
    AxisCloses (.unlinked start current) t g m ↔
      ∀ l ∈ (currentLines current).1 ++ guard.1 ++ first.1,
        ∀ u ∈ (currentLines current).2 ++ guard.2 ++ first.2, lineAt l m < lineAt u m := by
  have hbetween : (∃ y, Between ((currentLines current).1 ++ guard.1 ++ first.1,
      (currentLines current).2 ++ guard.2 ++ first.2) m y) ↔
      ∀ l ∈ (currentLines current).1 ++ guard.1 ++ first.1,
        ∀ u ∈ (currentLines current).2 ++ guard.2 ++ first.2, lineAt l m < lineAt u m := by
    have := exists_between_iff (((currentLines current).1 ++ guard.1 ++ first.1).map (lineAt · m))
      (((currentLines current).2 ++ guard.2 ++ first.2).map (lineAt · m))
    simpa only [forall_mem_map, Between] using this
  rw [← hbetween]
  simp only [between_append ((currentLines current).1 ++ guard.1,
      (currentLines current).2 ++ guard.2) first,
    between_append, between_currentLines, between_guardLines hguard hm,
    between_startLines hfirst, AxisCloses, AxisRelation.Rel]
  constructor
  · rintro ⟨x, y, ⟨hx, hy⟩, rfl, hg, hg'⟩
    exact ⟨y, ⟨hy, hg, hg'⟩, hx⟩
  · rintro ⟨y, ⟨hy, hg, hg'⟩, hx⟩
    exact ⟨y + m * t, y, ⟨hx, hy⟩, rfl, hg, hg'⟩

theorem guardLines_ne_never (t : ℤ) (g : AxisRange) : guardLines t g ≠ .error .never := by
  cases g with
  | none => exact fun h => by cases h
  | some s =>
    rw [guardLines]
    split
    · exact checked_bind_ne_never fun _ h => by cases h
    · exact checked_bind_ne_never fun _ => checked_bind_ne_never fun _ h => by cases h

theorem startLines_ne_never (t : ℤ) (start : AxisRange) : startLines t start ≠ .error .never := by
  cases start with
  | none => exact fun h => by cases h
  | some s => exact checked_bind_ne_never fun _ h => by cases h

theorem unlinkedRepetitionBounds_sound (h : unlinkedRepetitionBounds r t g bounds = .ok bounds') :
    bounds.1 ≤ bounds'.1 ∧ bounds'.2 ≤ bounds.2 ∧
      ((∃ start current, r = .unlinked start current) → ∀ m, 1 ≤ m → bounds'.1 ≤ m →
        m ≤ bounds'.2 → AxisCloses r t g m) := by
  cases r with
  | linked offset start =>
    obtain rfl := Except.ok.inj h
    exact ⟨le_refl _, le_refl _, by rintro ⟨_, _, h⟩; cases h⟩
  | unlinked start current =>
    obtain ⟨guard, hguard, h⟩ := bind_eq_ok h
    obtain ⟨first, hfirst, h⟩ := bind_eq_ok h
    obtain ⟨hlower, hupper, hall⟩ := constrainAll_sound h
    refine ⟨hlower, hupper, fun _ m hm hle hle' => ?_⟩
    exact (axisCloses_unlinked_iff hguard hfirst hm).2 (hall m hle hle')

theorem unlinkedRepetitionBounds_complete (hpos : 1 ≤ n) (hcloses : AxisCloses r t g n)
    (hn : bounds.1 ≤ min n isizeMax ∧ min n isizeMax ≤ bounds.2)
    (h : unlinkedRepetitionBounds r t g bounds ≠ .error .overflow) :
    ∃ bounds', unlinkedRepetitionBounds r t g bounds = .ok bounds' ∧
      bounds'.1 ≤ min n isizeMax ∧ min n isizeMax ≤ bounds'.2 := by
  cases r with
  | linked offset start => exact ⟨bounds, rfl, hn⟩
  | unlinked start current =>
    rw [unlinkedRepetitionBounds] at h ⊢
    obtain ⟨guard, hguard, h⟩ := ok_of_bind_ne (guardLines_ne_never t g) h
    obtain ⟨first, hfirst, h⟩ := ok_of_bind_ne (startLines_ne_never t start) h
    have hlines := (axisCloses_unlinked_iff hguard hfirst hpos).1 hcloses
    rw [hguard, hfirst]
    exact constrainAll_complete hn hlines h

end Unlinked

section Closing

variable {offset : ℤ × ℤ} {guard : FeasiblePosition}

theorem ok_bind (a : α) (f : α → Except Stop β) : ((.ok a : Except Stop α) >>= f) = f a := rfl

theorem error_of_bind {x : Except Stop α}
    (h : (x >>= f) ≠ .error .overflow) : x ≠ .error .overflow := by
  intro hx
  rw [hx] at h
  exact h rfl

theorem repetitionCount_pos (h : repetitionCount p offset guard = .ok count) : 1 ≤ count := by
  obtain ⟨first, hfirst, h⟩ := bind_eq_ok h
  obtain ⟨second, hsecond, h⟩ := bind_eq_ok h
  have hpos := linkedRepetitionCount_pos
    (linkedRepetitionCount_pos (fun _ hc => by cases hc) hfirst) hsecond
  cases second with
  | some c => exact (Except.ok.inj h) ▸ hpos c rfl
  | none =>
    obtain ⟨bounds, hbounds, h⟩ := bind_eq_ok h
    obtain ⟨bounds', hbounds', h⟩ := bind_eq_ok h
    obtain ⟨-, h⟩ := refuseUnless_eq_ok h
    obtain rfl := Except.ok.inj h
    have h₁ := (unlinkedRepetitionBounds_sound hbounds).1
    have h₂ := (unlinkedRepetitionBounds_sound hbounds').1
    exact h₁.trans h₂

theorem axisCloses_of_bounds (hcloses : AxisCloses r t g n)
    (hlinked : (∃ offset start, r = .linked offset start) → t = 0)
    (hunlinked : (∃ start current, r = .unlinked start current) → AxisCloses r t g m) :
    AxisCloses r t g m := by
  cases r with
  | linked o start =>
    obtain rfl := hlinked ⟨o, start, rfl⟩
    exact hcloses.of_zero m
  | unlinked start current => exact hunlinked ⟨start, current, rfl⟩

theorem repetitionCount_complete (hn : 1 ≤ n) (harray : AxisCloses p.array offset.1 guard.array n)
    (hpacked : AxisCloses p.packed offset.2 guard.packed n)
    (h : repetitionCount p offset guard ≠ .error .overflow) :
    ∃ count, repetitionCount p offset guard = .ok count ∧
      AxisCloses p.array offset.1 guard.array count ∧
      AxisCloses p.packed offset.2 guard.packed count := by
  rw [repetitionCount] at h ⊢
  obtain ⟨first, hfirst, hcount, hnone⟩ := linkedRepetitionCount_complete hn harray
    (fun _ hc => by cases hc) (error_of_bind h)
  rw [hfirst, ok_bind] at h ⊢
  obtain ⟨second, hsecond, hcount', hnone'⟩ := linkedRepetitionCount_complete hn hpacked
    hcount (error_of_bind h)
  rw [hsecond, ok_bind] at h ⊢
  cases second with
  | some c =>
    obtain rfl := hcount' c rfl
    exact ⟨c, rfl, harray, hpacked⟩
  | none =>
    obtain ⟨hfirst', hpackedZero⟩ := hnone' rfl
    obtain ⟨-, harrayZero⟩ := hnone hfirst'
    have hstart : (1 : ℤ) ≤ min n isizeMax ∧ min n isizeMax ≤ isizeMax :=
      ⟨le_min hn (by decide), min_le_right _ _⟩
    obtain ⟨bounds, hbounds, hle⟩ :=
      unlinkedRepetitionBounds_complete hn harray hstart (error_of_bind h)
    rw [hbounds, ok_bind] at h ⊢
    obtain ⟨bounds', hbounds', hle'⟩ :=
      unlinkedRepetitionBounds_complete hn hpacked hle (error_of_bind h)
    rw [hbounds', ok_bind, refuseUnless_bind (hle'.1.trans hle'.2)]
    obtain ⟨hlower, hupper, harrayAll⟩ := unlinkedRepetitionBounds_sound hbounds
    obtain ⟨hlower', hupper', hpackedAll⟩ := unlinkedRepetitionBounds_sound hbounds'
    have hpos : 1 ≤ bounds'.1 := hlower.trans hlower'
    have hin := hle'.1.trans hle'.2
    refine ⟨bounds'.1, rfl, ?_, ?_⟩
    · exact axisCloses_of_bounds harray harrayZero fun hunlinked =>
        harrayAll hunlinked _ hpos hlower' (hin.trans hupper')
    · exact axisCloses_of_bounds hpacked hpackedZero fun hunlinked =>
        hpackedAll hunlinked _ hpos (le_refl _) hin

variable {start : ℤ}

theorem inRange_nonemptyRange (h : nonemptyRange start stop = .ok range) (y : ℤ) :
    InRange range y ↔ start ≤ y ∧ y < stop := by
  rw [nonemptyRange] at h
  split at h
  · obtain rfl := Except.ok.inj h
    exact inRange_some _ y
  · cases h

theorem nonemptyRange_of_lt (h : start < stop) : ∃ range, nonemptyRange start stop = .ok range :=
  ⟨_, dif_pos h⟩

theorem inRange_repeatRange {repeated : AxisRange}
    (h : repeatRange range shift = .ok repeated) (y : ℤ) :
    InRange repeated y ↔ InRange range y ∧ InRange range (y + shift) := by
  cases range with
  | none =>
    obtain rfl := Except.ok.inj h
    simp
  | some s =>
    rw [inRange_some, inRange_some, Span.Has, Span.Has]
    rw [repeatRange] at h
    split at h
    · obtain ⟨stop, hstop, h⟩ := bind_eq_ok h
      obtain ⟨rfl, -⟩ := checked_eq_ok hstop
      rw [inRange_nonemptyRange h]
      omega
    · obtain ⟨start, hstart, h⟩ := bind_eq_ok h
      obtain ⟨rfl, -⟩ := checked_eq_ok hstart
      rw [inRange_nonemptyRange h]
      omega

theorem repeatRange_complete {y : ℤ} (hy : InRange range y)
    (hshift : InRange range (y + shift)) (h : repeatRange range shift ≠ .error .overflow) :
    ∃ repeated, repeatRange range shift = .ok repeated := by
  cases range with
  | none => exact ⟨none, rfl⟩
  | some s =>
    rw [inRange_some, Span.Has] at hy hshift
    rw [repeatRange] at h ⊢
    split
    · rename_i hpos
      rw [if_pos hpos] at h
      rw [(checked_of_ne h).1]
      exact nonemptyRange_of_lt (by omega)
    · rename_i hneg
      rw [if_neg hneg] at h
      rw [(checked_of_ne h).1]
      exact nonemptyRange_of_lt (by omega)

theorem rel_repeatedTranslation {n : ℕ} {translation : PositionRelationSet}
    (h : repeatedTranslation offset guard (n + 1) = .ok translation) (y z : Position) :
    translation.Rel y z ↔ TranslationSteps offset guard (n + 1) y z := by
  obtain ⟨repetitions, hrepetitions, h⟩ := bind_eq_ok h
  obtain ⟨rfl, -⟩ := checked_eq_ok hrepetitions
  obtain ⟨arrayShift, harrayShift, h⟩ := bind_eq_ok h
  obtain ⟨rfl, -⟩ := checked_eq_ok harrayShift
  obtain ⟨packedShift, hpackedShift, h⟩ := bind_eq_ok h
  obtain ⟨rfl, -⟩ := checked_eq_ok hpackedShift
  obtain ⟨arrayStart, harrayStart, h⟩ := bind_eq_ok h
  obtain ⟨packedStart, hpackedStart, h⟩ := bind_eq_ok h
  obtain ⟨arrayOffset, harrayOffset, h⟩ := bind_eq_ok h
  obtain ⟨rfl, -⟩ := checked_eq_ok harrayOffset
  obtain ⟨packedOffset, hpackedOffset, h⟩ := bind_eq_ok h
  obtain ⟨rfl, -⟩ := checked_eq_ok hpackedOffset
  obtain rfl := Except.ok.inj h
  have hshift : ∀ t : ℤ, t * ((n : ℤ) + 1 - 1) = n * t := fun t => by ring
  rw [translationSteps_iff]
  simp only [PositionRelationSet.Rel, AnyRel, mem_singleton, exists_eq_left,
    RelationPiece.Rel, AxisRelation.Rel, inRange_repeatRange harrayStart,
    inRange_repeatRange hpackedStart, hshift, mul_comm offset.1, mul_comm offset.2]
  tauto

theorem repeatedTranslation_complete {n : ℕ} {y z : Position}
    (hsteps : TranslationSteps offset guard (n + 1) y z)
    (h : repeatedTranslation offset guard (n + 1) ≠ .error .overflow) :
    ∃ translation, repeatedTranslation offset guard (n + 1) = .ok translation := by
  obtain ⟨-, ⟨hy₁, hl₁⟩, hy₂, hl₂⟩ := (translationSteps_iff _ _ _ _ _).1 hsteps
  have hshift : ∀ t : ℤ, (n : ℤ) * t = t * ((n : ℤ) + 1 - 1) := fun t => by ring
  rw [hshift] at hl₁ hl₂
  rw [repeatedTranslation] at h ⊢
  obtain ⟨hrepetitions, -⟩ := checked_of_ne h
  rw [hrepetitions] at h ⊢
  obtain ⟨harrayShift, -⟩ := checked_of_ne h
  rw [harrayShift] at h ⊢
  obtain ⟨hpackedShift, -⟩ := checked_of_ne h
  rw [hpackedShift] at h ⊢
  obtain ⟨arrayStart, harrayStart⟩ := repeatRange_complete hy₁ hl₁ (error_of_bind h)
  rw [harrayStart, ok_bind] at h ⊢
  obtain ⟨packedStart, hpackedStart⟩ := repeatRange_complete hy₂ hl₂ (error_of_bind h)
  rw [hpackedStart, ok_bind] at h ⊢
  obtain ⟨harrayOffset, -⟩ := checked_of_ne h
  rw [harrayOffset] at h ⊢
  obtain ⟨hpackedOffset, -⟩ := checked_of_ne h
  rw [hpackedOffset] at h ⊢
  exact ⟨_, rfl⟩

end Closing

section Search

variable {set : PositionRelationSet} {offset : ℤ × ℤ} {guard : FeasiblePosition}

/-- The set leads from a position to one from which some steps, all started inside of the guard,
lead back. -/
def ClosesWith (set : PositionRelationSet) (offset : ℤ × ℤ) (guard : FeasiblePosition) (n : ℕ) :
    Prop :=
  ∃ x y, set.Rel x y ∧ TranslationSteps offset guard n y x

/-- No checked operation overflows. -/
def WithinIsize (set : PositionRelationSet) (offset : ℤ × ℤ) (guard : FeasiblePosition) : Prop :=
  ∀ p ∈ set.pieces, repetitionCount p offset guard ≠ .error .overflow ∧
    ∀ count, repetitionCount p offset guard = .ok count →
      repeatedTranslation offset guard count ≠ .error .overflow

theorem spend_of_not_exhausted {work : ℕ}
    (h : (b.spend work).2.exhausted = false) : (b.spend work).1 = true ∧ b.exhausted = false := by
  rw [SearchBudget.spend] at h ⊢
  split
  · rename_i hexhausted
    rw [if_pos hexhausted] at h
    cases h
  · rename_i hexhausted
    simp only [Bool.or_eq_true, not_or, Bool.not_eq_true] at hexhausted
    exact ⟨rfl, hexhausted.1⟩

theorem normalized_of_not_exhausted {pieces : List RelationPiece}
    (h : (PositionRelationSet.normalized pieces b).2.exhausted = false) : b.exhausted = false := by
  rw [PositionRelationSet.normalized] at h
  split at h
  · exact h
  · dsimp only at h
    split at h
    · exact (spend_of_not_exhausted h).2
    · split at h
      · exact (spend_of_not_exhausted (spend_of_not_exhausted h).2).2
      · exact (spend_of_not_exhausted (spend_of_not_exhausted h).2).2

theorem closesAfterTranslationCount_sound {n : ℕ}
    (h : (set.closesAfterTranslationCount offset guard (n + 1) budget).1 = true) :
    ClosesWith set offset guard (n + 1) := by
  rw [closesAfterTranslationCount] at h
  split at h
  · cases h
  · rename_i translation htranslation
    dsimp only at h
    split at h
    · cases h
    · obtain ⟨x, hx⟩ := (intersectsIdentity_iff _).1 h
      obtain ⟨y, hxy, hyx⟩ := (rel_andThen _ _ _ _ _).1 hx
      exact ⟨x, y, hxy, (rel_repeatedTranslation htranslation y x).1 hyx⟩

theorem closesAfterTranslationCount_complete {n : ℕ} (hcloses : ClosesWith set offset guard (n + 1))
    (hrange : repeatedTranslation offset guard (n + 1) ≠ .error .overflow)
    (h : (set.closesAfterTranslationCount offset guard (n + 1) budget).2.exhausted = false) :
    (set.closesAfterTranslationCount offset guard (n + 1) budget).1 = true := by
  obtain ⟨x, y, hxy, hsteps⟩ := hcloses
  obtain ⟨translation, htranslation⟩ := repeatedTranslation_complete hsteps hrange
  simp only [closesAfterTranslationCount, htranslation] at h ⊢
  split
  · rename_i hpaid
    rw [if_pos hpaid] at h
    rw [(spend_of_not_exhausted h).1] at hpaid
    cases hpaid
  · exact (intersectsIdentity_iff _).2
      ⟨x, (rel_andThen _ _ _ _ _).2 ⟨y, hxy, (rel_repeatedTranslation htranslation y x).2 hsteps⟩⟩

theorem closesAfterTranslationCount_not_exhausted
    (h : (set.closesAfterTranslationCount offset guard count budget).2.exhausted = false) :
    budget.exhausted = false := by
  rw [closesAfterTranslationCount] at h
  split at h
  · exact h
  · dsimp only at h
    split at h
    · exact (spend_of_not_exhausted h).2
    · exact (spend_of_not_exhausted (normalized_of_not_exhausted h)).2

theorem closesAnyOf_not_exhausted (h : (set.closesAnyOf offset pairs budget).2.exhausted = false) :
    budget.exhausted = false := by
  induction pairs generalizing budget with
  | nil => exact h
  | cons pair rest ih =>
    rw [closesAnyOf] at h
    dsimp only at h
    split at h
    · exact (spend_of_not_exhausted h).2
    split at h
    · exact (spend_of_not_exhausted (ih h)).2
    · split at h
      · exact (spend_of_not_exhausted (closesAfterTranslationCount_not_exhausted h)).2
      · exact (spend_of_not_exhausted (closesAfterTranslationCount_not_exhausted (ih h))).2

theorem closesAnyOf_sound (h : (set.closesAnyOf offset pairs budget).1 = true) :
    ∃ pair ∈ pairs, ∃ n : ℕ, 1 ≤ n ∧ ClosesWith set offset pair.2 n := by
  induction pairs generalizing budget with
  | nil => cases h
  | cons pair rest ih =>
    have hrest : (∃ pair ∈ rest, ∃ n : ℕ, 1 ≤ n ∧ ClosesWith set offset pair.2 n) →
        ∃ pair' ∈ pair :: rest, ∃ n : ℕ, 1 ≤ n ∧ ClosesWith set offset pair'.2 n :=
      fun ⟨pair', hmem, hcloses⟩ => ⟨pair', mem_cons_of_mem _ hmem, hcloses⟩
    rw [closesAnyOf] at h
    dsimp only at h
    split at h
    · cases h
    split at h
    · exact hrest (ih h)
    · rename_i count hcount
      split at h
      · rename_i hcloses
        have hpos := repetitionCount_pos hcount
        obtain ⟨n, rfl⟩ : ∃ n : ℕ, count = n + 1 := ⟨(count - 1).toNat, by omega⟩
        exact ⟨pair, mem_cons_self, n + 1, by omega, closesAfterTranslationCount_sound hcloses⟩
      · exact hrest (ih h)

theorem exists_repetitionCount {n : ℕ} (hset : p ∈ set.pieces)
    (hcloses : ∃ x y, p.Rel x y ∧ TranslationSteps offset guard (n + 1) y x)
    (h : repetitionCount p offset guard ≠ .error .overflow) :
    ∃ m : ℕ, repetitionCount p offset guard = .ok (m + 1) ∧
      ClosesWith set offset guard (m + 1) := by
  obtain ⟨harray, hpacked⟩ := (closes_iff_axes p offset guard n).1 hcloses
  obtain ⟨count, hcount, harray', hpacked'⟩ :=
    repetitionCount_complete (by omega) harray hpacked h
  have hpos := repetitionCount_pos hcount
  obtain ⟨m, rfl⟩ : ∃ m : ℕ, count = m + 1 := ⟨(count - 1).toNat, by omega⟩
  obtain ⟨x, y, hxy, hsteps⟩ := (closes_iff_axes p offset guard m).2 ⟨harray', hpacked'⟩
  exact ⟨m, hcount, x, y, ⟨p, hset, hxy⟩, hsteps⟩

theorem closesAnyOf_complete {n : ℕ} (hset : p ∈ set.pieces) (hrange : WithinIsize set offset guard)
    (hcloses : ∃ x y, p.Rel x y ∧ TranslationSteps offset guard (n + 1) y x)
    (hpairs : (p, guard) ∈ pairs) (h : (set.closesAnyOf offset pairs budget).2.exhausted = false) :
    (set.closesAnyOf offset pairs budget).1 = true := by
  induction pairs generalizing budget with
  | nil => cases hpairs
  | cons pair rest ih =>
    rw [closesAnyOf] at h ⊢
    dsimp only at h ⊢
    split
    · rename_i hunpaid
      rw [if_pos hunpaid] at h
      rw [(spend_of_not_exhausted h).1] at hunpaid
      cases hunpaid
    rename_i hpaid
    rw [if_neg hpaid] at h
    rcases mem_cons.1 hpairs with rfl | hmem
    · obtain ⟨m, hcount, hclosesSet⟩ := exists_repetitionCount hset hcloses (hrange p hset).1
      simp only [hcount] at h ⊢
      split
      · rfl
      · rename_i hnot
        rw [if_neg hnot] at h
        exact absurd (closesAfterTranslationCount_complete hclosesSet
          ((hrange p hset).2 _ hcount) (closesAnyOf_not_exhausted h)) hnot
    · split at h
      · exact ih hmem h
      · split
        · rfl
        · rename_i hnot
          rw [if_neg hnot] at h
          exact ih hmem h

/-- A search that succeeds has found steps, all of them started inside of one guard; and with one
guard it succeeds whenever there are such steps. -/
theorem closesAfterRepeatingTranslation_exact (set : PositionRelationSet) (offset : ℤ × ℤ)
    (budget : SearchBudget) :
    (∀ guards, (set.closesAfterRepeatingTranslation offset guards budget).1 = true →
      ∃ guard ∈ guards, ∃ n : ℕ, 1 ≤ n ∧ ClosesWith set offset guard n) ∧
    ∀ guard, WithinIsize set offset guard →
      (set.closesAfterRepeatingTranslation offset [guard] budget).2.exhausted = false →
      (∃ n : ℕ, 1 ≤ n ∧ ClosesWith set offset guard n) →
      (set.closesAfterRepeatingTranslation offset [guard] budget).1 = true := by
  constructor
  · intro guards h
    obtain ⟨pair, hpair, n, hn, hcloses⟩ := closesAnyOf_sound h
    obtain ⟨p, -, hmap⟩ := mem_flatMap.1 hpair
    obtain ⟨guard, hguard, rfl⟩ := mem_map.1 hmap
    exact ⟨guard, hguard, n, hn, hcloses⟩
  · rintro guard hrange h ⟨n, hn, x, y, ⟨p, hset, hxy⟩, hsteps⟩
    obtain ⟨n, rfl⟩ : ∃ m, n = m + 1 := ⟨n - 1, by omega⟩
    exact closesAnyOf_complete hset hrange ⟨x, y, hxy, hsteps⟩ (mem_flatMap.2 ⟨p, hset, by simp⟩) h

section Whole

/-- From position 0 the array axis is left at position 5, and led back in steps of one. -/
def leftAtFive : PositionRelationSet :=
  ⟨[⟨.unlinked (some ⟨0, 1, by decide⟩) (some ⟨5, 6, by decide⟩), .linked 0 none⟩]⟩

def oneToSix : FeasiblePosition := ⟨some ⟨1, 6, by decide⟩, none⟩

theorem closes_leftAtFive :
    (leftAtFive.closesAfterRepeatingTranslation (-1, 0) [oneToSix] ⟨10, false⟩).1 = true := by
  have hwithin : WithinIsize leftAtFive (-1, 0) oneToSix := by
    intro p hp
    obtain rfl := mem_singleton.1 hp
    have hcount : repetitionCount ⟨.unlinked (some ⟨0, 1, by decide⟩) (some ⟨5, 6, by decide⟩),
        .linked 0 none⟩ (-1, 0) oneToSix = .ok 5 := rfl
    rw [hcount]
    have hok : ∀ {α : Type} (a : α), (.ok a : Except Stop α) ≠ .error .overflow :=
      fun a h => by cases h
    refine ⟨hok 5, fun count h => ?_⟩
    obtain rfl := Except.ok.inj h
    exact hok _
  refine (closesAfterRepeatingTranslation_exact leftAtFive (-1, 0) ⟨10, false⟩).2 oneToSix
    hwithin rfl ⟨5, by decide, (0, 0), (5, 0), ⟨_, mem_singleton_self _, ?_⟩, ?_⟩
  · simp [RelationPiece.Rel, AxisRelation.Rel, Span.Has]
  · rw [translationSteps_iff]
    simp [oneToSix, Span.Has]

end Whole

end Search

end Veryl.Analyzer.CombLoopDetect
