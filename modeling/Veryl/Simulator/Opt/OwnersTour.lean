import Veryl.Simulator.Opt.Owners

/-!
The intervals of a tour nest along the instance tree, and those of siblings lie apart.
-/

namespace Veryl.Simulator.Opt.Tour

open List Function Relation

variable (parent : List (Option ℕ))

def Child (m p : ℕ) : Prop := 0 < m ∧ m < parent.length ∧ parent.getD m none = some p

/-- Every node but the root has a parent of a smaller number. -/
def Numbered : Prop := ∀ m, 0 < m → m < parent.length → ∃ p < m, Child parent m p

/-- `a` is `m` or an ancestor of it. -/
abbrev Below : ℕ → ℕ → Prop := ReflTransGen (Child parent)

/-- The sizes once the nodes from `m` on have been added to their parents. -/
def sizesFrom (m : ℕ) : ℕ → ℕ :=
  ((range parent.length).drop m).foldr (fun m size =>
      match parent.getD m none with
      | some p => update size p (size p + size m)
      | none => size)
    fun _ => 1

/-- The state of the numbering loop in front of a node. -/
def numbered (m : ℕ) : (ℕ → ℕ) × (ℕ → ℕ) :=
  (range m).foldl (fun (t : (ℕ → ℕ) × (ℕ → ℕ)) m =>
      let t := match (if m = 0 then none else parent.getD m none) with
        | some p => (update t.1 m (t.2 p), update t.2 p (t.2 p + sizes parent m))
        | none => t
      (t.1, update t.2 m (t.1 m + 1)))
    (fun _ => 0, fun _ => 0)

variable {parent} {m a p q c x : ℕ}

theorem sizes_eq : sizes parent = sizesFrom parent 1 := by
  rw [sizes, foldl_reverse]
  rfl

theorem Child.unique (hp : Child parent m p) (hq : Child parent m q) : p = q :=
  Option.some.inj (hp.2.2.symm.trans hq.2.2)

theorem sizesFrom_child (hp : Child parent m p) : sizesFrom parent m =
    update (sizesFrom parent (m + 1)) p
      (sizesFrom parent (m + 1) p + sizesFrom parent (m + 1) m) := by
  rw [sizesFrom, drop_eq_getElem_cons (by simpa using hp.2.1), getElem_range, foldr_cons, hp.2.2]
  rfl

/-- The nodes before `m` have their intervals; each keeps room for its later children. -/
structure Numbering (parent : List (Option ℕ)) (m : ℕ) (tin next : ℕ → ℕ) : Prop where
  room : ∀ x < m, next x + sizesFrom parent m x = tin x + sizes parent x + 1
  start : ∀ x < m, tin x < next x
  child : ∀ c < m, ∀ p, Child parent c p → tin p < tin c ∧ tin c + sizes parent c ≤ next p
  sibling : ∀ c < m, ∀ b < c, ∀ p, Child parent c p → Child parent b p →
    tin b + sizes parent b ≤ tin c

/-- What the finished numbers say of the tree. -/
structure Nested (parent : List (Option ℕ)) (t : Tour) : Prop where
  pos : ∀ x < parent.length, t.tin x < t.tout x
  child : ∀ {c p}, Child parent c p → t.tin p < t.tin c ∧ t.tout c ≤ t.tout p
  sibling : ∀ {c b p}, b < c → Child parent c p → Child parent b p → t.tout b ≤ t.tin c

section

variable (h : Numbered parent)

include h

theorem Numbered.lt (hp : Child parent m p) : p < m := by
  obtain ⟨q, hlt, hq⟩ := h m hp.1 hp.2.1
  exact hp.unique hq ▸ hlt

theorem Numbered.le (hb : Below parent m a) : a ≤ m := by
  induction hb with
  | refl => exact le_rfl
  | tail _ hp ih => exact (h.lt hp).le.trans ih

/-- A size is complete once the nodes above have been added. -/
theorem sizes_apply (hm : m < parent.length) : sizes parent m = sizesFrom parent (m + 1) m := by
  have hdown : ∀ j ≤ m, sizesFrom parent 1 m = sizesFrom parent (j + 1) m := by
    intro j
    induction j with
    | zero => exact fun _ => rfl
    | succ j ih =>
      intro hj
      obtain ⟨p, hlt, hp⟩ := h (j + 1) j.succ_pos (by omega)
      rw [ih (by omega), sizesFrom_child hp, update_of_ne (by omega)]
  rw [sizes_eq]
  exact hdown m le_rfl

theorem numbering : ∀ m ≤ parent.length,
    Numbering parent m (numbered parent m).1 (numbered parent m).2 := by
  intro m
  induction m with
  | zero => exact fun _ => ⟨by simp, by simp, by simp, by simp⟩
  | succ m ih =>
    intro hm
    have old := ih (by omega)
    rw [numbered, range_succ, foldl_append, foldl_cons, foldl_nil, ← numbered]
    generalize numbered parent m = t at old ⊢
    obtain ⟨tin, next⟩ := t
    rcases m.eq_zero_or_pos with rfl | hpos
    · refine ⟨fun x hx => ?_, fun x hx => ?_, fun c hc p hp => ?_, fun c hc b hb => by omega⟩
      · obtain rfl := Nat.lt_one_iff.1 hx
        simp [sizes_eq, add_right_comm]
      · simp [Nat.lt_one_iff.1 hx]
      · exact absurd hp.1 (by omega)
    · obtain ⟨p, hlt, hp⟩ := h m hpos hm
      have hsize := sizes_apply h hm
      have hfrom := sizesFrom_child hp
      simp only [if_neg hpos.ne', hp.2.2, update_self]
      -- Only the parent's next free number changes, and the new node gets its own.
      have htin : ∀ x < m, update tin m (next p) x = tin x := fun x hx => update_of_ne hx.ne _ _
      have hnew := update_self m (next p + 1) (update next p (next p + sizes parent m))
      have hnext : ∀ x < m, update (update next p (next p + sizes parent m)) m (next p + 1) x =
          if x = p then next p + sizes parent m else next x := fun x hx => by
        rw [update_of_ne hx.ne, update_apply]
      generalize update (update next p _) m _ = next' at hnew hnext ⊢
      have hmono : ∀ x < m, next x ≤ next' x := fun x hx => by
        rw [hnext x hx]
        split <;> simp_all
      refine ⟨fun x hx => ?_, fun x hx => ?_, fun c hc q hq => ?_, fun c hc b hb q hq hb' => ?_⟩
      · rcases Nat.lt_succ_iff_lt_or_eq.1 hx with hx | rfl
        · have := old.room x hx
          rw [hfrom, update_apply] at this
          rw [htin x hx, hnext x hx]
          split
          · simp_all
            omega
          · simp_all
        · rw [update_self, hnew, ← hsize]
          omega
      · rcases Nat.lt_succ_iff_lt_or_eq.1 hx with hx | rfl
        · exact (htin x hx).trans_lt ((old.start x hx).trans_le (hmono x hx))
        · simp [hnew]
      · have hqc := h.lt hq
        rcases Nat.lt_succ_iff_lt_or_eq.1 hc with hc | rfl
        · obtain ⟨hlo, hhi⟩ := old.child c hc q hq
          rw [htin c hc, htin q (by omega)]
          exact ⟨hlo, hhi.trans (hmono q (by omega))⟩
        · obtain rfl := hp.unique hq
          rw [update_self, htin p hlt, hnext p hlt, if_pos rfl]
          exact ⟨old.start p hlt, le_rfl⟩
      · rcases Nat.lt_succ_iff_lt_or_eq.1 hc with hc | rfl
        · rw [htin c hc, htin b (by omega)]
          exact old.sibling c hc b hb q hq hb'
        · obtain rfl := hp.unique hq
          rw [update_self, htin b hb]
          exact (old.child b hb p hb').2

theorem nested_of : Nested parent (of parent) := by
  have hn := numbering h _ le_rfl
  have hnext : ∀ x < parent.length,
      (numbered parent parent.length).2 x = (of parent).tout x := fun x hx => by
    have := hn.room x hx
    rw [sizesFrom, drop_eq_nil_of_le (by simp), foldr_nil] at this
    exact Nat.succ_injective this
  refine ⟨fun x hx => (hn.start x hx).trans_eq (hnext x hx), fun {c p} hp => ?_,
    fun hb hp hb' => hn.sibling _ hp.2.1 _ hb _ hp hb'⟩
  obtain ⟨hlo, hhi⟩ := hn.child c hp.2.1 p hp
  exact ⟨hlo, hhi.trans_eq (hnext p ((h.lt hp).trans hp.2.1))⟩

end

variable {t : Tour}

theorem Nested.of_below (ht : Nested parent t) (hb : Below parent m a) :
    t.tin a ≤ t.tin m ∧ t.tout m ≤ t.tout a := by
  induction hb with
  | refl => exact ⟨le_rfl, le_rfl⟩
  | tail _ hp ih =>
    obtain ⟨hlo, hhi⟩ := ht.child hp
    exact ⟨hlo.le.trans ih.1, ih.2.trans hhi⟩

/-- Below `p`, what is numbered before a child of `p` ends before that child starts. -/
theorem Nested.apart (h : Numbered parent) (ht : Nested parent t) (hc : Child parent c p)
    (hb : Below parent x p) (hxc : x < c) (hne : t.tin p < t.tin x) : t.tout x ≤ t.tin c := by
  obtain rfl | ⟨b, hxb, hbp⟩ := hb.cases_tail
  · exact absurd hne (lt_irrefl _)
  · exact (ht.of_below hxb).2.trans (ht.sibling ((h.le hxb).trans_lt hxc) hc hbp)

theorem Nested.below (h : Numbered parent) (ht : Nested parent t) : ∀ s m a, m + a = s →
    m < parent.length → a < parent.length → t.tin a ≤ t.tin m → t.tin m < t.tout a →
    Below parent m a := by
  intro s
  induction s using Nat.strong_induction_on with
  | _ s ih =>
    intro m a hs hm ha hlo hhi
    have hpos := ht.pos m hm
    rcases lt_trichotomy m a with hlt | rfl | hlt
    · -- `m` would lie beside `a`, below its parent
      obtain ⟨q, hqa, hq⟩ := h a (by omega) ha
      obtain ⟨hlo', hhi'⟩ := ht.child hq
      have hb := ih (m + q) (by omega) m q rfl hm (by omega) (by omega) (by omega)
      have := ht.apart h hq hb hlt (by omega)
      omega
    · exact .refl
    · obtain ⟨p, hpm, hp⟩ := h m (by omega) hm
      obtain ⟨hlo', hhi'⟩ := ht.child hp
      rcases le_or_gt (t.tin a) (t.tin p) with hap | hap
      · exact .head hp (ih (p + a) (by omega) p a rfl (by omega) ha hap (by omega))
      · -- `a` would end before `m` starts
        have hb := ih (a + p) (by omega) a p rfl ha (by omega) hap.le (by omega)
        have := ht.apart h hp hb hlt hap
        omega

theorem isDesc_eq_true_iff (h : Numbered parent) (hm : m < parent.length)
    (ha : a < parent.length) : (of parent).isDesc m a = true ↔ Below parent m a := by
  have ht := nested_of h
  simp only [isDesc, Bool.and_eq_true, decide_eq_true_eq]
  constructor
  · exact fun hi => ht.below h _ m a rfl hm ha hi.1 hi.2
  · exact fun hb => ⟨(ht.of_below hb).1, (ht.pos m hm).trans_le (ht.of_below hb).2⟩

end Veryl.Simulator.Opt.Tour
