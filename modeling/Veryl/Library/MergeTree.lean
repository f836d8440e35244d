import Mathlib

/-!
Binary trees over arrival times. A node arrives one step after the later of its
halves; merging the two earliest trees of a forest until one is left gives a tree
that arrives no later than any other over the same leaves.
-/

namespace Veryl.Library

open List

inductive MergeTree (α : Type*)
  | leaf (a : α)
  | node (l r : MergeTree α)

namespace MergeTree

variable {α β : Type*}

def leaves : MergeTree α → List α
  | leaf a => [a]
  | node l r => l.leaves ++ r.leaves

/-- The arrival of a tree over those of its leaves. -/
def level (w : α → ℕ) : MergeTree α → ℕ
  | leaf a => w a
  | node l r => max (l.level w) (r.level w) + 1

theorem level_congr {w w' : α → ℕ} : ∀ {t : MergeTree α}, (∀ a ∈ t.leaves, w a = w' a) →
    t.level w = t.level w'
  | leaf a, h => h a (mem_singleton_self a)
  | node l r, h => by
    rw [level, level, level_congr fun a ha => h a (mem_append_left _ ha),
      level_congr fun a ha => h a (mem_append_right _ ha)]

/-- The value of a tree over those of its leaves. -/
def fold (f : β → β → β) (g : α → β) : MergeTree α → β
  | leaf a => g a
  | node l r => f (l.fold f g) (r.fold f g)

section Fold

variable {f : β → β → β} {g : α → β} [Std.Associative f]

theorem foldr_leaves (t : MergeTree α) (b : β) : (t.leaves.map g).foldr f b = f (t.fold f g) b := by
  induction t generalizing b with
  | leaf a => rfl
  | node l r hl hr =>
    rw [leaves, map_append, foldr_append, hr, hl, fold]
    exact (Std.Associative.assoc _ _ _).symm

theorem fold_perm [Std.Commutative f] {e : β} (he : ∀ b, f b e = b) {s t : MergeTree α}
    (h : s.leaves.Perm t.leaves) : s.fold f g = t.fold f g := by
  have hfold : ∀ t : MergeTree α, (t.leaves.map g).foldr f e = t.fold f g := fun t =>
    (foldr_leaves t e).trans (he _)
  rw [← hfold s, ← hfold t]
  exact (h.map g).foldr_eq e

end Fold

section Weights

variable {w : α → ℕ} {L : ℕ}

/-- The weight of a leaf doubles with every step of its arrival. -/
def weight (w : α → ℕ) (ts : List (MergeTree α)) : ℕ := (ts.map fun t => 2 ^ t.level w).sum

theorem weight_leaves_le (t : MergeTree α) : weight w (t.leaves.map leaf) ≤ 2 ^ t.level w := by
  induction t with
  | leaf a => exact Nat.le_of_eq (by simp [weight, leaves, level])
  | node l r hl hr =>
    have hsum : weight w ((node l r).leaves.map leaf) =
        weight w (l.leaves.map leaf) + weight w (r.leaves.map leaf) := by
      rw [weight, leaves, map_append, map_append, sum_append]
      rfl
    have hleft : 2 ^ l.level w ≤ 2 ^ max (l.level w) (r.level w) :=
      Nat.pow_le_pow_right Nat.two_pos (Nat.le_max_left _ _)
    have hright : 2 ^ r.level w ≤ 2 ^ max (l.level w) (r.level w) :=
      Nat.pow_le_pow_right Nat.two_pos (Nat.le_max_right _ _)
    rw [hsum, level, Nat.pow_succ]
    omega

variable {ts : List (MergeTree α)}

variable {us : List (MergeTree α)}

theorem weight_perm (h : ts.Perm us) : weight w ts = weight w us :=
  (h.map _).sum_eq

theorem dvd_weight {k : ℕ} (h : ∀ t ∈ ts, k ≤ t.level w) : 2 ^ k ∣ weight w ts := by
  refine dvd_sum fun x hx => ?_
  obtain ⟨t, ht, rfl⟩ := mem_map.1 hx
  exact pow_dvd_pow 2 (h t ht)

theorem weight_merge_le {a b : MergeTree α}
    (hab : a.level w ≤ b.level w) (hrest : ∀ t ∈ ts, b.level w ≤ t.level w)
    (h : weight w (a :: b :: ts) ≤ 2 ^ L) : weight w (node a b :: ts) ≤ 2 ^ L := by
  have hold : weight w (a :: b :: ts) = 2 ^ a.level w + (2 ^ b.level w + weight w ts) := rfl
  have hnew : weight w (node a b :: ts) = 2 ^ (b.level w + 1) + weight w ts := by
    show 2 ^ (node a b).level w + weight w ts = _
    rw [level, Nat.max_eq_right hab]
  have hpos : 0 < 2 ^ a.level w := Nat.two_pow_pos _
  -- everything but the earliest tree is a multiple of the second
  obtain ⟨q, hq⟩ : 2 ^ b.level w ∣ weight w ts := dvd_weight hrest
  have hle : b.level w ≤ L := by
    refine (Nat.pow_le_pow_iff_right Nat.one_lt_two).1 ?_
    omega
  obtain ⟨k, hk⟩ : 2 ^ b.level w ∣ 2 ^ L := pow_dvd_pow 2 hle
  rw [hnew, hq, hk, Nat.pow_succ]
  generalize 2 ^ b.level w = x at *
  have hlt : x * (1 + q) < x * k := by
    rw [Nat.mul_add, Nat.mul_one]
    omega
  have hstep : 1 + q + 1 ≤ k := Nat.lt_of_mul_lt_mul_left hlt
  calc x * 2 + x * q = x * (1 + q + 1) := by ring
    _ ≤ x * k := Nat.mul_le_mul_left x hstep

end Weights

/-- The tree left of a forest when its two earliest trees are merged again and
again. -/
inductive Greedy (w : α → ℕ) : List (MergeTree α) → MergeTree α → Prop
  | one (t : MergeTree α) : Greedy w [t] t
  | merge {a b t : MergeTree α} {ts us : List (MergeTree α)} (perm : us.Perm (a :: b :: ts))
      (le : a.level w ≤ b.level w) (least : ∀ c ∈ ts, b.level w ≤ c.level w)
      (rest : Greedy w (node a b :: ts) t) : Greedy w us t

section Greedy

variable {w : α → ℕ} {ts : List (MergeTree α)} {t : MergeTree α}

theorem Greedy.leaves_perm (h : Greedy w ts t) : t.leaves.Perm (ts.flatMap leaves) := by
  induction h with
  | one t => exact List.Perm.of_eq (flatMap_singleton leaves t).symm
  | merge perm _ _ _ ih =>
    refine ih.trans (List.Perm.trans (List.Perm.of_eq ?_) (perm.symm.flatMap_right leaves))
    simp [leaves]

theorem Greedy.level_le (h : Greedy w ts t) {L : ℕ} (hL : weight w ts ≤ 2 ^ L) : t.level w ≤ L := by
  induction h with
  | one t =>
    refine (Nat.pow_le_pow_iff_right Nat.one_lt_two).1 (Nat.le_trans ?_ hL)
    exact Nat.le_of_eq (Nat.add_zero _).symm
  | merge perm le least _ ih => exact ih (weight_merge_le le least (weight_perm perm ▸ hL))

theorem Greedy.of_perm (h : Greedy w ts t) (hperm : us.Perm ts) : Greedy w us t := by
  cases h with
  | one => exact perm_singleton.1 hperm ▸ Greedy.one t
  | merge perm le least rest => exact Greedy.merge (hperm.trans perm) le least rest

theorem Greedy.optimal {ns : List α} (h : Greedy w (ns.map leaf) t) {s : MergeTree α}
    (hs : s.leaves.Perm ns) : t.level w ≤ s.level w :=
  h.level_le ((weight_perm (hs.map leaf)).symm.trans_le (weight_leaves_le s))

end Greedy

end MergeTree

end Veryl.Library
