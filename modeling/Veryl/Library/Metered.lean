import Mathlib

/-!
Computations that pay for their work from a budget and stop when it does not suffice.
-/

namespace Veryl.Library

open List Option

/-- A budget from which work is taken; taking in parts is taking the whole. -/
class Purse (B : Type) where
  take : ℕ → B → Option B
  take_take : ∀ {m n : ℕ} (b : B), 0 < m → 0 < n → (take m b).bind (take n) = take (m + n) b

/-- The plain budget. -/
instance : Purse ℕ where
  take n b := if n ≤ b then some (b - n) else none
  take_take {m n} b hm hn := by
    by_cases h : m ≤ b
    · by_cases h' : n ≤ b - m
      · rw [if_pos h, bind_some, if_pos h', if_pos (by omega), Nat.sub_sub]
      · rw [if_pos h, bind_some, if_neg h', if_neg (by omega)]
    · rw [if_neg h, if_neg (by omega)]
      rfl

/-- A computation with a budget; it has no result when the budget is exhausted. -/
abbrev Metered (B : Type) := StateT B Option

variable {B : Type} [Purse B] {α β : Type}

def pay (n : ℕ) : Metered B Unit := fun b => (Purse.take n b).map fun b => ((), b)

/-- The computation pays `n` and returns `a`, whatever the budget. -/
def Costs (m : Metered B α) (a : α) (n : ℕ) : Prop :=
  m = if n = 0 then pure a else do pay n; pure a

/-- What the computation returns is as stated, and enough budget makes it return. -/
def Returns (m : Metered B α) (P : α → Prop) : Prop := ∃ a n, Costs m a n ∧ P a

theorem pay_pay {m n : ℕ} (hm : 0 < m) (hn : 0 < n) :
    (do pay m; pay n : Metered B Unit) = pay (m + n) := by
  funext b
  change ((Purse.take m b).map fun b => ((), b)).bind (fun r => pay n r.2) = pay (m + n) b
  rw [pay, ← Purse.take_take b hm hn]
  cases Purse.take m b <;> rfl

variable {f : α → Metered B β}

variable {a : α}

theorem Costs.bind {m : Metered B α} {c : β} {n k : ℕ}
    (h : Costs m a n) (h' : Costs (f a) c k) : Costs (m >>= f) c (n + k) := by
  unfold Costs at h h' ⊢
  subst h
  by_cases hn : n = 0
  · simp [hn, h']
  · by_cases hk : k = 0
    · simp [hn, hk, h']
    · have hpay := pay_pay (B := B) (Nat.pos_of_ne_zero hn) (Nat.pos_of_ne_zero hk)
      simp [hn, hk, h', ← hpay]

namespace Returns

variable {m : Metered B α} {P : α → Prop}

theorem pure (h : P a) : Returns (Pure.pure a : Metered B α) P :=
  ⟨a, 0, rfl, h⟩

variable {Q : α → Prop}

theorem mono (h : Returns m P) (hPQ : ∀ a, P a → Q a) : Returns m Q := by
  obtain ⟨a, n, hm, ha⟩ := h
  exact ⟨a, n, hm, hPQ a ha⟩

theorem bind {Q : β → Prop} (h : Returns m P)
    (hf : ∀ a, P a → Returns (f a) Q) : Returns (m >>= f) Q := by
  obtain ⟨a, n, hm, ha⟩ := h
  obtain ⟨c, k, hc, hQ⟩ := hf a ha
  exact ⟨c, n + k, hm.bind hc, hQ⟩

theorem pay {n : ℕ} (hn : 0 < n) : Returns (pay n : Metered B Unit) fun _ => True :=
  ⟨(), n, by simp [Costs, Nat.ne_of_gt hn], trivial⟩

theorem payNat (n : ℕ) : Returns (Library.pay n : Metered ℕ Unit) fun _ => True := by
  by_cases hn : n = 0
  · subst hn
    exact ⟨(), 0, rfl, trivial⟩
  · exact pay (Nat.pos_of_ne_zero hn)

variable {l : List α}

theorem anyM {f : α → Metered B Bool} (h : ∀ x ∈ l, Returns (f x) fun r => r = true → Q x) :
    Returns (l.anyM f) fun r => r = true → ∃ x ∈ l, Q x := by
  induction l with
  | nil => exact pure (by simp)
  | cons x l ih =>
    refine bind (h x (by simp)) fun r hr => ?_
    cases r with
    | true => exact pure fun _ => ⟨x, by simp, hr rfl⟩
    | false =>
      refine (ih fun y hy => h y (by simp [hy])).mono fun r hr hr' => ?_
      obtain ⟨y, hy, hq⟩ := hr hr'
      exact ⟨y, by simp [hy], hq⟩

theorem foldlM {f : β → α → Metered B β} {Q : List α → β → Prop} {b : β} (hb : Q [] b)
    (h : ∀ (done : List α) x rest b, l = done ++ x :: rest → Q done b →
      Returns (f b x) (Q (done ++ [x]))) :
    Returns (l.foldlM f b) (Q l) := by
  have hfold : ∀ (rest done : List α) (b : β), l = done ++ rest → Q done b →
      Returns (rest.foldlM f b) (Q l) := by
    intro rest
    induction rest with
    | nil =>
      rintro done b rfl hb
      rw [append_nil]
      exact pure hb
    | cons x rest ih =>
      intro done b hl hb
      exact bind (h done x rest b hl hb) fun b' hb' => ih (done ++ [x]) b' (by simpa using hl) hb'
  exact hfold l [] b rfl hb

theorem post (h : Returns m P) {b b' : B} (hm : m b = some (a, b')) : P a := by
  obtain ⟨a', n, hcost, ha⟩ := h
  rw [hcost] at hm
  split at hm
  · cases hm
    exact ha
  · obtain ⟨r, -, hr⟩ := bind_eq_some_iff.1 (show (Library.pay n b).bind
      (fun r => some (a', r.2)) = some (a, b') from hm)
    cases hr
    exact ha

theorem enough (h : Returns m P) :
    ∃ n, 0 < n ∧ ∀ b : B, (Purse.take n b).isSome → (m b).isSome := by
  obtain ⟨a, n, rfl, -⟩ := h
  by_cases hn : n = 0
  · refine ⟨1, Nat.one_pos, fun b _ => ?_⟩
    simp only [if_pos hn]
    rfl
  · refine ⟨n, Nat.pos_of_ne_zero hn, fun b hb => ?_⟩
    simp only [if_neg hn]
    obtain ⟨b', hb'⟩ := isSome_iff_exists.1 hb
    change ((Library.pay n b).bind fun r => some (a, r.2)).isSome
    simp [Library.pay, hb']

theorem same {m m' : Metered ℕ α} {P : α → Prop} (h : Returns m (· = a)) (h' : Returns m' P)
    (hle : ∀ b r, m b = some r → m' b = some r) : Returns m' (· = a) := by
  obtain ⟨a', n', hm', -⟩ := h'
  refine ⟨a', n', hm', ?_⟩
  obtain ⟨n, -, hn⟩ := h.enough
  obtain ⟨⟨x, rest⟩, hx⟩ := isSome_iff_exists.1 (hn n (by simp [Purse.take]))
  have hsame : Returns m' (· = a') := ⟨a', n', hm', rfl⟩
  rw [← hsame.post (hle n _ hx), h.post hx]

end Returns

/-- What the computation returns, if it returns, is as stated. -/
def Ensures (m : Metered B α) (P : α → Prop) : Prop :=
  ∀ (b : B) (a : α) (b' : B), m b = some (a, b') → P a

namespace Ensures

variable {m : Metered B α} {P : α → Prop}

omit [Purse B]

theorem pure (h : P a) : Ensures (Pure.pure a : Metered B α) P := by
  intro b a' b' hm
  cases hm
  exact h

theorem none : Ensures (fun _ => Option.none : Metered B α) P := by
  intro b a b' hm
  cases hm

theorem mono (h : Ensures m P) (hPQ : ∀ a, P a → Q a) : Ensures m Q :=
  fun b a b' hm => hPQ a (h b a b' hm)

theorem bind {Q : β → Prop} (h : Ensures m P)
    (hf : ∀ a, P a → Ensures (f a) Q) : Ensures (m >>= f) Q := by
  intro b c b' hm
  obtain ⟨r, hr, hc⟩ := bind_eq_some_iff.1 (show (m b).bind (fun r => f r.1 r.2) =
    some (c, b') from hm)
  exact hf r.1 (h b r.1 r.2 hr) r.2 c b' hc

theorem foldlM {f : β → α → Metered B β} {Q : List α → β → Prop} {b : β} (hb : Q [] b)
    (h : ∀ (done : List α) x rest b, l = done ++ x :: rest → Q done b →
      Ensures (f b x) (Q (done ++ [x]))) :
    Ensures (l.foldlM f b) (Q l) := by
  have hfold : ∀ (rest done : List α) (b : β), l = done ++ rest → Q done b →
      Ensures (rest.foldlM f b) (Q l) := by
    intro rest
    induction rest with
    | nil =>
      rintro done b rfl hb
      rw [append_nil]
      exact pure hb
    | cons x rest ih =>
      intro done b hl hb
      exact bind (h done x rest b hl hb) fun b' hb' => ih (done ++ [x]) b' (by simpa using hl) hb'
  exact hfold l [] b rfl hb

theorem of_returns [Purse B] (h : Returns m P) : Ensures m P := fun _ _ _ hm => h.post hm

theorem trivial : Ensures m fun _ => True := fun _ _ _ _ => True.intro

end Ensures
end Veryl.Library
