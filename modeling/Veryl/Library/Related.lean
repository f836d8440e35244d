import Veryl.Library.Computation

/-!
Runs that stay related while the relation changes from step to step: what two runs emit is
compared along with the states they leave.
-/

namespace Veryl.Library.Computation

open List Option

universe u

variable {S T O α β γ : Type u} {R R₁ R₂ : S → T → Prop} {Q Q₁ Q₂ : List O → List O → Prop}
  {k : α → Computation S O β} {g : α → Computation T O β} {f : α → Computation S O β}
  {y : Computation T O α} {x : Computation S O α}

/-- From states that `R` relates, both computations end or neither does; when they end they
give the same value, outputs that `Q` relates and states that `R'` relates. -/
def Relates (R R' : S → T → Prop) (Q : List O → List O → Prop) (x : Computation S O α)
    (y : Computation T O α) : Prop :=
  ∀ ⦃s t⦄, R s t →
    Option.Rel (fun a b => a.value = b.value ∧ Q a.out b.out ∧ R' a.state b.state) (x s) (y t)

theorem Relates.pure (hQ : Q [] []) (a : α) :
    Relates R R Q (Pure.pure a : Computation S O α) (Pure.pure a : Computation T O α) :=
  fun _ _ h => .some ⟨rfl, hQ, h⟩

theorem Relates.bind_of (V : α → Prop)
    (hV : ∀ s a, x s = some a → V a.value) (hx : Relates R R₁ Q₁ x y)
    (hf : ∀ a, V a → Relates R₁ R₂ Q₂ (f a) (g a))
    (hQ : ∀ {o o' p p'}, Q₁ o o' → Q₂ p p' → Q (o ++ p) (o' ++ p')) :
    Relates R R₂ Q (x >>= f) (y >>= g) := by
  intro s t hR
  rw [bind_apply, bind_apply]
  have hxy := hx hR
  have hvalue := hV s
  generalize x s = xs at hxy hvalue ⊢
  generalize y t = yt at hxy ⊢
  cases hxy with
  | none => exact .none
  | @some a b hab =>
    obtain ⟨hv, ho, hS⟩ := hab
    have hfg := hf a.value (hvalue a rfl) hS
    simp only [bind_some, ← hv]
    generalize f a.value a.state = fs at hfg ⊢
    generalize g a.value b.state = gt at hfg ⊢
    cases hfg with
    | none => exact .none
    | some h => exact .some ⟨h.1, hQ ho h.2.1, h.2.2⟩

theorem Relates.bind (hx : Relates R R₁ Q₁ x y) (hf : ∀ a, Relates R₁ R₂ Q₂ (f a) (g a))
    (hQ : ∀ {o o' p p'}, Q₁ o o' → Q₂ p p' → Q (o ++ p) (o' ++ p')) :
    Relates R R₂ Q (x >>= f) (y >>= g) :=
  hx.bind_of (fun _ => True) (fun _ _ _ => trivial) (fun a _ => hf a) hQ

theorem Relates.read_bind {f : S → α} {g : T → α}
    {l : α → Computation T O β} (h : ∀ s t, R s t → Relates R R₁ Q (k (f s)) (l (g t))) :
    Relates R R₁ Q (read f >>= k) (read g >>= l) := by
  intro s t hR
  have hrest := h s t hR hR
  rw [bind_apply, bind_apply]
  simp only [read, bind_some, nil_append]
  generalize k (f s) s = ks at hrest ⊢
  generalize l (g t) t = lt at hrest ⊢
  cases hrest with
  | none => exact .none
  | some h => exact .some h

theorem Relates.read_left {f : S → α} {y : Computation T O β}
    (h : ∀ s, Relates R R₁ Q (k (f s)) y) : Relates R R₁ Q (read f >>= k) y := by
  intro s t hR
  have hrest := h s hR
  rw [bind_apply]
  simp only [read, bind_some, nil_append]
  generalize k (f s) s = ks at hrest ⊢
  generalize y t = yt at hrest ⊢
  cases hrest with
  | none => exact .none
  | some h => exact .some h

theorem pure_bind (a : α) (f : α → Computation S O β) : (Pure.pure a >>= f) = f a := by
  funext s
  rw [bind_apply]
  simp only [pure_apply, bind_some, nil_append]
  cases f a s <;> rfl

end Veryl.Library.Computation
