import Mathlib

/-!
Computations over a state that produce output and may run forever, with rules
for three ways of reasoning about them: what one run guarantees, how two runs
from related states stay related, and when the order of a list of computations
does not matter.
-/

namespace Veryl.Library

open List Option

universe u

/-- What a computation that ends leaves behind. -/
structure Outcome (S O α : Type u) where
  value : α
  state : S
  out : List O

/-- A computation; `none` is a run that does not end. -/
def Computation (S O α : Type u) := S → Option (Outcome S O α)

namespace Computation

variable {S T O ι α β : Type u}

def ret (a : α) : Computation S O α := fun s => some ⟨a, s, []⟩

def andThen (x : Computation S O α) (f : α → Computation S O β) : Computation S O β := fun s =>
  (x s).bind fun a => (f a.value a.state).map fun b => { b with out := a.out ++ b.out }

instance : Monad (Computation S O) where
  pure := ret
  bind := andThen

def read (f : S → α) : Computation S O α := fun s => some ⟨f s, s, []⟩

def modify (f : S → S) : Computation S O PUnit := fun s => some ⟨⟨⟩, f s, []⟩

def emit (out : List O) : Computation S O PUnit := fun s => some ⟨⟨⟩, s, out⟩

/-- Runs `step` from `i` on until it yields no next counter, for `fuel` steps at
most. -/
def loop (step : ι → Computation S O (Option ι)) : ℕ → ι → Computation S O PUnit
  | 0, _ => fun _ => none
  | fuel + 1, i => step i >>= fun
    | none => pure ⟨⟩
    | some j => loop step fuel j

/-- Runs a list of computations in order. -/
def sequence : List (Computation S O PUnit) → Computation S O PUnit
  | [] => pure ⟨⟩
  | x :: xs => x >>= fun _ => sequence xs

@[simp] theorem pure_apply (a : α) (s : S) : (pure a : Computation S O α) s = some ⟨a, s, []⟩ := rfl

theorem bind_apply (x : Computation S O α) (f : α → Computation S O β) (s : S) : (x >>= f) s =
      (x s).bind fun a => (f a.value a.state).map fun b => { b with out := a.out ++ b.out } := rfl

variable {f : α → Computation S O β}

variable {x : Computation S O α}

theorem bind_eq_some {s : S} {o : Outcome S O β} :
    (x >>= f) s = some o ↔ ∃ a b, x s = some a ∧ f a.value a.state = some b ∧
      o = { b with out := a.out ++ b.out } := by
  simp only [bind_apply, bind_eq_some_iff, map_eq_some_iff]
  constructor
  · rintro ⟨a, ha, b, hb, rfl⟩
    exact ⟨a, b, ha, hb, rfl⟩
  · rintro ⟨a, b, ha, hb, rfl⟩
    exact ⟨a, ha, b, hb, rfl⟩

/-- A relation between computations that sequencing keeps. What a program's
steps satisfy its runs satisfy. -/
structure Congruence (Φ : ∀ {α : Type u}, Computation S O α → Computation T O α → Prop) :
    Prop where
  pure : ∀ {α} (a : α), Φ (pure a) (pure a)
  bind : ∀ {α β} {x : Computation S O α} {y : Computation T O α}
    {f : α → Computation S O β} {g : α → Computation T O β},
    Φ x y → (∀ a, Φ (f a) (g a)) → Φ (x >>= f) (y >>= g)
  diverge : ∀ {α}, Φ (fun _ => none : Computation S O α) (fun _ => none)

theorem Congruence.loop {Φ : ∀ {α : Type u}, Computation S O α → Computation T O α → Prop}
    (hΦ : Congruence Φ) {f : ι → Computation S O (Option ι)} {g : ι → Computation T O (Option ι)}
    (h : ∀ i, Φ (f i) (g i)) (fuel : ℕ) (i : ι) :
    Φ (Computation.loop f fuel i) (Computation.loop g fuel i) := by
  induction fuel generalizing i with
  | zero => exact hΦ.diverge
  | succ fuel ih =>
    refine hΦ.bind (h i) fun next => ?_
    cases next with
    | none => exact hΦ.pure _
    | some j => exact ih j

/-- Every run that ends relates the states at its ends by `P` and emits only
outputs in `Q`. -/
def Guarantees (P : S → S → Prop) (Q : O → Prop) (x : Computation S O α) : Prop :=
  ∀ ⦃s : S⦄ ⦃a : Outcome S O α⦄, x s = some a → P s a.state ∧ ∀ o ∈ a.out, Q o

section Guarantees

variable {P : S → S → Prop} {Q : O → Prop}

theorem Guarantees.pure [Std.Refl P] (a : α) :
    Guarantees P Q (Pure.pure a : Computation S O α) := by
  rintro s _ ⟨⟩
  exact ⟨Std.Refl.refl s, by simp⟩

theorem Guarantees.read [Std.Refl P] (f : S → α) :
    Guarantees P Q (Computation.read f : Computation S O α) := by
  rintro s _ ⟨⟩
  exact ⟨Std.Refl.refl s, by simp⟩

theorem Guarantees.emit [Std.Refl P] {out : List O} (h : ∀ o ∈ out, Q o) :
    Guarantees P Q (Computation.emit out : Computation S O PUnit) := by
  rintro s _ ⟨⟩
  exact ⟨Std.Refl.refl s, h⟩

theorem Guarantees.modify {f : S → S} (h : ∀ s, P s (f s)) :
    Guarantees P Q (Computation.modify f : Computation S O PUnit) := by
  rintro s _ ⟨⟩
  exact ⟨h s, by simp⟩

theorem Guarantees.bind [IsTrans S P]
    (hx : Guarantees P Q x) (hf : ∀ a, Guarantees P Q (f a)) : Guarantees P Q (x >>= f) := by
  intro s o ho
  obtain ⟨a, b, ha, hb, rfl⟩ := bind_eq_some.1 ho
  obtain ⟨hP, hQ⟩ := hx ha
  obtain ⟨hP', hQ'⟩ := hf _ hb
  refine ⟨IsTrans.trans _ _ _ hP hP', fun o ho => ?_⟩
  rcases mem_append.1 ho with ho | ho
  · exact hQ o ho
  · exact hQ' o ho

theorem Guarantees.congruence [Std.Refl P] [IsTrans S P] :
    Congruence fun {_} (x _ : Computation S O _) => Guarantees P Q x where
  pure a := Guarantees.pure a
  bind hx hf := hx.bind hf
  diverge := by intro _ s a ha; cases ha

end Guarantees

/-- From related states, both computations end or neither does; when they end
they give the same value and output and leave related states. -/
def Sim (R : S → T → Prop) (x : Computation S O α) (y : Computation T O α) : Prop :=
  ∀ ⦃s t⦄, R s t →
    Option.Rel (fun a b => a.value = b.value ∧ a.out = b.out ∧ R a.state b.state) (x s) (y t)

section Sim

variable {R : S → T → Prop}

theorem Sim.pure (a : α) :
    Sim R (Pure.pure a : Computation S O α) (Pure.pure a : Computation T O α) :=
  fun _ _ h => .some ⟨rfl, rfl, h⟩

theorem Sim.read {f : S → α} {g : T → α} (h : ∀ s t, R s t → f s = g t) :
    Sim R (Computation.read f : Computation S O α) (Computation.read g) :=
  fun s t hR => .some ⟨h s t hR, rfl, hR⟩

theorem Sim.modify {f : S → S} {g : T → T} (h : ∀ s t, R s t → R (f s) (g t)) :
    Sim R (Computation.modify f : Computation S O PUnit) (Computation.modify g) :=
  fun s t hR => .some ⟨rfl, rfl, h s t hR⟩

theorem Sim.emit (out : List O) :
    Sim R (Computation.emit out : Computation S O PUnit) (Computation.emit out) :=
  fun _ _ hR => .some ⟨rfl, rfl, hR⟩

theorem Sim.bind {y : Computation T O α} {g : α → Computation T O β}
    (hx : Sim R x y) (hf : ∀ a, Sim R (f a) (g a)) : Sim R (x >>= f) (y >>= g) := by
  intro s t hR
  rw [bind_apply, bind_apply]
  have hxy := hx hR
  generalize x s = xs at hxy ⊢
  generalize y t = yt at hxy ⊢
  cases hxy with
  | none => exact .none
  | @some a b hab =>
    obtain ⟨hv, ho, hS⟩ := hab
    have hfg := hf a.value hS
    simp only [bind_some, ← hv]
    generalize f a.value a.state = fs at hfg ⊢
    generalize g a.value b.state = gt at hfg ⊢
    cases hfg with
    | none => exact .none
    | some h => exact .some ⟨h.1, by simp [ho, h.2.1], h.2.2⟩

theorem Sim.skip {a : α} {y : Computation T O β}
    (hx : ∀ s t, R s t → ∃ s', x s = some ⟨a, s', []⟩ ∧ R s' t) (hf : Sim R (f a) y) :
    Sim R (x >>= f) y := by
  intro s t hR
  obtain ⟨s', hs, hR'⟩ := hx s t hR
  have h := hf hR'
  rw [bind_apply, hs]
  simp only [bind_some, nil_append]
  generalize f a s' = fs at h ⊢
  generalize y t = yt at h ⊢
  cases h with
  | none => exact .none
  | some h => exact .some h

theorem Sim.congruence : Congruence fun {_} (x : Computation S O _) (y : Computation T O _) =>
    Sim R x y where
  pure a := Sim.pure a
  bind hx hf := hx.bind hf
  diverge := fun _ => .none

end Sim

/-! ### Reordering

Outputs are told apart by channel: two runs are equivalent when every channel
shows the same outputs in the same order. -/

section Reorder

variable {C : Type*} (view : C → O → Bool)

def Equiv (x y : Computation S O α) : Prop :=
  ∀ s, Option.Rel (fun a b => a.value = b.value ∧ a.state = b.state ∧
      ∀ c, a.out.filter (view c) = b.out.filter (view c)) (x s) (y s)

variable {view}

theorem Equiv.refl (x : Computation S O α) : Equiv view x x := by
  intro s
  cases x s with
  | none => exact .none
  | some a => exact .some ⟨rfl, rfl, fun _ => rfl⟩

theorem Equiv.trans {y z : Computation S O α} (hxy : Equiv view x y) (hyz : Equiv view y z) :
    Equiv view x z := by
  intro s
  have h₁ := hxy s
  have h₂ := hyz s
  generalize x s = xs at h₁ ⊢
  generalize y s = ys at h₁ h₂
  generalize z s = zs at h₂ ⊢
  cases h₁ with
  | none => cases h₂ with | none => exact .none
  | some h => cases h₂ with
    | some h' =>
      exact .some ⟨h.1.trans h'.1, h.2.1.trans h'.2.1, fun c => (h.2.2 c).trans (h'.2.2 c)⟩

theorem Equiv.bind {y : Computation S O α} {g : α → Computation S O β}
    (hxy : Equiv view x y) (hfg : ∀ a, Equiv view (f a) (g a)) :
    Equiv view (x >>= f) (y >>= g) := by
  intro s
  rw [bind_apply, bind_apply]
  have h := hxy s
  generalize x s = xs at h ⊢
  generalize y s = ys at h ⊢
  cases h with
  | none => exact .none
  | @some a b hab =>
    obtain ⟨hv, hS, ho⟩ := hab
    have hfg := hfg a.value a.state
    simp only [bind_some, ← hv, ← hS]
    generalize f a.value a.state = fs at hfg ⊢
    generalize g a.value a.state = gs at hfg ⊢
    cases hfg with
    | none => exact .none
    | some h => exact .some ⟨h.1, h.2.1, fun c => by simp [ho, h.2.2]⟩

theorem bind_assoc (x : Computation S O α) (f : α → Computation S O β)
    {γ : Type u} (g : β → Computation S O γ) :
    (x >>= f) >>= g = x >>= fun a => f a >>= g := by
  funext s
  simp only [bind_apply]
  cases x s with
  | none => rfl
  | some a =>
    simp only [bind_some]
    cases f a.value a.state with
    | none => rfl
    | some b =>
      simp only [map_some, bind_some]
      cases g b.value b.state <;> simp [append_assoc]

/-- Two steps whose order nothing tells. -/
def Independent (view : C → O → Bool) (x y : Computation S O PUnit) : Prop :=
  Equiv view (x >>= fun _ => y) (y >>= fun _ => x)

theorem sequence_move_front {x : Computation S O PUnit} {ys : List (Computation S O PUnit)}
    (zs : List (Computation S O PUnit)) (h : ∀ y ∈ ys, Independent view y x) :
    Equiv view (sequence (ys ++ x :: zs)) (sequence (x :: (ys ++ zs))) := by
  induction ys with
  | nil => exact .refl _
  | cons y ys ih =>
    have hswap := h y (by simp)
    have hrest : Equiv view (sequence (y :: (ys ++ x :: zs)))
        (y >>= fun _ => x >>= fun _ => sequence (ys ++ zs)) :=
      .bind (.refl _) fun _ => ih fun y' hy' => h y' (by simp [hy'])
    refine hrest.trans ?_
    rw [← bind_assoc]
    refine (Equiv.bind hswap fun _ => .refl _).trans ?_
    rw [bind_assoc]
    exact .refl _

theorem sequence_reorder {run : ι → Computation S O PUnit} {r : ι → ι → Prop} {l l' : List ι}
    (hasymm : ∀ a b, r a b → ¬ r b a) (hperm : l'.Perm l) (hl : l.Pairwise r)
    (h : l'.Pairwise fun a b => r a b ∨ Independent view (run b) (run a)) :
    Equiv view (sequence (l.map run)) (sequence (l'.map run)) := by
  induction l' generalizing l with
  | nil => rw [nil_perm.1 hperm]; exact .refl _
  | cons x xs ih =>
    obtain ⟨ys, zs, rfl⟩ := append_of_mem (hperm.subset mem_cons_self)
    have hperm' : xs.Perm (ys ++ zs) := (hperm.trans perm_middle).cons_inv
    have hbefore : ∀ y ∈ ys, r y x := fun y hy =>
      (pairwise_append.1 hl).2.2 y hy x mem_cons_self
    have hmove : ∀ y ∈ ys.map run, Independent view y (run x) := by
      intro _ hy
      obtain ⟨y, hy', rfl⟩ := List.mem_map.1 hy
      have hmem : y ∈ xs := hperm'.mem_iff.2 (mem_append_left _ hy')
      rcases rel_of_pairwise_cons h hmem with hr | hi
      · exact absurd hr (hasymm _ _ (hbefore y hy'))
      · exact hi
    have hsub : (ys ++ zs).Pairwise r := hl.sublist (by simp)
    rw [map_append, map_cons]
    refine (sequence_move_front _ hmove).trans ?_
    rw [← map_append]
    exact Equiv.bind (.refl _) fun _ => ih hperm' hsub h.of_cons

/-!
Computations on a store: what they read, write and emit.
-/

variable {A B : Type u}

structure Footprint (view : C → O → Bool) (x : Computation (A → B) O PUnit)
    (reads writes : Set A) (emits : Set C) : Prop where
  frame : Guarantees (fun s t => ∀ a ∉ writes, t a = s a)
    (fun o => ∀ c, view c o = true → c ∈ emits) x
  locality : ∀ K, reads ⊆ K → Sim (fun s t => ∀ a ∈ K, t a = s a) x x

theorem Footprint.filter_eq_nil {x : Computation (A → B) O PUnit} {rx wx : Set A} {ex : Set C}
    (hx : Footprint view x rx wx ex) {s : A → B} {a : Outcome (A → B) O PUnit}
    (ha : x s = some a) {c : C} (hc : c ∉ ex) : a.out.filter (view c) = [] := by
  rw [filter_eq_nil_iff]
  intro o ho hv
  exact hc ((hx.frame ha).2 o ho c hv)

theorem Footprint.independent {x y : Computation (A → B) O PUnit} {rx wx ry wy : Set A}
    {ex ey : Set C} (hx : Footprint view x rx wx ex) (hy : Footprint view y ry wy ey)
    (hxy : ∀ a ∈ wx, a ∉ ry ∧ a ∉ wy) (hyx : ∀ a ∈ wy, a ∉ rx)
    (he : ∀ c ∈ ex, c ∉ ey) : Independent view x y := by
  have hKy : ry ⊆ {a | a ∉ wx} := fun a ha hw => (hxy a hw).1 ha
  have hKx : rx ⊆ {a | a ∉ wy} := fun a ha hw => hyx a hw ha
  intro s
  rw [bind_apply, bind_apply]
  -- after the other one, each ends as it does alone
  cases ha : x s with
  | none =>
    cases hb : y s with
    | none => exact .none
    | some b =>
      have hxb := hx.locality _ hKx (s := s) (t := b.state) (hy.frame hb).1
      rw [ha] at hxb
      generalize hxa : x b.state = xb at hxb
      cases hxb with
      | none => simp [hxa]
  | some a =>
    have hya := hy.locality _ hKy (s := s) (t := a.state) (hx.frame ha).1
    cases hb : y s with
    | none =>
      rw [hb] at hya
      generalize hyb : y a.state = yb at hya
      cases hya with
      | none => simp [hyb]
    | some b =>
      have hxb := hx.locality _ hKx (s := s) (t := b.state) (hy.frame hb).1
      rw [ha] at hxb
      rw [hb] at hya
      cases ha' : x b.state with
      | none => rw [ha'] at hxb; cases hxb
      | some a' =>
        cases hb' : y a.state with
        | none => rw [hb'] at hya; cases hya
        | some b' =>
          rw [ha'] at hxb
          rw [hb'] at hya
          obtain ⟨-, hoa, hSa⟩ := rel_some_some.1 hxb
          obtain ⟨-, hob, hSb⟩ := rel_some_some.1 hya
          simp only [bind_some, ha', hb', map_some]
          refine .some ⟨trivial, ?_, fun c => ?_⟩
          · funext p
            by_cases hp : p ∈ wx
            · calc b'.state p = a.state p := (hy.frame hb').1 p (hxy p hp).2
                _ = a'.state p := (hSa p (hxy p hp).2).symm
            · calc b'.state p = b.state p := hSb p hp
                _ = a'.state p := ((hx.frame ha').1 p hp).symm
          · rw [filter_append, filter_append, ← hoa, ← hob]
            by_cases hc : c ∈ ex
            · simp [hy.filter_eq_nil hb (he c hc)]
            · simp [hx.filter_eq_nil ha hc]

end Reorder
end Computation
end Veryl.Library
