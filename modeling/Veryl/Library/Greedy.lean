import Veryl.Library.Topological

/-!
Orders of a graph that take a least available vertex each time. Where the keys of the vertices
differ there is only one.
-/

namespace Veryl.Library

open List

variable {α β K : Type*} {V : α → Prop} {E : α → α → Prop} {l l' p : List α} {b : α}

/-- A vertex not yet taken whose predecessors all are. -/
def Available (V : α → Prop) (E : α → α → Prop) (p : List α) (b : α) : Prop :=
  V b ∧ b ∉ p ∧ ∀ a, E a b → a ∈ p

variable [LinearOrder K] {key : α → K}

def Greedy (V : α → Prop) (E : α → α → Prop) (key : α → K) (l : List α) : Prop :=
  ∀ p b s, l = p ++ b :: s → Available V E p b ∧ ∀ a, Available V E p a → key b ≤ key a

theorem greedy_nil : Greedy V E key [] := fun p b s h => by simp at h

theorem Greedy.concat (h : Greedy V E key l) (hb : Available V E l b)
    (hle : ∀ a, Available V E l a → key b ≤ key a) : Greedy V E key (l ++ [b]) := by
  intro p c s hp
  rcases eq_nil_or_concat s with rfl | ⟨s, d, rfl⟩
  · obtain ⟨rfl, hc⟩ := append_inj' hp rfl
    obtain rfl : b = c := by simpa using hc
    exact ⟨hb, hle⟩
  · have hp' : l ++ [b] = (p ++ c :: s) ++ [d] := by simpa using hp
    exact h p c s (append_inj' hp' rfl).1

theorem Greedy.respects (h : Greedy V E key l) : Respects E l :=
  fun p b s hl a hab => (h p b s hl).1.2.2 a hab

/-- Greedy orders of all vertices agree where the keys tell the vertices apart. -/
theorem Greedy.unique {key' : α → K} (h : Greedy V E key l) (h' : Greedy V E key' l')
    (hkey : ∀ a b, V a → V b → key a ≤ key b → key' b ≤ key' a → a = b)
    (hlen : l.length = l'.length) : l = l' := by
  have hstep : ∀ s p s', l = p ++ s → l' = p ++ s' → s.length = s'.length → s = s' := by
    intro s
    induction s with
    | nil => exact fun p s' _ _ hs => (length_eq_zero_iff.1 hs.symm).symm
    | cons a s ih =>
      rintro p (_ | ⟨a', s'⟩) hl hl' hs
      · cases hs
      · obtain ⟨ha, hle⟩ := h p a s hl
        obtain ⟨ha', hle'⟩ := h' p a' s' hl'
        obtain rfl := hkey a a' ha.1 ha'.1 (hle a' ha') (hle' a ha)
        rw [ih (p ++ [a]) s' (by simpa using hl) (by simpa using hl') (by simpa using hs)]
  exact hstep l [] l' rfl rfl hlen

/-- Renamed vertices keep a greedy order. -/
theorem Greedy.map {K' : Type*} [LinearOrder K'] {key' : β → K'} {V' : β → Prop}
    {E' : β → β → Prop} {f : α → β} (h : Greedy V E key l)
    (hV : ∀ b, V' b ↔ ∃ a, V a ∧ f a = b) (hf : ∀ a b, V a → V b → f a = f b → a = b)
    (hE : ∀ a b, E' a b ↔ ∃ x y, E x y ∧ f x = a ∧ f y = b) (hEV : ∀ a b, E a b → V a ∧ V b)
    (hl : ∀ a ∈ l, V a) (hkey : ∀ a b, V a → V b → key a ≤ key b → key' (f a) ≤ key' (f b)) :
    Greedy V' E' key' (l.map f) := by
  intro p b s hp
  obtain ⟨q, t, rfl, rfl, ht⟩ := map_eq_append_iff.1 hp
  obtain ⟨a, t, rfl, rfl, rfl⟩ := map_eq_cons_iff.1 ht
  have hmem : ∀ c, V c → (f c ∈ q.map f ↔ c ∈ q) := fun c hc =>
    ⟨fun hm => by
      obtain ⟨d, hd, heq⟩ := mem_map.1 hm
      exact hf d c (hl d (mem_append_left _ hd)) hc heq ▸ hd, mem_map_of_mem⟩
  have havail : ∀ c, V c → (Available V' E' (q.map f) (f c) ↔ Available V E q c) := by
    intro c hc
    refine and_congr ⟨fun _ => hc, fun _ => (hV _).2 ⟨c, hc, rfl⟩⟩
      (and_congr (not_congr (hmem c hc)) ⟨fun h x hx => ?_, fun h x hx => ?_⟩)
    · exact (hmem x (hEV x c hx).1).1 (h _ ((hE _ _).2 ⟨x, c, hx, rfl, rfl⟩))
    · obtain ⟨y, z, hyz, rfl, hz⟩ := (hE _ _).1 hx
      obtain rfl := hf z c (hEV y z hyz).2 hc hz
      exact mem_map_of_mem (h y hyz)
  obtain ⟨ha, hle⟩ := h q a t rfl
  refine ⟨(havail a ha.1).2 ha, fun d hd => ?_⟩
  obtain ⟨c, hc, rfl⟩ := (hV d).1 hd.1
  exact hkey a c ha.1 hc (hle c ((havail c hc).1 hd))

end Veryl.Library
