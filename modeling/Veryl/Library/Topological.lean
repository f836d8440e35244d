import Mathlib

/-!
Lists that enumerate the vertices of a graph after their predecessors, and the
paths a chain of neighbours makes.
-/

namespace Veryl.Library

open List

variable {α : Type*} {E : α → α → Prop} {l : List α}

/-- Every vertex comes after all its predecessors. -/
def Respects (E : α → α → Prop) (l : List α) : Prop :=
  ∀ p b s, l = p ++ b :: s → ∀ a, E a b → a ∈ p

theorem respects_nil : Respects E ([] : List α) := by
  intro p b s h
  simp at h

theorem Respects.concat (h : Respects E l) {b : α} (hb : ∀ a, E a b → a ∈ l) :
    Respects E (l ++ [b]) := by
  intro p c s hp a hac
  rcases eq_nil_or_concat s with rfl | ⟨s, d, rfl⟩
  · obtain ⟨rfl, hc⟩ := append_inj' hp rfl
    obtain rfl : b = c := by simpa using hc
    exact hb a hac
  · have hp' : l ++ [b] = (p ++ c :: s) ++ [d] := by simpa using hp
    exact h p c s (append_inj' hp' rfl).1 a hac

theorem Respects.mem_of_transGen (h : Respects E l) {p s : List α} (hl : l = p ++ s) {a b : α}
    (hpath : Relation.TransGen E a b) (hb : b ∈ p) : a ∈ p := by
  induction hpath using Relation.TransGen.head_induction_on with
  | single hab =>
    obtain ⟨p₁, p₂, rfl⟩ := append_of_mem hb
    exact mem_append_left _ (h p₁ b (p₂ ++ s) (by simpa using hl) _ hab)
  | head hac _ ih =>
    obtain ⟨p₁, p₂, rfl⟩ := append_of_mem ih
    exact mem_append_left _ (h p₁ _ (p₂ ++ s) (by simpa using hl) _ hac)

theorem Respects.pairwise (h : Respects E l) (hl : l.Nodup) :
    l.Pairwise fun a b => ¬ Relation.TransGen E b a := by
  have hsuffix : ∀ p s, l = p ++ s → s.Pairwise fun a b => ¬ Relation.TransGen E b a := by
    intro p s
    induction s generalizing p with
    | nil => exact fun _ => .nil
    | cons a s ih =>
      intro hp
      have hp' : l = (p ++ [a]) ++ s := by simpa using hp
      refine List.Pairwise.cons (fun b hb hpath => ?_) (ih _ hp')
      have hmem := h.mem_of_transGen hp' hpath (by simp)
      rw [hp'] at hl
      exact disjoint_of_nodup_append hl hmem hb
  exact hsuffix [] l rfl

theorem transGen_of_mem [LinearOrder α] {w : List α} (hw : w.Pairwise (· ≤ ·))
    (hE : ∀ e ∈ w.zip w.tail, E e.1 e.2) {a b : α} (ha : a ∈ w) (hb : b ∈ w) (hab : a < b) :
    Relation.TransGen E a b := by
  induction w generalizing a with
  | nil => cases ha
  | cons x w ih =>
    have hx : ∀ c ∈ w, x ≤ c := fun c hc => rel_of_pairwise_cons hw hc
    have hb' : b ∈ w := by
      rcases mem_cons.1 hb with rfl | hb
      · rcases mem_cons.1 ha with rfl | ha
        · exact absurd hab (lt_irrefl _)
        · exact absurd hab (not_lt.2 (hx a ha))
      · exact hb
    cases w with
    | nil => cases hb'
    | cons y w =>
      have hrest : ∀ {a}, a ∈ y :: w → a < b → Relation.TransGen E a b := fun ha hab =>
        ih hw.of_cons (fun e he => hE e (mem_cons_of_mem _ he)) ha hb' hab
      rcases mem_cons.1 ha with rfl | ha
      · have hxy : E a y := hE (a, y) mem_cons_self
        rcases mem_cons.1 hb' with rfl | hbw
        · exact .single hxy
        · rcases eq_or_lt_of_le (rel_of_pairwise_cons hw.of_cons hbw) with rfl | hyb
          · exact .single hxy
          · exact .head hxy (hrest mem_cons_self hyb)
      · exact hrest ha hab

end Veryl.Library
