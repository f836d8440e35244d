import Mathlib

/-!
Folds over a list, by what holds of the elements done so far.
-/

namespace Veryl.Library

open List

variable {α β : Type*} {f : β → α → β} {P : List α → β → Prop} {l : List α} {b : β}

theorem foldl_rule (hnil : P [] b)
    (hstep : ∀ done x rest out, l = done ++ x :: rest → P done out → P (done ++ [x]) (f out x)) :
    P l (l.foldl f b) := by
  have hfold : ∀ (rest done : List α) (out : β), l = done ++ rest → P done out →
      P (done ++ rest) (rest.foldl f out) := by
    intro rest
    induction rest with
    | nil => exact fun done out _ h => by simpa using h
    | cons x rest ih =>
      intro done out hl h
      simpa using ih (done ++ [x]) _ (by simpa using hl) (hstep done x rest out hl h)
  exact hfold l [] b rfl hnil

/-- A fold over a sorted list may use that what is done is before the next element. -/
theorem foldl_insertionSort {le : α → α → Prop} [DecidableRel le] [Std.Total le] [IsTrans α le]
    (hnil : P [] b)
    (hstep : ∀ done x out, x ∈ l → (∀ d ∈ done, d ∈ l ∧ le d x) → P done out →
      P (done ++ [x]) (f out x)) :
    P (l.insertionSort le) ((l.insertionSort le).foldl f b) := by
  have hmem : ∀ x, x ∈ l.insertionSort le → x ∈ l := fun x => (mem_insertionSort le).1
  refine foldl_rule hnil fun done x rest out hl h => hstep done x out ?_ (fun d hd => ?_) h
  · exact hmem x (by simp [hl])
  · have hsorted := pairwise_insertionSort le l
    rw [hl] at hsorted
    exact ⟨hmem d (by simp [hl, hd]), (pairwise_append.1 hsorted).2.2 d hd x mem_cons_self⟩

section Members

variable {done : List α} {out rest : List β} {s : α} {u last : β} {C : α → β → Prop} {Q : α → Prop}

theorem exists_mem_snoc (h : ∃ d ∈ done, Q d) : ∃ d ∈ done ++ [s], Q d :=
  h.imp fun _ hd => ⟨mem_append_left _ hd.1, hd.2⟩

theorem exists_mem_snoc_self (h : Q s) : ∃ d ∈ done ++ [s], Q d := ⟨s, by simp, h⟩

theorem covers_push (h : ∀ d ∈ done, ∃ v ∈ out, C d v) (hs : C s u) :
    ∀ d ∈ done ++ [s], ∃ v ∈ u :: out, C d v := by
  simp only [mem_cons, exists_eq_or_imp]
  exact forall_mem_append.2 ⟨fun d hd => .inr (h d hd), forall_mem_singleton.2 (.inl hs)⟩

theorem covers_merge (h : ∀ d ∈ done, ∃ v ∈ last :: rest, C d v) (hlast : ∀ d, C d last → C d u)
    (hs : C s u) : ∀ d ∈ done ++ [s], ∃ v ∈ u :: rest, C d v := by
  simp only [mem_cons, exists_eq_or_imp] at h ⊢
  exact forall_mem_append.2
    ⟨fun d hd => (h d hd).imp_left (hlast d), forall_mem_singleton.2 (.inl hs)⟩

end Members

end Veryl.Library
