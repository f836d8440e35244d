import Mathlib

/-!
A log of the values that writes replaced, and nested transactions over one log. Each open
transaction is the length of the log at its start; undoing what was logged since then gives
the map of that time.
-/

namespace Veryl.Library

open List Function

variable {K V : Type} {opened : List (ℕ × (K → Option V))} {m : K → Option V}

/-- A write: its key with the value before it. -/
structure Undo (K V : Type) where
  key : K
  previous : Option V

section Undoing

variable [DecidableEq K]

/-- Undoes the writes, the last one first. -/
def undoAll (log : List (Undo K V)) (m : K → Option V) : K → Option V :=
  log.foldr (fun u m => Function.update m u.key u.previous) m

@[simp] theorem undoAll_nil (m : K → Option V) : undoAll [] m = m := rfl

theorem undoAll_append (log log' : List (Undo K V)) (m : K → Option V) :
    undoAll (log ++ log') m = undoAll log (undoAll log' m) :=
  foldr_append

theorem undoAll_push (log : List (Undo K V)) (m : K → Option V) (key : K) (value : Option V) :
    undoAll (log ++ [⟨key, m key⟩]) (Function.update m key value) = undoAll log m := by
  simp [undoAll]

variable {log : List (Undo K V)}

theorem undoAll_of_notMem {key : K} (h : key ∉ log.map (·.key))
    (m : K → Option V) : undoAll log m key = m key := by
  induction log with
  | nil => rfl
  | cons u log ih =>
    rw [map_cons, mem_cons, not_or] at h
    exact (update_of_ne h.1 _ _).trans (ih h.2)

/-- The log of a run of writes that ends in the map. -/
inductive Logged : List (Undo K V) → (K → Option V) → Prop
  | nil (m : K → Option V) : Logged [] m
  | push {log : List (Undo K V)} {m : K → Option V} (h : Logged log m) (key : K) (value : V) :
      Logged (log ++ [⟨key, m key⟩]) (Function.update m key (some value))

theorem Logged.isSome (h : Logged log m) : ∀ u ∈ log, (m u.key).isSome := by
  induction h with
  | nil m => simp
  | @push log m h key value ih =>
    intro u hu
    by_cases hkey : u.key = key
    · rw [hkey, update_self]
      rfl
    · rw [update_of_ne hkey]
      rcases mem_append.1 hu with hu | hu
      · exact ih u hu
      · exact absurd (congrArg Undo.key (mem_singleton.1 hu)) hkey

theorem Logged.undo {log' : List (Undo K V)} (h : Logged (log ++ log') m) :
    Logged log (undoAll log' m) := by
  induction log' using List.reverseRecOn generalizing m with
  | nil => simpa using h
  | append_singleton log' u ih =>
    rw [← append_assoc] at h
    generalize hall : log ++ log' ++ [u] = all at h
    cases h with
    | nil => simp at hall
    | push h key value =>
      obtain ⟨hlog, hu⟩ := append_inj' hall rfl
      subst hlog
      rw [List.cons.inj hu |>.1, undoAll_push]
      exact ih h

/-- The transactions that are open, the latest first: where each starts in the log, and the
map of that time. Outside of all of them nothing is logged. -/
def Opened : List (Undo K V) → (K → Option V) → List (ℕ × (K → Option V)) → Prop
  | log, _, [] => log = []
  | log, m, (start, saved) :: rest =>
    start ≤ log.length ∧ undoAll (log.drop start) m = saved ∧ Opened (log.take start) saved rest

theorem Opened.start (h : Opened log m opened) : Opened log m ((log.length, m) :: opened) := by
  refine ⟨Nat.le_refl _, ?_, ?_⟩
  · rw [drop_length, undoAll_nil]
  · rwa [take_length]

theorem Opened.push {o : ℕ × (K → Option V)} (h : Opened log m (o :: opened)) (key : K)
    (value : V) :
    Opened (log ++ [⟨key, m key⟩]) (Function.update m key (some value)) (o :: opened) := by
  obtain ⟨hle, hsaved, hrest⟩ := h
  refine ⟨Nat.le_trans hle (by simp), ?_, ?_⟩
  · rw [drop_append_of_le_length hle, undoAll_push, hsaved]
  · rwa [take_append_of_le_length hle]

theorem Opened.undo_of_mem (h : Opened log m opened) :
    ∀ o ∈ opened, o.1 ≤ log.length ∧ undoAll (log.drop o.1) m = o.2 := by
  induction opened generalizing log m with
  | nil => simp
  | cons o opened ih =>
    obtain ⟨start, saved⟩ := o
    obtain ⟨hle, hsaved, hrest⟩ := h
    rintro o' (_ | ⟨_, ho'⟩)
    · exact ⟨hle, hsaved⟩
    · obtain ⟨hle', hsaved'⟩ := ih hrest o' ho'
      rw [length_take, Nat.min_eq_left hle] at hle'
      refine ⟨Nat.le_trans hle' hle, ?_⟩
      have hsplit : log.drop o'.1 = (log.take start).drop o'.1 ++ log.drop start := by
        rw [← drop_append_of_le_length (by simpa [hle] using hle'), take_append_drop]
      rw [hsplit, undoAll_append, hsaved, hsaved']

end Undoing

end Veryl.Library
