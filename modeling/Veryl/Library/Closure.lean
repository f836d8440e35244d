import Mathlib

/-!
Closing a list under successors with a queue. Over a finite set that holds the
seeds and all successors, as many turns as it has members are enough, and what
is reached are exactly the ends of paths from the seeds.
-/

namespace Veryl.Library

open Relation List

variable {α : Type*} [DecidableEq α] {reached queue : List α} {turns : ℕ}

/-- Notes a successor and queues it unless it was noted before. -/
def discover (state : List α × List α) (y : α) : List α × List α :=
  if y ∈ state.1 then state else (state.1 ++ [y], state.2 ++ [y])

/-- Takes the queue from the front until it is empty; what was reached and what
is still queued. -/
def closeLoop (next : α → List α) : ℕ → List α × List α → List α
  | _, (reached, []) => reached
  | 0, (reached, _) => reached
  | turns + 1, (reached, x :: queue) =>
    closeLoop next turns ((next x).foldl discover (reached, queue))

/-- What noting some successors does. -/
structure Discovered (old : List α × List α) (ys : List α) (new : List α × List α) : Prop where
  keep : ∀ z ∈ old.1, z ∈ new.1
  added : ∀ z ∈ ys, z ∈ new.1
  only : ∀ z ∈ new.1, z ∈ old.1 ∨ z ∈ ys
  waiting : ∀ z ∈ old.2, z ∈ new.2
  queued : ∀ z ∈ new.1, z ∈ old.1 ∨ z ∈ new.2
  noted : ∀ z ∈ new.2, z ∈ old.2 ∨ z ∈ new.1
  nodup : old.1.Nodup → new.1.Nodup
  count : new.1.length + old.2.length = old.1.length + new.2.length

theorem discovered_foldl (ys : List α) (old : List α × List α) :
    Discovered old ys (ys.foldl discover old) := by
  induction ys generalizing old with
  | nil => exact ⟨by simp, by simp, by simp, by simp, by simp_all, by simp_all, id, rfl⟩
  | cons y ys ih =>
    rw [foldl_cons]
    have h := ih (discover old y)
    unfold discover at h ⊢
    split at h
    · rename_i hy
      simp only [if_pos hy]
      refine ⟨h.keep, fun z hz => ?_, fun z hz => ?_, h.waiting, h.queued, h.noted, h.nodup,
        h.count⟩
      · rcases mem_cons.1 hz with rfl | hz
        · exact h.keep _ hy
        · exact h.added z hz
      · exact (h.only z hz).imp id (mem_cons_of_mem _)
    · rename_i hy
      simp only [if_neg hy]
      refine ⟨fun z hz => h.keep z (by simp [hz]), fun z hz => ?_, fun z hz => ?_,
        fun z hz => h.waiting z (by simp [hz]), fun z hz => ?_, fun z hz => ?_, fun hn => ?_, ?_⟩
      · rcases mem_cons.1 hz with rfl | hz
        · exact h.keep _ (by simp)
        · exact h.added z hz
      · rcases h.only z hz with hz | hz
        · rcases mem_append.1 hz with hz | hz
          · exact .inl hz
          · exact .inr (by simp [mem_singleton.1 hz])
        · exact .inr (mem_cons_of_mem _ hz)
      · rcases h.queued z hz with hz | hz
        · rcases mem_append.1 hz with hz | hz
          · exact .inl hz
          · exact .inr (h.waiting z (by simp [mem_singleton.1 hz]))
        · exact .inr hz
      · rcases h.noted z hz with hz | hz
        · rcases mem_append.1 hz with hz | hz
          · exact .inl hz
          · exact .inr (h.keep z (by simp [mem_singleton.1 hz]))
        · exact .inr hz
      · refine h.nodup (nodup_append.2 ⟨hn, nodup_singleton y, ?_⟩)
        rintro a ha b hb rfl
        exact hy (mem_singleton.1 hb ▸ ha)
      · have := h.count
        simp only [length_append, length_singleton] at this
        omega

variable {next : α → List α} {seeds all : List α}

/-- The state of the loop: what is reached is reachable and closed but for the
queue. -/
structure Closing (next : α → List α) (seeds all reached queue : List α) : Prop where
  nodup : reached.Nodup
  within : ∀ z ∈ reached, z ∈ all
  start : ∀ z ∈ seeds, z ∈ reached
  noted : ∀ z ∈ queue, z ∈ reached
  sound : ∀ z ∈ reached, ∃ s ∈ seeds, ReflTransGen (fun a b => b ∈ next a) s z
  closed : ∀ z ∈ reached, z ∈ queue ∨ ∀ y ∈ next z, y ∈ reached

theorem Closing.step {x : α} (hnext : ∀ z ∈ all, ∀ y ∈ next z, y ∈ all)
    (h : Closing next seeds all reached (x :: queue)) :
    Closing next seeds all ((next x).foldl discover (reached, queue)).1
      ((next x).foldl discover (reached, queue)).2 := by
  have hd := discovered_foldl (next x) (reached, queue)
  have hx := h.noted x (by simp)
  refine ⟨hd.nodup h.nodup, fun z hz => ?_, fun z hz => hd.keep z (h.start z hz), fun z hz => ?_,
    fun z hz => ?_, fun z hz => ?_⟩
  · exact (hd.only z hz).elim (h.within z) (hnext x (h.within x hx) z)
  · exact (hd.noted z hz).elim (fun hz => hd.keep z (h.noted z (by simp [hz]))) id
  · rcases hd.only z hz with hz | hz
    · exact h.sound z hz
    · obtain ⟨s, hs, hsx⟩ := h.sound x hx
      exact ⟨s, hs, hsx.tail hz⟩
  · rcases hd.queued z hz with hz | hz
    · rcases h.closed z hz with hq | hq
      · rcases mem_cons.1 hq with rfl | hq
        · exact .inr hd.added
        · exact .inl (hd.waiting z hq)
      · exact .inr fun y hy => hd.keep y (hq y hy)
    · exact .inl hz

theorem mem_of_closed (h : Closing next seeds all reached [])
    (z : α) : z ∈ closeLoop next turns (reached, []) ↔
      ∃ s ∈ seeds, ReflTransGen (fun a b => b ∈ next a) s z := by
  rw [show closeLoop next turns (reached, []) = reached by cases turns <;> rfl]
  refine ⟨h.sound z, ?_⟩
  rintro ⟨s, hs, hsz⟩
  induction hsz with
  | refl => exact h.start s hs
  | tail _ hy ih => exact ((h.closed _ ih).resolve_left not_mem_nil) _ hy

theorem mem_closeLoop
    (hnext : ∀ z ∈ all, ∀ y ∈ next z, y ∈ all) (h : Closing next seeds all reached queue)
    (hturns : all.length + queue.length ≤ turns + reached.length) (z : α) :
    z ∈ closeLoop next turns (reached, queue) ↔
      ∃ s ∈ seeds, ReflTransGen (fun a b => b ∈ next a) s z := by
  induction turns generalizing reached queue with
  | zero =>
    have hlen : reached.length ≤ all.length := (h.nodup.subperm h.within).length_le
    obtain rfl : queue = [] := length_eq_zero_iff.1 (by omega)
    exact mem_of_closed h z
  | succ turns ih =>
    cases queue with
    | nil => exact mem_of_closed h z
    | cons x queue =>
      have hcount := (discovered_foldl (next x) (reached, queue)).count
      refine ih (h.step hnext) ?_
      simp only [length_cons] at hturns hcount
      omega

theorem mem_closure (hseeds : seeds.Nodup) (hall : ∀ z ∈ seeds, z ∈ all)
    (hnext : ∀ z ∈ all, ∀ y ∈ next z, y ∈ all) (z : α) :
    z ∈ closeLoop next all.length (seeds, seeds) ↔
      ∃ s ∈ seeds, ReflTransGen (fun a b => b ∈ next a) s z :=
  mem_closeLoop hnext ⟨hseeds, hall, fun _ => id, fun _ => id, fun z hz => ⟨z, hz, .refl⟩,
    fun _ => .inl⟩ (Nat.le_refl _) z

end Veryl.Library
