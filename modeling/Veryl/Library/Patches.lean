import Mathlib

/-!
Patches of a sequence: runs of elements stored at an offset, one after the other.
-/

namespace Veryl.Library

open List Option

variable {α : Type*}

/-- Stores some elements at an offset. -/
def storeAt (buf : List α) (offset : ℕ) (xs : List α) : List α :=
  buf.take offset ++ xs ++ buf.drop (offset + xs.length)

/-- The elements a word of the given length at an offset holds. -/
def loadAt (buf : List α) (offset length : ℕ) : List α := (buf.drop offset).take length

variable {buf xs : List α} {offset : ℕ}

section

variable (h : offset + xs.length ≤ buf.length)

include h

@[simp] theorem length_storeAt : (storeAt buf offset xs).length = buf.length := by
  simp only [storeAt, length_append, length_take, length_drop]
  omega

theorem getElem?_storeAt (i : ℕ) : (storeAt buf offset xs)[i]? =
      if offset ≤ i ∧ i < offset + xs.length then xs[i - offset]? else buf[i]? := by
  have htake : (buf.take offset).length = offset := by
    simp only [length_take]
    omega
  rw [storeAt, append_assoc, getElem?_append, htake]
  by_cases hlo : i < offset
  · rw [if_pos hlo, if_neg (by omega), getElem?_take_of_lt hlo]
  · rw [if_neg hlo, getElem?_append]
    by_cases hhi : i < offset + xs.length
    · rw [if_pos (by omega), if_pos ⟨by omega, hhi⟩]
    · rw [if_neg (by omega), if_neg (by omega), getElem?_drop]
      congr 1
      omega

theorem storeAt_eq_self : storeAt buf offset xs = buf ↔ loadAt buf offset xs.length = xs := by
  constructor
  · intro heq
    have hload : loadAt (storeAt buf offset xs) offset xs.length = xs := by
      have htake : (buf.take offset).length = offset := by
        simp only [length_take]
        omega
      rw [loadAt, storeAt, append_assoc, drop_append_of_le_length (Nat.le_of_eq htake.symm),
        drop_of_length_le (Nat.le_of_eq htake), nil_append, take_append_of_le_length (Nat.le_refl _),
        take_length]
    rwa [heq] at hload
  · intro heq
    have hsplit : buf.take offset ++ (buf.drop offset).take xs.length ++
        buf.drop (offset + xs.length) = buf := by
      rw [append_assoc, ← drop_drop, take_append_drop, take_append_drop]
    rw [storeAt]
    conv_lhs => rw [← heq]
    simpa only [loadAt, length_take, length_drop, heq,
      show min xs.length (buf.length - offset) = xs.length by omega] using hsplit

theorem storeAt_append {ys : List α} :
    storeAt (storeAt buf offset xs) (offset + xs.length) ys = storeAt buf offset (xs ++ ys) := by
  have hlen : (buf.take offset ++ xs).length = offset + xs.length := by
    simp only [length_append, length_take]
    omega
  have htake : (storeAt buf offset xs).take (offset + xs.length) = buf.take offset ++ xs := by
    rw [storeAt, ← hlen, take_left]
  have hdrop : (storeAt buf offset xs).drop (offset + xs.length + ys.length) =
      buf.drop (offset + (xs ++ ys).length) := by
    rw [storeAt, ← drop_drop, drop_append_of_le_length (Nat.le_of_eq hlen.symm),
      drop_of_length_le (Nat.le_of_eq hlen), nil_append, drop_drop, length_append, Nat.add_assoc]
  rw [storeAt, htake, hdrop, storeAt, append_assoc (buf.take offset)]

end

theorem storeAt_pair {w : ℕ} (hw : w ≤ xs.length) (hover : xs.length ≤ 2 * w)
    (h : offset + xs.length ≤ buf.length) :
    storeAt (storeAt buf offset (xs.take w)) (offset + (xs.length - w)) (xs.drop (xs.length - w)) =
      storeAt buf offset xs := by
  have htake : (xs.take w).length = w := by rw [length_take, Nat.min_eq_left hw]
  have hdrop : (xs.drop (xs.length - w)).length = w := by
    simp only [length_drop]
    omega
  have hfirst : offset + (xs.take w).length ≤ buf.length := by omega
  refine ext_getElem? fun i => ?_
  rw [getElem?_storeAt (by rw [length_storeAt hfirst]; omega), getElem?_storeAt hfirst,
    getElem?_storeAt h, htake, hdrop]
  by_cases htail : offset + (xs.length - w) ≤ i ∧ i < offset + (xs.length - w) + w
  · rw [if_pos htail, if_pos (by omega), getElem?_drop]
    congr 1
    omega
  · rw [if_neg htail]
    by_cases hhead : offset ≤ i ∧ i < offset + w
    · rw [if_pos hhead, if_pos (by omega), getElem?_take_of_lt (by omega)]
    · rw [if_neg hhead, if_neg (by omega)]

theorem loadAt_pair {w : ℕ} (hw : w ≤ xs.length) (hover : xs.length ≤ 2 * w)
    (h : offset + xs.length ≤ buf.length) :
    (loadAt buf offset w = xs.take w ∧
      loadAt buf (offset + (xs.length - w)) w = xs.drop (xs.length - w)) ↔
      loadAt buf offset xs.length = xs := by
  have htake : (xs.take w).length = w := by rw [length_take, Nat.min_eq_left hw]
  have hdrop : (xs.drop (xs.length - w)).length = w := by
    simp only [length_drop]
    omega
  constructor
  · rintro ⟨hlo, hhi⟩
    have hfirst : storeAt buf offset (xs.take w) = buf :=
      (storeAt_eq_self (by omega)).2 (by rwa [htake])
    have hsecond : storeAt buf (offset + (xs.length - w)) (xs.drop (xs.length - w)) = buf :=
      (storeAt_eq_self (by omega)).2 (by rwa [hdrop])
    refine (storeAt_eq_self h).1 ?_
    rw [← storeAt_pair hw hover h, hfirst, hsecond]
  · intro hload
    constructor
    · calc loadAt buf offset w = (loadAt buf offset xs.length).take w := by
            rw [loadAt, loadAt, take_take, Nat.min_eq_left hw]
        _ = xs.take w := by rw [hload]
    · calc loadAt buf (offset + (xs.length - w)) w =
            (loadAt buf offset xs.length).drop (xs.length - w) := by
            rw [loadAt, loadAt, drop_take, drop_drop]
            congr 1
            omega
        _ = xs.drop (xs.length - w) := by rw [hload]

/-- Some elements and where they go. -/
structure Patch (α : Type*) where
  offset : ℕ
  content : List α

namespace Patch

variable {ps : List (Patch α)} {p : Patch α}

def Fits (p : Patch α) (length : ℕ) : Prop := p.offset + p.content.length ≤ length

instance (p : Patch α) (length : ℕ) : Decidable (p.Fits length) :=
  inferInstanceAs (Decidable (_ ≤ _))

/-- Stores a patch; one that runs past the end stores nothing. -/
def apply (buf : List α) (p : Patch α) : List α :=
  if p.Fits buf.length then storeAt buf p.offset p.content else buf

/-- Whether a patch of a sequence of the given length stores an element. -/
def Covers (length : ℕ) (p : Patch α) (i : ℕ) : Prop :=
  p.Fits length ∧ p.offset ≤ i ∧ i < p.offset + p.content.length

instance (length : ℕ) (p : Patch α) (i : ℕ) : Decidable (p.Covers length i) :=
  inferInstanceAs (Decidable (_ ∧ _))

/-- What is left of an element: what the last patch over it stores. -/
def final (ps : List (Patch α)) (buf : List α) (i : ℕ) : Option α :=
  match ps.reverse.find? fun p => p.Covers buf.length i with
  | some p => p.content[i - p.offset]?
  | none => buf[i]?

/-- The patches that change something when they are stored. -/
def changing [DecidableEq α] : List (Patch α) → List α → List (Patch α)
  | [], _ => []
  | p :: ps, buf =>
    if p.apply buf = buf then changing ps (p.apply buf) else p :: changing ps (p.apply buf)

@[simp] theorem length_apply (buf : List α) (p : Patch α) : (p.apply buf).length = buf.length := by
  unfold apply
  split
  · rename_i h
    exact length_storeAt h
  · rfl

@[simp] theorem length_foldl_apply (ps : List (Patch α)) (buf : List α) :
    (ps.foldl (fun buf p => p.apply buf) buf).length = buf.length := by
  induction ps generalizing buf with
  | nil => rfl
  | cons p ps ih => rw [foldl_cons, ih, length_apply]

theorem getElem?_apply (buf : List α) (p : Patch α) (i : ℕ) :
    (p.apply buf)[i]? = if p.Covers buf.length i then p.content[i - p.offset]? else buf[i]? := by
  by_cases h : p.Fits buf.length
  · have hcovers : p.Covers buf.length i ↔ p.offset ≤ i ∧ i < p.offset + p.content.length :=
      and_iff_right h
    rw [apply, if_pos h, getElem?_storeAt h]
    exact (if_congr hcovers rfl rfl).symm
  · rw [apply, if_neg h, if_neg fun hcovers : p.Covers buf.length i => h hcovers.1]

theorem getElem?_foldl_apply (ps : List (Patch α)) (buf : List α) (i : ℕ) :
    (ps.foldl (fun buf p => p.apply buf) buf)[i]? = final ps buf i := by
  induction ps generalizing buf with
  | nil => rfl
  | cons p ps ih =>
    rw [foldl_cons, ih]
    simp only [final, reverse_cons, find?_append, length_apply]
    cases ps.reverse.find? fun p => p.Covers buf.length i with
    | some q => rfl
    | none =>
      rw [none_or, getElem?_apply]
      by_cases h : p.Covers buf.length i <;> simp [h]

end Patch
end Veryl.Library
