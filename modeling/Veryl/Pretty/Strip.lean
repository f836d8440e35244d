import Veryl.Library.Lines
import Veryl.Pretty.Render

/-!
Stripping the lines of a text drops blanks at the ends of lines, and nothing else.
-/

namespace Veryl.Pretty

open Veryl.Library List

variable (newline : Newline)

theorem rdropWhile_cons {α : Type} (p : α → Bool) (c : α) (l : List α) : (c :: l).rdropWhile p =
      if l.rdropWhile p = [] ∧ p c = true then [] else c :: l.rdropWhile p := by
  simp only [List.rdropWhile, reverse_cons, dropWhile_append, List.isEmpty_iff, reverse_eq_nil_iff]
  split
  · rename_i h
    cases hc : p c <;> simp [h, hc]
  · rename_i h
    simp [h]

theorem splitLines_eq_cons (s : Text) : ∃ line lines, splitLines newline s = line :: lines := by
  fun_induction splitLines newline s with
  | case1 newline => exact ⟨[], [], rfl⟩
  | case2 s ih => exact ⟨_, _, rfl⟩
  | case3 s ih => exact ⟨_, _, rfl⟩
  | case4 newline c s hlf hcrlf ih =>
    obtain ⟨line, lines, h⟩ := ih
    exact ⟨c :: line, lines, by rw [h, consLine]⟩

/-- What follows the first line. -/
def joinRest (newline : Newline) : List Text → Text
  | [] => []
  | line :: lines => newline.chars ++ line.rdropWhile isBlank ++ joinRest newline lines

theorem intercalate_trim (line : Text) (lines : List Text) :
    newline.chars.intercalate ((line :: lines).map (·.rdropWhile isBlank)) =
      line.rdropWhile isBlank ++ joinRest newline lines := by
  induction lines generalizing line with
  | nil => simp [joinRest, List.intercalate]
  | cons next lines ih =>
    have h := ih next
    simp only [map_cons, List.intercalate, intersperse_cons_cons, flatten_cons, joinRest] at h ⊢
    rw [h]
    simp

theorem ends_joinRest (lines : List Text) : Ends newline.chars (joinRest newline lines) := by
  cases lines with
  | nil => exact Or.inl rfl
  | cons line lines => exact Or.inr ⟨_, (append_assoc _ _ _).symm⟩

theorem drops_strip (s : Text) :
    Drops IsBlank (Ends newline.chars) s (stripTrailingWhitespace s newline) := by
  rw [stripTrailingWhitespace]
  fun_induction splitLines newline s with
  | case1 newline => simp [List.intercalate, Drops.nil]
  | case2 s ih =>
    obtain ⟨line, lines, h⟩ := splitLines_eq_cons .lf s
    rw [h, intercalate_trim] at ih ⊢
    exact Drops.keep _ ih
  | case3 s ih =>
    obtain ⟨line, lines, h⟩ := splitLines_eq_cons .crlf s
    rw [h, intercalate_trim] at ih ⊢
    exact Drops.keep _ (Drops.keep _ ih)
  | case4 newline c s hlf hcrlf ih =>
    obtain ⟨line, lines, h⟩ := splitLines_eq_cons newline s
    rw [h, intercalate_trim] at ih
    rw [h, consLine, intercalate_trim, rdropWhile_cons]
    split
    · rename_i hc
      rw [hc.1] at ih
      exact Drops.drop c (by simpa [isBlank, IsBlank] using hc.2) (ends_joinRest newline lines) ih
    · exact Drops.keep c ih
end Veryl.Pretty
