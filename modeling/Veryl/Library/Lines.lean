import Mathlib

/-!
Texts by lines: the column that a text ends in, and texts that differ by blanks which
were dropped where nothing but the end of a line follows.
-/

namespace Veryl.Library

open List

variable {s s' : List Char}

section Drops

variable {α : Type*} {blank : α → Prop} {allowed allowed' : List α → Prop}

/-- A list without some of its blanks. A blank may be dropped when what is kept of the
rest is `allowed`. -/
inductive Drops (blank : α → Prop) (allowed : List α → Prop) : List α → List α → Prop
  | nil : Drops blank allowed [] []
  | keep (a : α) {s s' : List α} : Drops blank allowed s s' → Drops blank allowed (a :: s) (a :: s')
  | drop (a : α) {s s' : List α} : blank a → allowed s' → Drops blank allowed s s' →
      Drops blank allowed (a :: s) s'

namespace Drops

theorem refl (s : List α) : Drops blank allowed s s := by
  induction s with
  | nil => exact nil
  | cons a s ih => exact keep a ih

variable {s' : List α}

variable {s : List α}

theorem mono (h : ∀ s, allowed s → allowed' s) (hs : Drops blank allowed s s') :
    Drops blank allowed' s s' := by
  induction hs with
  | nil => exact nil
  | keep a _ ih => exact keep a ih
  | drop a ha hallowed _ ih => exact drop a ha (h _ hallowed) ih

theorem eq_nil (h : Drops blank allowed [] s') : s' = [] := by
  cases h
  rfl

theorem of_append {t u : List α} (h : Drops blank allowed (s ++ t) u) :
    ∃ s' t', u = s' ++ t' ∧ Drops blank (fun r => allowed (r ++ t')) s s' ∧
      Drops blank allowed t t' := by
  induction s generalizing u with
  | nil => exact ⟨[], u, rfl, nil, h⟩
  | cons a s ih =>
    cases h with
    | @keep _ _ u' h =>
      obtain ⟨s', t', rfl, hs, ht⟩ := ih h
      exact ⟨a :: s', t', rfl, keep a hs, ht⟩
    | drop _ ha hallowed h =>
      obtain ⟨s', t', rfl, hs, ht⟩ := ih h
      exact ⟨s', t', rfl, drop a ha hallowed hs, ht⟩

theorem append {t t' : List α} (hs : Drops blank (fun r => allowed (r ++ t')) s s')
    (ht : Drops blank allowed t t') : Drops blank allowed (s ++ t) (s' ++ t') := by
  induction s generalizing s' with
  | nil =>
    obtain rfl := hs.eq_nil
    exact ht
  | cons a s ih =>
    cases hs with
    | keep _ hs => exact keep a (ih hs)
    | drop _ ha hallowed hs => exact drop a ha hallowed (ih hs)

theorem filter_eq {p : α → Bool} (hp : ∀ a, blank a → p a = false)
    (h : Drops blank allowed s s') : s'.filter p = s.filter p := by
  induction h with
  | nil => rfl
  | keep a _ ih => simp only [filter_cons, ih]
  | drop a ha _ _ ih => rw [ih, filter_cons, hp a ha, if_neg (by decide)]

variable {a : α}

theorem mem (h : Drops blank allowed s s') (ha : a ∈ s') : a ∈ s := by
  induction h with
  | nil => exact ha
  | keep b _ ih =>
    rcases mem_cons.1 ha with rfl | ha
    · simp
    · exact mem_cons_of_mem _ (ih ha)
  | drop b _ _ _ ih => exact mem_cons_of_mem _ (ih ha)

theorem mem_of_not_blank (h : Drops blank allowed s s') (ha : a ∈ s)
    (hblank : ¬ blank a) : a ∈ s' := by
  induction h with
  | nil => exact ha
  | keep b _ ih =>
    rcases mem_cons.1 ha with rfl | ha
    · simp
    · exact mem_cons_of_mem _ (ih ha)
  | drop b hb _ _ ih =>
    rcases mem_cons.1 ha with rfl | ha
    · exact absurd hb hblank
    · exact ih ha

theorem cons_of_not_blank {u : List α} (h : Drops blank allowed (a :: s) u)
    (ha : ¬ blank a) : ∃ s', u = a :: s' ∧ Drops blank allowed s s' := by
  cases h with
  | @keep _ _ s' h => exact ⟨s', rfl, h⟩
  | drop _ hblank _ _ => exact absurd hblank ha

theorem eq_of_not_blank (h : Drops blank allowed s s') (hs : ∀ a ∈ s, ¬ blank a) : s' = s := by
  induction h with
  | nil => rfl
  | keep a _ ih => rw [ih fun b hb => hs b (mem_cons_of_mem _ hb)]
  | drop a ha _ _ _ => exact absurd ha (hs a (mem_cons_self))

theorem trans (hallowed : ∀ {s s' : List α}, allowed s → Drops blank allowed s s' → allowed s')
    {s'' : List α} (h : Drops blank allowed s s') (h' : Drops blank allowed s' s'') :
    Drops blank allowed s s'' := by
  induction h generalizing s'' with
  | nil => exact h'
  | keep a _ ih =>
    cases h' with
    | keep _ h' => exact keep a (ih h')
    | drop _ ha hend h' => exact drop a ha hend (ih h')
  | drop a ha hend _ ih => exact drop a ha (hallowed hend h') (ih h')

end Drops

end Drops

/-- The column that a text ends in when it starts in column `k`. -/
def columnFrom (k : ℕ) (s : List Char) : ℕ := s.foldl (fun k c => if c = '\n' then 0 else k + 1) k

/-- The number of characters after the last line feed. -/
def column (s : List Char) : ℕ := columnFrom 0 s

@[simp] theorem columnFrom_nil (k : ℕ) : columnFrom k [] = k := rfl

@[simp] theorem columnFrom_cons (k : ℕ) (c : Char) (s : List Char) :
    columnFrom k (c :: s) = columnFrom (if c = '\n' then 0 else k + 1) s := rfl

theorem columnFrom_append (k : ℕ) (s t : List Char) :
    columnFrom k (s ++ t) = columnFrom (columnFrom k s) t := foldl_append

theorem column_append (s t : List Char) : column (s ++ t) = columnFrom (column s) t :=
  columnFrom_append 0 s t

theorem columnFrom_of_notMem (h : '\n' ∉ s) (k : ℕ) : columnFrom k s = k + s.length := by
  induction s generalizing k with
  | nil => rfl
  | cons c s ih =>
    have hc : c ≠ '\n' := fun heq => h (by simp [heq])
    rw [columnFrom_cons, if_neg hc, ih fun hmem => h (mem_cons_of_mem _ hmem)]
    simp only [length_cons]
    omega

theorem columnFrom_of_mem (h : '\n' ∈ s) (k : ℕ) :
    columnFrom k s = (s.rtakeWhile (· ≠ '\n')).length := by
  induction s using List.reverseRecOn with
  | nil => simp at h
  | append_singleton s c ih =>
    rw [columnFrom_append, rtakeWhile_concat]
    by_cases hc : c = '\n'
    · simp [hc]
    · have hs : '\n' ∈ s := by simpa [Ne.symm hc] using h
      simp [hc, ih hs]

section Ends

variable (newline : List Char)

def IsBlank (c : Char) : Prop := c = ' ' ∨ c = '\t'

instance (c : Char) : Decidable (IsBlank c) := inferInstanceAs (Decidable (_ ∨ _))

/-- The line, or the text, ends here. -/
def Ends (s : List Char) : Prop := s = [] ∨ newline <+: s

/-- A line or the text ends here, by whatever newline. -/
def LineEnds (s : List Char) : Prop := ∀ c ∈ s.head?, c = '\r' ∨ c = '\n'

/-- A text without some blanks at the ends of its lines. -/
def Trims (s s' : List Char) : Prop := Drops IsBlank LineEnds s s'

theorem Trims.refl (s : List Char) : Trims s s := Drops.refl s

theorem LineEnds.of_drops (h : LineEnds s) (hs : Trims s s') : LineEnds s' := by
  cases hs with
  | nil => exact h
  | keep a _ => exact h
  | drop a ha _ _ =>
    rcases h a (by simp) with rfl | rfl
    · exact absurd ha (by decide)
    · exact absurd ha (by decide)

theorem Trims.trans {s'' : List Char} (h : Trims s s') (h' : Trims s' s'') : Trims s s'' :=
  Drops.trans (fun hend hs => hend.of_drops hs) h h'

theorem Trims.of_visible {lead rest : List Char} {c : Char} (hlead : ∀ b ∈ lead, IsBlank b)
    (hc : c.isWhitespace = false) (h : Trims (lead ++ c :: rest) s) :
    ∃ rest', s = lead ++ c :: rest' ∧ Trims rest rest' := by
  have hblank : ¬ IsBlank c := by
    rintro (rfl | rfl) <;> simp [Char.isWhitespace] at hc
  induction lead generalizing s with
  | nil => exact Drops.cons_of_not_blank h hblank
  | cons b lead ih =>
    have hlead' : ∀ b ∈ lead, IsBlank b := fun b' hb' => hlead b' (mem_cons_of_mem _ hb')
    cases h with
    | keep _ h =>
      obtain ⟨rest', rfl, hrest⟩ := ih hlead' h
      exact ⟨rest', rfl, hrest⟩
    | drop _ _ hend h =>
      obtain ⟨rest', rfl, hrest⟩ := ih hlead' h
      cases lead with
      | nil =>
        rcases hend c (by simp) with rfl | rfl <;> simp [Char.isWhitespace] at hc
      | cons b' lead =>
        have hb' := hlead' b' (by simp)
        rcases hend b' (by simp) with rfl | rfl
        · exact absurd hb' (by decide)
        · exact absurd hb' (by decide)

variable {newline}

theorem Ends.lineEnds (hnewline : newline = ['\n'] ∨ newline = ['\r', '\n']) {t : List Char}
    (h : Ends newline (s ++ t)) : LineEnds s := by
  intro c hc
  rcases h with hnil | ⟨rest, hrest⟩
  · obtain ⟨rfl, -⟩ := append_eq_nil_iff.1 hnil
    cases hc
  · cases s with
    | nil => cases hc
    | cons a s =>
      obtain rfl : a = c := by simpa using hc
      rcases hnewline with rfl | rfl
      · have heq := congrArg List.head? hrest
        exact Or.inr (by simpa using heq.symm)
      · have heq := congrArg List.head? hrest
        exact Or.inl (by simpa using heq.symm)

theorem columnFrom_eq_of_drops (hnewline : newline = ['\n'] ∨ newline = ['\r', '\n'])
    {c : Char} {rest : List Char} (hblank : c ≠ '\n' ∧ c ≠ '\r')
    (h : Drops IsBlank (fun r => Ends newline (r ++ c :: rest)) s s') (k : ℕ) :
    columnFrom k s' = columnFrom k s := by
  induction h generalizing k with
  | nil => rfl
  | keep a _ ih => rw [columnFrom_cons, columnFrom_cons, ih]
  | @drop a s s' ha hend _ ih =>
    have hfeed : a ≠ '\n' := by
      rintro rfl
      exact absurd ha (by decide)
    rw [columnFrom_cons, if_neg hfeed, ← ih]
    rcases hend with hnil | ⟨tail, htail⟩
    · simp at hnil
    rcases hnewline with rfl | rfl
    · cases s' with
      | nil =>
        have heq := congrArg List.head? htail
        exact absurd (by simpa using heq.symm) hblank.1
      | cons b s' =>
        have heq := congrArg List.head? htail
        obtain rfl : b = '\n' := by simpa using heq.symm
        rfl
    · cases s' with
      | nil =>
        have heq := congrArg List.head? htail
        exact absurd (by simpa using heq.symm) hblank.2
      | cons b s' =>
        simp only [cons_append, List.cons.injEq] at htail
        obtain ⟨rfl, htail⟩ := htail
        cases s' with
        | nil =>
          have heq := congrArg List.head? htail
          exact absurd (by simpa using heq.symm) hblank.1
        | cons b' s' =>
          have heq := congrArg List.head? htail
          obtain rfl : b' = '\n' := by simpa using heq.symm
          rfl

theorem count_eq_of_drops {allowed : List Char → Prop}
    (h : Drops IsBlank allowed s s') : s'.count '\n' = s.count '\n' := by
  induction h with
  | nil => rfl
  | keep a _ ih => rw [count_cons, count_cons, ih]
  | drop a ha _ _ ih =>
    have hfeed : a ≠ '\n' := by
      rintro rfl
      exact absurd ha (by decide)
    rw [ih, count_cons_of_ne hfeed]

end Ends

end Veryl.Library
