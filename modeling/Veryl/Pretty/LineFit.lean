import Veryl.Pretty.Render

/-!
The look-ahead of the renderer, taken over the frames that are left.
-/

namespace Veryl.Pretty

open List

variable {stack : List Frame} {budget indent : ℤ} {mode : Mode}

/-- The look-ahead over the frames themselves, each in its own mode. -/
def fitsFrames : List Frame → ℤ → Bool
  | [], budget => 0 ≤ budget
  | frame :: stack, budget =>
    match fitsItem (frame.mode = .flat) frame.doc budget with
    | .decided fits => fits
    | .left budget => fitsFrames stack budget

theorem fitsFrames_nil (budget : ℤ) : fitsFrames [] budget = decide (0 ≤ budget) := rfl

theorem fitsFrames_cons (frame : Frame) (stack : List Frame) (budget : ℤ) :
    fitsFrames (frame :: stack) budget =
      match fitsItem (frame.mode = .flat) frame.doc budget with
      | .decided fits => fits
      | .left budget => fitsFrames stack budget := rfl

theorem fitsItems_cons (inStart : Bool) (item : Doc) (items : List Doc) (budget : ℤ) :
    fitsItems inStart (item :: items) budget =
      match fitsItem inStart item budget with
      | .decided fits => .decided fits
      | .left budget => fitsItems inStart items budget := rfl

/-- The outcome with more room is no worse, and keeps what is more. -/
def Fit.Grows (more : ℤ) : Fit → Fit → Prop
  | .decided true, fit => fit = .decided true
  | .decided false, _ => True
  | .left budget, fit => fit = .left (budget + more)

section Room

variable {more : ℤ}

mutual

theorem fitsItem_grows (hmore : 0 ≤ more) (inStart : Bool) (doc : Doc) (budget : ℤ) :
    (fitsItem inStart doc budget).Grows more (fitsItem inStart doc (budget + more)) := by
  rw [fitsItem.eq_def inStart doc budget, fitsItem.eq_def inStart doc (budget + more)]
  dsimp only
  split
  · trivial
  rename_i hbudget
  rw [if_neg (by omega)]
  cases doc with
  | nil => rfl
  | concat items => exact fitsItems_grows hmore inStart items budget
  | indent off inner => exact fitsItem_grows hmore inStart inner budget
  | group inner => exact fitsItem_grows hmore inStart inner budget
  | forceFlat inner => exact fitsItem_grows hmore inStart inner budget
  | line sep =>
    cases inStart with
    | true => exact congrArg Fit.left (by omega)
    | false => rfl
  | hardline => cases inStart <;> trivial
  | dedentHardline level => cases inStart <;> trivial
  | comments cs =>
    simp only
    split
    · cases inStart <;> trivial
    · exact congrArg Fit.left (by omega)
  | ifBreak s => rfl
  | ifBreakPad width => rfl
  | text s => exact congrArg Fit.left (by omega)
  | pad width => exact congrArg Fit.left (by omega)
  | ifFlatPad width => exact congrArg Fit.left (by omega)
  | anchored a => exact congrArg Fit.left (by omega)

theorem fitsItems_grows (hmore : 0 ≤ more) (inStart : Bool) (items : List Doc) (budget : ℤ) :
    (fitsItems inStart items budget).Grows more (fitsItems inStart items (budget + more)) := by
  cases items with
  | nil => rfl
  | cons item items =>
    have hitem := fitsItem_grows hmore inStart item budget
    simp only [fitsItems_cons]
    cases hfit : fitsItem inStart item budget with
    | decided fits =>
      rw [hfit] at hitem
      cases fits with
      | false => trivial
      | true =>
        have heq : fitsItem inStart item (budget + more) = .decided true := hitem
        simp only [heq]
        rfl
    | left rest =>
      rw [hfit] at hitem
      have heq : fitsItem inStart item (budget + more) = .left (rest + more) := hitem
      simp only [heq]
      exact fitsItems_grows hmore inStart items rest

end

theorem fitsFrames_mono {budget' : ℤ}
    (h : fitsFrames stack budget = true) (hle : budget ≤ budget') :
    fitsFrames stack budget' = true := by
  obtain ⟨more, rfl⟩ : ∃ more, budget' = budget + more := ⟨budget' - budget, by omega⟩
  have hmore : 0 ≤ more := by omega
  induction stack generalizing budget with
  | nil =>
    simp only [fitsFrames_nil, decide_eq_true_eq] at h ⊢
    omega
  | cons frame stack ih =>
    have hitem := fitsItem_grows hmore (frame.mode = .flat) frame.doc budget
    simp only [fitsFrames_cons] at h ⊢
    cases hfit : fitsItem (frame.mode = .flat) frame.doc budget with
    | decided fits =>
      simp only [hfit] at h hitem
      rw [h] at hitem
      have heq : fitsItem (frame.mode = .flat) frame.doc (budget + more) = .decided true :=
        hitem
      simp only [heq]
    | left rest =>
      simp only [hfit] at h hitem
      have heq : fitsItem (frame.mode = .flat) frame.doc (budget + more) =
          .left (rest + more) := hitem
      simp only [heq]
      exact ih h (by omega)

end Room

theorem fitsFrames_nonneg (h : fitsFrames stack budget = true) : 0 ≤ budget := by
  cases stack with
  | nil => simpa [fitsFrames_nil] using h
  | cons frame stack =>
    by_contra hneg
    simp [fitsFrames_cons, fitsItem_negative _ _ (Int.not_le.1 hneg)] at h

theorem fitsFrames_text {s : Text}
    (h : fitsFrames (⟨indent, mode, .text s⟩ :: stack) budget = true) :
    fitsFrames stack (budget - s.length) = true := by
  have hnonneg := fitsFrames_nonneg h
  simp only [fitsFrames_cons] at h
  rw [fitsItem.eq_def] at h
  dsimp only at h
  rw [if_neg (Int.not_lt.2 hnonneg)] at h
  exact h

theorem fitsFrames_pad {width : ℕ}
    (h : fitsFrames (⟨indent, mode, .pad width⟩ :: stack) budget = true) :
    fitsFrames stack (budget - width) = true := by
  have hnonneg := fitsFrames_nonneg h
  simp only [fitsFrames_cons] at h
  rw [fitsItem.eq_def] at h
  dsimp only at h
  rw [if_neg (Int.not_lt.2 hnonneg)] at h
  exact h

theorem fitsFrames_items (indent : ℤ) (mode : Mode) (items : List Doc) (stack : List Frame)
    (budget : ℤ) :
    fitsFrames (items.map (Frame.mk indent mode) ++ stack) budget =
      match fitsItems (mode = .flat) items budget with
      | .decided fits => fits
      | .left budget => fitsFrames stack budget := by
  induction items generalizing budget with
  | nil => rfl
  | cons item items ih =>
    simp only [map_cons, cons_append, fitsFrames_cons, fitsItems_cons]
    cases fitsItem (mode = .flat) item budget with
    | decided fits => rfl
    | left rest => exact ih rest

theorem fitsFrames_break (h : ∀ frame ∈ stack, frame.mode = .break) (budget : ℤ) :
    fitsFrames stack budget =
      match fitsItems false (stack.map (·.doc)) budget with
      | .decided fits => fits
      | .left budget => 0 ≤ budget := by
  induction stack generalizing budget with
  | nil => rfl
  | cons frame stack ih =>
    have hmode := h frame mem_cons_self
    simp only [map_cons, fitsFrames_cons, fitsItems_cons, hmode, reduceCtorEq, decide_false]
    cases fitsItem false frame.doc budget with
    | decided fits => rfl
    | left rest => exact ih (fun frame' hframe' => h frame' (mem_cons_of_mem _ hframe')) rest

/-- The question that the renderer asks at a group. -/
theorem fitsFlat_eq (h : ∀ frame ∈ stack, frame.mode = .break) (indent : ℤ)
    (inner : Doc) (budget : ℤ) :
    fitsFlat inner stack budget = fitsFrames (⟨indent, .flat, inner⟩ :: stack) budget := by
  simp only [fitsFlat, fitsFrames_cons, decide_true]
  split
  · rename_i hneg
    simp [fitsItem_negative _ _ hneg]
  · cases fitsItem true inner budget with
    | decided fits => rfl
    | left rest => exact (fitsFrames_break h rest).symm

/-- The outcome is the same, or a break opportunity was reached. -/
def Fit.OrEnds (flat fit : Fit) : Prop := fit = .decided true ∨ flat = fit

mutual

theorem fitsItem_flat (doc : Doc) (budget : ℤ) :
    (fitsItem true doc budget).OrEnds (fitsItem false doc budget) := by
  rw [fitsItem.eq_def true doc budget, fitsItem.eq_def false doc budget]
  dsimp only
  split
  · exact Or.inr rfl
  cases doc with
  | concat items => exact fitsItems_flat items budget
  | indent off inner => exact fitsItem_flat inner budget
  | group inner => exact fitsItem_flat inner budget
  | forceFlat inner => exact fitsItem_flat inner budget
  | line sep => exact Or.inl rfl
  | hardline => exact Or.inl rfl
  | dedentHardline level => exact Or.inl rfl
  | comments cs =>
    simp only
    split
    · exact Or.inl rfl
    · exact Or.inr rfl
  | _ => exact Or.inr rfl

theorem fitsItems_flat (items : List Doc) (budget : ℤ) :
    (fitsItems true items budget).OrEnds (fitsItems false items budget) := by
  cases items with
  | nil => exact Or.inr rfl
  | cons item items =>
    simp only [fitsItems_cons]
    rcases fitsItem_flat item budget with hends | heq
    · simp only [hends]
      exact Or.inl rfl
    · simp only [heq]
      cases fitsItem false item budget with
      | decided fits => exact Or.inr rfl
      | left rest => exact fitsItems_flat items rest

end

theorem fitsFrames_flat {inner : Doc}
    (h : fitsFrames (⟨indent, .break, inner⟩ :: stack) budget = false) :
    fitsFrames (⟨indent, .flat, inner⟩ :: stack) budget = false := by
  simp only [fitsFrames_cons, decide_true] at h ⊢
  rcases fitsItem_flat inner budget with hends | heq
  · simp [hends] at h
  · rw [heq]
    exact h

end Veryl.Pretty
