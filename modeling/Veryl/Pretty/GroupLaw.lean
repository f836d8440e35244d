import Veryl.Pretty.LineFit
import Veryl.Pretty.RenderSteps

/-!
The law of the groups: a group is laid out flat where its line then ends within the width, and only
there.
-/

namespace Veryl.Pretty

open Veryl.Library List

/-- The states and frames that a run of the renderer passes through. -/
inductive Reaches (opts : RenderOpts) (doc : Doc) : State → List Frame → Prop
  | start : Reaches opts doc .init [⟨0, .break, doc⟩]
  | turn {state : State} {frame : Frame} {stack : List Frame}
      (h : Reaches opts doc state (frame :: stack)) :
      Reaches opts doc (renderFrame frame opts state stack).1
        ((renderFrame frame opts state stack).2 ++ stack)

/-- The text up to the first line break. -/
def firstLine : Text → Text
  | [] => []
  | '\n' :: _ => []
  | '\r' :: '\n' :: _ => []
  | c :: s => c :: firstLine s

/-- The column up to which a turn writes on the line that it finds. -/
def lineEnd (opts : RenderOpts) (state : State) (frame : Frame) (stack : List Frame) : ℕ :=
  column state.out +
    (firstLine ((renderFrame frame opts state stack).1.out.drop state.out.length)).length

/-- A turn ends the line when it writes a line feed. -/
def KeepsLine (opts : RenderOpts) (state : State) (frame : Frame) (stack : List Frame) : Prop :=
  (renderFrame frame opts state stack).1.out.count '\n' = state.out.count '\n'

/-- A line comment runs to the end of its line, whatever the width. -/
def Doc.HasLineComment : Doc → Prop
  | .comments cs => ∃ c ∈ cs, c.isLineComment = true
  | _ => False

/-- The turns from a state and its frames up to the next line break or line comment. -/
inductive OnLine (opts : RenderOpts) (start : State) (frames : List Frame) :
    State → List Frame → Prop
  | here : OnLine opts start frames start frames
  | turn {state : State} {frame : Frame} {stack : List Frame}
      (h : OnLine opts start frames state (frame :: stack)) (hcomment : ¬ frame.doc.HasLineComment)
      (hline : KeepsLine opts state frame stack) :
      OnLine opts start frames (renderFrame frame opts state stack).1
        ((renderFrame frame opts state stack).2 ++ stack)

/-- The text up to the next line break ends within the width, line comments aside. -/
def Within (opts : RenderOpts) (start : State) (frames : List Frame) : Prop :=
  ∀ state stack, OnLine opts start frames state stack → column state.out ≤ opts.maxWidth ∧
      ∀ frame rest, stack = frame :: rest → ¬ frame.doc.HasLineComment →
        lineEnd opts state frame rest ≤ opts.maxWidth

namespace Doc

mutual

/-- A break that no layout can avoid. -/
def Forced : Doc → Prop
  | .concat items => ForcedAny items
  | .indent _ inner => inner.Forced
  | .group inner => inner.Forced
  | .forceFlat inner => inner.Forced
  | .hardline => True
  | .dedentHardline _ => True
  | .comments cs => ∃ c ∈ cs, c.isLineComment = true
  | _ => False

def ForcedAny : List Doc → Prop
  | [] => False
  | item :: items => item.Forced ∨ ForcedAny items

end

end Doc

/-- The law at one group: flat is within the width, and broken is either forced or
because flat is not within the width. -/
def GroupLaw (opts : RenderOpts) (state : State) (indent : ℤ) (mode : Mode) (inner : Doc)
    (stack : List Frame) : Prop :=
  let chosen := (renderFrame ⟨indent, mode, .group inner⟩ opts state stack).2
  (chosen = [⟨indent, .flat, inner⟩] → Within opts state (⟨indent, .flat, inner⟩ :: stack)) ∧
    (chosen = [⟨indent, .break, inner⟩] →
      inner.Forced ∨ ¬ Within opts state (⟨indent, .flat, inner⟩ :: stack))

section FirstLine

theorem firstLine_length_le (s : Text) : (firstLine s).length ≤ s.length := by
  fun_induction firstLine s with
  | case1 => exact Nat.le_refl 0
  | case2 s => exact Nat.zero_le _
  | case3 s => exact Nat.zero_le _
  | case4 c s hfeed hreturn ih => exact Nat.succ_le_succ ih

theorem firstLine_newline (newline : Newline) (s : Text) : firstLine (newline.chars ++ s) = [] := by
  cases newline <;> rfl

theorem firstLine_append {s : Text} (h : '\n' ∈ s) (t : Text) :
    firstLine (s ++ t) = firstLine s := by
  fun_induction firstLine s with
  | case1 => cases h
  | case2 s => rfl
  | case3 s => rfl
  | case4 c s hfeed hreturn ih =>
    have hc : c ≠ '\n' := fun heq => hfeed heq
    have hs : '\n' ∈ s := by simpa [Ne.symm hc] using h
    rw [cons_append, firstLine, ih hs]
    · exact hfeed
    · intro s' hc' hs'
      cases s with
      | nil => cases hs
      | cons d s =>
        refine hreturn s hc' ?_
        simp only [cons_append, List.cons.injEq] at hs'
        rw [hs'.1]

theorem firstLine_cons_le (c : Char) (s : Text) :
    (firstLine (c :: s)).length ≤ (firstLine s).length + 1 := by
  rw [firstLine.eq_def (c :: s)]
  split <;> simp_all

theorem firstLine_append_le (s t : Text) :
    (firstLine (s ++ t)).length ≤ s.length + (firstLine t).length := by
  induction s with
  | nil => simp
  | cons c s ih =>
    have hcons := firstLine_cons_le c (s ++ t)
    simp only [cons_append, length_cons]
    omega

end FirstLine

end Veryl.Pretty
