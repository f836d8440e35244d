import Mathlib

/-!
The documents of the pretty printer. A text is the list of its characters.
-/

namespace Veryl.Pretty

abbrev Text := List Char

structure CommentDoc where
  text : Text
  leadingNewlines : ℕ
  isLineComment : Bool
  srcLine : ℕ
  srcColumn : ℕ
  deriving DecidableEq

structure AnchoredText where
  text : Text
  srcLine : ℕ
  srcColumn : ℕ
  deriving DecidableEq

inductive Doc where
  | nil
  | text (s : Text)
  | concat (items : List Doc)
  | indent (off : ℤ) (inner : Doc)
  | group (inner : Doc)
  | forceFlat (inner : Doc)
  | line (sep : Text)
  | hardline
  | dedentHardline (level : ℕ)
  | comments (cs : List CommentDoc)
  | ifBreak (s : Text)
  | ifBreakPad (width : ℕ)
  | pad (width : ℕ)
  | ifFlatPad (width : ℕ)
  | anchored (a : AnchoredText)

namespace Doc

mutual

/-- The number of nodes, each of which takes one turn of the renderer. -/
def size : Doc → ℕ
  | .concat items => sizeAll items + 1
  | .indent _ inner | .group inner | .forceFlat inner => inner.size + 1
  | _ => 1

def sizeAll : List Doc → ℕ
  | [] => 0
  | item :: items => item.size + sizeAll items

end

end Doc

end Veryl.Pretty
