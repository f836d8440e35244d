import Mathlib

/-!
Regions of a variable: intervals of unpacked-array elements and of packed bits.
-/

namespace Veryl.Analyzer

structure ArraySpan where
  start : ℕ
  length : ℕ
  deriving DecidableEq, Repr

structure PackedSpan where
  start : ℕ
  length : ℕ
  deriving DecidableEq, Repr

end Veryl.Analyzer
