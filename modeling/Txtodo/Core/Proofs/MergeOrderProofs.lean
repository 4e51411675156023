import Txtodo.Core.Proofs.Merge3Proofs
import Txtodo.Std.Columns

/-!
# A merge with an unchanged side

With ours changed, the result is ours. With theirs changed, the copies the base has too stand in the base's
order, and each added copy behind the line that stands before it in theirs.
-/

namespace Txtodo

namespace Merge3

/-! ## Which copies are added -/

/-- Each line behind `pre` with whether the copy is one more than `base` has. -/
def marked (base : List Text) : List Text → List Text → List (Text × Bool)
  | _, [] => []
  | pre, l :: rest => (l, decide (base.count l ≤ pre.count l)) :: marked base (pre ++ [l]) rest

/-- The lines that are not placed as extra copies. -/
def own : List (Text × Bool) → List Text
  | [] => []
  | line :: rest => if line.2 then own rest else line.1 :: own rest

/-- The copies of the lines of `ours` that `other` has too, in the order of `ours`. -/
def shared (ours other : List Text) : List Text := own (marked other [] ours)

/-- `s`, with a newline at its end when `b` has one and `s` is not empty. -/
def ended (b s : Text) : Text :=
  if s ≠ [] ∧ s.getLast? ≠ some '\n' ∧ b.getLast? = some '\n' then s ++ ['\n'] else s

end Merge3

end Txtodo
