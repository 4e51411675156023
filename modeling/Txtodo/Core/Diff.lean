import Txtodo.Std.EditGraph
import Txtodo.Model.Op
import Mathlib.Logic.Function.Basic
import Mathlib.Data.Int.Order.Basic

/-!
# Character diffs

`diff.rs`: Myers' greedy forward search over the diagonals of the edit graph, the walk back through
the vectors it recorded, and the runs `diff_text` merges the steps into.
-/

namespace Txtodo

open EditGraph

/-- The vector `v` of the search: the entry `v[k + off]` is `v k`. -/
abbrev Diagonals := Int → Nat

section
variable {α : Type} [DecidableEq α]

/-- How far the two lists agree. -/
def commonPrefix : List α → List α → Nat
  | x :: a, y :: b => if x = y then commonPrefix a b + 1 else 0
  | _, _ => 0

/-- Whether the edge that reaches diagonal `k` after `d` edits is an insertion. -/
def stepsDown (v : Diagonals) (d : Nat) (k : Int) : Bool :=
  k = -d || (k ≠ d && v (k - 1) < v (k + 1))

/-- The furthest point on diagonal `k` after `d` edits: the best edge onto the diagonal, then every
match in a row. -/
def reach (a b : List α) (v : Diagonals) (d : Nat) (k : Int) : Nat × Nat :=
  let x := if stepsDown v d k then v (k + 1) else v (k - 1) + 1
  let y := (x - k).toNat
  let run := commonPrefix (a.drop x) (b.drop y)
  (x + run, y + run)

/-- The loop over the diagonals `k, k + 2, ..` of one round, `rounds` of them: `none` when one of
them reaches the far corner. -/
def sweep (a b : List α) (d : Nat) : Nat → Int → Diagonals → Option Diagonals
  | 0, _, v => some v
  | rounds + 1, k, v =>
    let (x, y) := reach a b v d k
    let v := Function.update v k x
    if a.length ≤ x ∧ b.length ≤ y then none else sweep a b d rounds (k + 2) v

end

/-- The steps back along a diagonal, put in front of the later `steps`. -/
def walkKeeps : Nat → Int → Int → List Step → List Step
  | 0, _, _, steps => steps
  | run + 1, x, y, steps =>
    walkKeeps run (x - 1) (y - 1) (.keep (x - 1).toNat (y - 1).toNat :: steps)

/-- Walks the recorded vectors, the newest first, back from `(x, y)` to the origin. -/
def backtrack : List Diagonals → Int → Int → List Step → List Step
  | [], _, _, steps => steps
  | v :: trace, x, y, steps =>
    let d := trace.length
    let k := x - y
    let down := stepsDown v d k
    let prevK := if down then k + 1 else k - 1
    let (prevX, prevY) : Int × Int := if d = 0 then (0, 0) else (v prevK, v prevK - prevK)
    let steps := walkKeeps (min (x - prevX) (y - prevY)).toNat x y steps
    if 0 < d then
      backtrack trace prevX prevY
        ((if down then .insert prevY.toNat else .delete prevX.toNat) :: steps)
    else steps

section
variable {α : Type} [DecidableEq α]

/-- The rounds of the search from round `d` on, `none` when none of `rounds` more rounds reaches the
far corner. -/
def searchFrom (a b : List α) : Nat → Nat → Diagonals → List Diagonals → Option (List Step)
  | 0, _, _, _ => none
  | rounds + 1, d, v, trace =>
    match sweep a b d (d + 1) (-d) v with
    | none => some (backtrack (v :: trace) a.length b.length [])
    | some next => searchFrom a b rounds (d + 1) next (v :: trace)

/-- Greedy forward Myers, `none` for the `unreachable!` past its last round. -/
def myers (a b : List α) : Option (List Step) :=
  searchFrom a b (a.length + b.length + 1) 0 (fun _ => 0) []

end

/-- Merges one step into the runs so far, the newest first. -/
def pushStep (b : Text) : List TextEdit → Step → List TextEdit
  | .delete at_ len :: out, .delete i =>
    if at_ + len = i then .delete at_ (len + 1) :: out else .delete i 1 :: .delete at_ len :: out
  | .insert at_ text :: out, .insert j =>
    if at_ + text.length = j then .insert at_ (text ++ (b[j]?).toList) :: out
    else .insert j (b[j]?).toList :: .insert at_ text :: out
  | out, .delete i => .delete i 1 :: out
  | out, .insert j => .insert j (b[j]?).toList :: out
  | out, .keep _ _ => out

/-- Char-level diff of `a` to `b`, merged into runs. -/
def diffText (a b : Text) : Option (List TextEdit) :=
  (myers a b).map fun steps => (steps.foldl (pushStep b) []).reverse

example : diffText "abcdefg".toList "abXYZdeg".toList =
    some [.delete 2 1, .insert 2 "XYZ".toList, .delete 5 1] := by decide

end Txtodo

/-!
## The search over its arrays

Myers' search as `diff.rs` runs it: diagonal `k` is the entry `k + off` of a vector, `off` in its middle.
Every index and every cast is checked; a result means that none of them was out of range.
-/

namespace Txtodo

open EditGraph

/-- The entry at `i`, `none` for an index that is not one of the vector's. -/
def entryAt (v : List Nat) (i : Int) : Option Nat := if i < 0 then none else v[i.toNat]?

def setAt (v : List Nat) (i : Int) (x : Nat) : Option (List Nat) :=
  if i < 0 ∨ v.length ≤ i.toNat then none else some (v.set i.toNat x)

/-- `stepsDown`; the entries beside `k` are read only when `k` is neither end of the round. -/
def stepsDownAt (v : List Nat) (off d : Nat) (k : Int) : Option Bool :=
  if k = -d then some true
  else if k = d then some false
  else (entryAt v (k + off - 1)).bind fun l => (entryAt v (k + off + 1)).map fun r => l < r

section
variable {α : Type} [DecidableEq α]

/-- `reach`, with the cast of the second coordinate. -/
def reachAt (a b : List α) (v : List Nat) (off d : Nat) (k : Int) : Option (Nat × Nat) :=
  (stepsDownAt v off d k).bind fun down =>
    (if down then entryAt v (k + off + 1) else (entryAt v (k + off - 1)).map (· + 1)).bind fun x =>
      if (x : Int) - k < 0 then none
      else
        let y := (x - k).toNat
        let run := commonPrefix (a.drop x) (b.drop y)
        some (x + run, y + run)

/-- `sweep`: `some none` when the far corner is reached. -/
def sweepAt (a b : List α) (off d : Nat) : Nat → Int → List Nat → Option (Option (List Nat))
  | 0, _, v => some (some v)
  | rounds + 1, k, v =>
    (reachAt a b v off d k).bind fun p =>
      (setAt v (k + off) p.1).bind fun v =>
        if a.length ≤ p.1 ∧ b.length ≤ p.2 then some none else sweepAt a b off d rounds (k + 2) v

end

/-- `backtrack`, with the casts of the coordinates it writes. -/
def backtrackAt (off : Nat) : List (List Nat) → Int → Int → List Step → Option (List Step)
  | [], _, _, steps => some steps
  | v :: trace, x, y, steps =>
    let d := trace.length
    let k := x - y
    (stepsDownAt v off d k).bind fun down =>
      let prevK := if down then k + 1 else k - 1
      if d = 0 then some (walkKeeps (min (x - 0) (y - 0)).toNat x y steps)
      else
        (entryAt v (prevK + off)).bind fun prevX =>
          let prevY : Int := prevX - prevK
          if prevY < 0 then none
          else
            backtrackAt off trace prevX prevY
              ((if down then .insert prevY.toNat else .delete prevX) ::
                walkKeeps (min (x - prevX) (y - prevY)).toNat x y steps)

section
variable {α : Type} [DecidableEq α]

def searchAt (a b : List α) (off : Nat) : Nat → Nat → List Nat → List (List Nat) → Option (List Step)
  | 0, _, _, _ => none
  | rounds + 1, d, v, trace =>
    (sweepAt a b off d (d + 1) (-d) v).bind fun swept =>
      match swept with
      | none => backtrackAt off (v :: trace) a.length b.length []
      | some next => searchAt a b off rounds (d + 1) next (v :: trace)

/-- `myers` over vectors of `2 * (n + m) + 2` entries. -/
def myersAt (a b : List α) : Option (List Step) :=
  let max := a.length + b.length
  searchAt a b max (max + 1) 0 (List.replicate (2 * max + 2) 0) []

end

example : myersAt "abcdefg".toList "abXYZdeg".toList = myers "abcdefg".toList "abXYZdeg".toList := by
  decide

end Txtodo
