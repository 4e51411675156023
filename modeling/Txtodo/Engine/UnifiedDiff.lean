import Txtodo.Core.Types
import Txtodo.Std.UnifiedFormat

/-!
# Unified diffs

What a dry run would change, line by line (`unified_diff.rs`). The common start and end of the documents are
set aside, a table of longest common subsequences aligns what is left, and each stretch of changes is written
with three lines around it.
-/

namespace Txtodo

namespace UnifiedDiff

open Patch (Kind)

/-- Lines of unchanged text kept around each change. -/
def CONTEXT : Nat := 3

/-- Most cells of the table. -/
def MAX_LCS_CELLS : Nat := 4000000

/-- Where each document ends. -/
structure Ends where
  oldLines : Nat
  newLines : Nat
  oldNewline : Bool
  newNewline : Bool

/-- The line just written is the last of its document and that document has no trailing newline. -/
def incomplete (ends : Ends) (oldIdx newIdx : Option Nat) : Bool :=
  let oldLast := oldIdx.any (fun i => i + 1 = ends.oldLines) && !ends.oldNewline
  let newLast := newIdx.any (fun i => i + 1 = ends.newLines) && !ends.newNewline
  oldLast || newLast

/-- The pieces between newlines, less a last empty one. -/
def splitTerminator (text : Text) : List Text :=
  let parts := text.splitOn '\n'
  if parts.getLast? = some [] then parts.dropLast else parts

def endsWithNewline (text : Text) : Bool := text.getLast? = some '\n'

/-- How many pairs of equal lines two lists start with. -/
def common (a b : List Text) : Nat := ((a.zip b).takeWhile fun p => p.1 = p.2).length

/-- A row of the table from the one below it, for the line `x` and the lines `b`. -/
def lcsRow (x : Text) : List Text → List Nat → List Nat
  | [], _ => [0]
  | y :: b, below =>
    let rest := lcsRow x b below.tail
    (if x = y then below.tail.headD 0 + 1 else max (below.headD 0) (rest.headD 0)) :: rest

/-- At `i` and `j`: the length of the longest common subsequence of `a` from `i` and `b` from `j`. -/
def lcsTable (a b : List Text) : List (List Nat) :=
  a.foldr (fun x rows => lcsRow x b (rows.headD []) :: rows) [List.replicate (b.length + 1) 0]

def lcsAt (lcs : List (List Nat)) (i j : Nat) : Nat := (lcs.getD i []).getD j 0

/-- At most `fuel` steps of the walk from `i` and `j`. -/
def walk (a b : List Text) (lcs : Nat → Nat → Nat) : Nat → Nat → Nat → List (Kind × Text)
  | 0, _, _ => []
  | fuel + 1, i, j =>
    if i < a.length ∨ j < b.length then
      if i < a.length ∧ j < b.length ∧ a.getD i [] = b.getD j [] then
        (.same, a.getD i []) :: walk a b lcs fuel (i + 1) (j + 1)
      else if j = b.length ∨ (i < a.length ∧ lcs i (j + 1) ≤ lcs (i + 1) j) then
        (.del, a.getD i []) :: walk a b lcs fuel (i + 1) j
      else (.add, b.getD j []) :: walk a b lcs fuel i (j + 1)
    else []

/-- The edit script of the differing middle: a walk over the table, or a whole replacement when too big. -/
def middle (a b : List Text) : List (Kind × Text) :=
  if MAX_LCS_CELLS < a.length * b.length then (a.map fun l => (.del, l)) ++ b.map fun l => (.add, l)
  else walk a b (lcsAt (lcsTable a b)) (a.length + b.length) 0 0

/-- One entry per line of the merged document, in order. -/
def editScript (a b : List Text) : List (Kind × Text) :=
  let pre := common a b
  let suf := common (a.drop pre).reverse (b.drop pre).reverse
  ((a.take pre).map fun l => (.same, l)) ++
    middle ((a.take (a.length - suf)).drop pre) ((b.take (b.length - suf)).drop pre) ++
    (a.drop (a.length - suf)).map fun l => (.same, l)

/-- The range around the change at `i`, or the last one extended by it. -/
def pushHunk (len : Nat) (out : List (Nat × Nat)) (i : Nat) : List (Nat × Nat) :=
  let start := i - CONTEXT
  let end_ := min (i + 1 + CONTEXT) len
  match out.getLast? with
  | some last => if start ≤ last.2 then out.dropLast ++ [(last.1, end_)] else out ++ [(start, end_)]
  | none => out ++ [(start, end_)]

/-- Ranges of the script, each holding changes with the lines around them. -/
def hunks (script : List (Kind × Text)) : List (Nat × Nat) :=
  script.zipIdx.foldl (fun out e => if e.1.1 = .same then out else pushHunk script.length out e.2) []

/-- How many lines of a range are in the document that has its unchanged lines and the `keep` ones. -/
def count (range : List (Kind × Text)) (keep : Kind) : Nat :=
  (range.filter fun e => e.1 = .same ∨ e.1 = keep).length

/-- An empty side is numbered by the line before it. -/
def first (before len : Nat) : Nat := if len = 0 then before else before + 1

def writeLines (ends : Ends) : List (Kind × Text) → Nat → Nat → Text
  | [], _, _ => []
  | (kind, line) :: range, oldIdx, newIdx =>
    let oldAt := if kind = .add then none else some oldIdx
    let newAt := if kind = .del then none else some newIdx
    (UnifiedFormat.sign kind :: line) ++ '\n' ::
      ((if incomplete ends oldAt newAt then "\\ No newline at end of file\n".toList else []) ++
        writeLines ends range (oldIdx + if oldAt.isSome then 1 else 0)
          (newIdx + if newAt.isSome then 1 else 0))

def writeHunk (script : List (Kind × Text)) (start end_ : Nat) (ends : Ends) : Text :=
  let oldBefore := count (script.take start) .del
  let newBefore := count (script.take start) .add
  let range := (script.take end_).drop start
  let oldLen := count range .del
  let newLen := count range .add
  "@@ -".toList ++ Nat.toDigits 10 (first oldBefore oldLen) ++ ",".toList ++ Nat.toDigits 10 oldLen ++
    " +".toList ++ Nat.toDigits 10 (first newBefore newLen) ++ ",".toList ++ Nat.toDigits 10 newLen ++
    " @@\n".toList ++ writeLines ends range oldBefore newBefore

/-- The two lines that name the document. -/
def fileHeader (path : Text) : Text :=
  "--- a/".toList ++ path ++ "\n+++ b/".toList ++ path ++ "\n".toList

/-- Where nothing but the end differs, the last line is shown as removed and added. -/
def markLast (script : List (Kind × Text)) : List (Kind × Text) :=
  if script.all fun e => e.1 = .same then
    match script.getLast? with
    | some (_, last) => script.dropLast ++ [(.del, last), (.add, last)]
    | none => script
  else script

end UnifiedDiff

open UnifiedDiff in
/-- The diff from `old` to `new` for the document at `path`; empty when they are the same. -/
def unifiedDiff (path old new : Text) : Text :=
  if old = new then []
  else
    let a := splitTerminator old
    let b := splitTerminator new
    let ends : Ends := ⟨a.length, b.length, endsWithNewline old, endsWithNewline new⟩
    let script := markLast (editScript a b)
    fileHeader path ++ (hunks script).flatMap fun r => writeHunk script r.1 r.2 ends

/-- What a patch for the document at `path` makes of it. -/
def applyPatch (path patch old : Text) : Option Text :=
  if (UnifiedDiff.fileHeader path).isPrefixOf patch then
    UnifiedFormat.applyTo (patch.drop (UnifiedDiff.fileHeader path).length) old
  else none

example : unifiedDiff "todo.txt".toList "a\nb".toList "a\nb\n".toList =
    "--- a/todo.txt\n+++ b/todo.txt\n@@ -1,2 +1,2 @@\n a\n-b\n\\ No newline at end of file\n+b\n".toList := by
  decide

end Txtodo
