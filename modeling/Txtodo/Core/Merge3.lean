import Txtodo.Core.Types

/-!
# Three-way merge

Merging two edits of a text line by line (`merge3.rs`). Lines are told apart by their text only; the result
holds as many copies of each as the changes of both sides leave.
-/

namespace Txtodo

namespace Merge3

/-- How often each line occurs; a line that has no entry occurs 0 times. -/
abbrev Counts := Text → Nat

namespace Counts

def empty : Counts := fun _ => 0

/-- One more copy of `line`. -/
def bump (m : Counts) (line : Text) : Counts := fun l => if l = line then m l + 1 else m l

@[simp] theorem empty_apply (l : Text) : empty l = 0 := rfl

theorem bump_apply (m : Counts) (line l : Text) :
    m.bump line l = m l + if l = line then 1 else 0 := by
  unfold bump
  split_ifs <;> rfl

end Counts

def counts (lines : List Text) : Counts := lines.foldl Counts.bump Counts.empty

/-- The lines of `text`: split on `\n`, one trailing newline not counting as a last empty line. -/
def lines (text : Text) : List Text :=
  let body := if text.getLast? = some '\n' then text.dropLast else text
  if body.isEmpty && text.isEmpty then [] else body.splitOn '\n'

/-- `out` as text, ending in a newline when either side's file did. -/
def join (out : List Text) (ours theirs : Text) : Text :=
  if out.isEmpty then []
  else
    let text := ['\n'].intercalate out
    if ours.getLast? = some '\n' ∨ theirs.getLast? = some '\n' then text ++ ['\n'] else text

/-- How many copies of `line` the result holds. -/
def want (nb no nt : Counts) (line : Text) : Nat :=
  let b := nb line
  let o := no line
  let t := nt line
  let deleted := max (b - o) (b - t)
  let added := max (o - b) (t - b)
  (b - min deleted b) + added

/-- Ours in its order, up to the copies wanted, and how many of each were taken. -/
def takeOurs (want : Text → Nat) (ours : List Text) : List Text × Counts :=
  ours.foldl (fun s line =>
    if s.2 line < want line then (s.1 ++ [line], s.2.bump line) else s) ([], Counts.empty)

/-- Which copies of each owed line are extra: counting from the end of `theirs`. -/
def extra (owed : Counts) (theirs : List Text) : Counts × List Bool :=
  theirs.foldr (fun line s => (s.1.bump line, decide (s.1 line < owed line) :: s.2)) (Counts.empty, [])

/-- The last position of `line` in `out`. -/
def rposition (out : List Text) (line : Text) : Option Nat :=
  (out.reverse.findIdx? (· = line)).map fun i => out.length - 1 - i

/-- Places one line of `theirs`: an extra copy goes behind the line placed or found last. -/
def insertLine (s : List Text × Option Nat) (line : Text × Bool) : List Text × Option Nat :=
  if line.2 then
    let at_ := s.2.elim 0 (· + 1)
    (s.1.insertIdx at_ line.1, some at_)
  else
    match rposition s.1 line.1 with
    | some pos => (s.1, some pos)
    | none => s

/-- Puts the `owed` copies of lines `theirs` has into `out`, each after the nearest earlier line of
`theirs` that `out` has. -/
def insertTheirs (out : List Text) (theirs : List Text) (owed : Counts) : List Text :=
  ((theirs.zip (extra owed theirs).2).foldl insertLine (out, none)).1

end Merge3

/-- Merges `ours` and `theirs`, two edits of `base`. -/
def merge3 (base ours theirs : Text) : Text :=
  let b := Merge3.lines base
  let o := Merge3.lines ours
  let t := Merge3.lines theirs
  let nt := Merge3.counts t
  let want := Merge3.want (Merge3.counts b) (Merge3.counts o) nt
  let taken := Merge3.takeOurs want o
  let owed : Merge3.Counts := fun line => if 0 < nt line then want line - taken.2 line else 0
  Merge3.join (Merge3.insertTheirs taken.1 t owed) ours theirs

end Txtodo
