import Txtodo.Core.Types

/-!
# The complete chip

The prompt bar completes or reopens a line as text (`toggle_complete_text` of `chips.rs`), with its own
reading of a priority and a date.
-/

namespace Txtodo.Chips

/-- `(X) ` or a bare `(X)` at the start: the letter and the rest. -/
def stripPriority : Text → Option (Char × Text)
  | '(' :: letter :: ')' :: rest =>
    if letter.isUpper then
      some (letter, match rest with
        | ' ' :: rest => rest
        | rest => rest)
    else none
  | _ => none

/-- `YYYY-MM-DD` at the start of `s`. -/
def isDate : Text → Bool
  | y1 :: y2 :: y3 :: y4 :: s1 :: m1 :: m2 :: s2 :: d1 :: d2 :: _ =>
    [y1, y2, y3, y4].all (·.isDigit) && s1 = '-' && [m1, m2].all (·.isDigit) && s2 = '-' &&
      [d1, d2].all (·.isDigit)
  | _ => false

/-- `date [" " rest]` covering all of `s`: the date and the rest. -/
def splitDate (s : Text) : Option (Text × Text) :=
  if !isDate s then none
  else match s.drop 10 with
    | [] => some (s.take 10, [])
    | ' ' :: rest => some (s.take 10, rest)
    | _ => none

/-- `x <done> [<created>] [<description>]` covering the whole line: the creation date and the
description. -/
def splitCompleted : Text → Option (Option Text × Text)
  | 'x' :: ' ' :: rest =>
    match splitDate rest with
    | none => none
    | some (_, rest) =>
      match splitDate rest with
      | some (created, description) => some (some created, description)
      | none => some (none, rest)
  | _ => none

/-- `pri:X` with one upper-case letter. -/
def priTag : Text → Option Char
  | ['p', 'r', 'i', ':', p] => if p.isUpper then some p else none
  | _ => none

/-- The words but the first that is a `pri:` tag, when no `priority` was found before them, and the
priority. -/
def keepWords : Option Char → List Text → Option Char × List Text
  | priority, [] => (priority, [])
  | none, w :: ws =>
    match priTag w with
    | some p => keepWords (some p) ws
    | none =>
      let (priority, kept) := keepWords none ws
      (priority, w :: kept)
  | some p, w :: ws =>
    let (priority, kept) := keepWords (some p) ws
    (priority, w :: kept)

/-- `parts.join(" ")`. -/
def join (parts : List Text) : Text := [' '].intercalate parts

/-- The reopen half of `toggleCompleteText`: words split on single spaces. -/
def reopen (created : Option Text) (description : Text) : Text :=
  let words := if description.isEmpty then [] else description.splitOn ' '
  let (priority, kept) := keepWords none words
  let parts := (priority.map fun p => ['(', p, ')']).toList ++ created.toList
  join (if kept.isEmpty then parts else parts ++ [join kept])

/-- Completes `raw`, the priority kept as a `pri:` tag, or reopens a completed line. -/
def toggleCompleteText (raw today : Text) : Text :=
  match splitCompleted raw with
  | some (created, description) => reopen created description
  | none =>
    let (priority, rest) := match stripPriority raw with
      | some (letter, rest) => (some letter, rest)
      | none => (none, raw)
    let (created, description) := match splitDate rest with
      | some (date, description) => (some date, description)
      | none => (none, rest)
    let parts := [['x'], today] ++ created.toList
    let parts := if description.isEmpty then parts else parts ++ [description]
    join (parts ++ (priority.map fun p => "pri:".toList ++ [p]).toList)

end Txtodo.Chips
