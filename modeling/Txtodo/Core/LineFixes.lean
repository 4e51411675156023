import Txtodo.Core.Edit

/-!
# Fixes to a line an app writes

What the daemon does to such a line before it lands (`line_fixes.rs`): today's creation date on a new
line, today's completion date on one typed done, and the case slips put right. Text in, text out; the
caller supplies today's date.
-/

namespace Txtodo.LineFixes

/-- Whether the text starts `(P) ` with an upper-case letter. -/
def priorityAhead : Text → Bool
  | '(' :: p :: ')' :: ' ' :: _ => p.isUpper
  | _ => false

/-- Inserts `today ` after an optional `(P) `, unless the line carries a creation date or is completed. -/
def stampCreated (line : Text) (today : Date) : Text :=
  let dated := (taskOf line).any fun t => t.completed || t.creationDate.isSome
  if dated then line
  else
    let «at» := if priorityAhead line then 4 else 0
    line.take «at» ++ today.display ++ [' '] ++ line.drop «at»

/-- A line typed done, `x ` with no completion date after it, becomes done today the way completing
makes it. Any other line is returned as it is. -/
def dateDone (line : Text) (today : Date) : Text :=
  match stripPrefix "x ".toList line with
  | none => line
  | some rest =>
    let dated := (taskOf line).any fun t => t.completionDate.isSome
    if dated then line
    else (apply (OwnedLine.ofText rest .lf) (Edit.new.complete today)).raw.getD line

/-- `at` moved past a date and the space behind it. -/
def pastDate (out : Text) («at» : Nat) : Nat :=
  if (Date.parse ((out.drop «at»).take 10)).isSome && (out.drop («at» + 10)).head? = some ' ' then «at» + 11
  else «at»

/-- Where a priority may stand: at the start, or after the mark and up to two dates. -/
def prioritySlot (out : Text) : Nat :=
  if "x ".toList <+: out then pastDate out (pastDate out 2) else 0

/-- `X ` becomes the mark `x `, and `(a) ` becomes `(A) ` at the start of the line or after the mark and
its dates. -/
def fixCase (line : Text) : Text :=
  let out := if "X ".toList <+: line then replaceRange line 0 1 ['x'] else line
  let «at» := prioritySlot out
  match out.drop «at» with
  | '(' :: p :: ')' :: ' ' :: _ =>
    if p.isLower then replaceRange out («at» + 1) («at» + 2) [p.toUpper] else out
  | _ => out

/-- Whether the line is done by lenient parsing, `x call mum` included. -/
def isCompleted (line : Text) : Bool := (taskOf line).any (·.completed)

end Txtodo.LineFixes
