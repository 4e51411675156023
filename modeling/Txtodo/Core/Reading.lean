import Txtodo.Core.Edit

/-!
# Reading a prefix

What lenient reading takes for a prefix, word by word: which word may come next is decided by the place
reached. The parser is shown to read this way, whatever separates the words.
-/

namespace Txtodo

/-- How far a prefix was read. After a completion or a creation date, whether a priority was. -/
inductive Place where
  | start
  | openPriority
  | mark
  | markPriority
  | completion (priority : Bool)
  | creation (priority : Bool)
  | ended
  deriving DecidableEq

/-- The priority a word spells. -/
def priorityOf : Text → Option Priority
  | ['(', letter, ')'] => Priority.new letter
  | _ => none

/-- The place and the prefix after the word `w`, `none` where `w` is description. -/
def Place.take (place : Place) (pre : Prefix) (w : Text) : Option (Place × Prefix) :=
  let priority (next : Place) := (priorityOf w).map fun p => (next, { pre with priority := some p })
  let completion (next : Place) :=
    (Date.parse w).map fun d => (next, { pre with completionDate := some d })
  let creation (next : Place) := (Date.parse w).map fun d => (next, { pre with creationDate := some d })
  match place with
  | .start =>
    if w = ['x'] then some (.mark, { pre with completed := true })
    else (priority .openPriority).or (creation .ended)
  | .openPriority => creation .ended
  | .mark => (priority .markPriority).or (completion (.completion false))
  | .markPriority => completion (.completion true)
  | .completion seen => (creation (.creation seen)).or (if seen then none else priority .ended)
  | .creation seen => if seen then none else priority .ended
  | .ended => none

/-- The place after a text that is read as a prefix. -/
def placeAfter (s : Text) : Place :=
  ((((chunks s).filter (!·.isWs)).map (·.text)).foldl
    (fun r w => (r.1.take r.2 w).getD r) (Place.start, Prefix.empty)).1

end Txtodo
