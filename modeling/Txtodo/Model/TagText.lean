import Txtodo.Core.Types

/-!
# Removing a tag by name

What `RemoveTag` does to a description (`tag_text.rs`): words split on spaces and tabs, the first
`key:value` word goes with the space before it, else the space after it.
-/

namespace Txtodo

/-- Whether `key` can name a tag: non-empty, no space, tab or colon. -/
def validTagKey (key : Text) : Bool :=
  !key.isEmpty && key.all fun c => c ≠ ' ' && c ≠ '\t' && c ≠ ':'

/-- Whether `word` is `key:` plus a non-empty value. -/
def isTagWord (key word : Text) : Bool :=
  (key ++ [':']) <+: word && key.length + 1 < word.length

/-- The first `key:value` word of `words`, as a range; `start` characters stand before. -/
def findTagWord (key : Text) (start : Nat) : List Text → Option (Nat × Nat)
  | [] => none
  | word :: rest =>
    if isTagWord key word then some (start, start + word.length)
    else findTagWord key (start + word.length + 1) rest

/-- Range of the first `key:value` word. -/
def findTag (description key : Text) : Option (Nat × Nat) :=
  if validTagKey key then
    findTagWord key 0 (description.splitOnP fun c => c = ' ' || c = '\t')
  else none

/-- `description` with its first `key:value` word removed, and one space next to it. -/
def removeTag (description key : Text) : Text :=
  match findTag description key with
  | none => description
  | some (lo, hi) =>
    if 0 < lo ∧ description[lo - 1]? = some ' ' then
      description.take (lo - 1) ++ description.drop hi
    else if description[hi]? = some ' ' then description.take lo ++ description.drop (hi + 1)
    else description.take lo ++ description.drop hi

end Txtodo
