import Txtodo.Engine.State
import Txtodo.Core.Edit

/-!
# The fast id scan, and stripping a line's own id

`fastid.rs` reads the id of a line without parsing it; `id_strip.rs` removes the `id:` tag that scan reads, by an
edit of the parsed line or, where the cut is plain, from the bytes alone.
-/

namespace Txtodo

/-- The value of the first word that is `id:` and a value, words split on ASCII whitespace. -/
def idValue (raw : Text) : Option Text :=
  ((raw.splitOnP isAsciiWhitespace).filterMap (stripPrefix "id:".toList)).find? (!·.isEmpty)

/-- The `id:` tag's ULID without parsing the line. -/
def fastIdOf (line : OwnedLine) : Option TaskId :=
  line.raw.bind fun raw => (idValue raw).bind fun value => (Ulid.parse value).map TaskId.mk

/-- The line's own id and the line without that tag. -/
def stripOwnId (line : OwnedLine) : Option (TaskId × OwnedLine) := do
  let id ← fastIdOf line
  let edit ← (Edit.new.removeTag "id".toList).toOption
  return (id, apply line edit)

/-- The span of the first `id:` word with a value among words from `pos` on, one separator apart. -/
def ownIdWordIn (pos : Nat) : List Text → Option (Nat × Nat)
  | [] => none
  | word :: rest =>
    if (stripPrefix "id:".toList word).any (!·.isEmpty) then some (pos, pos + word.length)
    else ownIdWordIn (pos + word.length + 1) rest

/-- The span of the word the fast scan reads. -/
def ownIdWord (raw : Text) : Option (Nat × Nat) := ownIdWordIn 0 (raw.splitOnP isAsciiWhitespace)

/-- Whether the last word of `head` could be part of a prefix, or `head` has none. -/
def afterPrefixToken (head : Text) : Bool :=
  match (head.splitOnP isAsciiWhitespace).getLast? with
  | none => true
  | some last =>
    let b := Utf8.encode last
    let priority := b.length = 3 && b[0]? = some 40 && b[1]?.any (fun p => 65 ≤ p && p ≤ 90) &&
      b[2]? = some 41
    let date := b.length = 10 && b[4]? = some 45 && b[7]? = some 45
    last.isEmpty || last = ['x'] || priority || date

/-- The span that goes with the own word where the cut is plain: the word with the space after it, or with the
space before it at the end of a line whose word before is no prefix token. -/
def ownIdCut (raw : Text) (start stop : Nat) : Option (Nat × Nat) :=
  let before := if start = 0 then none else raw[start - 1]?
  match before, raw[stop]? with
  | none, some ' ' => some (start, stop + 1)
  | some ' ', some ' ' => some (start, stop + 1)
  | some ' ', none => if !afterPrefixToken (raw.take (start - 1)) then some (start - 1, stop) else none
  | _, _ => none

/-- The bytes of the stripped line, without parsing it where the cut is plain. -/
def withoutOwnId (line : OwnedLine) : Option (List UInt8) := do
  let _ ← fastIdOf line
  let raw ← line.raw
  let (start, stop) ← ownIdWord raw
  match ownIdCut raw start stop with
  | none => (stripOwnId line).map fun stripped => stripped.2.bytes
  | some (lo, hi) => some (Utf8.encode (raw.take lo) ++ Utf8.encode (raw.drop hi))

end Txtodo
