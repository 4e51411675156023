import Txtodo.Mcp.Row

/-!
# Patching a line

The raw-text editors behind `todo_edit` (`parse.rs` and `grpc_write.rs` of `txtodo-mcp`): each works on the
text of the line with its own idea of where the prefix ends and which word is a tag.
-/

namespace Txtodo.Mcp

/-- The fields an edit gives; an empty priority or due date clears the field. -/
structure FieldPatch where
  priority : Option Text
  due : Option Text
  append : Option Text
  replace : Option Text
  deriving DecidableEq

def SENTENCE_DELIMITERS : List Char := [',', '.', ':', ';']

/-- `raw`, a space unless `text` opens with a sentence delimiter, and `text`. -/
def append (raw text : Text) : Text :=
  let sep := if text.head?.any (SENTENCE_DELIMITERS.contains ·) then [] else [' ']
  raw ++ sep ++ text

/-- The old prefix kept, but for a priority or a date at the start of `text`, which replaces it. -/
def replaceBody (raw text : Text) : Text :=
  let (p, d) := prefixLens raw
  let (np, nd) := prefixLens text
  let pri := if 0 < np then text.take np else raw.take p
  let date := if 0 < nd then (text.drop np).take nd else (raw.drop p).take d
  pri ++ date ++ text.drop (np + nd)

/-- Sets or clears the leading `(X) `. -/
def setPriority (raw : Text) (priority : Option Char) : Text :=
  let body := raw.drop (prefixLens raw).1
  match priority with
  | some c => '(' :: c :: ')' :: ' ' :: body
  | none => body

/-- Sets or removes a tag: the first word that starts with the key and a colon is replaced or removed, a
new tag goes to the end. -/
def setKv (raw key : Text) (value : Option Text) : Text :=
  let start := key ++ [':']
  let words := raw.splitOn ' '
  let words := match words.findIdx? (start.isPrefixOf ·), value with
    | some i, some v => words.set i (start ++ v)
    | some i, none => words.eraseIdx i
    | none, some v => words ++ [start ++ v]
    | none, none => words
  [' '].intercalate words

/-- The priority and the due date first, then the text added or replaced. -/
def applyPatch (raw : Text) (patch : FieldPatch) : Text :=
  let line := match patch.priority with
    | some p => setPriority raw (p.head?.map Char.toUpper)
    | none => raw
  let line := match patch.due with
    | some d => setKv line "due".toList (if d.isEmpty then none else some d)
    | none => line
  let line := match patch.append with
    | some a => append line a
    | none => line
  match patch.replace with
  | some r => replaceBody line r
  | none => line

end Txtodo.Mcp
