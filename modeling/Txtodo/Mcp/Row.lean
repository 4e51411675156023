import Txtodo.Core.Scanner

/-!
# The row an agent sees

The MCP server's own reading of a line (`parse.rs` of `txtodo-mcp`), written beside the core parser
because the crate may not depend on it.
-/

namespace Txtodo.Mcp

/-- `char::is_whitespace`. -/
def isWhitespace (c : Char) : Bool :=
  (9 ≤ c.toNat && c.toNat ≤ 13) || (8192 ≤ c.toNat && c.toNat ≤ 8202) ||
    [32, 133, 160, 5760, 8232, 8233, 8239, 8287, 12288].contains c.toNat

/-- `str::split_whitespace`. -/
def splitWhitespace (s : Text) : List Text := (s.splitOnP isWhitespace).filter (!·.isEmpty)

/-- One task as the tools return it. -/
structure TaskRow where
  id : Option Text
  line : Nat
  raw : Text
  done : Bool
  priority : Option Char
  created : Option Text
  completed : Option Text
  due : Option Text
  projects : List Text
  contexts : List Text
  kv : List (Text × Text)
  deriving DecidableEq

def TaskRow.default : TaskRow := ⟨none, 0, [], false, none, none, none, none, [], [], []⟩

/-- The length of a `YYYY-MM-DD ` at the start of `s`, `0` when there is none; two to four digits of a year
are enough. -/
def dateLen (s : Text) : Nat :=
  let year := (s.takeWhile (·.isDigit)).length
  if !(2 ≤ year && year ≤ 4) then 0
  else match s.drop year with
    | s1 :: m1 :: m2 :: s2 :: d1 :: d2 :: space :: _ =>
      if s1 = '-' && [m1, m2].all (·.isDigit) && s2 = '-' && [d1, d2].all (·.isDigit) && space = ' ' then
        year + 7
      else 0
    | _ => 0

/-- The length of `(X) ` and of a following `YYYY-MM-DD `, each `0` when absent. -/
def prefixLens (raw : Text) : Nat × Nat :=
  let pri := match raw with
    | '(' :: _ :: ')' :: ' ' :: _ => 4
    | _ => 0
  (pri, dateLen (raw.drop pri))

/-- A date and a space at the start of `s`: the date and the rest. -/
def takeDate (s : Text) : Option (Text × Text) :=
  let n := dateLen s
  if 0 < n then some (s.take (n - 1), s.drop n) else none

/-- `(X) ` at the start of `s`: the letter and the rest. -/
def takePriority : Text → Option (Char × Text)
  | '(' :: p :: ')' :: ' ' :: rest => some (p, rest)
  | _ => none

/-- `word.split_once(':')`, the key and the value both non-empty. -/
def splitKeyValue (word : Text) : Option (Text × Text) :=
  match word.idxOf? ':' with
  | some colon =>
    let key := word.take colon
    let value := word.drop (colon + 1)
    if !key.isEmpty && !value.isEmpty then some (key, value) else none
  | none => none

/-- One `+project`, `@context` or `key:value` word into `row`. -/
def classifyWord (row : TaskRow) (word : Text) : TaskRow :=
  match (stripPrefix ['+'] word).filter (!·.isEmpty) with
  | some p => { row with projects := row.projects ++ [p] }
  | none =>
    match (stripPrefix ['@'] word).filter (!·.isEmpty) with
    | some c => { row with contexts := row.contexts ++ [c] }
    | none =>
      match splitKeyValue word with
      | some (key, value) =>
        if key = "id".toList && row.id.isNone then { row with id := some value }
        else if key = "due".toList then { row with due := some value }
        else { row with kv := row.kv ++ [(key, value)] }
      | none => row

/-- The fields in front of a line's words, and the rest. -/
def parsePrefix (row : TaskRow) (raw : Text) : TaskRow × Text :=
  let (row, rest) := match stripPrefix "x ".toList raw with
    | some after =>
      match takeDate after with
      | some (date, rest) => ({ row with done := true, completed := some date }, rest)
      | none => ({ row with done := true }, after)
    | none => (row, raw)
  let (row, rest) := match takePriority rest with
    | some (p, rest) => ({ row with priority := some p }, rest)
    | none => (row, rest)
  match takeDate rest with
  | some (date, rest) => ({ row with created := some date }, rest)
  | none => (row, rest)

/-- Parses one line into a row. -/
def parseRow (lineNo : Nat) (raw : Text) : TaskRow :=
  let (row, rest) := parsePrefix { TaskRow.default with line := lineNo, raw := raw } raw
  let row := (splitWhitespace rest).foldl classifyWord row
  if row.priority.isNone then
    { row with priority := (row.kv.find? (·.1 = "pri".toList)).bind (·.2.head?) }
  else row

end Txtodo.Mcp
