import Txtodo.Core.Scanner

/-!
# The line parser

`parse_line` (`parse.rs`): a prefix of completion mark, dates and priority, then the rest of the line
verbatim. Strict mode fails on any deviation from the grammar; lenient mode records it as a quirk.
-/

namespace Txtodo

/-- Cursor over the scanner's chunks plus the quirks collected so far. `chunks` are those from the
cursor on. -/
structure Parser where
  raw : Text
  chunks : List Chunk
  mode : Mode
  quirks : Quirks

/-- Parsing moves the cursor or fails. -/
abbrev ParseM := StateT Parser (Except ParseError)

namespace Parser

/-- The current chunk as a word, `none` at the end or on whitespace. -/
def word (p : Parser) : Option Text :=
  match p.chunks with
  | c :: _ => if c.isWs then none else some c.text
  | [] => none

/-- Byte offset of the current chunk, or the line length at the end. -/
def pos (p : Parser) : Nat :=
  match p.chunks with
  | c :: _ => c.start
  | [] => Utf8.size p.raw

/-- `raw[start..]` at the cursor. -/
def rest (p : Parser) : Text := p.chunks.flatMap (·.text)

/-- Moves the cursor past the current chunk. -/
def advance (p : Parser) : Parser := { p with chunks := p.chunks.tail }

end Parser

/-- In lenient mode records `quirk`; in strict mode fails with `rule` at `byte`. -/
def lenientOrAt (quirk : Quirks) (rule message : String) (byte : Nat) : ParseM Unit := do
  let p ← get
  match p.mode with
  | .lenient => set { p with quirks := p.quirks.insert quirk }
  | .strict => throw ⟨rule.toList, byte, message.toList⟩

/-- `lenientOrAt` at the cursor. -/
def lenientOr (quirk : Quirks) (rule message : String) : ParseM Unit := do
  lenientOrAt quirk rule message (← get).pos

/-- Records a quirk whatever the mode. -/
def insertQuirk (quirk : Quirks) : ParseM Unit :=
  modify fun p => { p with quirks := p.quirks.insert quirk }

/-- Consumes the whitespace chunk after a prefix element; `true` when more words follow. -/
def separator : ParseM Bool := do
  match (← get).chunks with
  | [] => return false
  | c :: rest =>
    if c.text ≠ [' '] then
      lenientOr Quirks.TABS "SP" "words are separated by exactly one space"
    modify Parser.advance
    if rest.isEmpty then
      lenientOrAt Quirks.TRAILING_WS "description" "trailing whitespace" c.start
      return false
    return true

/-- Whether the line starts with the completion mark: strict mode asks for `x SP date`. -/
def Parser.startsCompleted (p : Parser) : Bool :=
  p.word = some ['x'] &&
    match p.mode with
    | .lenient => true
    | .strict =>
      match p.chunks with
      | _ :: sep :: date :: _ =>
        sep.isWs && sep.text = [' '] && !date.isWs && (Date.parse date.text).isSome
      | _ => false

/-- Takes `(A)` and its separator if present. -/
def takePriority (t : Task) : ParseM (Task × Bool) := do
  match (← get).word with
  | some ['(', letter, ')'] =>
    match Priority.new letter with
    | some priority =>
      modify Parser.advance
      let _ ← separator
      return ({ t with priority := some priority }, true)
    | none => return (t, false)
  | _ => return (t, false)

/-- `dddd-dd-dd` by shape, valid or not. -/
def hasDateShape : Text → Bool
  | [y1, y2, y3, y4, s1, m1, m2, s2, d1, d2] =>
    s1 = '-' && s2 = '-' && [y1, y2, y3, y4, m1, m2, d1, d2].all (·.isDigit)
  | _ => false

/-- Takes a date word if the current word is one. -/
def takeDate : ParseM (Option Date) := do
  let p ← get
  match p.word with
  | none => return none
  | some word =>
    match Date.parse word with
    | some d =>
      modify Parser.advance
      return some d
    | none =>
      if p.mode = .strict ∧ hasDateShape word then
        throw ⟨"date".toList, p.pos, "not a calendar date".toList⟩
      return none

/-- Optional creation date plus its separator. -/
def takeOptionalDate (t : Task) : ParseM Task := do
  match ← takeDate with
  | some d =>
    let _ ← separator
    return { t with creationDate := some d }
  | none => return t

/-- `take_priority` where only lenient mode allows one, with the quirk it records. -/
def takePriorityLenient (t : Task) (quirk : Quirks) : ParseM Task := do
  match (← get).mode with
  | .strict => return t
  | .lenient =>
    let (t, taken) ← takePriority t
    if taken then insertQuirk quirk
    return t

/-- After `x`: `SP date [SP date]`, with lenient priority placements. -/
def completedPrefix (t : Task) : ParseM Task := do
  if !(← separator) then
    lenientOr Quirks.NO_COMPLETION_DATE "completed"
      "expected a space and the completion date after x"
    return t
  let t ← takePriorityLenient t Quirks.PRIORITY_AFTER_X
  match ← takeDate with
  | none =>
    lenientOr Quirks.NO_COMPLETION_DATE "completed" "expected the completion date after x"
    return t
  | some d =>
    let t := { t with completionDate := some d }
    let t ← if ← separator then takeOptionalDate t else pure t
    if t.priority.isNone then takePriorityLenient t Quirks.PRIORITY_AFTER_DATE else return t

/-- `[priority SP] [date SP]`. -/
def incompletePrefix (t : Task) : ParseM Task := do
  let (t, _) ← takePriority t
  takeOptionalDate t

/-- Checks the separators of a description that starts at byte `start`; `first` on its first chunk. -/
def checkSeparators (start : Nat) : Bool → List Chunk → ParseM Unit
  | _, [] => return ()
  | first, c :: rest => do
    if c.isWs then
      if first && start = 0 then
        lenientOrAt Quirks.LEADING_WS "description" "leading whitespace" 0
      if !(first && start = 0 && !rest.isEmpty) then
        if rest.isEmpty then
          lenientOrAt Quirks.TRAILING_WS "description" "trailing whitespace" c.start
        else if c.text ≠ [' '] then
          lenientOrAt Quirks.TABS "SP" "words are separated by exactly one space" c.start
    checkSeparators start false rest

/-- Everything from the current chunk on. -/
def description : ParseM Text := do
  let p ← get
  checkSeparators p.pos true p.chunks
  return p.rest

/-- A task with nothing read yet. -/
def Task.empty : Task := ⟨false, none, none, none, []⟩

/-- Whole task: prefix, then the verbatim remainder as description. -/
def parseTask : ParseM Task := do
  let t ←
    if (← get).startsCompleted then do
      modify Parser.advance
      completedPrefix { Task.empty with completed := true }
    else incompletePrefix Task.empty
  return { t with description := ← description }

/-- `parse_line_with_schemes`. -/
def parseLineWithSchemes (raw : Text) (mode : Mode) (schemes : List Text) :
    Except ParseError Line := do
  if raw.isEmpty then return ⟨raw, .blank, Quirks.NONE, .lf⟩
  let (task, p) ← parseTask.run ⟨raw, chunks raw, mode, Quirks.NONE⟩
  let invalidRef := (task.tagWithSchemes "ref".toList schemes).any (!isValidSlug ·)
  let quirks := if invalidRef then p.quirks.insert Quirks.INVALID_REF else p.quirks
  return ⟨raw, .task task, quirks, .lf⟩

/-- Parses one line without its ending. -/
def parseLine (raw : Text) (mode : Mode) : Except ParseError Line :=
  parseLineWithSchemes raw mode DEFAULT_SCHEMES

end Txtodo
