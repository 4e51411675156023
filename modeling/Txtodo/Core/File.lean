import Txtodo.Core.Parse

/-!
# Lines and files

Owned lines and whole files (`file.rs`): the exact bytes of each line, its ending, and the hygiene
that must round-trip (byte order mark, dominant ending, trailing newline).
-/

namespace Txtodo

/-- UTF-8 byte order mark. -/
def BOM : List UInt8 := [0xEF, 0xBB, 0xBF]

/-- A line as stored in a file: its bytes, how it ends, the quirks seen when it was read. -/
structure OwnedLine where
  bytes : List UInt8
  ending : LineEnding
  quirks : Quirks
  deriving DecidableEq

namespace OwnedLine

/-- Wraps line bytes and records the lenient parser's quirks, none for bytes that are not UTF-8. -/
def fromBytes (bytes : List UInt8) (ending : LineEnding) : OwnedLine :=
  let quirks := match Utf8.decode bytes with
    | none => Quirks.NONE
    | some s =>
      match parseLine s .lenient with
      | .ok l => l.quirks
      | .error _ => Quirks.NONE
  ⟨bytes, ending, quirks⟩

/-- A line holding `text`. -/
def ofText (text : Text) (ending : LineEnding) : OwnedLine := fromBytes (Utf8.encode text) ending

/-- The line as text, `none` when the bytes are not UTF-8. -/
def raw (line : OwnedLine) : Option Text := Utf8.decode line.bytes

/-- Parses the line leniently; the returned ending and quirks are the line's own. -/
def parse (line : OwnedLine) : Option Line := do
  let raw ← line.raw
  match parseLine raw .lenient with
  | .ok l => some { l with ending := line.ending, quirks := line.quirks }
  | .error _ => none

/-- The task on the line, `none` for a blank or an opaque line. -/
def task (line : OwnedLine) : Option Task :=
  match line.parse with
  | some ⟨_, .task t, _, _⟩ => some t
  | _ => none

@[simp] theorem fromBytes_bytes (bytes : List UInt8) (ending : LineEnding) :
    (fromBytes bytes ending).bytes = bytes := rfl

@[simp] theorem fromBytes_ending (bytes : List UInt8) (ending : LineEnding) :
    (fromBytes bytes ending).ending = ending := rfl

@[simp] theorem ofText_bytes (text : Text) (ending : LineEnding) :
    (ofText text ending).bytes = Utf8.encode text := rfl

@[simp] theorem ofText_ending (text : Text) (ending : LineEnding) :
    (ofText text ending).ending = ending := rfl

@[simp] theorem ofText_raw (text : Text) (ending : LineEnding) :
    (ofText text ending).raw = some text := by
  simp [raw]

end OwnedLine

/-- A whole file: lines plus the hygiene that must round-trip. -/
structure File where
  lines : List OwnedLine
  bom : Bool
  ending : LineEnding
  trailingNewline : Bool
  deriving DecidableEq

/-- One line off the front of a non-empty body: its bytes, its ending and what follows. A final
piece with no newline is a line without ending. -/
def splitLine (body : List UInt8) : (List UInt8 × LineEnding) × List UInt8 :=
  match body.idxOf? 10 with
  | none => ((body, .none), [])
  | some nl =>
    let line := body.take nl
    let after := body.drop (nl + 1)
    if line.getLast? = some 13 then ((line.dropLast, .crlf), after) else ((line, .lf), after)

theorem splitLine_rest_length {body : List UInt8} (h : body ≠ []) :
    (splitLine body).2.length < body.length := by
  have : 0 < body.length := List.length_pos_of_ne_nil h
  unfold splitLine
  split
  · simpa using this
  · dsimp only
    split <;> simp only [List.length_drop] <;> omega

/-- `(line bytes, ending)` for each line; a body ending in a newline yields no extra empty line. -/
def splitLines (body : List UInt8) : List (List UInt8 × LineEnding) :=
  if h : body = [] then []
  else
    have := splitLine_rest_length h
    (splitLine body).1 :: splitLines (splitLine body).2
termination_by body.length

/-- Majority of the two endings; ties and empty files are `lf`. -/
def dominantEnding (lines : List OwnedLine) : LineEnding :=
  if lines.countP (·.ending = .lf) < lines.countP (·.ending = .crlf) then .crlf else .lf

/-- Splits raw file bytes into lines. -/
def parseFile (bytes : List UInt8) : File :=
  let bom : Bool := decide (BOM <+: bytes)
  let body := if bom then bytes.drop BOM.length else bytes
  let lines := (splitLines body).map fun (b, e) => OwnedLine.fromBytes b e
  let ending := dominantEnding lines
  { lines := lines.map fun line =>
      if line.ending ≠ .none ∧ line.ending ≠ ending then
        { line with quirks := line.quirks.insert Quirks.MIXED_ENDING }
      else line
    bom := bom
    ending := ending
    trailingNewline := body.getLast? = some 10 }

namespace File

/-- The file with no lines. -/
def empty : File := ⟨[], false, .lf, false⟩

/-- The ending a line gets when it must have one. -/
def terminator (f : File) : LineEnding :=
  match f.ending with
  | .none => .lf
  | dominant => dominant

/-- The bytes of lines in file order: a line without an ending that is not the last one gets the
terminator. -/
def linesBytes (f : File) : List OwnedLine → List UInt8
  | [] => []
  | [line] => line.bytes ++ line.ending.asBytes
  | line :: rest =>
    line.bytes ++ (if line.ending = .none then f.terminator else line.ending).asBytes
      ++ f.linesBytes rest

/-- The exact bytes: the byte order mark, then every line with its ending. -/
def toBytes (f : File) : List UInt8 := (if f.bom then BOM else []) ++ f.linesBytes f.lines

end File

end Txtodo
