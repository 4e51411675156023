import Txtodo.Std.Utf8
import Mathlib.Data.Nat.Bitwise

/-!
# Core value types

Modes, dates, priorities, line endings, quirks and parsed lines (`types.rs`, `quirks.rs`,
`error.rs`). A text is a list of characters; a line on disk is bytes.
-/

namespace Txtodo

/-- Text without its encoding. -/
abbrev Text := List Char

/-- How strictly to read a line. -/
inductive Mode where
  | strict
  | lenient
  deriving DecidableEq

/-- Days in `month` of `year`, Gregorian rules. -/
def daysInMonth (year month : Nat) : Nat :=
  let leap := year % 4 = 0 ∧ (year % 100 ≠ 0 ∨ year % 400 = 0)
  if month ∈ [1, 3, 5, 7, 8, 10, 12] then 31
  else if month ∈ [4, 6, 9, 11] then 30
  else if leap then 29
  else 28

/-- A calendar date, years `0` to `9999`. -/
structure Date where
  year : Nat
  month : Nat
  day : Nat
  valid : ¬(year > 9999 ∨ month = 0 ∨ month > 12 ∨ day = 0 ∨ day > daysInMonth year month)
  deriving DecidableEq

/-- `Date::new`: the date if it exists. -/
def Date.new (year month day : Nat) : Option Date :=
  if h : year > 9999 ∨ month = 0 ∨ month > 12 ∨ day = 0 ∨ day > daysInMonth year month then none
  else some ⟨year, month, day, h⟩

/-- The number ASCII digits spell, `none` on any other character. -/
def asciiNumber (digits : Text) : Option Nat :=
  digits.foldlM (fun n d => if d.isDigit then some (n * 10 + (d.toNat - '0'.toNat)) else none) 0

/-- Exactly `YYYY-MM-DD`. -/
def Date.parse : Text → Option Date
  | [y1, y2, y3, y4, s1, m1, m2, s2, d1, d2] =>
    if s1 = '-' ∧ s2 = '-' then do
      let year ← asciiNumber [y1, y2, y3, y4]
      let month ← asciiNumber [m1, m2]
      let day ← asciiNumber [d1, d2]
      Date.new year month day
    else none
  | _ => none

/-- The character of a decimal digit. -/
def digit (n : Nat) : Char := Char.ofNat ('0'.toNat + n % 10)

/-- `{:04}-{:02}-{:02}`. -/
def Date.display (d : Date) : Text :=
  [digit (d.year / 1000), digit (d.year / 100), digit (d.year / 10), digit d.year, '-',
    digit (d.month / 10), digit d.month, '-', digit (d.day / 10), digit d.day]

/-- A priority, `'A'` to `'Z'`. -/
structure Priority where
  letter : Char
  upper : letter.isUpper = true
  deriving DecidableEq

def Priority.new (letter : Char) : Option Priority :=
  if h : letter.isUpper = true then some ⟨letter, h⟩ else none

/-- How a line ends on disk. -/
inductive LineEnding where
  | lf
  | crlf
  | none
  deriving DecidableEq

def LineEnding.asBytes : LineEnding → List UInt8
  | .lf => [10]
  | .crlf => [13, 10]
  | .none => []

/-- A set of leniencies seen on one line, as bits. -/
structure Quirks where
  bits : Nat
  deriving DecidableEq

namespace Quirks

def NONE : Quirks := ⟨0⟩
def NO_COMPLETION_DATE : Quirks := ⟨1⟩
def PRIORITY_AFTER_X : Quirks := ⟨2⟩
def PRIORITY_AFTER_DATE : Quirks := ⟨4⟩
def TABS : Quirks := ⟨8⟩
def TRAILING_WS : Quirks := ⟨16⟩
def INVALID_REF : Quirks := ⟨32⟩
def MIXED_ENDING : Quirks := ⟨64⟩
def LEADING_WS : Quirks := ⟨128⟩

/-- Adds the bits of `other`. -/
def insert (q other : Quirks) : Quirks := ⟨q.bits ||| other.bits⟩

end Quirks

/-- A strict-mode parse failure: the grammar rule, the byte offset and a sentence. -/
structure ParseError where
  rule : Text
  byte : Nat
  message : Text
  deriving DecidableEq

/-- The structured prefix of a task and its verbatim description. -/
structure Task where
  completed : Bool
  completionDate : Option Date
  creationDate : Option Date
  priority : Option Priority
  description : Text
  deriving DecidableEq

inductive LineKind where
  | blank
  | task (t : Task)
  deriving DecidableEq

/-- One parsed line. -/
structure Line where
  raw : Text
  kind : LineKind
  quirks : Quirks
  ending : LineEnding
  deriving DecidableEq

end Txtodo
