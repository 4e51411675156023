import Txtodo.Model.Hlc
import Txtodo.Core.Edit

/-!
# Ops

The op model (`op.rs`): one op is one change to one document, stamped with an `Hlc`.
-/

namespace Txtodo

/-- How a workspace establishes task identity. -/
inductive IdentityMode where
  | tagged
  | sidecar
  deriving DecidableEq

/-- Prefix fields and flags a `SetField` can target. -/
inductive Field where
  | completed
  | completionDate
  | creationDate
  | priority
  | deleted
  | quirks
  deriving DecidableEq

/-- A field's new value. -/
inductive FieldValue where
  | bool (b : Bool)
  | date (d : Option (Nat × Nat × Nat))
  | priority (p : Option Char)
  | quirks (bits : Nat)
  deriving DecidableEq

namespace FieldValue

def ofDate (d : Option Date) : FieldValue := .date (d.map fun d => (d.year, d.month, d.day))

def ofPriority (p : Option Priority) : FieldValue := .priority (p.map (·.letter))

/-- The date back, if this is a date value with a valid calendar date. -/
def asDate : FieldValue → Option (Option Date)
  | .date none => some none
  | .date (some (y, m, d)) => (Date.new y m d).map some
  | _ => none

end FieldValue

/-- Char-level text edit. -/
inductive TextEdit where
  | insert (at_ : Nat) (text : Text)
  | delete (at_ len : Nat)
  deriving DecidableEq

/-- What an op does. -/
inductive OpKind where
  | insert (task : TaskId) (after : Option TaskId) (line : Text)
  | setField (task : TaskId) (field : Field) (value : FieldValue)
  | editText (task : TaskId) (edits : List TextEdit)
  | move (task : TaskId) (after : Option TaskId) (toFile : FilePath)
  | notesEdit (file : FilePath) (edits : List TextEdit)
  | blankInsert (after : Option TaskId)
  | blankRemove (after : Option TaskId)
  | removeTag (task : TaskId) (key : Text)
  deriving DecidableEq

/-- One recorded change. -/
structure Op where
  id : OpId
  hlc : Hlc
  file : FilePath
  kind : OpKind
  deriving DecidableEq

end Txtodo
