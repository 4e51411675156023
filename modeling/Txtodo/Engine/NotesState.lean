import Txtodo.Engine.TextHistory
import Txtodo.Std.Utf8

/-!
# The state of a notes file

`notes_state.rs`: the exact content of one `notes.md` as one text, with the history that slots a late edit
in by stamp.
-/

namespace Txtodo

/-- Most edits a `notes.md` keeps before the oldest fold into its base. -/
def MAX_EDITS_PER_NOTES : Nat := 256

/-- Largest `notes.md` accepted. -/
def MAX_NOTES_BYTES : Nat := 8 * 1024 * 1024

/-- Why a notes op could not be applied. -/
inductive NotesStateError where
  | tooManyBytes (len : Nat)
  | text (e : TextEditError)
  | unsupported (what : Text)
  | wrongFile (file : FilePath)
  deriving DecidableEq

/-- One `notes.md`'s content and the edits since its history began. -/
structure NotesState where
  path : FilePath
  text : Text
  history : Option TextHistory
  deriving DecidableEq

namespace NotesState

/-- An empty document. -/
def empty (path : FilePath) : NotesState := ⟨path, [], none⟩

def opKindName : OpKind → Text
  | .insert .. => "Insert".toList
  | .setField .. => "SetField".toList
  | .editText .. => "EditText".toList
  | .move .. => "Move".toList
  | .notesEdit .. => "NotesEdit".toList
  | .blankInsert _ => "BlankInsert".toList
  | .blankRemove _ => "BlankRemove".toList
  | .removeTag .. => "RemoveTag".toList

/-- Applies one `NotesEdit` op; one older than an edit already applied rebuilds the text in stamp order. -/
def apply (s : NotesState) (op : Op) : Except NotesStateError NotesState :=
  match op.kind with
  | .notesEdit file edits =>
    if file ≠ s.path ∨ op.file ≠ s.path then .error (.wrongFile file)
    else
      match (s.history.getD (TextHistory.new s.text)).apply s.text op.hlc edits
          (applyTextEdits, MAX_EDITS_PER_NOTES) with
      | (_, .error e) => .error (.text e)
      | (history, .ok next) =>
        if MAX_NOTES_BYTES < Utf8.size next then .error (.tooManyBytes (Utf8.size next))
        else .ok { s with text := next, history := some history }
  | kind => .error (.unsupported (opKindName kind))

/-- Takes the history of the document rebuilt from its log when that holds the same text. -/
def adoptHistory (s replayed : NotesState) : NotesState :=
  if replayed.text = s.text then { s with history := replayed.history } else s

end NotesState

end Txtodo
