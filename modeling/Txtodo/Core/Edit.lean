import Txtodo.Core.File

/-!
# Formatting and editing a line

The prefix a task is emitted with (`format.rs`) and the field-level mutations of a line (`edit.rs`):
an edit leaves the bytes of the part it does not touch as they are.
-/

namespace Txtodo

/-- The structured prefix of a task. -/
structure Prefix where
  completed : Bool
  completionDate : Option Date
  creationDate : Option Date
  priority : Option Priority
  deriving DecidableEq

namespace Prefix

def empty : Prefix := ⟨false, none, none, none⟩

/-- The prefix of a parsed task. -/
def of (t : Task) : Prefix := ⟨t.completed, t.completionDate, t.creationDate, t.priority⟩

end Prefix

/-- Appends ` YYYY-MM-DD`, without the space on an empty prefix, when `date` is set. -/
def pushDate (out : Text) : Option Date → Text
  | none => out
  | some d => (if out.isEmpty then out else out ++ [' ']) ++ d.display

/-- Emits a strict prefix, ending with one space when non-empty and a description follows. -/
def emitPrefix (p : Prefix) (hasDescription : Bool) : Text :=
  let head :=
    if p.completed then pushDate ['x'] p.completionDate
    else match p.priority with
      | some pri => ['(', pri.letter, ')']
      | none => []
  let out := pushDate head p.creationDate
  if !out.isEmpty && hasDescription then out ++ [' '] else out

/-- The task of a text, `none` for an empty one. -/
def taskOf (raw : Text) : Option Task :=
  match parseLine raw .lenient with
  | .ok ⟨_, .task t, _, _⟩ => some t
  | _ => none

/-- Where the description starts in `raw`; the length of `raw` when there is none. -/
def descriptionStart (raw : Text) : Nat :=
  match taskOf raw with
  | some t => raw.length - t.description.length
  | none => raw.length

/-- A rejected edit argument. -/
inductive EditError where
  | lineBreak
  | invalidTag
  deriving DecidableEq

/-- One field-level mutation. -/
inductive EditOp where
  | setPriority (p : Priority)
  | clearPriority
  | setDescription (text : Text)
  | setTag (key value : Text)
  | removeTag (key : Text)
  | append (text : Text)
  | prepend (text : Text)
  | complete (today : Date)
  | uncomplete
  deriving DecidableEq

/-- An ordered list of field-level mutations. -/
structure Edit where
  ops : List EditOp
  deriving DecidableEq

def noLineBreak (s : Text) : Except EditError Unit :=
  if '\n' ∈ s ∨ '\r' ∈ s then throw .lineBreak else return ()

/-- `u8::is_ascii_whitespace`: space, tab, line feed, form feed, carriage return. -/
def isAsciiWhitespace (c : Char) : Bool :=
  c = ' ' || c = '\t' || c = '\n' || c = Char.ofNat 12 || c = '\r'

def validTag (key value : Text) : Except EditError Unit :=
  let wordOk (s : Text) : Bool := !s.isEmpty && !s.any isAsciiWhitespace
  if wordOk key && wordOk value && ':' ∉ key then return () else throw .invalidTag

namespace Edit

def new : Edit := ⟨[]⟩

def setDescription (e : Edit) (text : Text) : Except EditError Edit := do
  noLineBreak text
  return ⟨e.ops ++ [.setDescription text]⟩

def setTag (e : Edit) (key value : Text) : Except EditError Edit := do
  validTag key value
  return ⟨e.ops ++ [.setTag key value]⟩

def removeTag (e : Edit) (key : Text) : Except EditError Edit := do
  validTag key ['v']
  return ⟨e.ops ++ [.removeTag key]⟩

def append (e : Edit) (text : Text) : Except EditError Edit := do
  noLineBreak text
  return ⟨e.ops ++ [.append text]⟩

def prepend (e : Edit) (text : Text) : Except EditError Edit := do
  noLineBreak text
  return ⟨e.ops ++ [.prepend text]⟩

def setPriority (e : Edit) (p : Priority) : Edit := ⟨e.ops ++ [.setPriority p]⟩

def clearPriority (e : Edit) : Edit := ⟨e.ops ++ [.clearPriority]⟩

def complete (e : Edit) (today : Date) : Edit := ⟨e.ops ++ [.complete today]⟩

def uncomplete (e : Edit) : Edit := ⟨e.ops ++ [.uncomplete]⟩

end Edit

/-- The text without the characters in `[lo, hi)`, `word` in their place. -/
def replaceRange (t : Text) (lo hi : Nat) (word : Text) : Text := t.take lo ++ word ++ t.drop hi

/-- The task under edit. -/
structure Draft where
  pre : Prefix
  description : Text
  deriving DecidableEq

namespace Draft

/-- The first word in `chunks` that is a `key:` tag, as a range; `pos` characters stand before. -/
def findTagIn (key : Text) (pos : Nat) : List Chunk → Option (Nat × Nat)
  | [] => none
  | c :: rest =>
    let next := findTagIn key (pos + c.text.length) rest
    if c.isWs then next
    else match classifyWord c.text DEFAULT_SCHEMES with
      | .tag colon =>
        if c.text.take colon = key then some (pos, pos + c.text.length) else next
      | .idTag => if key = "id".toList then some (pos, pos + c.text.length) else next
      | _ => next

/-- Range of the first `key:` tag word in the description. -/
def findTag (d : Draft) (key : Text) : Option (Nat × Nat) := findTagIn key 0 (chunks d.description)

def append (d : Draft) (text : Text) : Draft :=
  let gap := if !d.description.isEmpty && !text.isEmpty then [' '] else []
  { d with description := d.description ++ gap ++ text }

def prepend (d : Draft) (text : Text) : Draft :=
  let gap := if d.description.isEmpty || text.isEmpty then [] else [' ']
  { d with description := text ++ gap ++ d.description }

def setTag (d : Draft) (key value : Text) : Draft :=
  let word := key ++ [':'] ++ value
  match d.findTag key with
  | some (lo, hi) => { d with description := replaceRange d.description lo hi word }
  | none => d.append word

theorem setTag_pre (d : Draft) (key value : Text) : (d.setTag key value).pre = d.pre := by
  unfold setTag
  split <;> rfl

/-- Removes the word and the space before it, or after it when it is first. -/
def removeTag (d : Draft) (key : Text) : Draft :=
  match d.findTag key with
  | none => d
  | some (lo, hi) =>
    if 0 < lo ∧ d.description[lo - 1]? = some ' ' then
      { d with description := replaceRange d.description (lo - 1) hi [] }
    else if d.description[hi]? = some ' ' then
      { d with description := replaceRange d.description lo (hi + 1) [] }
    else { d with description := replaceRange d.description lo hi [] }

def complete (d : Draft) (today : Date) : Draft :=
  if d.pre.completed then d
  else
    let done := { d with pre := ⟨true, some today, d.pre.creationDate, none⟩ }
    match d.pre.priority with
    | some p => done.setTag "pri".toList [p.letter]
    | none => done

def uncomplete (d : Draft) : Draft :=
  if !d.pre.completed then d
  else
    let opened := { d with pre := { d.pre with completed := false, completionDate := none } }
    let restored := (d.findTag "pri".toList).bind fun (lo, hi) =>
      (((d.description.take hi).drop (lo + 4)).head?).bind Priority.new
    match restored with
    | some p =>
      ({ opened with pre := { opened.pre with priority := some p } } : Draft).removeTag "pri".toList
    | none => opened

def applyOp (d : Draft) : EditOp → Draft
  | .setPriority p => { d with pre := { d.pre with priority := some p } }
  | .clearPriority => { d with pre := { d.pre with priority := none } }
  | .setDescription s => { d with description := s }
  | .setTag k v => d.setTag k v
  | .removeTag k => d.removeTag k
  | .append s => d.append s
  | .prepend s => d.prepend s
  | .complete today => d.complete today
  | .uncomplete => d.uncomplete

end Draft

def draftOf (raw : Text) : Draft :=
  match taskOf raw with
  | some t => ⟨Prefix.of t, t.description⟩
  | none => ⟨Prefix.empty, []⟩

/-- `t` without the separators it ends with. -/
def trimEndWs (t : Text) : Text := (t.reverse.dropWhile isWs).reverse

/-- Splices an original prefix slice and a description with one separator between them when both
are non-empty, and none when the description is empty. -/
def join (pre description : Text) : Text :=
  if description.isEmpty then trimEndWs pre
  else if !pre.isEmpty && !pre.getLast?.any isWs then pre ++ [' '] ++ description
  else pre ++ description

/-- The strict grammar has no priority slot after `x`: a rewritten prefix keeps it as `pri:`. -/
def Draft.movePriority (d : Draft) (prefixDirty : Bool) : Draft :=
  match d.pre.priority with
  | some p =>
    if prefixDirty && d.pre.completed then
      ({ d with pre := { d.pre with priority := none } } : Draft).setTag "pri".toList [p.letter]
    else d
  | none => d

/-- The text of `draft`, made from the line `raw`: a part that is not dirty keeps its characters. -/
def Draft.emit (draft : Draft) (raw : Text) (prefixDirty descriptionDirty : Bool) : Text :=
  let split := descriptionStart raw
  let description := if descriptionDirty then draft.description else raw.drop split
  if prefixDirty then emitPrefix draft.pre (!description.isEmpty) ++ description
  else join (raw.take split) description

/-- `line` once `raw`, its text, was edited from `original` to `draft`. -/
def Draft.write (line : OwnedLine) (raw : Text) (original draft : Draft) (prefixDirty : Bool) :
    OwnedLine :=
  let draft := draft.movePriority prefixDirty
  if !prefixDirty && draft.description = original.description then line
  else OwnedLine.ofText
    (draft.emit raw prefixDirty (draft.description ≠ original.description)) line.ending

/-- Applies `edit`; an opaque line is returned unchanged and the ending is kept. -/
def apply (line : OwnedLine) (edit : Edit) : OwnedLine :=
  match line.raw with
  | none => line
  | some raw =>
    let original := draftOf raw
    let draft := edit.ops.foldl Draft.applyOp original
    Draft.write line raw original draft (draft.pre ≠ original.pre)

end Txtodo
