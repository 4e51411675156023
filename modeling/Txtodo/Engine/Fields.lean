import Txtodo.Engine.StateGhosts

/-!
# Rewriting a line in place

`fields.rs`: `SetField` re-emits the prefix (a priority on a done line lives in its `pri:` tag),
`EditText` and `RemoveTag` set the description its history holds.
-/

namespace Txtodo

/-- A task line's description. -/
def descriptionOf (line : OwnedLine) : Option Text := line.task.map (·.description)

/-- A task id from a parsed line, when it has one. -/
def idOf (line : OwnedLine) : Option TaskId := (line.task.bind Task.id).map TaskId.mk

/-- The prefix with one field changed; `none` when the value does not fit. -/
def setPrefix (p : Prefix) : Field → FieldValue → Option Prefix
  | .completed, .bool b =>
    -- `x <date> text` reads that date as the completion date: a creation date alone is repeated
    let completionDate :=
      if b && p.completionDate.isNone && p.creationDate.isSome then p.creationDate
      else p.completionDate
    some { p with completed := b, completionDate := completionDate }
  | .completionDate, v => v.asDate.map fun d => { p with completionDate := d }
  | .creationDate, v => v.asDate.map fun d => { p with creationDate := d }
  | .priority, .priority letter => some { p with priority := letter.bind Priority.new }
  | _, _ => none

/-- Re-emits the prefix with one field changed; a priority on a completed line moves to `pri:`. -/
def rewritePrefix (line : OwnedLine) (field : Field) (value : FieldValue) : Option OwnedLine := do
  let raw ← line.raw
  let task ← line.task
  let p ← setPrefix (Prefix.of task) field value
  let description := raw.drop (descriptionStart raw)
  let moved := if p.completed then p.priority else none
  let p := if p.completed then { p with priority := none } else p
  let rewritten := OwnedLine.ofText (emitPrefix p (!description.isEmpty) ++ description) line.ending
  match moved with
  | none => some rewritten
  | some priority =>
    match Edit.new.setTag "pri".toList [priority.letter] with
    | .ok edit => some (apply rewritten edit)
    | .error _ => none

/-- `field`'s value on a task line, for the four prefix fields. -/
def fieldValue (line : OwnedLine) (field : Field) : Option FieldValue :=
  line.task.bind fun task =>
    match field with
    | .completed => some (.bool task.completed)
    | .completionDate => some (FieldValue.ofDate task.completionDate)
    | .creationDate => some (FieldValue.ofDate task.creationDate)
    | .priority => some (FieldValue.ofPriority task.priority)
    | .deleted | .quirks => none

/-- A done line's description. -/
def doneDescription (line : OwnedLine) : Option Text :=
  line.task.bind fun task => if task.completed then some task.description else none

/-- The letter a done line's `pri:` tag holds. -/
def movedPriority (line : OwnedLine) : Option Char :=
  line.task.bind fun task =>
    if task.completed then (task.tag "pri".toList).bind List.head? else none

/-- The line a lost `Priority` op leaves: an open line with a `pri:` tag and no `(X)` takes the tag's
letter into the prefix. -/
def priorityFromTag (line : OwnedLine) : Option OwnedLine :=
  line.task.bind fun task =>
    if task.completed || task.priority.isSome then none
    else (task.tag "pri".toList).bind fun value => value.head?.bind fun letter =>
      (Priority.new letter).bind fun _ => rewritePrefix line .priority (.priority (some letter))

/-- The old and new descriptions and `(letter, added)` when a rewrite moved a priority into `pri:`
exactly as `setPri` would. -/
def movedIntoPri (oldLine newLine : OwnedLine) : Option (Text × Text × Char × Bool) := do
  let old ← descriptionOf oldLine
  let new ← descriptionOf newLine
  let letter ← movedPriority newLine
  let add := !hasPri old
  if setPri old letter add = new then some (old, new, letter, add) else none

namespace DocState

/-- `line` with its description set to `text`; refused when that drops the `id:` a tagged line
needs. -/
def withDescription (s : DocState) (task : TaskId) (line : OwnedLine) (text : Text) :
    Except StateError OwnedLine :=
  match Edit.new.setDescription text with
  | .error _ => .error (.unsupported "line break".toList)
  | .ok edit =>
    let newLine := apply line edit
    if s.mode = .tagged ∧ idOf newLine ≠ some task then .error (.idMismatch task)
    else .ok newLine

/-- A prefix rewrite changed the description: it goes into the history at `hlc`, and the line is the
one the history rebuilds. A change `setPri` would not make the same way drops the history. -/
def keepInHistory (s : DocState) (task : TaskId) (oldLine newLine : OwnedLine) (hlc : Hlc) :
    DocState × OwnedLine :=
  match movedIntoPri oldLine newLine with
  | none => (s.forgetText task, newLine)
  | some (old, new, letter, add) =>
    match s.setPriInDescription task old hlc letter add with
    | (s, none) => (s.forgetText task, newLine)
    | (s, some held) =>
      if held = new then (s, newLine)
      else match Edit.new.setDescription held with
        | .ok edit => (s, apply newLine edit)
        | .error _ => (s, newLine)

/-- `Priority = None` on a done line, newer than the field: the clear takes every tag a completion
added. -/
def clearDonePriority (s : DocState) (task : TaskId) (slot : Nat) (line : OwnedLine)
    (description : Text) (hlc : Hlc) : Outcome :=
  let (s, held) := s.clearPriInDescription task description
  match s.withDescription task line held with
  | .error e => s.fails e
  | .ok newLine => ((s.replaceEntry slot (.task task newLine)).recordField task .priority hlc).done

/-- Records a delete of `task`, and whether it hides the task: not when an insert again newer than it
already landed. -/
def noteDeath (s : DocState) (task : TaskId) (hlc : Hlc) : DocState × Bool :=
  let life := (s.life task).getD ⟨none, none⟩
  let died := life.died.elim hlc fun d => max d hlc
  ({ s with life := setKey s.life task (some { life with died := some died }) },
    life.reborn.all fun r => r ≤ hlc)

/-- `SetField Deleted`. -/
def setDeleted (s : DocState) (task : TaskId) (value : FieldValue) (hlc : Hlc) : Outcome :=
  if value = .bool true then
    if s.hasPlacement task then
      let (s, hides) := s.noteDeath task hlc
      match s.liveSlot task with
      | some slot => if hides then (s.hideEntry slot).done else s.done
      | none => s.done
    else s.fails (.unknownTask task)
  else s.fails (.unsupported "undelete via SetField".toList)

/-- A `SetField` older than the one the field took changes nothing, but for a priority a reopen half
applied. -/
def setStaleField (s : DocState) (task : TaskId) (slot : Nat) (line : OwnedLine) (field : Field) :
    Outcome :=
  match (if field = .priority then priorityFromTag line else none) with
  | some restored => (s.replaceEntry slot (.task task restored)).done
  | none => s.done

/-- A newer `SetField` of a prefix field re-emits the prefix. -/
def setPrefixField (s : DocState) (task : TaskId) (slot : Nat) (line : OwnedLine) (field : Field)
    (value : FieldValue) (hlc : Hlc) : Outcome :=
  match rewritePrefix line field value with
  | none => s.fails (.unsupported "SetField on this line".toList)
  | some newLine =>
    let (s, newLine) :=
      if descriptionOf line = descriptionOf newLine then (s, newLine)
      else s.keepInHistory task line newLine hlc
    ((s.replaceEntry slot (.task task newLine)).recordField task field hlc).done

/-- Applies `SetField` stamped `hlc`. -/
def setField (s : DocState) (task : TaskId) (field : Field) (value : FieldValue) (hlc : Hlc) :
    Outcome :=
  if field = .deleted then s.setDeleted task value hlc
  else
    match s.contentSlot task with
    | none => s.fails (.unknownTask task)
    | some slot =>
      match s.slotLine slot with
      | none => s.fails (.unknownTask task)
      | some line =>
        if s.isStaleField task field hlc then s.setStaleField task slot line field
        else
          match (if field = .priority ∧ value = .priority none then doneDescription line
            else none) with
          | some description => s.clearDonePriority task slot line description hlc
          | none => s.setPrefixField task slot line field value hlc

/-- Puts back `task`'s history as `saved` and fails. -/
def restoreText (s : DocState) (task : TaskId) (saved : Option TextHistory) (e : StateError) :
    Outcome :=
  (s.setHistory task saved).fails e

/-- Applies `EditText` stamped `hlc` to the description. -/
def editText (s : DocState) (task : TaskId) (edits : List TextEdit) (hlc : Hlc) : Outcome :=
  match s.contentSlot task with
  | none => s.fails (.unknownTask task)
  | some slot =>
    match s.slotLine slot with
    | none => s.fails (.unknownTask task)
    | some line =>
      match descriptionOf line with
      | none => s.fails (.opaque_ slot)
      | some description =>
        let saved := s.textHistory task
        match s.editDescription task description hlc edits with
        | (s, .error e) => s.restoreText task saved (.text task e)
        | (s, .ok newDescription) =>
          match s.withDescription task line newDescription with
          | .error e => s.restoreText task saved e
          | .ok newLine => (s.replaceEntry slot (.task task newLine)).done

/-- Applies `RemoveTag` stamped `hlc`. -/
def removeTag (s : DocState) (task : TaskId) (key : Text) (hlc : Hlc) : Outcome :=
  if !validTagKey key then s.fails (.unsupported "RemoveTag with a bad key".toList)
  else
    match s.contentSlot task with
    | none => s.fails (.unknownTask task)
    | some slot =>
      match s.slotLine slot with
      | none => s.fails (.unknownTask task)
      | some line =>
        match descriptionOf line with
        | none => s.fails (.opaque_ slot)
        | some description =>
          let saved := s.textHistory task
          let (s, held) := s.removeTagInDescription task description hlc key
          match s.withDescription task line held with
          | .error e => s.restoreText task saved e
          | .ok newLine => (s.replaceEntry slot (.task task newLine)).done

end DocState

end Txtodo
