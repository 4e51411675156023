import Txtodo.Core.LineDiff
import Txtodo.Engine.IdStrip
import Txtodo.Engine.Fields

/-!
# Reconciling a file

`reconcile.rs`: the bytes on disk against the last projection, keyed by `id:`, as ops. Ids are
completed first (recovered by content, else minted); then deletions, changes, insertions and moves,
and new blank lines, one pass each.
-/

namespace Txtodo

/-- The result of one reconcile. -/
structure Reconciled where
  ops : List OpKind
  file : File
  minted : Nat
  reused : Nat
  ids : List (Option TaskId)
  deriving DecidableEq

/-- Whether `line` holds a task. -/
def isTask (line : OwnedLine) : Bool := line.task.isSome

/-- Builds a `SetField`, `none` when the value does not fit the field. -/
def OpKind.setFieldOf (task : TaskId) (field : Field) (value : FieldValue) : Option OpKind :=
  match field, value with
  | .completed, .bool _ | .deleted, .bool _ | .completionDate, .date _ | .creationDate, .date _
  | .priority, .priority _ | .quirks, .quirks _ => some (.setField task field value)
  | _, _ => none

/-! ## Ids -/

/-- The line text with its `id:` word removed. -/
def textWithoutId (line : OwnedLine) : Option Text :=
  match Edit.new.removeTag "id".toList with
  | .ok edit => (apply line edit).raw
  | .error _ => none

/-- A task line without an id. -/
def needsId (line : OwnedLine) : Bool := (fastIdOf line).isNone && isTask line

/-- The ids of the lines of `old` whose text without the tag is `text`, in order: the queue
`by_text` holds for it. -/
def idsByText (old : List OwnedLine) (text : Text) : List TaskId :=
  old.filterMap fun line => if textWithoutId line = some text then fastIdOf line else none

/-- `line` with the tag `id`. -/
def stampId (line : OwnedLine) (id : TaskId) : OwnedLine :=
  match Edit.new.setTag "id".toList id.ulid.display with
  | .ok edit => apply line edit
  | .error _ => line

/-- The lines completed so far, the queues left and the counts. -/
structure Assigned where
  lines : List OwnedLine
  byText : Text → List TaskId
  minted : Nat
  reused : Nat

/-- Gives one id-less task line an id: the first one queued for its text, else `mint`'s next. -/
def Assigned.visit (mint : Nat → TaskId) (a : Assigned) (line : OwnedLine) : Assigned :=
  if needsId line then
    match line.raw.map a.byText with
    | some (id :: queue) =>
      { lines := a.lines ++ [stampId line id]
        byText := Function.update a.byText (line.raw.getD []) queue
        minted := a.minted
        reused := a.reused + 1 }
    | _ => { a with lines := a.lines ++ [stampId line (mint a.minted)], minted := a.minted + 1 }
  else { a with lines := a.lines ++ [line] }

/-- Gives every id-less task line of `new` an id. `mint n` is the `n`-th id minted. -/
def assignIds (old new : File) (mint : Nat → TaskId) : File × Nat × Nat :=
  let a := new.lines.foldl (Assigned.visit mint) ⟨[], idsByText old.lines, 0, 0⟩
  ({ new with lines := a.lines }, a.minted, a.reused)

/-! ## Passes -/

/-- The nearest task id above index `i`. -/
def prevTask (ids : List (Option TaskId)) (i : Nat) : Option TaskId :=
  (ids.take i).reverse.findSome? id

/-- `line`'s text. -/
def lineText (line : OwnedLine) : Text := line.raw.getD []

/-- Whether a `SetField` of `field` to `value` belongs to the change from `old` to `wanted`, the line
so far being `line`: a reopen always names the priority it leaves. -/
def changesField (old line : OwnedLine) (wanted : Task) (field : Field) (value : FieldValue) :
    Bool :=
  fieldValue line field ≠ some value ||
    (field = .priority && old.task.any (·.completed) && !wanted.completed)

/-- The ops for one field of a changed line, and the line they leave. -/
def changeField (old new : OwnedLine) (wanted : Task) (task : TaskId)
    (acc : List OpKind × OwnedLine) (field : Field) : List OpKind × OwnedLine :=
  match fieldValue new field with
  | none => acc
  | some value =>
    if changesField old acc.2 wanted field value then
      match OpKind.setFieldOf task field value, rewritePrefix acc.2 field value with
      | some op, some next => (acc.1 ++ [op], next)
      | _, _ => acc
    else acc

/-- The op for the description, once the fields are those of `wanted`. -/
def changeDescription (line : OwnedLine) (wanted : Task) (task : TaskId) : List OpKind :=
  match line.task with
  | none => []
  | some have_ =>
    if Txtodo.removeTag have_.description "pri".toList = wanted.description ∧
        have_.description ≠ wanted.description then
      [.removeTag task "pri".toList]
    else if have_.description ≠ wanted.description then
      match diffText have_.description wanted.description with
      | some edits => [.editText task edits]
      | none => []
    else []

/-- Field-level ops for a changed line, then the description. -/
def changeOps (old new : OwnedLine) (task : TaskId) : List OpKind :=
  match new.task, old.task with
  | some wanted, some _ =>
    let (ops, line) :=
      [Field.completed, .completionDate, .creationDate, .priority].foldl
        (changeField old new wanted task) ([], old)
    ops ++ changeDescription line wanted task
  | _, _ => []

def deleteOp (oldIds : List (Option TaskId)) (old : Nat) : OpKind :=
  let blank := OpKind.blankRemove (prevTask oldIds old)
  match oldIds[old]? with
  | some (some task) => (OpKind.setFieldOf task .deleted (.bool true)).getD blank
  | _ => blank

/-- Pass 1: deletions, bottom-up. -/
def deletePass (diffs : List LineDiff) (oldIds : List (Option TaskId)) : List OpKind :=
  diffs.reverse.filterMap fun
    | .delete old => some (deleteOp oldIds old)
    | _ => none

/-- Pass 2: changed lines, each already resolved to the task it was. -/
def changePass (diffs : List LineDiff) (old : File) (oldIds : List (Option TaskId)) (file : File) :
    List OpKind :=
  diffs.flatMap fun
    | .change i j =>
      match oldIds[i]?, old.lines[i]?, file.lines[j]? with
      | some (some task), some before, some after => changeOps before after task
      | _, _, _ => []
    | _ => []

/-- Pass 3: new and moved task lines, top-down, each right after its predecessor task. -/
def taskPass (diffs : List LineDiff) (file : File) (newIds : List (Option TaskId))
    (path : FilePath) : List OpKind :=
  diffs.filterMap fun
    | .insert new =>
      match newIds[new]?, file.lines[new]? with
      | some (some task), some line => some (.insert task (prevTask newIds new) (lineText line))
      | _, _ => none
    | .move _ new =>
      match newIds[new]? with
      | some (some task) => some (.move task (prevTask newIds new) path)
      | _ => none
    | _ => none

/-- Pass 4: new blank lines, each after the task above it. -/
def blankPass (diffs : List LineDiff) (newIds : List (Option TaskId)) : List OpKind :=
  diffs.filterMap fun
    | .insert new => if newIds[new]? = some none then some (.blankInsert (prevTask newIds new))
      else none
    | _ => none

/-- Derives ops that turn `old` into `new`. -/
def reconcile (old new : File) (path : FilePath) (mint : Nat → TaskId) : Option Reconciled :=
  let (file, minted, reused) := assignIds old new mint
  let oldIds := old.lines.map fastIdOf
  let newIds := file.lines.map fastIdOf
  (diffLines old file).map fun diffs =>
    { ops := deletePass diffs oldIds ++ changePass diffs old oldIds file ++
        taskPass diffs file newIds path ++ blankPass diffs newIds
      file := file
      minted := minted
      reused := reused
      ids := newIds }

end Txtodo
