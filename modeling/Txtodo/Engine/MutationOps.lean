import Txtodo.Engine.Mutation
import Txtodo.Engine.ReconcileReplay

/-!
# Mutations as ops

`mutation_ops` (`mutation.rs`, `mutation_add.rs`, `mutation_moves.rs`, `mutation_reopen.rs`): what a client
asks for, as ops against a document. A hash is any type: documents are only compared by it.
-/

namespace Txtodo

/-- What a client can ask for. -/
inductive Mutation (Hash : Type) where
  | add (line : Text)
  | arrive (line : Text) (task : TaskId)
  | complete (task : TaskRef) (today : Date)
  | edit (task : TaskRef) (newLine : Text) (settle : Bool)
  | move (task : TaskRef) (to_ : FilePath)
  | delete (task : TaskRef) (leaveBlank : Bool)
  | moveToEnd (task : TaskRef)
  | moveBefore (task before : TaskRef)
  | reopen (task : TaskRef)
  | replace (base : Hash) (contents : List UInt8)
  | requireBase (base : Hash)

/-- Whether a line is done. -/
def isCompleted (line : OwnedLine) : Bool := line.task.any (·.completed)

/-- The nearest task id before line `i`. -/
def DocState.taskBefore (s : DocState) (i : Nat) : Option TaskId :=
  (s.visible.take i).reverse.findSome? fun j => s.entries[j]?.bind Entry.id

/-- Validates client text into a task line. -/
def taskLine (text : Text) : Except MutationError OwnedLine :=
  if '\n' ∈ text ∨ '\r' ∈ text then .error (.notATask text)
  else
    let owned := OwnedLine.ofText text .lf
    if owned.task.isSome then .ok owned else .error (.notATask text)

/-- Whether an insert of `owned` takes the minted id. -/
def takesMinted (s : DocState) (owned : OwnedLine) : Bool := s.mode = .sidecar || (idOf owned).isNone

/-- The id of an inserted line, and the line with its tag. -/
def identified (s : DocState) (text : Text) (owned : OwnedLine) (mint : TaskId) :
    Except MutationError (TaskId × OwnedLine) :=
  if s.mode = .sidecar then .ok (mint, owned)
  else
    match idOf owned with
    | some id => .ok (id, owned)
    | none =>
      match Edit.new.setTag "id".toList mint.ulid.display with
      | .ok edit => .ok (mint, apply owned edit)
      | .error _ => .error (.notATask text)

/-- One `Insert` after the last task. -/
def addOps (s : DocState) (line : Text) (mint : TaskId) : Except MutationError (List OpKind) := do
  let owned ← taskLine line
  let (task, owned) ← identified s line owned mint
  return [.insert task (s.taskBefore s.visible.length) (lineText owned)]

/-- The source half of a cross-file move. -/
def moveOps (s : DocState) (task : TaskRef) (to_ : FilePath) : Except MutationError (List OpKind) := do
  let (_, id) ← resolve s task
  return [.move id none to_]

/-- A move to after the last other task. -/
def moveToEndOps (s : DocState) (task : TaskRef) : Except MutationError (List OpKind) := do
  let (i, id) ← resolve s task
  let last := s.taskBefore s.visible.length
  return [.move id (if last = some id then s.taskBefore i else last) s.path]

/-- A move to right before another task. -/
def moveBeforeOps (s : DocState) (task before : TaskRef) : Except MutationError (List OpKind) := do
  let (i, id) ← resolve s task
  let (j, beforeId) ← resolve s before
  if id = beforeId then throw (.unsupported "moving a task before itself".toList)
  let predecessor := s.taskBefore j
  return [.move id (if predecessor = some id then s.taskBefore i else predecessor) s.path]

/-- The last of `lines` before the first done one, `id` left out. -/
def lastOpen (id : TaskId) : Option TaskId → List (TaskId × OwnedLine) → Option TaskId
  | last, [] => last
  | last, (other, line) :: rest =>
    if other = id then lastOpen id last rest
    else if isCompleted line then last
    else lastOpen id (some other) rest

/-- The task a reopened line goes after. -/
def endOfOpenBlock (s : DocState) (id : TaskId) : Option TaskId := lastOpen id none s.taskLines

/-- A task's line, which a resolved reference has. -/
def lineOfRef (s : DocState) (task : TaskRef) (id : TaskId) : Except MutationError OwnedLine :=
  match s.lineOf id with
  | some line => .ok line
  | none => .error (.noLine task.lineNumber)

def reopenOps (s : DocState) (task : TaskRef) : Except MutationError (List OpKind) := do
  let (i, id) ← resolve s task
  let old ← lineOfRef s task id
  let ops := changeOps old (apply old Edit.new.uncomplete) id
  if ops.isEmpty then return ops
  let after := endOfOpenBlock s id
  return if s.taskBefore i = after then ops else ops ++ [.move id after s.path]

/-- `ops`, then a move to the end when `moves` and the task is not the last already. -/
def thenToEnd (s : DocState) (task : TaskRef) (id : TaskId) (moves : Bool) (ops : List OpKind) :
    Except MutationError (List OpKind) := do
  if moves && s.taskBefore s.visible.length ≠ some id then
    return ops ++ (← moveToEndOps s task)
  return ops

def completeOps (s : DocState) (task : TaskRef) (today : Date) :
    Except MutationError (List OpKind) := do
  let (_, id) ← resolve s task
  let old ← lineOfRef s task id
  let ops := changeOps old (apply old (Edit.new.complete today)) id
  thenToEnd s task id (!ops.isEmpty) ops

def editOps (s : DocState) (task : TaskRef) (newLine : Text) (settle : Bool) :
    Except MutationError (List OpKind) := do
  let (_, id) ← resolve s task
  let new ← taskLine newLine
  if s.mode = .tagged ∧ idOf new ≠ some id then throw (.idChanged id)
  let old ← lineOfRef s task id
  thenToEnd s task id (settle && !isCompleted old && isCompleted new) (changeOps old new id)

def deleteOps (s : DocState) (task : TaskRef) (leaveBlank : Bool) :
    Except MutationError (List OpKind) := do
  let (i, id) ← resolve s task
  let after := s.taskBefore i
  let delete := (OpKind.setFieldOf id .deleted (.bool true)).getD (.blankRemove after)
  return delete :: if leaveBlank then [.blankInsert after] else []

/-- Turns one mutation into ops; `mint` is the id an `Add` without one gets. -/
def mutationOps {Hash : Type} (s : DocState) (mutation : Mutation Hash) (mint : TaskId) :
    Except MutationError (List OpKind) :=
  match mutation with
  | .add line => addOps s line mint
  | .arrive line task => addOps s line task
  | .complete task today => completeOps s task today
  | .edit task newLine settle => editOps s task newLine settle
  | .move task to_ => moveOps s task to_
  | .moveToEnd task => moveToEndOps s task
  | .reopen task => reopenOps s task
  | .moveBefore task before => moveBeforeOps s task before
  | .replace .. => .error (.unsupported "Replace must be its own Apply batch".toList)
  | .requireBase _ => .ok []
  | .delete task leaveBlank => deleteOps s task leaveBlank

/-- Whether deriving a mutation's ops mints an id. -/
def mintsId {Hash : Type} (s : DocState) : Mutation Hash → Bool
  | .add line =>
    match taskLine line with
    | .ok owned => takesMinted s owned
    | .error _ => false
  | _ => false

end Txtodo
