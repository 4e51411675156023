import Txtodo.Engine.StateApply

/-!
# Naming a line

A client names a line by its number and the id it saw there (`mutation.rs`).
-/

namespace Txtodo

/-- A line as the client saw it: its 1-based number and the id there, when it had one. -/
structure TaskRef where
  lineNumber : Nat
  taskId : Option TaskId
  deriving DecidableEq

/-- Why a mutation was refused. -/
inductive MutationError where
  | noLine (n : Nat)
  | blank (n : Nat)
  | stale (lineNumber : Nat) (expected found : TaskId)
  | staleBase
  | notATask (text : Text)
  | idChanged (task : TaskId)
  | unsupported (what : Text)
  | unknownTask (task : TaskId)
  | tooMany (n : Nat)
  deriving DecidableEq

/-- Resolves the line numbered `n`; in tagged mode `expected` guards against a concurrent edit. -/
def resolveLine (state : DocState) (n : Nat) (expected : Option TaskId) :
    Except MutationError (Nat × TaskId) :=
  if n = 0 then .error (.noLine n)
  else
    match state.entryAt (n - 1) with
    | none => .error (.noLine n)
    | some (.blank _) => .error (.blank n)
    | some (.task found _) =>
      match expected with
      | none => .ok (n - 1, found)
      | some expected =>
        if state.mode = .tagged ∧ expected ≠ found then .error (.stale n expected found)
        else .ok (n - 1, found)

/-- Resolves a `TaskRef`: the line's index and its id. Line 0 names the task by its id alone. -/
def resolve (state : DocState) (task : TaskRef) : Except MutationError (Nat × TaskId) :=
  match task.lineNumber, task.taskId with
  | 0, some id =>
    match state.indexOf id with
    | some i => .ok (i, id)
    | none => .error (.unknownTask id)
  | n, expected => resolveLine state n expected

end Txtodo
