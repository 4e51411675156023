import Txtodo.Core.Edit

/-!
# What a batch of mutations does to the lines

Mutations as a command sends them (`txtodo.proto`), how a command names a line (`daemon_mode.rs`) and what the
daemon makes of a batch (`plan_check.rs`).
-/

namespace Txtodo

namespace Pb

/-- A line as a command names it: its 1-based number and the id it saw there, empty when there was none. -/
structure TaskRef where
  lineNumber : Nat
  taskId : Text
  deriving DecidableEq

inductive Mutation where
  | add (line : Text)
  | complete (task : TaskRef) (today : Text)
  | edit (task : TaskRef) (newLine : Text)
  | move (task : TaskRef) (toPath : Text)
  | delete (task : TaskRef) (leaveBlank : Bool)
  | moveToEnd (task : TaskRef)
  | replace (baseHash contents : List UInt8)
  | requireBase (baseHash : List UInt8)
  | moveBefore (task before : TaskRef)
  | reopen (task : TaskRef)
  deriving DecidableEq

/-- The lines a mutation names. -/
def Mutation.tasks : Mutation → List TaskRef
  | complete task _ => [task]
  | edit task _ => [task]
  | move task _ => [task]
  | delete task _ => [task]
  | moveToEnd task => [task]
  | moveBefore task before => [task, before]
  | reopen task => [task]
  | _ => []

end Pb

namespace Cli

/-- `u32::MAX`: a line number is 32 bits wide. -/
def U32_MAX : Nat := 4294967295

/-- The id of a line as text, empty when it has none. -/
def idText (line : OwnedLine) : Text := ((line.task.bind Task.id).map Ulid.display).getD []

/-- Names line `from_` of a file. -/
def taskRef (old : File) (from_ : Nat) : Pb.TaskRef :=
  ⟨min (from_ + 1) U32_MAX, (old.lines[from_]?.map idText).getD []⟩

/-- `line` completed on `today`, as the daemon rewrites it; `none` for a date it refuses. -/
def completed (line : List UInt8) (today : Text) : Option (List UInt8) := do
  let today ← Date.parse today
  return (apply (.fromBytes line .lf) (Edit.new.complete today)).bytes

abbrev Lines := List (List UInt8)

/-- Where an appended or moved task goes: right after the last line that is not blank. -/
def tail (lines : Lines) : Nat := (lines.reverse.dropWhile List.isEmpty).length

/-- The index a mutation names, if that line exists and is a task. -/
def taskIndex (lines : Lines) (task : Pb.TaskRef) : Option Nat :=
  if task.lineNumber = 0 then none
  else if lines[task.lineNumber - 1]?.any (!·.isEmpty) then some (task.lineNumber - 1) else none

/-- Takes line `at_` out and puts it at the tail. -/
def toTail (lines : Lines) (at_ : Nat) : Option Lines := do
  let moved ← lines[at_]?
  let rest := lines.eraseIdx at_
  return rest.insertIdx (tail rest) moved

/-- One mutation; `none` for one a plan never holds or one the daemon would refuse. -/
def replayStep (lines : Lines) : Pb.Mutation → Option Lines
  | .edit task newLine => do
    let at_ ← taskIndex lines task
    return lines.set at_ (Utf8.encode newLine)
  | .complete task today => do
    let at_ ← taskIndex lines task
    let line ← lines[at_]?
    let done ← completed line today
    -- A line that changed goes to the end of its file, unless it is the last task already.
    if done ≠ line ∧ at_ + 1 ≠ tail (lines.set at_ done) then toTail (lines.set at_ done) at_
    else return lines.set at_ done
  | .delete task leaveBlank => do
    let at_ ← taskIndex lines task
    return if leaveBlank then lines.set at_ [] else lines.eraseIdx at_
  | .moveToEnd task => do
    let at_ ← taskIndex lines task
    toTail lines at_
  | .add line => some (lines.insertIdx (tail lines) (Utf8.encode line))
  | _ => none

/-- A file's lines without their endings. -/
def linesOf (f : File) : Lines := f.lines.map (·.bytes)

/-- Whether the line at the number a reference names carries the id it names. -/
def carries (lines : Lines) (task : Pb.TaskRef) : Bool :=
  task.taskId.isEmpty || lines[task.lineNumber - 1]?.any fun line => idText (.fromBytes line .lf) = task.taskId

/-- One mutation, refused as stale when a line it names carries another id. -/
def checkedStep (lines : Lines) (m : Pb.Mutation) : Option Lines :=
  if m.tasks.all (carries lines) then replayStep lines m else none

/-- `muts` applied to `old` the way the daemon applies them. -/
def checkedReplay (old : File) (muts : List Pb.Mutation) : Option Lines := muts.foldlM checkedStep (linesOf old)

end Cli

end Txtodo
