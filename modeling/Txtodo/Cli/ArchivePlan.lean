import Txtodo.Cli.PlanCheck

/-!
# An archived file as moves to the end

`archive_plan.rs`: when a file changed by moving its done lines to the bottom in their old order, an `Edit` for
each line that changed and a `MoveToEnd` for each done one. Every line must carry an id.
-/

namespace Txtodo.Cli.ArchivePlan

/-- The daemon refuses a batch of more mutations than this. -/
def MAX_BATCH : Nat := 10000

def idOf (line : OwnedLine) : Option Ulid := line.task.bind Task.id

/-- The ids in line order; `none` when a line is blank, has no id, or an id repeats. -/
def idsOf (file : File) : Option (List Ulid) := do
  let ids ← file.lines.mapM idOf
  if ids.Nodup then some ids else none

/-- The archive's own test for a done line. -/
def isDone (line : OwnedLine) : Bool := [120, 32].isPrefixOf line.bytes

/-- The ids of the done lines of `new`. -/
def doneOf (new : File) (newIds : List Ulid) : List Ulid :=
  ((new.lines.zip newIds).filter fun p => isDone p.1).map (·.2)

/-- An `Edit` for every line from `i` on whose bytes differ between the files, sent first: an edit never shifts
a line. -/
def edits (old new : File) (newIds : List Ulid) : Nat → List Ulid → Option (List Pb.Mutation)
  | _, [] => some []
  | i, id :: rest => do
    let at_ ← newIds.idxOf? id
    let line ← new.lines[at_]?
    let before ← old.lines[i]?
    if line.bytes ≠ before.bytes then
      let newLine ← line.raw
      let rest ← edits old new newIds (i + 1) rest
      return .edit (taskRef old i) newLine :: rest
    else edits old new newIds (i + 1) rest

/-- One `MoveToEnd` for each done line from `i` on. Each of the `k` moves before it lifted one line from above
it, so it sits that much higher than `old` numbered it. -/
def moves (old : File) (done : List Ulid) : Nat → Nat → List Ulid → Option (List Pb.Mutation)
  | _, _, [] => some []
  | i, k, id :: rest =>
    if id ∈ done then
      let lineNumber := i - k + 1
      if U32_MAX < lineNumber then none
      else (moves old done (i + 1) (k + 1) rest).map
        (.moveToEnd { taskRef old i with lineNumber := lineNumber } :: ·)
    else moves old done (i + 1) k rest

/-- `ids` with the done ones behind the others, each part in its order. -/
def archived (done ids : List Ulid) : List Ulid := ids.filter (· ∉ done) ++ ids.filter (· ∈ done)

/-- The mutations that turn `old` into `new`, when `new` is `old` archived; `none` for any other shape and for a
file that is in that order already. -/
def plan (old new : File) : Option (List Pb.Mutation) := do
  let oldIds ← idsOf old
  let newIds ← idsOf new
  let done := doneOf new newIds
  if archived done oldIds ≠ newIds ∨ oldIds = newIds then none
  else
    let edits ← edits old new newIds 0 oldIds
    let moves ← moves old done 0 0 oldIds
    if (edits ++ moves).length ≤ MAX_BATCH then some (edits ++ moves) else none

end Txtodo.Cli.ArchivePlan
