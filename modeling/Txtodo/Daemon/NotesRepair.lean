import Txtodo.Core.Diff
import Txtodo.Daemon.ActorClock
import Txtodo.Daemon.History
import Txtodo.Engine.NotesState
import Txtodo.Std.Waiting
import Txtodo.Store.OpTable

/-!
# Repairing a notes log

`notes_repair.rs` and the parts of `notes_actor.rs` that use it: a peer's edit that does not fit waits for
the edits it builds on, a log is replayed the same way, and an edit is committed when the replayed text is
not the file's.
-/

namespace Txtodo

/-- Most notes ops one document keeps waiting; past it the oldest is skipped. -/
def MAX_WAITING_NOTES_OPS : Nat := 1000

/-- A notes document with the ops that did not fit yet, oldest first, and those that were skipped. -/
abbrev NotesQueue := Waiting.Queue NotesState Op NotesStateError

namespace NotesQueue

/-- Nothing imported yet. -/
def empty (path : FilePath) : NotesQueue := Waiting.Queue.fresh (NotesState.empty path)

/-- `WaitingEdits::apply`: the ops in order, the waiting ones tried again after each that lands. -/
def apply (q : NotesQueue) (ops : List Op) : NotesQueue :=
  Waiting.takeAll NotesState.apply MAX_WAITING_NOTES_OPS q ops

end NotesQueue

/-- A replay's text and what still waits, and whether the log was read up to the target. -/
structure Replayed where
  queue : NotesQueue
  complete : Bool

/-- At most `pages` reads past `since`. -/
def replayNotesFrom (log : OpTable) (path : FilePath) (target : Nat) : Nat → Nat → NotesQueue → Replayed
  | 0, _, q => ⟨q, false⟩
  | pages + 1, since, q =>
    let ops := log.forFile path since
    match ops.getLast? with
    | none => ⟨q, true⟩
    | some last =>
      let q := q.apply ((ops.takeWhile fun s => s.seq ≤ target).map (·.op))
      if target ≤ last.seq || ops.length < MAX_OPS_PER_READ then ⟨q, true⟩
      else replayNotesFrom log path target pages last.seq q

/-- `replay_leniently`: the text after every logged op up to `upto`, all when it is not given. -/
def replayLeniently (log : OpTable) (path : FilePath) (upto : Option Nat) : Replayed :=
  replayNotesFrom log path (upto.getD log.totalOps) MAX_REPLAY_PAGES 0 (NotesQueue.empty path)

/-- The edits from the log's text to the file's; none when the log rebuilds the file. -/
def repairEdits (replayed current : NotesState) : Option (List TextEdit) :=
  if replayed.text = current.text then none else diffText replayed.text current.text

/-- One `notes.md`'s owner. -/
structure NotesActor where
  path : FilePath
  device : DeviceId
  clock : ActorClock
  state : NotesState
  waiting : List Op
  log : OpTable

/-- Why a repair is not committed. -/
inductive RepairError where
  | clock (e : HlcError)
  | store (e : AppendError)
  deriving DecidableEq

namespace NotesActor

/-- At open the clock moves past the newest op of the log, never back. -/
def adoptLoggedClock (a : NotesActor) : NotesActor :=
  match (a.log.newest a.path 1).head? with
  | some last =>
    { a with clock := { a.clock with hlc := max a.clock.hlc { last.op.hlc with device := a.device } } }
  | none => a

/-- The op that takes the log's text to the file's. -/
def repairOp (a : NotesActor) (edits : List TextEdit) (hlc : Hlc) (id : OpId) : Op :=
  ⟨id, hlc, a.path, .notesEdit a.path edits⟩

/-- Commits one edit from the replayed text to the current one when the two differ. -/
def repairLog (a : NotesActor) (nowMs : Nat) (id : OpId) : Except RepairError NotesActor :=
  let replayed := replayLeniently a.log a.path none
  if !replayed.complete then .ok a
  else
    let a := { a with waiting := replayed.queue.waiting }
    match repairEdits replayed.queue.state a.state with
    | none => .ok { a with state := a.state.adoptHistory replayed.queue.state }
    | some edits =>
      match a.clock.tick nowMs with
      | (_, .error e) => .error (.clock e)
      | (clock, .ok hlc) =>
        match a.log.append [a.repairOp edits hlc id] with
        | .error e => .error (.store e)
        | .ok log => .ok { a with clock := clock, log := log }

end NotesActor

end Txtodo
