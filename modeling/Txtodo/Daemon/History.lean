import Txtodo.Engine.StateApply
import Txtodo.Store.OriginLog
import Txtodo.Store.OpTable

/-!
# History

`history.rs`: a document replayed from its log, page by page; the first op that does not apply ends the
replay. No snapshot is taken here, so a replay begins with the empty document.
-/

namespace Txtodo

/-- Most reads one replay makes. -/
def MAX_REPLAY_PAGES : Nat := 1000

/-- The ops of one read applied in order. -/
def replayPage (state : DocState) : List Op → Except StateError DocState
  | [] => .ok state
  | op :: ops =>
    match state.apply op with
    | ⟨state, .ok ()⟩ => replayPage state ops
    | ⟨_, .error e⟩ => .error e

/-- At most `pages` reads of `log`, which is left from there on. -/
def replayPages : Nat → DocState → List Op → Except StateError DocState
  | 0, state, _ => .ok state
  | pages + 1, state, log =>
    if log.isEmpty then .ok state
    else
      match replayPage state (log.take MAX_OPS_PER_READ) with
      | .error e => .error e
      | .ok state =>
        if (log.drop MAX_OPS_PER_READ).isEmpty then .ok state
        else replayPages pages state (log.drop MAX_OPS_PER_READ)

/-- `history::replay` of the whole log, no snapshot taken. -/
def replay (path : FilePath) (mode : IdentityMode) (log : List Op) : Except StateError DocState := do
  let state ← DocState.fromFile path File.empty [] mode
  replayPages MAX_REPLAY_PAGES state log

end Txtodo

/-!
## Reading history

`history.rs`: the number a checkout by time ends at, and the pages of the `History` request. The request
is taken with its path and its task read.
-/

namespace Txtodo

/-! ## Checkout by time -/

/-- One read of the log: the best number so far, and whether a newer op ended the scan. -/
def scanOps (atWallMs : Nat) : Option Nat → List Stored → Option Nat × Bool
  | best, [] => (best, false)
  | best, s :: ops =>
    if s.op.hlc.wallMs ≤ atWallMs then scanOps atWallMs (some s.seq) ops else (best, true)

/-- At most `pages` reads from `since` on. -/
def scanPages (t : OpTable) (path : FilePath) (atWallMs : Nat) : Nat → Nat → Option Nat → Option Nat
  | 0, _, best => best
  | pages + 1, since, best =>
    let ops := t.forFile path since
    match ops.getLast? with
    | none => best
    | some last =>
      match scanOps atWallMs best ops with
      | (best, true) => best
      | (best, false) =>
        if ops.length < MAX_OPS_PER_READ then best
        else scanPages t path atWallMs pages last.seq best

/-- `history::seq_at_wall`. -/
def seqAtWall (t : OpTable) (path : FilePath) (atWallMs : Nat) : Option Nat :=
  scanPages t path atWallMs MAX_REPLAY_PAGES 0 none

/-- What a checkout by time is for: the greatest number among the ops that are old enough. -/
def newestAtWall (t : OpTable) (path : FilePath) (atWallMs : Nat) : Option Nat :=
  (((t.ofFile path).filter fun s => s.op.hlc.wallMs ≤ atWallMs).map (·.seq)).max?

/-! ## Pages of history -/

def HISTORY_DEFAULT_LIMIT : Nat := 50
def HISTORY_MAX_LIMIT : Nat := 1000

/-- `convert::task_of`: the task an op is about. -/
def Convert.taskOf : OpKind → Option TaskId
  | .insert task _ _ | .setField task _ _ | .editText task _ | .removeTag task _ | .move task _ _ =>
    some task
  | .notesEdit _ _ | .blankInsert _ | .blankRemove _ => none

/-- `HistoryRequest`, no path asking for every document. -/
structure HistoryRequest where
  path : Option FilePath
  task : Option TaskId
  limit : Nat
  beforeSeq : Int

/-- The documents of a workspace. -/
structure WorkspacePaths where
  paths : List FilePath
  nodup : paths.Nodup

namespace HistoryRequest

/-- The most ops an answer holds. -/
def pageSize (r : HistoryRequest) : Nat :=
  if r.limit = 0 then HISTORY_DEFAULT_LIMIT else min r.limit HISTORY_MAX_LIMIT

/-- The documents asked for. -/
def paths (r : HistoryRequest) (ws : WorkspacePaths) : List FilePath :=
  match r.path with
  | none => ws.paths
  | some path => [path]

/-- Whether the op is about the task asked for. -/
def passes (r : HistoryRequest) (s : Stored) : Bool :=
  match r.task with
  | none => true
  | some task => Convert.taskOf s.op.kind = some task

/-- Rows with the newest first. -/
def newestFirst (rows : List Stored) : List Stored := rows.mergeSort fun a b => b.seq ≤ a.seq

/-- `history_impl`. -/
def history (r : HistoryRequest) (t : OpTable) (ws : WorkspacePaths) : List Stored :=
  let rows := (r.paths ws).flatMap fun path =>
    (t.newest path MAX_OPS_PER_READ).filter fun s => r.beforeSeq = 0 ∨ (s.seq : Int) < r.beforeSeq
  (newestFirst (rows.filter r.passes)).take r.pageSize

/-- The answer to the request asked again from below `beforeSeq`. -/
def pageBelow (r : HistoryRequest) (t : OpTable) (ws : WorkspacePaths) (beforeSeq : Int) : List Stored :=
  { r with beforeSeq := beforeSeq }.history t ws

/-- What the pages together are for: every op that passes, once, the newest first. -/
def wholeHistory (r : HistoryRequest) (t : OpTable) (ws : WorkspacePaths) : List Stored :=
  newestFirst (((r.paths ws).flatMap t.ofFile).filter r.passes)

end HistoryRequest

end Txtodo
