import Txtodo.Daemon.Landing
import Txtodo.Daemon.ServeMerged

/-!
# One end of a live link

`lan_session_live.rs` for one workspace: what the peer holds for sure, what was sent it since, and the
batch a push takes from the difference. Clocks only decide when a push or a rewind is due, so both are
taken at any time.
-/

namespace Txtodo

/-- Push state for one workspace. -/
structure Live where
  /-- The highest number the peer holds per origin for sure. -/
  held : Heads
  /-- `held` and every run sent since that the peer has not acked. -/
  sent : Heads
  /-- The heads the peer's `Want` asked for, until they are sent. -/
  asked : Option Heads
  /-- Whether the peer sent its `Want`. -/
  ready : Bool

/-- Batches that may be unacked at once. -/
def WINDOW_BATCHES : Nat := 2

namespace Live

def new : Live := ⟨.empty, .empty, none, false⟩

def noteSent (ranges : List OriginRange) (l : Live) : Live := { l with sent := raise l.sent ranges }

/-- An `Ack`: its runs are held now. -/
def noteAcked (committed : List OriginRange) (l : Live) : Live :=
  if committed.isEmpty then l
  else
    let held := raise l.held committed
    { l with held, sent := raiseTo l.sent held }

/-- Bookkeeping from one message the peer sent, taken before it is handled. -/
def observe (msg : Message) (l : Live) : Live :=
  match msg with
  | .greet _ heads => { l with held := heads, sent := heads }
  | .want _ ranges => { l with asked := some (raise l.sent ranges), ready := true }
  | .ops _ _ _ ranges => { l with held := raise l.held ranges, sent := raise l.sent ranges }
  | .ack _ committed => l.noteAcked committed
  | .hello .. | .digest .. => l

/-- Whether runs were sent that the peer has not acked. -/
def inFlight (l : Live) : Bool := l.sent.items.any fun e => l.held.get e.1 < e.2

/-- Ops sent and not acked yet. -/
def inFlightOps (l : Live) : UInt64 :=
  l.sent.items.foldl (fun sum e => sum + if l.held.get e.1 < e.2 then e.2 - l.held.get e.1 else 0) 0

/-- Forgets what is in flight: the next push starts from what the peer acked. -/
def rewind (l : Live) : Live := if l.inFlight then { l with sent := l.held } else l

/-- The runs the peer still lacks: up to what its `Want` asked for while that is owed, else up to the
heads here. -/
def nextRuns (heads : Heads) (l : Live) : Checked (List OriginRange × Live) := do
  let owed ← l.asked.elim (pure []) (want l.sent)
  if owed.isEmpty then
    let runs ← want l.sent heads
    return (runs, { l with asked := none })
  else return (owed, l)

/-- One push: the next batch the peer lacks, when there is room in the window. -/
def push (workspace : WorkspaceId) (sign : Op → Option Signature) (log : OpLog) (heads : Heads)
    (l : Live) : Checked (Option Message × Live) :=
  if ¬l.ready then return (none, l)
  else do
    let (runs, l) ← l.nextRuns heads
    if runs.isEmpty ∨ WINDOW_BATCHES * MAX_OPS_PER_BATCH ≤ l.inFlightOps.toNat then return (none, l)
    else
      match merge log runs with
      | none => return (none, l)
      | some batch =>
        match ← batch with
        | .error _ => return (none, l)
        | .ok (ops, ranges) =>
          if ops.isEmpty then return (none, l)
          else
            match ops.mapM sign with
            | none => return (none, l)
            | some signatures =>
              return (some (.ops workspace ops signatures ranges), l.noteSent ranges)

end Live

/-- One end of a link: its session of the workspace and its push state. -/
structure LinkEnd where
  session : WorkspaceSession
  live : Live

/-- What happens at one end of a link. -/
inductive LinkEvent (Key : Type) where
  | hello
  | receive (msg : Message) (keys : DeviceKeys Key) (store : StoreHeads) (landed : UInt64)
  | push (sign : Op → Option Signature) (log : OpLog) (heads : Heads)
  | rewind

namespace LinkEnd

/-- An end whose session starts with what the store holds. -/
def new (heads : Heads) : LinkEnd := ⟨.new heads, .new⟩

/-- A message for the workspace is noted, then handled; what is sent back beside the end after it. -/
def receive {Key : Type} (workspace : WorkspaceId) (msg : Message) (keys : DeviceKeys Key)
    (store : StoreHeads) (landed : UInt64) (e : LinkEnd) : Checked (Option Message × LinkEnd) :=
  let live := e.live.observe msg
  match msg with
  | .greet .. => do
    let (answer, session) ← e.session.onHello msg workspace
    return (answer.toOption, ⟨session, live⟩)
  | .ops _ _ _ ranges => do
    let handled ← e.session.handleOps workspace msg ranges keys store landed
    return (handled.sent, ⟨handled.session, live⟩)
  | .want .. | .ack .. | .hello .. | .digest .. => return (none, { e with live })

def apply {Key : Type} (workspace : WorkspaceId) (e : LinkEnd) :
    LinkEvent Key → Checked (Option Message × LinkEnd)
  | .hello =>
    let (answer, session) := e.session.hello workspace
    return (answer.toOption, { e with session })
  | .receive msg keys store landed => e.receive workspace msg keys store landed
  | .push sign log heads => (·.map id fun live => { e with live }) <$> e.live.push workspace sign log heads
  | .rewind => return (none, { e with live := e.live.rewind })

end LinkEnd

/-- The ends that allowed events reach from one whose store held `initial`, with whether the
arithmetic on the way stayed in range. -/
inductive LinkRun {Key : Type} (workspace : WorkspaceId) (initial : Heads)
    (Allowed : LinkEnd → LinkEvent Key → Prop) : Checked LinkEnd → Prop
  | new : LinkRun workspace initial Allowed (pure (.new initial))
  | event {e} {event : LinkEvent Key} (run : LinkRun workspace initial Allowed e)
      (allowed : Allowed e.value event) :
      LinkRun workspace initial Allowed (e >>= fun e => Prod.snd <$> e.apply workspace event)

end Txtodo
