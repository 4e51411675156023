import Txtodo.Sync.WorkspaceSession

/-!
# Landing a peer's batch

`lan_session_ops.rs`, `sync_commit_gate.rs` and the cut of `lan_apply.rs`: a batch the session takes
is checked against the store's heads, committed as far as it goes and acked for exactly that. What
the store holds and how many ops land are given.
-/

namespace Txtodo

/-- What the store answers about what it holds: `none` where a head could not be read. -/
structure StoreHeads where
  heads : Heads
  headOf : DeviceId → Option UInt64

/-- Whether every run starts at or before the store's next number for its device. -/
def followsStoreHeads (store : StoreHeads) (ranges : List OriginRange) : Bool :=
  ranges.all fun r =>
    match store.headOf r.device with
    | some head => r.first ≤ if head = UInt64.MAX then head else head + 1
    | none => false

/-- The runs that cover the first `left` ops of a batch whose ops follow `ranges` in order. -/
def landedRanges : List OriginRange → UInt64 → Checked (List OriginRange)
  | [], _ => return []
  | r :: ranges, left =>
    if left = 0 then return []
    else do
      let span ← Checked.sub r.last r.first
      let width ← Checked.add span 1
      let take := min width left
      let past ← Checked.add r.first take
      let last ← Checked.sub past 1
      let left ← Checked.sub left take
      let rest ← landedRanges ranges left
      return { r with last } :: rest

namespace WorkspaceSession

/-- For a batch held at least in part: each such device's whole run up to our head. -/
def holdingAck (workspace : WorkspaceId) (ranges : List OriginRange) (s : WorkspaceSession) :
    Option Message :=
  let held := ranges.foldl (fun held r =>
    let head := s.heads.get r.device
    if r.first ≤ head ∧ ¬held.any (·.device = r.device) then held ++ [⟨r.device, 1, head⟩] else held) []
  if held.isEmpty then none else some (.ack workspace held)

/-- What handling a message leaves: the session, what is sent, and whether the connection stays. -/
structure Handled where
  session : WorkspaceSession
  sent : Option Message
  stays : Bool

/-- Commits what it can of the batch and acks exactly that; `landed` ops land when it may commit. -/
def commitAndAck (workspace : WorkspaceId) (ranges : List OriginRange) (store : StoreHeads)
    (landed : UInt64) (s : WorkspaceSession) : Checked (Option Message × WorkspaceSession) :=
  if ¬followsStoreHeads store ranges then return (none, s)
  else do
    let committedRanges ← landedRanges ranges landed
    let (answer, s) ← s.committed workspace committedRanges
    return (answer.toOption, s)

/-- `Ops` for a workspace: commits what follows our heads and acks it, skips what does not. -/
def handleOps {Key : Type} (workspace : WorkspaceId) (msg : Message) (ranges : List OriginRange)
    (keys : DeviceKeys Key) (store : StoreHeads) (landed : UInt64) (s : WorkspaceSession) :
    Checked Handled := do
  let s ← s.catchUp store.heads
  let (answer, s) ← s.onOps workspace msg keys
  match answer with
  | .error (.gap _) => return ⟨s, s.holdingAck workspace ranges, true⟩
  | .error _ => return ⟨s, none, false⟩
  | .ok _ =>
    let (sent, s) ← s.commitAndAck workspace ranges store landed
    return ⟨s, sent, true⟩

end WorkspaceSession

end Txtodo
