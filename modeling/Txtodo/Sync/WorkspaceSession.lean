import Txtodo.Sync.Message

/-!
# One workspace's session with one peer

`workspace_session.rs`: `Idle → Greeted → Wanting → Importing → (Wanting | Idle)`. A call gives its
answer beside the session after it; the signature check of `sign.rs` takes the Ed25519 check of one
op as a parameter.
-/

namespace Txtodo

/-- Where one workspace's session is. -/
inductive SessionState where
  | idle
  | greeted
  | wanting
  | importing
  deriving DecidableEq

/-- Why a batch's signatures are refused. -/
inductive CryptoError where
  | encode (what : String)
  | batchLength (ops signatures : Nat)
  | unknownDevice (device : DeviceId)
  | badPublicKey (device : Option DeviceId)
  | signatureInvalid (device : DeviceId)
  deriving DecidableEq

/-- Why a message or a caller's action is not legal now. -/
inductive SessionError where
  | unexpected (state : SessionState) (what : String)
  | workspaceMismatch (called message : WorkspaceId)
  | notInBatch (range : OriginRange)
  | gap (gap : Gap)
  | crypto (error : CryptoError)
  deriving DecidableEq

/-- What a device's ops are checked with: its key, if known, and the check of one op. -/
structure DeviceKeys (Key : Type) where
  keyOf : DeviceId → Option Key
  verify : Op → Signature → Key → Except CryptoError Unit

/-- Every op's signature under its device's key, all or nothing. -/
def verifyBatch {Key : Type} (ops : List Op) (signatures : List Signature) (keys : DeviceKeys Key) :
    Except CryptoError Unit := do
  if ops.length ≠ signatures.length then
    .error (.batchLength ops.length signatures.length)
  (ops.zip signatures).forM fun (op, signature) =>
    match keys.keyOf op.hlc.device with
    | none => .error (.unknownDevice op.hlc.device)
    | some key => keys.verify op signature key

/-- One workspace's own piece of a session. -/
structure WorkspaceSession where
  state : SessionState
  heads : Heads
  /-- Runs still to receive. -/
  wanted : List OriginRange
  /-- Runs in the batch the caller is committing. -/
  inflight : List OriginRange
  /-- Whether the peer's `Greet` was consumed: a pushed batch is then taken in `idle`. -/
  greeted : Bool

namespace WorkspaceSession

/-- A fresh session seeded with what this workspace already holds. -/
def new (heads : Heads) : WorkspaceSession := ⟨.idle, heads, [], [], false⟩

def unexpected (s : WorkspaceSession) (what : String) : SessionError := .unexpected s.state what

/-- The state once no batch is in flight. -/
def settled (wanted : List OriginRange) : SessionState :=
  if wanted.isEmpty then .idle else .wanting

/-- Heads raised to `held` where it is ahead, what that covers no longer wanted. Not while
importing: the batch in flight was checked against the heads as they were. -/
def catchUp (held : Heads) (s : WorkspaceSession) : Checked WorkspaceSession :=
  if s.state = .importing then return s
  else do
    let ahead := (held.items.filter fun e => s.heads.get e.1 < e.2).map fun e =>
      OriginRange.mk e.1 1 e.2
    let heads := ahead.foldl (fun heads r => heads.insert r.device r.last) s.heads
    let wanted ← consume s.wanted ahead
    let state := if s.state = .wanting ∧ wanted.isEmpty then .idle else s.state
    return { s with heads, wanted, state }

/-- `Idle → Greeted`: the `Greet` to send. -/
def hello (workspace : WorkspaceId) (s : WorkspaceSession) :
    Except SessionError Message × WorkspaceSession :=
  match s.state with
  | .idle => (.ok (.greet workspace s.heads), { s with state := .greeted })
  | .greeted | .wanting | .importing => (.error (s.unexpected "hello()"), s)

/-- `Greeted → Wanting`, or `Idle` when nothing is wanted: the `Want` to send. -/
def onHello (msg : Message) (workspace : WorkspaceId) (s : WorkspaceSession) :
    Checked (Except SessionError Message × WorkspaceSession) :=
  match s.state with
  | .idle | .wanting | .importing => return (.error (s.unexpected "Greet"), s)
  | .greeted =>
    match msg with
    | .greet msgWs theirHeads =>
      if msgWs ≠ workspace then return (.error (.workspaceMismatch workspace msgWs), s)
      else do
        let wanted ← want s.heads theirHeads
        return (.ok (.want workspace wanted), { s with greeted := true, wanted, state := settled wanted })
    | _ => return (.error (s.unexpected msg.nameOf), s)

/-- Whether a batch is taken in this state. -/
def takesOps (s : WorkspaceSession) : Bool := s.state = .wanting || s.state = .idle && s.greeted

/-- `Wanting → Importing`, or from `Idle` for a pushed batch: the ops to commit. -/
def onOps {Key : Type} (workspace : WorkspaceId) (msg : Message) (keys : DeviceKeys Key)
    (s : WorkspaceSession) : Checked (Except SessionError (List Op) × WorkspaceSession) :=
  if ¬s.takesOps then return (.error (s.unexpected "Ops"), s)
  else match msg with
    | .ops msgWs ops signatures ranges =>
      if msgWs ≠ workspace then return (.error (.workspaceMismatch workspace msgWs), s)
      else match verifyBatch ops signatures keys with
        | .error e => return (.error (.crypto e), s)
        | .ok () => do
          match ← advanceAll s.heads ranges with
          | .error gap => return (.error (.gap gap), s)
          | .ok _ => return (.ok ops, { s with inflight := ranges, state := .importing })
    | _ => return (.error (s.unexpected msg.nameOf), s)

/-- `Importing → Wanting | Idle`: the caller reports what it committed, the `Ack` carries it. -/
def committed (workspace : WorkspaceId) (ranges : List OriginRange) (s : WorkspaceSession) :
    Checked (Except SessionError Message × WorkspaceSession) :=
  match s.state with
  | .idle | .greeted | .wanting => return (.error (s.unexpected "committed()"), s)
  | .importing =>
    match ranges.find? fun r => !covered s.inflight r with
    | some stray => return (.error (.notInBatch stray), s)
    | none => do
      match ← advanceAll s.heads ranges with
      | .error gap => return (.error (.gap gap), s)
      | .ok heads =>
        let wanted ← consume s.wanted ranges
        return (.ok (.ack workspace ranges),
          { s with heads, wanted, inflight := [], state := settled wanted })

end WorkspaceSession

end Txtodo

/-!
## Runs of a session

The calls a workspace's session takes, one after another, and what it is told it holds on the way.
-/

namespace Txtodo

/-- One call on a workspace's session. -/
inductive SessionCall (Key : Type) where
  | hello
  | onHello (msg : Message)
  | onOps (msg : Message) (keys : DeviceKeys Key)
  | committed (ranges : List OriginRange)
  | catchUp (held : Heads)

namespace SessionCall

variable {Key : Type}

/-- The session after a call, beside whether the call was refused. -/
def apply (workspace : WorkspaceId) (s : WorkspaceSession) :
    SessionCall Key → Checked (Except SessionError Unit × WorkspaceSession)
  | hello => pure ((s.hello workspace).map (·.map fun _ => ()) id)
  | onHello msg => (fun a => a.map (·.map fun _ => ()) id) <$> s.onHello msg workspace
  | onOps msg keys => (fun a => a.map (·.map fun _ => ()) id) <$> s.onOps workspace msg keys
  | committed ranges => (fun a => a.map (·.map fun _ => ()) id) <$> s.committed workspace ranges
  | catchUp held => (fun s' => (.ok (), s')) <$> s.catchUp held

/-- The runs a call reports as held: those committed, and each head caught up to from 1 on. -/
def reported (workspace : WorkspaceId) (s : WorkspaceSession) :
    SessionCall Key → List OriginRange
  | committed ranges => if (s.committed workspace ranges).value.1.isOk then ranges else []
  | catchUp held => if s.state = .importing then [] else held.items.map fun e => ⟨e.1, 1, e.2⟩
  | hello | onHello _ | onOps _ _ => []

/-- The message a call brings passes the caps of the wire. -/
def Encodable : SessionCall Key → Prop
  | onHello msg | onOps msg _ => msg.checkCaps = .ok ()
  | hello | committed _ | catchUp _ => True

/-- No run that a call commits or catches up to ends at the last number of a device still wanted. -/
def Clear (s : WorkspaceSession) : SessionCall Key → Prop
  | committed ranges =>
    s.state = .importing → (∀ r ∈ ranges, covered s.inflight r = true) →
      (advanceAll s.heads ranges).value.isOk = true →
        ∀ r ∈ ranges, r.last = UInt64.MAX → ∀ w ∈ s.wanted, w.device ≠ r.device
  | catchUp held =>
    s.state ≠ .importing → ∀ e ∈ held.items, e.2 = UInt64.MAX → ∀ w ∈ s.wanted, w.device ≠ e.1
  | hello | onHello _ | onOps _ _ => True

end SessionCall

/-- The sessions that allowed calls reach from one that starts with `initial` heads, each with the
runs reported on the way. -/
inductive SessionRun {Key : Type} (workspace : WorkspaceId) (initial : Heads)
    (Allowed : WorkspaceSession → SessionCall Key → Prop) :
    WorkspaceSession → List OriginRange → Prop
  | new : SessionRun workspace initial Allowed (.new initial) []
  | call {s reported} {call : SessionCall Key} (run : SessionRun workspace initial Allowed s reported)
      (allowed : Allowed s call) : SessionRun workspace initial Allowed
        (call.apply workspace s).value.2 (reported ++ call.reported workspace s)

/-- Wanted runs name distinct devices, each starts right after the head and is not empty. -/
structure InStep (heads : Heads) (wanted : List OriginRange) : Prop where
  nodup : (wanted.map OriginRange.device).Nodup
  follows : ∀ w ∈ wanted, w.first.toNat = (heads.get w.device).toNat + 1
  forwards : ∀ w ∈ wanted, w.first ≤ w.last

namespace WorkspaceSession

/-- What a session keeps between its calls. -/
structure Sound (s : WorkspaceSession) : Prop where
  inStep : InStep s.heads s.wanted
  idle : s.state = .idle ∨ s.state = .greeted → s.wanted = []
  wanting : s.state = .wanting → s.wanted ≠ []
  inflight : s.state ≠ .importing → s.inflight = []

end WorkspaceSession

end Txtodo
