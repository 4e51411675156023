import Txtodo.Daemon.FileActor

/-!
# A document actor's runs

`on_sync_run` (`sync_ops.rs`) commits a peer's ops, applied or not, each once; and a run of a document's
actor that starts with the empty document.
-/

namespace Txtodo

namespace FileActor

variable {Hash : Type} [DecidableEq Hash]

/-- `drop_held`: the ops whose id the log does not hold. -/
def dropHeld (log ops : List Op) : List Op := ops.filter fun op => !log.any fun held => held.id = op.id

/-- `observe_peer_stamps`: the newest stamp of a batch merged into the clock, held when refused. -/
def observePeerStamps (a : FileActor Hash) (nowMs : Nat) (ops : List Op) : FileActor Hash :=
  match (ops.map Op.hlc).max? with
  | none => a
  | some newest => { a with clock := a.clock.observe newest nowMs }

/-- `on_sync_run`. -/
def onSyncRun (env : ActorEnv Hash) (a : FileActor Hash) (nowMs : Nat) (ops : List Op) :
    Option (FileActor Hash) :=
  let ops := dropHeld a.log ops
  if ops.isEmpty then some a
  else do
    let a := a.observePeerStamps nowMs ops
    let x ← applyParking a.state ops a.parked
    return { a.commit env ops x.state x.state.toBytes with parked := x.parked }

/-- An actor of the empty document. -/
def start (env : ActorEnv Hash) (path : FilePath) (mode : IdentityMode) (device : DeviceId) :
    FileActor Hash where
  clock := ⟨Hlc.zero device, none⟩
  state := .empty path mode
  projection := []
  hash := env.hashOf []
  disk := []
  log := []
  parked := .empty

end FileActor

/-- One call on an actor, with the wall clock's reading; or the file written, by it or by another. -/
inductive ActorCall (Hash : Type) where
  | apply (nowMs : Nat) (ids : Minted) (batch : List (Mutation Hash))
  | syncOps (nowMs : Nat) (ops : List Op)
  | wrote (disk : List UInt8)

namespace FileActor

variable {Hash : Type} [DecidableEq Hash]

/-- The actor after a call. -/
def call (env : ActorEnv Hash) (a : FileActor Hash) : ActorCall Hash → Option (FileActor Hash)
  | .apply nowMs ids batch => (onApply env a nowMs ids batch).map (·.1)
  | .syncOps nowMs ops => onSyncRun env a nowMs ops
  | .wrote disk => some { a with disk := disk }

/-- A peer's ops come routed by file: they are all of the actor's document. -/
def Routed (a : FileActor Hash) : ActorCall Hash → Prop
  | .syncOps _ ops => ∀ op ∈ ops, op.file = a.state.path
  | _ => True

/-- The actors that calls which satisfy `P` lead to from the empty document. -/
inductive Run (env : ActorEnv Hash) (path : FilePath) (mode : IdentityMode) (device : DeviceId)
    (P : FileActor Hash → ActorCall Hash → Prop) : FileActor Hash → Prop
  | start : Run env path mode device P (start env path mode device)
  | call {a a' : FileActor Hash} {c : ActorCall Hash} : Run env path mode device P a → a.Routed c →
      P a c → a.call env c = some a' → Run env path mode device P a'

end FileActor

end Txtodo
