import Txtodo.Daemon.ActorClock
import Txtodo.Engine.MutationOps
import Txtodo.Engine.ReconcileSidecar
import Txtodo.Engine.SyncPark

/-!
# A document actor's batches

`on_preview` and `on_apply` (`actor_apply.rs`, `replace.rs`): a batch of mutations planned on a copy of the
document, reported or committed. Of the store only the log of the document's ops is kept, and the file a
commit is written to is left out: the calls here end with the new projection. `none` stands for a run that
a bound on a loop cut short.
-/

namespace Txtodo

/-- Most mutations one batch holds. -/
def MAX_MUTATIONS_PER_APPLY : Nat := 10000

/-- Everything a batch can fail with. -/
inductive ActorError where
  | mutation (e : MutationError)
  | state (e : StateError)
  | clock (e : HlcError)
  deriving DecidableEq

/-- What an actor runs with: the hash of a text, the diff of two, sidecar identity, and the bound on the
turns of a settle's loops. -/
structure ActorEnv (Hash : Type) where
  hashOf : List UInt8 → Hash
  unifiedDiff : FilePath → List UInt8 → List UInt8 → Text
  identity : Identity
  fuel : Nat

/-- The random ids of one call, in the order they are drawn. -/
structure Minted where
  task : Nat → TaskId
  op : Nat → OpId

/-- The actor of one document, with the ops its store holds and those that wait. -/
structure FileActor (Hash : Type) where
  clock : ActorClock
  state : DocState
  projection : List UInt8
  hash : Hash
  disk : List UInt8
  log : List Op
  parked : Parked

/-- What an apply produced. -/
structure Applied (Hash : Type) where
  applied : Nat
  hash : Hash
  hlc : Hlc

/-- What a preview reports. -/
structure Preview (Hash : Type) where
  applied : Nat
  hash : Hash
  diff : Text

/-- A batch's ops, the document after them and its bytes. -/
structure Planned where
  ops : List Op
  next : DocState
  bytes : List UInt8

/-- A count as the 32-bit integer it is reported as. -/
def u32 (n : Nat) : Nat := min n (2 ^ 32 - 1)

namespace Mutation

variable {Hash : Type}

def isReplace : Mutation Hash → Bool
  | .replace .. => true
  | _ => false

def isGuard : Mutation Hash → Bool
  | .requireBase _ => true
  | _ => false

end Mutation

namespace FileActor

variable {Hash : Type} [DecidableEq Hash]

/-- One op of the document, stamped. -/
def stamped (path : FilePath) (kind : OpKind) (hlc : Hlc) (id : OpId) : Op := ⟨id, hlc, path, kind⟩

/-- `kinds` applied in order, each stamped; `n` ops came before. -/
def applyStamped (hlc : Hlc) (ids : Nat → OpId) : Nat → DocState → List OpKind →
    Except StateError DocState
  | _, next, [] => .ok next
  | n, next, kind :: kinds =>
    match next.apply (stamped next.path kind hlc (ids n)) with
    | ⟨_, .error e⟩ => .error e
    | ⟨next, .ok ()⟩ => applyStamped hlc ids (n + 1) next kinds

/-- The ops of `kinds`, `n` ops before them. -/
def stampAll (path : FilePath) (hlc : Hlc) (ids : Nat → OpId) (n : Nat) (kinds : List OpKind) :
    List Op :=
  kinds.zipIdx.map fun (kind, i) => stamped path kind hlc (ids (n + i))

/-- The mutations planned in order, each on what the earlier ones left; `n` task ids were drawn before.
The count of drawn ids comes with the plan. -/
def planFrom (hlc : Hlc) (ids : Minted) : Nat → DocState → List Op → List (Mutation Hash) →
    Nat × Except ActorError Planned
  | n, next, ops, [] => (n, .ok ⟨ops, next, next.toBytes⟩)
  | n, next, ops, m :: rest =>
    let drawn := if mintsId next m then n + 1 else n
    match mutationOps next m (ids.task n) with
    | .error e => (drawn, .error (.mutation e))
    | .ok kinds =>
      match applyStamped hlc ids.op ops.length next kinds with
      | .error e => (drawn, .error (.state e))
      | .ok next' =>
        planFrom hlc ids drawn next' (ops ++ stampAll next.path hlc ids.op ops.length kinds) rest

/-- `plan_batch`: the ops of a batch against a copy of the document. -/
def planBatch (a : FileActor Hash) (batch : List (Mutation Hash)) (hlc : Hlc) (ids : Minted) :
    Nat × Except ActorError Planned := planFrom hlc ids 0 a.state [] batch

/-- `base` is still the document's hash, and the file our own last write. -/
def checkBase (env : ActorEnv Hash) (a : FileActor Hash) (base : Hash) : Except MutationError Unit :=
  if base ≠ a.hash ∨ env.hashOf a.disk ≠ a.hash then .error .staleBase else .ok ()

/-- A leading `RequireBase`, refused anywhere else. -/
def guardBatch (env : ActorEnv Hash) (a : FileActor Hash) (batch : List (Mutation Hash)) :
    Except MutationError Unit :=
  let misplaced : Except MutationError Unit := if batch.any Mutation.isGuard then
      .error (.unsupported
        "RequireBase must be the first, and only, guard of its Apply batch".toList)
    else .ok ()
  match batch with
  | .requireBase base :: rest => if rest.any Mutation.isGuard then misplaced else checkBase env a base
  | _ => misplaced

/-- The size limit and a leading guard. -/
def checkBatch (env : ActorEnv Hash) (a : FileActor Hash) (batch : List (Mutation Hash)) :
    Except MutationError Unit :=
  if MAX_MUTATIONS_PER_APPLY < batch.length then .error (.tooMany batch.length)
  else guardBatch env a batch

/-- `on_preview`: the plan under a tick of a copy of the clock. -/
def onPreview (env : ActorEnv Hash) (a : FileActor Hash) (nowMs : Nat) (ids : Minted)
    (batch : List (Mutation Hash)) : Except ActorError (Preview Hash) :=
  match checkBatch env a batch with
  | .error e => .error (.mutation e)
  | .ok () =>
    if batch.any Mutation.isReplace then
      .error (.mutation (.unsupported "a dry run of Replace".toList))
    else
      match (a.clock.hlc.tick nowMs).2 with
      | .error e => .error (.clock e)
      | .ok hlc =>
        match (planBatch a batch hlc ids).2 with
        | .error e => .error e
        | .ok planned => .ok
          { applied := u32 planned.ops.length
            hash := env.hashOf planned.bytes
            diff := env.unifiedDiff a.state.path a.projection planned.bytes }

/-- `commit`: the ops are logged, the document and its bytes become the actor's, whatever scratch replays
placed stamped as the ops. -/
def commit (env : ActorEnv Hash) (a : FileActor Hash) (ops : List Op) (next : DocState)
    (bytes : List UInt8) : FileActor Hash :=
  { a with
    state := (ops.head?.map fun op => next.settleScratchStamps op.hlc).getD next
    projection := bytes
    hash := env.hashOf bytes
    log := a.log ++ ops }

/-- What a call that committed `ops` reports. -/
def report (a : FileActor Hash) (ops : List Op) : FileActor Hash × Except ActorError (Applied Hash) :=
  (a, .ok ⟨u32 ops.length, a.hash, a.clock.hlc⟩)

/-! ## Replacing the document -/

/-- `reconcile_against`: by tag, or by the document's own line ids. -/
def reconcileAgainst (env : ActorEnv Hash) (a : FileActor Hash) (old new : File)
    (mint : Nat → TaskId) : Option Reconciled :=
  if a.state.mode = .tagged then reconcile old new a.state.path mint
  else some (reconcileSidecar env.identity ⟨old, a.state.lineIds⟩ new a.state.path mint)

/-- `stamp`: one tick for a whole batch, none for an empty one. -/
def stampKinds (a : FileActor Hash) (nowMs : Nat) (ids : Minted) (kinds : List OpKind) :
    FileActor Hash × Except HlcError (List Op) :=
  if kinds.isEmpty then (a, .ok [])
  else
    match a.clock.tick nowMs with
    | (clock, .error e) => ({ a with clock := clock }, .error e)
    | (clock, .ok hlc) => ({ a with clock := clock }, .ok (stampAll a.state.path hlc ids.op 0 kinds))

/-- The document an exact reconcile commits, as a replay of the log builds it, and its bytes. -/
def asLogged (a : FileActor Hash) (ops : List Op) : Option (DocState × List UInt8) :=
  (applyLeniently a.state ops).map fun x => (x.1, x.1.toBytes)

/-- `commit_replacement`: the contents reconciled against the projection and committed. -/
def commitReplacement (env : ActorEnv Hash) (a : FileActor Hash) (nowMs : Nat) (ids : Minted)
    (contents : List UInt8) : Option (FileActor Hash × Except ActorError (Applied Hash)) := do
  let r ← reconcileAgainst env a (parseFile a.projection) (parseFile contents) ids.task
  match ← settle env.fuel a.state r with
  | .error e => return (a, .error (.state e))
  | .ok settled =>
    match a.stampKinds nowMs ids settled.kinds with
    | (a, .error e) => return (a, .error (.clock e))
    | (a, .ok ops) =>
      let (next, target) ← if settled.exact_ then asLogged a ops
        else some (settled.next, r.file.toBytes)
      return report (a.commit env ops next target) ops

/-- `replace_batch`: a lone `Replace` run, one among other mutations refused. -/
def replaceBatch (env : ActorEnv Hash) (a : FileActor Hash) (nowMs : Nat) (ids : Minted)
    (batch : List (Mutation Hash)) :
    Option (Option (FileActor Hash × Except ActorError (Applied Hash))) :=
  match batch with
  | [.replace base contents] =>
    match checkBase env a base with
    | .error e => some (some (a, .error (.mutation e)))
    | .ok () => some (commitReplacement env a nowMs ids contents)
  | _ =>
    if batch.any Mutation.isReplace then
      some (some (a, .error (.mutation (.unsupported "Replace must be its own Apply batch".toList))))
    else none

/-- `on_apply`: the plan under the actor's own tick, committed. -/
def onApply (env : ActorEnv Hash) (a : FileActor Hash) (nowMs : Nat) (ids : Minted)
    (batch : List (Mutation Hash)) : Option (FileActor Hash × Except ActorError (Applied Hash)) :=
  match checkBatch env a batch with
  | .error e => some (a, .error (.mutation e))
  | .ok () =>
    match replaceBatch env a nowMs ids batch with
    | some replaced => replaced
    | none =>
      match a.clock.tick nowMs with
      | (clock, .error e) => some ({ a with clock := clock }, .error (.clock e))
      | (clock, .ok hlc) =>
        match (planBatch a batch hlc ids).2 with
        | .error e => some ({ a with clock := clock }, .error e)
        | .ok planned =>
          some (report ({ a with clock := clock }.commit env planned.ops planned.next planned.bytes)
            planned.ops)

end FileActor

end Txtodo
