import Txtodo.Daemon.FileActor
import Txtodo.Daemon.History
import Txtodo.Daemon.RefDir

/-!
# Making and renaming reference directories

The document actor's ref-directory calls (`refdir_ops.rs`): the tag is committed first, the directory
made or renamed second, and the tag taken back when that fails.
-/

namespace Txtodo

/-- Everything a call fails with. -/
inductive RefOpError where
  | actor (e : ActorError)
  | refDir (e : RefDirError)
  deriving DecidableEq

/-- What a call runs with: the actor's environment, the folder of the file's ref directories, and the wall
time and random ids of each commit. -/
structure RefEnv (Hash : Type) where
  actor : ActorEnv Hash
  ownDir : FolderPath
  nowMs : Nat → Nat
  ids : Nat → Minted

/-- The actor and the disk during a call; `commits` edits were stamped so far. -/
structure RefRun (Hash : Type) where
  actor : FileActor Hash
  disk : Disk
  commits : Nat

namespace RefRun

variable {Hash : Type} [DecidableEq Hash]

/-- `commit_description_edit`: the change to one task's line committed under its own tick, nothing when
there is no change. -/
def commitDescriptionEdit (env : RefEnv Hash) (r : RefRun Hash) (id : TaskId) (newLine : OwnedLine) :
    RefRun Hash × Except RefOpError Unit :=
  match r.actor.state.lineOf id with
  | none => (r, .error (.actor (.state (.unknownTask id))))
  | some old =>
    let kinds := changeOps old newLine id
    if kinds.isEmpty then (r, .ok ())
    else
      match r.actor.stampKinds (env.nowMs r.commits) (env.ids r.commits) kinds with
      | (a, .error e) =>
        ({ r with actor := a, commits := r.commits + 1 }, .error (.actor (.clock e)))
      | (a, .ok ops) =>
        match replayPage a.state ops with
        | .error e => ({ r with actor := a, commits := r.commits + 1 }, .error (.actor (.state e)))
        | .ok next =>
          ({ r with actor := a.commit env.actor ops next next.toBytes, commits := r.commits + 1 },
            .ok ())

/-- `rollback_ref_tag`: the line without its first `ref:` tag. -/
def rollbackRefTag (env : RefEnv Hash) (r : RefRun Hash) (id : TaskId) :
    RefRun Hash × Except RefOpError Unit :=
  match r.actor.state.lineOf id with
  | none => (r, .error (.actor (.state (.unknownTask id))))
  | some line => r.commitDescriptionEdit env id (apply line (refTagEdit none))

/-- `rollback_rename_tag`: the line with its `ref:` tag set to the old slug. -/
def rollbackRenameTag (env : RefEnv Hash) (r : RefRun Hash) (id : TaskId) (oldSlug : Text) :
    RefRun Hash × Except RefOpError Unit :=
  match r.actor.state.lineOf id with
  | none => (r, .error (.actor (.state (.unknownTask id))))
  | some line => r.commitDescriptionEdit env id (apply line (refTagEdit (some oldSlug)))

/-- The answer of a call whose directory step failed with `e`: the rollback's own failure, else `e`. -/
def rolledBack (out : RefRun Hash × Except RefOpError Unit) (e : RefDirError) :
    RefRun Hash × Except RefOpError RefDirInfo :=
  match out with
  | (r, .error e') => (r, .error e')
  | (r, .ok ()) => (r, .error (.refDir e))

/-- One name tried for a new directory. -/
def claimTurn (env : RefEnv Hash) (id : TaskId) (line : OwnedLine) (r : RefRun Hash)
    (candidate : Text) : RefRun Hash × Option (Except RefOpError RefDirInfo) :=
  if slugTakenInDoc r.actor.state candidate id then (r, none)
  else
    match r.commitDescriptionEdit env id (apply line (refTagEdit (some candidate))) with
    | (r, .error e) => (r, some (.error e))
    | (r, .ok ()) =>
      match tryCreateDir r.disk candidate env.ownDir with
      | (disk, .ok .created) =>
        ({ r with disk := disk }, some (.ok ⟨candidate, candidate :: env.ownDir⟩))
      | (disk, .ok .taken) =>
        match ({ r with disk := disk } : RefRun Hash).rollbackRefTag env id with
        | (r, .error e) => (r, some (.error e))
        | (r, .ok ()) => (r, none)
      | (disk, .error source) =>
        let (r, result) := rolledBack (({ r with disk := disk } : RefRun Hash).rollbackRefTag env id)
          (.io "create directory".toList (candidate :: env.ownDir) source)
        (r, some result)

/-- `claim_new_ref_dir`: the collision loop of a call whose slug is known. -/
def claimNewRefDir (env : RefEnv Hash) (r : RefRun Hash) (id : TaskId) (line : OwnedLine)
    (base : Text) : RefRun Hash × Except RefOpError RefDirInfo :=
  match attempts (claimTurn env id line) r (candidates base) with
  | (r, some result) => (r, result)
  | (r, none) => (r, .error (.refDir .collisionsExhausted))

/-- The slug a line's new directory starts from. -/
def slugBase (line : OwnedLine) (id : TaskId) : Text :=
  match line.task with
  | some t => generateSlug t.plainWords id
  | none => fallbackSlug id

/-- `ensure_ref_dir`: the directory of a valid `ref:` tag made if missing, else a slug minted and its
directory claimed. -/
def ensureRefDir (env : RefEnv Hash) (r : RefRun Hash) (task : TaskRef) :
    RefRun Hash × Except RefOpError RefDirInfo :=
  match resolve r.actor.state task with
  | .error e => (r, .error (.actor (.mutation e)))
  | .ok (_, id) =>
    match r.actor.state.lineOf id with
    | none => (r, .error (.actor (.state (.unknownTask id))))
    | some line =>
      match line.task.bind Task.refSlug with
      | some slug =>
        match r.disk.createDirAll (slug :: env.ownDir) with
        | (disk, .error source) =>
          ({ r with disk := disk },
            .error (.refDir (.io "create directory".toList (slug :: env.ownDir) source)))
        | (disk, .ok ()) => ({ r with disk := disk }, .ok ⟨slug, slug :: env.ownDir⟩)
      | none => r.claimNewRefDir env id line (slugBase line id)

/-- `finish_rename`: the directory moved after the tag, which is set back when that fails. -/
def finishRename (env : RefEnv Hash) (r : RefRun Hash) (id : TaskId) (oldSlug : Option Text)
    (newSlug : Text) : RefRun Hash × Except RefOpError RefDirInfo :=
  match oldSlug with
  | none => (r, .ok ⟨newSlug, newSlug :: env.ownDir⟩)
  | some oldSlug =>
    if !r.disk.has (oldSlug :: env.ownDir) then (r, .ok ⟨newSlug, newSlug :: env.ownDir⟩)
    else
      match r.disk.rename (oldSlug :: env.ownDir) newSlug env.ownDir with
      | (disk, .ok ()) => ({ r with disk := disk }, .ok ⟨newSlug, newSlug :: env.ownDir⟩)
      | (disk, .error source) =>
        rolledBack (({ r with disk := disk } : RefRun Hash).rollbackRenameTag env id oldSlug)
          (.io "rename directory".toList (oldSlug :: env.ownDir) source)

/-- `rename_ref_dir`: the tag rewritten to a slug no other task has, then the directory renamed. -/
def renameRefDir (env : RefEnv Hash) (r : RefRun Hash) (task : TaskRef) (newSlug : Text) :
    RefRun Hash × Except RefOpError RefDirInfo :=
  if !isValidSlug newSlug then (r, .error (.refDir (.invalidSlug newSlug)))
  else
    match resolve r.actor.state task with
    | .error e => (r, .error (.actor (.mutation e)))
    | .ok (_, id) =>
      match r.actor.state.lineOf id with
      | none => (r, .error (.actor (.state (.unknownTask id))))
      | some line =>
        let oldSlug := line.task.bind Task.refSlug
        if oldSlug = some newSlug then (r, .ok ⟨newSlug, newSlug :: env.ownDir⟩)
        else if slugTakenInDoc r.actor.state newSlug id then
          (r, .error (.refDir (.slugTaken newSlug)))
        else
          match r.commitDescriptionEdit env id (apply line (refTagEdit (some newSlug))) with
          | (r, .error e) => (r, .error e)
          | (r, .ok ()) => r.finishRename env id oldSlug newSlug

end RefRun

end Txtodo
