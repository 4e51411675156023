import Txtodo.Engine.State

/-!
# A document's file and its store

`commit_inner` (`actor.rs`), `write_defer.rs`, `write_or_hold` (`pending_save.rs`), `recover`
(`external.rs`) and the own-write ring (`expected.rs`): the store commits first, the file is written after
it or owed, and a start compares the file with what the store says of it. Nobody else writes the file, so
what a reconcile would make of it is not followed, and neither is the base kept for an editor's save.
-/

namespace Txtodo

/-- How many recent writes are remembered. -/
def RECENT_WRITES : Nat := 8

/-- How long a remembered write stays valid. -/
def EXPECTED_WRITE_TTL_MS : Nat := 2000

/-- The hashes written recently, each with when. -/
abbrev ExpectedWrites (Hash : Type) := List (Hash × Nat)

namespace ExpectedWrites
variable {Hash : Type} [DecidableEq Hash]

def prune (recent : ExpectedWrites Hash) (now : Nat) : ExpectedWrites Hash :=
  recent.filter fun e => now - e.2 ≤ EXPECTED_WRITE_TTL_MS

/-- Remembers a write about to happen. -/
def arm (recent : ExpectedWrites Hash) (hash : Hash) (now : Nat) : ExpectedWrites Hash :=
  let recent := recent.prune now
  (if recent.length = RECENT_WRITES then recent.tail else recent) ++ [(hash, now)]

/-- Whether `hash` was written recently; its entry is consumed. -/
def isOurs (recent : ExpectedWrites Hash) (hash : Hash) (now : Nat) : Bool × ExpectedWrites Hash :=
  let recent := recent.prune now
  match recent.findIdx? fun e => e.1 = hash with
  | none => (false, recent)
  | some i => (true, recent.eraseIdx i)

end ExpectedWrites

/-- What is on disk while a write is owed: the bytes, their hash and the state they render. -/
structure Deferred (Hash : Type) where
  hash : Hash
  bytes : List UInt8
  state : DocState

/-- A save the actor stopped writing over: what it last wrote there and that text's task ids. -/
structure HeldSave where
  base : List UInt8
  baseIds : List (Option TaskId)

/-- The actor of one document, as far as its file is concerned. -/
structure FileWriter (Hash : Type) where
  state : DocState
  projection : List UInt8
  hash : Hash
  deferred : Option (Deferred Hash)
  pendingSave : Option HeldSave
  absorbing : Option Hash
  expected : ExpectedWrites Hash

/-- What the store keeps of the document: the projection with its hash, the hash the last commit found on
disk and the base of a held save. -/
structure StoredDoc (Hash : Type) where
  projection : Option (List UInt8 × Hash)
  prevHash : Option Hash
  held : Option HeldSave

/-- How it goes with a file that is replaced: it fails before the rename, at it, or on removing the
temporary file. -/
inductive ReplaceIo where
  | done
  | fails
  | renameFails
  | removeFails
  deriving DecidableEq

/-- How it goes with one write: the file, and the store's note of a held save. -/
structure FileIo where
  replace : ReplaceIo
  metaFails : Bool

/-- The actor, its file and the store while a write goes on. -/
structure FileSide (Hash : Type) where
  actor : FileWriter Hash
  disk : List UInt8
  store : StoredDoc Hash

namespace FileSide
variable {Hash : Type} [DecidableEq Hash]

/-- Writes the projection unless the file holds neither `ours`, a recent write, nor the bytes merged. -/
def writeProjectionIfOurs (hashOf : List UInt8 → Hash) (x : FileSide Hash) (ours : Hash) (now : Nat)
    (io : FileIo) : Except Unit Bool × FileSide Hash :=
  let x := { x with actor.expected := x.actor.expected.arm x.actor.hash now }
  if io.replace = .fails then (.error (), x)
  else
    let found := hashOf x.disk
    let recent := if found = ours ∨ some found = x.actor.absorbing then (true, x.actor.expected)
      else x.actor.expected.isOurs found now
    let x := { x with actor.expected := recent.2 }
    if recent.1 then
      if io.replace = .renameFails then (.error (), x) else (.ok true, { x with disk := x.actor.projection })
    else if io.replace = .removeFails then (.error (), x) else (.ok false, x)

/-- Nothing is held any more. -/
def settleHeld (x : FileSide Hash) (io : FileIo) : Except Unit Unit × FileSide Hash :=
  if x.actor.pendingSave.isNone then (.ok (), x)
  else
    let x := { x with actor.pendingSave := none }
    if io.metaFails then (.error (), x) else (.ok (), { x with store.held := none })

/-- Holds writes for `save`. -/
def hold (x : FileSide Hash) (save : HeldSave) (io : FileIo) : Except Unit Unit × FileSide Hash :=
  if io.metaFails then (.error (), x)
  else (.ok (), { x with actor.pendingSave := some save, store.held := some save })

/-- Replaces the file with the projection if it still holds `ours`, else holds the save it holds. -/
def writeOrHold (hashOf : List UInt8 → Hash) (x : FileSide Hash) (ours : Hash) (beforeBytes : List UInt8)
    (before : DocState) (now : Nat) (io : FileIo) : Except Unit Unit × FileSide Hash :=
  let wrote := if x.actor.pendingSave.isNone ∨ x.actor.absorbing.isSome then
      x.writeProjectionIfOurs hashOf ours now io
    else (.ok false, x)
  match wrote with
  | (.error (), x) => (.error (), x)
  | (.ok true, x) => x.settleHeld io
  | (.ok false, x) =>
    if x.actor.pendingSave.isNone then x.hold ⟨beforeBytes, before.lineIds⟩ io else (.ok (), x)

/-- The write of a commit, from what is really on disk. -/
def writeAfter (hashOf : List UInt8 → Hash) (x : FileSide Hash) (beforeHash : Hash)
    (beforeBytes : List UInt8) (before : DocState) (now : Nat) (io : FileIo) :
    Except Unit Unit × FileSide Hash :=
  match x.actor.deferred with
  | some d =>
    { x with actor.deferred := none }.writeOrHold hashOf d.hash d.bytes d.state now io
  | none => x.writeOrHold hashOf beforeHash beforeBytes before now io

/-- Writes an owed projection; on a failed write it stays owed. -/
def flushWrite (hashOf : List UInt8 → Hash) (x : FileSide Hash) (now : Nat) (io : FileIo) :
    Except Unit Unit × FileSide Hash :=
  match x.actor.deferred with
  | none => (.ok (), x)
  | some d =>
    match { x with actor.deferred := none }.writeOrHold hashOf d.hash d.bytes d.state now io with
    | (.ok (), x) => (.ok (), x)
    | (.error (), x) => (.error (), { x with actor.deferred := some d })

end FileSide

namespace FileWriter
variable {Hash : Type} [DecidableEq Hash]

/-- The hash of the bytes on disk as far as this actor wrote them. -/
def diskHash (a : FileWriter Hash) : Hash := (a.deferred.map Deferred.hash).getD a.hash

def canDeferWrite (a : FileWriter Hash) : Bool := a.pendingSave.isNone && a.absorbing.isNone

/-- Owes the write a commit would have made; what is on disk is kept from the first of them. -/
def deferWrite (a : FileWriter Hash) (beforeHash : Hash) (beforeBytes : List UInt8) (before : DocState) :
    FileWriter Hash :=
  if a.deferred.isNone then { a with deferred := some ⟨beforeHash, beforeBytes, before⟩ } else a

end FileWriter

/-- What a commit leaves the file: the state and bytes after it, whether they are to be written, and whether
the write may wait. -/
structure FilePlan where
  next : DocState
  bytes : List UInt8
  write : Bool
  deferWrite : Bool

/-- A commit that is in the store and not yet at the file. -/
structure Landing (Hash : Type) where
  write : Bool
  deferWrite : Bool
  beforeHash : Hash
  beforeBytes : List UInt8
  before : DocState

/-- A document's file and store, and its actor while it runs. -/
structure FileWorld (Hash : Type) where
  disk : List UInt8
  store : StoredDoc Hash
  actor : Option (FileWriter Hash)
  landing : Option (Landing Hash)

/-- What happens next: a commit lands in the store, its file part runs, an owed write is flushed, the
process dies, the actor is opened; `restored` is what the stored ids make of the stored projection. -/
inductive FileEvent where
  | persist (plan : FilePlan) (storeFails : Bool)
  | land (now : Nat) (io : FileIo)
  | flush (now : Nat) (io : FileIo)
  | crash
  | reopen (now : Nat) (restored : Option DocState) (io : FileIo)

/-- How an opening ends: the actor with its file and store, an error, or a reconcile of the file's bytes as
another's edit. -/
inductive Recovered (Hash : Type) where
  | opened (x : FileSide Hash)
  | failed (x : FileSide Hash)
  | external

namespace FileWorld
variable {Hash : Type} [DecidableEq Hash]

/-- The file against an actor that was just made: the same, or another's edit. -/
def onExternalChange (hashOf : List UInt8 → Hash) (x : FileSide Hash) : Recovered Hash :=
  if hashOf x.disk = x.actor.hash then .opened x else .external

/-- At open: the file holds the projection, or what the last commit found (its write is finished), or
something else. -/
def recover (hashOf : List UInt8 → Hash) (empty : DocState) (w : FileWorld Hash) (now : Nat)
    (restored : Option DocState) (io : FileIo) : Recovered Hash :=
  let fresh : FileSide Hash := ⟨⟨empty, [], hashOf [], none, none, none, []⟩, w.disk, w.store⟩
  match w.store.projection, restored with
  | some (bytes, hash), some state =>
    let x := { fresh with
      actor := ⟨state, bytes, hash, none, w.store.held, none, []⟩ }
    let forget (x : FileSide Hash) : Recovered Hash := match x.settleHeld io with
      | (.ok (), x) => .opened x
      | (.error (), x) => .failed x
    if hash = hashOf w.disk then forget x
    else if w.store.prevHash = some (hashOf w.disk) then
      let x := { x with actor.expected := x.actor.expected.arm hash now }
      if io.replace = .done then forget { x with disk := bytes } else .failed x
    else .external
  | _, _ => onExternalChange hashOf fresh

/-- The side of a running actor. -/
def side (w : FileWorld Hash) (a : FileWriter Hash) : FileSide Hash := ⟨a, w.disk, w.store⟩

/-- The world after a write, the actor running. -/
def running (x : FileSide Hash) : FileWorld Hash := ⟨x.disk, x.store, some x.actor, none⟩

/-- Lands the plan and its projection in the store. -/
def persist (hashOf : List UInt8 → Hash) (w : FileWorld Hash) (a : FileWriter Hash) (plan : FilePlan) :
    FileWorld Hash where
  disk := w.disk
  store := { w.store with
    projection := some (plan.bytes, hashOf plan.bytes)
    prevHash := some a.diskHash }
  actor := some { a with state := plan.next, projection := plan.bytes, hash := hashOf plan.bytes }
  landing := some ⟨plan.write, plan.deferWrite, a.hash, a.projection, a.state⟩

/-- The file's part of a commit. -/
def land (hashOf : List UInt8 → Hash) (w : FileWorld Hash) (a : FileWriter Hash) (l : Landing Hash)
    (now : Nat) (io : FileIo) : FileSide Hash :=
  let x := w.side a
  match l.write, l.deferWrite && a.canDeferWrite with
  | true, true => { x with actor := a.deferWrite l.beforeHash l.beforeBytes l.before }
  | true, false => (x.writeAfter hashOf l.beforeHash l.beforeBytes l.before now io).2
  | false, true => x
  | false, false => (x.flushWrite hashOf now io).2

def apply (hashOf : List UInt8 → Hash) (empty : DocState) (w : FileWorld Hash) : FileEvent → FileWorld Hash
  | .persist plan storeFails =>
    match w.actor, w.landing with
    | some a, none => if storeFails then w else w.persist hashOf a plan
    | _, _ => w
  | .land now io =>
    match w.actor, w.landing with
    | some a, some l => running (w.land hashOf a l now io)
    | _, _ => w
  | .flush now io =>
    match w.actor, w.landing with
    | some a, none => running ((w.side a).flushWrite hashOf now io).2
    | _, _ => w
  | .crash => { w with actor := none, landing := none }
  | .reopen now restored io =>
    match w.actor with
    | some _ => w
    | none =>
      match w.recover hashOf empty now restored io with
      | .opened x => running x
      | .failed x => { w with disk := x.disk, store := x.store }
      | .external => w

/-- A commit writes the file unless its text is what the actor has. -/
def Possible (w : FileWorld Hash) : FileEvent → Prop
  | .persist plan _ => ∀ a, w.actor = some a → plan.write = true ∨ plan.bytes = a.projection
  | _ => True

/-- An actor that runs with its file holding its projection and nothing owed or held. -/
structure Clean (hashOf : List UInt8 → Hash) (w : FileWorld Hash) (a : FileWriter Hash) : Prop where
  actor : w.actor = some a
  landing : w.landing = none
  hash : a.hash = hashOf a.projection
  disk : hashOf w.disk = a.hash
  deferred : a.deferred = none
  pending : a.pendingSave = none
  absorbing : a.absorbing = none
  held : w.store.held = none
  stored : w.store.projection = some (a.projection, a.hash) ∨
    w.store.projection = none ∧ a.projection = []

end FileWorld

/-- The worlds that events which are `Allowed` lead to from a clean one. -/
inductive FileRun {Hash : Type} [DecidableEq Hash] (hashOf : List UInt8 → Hash) (empty : DocState)
    (Allowed : FileWorld Hash → FileEvent → Prop) : FileWorld Hash → Prop where
  | start {w : FileWorld Hash} {a : FileWriter Hash} (h : w.Clean hashOf a) :
      FileRun hashOf empty Allowed w
  | step {w : FileWorld Hash} {e : FileEvent} (h : FileRun hashOf empty Allowed w) (he : w.Possible e)
      (hallowed : Allowed w e) : FileRun hashOf empty Allowed (w.apply hashOf empty e)

end Txtodo
