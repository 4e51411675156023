import Txtodo.Core.Types
import Txtodo.Std.Table

/-!
# The relay's store

`store.rs` of the relay: opaque blobs by group and device, and the wakes queued for a device. The store's tables
never use a row id again. Only a database without row ids left is an error here.
-/

namespace Txtodo.Relay

abbrev GroupId := Text

abbrev DeviceId := Text

def I64_MIN : Int := -9223372036854775808

def I64_MAX : Int := 9223372036854775807

/-- The nearest number of 64 bits with a sign. -/
def saturate (n : Int) : Int := max I64_MIN (min I64_MAX n)

/-- A stored blob as `get` returns it. -/
structure StoredBlob where
  blob : List UInt8
  storedAtMs : Int
  deriving DecidableEq

/-- A queued wake, with the row id that removes it. -/
structure QueuedWake where
  id : Nat
  payload : List UInt8
  deriving DecidableEq

inductive StoreError where
  | blobTooLarge (len max : Nat)
  | sqlite (context : String)
  deriving DecidableEq

/-- The bounds of a write. -/
structure Limits where
  maxBlobBytes : Nat
  maxBlobsPerDevice : Nat
  maxWakeupQueue : Nat

/-- One write. -/
structure Write where
  group : GroupId
  device : DeviceId
  blob : List UInt8
  nowMs : Int
  deriving DecidableEq

/-- A row of `blobs`. -/
structure BlobRow where
  groupId : GroupId
  deviceId : DeviceId
  blob : List UInt8
  storedAtMs : Int

/-- A row of `wakeups`. -/
structure WakeRow where
  deviceId : DeviceId
  payload : List UInt8
  createdAtMs : Int

/-- The two tables. -/
structure Store where
  blobs : Table BlobRow
  wakeups : Table WakeRow

def BlobRow.isFor (group : GroupId) (device : DeviceId) (row : BlobRow) : Bool :=
  row.groupId = group && row.deviceId = device

def WakeRow.isFor (device : DeviceId) (row : WakeRow) : Bool := row.deviceId = device

namespace Store

def new : Store := ⟨.empty, .empty⟩

/-- Stores a blob and queues one wake for its device; past a cap the oldest rows go. -/
def put (s : Store) (write : Write) (limits : Limits) : Except StoreError Unit × Store :=
  if limits.maxBlobBytes < write.blob.length then
    (.error (.blobTooLarge write.blob.length limits.maxBlobBytes), s)
  else
    match s.blobs.insert ⟨write.group, write.device, write.blob, write.nowMs⟩ with
    | none => (.error (.sqlite "insert blob"), s)
    | some blobs =>
      let blobs := blobs.evictOldest (BlobRow.isFor write.group write.device) limits.maxBlobsPerDevice
      match s.wakeups.insert ⟨write.device, Utf8.encode write.group, write.nowMs⟩ with
      | none => (.error (.sqlite "insert wakeup"), { s with blobs })
      | some wakeups => (.ok (), ⟨blobs, wakeups.evictOldest (WakeRow.isFor write.device) limits.maxWakeupQueue⟩)

/-- All blobs of a group and device, oldest first. -/
def get (s : Store) (group : GroupId) (device : DeviceId) : List StoredBlob :=
  (s.blobs.select (BlobRow.isFor group device)).map fun row => ⟨row.2.blob, row.2.storedAtMs⟩

/-- The wakes queued for a device, oldest first. -/
def pendingWakeups (s : Store) (device : DeviceId) : List QueuedWake :=
  (s.wakeups.select (WakeRow.isFor device)).map fun row => ⟨row.1, row.2.payload⟩

/-- Removes one delivered wake. -/
def removeWakeup (s : Store) (id : Nat) : Store := { s with wakeups := s.wakeups.delete fun row => row.1 = id }

/-- The time before which a blob is expired. -/
def cutoffMs (nowMs retentionDays : Int) : Int := saturate (nowMs - saturate (retentionDays * 86400000))

/-- Deletes the expired blobs, with how many were removed. -/
def sweepExpired (s : Store) (nowMs retentionDays : Int) : Nat × Store :=
  let expired := fun row : BlobRow => decide (row.storedAtMs < cutoffMs nowMs retentionDays)
  (s.blobs.count expired, { s with blobs := s.blobs.delete fun row => expired row.2 })

end Store

/-- One call to the store. -/
inductive Call where
  | put (write : Write)
  | get (group : GroupId) (device : DeviceId)
  | pendingWakeups (device : DeviceId)
  | removeWakeup (id : Nat)
  | sweepExpired (nowMs : Int)
  deriving DecidableEq

namespace Store

/-- The store after a call. -/
def call (limits : Limits) (retentionDays : Int) (s : Store) : Call → Store
  | .put write => (s.put write limits).2
  | .get _ _ | .pendingWakeups _ => s
  | .removeWakeup id => s.removeWakeup id
  | .sweepExpired nowMs => (s.sweepExpired nowMs retentionDays).2

/-- The store after some calls. -/
def after (limits : Limits) (retentionDays : Int) (calls : List Call) : Store :=
  calls.foldl (call limits retentionDays) new

end Store

end Txtodo.Relay
