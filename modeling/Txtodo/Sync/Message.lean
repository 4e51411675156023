import Txtodo.Sync.Heads
import Txtodo.Model.Op

/-!
# Protocol messages

`message.rs`: what two devices send each other about one workspace, and the caps checked before a
message is encoded and after it is decoded. The codec around them is not modelled.
-/

namespace Txtodo

/-- One workspace on a link. -/
structure WorkspaceId where
  ulid : Ulid
  deriving DecidableEq

/-- The sync group two devices must share. -/
structure GroupId where
  id : Nat
  deriving DecidableEq

/-- One op's signature. -/
structure Signature where
  bytes : List UInt8
  deriving DecidableEq

/-- One file in a `Digest`. -/
structure FileDigest where
  path : Text
  ops : List UInt8
  bytes : List UInt8
  deriving DecidableEq

/-- Most ops one `Ops` message carries. -/
def MAX_OPS_PER_BATCH : Nat := 1000
/-- Most devices one `Hello` or `Greet` reports heads for. -/
def MAX_HEADS : Nat := 1024
/-- Most files one `Digest` carries. -/
def MAX_DIGEST_FILES : Nat := 1024

/-- One protocol message. -/
inductive Message where
  | hello (device : DeviceId) (group : GroupId) (heads : Heads) (protocol : Nat) (wallMs : UInt64)
  | want (workspace : WorkspaceId) (ranges : List OriginRange)
  | ops (workspace : WorkspaceId) (ops : List Op) (signatures : List Signature)
      (ranges : List OriginRange)
  | ack (workspace : WorkspaceId) (committed : List OriginRange)
  | greet (workspace : WorkspaceId) (heads : Heads)
  | digest (workspace : WorkspaceId) (files : List FileDigest)

/-- Why a message's caps are refused. -/
inductive MessageError where
  | tooMany (what : String) (len max : Nat)
  | backwardsRange (range : OriginRange)
  | signatureCount (ops signatures : Nat)
  deriving DecidableEq

def cap (what : String) (len max : Nat) : Except MessageError Unit :=
  if max < len then .error (.tooMany what len max) else .ok ()

def rangesOk (what : String) (ranges : List OriginRange) : Except MessageError Unit := do
  cap what ranges.length MAX_WANT_RANGES
  match ranges.find? fun r => r.last < r.first with
  | some r => .error (.backwardsRange r)
  | none => .ok ()

namespace Message

/-- Every collection under its cap and every range forwards. -/
def checkCaps : Message → Except MessageError Unit
  | hello _ _ heads _ _ => cap "heads" heads.length MAX_HEADS
  | want _ ranges => rangesOk "want ranges" ranges
  | ops _ batch signatures ranges => do
    cap "ops" batch.length MAX_OPS_PER_BATCH
    if batch.length ≠ signatures.length then
      .error (.signatureCount batch.length signatures.length)
    rangesOk "ops ranges" ranges
  | ack _ committed => rangesOk "ack ranges" committed
  | greet _ heads => cap "heads" heads.length MAX_HEADS
  | digest _ files => cap "digest files" files.length MAX_DIGEST_FILES

/-- The name a refusal gives a message. -/
def nameOf : Message → String
  | hello .. => "Hello"
  | want .. => "Want"
  | ops .. => "Ops"
  | ack .. => "Ack"
  | greet .. => "Greet"
  | digest .. => "Digest"

end Message

end Txtodo
