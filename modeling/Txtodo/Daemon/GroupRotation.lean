import Txtodo.Model.Hlc
import Mathlib.Logic.Function.Basic

/-!
# Group key rotation

`device_remove.rs`, `epoch_info.rs`, `group_rotation.rs` and `control_flow.rs`: a removal rotates the group
key to the next epoch, grants bring it to the devices that were kept, and a control session between two
devices sends the grants the one behind is missing. The devices are of one group, so a frame's clear header
is its epoch; the identity store and the keystore do what they are asked, and the crypto library is given.
-/

namespace Txtodo.GroupRotation

/-- Epochs whose keys a device seals and opens frames with. -/
def MAX_RETAINED_KEY_EPOCHS : Nat := 16

/-- Most devices a record names. -/
def MAX_LEFT_OUT : Nat := 1024

/-- Most device rows one read returns. -/
def MAX_DEVICES_PER_READ : Nat := 1024

/-- The last epoch there is a number for. -/
def MAX_EPOCH : Nat := 4294967295

/-- Who minted an epoch's key and whom the rotation dropped. -/
structure EpochInfo where
  minter : DeviceId
  leftOut : List DeviceId
  deriving DecidableEq

/-- Why a row was removed. -/
inductive Why where
  | manual
  | prunedQuiet
  | prunedParked
  | leftOut
  deriving DecidableEq

/-- The record of one removal. -/
structure Removal where
  why : Why
  «by» : DeviceId
  deriving DecidableEq

/-- A control message. What an offer, its answer and the own-device list carry is left out. -/
inductive ControlMessage (Wrapped : Type) where
  | offer (sender : DeviceId)
  | offerAck (sender : DeviceId)
  | decline (sender : DeviceId)
  | ownDevices (sender : DeviceId)
  | grant (sender minter : DeviceId) (epoch : Nat) (wrapped : Wrapped) (leftOut : List DeviceId)
  | epoch (sender : DeviceId) (epoch : Nat)

namespace ControlMessage

variable {Wrapped : Type}

def senderOf : ControlMessage Wrapped → DeviceId
  | offer sender | offerAck sender | decline sender | ownDevices sender => sender
  | grant sender _ _ _ _ => sender
  | epoch sender _ => sender

end ControlMessage

/-- The crypto library: a key wrapped to a device's static key, a control message sealed under a group key.
Each draws a nonce, and each binds the epoch. -/
structure Crypto where
  Key : Type
  Public : Type
  Secret : Type
  Nonce : Type
  Wrapped : Type
  Sealed : Type
  publicOf : Secret → Public
  wrapGrantFor : Nonce → Key → Nat → Public → Wrapped
  openGrant : Wrapped → Nat → Secret → Option Key
  sealControl : Nonce → Key → Nat → ControlMessage Wrapped → Sealed
  openControl : Key → Nat → Sealed → Option (ControlMessage Wrapped)

/-- What is wrapped or sealed opens with its own key and gives what went in; what is sealed opens with no
other key. -/
structure Crypto.Lawful (C : Crypto) : Prop where
  openGrant_wrap : ∀ nonce key epoch secret,
    C.openGrant (C.wrapGrantFor nonce key epoch (C.publicOf secret)) epoch secret = some key
  openControl_seal : ∀ nonce key epoch msg, C.openControl key epoch (C.sealControl nonce key epoch msg) = some msg
  openControl_other : ∀ nonce key other epoch msg, other ≠ key →
    C.openControl other epoch (C.sealControl nonce key epoch msg) = none

variable {C : Crypto}

/-- A peer's row. -/
structure DeviceRow (C : Crypto) where
  device : DeviceId
  staticPublic : C.Public
  /-- The newest epoch the peer is known to hold. -/
  keyEpoch : Nat
  removedAtMs : Option Nat

/-- What a device keeps: the rows as they are read (oldest pairing first), the keys and records by epoch. -/
structure DeviceIdentity (C : Crypto) where
  device : DeviceId
  deviceStatic : C.Secret
  groupEpoch : Nat
  keyStore : Nat → Option C.Key
  devices : List (DeviceRow C)
  epochInfo : Nat → Option EpochInfo
  removalWhy : DeviceId → Option Removal

/-- Why a removal was refused. -/
inductive RemoveDeviceError where
  | cannotRemoveSelf (device : DeviceId)
  | cannotRemoveLastDevice
  | epochOverflow
  deriving DecidableEq

/-- What a removal did. -/
structure RemovalOutcome where
  removed : Bool
  alreadyRemoved : Bool
  rotatedToEpoch : Nat
  grantsMinted : Nat
  deriving DecidableEq

/-- One grant to send, and the epoch its frame is sealed under. -/
structure OutGrant (C : Crypto) where
  sealedUnder : Nat
  message : ControlMessage C.Wrapped

/-- What a grant did. -/
inductive Applied where
  | adopted (epoch : Nat)
  | kept
  | ignored (why : String)
  deriving DecidableEq

/-- What a grant means to a device. -/
inductive Decision where
  | adopt
  | already
  | skip (why : String)
  deriving DecidableEq

/-- The keys of the epochs up to `current` that frames are sealed and opened with. -/
def retained (keyStore : Nat → Option C.Key) (current : Nat) : Option (Nat → Option C.Key) :=
  match keyStore current with
  | none => none
  | some _ => some fun epoch =>
    if current - (MAX_RETAINED_KEY_EPOCHS - 1) ≤ epoch ∧ epoch ≤ current then keyStore epoch else none

/-- Refuses a removal before any key is made. -/
def validateRemoval (removing thisDevice : DeviceId) (devicesBefore : Nat) : Except RemoveDeviceError Unit :=
  if removing = thisDevice then .error (.cannotRemoveSelf removing)
  else if devicesBefore ≤ 1 then .error .cannotRemoveLastDevice
  else .ok ()

/-- The next epoch and how many remaining devices a grant is minted for. -/
def planNextEpoch (currentEpoch : Nat) (remaining : List (DeviceRow C)) : Except RemoveDeviceError (Nat × Nat) :=
  if currentEpoch = MAX_EPOCH then .error .epochOverflow else .ok (currentEpoch + 1, remaining.length)

def noOpOutcome (removed : Bool) : RemovalOutcome := ⟨removed, removed, 0, 0⟩

/-- What a grant for `epoch` means to a device on `current` whose record for it names `mine` as minter: of two
keys for one epoch the lower minter's wins. -/
def decideGrant (current epoch : Nat) (mine : Option DeviceId) (minter : DeviceId) : Decision :=
  if epoch < current then .skip "stale"
  else if epoch = current + 1 then .adopt
  else if current < epoch then .skip "gap"
  else
    match mine with
    | some held =>
      if held = minter then .already else if minter.ulid < held.ulid then .adopt else .skip "mine_wins"
    | none => .skip "held_without_a_record"

namespace DeviceIdentity

/-- The row of a peer, removed or not. -/
def row (i : DeviceIdentity C) (peer : DeviceId) : Option (DeviceRow C) :=
  i.devices.find? fun r => r.device = peer

/-- A peer with a row that is not removed. -/
def active (i : DeviceIdentity C) (peer : DeviceId) : Bool := (i.row peer).any fun r => r.removedAtMs.isNone

/-- The rows read at once. -/
def listDevices (i : DeviceIdentity C) : List (DeviceRow C) := i.devices.take MAX_DEVICES_PER_READ

/-- A peer's row rewritten. -/
def updateRow (i : DeviceIdentity C) (peer : DeviceId) (f : DeviceRow C → DeviceRow C) : DeviceIdentity C :=
  { i with devices := i.devices.map fun r => if r.device = peer then f r else r }

/-- Marks a row removed. -/
def removeRow (i : DeviceIdentity C) (peer : DeviceId) (atMs : Nat) : DeviceIdentity C :=
  i.updateRow peer fun r => { r with removedAtMs := some atMs }

def setDeviceKeyEpoch (i : DeviceIdentity C) (peer : DeviceId) (epoch : Nat) : DeviceIdentity C :=
  i.updateRow peer fun r => { r with keyEpoch := epoch }

def writeRemovalWhy (i : DeviceIdentity C) (peer : DeviceId) (removal : Removal) : DeviceIdentity C :=
  { i with removalWhy := Function.update i.removalWhy peer (some removal) }

/-- Files a key at an epoch with its record, and moves to it. -/
def fileKey (i : DeviceIdentity C) (epoch : Nat) (key : C.Key) (info : EpochInfo) : DeviceIdentity C :=
  { i with
    keyStore := Function.update i.keyStore epoch (some key)
    epochInfo := Function.update i.epochInfo epoch
      (some { info with leftOut := info.leftOut.take MAX_LEFT_OUT })
    groupEpoch := epoch }

/-- Removes `target` and rotates the group key to `newKey`. -/
def removeDeviceBecause (i : DeviceIdentity C) (target : DeviceId) (nowMs : Nat) (why : Why) (newKey : C.Key) :
    Except RemoveDeviceError RemovalOutcome × DeviceIdentity C :=
  let activePeers := i.listDevices.filter fun r => r.removedAtMs.isNone
  match validateRemoval target i.device (activePeers.length + 1) with
  | .error e => (.error e, i)
  | .ok () =>
    match i.row target with
    | none => (.ok (noOpOutcome false), i)
    | some r =>
      if r.removedAtMs.isSome then (.ok (noOpOutcome true), i)
      else
        match planNextEpoch i.groupEpoch (activePeers.filter fun r => r.device ≠ target) with
        | .error e => (.error e, i)
        | .ok (newEpoch, grantsMinted) =>
          (.ok ⟨true, false, newEpoch, grantsMinted⟩,
            ((i.fileKey newEpoch newKey ⟨i.device, [target]⟩).removeRow target nowMs).writeRemovalWhy target
              ⟨why, i.device⟩)

/-- The grants of `n` epochs from `epoch` on, up to the first that the peer was dropped by. -/
def grantChain (i : DeviceIdentity C) (nonce : Nat → C.Nonce) (peer : DeviceId) (recipient : C.Public) :
    Nat → Nat → List (OutGrant C)
  | 0, _ => []
  | n + 1, epoch =>
    let info := (i.epochInfo epoch).getD ⟨i.device, []⟩
    if peer ∈ info.leftOut then []
    else
      match i.keyStore epoch with
      | none => []
      | some key =>
        ⟨epoch - 1, .grant i.device info.minter epoch (C.wrapGrantFor (nonce epoch) key epoch recipient)
          info.leftOut⟩ :: grantChain i nonce peer recipient n (epoch + 1)

/-- The grants that bring `peer`, known to hold `peerEpoch`, up to this device's epoch. -/
def grantsFor (i : DeviceIdentity C) (nonce : Nat → C.Nonce) (peer : DeviceId) (peerEpoch : Nat) :
    List (OutGrant C) :=
  let oldest := i.groupEpoch - (MAX_RETAINED_KEY_EPOCHS - 1)
  if i.groupEpoch ≤ peerEpoch ∨ peerEpoch + 1 < oldest then []
  else
    match i.row peer with
    | none => []
    | some r =>
      if r.removedAtMs.isSome then []
      else i.grantChain nonce peer r.staticPublic (i.groupEpoch - peerEpoch) (peerEpoch + 1)

/-- Tombstones a device a grant left out, unless its row is removed already. -/
def dropFollowed (i : DeviceIdentity C) (dropped minter : DeviceId) (nowMs : Nat) : DeviceIdentity C :=
  if i.active dropped then (i.removeRow dropped nowMs).writeRemovalWhy dropped ⟨.leftOut, minter⟩ else i

/-- Files a granted key, drops the devices it leaves out and moves the epoch. -/
def adopt (i : DeviceIdentity C) (sender minter : DeviceId) (epoch : Nat) (key : C.Key) (leftOut : List DeviceId)
    (nowMs : Nat) : DeviceIdentity C :=
  ((leftOut.filter fun d => d ≠ i.device ∧ d ≠ sender).foldl (fun i d => i.dropFollowed d minter nowMs)
    (i.fileKey epoch key ⟨minter, leftOut⟩)).setDeviceKeyEpoch sender epoch

/-- Applies a received grant. -/
def applyGrant (i : DeviceIdentity C) (msg : ControlMessage C.Wrapped) (nowMs : Nat) :
    Applied × DeviceIdentity C :=
  match msg with
  | .grant sender minter epoch wrapped leftOut =>
    if i.active sender then
      match decideGrant i.groupEpoch epoch ((i.epochInfo epoch).map EpochInfo.minter) minter with
      | .already => (.kept, i)
      | .skip why => (.ignored why, i)
      | .adopt =>
        match C.openGrant wrapped epoch i.deviceStatic with
        | none => (.ignored "cannot_open", i)
        | some key => (.adopted epoch, i.adopt sender minter epoch key leftOut nowMs)
    else (.ignored "unknown_sender", i)
  | _ => (.ignored "not_a_grant", i)

/-- Records that `peer` holds `epoch`, never lowering what is known. -/
def notePeerEpoch (i : DeviceIdentity C) (peer : DeviceId) (epoch : Nat) : DeviceIdentity C :=
  match i.row peer with
  | none => i
  | some r => if r.removedAtMs.isNone ∧ r.keyEpoch < epoch then i.setDeviceKeyEpoch peer epoch else i

/-- The epoch this device last knew an active peer to hold. -/
def believedEpoch (i : DeviceIdentity C) (peer : DeviceId) : Option Nat :=
  ((i.row peer).filter fun r => r.removedAtMs.isNone).map DeviceRow.keyEpoch

def isRemoved (i : DeviceIdentity C) (peer : DeviceId) : Bool := (i.row peer).any fun r => r.removedAtMs.isSome

end DeviceIdentity

/-! ## Control sessions -/

/-- A sealed message and the epoch of its clear header. -/
structure ControlFrame (C : Crypto) where
  epoch : Nat
  sealedBytes : C.Sealed

/-- What a session finds around it: how many offers the device makes, whom it sends its own-device list to,
and the randomness it draws. -/
structure Surroundings (C : Crypto) where
  offers : Nat
  vouches : DeviceId → Bool
  nonce : Nat → C.Nonce

/-- One side of a session. -/
structure Control (C : Crypto) where
  identity : DeviceIdentity C
  keys : Nat → Option C.Key
  epoch : Nat
  dialed : Option DeviceId
  introduced : Bool
  around : Surroundings C
  drawn : Nat
  /-- A side that stopped reading. -/
  ended : Bool

namespace Control

def new (identity : DeviceIdentity C) (keys : Nat → Option C.Key) (dialed : Option DeviceId)
    (around : Surroundings C) : Control C where
  identity := identity
  keys := keys
  epoch := identity.groupEpoch
  dialed := dialed
  introduced := false
  around := around
  drawn := 0
  ended := false

/-- Seals a message under an epoch; without a key for it the message is skipped. -/
def send (c : Control C) (under : Nat) (msg : ControlMessage C.Wrapped) : Control C × List (ControlFrame C) :=
  match c.keys under with
  | none => (c, [])
  | some key => ({ c with drawn := c.drawn + 1 }, [⟨under, C.sealControl (c.around.nonce c.drawn) key under msg⟩])

/-- Messages sent one after the other, each under its epoch. -/
def sendAll (c : Control C) : List (Nat × ControlMessage C.Wrapped) → Control C × List (ControlFrame C)
  | [] => (c, [])
  | (under, msg) :: rest =>
    let sent := c.send under msg
    let later := sent.1.sendAll rest
    (later.1, sent.2 ++ later.2)

/-- Where this device is. -/
def announce (c : Control C) : ControlMessage C.Wrapped := .epoch c.identity.device c.epoch

/-- The epoch the dialer's first word is sealed under. -/
def firstUnder (c : Control C) (peer : DeviceId) : Nat :=
  let believed := (c.identity.believedEpoch peer).getD c.epoch
  if (c.keys believed).isSome then min c.epoch believed else c.epoch

/-- The dialer's first word. -/
def start (c : Control C) : Control C × List (ControlFrame C) :=
  match c.dialed with
  | none => (c, [])
  | some peer => c.send (c.firstUnder peer) c.announce

/-- Offers and the own-device list, under the current epoch. -/
def offersAndVouch (c : Control C) (peer : DeviceId) : List (Nat × ControlMessage C.Wrapped) :=
  List.replicate c.around.offers (c.epoch, .offer c.identity.device) ++
    if c.around.vouches peer then [(c.epoch, .ownDevices c.identity.device)] else []

/-- The answer to the first `Epoch`: the acceptor's own, the grants in between, the offers. -/
def introduction (c : Control C) (peer : DeviceId) (peerEpoch : Nat) : List (Nat × ControlMessage C.Wrapped) :=
  (if c.dialed.isNone then [(min c.epoch peerEpoch, c.announce)] else []) ++
    (c.identity.grantsFor (fun epoch => c.around.nonce (c.drawn + epoch)) peer peerEpoch).map
      (fun grant => (grant.sealedUnder, grant.message)) ++
    c.offersAndVouch peer

def onEpoch (c : Control C) (peer : DeviceId) (peerEpoch : Nat) : Control C × List (ControlFrame C) :=
  let c := { c with identity := c.identity.notePeerEpoch peer peerEpoch }
  if c.introduced then (c, [])
  else
    let c := { c with introduced := true }
    let msgs := c.introduction peer peerEpoch
    { c with drawn := c.drawn + c.epoch + 1, ended := (c.keys c.epoch).isNone }.sendAll msgs

/-- The epoch and the keys after a grant moved them. -/
def refresh (c : Control C) : Control C :=
  { c with
    epoch := c.identity.groupEpoch
    keys := (retained c.identity.keyStore c.identity.groupEpoch).getD c.keys }

def onGrant (c : Control C) (msg : ControlMessage C.Wrapped) (nowMs : Nat) :
    Control C × List (ControlFrame C) :=
  match c.identity.applyGrant msg nowMs with
  | (.adopted epoch, identity) =>
    let c := { c with identity := identity }.refresh
    c.send epoch c.announce
  | (_, identity) => ({ c with identity := identity }, [])

/-- One message; one from a removed device ends the session. -/
def onMessage (c : Control C) (msg : ControlMessage C.Wrapped) (nowMs : Nat) :
    Control C × List (ControlFrame C) :=
  if c.identity.isRemoved msg.senderOf then ({ c with ended := true }, [])
  else
    match msg with
    | .epoch sender epoch => c.onEpoch sender epoch
    | .grant .. => c.onGrant msg nowMs
    | _ => (c, [])

/-- One frame; one that does not open ends the session. -/
def onFrame (c : Control C) (frame : ControlFrame C) (nowMs : Nat) : Control C × List (ControlFrame C) :=
  match (c.keys frame.epoch).bind fun key => C.openControl key frame.epoch frame.sealedBytes with
  | none => ({ c with ended := true }, [])
  | some msg => c.onMessage msg nowMs

end Control

/-- The two sides of a session. -/
inductive Side where
  | dialer
  | acceptor
  deriving DecidableEq

/-- A side with the frames sent to it that it has not read. -/
structure Party (C : Crypto) where
  control : Control C
  inbox : List (ControlFrame C)

/-- A session: both sides and what is in flight. -/
abbrev ControlSession (C : Crypto) := Side → Party C

namespace ControlSession

/-- Both sides as the link opens; a device without its current key opens none. -/
def opened (dialer acceptor : DeviceIdentity C) (around : Side → Surroundings C) : Option (ControlSession C) :=
  (retained dialer.keyStore dialer.groupEpoch).bind fun dialerKeys =>
    (retained acceptor.keyStore acceptor.groupEpoch).map fun acceptorKeys =>
      let (control, sent) := (Control.new dialer dialerKeys (some acceptor.device) (around .dialer)).start
      fun
      | .dialer => ⟨control, []⟩
      | .acceptor => ⟨.new acceptor acceptorKeys none (around .acceptor), sent⟩

/-- A side reads the next frame sent to it. What is sent to a side that stopped reading stays in its inbox. -/
def reads (s : ControlSession C) (side : Side) (nowMs : Nat) : ControlSession C :=
  match (s side).inbox with
  | [] => s
  | frame :: rest =>
    if (s side).control.ended then s
    else
      let (control, sent) := (s side).control.onFrame frame nowMs
      fun x => if x = side then ⟨control, rest⟩ else { s x with inbox := (s x).inbox ++ sent }

/-- Reads in some order, each with its time. -/
def run (s : ControlSession C) (schedule : List (Side × Nat)) : ControlSession C :=
  schedule.foldl (fun s turn => s.reads turn.1 turn.2) s

/-- Every frame reached its side and was read, unless the side had stopped reading. -/
def Finished (s : ControlSession C) : Prop := ∀ side, (s side).control.ended = true ∨ (s side).inbox = []

end ControlSession

/-! ## Runs of a group -/

/-- A rotation that took place. -/
structure Minted where
  epoch : Nat
  minter : DeviceId
  target : DeviceId
  deriving DecidableEq

/-- All devices, the grants made so far with whom they are for, and the rotations so far. -/
structure World (C : Crypto) where
  identities : DeviceId → DeviceIdentity C
  grants : List (DeviceId × ControlMessage C.Wrapped)
  minted : List Minted

/-- What can happen in a group: a removal, grants made for a peer at some epoch, a grant that reaches the
device it is for, and what a peer says of its epoch. -/
inductive Action (C : Crypto) where
  | remove (device target : DeviceId) (nowMs : Nat) (why : Why) (newKey : C.Key)
  | grant (sender peer : DeviceId) (peerEpoch : Nat) (nonce : Nat → C.Nonce)
  | deliver (index : Nat) (nowMs : Nat)
  | note (device peer : DeviceId) (epoch : Nat)

namespace World

/-- A device's identity replaced. -/
def put (w : World C) (device : DeviceId) (identity : DeviceIdentity C) : World C :=
  { w with identities := Function.update w.identities device identity }

def step (w : World C) : Action C → World C
  | .remove device target nowMs why newKey =>
    match (w.identities device).removeDeviceBecause target nowMs why newKey with
    | (.ok ⟨true, false, epoch, _⟩, identity) =>
      { w.put device identity with minted := w.minted ++ [⟨epoch, device, target⟩] }
    | _ => w
  | .grant sender peer peerEpoch nonce =>
    { w with
      grants := w.grants ++
        ((w.identities sender).grantsFor nonce peer peerEpoch).map fun g => (peer, g.message) }
  | .deliver index nowMs =>
    match w.grants[index]? with
    | none => w
    | some (device, msg) => w.put device ((w.identities device).applyGrant msg nowMs).2
  | .note device peer epoch => w.put device ((w.identities device).notePeerEpoch peer epoch)

/-- The world after some actions. -/
def after (w : World C) (actions : List (Action C)) : World C := actions.foldl step w

/-- A group as paired: one key at epoch 0, rows with the peers' own static keys, nothing removed. -/
structure Paired (w : World C) (key : C.Key) : Prop where
  device : ∀ d, (w.identities d).device = d
  epoch : ∀ d, (w.identities d).groupEpoch = 0
  key : ∀ d, (w.identities d).keyStore 0 = some key
  rows : ∀ d, ∀ r ∈ (w.identities d).devices, r.device ≠ d ∧ r.removedAtMs = none ∧
    r.staticPublic = C.publicOf (w.identities r.device).deviceStatic
  nothing : (∀ d e, (w.identities d).epochInfo e = none) ∧ w.grants = [] ∧ w.minted = []

end World

end Txtodo.GroupRotation
