import Txtodo.Sync.Pairing
import Mathlib.Logic.Function.Basic

/-!
# A daemon's pairings

`pairing_state.rs` with `pairing_group_key.rs`, `pairing_adopt.rs`, `pairing_register.rs` and the hello handling of
`pairing_lan.rs`: at most one attempt is open, a grant is kept for retries, and a joiner files the key it opens. The
keystore and the identity store do what they are asked.
-/

namespace Txtodo.Pairing

/-- The epoch of a group's first key. -/
def INITIAL_GROUP_EPOCH : Nat := 0

/-- Which side of its attempt a daemon is. -/
inductive Role where
  | initiator
  | joiner
  deriving DecidableEq

/-- The attempt that is open. -/
structure Active (C : Crypto) where
  session : PairingSession C
  role : Role
  openedAtMs : Nat
  /-- The joiner's own key, to hand to the initiator. -/
  ownPublic : Option Key32
  /-- What each human says of the other's device. -/
  ownAnswer : Bool
  peerOwnAnswer : Bool

/-- The last grant sealed, for a hello that is sent again. -/
structure FinalizedGrant where
  device : DeviceId16
  nonce : Nonce
  sealed : List UInt8
  /-- Both humans called each other's device their own. -/
  bothOwn : Bool

/-- A daemon's nonces, its open attempt and its last grant. -/
structure PairingRegistry (C : Crypto) where
  nonces : NonceRegistry
  active : Option (Active C)
  finalized : Option FinalizedGrant

/-- Why a step was refused. -/
inductive PairingStateError where
  | tooManyOpen
  | windowExpired
  | notActive
  | wrongRole
  | session (e : PairingError)
  | corruptGroupKey (len : Nat)
  | missingGroupKey (epoch : Nat)
  deriving DecidableEq

/-- What a hello is checked against. -/
structure ActiveSnapshot where
  role : Role
  group : GroupId16
  nonce : Nonce
  isHandshaken : Bool
  peerDevice : Option DeviceId16
  deriving DecidableEq

/-- What a joiner reads in a grant. -/
structure JoinerGrant where
  groupKey : Key32
  epoch : Nat
  peer : DeviceId16
  peerStatic : Key32
  /-- Both humans called each other's device their own. -/
  own : Bool
  deriving DecidableEq

/-- The group keys by epoch, as bytes. -/
abbrev KeyStore := Nat → Option (List UInt8)

/-- The key of `epoch`; only the first ever is made here, from the bytes drawn. -/
def fetchOrMintGroupKey (keyStore : KeyStore) (epoch : Nat) (drawn : Key32) :
    Except PairingStateError Key32 × KeyStore :=
  match keyStore epoch with
  | some bytes =>
    if h : bytes.length = 32 then (.ok ⟨bytes, h⟩, keyStore) else (.error (.corruptGroupKey bytes.length), keyStore)
  | none =>
    if epoch ≠ INITIAL_GROUP_EPOCH then (.error (.missingGroupKey epoch), keyStore)
    else (.ok drawn, Function.update keyStore epoch (some drawn.1))

variable {C : Crypto} {α : Type}

/-- The attempt's window is past. -/
def Active.expired (a : Active C) (nowMs : Nat) : Bool := decide (PAIRING_WINDOW_MS < nowMs - a.openedAtMs)

namespace PairingRegistry

def new : PairingRegistry C := ⟨.new, none, none⟩

/-- A step on the open attempt; one whose window is past is let go. -/
def withActive (r : PairingRegistry C) (nowMs : Nat)
    (step : Active C → Except PairingStateError α × PairingRegistry C) :
    Except PairingStateError α × PairingRegistry C :=
  match r.active with
  | none => (.error .notActive, r)
  | some a => if a.expired nowMs then (.error .windowExpired, { r with active := none }) else step a

/-- Refuses a new attempt while one is open; one whose window is past is let go. -/
def ensureCapacity (r : PairingRegistry C) (nowMs : Nat) : Except PairingStateError Unit × PairingRegistry C :=
  match r.active with
  | none => (.ok (), r)
  | some a => if a.expired nowMs then (.ok (), { r with active := none }) else (.error .tooManyOpen, r)

/-- Starts an attempt as the initiator. -/
def beginOffer (r : PairingRegistry C) (ownDevice : DeviceId16) (group : GroupId16) (endpoint : Text) (nowMs : Nat)
    (ownSecret : C.Secret) (nonce : Nonce) : Except PairingStateError PairingOffer × PairingRegistry C :=
  match r.ensureCapacity nowMs with
  | (.error e, r) => (.error e, r)
  | (.ok (), r) =>
    match PairingSession.offer ownDevice group endpoint nowMs r.nonces ownSecret nonce with
    | (.error e, nonces) => (.error (.session e), { r with nonces := nonces })
    | (.ok (session, offer), nonces) =>
      (.ok offer, { r with nonces := nonces, active := some ⟨session, .initiator, nowMs, none, false, false⟩ })

/-- Accepts an offer as the joiner; the words can be shown at once. -/
def beginAccept (r : PairingRegistry C) (ownDevice : DeviceId16) (offer : PairingOffer) (nowMs : Nat)
    (ownSecret : C.Secret) : Except PairingStateError (List Nat) × PairingRegistry C :=
  match r.ensureCapacity nowMs with
  | (.error e, r) => (.error e, r)
  | (.ok (), r) =>
    match PairingSession.accept ownDevice offer nowMs r.nonces ownSecret with
    | (.error e, nonces) => (.error (.session e), { r with nonces := nonces })
    | (.ok (session, ownPublic), nonces) =>
      match session.words with
      | .error e => (.error (.session e), { r with nonces := nonces })
      | .ok sas =>
        let active : Active C := ⟨session, .joiner, nowMs, some ownPublic, false, false⟩
        (.ok sas, { r with nonces := nonces, active := some active })

/-- This device's human confirms, and says whether the peer's device is their own. -/
def confirmLocal (r : PairingRegistry C) (nowMs : Nat) (ownDevice : Bool) :
    Except PairingStateError (List Nat) × PairingRegistry C :=
  r.withActive nowMs fun a =>
    match a.session.confirmLocal with
    | .error e => (.error (.session e), r)
    | .ok session =>
      let r := { r with active := some { a with session := session, ownAnswer := ownDevice } }
      match session.words with
      | .error e => (.error (.session e), r)
      | .ok sas => (.ok sas, r)

/-- The joiner's key, to hand to the initiator. -/
def joinerPublicKey (r : PairingRegistry C) (nowMs : Nat) : Except PairingStateError Key32 × PairingRegistry C :=
  r.withActive nowMs fun a =>
    if a.role ≠ .joiner then (.error .wrongRole, r)
    else
      match a.ownPublic with
      | none => (.error .notActive, r)
      | some ownPublic => (.ok ownPublic, r)

/-- Completes the initiator's side with the joiner's key. -/
def completeAsInitiator (r : PairingRegistry C) (peerDevice : DeviceId16) (peerPublic : Key32) (nowMs : Nat) :
    Except PairingStateError Unit × PairingRegistry C :=
  r.withActive nowMs fun a =>
    if a.role ≠ .initiator then (.error .wrongRole, r)
    else
      match a.session.complete peerDevice peerPublic nowMs r.nonces with
      | (.error e, nonces) => (.error (.session e), { r with nonces := nonces })
      | (.ok session, nonces) => (.ok (), { r with nonces := nonces, active := some { a with session := session } })

/-- The peer's confirmation arrived, with what its human says of this device. -/
def markRemoteConfirmed (r : PairingRegistry C) (nowMs : Nat) (peerOwn : Bool) :
    Except PairingStateError Unit × PairingRegistry C :=
  r.withActive nowMs fun a =>
    match a.session.confirmRemote with
    | .error e => (.error (.session e), r)
    | .ok session => (.ok (), { r with active := some { a with session := session, peerOwnAnswer := peerOwn } })

/-- The grant of an attempt: the current key with its epoch. -/
def grantOf (a : Active C) (groupKey ownStaticPublic : Key32) (epoch : Nat) : PairingGrant :=
  ⟨groupKey, ownStaticPublic, a.ownAnswer, epoch⟩

/-- Once both sides confirmed, the initiator seals its grant, keeps it for retries and closes the attempt. `none` while
it is not ready. -/
def tryFinalizeInitiator (r : PairingRegistry C) (keyStore : KeyStore) (ownStaticPublic : Key32) (epoch nowMs : Nat)
    (drawn : Key32) (wrapNonce : WrapNonce) :
    Except PairingStateError (Option (List UInt8 × Bool)) × PairingRegistry C × KeyStore :=
  match r.active with
  | none => (.error .notActive, r, keyStore)
  | some a =>
    if a.expired nowMs then (.error .windowExpired, { r with active := none }, keyStore)
    else if a.role ≠ .initiator || !a.session.isReadyToSendKey then (.ok none, r, keyStore)
    else
      match fetchOrMintGroupKey keyStore epoch drawn with
      | (.error e, keyStore) => (.error e, r, keyStore)
      | (.ok groupKey, keyStore) =>
        match a.session.wrapGrant (grantOf a groupKey ownStaticPublic epoch) wrapNonce with
        | .error e => (.error (.session e), r, keyStore)
        | .ok sealed =>
          let bothOwn := a.ownAnswer && a.peerOwnAnswer
          let cached := a.session.peerDevice.map fun device => ⟨device, a.session.nonce, sealed, bothOwn⟩
          (.ok (some (sealed, bothOwn)), { r with finalized := cached, active := none }, keyStore)

/-- The last grant, when it was for this device and this nonce. -/
def cachedGrant (r : PairingRegistry C) (device : DeviceId16) (nonce : Nonce) : Option (List UInt8 × Bool) :=
  match r.finalized with
  | none => none
  | some f => if f.device = device && f.nonce = nonce then some (f.sealed, f.bothOwn) else none

/-- The joiner opens a grant, without filing anything. -/
def previewGroupKey (r : PairingRegistry C) (sealed : List UInt8) (nowMs : Nat) :
    Except PairingStateError JoinerGrant × PairingRegistry C :=
  r.withActive nowMs fun a =>
    if a.role ≠ .joiner then (.error .wrongRole, r)
    else if !a.session.isReadyToSendKey then (.error (.session .notConfirmed), r)
    else
      match a.session.unwrapGrant sealed with
      | .error e => (.error (.session e), r)
      | .ok grant =>
        match a.session.peerDevice with
        | none => (.error .notActive, r)
        | some peer =>
          (.ok ⟨grant.groupKey, grant.epoch, peer, grant.staticPublic, grant.ownDevice && a.ownAnswer⟩, r)

/-- Files a key that was opened and closes the attempt. -/
def commitGroupKey (r : PairingRegistry C) (keyStore : KeyStore) (groupKey : Key32) (epoch nowMs : Nat) :
    Except PairingStateError Unit × PairingRegistry C × KeyStore :=
  match r.active with
  | none => (.error .notActive, r, keyStore)
  | some a =>
    if a.expired nowMs then (.error .windowExpired, { r with active := none }, keyStore)
    else (.ok (), { r with active := none }, Function.update keyStore epoch (some groupKey.1))

/-- The open attempt as a hello is checked against it. -/
def snapshot (r : PairingRegistry C) (nowMs : Nat) : Except PairingStateError ActiveSnapshot × PairingRegistry C :=
  r.withActive nowMs fun a =>
    (.ok ⟨a.role, a.session.group, a.session.nonce, a.session.handshake.isSome, a.session.peerDevice⟩, r)

/-- The words once a joiner reached this initiator. -/
def sasIfReady (r : PairingRegistry C) (nowMs : Nat) :
    Except PairingStateError (Option (List Nat)) × PairingRegistry C :=
  r.withActive nowMs fun a =>
    if a.role ≠ .initiator then (.error .wrongRole, r)
    else if a.session.handshake.isNone then (.ok none, r)
    else
      match a.session.words with
      | .error e => (.error (.session e), r)
      | .ok sas => (.ok (some sas), r)

/-- Whether this device's human confirmed, and their answer. -/
def joinerLocalConfirmed (r : PairingRegistry C) (nowMs : Nat) :
    Except PairingStateError (Bool × Bool) × PairingRegistry C :=
  r.withActive nowMs fun a => (.ok (a.session.localConfirmed, a.ownAnswer), r)

end PairingRegistry

/-! ## A daemon -/

/-- A row of the table of devices. -/
structure PairedDevice where
  staticPublic : Key32
  pairedAtMs : Nat
  keyEpoch : Nat
  own : Bool
  deriving DecidableEq

/-- What a daemon's pairings touch. -/
structure PairingNode (C : Crypto) where
  device : DeviceId16
  staticPublic : Key32
  group : GroupId16
  groupEpoch : Nat
  keyStore : KeyStore
  pairing : PairingRegistry C
  devices : DeviceId16 → Option PairedDevice

namespace PairingNode

/-- Writes a peer's row over the one it had. -/
def registerPairedDevice (n : PairingNode C) (device : DeviceId16) (staticPublic : Key32) (nowMs : Nat) (own : Bool) :
    PairingNode C :=
  { n with devices := Function.update n.devices device (some ⟨staticPublic, nowMs, n.groupEpoch, own⟩) }

/-- The joiner opens a grant, files the peer, the group and the key, and closes the attempt. -/
def adoptGroupKey (n : PairingNode C) (group : GroupId16) (sealed : List UInt8) (nowMs : Nat) :
    Except PairingStateError Unit × PairingNode C :=
  match n.pairing.previewGroupKey sealed nowMs with
  | (.error e, pairing) => (.error e, { n with pairing := pairing })
  | (.ok grant, pairing) =>
    let row : PairedDevice := ⟨grant.peerStatic, nowMs, grant.epoch, grant.own⟩
    let n := { n with pairing := pairing, devices := Function.update n.devices grant.peer (some row) }
    match n.pairing.commitGroupKey n.keyStore grant.groupKey grant.epoch nowMs with
    | (.error e, pairing, keyStore) => (.error e, { n with pairing := pairing, keyStore := keyStore })
    | (.ok (), pairing, keyStore) =>
      (.ok (), { n with pairing := pairing, keyStore := keyStore, group := group, groupEpoch := grant.epoch })

/-- The initiator's last step for a hello; whatever fails there, the joiner is to try again. -/
def finalizeOrPending (n : PairingNode C) (device : DeviceId16) (staticPublic : Key32) (nowMs : Nat) (drawn : Key32)
    (wrapNonce : WrapNonce) : InitiatorReply × PairingNode C :=
  match n.pairing.tryFinalizeInitiator n.keyStore n.staticPublic n.groupEpoch nowMs drawn wrapNonce with
  | (.ok (some (sealed, own)), pairing, keyStore) =>
    let n := { n with pairing := pairing, keyStore := keyStore }
    (.grant sealed, n.registerPairedDevice device staticPublic nowMs own)
  | (_, pairing, keyStore) => (.pending, { n with pairing := pairing, keyStore := keyStore })

/-- The peer's confirmation, if the hello carries it, and then the last step. -/
def confirmOrPending (n : PairingNode C) (hello : JoinerHello) (nowMs : Nat) (drawn : Key32) (wrapNonce : WrapNonce) :
    InitiatorReply × PairingNode C :=
  let n := if hello.confirmed then
      { n with pairing := (n.pairing.markRemoteConfirmed nowMs hello.ownDevice).2 }
    else n
  n.finalizeOrPending hello.device hello.staticPublic nowMs drawn wrapNonce

/-- Answers a hello: a grant already sealed for it is sent again; else it must be for the open attempt, and the first
device whose hello is takes it. -/
def processHello (n : PairingNode C) (hello : JoinerHello) (nowMs : Nat) (drawn : Key32) (wrapNonce : WrapNonce) :
    InitiatorReply × PairingNode C :=
  match n.pairing.cachedGrant hello.device hello.nonce with
  | some (sealed, own) => (.grant sealed, n.registerPairedDevice hello.device hello.staticPublic nowMs own)
  | none =>
    match n.pairing.snapshot nowMs with
    | (.error _, pairing) => (.rejected, { n with pairing := pairing })
    | (.ok snapshot, pairing) =>
      let n := { n with pairing := pairing }
      if snapshot.role ≠ .initiator || snapshot.group ≠ hello.group || snapshot.nonce ≠ hello.nonce then
        (.rejected, n)
      else if snapshot.isHandshaken then
        if snapshot.peerDevice ≠ some hello.device then (.rejected, n)
        else n.confirmOrPending hello nowMs drawn wrapNonce
      else
        match n.pairing.completeAsInitiator hello.device hello.publicKey nowMs with
        | (.error _, pairing) => (.rejected, { n with pairing := pairing })
        | (.ok (), pairing) => { n with pairing := pairing }.confirmOrPending hello nowMs drawn wrapNonce

/-- The hello of a joiner's next attempt. -/
def buildHello (n : PairingNode C) (offer : PairingOffer) (ownPublic : Key32) (nowMs : Nat) :
    JoinerHello × PairingNode C :=
  match n.pairing.joinerLocalConfirmed nowMs with
  | (.error _, pairing) =>
    (⟨n.device, offer.group, offer.nonce, ownPublic, n.staticPublic, false, false⟩, { n with pairing := pairing })
  | (.ok (confirmed, own), pairing) =>
    (⟨n.device, offer.group, offer.nonce, ownPublic, n.staticPublic, confirmed, own⟩, { n with pairing := pairing })

/-- A grant arrived, which is the proof that the initiator confirmed. -/
def finishJoiner (n : PairingNode C) (offer : PairingOffer) (sealed : List UInt8) (nowMs : Nat) : PairingNode C :=
  let n := { n with pairing := (n.pairing.markRemoteConfirmed nowMs false).2 }
  (n.adoptGroupKey offer.group sealed nowMs).2

end PairingNode

/-! ## Runs -/

/-- One call on one daemon, with the random bytes it draws. -/
inductive PairingCall (C : Crypto) where
  | offer (endpoint : Text) (nowMs : Nat) (ownSecret : C.Secret) (nonce : Nonce)
  | accept (offer : PairingOffer) (nowMs : Nat) (ownSecret : C.Secret)
  | confirm (nowMs : Nat) (ownDevice : Bool)
  | complete (peerDevice : DeviceId16) (peerPublic : Key32) (nowMs : Nat)
  | markRemote (nowMs : Nat) (peerOwn : Bool)
  | finalize (nowMs : Nat) (drawn : Key32) (wrapNonce : WrapNonce)
  | adopt (group : GroupId16) (sealed : List UInt8) (nowMs : Nat)
  /-- A read, which lets go of an attempt whose window is past. -/
  | look (nowMs : Nat)
  | register (device : DeviceId16) (staticPublic : Key32) (nowMs : Nat) (own : Bool)
  /-- A rotation of the group key. -/
  | rekey (epoch : Nat) (keyStore : KeyStore)

/-- The daemon after a call. -/
def PairingNode.call (n : PairingNode C) : PairingCall C → PairingNode C
  | .offer endpoint nowMs ownSecret nonce =>
    { n with pairing := (n.pairing.beginOffer n.device n.group endpoint nowMs ownSecret nonce).2 }
  | .accept offer nowMs ownSecret => { n with pairing := (n.pairing.beginAccept n.device offer nowMs ownSecret).2 }
  | .confirm nowMs ownDevice => { n with pairing := (n.pairing.confirmLocal nowMs ownDevice).2 }
  | .complete peerDevice peerPublic nowMs =>
    { n with pairing := (n.pairing.completeAsInitiator peerDevice peerPublic nowMs).2 }
  | .markRemote nowMs peerOwn => { n with pairing := (n.pairing.markRemoteConfirmed nowMs peerOwn).2 }
  | .finalize nowMs drawn wrapNonce =>
    let (_, pairing, keyStore) :=
      n.pairing.tryFinalizeInitiator n.keyStore n.staticPublic n.groupEpoch nowMs drawn wrapNonce
    { n with pairing := pairing, keyStore := keyStore }
  | .adopt group sealed nowMs => (n.adoptGroupKey group sealed nowMs).2
  | .look nowMs => { n with pairing := (n.pairing.snapshot nowMs).2 }
  | .register device staticPublic nowMs own => n.registerPairedDevice device staticPublic nowMs own
  | .rekey epoch keyStore => { n with groupEpoch := epoch, keyStore := keyStore }

/-- The daemon after some calls. -/
def PairingNode.after (n : PairingNode C) (calls : List (PairingCall C)) : PairingNode C := calls.foldl call n

/-- The ephemeral key a call draws. -/
def PairingCall.draws : PairingCall C → Option C.Secret
  | .offer _ _ ownSecret _ => some ownSecret
  | .accept _ _ ownSecret => some ownSecret
  | _ => none

/-- A grant that was sealed, and the attempt it was sealed in. -/
structure Sealing (C : Crypto) where
  device : DeviceId16
  active : Active C
  grant : PairingGrant
  sealed : List UInt8

/-- A grant that was adopted, and the attempt it was opened in. -/
structure Adoption (C : Crypto) where
  device : DeviceId16
  active : Active C
  grant : JoinerGrant
  sealed : List UInt8

namespace PairingNode

/-- The grant a call seals. -/
def sealing? (n : PairingNode C) : PairingCall C → Option (Sealing C)
  | .finalize nowMs drawn wrapNonce =>
    match n.pairing.active, (fetchOrMintGroupKey n.keyStore n.groupEpoch drawn).1,
      (n.pairing.tryFinalizeInitiator n.keyStore n.staticPublic n.groupEpoch nowMs drawn wrapNonce).1 with
    | some a, .ok groupKey, .ok (some (sealed, _)) =>
      some ⟨n.device, a, PairingRegistry.grantOf a groupKey n.staticPublic n.groupEpoch, sealed⟩
    | _, _, _ => none
  | _ => none

/-- The grant a call adopts. -/
def adoption? (n : PairingNode C) : PairingCall C → Option (Adoption C)
  | .adopt group sealed nowMs =>
    match n.pairing.active, (n.pairing.previewGroupKey sealed nowMs).1, (n.adoptGroupKey group sealed nowMs).1 with
    | some a, .ok grant, .ok () => some ⟨n.device, a, grant, sealed⟩
    | _, _, _ => none
  | _ => none

end PairingNode

/-- All daemons, the ephemeral keys drawn so far, and what was sealed and adopted. -/
structure World (C : Crypto) where
  nodes : DeviceId16 → PairingNode C
  drawn : List Key32
  sealings : List (Sealing C)
  adoptions : List (Adoption C)

namespace World

/-- One call on one daemon. -/
def step (w : World C) (device : DeviceId16) (c : PairingCall C) : World C where
  nodes := Function.update w.nodes device ((w.nodes device).call c)
  drawn := (c.draws.map C.publicOf).toList ++ w.drawn
  sealings := ((w.nodes device).sealing? c).toList ++ w.sealings
  adoptions := ((w.nodes device).adoption? c).toList ++ w.adoptions

/-- Daemons that start without a pairing, and calls on them in any order: offers are anyone's, and so are hellos; an
ephemeral key is drawn once, and a grant that reaches a joiner was sealed. -/
inductive Reachable : World C → Prop
  | start (nodes : DeviceId16 → PairingNode C) (hdevice : ∀ d, (nodes d).device = d)
      (hnew : ∀ d, (nodes d).pairing = .new) : Reachable ⟨nodes, [], [], []⟩
  | call {w : World C} (h : Reachable w) (device : DeviceId16) (c : PairingCall C)
      (hfresh : ∀ ownSecret, c.draws = some ownSecret → C.publicOf ownSecret ∉ w.drawn)
      (hsent : ∀ group sealed nowMs, c = .adopt group sealed nowMs → ∃ s ∈ w.sealings, s.sealed = sealed) :
      Reachable (w.step device c)

end World

/-! ## Two daemons on a network -/

/-- What a reply carries. -/
def InitiatorReply.sealed? : InitiatorReply → Option (List UInt8)
  | .grant sealed => some sealed
  | _ => none

/-- A hello that is answered at once: the daemons after it, and whether the joiner stops. -/
def joinerRound (initiator joiner : PairingNode C) (offer : PairingOffer) (ownPublic : Key32)
    (sentAtMs heardAtMs gotAtMs : Nat) (drawn : Key32) (wrapNonce : WrapNonce) :
    PairingNode C × PairingNode C × Bool :=
  let (hello, joiner) := joiner.buildHello offer ownPublic sentAtMs
  let (reply, initiator) := initiator.processHello hello heardAtMs drawn wrapNonce
  match reply with
  | .grant sealed => (initiator, joiner.finishJoiner offer sealed gotAtMs, true)
  | .rejected => (initiator, joiner, true)
  | .pending => (initiator, joiner, false)

/-- An initiator, a joiner, and the hellos and grants sent so far: each may be lost, doubled and overtaken. -/
structure PairingNet (C : Crypto) where
  initiator : PairingNode C
  joiner : PairingNode C
  hellos : List JoinerHello
  grants : List (List UInt8)

/-- What happens on it. -/
inductive PairingEvent where
  | initiatorConfirms (nowMs : Nat) (ownDevice : Bool)
  | joinerConfirms (nowMs : Nat) (ownDevice : Bool)
  | joinerSends (nowMs : Nat)
  | initiatorHears (hello : JoinerHello) (nowMs : Nat) (drawn : Key32) (wrapNonce : WrapNonce)
  | joinerGets (sealed : List UInt8) (nowMs : Nat)

namespace PairingNet

/-- The network after an event of the pairing that `offer` opened. -/
def step (offer : PairingOffer) (ownPublic : Key32) (x : PairingNet C) : PairingEvent → PairingNet C
  | .initiatorConfirms nowMs ownDevice => { x with initiator := x.initiator.call (.confirm nowMs ownDevice) }
  | .joinerConfirms nowMs ownDevice => { x with joiner := x.joiner.call (.confirm nowMs ownDevice) }
  | .joinerSends nowMs =>
    let (hello, joiner) := x.joiner.buildHello offer ownPublic nowMs
    { x with joiner := joiner, hellos := hello :: x.hellos }
  | .initiatorHears hello nowMs drawn wrapNonce =>
    let (reply, initiator) := x.initiator.processHello hello nowMs drawn wrapNonce
    { x with initiator := initiator, grants := reply.sealed?.toList ++ x.grants }
  | .joinerGets sealed nowMs => { x with joiner := x.joiner.finishJoiner offer sealed nowMs }

/-- The network brings only what was sent. -/
def Brings (x : PairingNet C) : PairingEvent → Prop
  | .initiatorHears hello _ _ _ => hello ∈ x.hellos
  | .joinerGets sealed _ => sealed ∈ x.grants
  | _ => True

/-- Events one after the other. -/
inductive Run (offer : PairingOffer) (ownPublic : Key32) (start : PairingNet C) :
    List PairingEvent → PairingNet C → Prop
  | nil : Run offer ownPublic start [] start
  | concat {events : List PairingEvent} {x : PairingNet C} (h : Run offer ownPublic start events x) (e : PairingEvent)
      (hbrings : x.Brings e) : Run offer ownPublic start (events ++ [e]) (x.step offer ownPublic e)

end PairingNet

end Txtodo.Pairing
