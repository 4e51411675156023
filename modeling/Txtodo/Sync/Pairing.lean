import Txtodo.Sync.Frame
import Txtodo.Sync.Message
import Txtodo.Sync.NonceRegistry

/-!
# Pairing

`pairing.rs` with `transcript.rs`, `sas.rs`, `pairing_grant.rs`, `offer.rs` and `pairing_relay.rs`: ephemeral keys
in, a confirmed group key out. The crypto and codec libraries are given, the random bytes a step draws are among
its arguments, and a word to compare is its place in the word list.
-/

namespace Txtodo.Pairing

/-- Rejections a session takes before it closes. -/
def MAX_FAILED_SAS_CONFIRMATIONS : Nat := 3

/-- The nonce in front of a wrapped group key. -/
def WRAP_NONCE_BYTES : Nat := 24

/-- Words the humans compare. -/
def SAS_WORD_COUNT : Nat := 6

/-- Words in the list they are from. -/
def WORDLIST_LEN : Nat := 1296

/-- Bytes of the key that wraps the group key. -/
def PAIR_KEY_BYTES : Nat := 32

/-- `txtodo-sas-v1`. -/
def SAS_INFO : List UInt8 := [116, 120, 116, 111, 100, 111, 45, 115, 97, 115, 45, 118, 49]

/-- `txtodo-pair-v1`. -/
def PAIR_KEY_INFO : List UInt8 := [116, 120, 116, 111, 100, 111, 45, 112, 97, 105, 114, 45, 118, 49]

/-- A public key, a shared secret or a group key. -/
abbrev Key32 := { bytes : List UInt8 // bytes.length = 32 }

/-- A device in the sixteen bytes it travels in. -/
abbrev DeviceId16 := { device : DeviceId // device.ulid < 256 ^ 16 }

/-- A group in the sixteen bytes it travels in. -/
abbrev GroupId16 := { group : GroupId // group.id < 256 ^ 16 }

/-- The random nonce of one wrapping. -/
abbrev WrapNonce := { bytes : List UInt8 // bytes.length = WRAP_NONCE_BYTES }

/-- What the initiator hands over: the group key with its epoch, its own static key, and whether its human
called the joiner an own device. -/
structure PairingGrant where
  groupKey : Key32
  staticPublic : Key32
  ownDevice : Bool
  epoch : Nat
  deriving DecidableEq

/-- A grant of a build that had no epochs. -/
structure LegacyGrant where
  groupKey : Key32
  staticPublic : Key32
  ownDevice : Bool

/-- The libraries: X25519, HKDF, the AEAD and the grants' codec. -/
structure Crypto where
  Secret : Type
  publicOf : Secret → Key32
  diffieHellman : Secret → Key32 → Key32
  /-- Extracts with the transcript as salt, then expands to a length. -/
  expand : (sharedSecret : Key32) → (transcript info : List UInt8) → (len : Nat) → Option (List UInt8)
  encrypt : (key nonce msg aad : List UInt8) → Option (List UInt8)
  decrypt : (key nonce ciphertext aad : List UInt8) → Option (List UInt8)
  grantBytes : PairingGrant → Option (List UInt8)
  grantOf : List UInt8 → Option PairingGrant
  legacyGrantOf : List UInt8 → Option LegacyGrant

/-- Both ends of an exchange compute one secret; what is sealed opens with its own key, nonce and associated data
and gives what went in, and it opens under no other associated data; grants are read back. -/
structure Crypto.Lawful (C : Crypto) : Prop where
  diffieHellman_comm : ∀ a b, C.diffieHellman a (C.publicOf b) = C.diffieHellman b (C.publicOf a)
  decrypt_encrypt : ∀ key nonce msg aad sealed, C.encrypt key nonce msg aad = some sealed →
    C.decrypt key nonce sealed aad = some msg
  decrypt_other : ∀ key nonce msg aad sealed key' nonce' aad', C.encrypt key nonce msg aad = some sealed →
    aad' ≠ aad → C.decrypt key' nonce' sealed aad' = none
  grantOf_grantBytes : ∀ grant bytes, C.grantBytes grant = some bytes → C.grantOf bytes = some grant

/-- Why a step was refused. -/
inductive PairingError where
  | nonce (e : NonceError)
  | derive
  | notHandshaken
  | notConfirmed
  | closed
  | seal
  deriving DecidableEq

/-! ## Transcripts and what is derived from them -/

/-- One side of a handshake. -/
structure Party where
  device : DeviceId16
  publicKey : Key32
  deriving DecidableEq

/-- The sides by ascending device, so that each of them spells the same bytes. -/
def ordered (party1 party2 : Party) : Party × Party :=
  if party1.device.1.ulid ≤ party2.device.1.ulid then (party1, party2) else (party2, party1)

/-- A device and its key as they stand in a transcript. -/
def Party.bytes (p : Party) : List UInt8 := Bytes.ofNatLE 16 p.device.1.ulid ++ p.publicKey.1

/-- What both sides must agree on. -/
def transcript (protocolVersion : Nat) (party1 party2 : Party) (group : GroupId16) : List UInt8 :=
  let (a, b) := ordered party1 party2
  Bytes.ofNatLE 2 protocolVersion ++ (a.bytes ++ (b.bytes ++ Bytes.ofNatLE 16 group.1.id))

/-- The places of the six words: each is four bytes, lowest first, modulo the list. -/
def sasWords (C : Crypto) (sharedSecret : Key32) (transcript : List UInt8) : Except PairingError (List Nat) :=
  match C.expand sharedSecret transcript SAS_INFO (SAS_WORD_COUNT * 4) with
  | none => .error .derive
  | some okm =>
    .ok ((List.range SAS_WORD_COUNT).map fun i => Bytes.toNatLE ((okm.drop (i * 4)).take 4) % WORDLIST_LEN)

/-- The key that wraps the group key. -/
def pairKey (C : Crypto) (sharedSecret : Key32) (transcript : List UInt8) : Except PairingError (List UInt8) :=
  match C.expand sharedSecret transcript PAIR_KEY_INFO PAIR_KEY_BYTES with
  | none => .error .derive
  | some key => .ok key

/-- Decodes a grant; one of an older build is of epoch 0. -/
def PairingGrant.fromBytes (C : Crypto) (bytes : List UInt8) : Option PairingGrant :=
  match C.grantOf bytes with
  | some grant => some grant
  | none => (C.legacyGrantOf bytes).map fun old => ⟨old.groupKey, old.staticPublic, old.ownDevice, 0⟩

/-! ## Offers and messages -/

/-- What the code of an offer spells. -/
structure PairingOffer where
  device : DeviceId16
  group : GroupId16
  publicKey : Key32
  endpoint : Text
  nonce : Nonce
  issuedAtMs : Nat
  relayNodeId : Option (List UInt8)
  relayUrl : Option Text

/-- Joiner to initiator, one for each attempt. -/
structure JoinerHello where
  device : DeviceId16
  group : GroupId16
  nonce : Nonce
  publicKey : Key32
  staticPublic : Key32
  confirmed : Bool
  ownDevice : Bool

/-- Initiator to joiner, one for each hello. -/
inductive InitiatorReply where
  | pending
  | rejected
  | grant (sealed : List UInt8)
  deriving DecidableEq

/-! ## Sessions -/

/-- A completed exchange. -/
structure Handshake where
  transcript : List UInt8
  sharedSecret : Key32

/-- One pairing attempt, either side. -/
structure PairingSession (C : Crypto) where
  ownDevice : DeviceId16
  group : GroupId16
  nonce : Nonce
  /-- Only until the exchange is completed. -/
  ownSecret : Option C.Secret
  ownPublic : Key32
  peerDevice : Option DeviceId16
  handshake : Option Handshake
  localConfirmed : Bool
  remoteConfirmed : Bool
  failedConfirmations : Nat
  closed : Bool

namespace PairingSession

variable {C : Crypto}

/-- Starts as the initiator: the session and the offer to show. -/
def offer (ownDevice : DeviceId16) (group : GroupId16) (endpoint : Text) (nowMs : Nat) (registry : NonceRegistry)
    (ownSecret : C.Secret) (nonce : Nonce) :
    Except PairingError (PairingSession C × PairingOffer) × NonceRegistry :=
  match registry.issue nonce nowMs with
  | (.error e, registry) => (.error (.nonce e), registry)
  | (.ok (), registry) =>
    (.ok (⟨ownDevice, group, nonce, some ownSecret, C.publicOf ownSecret, none, none, false, false, 0, false⟩,
      ⟨ownDevice, group, C.publicOf ownSecret, endpoint, nonce, nowMs, none, none⟩), registry)

/-- Accepts an offer as the joiner, which completes the exchange: the session and the key to send back. -/
def accept (ownDevice : DeviceId16) (offer : PairingOffer) (nowMs : Nat) (registry : NonceRegistry)
    (ownSecret : C.Secret) : Except PairingError (PairingSession C × Key32) × NonceRegistry :=
  match registry.witness offer.nonce offer.issuedAtMs nowMs with
  | (.error e, registry) => (.error (.nonce e), registry)
  | (.ok (), registry) =>
    let ownPublic := C.publicOf ownSecret
    let t := transcript PROTOCOL_VERSION ⟨ownDevice, ownPublic⟩ ⟨offer.device, offer.publicKey⟩ offer.group
    (.ok (⟨ownDevice, offer.group, offer.nonce, none, ownPublic, some offer.device,
      some ⟨t, C.diffieHellman ownSecret offer.publicKey⟩, false, false, 0, false⟩, ownPublic), registry)

/-- Completes the exchange as the initiator. The nonce is used up even where there is no key left to complete with. -/
def complete (s : PairingSession C) (peerDevice : DeviceId16) (peerPublic : Key32) (nowMs : Nat)
    (registry : NonceRegistry) : Except PairingError (PairingSession C) × NonceRegistry :=
  if s.closed then (.error .closed, registry)
  else
    match registry.consume s.nonce nowMs with
    | (.error e, registry) => (.error (.nonce e), registry)
    | (.ok (), registry) =>
      match s.ownSecret with
      | none => (.error .notHandshaken, registry)
      | some ownSecret =>
        let t := transcript PROTOCOL_VERSION ⟨s.ownDevice, s.ownPublic⟩ ⟨peerDevice, peerPublic⟩ s.group
        (.ok { s with
          ownSecret := none
          peerDevice := some peerDevice
          handshake := some ⟨t, C.diffieHellman ownSecret peerPublic⟩ }, registry)

/-- The words to show. -/
def words (s : PairingSession C) : Except PairingError (List Nat) :=
  if s.closed then .error .closed
  else
    match s.handshake with
    | none => .error .notHandshaken
    | some hs => sasWords C hs.sharedSecret hs.transcript

/-- This device's human says the words match. -/
def confirmLocal (s : PairingSession C) : Except PairingError (PairingSession C) :=
  if s.closed then .error .closed
  else if s.handshake.isNone then .error .notHandshaken
  else .ok { s with localConfirmed := true }

/-- The peer's confirmation arrived. -/
def confirmRemote (s : PairingSession C) : Except PairingError (PairingSession C) :=
  if s.closed then .error .closed
  else if s.handshake.isNone then .error .notHandshaken
  else .ok { s with remoteConfirmed := true }

/-- A confirmation failed; the last one tolerated closes the session. -/
def reject (s : PairingSession C) : Except PairingError (PairingSession C) :=
  if s.closed then .error .closed
  else
    let failed := s.failedConfirmations + 1
    .ok { s with failedConfirmations := failed, closed := decide (MAX_FAILED_SAS_CONFIRMATIONS ≤ failed) }

/-- Both sides confirmed and the session is not closed: only then may the group key move. -/
def isReadyToSendKey (s : PairingSession C) : Bool := s.localConfirmed && s.remoteConfirmed && !s.closed

/-- Seals bytes under the key and the transcript of the exchange. -/
def wrapGroupKey (s : PairingSession C) (groupKeyBytes : List UInt8) (wrapNonce : WrapNonce) :
    Except PairingError (List UInt8) :=
  if s.closed then .error .closed
  else if !s.isReadyToSendKey then .error .notConfirmed
  else
    match s.handshake with
    | none => .error .notHandshaken
    | some hs =>
      match pairKey C hs.sharedSecret hs.transcript with
      | .error e => .error e
      | .ok key =>
        match C.encrypt key wrapNonce.1 groupKeyBytes hs.transcript with
        | none => .error .seal
        | some ciphertext => .ok (wrapNonce.1 ++ ciphertext)

/-- Opens what `wrapGroupKey` sealed. -/
def unwrapGroupKey (s : PairingSession C) (sealed : List UInt8) : Except PairingError (List UInt8) :=
  if s.closed then .error .closed
  else if !s.isReadyToSendKey then .error .notConfirmed
  else if sealed.length < WRAP_NONCE_BYTES then .error .seal
  else
    match s.handshake with
    | none => .error .notHandshaken
    | some hs =>
      match pairKey C hs.sharedSecret hs.transcript with
      | .error e => .error e
      | .ok key =>
        match C.decrypt key (sealed.take WRAP_NONCE_BYTES) (sealed.drop WRAP_NONCE_BYTES) hs.transcript with
        | none => .error .seal
        | some bytes => .ok bytes

/-- Seals a grant. -/
def wrapGrant (s : PairingSession C) (grant : PairingGrant) (wrapNonce : WrapNonce) :
    Except PairingError (List UInt8) :=
  match C.grantBytes grant with
  | none => .error .seal
  | some bytes => s.wrapGroupKey bytes wrapNonce

/-- Opens a grant. -/
def unwrapGrant (s : PairingSession C) (sealed : List UInt8) : Except PairingError PairingGrant :=
  match s.unwrapGroupKey sealed with
  | .error e => .error e
  | .ok bytes =>
    match PairingGrant.fromBytes C bytes with
    | none => .error .seal
    | some grant => .ok grant

end PairingSession

end Txtodo.Pairing
