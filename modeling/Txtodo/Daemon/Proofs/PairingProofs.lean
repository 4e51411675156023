import Txtodo.Daemon.PairingState

/-!
# What a pairing hands over, and to whom

A transcript has one reading. Each call makes one kind of change to the open attempt, so an attempt's secret, exchange
and confirmations come from the calls before it; an ephemeral key that is drawn once then ties each key a joiner files
to the one grant its peer sealed.
-/

namespace Txtodo.Pairing

/-! ## A laptop and a phone -/

/-- Bytes under a lid that names `name`. -/
def lid (name : List UInt8) (bytes : List UInt8) : List UInt8 :=
  match name with
  | [] => 0 :: bytes
  | b :: name => 1 :: b :: lid name bytes

/-- Takes off the lid that names `name`. -/
def unlid : List UInt8 → List UInt8 → Option (List UInt8)
  | [], 0 :: bytes => some bytes
  | b :: name, 1 :: b' :: bytes => if b = b' then unlid name bytes else none
  | _, _ => none

theorem unlid_lid (name name' bytes : List UInt8) :
    unlid name' (lid name bytes) = if name' = name then some bytes else none := by
  induction name generalizing name' with
  | nil =>
    cases name' with
    | nil => rfl
    | cons b name' => rfl
  | cons b name ih =>
    cases name' with
    | nil => rfl
    | cons b' name' =>
      rw [lid, unlid, ih]
      by_cases hb : b' = b
      · simp [hb]
      · simp [hb]

/-- A byte and zeros. -/
def byteKey (b : UInt8) : Key32 := ⟨b :: List.replicate 31 0, rfl⟩

/-- Libraries that hide nothing: what is sealed names its key, its nonce and its associated data. -/
def clearCrypto : Crypto where
  Secret := UInt8
  publicOf := byteKey
  diffieHellman secret publicKey := byteKey (secret + publicKey.1.headD 0)
  expand sharedSecret transcript info len :=
    if len ≤ 255 * 32 then some ((sharedSecret.1 ++ (transcript ++ (info ++ List.replicate len 0))).take len) else none
  encrypt key nonce msg aad := some (lid key (lid nonce (lid aad msg)))
  decrypt key nonce ciphertext aad :=
    ((unlid key ciphertext).bind (unlid nonce)).bind (unlid aad)
  grantBytes grant := some (grant.groupKey.1 ++ (grant.staticPublic.1 ++ (if grant.ownDevice then 1 else 0) ::
    List.replicate grant.epoch 0))
  grantOf bytes :=
    if h : 65 ≤ bytes.length then
      some ⟨⟨bytes.take 32, by simp; omega⟩, ⟨(bytes.drop 32).take 32, by simp; omega⟩, bytes[64]? = some 1,
        bytes.length - 65⟩
    else none
  legacyGrantOf _ := none

theorem clearCrypto_lawful : clearCrypto.Lawful where
  diffieHellman_comm a b := congrArg byteKey (UInt8.add_comm a b)
  decrypt_encrypt key nonce msg aad sealed h := by
    obtain rfl := Option.some.inj h
    simp [clearCrypto, unlid_lid]
  decrypt_other key nonce msg aad sealed key' nonce' aad' h hne := by
    obtain rfl := Option.some.inj h
    simp only [clearCrypto, unlid_lid]
    by_cases hkey : key' = key
    · by_cases hnonce : nonce' = nonce
      · simp [hkey, hnonce, unlid_lid, hne]
      · simp [hkey, hnonce, unlid_lid]
    · simp [hkey]
  grantOf_grantBytes grant bytes h := by
    obtain rfl := Option.some.inj h
    obtain ⟨⟨key, hkey⟩, ⟨static, hstatic⟩, own, epoch⟩ := grant
    have hlength : (key ++ (static ++ (if own then (1 : UInt8) else 0) :: List.replicate epoch 0)).length =
        65 + epoch := by
      simp [hkey, hstatic]
      omega
    have htake : ((key ++ (static ++ (if own then (1 : UInt8) else 0) :: List.replicate epoch 0)).drop 32).take 32 =
        static := by
      rw [List.drop_left' hkey, List.take_left' hstatic]
    have hown : (key ++ (static ++ (if own then (1 : UInt8) else 0) :: List.replicate epoch 0))[64]? =
        some (if own then 1 else 0) := by
      rw [List.getElem?_append_right (by omega), List.getElem?_append_right (by omega), hkey, hstatic]
      rfl
    simp only [clearCrypto, List.take_left' hkey, htake, hown]
    rw [dif_pos (by omega)]
    cases own with
    | false =>
      simp [hkey, hstatic]
      omega
    | true =>
      simp [hkey, hstatic]
      omega

/-- A daemon that never paired. -/
def freshNode (device : DeviceId16) : PairingNode clearCrypto :=
  ⟨device, byteKey (UInt8.ofNat device.1.ulid), ⟨⟨7⟩, by decide⟩, 0, fun _ => none, .new, fun _ => none⟩

def laptop : DeviceId16 := ⟨⟨1⟩, by decide⟩

def phone : DeviceId16 := ⟨⟨2⟩, by decide⟩

/-- The offer of the laptop at 10. -/
def laptopOffer : PairingOffer := ⟨laptop, ⟨⟨7⟩, by decide⟩, byteKey 5, [], 3, 10, none, none⟩

def zeroNonce : WrapNonce := ⟨List.replicate 24 0, rfl⟩

/-- The calls of the laptop until it can seal its grant. -/
def laptopCalls : List (PairingCall clearCrypto) :=
  [.offer [] 10 (5 : UInt8) 3, .complete phone (byteKey 6) 30, .confirm 40 true, .markRemote 50 true]

/-- The laptop's last step. -/
def laptopSeals : PairingCall clearCrypto := .finalize 60 (byteKey 8) zeroNonce

/-- What the laptop seals. -/
def laptopSealed : List UInt8 :=
  ((((freshNode laptop).after laptopCalls).sealing? laptopSeals).map Sealing.sealed).getD []

variable {C : Crypto} {α : Type}

/-! ## Transcripts -/

variable {p q p' q' : Party} {group group' : GroupId16}

/-- The order of the sides is lost just where they are swapped and of different devices. -/
theorem ordered_eq_iff : ordered p q = ordered p' q' ↔
    p = p' ∧ q = q' ∨ p.device ≠ q.device ∧ p = q' ∧ q = p' := by
  have hdevice : ∀ x y : Party, x.device = y.device ↔ x.device.1.ulid = y.device.1.ulid := by
    rintro ⟨⟨⟨a⟩, ha⟩, x⟩ ⟨⟨⟨b⟩, hb⟩, y⟩
    simp
  rw [Ne, hdevice]
  unfold ordered
  constructor
  · intro h
    by_cases hp : p.device.1.ulid ≤ q.device.1.ulid
    · rw [if_pos hp] at h
      by_cases hp' : p'.device.1.ulid ≤ q'.device.1.ulid
      · rw [if_pos hp'] at h
        exact .inl (Prod.mk.inj h)
      · rw [if_neg hp'] at h
        obtain ⟨rfl, rfl⟩ := Prod.mk.inj h
        exact .inr ⟨fun heq => hp' heq.ge, rfl, rfl⟩
    · rw [if_neg hp] at h
      by_cases hp' : p'.device.1.ulid ≤ q'.device.1.ulid
      · rw [if_pos hp'] at h
        obtain ⟨rfl, rfl⟩ := Prod.mk.inj h
        exact .inr ⟨fun heq => hp heq.le, rfl, rfl⟩
      · rw [if_neg hp'] at h
        obtain ⟨hq, hp⟩ := Prod.mk.inj h
        exact .inl ⟨hp, hq⟩
  · rintro (⟨rfl, rfl⟩ | ⟨hne, rfl, rfl⟩)
    · rfl
    · by_cases hle : p.device.1.ulid ≤ q.device.1.ulid
      · rw [if_pos hle, if_neg fun hge => hne (le_antisymm hle hge)]
      · rw [if_neg hle, if_pos (le_of_not_ge hle)]

theorem Party.length_bytes (p : Party) : p.bytes.length = 48 := by
  rw [bytes, List.length_append, Bytes.length_ofNatLE, p.publicKey.2]

theorem Party.bytes_inj : p.bytes = q.bytes ↔ p = q := by
  refine ⟨fun h => ?_, congrArg bytes⟩
  obtain ⟨⟨⟨a⟩, ha⟩, x⟩ := p
  obtain ⟨⟨⟨b⟩, hb⟩, y⟩ := q
  obtain ⟨hdevice, hkey⟩ := List.append_inj h (by simp)
  have hulid := congrArg Bytes.toNatLE hdevice
  rw [Bytes.toNatLE_ofNatLE_of_lt ha, Bytes.toNatLE_ofNatLE_of_lt hb] at hulid
  have hulid : a = b := hulid
  subst hulid
  obtain rfl := Subtype.ext hkey
  rfl

/-- Two transcripts are the same just where the groups are and the sides are, as they stand or swapped between different
devices. -/
theorem transcript_eq_iff (version : Nat) : transcript version p q group = transcript version p' q' group' ↔
    group = group' ∧ (p = p' ∧ q = q' ∨ p.device ≠ q.device ∧ p = q' ∧ q = p') := by
  rw [← ordered_eq_iff]
  unfold transcript
  constructor
  · intro h
    obtain ⟨ha, h⟩ := List.append_inj (List.append_cancel_left h) (by rw [Party.length_bytes, Party.length_bytes])
    obtain ⟨hb, hgroup⟩ := List.append_inj h (by rw [Party.length_bytes, Party.length_bytes])
    refine ⟨?_, Prod.ext (Party.bytes_inj.1 ha) (Party.bytes_inj.1 hb)⟩
    obtain ⟨⟨g⟩, hg⟩ := group
    obtain ⟨⟨g'⟩, hg'⟩ := group'
    have hid := congrArg Bytes.toNatLE hgroup
    rw [Bytes.toNatLE_ofNatLE_of_lt hg, Bytes.toNatLE_ofNatLE_of_lt hg'] at hid
    have hid : g = g' := hid
    subst hid
    rfl
  · rintro ⟨rfl, hordered⟩
    rw [hordered]

/-! ## Sealing and opening -/

variable {s s' : PairingSession C} {grant grant' : PairingGrant} {wrapNonce : WrapNonce} {sealed : List UInt8}

/-- Both sides confirmed, and the session is open. -/
theorem isReadyToSendKey_iff :
    s.isReadyToSendKey = true ↔ s.localConfirmed = true ∧ s.remoteConfirmed = true ∧ s.closed = false := by
  simp [PairingSession.isReadyToSendKey, and_assoc]

/-- What a wrapped grant is. -/
theorem wrapGrant_ok (h : s.wrapGrant grant wrapNonce = .ok sealed) :
    ∃ hs key bytes ciphertext, s.handshake = some hs ∧ C.grantBytes grant = some bytes ∧
      pairKey C hs.sharedSecret hs.transcript = .ok key ∧
      C.encrypt key wrapNonce.1 bytes hs.transcript = some ciphertext ∧ sealed = wrapNonce.1 ++ ciphertext ∧
      s.isReadyToSendKey = true := by
  unfold PairingSession.wrapGrant at h
  cases hbytes : C.grantBytes grant with
  | none => simp [hbytes] at h
  | some bytes =>
    rw [hbytes] at h
    dsimp only at h
    unfold PairingSession.wrapGroupKey at h
    by_cases hclosed : s.closed = true
    · simp [hclosed] at h
    rw [if_neg hclosed] at h
    by_cases hready : s.isReadyToSendKey = true
    · cases hhs : s.handshake with
      | none => simp [hready, hhs] at h
      | some hs =>
        cases hkey : pairKey C hs.sharedSecret hs.transcript with
        | error e => simp [hready, hhs, hkey] at h
        | ok key =>
          cases hcipher : C.encrypt key wrapNonce.1 bytes hs.transcript with
          | none => simp [hready, hhs, hkey, hcipher] at h
          | some ciphertext =>
            refine ⟨hs, key, bytes, ciphertext, rfl, rfl, hkey, hcipher, ?_, hready⟩
            simpa [hready, hhs, hkey, hcipher, eq_comm] using h
    · simp [hready] at h

/-- What opens is a decryption, and the session was ready for it. -/
theorem unwrapGrant_ok (h : s.unwrapGrant sealed = .ok grant) :
    ∃ hs key bytes, s.handshake = some hs ∧ pairKey C hs.sharedSecret hs.transcript = .ok key ∧
      C.decrypt key (sealed.take WRAP_NONCE_BYTES) (sealed.drop WRAP_NONCE_BYTES) hs.transcript = some bytes ∧
      PairingGrant.fromBytes C bytes = some grant ∧ s.isReadyToSendKey = true := by
  unfold PairingSession.unwrapGrant at h
  cases hopen : s.unwrapGroupKey sealed with
  | error e => simp [hopen] at h
  | ok bytes =>
    have hfrom : PairingGrant.fromBytes C bytes = some grant := by
      cases hf : PairingGrant.fromBytes C bytes with
      | none => simp [hopen, hf] at h
      | some g => simpa [hopen, hf] using h
    unfold PairingSession.unwrapGroupKey at hopen
    by_cases hclosed : s.closed = true
    · simp [hclosed] at hopen
    rw [if_neg hclosed] at hopen
    by_cases hready : s.isReadyToSendKey = true
    · by_cases hshort : sealed.length < WRAP_NONCE_BYTES
      · simp [hready, hshort] at hopen
      cases hhs : s.handshake with
      | none => simp [hready, hshort, hhs] at hopen
      | some hs =>
        cases hkey : pairKey C hs.sharedSecret hs.transcript with
        | error e => simp [hready, hshort, hhs, hkey] at hopen
        | ok key =>
          cases hplain : C.decrypt key (sealed.take WRAP_NONCE_BYTES) (sealed.drop WRAP_NONCE_BYTES) hs.transcript with
          | none => simp [hready, hshort, hhs, hkey, hplain] at hopen
          | some bytes' =>
            obtain rfl : bytes' = bytes := by simpa [hready, hshort, hhs, hkey, hplain] using hopen
            exact ⟨hs, key, bytes', rfl, hkey, hplain, hfrom, hready⟩
    · simp [hready] at hopen

/-- A grant opens under its own transcript only, and there it is what was sealed. -/
theorem unwrapGrant_of_wrapGrant (hC : C.Lawful) (hwrap : s.wrapGrant grant wrapNonce = .ok sealed)
    (hopen : s'.unwrapGrant sealed = .ok grant') :
    ∃ hs hs', s.handshake = some hs ∧ s'.handshake = some hs' ∧ hs.transcript = hs'.transcript ∧
      (hs.sharedSecret = hs'.sharedSecret → grant' = grant) := by
  obtain ⟨hs, key, bytes, ciphertext, hhs, hbytes, hkey, hcipher, rfl, -⟩ := wrapGrant_ok hwrap
  obtain ⟨hs', key', bytes', hhs', hkey', hplain, hfrom, -⟩ := unwrapGrant_ok hopen
  rw [List.take_left' wrapNonce.2, List.drop_left' wrapNonce.2] at hplain
  have htranscript : hs.transcript = hs'.transcript := by
    by_contra hne
    rw [hC.decrypt_other key wrapNonce.1 bytes hs.transcript ciphertext key' wrapNonce.1 hs'.transcript hcipher
      (Ne.symm hne)] at hplain
    cases hplain
  refine ⟨hs, hs', hhs, hhs', htranscript, fun hshared => ?_⟩
  rw [← htranscript, ← hshared, hkey] at hkey'
  obtain rfl := Except.ok.inj hkey'
  rw [← htranscript, hC.decrypt_encrypt key wrapNonce.1 bytes hs.transcript ciphertext hcipher] at hplain
  obtain rfl := Option.some.inj hplain
  rw [PairingGrant.fromBytes, hC.grantOf_grantBytes grant bytes hbytes] at hfrom
  exact (Option.some.inj hfrom).symm

/-! ## One call on the open attempt -/

variable {r : PairingRegistry C} {n : PairingNode C} {a a' : Active C} {c : PairingCall C} {nowMs : Nat}

/-- The exchange of one side with the other. -/
def handshakeOf (C : Crypto) (own : Party) (ownSecret : C.Secret) (peer : Party) (group : GroupId16) : Handshake :=
  ⟨transcript PROTOCOL_VERSION own peer group, C.diffieHellman ownSecret peer.publicKey⟩

/-- The attempt an offer opens. -/
def offered (n : PairingNode C) (nowMs : Nat) (ownSecret : C.Secret) (nonce : Nonce) : Active C :=
  ⟨⟨n.device, n.group, nonce, some ownSecret, C.publicOf ownSecret, none, none, false, false, 0, false⟩, .initiator,
    nowMs, none, false, false⟩

/-- The attempt an accepted offer opens. -/
def accepted (n : PairingNode C) (offer : PairingOffer) (nowMs : Nat) (ownSecret : C.Secret) : Active C :=
  ⟨⟨n.device, offer.group, offer.nonce, none, C.publicOf ownSecret, some offer.device,
    some (handshakeOf C ⟨n.device, C.publicOf ownSecret⟩ ownSecret ⟨offer.device, offer.publicKey⟩ offer.group),
    false, false, 0, false⟩, .joiner, nowMs, some (C.publicOf ownSecret), false, false⟩

/-- An attempt that this device's human confirmed. -/
def Active.locallyConfirmed (a : Active C) (ownDevice : Bool) : Active C :=
  { a with session := { a.session with localConfirmed := true }, ownAnswer := ownDevice }

/-- An attempt that the peer's human confirmed. -/
def Active.remotelyConfirmed (a : Active C) (peerOwn : Bool) : Active C :=
  { a with session := { a.session with remoteConfirmed := true }, peerOwnAnswer := peerOwn }

/-- An initiator's attempt that a joiner reached. -/
def Active.completed (a : Active C) (ownSecret : C.Secret) (peer : Party) : Active C :=
  { a with
    session := { a.session with
      ownSecret := none
      peerDevice := some peer.device
      handshake := some (handshakeOf C ⟨a.session.ownDevice, a.session.ownPublic⟩ ownSecret peer a.session.group) } }

/-- What a call makes of the open attempt, unless it leaves it as it is or lets it go. -/
inductive Makes (n : PairingNode C) : PairingCall C → Active C → Prop
  | offered (endpoint : Text) (nowMs : Nat) (ownSecret : C.Secret) (nonce : Nonce) :
      Makes n (.offer endpoint nowMs ownSecret nonce) (offered n nowMs ownSecret nonce)
  | accepted (offer : PairingOffer) (nowMs : Nat) (ownSecret : C.Secret) :
      Makes n (.accept offer nowMs ownSecret) (accepted n offer nowMs ownSecret)
  | confirmed {a : Active C} {nowMs : Nat} (ownDevice : Bool) (hactive : n.pairing.active = some a)
      (hlive : a.expired nowMs = false) (hshaken : a.session.handshake.isSome = true) :
      Makes n (.confirm nowMs ownDevice) (a.locallyConfirmed ownDevice)
  | completed {a : Active C} {nowMs : Nat} {ownSecret : C.Secret} (peer : Party)
      (hactive : n.pairing.active = some a) (hlive : a.expired nowMs = false) (hrole : a.role = .initiator)
      (hsecret : a.session.ownSecret = some ownSecret) :
      Makes n (.complete peer.device peer.publicKey nowMs) (a.completed ownSecret peer)
  | remote {a : Active C} {nowMs : Nat} (peerOwn : Bool) (hactive : n.pairing.active = some a)
      (hlive : a.expired nowMs = false) (hshaken : a.session.handshake.isSome = true) :
      Makes n (.markRemote nowMs peerOwn) (a.remotelyConfirmed peerOwn)

theorem withActive_live (ha : r.active = some a) (hlive : a.expired nowMs = false)
    (step : Active C → Except PairingStateError α × PairingRegistry C) : r.withActive nowMs step = step a := by
  simp [PairingRegistry.withActive, ha, hlive]

theorem withActive_none (h : r.active = none) (nowMs : Nat)
    (step : Active C → Except PairingStateError α × PairingRegistry C) :
    r.withActive nowMs step = (.error .notActive, r) := by
  rw [PairingRegistry.withActive, h]

theorem active_withActive {step : Active C → Except PairingStateError α × PairingRegistry C}
    (h : (r.withActive nowMs step).2.active = some a') :
    ∃ a, r.active = some a ∧ a.expired nowMs = false ∧ (step a).2.active = some a' := by
  unfold PairingRegistry.withActive at h
  cases ha : r.active with
  | none => simp [ha] at h
  | some a =>
    rw [ha] at h
    by_cases hexpired : a.expired nowMs = true
    · simp [hexpired] at h
    · rw [Bool.not_eq_true] at hexpired
      refine ⟨a, rfl, hexpired, ?_⟩
      simpa [hexpired] using h

/-- A new attempt needs the one there is to be gone. -/
theorem ensureCapacity_cases (r : PairingRegistry C) (nowMs : Nat) :
    r.ensureCapacity nowMs = (.error .tooManyOpen, r) ∨
      r.ensureCapacity nowMs = (.ok (), { r with active := none }) := by
  unfold PairingRegistry.ensureCapacity
  cases ha : r.active with
  | none =>
    refine .inr (Prod.ext rfl ?_)
    cases r
    simp_all
  | some a =>
    by_cases hexpired : a.expired nowMs = true
    · exact .inr (by simp [hexpired])
    · exact .inl (by simp [hexpired])

/-- An offer is refused for the open attempt, or there is none and it opens its own. -/
theorem offer_cases (n : PairingNode C) (endpoint : Text) (nowMs : Nat) (ownSecret : C.Secret) (nonce : Nonce) :
    let r := (n.call (.offer endpoint nowMs ownSecret nonce)).pairing
    r.finalized = n.pairing.finalized ∧ (r = n.pairing ∨ r.active = none ∨
      r.active = some (offered n nowMs ownSecret nonce) ∧ n.pairing.nonces.issue nonce nowMs = (.ok (), r.nonces)) := by
  intro r
  have hr : r = (n.pairing.beginOffer n.device n.group endpoint nowMs ownSecret nonce).2 := rfl
  rw [PairingRegistry.beginOffer] at hr
  rcases ensureCapacity_cases n.pairing nowMs with hcap | hcap
  · rw [hcap] at hr
    rw [hr]
    exact ⟨rfl, .inl rfl⟩
  · rw [hcap] at hr
    dsimp only [PairingSession.offer] at hr
    cases hissue : n.pairing.nonces.issue nonce nowMs with
    | mk result nonces =>
      rw [hissue] at hr
      cases result with
      | error e =>
        rw [hr]
        exact ⟨rfl, .inr (.inl rfl)⟩
      | ok u =>
        rw [hr]
        exact ⟨rfl, .inr (.inr ⟨rfl, rfl⟩)⟩

/-- An accepted offer is refused for the open attempt, or there is none and it opens its own. -/
theorem accept_cases (n : PairingNode C) (offer : PairingOffer) (nowMs : Nat) (ownSecret : C.Secret) :
    let r := (n.call (.accept offer nowMs ownSecret)).pairing
    r.finalized = n.pairing.finalized ∧
      (r = n.pairing ∨ r.active = none ∨ r.active = some (accepted n offer nowMs ownSecret)) := by
  intro r
  have hr : r = (n.pairing.beginAccept n.device offer nowMs ownSecret).2 := rfl
  rw [PairingRegistry.beginAccept] at hr
  rcases ensureCapacity_cases n.pairing nowMs with hcap | hcap
  · rw [hcap] at hr
    rw [hr]
    exact ⟨rfl, .inl rfl⟩
  · rw [hcap] at hr
    dsimp only [PairingSession.accept] at hr
    cases hwitness : n.pairing.nonces.witness offer.nonce offer.issuedAtMs nowMs with
    | mk result nonces =>
      rw [hwitness] at hr
      cases result with
      | error e =>
        rw [hr]
        exact ⟨rfl, .inr (.inl rfl)⟩
      | ok u =>
        dsimp only at hr
        split at hr
        · rw [hr]
          exact ⟨rfl, .inr (.inl rfl)⟩
        · rw [hr]
          exact ⟨rfl, .inr (.inr rfl)⟩

theorem confirmLocal_ok (h : s.confirmLocal = .ok s') :
    s.handshake.isSome = true ∧ s' = { s with localConfirmed := true } := by
  unfold PairingSession.confirmLocal at h
  split_ifs at h with hclosed hnone
  exact ⟨Option.isSome_iff_ne_none.2 (by simpa using hnone), (Except.ok.inj h).symm⟩

theorem confirmRemote_ok (h : s.confirmRemote = .ok s') :
    s.handshake.isSome = true ∧ s' = { s with remoteConfirmed := true } := by
  unfold PairingSession.confirmRemote at h
  split_ifs at h with hclosed hnone
  exact ⟨Option.isSome_iff_ne_none.2 (by simpa using hnone), (Except.ok.inj h).symm⟩

theorem complete_ok {registry nonces : NonceRegistry} (peer : Party)
    (h : s.complete peer.device peer.publicKey nowMs registry = (.ok s', nonces)) :
    ∃ ownSecret, s.ownSecret = some ownSecret ∧
      s' = { s with
        ownSecret := none
        peerDevice := some peer.device
        handshake := some (handshakeOf C ⟨s.ownDevice, s.ownPublic⟩ ownSecret peer s.group) } := by
  unfold PairingSession.complete at h
  split_ifs at h with hclosed
  · simp at h
  · cases hconsume : registry.consume s.nonce nowMs with
    | mk result nonces' =>
      rw [hconsume] at h
      cases result with
      | error e => simp at h
      | ok u =>
        cases hsecret : s.ownSecret with
        | none => simp [hsecret] at h
        | some ownSecret =>
          rw [hsecret] at h
          exact ⟨ownSecret, rfl, (Except.ok.inj (Prod.mk.inj h).1).symm⟩

/-! ### The last step of either side -/

variable {keyStore : KeyStore} {staticPublic drawn : Key32} {epoch : Nat}

/-- The initiator's last step seals a grant and closes the attempt, or leaves the last grant as it is. -/
theorem finalize_cases (r : PairingRegistry C) (keyStore : KeyStore) (staticPublic : Key32) (epoch nowMs : Nat)
    (drawn : Key32) (wrapNonce : WrapNonce) :
    let out := r.tryFinalizeInitiator keyStore staticPublic epoch nowMs drawn wrapNonce
    ((∀ g, out.1 ≠ .ok (some g)) ∧ out.2.1.finalized = r.finalized ∧ out.2.1.nonces = r.nonces ∧
        (out.2.1.active = r.active ∨ out.2.1.active = none)) ∨
      ∃ a groupKey sealed, r.active = some a ∧ a.expired nowMs = false ∧ a.role = .initiator ∧
        a.session.wrapGrant (PairingRegistry.grantOf a groupKey staticPublic epoch) wrapNonce = .ok sealed ∧
        (fetchOrMintGroupKey keyStore epoch drawn).1 = .ok groupKey ∧
        out = (.ok (some (sealed, a.ownAnswer && a.peerOwnAnswer)),
          { r with
            finalized := a.session.peerDevice.map fun device =>
              ⟨device, a.session.nonce, sealed, a.ownAnswer && a.peerOwnAnswer⟩
            active := none }, (fetchOrMintGroupKey keyStore epoch drawn).2) := by
  intro out
  have hout : out = r.tryFinalizeInitiator keyStore staticPublic epoch nowMs drawn wrapNonce := rfl
  unfold PairingRegistry.tryFinalizeInitiator at hout
  cases ha : r.active with
  | none =>
    rw [ha] at hout
    rw [hout]
    exact .inl ⟨by simp, rfl, rfl, .inl ha⟩
  | some a =>
    rw [ha] at hout
    by_cases hexpired : a.expired nowMs = true
    · simp only [hexpired, if_true] at hout
      rw [hout]
      exact .inl ⟨by simp, rfl, rfl, .inr rfl⟩
    rw [Bool.not_eq_true] at hexpired
    simp only [hexpired, Bool.false_eq_true, if_false] at hout
    by_cases hwait : (decide (a.role ≠ .initiator) || !a.session.isReadyToSendKey) = true
    · rw [if_pos hwait] at hout
      rw [hout]
      exact .inl ⟨by simp, rfl, rfl, .inl ha⟩
    rw [if_neg hwait] at hout
    have hrole : a.role = .initiator := by
      by_contra hrole
      exact hwait (by simp [hrole])
    cases hfetch : fetchOrMintGroupKey keyStore epoch drawn with
    | mk result keys =>
      rw [hfetch] at hout
      cases result with
      | error e =>
        rw [hout]
        exact .inl ⟨by simp, rfl, rfl, .inl ha⟩
      | ok groupKey =>
        dsimp only at hout
        cases hwrap : a.session.wrapGrant (PairingRegistry.grantOf a groupKey staticPublic epoch) wrapNonce with
        | error e =>
          rw [hwrap] at hout
          rw [hout]
          exact .inl ⟨by simp, rfl, rfl, .inl ha⟩
        | ok sealed =>
          rw [hwrap] at hout
          exact .inr ⟨a, groupKey, sealed, rfl, hexpired, hrole, hwrap, rfl, hout⟩

theorem active_finalize {drawn : Key32} (h : (n.call (.finalize nowMs drawn wrapNonce)).pairing.active = some a') :
    n.pairing.active = some a' := by
  have hactive : (n.pairing.tryFinalizeInitiator n.keyStore n.staticPublic n.groupEpoch nowMs drawn
      wrapNonce).2.1.active = some a' := h
  rcases finalize_cases n.pairing n.keyStore n.staticPublic n.groupEpoch nowMs drawn wrapNonce with
    ⟨-, -, -, hsame | hnone⟩ | ⟨a, groupKey, sealed, -, -, -, -, -, hout⟩
  · rwa [hsame] at hactive
  · rw [hnone] at hactive
    cases hactive
  · rw [hout] at hactive
    cases hactive

/-- What a call that seals a grant finds and leaves. -/
theorem sealing_spec {σ : Sealing C} (h : n.sealing? c = some σ) :
    σ.device = n.device ∧ n.pairing.active = some σ.active ∧ σ.active.role = .initiator ∧
      (n.call c).pairing.active = none ∧
      (∃ both, (n.call c).pairing.finalized =
        σ.active.session.peerDevice.map fun device => ⟨device, σ.active.session.nonce, σ.sealed, both⟩) ∧
      ∃ nowMs drawn wrapNonce groupKey, c = .finalize nowMs drawn wrapNonce ∧ σ.active.expired nowMs = false ∧
        σ.grant = PairingRegistry.grantOf σ.active groupKey n.staticPublic n.groupEpoch ∧
        σ.active.session.wrapGrant σ.grant wrapNonce = .ok σ.sealed := by
  cases c with
  | finalize nowMs drawn wrapNonce =>
    simp only [PairingNode.sealing?] at h
    have hcall : (n.call (.finalize nowMs drawn wrapNonce)).pairing =
        (n.pairing.tryFinalizeInitiator n.keyStore n.staticPublic n.groupEpoch nowMs drawn wrapNonce).2.1 := rfl
    rcases finalize_cases n.pairing n.keyStore n.staticPublic n.groupEpoch nowMs drawn wrapNonce with
      ⟨hnone, -⟩ | ⟨a, groupKey, sealed, ha, hlive, hrole, hwrap, hfetch, hout⟩
    · split at h
      · rename_i hresult
        exact absurd hresult (hnone _)
      · cases h
    · rw [ha, hfetch, hout] at h
      obtain rfl := Option.some.inj h
      rw [hout] at hcall
      exact ⟨rfl, ha, hrole, by rw [hcall], ⟨_, by rw [hcall]⟩, nowMs, drawn, wrapNonce, groupKey, rfl, hlive, rfl,
        hwrap⟩
  | _ => simp [PairingNode.sealing?] at h

/-- A joiner's last step where the grant opens. -/
theorem adopt_live {peer : DeviceId16} (ha : n.pairing.active = some a) (hlive : a.expired nowMs = false)
    (hrole : a.role = .joiner) (hopen : a.session.unwrapGrant sealed = .ok grant)
    (hpeer : a.session.peerDevice = some peer) (group : GroupId16) :
    n.pairing.previewGroupKey sealed nowMs =
        (.ok ⟨grant.groupKey, grant.epoch, peer, grant.staticPublic, grant.ownDevice && a.ownAnswer⟩, n.pairing) ∧
      n.adoptGroupKey group sealed nowMs = (.ok (),
        { n with
          pairing := { n.pairing with active := none }
          keyStore := Function.update n.keyStore grant.epoch (some grant.groupKey.1)
          group := group
          groupEpoch := grant.epoch
          devices := Function.update n.devices peer
            (some ⟨grant.staticPublic, nowMs, grant.epoch, grant.ownDevice && a.ownAnswer⟩) }) := by
  obtain ⟨-, -, -, -, -, -, -, hready⟩ := unwrapGrant_ok hopen
  have hpreview : n.pairing.previewGroupKey sealed nowMs =
      (.ok ⟨grant.groupKey, grant.epoch, peer, grant.staticPublic, grant.ownDevice && a.ownAnswer⟩, n.pairing) := by
    rw [PairingRegistry.previewGroupKey, withActive_live ha hlive, if_neg (not_not.2 hrole),
      if_neg (by simp [hready]), hopen]
    dsimp only
    rw [hpeer]
  refine ⟨hpreview, ?_⟩
  simp only [PairingNode.adoptGroupKey, hpreview, PairingRegistry.commitGroupKey, ha, hlive, Bool.false_eq_true,
    if_false]

/-- A joiner's last step files what its attempt opens and closes the attempt, or leaves both. -/
theorem adopt_cases (n : PairingNode C) (group : GroupId16) (sealed : List UInt8) (nowMs : Nat) :
    ((∀ u, (n.adoptGroupKey group sealed nowMs).1 ≠ .ok u) ∧
        ((n.adoptGroupKey group sealed nowMs).2 = n ∨
          (n.adoptGroupKey group sealed nowMs).2 = { n with pairing := { n.pairing with active := none } })) ∨
      ∃ a grant peer, n.pairing.active = some a ∧ a.expired nowMs = false ∧ a.role = .joiner ∧
        a.session.unwrapGrant sealed = .ok grant ∧ a.session.peerDevice = some peer ∧
        n.pairing.previewGroupKey sealed nowMs =
          (.ok ⟨grant.groupKey, grant.epoch, peer, grant.staticPublic, grant.ownDevice && a.ownAnswer⟩, n.pairing) ∧
        n.adoptGroupKey group sealed nowMs = (.ok (),
          { n with
            pairing := { n.pairing with active := none }
            keyStore := Function.update n.keyStore grant.epoch (some grant.groupKey.1)
            group := group
            groupEpoch := grant.epoch
            devices := Function.update n.devices peer
              (some ⟨grant.staticPublic, nowMs, grant.epoch, grant.ownDevice && a.ownAnswer⟩) }) := by
  cases ha : n.pairing.active with
  | none =>
    have hpreview : n.pairing.previewGroupKey sealed nowMs = (.error .notActive, n.pairing) := withActive_none ha ..
    refine .inl ?_
    rw [PairingNode.adoptGroupKey, hpreview]
    exact ⟨by simp, .inl rfl⟩
  | some a =>
    by_cases hexpired : a.expired nowMs = true
    · have hpreview : n.pairing.previewGroupKey sealed nowMs =
          (.error .windowExpired, { n.pairing with active := none }) := by
        simp only [PairingRegistry.previewGroupKey, PairingRegistry.withActive, ha, hexpired, if_true]
      refine .inl ?_
      rw [PairingNode.adoptGroupKey, hpreview]
      exact ⟨by simp, .inr rfl⟩
    rw [Bool.not_eq_true] at hexpired
    have hrefused : ∀ e, n.pairing.previewGroupKey sealed nowMs = (.error e, n.pairing) →
        (∀ u, (n.adoptGroupKey group sealed nowMs).1 ≠ .ok u) ∧ (n.adoptGroupKey group sealed nowMs).2 = n := by
      intro e he
      rw [PairingNode.adoptGroupKey, he]
      exact ⟨by simp, rfl⟩
    by_cases hrole : a.role = .joiner
    · by_cases hready : a.session.isReadyToSendKey = true
      · have hready' : ¬(!a.session.isReadyToSendKey) = true := by simp [hready]
        cases hopen : a.session.unwrapGrant sealed with
        | error e =>
          obtain ⟨herr, hsame⟩ := hrefused (.session e) <| by
            rw [PairingRegistry.previewGroupKey, withActive_live ha hexpired, if_neg (not_not.2 hrole), if_neg hready',
              hopen]
          exact .inl ⟨herr, .inl hsame⟩
        | ok grant =>
          cases hpeer : a.session.peerDevice with
          | none =>
            obtain ⟨herr, hsame⟩ := hrefused .notActive <| by
              rw [PairingRegistry.previewGroupKey, withActive_live ha hexpired, if_neg (not_not.2 hrole),
                if_neg hready', hopen]
              dsimp only
              rw [hpeer]
            exact .inl ⟨herr, .inl hsame⟩
          | some peer =>
            obtain ⟨hpreview, hadopt⟩ := adopt_live ha hexpired hrole hopen hpeer group
            exact .inr ⟨a, grant, peer, rfl, hexpired, hrole, hopen, hpeer, hpreview, hadopt⟩
      · obtain ⟨herr, hsame⟩ := hrefused (.session .notConfirmed) <| by
          rw [PairingRegistry.previewGroupKey, withActive_live ha hexpired, if_neg (not_not.2 hrole),
            if_pos (by simp [hready])]
        exact .inl ⟨herr, .inl hsame⟩
    · obtain ⟨herr, hsame⟩ := hrefused .wrongRole <| by
        rw [PairingRegistry.previewGroupKey, withActive_live ha hexpired, if_pos hrole]
      exact .inl ⟨herr, .inl hsame⟩

theorem active_adopt (h : (n.call (.adopt group sealed nowMs)).pairing.active = some a') :
    n.pairing.active = some a' := by
  have hactive : (n.adoptGroupKey group sealed nowMs).2.pairing.active = some a' := h
  rcases adopt_cases n group sealed nowMs with ⟨-, hsame | hnone⟩ | ⟨a, grant, peer, -, -, -, -, -, -, hout⟩
  · rwa [hsame] at hactive
  · rw [hnone] at hactive
    cases hactive
  · rw [hout] at hactive
    cases hactive

/-- What a call that adopts a grant finds and leaves. -/
theorem adoption_spec {b : Adoption C} (h : n.adoption? c = some b) :
    b.device = n.device ∧ n.pairing.active = some b.active ∧ b.active.role = .joiner ∧
      (n.call c).pairing.active = none ∧
      ∃ group nowMs grant peer, c = .adopt group b.sealed nowMs ∧ b.active.session.unwrapGrant b.sealed = .ok grant ∧
        b.active.session.peerDevice = some peer ∧
        b.grant = ⟨grant.groupKey, grant.epoch, peer, grant.staticPublic, grant.ownDevice && b.active.ownAnswer⟩ := by
  cases c with
  | adopt group sealed nowMs =>
    simp only [PairingNode.adoption?] at h
    have hcall : n.call (.adopt group sealed nowMs) = (n.adoptGroupKey group sealed nowMs).2 := rfl
    rcases adopt_cases n group sealed nowMs with
      ⟨hnone, -⟩ | ⟨a, grant, peer, ha, hlive, hrole, hopen, hpeer, hpreview, hout⟩
    · split at h
      · rename_i hresult
        exact absurd hresult (hnone _)
      · cases h
    · rw [ha, hpreview, hout] at h
      obtain rfl := Option.some.inj h
      rw [hout] at hcall
      exact ⟨rfl, ha, hrole, by rw [hcall], group, nowMs, grant, peer, rfl, hopen, hpeer, rfl⟩
  | _ => simp [PairingNode.adoption?] at h

/-- A joiner reaches an attempt of an initiator that has its secret. -/
theorem completeAsInitiator_ok (peer : Party)
    (h : r.completeAsInitiator peer.device peer.publicKey nowMs = (.ok (), r')) :
    ∃ a ownSecret, r.active = some a ∧ a.expired nowMs = false ∧ a.role = .initiator ∧
      a.session.ownSecret = some ownSecret ∧ r'.active = some (a.completed ownSecret peer) := by
  unfold PairingRegistry.completeAsInitiator PairingRegistry.withActive at h
  cases ha : r.active with
  | none => simp [ha] at h
  | some a =>
    rw [ha] at h
    dsimp only at h
    split_ifs at h with hexpired hrole
    · simp at h
    · simp at h
    · cases hcomplete : a.session.complete peer.device peer.publicKey nowMs r.nonces with
      | mk result nonces =>
        rw [hcomplete] at h
        cases result with
        | error e => simp at h
        | ok session =>
          obtain ⟨ownSecret, hsecret, rfl⟩ := complete_ok peer hcomplete
          refine ⟨a, ownSecret, rfl, by simpa using hexpired, not_not.1 hrole, hsecret, ?_⟩
          rw [← (Prod.mk.inj h).2]
          rfl

/-- What a call makes of the open attempt. -/
theorem active_call (h : (n.call c).pairing.active = some a') : n.pairing.active = some a' ∨ Makes n c a' := by
  cases c with
  | offer endpoint nowMs ownSecret nonce =>
    rcases (offer_cases n endpoint nowMs ownSecret nonce).2 with hsame | hnone | ⟨hnew, -⟩
    · rw [hsame] at h
      exact .inl h
    · rw [hnone] at h
      cases h
    · rw [hnew] at h
      rw [← Option.some.inj h]
      exact .inr (.offered endpoint nowMs ownSecret nonce)
  | accept offer nowMs ownSecret =>
    rcases (accept_cases n offer nowMs ownSecret).2 with hsame | hnone | hnew
    · rw [hsame] at h
      exact .inl h
    · rw [hnone] at h
      cases h
    · rw [hnew] at h
      rw [← Option.some.inj h]
      exact .inr (.accepted offer nowMs ownSecret)
  | confirm nowMs ownDevice =>
    obtain ⟨a, ha, hlive, h⟩ := active_withActive h
    cases hconfirm : a.session.confirmLocal with
    | error e =>
      rw [hconfirm] at h
      exact .inl h
    | ok session =>
      obtain ⟨hshaken, rfl⟩ := confirmLocal_ok hconfirm
      rw [hconfirm] at h
      have heq : a' = a.locallyConfirmed ownDevice := by
        dsimp only at h
        split at h
        · exact (Option.some.inj h).symm
        · exact (Option.some.inj h).symm
      rw [heq]
      exact .inr (.confirmed ownDevice ha hlive hshaken)
  | complete peerDevice peerPublic nowMs =>
    obtain ⟨a, ha, hlive, h⟩ := active_withActive h
    by_cases hrole : a.role = .initiator
    · rw [if_neg (not_not.2 hrole)] at h
      cases hcomplete : a.session.complete peerDevice peerPublic nowMs n.pairing.nonces with
      | mk result nonces =>
        rw [hcomplete] at h
        cases result with
        | error e => exact .inl h
        | ok session =>
          obtain ⟨ownSecret, hsecret, rfl⟩ := complete_ok ⟨peerDevice, peerPublic⟩ hcomplete
          rw [← Option.some.inj h]
          exact .inr (.completed ⟨peerDevice, peerPublic⟩ ha hlive hrole hsecret)
    · rw [if_pos hrole] at h
      exact .inl h
  | markRemote nowMs peerOwn =>
    obtain ⟨a, ha, hlive, h⟩ := active_withActive h
    cases hconfirm : a.session.confirmRemote with
    | error e =>
      rw [hconfirm] at h
      exact .inl h
    | ok session =>
      obtain ⟨hshaken, rfl⟩ := confirmRemote_ok hconfirm
      rw [hconfirm] at h
      rw [← Option.some.inj h]
      exact .inr (.remote peerOwn ha hlive hshaken)
  | finalize nowMs drawn wrapNonce =>
    exact .inl (active_finalize h)
  | adopt group sealed nowMs => exact .inl (active_adopt h)
  | look nowMs =>
    obtain ⟨a, ha, -, h⟩ := active_withActive h
    exact .inl h
  | register device staticPublic nowMs own => exact .inl h
  | rekey epoch keyStore => exact .inl h

/-! ## What an attempt holds -/

/-- An attempt of `device`: its secret is of its own key, its exchange is with the peer it names, and it is open. -/
structure Active.Sound (a : Active C) (device : DeviceId16) : Prop where
  own : a.session.ownDevice = device
  secret : ∀ ownSecret, a.session.ownSecret = some ownSecret → C.publicOf ownSecret = a.session.ownPublic
  exchange : ∀ hs, a.session.handshake = some hs → ∃ ownSecret peer,
    C.publicOf ownSecret = a.session.ownPublic ∧ a.session.peerDevice = some peer.device ∧
      hs = handshakeOf C ⟨device, a.session.ownPublic⟩ ownSecret peer a.session.group
  opened : a.session.closed = false

theorem Makes.sound (h : Makes n c a') (hn : ∀ a, n.pairing.active = some a → a.Sound n.device) :
    a'.Sound n.device := by
  cases h with
  | offered endpoint nowMs ownSecret nonce =>
    refine ⟨rfl, fun secret hsecret => ?_, fun hs hhs => ?_, rfl⟩
    · rw [← Option.some.inj hsecret]
      rfl
    · cases hhs
  | accepted offer nowMs ownSecret =>
    refine ⟨rfl, fun secret hsecret => ?_, fun hs hhs => ?_, rfl⟩
    · cases hsecret
    · exact ⟨ownSecret, ⟨offer.device, offer.publicKey⟩, rfl, rfl, (Option.some.inj hhs).symm⟩
  | confirmed ownDevice hactive hlive hshaken =>
    obtain ⟨hown, hsecret, hexchange, hopened⟩ := hn _ hactive
    exact ⟨hown, hsecret, hexchange, hopened⟩
  | completed peer hactive hlive hrole hsecret =>
    obtain ⟨hown, hsecrets, -, hopened⟩ := hn _ hactive
    refine ⟨hown, fun secret hsecret => ?_, fun hs hhs => ?_, hopened⟩
    · cases hsecret
    · refine ⟨_, peer, hsecrets _ hsecret, rfl, ?_⟩
      rw [← Option.some.inj hhs, hown]
      rfl
  | remote peerOwn hactive hlive hshaken =>
    obtain ⟨hown, hsecret, hexchange, hopened⟩ := hn _ hactive
    exact ⟨hown, hsecret, hexchange, hopened⟩

/-- The key of an attempt was there, or it was drawn for it. -/
theorem Makes.ownPublic (h : Makes n c a') :
    (∃ a, n.pairing.active = some a ∧ a'.session.ownPublic = a.session.ownPublic) ∨
      ∃ ownSecret, c.draws = some ownSecret ∧ a'.session.ownPublic = C.publicOf ownSecret := by
  cases h with
  | offered endpoint nowMs ownSecret nonce => exact .inr ⟨ownSecret, rfl, rfl⟩
  | accepted offer nowMs ownSecret => exact .inr ⟨ownSecret, rfl, rfl⟩
  | confirmed ownDevice hactive hlive hshaken => exact .inl ⟨_, hactive, rfl⟩
  | completed peer hactive hlive hrole hsecret => exact .inl ⟨_, hactive, rfl⟩
  | remote peerOwn hactive hlive hshaken => exact .inl ⟨_, hactive, rfl⟩

/-! ## A grant that is adopted -/

/-- The ephemeral key a grant was sealed with. -/
def Sealing.ownPublic (σ : Sealing C) : Key32 := σ.active.session.ownPublic

/-- The ephemeral key a grant was opened with. -/
def Adoption.ownPublic (b : Adoption C) : Key32 := b.active.session.ownPublic

/-- A grant as its daemon sealed it. -/
structure Sealing.Sound (σ : Sealing C) : Prop where
  attempt : σ.active.Sound σ.device
  answer : σ.grant.ownDevice = σ.active.ownAnswer
  sealed : ∃ wrapNonce, σ.active.session.wrapGrant σ.grant wrapNonce = .ok σ.sealed

/-- A grant as its joiner opened it. -/
structure Adoption.Sound (b : Adoption C) : Prop where
  attempt : b.active.Sound b.device
  opens : ∃ grant peer, b.active.session.unwrapGrant b.sealed = .ok grant ∧ b.active.session.peerDevice = some peer ∧
    b.grant = ⟨grant.groupKey, grant.epoch, peer, grant.staticPublic, grant.ownDevice && b.active.ownAnswer⟩

/-- One exchange, in which each side is the other's peer, and the key, its epoch and what goes with them are what was
sealed; both humans confirmed, and the words shown to them were the same. -/
structure Agrees (σ : Sealing C) (b : Adoption C) : Prop where
  exchange : ∃ ownSecret, σ.active.session.handshake =
    some (handshakeOf C ⟨σ.device, σ.ownPublic⟩ ownSecret ⟨b.device, b.ownPublic⟩ σ.active.session.group)
  same : b.active.session.handshake = σ.active.session.handshake
  group : b.active.session.group = σ.active.session.group
  peers : b.grant.peer = σ.device ∧ σ.active.session.peerDevice = some b.device
  groupKey : b.grant.groupKey = σ.grant.groupKey ∧ b.grant.epoch = σ.grant.epoch
  staticPublic : b.grant.peerStatic = σ.grant.staticPublic
  words : b.active.session.words = σ.active.session.words
  confirmed : σ.active.session.localConfirmed = true ∧ b.active.session.localConfirmed = true
  own : b.grant.own = (σ.active.ownAnswer && b.active.ownAnswer)
  sealed : b.sealed = σ.sealed

variable {σ τ : Sealing C} {b b' : Adoption C}

/-- What opens in an attempt was sealed for it. -/
theorem Sealing.Sound.agrees (hC : C.Lawful) (hσ : σ.Sound) (hb : b.Sound) (hsealed : b.sealed = σ.sealed)
    (hne : σ.ownPublic ≠ b.ownPublic) : Agrees σ b := by
  obtain ⟨wrapNonce, hwrap⟩ := hσ.sealed
  obtain ⟨grant, peer, hopen, hpeer, hgrant⟩ := hb.opens
  rw [hsealed] at hopen
  obtain ⟨hs, hs', hhs, hhs', htranscript, hsame⟩ := unwrapGrant_of_wrapGrant hC hwrap hopen
  obtain ⟨secret, peer₁, hsecret, hpeer₁, rfl⟩ := hσ.attempt.exchange hs hhs
  obtain ⟨secret', peer₂, hsecret', hpeer₂, rfl⟩ := hb.attempt.exchange hs' hhs'
  obtain ⟨hgroup, hsides⟩ := (transcript_eq_iff PROTOCOL_VERSION).1 htranscript
  rcases hsides with ⟨hown, -⟩ | ⟨-, hown, hother⟩
  · exact absurd (congrArg Party.publicKey hown) hne
  subst hown hother
  have hshared : C.diffieHellman secret b.active.session.ownPublic =
      C.diffieHellman secret' σ.active.session.ownPublic := by
    rw [← hsecret', ← hsecret]
    exact hC.diffieHellman_comm secret secret'
  obtain rfl := hsame hshared
  have hhandshake : b.active.session.handshake = σ.active.session.handshake := by
    rw [hhs', hhs]
    exact congrArg some (by rw [Handshake.mk.injEq]; exact ⟨htranscript.symm, hshared.symm⟩)
  obtain ⟨-, -, -, -, -, -, -, -, -, hready⟩ := wrapGrant_ok hwrap
  obtain ⟨-, -, -, -, -, -, -, hready'⟩ := unwrapGrant_ok hopen
  rw [hpeer] at hpeer₂
  refine ⟨⟨secret, hhs⟩, hhandshake, hgroup.symm, ⟨?_, hpeer₁⟩, ?_, ?_, ?_, ?_, ?_, hsealed⟩
  · rw [hgrant]
    exact Option.some.inj hpeer₂
  · rw [hgrant]
    exact ⟨rfl, rfl⟩
  · rw [hgrant]
  · simp only [PairingSession.words, hσ.attempt.opened, hb.attempt.opened, hhandshake]
  · exact ⟨(isReadyToSendKey_iff.1 hready).1, (isReadyToSendKey_iff.1 hready').1⟩
  · rw [hgrant, hσ.answer]

/-- A grant is for one attempt only. -/
theorem Agrees.ownPublic_eq (h : Agrees σ b) (h' : Agrees σ b') (hne : σ.ownPublic ≠ b'.ownPublic) :
    b.ownPublic = b'.ownPublic := by
  obtain ⟨secret, hs⟩ := h.exchange
  obtain ⟨secret', hs'⟩ := h'.exchange
  rw [hs] at hs'
  have htranscript := congrArg Handshake.transcript (Option.some.inj hs')
  obtain ⟨-, ⟨-, hpeer⟩ | ⟨-, hown, -⟩⟩ := (transcript_eq_iff PROTOCOL_VERSION).1 htranscript
  · exact congrArg Party.publicKey hpeer
  · exact absurd (congrArg Party.publicKey hown) hne

/-! ## Every order of calls -/

namespace World

variable {w : World C} {d d' : DeviceId16}

/-- The ephemeral keys of the attempts that came to an end with a grant. -/
def spent (w : World C) : List Key32 := w.sealings.map Sealing.ownPublic ++ w.adoptions.map Adoption.ownPublic

/-- What holds of all daemons in every order of calls. -/
structure Inv (w : World C) : Prop where
  device : ∀ d, (w.nodes d).device = d
  sound : ∀ d a, (w.nodes d).pairing.active = some a → a.Sound d
  drawn : ∀ d a, (w.nodes d).pairing.active = some a → a.session.ownPublic ∈ w.drawn ∧ a.session.ownPublic ∉ w.spent
  distinct : ∀ d d' a a', (w.nodes d).pairing.active = some a → (w.nodes d').pairing.active = some a' →
    a.session.ownPublic = a'.session.ownPublic → d = d'
  spent_drawn : w.spent ⊆ w.drawn
  spent_nodup : w.spent.Nodup
  sealings : ∀ σ ∈ w.sealings, σ.Sound
  adoptions : ∀ b ∈ w.adoptions, b.Sound ∧ ∃ σ ∈ w.sealings, Agrees σ b

theorem Inv.start {nodes : DeviceId16 → PairingNode C} (hdevice : ∀ d, (nodes d).device = d)
    (hnew : ∀ d, (nodes d).pairing = .new) : Inv (⟨nodes, [], [], []⟩ : World C) := by
  have hnone : ∀ d, (nodes d).pairing.active = none := fun d => by rw [hnew]; rfl
  refine ⟨hdevice, ?_, ?_, ?_, by simp [spent], by simp [spent], by simp, by simp⟩
  · intro d a ha
    rw [hnone] at ha
    cases ha
  · intro d a ha
    rw [hnone] at ha
    cases ha
  · intro d d' a a' ha
    rw [hnone] at ha
    cases ha

theorem call_device (n : PairingNode C) (c : PairingCall C) : (n.call c).device = n.device := by
  cases c with
  | adopt group sealed nowMs =>
    show (n.adoptGroupKey group sealed nowMs).2.device = n.device
    rcases adopt_cases n group sealed nowMs with ⟨-, hsame | hnone⟩ | ⟨a, grant, peer, -, -, -, -, -, -, hout⟩
    · rw [hsame]
    · rw [hnone]
    · rw [hout]
  | _ => rfl

theorem device_step (w : World C) (d : DeviceId16) (c : PairingCall C) (d' : DeviceId16) :
    ((w.step d c).nodes d').device = (w.nodes d').device := by
  show (Function.update w.nodes d ((w.nodes d).call c) d').device = (w.nodes d').device
  by_cases hd : d' = d
  · rw [hd, Function.update_self, call_device]
  · rw [Function.update_of_ne hd]

/-- An attempt that is open after a call. -/
theorem active_step (h : ((w.step d c).nodes d').pairing.active = some a') :
    (w.nodes d').pairing.active = some a' ∨ d' = d ∧ Makes (w.nodes d) c a' := by
  have hnodes : (w.step d c).nodes d' = Function.update w.nodes d ((w.nodes d).call c) d' := rfl
  rw [hnodes] at h
  by_cases hd : d' = d
  · subst hd
    rw [Function.update_self] at h
    rcases active_call h with h | h
    · exact .inl h
    · exact .inr ⟨rfl, h⟩
  · rw [Function.update_of_ne hd] at h
    exact .inl h

/-- Its key was there before, or it is new. -/
theorem ownPublic_step (h : ((w.step d c).nodes d').pairing.active = some a') :
    (∃ a, (w.nodes d').pairing.active = some a ∧ a'.session.ownPublic = a.session.ownPublic) ∨
      d' = d ∧ ∃ ownSecret, c.draws = some ownSecret ∧ a'.session.ownPublic = C.publicOf ownSecret := by
  rcases active_step h with h | ⟨rfl, h⟩
  · exact .inl ⟨a', h, rfl⟩
  · rcases h.ownPublic with h | h
    · exact .inl h
    · exact .inr ⟨rfl, h⟩

/-- What a call spends is the key of an attempt it closes. -/
theorem spent_step (w : World C) (d : DeviceId16) (c : PairingCall C) :
    (w.step d c).spent = w.spent ∨ ∃ a, (w.nodes d).pairing.active = some a ∧
      ((w.step d c).nodes d).pairing.active = none ∧ (w.step d c).spent.Perm (a.session.ownPublic :: w.spent) := by
  have hnode : (w.step d c).nodes d = (w.nodes d).call c := Function.update_self ..
  rw [hnode]
  cases hσ : (w.nodes d).sealing? c with
  | some σ =>
    obtain ⟨-, hactive, -, hnone, -, nowMs, drawn, wrapNonce, -, rfl, -⟩ := sealing_spec hσ
    refine .inr ⟨σ.active, hactive, hnone, ?_⟩
    simp only [spent, step, hσ, PairingNode.adoption?, Option.toList_some, Option.toList_none, List.nil_append,
      List.map_cons, List.cons_append]
    exact .refl _
  | none =>
    cases hb : (w.nodes d).adoption? c with
    | some b =>
      obtain ⟨-, hactive, -, hnone, -⟩ := adoption_spec hb
      refine .inr ⟨b.active, hactive, hnone, ?_⟩
      simp only [spent, step, hσ, hb, Option.toList_some, Option.toList_none, List.nil_append, List.singleton_append,
        List.map_cons]
      exact List.perm_middle
    | none =>
      refine .inl ?_
      simp only [spent, step, hσ, hb, Option.toList_none, List.nil_append]

theorem Inv.step (hC : C.Lawful) (h : w.Inv) (d : DeviceId16) (c : PairingCall C)
    (hfresh : ∀ ownSecret, c.draws = some ownSecret → C.publicOf ownSecret ∉ w.drawn)
    (hsent : ∀ group sealed nowMs, c = .adopt group sealed nowMs → ∃ s ∈ w.sealings, s.sealed = sealed) :
    (w.step d c).Inv := by
  have hdrawn : ∀ key ∈ w.drawn, key ∈ (w.step d c).drawn := fun key hkey => List.mem_append_right _ hkey
  have hspent := spent_step w d c
  have hspentDrawn : (w.step d c).spent ⊆ w.drawn := by
    rcases hspent with hsame | ⟨a, ha, -, hperm⟩
    · rw [hsame]
      exact h.spent_drawn
    · intro key hkey
      rcases List.mem_cons.1 (hperm.mem_iff.1 hkey) with rfl | hkey
      · exact (h.drawn d a ha).1
      · exact h.spent_drawn hkey
  refine ⟨?_, ?_, ?_, ?_, fun key hkey => hdrawn key (hspentDrawn hkey), ?_, ?_, ?_⟩
  · intro d'
    rw [device_step, h.device]
  · intro d' a' ha'
    rcases active_step ha' with ha | ⟨rfl, hmakes⟩
    · exact h.sound d' a' ha
    · have hsound := hmakes.sound fun a ha => by
        rw [h.device]
        exact h.sound _ a ha
      rwa [h.device] at hsound
  · intro d' a' ha'
    rcases ownPublic_step ha' with ⟨a, ha, hkey⟩ | ⟨rfl, ownSecret, hdraws, hkey⟩
    · rw [hkey]
      refine ⟨hdrawn _ (h.drawn d' a ha).1, fun hmem => ?_⟩
      rcases hspent with hsame | ⟨x, hx, hnone, hperm⟩
      · rw [hsame] at hmem
        exact (h.drawn d' a ha).2 hmem
      · rcases List.mem_cons.1 (hperm.mem_iff.1 hmem) with heq | hmem
        · obtain rfl := h.distinct d' d a x ha hx heq
          rw [hnone] at ha'
          cases ha'
        · exact (h.drawn d' a ha).2 hmem
    · rw [hkey]
      refine ⟨List.mem_append_left _ ?_, fun hmem => hfresh ownSecret hdraws (hspentDrawn hmem)⟩
      rw [hdraws]
      exact List.mem_singleton_self _
  · intro d₁ d₂ a₁ a₂ h₁ h₂ heq
    rcases ownPublic_step h₁ with ⟨x₁, hx₁, hkey₁⟩ | ⟨rfl, secret₁, hdraws₁, hkey₁⟩
    · rcases ownPublic_step h₂ with ⟨x₂, hx₂, hkey₂⟩ | ⟨rfl, secret₂, hdraws₂, hkey₂⟩
      · exact h.distinct d₁ d₂ x₁ x₂ hx₁ hx₂ (by rw [← hkey₁, ← hkey₂, heq])
      · refine absurd (h.drawn d₁ x₁ hx₁).1 ?_
        rw [← hkey₁, heq, hkey₂]
        exact hfresh secret₂ hdraws₂
    · rcases ownPublic_step h₂ with ⟨x₂, hx₂, hkey₂⟩ | ⟨rfl, secret₂, hdraws₂, hkey₂⟩
      · refine absurd (h.drawn d₂ x₂ hx₂).1 ?_
        rw [← hkey₂, ← heq, hkey₁]
        exact hfresh secret₁ hdraws₁
      · rfl
  · rcases hspent with hsame | ⟨a, ha, -, hperm⟩
    · rw [hsame]
      exact h.spent_nodup
    · exact hperm.nodup_iff.2 (List.nodup_cons.2 ⟨(h.drawn d a ha).2, h.spent_nodup⟩)
  · intro σ hmem
    rcases List.mem_append.1 hmem with hnew | hold
    · obtain ⟨hdevice, hactive, -, -, -, nowMs, drawn, wrapNonce, groupKey, -, -, hgrant, hsealed⟩ :=
        sealing_spec (Option.mem_toList.1 hnew)
      refine ⟨?_, by rw [hgrant]; rfl, wrapNonce, hsealed⟩
      rw [hdevice, h.device]
      exact h.sound d σ.active hactive
    · exact h.sealings σ hold
  · intro b hmem
    rcases List.mem_append.1 hmem with hnew | hold
    · obtain ⟨hdevice, hactive, -, -, group, nowMs, grant, peer, hcall, hopen, hpeer, hgrant⟩ :=
        adoption_spec (Option.mem_toList.1 hnew)
      have hsound : b.Sound := by
        refine ⟨?_, grant, peer, hopen, hpeer, hgrant⟩
        rw [hdevice, h.device]
        exact h.sound d b.active hactive
      obtain ⟨σ, hσ, hsealed⟩ := hsent group b.sealed nowMs hcall
      have hne : σ.ownPublic ≠ b.ownPublic := by
        intro heq
        refine (h.drawn d b.active hactive).2 ?_
        show b.ownPublic ∈ w.spent
        rw [← heq]
        exact List.mem_append_left _ (List.mem_map_of_mem hσ)
      exact ⟨hsound, σ, List.mem_append_right _ hσ, (h.sealings σ hσ).agrees hC hsound hsealed.symm hne⟩
    · obtain ⟨hsound, σ, hσ, hagrees⟩ := h.adoptions b hold
      exact ⟨hsound, σ, List.mem_append_right _ hσ, hagrees⟩

theorem Reachable.inv (hC : C.Lawful) (h : w.Reachable) : w.Inv := by
  induction h with
  | start nodes hdevice hnew => exact .start hdevice hnew
  | call _ device c hfresh hsent ih => exact ih.step hC device c hfresh hsent

/-- In every order of calls on any daemons, a joiner files only a key that its peer sealed for it in the exchange both
made, with the words both were shown, after both humans confirmed them; and no offer is granted twice, and no grant
adopted twice. -/
theorem adopted_agrees (hC : C.Lawful) (h : w.Reachable) :
    (∀ b ∈ w.adoptions, ∃ σ ∈ w.sealings, Agrees σ b) ∧ (w.sealings.map Sealing.ownPublic).Nodup ∧
      w.adoptions.Pairwise fun b b' => b.sealed ≠ b'.sealed := by
  have hinv := h.inv hC
  obtain ⟨hsealings, hadoptions, hapart⟩ := List.nodup_append'.1 hinv.spent_nodup
  refine ⟨fun b hb => (hinv.adoptions b hb).2, hsealings, ?_⟩
  refine (List.pairwise_map.1 hadoptions).imp_of_mem ?_
  intro b b' hb hb' hne hsealed
  obtain ⟨-, σ, hσ, hagrees⟩ := hinv.adoptions b hb
  have hother : σ.ownPublic ≠ b'.ownPublic := fun heq =>
    hapart (List.mem_map_of_mem hσ) (by rw [heq]; exact List.mem_map_of_mem hb')
  have hagrees' := (hinv.sealings σ hσ).agrees hC (hinv.adoptions b' hb').1
    (hsealed.symm.trans hagrees.sealed) hother
  exact hne (hagrees.ownPublic_eq hagrees' hother)

/-- The laptop and the phone, once the laptop sealed its grant. -/
def beforeAdoption : World clearCrypto :=
  (((((((World.mk freshNode [] [] []).step laptop (.offer [] 10 (5 : UInt8) 3)).step phone
    (.accept laptopOffer 20 (6 : UInt8))).step laptop (.complete phone (byteKey 6) 30)).step laptop
    (.confirm 40 true)).step phone (.confirm 45 true)).step laptop (.markRemote 50 true)).step laptop laptopSeals

/-- And once the phone adopted it. -/
def paired : World clearCrypto :=
  (beforeAdoption.step phone (.markRemote 70 false)).step phone (.adopt laptopOffer.group laptopSealed 70)

theorem beforeAdoption_reachable : beforeAdoption.Reachable := by
  have hplain : ∀ {w : World clearCrypto} {c : PairingCall clearCrypto} (d : DeviceId16), w.Reachable →
      c.draws = none → (∀ group sealed nowMs, c ≠ .adopt group sealed nowMs) → (w.step d c).Reachable := by
    intro w c d h hdraws hadopts
    exact h.call d c (by simp [hdraws]) fun group sealed nowMs hadopt => absurd hadopt (hadopts group sealed nowMs)
  have hoffer : (World.step ⟨freshNode, [], [], []⟩ laptop (.offer [] 10 (5 : UInt8) 3)).Reachable :=
    .call (.start freshNode (fun _ => rfl) fun _ => rfl) laptop _ (by simp) (by simp)
  have haccept := hoffer.call phone (.accept laptopOffer 20 (6 : UInt8))
    (fun ownSecret h => by obtain rfl := Option.some.inj h; decide) (by simp)
  exact hplain laptop (hplain laptop (hplain phone (hplain laptop (hplain laptop haccept rfl (by simp)) rfl (by simp))
    rfl (by simp)) rfl (by simp)) rfl (by simp [laptopSeals])

theorem paired_reachable : paired.Reachable := by
  have hmark : (beforeAdoption.step phone (.markRemote 70 false)).Reachable :=
    beforeAdoption_reachable.call phone _ (by simp [PairingCall.draws]) (by simp)
  refine hmark.call phone _ (by simp [PairingCall.draws]) fun group bytes nowMs hadopt => ?_
  have hsent : ((beforeAdoption.step phone (.markRemote 70 false)).sealings.any fun σ =>
      decide (σ.sealed = laptopSealed)) = true := by
    decide +kernel
  obtain ⟨σ, hσ, heq⟩ := List.any_eq_true.1 hsent
  obtain ⟨rfl, rfl, rfl⟩ := PairingCall.adopt.inj hadopt
  exact ⟨σ, hσ, of_decide_eq_true heq⟩

theorem adopted_agrees_paired : paired.adoptions.length = 1 ∧
    (∀ b ∈ paired.adoptions, ∃ σ ∈ paired.sealings, Agrees σ b) ∧ (paired.sealings.map Sealing.ownPublic).Nodup ∧
      paired.adoptions.Pairwise fun b b' => b.sealed ≠ b'.sealed :=
  ⟨by decide +kernel, adopted_agrees clearCrypto_lawful paired_reachable⟩

end World

/-! ## How a grant comes about -/

/-- The attempt's window holds a time. -/
def Active.InWindow (a : Active C) (nowMs : Nat) : Prop := nowMs - a.openedAtMs ≤ PAIRING_WINDOW_MS

theorem Active.inWindow_iff : a.InWindow nowMs ↔ a.expired nowMs = false := by
  simp [InWindow, expired]

/-- No joiner reached the attempt yet, so it has its secret and nobody confirmed. -/
structure Active.Waits (a : Active C) (ownSecret : C.Secret) : Prop where
  secret : a.session.ownSecret = some ownSecret
  handshake : a.session.handshake = none
  unconfirmed : a.session.localConfirmed = false ∧ a.session.remoteConfirmed = false

/-- A joiner reached the attempt; who confirmed it, did so after. -/
structure Active.ReachedBy (a : Active C) (ownSecret : C.Secret) (peer : Party) (reachedAtMs : Nat)
    (later : List (PairingCall C)) : Prop where
  peerDevice : a.session.peerDevice = some peer.device
  handshake : a.session.handshake =
    some (handshakeOf C ⟨a.session.ownDevice, a.session.ownPublic⟩ ownSecret peer a.session.group)
  secret : a.session.ownSecret = none
  reached : a.InWindow reachedAtMs
  localConfirmed : a.session.localConfirmed = true →
    ∃ nowMs, .confirm nowMs a.ownAnswer ∈ later ∧ a.InWindow nowMs
  remoteConfirmed : a.session.remoteConfirmed = true →
    ∃ nowMs, .markRemote nowMs a.peerOwnAnswer ∈ later ∧ a.InWindow nowMs

/-- The calls that made an initiator's attempt: its offer, then perhaps the hello that reached it, then the
confirmations. -/
def MadeBy (calls : List (PairingCall C)) (a : Active C) : Prop :=
  ∃ before endpoint ownSecret since,
    calls = before ++ .offer endpoint a.openedAtMs ownSecret a.session.nonce :: since ∧
      a.session.ownPublic = C.publicOf ownSecret ∧
      (a.Waits ownSecret ∨ ∃ early peer reachedAtMs later,
        since = early ++ .complete peer.device peer.publicKey reachedAtMs :: later ∧
          a.ReachedBy ownSecret peer reachedAtMs later)

theorem MadeBy.concat {calls : List (PairingCall C)} (h : MadeBy calls a) (c : PairingCall C) :
    MadeBy (calls ++ [c]) a := by
  obtain ⟨before, endpoint, ownSecret, since, rfl, hpublic, hsince⟩ := h
  refine ⟨before, endpoint, ownSecret, since ++ [c], List.append_assoc .., hpublic, ?_⟩
  rcases hsince with hwaits | ⟨early, peer, reachedAtMs, later, rfl, hreached⟩
  · exact .inl hwaits
  · refine .inr ⟨early, peer, reachedAtMs, later ++ [c], List.append_assoc .., { hreached with
      localConfirmed := fun hlocal => ?_
      remoteConfirmed := fun hremote => ?_ }⟩
    · obtain ⟨t, hmem, ht⟩ := hreached.localConfirmed hlocal
      exact ⟨t, List.mem_append_left _ hmem, ht⟩
    · obtain ⟨t, hmem, ht⟩ := hreached.remoteConfirmed hremote
      exact ⟨t, List.mem_append_left _ hmem, ht⟩

/-- What a call makes of an attempt, it was called for. -/
theorem Makes.madeBy {calls : List (PairingCall C)} (h : Makes n c a')
    (hn : ∀ a, n.pairing.active = some a → a.role = .initiator → MadeBy calls a) (hrole : a'.role = .initiator) :
    MadeBy (calls ++ [c]) a' := by
  cases h with
  | offered endpoint nowMs ownSecret nonce =>
    exact ⟨calls, endpoint, ownSecret, [], rfl, rfl, .inl ⟨rfl, rfl, rfl, rfl⟩⟩
  | accepted offer nowMs ownSecret => cases hrole
  | confirmed ownDevice hactive hlive hshaken =>
    obtain ⟨before, endpoint, ownSecret, since, rfl, hpublic, hsince⟩ := hn _ hactive hrole
    refine ⟨before, endpoint, ownSecret, since ++ [_], List.append_assoc .., hpublic, ?_⟩
    rcases hsince with hwaits | ⟨early, peer, reachedAtMs, later, rfl, hreached⟩
    · rw [hwaits.handshake] at hshaken
      cases hshaken
    · refine .inr ⟨early, peer, reachedAtMs, later ++ [_], List.append_assoc .., hreached.peerDevice,
        hreached.handshake, hreached.secret, hreached.reached, fun _ => ?_, fun hremote => ?_⟩
      · exact ⟨_, List.mem_append_right _ (List.mem_singleton_self _), Active.inWindow_iff.2 hlive⟩
      · obtain ⟨t, hmem, ht⟩ := hreached.remoteConfirmed hremote
        exact ⟨t, List.mem_append_left _ hmem, ht⟩
  | completed peer hactive hlive hinitiator hsecret =>
    obtain ⟨before, endpoint, ownSecret, since, rfl, hpublic, hsince⟩ := hn _ hactive hinitiator
    refine ⟨before, endpoint, ownSecret, since ++ [_], List.append_assoc .., hpublic, .inr ?_⟩
    rcases hsince with hwaits | ⟨early, other, reachedAtMs, later, rfl, hreached⟩
    · rw [hwaits.secret] at hsecret
      obtain rfl := Option.some.inj hsecret
      obtain ⟨hlocal, hremote⟩ := hwaits.unconfirmed
      refine ⟨since, peer, _, [], rfl, rfl, rfl, rfl, Active.inWindow_iff.2 hlive, fun h => ?_, fun h => ?_⟩
      · exact absurd (hlocal.symm.trans h) (by simp)
      · exact absurd (hremote.symm.trans h) (by simp)
    · rw [hreached.secret] at hsecret
      cases hsecret
  | remote peerOwn hactive hlive hshaken =>
    obtain ⟨before, endpoint, ownSecret, since, rfl, hpublic, hsince⟩ := hn _ hactive hrole
    refine ⟨before, endpoint, ownSecret, since ++ [_], List.append_assoc .., hpublic, ?_⟩
    rcases hsince with hwaits | ⟨early, peer, reachedAtMs, later, rfl, hreached⟩
    · rw [hwaits.handshake] at hshaken
      cases hshaken
    · refine .inr ⟨early, peer, reachedAtMs, later ++ [_], List.append_assoc .., hreached.peerDevice,
        hreached.handshake, hreached.secret, hreached.reached, fun hlocal => ?_, fun _ => ?_⟩
      · obtain ⟨t, hmem, ht⟩ := hreached.localConfirmed hlocal
        exact ⟨t, List.mem_append_left _ hmem, ht⟩
      · exact ⟨_, List.mem_append_right _ (List.mem_singleton_self _), Active.inWindow_iff.2 hlive⟩

theorem after_concat (n : PairingNode C) (calls : List (PairingCall C)) (c : PairingCall C) :
    n.after (calls ++ [c]) = (n.after calls).call c := by
  rw [PairingNode.after, PairingNode.after, List.foldl_append]
  rfl

/-- The open attempt of an initiator was made by the calls. -/
theorem madeBy_after (hnew : n.pairing = .new) (calls : List (PairingCall C))
    (h : (n.after calls).pairing.active = some a) (hrole : a.role = .initiator) : MadeBy calls a := by
  induction calls using List.reverseRecOn generalizing a with
  | nil =>
    have hnone : n.pairing.active = some a := h
    rw [hnew] at hnone
    cases hnone
  | append_singleton calls c ih =>
    rw [after_concat] at h
    rcases active_call h with h | h
    · exact (ih h hrole).concat c
    · exact h.madeBy (fun a => ih) hrole

/-- In every run of a daemon a grant is sealed only for an offer that a joiner reached and for which, after that and in
either order, its own human confirmed and the joiner said its human had, all in the offer's window. -/
theorem grant_follows_confirmations (hnew : n.pairing = .new) (calls : List (PairingCall C))
    (h : (n.after calls).sealing? c = some σ) :
    ∃ before endpoint ownSecret early peer reachedAtMs later,
      calls = before ++ .offer endpoint σ.active.openedAtMs ownSecret σ.active.session.nonce ::
        (early ++ .complete peer.device peer.publicKey reachedAtMs :: later) ∧
      σ.active.session.ownPublic = C.publicOf ownSecret ∧
      σ.active.ReachedBy ownSecret peer reachedAtMs later ∧
      (∃ nowMs, .confirm nowMs σ.grant.ownDevice ∈ later ∧ σ.active.InWindow nowMs) ∧
      ∃ nowMs peerOwn, .markRemote nowMs peerOwn ∈ later ∧ σ.active.InWindow nowMs := by
  obtain ⟨-, hactive, hrole, -, -, nowMs, drawn, wrapNonce, groupKey, -, -, hgrant, hsealed⟩ := sealing_spec h
  obtain ⟨hs, -, -, -, hhs, -, -, -, -, hready⟩ := wrapGrant_ok hsealed
  obtain ⟨hlocal, hremote, -⟩ := isReadyToSendKey_iff.1 hready
  obtain ⟨before, endpoint, ownSecret, since, hcalls, hpublic, hsince⟩ := madeBy_after hnew calls hactive hrole
  rcases hsince with hwaits | ⟨early, peer, reachedAtMs, later, rfl, hreached⟩
  · rw [hwaits.handshake] at hhs
    cases hhs
  · obtain ⟨t, hmem, ht⟩ := hreached.localConfirmed hlocal
    obtain ⟨t', hmem', ht'⟩ := hreached.remoteConfirmed hremote
    refine ⟨before, endpoint, ownSecret, early, peer, reachedAtMs, later, hcalls, hpublic, hreached, ⟨t, ?_, ht⟩, t', _,
      hmem', ht'⟩
    rw [hgrant]
    exact hmem

theorem grant_follows_confirmations_laptop : ∃ σ, ((freshNode laptop).after laptopCalls).sealing? laptopSeals = some σ ∧
    ∃ before endpoint ownSecret early peer reachedAtMs later,
      laptopCalls = before ++ .offer endpoint σ.active.openedAtMs ownSecret σ.active.session.nonce ::
        (early ++ .complete peer.device peer.publicKey reachedAtMs :: later) ∧
      σ.active.ReachedBy ownSecret peer reachedAtMs later := by
  have hseals : (((freshNode laptop).after laptopCalls).sealing? laptopSeals).isSome = true := by decide +kernel
  obtain ⟨σ, hσ⟩ := Option.isSome_iff_exists.1 hseals
  obtain ⟨before, endpoint, ownSecret, early, peer, reachedAtMs, later, hcalls, -, hreached, -⟩ :=
    grant_follows_confirmations rfl laptopCalls hσ
  exact ⟨σ, hσ, before, endpoint, ownSecret, early, peer, reachedAtMs, later, hcalls, hreached⟩

end Txtodo.Pairing
