import Txtodo.Daemon.Proofs.GroupRotationProofs

/-!
# Control sessions: when both sides end on one key

A session that is read to its end leaves both devices on one epoch with one key exactly when they held one key
for the lower of their epochs and the acceptor could open the dialer's first word.
-/

namespace Txtodo.GroupRotation

open DeviceIdentity

variable {C : Crypto}

/-- The keys of the epochs a device retains. -/
def atHand (keyStore : Nat → Option C.Key) (current : Nat) : Nat → Option C.Key := fun epoch =>
  if current - (MAX_RETAINED_KEY_EPOCHS - 1) ≤ epoch ∧ epoch ≤ current then keyStore epoch else none

theorem retained_eq {keyStore : Nat → Option C.Key} {current : Nat} (h : (keyStore current).isSome = true) :
    retained keyStore current = some (atHand keyStore current) := by
  obtain ⟨key, hkey⟩ := Option.isSome_iff_exists.1 h
  rw [retained, hkey]
  rfl

theorem atHand_of_le {keyStore : Nat → Option C.Key} {current epoch : Nat} (hle : epoch ≤ current)
    (hgap : current < epoch + MAX_RETAINED_KEY_EPOCHS) : atHand keyStore current epoch = keyStore epoch := by
  have hretained : MAX_RETAINED_KEY_EPOCHS = 16 := rfl
  rw [atHand, if_pos ⟨by omega, hle⟩]

theorem atHand_self (keyStore : Nat → Option C.Key) (current : Nat) :
    atHand keyStore current current = keyStore current :=
  atHand_of_le le_rfl (Nat.lt_add_of_pos_right (by decide))

namespace DeviceIdentity

/-- The epoch a dialer seals its first word to `peer` under. -/
def wordEpoch (i : DeviceIdentity C) (peer : DeviceId) : Nat :=
  let believed := (i.believedEpoch peer).getD i.groupEpoch
  if (atHand i.keyStore i.groupEpoch believed).isSome then min i.groupEpoch believed else i.groupEpoch

/-- The devices hold one key for the lower of their epochs; and where these differ, the acceptor has the key at
hand that the dialer seals its first word with. -/
def Shares (dialer acceptor : DeviceIdentity C) : Prop :=
  dialer.keyStore (min dialer.groupEpoch acceptor.groupEpoch) =
      acceptor.keyStore (min dialer.groupEpoch acceptor.groupEpoch) ∧
    (dialer.groupEpoch = acceptor.groupEpoch ∨
      atHand acceptor.keyStore acceptor.groupEpoch (dialer.wordEpoch acceptor.device) =
        atHand dialer.keyStore dialer.groupEpoch (dialer.wordEpoch acceptor.device))

/-- The dialer has the key for its first word. -/
theorem exists_word_key {i : DeviceIdentity C} (h : (i.keyStore i.groupEpoch).isSome = true) (peer : DeviceId) :
    ∃ key, atHand i.keyStore i.groupEpoch (i.wordEpoch peer) = some key := by
  rw [← Option.isSome_iff_exists, wordEpoch]
  split
  · rename_i hbelieved
    have hle : (i.believedEpoch peer).getD i.groupEpoch ≤ i.groupEpoch := by
      by_contra hnot
      rw [atHand, if_neg fun hin => hnot hin.2] at hbelieved
      cases hbelieved
    rw [min_eq_right hle]
    exact hbelieved
  · rw [atHand_self]
    exact h

end DeviceIdentity

/-! ## Frames -/

/-- The frame carries `msg`, sealed with `key` under `epoch`. -/
def ControlFrame.Says (f : ControlFrame C) (epoch : Nat) (key : C.Key) (msg : ControlMessage C.Wrapped) : Prop :=
  f.epoch = epoch ∧ ∃ nonce, f.sealedBytes = C.sealControl nonce key epoch msg

namespace Control

variable {c : Control C} {f : ControlFrame C} {epoch : Nat} {key : C.Key} {msg : ControlMessage C.Wrapped}
  {msgs : List (Nat × ControlMessage C.Wrapped)} {nowMs : Nat}

theorem onFrame_open (hC : C.Lawful) (h : f.Says epoch key msg) (hkey : c.keys epoch = some key) (nowMs : Nat) :
    c.onFrame f nowMs = c.onMessage msg nowMs := by
  obtain ⟨hepoch, nonce, hbytes⟩ := h
  rw [onFrame, hepoch, hkey, hbytes, Option.bind_some, hC.openControl_seal]

theorem onFrame_shut (hC : C.Lawful) (h : f.Says epoch key msg) (hkey : c.keys epoch ≠ some key) :
    c.onFrame f nowMs = ({ c with ended := true }, []) := by
  obtain ⟨hepoch, nonce, hbytes⟩ := h
  have hnone : ((c.keys f.epoch).bind fun k => C.openControl k f.epoch f.sealedBytes) = none := by
    rw [hepoch]
    cases hother : c.keys epoch with
    | none => rfl
    | some other =>
      rw [Option.bind_some, hbytes]
      exact hC.openControl_other _ _ _ _ _ fun hsame => hkey (by rw [hother, hsame])
  rw [onFrame, hnone]

theorem send_of_key (c : Control C) (msg : ControlMessage C.Wrapped) (hkey : c.keys epoch = some key) :
    ∃ f, c.send epoch msg = ({ c with drawn := c.drawn + 1 }, [f]) ∧ f.Says epoch key msg := by
  rw [send, hkey]
  exact ⟨_, rfl, rfl, _, rfl⟩

/-- Sending changes nothing but the randomness drawn. -/
theorem sendAll_control (msgs : List (Nat × ControlMessage C.Wrapped)) (c : Control C) :
    ∃ n, (c.sendAll msgs).1 = { c with drawn := n } := by
  induction msgs generalizing c with
  | nil => exact ⟨c.drawn, rfl⟩
  | cons m rest ih =>
    obtain ⟨n, hn⟩ := ih (c.send m.1 m.2).1
    refine ⟨n, ?_⟩
    rw [sendAll, hn, send]
    split <;> rfl

@[simp] theorem sendAll_identity (c : Control C) (msgs : List (Nat × ControlMessage C.Wrapped)) :
    (c.sendAll msgs).1.identity = c.identity := by
  obtain ⟨n, hn⟩ := sendAll_control msgs c
  rw [hn]

@[simp] theorem sendAll_introduced (c : Control C) (msgs : List (Nat × ControlMessage C.Wrapped)) :
    (c.sendAll msgs).1.introduced = c.introduced := by
  obtain ⟨n, hn⟩ := sendAll_control msgs c
  rw [hn]

@[simp] theorem sendAll_dialed (c : Control C) (msgs : List (Nat × ControlMessage C.Wrapped)) :
    (c.sendAll msgs).1.dialed = c.dialed := by
  obtain ⟨n, hn⟩ := sendAll_control msgs c
  rw [hn]

/-- One frame for each message whose epoch has a key, sealed with it. -/
theorem sendAll_frames (msgs : List (Nat × ControlMessage C.Wrapped)) (c : Control C)
    (hkeys : ∀ m ∈ msgs, (c.keys m.1).isSome = true) :
    List.Forall₂ (fun m f => ∃ key, c.keys m.1 = some key ∧ ControlFrame.Says f m.1 key m.2) msgs
      (c.sendAll msgs).2 := by
  induction msgs generalizing c with
  | nil => exact .nil
  | cons m rest ih =>
    obtain ⟨under, msg⟩ := m
    obtain ⟨hkey, hrest⟩ := List.forall_mem_cons.1 hkeys
    obtain ⟨key, hkey⟩ := Option.isSome_iff_exists.1 hkey
    obtain ⟨f, hsend, hframe⟩ := c.send_of_key msg hkey
    rw [sendAll, hsend]
    exact .cons ⟨key, hkey, hframe⟩ (ih { c with drawn := c.drawn + 1 } hrest)

/-- The first message whose epoch has a key is the first frame. -/
theorem sendAll_cons {m : Nat × ControlMessage C.Wrapped} (hkey : c.keys m.1 = some key) :
    ∃ f later, (c.sendAll (m :: msgs)).2 = f :: later ∧ f.Says m.1 key m.2 := by
  obtain ⟨f, hsend, hframe⟩ := c.send_of_key m.2 hkey
  rw [sendAll, hsend]
  exact ⟨f, _, rfl, hframe⟩

/-- Every frame sent carries one of the messages. -/
theorem exists_of_mem_sendAll (hkeys : ∀ m ∈ msgs, (c.keys m.1).isSome = true) (h : f ∈ (c.sendAll msgs).2) :
    ∃ m ∈ msgs, ∃ key, c.keys m.1 = some key ∧ f.Says m.1 key m.2 := by
  have hall := sendAll_frames msgs c hkeys
  generalize (c.sendAll msgs).2 = frames at hall h
  induction hall with
  | nil => cases h
  | cons hframe _ ih =>
    rw [List.forall_mem_cons] at hkeys
    rcases List.mem_cons.1 h with rfl | h
    · exact ⟨_, List.mem_cons_self, hframe⟩
    · obtain ⟨m, hm, rest⟩ := ih hkeys.2 h
      exact ⟨m, List.mem_cons_of_mem _ hm, rest⟩

/-! ## A side between its turns -/

/-- A side that reads on, at its device's epoch with the keys retained there. -/
structure Ready (c : Control C) : Prop where
  ended : c.ended = false
  epoch : c.epoch = c.identity.groupEpoch
  keys : c.keys = atHand c.identity.keyStore c.identity.groupEpoch
  current : (c.identity.keyStore c.identity.groupEpoch).isSome = true

theorem Ready.key_current (h : c.Ready) : (c.keys c.epoch).isSome = true := by
  rw [h.keys, h.epoch, atHand_self]
  exact h.current

/-- What noting a peer's epoch leaves of a side. -/
theorem Ready.notes {identity : DeviceIdentity C} (h : c.Ready) (hnotes : Notes c.identity identity)
    (introduced : Bool) (drawn : Nat) :
    ({ c with identity := identity, introduced := introduced, drawn := drawn } : Control C).Ready where
  ended := h.ended
  epoch := h.epoch.trans hnotes.groupEpoch.symm
  keys := by rw [h.keys, hnotes.keyStore, hnotes.groupEpoch]
  current := by
    rw [hnotes.keyStore, hnotes.groupEpoch]
    exact h.current

theorem introduction_notes {identity : DeviceIdentity C} (c : Control C) (hnotes : Notes c.identity identity)
    (peer : DeviceId) (peerEpoch : Nat) (introduced : Bool) :
    ({ c with identity := identity, introduced := introduced } : Control C).introduction peer peerEpoch =
      c.introduction peer peerEpoch := by
  simp only [introduction, offersAndVouch, announce, hnotes.device, hnotes.grantsFor_eq]

/-- An epoch is noted, and the first one answered with the introduction. -/
theorem Ready.onEpoch_eq (h : c.Ready) (peer : DeviceId) (peerEpoch : Nat) :
    c.onEpoch peer peerEpoch =
      if c.introduced then ({ c with identity := c.identity.notePeerEpoch peer peerEpoch }, [])
      else ({ c with
          identity := c.identity.notePeerEpoch peer peerEpoch
          introduced := true
          drawn := c.drawn + c.epoch + 1 } : Control C).sendAll (c.introduction peer peerEpoch) := by
  have hkey : (c.keys c.epoch).isNone = c.ended := by
    rw [Option.isNone_eq_false_iff.2 h.key_current, h.ended]
  rw [onEpoch]
  split
  · rfl
  · dsimp only
    rw [hkey, introduction_notes c (notes_notePeerEpoch _ peer peerEpoch)]

/-- Messages that do not move the receiver's epoch: where the sender is, its offers and its own-device list. -/
inductive Plain (sender : DeviceId) (P : Nat → Prop) : ControlMessage C.Wrapped → Prop
  | epoch {e : Nat} (h : P e) : Plain sender P (.epoch sender e)
  | offer : Plain sender P (.offer sender)
  | ownDevices : Plain sender P (.ownDevices sender)

theorem Plain.imp {sender : DeviceId} {P Q : Nat → Prop} (h : Plain sender P msg) (himp : ∀ e, P e → Q e) :
    Plain sender Q msg := by
  cases h with
  | epoch h => exact .epoch (himp _ h)
  | offer => exact .offer
  | ownDevices => exact .ownDevices

theorem Plain.senderOf {sender : DeviceId} {P : Nat → Prop} (h : Plain sender P msg) : msg.senderOf = sender := by
  cases h <;> rfl

theorem mem_offersAndVouch {c : Control C} {peer : DeviceId} {P : Nat → Prop}
    {m : Nat × ControlMessage C.Wrapped} (h : m ∈ c.offersAndVouch peer) :
    m.1 = c.epoch ∧ Plain c.identity.device P m.2 := by
  rcases List.mem_append.1 h with h | h
  · rw [(List.mem_replicate.1 h).2]
    exact ⟨rfl, .offer⟩
  · split at h
    · rw [List.mem_singleton.1 h]
      exact ⟨rfl, .ownDevices⟩
    · cases h

/-- Nothing but plain messages under the current epoch answers a peer that is not behind. -/
theorem mem_introduction {peer : DeviceId} {peerEpoch : Nat} {m : Nat × ControlMessage C.Wrapped} (hready : c.Ready)
    (hle : c.identity.groupEpoch ≤ peerEpoch) (h : m ∈ c.introduction peer peerEpoch) :
    m.1 = c.epoch ∧ Plain c.identity.device (· = c.identity.groupEpoch) m.2 := by
  rw [introduction, grantsFor_of_le hle, List.map_nil, List.append_nil] at h
  rcases List.mem_append.1 h with h | h
  · split at h
    · rw [List.mem_singleton.1 h]
      exact ⟨min_eq_left (hready.epoch ▸ hle), .epoch hready.epoch⟩
    · cases h
  · exact mem_offersAndVouch h

theorem onMessage_removed (h : c.identity.isRemoved msg.senderOf = true) :
    c.onMessage msg nowMs = ({ c with ended := true }, []) := by
  unfold onMessage
  rw [if_pos h]

theorem onMessage_epoch {sender : DeviceId} {e : Nat} (h : c.identity.isRemoved sender = false) :
    c.onMessage (.epoch sender e) nowMs = c.onEpoch sender e := by
  unfold onMessage
  rw [if_neg (by simpa [ControlMessage.senderOf] using h)]

/-- An offer or an own-device list is no matter of the session. -/
theorem onMessage_other {sender : DeviceId} (h : c.identity.isRemoved sender = false)
    (hmsg : msg = .offer sender ∨ msg = .ownDevices sender) : c.onMessage msg nowMs = (c, []) := by
  unfold onMessage
  rcases hmsg with rfl | rfl
  · rw [if_neg (by simpa [ControlMessage.senderOf] using h)]
  · rw [if_neg (by simpa [ControlMessage.senderOf] using h)]

/-- What a side that reads on does with a plain message that places the sender no lower than itself: it stays
where it is, and answers in plain messages under its own epoch. -/
theorem Ready.onPlain {sender : DeviceId} (h : c.Ready) (hmsg : Plain sender (c.identity.groupEpoch ≤ ·) msg)
    (nowMs : Nat) :
    Notes c.identity (c.onMessage msg nowMs).1.identity ∧
      (((c.onMessage msg nowMs).1.ended = true ∧ c.identity.isRemoved sender = true) ∨
        (c.onMessage msg nowMs).1.Ready) ∧
      ∀ f ∈ (c.onMessage msg nowMs).2, ∃ key msg', c.keys c.epoch = some key ∧
        ControlFrame.Says f c.epoch key msg' ∧ Plain c.identity.device (· = c.identity.groupEpoch) msg' := by
  by_cases hremoved : c.identity.isRemoved sender = true
  · rw [onMessage_removed (hmsg.senderOf ▸ hremoved)]
    exact ⟨.refl _, .inl ⟨rfl, hremoved⟩, List.forall_mem_nil _⟩
  rw [Bool.not_eq_true] at hremoved
  cases hmsg with
  | @epoch e hle =>
    have hnotes := notes_notePeerEpoch c.identity sender e
    rw [onMessage_epoch hremoved, h.onEpoch_eq]
    split
    · exact ⟨hnotes, .inr (h.notes hnotes c.introduced c.drawn), List.forall_mem_nil _⟩
    · obtain ⟨n, hn⟩ := sendAll_control (c.introduction sender e)
        ({ c with
          identity := c.identity.notePeerEpoch sender e
          introduced := true
          drawn := c.drawn + c.epoch + 1 } : Control C)
      rw [hn]
      refine ⟨hnotes, .inr (h.notes hnotes true n), fun f hf => ?_⟩
      obtain ⟨m, hm, key, hkey, hframe⟩ := exists_of_mem_sendAll (fun m hm => by
        show (c.keys m.1).isSome = true
        rw [(mem_introduction h hle hm).1]
        exact h.key_current) hf
      obtain ⟨hunder, hplain⟩ := mem_introduction h hle hm
      rw [hunder] at hkey hframe
      exact ⟨key, m.2, hkey, hframe, hplain⟩
  | offer =>
    rw [onMessage_other hremoved (.inl rfl)]
    exact ⟨.refl _, .inr h, List.forall_mem_nil _⟩
  | ownDevices =>
    rw [onMessage_other hremoved (.inr rfl)]
    exact ⟨.refl _, .inr h, List.forall_mem_nil _⟩

/-- The acceptor answers the first word with where it is, under the lower of the two epochs. -/
theorem Ready.onWord {peer : DeviceId} {peerEpoch : Nat} (h : c.Ready) (hintroduced : c.introduced = false)
    (hdialed : c.dialed.isNone = true) (hkept : c.identity.isRemoved peer = false)
    (hkey : c.keys (min c.identity.groupEpoch peerEpoch) = some key) (nowMs : Nat) :
    Notes c.identity (c.onMessage (.epoch peer peerEpoch) nowMs).1.identity ∧
      ∃ f later, (c.onMessage (.epoch peer peerEpoch) nowMs).2 = f :: later ∧
        ControlFrame.Says f (min c.identity.groupEpoch peerEpoch) key
          (.epoch c.identity.device c.identity.groupEpoch) := by
  rw [onMessage_epoch hkept, h.onEpoch_eq, hintroduced, if_neg Bool.false_ne_true, introduction, hdialed,
    if_pos rfl, List.singleton_append, List.cons_append, announce, h.epoch]
  refine ⟨?_, sendAll_cons hkey⟩
  rw [sendAll_identity]
  exact notes_notePeerEpoch _ peer peerEpoch

theorem decideGrant_next (current : Nat) (mine : Option DeviceId) (minter : DeviceId) :
    decideGrant current (current + 1) mine minter = .adopt := by
  unfold decideGrant
  rw [if_neg (by omega), if_pos rfl]

/-- A grant of the next epoch is adopted and answered with it. -/
theorem Ready.onNext {secret : DeviceId → C.Secret} {d sender : DeviceId} (hC : C.Lawful) (h : c.Ready)
    (hsound : c.identity.Sound secret d) (hknows : c.identity.active sender = true) (minter : DeviceId)
    (nonce : C.Nonce) (next : C.Key) (leftOut : List DeviceId) (nowMs : Nat) :
    let out := c.onMessage (.grant sender minter (c.identity.groupEpoch + 1)
      (C.wrapGrantFor nonce next (c.identity.groupEpoch + 1) (C.publicOf (secret d))) leftOut) nowMs
    out.1.identity = c.identity.adopt sender minter (c.identity.groupEpoch + 1) next leftOut nowMs ∧
      out.1.introduced = c.introduced ∧ out.1.Ready ∧
      ∃ f, out.2 = [f] ∧ ControlFrame.Says f (c.identity.groupEpoch + 1) next
        (.epoch d (c.identity.groupEpoch + 1)) := by
  dsimp only
  obtain ⟨hrewrites, hepoch, hkeys, -, -⟩ := adopt_spec c.identity sender minter (c.identity.groupEpoch + 1) next
    leftOut nowMs
  have happly : c.identity.applyGrant (.grant sender minter (c.identity.groupEpoch + 1)
      (C.wrapGrantFor nonce next (c.identity.groupEpoch + 1) (C.publicOf (secret d))) leftOut) nowMs =
      (.adopted (c.identity.groupEpoch + 1),
        c.identity.adopt sender minter (c.identity.groupEpoch + 1) next leftOut nowMs) := by
    rw [applyGrant, if_pos hknows, decideGrant_next, hsound.deviceStatic, hC.openGrant_wrap]
  have hcurrent : ∀ i : DeviceIdentity C,
      i = c.identity.adopt sender minter (c.identity.groupEpoch + 1) next leftOut nowMs →
        i.keyStore i.groupEpoch = some next := by
    rintro i rfl
    rw [hepoch, hkeys, Function.update_self]
  unfold onMessage
  rw [if_neg (by simpa [ControlMessage.senderOf] using isRemoved_of_active hknows)]
  dsimp only
  rw [onGrant, happly]
  dsimp only
  generalize hadopted : c.identity.adopt sender minter (c.identity.groupEpoch + 1) next leftOut nowMs = i at *
  have hkey := hcurrent i rfl
  have hready : ({ c with identity := i } : Control C).refresh.Ready := by
    refine ⟨h.ended, rfl, ?_, Option.isSome_iff_exists.2 ⟨next, hkey⟩⟩
    rw [refresh, retained_eq (Option.isSome_iff_exists.2 ⟨next, hkey⟩)]
    rfl
  have hfiled : ({ c with identity := i } : Control C).refresh.keys (c.identity.groupEpoch + 1) = some next := by
    rw [hready.keys]
    show atHand i.keyStore i.groupEpoch (c.identity.groupEpoch + 1) = some next
    rw [hepoch, atHand_self, ← hepoch, hkey]
  obtain ⟨f, hsend, hframe⟩ := ({ c with identity := i } : Control C).refresh.send_of_key
    ({ c with identity := i } : Control C).refresh.announce hfiled
  rw [hsend]
  refine ⟨rfl, rfl, ⟨hready.ended, hready.epoch, hready.keys, hready.current⟩, f, rfl, ?_⟩
  have hannounce : ({ c with identity := i } : Control C).refresh.announce =
      .epoch d (c.identity.groupEpoch + 1) := by
    rw [announce, ← hepoch, ← hsound.device, ← hrewrites.device]
    rfl
  rw [← hannounce]
  exact hframe

end Control

namespace ControlSession

variable {s : ControlSession C} {side : Side} {f : ControlFrame C} {rest : List (ControlFrame C)} {nowMs : Nat}

theorem reads_eq (hinbox : (s side).inbox = f :: rest) (hread : (s side).control.ended = false) :
    s.reads side nowMs = fun x =>
      if x = side then ⟨((s side).control.onFrame f nowMs).1, rest⟩
      else { s x with inbox := (s x).inbox ++ ((s side).control.onFrame f nowMs).2 } := by
  rw [reads, hinbox]
  dsimp only
  rw [hread, if_neg Bool.false_ne_true]

theorem reads_self (hinbox : (s side).inbox = f :: rest) (hread : (s side).control.ended = false) :
    s.reads side nowMs side = ⟨((s side).control.onFrame f nowMs).1, rest⟩ := by
  rw [reads_eq hinbox hread]
  exact if_pos rfl

theorem reads_other {x : Side} (hinbox : (s side).inbox = f :: rest) (hread : (s side).control.ended = false)
    (hne : x ≠ side) : s.reads side nowMs x =
      { s x with inbox := (s x).inbox ++ ((s side).control.onFrame f nowMs).2 } := by
  rw [reads_eq hinbox hread]
  exact if_neg hne

/-- What every read of a frame keeps holds after any reads. -/
theorem run_induction {P : ControlSession C → Prop}
    (hstep : ∀ s side nowMs f rest, P s → (s side).inbox = f :: rest → (s side).control.ended = false →
      P (s.reads side nowMs)) (schedule : List (Side × Nat)) (h : P s) : P (s.run schedule) := by
  induction schedule generalizing s with
  | nil => exact h
  | cons turn schedule ih =>
    refine ih ?_
    show P (s.reads turn.1 turn.2)
    cases hinbox : (s turn.1).inbox with
    | nil =>
      rw [reads, hinbox]
      exact h
    | cons f rest =>
      cases hread : (s turn.1).control.ended with
      | true =>
        rw [reads, hinbox]
        dsimp only
        rw [hread, if_pos rfl]
        exact h
      | false => exact hstep s turn.1 turn.2 f rest h hinbox hread

/-- Two sides that differ are the two there are. -/
theorem sides_of_ne {h b : Side} (hne : h ≠ b) :
    (h = .dialer ∧ b = .acceptor) ∨ (h = .acceptor ∧ b = .dialer) := by
  cases h with
  | dialer =>
    cases b with
    | dialer => exact absurd rfl hne
    | acceptor => exact .inl ⟨rfl, rfl⟩
  | acceptor =>
    cases b with
    | dialer => exact .inr ⟨rfl, rfl⟩
    | acceptor => exact absurd rfl hne

/-- Both devices are on one epoch and hold one key for it. -/
def Agreed (s : ControlSession C) : Prop :=
  (s .dialer).control.identity.groupEpoch = (s .acceptor).control.identity.groupEpoch ∧
    (s .dialer).control.identity.keyStore (s .dialer).control.identity.groupEpoch =
      (s .acceptor).control.identity.keyStore (s .acceptor).control.identity.groupEpoch

/-- A session as it opens: the dialer's first word is on its way, and that is all. -/
structure Opening (i : Side → DeviceIdentity C) (s : ControlSession C) : Prop where
  identity : ∀ x, (s x).control.identity = i x
  ready : ∀ x, (s x).control.Ready
  introduced : ∀ x, (s x).control.introduced = false
  dialer : (s .dialer).control.dialed.isNone = false ∧ (s .dialer).inbox = []
  acceptor : (s .acceptor).control.dialed.isNone = true
  word : ∃ f key, (s .acceptor).inbox = [f] ∧
    f.Says ((i .dialer).wordEpoch (i .acceptor).device) key (.epoch (i .dialer).device (i .dialer).groupEpoch) ∧
      (s .dialer).control.keys ((i .dialer).wordEpoch (i .acceptor).device) = some key

theorem opening {i : Side → DeviceIdentity C} {around : Side → Surroundings C}
    (hkeys : ∀ x, ((i x).keyStore (i x).groupEpoch).isSome = true)
    (h : opened (i .dialer) (i .acceptor) around = some s) : Opening i s := by
  rw [opened, retained_eq (hkeys .dialer), retained_eq (hkeys .acceptor), Option.bind_some, Option.map_some] at h
  obtain ⟨key, hkey⟩ := exists_word_key (hkeys .dialer) (i .acceptor).device
  obtain ⟨f, hsend, hframe⟩ := (Control.new (i .dialer) (atHand (i .dialer).keyStore (i .dialer).groupEpoch)
    (some (i .acceptor).device) (around .dialer)).send_of_key
      (.epoch (i .dialer).device (i .dialer).groupEpoch) hkey
  have hstart : (Control.new (i .dialer) (atHand (i .dialer).keyStore (i .dialer).groupEpoch)
      (some (i .acceptor).device) (around .dialer)).start = _ := hsend
  rw [hstart] at h
  obtain rfl := Option.some.inj h
  refine ⟨?_, ?_, ?_, ⟨rfl, rfl⟩, rfl, f, key, rfl, hframe, hkey⟩ <;> rintro (_ | _)
  · rfl
  · rfl
  · exact ⟨rfl, rfl, rfl, hkeys .dialer⟩
  · exact ⟨rfl, rfl, rfl, hkeys .acceptor⟩
  · rfl
  · rfl

/-! ## Devices on one epoch -/

/-- Two devices on the epoch `e` say nothing but where they are, and stay there. -/
structure Level (i : Side → DeviceIdentity C) (e : Nat) (s : ControlSession C) : Prop where
  notes : ∀ x, Notes (i x) (s x).control.identity
  ready : ∀ x, (s x).control.ended = true ∨ (s x).control.Ready
  inbox : ∀ x, ∀ f ∈ (s x).inbox, ∃ under key sender msg, f.Says under key msg ∧
    Control.Plain sender (· = e) msg

theorem Level.step {i : Side → DeviceIdentity C} {e : Nat} (hC : C.Lawful) (hepoch : ∀ x, (i x).groupEpoch = e)
    (h : Level i e s) (hinbox : (s side).inbox = f :: rest) (hread : (s side).control.ended = false) :
    Level i e (s.reads side nowMs) := by
  have hready : (s side).control.Ready := (h.ready side).resolve_left (by rw [hread]; exact Bool.false_ne_true)
  have hside : (s side).control.identity.groupEpoch = e := (h.notes side).groupEpoch.trans (hepoch side)
  obtain ⟨under, key, sender, msg, hframe, hplain⟩ := h.inbox side f (hinbox ▸ List.mem_cons_self)
  -- Whether the frame opens or not, the reader stays on its epoch and answers in plain messages.
  have hturn : Notes (s side).control.identity ((s side).control.onFrame f nowMs).1.identity ∧
      (((s side).control.onFrame f nowMs).1.ended = true ∨ ((s side).control.onFrame f nowMs).1.Ready) ∧
      ∀ f' ∈ ((s side).control.onFrame f nowMs).2, ∃ under key sender msg, ControlFrame.Says f' under key msg ∧
        Control.Plain sender (· = e) msg := by
    by_cases hkey : (s side).control.keys under = some key
    · rw [Control.onFrame_open hC hframe hkey nowMs]
      obtain ⟨hnotes, hends, hsent⟩ := hready.onPlain (hplain.imp fun x hx => (hside.trans hx.symm).le) nowMs
      refine ⟨hnotes, hends.imp_left And.left, fun f' hf' => ?_⟩
      obtain ⟨key', msg', -, hframe', hplain'⟩ := hsent f' hf'
      exact ⟨_, key', _, msg', hframe', hplain'.imp fun x hx => hx.trans hside⟩
    · rw [Control.onFrame_shut hC hframe hkey]
      exact ⟨.refl _, .inl rfl, List.forall_mem_nil _⟩
  rw [reads_eq hinbox hread]
  refine ⟨fun x => ?_, fun x => ?_, fun x => ?_⟩ <;> dsimp only <;> split
  · rename_i hx
    exact hx ▸ (h.notes side).trans hturn.1
  · exact h.notes x
  · exact hturn.2.1
  · exact h.ready x
  · exact fun f' hf' => h.inbox side f' (hinbox ▸ List.mem_cons_of_mem _ hf')
  · intro f' hf'
    exact (List.mem_append.1 hf').elim (h.inbox x f') (hturn.2.2 f')

theorem Level.agreed_iff {i : Side → DeviceIdentity C} {e : Nat} (h : Level i e s)
    (hepoch : ∀ x, (i x).groupEpoch = e) :
    s.Agreed ↔ (i .dialer).keyStore e = (i .acceptor).keyStore e := by
  rw [Agreed, (h.notes .dialer).groupEpoch, (h.notes .acceptor).groupEpoch, (h.notes .dialer).keyStore,
    (h.notes .acceptor).keyStore, hepoch, hepoch]
  exact and_iff_right rfl

theorem Opening.level {i : Side → DeviceIdentity C} {e : Nat} (h : Opening i s)
    (hepoch : ∀ x, (i x).groupEpoch = e) : Level i e s := by
  obtain ⟨f, key, hinbox, hframe, -⟩ := h.word
  refine ⟨fun x => ?_, fun x => .inr (h.ready x), fun x => ?_⟩
  · rw [h.identity]
    exact .refl _
  · cases x with
    | dialer =>
      rw [h.dialer.2]
      exact List.forall_mem_nil _
    | acceptor =>
      rw [hinbox, List.forall_mem_singleton]
      exact ⟨_, key, _, _, hframe, .epoch (hepoch .dialer)⟩

/-! ## Words that do not open -/

/-- A session that is stuck: the first word is unread, or the acceptor is done and the dialer can open nothing
that it was sent. -/
structure Stuck (i : Side → DeviceIdentity C) (f₀ : ControlFrame C) (s : ControlSession C) : Prop where
  dialer : (s .dialer).control.identity = i .dialer
  keys : (s .dialer).control.keys = atHand (i .dialer).keyStore (i .dialer).groupEpoch
  acceptor : Notes (i .acceptor) (s .acceptor).control.identity
  unread : ((s .dialer).inbox = [] ∧ (s .acceptor).inbox = [f₀] ∧ (s .acceptor).control.Ready ∧
      (s .acceptor).control.introduced = false ∧ (s .acceptor).control.dialed.isNone = true) ∨
    ((s .acceptor).inbox = [] ∧ ((s .dialer).control.ended = true ∨ ∀ f ∈ (s .dialer).inbox.head?,
      ∃ under key msg, f.Says under key msg ∧ (s .dialer).control.keys under ≠ some key))

/-- The acceptor cannot open the first word, or the dialer cannot open the answer. -/
def Shut (dialer acceptor : DeviceIdentity C) (key : C.Key) : Prop :=
  atHand acceptor.keyStore acceptor.groupEpoch (dialer.wordEpoch acceptor.device) ≠ some key ∨
    ∃ other, atHand acceptor.keyStore acceptor.groupEpoch (min acceptor.groupEpoch dialer.groupEpoch) = some other ∧
      atHand dialer.keyStore dialer.groupEpoch (min acceptor.groupEpoch dialer.groupEpoch) ≠ some other

theorem Stuck.step {i : Side → DeviceIdentity C} {f₀ : ControlFrame C} {key : C.Key} (hC : C.Lawful)
    (hknown : (i .acceptor).active (i .dialer).device = true)
    (hword : f₀.Says ((i .dialer).wordEpoch (i .acceptor).device) key
      (.epoch (i .dialer).device (i .dialer).groupEpoch))
    (hshut : Shut (i .dialer) (i .acceptor) key) (h : Stuck i f₀ s)
    (hinbox : (s side).inbox = f :: rest) (hread : (s side).control.ended = false) :
    Stuck i f₀ (s.reads side nowMs) := by
  rw [reads_eq hinbox hread]
  cases side with
  | dialer =>
    obtain ⟨hempty, -⟩ | ⟨hdone, hends⟩ := h.unread
    · rw [hempty] at hinbox
      cases hinbox
    · obtain ⟨under, key', msg, hframe, hkey⟩ := (hends.resolve_left (by rw [hread]; exact Bool.false_ne_true)) f
        (by rw [hinbox]; rfl)
      have hturn : (s .dialer).control.onFrame f nowMs = ({ (s .dialer).control with ended := true }, []) :=
        Control.onFrame_shut hC hframe hkey
      simp only [hturn]
      exact ⟨h.dialer, h.keys, h.acceptor, .inr ⟨by simpa using hdone, .inl rfl⟩⟩
  | acceptor =>
    obtain ⟨hempty, hone, hready, hintroduced, hdialed⟩ | ⟨hdone, -⟩ := h.unread
    · rw [hone] at hinbox
      obtain ⟨rfl, rfl⟩ := List.cons.inj hinbox
      have hkeys : (s .acceptor).control.keys = atHand (i .acceptor).keyStore (i .acceptor).groupEpoch := by
        rw [hready.keys, h.acceptor.keyStore, h.acceptor.groupEpoch]
      by_cases hopen : (s .acceptor).control.keys ((i .dialer).wordEpoch (i .acceptor).device) = some key
      · obtain ⟨other, hother, hcannot⟩ := hshut.resolve_left fun hnot => hnot (hkeys ▸ hopen)
        have hkept : (s .acceptor).control.identity.isRemoved (i .dialer).device = false :=
          isRemoved_of_active (h.acceptor.active_eq _ ▸ hknown)
        have hdevice : (s .acceptor).control.identity.groupEpoch = (i .acceptor).groupEpoch := h.acceptor.groupEpoch
        obtain ⟨hnotes, f', later, hsent, hframe⟩ := hready.onWord hintroduced hdialed hkept
          (by rw [hkeys, hdevice]; exact hother) nowMs
        have hturn := Control.onFrame_open hC hword hopen nowMs
        simp only [hturn, hsent]
        refine ⟨h.dialer, h.keys, h.acceptor.trans hnotes, .inr ⟨by simp, .inr fun g hg => ?_⟩⟩
        have hfirst : g = f' := by simpa [hempty] using hg.symm
        rw [hfirst]
        refine ⟨_, other, _, hframe, ?_⟩
        rw [hdevice, if_neg (by decide), h.keys]
        exact hcannot
      · have hturn : (s .acceptor).control.onFrame f₀ nowMs = ({ (s .acceptor).control with ended := true }, []) :=
          Control.onFrame_shut hC hword hopen
        simp only [hturn]
        refine ⟨h.dialer, h.keys, h.acceptor, .inr ⟨by simp, .inr ?_⟩⟩
        simp [hempty]
    · rw [hdone] at hinbox
      cases hinbox

/-! ## A device that is behind -/

/-- What the device ahead has still to tell the one behind, which is on the epoch of the index: plain messages
it can open, and the grants of the epochs from there on, each sealed under the one before. -/
inductive Script (keyStore : Nat → Option C.Key) (low high : Nat) (ahead behind : DeviceId)
    (recipient : C.Public) : Nat → List (ControlFrame C) → Prop
  | done : Script keyStore low high ahead behind recipient high []
  | plain {c e : Nat} {key : C.Key} {msg : ControlMessage C.Wrapped} {f : ControlFrame C}
      {l : List (ControlFrame C)} (hframe : f.Says e key msg) (held : keyStore e = some key) (hlow : low ≤ e)
      (hhigh : e ≤ c) (hplain : Control.Plain ahead (· = high) msg)
      (later : Script keyStore low high ahead behind recipient c l) :
      Script keyStore low high ahead behind recipient c (f :: l)
  | grant {c : Nat} {key next : C.Key} {minter : DeviceId} {leftOut : List DeviceId} {nonce : C.Nonce}
      {f : ControlFrame C} {l : List (ControlFrame C)}
      (hframe : f.Says c key (.grant ahead minter (c + 1) (C.wrapGrantFor nonce next (c + 1) recipient) leftOut))
      (held : keyStore c = some key) (hnext : keyStore (c + 1) = some next)
      (left : ∀ x ∈ leftOut, x ≠ behind ∧ x ≠ ahead)
      (later : Script keyStore low high ahead behind recipient (c + 1) l) :
      Script keyStore low high ahead behind recipient c (f :: l)

theorem Script.le {keyStore : Nat → Option C.Key} {low high c : Nat} {ahead behind : DeviceId}
    {recipient : C.Public} {l : List (ControlFrame C)}
    (h : Script keyStore low high ahead behind recipient c l) : c ≤ high := by
  induction h with
  | done => exact le_rfl
  | plain _ _ _ _ _ _ ih => exact ih
  | grant _ _ _ _ _ ih => omega

section Introduction

variable {c : Control C} {secret : DeviceId → C.Secret} {ahead behind : DeviceId} {low : Nat}
  {frames : List (ControlFrame C)}

/-- The frames a side sends for some messages. -/
abbrev Sends (c : Control C) (msgs : List (Nat × ControlMessage C.Wrapped)) (frames : List (ControlFrame C)) : Prop :=
  List.Forall₂ (fun m f => ∃ key, c.keys m.1 = some key ∧ ControlFrame.Says f m.1 key m.2) msgs frames

theorem keys_eq (hready : c.Ready) (hgap : c.identity.groupEpoch < low + MAX_RETAINED_KEY_EPOCHS) {e : Nat}
    (hlow : low ≤ e) (hhigh : e ≤ c.identity.groupEpoch) : c.keys e = c.identity.keyStore e := by
  rw [hready.keys]
  exact atHand_of_le hhigh (by omega)

theorem script_offers (hready : c.Ready) (hlow : low ≤ c.identity.groupEpoch) (recipient : C.Public)
    {msgs : List (Nat × ControlMessage C.Wrapped)}
    (hmsgs : ∀ m ∈ msgs, m.1 = c.epoch ∧ Control.Plain ahead (· = c.identity.groupEpoch) m.2)
    (hsends : Sends c msgs frames) :
    Script c.identity.keyStore low c.identity.groupEpoch ahead behind recipient c.identity.groupEpoch frames := by
  induction hsends with
  | nil => exact .done
  | cons hframe _ ih =>
    obtain ⟨⟨hunder, hplain⟩, hrest⟩ := List.forall_mem_cons.1 hmsgs
    obtain ⟨key, hkey, hframe⟩ := hframe
    rw [hunder, hready.epoch] at hkey hframe
    rw [hready.keys, atHand_self] at hkey
    exact .plain hframe hkey hlow le_rfl hplain (ih hrest)

/-- The grants of a device that holds every key, and whose records leave out no active peer, are all made. -/
theorem script_grants (hready : c.Ready) (hsound : c.identity.Sound secret ahead)
    (hknows : c.identity.active behind = true)
    (hgap : c.identity.groupEpoch < low + MAX_RETAINED_KEY_EPOCHS) (nonce : Nat → C.Nonce) {peer : DeviceId}
    {n e : Nat} (hn : e + n = c.identity.groupEpoch) (hlow : low ≤ e)
    (hsends : Sends c ((c.identity.grantChain nonce behind (C.publicOf (secret behind)) n (e + 1)).map
      (fun grant => (grant.sealedUnder, grant.message)) ++ c.offersAndVouch peer) frames) :
    Script c.identity.keyStore low c.identity.groupEpoch ahead behind (C.publicOf (secret behind)) e frames := by
  induction n generalizing e frames with
  | zero =>
    obtain rfl : e = c.identity.groupEpoch := hn
    refine script_offers hready hlow _ (fun m hm => ?_) hsends
    rw [← hsound.device]
    exact Control.mem_offersAndVouch hm
  | succ n ih =>
    have hleft := hsound.record_of_getD (e := e + 1)
    obtain ⟨next, hnext⟩ := Option.isSome_iff_exists.1 (hsound.keys (e + 1) (by omega))
    rw [grantChain] at hsends
    generalize (c.identity.epochInfo (e + 1)).getD ⟨c.identity.device, []⟩ = info at hleft hsends
    have hkept : behind ∉ info.leftOut := fun hmem => by
      rw [(hleft behind hmem).2] at hknows
      cases hknows
    rw [if_neg hkept, hnext, List.map_cons, List.cons_append] at hsends
    cases hsends with
    | cons hframe hlater =>
      obtain ⟨key, hkey, hframe⟩ := hframe
      rw [Nat.add_sub_cancel] at hkey hframe
      rw [keys_eq hready hgap hlow (by omega)] at hkey
      rw [hsound.device] at hframe
      exact .grant hframe hkey hnext (fun x hx => ⟨fun hbehind => hkept (hbehind ▸ hx), (hleft x hx).1⟩)
        (ih (by omega) (by omega) hlater)

/-- The introduction of a device to a peer that is behind is such a script. -/
theorem script_introduction (hready : c.Ready) (hsound : c.identity.Sound secret ahead)
    (hknows : c.identity.active behind = true) (hbehind : low < c.identity.groupEpoch)
    (hgap : c.identity.groupEpoch < low + MAX_RETAINED_KEY_EPOCHS)
    (hsends : Sends c (c.introduction behind low) frames) :
    Script c.identity.keyStore low c.identity.groupEpoch ahead behind (C.publicOf (secret behind)) low frames := by
  obtain ⟨r, hrow, hactive⟩ := exists_row_of_active hknows
  rw [Control.introduction, grantsFor_of_active hrow hactive hbehind hgap.le, hsound.statics behind r hrow,
    List.append_assoc] at hsends
  by_cases hdialed : c.dialed.isNone = true
  · rw [if_pos hdialed, List.singleton_append] at hsends
    cases hsends with
    | cons hframe hlater =>
      obtain ⟨key, hkey, hframe⟩ := hframe
      have hunder : min c.epoch low = low := by
        rw [hready.epoch]
        exact min_eq_right hbehind.le
      rw [hunder] at hkey hframe
      rw [keys_eq hready hgap le_rfl hbehind.le] at hkey
      rw [Control.announce, hsound.device] at hframe
      exact .plain hframe hkey le_rfl le_rfl (.epoch hready.epoch)
        (script_grants hready hsound hknows hgap _ (by omega) le_rfl hlater)
  · rw [if_neg hdialed, List.nil_append] at hsends
    exact script_grants hready hsound hknows hgap _ (by omega) le_rfl hsends

/-- All messages of an introduction have a key at hand. -/
theorem introduction_keys (hready : c.Ready) (hsound : c.identity.Sound secret ahead)
    (hbehind : low < c.identity.groupEpoch) (hgap : c.identity.groupEpoch < low + MAX_RETAINED_KEY_EPOCHS) :
    ∀ m ∈ c.introduction behind low, (c.keys m.1).isSome = true := by
  have hkeys : ∀ e, low ≤ e → e ≤ c.identity.groupEpoch → (c.keys e).isSome = true := fun e hlow hhigh => by
    rw [keys_eq hready hgap hlow hhigh]
    exact hsound.keys e hhigh
  intro m hm
  rw [Control.introduction, List.mem_append, List.mem_append] at hm
  obtain (hm | hm) | hm := hm
  · split at hm
    · rw [List.mem_singleton.1 hm]
      exact hkeys _ (le_min (hready.epoch ▸ hbehind.le) le_rfl) ((min_le_left _ _).trans hready.epoch.le)
    · cases hm
  · obtain ⟨g, hg, rfl⟩ := List.mem_map.1 hm
    obtain ⟨r, -, -, -, hg⟩ := mem_grantsFor hg
    obtain ⟨e, key, info, hlow, hhigh, -, -, -, rfl⟩ := mem_grantChain hg
    exact hkeys _ (by show low ≤ e - 1; omega) (by show e - 1 ≤ _; omega)
  · rw [(Control.mem_offersAndVouch (P := fun _ => True) hm).1]
    exact hready.key_current

end Introduction

/-- Where a session that brings a device up stands: the first word is unread, or the one behind has answered, or
the one ahead is introduced and the rest of its script is on its way. -/
inductive Stage (i : Side → DeviceIdentity C) (h b : Side) (recipient : C.Public) (c : Nat)
    (s : ControlSession C) : Prop
  | unread {f : ControlFrame C} {e : Nat} {key : C.Key} (hahead : (s h).control.introduced = false)
      (hstart : c = (i b).groupEpoch) (hbehind : (s b).control.introduced = false)
      (hdialed : (s b).control.dialed.isNone = true) (hempty : (s h).inbox = []) (hinbox : (s b).inbox = [f])
      (hframe : f.Says e key (.epoch (i h).device (i h).groupEpoch)) (hkey : (s b).control.keys e = some key)
  | answered {f : ControlFrame C} {e : Nat} {key : C.Key} (hahead : (s h).control.introduced = false)
      (hstart : c = (i b).groupEpoch) (hinbox : (s b).inbox = []) (hmem : f ∈ (s h).inbox)
      (hframe : f.Says e key (.epoch (i b).device (i b).groupEpoch)) (hkey : (s h).control.keys e = some key)
  | introduced (hahead : (s h).control.introduced = true)
      (hscript : Script (i h).keyStore (i b).groupEpoch (i h).groupEpoch (i h).device (i b).device recipient c
        (s b).inbox)

/-- A session in which the device behind, on the epoch `c` by now, has the keys of the one ahead from where it
started on. -/
structure CatchUp (secret : DeviceId → C.Secret) (i : Side → DeviceIdentity C) (h b : Side) (c : Nat)
    (s : ControlSession C) : Prop where
  ahead : Notes (i h) (s h).control.identity
  aheadReady : (s h).control.Ready
  sound : (s b).control.identity.Sound secret (i b).device
  behindReady : (s b).control.Ready
  epoch : (s b).control.identity.groupEpoch = c
  low : (i b).groupEpoch ≤ c
  keys : ∀ e, (i b).groupEpoch ≤ e → e ≤ c → (s b).control.identity.keyStore e = (i h).keyStore e
  knows : (s b).control.identity.active (i h).device = true
  toAhead : ∀ f ∈ (s h).inbox, ∃ e key msg, f.Says e key msg ∧ (s h).control.keys e = some key ∧
    Control.Plain (i b).device (fun x => (s h).control.introduced = false → x = (i b).groupEpoch) msg
  stage : Stage i h b (C.publicOf (secret (i b).device)) c s

section CatchUp

variable {secret : DeviceId → C.Secret} {i : Side → DeviceIdentity C} {h b : Side} {c : Nat}

theorem says_unique (hC : C.Lawful) {e e' : Nat} {key : C.Key} {msg msg' : ControlMessage C.Wrapped}
    (hframe : f.Says e key msg) (hframe' : f.Says e' key msg') : msg = msg' := by
  obtain ⟨rfl, nonce, hbytes⟩ := hframe
  obtain ⟨rfl, nonce', hbytes'⟩ := hframe'
  have hopen := hC.openControl_seal nonce key f.epoch msg
  rw [← hbytes, hbytes', hC.openControl_seal] at hopen
  exact (Option.some.inj hopen).symm

/-- The device ahead reads a frame that is not the answer it waits for. -/
theorem CatchUp.aheadStays {control : Control C} {s' : ControlSession C} (hs : CatchUp secret i h b c s)
    (hinbox : (s h).inbox = f :: rest) (hnotes : Notes (s h).control.identity control.identity)
    (hready : control.Ready) (hintroduced : control.introduced = (s h).control.introduced)
    (hnot : (s h).control.introduced = false → ∀ e key, (s h).control.keys e = some key →
      ¬f.Says e key (.epoch (i b).device (i b).groupEpoch))
    (hahead : s' h = ⟨control, rest⟩) (hbehind : s' b = s b) : CatchUp secret i h b c s' := by
  have hkeys : control.keys = (s h).control.keys := by
    rw [hready.keys, hs.aheadReady.keys, hnotes.keyStore, hnotes.groupEpoch]
  have hstage : Stage i h b (C.publicOf (secret (i b).device)) c s' := by
    cases hs.stage with
    | unread _ _ _ _ hempty =>
      rw [hempty] at hinbox
      cases hinbox
    | answered hno hstart hempty hmem hframe hkey =>
      rw [hinbox] at hmem
      have hrest := (List.mem_cons.1 hmem).resolve_left fun hsame => hnot hno _ _ hkey (hsame ▸ hframe)
      exact .answered (by rw [hahead]; exact hintroduced.trans hno) hstart (hbehind ▸ hempty)
        (by rw [hahead]; exact hrest) hframe (by rw [hahead, hkeys]; exact hkey)
    | introduced hyes hscript =>
      exact .introduced (by rw [hahead]; exact hintroduced.trans hyes) (hbehind ▸ hscript)
  refine ⟨?_, ?_, hbehind ▸ hs.sound, hbehind ▸ hs.behindReady, hbehind ▸ hs.epoch, hs.low, hbehind ▸ hs.keys,
    hbehind ▸ hs.knows, fun f' hf' => ?_, hstage⟩
  · rw [hahead]
    exact hs.ahead.trans hnotes
  · rw [hahead]
    exact hready
  · rw [hahead] at hf'
    rw [hahead, hintroduced, hkeys]
    exact hs.toAhead f' (hinbox ▸ List.mem_cons_of_mem _ hf')

/-- The device ahead reads. -/
theorem CatchUp.stepAhead (hC : C.Lawful) (hne : b ≠ h) (hsound : (i h).Sound secret (i h).device)
    (hknows : (i h).active (i b).device = true) (hbehind : (i b).groupEpoch < (i h).groupEpoch)
    (hgap : (i h).groupEpoch < (i b).groupEpoch + MAX_RETAINED_KEY_EPOCHS) (hs : CatchUp secret i h b c s)
    (hinbox : (s h).inbox = f :: rest) (hread : (s h).control.ended = false) :
    CatchUp secret i h b c (s.reads h nowMs) := by
  obtain ⟨e, key, msg, hframe, hkey, hplain⟩ := hs.toAhead f (hinbox ▸ List.mem_cons_self)
  have hactive : (s h).control.identity.active (i b).device = true := hs.ahead.active_eq _ ▸ hknows
  have hkept := isRemoved_of_active hactive
  have hself : s.reads h nowMs h = _ := reads_self hinbox hread
  have hother : s.reads h nowMs b = _ := reads_other hinbox hread hne
  rw [Control.onFrame_open hC hframe hkey nowMs] at hself hother
  -- Whatever else the frame says, it is not the answer.
  have hquiet : (msg = .offer (i b).device ∨ msg = .ownDevices (i b).device) →
      CatchUp secret i h b c (s.reads h nowMs) := fun hmsg => by
    rw [Control.onMessage_other hkept hmsg] at hself hother
    rw [List.append_nil] at hother
    refine hs.aheadStays hinbox (.refl _) hs.aheadReady rfl (fun _ e' key' hkey' hanswer => ?_) hself hother
    rw [← hanswer.1, hframe.1, hkey] at hkey'
    obtain rfl := Option.some.inj hkey'
    rcases hmsg with rfl | rfl
    · cases says_unique hC hframe hanswer
    · cases says_unique hC hframe hanswer
  cases hplain with
  | offer => exact hquiet (.inl rfl)
  | ownDevices => exact hquiet (.inr rfl)
  | @epoch x hx =>
    have hnotes := notes_notePeerEpoch (s h).control.identity (i b).device x
    rw [Control.onMessage_epoch hkept, hs.aheadReady.onEpoch_eq] at hself hother
    by_cases hintroduced : (s h).control.introduced = true
    · rw [if_pos hintroduced] at hself hother
      rw [List.append_nil] at hother
      refine hs.aheadStays hinbox hnotes
        (hs.aheadReady.notes hnotes (s h).control.introduced (s h).control.drawn) rfl (fun hno => ?_) hself hother
      rw [hintroduced] at hno
      cases hno
    · rw [if_neg hintroduced] at hself hother
      obtain rfl := hx (by simpa using hintroduced)
      have hsound' : (s h).control.identity.Sound secret (i h).device := hsound.notes hs.ahead
      rw [← hs.ahead.groupEpoch] at hbehind hgap
      have hsends : Sends (s h).control ((s h).control.introduction (i b).device (i b).groupEpoch) _ :=
        Control.sendAll_frames _ ({ (s h).control with
          identity := (s h).control.identity.notePeerEpoch (i b).device (i b).groupEpoch
          introduced := true
          drawn := (s h).control.drawn + (s h).control.epoch + 1 } : Control C)
          (introduction_keys hs.aheadReady hsound' hbehind hgap)
      have hscript := script_introduction hs.aheadReady hsound' hactive hbehind hgap hsends
      obtain ⟨n, hn⟩ := Control.sendAll_control ((s h).control.introduction (i b).device (i b).groupEpoch)
        ({ (s h).control with
          identity := (s h).control.identity.notePeerEpoch (i b).device (i b).groupEpoch
          introduced := true
          drawn := (s h).control.drawn + (s h).control.epoch + 1 } : Control C)
      rw [hn] at hself
      have hempty : (s b).inbox = [] ∧ c = (i b).groupEpoch := by
        cases hs.stage with
        | unread _ _ _ _ hempty =>
          rw [hempty] at hinbox
          cases hinbox
        | answered _ hstart hempty => exact ⟨hempty, hstart⟩
        | introduced hyes => exact absurd hyes hintroduced
      rw [hempty.1, List.nil_append] at hother
      refine ⟨?_, ?_, ?_, ?_, ?_, hs.low, ?_, ?_, fun f' hf' => ?_, .introduced ?_ ?_⟩
      · rw [hself]
        exact hs.ahead.trans hnotes
      · rw [hself]
        exact hs.aheadReady.notes hnotes true n
      · rw [hother]
        exact hs.sound
      · rw [hother]
        exact hs.behindReady
      · rw [hother]
        exact hs.epoch
      · rw [hother]
        exact hs.keys
      · rw [hother]
        exact hs.knows
      · rw [hself] at hf' ⊢
        obtain ⟨e', key', msg', hframe', hkey', hplain'⟩ := hs.toAhead f' (hinbox ▸ List.mem_cons_of_mem _ hf')
        exact ⟨e', key', msg', hframe', hkey', hplain'.imp fun _ _ hno => by cases hno⟩
      · rw [hself]
      · rw [hother, hempty.2, ← hs.ahead.keyStore, ← hs.ahead.groupEpoch]
        exact hscript

/-- Keys the device ahead has at hand. -/
theorem CatchUp.keys_ahead (hs : CatchUp secret i h b c s)
    (hgap : (i h).groupEpoch < (i b).groupEpoch + MAX_RETAINED_KEY_EPOCHS) {e : Nat} (hlow : (i b).groupEpoch ≤ e)
    (hhigh : e ≤ (i h).groupEpoch) : (s h).control.keys e = (i h).keyStore e := by
  rw [hs.aheadReady.keys, hs.ahead.keyStore, hs.ahead.groupEpoch]
  exact atHand_of_le hhigh (by omega)

/-- Keys the device behind has at hand. -/
theorem CatchUp.keys_behind (hs : CatchUp secret i h b c s) (hle : c ≤ (i h).groupEpoch)
    (hgap : (i h).groupEpoch < (i b).groupEpoch + MAX_RETAINED_KEY_EPOCHS) {e : Nat} (hlow : (i b).groupEpoch ≤ e)
    (hhigh : e ≤ c) : (s b).control.keys e = (i h).keyStore e := by
  rw [hs.behindReady.keys, hs.epoch, atHand_of_le hhigh (by omega)]
  exact hs.keys e hlow hhigh

/-- The device behind reads a plain message and stays where it is. -/
theorem CatchUp.behindStays {control : Control C} {sent : List (ControlFrame C)} {s' : ControlSession C}
    (hs : CatchUp secret i h b c s) (hle : c ≤ (i h).groupEpoch)
    (hgap : (i h).groupEpoch < (i b).groupEpoch + MAX_RETAINED_KEY_EPOCHS)
    (hstart : (s h).control.introduced = false → c = (i b).groupEpoch)
    (hnotes : Notes (s b).control.identity control.identity) (hready : control.Ready)
    (hsent : ∀ f ∈ sent, ∃ key msg, (s b).control.keys (s b).control.epoch = some key ∧
      ControlFrame.Says f (s b).control.epoch key msg ∧
        Control.Plain (s b).control.identity.device (· = (s b).control.identity.groupEpoch) msg)
    (hbehind : s' b = ⟨control, rest⟩) (hahead : s' h = { s h with inbox := (s h).inbox ++ sent })
    (hstage : Stage i h b (C.publicOf (secret (i b).device)) c s') : CatchUp secret i h b c s' := by
  refine ⟨?_, ?_, ?_, ?_, ?_, hs.low, ?_, ?_, fun f' hf' => ?_, hstage⟩
  · rw [hahead]
    exact hs.ahead
  · rw [hahead]
    exact hs.aheadReady
  · rw [hbehind]
    exact hs.sound.notes hnotes
  · rw [hbehind]
    exact hready
  · rw [hbehind]
    exact hnotes.groupEpoch.trans hs.epoch
  · rw [hbehind]
    exact fun e hlow hhigh => (congrFun hnotes.keyStore e).trans (hs.keys e hlow hhigh)
  · rw [hbehind]
    exact (hnotes.active_eq _).trans hs.knows
  · rw [hahead] at hf' ⊢
    rcases List.mem_append.1 hf' with hf' | hf'
    · exact hs.toAhead f' hf'
    · obtain ⟨key, msg, hkey, hframe, hplain⟩ := hsent f' hf'
      rw [hs.behindReady.epoch, hs.epoch] at hkey hframe
      rw [hs.keys_behind hle hgap hs.low le_rfl] at hkey
      refine ⟨c, key, msg, hframe, (hs.keys_ahead hgap hs.low hle).trans hkey, ?_⟩
      rw [hs.sound.device, hs.epoch] at hplain
      exact hplain.imp fun x hx hno => hx.trans (hstart hno)

/-- The device behind adopts the grant of the next epoch. -/
theorem CatchUp.behindMoves {control : Control C} {s' : ControlSession C} {minter : DeviceId} {next : C.Key}
    {leftOut : List DeviceId} (hs : CatchUp secret i h b c s) (hlt : c < (i h).groupEpoch)
    (hgap : (i h).groupEpoch < (i b).groupEpoch + MAX_RETAINED_KEY_EPOCHS)
    (hintroduced : (s h).control.introduced = true) (hnext : (i h).keyStore (c + 1) = some next)
    (hleft : ∀ x ∈ leftOut, x ≠ (i b).device ∧ x ≠ (i h).device)
    (hadopted : control.identity = (s b).control.identity.adopt (i h).device minter (c + 1) next leftOut nowMs)
    (hready : control.Ready) (hword : f.Says (c + 1) next (.epoch (i b).device (c + 1)))
    (hbehind : s' b = ⟨control, rest⟩) (hahead : s' h = { s h with inbox := (s h).inbox ++ [f] })
    (hscript : Script (i h).keyStore (i b).groupEpoch (i h).groupEpoch (i h).device (i b).device
      (C.publicOf (secret (i b).device)) (c + 1) rest) : CatchUp secret i h b (c + 1) s' := by
  obtain ⟨-, hcurrent, hkeys, -, hactive⟩ := adopt_spec (s b).control.identity (i h).device minter (c + 1) next
    leftOut nowMs
  have hlow := hs.low
  refine ⟨?_, ?_, ?_, ?_, ?_, by omega, ?_, ?_, fun f' hf' => ?_, .introduced ?_ ?_⟩
  · rw [hahead]
    exact hs.ahead
  · rw [hahead]
    exact hs.aheadReady
  · rw [hbehind, hadopted]
    exact hs.sound.adopt (.inl (by rw [hs.epoch])) hleft
  · rw [hbehind]
    exact hready
  · rw [hbehind, hadopted]
    exact hcurrent
  · rw [hbehind, hadopted, hkeys]
    intro e hstart hhigh
    by_cases hsame : e = c + 1
    · rw [hsame, Function.update_self, hnext]
    · rw [Function.update_of_ne hsame]
      exact hs.keys e hstart (by omega)
  · rw [hbehind, hadopted, hactive, hs.knows, Bool.true_and, Bool.not_eq_true', decide_eq_false_iff_not]
    exact fun hout => hout.2.2 rfl
  · rw [hahead] at hf' ⊢
    rcases List.mem_append.1 hf' with hf' | hf'
    · exact hs.toAhead f' hf'
    · rw [List.mem_singleton.1 hf']
      refine ⟨c + 1, next, _, hword, (hs.keys_ahead hgap (by omega) hlt).trans hnext, .epoch fun hno => ?_⟩
      rw [hintroduced] at hno
      cases hno
  · rw [hahead]
    exact hintroduced
  · rw [hbehind]
    exact hscript

/-- The device behind reads. -/
theorem CatchUp.stepBehind (hC : C.Lawful) (hne : h ≠ b) (hbehind : (i b).groupEpoch < (i h).groupEpoch)
    (hgap : (i h).groupEpoch < (i b).groupEpoch + MAX_RETAINED_KEY_EPOCHS) (hs : CatchUp secret i h b c s)
    (hinbox : (s b).inbox = f :: rest) (hread : (s b).control.ended = false) :
    ∃ c', CatchUp secret i h b c' (s.reads b nowMs) := by
  have hself : s.reads b nowMs b = _ := reads_self hinbox hread
  have hother : s.reads b nowMs h = _ := reads_other hinbox hread hne
  have hkept := isRemoved_of_active hs.knows
  cases hs.stage with
  | answered _ _ hempty =>
    rw [hempty] at hinbox
    cases hinbox
  | @unread f₀ e key hahead hstart hnot hdialed hempty hone hframe hkey =>
    rw [hone] at hinbox
    obtain ⟨rfl, rfl⟩ := List.cons.inj hinbox
    rw [Control.onFrame_open hC hframe hkey nowMs] at hself hother
    have hlow : (s b).control.identity.groupEpoch ≤ (i h).groupEpoch := by
      rw [hs.epoch, hstart]
      exact hbehind.le
    obtain ⟨hnotes, hready, hsent⟩ := hs.behindReady.onPlain (.epoch hlow : Control.Plain (i h).device _ _) nowMs
    obtain ⟨own, hown⟩ := Option.isSome_iff_exists.1 hs.behindReady.current
    obtain ⟨-, f', later, hanswer, hword⟩ := hs.behindReady.onWord hnot hdialed hkept
      (by rw [min_eq_left hlow, hs.behindReady.keys, atHand_self]; exact hown) nowMs
    rw [min_eq_left hlow, hs.sound.device, hs.epoch, hstart] at hword
    rw [hs.epoch, hstart, hs.keys _ le_rfl hs.low] at hown
    refine ⟨c, hs.behindStays (hstart ▸ hbehind.le) hgap (fun _ => hstart) hnotes
      (hready.resolve_left fun hends => ?_) hsent hself hother (.answered ?_ hstart ?_ ?_ hword ?_)⟩
    · rw [hkept] at hends
      cases hends.2
    · rw [hother]
      exact hahead
    · rw [hself]
    · rw [hother]
      exact List.mem_append_right _ (hanswer ▸ List.mem_cons_self)
    · rw [hother]
      exact (hs.keys_ahead hgap le_rfl hbehind.le).trans hown
  | introduced hahead hscript =>
    have hle := hscript.le
    rw [hinbox] at hscript
    cases hscript with
    | @plain _ e key msg _ _ hframe hheld hlow hhigh hplain hlater =>
      have hkey : (s b).control.keys e = some key := (hs.keys_behind hle hgap hlow hhigh).trans hheld
      rw [Control.onFrame_open hC hframe hkey nowMs] at hself hother
      obtain ⟨hnotes, hready, hsent⟩ := hs.behindReady.onPlain
        (hplain.imp fun x hx => by rw [hs.epoch, hx]; exact hle) nowMs
      refine ⟨c, hs.behindStays hle hgap (fun hno => ?_) hnotes (hready.resolve_left fun hends => ?_) hsent hself
        hother (.introduced ?_ ?_)⟩
      · rw [hahead] at hno
        cases hno
      · rw [hkept] at hends
        cases hends.2
      · rw [hother]
        exact hahead
      · rw [hself]
        exact hlater
    | @grant _ key next minter leftOut nonce _ _ hframe hheld hnext hleft hlater =>
      have hkey : (s b).control.keys c = some key := (hs.keys_behind hle hgap hs.low le_rfl).trans hheld
      rw [Control.onFrame_open hC hframe hkey nowMs] at hself hother
      obtain ⟨hadopted, -, hready, f', hsent, hword⟩ :=
        hs.behindReady.onNext hC hs.sound hs.knows minter nonce next leftOut nowMs
      rw [hs.epoch] at hadopted hready hsent hword
      rw [hsent] at hother
      exact ⟨c + 1, hs.behindMoves hlater.le hgap hahead hnext hleft hadopted hready hword hself hother hlater⟩

/-- A session between two devices that share what `Shares` asks opens as one that brings the device behind up. -/
theorem Opening.catchUp (hopening : Opening i s) (hshares : (i .dialer).Shares (i .acceptor)) (hne : h ≠ b)
    (hsound : (i b).Sound secret (i b).device) (hknows : (i b).active (i h).device = true)
    (hbehind : (i b).groupEpoch < (i h).groupEpoch) : CatchUp secret i h b (i b).groupEpoch s := by
  obtain ⟨f, key, hinbox, hframe, hkey⟩ := hopening.word
  have hmin : (i b).keyStore (i b).groupEpoch = (i h).keyStore (i b).groupEpoch := by
    have hlower := hshares.1
    obtain ⟨rfl, rfl⟩ | ⟨rfl, rfl⟩ := sides_of_ne hne
    · rw [min_eq_right hbehind.le] at hlower
      exact hlower.symm
    · rw [min_eq_left hbehind.le] at hlower
      exact hlower
  have hopens : (s .acceptor).control.keys ((i .dialer).wordEpoch (i .acceptor).device) = some key := by
    have hdiffer : (i .dialer).groupEpoch ≠ (i .acceptor).groupEpoch := by
      obtain ⟨rfl, rfl⟩ | ⟨rfl, rfl⟩ := sides_of_ne hne
      · exact hbehind.ne'
      · exact hbehind.ne
    rw [(hopening.ready .acceptor).keys, hopening.identity, hshares.2.resolve_left hdiffer,
      ← hopening.identity .dialer, ← (hopening.ready .dialer).keys, hopening.identity]
    exact hkey
  refine ⟨?_, hopening.ready h, ?_, hopening.ready b, ?_, le_rfl, fun e hlow hhigh => ?_, ?_, ?_, ?_⟩
  · rw [hopening.identity]
    exact .refl _
  · rw [hopening.identity]
    exact hsound
  · rw [hopening.identity]
  · rw [hopening.identity, le_antisymm hhigh hlow]
    exact hmin
  · rw [hopening.identity]
    exact hknows
  · obtain ⟨rfl, rfl⟩ | ⟨rfl, rfl⟩ := sides_of_ne hne
    · rw [hopening.dialer.2]
      exact List.forall_mem_nil _
    · rw [hinbox, List.forall_mem_singleton]
      exact ⟨_, key, _, hframe, hopens, .epoch fun _ => rfl⟩
  · obtain ⟨rfl, rfl⟩ | ⟨rfl, rfl⟩ := sides_of_ne hne
    · exact .unread (hopening.introduced _) rfl (hopening.introduced _) hopening.acceptor hopening.dialer.2 hinbox
        hframe hopens
    · exact .answered (hopening.introduced _) rfl hopening.dialer.2 (hinbox ▸ List.mem_singleton_self f) hframe hopens

theorem CatchUp.run (hC : C.Lawful) (hne : h ≠ b) (hsound : (i h).Sound secret (i h).device)
    (hknows : (i h).active (i b).device = true) (hbehind : (i b).groupEpoch < (i h).groupEpoch)
    (hgap : (i h).groupEpoch < (i b).groupEpoch + MAX_RETAINED_KEY_EPOCHS) (hs : CatchUp secret i h b c s)
    (schedule : List (Side × Nat)) : ∃ c', CatchUp secret i h b c' (s.run schedule) := by
  refine run_induction (P := fun s => ∃ c', CatchUp secret i h b c' s)
    (fun s side nowMs f rest hs hinbox hread => ?_) schedule ⟨c, hs⟩
  obtain ⟨c', hs⟩ := hs
  by_cases hside : side = h
  · obtain rfl := hside
    exact ⟨c', hs.stepAhead hC hne.symm hsound hknows hbehind hgap hinbox hread⟩
  · obtain rfl : side = b := by
      obtain ⟨rfl, rfl⟩ | ⟨rfl, rfl⟩ := sides_of_ne hne
      · exact (sides_of_ne hside).elim (fun hs => absurd hs.2 (by decide)) And.left
      · exact (sides_of_ne hside).elim And.left fun hs => absurd hs.2 (by decide)
    exact hs.stepBehind hC hne hbehind hgap hinbox hread

/-- Once everything is read, the device behind is where the other one is. -/
theorem CatchUp.agreed (hne : h ≠ b) (hs : CatchUp secret i h b c s) (hfinished : s.Finished) : s.Agreed := by
  have hread : (s b).inbox = [] ∧ (s h).inbox = [] := by
    refine ⟨(hfinished b).resolve_left ?_, (hfinished h).resolve_left ?_⟩
    · rw [hs.behindReady.ended]
      exact Bool.false_ne_true
    · rw [hs.aheadReady.ended]
      exact Bool.false_ne_true
  obtain rfl : c = (i h).groupEpoch := by
    cases hs.stage with
    | unread _ _ _ _ _ hinbox =>
      rw [hread.1] at hinbox
      cases hinbox
    | answered _ _ _ hmem =>
      rw [hread.2] at hmem
      cases hmem
    | introduced _ hscript =>
      rw [hread.1] at hscript
      cases hscript
      rfl
  have hepoch : (s b).control.identity.groupEpoch = (s h).control.identity.groupEpoch :=
    hs.epoch.trans hs.ahead.groupEpoch.symm
  have hkey : (s b).control.identity.keyStore (s b).control.identity.groupEpoch =
      (s h).control.identity.keyStore (s h).control.identity.groupEpoch := by
    rw [hs.ahead.keyStore, hs.ahead.groupEpoch, hs.epoch]
    exact hs.keys _ hs.low le_rfl
  obtain ⟨rfl, rfl⟩ | ⟨rfl, rfl⟩ := sides_of_ne hne
  · exact ⟨hepoch.symm, hkey.symm⟩
  · exact ⟨hepoch, hkey⟩

end CatchUp

/-- Devices that do not share what `Shares` asks have a word between them that does not open. -/
theorem shut_of_not_shares {dialer acceptor : DeviceIdentity C} {key : C.Key}
    (hshares : ¬dialer.Shares acceptor)
    (hkeys : ∀ e ≤ acceptor.groupEpoch, (acceptor.keyStore e).isSome = true)
    (hgap : dialer.groupEpoch < acceptor.groupEpoch + MAX_RETAINED_KEY_EPOCHS ∧
      acceptor.groupEpoch < dialer.groupEpoch + MAX_RETAINED_KEY_EPOCHS)
    (hword : atHand dialer.keyStore dialer.groupEpoch (dialer.wordEpoch acceptor.device) = some key) :
    Shut dialer acceptor key := by
  by_cases hopen : atHand acceptor.keyStore acceptor.groupEpoch (dialer.wordEpoch acceptor.device) = some key
  · have hlower : dialer.keyStore (min acceptor.groupEpoch dialer.groupEpoch) ≠
        acceptor.keyStore (min acceptor.groupEpoch dialer.groupEpoch) := fun hsame =>
      hshares ⟨min_comm acceptor.groupEpoch dialer.groupEpoch ▸ hsame, .inr (hopen.trans hword.symm)⟩
    obtain ⟨other, hother⟩ := Option.isSome_iff_exists.1
      (hkeys (min acceptor.groupEpoch dialer.groupEpoch) (min_le_left _ _))
    refine .inr ⟨other, ?_, ?_⟩
    · rw [atHand_of_le (min_le_left _ _) (by omega), hother]
    · rw [atHand_of_le (min_le_right _ _) (by omega), ← hother]
      exact hlower
  · exact .inl hopen

/-- Two devices that do not share what `Shares` asks, and are on different epochs, stay so. -/
theorem Opening.stays {i : Side → DeviceIdentity C} (hC : C.Lawful) (hopening : Opening i s)
    (hdiffer : (i .dialer).groupEpoch ≠ (i .acceptor).groupEpoch)
    (hknown : (i .acceptor).active (i .dialer).device = true)
    (hshut : ∀ key, atHand (i .dialer).keyStore (i .dialer).groupEpoch ((i .dialer).wordEpoch (i .acceptor).device) =
      some key → Shut (i .dialer) (i .acceptor) key) (schedule : List (Side × Nat)) :
    ¬(s.run schedule).Agreed := by
  obtain ⟨f, key, hinbox, hframe, hkey⟩ := hopening.word
  have hkeys : (s .dialer).control.keys = atHand (i .dialer).keyStore (i .dialer).groupEpoch := by
    rw [(hopening.ready .dialer).keys, hopening.identity]
  have hstuck : Stuck i f s := by
    refine ⟨hopening.identity _, hkeys, ?_, .inl ⟨hopening.dialer.2, hinbox, hopening.ready _,
      hopening.introduced _, hopening.acceptor⟩⟩
    rw [hopening.identity]
    exact .refl _
  have hends := run_induction (fun s side nowMs f' rest hs hinbox hread =>
    Stuck.step hC hknown hframe (hshut key (hkeys ▸ hkey)) hs hinbox hread) schedule hstuck
  intro hagreed
  have hepoch := hagreed.1
  rw [hends.dialer, hends.acceptor.groupEpoch] at hepoch
  exact hdiffer hepoch

end ControlSession

/-- The devices of a session's two sides. -/
def World.sides (w : World C) (who : Side → DeviceId) (x : Side) : DeviceIdentity C := w.identities (who x)

open ControlSession in
/-- After any run of a group, a session between two devices that keep each other, within the retained epochs,
leaves both on one epoch with one key, when all of it is read, exactly if they share the key of the lower of
their epochs and, where these differ, that of the dialer's first word. -/
theorem session_agrees_iff (hC : C.Lawful) {w : World C} {key : C.Key} (hpaired : w.Paired key)
    (actions : List (Action C)) (who : Side → DeviceId) {i : Side → DeviceIdentity C}
    (hi : i = (w.after actions).sides who)
    (hknows : (i .dialer).active (who .acceptor) = true ∧ (i .acceptor).active (who .dialer) = true)
    (hgap : (i .dialer).groupEpoch < (i .acceptor).groupEpoch + MAX_RETAINED_KEY_EPOCHS ∧
      (i .acceptor).groupEpoch < (i .dialer).groupEpoch + MAX_RETAINED_KEY_EPOCHS)
    {around : Side → Surroundings C} {s : ControlSession C}
    (hopened : opened (i .dialer) (i .acceptor) around = some s) (schedule : List (Side × Nat))
    (hfinished : (s.run schedule).Finished) :
    (s.run schedule).Agreed ↔ (i .dialer).Shares (i .acceptor) := by
  have hdevices : ∀ x, (i x).Sound (fun d => (w.identities d).deviceStatic) (who x) := by
    rw [hi]
    exact fun x => (hpaired.sound.after actions).devices (who x)
  have hsound : ∀ x, (i x).Sound (fun d => (w.identities d).deviceStatic) (i x).device := fun x => by
    rw [(hdevices x).device]
    exact hdevices x
  rw [← (hdevices .acceptor).device, ← (hdevices .dialer).device] at hknows
  have hkeys : ∀ x, ((i x).keyStore (i x).groupEpoch).isSome = true := fun x => (hsound x).keys _ le_rfl
  have hopening := opening hkeys hopened
  have hstays : (i .dialer).groupEpoch ≠ (i .acceptor).groupEpoch → ¬(i .dialer).Shares (i .acceptor) →
      ¬(s.run schedule).Agreed := fun hdiffer hshares =>
    hopening.stays hC hdiffer hknows.2
      (fun _ => shut_of_not_shares hshares (hsound .acceptor).keys hgap) schedule
  rcases Nat.lt_trichotomy (i .dialer).groupEpoch (i .acceptor).groupEpoch with hlt | hsame | hlt
  · refine ⟨fun hagreed => by_contra fun hshares => hstays hlt.ne hshares hagreed, fun hshares => ?_⟩
    have hstart : CatchUp _ i .acceptor .dialer _ s :=
      hopening.catchUp hshares (by decide) (hsound .dialer) hknows.1 hlt
    obtain ⟨c, hs⟩ := hstart.run hC (by decide) (hsound .acceptor) hknows.2 hlt hgap.2 schedule
    exact hs.agreed (by decide) hfinished
  · have hepoch : ∀ x, (i x).groupEpoch = (i .acceptor).groupEpoch := fun x => by
      cases x
      · exact hsame
      · rfl
    have hlevel := run_induction (fun s side nowMs f rest hs hinbox hread =>
      Level.step hC hepoch hs hinbox hread) schedule (hopening.level hepoch)
    rw [hlevel.agreed_iff hepoch, Shares, hsame, min_self]
    exact ⟨fun hkey => ⟨hkey, .inl rfl⟩, And.left⟩
  · refine ⟨fun hagreed => by_contra fun hshares => hstays hlt.ne' hshares hagreed, fun hshares => ?_⟩
    have hstart : CatchUp _ i .dialer .acceptor _ s :=
      hopening.catchUp hshares (by decide) (hsound .acceptor) hknows.2 hlt
    obtain ⟨c, hs⟩ := hstart.run hC (by decide) (hsound .dialer) hknows.1 hlt hgap.1 schedule
    exact hs.agreed (by decide) hfinished

theorem plainCrypto_lawful : plainCrypto.Lawful where
  openGrant_wrap _ _ _ _ := if_pos rfl
  openControl_seal _ _ _ _ := if_pos ⟨rfl, rfl⟩
  openControl_other _ _ _ _ _ hne := if_neg fun h => hne h.1.symm

/-- Device 1 dials device 2. -/
def firstTwo : Side → DeviceId
  | .dialer => ⟨1⟩
  | .acceptor => ⟨2⟩

/-- Their session after a run of the four. -/
def meeting (actions : List (Action plainCrypto)) : Option (ControlSession plainCrypto) :=
  ControlSession.opened ((fourDevices.after actions).sides firstTwo .dialer)
    ((fourDevices.after actions).sides firstTwo .acceptor) fun _ => ⟨0, fun _ => false, fun _ => ()⟩

/-- Each reads in turn. -/
def turns : List (Side × Nat) := (List.replicate 4 [(.acceptor, 200), (.dialer, 200)]).flatten

/-- A device that the other one's removal left behind is brought up. -/
theorem session_agrees_removed : ∃ s, meeting [.remove ⟨1⟩ ⟨3⟩ 100 .manual 8] = some s ∧ (s.run turns).Agreed := by
  obtain ⟨s, hs⟩ : ∃ s, meeting [.remove ⟨1⟩ ⟨3⟩ 100 .manual 8] = some s := ⟨_, rfl⟩
  have hfinished : (s.run turns).Finished := by
    cases hs
    rintro (_ | _)
    · decide
    · decide
  refine ⟨s, hs, (session_agrees_iff plainCrypto_lawful fourDevices_paired [.remove ⟨1⟩ ⟨3⟩ 100 .manual 8] firstTwo
    rfl (by decide) (by decide) hs turns hfinished).2 ⟨?_, .inr ?_⟩⟩
  · decide
  · decide

/-- Two removals at once, and no grant on its way. -/
def atOnce : List (Action plainCrypto) := [.remove ⟨1⟩ ⟨3⟩ 100 .manual 8, .remove ⟨2⟩ ⟨4⟩ 100 .manual 9]

/-- The two keep each other and are on one epoch: the dialer says so under epoch 0, the answer is sealed with the
acceptor's own key for epoch 1, and with all that was sent read each is left with the key it made. -/
theorem not_session_agrees : ∃ s, meeting atOnce = some s ∧
    ((fourDevices.after atOnce).identities ⟨1⟩).active ⟨2⟩ = true ∧
    ((fourDevices.after atOnce).identities ⟨2⟩).active ⟨1⟩ = true ∧
    (∀ side, (s.run turns side).inbox = []) ∧ ¬(s.run turns).Agreed := by
  refine ⟨_, rfl, by decide, by decide, ?_, ?_⟩
  · rintro (_ | _)
    · decide
    · decide
  · intro hagreed
    have hkeys := hagreed.2
    revert hkeys
    decide

end Txtodo.GroupRotation
