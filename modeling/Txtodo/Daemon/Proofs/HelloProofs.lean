import Txtodo.Daemon.Proofs.PairingProofs

/-!
# Hellos

A hello is sent until it is answered with a grant. Answering one is a sequence of calls, so what holds of every run of
calls holds of every order of hellos; and two daemons whose humans confirm end with one key.
-/

namespace Txtodo.Pairing

variable {C : Crypto} {s s' : PairingSession C} {r r' : PairingRegistry C} {n : PairingNode C} {a a' : Active C}
variable {c : PairingCall C} {grant : PairingGrant} {wrapNonce : WrapNonce} {sealed : List UInt8} {nowMs : Nat}

/-! ## Hellos that are sent again -/

theorem finalized_withActive {step : Active C → Except PairingStateError α × PairingRegistry C}
    (h : ∀ a, (step a).2.finalized = r.finalized) : (r.withActive nowMs step).2.finalized = r.finalized := by
  unfold PairingRegistry.withActive
  cases r.active with
  | none => rfl
  | some a =>
    dsimp only
    split_ifs
    · rfl
    · exact h a

theorem finalized_confirmLocal (r : PairingRegistry C) (nowMs : Nat) (ownDevice : Bool) :
    (r.confirmLocal nowMs ownDevice).2.finalized = r.finalized := by
  refine finalized_withActive fun a => ?_
  cases a.session.confirmLocal with
  | error e => rfl
  | ok session =>
    dsimp only
    split
    · rfl
    · rfl

theorem finalized_markRemoteConfirmed (r : PairingRegistry C) (nowMs : Nat) (peerOwn : Bool) :
    (r.markRemoteConfirmed nowMs peerOwn).2.finalized = r.finalized := by
  refine finalized_withActive fun a => ?_
  cases a.session.confirmRemote with
  | error e => rfl
  | ok session => rfl

theorem finalized_completeAsInitiator (r : PairingRegistry C) (peer : DeviceId16) (peerPublic : Key32) (nowMs : Nat) :
    (r.completeAsInitiator peer peerPublic nowMs).2.finalized = r.finalized := by
  refine finalized_withActive fun a => ?_
  split_ifs
  · rfl
  · split
    · rfl
    · rfl

/-- The last grant changes only where one is sealed. -/
theorem finalized_call (h : n.sealing? c = none) : (n.call c).pairing.finalized = n.pairing.finalized := by
  cases c with
  | offer endpoint nowMs ownSecret nonce => exact (offer_cases n endpoint nowMs ownSecret nonce).1
  | accept offer nowMs ownSecret => exact (accept_cases n offer nowMs ownSecret).1
  | confirm nowMs ownDevice => exact finalized_confirmLocal ..
  | complete peerDevice peerPublic nowMs => exact finalized_completeAsInitiator ..
  | markRemote nowMs peerOwn => exact finalized_markRemoteConfirmed ..
  | finalize nowMs drawn wrapNonce =>
    rcases finalize_cases n.pairing n.keyStore n.staticPublic n.groupEpoch nowMs drawn wrapNonce with
      ⟨-, hsame, -⟩ | ⟨a, groupKey, sealed, ha, -, -, -, hfetch, hout⟩
    · exact hsame
    · simp only [PairingNode.sealing?, ha, hfetch, hout] at h
      cases h
  | adopt group sealed nowMs =>
    show (n.adoptGroupKey group sealed nowMs).2.pairing.finalized = n.pairing.finalized
    rcases adopt_cases n group sealed nowMs with ⟨-, hsame | hnone⟩ | ⟨a, grant, peer, -, -, -, -, -, -, hout⟩
    · rw [hsame]
    · rw [hnone]
    · rw [hout]
  | look nowMs => exact finalized_withActive fun a => rfl
  | register device staticPublic nowMs own => rfl
  | rekey epoch keyStore => rfl

/-- Calls that seal no grant. -/
def Quiet : PairingNode C → List (PairingCall C) → Prop
  | _, [] => True
  | n, c :: calls => n.sealing? c = none ∧ Quiet (n.call c) calls

theorem finalized_after {calls : List (PairingCall C)} (h : Quiet n calls) :
    (n.after calls).pairing.finalized = n.pairing.finalized := by
  induction calls generalizing n with
  | nil => rfl
  | cons c calls ih => exact (ih h.2).trans (finalized_call h.1)

variable {hello hello' : JoinerHello}

/-- The hello is for the open attempt, which no other device took. -/
structure Active.Takes (a : Active C) (hello : JoinerHello) : Prop where
  role : a.role = .initiator
  group : a.session.group = hello.group
  nonce : a.session.nonce = hello.nonce
  peer : a.session.handshake.isSome = true → a.session.peerDevice = some hello.device

/-- What becomes of a hello that no grant was sealed for: refused for the open attempt, taken up again, or the first to
reach it. -/
theorem processHello_cases (hcache : n.pairing.cachedGrant hello.device hello.nonce = none) (nowMs : Nat)
    (drawn : Key32) (wrapNonce : WrapNonce) :
    ((∀ a, n.pairing.active = some a → a.expired nowMs = false → ¬a.Takes hello) ∧
        n.processHello hello nowMs drawn wrapNonce =
          (.rejected, { n with pairing := (n.pairing.snapshot nowMs).2 })) ∨
      ∃ a, n.pairing.active = some a ∧ a.expired nowMs = false ∧ a.Takes hello ∧
        (a.session.handshake.isSome = true ∧
            n.processHello hello nowMs drawn wrapNonce = n.confirmOrPending hello nowMs drawn wrapNonce ∨
          a.session.handshake = none ∧ n.processHello hello nowMs drawn wrapNonce =
            match n.pairing.completeAsInitiator hello.device hello.publicKey nowMs with
            | (.error _, pairing) => (.rejected, { n with pairing := pairing })
            | (.ok (), pairing) => { n with pairing := pairing }.confirmOrPending hello nowMs drawn wrapNonce) := by
  have hprocess : n.processHello hello nowMs drawn wrapNonce = n.processHello hello nowMs drawn wrapNonce := rfl
  nth_rewrite 2 [PairingNode.processHello] at hprocess
  rw [hcache] at hprocess
  dsimp only at hprocess
  cases ha : n.pairing.active with
  | none =>
    have hsnapshot : n.pairing.snapshot nowMs = (.error .notActive, n.pairing) := withActive_none ha ..
    rw [hsnapshot] at hprocess ⊢
    exact .inl ⟨fun a ha => (by cases ha), hprocess⟩
  | some a =>
    by_cases hexpired : a.expired nowMs = true
    · have hsnapshot : n.pairing.snapshot nowMs = (.error .windowExpired, { n.pairing with active := none }) := by
        simp [PairingRegistry.snapshot, PairingRegistry.withActive, ha, hexpired]
      rw [hsnapshot] at hprocess ⊢
      refine .inl ⟨fun x hx hlive => ?_, hprocess⟩
      rw [← Option.some.inj hx, hexpired] at hlive
      cases hlive
    rw [Bool.not_eq_true] at hexpired
    have hsnapshot : n.pairing.snapshot nowMs = _ := withActive_live ha hexpired _
    have hsame : ({ n with pairing := n.pairing } : PairingNode C) = n := rfl
    rw [hsnapshot] at hprocess ⊢
    dsimp only at hprocess ⊢
    rw [hsame] at hprocess ⊢
    by_cases hother : (decide (a.role ≠ .initiator) || decide (a.session.group ≠ hello.group) ||
        decide (a.session.nonce ≠ hello.nonce)) = true
    · rw [if_pos hother] at hprocess
      refine .inl ⟨fun x hx _ htakes => ?_, hprocess⟩
      rw [← Option.some.inj hx] at htakes
      simp [htakes.role, htakes.group, htakes.nonce] at hother
    rw [if_neg hother] at hprocess
    obtain ⟨hrole, hgroup, hnonce⟩ : a.role = .initiator ∧ a.session.group = hello.group ∧
        a.session.nonce = hello.nonce := by
      simpa [and_assoc] using hother
    by_cases hshaken : a.session.handshake.isSome = true
    · rw [if_pos hshaken] at hprocess
      by_cases hpeer : a.session.peerDevice = some hello.device
      · rw [if_neg (not_not.2 hpeer)] at hprocess
        exact .inr ⟨a, rfl, hexpired, ⟨hrole, hgroup, hnonce, fun _ => hpeer⟩, .inl ⟨hshaken, hprocess⟩⟩
      · rw [if_pos hpeer] at hprocess
        refine .inl ⟨fun x hx _ htakes => ?_, hprocess⟩
        rw [← Option.some.inj hx] at htakes
        exact hpeer (htakes.peer hshaken)
    · rw [if_neg hshaken] at hprocess
      have hnone : a.session.handshake = none := by simpa using hshaken
      exact .inr ⟨a, rfl, hexpired, ⟨hrole, hgroup, hnonce, fun h => absurd h hshaken⟩, .inr ⟨hnone, hprocess⟩⟩

/-- An initiator's last step for a hello is never a refusal; where it is a grant, it is the one kept for the device and
the nonce of the attempt. -/
theorem confirmOrPending_cases (n : PairingNode C) (hello : JoinerHello) (nowMs : Nat) (drawn : Key32)
    (wrapNonce : WrapNonce) :
    let out := n.confirmOrPending hello nowMs drawn wrapNonce
    out.1 = .pending ∨ ∃ a sealed both, n.pairing.active = some a ∧ out.1 = .grant sealed ∧
      out.2.pairing.finalized = a.session.peerDevice.map fun device => ⟨device, a.session.nonce, sealed, both⟩ := by
  intro out
  have hout : out = n.confirmOrPending hello nowMs drawn wrapNonce := rfl
  rw [PairingNode.confirmOrPending] at hout
  generalize hm : (if hello.confirmed = true then
    ({ n with pairing := (n.pairing.markRemoteConfirmed nowMs hello.ownDevice).2 } : PairingNode C) else n) = m at hout
  have hactive : ∀ a', m.pairing.active = some a' → ∃ a, n.pairing.active = some a ∧
      a'.session.peerDevice = a.session.peerDevice ∧ a'.session.nonce = a.session.nonce := by
    intro a' ha'
    by_cases hconfirmed : hello.confirmed = true
    · rw [if_pos hconfirmed] at hm
      subst hm
      rcases active_call (c := .markRemote nowMs hello.ownDevice) ha' with ha | hmakes
      · exact ⟨a', ha, rfl, rfl⟩
      · cases hmakes with
        | remote peerOwn hactive hlive hshaken => exact ⟨_, hactive, rfl, rfl⟩
    · rw [if_neg hconfirmed] at hm
      subst hm
      exact ⟨a', ha', rfl, rfl⟩
  dsimp only [PairingNode.finalizeOrPending] at hout
  rcases finalize_cases m.pairing m.keyStore m.staticPublic m.groupEpoch nowMs drawn wrapNonce with
    ⟨hnone, -⟩ | ⟨a', groupKey, sealed, ha', -, -, -, -, hfinal⟩
  · refine .inl ?_
    rw [hout]
    split
    · rename_i hresult
      rw [hresult] at hnone
      exact absurd rfl (hnone _)
    · rfl
  · rw [hfinal] at hout
    obtain ⟨a, ha, hpeer, hnonce⟩ := hactive a' ha'
    refine .inr ⟨a, sealed, a'.ownAnswer && a'.peerOwnAnswer, ha, by rw [hout], ?_⟩
    rw [hout, ← hpeer, ← hnonce]
    rfl

/-- A grant that answers a hello is the one kept for its device and its nonce. -/
theorem finalized_of_grant {drawn : Key32} {m : PairingNode C}
    (h : n.processHello hello nowMs drawn wrapNonce = (.grant sealed, m)) :
    ∃ both, m.pairing.finalized = some ⟨hello.device, hello.nonce, sealed, both⟩ := by
  cases hcache : n.pairing.cachedGrant hello.device hello.nonce with
  | some kept =>
    obtain ⟨kept, both⟩ := kept
    simp only [PairingNode.processHello, hcache, Prod.mk.injEq, InitiatorReply.grant.injEq] at h
    obtain ⟨rfl, rfl⟩ := h
    unfold PairingRegistry.cachedGrant at hcache
    cases hf : n.pairing.finalized with
    | none => simp [hf] at hcache
    | some f =>
      simp only [hf, Option.ite_none_right_eq_some, Bool.and_eq_true, decide_eq_true_eq, Option.some.injEq,
        Prod.mk.injEq] at hcache
      obtain ⟨⟨hdevice, hnonce⟩, hsealed, hboth⟩ := hcache
      refine ⟨both, ?_⟩
      show n.pairing.finalized = _
      rw [hf, ← hdevice, ← hnonce, ← hsealed, ← hboth]
  | none =>
    have hlast : ∀ {m' : PairingNode C}, m'.confirmOrPending hello nowMs drawn wrapNonce = (.grant sealed, m) →
        (∀ a, m'.pairing.active = some a →
          a.session.peerDevice = some hello.device ∧ a.session.nonce = hello.nonce) →
        ∃ both, m.pairing.finalized = some ⟨hello.device, hello.nonce, sealed, both⟩ := by
      intro m' hm' hattempt
      rcases confirmOrPending_cases m' hello nowMs drawn wrapNonce with
        hpending | ⟨a, sealed', both, ha, hgrant, hfinalized⟩
      · rw [hm'] at hpending
        cases hpending
      · rw [hm'] at hgrant hfinalized
        obtain ⟨hpeer, hnonce⟩ := hattempt a ha
        obtain rfl := InitiatorReply.grant.inj hgrant
        rw [hpeer, hnonce] at hfinalized
        exact ⟨both, hfinalized⟩
    rcases processHello_cases hcache nowMs drawn wrapNonce with
      ⟨-, hrefused⟩ | ⟨a, ha, hlive, htakes, ⟨hshaken, hout⟩ | ⟨hnone, hout⟩⟩
    · rw [hrefused] at h
      cases h
    · rw [hout] at h
      refine hlast h fun x hx => ?_
      rw [ha] at hx
      obtain rfl := Option.some.inj hx
      exact ⟨htakes.peer hshaken, htakes.nonce⟩
    · rw [hout] at h
      cases hcomplete : n.pairing.completeAsInitiator hello.device hello.publicKey nowMs with
      | mk result pairing =>
        rw [hcomplete] at h
        cases result with
        | error e => cases h
        | ok u =>
          obtain ⟨a', ownSecret, ha', -, -, -, hactive⟩ :=
            completeAsInitiator_ok ⟨hello.device, hello.publicKey⟩ hcomplete
          refine hlast h fun x hx => ?_
          obtain rfl := Option.some.inj (hactive.symm.trans hx)
          obtain rfl := Option.some.inj (ha.symm.trans ha')
          exact ⟨rfl, htakes.nonce⟩

/-- A joiner whose grant was lost on the way gets the same one for each hello it sends again, until another is sealed,
and that changes nothing of the daemon's pairings. -/
theorem grant_sent_again {drawn drawn' : Key32} {wrapNonce' : WrapNonce} {nowMs' : Nat} {m : PairingNode C}
    {calls : List (PairingCall C)} (h : n.processHello hello nowMs drawn wrapNonce = (.grant sealed, m))
    (hquiet : Quiet m calls) (hdevice : hello'.device = hello.device) (hnonce : hello'.nonce = hello.nonce) :
    let out := (m.after calls).processHello hello' nowMs' drawn' wrapNonce'
    out.1 = .grant sealed ∧ out.2.pairing = (m.after calls).pairing := by
  obtain ⟨both, hfinalized⟩ := finalized_of_grant h
  rw [← finalized_after hquiet] at hfinalized
  have hcache : (m.after calls).pairing.cachedGrant hello'.device hello'.nonce = some (sealed, both) := by
    simp [PairingRegistry.cachedGrant, hfinalized, hdevice, hnonce]
  simp only [PairingNode.processHello, hcache]
  exact ⟨trivial, rfl⟩

/-- The hello of a phone whose human confirmed. -/
def phoneHello : JoinerHello := ⟨phone, laptopOffer.group, laptopOffer.nonce, byteKey 6, byteKey 2, true, true⟩

/-- The laptop at the hello that it answers with a grant. -/
def laptopReady : PairingNode clearCrypto := (freshNode laptop).after (laptopCalls.take 3)

theorem grant_sent_again_laptop :
    let m := (laptopReady.processHello phoneHello 60 (byteKey 8) zeroNonce).2
    ((m.after [.look 70, .confirm 80 false]).processHello phoneHello 90 (byteKey 9) zeroNonce).1 =
      .grant laptopSealed := by
  have hgrant : (laptopReady.processHello phoneHello 60 (byteKey 8) zeroNonce).1 = .grant laptopSealed := by
    decide +kernel
  have hquiet : Quiet (laptopReady.processHello phoneHello 60 (byteKey 8) zeroNonce).2
      [.look 70, .confirm 80 false] := by
    simp [Quiet, PairingNode.sealing?]
  exact (grant_sent_again (Prod.ext hgrant rfl) hquiet rfl rfl).1

/-! ## Hellos that are refused -/

/-- An attempt that no joiner reached can be completed: it has its secret, and its nonce is registered and not used
up. -/
def Completable (r : PairingRegistry C) : Prop :=
  ∀ a, r.active = some a → a.role = .initiator → a.session.handshake = none →
    r.nonces.open.find? a.session.nonce = some a.openedAtMs ∧ r.nonces.consumed.find? a.session.nonce = none ∧
      a.session.ownSecret.isSome = true ∧ a.session.closed = false

theorem issue_ok {nonces nonces' : NonceRegistry} {nonce : Nonce} (h : nonces.issue nonce nowMs = (.ok (), nonces')) :
    nonces'.open.find? nonce = some nowMs ∧
      (nonces.consumed.find? nonce = none → nonces'.consumed.find? nonce = none) := by
  unfold NonceRegistry.issue at h
  dsimp only at h
  split_ifs at h with hfull
  · simp at h
  · obtain rfl := (Prod.mk.inj h).2
    refine ⟨?_, fun hnone => ?_⟩
    · show ((nonces.prune nowMs).open.insert nonce nowMs).find? nonce = some nowMs
      rw [OrdMap.find?_insert, if_pos rfl]
    · show (nonces.prune nowMs).consumed.find? nonce = none
      rw [NonceRegistry.prune, OrdMap.find?_filter, hnone]
      rfl

theorem consume_of_open {nonces : NonceRegistry} {nonce : Nonce} {issuedAt : Nat}
    (hopen : nonces.open.find? nonce = some issuedAt) (hunused : nonces.consumed.find? nonce = none)
    (hwindow : nowMs - issuedAt ≤ PAIRING_WINDOW_MS) : ∃ nonces', nonces.consume nonce nowMs = (.ok (), nonces') := by
  unfold NonceRegistry.consume
  rw [hunused, hopen]
  dsimp only
  rw [if_neg (not_lt.2 hwindow), if_neg (by simp)]
  exact ⟨_, rfl⟩

/-- The first hello for a completable attempt completes it. -/
theorem Completable.complete (h : Completable r) (ha : r.active = some a) (hlive : a.expired nowMs = false)
    (hrole : a.role = .initiator) (hnone : a.session.handshake = none) (peer : DeviceId16) (peerPublic : Key32) :
    ∃ ownSecret nonces, a.session.ownSecret = some ownSecret ∧ r.completeAsInitiator peer peerPublic nowMs =
      (.ok (), { r with nonces := nonces, active := some (a.completed ownSecret ⟨peer, peerPublic⟩) }) := by
  obtain ⟨hopen, hunused, hsecret, hopened⟩ := h a ha hrole hnone
  obtain ⟨ownSecret, hsecret⟩ := Option.isSome_iff_exists.1 hsecret
  obtain ⟨nonces', hconsume⟩ := consume_of_open hopen hunused (Active.inWindow_iff.2 hlive)
  have hcomplete : a.session.complete peer peerPublic nowMs r.nonces =
      (.ok (a.completed ownSecret ⟨peer, peerPublic⟩).session, nonces') := by
    rw [PairingSession.complete, if_neg (by simp [hopened]), hconsume]
    dsimp only
    rw [hsecret]
    rfl
  refine ⟨ownSecret, nonces', hsecret, ?_⟩
  rw [PairingRegistry.completeAsInitiator, withActive_live ha hlive, if_neg (not_not.2 hrole), hcomplete]
  rfl

theorem Completable.of_none (h : r.active = none) : Completable r := by
  intro a ha
  rw [h] at ha
  cases ha

/-- A step that leaves the attempt and the nonces, or lets the attempt go, leaves it completable. -/
theorem Completable.of_same (h : Completable r) (hactive : r'.active = r.active ∨ r'.active = none)
    (hnonces : r'.nonces = r.nonces) : Completable r' := by
  rcases hactive with hsame | hnone
  · intro a ha
    rw [hnonces]
    exact h a (hsame ▸ ha)
  · exact .of_none hnone

theorem Completable.withActive {step : Active C → Except PairingStateError α × PairingRegistry C} (h : Completable r)
    (hstep : ∀ a, r.active = some a → a.expired nowMs = false → Completable (step a).2) :
    Completable (r.withActive nowMs step).2 := by
  unfold PairingRegistry.withActive
  cases ha : r.active with
  | none => exact h
  | some a =>
    dsimp only
    by_cases hexpired : a.expired nowMs = true
    · rw [if_pos hexpired]
      exact .of_none rfl
    · rw [if_neg hexpired]
      exact hstep a ha (by simpa using hexpired)

/-- An attempt that a joiner reached need not be completed. -/
theorem Completable.of_handshake (hactive : r.active = some a) (hshaken : a.session.handshake.isSome = true) :
    Completable r := by
  intro x hx _ hnone
  rw [← Option.some.inj (hactive.symm.trans hx)] at hnone
  rw [hnone] at hshaken
  cases hshaken

theorem Completable.call (h : Completable n.pairing) (c : PairingCall C)
    (hfresh : ∀ endpoint nowMs ownSecret nonce, c = .offer endpoint nowMs ownSecret nonce →
      n.pairing.nonces.consumed.find? nonce = none) : Completable (n.call c).pairing := by
  cases c with
  | offer endpoint nowMs ownSecret nonce =>
    rcases (offer_cases n endpoint nowMs ownSecret nonce).2 with hsame | hnone | ⟨hactive, hissue⟩
    · rw [hsame]
      exact h
    · exact .of_none hnone
    · obtain ⟨hopen, hunused⟩ := issue_ok hissue
      intro a ha _ _
      obtain rfl := Option.some.inj (hactive.symm.trans ha)
      exact ⟨hopen, hunused (hfresh endpoint nowMs ownSecret nonce rfl), rfl, rfl⟩
  | accept offer nowMs ownSecret =>
    rcases (accept_cases n offer nowMs ownSecret).2 with hsame | hnone | hactive
    · rw [hsame]
      exact h
    · exact .of_none hnone
    · exact .of_handshake hactive rfl
  | confirm nowMs ownDevice =>
    refine h.withActive fun a ha hlive => ?_
    cases hconfirm : a.session.confirmLocal with
    | error e => exact h
    | ok session =>
      obtain ⟨hshaken, rfl⟩ := confirmLocal_ok hconfirm
      dsimp only
      split
      · exact .of_handshake rfl hshaken
      · exact .of_handshake rfl hshaken
  | complete peerDevice peerPublic nowMs =>
    refine h.withActive fun a ha hlive => ?_
    by_cases hrole : a.role = .initiator
    · rw [if_neg (not_not.2 hrole)]
      cases hnone : a.session.handshake with
      | none =>
        obtain ⟨ownSecret, nonces, -, hstep⟩ := h.complete ha hlive hrole hnone peerDevice peerPublic
        rw [PairingRegistry.completeAsInitiator, withActive_live ha hlive, if_neg (not_not.2 hrole)] at hstep
        rw [hstep]
        exact .of_handshake rfl rfl
      | some hs =>
        split
        · exact .of_handshake (show _ = some a from ha) (by rw [hnone]; rfl)
        · rename_i session nonces hcomplete
          obtain ⟨ownSecret, -, rfl⟩ := complete_ok ⟨peerDevice, peerPublic⟩ hcomplete
          exact .of_handshake rfl rfl
    · rw [if_pos hrole]
      exact h
  | markRemote nowMs peerOwn =>
    refine h.withActive fun a ha hlive => ?_
    cases hconfirm : a.session.confirmRemote with
    | error e => exact h
    | ok session =>
      obtain ⟨hshaken, rfl⟩ := confirmRemote_ok hconfirm
      exact .of_handshake rfl hshaken
  | finalize nowMs drawn wrapNonce =>
    rcases finalize_cases n.pairing n.keyStore n.staticPublic n.groupEpoch nowMs drawn wrapNonce with
      ⟨-, -, hnonces, hactive⟩ | ⟨a, groupKey, sealed, -, -, -, -, -, hout⟩
    · exact h.of_same hactive hnonces
    · refine .of_none ?_
      show (n.pairing.tryFinalizeInitiator _ _ _ _ _ _).2.1.active = none
      rw [hout]
  | adopt group sealed nowMs =>
    show Completable (n.adoptGroupKey group sealed nowMs).2.pairing
    rcases adopt_cases n group sealed nowMs with ⟨-, hsame | hnone⟩ | ⟨a, grant, peer, -, -, -, -, -, -, hout⟩
    · rw [hsame]
      exact h
    · rw [hnone]
      exact .of_none rfl
    · rw [hout]
      exact .of_none rfl
  | look nowMs => exact h.withActive fun a ha hlive => h
  | register device staticPublic nowMs own => exact h
  | rekey epoch keyStore => exact h

/-- No nonce is drawn for an offer that was used up before. -/
def FreshNonces : PairingNode C → List (PairingCall C) → Prop
  | _, [] => True
  | n, c :: calls => (∀ endpoint nowMs ownSecret nonce, c = .offer endpoint nowMs ownSecret nonce →
      n.pairing.nonces.consumed.find? nonce = none) ∧ FreshNonces (n.call c) calls

theorem Completable.after {calls : List (PairingCall C)} (h : Completable n.pairing) (hfresh : FreshNonces n calls) :
    Completable (n.after calls).pairing := by
  induction calls generalizing n with
  | nil => exact h
  | cons c calls ih => exact ih (h.call c hfresh.1) hfresh.2

/-- In every run of a daemon a hello is refused just where the grant kept is not for its device and nonce and the open
attempt is not for it; and a refusal leaves the daemon as it was, but for an attempt whose window is past. -/
theorem rejected_iff (hnew : n.pairing = .new) {calls : List (PairingCall C)} (hfresh : FreshNonces n calls)
    (hello : JoinerHello) (nowMs : Nat) (drawn : Key32) (wrapNonce : WrapNonce) :
    let m := n.after calls
    let out := m.processHello hello nowMs drawn wrapNonce
    (out.1 = .rejected ↔ m.pairing.cachedGrant hello.device hello.nonce = none ∧
        ∀ a, m.pairing.active = some a → a.expired nowMs = false → ¬a.Takes hello) ∧
      (out.1 = .rejected → out.2 = { m with pairing := (m.pairing.snapshot nowMs).2 }) := by
  intro m out
  have hcompletable : Completable m.pairing := Completable.after (.of_none (by rw [hnew]; rfl)) hfresh
  cases hcache : m.pairing.cachedGrant hello.device hello.nonce with
  | some kept =>
    have hout : out = (.grant kept.1, m.registerPairedDevice hello.device hello.staticPublic nowMs kept.2) := by
      simp only [out, PairingNode.processHello, hcache]
    rw [hout]
    simp
  | none =>
    have hanswered : ∀ m' : PairingNode C, out = m'.confirmOrPending hello nowMs drawn wrapNonce →
        out.1 ≠ .rejected := by
      intro m' hout
      rw [hout]
      rcases confirmOrPending_cases m' hello nowMs drawn wrapNonce with hpending | ⟨a, sealed, both, -, hgrant, -⟩
      · rw [hpending]
        simp
      · rw [hgrant]
        simp
    rcases processHello_cases hcache nowMs drawn wrapNonce with
      ⟨hother, hout⟩ | ⟨a, ha, hlive, htakes, hcases⟩
    · have hout : out = _ := hout
      rw [hout]
      exact ⟨⟨fun _ => ⟨rfl, hother⟩, fun _ => rfl⟩, fun _ => rfl⟩
    · have hne : out.1 ≠ .rejected := by
        rcases hcases with ⟨-, hout⟩ | ⟨hnone, hout⟩
        · exact hanswered m hout
        · obtain ⟨ownSecret, nonces, -, hcomplete⟩ :=
            hcompletable.complete ha hlive htakes.role hnone hello.device hello.publicKey
          rw [hcomplete] at hout
          exact hanswered _ hout
      exact ⟨⟨fun h => absurd h hne, fun h => absurd htakes (h.2 a ha hlive)⟩, fun h => absurd h hne⟩

theorem rejected_iff_laptop :
    let m := (freshNode laptop).after (laptopCalls.take 1)
    let out := m.processHello { phoneHello with nonce := 4 } 30 (byteKey 8) zeroNonce
    out.1 = .rejected ∧ out.2 = { m with pairing := (m.pairing.snapshot 30).2 } := by
  intro m out
  have hrejected : out.1 = .rejected := by decide +kernel
  have hfresh : FreshNonces (freshNode laptop) (laptopCalls.take 1) := by
    refine ⟨fun endpoint nowMs ownSecret nonce hc => ?_, trivial⟩
    obtain ⟨-, -, -, rfl⟩ := PairingCall.offer.inj hc
    rfl
  exact ⟨hrejected, (rejected_iff rfl hfresh { phoneHello with nonce := 4 } 30 (byteKey 8) zeroNonce).2 hrejected⟩

/-! ## Hellos in every order of calls -/

/-- A call that draws no ephemeral key and adopts nothing: all a hello does. -/
def PairingCall.Plain (c : PairingCall C) : Prop := c.draws = none ∧ ∀ group sealed nowMs, c ≠ .adopt group sealed nowMs

theorem confirmOrPending_calls (n : PairingNode C) (hello : JoinerHello) (nowMs : Nat) (drawn : Key32)
    (wrapNonce : WrapNonce) :
    ∃ calls, (∀ c ∈ calls, c.Plain) ∧ (n.confirmOrPending hello nowMs drawn wrapNonce).2 = n.after calls := by
  rw [PairingNode.confirmOrPending]
  obtain ⟨first, hfirst, hafter⟩ : ∃ first : List (PairingCall C), (∀ c ∈ first, c.Plain) ∧
      (if hello.confirmed = true then
        ({ n with pairing := (n.pairing.markRemoteConfirmed nowMs hello.ownDevice).2 } : PairingNode C) else n) =
        n.after first := by
    by_cases hconfirmed : hello.confirmed = true
    · rw [if_pos hconfirmed]
      exact ⟨[.markRemote nowMs hello.ownDevice], by simp [PairingCall.Plain, PairingCall.draws], rfl⟩
    · rw [if_neg hconfirmed]
      exact ⟨[], by simp, rfl⟩
  rw [hafter]
  generalize hm : n.after first = m
  have hlast : ∀ last : List (PairingCall C), n.after (first ++ last) = m.after last := by
    intro last
    rw [PairingNode.after, List.foldl_append, ← hm]
    rfl
  dsimp only [PairingNode.finalizeOrPending]
  split
  · rename_i sealed own pairing keyStore hfinal
    refine ⟨first ++ [.finalize nowMs drawn wrapNonce, .register hello.device hello.staticPublic nowMs own], ?_, ?_⟩
    · intro c hc
      rcases List.mem_append.1 hc with hc | hc
      · exact hfirst c hc
      · rcases List.mem_cons.1 hc with rfl | hc
        · exact ⟨rfl, by simp⟩
        · rw [List.mem_singleton.1 hc]
          exact ⟨rfl, by simp⟩
    · rw [hlast]
      simp only [PairingNode.after, List.foldl_cons, List.foldl_nil, PairingNode.call, hfinal]
  · rename_i result pairing keyStore hnot hfinal
    refine ⟨first ++ [.finalize nowMs drawn wrapNonce], ?_, ?_⟩
    · intro c hc
      rcases List.mem_append.1 hc with hc | hc
      · exact hfirst c hc
      · rw [List.mem_singleton.1 hc]
        exact ⟨rfl, by simp⟩
    · rw [hlast]
      simp only [PairingNode.after, List.foldl_cons, List.foldl_nil, PairingNode.call, hfinal]

/-- Answering a hello is a sequence of calls. -/
theorem processHello_calls (n : PairingNode C) (hello : JoinerHello) (nowMs : Nat) (drawn : Key32)
    (wrapNonce : WrapNonce) :
    ∃ calls, (∀ c ∈ calls, c.Plain) ∧ (n.processHello hello nowMs drawn wrapNonce).2 = n.after calls := by
  cases hcache : n.pairing.cachedGrant hello.device hello.nonce with
  | some kept =>
    refine ⟨[.register hello.device hello.staticPublic nowMs kept.2], by simp [PairingCall.Plain, PairingCall.draws],
      ?_⟩
    simp only [PairingNode.processHello, hcache, PairingNode.after, List.foldl_cons, List.foldl_nil, PairingNode.call]
  | none =>
    rcases processHello_cases hcache nowMs drawn wrapNonce with
      ⟨-, hout⟩ | ⟨a, ha, hlive, htakes, ⟨-, hout⟩ | ⟨hnone, hout⟩⟩
    · rw [hout]
      exact ⟨[.look nowMs], by simp [PairingCall.Plain, PairingCall.draws], rfl⟩
    · rw [hout]
      exact confirmOrPending_calls n hello nowMs drawn wrapNonce
    · have hcall : n.call (.complete hello.device hello.publicKey nowMs) =
          { n with pairing := (n.pairing.completeAsInitiator hello.device hello.publicKey nowMs).2 } := rfl
      have hplain : (PairingCall.complete hello.device hello.publicKey nowMs : PairingCall C).Plain := ⟨rfl, by simp⟩
      cases hcomplete : n.pairing.completeAsInitiator hello.device hello.publicKey nowMs with
      | mk result pairing =>
        rw [hcomplete] at hout hcall
        rw [hout]
        cases result with
        | error e => exact ⟨[.complete hello.device hello.publicKey nowMs], by simpa using hplain, hcall.symm⟩
        | ok u =>
          obtain ⟨calls, hcalls, hafter⟩ :=
            confirmOrPending_calls ({ n with pairing := pairing } : PairingNode C) hello nowMs drawn wrapNonce
          refine ⟨.complete hello.device hello.publicKey nowMs :: calls, List.forall_mem_cons.2 ⟨hplain, hcalls⟩, ?_⟩
          show _ = (n.call (.complete hello.device hello.publicKey nowMs)).after calls
          rw [hcall]
          exact hafter

namespace World

variable {w : World C} {d : DeviceId16}

/-- Calls on one daemon, one after the other. -/
def run (w : World C) (d : DeviceId16) (calls : List (PairingCall C)) : World C := calls.foldl (fun w c => w.step d c) w

theorem run_nodes (w : World C) (d : DeviceId16) (calls : List (PairingCall C)) :
    (w.run d calls).nodes d = (w.nodes d).after calls := by
  induction calls generalizing w with
  | nil => rfl
  | cons c calls ih =>
    show ((w.step d c).run d calls).nodes d = ((w.nodes d).call c).after calls
    rw [ih]
    congr 1
    exact Function.update_self ..

theorem Reachable.run (h : w.Reachable) {calls : List (PairingCall C)} (hplain : ∀ c ∈ calls, c.Plain) :
    (w.run d calls).Reachable := by
  induction calls generalizing w with
  | nil => exact h
  | cons c calls ih =>
    obtain ⟨⟨hdraws, hadopts⟩, hrest⟩ := List.forall_mem_cons.1 hplain
    refine ih (h.call d c (fun ownSecret hsome => ?_) fun group sealed nowMs hadopt => ?_) hrest
    · rw [hdraws] at hsome
      cases hsome
    · exact absurd hadopt (hadopts group sealed nowMs)

theorem Reachable.device (h : w.Reachable) (d : DeviceId16) : (w.nodes d).device = d := by
  induction h with
  | start nodes hdevice hnew => exact hdevice d
  | call _ device c _ _ ih => rw [device_step, ih]

/-- The last grant a daemon keeps is one it sealed. -/
theorem Reachable.kept (h : w.Reachable) {f : FinalizedGrant} (hf : (w.nodes d).pairing.finalized = some f) :
    ∃ σ ∈ w.sealings, σ.device = d ∧ σ.sealed = f.sealed ∧ σ.active.session.peerDevice = some f.device ∧
      σ.active.session.nonce = f.nonce := by
  induction h generalizing f with
  | start nodes hd hnew =>
    have hnone : (nodes d).pairing.finalized = some f := hf
    rw [hnew] at hnone
    cases hnone
  | @call w hreach device c hfresh hsent ih =>
    have hold : (w.nodes d).pairing.finalized = some f → ∃ σ ∈ (w.step device c).sealings, σ.device = d ∧
        σ.sealed = f.sealed ∧ σ.active.session.peerDevice = some f.device ∧ σ.active.session.nonce = f.nonce := by
      intro hf
      obtain ⟨σ, hσ, hspec⟩ := ih hf
      exact ⟨σ, List.mem_append_right _ hσ, hspec⟩
    have hnodes : (w.step device c).nodes d = Function.update w.nodes device ((w.nodes device).call c) d := rfl
    rw [hnodes] at hf
    by_cases hd : d = device
    · subst hd
      rw [Function.update_self] at hf
      cases hσ : (w.nodes d).sealing? c with
      | none =>
        rw [finalized_call hσ] at hf
        exact hold hf
      | some σ =>
        obtain ⟨hown, -, -, -, ⟨both, hfinalized⟩, -⟩ := sealing_spec hσ
        rw [hfinalized] at hf
        obtain ⟨device, hpeer, rfl⟩ := Option.map_eq_some_iff.1 hf
        refine ⟨σ, List.mem_append_left _ ?_, hown.trans (hreach.device d), rfl, hpeer, rfl⟩
        rw [hσ]
        exact List.mem_singleton_self _
    · rw [Function.update_of_ne hd] at hf
      exact hold hf

/-- A hello, whoever sent it and whenever it arrives, is answered by calls, and a grant in the answer is one the daemon
sealed for the device and the nonce of the hello. -/
theorem hello_answered (h : w.Reachable) (d : DeviceId16) (hello : JoinerHello) (nowMs : Nat) (drawn : Key32)
    (wrapNonce : WrapNonce) :
    let out := (w.nodes d).processHello hello nowMs drawn wrapNonce
    ∃ calls, (w.run d calls).Reachable ∧ (w.run d calls).nodes d = out.2 ∧
      ∀ sealed, out.1 = .grant sealed → ∃ σ ∈ (w.run d calls).sealings, σ.device = d ∧ σ.sealed = sealed ∧
        σ.active.session.peerDevice = some hello.device ∧ σ.active.session.nonce = hello.nonce := by
  intro out
  obtain ⟨calls, hplain, hafter⟩ := processHello_calls (w.nodes d) hello nowMs drawn wrapNonce
  have hreach := h.run (d := d) hplain
  have hnode : (w.run d calls).nodes d = out.2 := by rw [run_nodes, ← hafter]
  refine ⟨calls, hreach, hnode, fun sealed hgrant => ?_⟩
  obtain ⟨both, hfinalized⟩ := finalized_of_grant (show (w.nodes d).processHello hello nowMs drawn wrapNonce =
    (.grant sealed, out.2) from Prod.ext hgrant rfl)
  rw [← hnode] at hfinalized
  exact hreach.kept hfinalized

theorem hello_answered_again :
    let out := (beforeAdoption.nodes laptop).processHello phoneHello 80 (byteKey 8) zeroNonce
    out.1 = .grant laptopSealed ∧ ∃ calls, (beforeAdoption.run laptop calls).nodes laptop = out.2 ∧
      ∃ σ ∈ (beforeAdoption.run laptop calls).sealings, σ.device = laptop ∧ σ.sealed = laptopSealed := by
  intro out
  have hgrant : out.1 = .grant laptopSealed := by decide +kernel
  obtain ⟨calls, -, hnodes, hsealed⟩ :=
    hello_answered beforeAdoption_reachable laptop phoneHello 80 (byteKey 8) zeroNonce
  obtain ⟨σ, hσ, hdevice, hbytes, -⟩ := hsealed laptopSealed hgrant
  exact ⟨hgrant, calls, hnodes, σ, hσ, hdevice, hbytes⟩

end World

/-! ## Two daemons that pair -/

/-- The libraries refuse nothing a pairing asks of them. -/
structure Crypto.Total (C : Crypto) : Prop where
  expand : ∀ sharedSecret transcript info len, len ≤ 255 * 32 →
    (C.expand sharedSecret transcript info len).isSome = true
  encrypt : ∀ key nonce msg aad, (C.encrypt key nonce msg aad).isSome = true
  grantBytes : ∀ grant, (C.grantBytes grant).isSome = true

theorem clearCrypto_total : clearCrypto.Total where
  expand sharedSecret transcript info len hlen := by simp [clearCrypto, hlen]
  encrypt key nonce msg aad := rfl
  grantBytes grant := rfl

theorem wrapGrant_total (hT : C.Total) {hs : Handshake} (hready : s.isReadyToSendKey = true)
    (hhs : s.handshake = some hs) (grant : PairingGrant) (wrapNonce : WrapNonce) :
    ∃ sealed, s.wrapGrant grant wrapNonce = .ok sealed := by
  obtain ⟨bytes, hbytes⟩ := Option.isSome_iff_exists.1 (hT.grantBytes grant)
  obtain ⟨key, hkey⟩ := Option.isSome_iff_exists.1
    (hT.expand hs.sharedSecret hs.transcript PAIR_KEY_INFO PAIR_KEY_BYTES (by decide))
  obtain ⟨ciphertext, hcipher⟩ := Option.isSome_iff_exists.1 (hT.encrypt key wrapNonce.1 bytes hs.transcript)
  have hpairKey : pairKey C hs.sharedSecret hs.transcript = .ok key := by rw [pairKey, hkey]
  have hopened : ¬s.closed = true := by simp [(isReadyToSendKey_iff.1 hready).2.2]
  refine ⟨wrapNonce.1 ++ ciphertext, ?_⟩
  rw [PairingSession.wrapGrant, hbytes]
  dsimp only
  rw [PairingSession.wrapGroupKey, if_neg hopened, if_neg (by simp [hready]), hhs]
  dsimp only
  rw [hpairKey]
  dsimp only
  rw [hcipher]

/-- A grant opens in an attempt of the same exchange. -/
theorem unwrapGrant_same (hC : C.Lawful) (hwrap : s.wrapGrant grant wrapNonce = .ok sealed)
    (hready : s'.isReadyToSendKey = true) (hsame : s'.handshake = s.handshake) : s'.unwrapGrant sealed = .ok grant := by
  obtain ⟨hs, key, bytes, ciphertext, hhs, hbytes, hkey, hcipher, rfl, -⟩ := wrapGrant_ok hwrap
  have hopened : ¬s'.closed = true := by simp [(isReadyToSendKey_iff.1 hready).2.2]
  have hlong : ¬(wrapNonce.1 ++ ciphertext).length < WRAP_NONCE_BYTES := by
    rw [List.length_append, wrapNonce.2]
    omega
  have hgroupKey : s'.unwrapGroupKey (wrapNonce.1 ++ ciphertext) = .ok bytes := by
    rw [PairingSession.unwrapGroupKey, if_neg hopened, if_neg (by simp [hready]), if_neg hlong, hsame, hhs]
    dsimp only
    rw [hkey]
    dsimp only
    rw [List.take_left' wrapNonce.2, List.drop_left' wrapNonce.2,
      hC.decrypt_encrypt key wrapNonce.1 bytes hs.transcript ciphertext hcipher]
  rw [PairingSession.unwrapGrant, hgroupKey]
  dsimp only
  rw [PairingGrant.fromBytes, hC.grantOf_grantBytes grant bytes hbytes]

theorem buildHello_live (ha : n.pairing.active = some a) (hlive : a.expired nowMs = false) (offer : PairingOffer)
    (ownPublic : Key32) : n.buildHello offer ownPublic nowMs =
      (⟨n.device, offer.group, offer.nonce, ownPublic, n.staticPublic, a.session.localConfirmed, a.ownAnswer⟩, n) := by
  rw [PairingNode.buildHello, PairingRegistry.joinerLocalConfirmed, withActive_live ha hlive]

theorem confirmLocal_live {sas : List Nat} (ha : r.active = some a) (hlive : a.expired nowMs = false)
    (hwords : a.session.words = .ok sas) (ownDevice : Bool) :
    r.confirmLocal nowMs ownDevice = (.ok sas, { r with active := some (a.locallyConfirmed ownDevice) }) := by
  have hwords' : (a.locallyConfirmed ownDevice).session.words = .ok sas := hwords
  unfold PairingSession.words at hwords
  split_ifs at hwords with hclosed
  cases hhs : a.session.handshake with
  | none => simp [hhs] at hwords
  | some hs =>
    have hconfirm : a.session.confirmLocal = .ok (a.locallyConfirmed ownDevice).session := by
      rw [PairingSession.confirmLocal, if_neg hclosed, if_neg (by simp [hhs])]
      rfl
    rw [PairingRegistry.confirmLocal, withActive_live ha hlive, hconfirm]
    dsimp only
    rw [hwords']
    rfl

theorem markRemoteConfirmed_live (ha : r.active = some a) (hlive : a.expired nowMs = false)
    (hopened : a.session.closed = false) (hshaken : a.session.handshake.isSome = true) (peerOwn : Bool) :
    r.markRemoteConfirmed nowMs peerOwn = (.ok (), { r with active := some (a.remotelyConfirmed peerOwn) }) := by
  obtain ⟨hs, hhs⟩ := Option.isSome_iff_exists.1 hshaken
  have hconfirm : a.session.confirmRemote = .ok (a.remotelyConfirmed peerOwn).session := by
    rw [PairingSession.confirmRemote, if_neg (by simp [hopened]), if_neg (by simp [hhs])]
    rfl
  rw [PairingRegistry.markRemoteConfirmed, withActive_live ha hlive, hconfirm]
  rfl

/-- An attempt that is not ready waits. -/
theorem finalizeOrPending_waits (ha : n.pairing.active = some a) (hlive : a.expired nowMs = false)
    (hwaits : a.session.isReadyToSendKey = false) (device : DeviceId16) (staticPublic drawn : Key32)
    (wrapNonce : WrapNonce) : n.finalizeOrPending device staticPublic nowMs drawn wrapNonce = (.pending, n) := by
  have hfinal : n.pairing.tryFinalizeInitiator n.keyStore n.staticPublic n.groupEpoch nowMs drawn wrapNonce =
      (.ok none, n.pairing, n.keyStore) := by
    simp [PairingRegistry.tryFinalizeInitiator, ha, hlive, hwaits]
  rw [PairingNode.finalizeOrPending, hfinal]

/-- An attempt that is ready hands its grant over. -/
theorem finalizeOrPending_ready (hT : C.Total) {hs : Handshake} {groupKey drawn : Key32}
    (ha : n.pairing.active = some a) (hlive : a.expired nowMs = false) (hrole : a.role = .initiator)
    (hready : a.session.isReadyToSendKey = true) (hhs : a.session.handshake = some hs)
    (hkey : (fetchOrMintGroupKey n.keyStore n.groupEpoch drawn).1 = .ok groupKey) (device : DeviceId16)
    (staticPublic : Key32) (wrapNonce : WrapNonce) :
    ∃ sealed,
      a.session.wrapGrant (PairingRegistry.grantOf a groupKey n.staticPublic n.groupEpoch) wrapNonce = .ok sealed ∧
      n.finalizeOrPending device staticPublic nowMs drawn wrapNonce = (.grant sealed,
        ({ n with
          pairing := { n.pairing with
            finalized := a.session.peerDevice.map fun device =>
              ⟨device, a.session.nonce, sealed, a.ownAnswer && a.peerOwnAnswer⟩
            active := none }
          keyStore := (fetchOrMintGroupKey n.keyStore n.groupEpoch drawn).2 } : PairingNode C).registerPairedDevice
            device staticPublic nowMs (a.ownAnswer && a.peerOwnAnswer)) := by
  obtain ⟨sealed, hwrap⟩ := wrapGrant_total hT hready hhs
    (PairingRegistry.grantOf a groupKey n.staticPublic n.groupEpoch) wrapNonce
  have hwait : ¬(decide (a.role ≠ .initiator) || !a.session.isReadyToSendKey) = true := by simp [hrole, hready]
  have hfetch : fetchOrMintGroupKey n.keyStore n.groupEpoch drawn =
      (.ok groupKey, (fetchOrMintGroupKey n.keyStore n.groupEpoch drawn).2) := Prod.ext hkey rfl
  refine ⟨sealed, hwrap, ?_⟩
  rw [PairingNode.finalizeOrPending, PairingRegistry.tryFinalizeInitiator, ha]
  dsimp only
  rw [hlive, if_neg (by simp), if_neg hwait, hfetch]
  dsimp only
  rw [hwrap]

theorem fetchOrMintGroupKey_ok {keyStore : KeyStore} {epoch : Nat} {drawn key : Key32}
    (h : (fetchOrMintGroupKey keyStore epoch drawn).1 = .ok key) :
    (fetchOrMintGroupKey keyStore epoch drawn).2 epoch = some key.1 := by
  unfold fetchOrMintGroupKey at h ⊢
  cases hkept : keyStore epoch with
  | some bytes =>
    by_cases hlength : bytes.length = 32
    · simp only [hkept, hlength, dite_true, Except.ok.injEq] at h ⊢
      rw [← h]
    · simp [hkept, hlength] at h
  | none =>
    by_cases hepoch : epoch ≠ INITIAL_GROUP_EPOCH
    · simp [hkept, hepoch] at h
    · simp only [hkept, hepoch, if_false, Except.ok.injEq] at h ⊢
      rw [← h, Function.update_self]

/-! ### The daemons that meet -/

theorem beginOffer_ok {endpoint : Text} {ownSecret : C.Secret} {nonce : Nonce} {offer : PairingOffer}
    (h : (n.pairing.beginOffer n.device n.group endpoint nowMs ownSecret nonce).1 = .ok offer) :
    let r := (n.call (.offer endpoint nowMs ownSecret nonce)).pairing
    r.active = some (offered n nowMs ownSecret nonce) ∧ n.pairing.nonces.issue nonce nowMs = (.ok (), r.nonces) := by
  intro r
  have hr : r = (n.pairing.beginOffer n.device n.group endpoint nowMs ownSecret nonce).2 := rfl
  rw [PairingRegistry.beginOffer] at h hr
  rcases ensureCapacity_cases n.pairing nowMs with hcap | hcap
  · rw [hcap] at h
    cases h
  · rw [hcap] at h hr
    dsimp only [PairingSession.offer] at h hr
    cases hissue : n.pairing.nonces.issue nonce nowMs with
    | mk result nonces =>
      rw [hissue] at h hr
      cases result with
      | error e => cases h
      | ok u =>
        rw [hr]
        exact ⟨rfl, rfl⟩

theorem beginAccept_ok {offer : PairingOffer} {ownSecret : C.Secret} {sas : List Nat}
    (h : (n.pairing.beginAccept n.device offer nowMs ownSecret).1 = .ok sas) :
    (n.call (.accept offer nowMs ownSecret)).pairing.active = some (accepted n offer nowMs ownSecret) ∧
      (accepted n offer nowMs ownSecret).session.words = .ok sas := by
  have hr : (n.call (.accept offer nowMs ownSecret)).pairing =
      (n.pairing.beginAccept n.device offer nowMs ownSecret).2 := rfl
  rw [PairingRegistry.beginAccept] at h hr
  rcases ensureCapacity_cases n.pairing nowMs with hcap | hcap
  · rw [hcap] at h
    cases h
  · rw [hcap] at h hr
    dsimp only [PairingSession.accept] at h hr
    cases hwitness : n.pairing.nonces.witness offer.nonce offer.issuedAtMs nowMs with
    | mk result nonces =>
      rw [hwitness] at h hr
      cases result with
      | error e => cases h
      | ok u =>
        dsimp only at h hr
        split at h
        · cases h
        · rename_i sas' hwords
          rw [hwords] at hr
          rw [hr]
          exact ⟨rfl, hwords.trans (congrArg _ (Except.ok.inj h))⟩

theorem cachedGrant_congr (h : r'.finalized = r.finalized) (device : DeviceId16) (nonce : Nonce) :
    r'.cachedGrant device nonce = r.cachedGrant device nonce := by
  rw [PairingRegistry.cachedGrant, h]
  rfl

/-- A daemon but for its pairings. -/
structure SameFiles (n n' : PairingNode C) : Prop where
  device : n'.device = n.device
  staticPublic : n'.staticPublic = n.staticPublic
  group : n'.group = n.group
  groupEpoch : n'.groupEpoch = n.groupEpoch
  keyStore : n'.keyStore = n.keyStore
  devices : n'.devices = n.devices

theorem SameFiles.setPairing {n' : PairingNode C} (h : SameFiles n n') (r : PairingRegistry C) :
    SameFiles n { n' with pairing := r } :=
  ⟨h.device, h.staticPublic, h.group, h.groupEpoch, h.keyStore, h.devices⟩

theorem confirm_none (h : n.pairing.active = none) (nowMs : Nat) (ownDevice : Bool) :
    n.call (.confirm nowMs ownDevice) = n := by
  have hrefused : n.pairing.confirmLocal nowMs ownDevice = (.error .notActive, n.pairing) := withActive_none h ..
  show ({ n with pairing := (n.pairing.confirmLocal nowMs ownDevice).2 } : PairingNode C) = n
  rw [hrefused]

/-- Two daemons, the offer one makes and the other accepts, and what their humans say of each other's device. -/
structure Meeting (C : Crypto) where
  initiator : PairingNode C
  joiner : PairingNode C
  endpoint : Text
  nonce : Nonce
  offeredAtMs : Nat
  acceptedAtMs : Nat
  initiatorSecret : C.Secret
  joinerSecret : C.Secret
  initiatorOwn : Bool
  joinerOwn : Bool

namespace Meeting

variable {m : Meeting C} {i j : PairingNode C} {key : Key32} {reached confirmed heard answered : Bool}

def initiatorPublic (m : Meeting C) : Key32 := C.publicOf m.initiatorSecret

def joinerPublic (m : Meeting C) : Key32 := C.publicOf m.joinerSecret

/-- The offer the initiator shows. -/
def offer (m : Meeting C) : PairingOffer :=
  ⟨m.initiator.device, m.initiator.group, m.initiatorPublic, m.endpoint, m.nonce, m.offeredAtMs, none, none⟩

/-- The daemons after the offer and its acceptance, with nothing on the way. -/
def start (m : Meeting C) : PairingNet C :=
  ⟨m.initiator.call (.offer m.endpoint m.offeredAtMs m.initiatorSecret m.nonce),
    m.joiner.call (.accept m.offer m.acceptedAtMs m.joinerSecret), [], []⟩

/-- The offer and its acceptance are let through, the nonce is new, and the initiator has a key to hand over. -/
structure Sound (m : Meeting C) : Prop where
  apart : m.initiator.device ≠ m.joiner.device
  unused : m.initiator.pairing.nonces.consumed.find? m.nonce = none
  unserved : m.initiator.pairing.cachedGrant m.joiner.device m.nonce = none
  key : ∀ drawn, ∃ key, (fetchOrMintGroupKey m.initiator.keyStore m.initiator.groupEpoch drawn).1 = .ok key
  offered : (m.initiator.pairing.beginOffer m.initiator.device m.initiator.group m.endpoint m.offeredAtMs
    m.initiatorSecret m.nonce).1 = .ok m.offer
  accepted : ∃ sas,
    (m.joiner.pairing.beginAccept m.joiner.device m.offer m.acceptedAtMs m.joinerSecret).1 = .ok sas

/-- The exchange of both. -/
def handshake (m : Meeting C) : Handshake :=
  handshakeOf C ⟨m.joiner.device, m.joinerPublic⟩ m.joinerSecret ⟨m.initiator.device, m.initiatorPublic⟩
    m.initiator.group

theorem handshake_eq (hC : C.Lawful) (m : Meeting C) (hapart : m.initiator.device ≠ m.joiner.device) :
    handshakeOf C ⟨m.initiator.device, m.initiatorPublic⟩ m.initiatorSecret ⟨m.joiner.device, m.joinerPublic⟩
      m.initiator.group = m.handshake := by
  unfold handshake handshakeOf
  congr 1
  · exact (transcript_eq_iff PROTOCOL_VERSION).2 ⟨rfl, .inr ⟨hapart, rfl, rfl⟩⟩
  · exact hC.diffieHellman_comm m.initiatorSecret m.joinerSecret

/-- The initiator's attempt: whether a hello reached it, and who confirmed. -/
def initiatorAttempt (m : Meeting C) (reached confirmed heard : Bool) : Active C where
  session :=
    { ownDevice := m.initiator.device
      group := m.initiator.group
      nonce := m.nonce
      ownSecret := if reached then none else some m.initiatorSecret
      ownPublic := m.initiatorPublic
      peerDevice := if reached then some m.joiner.device else none
      handshake := if reached then some m.handshake else none
      localConfirmed := confirmed
      remoteConfirmed := heard
      failedConfirmations := 0
      closed := false }
  role := .initiator
  openedAtMs := m.offeredAtMs
  ownPublic := none
  ownAnswer := confirmed && m.initiatorOwn
  peerOwnAnswer := heard && m.joinerOwn

/-- The joiner's attempt, before and after its human answered. -/
def joinerAttempt (m : Meeting C) (answered : Bool) : Active C :=
  let a := Pairing.accepted m.joiner m.offer m.acceptedAtMs m.joinerSecret
  { a with
    session := { a.session with localConfirmed := answered }
    ownAnswer := answered && m.joinerOwn }

/-- What the joiner sends, before and after its human answered. -/
def helloOf (m : Meeting C) (answered : Bool) : JoinerHello :=
  ⟨m.joiner.device, m.initiator.group, m.nonce, m.joinerPublic, m.joiner.staticPublic, answered,
    answered && m.joinerOwn⟩

/-- The initiator, until it seals its grant. -/
structure Waits (m : Meeting C) (reached confirmed heard : Bool) (i : PairingNode C) : Prop where
  files : SameFiles m.initiator i
  active : i.pairing.active = some (m.initiatorAttempt reached confirmed heard)
  completable : Completable i.pairing
  unserved : i.pairing.cachedGrant m.joiner.device m.nonce = none

/-- The initiator, once it sealed its grant. -/
structure Granted (m : Meeting C) (key : Key32) (sealed : List UInt8) (i : PairingNode C) : Prop where
  device : i.device = m.initiator.device
  group : i.group = m.initiator.group
  groupEpoch : i.groupEpoch = m.initiator.groupEpoch
  keyStore : i.keyStore i.groupEpoch = some key.1
  active : i.pairing.active = none
  served : i.pairing.cachedGrant m.joiner.device m.nonce = some (sealed, m.initiatorOwn && m.joinerOwn)
  wrapped : ∃ (s : PairingSession C) (wrapNonce : WrapNonce), s.handshake = some m.handshake ∧
    s.wrapGrant ⟨key, m.initiator.staticPublic, m.initiatorOwn, m.initiator.groupEpoch⟩ wrapNonce = .ok sealed
  row : ∃ nowMs, i.devices = Function.update m.initiator.devices m.joiner.device
    (some ⟨m.joiner.staticPublic, nowMs, m.initiator.groupEpoch, m.initiatorOwn && m.joinerOwn⟩)

/-- The joiner, until a grant arrives. -/
structure Open (m : Meeting C) (answered : Bool) (j : PairingNode C) : Prop where
  files : SameFiles m.joiner j
  active : j.pairing.active = some (m.joinerAttempt answered)

/-- The joiner, once it filed the key. -/
structure Filed (m : Meeting C) (key : Key32) (j : PairingNode C) : Prop where
  device : j.device = m.joiner.device
  staticPublic : j.staticPublic = m.joiner.staticPublic
  group : j.group = m.initiator.group
  groupEpoch : j.groupEpoch = m.initiator.groupEpoch
  keyStore : j.keyStore = Function.update m.joiner.keyStore m.initiator.groupEpoch (some key.1)
  active : j.pairing.active = none
  row : ∃ nowMs, j.devices = Function.update m.joiner.devices m.initiator.device
    (some ⟨m.initiator.staticPublic, nowMs, m.initiator.groupEpoch, m.initiatorOwn && m.joinerOwn⟩)

/-! ### The initiator's steps -/

theorem initiatorAttempt_live (reached confirmed heard : Bool) (ht : nowMs - m.offeredAtMs ≤ PAIRING_WINDOW_MS) :
    (m.initiatorAttempt reached confirmed heard).expired nowMs = false :=
  Active.inWindow_iff.1 ht

theorem joinerAttempt_live (answered : Bool) (ht : nowMs - m.acceptedAtMs ≤ PAIRING_WINDOW_MS) :
    (m.joinerAttempt answered).expired nowMs = false :=
  Active.inWindow_iff.1 ht

theorem Sound.sas (hm : m.Sound) : ∃ sas, sasWords C m.handshake.sharedSecret m.handshake.transcript = .ok sas := by
  obtain ⟨sas, haccept⟩ := hm.accepted
  exact ⟨sas, (beginAccept_ok haccept).2⟩

theorem Sound.waits (hm : m.Sound) : m.Waits false false false m.start.initiator := by
  obtain ⟨hactive, hissue⟩ := beginOffer_ok hm.offered
  obtain ⟨hopen, hunused⟩ := issue_ok hissue
  refine ⟨⟨rfl, rfl, rfl, rfl, rfl, rfl⟩, hactive, fun a ha hrole hnone => ?_, ?_⟩
  · obtain rfl := Option.some.inj (hactive.symm.trans ha)
    exact ⟨hopen, hunused hm.unused, rfl, rfl⟩
  · rw [← hm.unserved]
    exact cachedGrant_congr (offer_cases m.initiator m.endpoint m.offeredAtMs m.initiatorSecret m.nonce).1 _ _

theorem Sound.isOpen (hm : m.Sound) : m.Open false m.start.joiner := by
  obtain ⟨sas, haccept⟩ := hm.accepted
  exact ⟨⟨rfl, rfl, rfl, rfl, rfl, rfl⟩, (beginAccept_ok haccept).1⟩

/-- The initiator's human confirms what a hello made of the attempt; before one there is nothing to confirm. -/
theorem Waits.confirms (hm : m.Sound) (h : m.Waits reached confirmed heard i)
    (ht : nowMs - m.offeredAtMs ≤ PAIRING_WINDOW_MS) :
    m.Waits reached (confirmed || reached) heard (i.call (.confirm nowMs m.initiatorOwn)) := by
  have hlive := initiatorAttempt_live reached confirmed heard ht
  have hcall : i.call (.confirm nowMs m.initiatorOwn) =
    { i with pairing := (i.pairing.confirmLocal nowMs m.initiatorOwn).2 } := rfl
  cases reached with
  | false =>
    have hrefused : i.pairing.confirmLocal nowMs m.initiatorOwn = (.error (.session .notHandshaken), i.pairing) := by
      rw [PairingRegistry.confirmLocal, withActive_live h.active hlive]
      rfl
    rw [hcall, hrefused, Bool.or_false]
    exact h
  | true =>
    obtain ⟨sas, hsas⟩ := hm.sas
    have hconfirm := confirmLocal_live h.active hlive hsas m.initiatorOwn
    have hcompletable := h.completable.call (.confirm nowMs m.initiatorOwn) (by simp)
    rw [hcall, hconfirm] at hcompletable
    rw [hcall, hconfirm, Bool.or_true]
    refine ⟨h.files.setPairing _, rfl, hcompletable, ?_⟩
    rw [← h.unserved]
    exact cachedGrant_congr rfl _ _

theorem Waits.takes (h : m.Waits reached confirmed heard i) :
    (m.initiatorAttempt reached confirmed heard).Takes (m.helloOf answered) := by
  refine ⟨rfl, rfl, rfl, fun hshaken => ?_⟩
  cases reached with
  | false => cases hshaken
  | true => rfl

/-- A hello reaches the attempt, or had reached it. -/
theorem Waits.reaches (hC : C.Lawful) (hm : m.Sound) (h : m.Waits reached confirmed heard i)
    (ht : nowMs - m.offeredAtMs ≤ PAIRING_WINDOW_MS) (answered : Bool) (drawn : Key32) (wrapNonce : WrapNonce) :
    ∃ i', m.Waits true confirmed heard i' ∧ i.processHello (m.helloOf answered) nowMs drawn wrapNonce =
      i'.confirmOrPending (m.helloOf answered) nowMs drawn wrapNonce := by
  have hlive := initiatorAttempt_live reached confirmed heard ht
  have hcache : i.pairing.cachedGrant (m.helloOf answered).device (m.helloOf answered).nonce = none := h.unserved
  rcases processHello_cases hcache nowMs drawn wrapNonce with
    ⟨hnone, -⟩ | ⟨a, ha, -, -, hcases⟩
  · exact absurd h.takes (hnone _ h.active hlive)
  · obtain rfl := Option.some.inj (h.active.symm.trans ha)
    rcases hcases with ⟨hshaken, hout⟩ | ⟨hnone, hout⟩
    · cases reached with
      | false => cases hshaken
      | true => exact ⟨i, h, hout⟩
    · cases reached with
      | true => cases hnone
      | false =>
        obtain ⟨ownSecret, nonces, hsecret, hcomplete⟩ :=
          h.completable.complete h.active hlive rfl rfl m.joiner.device m.joinerPublic
        obtain rfl := Option.some.inj hsecret
        have hattempt : (m.initiatorAttempt false confirmed heard).completed m.initiatorSecret
            ⟨m.joiner.device, m.joinerPublic⟩ = m.initiatorAttempt true confirmed heard := by
          simp only [Active.completed, initiatorAttempt, handshake_eq hC m hm.apart, Bool.false_eq_true, if_false,
            if_true]
        rw [hattempt] at hcomplete
        have hcomplete' : i.pairing.completeAsInitiator (m.helloOf answered).device (m.helloOf answered).publicKey
          nowMs = _ := hcomplete
        rw [hcomplete'] at hout
        refine ⟨_, ⟨h.files.setPairing _, rfl, .of_handshake rfl rfl, ?_⟩, hout⟩
        rw [← h.unserved]
        exact cachedGrant_congr rfl _ _

/-- What a hello makes of an attempt it reached: it waits, or both humans confirmed and the grant is sealed. -/
theorem Waits.confirmOrPending (hT : C.Total) (hm : m.Sound) (h : m.Waits true confirmed heard i)
    (ht : nowMs - m.offeredAtMs ≤ PAIRING_WINDOW_MS) (answered : Bool) (drawn : Key32) (wrapNonce : WrapNonce) :
    let out := i.confirmOrPending (m.helloOf answered) nowMs drawn wrapNonce
    ((confirmed && (heard || answered)) = false ∧ out.1 = .pending ∧ m.Waits true confirmed (heard || answered) out.2) ∨
      (confirmed && (heard || answered)) = true ∧ ∃ key sealed, out.1 = .grant sealed ∧ m.Granted key sealed out.2 := by
  intro out
  have hlive := initiatorAttempt_live true confirmed heard ht
  obtain ⟨i', hi', hout⟩ : ∃ i', m.Waits true confirmed (heard || answered) i' ∧
      out = i'.finalizeOrPending m.joiner.device m.joiner.staticPublic nowMs drawn wrapNonce := by
    cases answered with
    | false =>
      rw [Bool.or_false]
      exact ⟨i, h, rfl⟩
    | true =>
      have hmark := markRemoteConfirmed_live h.active hlive rfl rfl m.joinerOwn
      refine ⟨{ i with pairing := (i.pairing.markRemoteConfirmed nowMs m.joinerOwn).2 }, ?_, rfl⟩
      rw [hmark, Bool.or_true]
      refine ⟨h.files.setPairing _, rfl, .of_handshake rfl rfl, ?_⟩
      rw [← h.unserved]
      exact cachedGrant_congr rfl _ _
  have hlive' := initiatorAttempt_live true confirmed (heard || answered) ht
  by_cases hready : (confirmed && (heard || answered)) = true
  · refine .inr ⟨hready, ?_⟩
    obtain ⟨hconfirmed, hheard⟩ := Bool.and_eq_true_iff.1 hready
    rw [hheard, hconfirmed] at hi'
    rw [hheard, hconfirmed] at hlive'
    obtain ⟨key, hkey⟩ := hm.key drawn
    have hkey' : (fetchOrMintGroupKey i'.keyStore i'.groupEpoch drawn).1 = .ok key := by
      rw [hi'.files.keyStore, hi'.files.groupEpoch]
      exact hkey
    obtain ⟨sealed, hwrap, hfinal⟩ := finalizeOrPending_ready hT hi'.active hlive' rfl rfl rfl hkey' m.joiner.device
      m.joiner.staticPublic wrapNonce
    rw [hfinal] at hout
    refine ⟨key, sealed, by rw [hout], ?_⟩
    rw [hout]
    obtain ⟨hdevice, hstatic, hgroup, hepoch, -, hdevices⟩ := hi'.files
    rw [hepoch, hstatic] at hwrap
    refine ⟨hdevice, hgroup, hepoch, fetchOrMintGroupKey_ok hkey', rfl, ?_, ⟨_, wrapNonce, rfl, hwrap⟩, nowMs, ?_⟩
    · simp [PairingRegistry.cachedGrant, PairingNode.registerPairedDevice, initiatorAttempt]
    · show Function.update i'.devices m.joiner.device (some ⟨m.joiner.staticPublic, nowMs, i'.groupEpoch, _⟩) = _
      rw [hdevices, hepoch]
      rfl
  · rw [Bool.not_eq_true] at hready
    refine .inl ⟨hready, ?_⟩
    have hwaits : (m.initiatorAttempt true confirmed (heard || answered)).session.isReadyToSendKey = false := by
      rw [← hready]
      simp [PairingSession.isReadyToSendKey, initiatorAttempt]
    rw [finalizeOrPending_waits hi'.active hlive' hwaits] at hout
    rw [hout]
    exact ⟨rfl, hi'⟩

/-- A grant that was sealed is sent again for each hello. -/
theorem Granted.hears (h : m.Granted key sealed i) (answered : Bool) (nowMs : Nat) (drawn : Key32)
    (wrapNonce : WrapNonce) :
    let out := i.processHello (m.helloOf answered) nowMs drawn wrapNonce
    out.1 = .grant sealed ∧ m.Granted key sealed out.2 := by
  intro out
  have hcache : i.pairing.cachedGrant (m.helloOf answered).device (m.helloOf answered).nonce =
    some (sealed, m.initiatorOwn && m.joinerOwn) := h.served
  have hout : out = (.grant sealed, i.registerPairedDevice m.joiner.device m.joiner.staticPublic nowMs
      (m.initiatorOwn && m.joinerOwn)) := by
    simp only [out, PairingNode.processHello, hcache]
    rfl
  rw [hout]
  refine ⟨rfl, { h with row := ⟨nowMs, ?_⟩ }⟩
  obtain ⟨t, hrow⟩ := h.row
  show Function.update i.devices m.joiner.device (some ⟨m.joiner.staticPublic, nowMs, i.groupEpoch, _⟩) = _
  rw [hrow, Function.update_idem, h.groupEpoch]

theorem Granted.confirms (h : m.Granted key sealed i) (nowMs : Nat) (ownDevice : Bool) :
    m.Granted key sealed (i.call (.confirm nowMs ownDevice)) := by
  rw [confirm_none h.active]
  exact h

theorem Granted.sent_again {grants : List (List UInt8)} (hgrants : ∀ g ∈ grants, g = sealed) :
    ∀ g ∈ (InitiatorReply.grant sealed).sealed?.toList ++ grants, g = sealed := by
  intro g hg
  rcases List.mem_append.1 hg with hg | hg
  · simpa [InitiatorReply.sealed?] using hg
  · exact hgrants g hg

/-! ### The joiner's steps -/

theorem Open.confirms (hm : m.Sound) (h : m.Open answered j) (ht : nowMs - m.acceptedAtMs ≤ PAIRING_WINDOW_MS) :
    m.Open true (j.call (.confirm nowMs m.joinerOwn)) := by
  obtain ⟨sas, hsas⟩ := hm.sas
  have hconfirm := confirmLocal_live h.active (joinerAttempt_live _ ht) hsas m.joinerOwn
  show m.Open true { j with pairing := (j.pairing.confirmLocal nowMs m.joinerOwn).2 }
  rw [hconfirm]
  exact ⟨h.files.setPairing _, rfl⟩

theorem Open.sends (h : m.Open answered j) (ht : nowMs - m.acceptedAtMs ≤ PAIRING_WINDOW_MS) :
    j.buildHello m.offer m.joinerPublic nowMs = (m.helloOf answered, j) := by
  rw [buildHello_live h.active (joinerAttempt_live _ ht), h.files.device, h.files.staticPublic]
  rfl

/-- A grant that arrives opens and is filed. -/
theorem Open.gets (hC : C.Lawful) (h : m.Open true j) (hi : m.Granted key sealed i)
    (ht : nowMs - m.acceptedAtMs ≤ PAIRING_WINDOW_MS) : m.Filed key (j.finishJoiner m.offer sealed nowMs) := by
  have hmark := markRemoteConfirmed_live h.active (joinerAttempt_live _ ht) rfl rfl false
  obtain ⟨s, wrapNonce, hhs, hwrap⟩ := hi.wrapped
  have hopen : ((m.joinerAttempt true).remotelyConfirmed false).session.unwrapGrant sealed = .ok _ :=
    unwrapGrant_same hC hwrap rfl hhs.symm
  rw [PairingNode.finishJoiner, hmark]
  dsimp only
  obtain ⟨-, hadopt⟩ := adopt_live (n := { j with
    pairing := { j.pairing with active := some ((m.joinerAttempt true).remotelyConfirmed false) } })
    rfl (joinerAttempt_live true ht) rfl hopen rfl m.offer.group
  rw [hadopt]
  obtain ⟨hdevice, hstatic, -, -, hkeys, hdevices⟩ := h.files
  refine ⟨hdevice, hstatic, rfl, rfl, ?_, rfl, nowMs, ?_⟩
  · show Function.update j.keyStore _ _ = _
    rw [hkeys]
  · show Function.update j.devices _ _ = _
    rw [hdevices]
    rfl

theorem Filed.confirms (h : m.Filed key j) (nowMs : Nat) (ownDevice : Bool) :
    m.Filed key (j.call (.confirm nowMs ownDevice)) := by
  rw [confirm_none h.active]
  exact h

theorem Filed.sends (h : m.Filed key j) (nowMs : Nat) :
    j.buildHello m.offer m.joinerPublic nowMs = (m.helloOf false, j) := by
  have hrefused : j.pairing.joinerLocalConfirmed nowMs = (.error .notActive, j.pairing) := withActive_none h.active ..
  rw [PairingNode.buildHello, hrefused, helloOf, ← h.device, ← h.staticPublic]
  rfl

theorem Filed.gets (h : m.Filed key j) (sealed : List UInt8) (nowMs : Nat) :
    m.Filed key (j.finishJoiner m.offer sealed nowMs) := by
  have hmark : j.pairing.markRemoteConfirmed nowMs false = (.error .notActive, j.pairing) := withActive_none h.active ..
  have hpreview : j.pairing.previewGroupKey sealed nowMs = (.error .notActive, j.pairing) := withActive_none h.active ..
  rw [PairingNode.finishJoiner, hmark, PairingNode.adoptGroupKey]
  dsimp only
  rw [hpreview]
  exact h

/-! ### Every order of events -/

/-- In the window of the attempt it is about, and with the answer that human gives. -/
def Timely (m : Meeting C) : PairingEvent → Prop
  | .initiatorConfirms nowMs ownDevice => nowMs - m.offeredAtMs ≤ PAIRING_WINDOW_MS ∧ ownDevice = m.initiatorOwn
  | .joinerConfirms nowMs ownDevice => nowMs - m.acceptedAtMs ≤ PAIRING_WINDOW_MS ∧ ownDevice = m.joinerOwn
  | .joinerSends nowMs => nowMs - m.acceptedAtMs ≤ PAIRING_WINDOW_MS
  | .initiatorHears _ nowMs _ _ => nowMs - m.offeredAtMs ≤ PAIRING_WINDOW_MS
  | .joinerGets _ nowMs => nowMs - m.acceptedAtMs ≤ PAIRING_WINDOW_MS

/-- Which of the three has happened: a hello was heard, the initiator's human confirmed after one, the joiner's did. -/
structure Progress where
  reached : Bool
  confirmed : Bool
  answered : Bool

def Progress.step (p : Progress) : PairingEvent → Progress
  | .initiatorConfirms _ _ => { p with confirmed := p.confirmed || p.reached }
  | .joinerConfirms _ _ => { p with answered := true }
  | .joinerSends _ => p
  | .initiatorHears _ _ _ _ => { p with reached := true }
  | .joinerGets _ _ => p

def Progress.after (p : Progress) (events : List PairingEvent) : Progress := events.foldl Progress.step p

/-- The daemons at some progress: both wait, the grant is sealed, or it is filed too. -/
inductive Stage (m : Meeting C) : Progress → PairingNet C → Prop
  | waits {x : PairingNet C} {reached confirmed heard answered : Bool}
      (hi : m.Waits reached confirmed heard x.initiator) (hj : m.Open answered x.joiner)
      (hheard : heard = true → answered = true) (hgrants : x.grants = []) :
      Stage m ⟨reached, confirmed, answered⟩ x
  | granted {x : PairingNet C} {key : Key32} {sealed : List UInt8} (hi : m.Granted key sealed x.initiator)
      (hj : m.Open true x.joiner) (hgrants : ∀ g ∈ x.grants, g = sealed) : Stage m ⟨true, true, true⟩ x
  | filed {x : PairingNet C} {key : Key32} {sealed : List UInt8} (hi : m.Granted key sealed x.initiator)
      (hj : m.Filed key x.joiner) (hgrants : ∀ g ∈ x.grants, g = sealed) : Stage m ⟨true, true, true⟩ x

/-- Every hello on the way is this joiner's, and tells of its human's answer only what they gave. -/
def Tells (m : Meeting C) (p : Progress) (x : PairingNet C) : Prop :=
  ∀ hello ∈ x.hellos, ∃ told, hello = m.helloOf told ∧ (told = true → p.answered = true)

variable {p : Progress} {x : PairingNet C} {e : PairingEvent}

/-- A hello is heard. -/
theorem Stage.hears (hC : C.Lawful) (hT : C.Total) (hm : m.Sound) (h : m.Stage p x) {told : Bool}
    (htold : told = true → p.answered = true) (ht : nowMs - m.offeredAtMs ≤ PAIRING_WINDOW_MS) (drawn : Key32)
    (wrapNonce : WrapNonce) :
    let out := x.initiator.processHello (m.helloOf told) nowMs drawn wrapNonce
    out.1 ≠ .rejected ∧
      m.Stage { p with reached := true } { x with initiator := out.2, grants := out.1.sealed?.toList ++ x.grants } := by
  intro out
  cases h with
  | @waits _ reached confirmed heard answered hi hj hheard hgrants =>
    obtain ⟨i', hi', hout⟩ := hi.reaches hC hm ht told drawn wrapNonce
    have hout : out = _ := hout
    rw [hout]
    rcases hi'.confirmOrPending hT hm ht told drawn wrapNonce with
      ⟨-, hpending, hwaits⟩ | ⟨hready, key, sealed, hgrant, hgranted⟩
    · rw [hpending]
      refine ⟨by simp, .waits hwaits hj (fun h => ?_) hgrants⟩
      rcases Bool.or_eq_true_iff.1 h with h | h
      · exact hheard h
      · exact htold h
    · rw [hgrant]
      obtain ⟨rfl, hboth⟩ := Bool.and_eq_true_iff.1 hready
      obtain rfl : answered = true := by
        rcases Bool.or_eq_true_iff.1 hboth with h | h
        · exact hheard h
        · exact htold h
      refine ⟨by simp, .granted hgranted hj (Granted.sent_again ?_)⟩
      rw [hgrants]
      simp
  | granted hi hj hgrants =>
    obtain ⟨hgrant, hgranted⟩ := hi.hears told nowMs drawn wrapNonce
    have hgrant : out.1 = _ := hgrant
    rw [hgrant]
    exact ⟨by simp, .granted hgranted hj (Granted.sent_again hgrants)⟩
  | filed hi hj hgrants =>
    obtain ⟨hgrant, hgranted⟩ := hi.hears told nowMs drawn wrapNonce
    have hgrant : out.1 = _ := hgrant
    rw [hgrant]
    exact ⟨by simp, .filed hgranted hj (Granted.sent_again hgrants)⟩

/-- One event. -/
theorem Stage.step (hC : C.Lawful) (hT : C.Total) (hm : m.Sound) (h : m.Stage p x) (htells : m.Tells p x)
    (hbrings : x.Brings e) (htimely : m.Timely e) :
    m.Stage (p.step e) (x.step m.offer m.joinerPublic e) ∧ m.Tells (p.step e) (x.step m.offer m.joinerPublic e) := by
  cases e with
  | initiatorConfirms nowMs ownDevice =>
    obtain ⟨ht, rfl⟩ := htimely
    refine ⟨?_, htells⟩
    cases h with
    | waits hi hj hheard hgrants => exact .waits (hi.confirms hm ht) hj hheard hgrants
    | granted hi hj hgrants => exact .granted (hi.confirms ..) hj hgrants
    | filed hi hj hgrants => exact .filed (hi.confirms ..) hj hgrants
  | joinerConfirms nowMs ownDevice =>
    obtain ⟨ht, rfl⟩ := htimely
    refine ⟨?_, fun hello hmem => ?_⟩
    · cases h with
      | waits hi hj hheard hgrants => exact .waits hi (hj.confirms hm ht) (fun _ => rfl) hgrants
      | granted hi hj hgrants => exact .granted hi (hj.confirms hm ht) hgrants
      | filed hi hj hgrants => exact .filed hi (hj.confirms ..) hgrants
    · obtain ⟨told, hhello, -⟩ := htells hello hmem
      exact ⟨told, hhello, fun _ => rfl⟩
  | joinerSends nowMs =>
    have hsends : ∃ told, x.joiner.buildHello m.offer m.joinerPublic nowMs = (m.helloOf told, x.joiner) ∧
        (told = true → p.answered = true) := by
      cases h with
      | waits hi hj hheard hgrants => exact ⟨_, hj.sends htimely, id⟩
      | granted hi hj hgrants => exact ⟨_, hj.sends htimely, id⟩
      | filed hi hj hgrants => exact ⟨_, hj.sends nowMs, by simp⟩
    obtain ⟨told, hsends, htold⟩ := hsends
    have hstep : x.step m.offer m.joinerPublic (.joinerSends nowMs) =
        { x with hellos := m.helloOf told :: x.hellos } := by
      rw [PairingNet.step, hsends]
    rw [hstep]
    refine ⟨?_, List.forall_mem_cons.2 ⟨⟨told, rfl, htold⟩, htells⟩⟩
    cases h with
    | waits hi hj hheard hgrants => exact .waits hi hj hheard hgrants
    | granted hi hj hgrants => exact .granted hi hj hgrants
    | filed hi hj hgrants => exact .filed hi hj hgrants
  | initiatorHears hello nowMs drawn wrapNonce =>
    obtain ⟨told, rfl, htold⟩ := htells hello hbrings
    exact ⟨(h.hears hC hT hm htold htimely drawn wrapNonce).2, htells⟩
  | joinerGets sealed nowMs =>
    refine ⟨?_, htells⟩
    cases h with
    | waits hi hj hheard hgrants =>
      have hmem : sealed ∈ x.grants := hbrings
      rw [hgrants] at hmem
      cases hmem
    | granted hi hj hgrants =>
      obtain rfl := hgrants sealed hbrings
      exact .filed hi (hj.gets hC hi htimely) hgrants
    | filed hi hj hgrants => exact .filed hi (hj.gets ..) hgrants

theorem Progress.after_concat (p : Progress) (events : List PairingEvent) (e : PairingEvent) :
    p.after (events ++ [e]) = (p.after events).step e := by
  rw [after, after, List.foldl_append]
  rfl

theorem Stage.run (hC : C.Lawful) (hT : C.Total) (hm : m.Sound) {events : List PairingEvent}
    (h : PairingNet.Run m.offer m.joinerPublic m.start events x) (htimely : ∀ e ∈ events, m.Timely e) :
    m.Stage (Progress.after ⟨false, false, false⟩ events) x ∧
      m.Tells (Progress.after ⟨false, false, false⟩ events) x := by
  induction h with
  | nil => exact ⟨.waits hm.waits hm.isOpen id rfl, by simp [Tells, start]⟩
  | concat h e hbrings ih =>
    obtain ⟨hbefore, hlast⟩ := List.forall_mem_append.1 htimely
    obtain ⟨hstage, htells⟩ := ih hbefore
    rw [Progress.after_concat]
    exact hstage.step hC hT hm htells hbrings (hlast e (List.mem_singleton_self e))

/-- What has happened stays so. -/
theorem Progress.after_mono (p : Progress) (events : List PairingEvent) :
    (p.reached = true → (p.after events).reached = true) ∧ (p.confirmed = true → (p.after events).confirmed = true) ∧
      (p.answered = true → (p.after events).answered = true) := by
  induction events generalizing p with
  | nil => exact ⟨id, id, id⟩
  | cons e events ih =>
    obtain ⟨hreached, hconfirmed, hanswered⟩ := ih (p.step e)
    refine ⟨fun h => hreached ?_, fun h => hconfirmed ?_, fun h => hanswered ?_⟩
    · cases e <;> simp [step, h]
    · cases e <;> simp [step, h]
    · cases e <;> simp [step, h]

theorem Progress.confirmed_after {hello : JoinerHello} {t t' : Nat} {drawn : Key32} {own : Bool}
    (p : Progress) (before between after : List PairingEvent) :
    (p.after (before ++ .initiatorHears hello t drawn wrapNonce ::
      (between ++ .initiatorConfirms t' own :: after))).confirmed = true := by
  have hsplit : p.after (before ++ .initiatorHears hello t drawn wrapNonce ::
      (between ++ .initiatorConfirms t' own :: after)) = ((((p.after before).step (.initiatorHears hello t drawn
        wrapNonce)).after between).step (.initiatorConfirms t' own)).after after := by
    simp only [Progress.after, List.foldl_append, List.foldl_cons]
  rw [hsplit]
  refine (after_mono _ after).2.1 ?_
  have hreached := (after_mono ((p.after before).step (.initiatorHears hello t drawn wrapNonce)) between).1 rfl
  show (_ || _) = true
  rw [hreached, Bool.or_true]

theorem Progress.answered_after {events : List PairingEvent} {t : Nat} {own : Bool} (p : Progress)
    (h : .joinerConfirms t own ∈ events) : (p.after events).answered = true := by
  obtain ⟨before, after, rfl⟩ := List.append_of_mem h
  have hsplit : p.after (before ++ .joinerConfirms t own :: after) =
      ((p.after before).step (.joinerConfirms t own)).after after := by
    simp only [Progress.after, List.foldl_append, List.foldl_cons]
  rw [hsplit]
  exact (after_mono _ after).2.2 rfl

/-- The joiner files all of it or nothing. -/
theorem Stage.files (h : m.Stage p x) :
    SameFiles m.joiner x.joiner ∨ ∃ key sealed, m.Granted key sealed x.initiator ∧ m.Filed key x.joiner := by
  cases h with
  | waits hi hj hheard hgrants => exact .inl hj.files
  | granted hi hj hgrants => exact .inl hj.files
  | filed hi hj hgrants => exact .inr ⟨_, _, hi, hj⟩

/-- One more round, once both humans confirmed. -/
theorem Stage.joinerRound (hC : C.Lawful) (hT : C.Total) (hm : m.Sound) (h : m.Stage p x)
    (hconfirmed : p.confirmed = true) (hanswered : p.answered = true) {sentAtMs heardAtMs gotAtMs : Nat}
    (hsent : sentAtMs - m.acceptedAtMs ≤ PAIRING_WINDOW_MS)
    (hheard : heardAtMs - m.offeredAtMs ≤ PAIRING_WINDOW_MS) (hgot : gotAtMs - m.acceptedAtMs ≤ PAIRING_WINDOW_MS)
    (drawn : Key32) (wrapNonce : WrapNonce) :
    let out := Pairing.joinerRound x.initiator x.joiner m.offer m.joinerPublic sentAtMs heardAtMs gotAtMs drawn
      wrapNonce
    out.2.2 = true ∧ ∃ key sealed, m.Granted key sealed out.1 ∧ m.Filed key out.2.1 := by
  intro out
  have hround : ∀ {told : Bool} {sealed : List UInt8} {i' : PairingNode C},
      x.joiner.buildHello m.offer m.joinerPublic sentAtMs = (m.helloOf told, x.joiner) →
      x.initiator.processHello (m.helloOf told) heardAtMs drawn wrapNonce = (.grant sealed, i') →
      out = (i', x.joiner.finishJoiner m.offer sealed gotAtMs, true) := by
    intro told sealed i' hsends hgrant
    simp only [out, Pairing.joinerRound, hsends, hgrant]
  cases h with
  | @waits _ reached confirmed heard answered hi hj hheard' hgrants =>
    obtain rfl : answered = true := hanswered
    obtain rfl : confirmed = true := hconfirmed
    obtain ⟨i', hi', hreaches⟩ := hi.reaches hC hm hheard true drawn wrapNonce
    rcases hi'.confirmOrPending hT hm hheard true drawn wrapNonce with
      ⟨hwaits, -⟩ | ⟨-, key, sealed, hgrant, hgranted⟩
    · simp at hwaits
    · rw [hround (hj.sends hsent) (hreaches.trans (Prod.ext hgrant rfl))]
      exact ⟨rfl, key, sealed, hgranted, hj.gets hC hgranted hgot⟩
  | @granted _ key sealed hi hj hgrants =>
    obtain ⟨hgrant, hgranted⟩ := hi.hears true heardAtMs drawn wrapNonce
    rw [hround (hj.sends hsent) (Prod.ext hgrant rfl)]
    exact ⟨rfl, key, sealed, hgranted, hj.gets hC hgranted hgot⟩
  | @filed _ key sealed hi hj hgrants =>
    obtain ⟨hgrant, hgranted⟩ := hi.hears false heardAtMs drawn wrapNonce
    rw [hround (hj.sends sentAtMs) (Prod.ext hgrant rfl)]
    exact ⟨rfl, key, sealed, hgranted, hj.gets sealed gotAtMs⟩

end Meeting

/-- Two daemons pair over a network that loses, doubles and reorders. In the offer's windows no hello is refused, and
the joiner's files are as they were until it files the key the initiator sealed. Once the initiator's human confirmed
what a hello reached, and the joiner's human confirmed, one round that goes through leaves one key, epoch and group on
both, and each in the other's table of devices. -/
theorem pairing_completes {m : Meeting C} {x : PairingNet C} (hC : C.Lawful) (hT : C.Total) (hm : m.Sound)
    {events : List PairingEvent} (hrun : PairingNet.Run m.offer m.joinerPublic m.start events x)
    (htimely : ∀ e ∈ events, m.Timely e) :
    (∀ hello ∈ x.hellos, ∀ nowMs drawn wrapNonce, nowMs - m.offeredAtMs ≤ PAIRING_WINDOW_MS →
        (x.initiator.processHello hello nowMs drawn wrapNonce).1 ≠ .rejected) ∧
      (SameFiles m.joiner x.joiner ∨ ∃ key sealed, m.Granted key sealed x.initiator ∧ m.Filed key x.joiner) ∧
      ∀ before hello t drawn wrapNonce between t' own after,
        events = before ++ .initiatorHears hello t drawn wrapNonce ::
          (between ++ .initiatorConfirms t' own :: after) → (∃ t own, .joinerConfirms t own ∈ events) →
        ∀ sentAtMs heardAtMs gotAtMs drawn wrapNonce, sentAtMs - m.acceptedAtMs ≤ PAIRING_WINDOW_MS →
          heardAtMs - m.offeredAtMs ≤ PAIRING_WINDOW_MS → gotAtMs - m.acceptedAtMs ≤ PAIRING_WINDOW_MS →
          let out := joinerRound x.initiator x.joiner m.offer m.joinerPublic sentAtMs heardAtMs gotAtMs drawn wrapNonce
          out.2.2 = true ∧ ∃ key sealed, m.Granted key sealed out.1 ∧ m.Filed key out.2.1 := by
  obtain ⟨hstage, htells⟩ := Meeting.Stage.run hC hT hm hrun htimely
  refine ⟨?_, ?_, ?_⟩
  · intro hello hmem nowMs drawn wrapNonce ht
    obtain ⟨told, rfl, htold⟩ := htells hello hmem
    exact (hstage.hears hC hT hm htold ht drawn wrapNonce).1
  · exact hstage.files
  · intro before hello t drawn wrapNonce between t' own after hevents ⟨t₁, own₁, hanswer⟩ sentAtMs heardAtMs gotAtMs
      drawn₁ wrapNonce₁ hsent hheard hgot
    have hanswered := Meeting.Progress.answered_after ⟨false, false, false⟩ hanswer
    have hconfirmed : (Meeting.Progress.after ⟨false, false, false⟩ events).confirmed = true := by
      rw [hevents]
      exact Meeting.Progress.confirmed_after _ before between after
    exact hstage.joinerRound hC hT hm hconfirmed hanswered hsent hheard hgot drawn₁ wrapNonce₁

/-- The laptop's offer and the phone that accepts it. -/
def laptopAndPhone : Meeting clearCrypto :=
  ⟨freshNode laptop, freshNode phone, [], laptopOffer.nonce, 10, 20, (5 : UInt8), (6 : UInt8), true, false⟩

theorem laptopAndPhone_sound : laptopAndPhone.Sound where
  apart := by decide
  unused := rfl
  unserved := rfl
  key drawn := ⟨drawn, rfl⟩
  offered := rfl
  accepted := ⟨_, rfl⟩

/-- A hello is heard, and then both humans confirm. -/
def bothConfirm : List PairingEvent :=
  [.joinerSends 21, .initiatorHears (laptopAndPhone.helloOf false) 25 (byteKey 8) zeroNonce, .initiatorConfirms 40 true,
    .joinerConfirms 45 false]

theorem pairing_completes_laptop : ∃ x,
    PairingNet.Run laptopAndPhone.offer laptopAndPhone.joinerPublic laptopAndPhone.start bothConfirm x ∧
      let out := joinerRound x.initiator x.joiner laptopAndPhone.offer laptopAndPhone.joinerPublic 50 55 60 (byteKey 9)
        zeroNonce
      out.2.2 = true ∧ ∃ key sealed, laptopAndPhone.Granted key sealed out.1 ∧ laptopAndPhone.Filed key out.2.1 := by
  have hrun : PairingNet.Run laptopAndPhone.offer laptopAndPhone.joinerPublic laptopAndPhone.start bothConfirm _ :=
    .concat (.concat (.concat (.concat .nil (.joinerSends 21) trivial)
      (.initiatorHears (laptopAndPhone.helloOf false) 25 (byteKey 8) zeroNonce) (List.mem_singleton.2 rfl))
      (.initiatorConfirms 40 true) trivial)
      (.joinerConfirms 45 false) trivial
  have htimely : ∀ e ∈ bothConfirm, laptopAndPhone.Timely e := by
    simp [bothConfirm, Meeting.Timely, laptopAndPhone, PAIRING_WINDOW_MS]
  obtain ⟨-, -, hround⟩ := pairing_completes clearCrypto_lawful clearCrypto_total laptopAndPhone_sound hrun htimely
  exact ⟨_, hrun, hround [.joinerSends 21] _ _ _ _ [] _ _ _ rfl ⟨45, false, by simp [bothConfirm]⟩ 50 55 60 _ _
    (by decide) (by decide) (by decide)⟩

end Txtodo.Pairing
