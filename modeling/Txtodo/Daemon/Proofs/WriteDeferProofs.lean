import Txtodo.Daemon.WriteDefer

/-!
# The store names the bytes on disk

As long as every commit starts with the file holding the projection or a write owed for it, the file holds at
any moment what the store says it holds or what it says it held before the last commit.
-/

namespace Txtodo

variable {Hash : Type} {hashOf : List UInt8 → Hash}

/-! ## What holds at every step -/

namespace FileWorld

/-- The file holds what the store says it holds, or what it says it held before the last commit. -/
def Named (hashOf : List UInt8 → Hash) (w : FileWorld Hash) : Prop :=
  ∀ bytes hash, w.store.projection = some (bytes, hash) →
    hashOf w.disk = hash ∨ w.store.prevHash = some (hashOf w.disk)

/-- Nothing is held, and an owed write names the file and is of the projection in the store. -/
structure Tracks (hashOf : List UInt8 → Hash) (w : FileWorld Hash) (a : FileWriter Hash) : Prop where
  pending : a.pendingSave = none
  absorbing : a.absorbing = none
  hash : a.hash = hashOf a.projection
  owed : ∀ d, a.deferred = some d →
    d.hash = hashOf w.disk ∧ w.store.projection = some (a.projection, a.hash)

/-- What holds at every step of a run. -/
structure Sound (hashOf : List UInt8 → Hash) (w : FileWorld Hash) : Prop where
  named : w.Named hashOf
  hashed : ∀ bytes hash, w.store.projection = some (bytes, hash) → hash = hashOf bytes
  held : w.store.held = none
  fresh : w.store.projection = none → hashOf w.disk = hashOf []
  actor : ∀ a, w.actor = some a → w.Tracks hashOf a
  landing : ∀ l, w.landing = some l → ∀ a, w.actor = some a →
    w.store.projection = some (a.projection, a.hash) ∧
      (a.deferred = none → l.beforeHash = hashOf w.disk)

/-- Unless a write is owed, the file holds the actor's projection. -/
def Settled (hashOf : List UInt8 → Hash) (w : FileWorld Hash) : Prop :=
  ∀ a, w.actor = some a → a.deferred = none → hashOf w.disk = a.hash

theorem settled_running {x : FileSide Hash} :
    (running x).Settled hashOf ↔ (x.actor.deferred = none → hashOf x.disk = x.actor.hash) :=
  ⟨fun h => h x.actor rfl, fun h a ha => by
    cases ha
    exact h⟩

/-- A commit starts with the file settled. -/
def CommitsSettled (hashOf : List UInt8 → Hash) (w : FileWorld Hash) : FileEvent → Prop
  | .persist _ _ => w.landing = none → w.Settled hashOf
  | _ => True

theorem Sound.start {w : FileWorld Hash} {a : FileWriter Hash} (h : w.Clean hashOf a) : w.Sound hashOf where
  named bytes hash hstored := by
    rcases h.stored with hsome | ⟨hnone, -⟩
    · rw [hsome] at hstored
      cases hstored
      exact .inl h.disk
    · rw [hnone] at hstored
      cases hstored
  hashed bytes hash hstored := by
    rcases h.stored with hsome | ⟨hnone, -⟩
    · rw [hsome] at hstored
      cases hstored
      exact h.hash
    · rw [hnone] at hstored
      cases hstored
  held := h.held
  fresh hnone := by
    rcases h.stored with hsome | ⟨-, hnil⟩
    · rw [hsome] at hnone
      cases hnone
    · rw [h.disk, h.hash, hnil]
  actor b hb := by
    obtain rfl := Option.some_inj.1 (h.actor.symm.trans hb)
    exact ⟨h.pending, h.absorbing, h.hash, fun d hd => absurd (h.deferred.symm.trans hd) nofun⟩
  landing l hl := by
    rw [h.landing] at hl
    cases hl

theorem Sound.persist {w : FileWorld Hash} {a : FileWriter Hash} (h : w.Sound hashOf)
    (ha : w.actor = some a) (hsettled : w.Settled hashOf) (plan : FilePlan) :
    (w.persist hashOf a plan).Sound hashOf := by
  have htracks := h.actor a ha
  have hdisk : a.diskHash = hashOf w.disk := by
    unfold FileWriter.diskHash
    cases hd : a.deferred with
    | none => exact (hsettled a ha hd).symm
    | some d => exact (htracks.owed d hd).1
  have hprev : (w.persist hashOf a plan).store.prevHash = some (hashOf w.disk) := congrArg some hdisk
  refine ⟨fun bytes hash _ => .inr hprev, fun bytes hash hstored => ?_, h.held, nofun, fun b hb => ?_,
    fun l hl b hb => ?_⟩
  · cases hstored
    rfl
  · cases hb
    exact ⟨htracks.pending, htracks.absorbing, rfl, fun d hd => ⟨(htracks.owed d hd).1, rfl⟩⟩
  · cases hb
    cases hl
    exact ⟨rfl, fun hd => (hsettled a ha hd).symm⟩

/-- The actor goes on with the file as it is. -/
theorem Sound.keeps {w : FileWorld Hash} (h : w.Sound hashOf) {a : FileWriter Hash}
    (htracks : w.Tracks hashOf a) : (running (w.side a)).Sound hashOf := by
  refine ⟨h.named, h.hashed, h.held, h.fresh, fun b hb => ?_, nofun⟩
  cases hb
  exact ⟨htracks.pending, htracks.absorbing, htracks.hash, htracks.owed⟩

/-- The file holds the projection, and nothing is owed. -/
theorem Sound.writes {w : FileWorld Hash} (h : w.Sound hashOf) {a : FileWriter Hash}
    (htracks : w.Tracks hashOf a) (hdeferred : a.deferred = none)
    (hstored : w.store.projection = some (a.projection, a.hash)) :
    (running { w.side a with disk := a.projection }).Sound hashOf where
  named bytes hash hsome := by
    obtain ⟨-, rfl⟩ := Prod.mk.inj (Option.some_inj.1 (hstored.symm.trans hsome))
    exact .inl htracks.hash.symm
  hashed := h.hashed
  held := h.held
  fresh hnone := absurd (hstored.symm.trans hnone) nofun
  actor b hb := by
    cases hb
    exact ⟨htracks.pending, htracks.absorbing, htracks.hash, fun d hd =>
      absurd (hdeferred.symm.trans hd) nofun⟩
  landing := nofun

theorem Tracks.unowed {w : FileWorld Hash} {a : FileWriter Hash} (h : w.Tracks hashOf a) :
    w.Tracks hashOf { a with deferred := none } :=
  ⟨h.pending, h.absorbing, h.hash, nofun⟩

theorem Sound.crash {w : FileWorld Hash} (h : w.Sound hashOf) :
    ({ w with actor := none, landing := none } : FileWorld Hash).Sound hashOf :=
  ⟨h.named, h.hashed, h.held, h.fresh, fun _ ha => absurd ha nofun, fun _ hl => absurd hl nofun⟩

end FileWorld

/-! ## One write -/

namespace FileSide

/-- The side after a write over known bytes: it failed, or the file holds the projection. -/
inductive Wrote (x : FileSide Hash) (io : FileIo) : Except Unit Unit × FileSide Hash → Prop where
  | failed (hio : io.replace ≠ .done) (expected : ExpectedWrites Hash) :
      Wrote x io (.error (), { x with actor.expected := expected })
  | done (expected : ExpectedWrites Hash) :
      Wrote x io (.ok (), { x with actor.expected := expected, disk := x.actor.projection })

theorem settleHeld_none {x : FileSide Hash} (h : x.actor.pendingSave = none) (io : FileIo) :
    x.settleHeld io = (.ok (), x) := by
  unfold settleHeld
  rw [if_pos (by rw [h]; rfl)]

variable [DecidableEq Hash]

/-- A write over the bytes the actor knows of either fails or replaces them. -/
theorem writeOrHold_wrote {x : FileSide Hash} {ours : Hash} (hours : hashOf x.disk = ours)
    (hpending : x.actor.pendingSave = none) (beforeBytes : List UInt8) (before : DocState) (now : Nat)
    (io : FileIo) : x.Wrote io (x.writeOrHold hashOf ours beforeBytes before now io) := by
  have hnone : x.actor.pendingSave.isNone = true := by
    rw [hpending]
    rfl
  unfold writeOrHold writeProjectionIfOurs
  rw [if_pos (.inl hnone)]
  dsimp only
  by_cases hfails : io.replace = .fails
  · rw [if_pos hfails]
    exact .failed (by rw [hfails]; exact nofun) _
  · rw [if_neg hfails, if_pos (show hashOf x.disk = ours ∨ _ from .inl hours)]
    dsimp only
    rw [if_pos rfl]
    split_ifs with hrename
    · exact .failed (by rw [hrename]; exact nofun) _
    · dsimp only
      rw [settleHeld_none (by exact hpending)]
      exact .done _

end FileSide

namespace FileWorld

/-- A write over known bytes, nothing owed. -/
theorem Sound.wrote {w : FileWorld Hash} (h : w.Sound hashOf) {a : FileWriter Hash}
    (htracks : w.Tracks hashOf a) (hdeferred : a.deferred = none)
    (hstored : w.store.projection = some (a.projection, a.hash))
    {io : FileIo} {r : Except Unit Unit × FileSide Hash} (hr : (w.side a).Wrote io r) : (running r.2).Sound hashOf := by
  have hmoved : ∀ expected, w.Tracks hashOf { a with expected } := fun expected =>
    ⟨htracks.pending, htracks.absorbing, htracks.hash, htracks.owed⟩
  cases hr with
  | failed hio expected => exact h.keeps (hmoved expected)
  | done expected => exact h.writes (hmoved expected) hdeferred hstored

variable [DecidableEq Hash]

theorem Sound.flush {w : FileWorld Hash} (h : w.Sound hashOf) {a : FileWriter Hash}
    (htracks : w.Tracks hashOf a) (now : Nat) (io : FileIo) :
    (running ((w.side a).flushWrite hashOf now io).2).Sound hashOf := by
  unfold FileSide.flushWrite
  rw [show (w.side a).actor.deferred = a.deferred from rfl]
  cases hd : a.deferred with
  | none => exact h.keeps htracks
  | some d =>
    have hwrote : (w.side { a with deferred := none }).Wrote io
        ((w.side { a with deferred := none }).writeOrHold hashOf d.hash d.bytes d.state now io) :=
      FileSide.writeOrHold_wrote (htracks.owed d hd).1.symm htracks.pending _ _ _ _
    have hsound := h.wrote htracks.unowed rfl (htracks.owed d hd).2 hwrote
    dsimp only
    rw [show ({ w.side a with actor.deferred := none } : FileSide Hash) =
      w.side { a with deferred := none } from rfl]
    generalize (w.side { a with deferred := none }).writeOrHold hashOf d.hash d.bytes d.state now io = r
      at hwrote hsound
    cases hwrote with
    | failed hio expected =>
      refine h.keeps (a := { a with expected, deferred := some d }) ?_
      exact ⟨htracks.pending, htracks.absorbing, htracks.hash, fun e he => htracks.owed e (hd.trans he)⟩
    | done expected => exact hsound

theorem Sound.land {w : FileWorld Hash} (h : w.Sound hashOf) {a : FileWriter Hash} {l : Landing Hash}
    (ha : w.actor = some a) (hl : w.landing = some l) (now : Nat) (io : FileIo) :
    (running (w.land hashOf a l now io)).Sound hashOf := by
  have htracks := h.actor a ha
  obtain ⟨hstored, hbefore⟩ := h.landing l hl a ha
  unfold FileWorld.land
  dsimp only
  cases hwrite : l.write with
  | false =>
    cases hwait : l.deferWrite && a.canDeferWrite with
    | true => exact h.keeps htracks
    | false => exact h.flush htracks now io
  | true =>
    cases hwait : l.deferWrite && a.canDeferWrite with
    | true =>
      refine h.keeps (a := a.deferWrite l.beforeHash l.beforeBytes l.before) ?_
      unfold FileWriter.deferWrite
      split_ifs with hnone
      · refine ⟨htracks.pending, htracks.absorbing, htracks.hash, fun d hd => ?_⟩
        cases hd
        exact ⟨hbefore (Option.isNone_iff_eq_none.1 hnone), hstored⟩
      · exact htracks
    | false =>
      dsimp only
      unfold FileSide.writeAfter
      rw [show (w.side a).actor.deferred = a.deferred from rfl]
      cases hd : a.deferred with
      | none =>
        exact h.wrote htracks hd hstored
          (FileSide.writeOrHold_wrote (hbefore hd).symm htracks.pending _ _ _ _)
      | some d =>
        have hwrote : (w.side { a with deferred := none }).Wrote io
            ((w.side { a with deferred := none }).writeOrHold hashOf d.hash d.bytes d.state now io) :=
          FileSide.writeOrHold_wrote (htracks.owed d hd).1.symm htracks.pending _ _ _ _
        exact h.wrote htracks.unowed rfl hstored hwrote

/-! ## Opening -/

/-- An opening that takes the stored projection over with every committed op's effect: the actor has it,
and the file ends up holding it. -/
def Keeps (w : FileWorld Hash) (hashOf : List UInt8 → Hash) : Recovered Hash → Prop
  | .opened x => ∀ bytes hash, w.store.projection = some (bytes, hash) →
      x.actor.projection = bytes ∧ hashOf x.disk = hash
  | .failed _ => True
  | .external => False

/-- What an opening leaves: an actor on the file as it is or written anew, an error with file and store as
they were, or, where the stored ids do not fit the projection, a reconcile. -/
inductive Reopened (hashOf : List UInt8 → Hash) (w : FileWorld Hash) (restored : Option DocState) :
    Recovered Hash → Prop where
  | same {a : FileWriter Hash} (htracks : w.Tracks hashOf a) (hdisk : hashOf w.disk = a.hash)
      (hsame : restored = none ∨ ∀ bytes hash, w.store.projection = some (bytes, hash) →
        a.projection = bytes ∧ hashOf w.disk = hash) : Reopened hashOf w restored (.opened (w.side a))
  | written {a : FileWriter Hash} (htracks : w.Tracks hashOf a) (hdeferred : a.deferred = none)
      (hstored : w.store.projection = some (a.projection, a.hash)) :
      Reopened hashOf w restored (.opened { w.side a with disk := a.projection })
  | failed (a : FileWriter Hash) : Reopened hashOf w restored (.failed (w.side a))
  | external (h : restored = none) : Reopened hashOf w restored .external

theorem Sound.reopened {w : FileWorld Hash} (h : w.Sound hashOf) (empty : DocState) (now : Nat)
    (restored : Option DocState) (io : FileIo) :
    w.Reopened hashOf restored (w.recover hashOf empty now restored io) := by
  have hfresh : w.Tracks hashOf ⟨empty, [], hashOf [], none, none, none, []⟩ := ⟨rfl, rfl, rfl, nofun⟩
  unfold recover
  dsimp only
  cases hprojection : w.store.projection with
  | none =>
    dsimp only
    rw [onExternalChange, if_pos (h.fresh hprojection)]
    exact .same hfresh (h.fresh hprojection) (.inr fun bytes hash hsome => absurd (hprojection.symm.trans hsome) nofun)
  | some p =>
    obtain ⟨bytes, hash⟩ := p
    cases restored with
    | none =>
      dsimp only
      unfold onExternalChange
      split_ifs with hdisk
      · exact .same hfresh hdisk (.inl rfl)
      · exact .external rfl
    | some state =>
      have hhash := h.hashed bytes hash hprojection
      have htracks : ∀ expected, w.Tracks hashOf ⟨state, bytes, hash, none, none, none, expected⟩ :=
        fun expected => ⟨rfl, rfl, hhash, nofun⟩
      dsimp only
      rw [h.held]
      split_ifs with hsame hprev hdone
      · rw [FileSide.settleHeld_none rfl]
        refine .same (htracks _) hsame.symm (.inr fun bytes' hash' hsome => ?_)
        obtain ⟨rfl, rfl⟩ := Prod.mk.inj (Option.some_inj.1 (hprojection.symm.trans hsome))
        exact ⟨rfl, hsame.symm⟩
      · rw [FileSide.settleHeld_none rfl]
        exact .written (htracks _) rfl hprojection
      · exact .failed _
      · rcases h.named bytes hash hprojection with hnamed | hnamed
        · exact absurd hnamed.symm hsame
        · exact absurd hnamed hprev

theorem Sound.keeps_restored {w : FileWorld Hash} (h : w.Sound hashOf) (empty : DocState) (now : Nat)
    {restored : Option DocState} (hrestored : restored ≠ none) (io : FileIo) :
    w.Keeps hashOf (w.recover hashOf empty now restored io) := by
  have hreopened := h.reopened empty now restored io
  generalize w.recover hashOf empty now restored io = r at hreopened
  cases hreopened with
  | same htracks hdisk hsame => exact hsame.resolve_left hrestored
  | @written a htracks hdeferred hstored =>
    intro bytes hash hsome
    obtain ⟨rfl, rfl⟩ := Prod.mk.inj (Option.some_inj.1 (hstored.symm.trans hsome))
    exact ⟨rfl, htracks.hash.symm⟩
  | failed a => trivial
  | external hnone => exact hrestored hnone

/-! ## Runs -/

theorem Sound.apply {w : FileWorld Hash} (h : w.Sound hashOf) {empty : DocState} {e : FileEvent}
    (hallowed : w.CommitsSettled hashOf e) : (w.apply hashOf empty e).Sound hashOf := by
  unfold FileWorld.apply
  cases e with
  | persist plan storeFails =>
    dsimp only
    split
    · rename_i a ha hl
      split_ifs
      · exact h
      · exact h.persist ha (hallowed hl) plan
    · exact h
  | land now io =>
    dsimp only
    split
    · rename_i a l ha hl
      exact h.land ha hl now io
    · exact h
  | flush now io =>
    dsimp only
    split
    · rename_i a ha hl
      exact h.flush (h.actor a ha) now io
    · exact h
  | crash => exact h.crash
  | reopen now restored io =>
    dsimp only
    split
    · exact h
    · rename_i ha
      have hreopened := h.reopened empty now restored io
      generalize w.recover hashOf empty now restored io = r at hreopened
      cases hreopened with
      | same htracks hdisk hsame => exact h.keeps htracks
      | written htracks hdeferred hstored => exact h.writes htracks hdeferred hstored
      | failed a => exact h
      | external hnone => exact h

theorem sound_of_run {empty : DocState} {w : FileWorld Hash}
    (h : FileRun hashOf empty (CommitsSettled hashOf) w) : w.Sound hashOf := by
  induction h with
  | start h => exact .start h
  | step h he hallowed ih => exact ih.apply hallowed

/-! ## Runs without a failed write -/

/-- The write of a commit goes through. -/
def WritesGo (_ : FileWorld Hash) : FileEvent → Prop
  | .land _ io => io.replace = .done
  | _ => True

/-- The file is settled, or a commit that changes its text is about to write it. -/
structure Settling (hashOf : List UInt8 → Hash) (w : FileWorld Hash) : Prop where
  settled : w.landing = none → w.Settled hashOf
  landing : ∀ l, w.landing = some l → l.write = false → w.Settled hashOf

theorem settled_flush {w : FileWorld Hash} (h : w.Sound hashOf) {a : FileWriter Hash} (ha : w.actor = some a)
    (hsettled : w.Settled hashOf) (now : Nat) (io : FileIo) :
    (running ((w.side a).flushWrite hashOf now io).2).Settled hashOf := by
  have htracks := h.actor a ha
  rw [settled_running]
  unfold FileSide.flushWrite
  rw [show (w.side a).actor.deferred = a.deferred from rfl]
  cases hd : a.deferred with
  | none => exact fun _ => hsettled a ha hd
  | some d =>
    have hwrote : (w.side { a with deferred := none }).Wrote io
        ((w.side { a with deferred := none }).writeOrHold hashOf d.hash d.bytes d.state now io) :=
      FileSide.writeOrHold_wrote (htracks.owed d hd).1.symm htracks.pending _ _ _ _
    dsimp only
    rw [show ({ w.side a with actor.deferred := none } : FileSide Hash) =
      w.side { a with deferred := none } from rfl]
    generalize (w.side { a with deferred := none }).writeOrHold hashOf d.hash d.bytes d.state now io = r
      at hwrote
    cases hwrote with
    | failed hio expected => exact fun hnone => absurd hnone (Option.some_ne_none d)
    | done expected => exact fun _ => htracks.hash.symm

theorem settled_land {w : FileWorld Hash} (h : w.Sound hashOf) {a : FileWriter Hash} {l : Landing Hash}
    (ha : w.actor = some a) (hl : w.landing = some l) (hsettled : l.write = false → w.Settled hashOf)
    (now : Nat) {io : FileIo} (hio : io.replace = .done) :
    (running (w.land hashOf a l now io)).Settled hashOf := by
  have htracks := h.actor a ha
  obtain ⟨hstored, hbefore⟩ := h.landing l hl a ha
  unfold FileWorld.land
  dsimp only
  cases hwrite : l.write with
  | false =>
    cases hwait : l.deferWrite && a.canDeferWrite with
    | true => exact settled_running.2 fun hd => hsettled hwrite a ha hd
    | false => exact settled_flush h ha (hsettled hwrite) now io
  | true =>
    rw [settled_running]
    cases hwait : l.deferWrite && a.canDeferWrite with
    | true =>
      intro hd
      dsimp only at hd
      unfold FileWriter.deferWrite at hd
      split_ifs at hd with hnone
      exact absurd (Option.isNone_iff_eq_none.2 hd) hnone
    | false =>
      have hdone : ∀ (b : FileWriter Hash) (r : Except Unit Unit × FileSide Hash), b.projection = a.projection →
          b.hash = a.hash → (w.side b).Wrote io r → hashOf r.2.disk = r.2.actor.hash := by
        rintro b r hb hbh hwrote
        cases hwrote with
        | failed hfails expected => exact absurd hio hfails
        | done expected =>
          show hashOf b.projection = b.hash
          rw [hb, hbh, htracks.hash]
      dsimp only
      unfold FileSide.writeAfter
      rw [show (w.side a).actor.deferred = a.deferred from rfl]
      cases hd : a.deferred with
      | none =>
        exact fun _ => hdone a _ rfl rfl
          (FileSide.writeOrHold_wrote (hbefore hd).symm htracks.pending _ _ _ _)
      | some d =>
        have hwrote : (w.side { a with deferred := none }).Wrote io
            ((w.side { a with deferred := none }).writeOrHold hashOf d.hash d.bytes d.state now io) :=
          FileSide.writeOrHold_wrote (htracks.owed d hd).1.symm htracks.pending _ _ _ _
        exact fun _ => hdone { a with deferred := none } _ rfl rfl hwrote

theorem Settling.apply {w : FileWorld Hash} (h : w.Settling hashOf) (hsound : w.Sound hashOf)
    {empty : DocState} {e : FileEvent} (he : w.Possible e) (hgoes : w.WritesGo e) :
    (w.apply hashOf empty e).Settling hashOf := by
  unfold FileWorld.apply
  cases e with
  | persist plan storeFails =>
    dsimp only
    split
    · rename_i a ha hl
      split_ifs
      · exact h
      · refine ⟨nofun, fun l hlanding hwrite b hb hd => ?_⟩
        cases hlanding
        cases hb
        have hkept : plan.write = false := hwrite
        have hbytes : plan.bytes = a.projection := (he a ha).resolve_left (by rw [hkept]; exact nofun)
        have hdisk : hashOf w.disk = a.hash := h.settled hl a ha hd
        show hashOf w.disk = hashOf plan.bytes
        rw [hbytes, hdisk, (hsound.actor a ha).hash]
    · exact h
  | land now io =>
    dsimp only
    split
    · rename_i a l ha hl
      exact ⟨fun _ => settled_land hsound ha hl (h.landing l hl) now hgoes, nofun⟩
    · exact h
  | flush now io =>
    dsimp only
    split
    · rename_i a ha hl
      exact ⟨fun _ => settled_flush hsound ha (h.settled hl) now io, nofun⟩
    · exact h
  | crash => exact ⟨fun _ _ ha => absurd ha nofun, fun _ hl => absurd hl nofun⟩
  | reopen now restored io =>
    dsimp only
    split
    · exact h
    · rename_i ha
      have hreopened := hsound.reopened empty now restored io
      generalize w.recover hashOf empty now restored io = r at hreopened
      cases hreopened with
      | same htracks hdisk hsame => exact ⟨fun _ => settled_running.2 fun _ => hdisk, nofun⟩
      | written htracks hdeferred hstored =>
        exact ⟨fun _ => settled_running.2 fun _ => htracks.hash.symm, nofun⟩
      | failed a =>
        exact ⟨fun _ b hb => absurd (ha.symm.trans hb) nofun, fun l hl _ b hb => absurd (ha.symm.trans hb) nofun⟩
      | external hnone => exact h

/-- Where no commit's own write fails, every commit starts with the file settled. -/
theorem settled_of_writes {empty : DocState} {w : FileWorld Hash} (h : FileRun hashOf empty WritesGo w) :
    FileRun hashOf empty (CommitsSettled hashOf) w ∧ w.Settling hashOf := by
  induction h with
  | @start w a h =>
    refine ⟨.start h, fun _ b hb _ => ?_, fun l hl => absurd (h.landing.symm.trans hl) nofun⟩
    obtain rfl := Option.some_inj.1 (h.actor.symm.trans hb)
    exact h.disk
  | @step w e h he hgoes ih =>
    obtain ⟨hrun, hsettling⟩ := ih
    have hallowed : w.CommitsSettled hashOf e := by
      cases e <;> first | exact hsettling.settled | trivial
    exact ⟨.step hrun he hallowed, hsettling.apply (sound_of_run hrun) he hgoes⟩

end FileWorld

/-- As long as every commit starts with the file settled, the file holds what the store says, and an opening
at any moment keeps every committed op's effect. -/
theorem named_of_run {empty : DocState} [DecidableEq Hash] {w : FileWorld Hash}
    (h : FileRun hashOf empty (FileWorld.CommitsSettled hashOf) w) : w.Named hashOf ∧
      ∀ now restored io, restored ≠ none → w.Keeps hashOf (w.recover hashOf empty now restored io) :=
  ⟨(FileWorld.sound_of_run h).named, fun now _ io hrestored =>
    (FileWorld.sound_of_run h).keeps_restored empty now hrestored io⟩

/-- A document that was never written, its bytes their own hash. -/
def unwritten : FileWorld (List UInt8) where
  disk := []
  store := ⟨none, none, none⟩
  actor := some ⟨.empty ⟨"todo.txt".toList⟩ .tagged, [], [], none, none, none, []⟩
  landing := none

/-- A commit of one byte. -/
def onePlan (byte : UInt8) (deferWrite : Bool) : FilePlan :=
  ⟨.empty ⟨"todo.txt".toList⟩ .tagged, [byte], true, deferWrite⟩

/-- The events on a document that was never written. -/
def afterEvents (events : List FileEvent) : FileWorld (List UInt8) :=
  events.foldl (fun w e => w.apply id (.empty ⟨"todo.txt".toList⟩ .tagged) e) unwritten

/-- A deferred commit whose flush fails, another one, and a crash before its write. -/
theorem named_of_run_deferred : (afterEvents [.persist (onePlan 97 true) false, .land 0 ⟨.done, false⟩,
    .flush 0 ⟨.fails, false⟩, .persist (onePlan 98 false) false, .crash]).Named id := by
  have hclean : unwritten.Clean id _ := ⟨rfl, rfl, rfl, rfl, rfl, rfl, rfl, rfl, .inr ⟨rfl, rfl⟩⟩
  have hcommit : ∀ (w : FileWorld (List UInt8)) (byte : UInt8) (deferWrite : Bool),
      w.Possible (.persist (onePlan byte deferWrite) false) := fun w byte deferWrite a ha => .inl rfl
  have howed : FileRun id (.empty ⟨"todo.txt".toList⟩ .tagged) FileWorld.WritesGo
      (afterEvents [.persist (onePlan 97 true) false, .land 0 ⟨.done, false⟩]) :=
    .step (e := .land 0 ⟨.done, false⟩) (.step (.start hclean) (hcommit _ 97 true) trivial) trivial rfl
  have hrun : FileRun id (.empty ⟨"todo.txt".toList⟩ .tagged) FileWorld.WritesGo
      (afterEvents [.persist (onePlan 97 true) false, .land 0 ⟨.done, false⟩,
        .flush 0 ⟨.fails, false⟩, .persist (onePlan 98 false) false, .crash]) :=
    .step (e := .crash) (.step (.step (e := .flush 0 ⟨.fails, false⟩) howed trivial trivial)
      (hcommit _ 98 false) trivial) trivial trivial
  exact (named_of_run (FileWorld.settled_of_writes hrun).1).1

/-- A commit whose write fails, another one, and a crash before its write: the file holds neither what the
store says nor what it says was there, and is reconciled as another's edit. -/
theorem not_named : ¬(afterEvents [.persist (onePlan 97 false) false, .land 0 ⟨.fails, false⟩,
    .persist (onePlan 98 false) false, .crash]).Named id ∧
      (afterEvents [.persist (onePlan 97 false) false, .land 0 ⟨.fails, false⟩,
        .persist (onePlan 98 false) false, .crash]).recover id (.empty ⟨"todo.txt".toList⟩ .tagged) 0
          (some (.empty ⟨"todo.txt".toList⟩ .tagged)) ⟨.done, false⟩ = .external := by
  refine ⟨fun h => ?_, rfl⟩
  rcases h [98] [98] rfl with hfile | hprev
  · cases hfile
  · cases hprev

end Txtodo
