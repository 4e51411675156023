import Txtodo.Daemon.Live
import Txtodo.Daemon.Proofs.LandingProofs
import Txtodo.Daemon.Proofs.ServeMergedProofs

/-!
# The link's arithmetic stays in range

Which messages and store heads make a sum or difference of the sequence arithmetic wrap, and that
without them every step of a link fits 64 bits.
-/

namespace Txtodo

variable {Key : Type} {workspace : WorkspaceId} {initial heads heads' : Heads} {r : OriginRange}
  {ranges : List OriginRange} {left landed : UInt64} {s : WorkspaceSession} {msg : Message}
  {keys : DeviceKeys Key} {store : StoreHeads} {ops : List Op} {signatures : List Signature}

/-! ## Checking a batch -/

/-- No run comes for a device whose head, with the runs before it, is the last number there is. -/
def AdvancesInRange : Heads → List OriginRange → Prop
  | _, [] => True
  | heads, r :: ranges => heads.get r.device ≠ UInt64.MAX ∧
    ∀ next, (advance heads r).value = .ok next → AdvancesInRange next ranges

theorem advanceAll_fits : (advanceAll heads ranges).fits = true ↔ AdvancesInRange heads ranges := by
  induction ranges generalizing heads with
  | nil => exact ⟨fun _ => trivial, fun _ => rfl⟩
  | cons r ranges ih =>
    rw [advanceAll, AdvancesInRange, Checked.fits_bind, Bool.and_eq_true, advance_fits]
    cases hadvance : (advance heads r).value with
    | error gap => simp
    | ok next => simp [ih]

/-! ## Cutting a batch to what landed -/

/-- No run that ends at the last number there is lands whole, and none with an op landed is every
number there is. -/
def LandsInRange : List OriginRange → Nat → Prop
  | [], _ => True
  | r :: ranges, left => left = 0 ∨
    ¬(r.last = UInt64.MAX ∧ r.width ≤ left) ∧ ¬(r.first = 0 ∧ r.last = UInt64.MAX) ∧
      LandsInRange ranges (left - r.width)

theorem landedRanges_fits (hle : ∀ r ∈ ranges, r.first ≤ r.last) :
    (landedRanges ranges left).fits = true ↔ LandsInRange ranges left.toNat := by
  induction ranges generalizing left with
  | nil => exact ⟨fun _ => trivial, fun _ => rfl⟩
  | cons r ranges ih =>
    by_cases hleft : left = 0
    · rw [landedRanges, if_pos hleft]
      exact ⟨fun _ => .inl (hleft ▸ rfl), fun _ => rfl⟩
    · have hr := hle r List.mem_cons_self
      have hle' := UInt64.le_iff_toNat_le.1 hr
      have hleft' := UInt64.toNat_pos hleft
      by_cases hspan : r.first = 0 ∧ r.last = UInt64.MAX
      · have hwraps : (Checked.add (r.last - r.first) 1).fits = false := by
          rw [hspan.1, hspan.2]
          rfl
        have hnot : ¬LandsInRange (r :: ranges) left.toNat := by
          rintro (hzero | ⟨-, hall, -⟩)
          · omega
          · exact hall hspan
        rw [landedRanges, if_neg hleft]
        simp [hwraps, hnot]
      · obtain ⟨hsub, hadd, hvalue⟩ := OriginRange.toNat_width hr (OriginRange.width_lt hspan)
        have hwidth : r.width = r.last.toNat + 1 - r.first.toNat := rfl
        have htake : (min (r.last - r.first + 1) left).toNat = min r.width left.toNat := by
          rw [UInt64.toNat_min, hvalue]
        have hpast : (Checked.add r.first (min (r.last - r.first + 1) left)).fits = true ↔
            ¬(r.last = UInt64.MAX ∧ r.width ≤ left.toNat) := by
          have hlast := r.last.toNat_lt
          rw [Checked.fits_add, htake, ← UInt64.toNat_inj, UInt64.toNat_MAX]
          omega
        have hspent : (Checked.sub left (min (r.last - r.first + 1) left)).fits = true :=
          Checked.fits_sub.2 (min_le_right _ _)
        have hrest : (landedRanges ranges (.ofNat (left.toNat - r.width))).fits = true ↔
            LandsInRange ranges (left.toNat - r.width) := by
          rw [ih fun q hq => hle q (List.mem_cons_of_mem _ hq), toNat_ofNat_left]
        rw [landedRanges, if_neg hleft]
        simp only [Checked.fits_bind, Checked.value_sub, Checked.value_add, Checked.fits_pure,
          Bool.and_eq_true, Bool.true_and, Bool.and_true, hsub, hadd, hspent, hpast,
          left_sub_take hr (OriginRange.width_lt hspan), hrest]
        rw [LandsInRange]
        constructor
        · rintro ⟨hwhole, -, hland⟩
          exact .inr ⟨hwhole, hspan, hland⟩
        · rintro (hzero | ⟨hwhole, -, hland⟩)
          · omega
          · refine ⟨hwhole, Checked.fits_sub.2 (UInt64.le_iff_toNat_le.2 ?_), hland⟩
            have hsum := Checked.fits_add.1 (hpast.2 hwhole)
            rw [UInt64.toNat_add, Nat.mod_eq_of_lt hsum, htake, UInt64.toNat_one]
            have := OriginRange.width_pos hr
            omega

/-- No cut run ends at the last number there is. -/
theorem landedRanges_below (hle : ∀ r ∈ ranges, r.first ≤ r.last)
    (hland : LandsInRange ranges left.toNat) {q : OriginRange}
    (hq : q ∈ (landedRanges ranges left).value) : q.last ≠ UInt64.MAX := by
  induction ranges generalizing left with
  | nil => exact absurd hq List.not_mem_nil
  | cons r ranges ih =>
    have hr := hle r List.mem_cons_self
    by_cases hleft : left = 0
    · rw [hleft, landedRanges_zero] at hq
      exact absurd hq List.not_mem_nil
    · rcases hland with hzero | ⟨hwhole, hspan, hland⟩
      · exact absurd (UInt64.toNat_inj.1 hzero) hleft
      · rw [landedRanges_cons hr hspan hleft, List.mem_cons] at hq
        rcases hq with rfl | hq
        · have hle' := UInt64.le_iff_toNat_le.1 hr
          have hlast := r.last.toNat_lt
          have hwidth : r.width = r.last.toNat + 1 - r.first.toNat := rfl
          rw [UInt64.ne_MAX, OriginRange.toNat_cut_last hr]
          rw [← UInt64.toNat_inj, UInt64.toNat_MAX] at hwhole
          omega
        · rw [← toNat_ofNat_left] at hland
          exact ih (fun q hq => hle q (List.mem_cons_of_mem _ hq)) hland hq

/-- Heads that take a batch in range take its cut in range. -/
theorem AdvancesInRange.of_cut (h : AdvancesInRange heads ranges) (hle : ∀ r ∈ ranges, r.first ≤ r.last)
    (hadvance : (advanceAll heads ranges).value = .ok heads') (hland : LandsInRange ranges left.toNat) :
    AdvancesInRange heads (landedRanges ranges left).value := by
  induction ranges generalizing heads left with
  | nil => exact trivial
  | cons r ranges ih =>
    have hr := hle r List.mem_cons_self
    by_cases hleft : left = 0
    · rw [hleft, landedRanges_zero]
      exact trivial
    · rcases hland with hzero | ⟨-, hspan, hland⟩
      · exact absurd (UInt64.toNat_inj.1 hzero) hleft
      · rw [landedRanges_cons hr hspan hleft]
        refine ⟨h.1, fun next hnext => ?_⟩
        by_cases hwhole : r.width ≤ left.toNat
        · obtain ⟨next', hnext', hadvance'⟩ := advanceAll_cons_ok.1 hadvance
          rw [OriginRange.cut_whole hr hwhole] at hnext
          obtain rfl := Except.ok.inj (hnext'.symm.trans hnext)
          rw [← toNat_ofNat_left] at hland
          exact ih (h.2 _ hnext) (fun q hq => hle q (List.mem_cons_of_mem _ hq)) hadvance' hland
        · have hnone : left.toNat - r.width = 0 := by omega
          have hnil : (landedRanges ranges (.ofNat 0)).value = [] := landedRanges_zero
          rw [hnone, hnil]
          exact trivial

/-! ## Handling a batch -/

namespace WorkspaceSession

theorem catchUp_fits (hclear : SessionCall.Clear s (.catchUp heads : SessionCall Key)) :
    (s.catchUp heads).fits = true := by
  unfold catchUp
  by_cases hstate : s.state = .importing
  · rw [if_pos hstate]
    rfl
  · rw [if_neg hstate]
    simp only [Checked.fits_bind, Checked.fits_pure, Bool.and_true]
    rw [consume_fits]
    intro c hc hmax
    obtain ⟨e, he, rfl⟩ := List.mem_map.1 hc
    exact hclear hstate e (List.mem_of_mem_filter he) hmax

theorem onHello_fits : (s.onHello msg workspace).fits = true := by
  unfold onHello
  cases s.state with
  | idle | wanting | importing => rfl
  | greeted =>
    cases msg with
    | greet msgWs theirs =>
      by_cases hws : msgWs = workspace
      · simp [hws, want_eq]
      · simp [hws]
    | hello | want | ops | ack | digest => rfl

theorem onOps_fits {msgWs : WorkspaceId} (h : s.takesOps = true → msgWs = workspace →
    verifyBatch ops signatures keys = .ok () → AdvancesInRange s.heads ranges) :
    (s.onOps workspace (.ops msgWs ops signatures ranges) keys).fits = true := by
  unfold onOps
  by_cases htakes : s.takesOps = true
  · rw [if_neg (not_not.2 htakes)]
    by_cases hws : msgWs = workspace
    · simp only [hws, ne_eq, not_true_eq_false, if_false]
      cases hverify : verifyBatch ops signatures keys with
      | error e => rfl
      | ok _ =>
        have hfits := advanceAll_fits.2 (h htakes hws hverify)
        simp only [Checked.fits_bind, hfits, Bool.true_and]
        cases (advanceAll s.heads ranges).value <;> rfl
    · simp [hws]
  · rw [if_pos htakes]
    rfl

theorem commitAndAck_fits (hstate : s.state = .importing) (hle : ∀ r ∈ ranges, r.first ≤ r.last)
    (hadvance : (advanceAll s.heads ranges).value = .ok heads') (hrange : AdvancesInRange s.heads ranges)
    (hland : followsStoreHeads store ranges = true → LandsInRange ranges landed.toNat) :
    (s.commitAndAck workspace ranges store landed).fits = true := by
  rw [commitAndAck]
  by_cases hgate : followsStoreHeads store ranges = true
  · rw [if_neg (not_not.2 hgate)]
    have hland' := hland hgate
    have hcut := (landedRanges_fits hle).2 hland'
    have hcommit : (s.committed workspace (landedRanges ranges landed).value).fits = true := by
      unfold committed
      simp only [hstate]
      cases (landedRanges ranges landed).value.find? fun r => !covered s.inflight r with
      | some stray => rfl
      | none =>
        have hfits := advanceAll_fits.2 (hrange.of_cut hle hadvance hland')
        simp only [Checked.fits_bind, hfits, Bool.true_and]
        cases (advanceAll s.heads (landedRanges ranges landed).value).value with
        | error gap => rfl
        | ok next =>
          have hconsume : (consume s.wanted (landedRanges ranges landed).value).fits = true :=
            consume_fits.2 fun c hc hmax => absurd hmax (landedRanges_below hle hland' hc)
          simp [hconsume]
    simp [hcut, hcommit]
  · rw [if_pos hgate]
    rfl

end WorkspaceSession

/-! ## Every step of a link -/

namespace Live

/-- The heads a push serves up to: those asked for while any is past what was sent, else those here. -/
def owedHeads (heads : Heads) (l : Live) : Heads :=
  match l.asked with
  | some asked => if asked.items.any fun e => l.sent.get e.1 < e.2 then asked else heads
  | none => heads

/-- What a push serves can be read in range. -/
def ServesInRange (heads : Heads) (l : Live) : Prop :=
  ∀ e ∈ (l.owedHeads heads).items, l.sent.get e.1 < e.2 → (wantedRun l.sent e).Serveable

end Live

namespace LinkEvent

/-- The message an event brings passes the caps of the wire. -/
def Encodable : LinkEvent Key → Prop
  | receive msg .. => msg.checkCaps = .ok ()
  | hello | push .. | rewind => True

/-- No number the event brings, or the store or the log answers with, is so high that the arithmetic
of the event wraps. -/
def InRange (workspace : WorkspaceId) (e : LinkEnd) : LinkEvent Key → Prop
  | receive (.ops msgWs ops signatures ranges) keys store landed =>
    let caught := (e.session.catchUp store.heads).value
    SessionCall.Clear e.session (.catchUp store.heads : SessionCall Key) ∧
      (caught.takesOps = true → msgWs = workspace → verifyBatch ops signatures keys = .ok () →
        AdvancesInRange caught.heads ranges ∧
          ((advanceAll caught.heads ranges).value.isOk = true →
            followsStoreHeads store ranges = true → LandsInRange ranges landed.toNat))
  | push _ _ heads => e.live.ServesInRange heads
  | receive .. | hello | rewind => True

end LinkEvent

namespace Live

variable {l : Live}

/-- The runs a push takes: those asked for while any is owed, else those past what was sent. -/
theorem nextRuns_eq (heads : Heads) (l : Live) : (l.nextRuns heads).fits = true ∧
    (l.nextRuns heads).value.1 = (want l.sent (l.owedHeads heads)).value ∧
      (l.nextRuns heads).value.2.sent = l.sent := by
  rw [nextRuns, owedHeads]
  cases hasked : l.asked with
  | none => simp [want_eq]
  | some asked =>
    simp only [Option.elim_some, Checked.fits_bind, Checked.value_bind, want_isEmpty]
    cases hany : asked.items.any fun e => l.sent.get e.1 < e.2 with
    | true => simp [want_eq]
    | false => simp [want_eq]

theorem push_fits {sign : Op → Option Signature} {log : OpLog} (h : l.ServesInRange heads) :
    (l.push workspace sign log heads).fits = true := by
  obtain ⟨hfits, hruns, -⟩ := nextRuns_eq heads l
  rw [push]
  by_cases hready : l.ready = true
  · rw [if_neg (not_not.2 hready)]
    have hnodup : ((l.nextRuns heads).value.1.map OriginRange.device).Nodup := hruns ▸ want_nodup
    have hserve : ∀ r ∈ (l.nextRuns heads).value.1, r.Serveable := by
      intro r hr
      rw [hruns] at hr
      obtain ⟨e, he, hlt, rfl⟩ := exists_of_mem_want hr
      exact h e he hlt
    simp only [Checked.fits_bind, hfits, Bool.true_and]
    split
    · rfl
    · cases hbatch : merge log (l.nextRuns heads).value.1 with
      | none => rfl
      | some batch =>
        have hmerge := merge_fits hnodup hserve hbatch
        simp only [Checked.fits_bind, hmerge, Bool.true_and]
        cases batch.value with
        | error e => rfl
        | ok served =>
          obtain ⟨ops, ranges⟩ := served
          simp only
          split
          · rfl
          · cases ops.mapM sign <;> rfl
  · rw [if_pos hready]
    rfl

end Live

theorem WorkspaceSession.handleOps_fits {msgWs : WorkspaceId}
    (hcaps : (Message.ops msgWs ops signatures ranges).checkCaps = .ok ())
    (hclear : SessionCall.Clear s (.catchUp store.heads : SessionCall Key))
    (hrange : (s.catchUp store.heads).value.takesOps = true → msgWs = workspace →
      verifyBatch ops signatures keys = .ok () →
        AdvancesInRange (s.catchUp store.heads).value.heads ranges ∧
          ((advanceAll (s.catchUp store.heads).value.heads ranges).value.isOk = true →
            followsStoreHeads store ranges = true → LandsInRange ranges landed.toNat)) :
    (s.handleOps workspace (.ops msgWs ops signatures ranges) ranges keys store landed).fits = true := by
  have hle := forwards_of_checkCaps hcaps
  have hcaught : (s.catchUp store.heads).fits = true := catchUp_fits hclear
  have htaken : ((s.catchUp store.heads).value.onOps workspace (.ops msgWs ops signatures ranges)
      keys).fits = true := onOps_fits fun htakes hws hverify => (hrange htakes hws hverify).1
  rw [handleOps]
  simp only [Checked.fits_bind, hcaught, htaken, Bool.true_and]
  obtain ⟨e, h⟩ | ⟨ops', signatures', ranges', heads', htakes, hmsg, hverify, hadvance, h⟩ :=
    (s.catchUp store.heads).value.onOps_cases workspace (.ops msgWs ops signatures ranges) keys
  · simp only [h]
    cases e <;> rfl
  · obtain ⟨hws, rfl, rfl, rfl⟩ := Message.ops.inj hmsg
    obtain ⟨hrange', hland⟩ := hrange htakes hws hverify
    have hok : (advanceAll (s.catchUp store.heads).value.heads ranges).value.isOk = true := by
      rw [hadvance]
      rfl
    simp only [h, Checked.fits_bind, Checked.fits_pure, Bool.and_true]
    exact commitAndAck_fits rfl hle hadvance hrange' (hland hok)

theorem LinkEnd.apply_fits {e : LinkEnd} {event : LinkEvent Key} (hcaps : event.Encodable)
    (hrange : event.InRange workspace e) : (e.apply workspace event).fits = true := by
  cases event with
  | hello => rfl
  | rewind => rfl
  | push sign log heads => exact (Checked.fits_map _ _).trans (Live.push_fits hrange)
  | receive msg keys store landed =>
    cases msg with
    | greet msgWs heads => simp [LinkEnd.apply, LinkEnd.receive, WorkspaceSession.onHello_fits]
    | ops msgWs ops signatures ranges =>
      simp [LinkEnd.apply, LinkEnd.receive, WorkspaceSession.handleOps_fits hcaps hrange.1 hrange.2]
    | hello | want | ack | digest => rfl

/-- Where no number is so high that a step's arithmetic wraps, the arithmetic of a whole run of a
link stays in range; every merge a push makes ends, whatever the log and the runs. -/
theorem link_arithmetic_in_range {e : Checked LinkEnd}
    (run : LinkRun workspace initial (fun e (event : LinkEvent Key) =>
      event.Encodable ∧ event.InRange workspace e) e) :
    e.fits = true ∧ ∀ (log : OpLog) (owed : List OriginRange), ∃ batch, merge log owed = some batch := by
  refine ⟨?_, mergeBy_ends READ_WINDOW⟩
  induction run with
  | new => rfl
  | event _ allowed ih =>
    rw [Checked.fits_bind, ih, Checked.fits_map, LinkEnd.apply_fits allowed.1 allowed.2]
    rfl

namespace SessionSample

/-- A store that holds nothing. -/
def noOps : StoreHeads := emptyStore (some 0)

/-- The end that an event leads to. -/
def next (e : Checked LinkEnd) (event : LinkEvent Unit) : Checked LinkEnd :=
  e >>= fun e => Prod.snd <$> e.apply shared event

/-- The end that was greeted by a peer whose head is `last`. -/
def greetedBy (last : UInt64) : Checked LinkEnd :=
  next (next (pure (.new .empty)) .hello)
    (.receive (.greet shared (OrdMap.insert peer last .empty)) anyKey noOps 0)

/-- A batch of `ranges` from the peer, none of it landed. -/
def batchOf (ranges : List OriginRange) : LinkEvent Unit :=
  .receive (.ops shared [] [] ranges) anyKey noOps 0

/-- The peer's `Want` of `ranges`. -/
def wantOf (ranges : List OriginRange) : LinkEvent Unit := .receive (.want shared ranges) anyKey noOps 0

/-- A push from an empty log. -/
def emptyPush : LinkEvent Unit := .push (fun _ => none) ⟨[], .nil⟩ .empty

/-- A peer's five ops sent and none landed. -/
theorem link_in_range_of_five : (next (greetedBy 5) (batchOf (wholeRun 5))).fits = true := by
  have hgreeted : LinkRun shared .empty (fun e (event : LinkEvent Unit) =>
      event.Encodable ∧ event.InRange shared e) (greetedBy 5) :=
    .event (.event .new ⟨trivial, trivial⟩) ⟨rfl, trivial⟩
  have hcaps : (batchOf (wholeRun 5)).Encodable := rfl
  have hops : (batchOf (wholeRun 5)).InRange shared (greetedBy 5).value :=
    ⟨fun _ _ he => absurd he List.not_mem_nil,
      fun _ _ _ => ⟨⟨by decide, fun _ _ => trivial⟩, fun _ _ => .inl rfl⟩⟩
  exact (link_arithmetic_in_range (.event hgreeted ⟨hcaps, hops⟩)).1

/-- A peer whose head is near the last number and that wants the numbers past it makes the reader's
window wrap; one that sends a run up to the last number and another of the same device makes the next
number after its head wrap. -/
theorem link_arithmetic_wraps :
    (∃ e : Checked LinkEnd, LinkRun shared .empty (fun _ (event : LinkEvent Unit) => event.Encodable) e ∧
      e = next (next (greetedBy (UInt64.MAX - 50)) (wantOf [⟨peer, UInt64.MAX - 49, UInt64.MAX⟩]))
        emptyPush ∧ e.fits = false) ∧
    ∃ e : Checked LinkEnd, LinkRun shared .empty (fun _ (event : LinkEvent Unit) => event.Encodable) e ∧
      e = next (greetedBy UInt64.MAX) (batchOf (wholeRun UInt64.MAX ++ wholeRun UInt64.MAX)) ∧
      e.fits = false := by
  have hgreeted : ∀ last, LinkRun shared .empty (fun _ (event : LinkEvent Unit) => event.Encodable)
      (greetedBy last) := fun last => .event (.event .new trivial) rfl
  have hwant : (wantOf [⟨peer, UInt64.MAX - 49, UInt64.MAX⟩]).Encodable := rfl
  have hbatch : (batchOf (wholeRun UInt64.MAX ++ wholeRun UInt64.MAX)).Encodable := rfl
  have hpush : emptyPush.Encodable := trivial
  refine ⟨⟨_, .event (.event (hgreeted _) hwant) hpush, rfl, ?_⟩, ⟨_, .event (hgreeted _) hbatch, rfl, ?_⟩⟩
  · decide +kernel
  · decide +kernel

end SessionSample

end Txtodo
