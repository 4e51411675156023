import Txtodo.Daemon.History
import Txtodo.Daemon.SyncOps
import Txtodo.Daemon.Proofs.PreviewProofs
import Txtodo.Engine.Proofs.InOrderProofs
import Txtodo.Engine.Proofs.SettleProofs

/-!
# Proofs: the log and its replay

As long as every op committed applies to the document as it is, the document is the log replayed: a batch
is planned by applying its ops in order, a run of a peer's ops parks none, and a commit settles nothing.
-/

namespace Txtodo

namespace DocState

variable {s s' : DocState} {ops : List Op}

/-! ## Pages -/

theorem replayPage_of_replay (h : s.replay ops = some s') : replayPage s ops = .ok s' := by
  induction ops generalizing s with
  | nil => rw [replayPage, Option.some.inj h]
  | cons op ops ih =>
    obtain ⟨s₁, hfirst, hrest⟩ := replay_cons_eq_some.1 h
    rw [replayPage, hfirst]
    exact ih hrest

theorem replayPages_of_replay {pages : Nat} (h : s.replay ops = some s')
    (hroom : ops.length ≤ pages * MAX_OPS_PER_READ) : replayPages pages s ops = .ok s' := by
  induction pages generalizing s ops with
  | zero =>
    obtain rfl : ops = [] := List.length_eq_zero_iff.1 (by omega)
    rw [replayPages, Option.some.inj h]
  | succ pages ih =>
    rw [replayPages]
    by_cases hempty : ops.isEmpty = true
    · obtain rfl := List.isEmpty_iff.1 hempty
      rw [if_pos hempty, Option.some.inj h]
    rw [if_neg hempty]
    rw [← List.take_append_drop MAX_OPS_PER_READ ops, replay_append_eq_some] at h
    obtain ⟨s₁, hpage, hrest⟩ := h
    rw [replayPage_of_replay hpage]
    dsimp only
    by_cases hlast : (ops.drop MAX_OPS_PER_READ).isEmpty = true
    · rw [List.isEmpty_iff.1 hlast] at hrest
      rw [if_pos hlast, Option.some.inj hrest]
    · rw [if_neg hlast]
      refine ih hrest ?_
      rw [List.length_drop]
      rw [Nat.succ_mul] at hroom
      omega

end DocState

namespace FileActor

open DocState TextHistory

variable {Hash : Type} {env : ActorEnv Hash} {a a' : FileActor Hash} {s s' : DocState} {hlc : Hlc}

/-! ## A batch as planned -/

theorem replay_stampAll {ids : Nat → OpId} {kinds : List OpKind} {n : Nat} (path : FilePath)
    (h : applyStamped hlc ids n s kinds = .ok s') :
    s.replay (stampAll path hlc ids n kinds) = some s' := by
  induction kinds generalizing s n with
  | nil => exact congrArg some (Except.ok.inj h)
  | cons kind kinds ih =>
    have hcons : stampAll path hlc ids n (kind :: kinds) =
        stamped path kind hlc (ids n) :: stampAll path hlc ids (n + 1) kinds := by
      rw [stampAll, List.zipIdx_cons, List.map_cons, Nat.zero_add, List.zipIdx_succ, List.map_map]
      refine congrArg (_ :: ·) (List.map_congr_left fun x _ => ?_)
      show stamped path x.1 hlc (ids (n + (x.2 + 1))) = stamped path x.1 hlc (ids (n + 1 + x.2))
      rw [Nat.add_assoc n 1, Nat.add_comm 1]
    have happly : s.apply (stamped path kind hlc (ids n)) = s.apply (stamped s.path kind hlc (ids n)) :=
      s.apply_congr rfl rfl
    rw [applyStamped] at h
    rw [hcons, replay_cons, happly]
    rcases hout : s.apply (stamped s.path kind hlc (ids n)) with ⟨s₁, e | u⟩
    · rw [hout] at h
      cases h
    · rw [hout] at h
      exact ih h

/-- A plan's document is its ops applied in order. -/
theorem replay_planFrom {ids : Minted} {batch : List (Mutation Hash)} {n : Nat} {ops : List Op}
    {p : Planned} (h : (planFrom hlc ids n s ops batch).2 = .ok p) :
    ∃ more, p.ops = ops ++ more ∧ s.replay more = some p.next ∧ p.bytes = p.next.toBytes ∧
      ∀ op ∈ more, op.hlc = hlc := by
  induction batch generalizing n s ops with
  | nil =>
    obtain rfl := Except.ok.inj h
    exact ⟨[], by simp, rfl, rfl, by simp⟩
  | cons m rest ih =>
    rw [planFrom] at h
    cases hm : mutationOps s m (ids.task n) with
    | error e =>
      rw [hm] at h
      cases h
    | ok kinds =>
      rw [hm] at h
      dsimp only at h
      cases hk : applyStamped hlc ids.op ops.length s kinds with
      | error e =>
        rw [hk] at h
        cases h
      | ok s₁ =>
        rw [hk] at h
        obtain ⟨more, hops, hreplay, hbytes, hstamp⟩ := ih h
        refine ⟨stampAll s.path hlc ids.op ops.length kinds ++ more, ?_, ?_, hbytes, ?_⟩
        · rw [hops, List.append_assoc]
        · exact replay_append_eq_some.2 ⟨s₁, replay_stampAll s.path hk, hreplay⟩
        · intro op hop
          rcases List.mem_append.1 hop with hop | hop
          · obtain ⟨_, -, rfl⟩ := List.mem_map.1 hop
            rfl
          · exact hstamp op hop

/-! ## What holds between the calls -/

/-- What holds while every op committed applies in order: the document is its log replayed, its bytes are
the projection, and nothing waits. -/
structure Tracks (path : FilePath) (mode : IdentityMode) (a : FileActor Hash) : Prop where
  replayed : (DocState.empty path mode).replay a.log = some a.state
  stamped : ∀ op ∈ a.log, op.hlc ≠ scratchStamp
  bytes : a.projection = a.state.toBytes
  parked : a.parked = .empty

variable {path : FilePath} {mode : IdentityMode}

theorem keeps_replay {A : Hlc → Prop} {P : TextHistory → Prop} {ops : List Op}
    (hs : s.Keeps A P) (hops : ∀ op ∈ ops, A op.hlc ∧ KeepsTexts P op.hlc)
    (h : s.replay ops = some s') : s'.Keeps A P := by
  induction ops generalizing s with
  | nil =>
    obtain rfl : s = s' := Option.some.inj h
    exact hs
  | cons op ops ih =>
    obtain ⟨s₁, hfirst, hrest⟩ := replay_cons_eq_some.1 h
    obtain ⟨hat, htexts⟩ := hops op List.mem_cons_self
    have hs₁ := hs.apply op hat htexts
    rw [hfirst] at hs₁
    exact ih hs₁ (fun o ho => hops o (List.mem_cons_of_mem _ ho)) hrest

/-- The document a log replays to has nothing to settle. -/
theorem settleScratchStamps_of_replay {log : List Op} (h : (DocState.empty path mode).replay log = some s)
    (hstamped : ∀ op ∈ log, op.hlc ≠ scratchStamp) : s.settleScratchStamps hlc = s := by
  have hempty : (DocState.empty path mode).Holds (· ≠ scratchStamp) := ofEntries_holds (by decide)
  exact settleScratchStamps_eq_self
    (keeps_replay (hempty.keeps id)
      (fun op hop => ⟨hstamped op hop, keepsTexts_heldBy (hstamped op hop)⟩) h)
    (keeps_replay (reachable_empty path mode).keeps_inOrder
      (fun op _ => ⟨trivial, keepsTexts_inOrder op.hlc⟩) h)

theorem tracks_start (device : DeviceId) : (start env path mode device).Tracks path mode where
  replayed := rfl
  stamped _ hop := absurd hop List.not_mem_nil
  bytes := rfl
  parked := rfl

theorem Tracks.sound (h : a.Tracks path mode) : a.state.Sound :=
  sound_replay (reachable_empty path mode).sound h.replayed

theorem Tracks.withClock (h : a.Tracks path mode) (clock : ActorClock) :
    ({ a with clock := clock } : FileActor Hash).Tracks path mode :=
  ⟨h.replayed, h.stamped, h.bytes, h.parked⟩

/-- A commit of ops that apply in order keeps the document its log replayed. -/
theorem Tracks.commit (h : a.Tracks path mode) {ops : List Op} {next : DocState} {bytes : List UInt8}
    (hnext : a.state.replay ops = some next) (hstamped : ∀ op ∈ ops, op.hlc ≠ scratchStamp)
    (hbytes : bytes = next.toBytes) : (a.commit env ops next bytes).Tracks path mode := by
  have hreplayed : (DocState.empty path mode).replay (a.log ++ ops) = some next :=
    replay_append_eq_some.2 ⟨a.state, h.replayed, hnext⟩
  have hall : ∀ op ∈ a.log ++ ops, op.hlc ≠ scratchStamp := by
    intro op hop
    rcases List.mem_append.1 hop with hop | hop
    · exact h.stamped op hop
    · exact hstamped op hop
  have hstate : (a.commit env ops next bytes).state = next := by
    show ((ops.head?.map fun op => next.settleScratchStamps op.hlc).getD next) = next
    cases ops.head? with
    | none => rfl
    | some op => exact settleScratchStamps_of_replay hreplayed hall
  exact ⟨hreplayed.trans (congrArg some hstate.symm), hall,
    hbytes.trans (congrArg toBytes hstate.symm), h.parked⟩

/-! ## The calls -/

variable [DecidableEq Hash] {nowMs : Nat} {ids : Minted}

/-- Whether a call commits only ops that apply, in order, to the document as it is, none of them under
the scratch stamp. A batch of other mutations than a `Replace` is planned so. -/
def AppliesInOrder (env : ActorEnv Hash) (a : FileActor Hash) : ActorCall Hash → Prop
  | .apply nowMs ids batch =>
    (∀ hlc, (a.clock.tick nowMs).2 = .ok hlc → hlc ≠ scratchStamp) ∧
      ∀ base contents r settled, batch = [.replace base contents] →
        reconcileAgainst env a (parseFile a.projection) (parseFile contents) ids.task = some r →
        settle env.fuel a.state r = some (.ok settled) →
        settled.exact_ = true ∧ ∀ hlc, (a.clock.tick nowMs).2 = .ok hlc →
          (a.state.replay (stampAll a.state.path hlc ids.op 0 settled.kinds)).isSome
  | .syncOps _ ops =>
    (∀ op ∈ dropHeld a.log ops, op.hlc ≠ scratchStamp) ∧ (a.state.replay (dropHeld a.log ops)).isSome
  | .wrote _ => True

omit [DecidableEq Hash] in
/-- What stamping leaves of the actor, and its ops: none, or all stamped by the actor's tick. -/
theorem stampKinds_cases (a : FileActor Hash) (nowMs : Nat) (ids : Minted) (kinds : List OpKind) :
    (∃ clock e, a.stampKinds nowMs ids kinds = ({ a with clock := clock }, .error e)) ∨
      ∃ clock ops, a.stampKinds nowMs ids kinds = ({ a with clock := clock }, .ok ops) ∧
        (ops = [] ∨ ∃ hlc, (a.clock.tick nowMs).2 = .ok hlc ∧
          ops = stampAll a.state.path hlc ids.op 0 kinds) := by
  unfold stampKinds
  split_ifs
  · exact .inr ⟨a.clock, [], rfl, .inl rfl⟩
  · split
    · next clock e htick => exact .inl ⟨clock, e, rfl⟩
    · next clock hlc htick => exact .inr ⟨clock, _, rfl, .inr ⟨hlc, by rw [htick], rfl⟩⟩

omit [DecidableEq Hash] in
/-- A replacement whose ops apply in order keeps the document its log replayed. -/
theorem Tracks.commitReplacement (h : a.Tracks path mode) {contents : List UInt8}
    {out : FileActor Hash × Except ActorError (Applied Hash)}
    (hout : commitReplacement env a nowMs ids contents = some out)
    (hticks : ∀ hlc, (a.clock.tick nowMs).2 = .ok hlc → hlc ≠ scratchStamp)
    (horder : ∀ r settled,
      reconcileAgainst env a (parseFile a.projection) (parseFile contents) ids.task = some r →
      settle env.fuel a.state r = some (.ok settled) →
      settled.exact_ = true ∧ ∀ hlc, (a.clock.tick nowMs).2 = .ok hlc →
        (a.state.replay (stampAll a.state.path hlc ids.op 0 settled.kinds)).isSome) :
    out.1.Tracks path mode := by
  obtain ⟨r, hr, hout⟩ := Option.bind_eq_some_iff.1 hout
  obtain ⟨settled, hsettled, hout⟩ := Option.bind_eq_some_iff.1 hout
  cases settled with
  | error e =>
    obtain rfl := Option.some.inj hout
    exact h
  | ok settled =>
    obtain ⟨hexact, horder⟩ := horder r settled hr hsettled
    dsimp only at hout
    rcases stampKinds_cases a nowMs ids settled.kinds with ⟨clock, e, hstamp⟩ |
      ⟨clock, ops, hstamp, hops⟩
    · rw [hstamp] at hout
      obtain rfl := Option.some.inj hout
      exact h.withClock clock
    · obtain ⟨next, hnext, hstamped⟩ : ∃ next, a.state.replay ops = some next ∧
          ∀ op ∈ ops, op.hlc ≠ scratchStamp := by
        rcases hops with rfl | ⟨hlc, htick, rfl⟩
        · exact ⟨a.state, rfl, by simp⟩
        · obtain ⟨next, hnext⟩ := Option.isSome_iff_exists.1 (horder hlc htick)
          refine ⟨next, hnext, fun op hop => ?_⟩
          obtain ⟨_, -, rfl⟩ := List.mem_map.1 hop
          exact hticks hlc htick
      have hlogged : asLogged { a with clock := clock } ops = some (next, next.toBytes) := by
        rw [asLogged, applyLeniently_of_replay hnext]
        rfl
      rw [hstamp] at hout
      dsimp only at hout
      rw [if_pos hexact, hlogged] at hout
      obtain rfl := Option.some.inj hout
      exact (h.withClock clock).commit hnext hstamped rfl

/-- A batch with a `Replace` fails, or is that `Replace` alone and its contents are committed. -/
theorem replaceBatch_cases {batch : List (Mutation Hash)}
    {replaced : Option (FileActor Hash × Except ActorError (Applied Hash))}
    (h : replaceBatch env a nowMs ids batch = some replaced) :
    (∃ e, replaced = some (a, .error e)) ∨ ∃ base contents, batch = [.replace base contents] ∧
      replaced = FileActor.commitReplacement env a nowMs ids contents := by
  unfold replaceBatch at h
  split at h
  · next base contents =>
    split at h
    · exact .inl ⟨_, (Option.some.inj h).symm⟩
    · exact .inr ⟨base, contents, rfl, (Option.some.inj h).symm⟩
  · split_ifs at h
    exact .inl ⟨_, (Option.some.inj h).symm⟩

/-- A batch keeps the document its log replayed. -/
theorem Tracks.onApply (h : a.Tracks path mode) {batch : List (Mutation Hash)}
    {out : FileActor Hash × Except ActorError (Applied Hash)}
    (hin : AppliesInOrder env a (.apply nowMs ids batch))
    (hout : onApply env a nowMs ids batch = some out) : out.1.Tracks path mode := by
  obtain ⟨hticks, horder⟩ := hin
  unfold FileActor.onApply at hout
  split at hout
  · obtain rfl := Option.some.inj hout
    exact h
  · split at hout
    · next replaced hreplaced =>
      rcases replaceBatch_cases hreplaced with ⟨e, rfl⟩ | ⟨base, contents, hbatch, rfl⟩
      · obtain rfl := Option.some.inj hout
        exact h
      · exact h.commitReplacement hout hticks fun r settled => horder base contents r settled hbatch
    · split at hout
      · next clock e htick =>
        obtain rfl := Option.some.inj hout
        exact h.withClock clock
      · next clock hlc htick =>
        have hhlc : hlc ≠ scratchStamp := hticks hlc (by rw [htick])
        split at hout
        · obtain rfl := Option.some.inj hout
          exact h.withClock clock
        · next planned hplan =>
          obtain ⟨more, hops, hreplay, hbytes, hstamp⟩ := replay_planFrom hplan
          obtain rfl := Option.some.inj hout
          rw [List.nil_append] at hops
          refine (h.withClock clock).commit (hops ▸ hreplay) ?_ hbytes
          rw [hops]
          exact fun op hop => hstamp op hop ▸ hhlc

omit [DecidableEq Hash] in
/-- A run of a peer's ops keeps the document its log replayed. -/
theorem Tracks.onSyncRun (h : a.Tracks path mode) {ops : List Op}
    (hrouted : ∀ op ∈ ops, op.file = a.state.path) (hin : AppliesInOrder env a (.syncOps nowMs ops))
    (hout : onSyncRun env a nowMs ops = some a') : a'.Tracks path mode := by
  obtain ⟨hstamped, horder⟩ := hin
  obtain ⟨next, hnext⟩ := Option.isSome_iff_exists.1 horder
  unfold FileActor.onSyncRun at hout
  dsimp only at hout
  split_ifs at hout
  · obtain rfl := Option.some.inj hout
    exact h
  · obtain ⟨clock, hclock⟩ : ∃ clock, a.observePeerStamps nowMs (dropHeld a.log ops) =
        { a with clock := clock } := by
      unfold observePeerStamps
      split
      · exact ⟨a.clock, rfl⟩
      · exact ⟨_, rfl⟩
    have hfile : ∀ op ∈ dropHeld a.log ops, op.file = a.state.path :=
      fun op hop => hrouted op (List.mem_filter.1 hop).1
    have hparking := applyParking_of_replay h.sound hfile hnext
    rw [← h.parked] at hparking
    rw [hclock, hparking] at hout
    obtain rfl := Option.some.inj hout
    have hcommit : (FileActor.commit env { a with clock := clock } (dropHeld a.log ops) next
        next.toBytes).Tracks path mode := (h.withClock clock).commit hnext hstamped rfl
    exact ⟨hcommit.replayed, hcommit.stamped, hcommit.bytes, h.parked⟩

theorem tracks_run {device : DeviceId} (hrun : Run env path mode device (AppliesInOrder env) a) :
    a.Tracks path mode := by
  induction hrun with
  | start => exact tracks_start device
  | @call a a' c _ hrouted hin hcall ih =>
    cases c with
    | apply nowMs ids batch =>
      obtain ⟨out, hout, rfl⟩ := Option.map_eq_some_iff.1 hcall
      exact ih.onApply hin hout
    | syncOps nowMs ops => exact ih.onSyncRun hrouted hin hcall
    | wrote disk =>
      obtain rfl := Option.some.inj hcall
      exact ⟨ih.replayed, ih.stamped, ih.bytes, ih.parked⟩

/-- In a run whose calls commit only ops that apply in order, the committed log replays from the empty
document and renders the bytes the actor holds. -/
theorem log_replays {device : DeviceId} (hrun : Run env path mode device (AppliesInOrder env) a)
    (hpages : a.log.length ≤ MAX_REPLAY_PAGES * MAX_OPS_PER_READ) :
    ∃ s, Txtodo.replay path mode a.log = .ok s ∧ s.toBytes = a.projection := by
  have htracks := tracks_run hrun
  exact ⟨a.state, replayPages_of_replay htracks.replayed hpages, htracks.bytes.symm⟩

/-- A line a peer sends, then deleted here. -/
theorem log_replays_delete :
    ∃ a, Run lineEnv ⟨['f']⟩ .sidecar ⟨1⟩ (AppliesInOrder lineEnv) a ∧
      a.log.map Op.hlc = [⟨1, 0, ⟨2⟩⟩, ⟨9, 0, ⟨1⟩⟩] ∧
      ∃ s, Txtodo.replay ⟨['f']⟩ .sidecar a.log = .ok s ∧ s.toBytes = a.projection := by
  let ops : List Op := [⟨⟨1⟩, ⟨1, 0, ⟨2⟩⟩, ⟨['f']⟩, .insert ⟨1, by decide⟩ none ['a']⟩]
  let first : ActorCall (List UInt8) := .syncOps 5 ops
  let second : ActorCall (List UInt8) := .apply 9 countedIds [.delete ⟨1, none⟩ false]
  have hcalls : ((start lineEnv ⟨['f']⟩ .sidecar ⟨1⟩).call lineEnv first).any
      (fun a => (a.clock.tick 9).2.toOption = some ⟨9, 0, ⟨1⟩⟩ ∧
        (a.call lineEnv second).any fun a =>
          a.log.map Op.hlc = [⟨1, 0, ⟨2⟩⟩, ⟨9, 0, ⟨1⟩⟩]) = true := by
    decide +kernel
  obtain ⟨a, hfirst, hcalls⟩ := (Option.any_eq_true _ _).1 hcalls
  obtain ⟨htick, hcalls⟩ := of_decide_eq_true hcalls
  obtain ⟨a', hsecond, hlog⟩ := (Option.any_eq_true _ _).1 hcalls
  have hlog := of_decide_eq_true hlog
  have hrouted : ∀ op ∈ ops, op.file = ⟨['f']⟩ := by decide
  have hrun : Run lineEnv ⟨['f']⟩ .sidecar ⟨1⟩ (AppliesInOrder lineEnv) a :=
    .call (c := first) .start hrouted ⟨by decide, by decide⟩ hfirst
  have hrun' : Run lineEnv ⟨['f']⟩ .sidecar ⟨1⟩ (AppliesInOrder lineEnv) a' := by
    refine .call (c := second) hrun trivial ⟨fun hlc h => ?_, ?_⟩ hsecond
    · rw [h] at htick
      obtain rfl := Option.some.inj htick
      decide
    · rintro _ _ _ _ ⟨⟩
  have hlength : a'.log.length = 2 := by simpa using congrArg List.length hlog
  exact ⟨a', hrun', hlog, log_replays hrun' (by rw [hlength]; decide)⟩

/-- A change that comes before the line it changes: the line is shown changed, and its log does not
replay. -/
theorem log_with_parked_op_fails :
    let task : TaskId := ⟨1, by decide⟩
    let early : List Op := [⟨⟨1⟩, ⟨2, 0, ⟨3⟩⟩, ⟨['f']⟩, .setField task .completed (.bool true)⟩]
    let late : List Op := [⟨⟨2⟩, ⟨1, 0, ⟨2⟩⟩, ⟨['f']⟩, .insert task none ['a']⟩]
    ∃ a, Run lineEnv ⟨['f']⟩ .sidecar ⟨1⟩ (fun _ _ => True) a ∧
      a.projection = "x a\n".toUTF8.toList ∧ a.log = early ++ late ∧
      (Txtodo.replay ⟨['f']⟩ .sidecar a.log).isOk = false := by
  intro task early late
  let first : ActorCall (List UInt8) := .syncOps 5 early
  let second : ActorCall (List UInt8) := .syncOps 6 late
  have hcalls : ((start lineEnv ⟨['f']⟩ .sidecar ⟨1⟩).call lineEnv first).any
      (fun a => (∀ op ∈ late, op.file = a.state.path) ∧ (a.call lineEnv second).any fun a =>
        a.projection = "x a\n".toUTF8.toList ∧ a.log = early ++ late) = true := by
    decide +kernel
  obtain ⟨a, hfirst, hcalls⟩ := (Option.any_eq_true _ _).1 hcalls
  obtain ⟨hrouted, hcalls⟩ := of_decide_eq_true hcalls
  obtain ⟨a', hsecond, hend⟩ := (Option.any_eq_true _ _).1 hcalls
  obtain ⟨hbytes, hlog⟩ := of_decide_eq_true hend
  have hrouted' : ∀ op ∈ early, op.file = ⟨['f']⟩ := by decide
  refine ⟨a', .call (c := second) (.call (c := first) .start hrouted' trivial hfirst) hrouted trivial
    hsecond, hbytes, hlog, ?_⟩
  rw [hlog]
  decide +kernel

end FileActor

end Txtodo
