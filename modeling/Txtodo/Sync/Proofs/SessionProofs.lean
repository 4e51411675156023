import Txtodo.Sync.WorkspaceSession
import Txtodo.Sync.Proofs.HeadsProofs

/-!
# A session keeps no hole

What each call of a session can do, and from it what every run of calls keeps.
-/

namespace Txtodo

variable {Key : Type} {workspace : WorkspaceId} {initial held : Heads} {s : WorkspaceSession}
  {msg : Message} {keys : DeviceKeys Key} {ranges reported wanted : List OriginRange}
  {heads heads' remote : Heads}

/-! ## Runs in step with heads -/

theorem InStep.of_want : InStep heads (want heads remote).value where
  nodup := want_nodup
  follows := fun _ hw => (mem_want hw).2.1
  forwards := fun _ hw => (mem_want hw).2.2

theorem InStep.nil : InStep heads [] where
  nodup := List.nodup_nil
  follows := fun _ hw => absurd hw List.not_mem_nil
  forwards := fun _ hw => absurd hw List.not_mem_nil

/-- Wanted runs stay in step when heads advance past runs and those are consumed. -/
theorem InStep.consume (h : InStep heads wanted)
    (hadvance : (advanceAll heads ranges).value = .ok heads')
    (hclear : ∀ c ∈ ranges, c.last = UInt64.MAX → ∀ w ∈ wanted, w.device ≠ c.device) :
    InStep heads' (consume wanted ranges).value := by
  rw [value_consume]
  constructor
  · have hdevices : (wanted.map (trimmed ranges)).map OriginRange.device =
        wanted.map OriginRange.device := by
      simp [Function.comp_def]
    refine List.Nodup.sublist (List.filter_sublist.map OriginRange.device) ?_
    rw [hdevices]
    exact h.nodup
  · intro w' hw'
    obtain ⟨w, hw, rfl⟩ := List.mem_map.1 (List.mem_of_mem_filter hw')
    rw [trimmed_device]
    exact trimmed_follows hadvance (fun c hc hmax => hclear c hc hmax w hw) (h.follows w hw)
  · intro w' hw'
    simpa using List.of_mem_filter hw'

namespace WorkspaceSession

/-! ## What each call can do -/

theorem settled_wanting (h : settled wanted = .wanting) : wanted ≠ [] := by
  rintro rfl
  cases h

theorem settled_idle (h : settled wanted ≠ .wanting) : wanted = [] := by
  by_contra hne
  exact h (if_neg (by simpa using hne))

theorem settled_eq (wanted : List OriginRange) : settled wanted = .idle ∨ settled wanted = .wanting := by
  rw [settled]
  split
  exacts [.inl rfl, .inr rfl]

theorem hello_cases (s : WorkspaceSession) (workspace : WorkspaceId) :
    (∃ e, s.hello workspace = (.error e, s)) ∨
    s.state = .idle ∧ s.hello workspace = (.ok (.greet workspace s.heads), { s with state := .greeted }) := by
  rw [hello]
  cases hstate : s.state with
  | idle => exact .inr ⟨rfl, rfl⟩
  | greeted | wanting | importing => exact .inl ⟨_, rfl⟩

theorem onHello_cases (s : WorkspaceSession) (msg : Message) (workspace : WorkspaceId) :
    (∃ e, (s.onHello msg workspace).value = (.error e, s)) ∨
    ∃ theirs, s.state = .greeted ∧ msg = .greet workspace theirs ∧
      (s.onHello msg workspace).value = (.ok (.want workspace (want s.heads theirs).value),
        { s with greeted := true, wanted := (want s.heads theirs).value,
                 state := settled (want s.heads theirs).value }) := by
  unfold onHello
  cases hstate : s.state with
  | idle | wanting | importing => exact .inl ⟨_, rfl⟩
  | greeted =>
    cases msg with
    | greet msgWs theirs =>
      by_cases hws : msgWs = workspace
      · subst hws
        refine .inr ⟨theirs, rfl, rfl, ?_⟩
        simp
      · refine .inl ⟨.workspaceMismatch workspace msgWs, ?_⟩
        simp [hws]
    | hello | want | ops | ack | digest => exact .inl ⟨_, rfl⟩

theorem onOps_cases (s : WorkspaceSession) (workspace : WorkspaceId) (msg : Message)
    (keys : DeviceKeys Key) : (∃ e, (s.onOps workspace msg keys).value = (.error e, s)) ∨
    ∃ ops signatures ranges heads', s.takesOps = true ∧ msg = .ops workspace ops signatures ranges ∧
      verifyBatch ops signatures keys = .ok () ∧
      (advanceAll s.heads ranges).value = .ok heads' ∧
      (s.onOps workspace msg keys).value =
        (.ok ops, { s with inflight := ranges, state := .importing }) := by
  unfold onOps
  by_cases htakes : s.takesOps = true
  · rw [if_neg (not_not.2 htakes)]
    cases msg with
    | ops msgWs ops signatures ranges =>
      by_cases hws : msgWs = workspace
      · subst hws
        simp only [ne_eq, not_true_eq_false, if_false]
        cases hverify : verifyBatch ops signatures keys with
        | error e => exact .inl ⟨_, rfl⟩
        | ok _ =>
          simp only [Checked.value_bind]
          cases hadvance : (advanceAll s.heads ranges).value with
          | error gap => exact .inl ⟨_, rfl⟩
          | ok heads' => exact .inr ⟨ops, signatures, ranges, heads', htakes, rfl, hverify, hadvance, rfl⟩
      · refine .inl ⟨.workspaceMismatch workspace msgWs, ?_⟩
        simp [hws]
    | hello | want | greet | ack | digest => exact .inl ⟨_, rfl⟩
  · rw [if_pos htakes]
    exact .inl ⟨_, rfl⟩

theorem committed_cases (s : WorkspaceSession) (workspace : WorkspaceId)
    (ranges : List OriginRange) : (∃ e, (s.committed workspace ranges).value = (.error e, s)) ∨
    ∃ heads', s.state = .importing ∧ (∀ r ∈ ranges, covered s.inflight r = true) ∧
      (advanceAll s.heads ranges).value = .ok heads' ∧
      (s.committed workspace ranges).value = (.ok (.ack workspace ranges),
        { s with heads := heads', wanted := (consume s.wanted ranges).value, inflight := [],
                 state := settled (consume s.wanted ranges).value }) := by
  unfold committed
  cases hstate : s.state with
  | idle | greeted | wanting => exact .inl ⟨_, rfl⟩
  | importing =>
    cases hstray : ranges.find? fun r => !covered s.inflight r with
    | some stray => exact .inl ⟨_, rfl⟩
    | none =>
      simp only [Checked.value_bind]
      cases hadvance : (advanceAll s.heads ranges).value with
      | error gap => exact .inl ⟨_, rfl⟩
      | ok heads' =>
        refine .inr ⟨heads', trivial, ?_, rfl, rfl⟩
        intro r hr
        simpa using List.find?_eq_none.1 hstray r hr

/-- Runs inside the batch in flight that the heads take are committed. -/
theorem committed_ok (hstate : s.state = .importing)
    (hcovered : ∀ r ∈ ranges, covered s.inflight r = true)
    (hadvance : (advanceAll s.heads ranges).value = .ok heads') :
    (s.committed workspace ranges).value = (.ok (.ack workspace ranges),
      { s with heads := heads', wanted := (consume s.wanted ranges).value, inflight := [],
               state := settled (consume s.wanted ranges).value }) := by
  have hstray : (ranges.find? fun r => !covered s.inflight r) = none := by
    rw [List.find?_eq_none]
    intro r hr
    simp [hcovered r hr]
  unfold committed
  simp only [hstate, hstray, Checked.value_bind, hadvance]
  rfl

/-- A batch in step with the heads is taken. -/
theorem onOps_ok {ops : List Op} {signatures : List Signature} (htakes : s.takesOps = true)
    (hverify : verifyBatch ops signatures keys = .ok ())
    (hadvance : (advanceAll s.heads ranges).value = .ok heads') :
    (s.onOps workspace (.ops workspace ops signatures ranges) keys).value =
      (.ok ops, { s with inflight := ranges, state := .importing }) := by
  unfold onOps
  simp only [htakes, not_true_eq_false, if_false, ne_eq, hverify, Checked.value_bind, hadvance]
  rfl

/-- The runs a catch-up takes: each head past ours, from 1 on. -/
def aheadRuns (held heads : Heads) : List OriginRange :=
  (held.items.filter fun e => heads.get e.1 < e.2).map fun e => ⟨e.1, 1, e.2⟩

theorem advanceAll_aheadRuns : (advanceAll heads (aheadRuns held heads)).value =
    .ok ((aheadRuns held heads).foldl (fun heads r => heads.insert r.device r.last) heads) := by
  apply advanceAll_raises
  · rw [aheadRuns, List.map_map]
    exact held.keys_nodup.sublist (List.filter_sublist.map Prod.fst)
  · intro r hr
    obtain ⟨e, -, rfl⟩ := List.mem_map.1 hr
    exact le_rfl
  · intro r hr
    obtain ⟨e, he, rfl⟩ := List.mem_map.1 hr
    simpa using List.of_mem_filter he

theorem catchUp_cases (s : WorkspaceSession) (held : Heads) :
    s.state = .importing ∧ (s.catchUp held).value = s ∨
    ∃ heads' wanted, s.state ≠ .importing ∧
      (advanceAll s.heads (aheadRuns held s.heads)).value = .ok heads' ∧
      wanted = (consume s.wanted (aheadRuns held s.heads)).value ∧
      (s.catchUp held).value = { s with
        heads := heads', wanted,
        state := if s.state = .wanting ∧ wanted.isEmpty then .idle else s.state } := by
  by_cases hstate : s.state = .importing
  · refine .inl ⟨hstate, ?_⟩
    rw [catchUp, if_pos hstate]
    rfl
  · refine .inr ⟨_, _, hstate, advanceAll_aheadRuns, rfl, ?_⟩
    rw [catchUp, if_neg hstate]
    rfl

/-- What is caught up to, whether past our heads or not. -/
theorem exists_aheadRuns {device : DeviceId} {seq : UInt64} :
    (seq ≤ heads.get device ∨
      ∃ r ∈ aheadRuns held heads, r.device = device ∧ r.first ≤ seq ∧ seq ≤ r.last) ↔
    (seq ≤ heads.get device ∨ ∃ r ∈ held.items.map fun e => OriginRange.mk e.1 1 e.2,
      r.device = device ∧ r.first ≤ seq ∧ seq ≤ r.last) := by
  simp only [aheadRuns, List.mem_map, List.mem_filter, decide_eq_true_eq, exists_exists_and_eq_and]
  constructor
  · rintro (hheld | ⟨e, ⟨he, -⟩, hrun⟩)
    exacts [.inl hheld, .inr ⟨e, he, hrun⟩]
  · rintro (hheld | ⟨e, he, hdevice, hfirst, hlast⟩)
    · exact .inl hheld
    · by_cases hpast : heads.get e.1 < e.2
      · exact .inr ⟨e, ⟨he, hpast⟩, hdevice, hfirst, hlast⟩
      · exact .inl (hdevice ▸ hlast.trans (not_lt.1 hpast))

/-! ## What each call keeps -/

theorem Sound.new : (new initial).Sound where
  inStep := .nil
  idle := fun _ => rfl
  wanting := fun h => nomatch h
  inflight := fun _ => rfl

theorem Sound.hello (hs : s.Sound) : (s.hello workspace).2.Sound := by
  obtain ⟨e, h⟩ | ⟨hidle, h⟩ := s.hello_cases workspace
  · rwa [h]
  · rw [h]
    exact ⟨hs.inStep, fun _ => hs.idle (.inl hidle), fun hw => (nomatch hw),
      fun _ => hs.inflight (by simp [hidle])⟩

/-- A session that settles on what it still wants, no batch in flight. -/
theorem Sound.settle (h : InStep heads wanted) (greeted : Bool) :
    (WorkspaceSession.mk (settled wanted) heads wanted [] greeted).Sound where
  inStep := h
  idle := by
    rintro (hidle | hgreeted)
    · exact settled_idle fun hwanting => nomatch hidle.symm.trans hwanting
    · exact settled_idle fun hwanting => nomatch hgreeted.symm.trans hwanting
  wanting := settled_wanting
  inflight := fun _ => rfl

theorem Sound.onHello (hs : s.Sound) : (s.onHello msg workspace).value.2.Sound := by
  obtain ⟨e, h⟩ | ⟨theirs, hgreeted, -, h⟩ := s.onHello_cases msg workspace
  · rwa [h]
  · rw [h]
    have hinflight : s.inflight = [] := hs.inflight (by simp [hgreeted])
    simp only [hinflight]
    exact .settle .of_want true

theorem Sound.onOps (hs : s.Sound) : (s.onOps workspace msg keys).value.2.Sound := by
  obtain ⟨e, h⟩ | ⟨ops, signatures, ranges, heads', -, -, -, -, h⟩ :=
    s.onOps_cases workspace msg keys
  · rwa [h]
  · rw [h]
    exact ⟨hs.inStep, by simp, by simp, by simp⟩

theorem Sound.committed (hs : s.Sound) (hclear : SessionCall.Clear s (.committed ranges : SessionCall Key)) :
    (s.committed workspace ranges).value.2.Sound := by
  obtain ⟨e, h⟩ | ⟨heads', hstate, hcovered, hadvance, h⟩ :=
    s.committed_cases workspace ranges
  · rwa [h]
  · rw [h]
    have hclear' := hclear hstate hcovered (by rw [hadvance]; rfl)
    exact .settle (hs.inStep.consume hadvance hclear') s.greeted

theorem Sound.catchUp (hs : s.Sound) (hclear : SessionCall.Clear s (.catchUp held : SessionCall Key)) :
    (s.catchUp held).value.Sound := by
  obtain ⟨-, h⟩ | ⟨heads', wanted, hstate, hadvance, hwanted, h⟩ := s.catchUp_cases held
  · rwa [h]
  · have hinStep : InStep heads' wanted := by
      rw [hwanted]
      refine hs.inStep.consume hadvance fun c hc hmax => ?_
      obtain ⟨e, he, rfl⟩ := List.mem_map.1 hc
      exact hclear hstate e (List.mem_of_mem_filter he) hmax
    have hnone : s.wanted = [] → wanted = [] := by
      intro hempty
      rw [hwanted, value_consume, hempty]
      rfl
    rw [h]
    refine ⟨hinStep, ?_, ?_, ?_⟩
    · simp only
      split
      next hsettled => exact fun _ => by simpa using hsettled.2
      next => exact fun hidle => hnone (hs.idle hidle)
    · simp only
      split
      next => exact fun hw => (nomatch hw)
      next hopen =>
        intro hw hempty
        exact hopen ⟨hw, by simp [hempty]⟩
    · exact fun _ => hs.inflight hstate

end WorkspaceSession

/-! ## Every run -/

namespace SessionCall

variable {call : SessionCall Key}

theorem sound_apply (hs : s.Sound) (hclear : call.Clear s) :
    (call.apply workspace s).value.2.Sound := by
  cases call with
  | hello => exact hs.hello
  | onHello msg => exact hs.onHello
  | onOps msg keys => exact hs.onOps
  | committed ranges => exact hs.committed hclear
  | catchUp held => exact hs.catchUp hclear

/-- A refused call leaves the session as it was. -/
theorem unchanged_of_error {e : SessionError} (h : (call.apply workspace s).value.1 = .error e) :
    (call.apply workspace s).value.2 = s := by
  cases call with
  | hello =>
    obtain ⟨e, hcall⟩ | ⟨-, hcall⟩ := s.hello_cases workspace
    · simp [apply, hcall]
    · simp [apply, hcall, Except.map] at h
  | onHello msg =>
    obtain ⟨e, hcall⟩ | ⟨_, -, -, hcall⟩ := s.onHello_cases msg workspace
    · simp [apply, hcall]
    · simp [apply, hcall, Except.map] at h
  | onOps msg keys =>
    obtain ⟨e, hcall⟩ | ⟨_, _, _, _, -, -, -, -, hcall⟩ :=
      s.onOps_cases workspace msg keys
    · simp [apply, hcall]
    · simp [apply, hcall, Except.map] at h
  | committed ranges =>
    obtain ⟨e, hcall⟩ | ⟨_, -, -, -, hcall⟩ :=
      s.committed_cases workspace ranges
    · simp [apply, hcall]
    · simp [apply, hcall, Except.map] at h
  | catchUp held => simp [apply] at h

/-- A call's heads hold what the session held and what the call reports. -/
theorem le_get_apply (device : DeviceId) (seq : UInt64) :
    seq ≤ (call.apply workspace s).value.2.heads.get device ↔
      seq ≤ s.heads.get device ∨
        ∃ r ∈ call.reported workspace s, r.device = device ∧ r.first ≤ seq ∧ seq ≤ r.last := by
  cases call with
  | hello =>
    obtain ⟨e, h⟩ | ⟨-, h⟩ := s.hello_cases workspace <;> simp [apply, SessionCall.reported, h]
  | onHello msg =>
    obtain ⟨e, h⟩ | ⟨_, -, -, h⟩ := s.onHello_cases msg workspace <;>
      simp [apply, SessionCall.reported, h]
  | onOps msg keys =>
    obtain ⟨e, h⟩ | ⟨_, _, _, _, -, -, -, -, h⟩ := s.onOps_cases workspace msg keys <;>
      simp [apply, SessionCall.reported, h]
  | committed ranges =>
    obtain ⟨e, h⟩ | ⟨heads', -, -, hadvance, h⟩ := s.committed_cases workspace ranges
    · simp [apply, SessionCall.reported, h, Except.isOk, Except.toBool]
    · simpa [apply, SessionCall.reported, h, Except.isOk, Except.toBool] using
        le_get_advanceAll hadvance device seq
  | catchUp held =>
    obtain ⟨hstate, h⟩ | ⟨heads', wanted, hstate, hadvance, -, h⟩ := s.catchUp_cases held
    · simp [apply, SessionCall.reported, h, hstate]
    · simp only [apply, SessionCall.reported, Checked.value_map, h, if_neg hstate]
      exact (le_get_advanceAll hadvance device seq).trans
        WorkspaceSession.exists_aheadRuns

theorem get_le_apply (call : SessionCall Key) (s : WorkspaceSession) (device : DeviceId) :
    s.heads.get device ≤ (call.apply workspace s).value.2.heads.get device :=
  (le_get_apply device _).2 (.inl le_rfl)

end SessionCall

variable {Allowed : WorkspaceSession → SessionCall Key → Prop}

theorem SessionRun.sound
    (run : SessionRun workspace initial (fun s (call : SessionCall Key) => call.Clear s) s reported) :
    s.Sound := by
  induction run with
  | new => exact .new
  | call _ allowed ih => exact SessionCall.sound_apply ih allowed

/-- A session that wants runs, or has a batch in flight, consumed the peer's `Greet`. -/
theorem SessionRun.greeted (run : SessionRun workspace initial Allowed s reported)
    (hstate : s.state = .wanting ∨ s.state = .importing) : s.greeted = true := by
  induction run with
  | new => simp [WorkspaceSession.new] at hstate
  | @call s _ call _ _ ih =>
    cases call with
    | hello =>
      obtain ⟨e, h⟩ | ⟨-, h⟩ := s.hello_cases workspace
      · simp only [SessionCall.apply, Checked.value_pure, h] at hstate ⊢
        exact ih hstate
      · simp [SessionCall.apply, h] at hstate
    | onHello msg =>
      obtain ⟨e, h⟩ | ⟨_, -, -, h⟩ := s.onHello_cases msg workspace
      · simp only [SessionCall.apply, Checked.value_map, h] at hstate ⊢
        exact ih hstate
      · simp [SessionCall.apply, h]
    | onOps msg keys =>
      obtain ⟨e, h⟩ | ⟨_, _, _, _, htakes, -, -, -, h⟩ := s.onOps_cases workspace msg keys
      · simp only [SessionCall.apply, Checked.value_map, h] at hstate ⊢
        exact ih hstate
      · simp only [SessionCall.apply, Checked.value_map, h]
        rcases Bool.or_eq_true_iff.1 htakes with hwanting | hpushed
        · exact ih (.inl (by simpa using hwanting))
        · exact (Bool.and_eq_true_iff.1 hpushed).2
    | committed ranges =>
      obtain ⟨e, h⟩ | ⟨_, himporting, -, -, h⟩ := s.committed_cases workspace ranges
      · simp only [SessionCall.apply, Checked.value_map, h] at hstate ⊢
        exact ih hstate
      · simp only [SessionCall.apply, Checked.value_map, h]
        exact ih (.inr himporting)
    | catchUp held =>
      obtain ⟨-, h⟩ | ⟨_, _, -, -, -, h⟩ := s.catchUp_cases held
      · simp only [SessionCall.apply, Checked.value_map, h] at hstate ⊢
        exact ih hstate
      · simp only [SessionCall.apply, Checked.value_map, h] at hstate ⊢
        apply ih
        split at hstate
        · simp at hstate
        · exact hstate

/-- The heads a run reaches hold what the session started with and what was reported, no more. -/
theorem SessionRun.le_get (run : SessionRun workspace initial Allowed s reported) (device : DeviceId)
    (seq : UInt64) :
    seq ≤ s.heads.get device ↔
      seq ≤ initial.get device ∨
        ∃ r ∈ reported, r.device = device ∧ r.first ≤ seq ∧ seq ≤ r.last := by
  induction run with
  | new => simp [WorkspaceSession.new]
  | call _ _ ih =>
    rw [SessionCall.le_get_apply, ih, or_assoc]
    simp only [List.mem_append, or_and_right, exists_or]

/-- Where no run that is committed or caught up to ends at the last number of a device still wanted,
a session's heads hold exactly what it started with, committed and caught up to, what it wants is in
step with them, and a refused call changes nothing. -/
theorem session_papers_over_no_hole
    (run : SessionRun workspace initial (fun s (call : SessionCall Key) => call.Clear s) s reported) :
    s.Sound ∧
      (∀ device seq, seq ≤ s.heads.get device ↔ seq ≤ initial.get device ∨
        ∃ r ∈ reported, r.device = device ∧ r.first ≤ seq ∧ seq ≤ r.last) ∧
      ∀ call : SessionCall Key,
        (∀ device, s.heads.get device ≤ (call.apply workspace s).value.2.heads.get device) ∧
        ∀ e, (call.apply workspace s).value.1 = .error e → (call.apply workspace s).value.2 = s :=
  ⟨run.sound, run.le_get, fun call => ⟨call.get_le_apply s, fun _ => SessionCall.unchanged_of_error⟩⟩

namespace SessionSample

def peer : DeviceId := ⟨1⟩

def shared : WorkspaceId := ⟨⟨0, Nat.two_pow_pos 128⟩⟩

def anyKey : DeviceKeys Unit := ⟨fun _ => some (), fun _ _ _ => .ok ()⟩

/-- The peer's whole run up to `last`. -/
def wholeRun (last : UInt64) : List OriginRange := [⟨peer, 1, last⟩]

/-- The session that greeted and wants a peer's whole run. -/
def wanting (last : UInt64) : WorkspaceSession :=
  let greeted := ((SessionCall.hello : SessionCall Unit).apply shared (.new .empty)).value.2
  ((SessionCall.onHello (.greet shared (OrdMap.insert peer last .empty)) : SessionCall Unit).apply shared
    greeted).value.2

/-- The session that was sent the whole run it wants. -/
def importing (last : UInt64) : WorkspaceSession :=
  ((SessionCall.onOps (.ops shared [] [] (wholeRun last)) anyKey).apply shared (wanting last)).value.2

theorem wanting_run (last : UInt64) (Allowed : WorkspaceSession → SessionCall Unit → Prop)
    (hhello : Allowed (.new .empty) .hello)
    (hgreet : ∀ s, Allowed s (.onHello (.greet shared (OrdMap.insert peer last .empty)))) :
    SessionRun shared .empty Allowed (wanting last) [] :=
  .call (.call .new hhello) (hgreet _)

theorem importing_run (last : UInt64) (Allowed : WorkspaceSession → SessionCall Unit → Prop)
    (hhello : Allowed (.new .empty) .hello)
    (hgreet : ∀ s, Allowed s (.onHello (.greet shared (OrdMap.insert peer last .empty))))
    (hops : ∀ s, Allowed s (.onOps (.ops shared [] [] (wholeRun last)) anyKey)) :
    SessionRun shared .empty Allowed (importing last) [] :=
  .call (wanting_run last Allowed hhello hgreet) (hops _)

/-- A whole run of five ops wanted, sent and committed. -/
theorem papers_over_no_hole_of_five :
    ∃ (s : WorkspaceSession) (reported : List OriginRange), s.heads.get peer = 5 ∧ s.Sound ∧
      ∀ device seq, seq ≤ s.heads.get device ↔ seq ≤ Heads.get .empty device ∨
        ∃ r ∈ reported, r.device = device ∧ r.first ≤ seq ∧ seq ≤ r.last := by
  have run := importing_run 5 (fun s call => call.Clear s) trivial (fun _ => trivial) fun _ => trivial
  have hclear : SessionCall.Clear (importing 5) (.committed (wholeRun 5) : SessionCall Unit) := by
    intro _ _ _ r hr hmax
    rw [List.mem_singleton.1 hr] at hmax
    exact absurd hmax (by decide)
  have hrun := session_papers_over_no_hole (.call run hclear)
  exact ⟨_, _, by decide, hrun.1, hrun.2.1⟩

/-- A peer that reports the last number and sends the run up to it: once that run is committed its
end wraps, and a run from 0 on stays wanted. -/
theorem last_number_stays_wanted :
    ∃ (s : WorkspaceSession) (reported : List OriginRange),
      SessionRun shared .empty (fun _ (call : SessionCall Unit) => call.Encodable) s reported ∧
        s.wanted = [⟨peer, 0, UInt64.MAX⟩] ∧ ¬s.Sound := by
  have run := importing_run UInt64.MAX (fun _ call => call.Encodable) trivial (fun _ => rfl) fun _ => rfl
  have hcommit : (SessionCall.committed (wholeRun UInt64.MAX) : SessionCall Unit).Encodable := trivial
  refine ⟨_, _, .call run hcommit, by decide, fun hs => ?_⟩
  have hfollows := hs.inStep.follows ⟨peer, 0, UInt64.MAX⟩ (by decide)
  exact absurd hfollows (by decide)

end SessionSample

end Txtodo
