import Mathlib.Data.List.SplitBy
import Txtodo.Daemon.CarrierTick
import Txtodo.Sync.Proofs.HeadsProofs

/-!
# Numbers of ops that travel by file

A frame that starts at or before the receiver's next number for its origin lands under the numbers the
origin gave, whatever was not written, dropped or landed in part before; and what a device counts as sent
is in its file.
-/

namespace Txtodo

/-! ## Inserts -/

namespace OriginLog
variable {s s' : OriginLog} {d : DeviceId}

theorem insertOp_opsOf {op : Op} (h : s.insertOp op = some s') (d : DeviceId) :
    s'.opsOf d = if d = op.hlc.device then s.opsOf d ++ [op] else s.opsOf d := by
  unfold insertOp at h
  split_ifs at h with hheld hroom
  cases h
  rw [opsOf, OrdMap.find?_insert]
  split_ifs with hd
  · rw [hd, Option.getD_some]
  · rfl

theorem foldlM_insertOp {ops : List Op} (hdevice : ∀ op ∈ ops, op.hlc.device = d)
    (h : ops.foldlM insertOp s = some s') (e : DeviceId) :
    s'.opsOf e = if e = d then s.opsOf e ++ ops else s.opsOf e := by
  induction ops generalizing s with
  | nil =>
    cases h
    simp
  | cons op ops ih =>
    rw [List.foldlM_cons] at h
    obtain ⟨s₁, hfirst, hrest⟩ := Option.bind_eq_some_iff.1 h
    rw [ih (fun o ho => hdevice o (List.mem_cons_of_mem _ ho)) hrest, insertOp_opsOf hfirst,
      hdevice op (List.mem_cons_self ..)]
    split_ifs
    · rw [List.append_assoc]
      rfl
    · rfl

/-- A batch of one device goes behind its ops. -/
theorem insertOps_opsOf {ops : List Op} (hdevice : ∀ op ∈ ops, op.hlc.device = d)
    (h : s.insertOps ops = some s') (e : DeviceId) :
    s'.opsOf e = if e = d then s.opsOf e ++ ops else s.opsOf e := by
  unfold insertOps at h
  split_ifs at h
  exact foldlM_insertOp hdevice h e

theorem holds_iff {id : OpId} : s.holds id = true ↔ ∃ d, ∃ op ∈ s.opsOf d, op.id = id := by
  rw [holds, List.any_eq_true]
  constructor
  · rintro ⟨⟨d, ops⟩, he, hany⟩
    obtain ⟨op, hop, hid⟩ := List.any_eq_true.1 hany
    refine ⟨d, op, ?_, of_decide_eq_true hid⟩
    rw [opsOf, OrdMap.find?_eq_some.2 he]
    exact hop
  · rintro ⟨d, op, hop, hid⟩
    exact ⟨_, mem_runs_of_opsOf (List.ne_nil_of_mem hop),
      List.any_eq_true.2 ⟨op, hop, decide_eq_true hid⟩⟩

theorem holds_of_mem {op : Op} (h : op ∈ s.opsOf d) : s.holds op.id = true := holds_iff.2 ⟨d, op, h, rfl⟩

theorem toNat_ofNat_length (s : OriginLog) (d : DeviceId) :
    (UInt64.ofNat (s.opsOf d).length).toNat = (s.opsOf d).length := by
  exact UInt64.toNat_ofNat_of_lt' ((s.length_opsOf_le d).trans_lt (by decide))

/-- A reported head is the number of ops stored from its device. -/
theorem mem_heads {e : DeviceId × UInt64} (h : e ∈ s.heads.items) :
    e.2.toNat = (s.opsOf e.1).length := by
  obtain ⟨⟨d, ops⟩, he, rfl⟩ := List.mem_map.1 h
  have hops : s.opsOf d = ops := by
    rw [opsOf, OrdMap.find?_eq_some.2 (List.mem_of_mem_take he)]
    rfl
  rw [← hops]
  exact s.toNat_ofNat_length d

end OriginLog

/-! ## Landing a frame -/

/-- Every op of a log is stored under the number its origin gave it. -/
def OriginLog.Numbered (own : DeviceId → List Op) (s : OriginLog) : Prop := ∀ d, s.opsOf d <+: own d

/-- No id is given twice. -/
structure Unique (own : DeviceId → List Op) : Prop where
  nodup : ∀ d, ((own d).map Op.id).Nodup
  apart : ∀ d d' : DeviceId, ∀ op ∈ own d, ∀ op' ∈ own d', op.id = op'.id → d = d'

section Landing
variable {own : DeviceId → List Op} {s : OriginLog} {d : DeviceId}

theorem Unique.not_held (h : Unique own) (hs : s.Numbered own) {back : List Op}
    (hown : own d = s.opsOf d ++ back) {op : Op} (hop : op ∈ back) : s.holds op.id = false := by
  rw [Bool.eq_false_iff]
  intro hheld
  obtain ⟨d', op', hop', hid⟩ := OriginLog.holds_iff.1 hheld
  have hmem : op ∈ own d := by
    rw [hown]
    exact List.mem_append_right _ hop
  obtain rfl : d' = d := h.apart d' d op' ((hs d').subset hop') op hmem hid
  have hnodup := h.nodup d'
  rw [hown, List.map_append] at hnodup
  exact (List.nodup_append.1 hnodup).2.2 _ (List.mem_map_of_mem hop') _ (List.mem_map_of_mem hop) hid

/-- Of a run that starts within what is stored, what is not stored is what follows it. -/
theorem Unique.fresh_eq (h : Unique own) (hs : s.Numbered own) {front run back : List Op}
    (hown : own d = front ++ run ++ back) (hfront : front.length ≤ (s.opsOf d).length) :
    s.opsOf d ++ run.filter (fun op => !s.holds op.id) <+: own d ∧
      (front ++ run).length ≤ (s.opsOf d ++ run.filter fun op => !s.holds op.id).length := by
  have hstored : front <+: s.opsOf d := by
    refine List.prefix_of_prefix_length_le ?_ (hs d) hfront
    rw [hown, List.append_assoc]
    exact List.prefix_append _ _
  obtain ⟨held, hheld⟩ := hstored
  have hrest : held <+: run ++ back := by
    have hle := hs d
    rw [hown, ← hheld, List.append_assoc] at hle
    exact (List.prefix_append_right_inj front).1 hle
  rcases List.prefix_or_prefix_of_prefix hrest (List.prefix_append run back) with hpart | hwhole
  · obtain ⟨missing, rfl⟩ := hpart
    have hsplit : own d = s.opsOf d ++ (missing ++ back) := by
      rw [hown, ← hheld, List.append_assoc, List.append_assoc, List.append_assoc]
    have hmissing : missing.filter (fun op => !s.holds op.id) = missing :=
      List.filter_eq_self.2 fun op hop => by
        rw [h.not_held hs hsplit (List.mem_append_left _ hop)]
        rfl
    have hskipped : held.filter (fun op => !s.holds op.id) = [] :=
      List.filter_eq_nil_iff.2 fun op hop => by
        rw [OriginLog.holds_of_mem (d := d) (by rw [← hheld]; exact List.mem_append_right _ hop)]
        simp
    rw [List.filter_append, hskipped, hmissing, List.nil_append]
    constructor
    · rw [hsplit, ← List.append_assoc]
      exact List.prefix_append _ _
    · rw [← hheld, List.append_assoc]
  · have hskipped : run.filter (fun op => !s.holds op.id) = [] :=
      List.filter_eq_nil_iff.2 fun op hop => by
        rw [OriginLog.holds_of_mem (d := d)
          (by rw [← hheld]; exact List.mem_append_right _ (hwhole.subset hop))]
        simp
    rw [hskipped, List.append_nil]
    refine ⟨hs d, ?_⟩
    have hle := hwhole.length_le
    rw [← hheld, List.length_append, List.length_append]
    omega

/-- Runs that start within what is stored of their device land under its numbers. -/
theorem Unique.commitRuns (h : Unique own) {runs : List (List Op)} {front back : List Op}
    (hown : own d = front ++ runs.flatten ++ back) (hdevice : ∀ op ∈ own d, op.hlc.device = d) :
    ∀ {s : OriginLog}, s.Numbered own → front.length ≤ (s.opsOf d).length →
      (commitRuns s runs).Numbered own := by
  induction runs generalizing front with
  | nil => exact fun hs _ => hs
  | cons run runs ih =>
    intro s hs hfront
    have hsplit : own d = front ++ run ++ (runs.flatten ++ back) := by
      rw [hown, List.flatten_cons, List.append_assoc, List.append_assoc, List.append_assoc]
    have hnext : own d = front ++ run ++ runs.flatten ++ back := by
      rw [hsplit, List.append_assoc _ _ back]
    obtain ⟨hfits, hlen⟩ := h.fresh_eq hs hsplit hfront
    unfold Txtodo.commitRuns
    dsimp only
    split_ifs with hnil
    · rw [hnil, List.append_nil] at hlen
      exact ih hnext hs hlen
    · cases hinsert : s.insertOps (run.filter fun op => !s.holds op.id) with
      | none => exact hs
      | some s' =>
        have hops : ∀ op ∈ run.filter fun op => !s.holds op.id, op.hlc.device = d := by
          intro op hop
          refine hdevice op (hfits.subset (List.mem_append_right _ hop))
        have hs' := OriginLog.insertOps_opsOf hops hinsert
        refine ih hnext (fun e => ?_) ?_
        · rw [hs']
          split_ifs with he
          · rw [he]
            exact hfits
          · exact hs e
        · rw [hs', if_pos rfl]
          exact hlen

theorem OriginLog.foldlM_grows {s' : OriginLog} {ops : List Op}
    (h : ops.foldlM OriginLog.insertOp s = some s') (d : DeviceId) : s.opsOf d <+: s'.opsOf d := by
  induction ops generalizing s with
  | nil =>
    cases h
    exact List.prefix_rfl
  | cons op ops ih =>
    rw [List.foldlM_cons] at h
    obtain ⟨s₁, hfirst, hrest⟩ := Option.bind_eq_some_iff.1 h
    refine List.IsPrefix.trans ?_ (ih hrest)
    rw [OriginLog.insertOp_opsOf hfirst]
    split_ifs
    · exact List.prefix_append _ _
    · exact List.prefix_rfl

theorem commitRuns_grows (runs : List (List Op)) (d : DeviceId) :
    ∀ s : OriginLog, s.opsOf d <+: (commitRuns s runs).opsOf d := by
  induction runs with
  | nil => exact fun s => List.prefix_rfl
  | cons run runs ih =>
    intro s
    unfold commitRuns
    dsimp only
    split_ifs
    · exact ih s
    · cases hinsert : s.insertOps (run.filter fun op => !s.holds op.id) with
      | none => exact List.prefix_rfl
      | some s' =>
        unfold OriginLog.insertOps at hinsert
        split_ifs at hinsert
        exact (OriginLog.foldlM_grows hinsert d).trans (ih s')

end Landing

/-! ## Sending -/

/-- A frame of ops a log holds, under their numbers. -/
structure OpsFrame.Served (s : OriginLog) (f : OpsFrame) : Prop where
  ordered : f.range.first ≤ f.range.last
  within : f.range.last.toNat ≤ (s.opsOf f.range.device).length
  ops : s.opsFor f.range.device f.range.first f.range.last = some f.ops

section Sending
variable {s : OriginLog} {io : SendIo}

theorem le_saturatingAdd (a b : UInt64) : a ≤ saturatingAdd a b := by
  unfold saturatingAdd
  split_ifs with h
  · exact UInt64.le_MAX a
  · exact not_lt.1 h

theorem serveRange_served {r : OriginRange} (hlast : r.last.toNat ≤ (s.opsOf r.device).length) {fuel : Nat} :
    ∀ {first : UInt64} {frames : List OpsFrame}, serveRange s io r fuel first = some frames →
      ∀ f ∈ frames, f.Served s := by
  induction fuel with
  | zero =>
    intro first frames h
    cases h
    exact List.forall_mem_nil _
  | succ fuel ih =>
    intro first frames h
    unfold serveRange at h
    split_ifs at h with hfirst
    · dsimp only at h
      obtain ⟨ops, hops, h⟩ := Option.bind_eq_some_iff.1 h
      obtain ⟨rest, hrest, h⟩ := Option.bind_eq_some_iff.1 h
      have hserved := ih hrest
      split_ifs at h
      · cases h
        exact hserved
      · cases h
        refine List.forall_mem_cons.2 ⟨⟨le_min (le_saturatingAdd _ _) hfirst, ?_, hops⟩, hserved⟩
        exact (UInt64.le_iff_toNat_le.1 (min_le_right _ r.last)).trans hlast
    · cases h
      exact List.forall_mem_nil _

theorem serveWant_served {ranges : List OriginRange} {frames : List OpsFrame}
    (hlast : ∀ r ∈ ranges, r.last.toNat ≤ (s.opsOf r.device).length)
    (h : serveWant s io ranges = some frames) : ∀ f ∈ frames, f.Served s := by
  unfold serveWant at h
  split_ifs at h
  obtain ⟨batches, hbatches, rfl⟩ := Option.map_eq_some_iff.1 h
  clear h
  induction ranges generalizing batches with
  | nil =>
    cases hbatches
    exact List.forall_mem_nil _
  | cons r ranges ih =>
    rw [List.mapM_cons] at hbatches
    obtain ⟨first, hfirst, hbatches⟩ := Option.bind_eq_some_iff.1 hbatches
    obtain ⟨rest, hrest, hbatches⟩ := Option.bind_eq_some_iff.1 hbatches
    cases hbatches
    rw [List.flatten_cons]
    refine List.forall_mem_append.2 ⟨serveRange_served (hlast r (List.mem_cons_self ..)) hfirst, ?_⟩
    exact ih (fun r' hr' => hlast r' (List.mem_cons_of_mem _ hr')) rest hrest

/-- What is counted as sent is held and in the file. -/
def Sent (s : OriginLog) (x : List OpsFrame × Heads) : Prop :=
  ∀ d, (x.2.get d).toNat ≤ (s.opsOf d).length ∧
    ∀ i op, i < (x.2.get d).toNat → (s.opsOf d)[i]? = some op → ∃ f ∈ x.1, op ∈ f.ops

theorem Sent.concat {file : List OpsFrame} {lastSent : Heads} (h : Sent s (file, lastSent)) (f : OpsFrame) :
    Sent s (file ++ [f], lastSent) := by
  intro d
  refine ⟨(h d).1, fun i op hi hop => ?_⟩
  obtain ⟨g, hg, hmem⟩ := (h d).2 i op hi hop
  exact ⟨g, List.mem_append_left _ hg, hmem⟩

theorem OpsFrame.Served.ops_eq {f : OpsFrame} (h : f.Served s) : 0 < f.range.first.toNat ∧
    f.ops = ((s.opsOf f.range.device).take f.range.last.toNat).drop (f.range.first.toNat - 1) := by
  have hops := h.ops
  unfold OriginLog.opsFor at hops
  split_ifs at hops with hfirst hwide
  exact ⟨UInt64.toNat_pos fun hzero => hfirst (.inl hzero), (Option.some_inj.1 hops).symm⟩

/-- A run counted once its frame is in the file. -/
theorem Sent.advance {file : List OpsFrame} {lastSent heads : Heads} (h : Sent s (file, lastSent))
    {f : OpsFrame} (hf : f.Served s) (hadvance : (advance lastSent f.range).value = .ok heads) :
    Sent s (file ++ [f], heads) := by
  obtain ⟨hfirst, -, rfl⟩ := advance_eq_ok.1 hadvance
  intro d
  dsimp only
  rw [Heads.get_insert]
  split_ifs with hd
  · subst hd
    refine ⟨hf.within, fun i op hi hop => ?_⟩
    by_cases hold : i < (lastSent.get f.range.device).toNat
    · exact (h.concat f f.range.device).2 i op hold hop
    · refine ⟨f, List.mem_append_right _ (List.mem_cons_self ..), ?_⟩
      obtain ⟨hpos, hops⟩ := hf.ops_eq
      rw [hops]
      refine List.mem_of_getElem? (i := i - (f.range.first.toNat - 1)) ?_
      rw [List.getElem?_drop, List.getElem?_take, if_pos (by omega), ← hop]
      congr 1
      omega
  · exact h.concat f d

theorem writeFrames_sent {frames : List OpsFrame} (hframes : ∀ f ∈ frames, f.Served s) :
    ∀ {x : List OpsFrame × Heads}, Sent s x → Sent s (writeFrames io frames x) := by
  induction frames with
  | nil => exact fun h => h
  | cons f frames ih =>
    rintro ⟨file, lastSent⟩ h
    have hf := hframes f (List.mem_cons_self ..)
    have hrest := @ih fun g hg => hframes g (List.mem_cons_of_mem _ hg)
    unfold writeFrames
    cases hbatch : io.batch f.range with
    | done =>
      dsimp only
      cases hadvance : (advance lastSent f.range).value with
      | ok heads => exact hrest (h.advance hf hadvance)
      | error gap => exact hrest (h.concat f)
    | signFails => exact hrest h
    | sealFails => exact hrest h
    | writeFails written =>
      cases written with
      | true => exact hrest (h.concat f)
      | false => exact hrest h

theorem writeFrames_file (frames : List OpsFrame) :
    ∀ x : List OpsFrame × Heads, x.1 <+: (writeFrames io frames x).1 ∧
      ∀ f ∈ (writeFrames io frames x).1, f ∈ x.1 ∨ f ∈ frames := by
  induction frames with
  | nil => exact fun x => ⟨List.prefix_rfl, fun f hf => .inl hf⟩
  | cons f frames ih =>
    rintro ⟨file, lastSent⟩
    have hskip : ∀ x : List OpsFrame × Heads, x.1 = file → file <+: (writeFrames io frames x).1 ∧
        ∀ g ∈ (writeFrames io frames x).1, g ∈ file ∨ g ∈ f :: frames := by
      rintro x rfl
      exact ⟨(ih x).1, fun g hg => ((ih x).2 g hg).imp_right (List.mem_cons_of_mem _)⟩
    have hkeep : ∀ x : List OpsFrame × Heads, x.1 = file ++ [f] →
        file <+: (writeFrames io frames x).1 ∧
          ∀ g ∈ (writeFrames io frames x).1, g ∈ file ∨ g ∈ f :: frames := by
      intro x hx
      obtain ⟨hfile, hmem⟩ := ih x
      rw [hx] at hfile hmem
      refine ⟨(List.prefix_append _ _).trans hfile, fun g hg => ?_⟩
      rcases hmem g hg with hg | hg
      · refine (List.mem_append.1 hg).imp_right fun hg => ?_
        rw [List.mem_singleton.1 hg]
        exact List.mem_cons_self ..
      · exact .inr (List.mem_cons_of_mem _ hg)
    unfold writeFrames
    cases hbatch : io.batch f.range with
    | done => exact hkeep _ rfl
    | signFails => exact hskip _ rfl
    | sealFails => exact hskip _ rfl
    | writeFails written =>
      cases written with
      | true => exact hkeep _ rfl
      | false => exact hskip _ rfl

theorem Sent.grows {s' : OriginLog} {x : List OpsFrame × Heads} (h : Sent s x)
    (hgrows : ∀ d, s.opsOf d <+: s'.opsOf d) : Sent s' x := by
  intro d
  refine ⟨(h d).1.trans (hgrows d).length_le, fun i op hi hop => (h d).2 i op hi ?_⟩
  obtain ⟨rest, hrest⟩ := hgrows d
  rwa [← hrest, List.getElem?_append_left (hi.trans_le (h d).1)] at hop

theorem CarrierPeer.sendRoute_served (p : CarrierPeer) (io : SendIo) {frames : List OpsFrame}
    (h : serveWant p.log io (want p.lastSent p.log.heads).value = some frames) :
    ∀ f ∈ frames, f.Served p.log := by
  refine serveWant_served (fun r hr => ?_) h
  exact (OriginLog.mem_heads (mem_want hr).1).le

theorem CarrierPeer.sendRoute_sent {p : CarrierPeer} (h : Sent p.log (p.file, p.lastSent)) (io : SendIo) :
    Sent p.log ((p.sendRoute io).file, (p.sendRoute io).lastSent) := by
  unfold CarrierPeer.sendRoute
  cases hserve : serveWant p.log io (want p.lastSent p.log.heads).value with
  | none => exact h
  | some frames => exact writeFrames_sent (p.sendRoute_served io hserve) h

theorem CarrierPeer.sendRoute_log (p : CarrierPeer) (io : SendIo) : (p.sendRoute io).log = p.log := by
  unfold CarrierPeer.sendRoute
  split <;> rfl

theorem CarrierPeer.sendRoute_file {p : CarrierPeer} {io : SendIo} {f : OpsFrame}
    (hf : f ∈ (p.sendRoute io).file) : f ∈ p.file ∨ f.Served p.log := by
  unfold CarrierPeer.sendRoute at hf
  cases hserve : serveWant p.log io (want p.lastSent p.log.heads).value with
  | none =>
    rw [hserve] at hf
    exact .inl hf
  | some frames =>
    rw [hserve] at hf
    exact ((writeFrames_file frames _).2 f hf).imp_right (p.sendRoute_served io hserve f)

end Sending

/-! ## Runs -/

namespace CarrierGroup
variable {g : CarrierGroup}

/-- The ops each device made, as it numbered them. -/
def own (g : CarrierGroup) (d : DeviceId) : List Op := (g d).log.opsOf d

/-- Every op in a log is stored under the number its origin gave it. -/
def Numbered (g : CarrierGroup) : Prop :=
  ∀ (device d : DeviceId) (i : Nat) (op : Op),
    ((g device).log.opsOf d)[i]? = some op → (g.own d)[i]? = some op

/-- What a device counts as sent is in its file. -/
def SentWritten (g : CarrierGroup) : Prop :=
  ∀ device, Sent (g device).log ((g device).file, (g device).lastSent)

/-- The check that a batch of a session passes before it is committed (`followsStoreHeads`) holds of each
frame of which something is committed. -/
def Follows (g : CarrierGroup) : CarrierTick → Prop
  | .receive device origin (some runs) => ∀ frame, g.next? device origin = some frame → 0 < runs →
      followsStoreHeads ⟨(g device).log.heads, fun d => some ((g device).log.headOf d)⟩ [frame.range] = true
  | _ => True

/-- What a tick does: nothing, or one device changes. -/
inductive Ticked (g : CarrierGroup) : CarrierTick → CarrierGroup → Prop where
  | stays (t : CarrierTick) : Ticked g t g
  | committed {device : DeviceId} {ops : List Op} {log : OriginLog}
      (h : (g device).log.insertOps ops = some log) :
      Ticked g (.commit device ops) (Function.update g device { g device with log })
  | sent (device : DeviceId) (io : SendIo) :
      Ticked g (.send device io) (Function.update g device ((g device).sendRoute io))
  | restarted (device : DeviceId) :
      Ticked g (.restart device)
        (Function.update g device { g device with lastSent := .empty, read := fun _ => 0 })
  | dropped {device origin : DeviceId} {frame : OpsFrame} (h : g.next? device origin = some frame)
      (read : DeviceId → Nat) :
      Ticked g (.receive device origin none) (Function.update g device { g device with read })
  | landed {device origin : DeviceId} {frame : OpsFrame} {runs : Nat}
      (h : g.next? device origin = some frame) (read : DeviceId → Nat) :
      Ticked g (.receive device origin (some runs)) (Function.update g device
        { g device with log := commitIncomingOps (g device).log frame.ops runs, read })

theorem ticked (g : CarrierGroup) (t : CarrierTick) : g.Ticked t (g.tick t) := by
  cases t with
  | commit device ops =>
    unfold tick
    dsimp only
    cases hinsert : (g device).log.insertOps ops with
    | none => exact .stays _
    | some log => exact .committed hinsert
  | send device io => exact .sent device io
  | restart device => exact .restarted device
  | receive device origin landing =>
    unfold tick receive
    dsimp only
    cases hnext : g.next? device origin with
    | none => exact .stays _
    | some frame =>
      cases landing with
      | none => exact .dropped hnext _
      | some runs => exact .landed hnext _

theorem tick_sentWritten (h : g.SentWritten) (t : CarrierTick) : (g.tick t).SentWritten := by
  have hupdate : ∀ (device : DeviceId) (p : CarrierPeer), Sent p.log (p.file, p.lastSent) →
      SentWritten (Function.update g device p) := by
    intro device p hp other
    rw [Function.update_apply]
    split_ifs
    · exact hp
    · exact h other
  have hticked := g.ticked t
  generalize g.tick t = g' at hticked
  cases hticked with
  | stays => exact h
  | @committed device ops log hinsert =>
    unfold OriginLog.insertOps at hinsert
    split_ifs at hinsert
    exact hupdate device _ ((h device).grows (OriginLog.foldlM_grows hinsert))
  | sent device io =>
    refine hupdate device _ ?_
    rw [CarrierPeer.sendRoute_log]
    exact CarrierPeer.sendRoute_sent (h device) io
  | restarted device =>
    refine hupdate device _ fun d => ⟨Nat.zero_le _, fun i op hi => ?_⟩
    exact absurd hi (Nat.not_lt_zero i)
  | dropped hnext read => exact hupdate _ _ (h _)
  | landed hnext read => exact hupdate _ _ ((h _).grows fun d => commitRuns_grows _ d _)

theorem sentWritten_of_ticks {Allowed : CarrierGroup → CarrierTick → Prop} (h : CarrierTicks Allowed g) :
    g.SentWritten := by
  induction h with
  | start => exact fun device d => ⟨Nat.zero_le _, fun i op hi => absurd hi (Nat.not_lt_zero i)⟩
  | tick h ht hallowed ih => exact tick_sentWritten ih _

/-- A frame holds its origin's ops from its first number on. -/
def Carries (own : DeviceId → List Op) (f : OpsFrame) : Prop :=
  ∃ front back, own f.range.device = front ++ f.ops ++ back ∧ front.length + 1 = f.range.first.toNat

/-- The logs and the frames in the files agree with what the devices made. -/
structure Sound (g : CarrierGroup) : Prop where
  unique : Unique g.own
  numbered : ∀ device, (g device).log.Numbered g.own
  carries : ∀ device, ∀ f ∈ (g device).file, Carries g.own f

theorem Carries.grows {own own' : DeviceId → List Op} {f : OpsFrame} (h : Carries own f)
    (hgrows : ∀ d, own d <+: own' d) : Carries own' f := by
  obtain ⟨front, back, hown, hfront⟩ := h
  obtain ⟨more, hmore⟩ := hgrows f.range.device
  exact ⟨front, back ++ more, by rw [← hmore, hown, List.append_assoc _ back], hfront⟩

theorem carries_of_served {own : DeviceId → List Op} {s : OriginLog} (hs : s.Numbered own)
    {f : OpsFrame} (h : f.Served s) : Carries own f := by
  obtain ⟨rest, hrest⟩ := hs f.range.device
  obtain ⟨hpos, hops⟩ := h.ops_eq
  have hle := UInt64.le_iff_toNat_le.1 h.ordered
  have hwithin := h.within
  refine ⟨(s.opsOf f.range.device).take (f.range.first.toNat - 1),
    (s.opsOf f.range.device).drop f.range.last.toNat ++ rest, ?_, ?_⟩
  · have hsplit : (s.opsOf f.range.device).take (f.range.first.toNat - 1) ++ f.ops =
        (s.opsOf f.range.device).take f.range.last.toNat := by
      have htake : (s.opsOf f.range.device).take (f.range.first.toNat - 1) =
          ((s.opsOf f.range.device).take f.range.last.toNat).take (f.range.first.toNat - 1) := by
        rw [List.take_take, Nat.min_eq_left (by omega)]
      rw [hops, htake, List.take_append_drop]
    rw [hsplit, ← List.append_assoc, List.take_append_drop, hrest]
  · rw [List.length_take]
    omega

/-- A device's own ops, with its log replaced. -/
theorem own_update (g : CarrierGroup) (device : DeviceId) (p : CarrierPeer) (d : DeviceId) :
    own (Function.update g device p) d = if d = device then p.log.opsOf d else g.own d := by
  rw [own, Function.update_apply]
  split_ifs <;> rfl

/-- A tick that leaves all logs as they are. -/
theorem Sound.update (h : g.Sound) {device : DeviceId} {p : CarrierPeer}
    (hown : p.log.opsOf device = g.own device) (hlog : p.log.Numbered g.own)
    (hfile : ∀ f ∈ p.file, Carries g.own f) : Sound (Function.update g device p) := by
  have hsame : own (Function.update g device p) = g.own := by
    funext d
    rw [own_update]
    split_ifs with hd
    · rw [hd, hown]
    · rfl
  refine ⟨?_, fun other => ?_, fun other => ?_⟩
  · rw [hsame]
    exact h.unique
  · rw [hsame, Function.update_apply]
    split_ifs
    · exact hlog
    · exact h.numbered other
  · rw [hsame, Function.update_apply]
    split_ifs
    · exact hfile
    · exact h.carries other

theorem Sound.commit (h : g.Sound) {device : DeviceId} {ops : List Op} {log : OriginLog}
    (hpossible : g.Possible (.commit device ops)) (hinsert : (g device).log.insertOps ops = some log) :
    Sound (Function.update g device { g device with log }) := by
  obtain ⟨hnodup, hnew⟩ := hpossible
  have hlog := OriginLog.insertOps_opsOf (fun op hop => (hnew op hop).1) hinsert
  have hown : ∀ d, own (Function.update g device { g device with log }) d =
      if d = device then g.own d ++ ops else g.own d := by
    intro d
    rw [own_update]
    split_ifs with hd
    · rw [hlog, if_pos hd, hd]
      rfl
    · rfl
  have hgrows : ∀ d, g.own d <+: own (Function.update g device { g device with log }) d := by
    intro d
    rw [hown]
    split_ifs
    · exact List.prefix_append _ _
    · exact List.prefix_rfl
  have hfresh : ∀ d, ∀ op ∈ g.own d, ∀ op' ∈ ops, op.id ≠ op'.id := by
    intro d op hop op' hop' hid
    have hheld := OriginLog.holds_of_mem hop
    rw [hid, (hnew op' hop').2 d] at hheld
    cases hheld
  refine ⟨⟨fun d => ?_, fun d d' op hop op' hop' hid => ?_⟩, fun other d => ?_, fun other f hf => ?_⟩
  · rw [hown]
    split_ifs
    · rw [List.map_append, List.nodup_append]
      refine ⟨h.unique.nodup d, hnodup, fun id hmem id' hmem' => ?_⟩
      obtain ⟨op, hop, rfl⟩ := List.mem_map.1 hmem
      obtain ⟨op', hop', rfl⟩ := List.mem_map.1 hmem'
      exact hfresh d op hop op' hop'
    · exact h.unique.nodup d
  · have hcase : ∀ e, ∀ o ∈ own (Function.update g device { g device with log }) e,
        o ∈ g.own e ∨ e = device ∧ o ∈ ops := by
      intro e o ho
      rw [hown] at ho
      split_ifs at ho with he
      · exact (List.mem_append.1 ho).imp_right fun ho => ⟨he, ho⟩
      · exact .inl ho
    rcases hcase d op hop with hold | ⟨hd, hmine⟩ <;> rcases hcase d' op' hop' with hold' | ⟨hd', hmine'⟩
    · exact h.unique.apart d d' op hold op' hold' hid
    · exact absurd hid (hfresh d op hold op' hmine')
    · exact absurd hid.symm (hfresh d' op' hold' op hmine)
    · rw [hd, hd']
  · rw [Function.update_apply]
    split_ifs with hother
    · dsimp only
      rw [hlog]
      split_ifs with hd
      · rw [hown, if_pos hd, hd]
        exact List.prefix_rfl
      · exact (h.numbered device d).trans (hgrows d)
    · exact (h.numbered other d).trans (hgrows d)
  · rw [Function.update_apply] at hf
    split_ifs at hf
    · exact (h.carries device f hf).grows hgrows
    · exact (h.carries other f hf).grows hgrows

theorem next?_mem {device origin : DeviceId} {frame : OpsFrame} (h : g.next? device origin = some frame) :
    frame ∈ (g origin).file := List.mem_of_getElem? h

/-- A frame that starts at or before the next number of its origin. -/
theorem Sound.land (h : g.Sound) {device origin : DeviceId} {frame : OpsFrame} {runs : Nat}
    (hnext : g.next? device origin = some frame) (hfollows : g.Follows (.receive device origin (some runs)))
    (read : DeviceId → Nat) : Sound (Function.update g device
      { g device with log := commitIncomingOps (g device).log frame.ops runs, read }) := by
  obtain rfl | hruns := Nat.eq_zero_or_pos runs
  · exact h.update rfl (h.numbered device) (h.carries device)
  obtain ⟨front, back, hown, hfront⟩ := h.carries origin frame (next?_mem hnext)
  have hstarts : front.length ≤ ((g device).log.opsOf frame.range.device).length := by
    have hcheck := hfollows frame hnext hruns
    simp only [followsStoreHeads, List.all_cons, List.all_nil, Bool.and_true, decide_eq_true_eq] at hcheck
    have hhead : ((g device).log.headOf frame.range.device).toNat =
        ((g device).log.opsOf frame.range.device).length := OriginLog.toNat_ofNat_length _ _
    have hroom : (g device).log.headOf frame.range.device ≠ UInt64.MAX := by
      have hle := (g device).log.length_opsOf_le frame.range.device
      rw [UInt64.ne_MAX, hhead]
      exact (Nat.succ_le_succ hle).trans_lt (by decide)
    rw [if_neg hroom, UInt64.le_iff_toNat_le, UInt64.toNat_succ hroom, hhead] at hcheck
    omega
  have hops : ((sameFileRuns frame.ops).take runs).flatten ++
      ((sameFileRuns frame.ops).drop runs).flatten = frame.ops := by
    rw [← List.flatten_append, List.take_append_drop, sameFileRuns, List.flatten_splitBy]
  have hsplit : g.own frame.range.device = front ++ ((sameFileRuns frame.ops).take runs).flatten ++
      (((sameFileRuns frame.ops).drop runs).flatten ++ back) :=
    calc g.own frame.range.device = front ++ frame.ops ++ back := hown
      _ = front ++ (((sameFileRuns frame.ops).take runs).flatten ++
          ((sameFileRuns frame.ops).drop runs).flatten) ++ back := by rw [hops]
      _ = _ := by simp only [List.append_assoc]
  have hlanded : (commitIncomingOps (g device).log frame.ops runs).Numbered g.own :=
    h.unique.commitRuns hsplit (fun op hop => OriginLog.device_of_mem_opsOf hop) (h.numbered device) hstarts
  have hgrows : g.own device <+: (commitIncomingOps (g device).log frame.ops runs).opsOf device :=
    commitRuns_grows _ device _
  exact h.update ((hlanded device).eq_of_length
    (Nat.le_antisymm (hlanded device).length_le hgrows.length_le)) hlanded (h.carries device)

theorem Sound.tick (h : g.Sound) {t : CarrierTick} (hpossible : g.Possible t) (hfollows : g.Follows t) :
    (g.tick t).Sound := by
  have hticked := g.ticked t
  generalize g.tick t = g' at hticked
  cases hticked with
  | stays => exact h
  | committed hinsert => exact h.commit hpossible hinsert
  | sent device io =>
    refine h.update ?_ ?_ fun f hf => ?_
    · rw [CarrierPeer.sendRoute_log]
      rfl
    · rw [CarrierPeer.sendRoute_log]
      exact h.numbered device
    · rcases CarrierPeer.sendRoute_file hf with hold | hserved
      · exact h.carries device f hold
      · exact carries_of_served (h.numbered device) hserved
  | restarted device => exact h.update rfl (h.numbered device) (h.carries device)
  | dropped hnext read => exact h.update rfl (h.numbered _) (h.carries _)
  | landed hnext read => exact h.land hnext hfollows read

theorem sound_of_ticks (h : CarrierTicks Follows g) : g.Sound := by
  induction h with
  | start =>
    exact ⟨⟨fun d => List.nodup_nil, fun d d' op hop => absurd hop List.not_mem_nil⟩,
      fun device d => List.prefix_rfl, fun device => List.forall_mem_nil _⟩
  | tick h ht hallowed ih => exact ih.tick ht hallowed

end CarrierGroup

/-- Whatever fails, what a device counts as sent is in its file; and when every frame that lands starts at
or before the next number of its origin, every op is stored under the number its origin gave it. -/
theorem numbered_of_ticks {g : CarrierGroup} (h : CarrierTicks (fun _ _ => True) g) :
    g.SentWritten ∧ (CarrierTicks CarrierGroup.Follows g → g.Numbered) := by
  refine ⟨CarrierGroup.sentWritten_of_ticks h, fun hfollows device d i op hop => ?_⟩
  obtain ⟨rest, hrest⟩ := (CarrierGroup.sound_of_ticks hfollows).numbered device d
  obtain ⟨hi, -⟩ := List.getElem?_eq_some_iff.1 hop
  rw [← hrest, List.getElem?_append_left hi, hop]

/-- Device 1's `n`th blank line. -/
def blankOp (n : Nat) : Op := ⟨⟨n⟩, ⟨n, 0, ⟨1⟩⟩, ⟨"todo.txt".toList⟩, .blankInsert none⟩

/-- Nothing fails. -/
def SendIo.done : SendIo := ⟨false, fun _ => .done⟩

theorem CarrierTicks.mono {Allowed Allowed' : CarrierGroup → CarrierTick → Prop} {g : CarrierGroup}
    (himp : ∀ g t, Allowed g t → Allowed' g t) (h : CarrierTicks Allowed g) : CarrierTicks Allowed' g := by
  induction h with
  | start => exact .start
  | tick h ht hallowed ih => exact .tick ih ht (himp _ _ hallowed)

/-- Device 1 commits an op, fails to seal it and sends it again; device 2 takes it. -/
def sealRetried : CarrierGroup :=
  (((CarrierGroup.new.tick (.commit ⟨1⟩ [blankOp 1])).tick (.send ⟨1⟩ ⟨false, fun _ => .sealFails⟩)).tick
    (.send ⟨1⟩ .done)).tick (.receive ⟨2⟩ ⟨1⟩ (some 1))

theorem numbered_of_ticks_retried : sealRetried.SentWritten ∧ sealRetried.Numbered := by
  have hcommit : CarrierGroup.new.Possible (.commit ⟨1⟩ [blankOp 1]) :=
    ⟨List.nodup_singleton _, List.forall_mem_singleton.2 ⟨rfl, fun _ => rfl⟩⟩
  have hrun : CarrierTicks CarrierGroup.Follows sealRetried := by
    refine .tick (.tick (.tick (.tick .start hcommit trivial) trivial trivial) trivial trivial) trivial ?_
    intro frame hframe hruns
    have hrange : (((((CarrierGroup.new.tick (.commit ⟨1⟩ [blankOp 1])).tick
        (.send ⟨1⟩ ⟨false, fun _ => .sealFails⟩)).tick (.send ⟨1⟩ .done)).next? ⟨2⟩ ⟨1⟩).map
          OpsFrame.range) = some ⟨⟨1⟩, 1, 1⟩ := by decide +kernel
    rw [hframe] at hrange
    rw [Option.some_inj.1 hrange]
    decide +kernel
  have hresult := numbered_of_ticks (hrun.mono fun _ _ _ => trivial)
  exact ⟨hresult.1, hresult.2 hrun⟩

/-- Device 1 sends one op at a time; device 2 has the workspace open only for the second. -/
def firstFrameDropped : CarrierGroup :=
  (((((CarrierGroup.new.tick (.commit ⟨1⟩ [blankOp 1])).tick (.send ⟨1⟩ .done)).tick
    (.receive ⟨2⟩ ⟨1⟩ none)).tick (.commit ⟨1⟩ [blankOp 2])).tick (.send ⟨1⟩ .done)).tick
      (.receive ⟨2⟩ ⟨1⟩ (some 1))

/-- Behind a dropped frame an op is stored under a number its origin gave another one. -/
theorem not_numbered : ¬firstFrameDropped.Numbered := by
  intro h
  have hstored : ((firstFrameDropped ⟨2⟩).log.opsOf ⟨1⟩)[0]? = some (blankOp 2) := by decide +kernel
  have hown : (firstFrameDropped.own ⟨1⟩)[0]? = some (blankOp 1) := by decide +kernel
  have hsame := h ⟨2⟩ ⟨1⟩ 0 _ hstored
  rw [hown] at hsame
  exact absurd hsame (by decide)

end Txtodo
