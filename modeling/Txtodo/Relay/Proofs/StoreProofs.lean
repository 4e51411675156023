import Txtodo.Relay.Mailboxes

/-!
# A relay's mailboxes are bounded queues

What the two tables say of one group and device is a queue of its own: a write appends to it and drops the oldest
past the cap, a sweep drops what is older than the retention, and nothing else touches it. A device's wakes are a
queue as well.
-/

namespace Txtodo.Relay

/-- The time a call is made at. -/
def Call.nowMs? : Call → Option Int
  | .put write => some write.nowMs
  | .sweepExpired nowMs => some nowMs
  | _ => none

/-- The clock reads no time before 1970, and the end of time only where blobs are kept. -/
def Clocked (retentionDays : Int) (calls : List Call) : Prop :=
  ∀ call ∈ calls, ∀ t ∈ call.nowMs?, 0 ≤ t ∧ t ≤ I64_MAX ∧ (0 ≤ retentionDays ∨ t < I64_MAX)

/-- Every write is accepted or refused for its size: row ids grow. -/
def IdsLeft (limits : Limits) (retentionDays : Int) (calls : List Call) : Prop :=
  ∀ before write later, calls = before ++ .put write :: later → ∀ context,
    ((Store.after limits retentionDays before).put write limits).1 ≠ .error (.sqlite context)

section Step
variable {limits : Limits} {retentionDays : Int} {s : Store} {m : Mailboxes} {write : Write} {group : GroupId}
  {device : DeviceId}

/-- The mailboxes are what the tables say. -/
structure Holds (s : Store) (m : Mailboxes) : Prop where
  blobs : ∀ group device, s.get group device = m.blobs group device
  wakes : ∀ device, s.pendingWakeups device = m.wakes device
  accepted : s.wakeups.lastId = m.accepted
  blobIds : s.blobs.lastId ≤ Table.MAX_ID
  wakeIds : s.wakeups.lastId ≤ Table.MAX_ID

/-! ## Writes -/

theorem put_refused (h : limits.maxBlobBytes < write.blob.length) :
    s.put write limits = (.error (.blobTooLarge write.blob.length limits.maxBlobBytes), s) := if_pos h

/-- What a write does: it is refused, the row ids are used up, or both tables get their row. -/
theorem put_cases (s : Store) (write : Write) (limits : Limits) :
    (limits.maxBlobBytes < write.blob.length ∧ (s.put write limits).2 = s) ∨
    (∃ context, (s.put write limits).1 = .error (.sqlite context)) ∨
    ∃ blobs wakeups, ¬limits.maxBlobBytes < write.blob.length ∧
      s.blobs.insert ⟨write.group, write.device, write.blob, write.nowMs⟩ = some blobs ∧
      s.wakeups.insert ⟨write.device, Utf8.encode write.group, write.nowMs⟩ = some wakeups ∧
      (s.put write limits).2 =
        ⟨blobs.evictOldest (BlobRow.isFor write.group write.device) limits.maxBlobsPerDevice,
          wakeups.evictOldest (WakeRow.isFor write.device) limits.maxWakeupQueue⟩ := by
  by_cases hlarge : limits.maxBlobBytes < write.blob.length
  · exact .inl ⟨hlarge, by rw [put_refused hlarge]⟩
  · right
    unfold Store.put
    rw [if_neg hlarge]
    cases hblobs : s.blobs.insert ⟨write.group, write.device, write.blob, write.nowMs⟩ with
    | none => exact .inl ⟨_, rfl⟩
    | some blobs =>
      cases hwakeups : s.wakeups.insert ⟨write.device, Utf8.encode write.group, write.nowMs⟩ with
      | none => exact .inl ⟨_, rfl⟩
      | some wakeups => exact .inr ⟨blobs, wakeups, hlarge, rfl, rfl, rfl⟩

theorem isFor_disjoint (h : ¬(group = write.group ∧ device = write.device)) (row : BlobRow)
    (hrow : row.isFor group device = true) : row.isFor write.group write.device = false := by
  unfold BlobRow.isFor at hrow ⊢
  rw [Bool.and_eq_true, decide_eq_true_eq, decide_eq_true_eq] at hrow
  obtain ⟨rfl, rfl⟩ := hrow
  rw [Bool.and_eq_false_iff, decide_eq_false_iff_not, decide_eq_false_iff_not]
  exact not_and_or.1 h

theorem wake_isFor_disjoint (h : device ≠ write.device) (row : WakeRow) (hrow : row.isFor device = true) :
    row.isFor write.device = false := by
  rw [WakeRow.isFor, decide_eq_true_eq] at hrow
  rw [WakeRow.isFor, decide_eq_false_iff_not, hrow]
  exact h

theorem map_rtake {α β : Type*} (f : α → β) (l : List α) (n : Nat) : (l.rtake n).map f = (l.map f).rtake n := by
  rw [List.rtake, List.rtake, List.map_drop, List.length_map]

/-- An accepted write appends to its queues and drops the oldest past the caps. -/
theorem Holds.accept (h : Holds s m) {blobs : Table BlobRow} {wakeups : Table WakeRow}
    (hblobs : s.blobs.insert ⟨write.group, write.device, write.blob, write.nowMs⟩ = some blobs)
    (hwakeups : s.wakeups.insert ⟨write.device, Utf8.encode write.group, write.nowMs⟩ = some wakeups) :
    Holds ⟨blobs.evictOldest (BlobRow.isFor write.group write.device) limits.maxBlobsPerDevice,
      wakeups.evictOldest (WakeRow.isFor write.device) limits.maxWakeupQueue⟩ (m.accept limits write) := by
  obtain ⟨-, hblobId, hblobMax⟩ := Table.rows_of_insert hblobs
  obtain ⟨-, hwakeId, hwakeMax⟩ := Table.rows_of_insert hwakeups
  refine ⟨fun group device => ?_, fun device => ?_, ?_, ?_, ?_⟩
  · unfold Mailboxes.accept Store.get
    dsimp only
    split_ifs with hpair
    · obtain ⟨rfl, rfl⟩ := hpair
      rw [Table.select_evictOldest hblobMax, map_rtake, Table.select_insert hblobs, List.map_append, ← h.blobs]
      simp [BlobRow.isFor, Store.get]
    · rw [Table.select_evictOldest_of_disjoint (isFor_disjoint hpair), Table.select_insert hblobs, ← h.blobs]
      have hother : BlobRow.isFor group device ⟨write.group, write.device, write.blob, write.nowMs⟩ = false := by
        rw [BlobRow.isFor, Bool.and_eq_false_iff, decide_eq_false_iff_not, decide_eq_false_iff_not]
        exact (not_and_or.1 hpair).imp Ne.symm Ne.symm
      rw [hother]
      simp [Store.get]
  · unfold Mailboxes.accept Store.pendingWakeups
    dsimp only
    split_ifs with hdevice
    · subst hdevice
      rw [Table.select_evictOldest hwakeMax, map_rtake, Table.select_insert hwakeups, List.map_append, ← h.wakes,
        ← h.accepted]
      simp [WakeRow.isFor, Store.pendingWakeups]
    · rw [Table.select_evictOldest_of_disjoint (wake_isFor_disjoint hdevice), Table.select_insert hwakeups, ← h.wakes]
      have hother : WakeRow.isFor device ⟨write.device, Utf8.encode write.group, write.nowMs⟩ = false := by
        rw [WakeRow.isFor, decide_eq_false_iff_not]
        exact Ne.symm hdevice
      rw [hother]
      simp [Store.pendingWakeups]
  · unfold Mailboxes.accept
    rw [Table.lastId_evictOldest, hwakeId, h.accepted]
  · rw [Table.lastId_evictOldest]
    exact hblobMax
  · rw [Table.lastId_evictOldest]
    exact hwakeMax

/-! ## Removals -/

theorem map_filter_of {α β : Type*} (f : α → β) (p : α → Bool) (q : β → Bool) (l : List α) (h : ∀ a ∈ l, p a = q (f a)) :
    (l.filter p).map f = (l.map f).filter q := by
  rw [List.filter_map]
  exact congrArg _ (List.filter_congr fun a ha => h a ha)

theorem Holds.remove (h : Holds s m) (id : Nat) :
    Holds (s.removeWakeup id) (m.call limits retentionDays (.removeWakeup id)) := by
  refine ⟨h.blobs, fun device => ?_, h.accepted, h.blobIds, h.wakeIds⟩
  unfold Mailboxes.call Store.removeWakeup Store.pendingWakeups
  dsimp only
  rw [Table.select_delete, ← h.wakes]
  refine map_filter_of _ _ _ _ fun row _ => ?_
  simp

/-- Within the clock's range the cutoff leaves the blobs no older than the retention. -/
theorem lt_cutoffMs_iff {stored nowMs : Int} (hstored : 0 ≤ stored ∧ stored ≤ I64_MAX)
    (hnow : 0 ≤ nowMs ∧ nowMs ≤ I64_MAX) (hretention : 0 ≤ retentionDays ∨ stored < I64_MAX) :
    stored < Store.cutoffMs nowMs retentionDays ↔ retentionDays * 86400000 < nowMs - stored := by
  unfold Store.cutoffMs saturate I64_MIN I64_MAX at *
  omega

/-- The blobs were stored at times the clock reads. -/
def StoredInTime (retentionDays : Int) (s : Store) : Prop :=
  ∀ row ∈ s.blobs.rows, 0 ≤ row.2.storedAtMs ∧ row.2.storedAtMs ≤ I64_MAX ∧
    (0 ≤ retentionDays ∨ row.2.storedAtMs < I64_MAX)

theorem Holds.sweep (h : Holds s m) (hstored : StoredInTime retentionDays s) {nowMs : Int}
    (hnow : 0 ≤ nowMs ∧ nowMs ≤ I64_MAX) :
    Holds (s.sweepExpired nowMs retentionDays).2 (m.call limits retentionDays (.sweepExpired nowMs)) := by
  refine ⟨fun group device => ?_, h.wakes, h.accepted, h.blobIds, h.wakeIds⟩
  unfold Mailboxes.call Store.sweepExpired Store.get
  dsimp only
  rw [Table.select_delete, ← h.blobs]
  refine map_filter_of _ _ _ _ fun row hrow => ?_
  rw [Table.select_eq] at hrow
  obtain ⟨hlow, hhigh, hretention⟩ := hstored row (List.mem_of_mem_filter hrow)
  rw [← decide_not, decide_eq_decide, lt_cutoffMs_iff ⟨hlow, hhigh⟩ hnow hretention]

theorem rows_evictOldest_subset {α : Type*} (t : Table α) (p : α → Bool) (cap : Nat) :
    (t.evictOldest p cap).rows ⊆ t.rows := by
  unfold Table.evictOldest
  dsimp only
  split_ifs
  · exact List.Subset.refl _
  · exact List.filter_subset_self _

/-- A write stores at its own time. -/
theorem StoredInTime.insert (h : StoredInTime retentionDays s) {blobs : Table BlobRow} {p : BlobRow → Bool} {cap : Nat}
    {wakeups : Table WakeRow} (hblobs : s.blobs.insert ⟨write.group, write.device, write.blob, write.nowMs⟩ = some blobs)
    (hnow : 0 ≤ write.nowMs ∧ write.nowMs ≤ I64_MAX ∧ (0 ≤ retentionDays ∨ write.nowMs < I64_MAX)) :
    StoredInTime retentionDays ⟨blobs.evictOldest p cap, wakeups⟩ := by
  intro row hrow
  have hrow := rows_evictOldest_subset _ _ _ hrow
  rw [(Table.rows_of_insert hblobs).1] at hrow
  rcases List.mem_append.1 hrow with hrow | hrow
  · exact h row hrow
  · rw [List.mem_singleton.1 hrow]
    exact hnow

end Step

/-! ## Runs -/

section Run
variable {limits : Limits} {retentionDays : Int} {calls : List Call} {c : Call}

theorem Store.after_concat (limits : Limits) (retentionDays : Int) (calls : List Call) (c : Call) :
    Store.after limits retentionDays (calls ++ [c]) = (Store.after limits retentionDays calls).call limits retentionDays c :=
  List.foldl_concat _ _ _ _

/-- The tables hold the mailboxes after every run. -/
theorem holds_after (hclock : Clocked retentionDays calls) (hids : IdsLeft limits retentionDays calls) :
    Holds (Store.after limits retentionDays calls) (Mailboxes.after limits retentionDays calls) ∧
      StoredInTime retentionDays (Store.after limits retentionDays calls) := by
  induction calls using List.reverseRecOn with
  | nil => exact ⟨⟨fun _ _ => rfl, fun _ => rfl, rfl, Nat.zero_le _, Nat.zero_le _⟩, List.forall_mem_nil _⟩
  | append_singleton calls c ih =>
    obtain ⟨h, hstored⟩ := ih (fun call hcall => hclock call (List.mem_append_left _ hcall))
      fun before write later heq => hids before write (later ++ [c]) (by rw [heq, List.append_assoc, List.cons_append])
    have hc := hclock c (List.mem_append_right _ (List.mem_singleton_self c))
    rw [Store.after_concat, Mailboxes.after_concat]
    cases c with
    | put write =>
      unfold Store.call Mailboxes.call
      dsimp only
      rcases put_cases (Store.after limits retentionDays calls) write limits with
        ⟨hlarge, hput⟩ | ⟨context, hput⟩ | ⟨blobs, wakeups, hsmall, hblobs, hwakeups, hput⟩
      · rw [hput, if_pos hlarge]
        exact ⟨h, hstored⟩
      · exact absurd hput (hids calls write [] rfl context)
      · rw [hput, if_neg hsmall]
        exact ⟨h.accept hblobs hwakeups, hstored.insert hblobs (hc _ rfl)⟩
    | get _ _ => exact ⟨h, hstored⟩
    | pendingWakeups _ => exact ⟨h, hstored⟩
    | removeWakeup id => exact ⟨h.remove id, hstored⟩
    | sweepExpired nowMs =>
      obtain ⟨hlow, hhigh, -⟩ := hc _ rfl
      exact ⟨h.sweep hstored ⟨hlow, hhigh⟩, fun row hrow => hstored row (List.mem_of_mem_filter hrow)⟩

/-- A call uses at most one row id of each table. -/
theorem lastId_call (limits : Limits) (retentionDays : Int) (s : Store) (c : Call) :
    (s.call limits retentionDays c).blobs.lastId ≤ s.blobs.lastId + 1 ∧
      (s.call limits retentionDays c).wakeups.lastId ≤ s.wakeups.lastId + 1 := by
  cases c with
  | put write =>
    unfold Store.call Store.put
    dsimp only
    split_ifs with hlarge
    · exact ⟨Nat.le_succ _, Nat.le_succ _⟩
    · cases hblobs : s.blobs.insert ⟨write.group, write.device, write.blob, write.nowMs⟩ with
      | none => exact ⟨Nat.le_succ _, Nat.le_succ _⟩
      | some blobs =>
        cases hwakeups : s.wakeups.insert ⟨write.device, Utf8.encode write.group, write.nowMs⟩ with
        | none => exact ⟨by rw [Table.lastId_evictOldest, (Table.rows_of_insert hblobs).2.1], Nat.le_succ _⟩
        | some wakeups =>
          exact ⟨by rw [Table.lastId_evictOldest, (Table.rows_of_insert hblobs).2.1],
            by rw [Table.lastId_evictOldest, (Table.rows_of_insert hwakeups).2.1]⟩
  | get _ _ => exact ⟨Nat.le_succ _, Nat.le_succ _⟩
  | pendingWakeups _ => exact ⟨Nat.le_succ _, Nat.le_succ _⟩
  | removeWakeup _ => exact ⟨Nat.le_succ _, Nat.le_succ _⟩
  | sweepExpired _ => exact ⟨Nat.le_succ _, Nat.le_succ _⟩

theorem lastId_after (limits : Limits) (retentionDays : Int) (calls : List Call) :
    (Store.after limits retentionDays calls).blobs.lastId ≤ calls.length ∧
      (Store.after limits retentionDays calls).wakeups.lastId ≤ calls.length := by
  induction calls using List.reverseRecOn with
  | nil => exact ⟨le_rfl, le_rfl⟩
  | append_singleton calls c ih =>
    have hcall := lastId_call limits retentionDays (Store.after limits retentionDays calls) c
    rw [Store.after_concat, List.length_append, List.length_singleton]
    omega

/-- Row ids last for as many calls as there are ids. -/
theorem idsLeft_of_length (h : calls.length ≤ Table.MAX_ID) : IdsLeft limits retentionDays calls := by
  rintro before write later rfl context herror
  have hlast := lastId_after limits retentionDays before
  rw [List.length_append, List.length_cons] at h
  have hblobRoom : (Store.after limits retentionDays before).blobs.lastId < Table.MAX_ID := by omega
  have hwakeRoom : (Store.after limits retentionDays before).wakeups.lastId < Table.MAX_ID := by omega
  obtain ⟨blobs, hblobs⟩ := Option.isSome_iff_exists.1 (Table.insert_isSome hblobRoom
    ⟨write.group, write.device, write.blob, write.nowMs⟩)
  obtain ⟨wakeups, hwakeups⟩ := Option.isSome_iff_exists.1 (Table.insert_isSome hwakeRoom
    ⟨write.device, Utf8.encode write.group, write.nowMs⟩)
  unfold Store.put at herror
  split_ifs at herror
  · cases herror
  · rw [hblobs] at herror
    dsimp only at herror
    rw [hwakeups] at herror
    cases herror

end Run

/-- A call that may change the mailbox of a group and device. -/
def Call.Concerns (group : GroupId) (device : DeviceId) : Call → Prop
  | .put write => write.group = group ∧ write.device = device
  | .sweepExpired _ => True
  | _ => False

/-- What a store answers after some calls. -/
structure Bounded (limits : Limits) (retentionDays : Int) (calls : List Call) : Prop where
  get : ∀ group device, (Store.after limits retentionDays calls).get group device =
    (Mailboxes.after limits retentionDays calls).blobs group device
  others : ∀ group device call, ¬call.Concerns group device →
    (Store.after limits retentionDays (calls ++ [call])).get group device =
      (Store.after limits retentionDays calls).get group device
  refused : ∀ write, limits.maxBlobBytes < write.blob.length →
    Store.after limits retentionDays (calls ++ [.put write]) = Store.after limits retentionDays calls
  pending : ∀ device, (Store.after limits retentionDays calls).pendingWakeups device =
    (Mailboxes.after limits retentionDays calls).wakes device
  newest : ∀ device, (Store.after limits retentionDays calls).pendingWakeups device <:+
      (Mailboxes.after limits retentionDays calls).waiting device ∧
    ((Store.after limits retentionDays calls).pendingWakeups device).length ≤ limits.maxWakeupQueue ∧
    ((∀ id, .removeWakeup id ∉ calls) → (Store.after limits retentionDays calls).pendingWakeups device =
      ((Mailboxes.after limits retentionDays calls).waiting device).rtake limits.maxWakeupQueue)

/-- A write to another mailbox leaves a mailbox alone, also when the row ids are used up. -/
theorem get_put_of_other {s : Store} {limits : Limits} {write : Write} {group : GroupId} {device : DeviceId}
    (h : ¬(write.group = group ∧ write.device = device)) :
    (s.put write limits).2.get group device = s.get group device := by
  have hpair : ¬(group = write.group ∧ device = write.device) := fun heq => h ⟨heq.1.symm, heq.2.symm⟩
  unfold Store.put
  split_ifs with hlarge
  · rfl
  · cases hblobs : s.blobs.insert ⟨write.group, write.device, write.blob, write.nowMs⟩ with
    | none => rfl
    | some blobs =>
      have hsame : (blobs.evictOldest (BlobRow.isFor write.group write.device) limits.maxBlobsPerDevice).select
          (BlobRow.isFor group device) = s.blobs.select (BlobRow.isFor group device) := by
        have hother : BlobRow.isFor group device ⟨write.group, write.device, write.blob, write.nowMs⟩ = false := by
          rw [BlobRow.isFor, Bool.and_eq_false_iff, decide_eq_false_iff_not, decide_eq_false_iff_not]
          exact not_and_or.1 h
        rw [Table.select_evictOldest_of_disjoint (isFor_disjoint hpair), Table.select_insert hblobs, hother]
        exact List.append_nil _
      unfold Store.get
      cases s.wakeups.insert ⟨write.device, Utf8.encode write.group, write.nowMs⟩ with
      | none => exact congrArg _ hsame
      | some wakeups => exact congrArg _ hsame

/-- **A relay mailbox is a bounded queue per group and device**, and a device's wakes are one. -/
theorem mailbox_bounded (limits : Limits) (retentionDays : Int) (calls : List Call)
    (hclock : Clocked retentionDays calls) (hids : IdsLeft limits retentionDays calls) :
    Bounded limits retentionDays calls := by
  obtain ⟨h, -⟩ := holds_after hclock hids
  refine ⟨h.blobs, fun group device call hcall => ?_, fun write hlarge => ?_, h.wakes, fun device => ?_⟩
  · rw [Store.after_concat]
    cases call with
    | put write => exact get_put_of_other hcall
    | get _ _ => rfl
    | pendingWakeups _ => rfl
    | removeWakeup _ => rfl
    | sweepExpired _ => exact absurd trivial hcall
  · rw [Store.after_concat]
    unfold Store.call
    dsimp only
    rw [put_refused hlarge]
  · rw [h.wakes]
    obtain ⟨hsuffix, hlen⟩ := Mailboxes.wakes_suffix limits retentionDays calls device
    exact ⟨hsuffix, hlen, Mailboxes.wakes_newest limits retentionDays calls device⟩

/-- Two writes to a mailbox of one blob, then a sweep after its retention. -/
theorem mailbox_bounded_two : Bounded ⟨8, 1, 4⟩ 1 [.put ⟨['g'], ['d'], [1], 5⟩, .put ⟨['g'], ['d'], [2], 6⟩,
    .removeWakeup 1, .sweepExpired 86400007] :=
  mailbox_bounded ⟨8, 1, 4⟩ 1 [.put ⟨['g'], ['d'], [1], 5⟩, .put ⟨['g'], ['d'], [2], 6⟩, .removeWakeup 1,
    .sweepExpired 86400007] (by unfold Clocked; decide) (idsLeft_of_length (by decide))

end Txtodo.Relay
