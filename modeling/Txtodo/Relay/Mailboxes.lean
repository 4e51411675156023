import Txtodo.Relay.Store

/-!
# Mailboxes

What the relay's store is for: a bounded queue of blobs for each group and device, and one of wakes for each
device.
-/

namespace Txtodo.Relay

/-- A mailbox for each group and device and a wake queue for each device. `waiting` has no bound. -/
structure Mailboxes where
  blobs : GroupId → DeviceId → List StoredBlob
  wakes : DeviceId → List QueuedWake
  waiting : DeviceId → List QueuedWake
  accepted : Nat

namespace Mailboxes

def new : Mailboxes := ⟨fun _ _ => [], fun _ => [], fun _ => [], 0⟩

/-- An accepted write, with the wake of the next number. -/
def accept (limits : Limits) (m : Mailboxes) (write : Write) : Mailboxes where
  blobs group device :=
    if group = write.group ∧ device = write.device then
      (m.blobs group device ++ [StoredBlob.mk write.blob write.nowMs]).rtake limits.maxBlobsPerDevice
    else m.blobs group device
  wakes device :=
    if device = write.device then
      (m.wakes device ++ [QueuedWake.mk (m.accepted + 1) (Utf8.encode write.group)]).rtake limits.maxWakeupQueue
    else m.wakes device
  waiting device :=
    if device = write.device then m.waiting device ++ [QueuedWake.mk (m.accepted + 1) (Utf8.encode write.group)]
    else m.waiting device
  accepted := m.accepted + 1

/-- What a call does to the mailboxes. -/
def call (limits : Limits) (retentionDays : Int) (m : Mailboxes) : Call → Mailboxes
  | .put write => if limits.maxBlobBytes < write.blob.length then m else m.accept limits write
  | .get _ _ | .pendingWakeups _ => m
  | .removeWakeup id =>
    { m with
      wakes := fun device => (m.wakes device).filter fun wake => wake.id ≠ id
      waiting := fun device => (m.waiting device).filter fun wake => wake.id ≠ id }
  | .sweepExpired nowMs =>
    { m with
      blobs := fun group device =>
        (m.blobs group device).filter fun b => ¬retentionDays * 86400000 < nowMs - b.storedAtMs }

def after (limits : Limits) (retentionDays : Int) (calls : List Call) : Mailboxes :=
  calls.foldl (call limits retentionDays) new

end Mailboxes

section Newest
variable {limits : Limits} {retentionDays : Int} {m : Mailboxes} {calls : List Call} {device : DeviceId}

namespace Mailboxes

theorem after_concat (limits : Limits) (retentionDays : Int) (calls : List Call) (c : Call) :
    after limits retentionDays (calls ++ [c]) = (after limits retentionDays calls).call limits retentionDays c :=
  List.foldl_concat _ _ _ _

theorem rtake_suffix {α : Type*} (l : List α) (n : Nat) : l.rtake n <:+ l := List.drop_suffix _ _

theorem length_rtake_le {α : Type*} (l : List α) (n : Nat) : (l.rtake n).length ≤ n := by
  rw [List.rtake, List.length_drop]
  omega

/-- The newest of the newest and a new one are the newest of all. -/
theorem rtake_rtake_concat {α : Type*} (l : List α) (x : α) (n : Nat) : (l.rtake n ++ [x]).rtake n = (l ++ [x]).rtake n := by
  cases n with
  | zero => rw [List.rtake_zero, List.rtake_zero]
  | succ n =>
    rw [List.rtake_concat_succ, List.rtake_concat_succ, List.rtake, List.rtake, List.rtake, List.length_drop,
      List.drop_drop]
    congr 2
    omega

/-- The queued wakes are the last of those that wait, at most as many as the cap. -/
theorem wakes_suffix (limits : Limits) (retentionDays : Int) (calls : List Call) (device : DeviceId) :
    (after limits retentionDays calls).wakes device <:+ (after limits retentionDays calls).waiting device ∧
      ((after limits retentionDays calls).wakes device).length ≤ limits.maxWakeupQueue := by
  induction calls using List.reverseRecOn with
  | nil => exact ⟨List.suffix_refl _, Nat.zero_le _⟩
  | append_singleton calls c ih =>
    rw [after_concat]
    cases c with
    | put write =>
      unfold call
      dsimp only
      split_ifs with hlarge
      · exact ih
      · unfold accept
        dsimp only
        split_ifs with hdevice
        · obtain ⟨front, hfront⟩ := ih.1
          refine ⟨(rtake_suffix _ _).trans ⟨front, ?_⟩, length_rtake_le _ _⟩
          rw [← List.append_assoc, hfront]
        · exact ih
    | get _ _ => exact ih
    | pendingWakeups _ => exact ih
    | removeWakeup id =>
      exact ⟨ih.1.filter _, (List.length_filter_le _ _).trans ih.2⟩
    | sweepExpired _ => exact ih

/-- While none is removed the queued wakes are the newest of all. -/
theorem wakes_newest (limits : Limits) (retentionDays : Int) (calls : List Call) (device : DeviceId)
    (h : ∀ id, .removeWakeup id ∉ calls) : (after limits retentionDays calls).wakes device =
      ((after limits retentionDays calls).waiting device).rtake limits.maxWakeupQueue := by
  induction calls using List.reverseRecOn with
  | nil => exact (List.rtake_nil _).symm
  | append_singleton calls c ih =>
    have ih := ih fun id hid => h id (List.mem_append_left _ hid)
    rw [after_concat]
    cases c with
    | put write =>
      unfold call
      dsimp only
      split_ifs with hlarge
      · exact ih
      · unfold accept
        dsimp only
        split_ifs with hdevice
        · rw [ih, rtake_rtake_concat]
        · exact ih
    | get _ _ => exact ih
    | pendingWakeups _ => exact ih
    | removeWakeup id => exact absurd (List.mem_append_right _ (List.mem_singleton_self _)) (h id)
    | sweepExpired _ => exact ih

end Mailboxes

end Newest

end Txtodo.Relay
