import Txtodo.Sync.Message

/-!
# The log by origin

`heads.rs` and the inserts of `ops.rs`: every op is stored under a number of its own device, the next one
when its insert gives none.
-/

namespace Txtodo

/-- Most devices one read of the heads reports. -/
def MAX_DEVICES_PER_HEADS : Nat := 1024
/-- Most ops one read returns. -/
def MAX_OPS_PER_READ : Nat := 10000
/-- Most ops one append takes. -/
def MAX_APPEND_BATCH : Nat := 50000
/-- The highest row number. -/
def MAX_ROW : Nat := 9223372036854775807

/-- Each device's ops in the order of their numbers, dense from 1. -/
structure OriginLog where
  runs : OrdMap DeviceId (List Op)
  stored : ∀ e ∈ runs.items, e.2 ≠ [] ∧ e.2.length ≤ MAX_ROW ∧ ∀ op ∈ e.2, op.hlc.device = e.1

namespace OriginLog

def empty : OriginLog := ⟨.empty, List.forall_mem_nil _⟩

/-- A device's ops by number. -/
def opsOf (s : OriginLog) (device : DeviceId) : List Op := (s.runs.find? device).getD []

/-- Whether an op with this id is stored. -/
def holds (s : OriginLog) (id : OpId) : Bool := s.runs.items.any fun e => e.2.any fun op => op.id = id

/-- Every device that has ops and its highest number, in device order. -/
def heads (s : OriginLog) : Heads where
  items := (s.runs.items.take MAX_DEVICES_PER_HEADS).map fun e => (e.1, UInt64.ofNat e.2.length)
  sorted := List.pairwise_map.2 (s.runs.sorted.sublist (List.take_sublist _ _))

/-- A device's highest number. -/
def headOf (s : OriginLog) (device : DeviceId) : UInt64 := UInt64.ofNat (s.opsOf device).length

/-- A device's ops from `first` to `last`, `none` when the run is backwards or too wide. -/
def opsFor (s : OriginLog) (device : DeviceId) (first last : UInt64) : Option (List Op) :=
  if first = 0 ∨ last < first then none
  else if MAX_OPS_PER_READ < last.toNat - first.toNat + 1 then none
  else some (((s.opsOf device).take last.toNat).drop (first.toNat - 1))

theorem mem_runs_of_opsOf {s : OriginLog} {device : DeviceId} (h : s.opsOf device ≠ []) :
    (device, s.opsOf device) ∈ s.runs.items := by
  unfold opsOf at h ⊢
  cases hfind : s.runs.find? device with
  | none =>
    rw [hfind] at h
    exact absurd rfl h
  | some ops => exact OrdMap.find?_eq_some.1 hfind

theorem length_opsOf_le (s : OriginLog) (device : DeviceId) : (s.opsOf device).length ≤ MAX_ROW := by
  by_cases hnil : s.opsOf device = []
  · rw [hnil]
    exact Nat.zero_le _
  · exact (s.stored _ (mem_runs_of_opsOf hnil)).2.1

theorem device_of_mem_opsOf {s : OriginLog} {device : DeviceId} {op : Op} (h : op ∈ s.opsOf device) :
    op.hlc.device = device :=
  (s.stored _ (mem_runs_of_opsOf (List.ne_nil_of_mem h))).2.2 op h

/-- One op under the next number of its device; a stored id is refused. -/
def insertOp (s : OriginLog) (op : Op) : Option OriginLog :=
  if s.holds op.id = true then none
  else if h : (s.opsOf op.hlc.device).length < MAX_ROW then
    some {
      runs := s.runs.insert op.hlc.device (s.opsOf op.hlc.device ++ [op])
      stored := by
        rintro ⟨device, ops⟩ he
        rcases OrdMap.mem_insert.1 he with ⟨rfl, rfl⟩ | ⟨-, he⟩
        · refine ⟨List.append_ne_nil_of_right_ne_nil _ (List.cons_ne_nil _ _), ?_, ?_⟩
          · rw [List.length_append]
            exact h
          · exact List.forall_mem_append.2
              ⟨fun _ => device_of_mem_opsOf, List.forall_mem_singleton.2 rfl⟩
        · exact s.stored _ he }
  else none

/-- A batch in one transaction: all of it or nothing. -/
def insertOps (s : OriginLog) (ops : List Op) : Option OriginLog :=
  if ops = [] ∨ MAX_APPEND_BATCH < ops.length then none else ops.foldlM insertOp s

end OriginLog

end Txtodo
