import Txtodo.Engine.Slots
import Txtodo.Engine.Mutation

/-!
# Documents that can be reached

What a document's readers rely on, and the documents built by `fromFile` and changed by ops, prunes,
settled commits and adopted replays.
-/

namespace Txtodo

/-- Whether `x` shows `task`. -/
def Slot.shows (task : TaskId) (x : Slot) : Bool := !x.hidden && x.id = some task

/-- An eraser is a hidden blank, and a task has at most one shown placement. -/
structure Slots.Sound (xs : List Slot) : Prop where
  eraser : ∀ x ∈ xs, x.eraser = true → x.hidden = true ∧ x.id = none
  shown : ∀ task, xs.countP (Slot.shows task) ≤ 1

namespace DocState

/-- The vectors are in step and hold a sound sequence. -/
structure Sound (s : DocState) : Prop where
  aligned : s.Aligned
  slots : Slots.Sound s.slots

/-- What every reader of a document may rely on. -/
structure Consistent (s : DocState) : Prop where
  aligned : s.Aligned
  eraser_hidden_blank : ∀ i : Nat, s.erasers[i]? = some true →
    s.hidden[i]? = some true ∧ s.entries[i]?.map Entry.isBlank = some true
  shown_once : ∀ task (i j : Nat),
    (s.hidden[i]? = some false ∧ s.entries[i]?.bind Entry.id = some task) →
    (s.hidden[j]? = some false ∧ s.entries[j]?.bind Entry.id = some task) → i = j
  lineIds_nodup : (s.lineIds.filterMap id).Nodup
  indexOf_liveSlot : ∀ task, (s.indexOf task).bind (s.visible[·]?) = s.liveSlot task
  resolve_indexOf : ∀ ref i found, resolve s ref = .ok (i, found) → s.indexOf found = some i
  indexOf_resolve : ∀ task i, s.indexOf task = some i →
    resolve s ⟨0, some task⟩ = .ok (i, task) ∧ resolve s ⟨i + 1, some task⟩ = .ok (i, task)

/-- The documents a file with distinct task ids can become. -/
inductive Reachable : DocState → Prop where
  | fromFile {path : FilePath} {file : File} {ids : List (Option TaskId)} {mode : IdentityMode}
      {s : DocState} (hs : fromFile path file ids mode = .ok s)
      (hids : (s.entries.filterMap Entry.id).Nodup) : Reachable s
  | apply {s : DocState} (hs : Reachable s) (op : Op) : Reachable (s.apply op).state
  | pruneGhostsTo {s : DocState} (hs : Reachable s) (max : Nat) : Reachable (s.pruneGhostsTo max)
  | settleScratchStamps {s : DocState} (hs : Reachable s) (hlc : Hlc) :
      Reachable (s.settleScratchStamps hlc)
  | adoptStamps {s replayed : DocState} (hs : Reachable s) (hr : Reachable replayed)
      (hpath : s.path = replayed.path) : Reachable (s.adoptStamps replayed)

end DocState

end Txtodo
