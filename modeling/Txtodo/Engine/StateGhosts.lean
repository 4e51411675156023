import Txtodo.Engine.StateOrder
import Mathlib.Data.List.Sort

/-!
# Late placements, erasers and ghosts

A placement that lands late takes the blocks that should follow it (`state_rehome.rs`); a removed
blank is an eraser that claims the blank to hide (`state_erase.rs`); hidden placements are kept up to a
bound (`state_ghosts.rs`).
-/

namespace Txtodo

/-- Most ghosts one document keeps. -/
def MAX_GHOSTS_PER_FILE : Nat := 10000

/-- Ghosts left once a prune runs. -/
def GHOSTS_AFTER_PRUNE : Nat := MAX_GHOSTS_PER_FILE - MAX_GHOSTS_PER_FILE / 4

/-- The slot as a placement others may follow, `none` for a blank. -/
def Slot.placement (x : Slot) : Option (TaskId × Hlc) := x.id.map fun id => (id, x.stamp)

/-- How many of `rest` belong to the block whose placements so far are `members`: each slot whose
parent is in the block, up to the first that is not. -/
def blockRun (members : List (TaskId × Hlc)) : List Slot → Nat
  | [] => 0
  | x :: rest =>
    if x.parent.any (· ∈ members) then blockRun (x.placement.toList ++ members) rest + 1 else 0

/-- `l` with the items of `[head, stop)` taken out and put back, changed by `f`, at `at_` of what is
left. -/
def moveRange {α : Type} (head stop at_ : Nat) (f : List α → List α) (l : List α) : List α :=
  let left := l.take head ++ l.drop stop
  left.take at_ ++ f ((l.take stop).drop head) ++ left.drop at_

/-! ## Late placements -/

namespace Slots

/-- Whether the slot `x` follows an older placement of `task` than `placed`, was placed by a newer op
than `placed`, and no placement of `task` sits between the two. -/
def followsOlder (xs : List Slot) (x : Slot) (task : TaskId) (placed : Hlc) : Bool :=
  (x.parent.any fun (t, p) => t = task && p < placed && placed < x.stamp) &&
    !xs.any fun q => q.id = some task && placed < q.stamp && q.stamp < x.stamp

/-- One past the last slot of the block `head` starts. -/
def blockEnd (xs : List Slot) (head : Nat) : Nat :=
  match xs.drop head with
  | [] => head
  | x :: rest => head + 1 + blockRun x.placement.toList rest

/-- Where the block `head` starts goes under `task`'s placement stamped `placed`: one past its last
slot, and the spot among the other slots past what newer ops placed there. `none` when that placement
is gone or inside the block. -/
def blockSpot (xs : List Slot) (head : Nat) (task : TaskId) (placed : Hlc) : Option (Nat × Nat) :=
  let stop := blockEnd xs head
  match xs.findIdx? fun x => x.id = some task && x.stamp = placed with
  | none => none
  | some anchor =>
    if head ≤ anchor ∧ anchor < stop then none
    else
      let anchor := if head < anchor then anchor - (stop - head) else anchor
      let left := xs.take head ++ xs.drop stop
      let mine := (xs[head]?.map Slot.stamp).getD unplaced
      some (stop, skipNewer left (anchor + 1) mine)

/-- The last slot that should follow `task`'s placement stamped `placed`. -/
def lastHead (xs : List Slot) (task : TaskId) (placed : Hlc) : Option Nat :=
  (xs.zipIdx.reverse.find? fun x => followsOlder xs x.1 task placed).map (·.2)

end Slots

namespace DocState

/-- Moves the block `head` starts under `task`'s placement stamped `placed`; `none`, nothing moved,
when that placement is gone or inside the block. -/
def moveBlock (s : DocState) (head : Nat) (task : TaskId) (placed : Hlc) : Option DocState :=
  (Slots.blockSpot s.slots head task placed).map fun (stop, at_) =>
    { s with
      entries := moveRange head stop at_ id s.entries
      stamps := moveRange head stop at_ id s.stamps
      hidden := moveRange head stop at_ id s.hidden
      parents := moveRange head stop at_ (fun block => block.set 0 (some (task, placed))) s.parents
      erasers := moveRange head stop at_ id s.erasers }.reindex

/-- The passes of `rehomeOnto`: each moves the last block that should follow the placement. -/
def rehomePasses (task : TaskId) (placed : Hlc) : Nat → DocState → DocState
  | 0, s => s
  | n + 1, s =>
    match (Slots.lastHead s.slots task placed).bind fun head => s.moveBlock head task placed with
    | none => s
    | some s => rehomePasses task placed n s

/-- After `task`'s placement stamped `placed` landed: moves under it each block whose head follows an
older placement of `task` but is newer than this one. -/
def rehomeOnto (s : DocState) (task : TaskId) (placed : Hlc) : DocState :=
  rehomePasses task placed s.entries.length s

end DocState

/-! ## Erasers -/

namespace Slots

/-- The first slot of `rest` the eraser stamped `mine` claims, `oldest` being the oldest shown line
passed so far. -/
def claimFrom (mine : Hlc) (taken : List Nat) : Option Hlc → List (Slot × Nat) → Option Nat
  | _, [] => none
  | oldest, (x, i) :: rest =>
    if x.eraser || (x.hidden && !x.isBlank) || i ∈ taken || mine < x.stamp then
      claimFrom mine taken oldest rest
    else if x.isBlank then
      if oldest.all fun old => x.stamp < old then some i else none
    else claimFrom mine taken (some (oldest.elim x.stamp fun old => min old x.stamp)) rest

/-- The blank the eraser in `eraser` claims. -/
def claim (xs : List Slot) (eraser : Nat) (taken : List Nat) : Option Nat :=
  claimFrom ((xs[eraser]?.map Slot.stamp).getD unplaced) taken none (xs.zipIdx.drop (eraser + 1))

/-- The claims of the erasers in `slots`, in order, `taken` being claimed already. -/
def claimsFrom (xs : List Slot) : List Nat → List Nat → List (Nat × Nat)
  | _, [] => []
  | taken, e :: rest =>
    match claim xs e taken with
    | some b => (e, b) :: claimsFrom xs (b :: taken) rest
    | none => claimsFrom xs taken rest

/-- Each eraser's slot and the blank it claims, erasers taken in sequence order. -/
def claims (xs : List Slot) : List (Nat × Nat) :=
  claimsFrom xs [] ((xs.zipIdx.filter fun x => x.1.eraser).map (·.2))

/-- Whether each slot is hidden once the blanks in `claimed` are: other slots stay as they are. -/
def settledHidden (xs : List Slot) (claimed : List Nat) : List Bool :=
  xs.zipIdx.map fun (x, i) =>
    if Slot.isBlank x && !Slot.eraser x then decide (i ∈ claimed) else Slot.hidden x

end Slots

namespace DocState

/-- Each eraser's slot and the blank it claims. -/
def claims (s : DocState) : List (Nat × Nat) := Slots.claims s.slots

/-- Hides each blank an eraser claims and shows every other blank. -/
def settleErasers (s : DocState) : DocState :=
  if true ∉ s.erasers then s
  else
    let hidden := Slots.settledHidden s.slots (s.claims.map (·.2))
    if hidden = s.hidden then s else { s with hidden := hidden }.reindex

end DocState

/-! ## Ghosts -/

namespace Slots

/-- The slots of `oldest` a prune drops until there are `excess`: each ghost with the blank it claims. -/
def dropped (claims : List (Nat × Nat)) (excess : Nat) : List Nat → List Nat → List Nat
  | acc, [] => acc
  | acc, i :: rest =>
    if excess ≤ acc.length then acc
    else dropped claims excess (acc ++ i :: (claims.find? (·.1 = i)).toList.map (·.2)) rest

/-- The slots a prune of `excess` ghosts drops, oldest stamp first. -/
def toDrop (xs : List Slot) (excess : Nat) : List Nat :=
  let claims := claims xs
  let claimed := claims.map (·.2)
  let oldest := ((xs.zipIdx.filter fun x => x.1.hidden && x.2 ∉ claimed).insertionSort
    fun a b => a.1.stamp ≤ b.1.stamp).map (·.2)
  dropped claims excess [] oldest

end Slots

/-- `l` without the items at the positions of `drop`. -/
def removeAt {α : Type} (drop : List Nat) (l : List α) : List α :=
  (l.zipIdx.filter fun x => x.2 ∉ drop).map (·.1)

namespace DocState

/-- Adds a placement of `task` after `after`, stamped `hlc`, as a ghost. -/
def placeGhost (s : DocState) (task : TaskId) (after : Option TaskId) (hlc : Hlc) : Outcome :=
  match s.contentLine task with
  | none => s.fails (.unknownTask task)
  | some line =>
    match s.slotAfter after hlc with
    | .error e => s.fails e
    | .ok spot =>
      (((s.insertEntry spot (.task task line) hlc).hideEntry spot.at_).rehomeOnto task hlc).done

/-- Drops the oldest ghosts past `max`, an eraser with the blank it claims, and the metadata of tasks
left without a placement. -/
def pruneGhostsTo (s : DocState) (max : Nat) : DocState :=
  if s.ghosts ≤ max then s
  else
    let drop := Slots.toDrop s.slots (s.ghosts - max)
    let entries := removeAt drop s.entries
    let present (t : TaskId) : Bool := entries.any fun e => e.id = some t
    { s with
      entries := entries
      stamps := removeAt drop s.stamps
      hidden := removeAt drop s.hidden
      parents := removeAt drop s.parents
      erasers := removeAt drop s.erasers
      fieldStamps := fun t f => if present t then s.fieldStamps t f else none
      textHistory := fun t => if present t then s.textHistory t else none
      life := fun t => if present t then s.life t else none }.reindex

/-- More than `max` ghosts: down to `after`. -/
def pruneGhostsPast (s : DocState) (max after : Nat) : DocState :=
  if max < s.ghosts then s.pruneGhostsTo after else s

/-- Past the bound, drops the oldest ghosts down to the lower mark. -/
def pruneGhosts (s : DocState) : DocState :=
  s.pruneGhostsPast MAX_GHOSTS_PER_FILE GHOSTS_AFTER_PRUNE

/-! ## Adopting a replay -/

/-- `entries` with the entries at `theirs` replaced by `mine`, one for one. -/
def adoptShown (entries : List Entry) : List Nat → List Entry → List Entry
  | i :: theirs, e :: mine => adoptShown (entries.set i e) theirs mine
  | _, _ => entries

/-- Takes the replay's whole sequence when it shows the same lines by id. -/
def adoptSequence (s replayed : DocState) : Option DocState :=
  if s.lineIds ≠ replayed.lineIds then none
  else some { s with
    entries := adoptShown replayed.entries replayed.visible s.visibleEntries
    stamps := replayed.stamps
    hidden := replayed.hidden
    parents := replayed.parents
    erasers := replayed.erasers }.reindex

/-- The stamp and parent of the last shown placement of `task`. -/
def shownStamp (s : DocState) (task : TaskId) : Option (Hlc × Parent) :=
  (s.visible.filterMap (s.slots[·]?)).reverse.findSome? fun x =>
    if x.id = some task then some (x.stamp, x.parent) else none

/-- Takes the stamps and parents of the tasks `replayed` shows, line by line. -/
def adoptByTask (s replayed : DocState) : DocState :=
  let byTask (x : Slot) : Option (Hlc × Parent) := x.id.bind replayed.shownStamp
  { s with
    stamps := s.slots.map fun x => ((byTask x).map (·.1)).getD x.stamp
    parents := s.slots.map fun x => ((byTask x).map (·.2)).getD x.parent }

/-- Takes the stamps of `replayed`, this document rebuilt from its log. -/
def adoptStamps (s replayed : DocState) : DocState :=
  let s := { s with
    fieldStamps := replayed.fieldStamps
    textHistory := replayed.textHistory
    life := replayed.life }
  match s.adoptSequence replayed with
  | some s => s
  | none => s.adoptByTask replayed

end DocState

end Txtodo
