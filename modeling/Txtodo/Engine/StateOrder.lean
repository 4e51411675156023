import Txtodo.Engine.State

/-!
# Where a placement lands

`state_order.rs` and the anchors of `state_ghosts.rs`: the placement an op follows, the slot it takes
(past every entry a newer op placed), the stamps of fields, texts and scratch replays.
-/

namespace Txtodo

/-- Where an op places its entry: the slot, and the placement it follows. -/
structure Spot where
  at_ : Nat
  parent : Parent
  deriving DecidableEq

/-- The stamp scratch replays place under: the greatest value of each part. -/
def scratchStamp : Hlc := ⟨2 ^ 64 - 1, 2 ^ 16 - 1, ⟨2 ^ 128 - 1⟩⟩

/-- An op that is never stored or sent. -/
def scratchOp (path : FilePath) (kind : OpKind) : Op := ⟨⟨0⟩, scratchStamp, path, kind⟩

namespace Slots

/-- The slot an op anchored after `after` and stamped `hlc` follows: the anchor's placement with the
newest stamp not newer than the op (the shown one on a tie), else its shown one, else its oldest.
`none` is the top of the document. -/
def anchorSlot (xs : List Slot) (after : Option TaskId) (hlc : Hlc) :
    Except StateError (Option Nat) :=
  match after with
  | none => .ok none
  | some id =>
    let placements := placements xs id
    let notNewer := Iter.maxByKey (fun x => toLex (x.1.stamp, !x.1.hidden))
      (placements.filter fun x => x.1.stamp ≤ hlc)
    let shown := placements.find? fun x => !x.1.hidden
    let oldest := Iter.minByKey (fun x => x.1.stamp) placements
    match (notNewer.or shown).or oldest with
    | some x => .ok (some x.2)
    | none => .error (.unknownTask id)

/-- The placement in `slot` as a parent. -/
def parentAt (xs : List Slot) (slot : Nat) : Parent :=
  xs[slot]?.bind fun x => x.id.map fun id => (id, x.stamp)

/-- The first slot from `at_` on that an op stamped `hlc` does not skip. -/
def skipNewer (xs : List Slot) (at_ : Nat) (hlc : Hlc) : Nat :=
  at_ + ((xs.drop at_).takeWhile fun x => hlc < x.stamp).length

/-- Spot for an entry placed after `after` by an op stamped `hlc`. -/
def slotAfter (xs : List Slot) (after : Option TaskId) (hlc : Hlc) : Except StateError Spot :=
  match anchorSlot xs after hlc with
  | .error e => .error e
  | .ok anchor =>
    let start := match anchor with
      | some slot => slot + 1
      | none => 0
    .ok ⟨skipNewer xs start hlc, anchor.bind (parentAt xs)⟩

end Slots

namespace DocState

/-- The slot an op anchored after `after` and stamped `hlc` follows. -/
def anchorSlot (s : DocState) (after : Option TaskId) (hlc : Hlc) :
    Except StateError (Option Nat) :=
  Slots.anchorSlot s.slots after hlc

/-- Spot for an entry placed after `after` by an op stamped `hlc`. -/
def slotAfter (s : DocState) (after : Option TaskId) (hlc : Hlc) : Except StateError Spot :=
  Slots.slotAfter s.slots after hlc

/-- Puts `entry`, placed by an op stamped `hlc`, at `spot`. -/
def insertEntry (s : DocState) (spot : Spot) (entry : Entry) (hlc : Hlc) : DocState :=
  { s with
    entries := s.entries.insertIdx spot.at_ entry
    stamps := s.stamps.insertIdx spot.at_ hlc
    hidden := s.hidden.insertIdx spot.at_ false
    parents := s.parents.insertIdx spot.at_ spot.parent
    erasers := s.erasers.insertIdx spot.at_ false }.reindex

/-- Whether a same-file move stamped `hlc` of the entry in `slot` loses to its placement. -/
def isStaleMove (s : DocState) (slot : Nat) (hlc : Hlc) : Bool :=
  s.stamps[slot]?.any fun placed => hlc < placed

/-- Whether a `SetField` stamped `hlc` is older than the one the field already took. -/
def isStaleField (s : DocState) (task : TaskId) (field : Field) (hlc : Hlc) : Bool :=
  (s.fieldStamps task field).any fun set => hlc < set

/-- Records that `task`'s `field` took a `SetField` stamped `hlc`. -/
def recordField (s : DocState) (task : TaskId) (field : Field) (hlc : Hlc) : DocState :=
  { s with fieldStamps := fun t f => if t = task ∧ f = field then some hlc else s.fieldStamps t f }

/-! ## Description histories -/

/-- Puts `history` under `task`. -/
def setHistory (s : DocState) (task : TaskId) (history : Option TextHistory) : DocState :=
  { s with textHistory := setKey s.textHistory task history }

/-- Drops `task`'s description history. -/
def forgetText (s : DocState) (task : TaskId) : DocState := s.setHistory task none

/-- `task`'s history, begun from `current` when there is none. -/
def historyOr (s : DocState) (task : TaskId) (current : Text) : TextHistory :=
  (s.textHistory task).getD (TextHistory.new current)

/-- `edits` on `task`'s description, which is `current` now: the description to hold. -/
def editDescription (s : DocState) (task : TaskId) (current : Text) (hlc : Hlc)
    (edits : List TextEdit) : DocState × Except TextEditError Text :=
  let (h, text) := (s.historyOr task current).apply current hlc edits taskEdits
  (s.setHistory task (some h), text)

/-- `task`'s description given `pri:<letter>`: added by a completion or swapped by a newer
priority. -/
def setPriInDescription (s : DocState) (task : TaskId) (current : Text) (hlc : Hlc)
    (letter : Char) (add : Bool) : DocState × Option Text :=
  if add then
    let (h, text) := (s.historyOr task current).setPri current hlc letter taskEdits
    (s.setHistory task (some h), some text)
  else
    let (h, text) := (s.historyOr task current).swapPri letter applyTextEdits
    (s.setHistory task (some h), text)

/-- `task`'s description with no `pri:` from any completion. -/
def clearPriInDescription (s : DocState) (task : TaskId) (current : Text) : DocState × Text :=
  match (s.historyOr task current).clearPri applyTextEdits with
  | (h, some text) => (s.setHistory task (some h), text)
  | (_, none) => (s.forgetText task, Txtodo.removeTag current "pri".toList)

/-- `task`'s description with its first `key:` tag removed. -/
def removeTagInDescription (s : DocState) (task : TaskId) (current : Text) (hlc : Hlc)
    (key : Text) : DocState × Text :=
  let (h, text) := (s.historyOr task current).removeTag current hlc key taskEdits
  (s.setHistory task (some h), text)

/-! ## Scratch stamps -/

/-- `stamp` with the scratch stamp replaced by `real`. -/
def settleStamp (scratch real stamp : Hlc) : Hlc := if stamp = scratch then real else stamp

def Life.settle (l : Life) (scratch real : Hlc) : Life :=
  ⟨l.died.map (settleStamp scratch real), l.reborn.map (settleStamp scratch real)⟩

/-- After a commit: whatever a scratch replay placed takes the commit's stamp. -/
def settleScratchStamps (s : DocState) (hlc : Hlc) : DocState :=
  { s with
    stamps := s.stamps.map (settleStamp scratchStamp hlc)
    parents := s.parents.map (Option.map fun p => (p.1, settleStamp scratchStamp hlc p.2))
    fieldStamps := fun t f => (s.fieldStamps t f).map (settleStamp scratchStamp hlc)
    textHistory := fun t => (s.textHistory t).map fun h => h.settle scratchStamp hlc
    life := fun t => (s.life t).map fun l => Life.settle l scratchStamp hlc }

end DocState

end Txtodo
