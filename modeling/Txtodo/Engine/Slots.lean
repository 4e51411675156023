import Txtodo.Engine.StateApply

/-!
# The document by slots

The five vectors written together: what an operation does to them is what it does to one list of
slots. `Aligned` says the vectors and the shown slots are in step.
-/

namespace Txtodo

namespace DocState

/-- The document whose five vectors are the columns of `xs`. -/
def withSlots (s : DocState) (xs : List Slot) : DocState :=
  { s with
    entries := xs.map Slot.entry
    stamps := xs.map Slot.stamp
    hidden := xs.map Slot.hidden
    parents := xs.map Slot.parent
    erasers := xs.map Slot.eraser }.reindex

/-- The five vectors have one length and `visible` lists the slots not hidden. -/
structure Aligned (s : DocState) : Prop where
  stamps_length : s.stamps.length = s.entries.length
  hidden_length : s.hidden.length = s.entries.length
  parents_length : s.parents.length = s.entries.length
  erasers_length : s.erasers.length = s.entries.length
  visible_eq : s.visible = (List.range s.entries.length).filter fun i => s.hidden[i]? = some false

/-- The metadata of the tasks with a placement in `xs` only. -/
def forgetAbsent (s : DocState) (xs : List Slot) : DocState :=
  { s with
    fieldStamps := fun t f => if Slots.hasPlacement xs t then s.fieldStamps t f else none
    textHistory := fun t => if Slots.hasPlacement xs t then s.textHistory t else none
    life := fun t => if Slots.hasPlacement xs t then s.life t else none }

end DocState

/-- The slot of a line nothing placed. -/
def Slot.ofEntry (entry : Entry) : Slot := ⟨entry, unplaced, false, none, false⟩

/-- The slot with another entry. -/
def Slot.withEntry (entry : Entry) (x : Slot) : Slot := { x with entry := entry }

/-- The slot shown or hidden. -/
def Slot.withHidden (hidden : Bool) (x : Slot) : Slot := { x with hidden := hidden }

/-- The slot under another parent. -/
def Slot.withParent (parent : Parent) (x : Slot) : Slot := { x with parent := parent }

/-- The slot with `stamp` for its own and its parent's where those are the scratch stamp. -/
def Slot.settle (stamp : Hlc) (x : Slot) : Slot :=
  { x with
    stamp := DocState.settleStamp scratchStamp stamp x.stamp
    parent := x.parent.map fun p => (p.1, DocState.settleStamp scratchStamp stamp p.2) }

namespace Slots

/-- `DocState.moveBlock` on slots. -/
def moveBlock (xs : List Slot) (head : Nat) (task : TaskId) (placed : Hlc) : Option (List Slot) :=
  (blockSpot xs head task placed).map fun (stop, at_) =>
    moveRange head stop at_ (fun block => block.modify 0 (Slot.withParent (some (task, placed)))) xs

/-- `DocState.rehomePasses` on slots. -/
def rehomePasses (task : TaskId) (placed : Hlc) : Nat → List Slot → List Slot
  | 0, xs => xs
  | n + 1, xs =>
    match (lastHead xs task placed).bind fun head => moveBlock xs head task placed with
    | none => xs
    | some xs => rehomePasses task placed n xs

/-- `DocState.rehomeOnto` on slots. -/
def rehomeOnto (xs : List Slot) (task : TaskId) (placed : Hlc) : List Slot :=
  rehomePasses task placed xs.length xs

/-- A blank is hidden exactly when `claimed`; other slots stay. -/
def settleBlank (claimed : List Nat) (x : Slot × Nat) : Slot :=
  if x.1.isBlank && !x.1.eraser then x.1.withHidden (decide (x.2 ∈ claimed)) else x.1

/-- `DocState.settleErasers` on slots. -/
def settleErasers (xs : List Slot) : List Slot :=
  if xs.any Slot.eraser then xs.zipIdx.map (settleBlank ((claims xs).map (·.2))) else xs

/-- `DocState.showNewest` on slots. -/
def showNewest (xs : List Slot) (task : TaskId) (added : Nat) : List Slot :=
  let newest := (Iter.maxByKey (fun x => toLex (x.1.stamp, decide (x.2 = added)))
    (placements xs task)).map (·.2)
  let live := liveSlot xs task
  if newest = live then xs
  else
    let left := live.elim xs fun l => xs.modify l (Slot.withHidden true)
    newest.elim left fun n => left.modify n (Slot.withHidden false)

/-- Every placement of `task` holds `line`. -/
def setLines (xs : List Slot) (task : TaskId) (line : OwnedLine) : List Slot :=
  xs.map fun x => if x.id = some task then x.withEntry (.task task line) else x

end Slots

end Txtodo
