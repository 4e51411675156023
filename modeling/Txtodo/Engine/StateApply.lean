import Txtodo.Engine.Fields

/-!
# Applying an op

An `Insert` of a task already here (`state_reinsert.rs`), the other placing ops and `DocState::apply`
(`state.rs`).
-/

namespace Txtodo

/-- The fields an insert again sets, in the order `rewritePrefix` takes them. -/
def PREFIX_FIELDS : List Field := [.completed, .completionDate, .creationDate, .priority]

/-- `line` with each of `fields` taken from `current`. -/
def keepFields (current : OwnedLine) : OwnedLine → List Field → Option OwnedLine
  | line, [] => some line
  | line, f :: rest => do
    let value ← fieldValue current f
    let line ← rewritePrefix line f value
    keepFields current line rest

/-- Whether an op can change which blank an eraser claims. -/
def reshapes : OpKind → Bool
  | .setField _ field _ => field = .deleted
  | .editText .. | .notesEdit .. | .removeTag .. => false
  | _ => true

namespace DocState

/-! ## Inserting again -/

/-- `inserted` with each prefix field a newer `SetField` set taken from `current`, and the description
its history holds once reset to the inserted one at `hlc`. -/
def mergedLine (s : DocState) (task : TaskId) (current inserted : OwnedLine) (hlc : Hlc) :
    DocState × Except StateError OwnedLine :=
  let kept := PREFIX_FIELDS.filter fun f => s.isStaleField task f hlc
  let taken := PREFIX_FIELDS.filter fun f => !s.isStaleField task f hlc
  match keepFields current inserted kept with
  | none => (s, .error (.unsupported "insert again over this line".toList))
  | some line =>
    match descriptionOf line with
    | none => (s, .error (.unsupported "a blank".toList))
    | some description =>
      let (h, held) := (s.historyOr task description).reset description hlc applyTextEdits
      let s := s.setHistory task (some h)
      match Edit.new.setDescription held with
      | .error _ => (s, .error (.unsupported "line break".toList))
      | .ok edit =>
        (taken.foldl (fun s f => s.recordField task f hlc) s, .ok (apply line edit))

/-- Shows `task` at its newest placement, the one in slot `added` on a tie. -/
def showNewest (s : DocState) (task : TaskId) (added : Nat) : DocState :=
  let newest := (Iter.maxByKey (fun x => toLex (x.1.stamp, decide (x.2 = added)))
    (Slots.placements s.slots task)).map (·.2)
  let live := s.liveSlot task
  if newest = live then s
  else
    let hidden := match live with
      | some l => s.hidden.set l true
      | none => s.hidden
    let hidden := match newest with
      | some n => hidden.set n false
      | none => hidden
    { s with hidden := hidden }.reindex

/-- Records an insert again of `task`. -/
def noteRebirth (s : DocState) (task : TaskId) (hlc : Hlc) : DocState :=
  let life := (s.life task).getD ⟨none, none⟩
  let reborn := life.reborn.elim hlc fun r => max r hlc
  { s with life := setKey s.life task (some { life with reborn := some reborn }) }

/-- Whether no delete of `task` newer than `hlc` landed. -/
def diedBefore (s : DocState) (task : TaskId) (hlc : Hlc) : Bool :=
  ((s.life task).bind Life.died).all fun d => d ≤ hlc

/-- Every placement of `task` holds `line`. -/
def setLines (s : DocState) (task : TaskId) (line : OwnedLine) : DocState :=
  { s with entries := s.entries.map fun e => if e.id = some task then .task task line else e }

/-- The state after an insert again at `spot` whose line is `merged`. -/
def placeAgain (s : DocState) (task : TaskId) (spot : Spot) (merged : OwnedLine) (hlc : Hlc) :
    DocState :=
  let wasLive := (s.liveSlot task).isSome
  let s := (s.insertEntry spot (.task task merged) hlc).hideEntry spot.at_
  let s := s.noteRebirth task hlc
  let s := if wasLive || s.diedBefore task hlc then s.showNewest task spot.at_ else s
  (s.setLines task merged).rehomeOnto task hlc

/-- An `Insert` of `task`, which already has a placement here. -/
def reinsert (s : DocState) (task : TaskId) (after : Option TaskId) (line : OwnedLine) (hlc : Hlc) :
    Outcome :=
  match s.slotAfter after hlc with
  | .error e => s.fails e
  | .ok spot =>
    match s.contentLine task with
    | none => s.fails (.unknownTask task)
    | some current =>
      match s.mergedLine task current line hlc with
      | (s, .error e) => s.fails e
      | (s, .ok merged) => (s.placeAgain task spot merged hlc).done

/-! ## Placing ops -/

def insert (s : DocState) (task : TaskId) (after : Option TaskId) (line : Text) (hlc : Hlc) :
    Outcome :=
  if MAX_LINES_PER_FILE < s.visible.length + 1 then s.fails (.tooManyLines (s.visible.length + 1))
  else
    let owned := OwnedLine.ofText line s.ending
    if s.mode = .tagged ∧ idOf owned ≠ some task then s.fails (.idMismatch task)
    else if s.hasPlacement task then s.reinsert task after owned hlc
    else
      match s.slotAfter after hlc with
      | .error e => s.fails e
      | .ok spot => (s.insertEntry spot (.task task owned) hlc).done

/-- Same file: the shown placement becomes a ghost and a new one goes after `after`; a move older than
it, or of a task already hidden, adds its spot as a ghost only. Another file: hides only. -/
def moveTask (s : DocState) (task : TaskId) (after : Option TaskId) (toFile : FilePath)
    (hlc : Hlc) : Outcome :=
  if toFile ≠ s.path then
    match s.liveSlot task with
    | some slot => (s.hideEntry slot).done
    | none => if s.hasPlacement task then s.done else s.fails (.unknownTask task)
  else if after = some task then s.fails (.unknownTask task)
  else
    match s.anchorSlot after hlc with
    | .error e => s.fails e
    | .ok _ =>
      match s.liveSlot task with
      | none => s.placeGhost task after hlc
      | some slot =>
        if s.isStaleMove slot hlc then s.placeGhost task after hlc
        else
          match s.entries[slot]? with
          | none => s.fails (.unknownTask task)
          | some entry =>
            let s := s.hideEntry slot
            match s.slotAfter after hlc with
            | .error e => s.fails e
            | .ok spot => ((s.insertEntry spot entry hlc).rehomeOnto task hlc).done

/-- The blank a `BlankInsert` or an eraser puts in the sequence. -/
def blankEntry (s : DocState) : Entry := .blank (OwnedLine.fromBytes [] s.ending)

def blankInsert (s : DocState) (after : Option TaskId) (hlc : Hlc) : Outcome :=
  if MAX_LINES_PER_FILE < s.visible.length + 1 then s.fails (.tooManyLines (s.visible.length + 1))
  else
    match s.slotAfter after hlc with
    | .error e => s.fails e
    | .ok spot => (s.insertEntry spot s.blankEntry hlc).done

/-- Places an eraser after the anchor. -/
def blankRemove (s : DocState) (after : Option TaskId) (hlc : Hlc) : Outcome :=
  match s.slotAfter after hlc with
  | .error e => s.fails e
  | .ok spot =>
    let s := s.insertEntry spot s.blankEntry hlc
    ({ s with erasers := s.erasers.set spot.at_ true }.hideEntry spot.at_).done

/-! ## Apply -/

/-- The op's own effect, before erasers are settled and ghosts pruned. -/
def applyKind (s : DocState) (op : Op) : Outcome :=
  match op.kind with
  | .insert task after line => s.insert task after line op.hlc
  | .setField task field value => s.setField task field value op.hlc
  | .editText task edits => s.editText task edits op.hlc
  | .removeTag task key => s.removeTag task key op.hlc
  | .move task after toFile => s.moveTask task after toFile op.hlc
  | .blankInsert after => s.blankInsert after op.hlc
  | .blankRemove after => s.blankRemove after op.hlc
  | .notesEdit .. => s.fails (.unsupported "NotesEdit".toList)

/-- The state an op that applied leaves before ghosts are pruned. -/
def settled (s : DocState) (op : Op) : DocState :=
  if reshapes op.kind then s.settleErasers else s

/-- `DocState::apply`. -/
def apply (s : DocState) (op : Op) : Outcome :=
  let out := s.applyKind op
  match out.result with
  | .error e => out.state.fails e
  | .ok () => (out.state.settled op).pruneGhosts.done

/-- Every op of a list applied in turn; one that fails is skipped. -/
def applyAll (s : DocState) (ops : List Op) : DocState :=
  ops.foldl (fun s op => (s.apply op).state) s

end DocState

end Txtodo
