import Txtodo.Engine.StateApply

/-!
# Refusals that come late

Two ops write the description's history before they check the line it gives: an `Insert` of a task
already here, and `Priority = None` on a done line.
-/

namespace Txtodo

namespace DocState

/-- The description an `Insert` of `inserted` over `task`'s line sets: the inserted one, its prefix
fields merged. `none` when the insert is refused before it touches the history. -/
def insertedDescription (s : DocState) (task : TaskId) (inserted : OwnedLine) (hlc : Hlc) :
    Option Text :=
  (s.contentLine task).bind fun current =>
    (keepFields current inserted (PREFIX_FIELDS.filter fun f => s.isStaleField task f hlc)).bind
      descriptionOf

/-- An `Insert` of a task already here whose reset history changes and then holds a line break. -/
def LateInsert (s : DocState) (task : TaskId) (after : Option TaskId) (line : Text) (hlc : Hlc) :
    Prop :=
  let inserted := OwnedLine.ofText line s.ending
  s.visible.length + 1 ≤ MAX_LINES_PER_FILE ∧ ¬(s.mode = .tagged ∧ idOf inserted ≠ some task) ∧
    s.hasPlacement task = true ∧ (s.slotAfter after hlc).isOk = true ∧
    ∃ description, s.insertedDescription task inserted hlc = some description ∧
      let reset := (s.historyOr task description).reset description hlc applyTextEdits
      (noLineBreak reset.2).isOk = false ∧ s.textHistory task ≠ some reset.1

/-- A `Priority = None` that wins on a done line whose description, without the `pri:` tags of its
history, is refused, the history changed. -/
def LateClear (s : DocState) (task : TaskId) (hlc : Hlc) : Prop :=
  s.isStaleField task .priority hlc = false ∧
    ∃ line description, s.contentLine task = some line ∧ doneDescription line = some description ∧
      let clear := s.clearPriInDescription task description
      (s.withDescription task line clear.2).isOk = false ∧
        clear.1.textHistory task ≠ s.textHistory task

/-- The ops that are refused after they changed a history. -/
def LateRefusal (s : DocState) (op : Op) : Prop :=
  match op.kind with
  | .insert task after line => s.LateInsert task after line op.hlc
  | .setField task .priority (.priority none) => s.LateClear task op.hlc
  | _ => False

/-- Each op of a run with the document it was applied to. -/
def steps (s : DocState) : List Op → List (DocState × Op)
  | [] => []
  | op :: ops => (s, op) :: (s.apply op).state.steps ops

/-- The ops of a run that applied. -/
def applied (s : DocState) : List Op → List Op
  | [] => []
  | op :: ops =>
    if (s.apply op).result.isOk then op :: (s.apply op).state.applied ops
    else (s.apply op).state.applied ops

end DocState

end Txtodo
