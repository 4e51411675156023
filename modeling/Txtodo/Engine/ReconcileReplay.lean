import Txtodo.Engine.Reconcile
import Txtodo.Engine.StateApply
import Txtodo.Std.Loop

/-!
# What a reconcile commits

`reconcile_replay.rs`: the reconciler's ops when they replay to its render; else ops synthesized one by
one on a scratch copy; else the text itself, adopted. `none` on the outside stands for a run that a bound
on the turns of the blank loop cut short.
-/

namespace Txtodo

/-- What a reconcile commits. -/
structure Settled where
  /-- The ops, not yet stamped. -/
  kinds : List OpKind
  /-- The state they land on. -/
  next : DocState
  /-- Replaying `kinds` on the current state renders the target byte for byte. -/
  exact_ : Bool
  synthesized : Bool

namespace DocState

/-- `kind` applied as the newest op. -/
def applyNewest (s : DocState) (kind : OpKind) : Option DocState :=
  match s.apply (scratchOp s.path kind) with
  | ⟨s, .ok ()⟩ => some s
  | ⟨_, .error _⟩ => none

/-- `ops` applied in order to a copy of the state, each as the newest; `none` at the first that does not
apply. -/
def replayNewest (s : DocState) (ops : List OpKind) : Option DocState := ops.foldlM applyNewest s

/-- Every task's id and line, in file order. -/
def taskLines (s : DocState) : List (TaskId × OwnedLine) :=
  s.visibleEntries.filterMap fun e => e.id.map fun id => (id, e.line)

/-- The line of a task, if it is in the document. -/
def lineOf (s : DocState) (id : TaskId) : Option OwnedLine := (s.liveSlot id).bind s.slotLine

/-- Whether the line at `i` is a blank. -/
def isBlankAt (s : DocState) (i : Nat) : Bool := (s.entryAt i).any Entry.isBlank

/-- How many tasks are before line `i`. -/
def tasksBefore (s : DocState) (i : Nat) : Nat :=
  ((List.range i).filter fun j => !s.isBlankAt j).length

/-- How many blanks follow `after`, the task or the top of the document. -/
def blanksAfter (s : DocState) (after : Option TaskId) : Option Nat :=
  let start : Option Nat := match after with
    | none => some 0
    | some id => (s.indexOf id).map (· + 1)
  start.map fun start =>
    (((List.range s.visible.length).drop start).takeWhile s.isBlankAt).length

/-- Whether the two documents show the same lines. -/
def sameLines (s target : DocState) : Bool :=
  s.visible.length = target.visible.length &&
    (List.range target.visible.length).all fun i => s.entryAt i = target.entryAt i

end DocState

/-! ## Synthesis -/

/-- How a task whose line changed is carried over. -/
inductive Changed where
  | fields
  | reinsert
  deriving DecidableEq

/-- One synthesis pass, each op applied to `work` as it is made. -/
structure Pass where
  work : DocState
  ops : List OpKind

namespace Pass

/-- Applies an op to the copy and keeps it. -/
def push (pass : Pass) (kind : OpKind) : Option Pass :=
  (pass.work.applyNewest kind).map fun work => ⟨work, pass.ops ++ [kind]⟩

/-- The op that deletes a task. -/
def delete (id : TaskId) : Option OpKind := OpKind.setFieldOf id .deleted (.bool true)

/-- Pushes the op that deletes `id`. -/
def pushDelete (pass : Pass) (id : TaskId) : Option Pass := (delete id).bind pass.push

/-- One task of the current document: deleted when the target lacks it, changed when its line did. -/
def carry (target : DocState) (how : Changed) (pass : Pass) (task : TaskId × OwnedLine) :
    Option Pass :=
  match target.lineOf task.1 with
  | none => pass.pushDelete task.1
  | some new =>
    if new = task.2 then some pass
    else if how = .reinsert then pass.pushDelete task.1
    else (changeOps task.2 new task.1).foldlM push pass

/-- Tasks the target lacks are deleted; a task whose line changed gets field ops, or is deleted here and
inserted again by `placeTasks`. -/
def deleteAndChange (pass : Pass) (current target : DocState) (how : Changed) : Option Pass :=
  current.taskLines.foldlM (carry target how) pass

/-- The `k`-th target task, after `prev`: stays when it has `k` tasks before it, else moves; a missing one
is inserted. -/
def place (path : FilePath) (pass : Pass) (k : Nat) (prev : Option TaskId) (id : TaskId)
    (line : OwnedLine) : Option Pass :=
  match pass.work.indexOf id with
  | some at_ =>
    if pass.work.tasksBefore at_ = k then some pass else pass.push (.move id prev path)
  | none => line.raw.bind fun raw => pass.push (.insert id prev raw)

/-- The tasks from the `k`-th on, top-down. -/
def placeFrom (path : FilePath) : Pass → Nat → Option TaskId → List (TaskId × OwnedLine) → Option Pass
  | pass, _, _, [] => some pass
  | pass, k, prev, (id, line) :: rest =>
    (pass.place path k prev id line).bind fun pass => placeFrom path pass (k + 1) (some id) rest

def placeTasks (pass : Pass) (target : DocState) : Option Pass :=
  placeFrom target.path pass 0 none target.taskLines

/-- One turn of the loop that evens out the blanks after `after`. -/
def evenTurn (after : Option TaskId) (want : Nat) (pass : Pass) : Pass ⊕ Option Pass :=
  match pass.work.blanksAfter after with
  | none => .inr none
  | some have_ =>
    if have_ = want then .inr (some pass)
    else
      match pass.push (if have_ < want then .blankInsert after else .blankRemove after) with
      | none => .inr none
      | some pass => .inl pass

/-- With the tasks in order, each run of blanks is brought to the target's length, in at most `fuel`
turns each. -/
def evenRuns (fuel : Nat) (target : DocState) : Pass → List (Option TaskId) → Option (Option Pass)
  | pass, [] => some (some pass)
  | pass, after :: rest =>
    match target.blanksAfter after with
    | none => some none
    | some want =>
      match loop (evenTurn after want) fuel pass with
      | none => none
      | some none => some none
      | some (some pass) => evenRuns fuel target pass rest

def evenBlanks (fuel : Nat) (pass : Pass) (target : DocState) : Option (Option Pass) :=
  evenRuns fuel target pass (none :: target.taskLines.map fun task => some task.1)

end Pass

/-- Ops that take `current` to `target`'s lines one way, and the copy they produced. -/
def synthesize (fuel : Nat) (current target : DocState) (how : Changed) :
    Option (Option (List OpKind × DocState)) :=
  match (Pass.mk current []).deleteAndChange current target how with
  | none => some none
  | some pass =>
    match pass.placeTasks target with
    | none => some none
    | some pass =>
      (pass.evenBlanks fuel target).map fun pass =>
        pass.bind fun pass =>
          if pass.work.sameLines target then some (pass.ops, pass.work) else none

/-- Ops taking `current` to `target`'s lines, and the copy they produced: field ops for the changed lines
first, then inserts again. -/
def replayableOps (fuel : Nat) (current target : DocState) :
    Option (Option (List OpKind × DocState)) :=
  match synthesize fuel current target .fields with
  | none => none
  | some (some found) => some (some found)
  | some none => synthesize fuel current target .reinsert

/-- The reconciler's ops `r` when `replayed`, the copy they leave, renders its file. -/
def settleReplayed (r : Reconciled) (replayed : Option DocState) : Option Settled :=
  replayed.bind fun next =>
    if next.toBytes = r.file.toBytes then some ⟨r.ops, next, true, false⟩ else none

/-- What is committed once the synthesis found `found` for `adopted`, the document read from the text. -/
def settleAdopted (s : DocState) (r : Reconciled) (adopted : DocState)
    (found : Option (List OpKind × DocState)) : Settled :=
  match found with
  | none => ⟨r.ops, adopted.adoptStamps s, false, false⟩
  | some (kinds, work) =>
    if work.toBytes = r.file.toBytes then ⟨kinds, work, true, true⟩
    else ⟨kinds, adopted.adoptStamps work, false, true⟩

/-- The reconciler's ops when they replay to its render, else synthesized ops, else the text adopted. -/
def settle (fuel : Nat) (s : DocState) (r : Reconciled) : Option (Except StateError Settled) :=
  match settleReplayed r (s.replayNewest r.ops) with
  | some settled => some (.ok settled)
  | none =>
    match DocState.fromFile s.path r.file r.ids s.mode with
    | .error e => some (.error e)
    | .ok adopted => (replayableOps fuel s adopted).map fun found =>
        .ok (settleAdopted s r adopted found)

end Txtodo
