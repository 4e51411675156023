import Txtodo.Engine.Reachable
import Txtodo.Std.OrdMap

/-!
# Ops that wait

`sync_park.rs`: an op that names a task this document has never held waits, its whole commit group
with it, and is retried once a later group touches a task it names.
-/

/-!
## Applying a batch

`apply_leniently` (`apply.rs`): a peer's ops applied one commit group at a time, tolerant of order
inside one commit. It and the parking (`sync_park.rs`) use two operations of a document.
-/

namespace Txtodo

/-- What the sync path uses of a document: `apply` changes it and says whether the op applied. -/
class Document (σ : Type) where
  apply : σ → Op → σ × Except StateError Unit
  hasPlacement : σ → TaskId → Bool

instance : Document DocState where
  apply s op := ((s.apply op).state, (s.apply op).result)
  hasPlacement := DocState.hasPlacement

/-- A document that keeps the ops that applied, in order. -/
structure Logged (σ : Type) where
  doc : σ
  log : List Op

/-- Applies `op`, logged when it applied. -/
def Logged.apply {σ : Type} [Document σ] (s : Logged σ) (op : Op) :
    Logged σ × Except StateError Unit :=
  match Document.apply s.doc op with
  | (doc, .ok ()) => (⟨doc, s.log ++ [op]⟩, .ok ())
  | (doc, .error e) => (⟨doc, s.log⟩, .error e)

instance {σ : Type} [Document σ] : Document (Logged σ) where
  apply := Logged.apply
  hasPlacement s := Document.hasPlacement s.doc

section

variable {σ : Type} [Document σ]

/-- Each op applied in turn: the document and the ops that failed, with why. -/
def applyEach (state : σ) : List Op → σ × List (Op × StateError)
  | [] => (state, [])
  | op :: ops =>
    match Document.apply state op with
    | (state, .ok ()) => applyEach state ops
    | (state, .error e) => ((applyEach state ops).1, (op, e) :: (applyEach state ops).2)

/-- The ops that fail are retried after the others until a round applies nothing new; `none` when the
rounds do not do. -/
def lenientRounds : Nat → σ → List Op → Option (σ × List (Op × StateError))
  | 0, _, _ => none
  | rounds + 1, state, pending =>
    let (state, failed) := applyEach state pending
    if failed.isEmpty || failed.length = pending.length then some (state, failed)
    else lenientRounds rounds state (failed.map (·.1))

/-- The ops of one commit group after another: runs of equal stamps. -/
def commitGroups (ops : List Op) : List (List Op) := ops.splitBy fun a b => a.hlc = b.hlc

/-- Applies one commit group after the ops that were skipped so far. -/
def lenientGroup (acc : σ × List (Op × StateError)) (group : List Op) :
    Option (σ × List (Op × StateError)) := do
  let (state, failed) ← lenientRounds (group.length + 1) acc.1 group
  return (state, acc.2 ++ failed)

/-- `apply_leniently`: the document and the ops that never applied, with why. -/
def applyLeniently (state : σ) (ops : List Op) : Option (σ × List (Op × StateError)) :=
  (commitGroups ops).foldlM lenientGroup (state, [])

end

end Txtodo

namespace Txtodo

/-- Most ops one document keeps waiting. -/
def MAX_PARKED_OPS : Nat := 10000

/-- The task an op acts on (none for an insert) and the one it is placed after in this document. -/
def names (op : Op) : Option TaskId × Option TaskId :=
  match op.kind with
  | .insert _ after _ => (none, after)
  | .move task after toFile => (some task, after.filter fun _ => toFile = op.file)
  | .setField task _ _ | .editText task _ | .removeTag task _ => (some task, none)
  | .blankInsert after | .blankRemove after => (none, after)
  | .notesEdit .. => (none, none)

/-- The tasks of `names`. -/
def named (op : Op) : List TaskId := (names op).1.toList ++ (names op).2.toList

/-- The task an op places or changes, insert included. -/
def subject (kind : OpKind) : Option TaskId :=
  match kind with
  | .insert task _ _ | .setField task _ _ | .editText task _ | .removeTag task _ | .move task _ _ =>
    some task
  | .notesEdit .. | .blankInsert _ | .blankRemove _ => none

/-- For a waiting op's recorded reason: the first task it names. -/
def firstName (op : Op) : TaskId := ((names op).1.or (names op).2).getD ⟨0, by decide⟩

/-- The task an insert brings. -/
def insertedTask (op : Op) : Option TaskId :=
  match op.kind with
  | .insert task _ _ => some task
  | _ => none

/-- Ops waiting, by arrival number, each with the error it last gave; the numbers of those that name
each task and of those of each stamp; the stamps of the groups parked whole. -/
structure Parked where
  ops : OrdMap Nat (Op × StateError)
  next : Nat
  byTask : TaskId → Option (OrdSet Nat)
  byStamp : Hlc → Option (OrdSet Nat)
  whole : OrdSet Hlc

/-- Ops skipped for good, and how many waiting ops landed. -/
structure Parking where
  skipped : List (Op × StateError)
  landed : Nat

/-- `m` with `n` in the set under `k`. -/
def listUnder {κ : Type} [DecidableEq κ] (n : Nat) (m : κ → Option (OrdSet Nat)) (k : κ) :
    κ → Option (OrdSet Nat) :=
  setKey m k (some (((m k).getD .empty).insert n))

/-- `m` without `n` in the set under `k`; a set left empty goes. -/
def unlistUnder {κ : Type} [DecidableEq κ] (n : Nat) (m : κ → Option (OrdSet Nat)) (k : κ) :
    κ → Option (OrdSet Nat) :=
  setKey m k (((m k).map (OrdSet.erase n)).filter fun s => !s.isEmpty)

namespace Parked

/-- No op waits. -/
def empty : Parked := ⟨.empty, 0, fun _ => none, fun _ => none, .empty⟩

/-- The ops that wait, oldest first. -/
def waiting (p : Parked) : List Op := p.ops.items.map fun e => e.2.1

/-- Waits `op` at number `n`. -/
def put (p : Parked) (n : Nat) (op : Op) (e : StateError) : Parked :=
  { p with
    byTask := (named op).foldl (listUnder n) p.byTask
    byStamp := listUnder n p.byStamp op.hlc
    ops := p.ops.insert n (op, e) }

/-- Takes the op at number `n` out, when one waits there. -/
def take (p : Parked) (n : Nat) : Option (Parked × Op × StateError) :=
  (p.ops.find? n).map fun (op, e) =>
    let byStamp := unlistUnder n p.byStamp op.hlc
    let whole :=
      if (p.byStamp op.hlc).isSome && (byStamp op.hlc).isNone then p.whole.erase op.hlc else p.whole
    ({ p with
      ops := p.ops.erase n
      byStamp := byStamp
      whole := whole
      byTask := (named op).foldl (unlistUnder n) p.byTask }, op, e)

/-- Takes the ops at the numbers of `group` out. -/
def takeAll (p : Parked) (group : List Nat) : Parked :=
  group.foldl (fun p n => (p.take n).elim p (·.1)) p

/-- The ops of `group` at their numbers. -/
def numbered (p : Parked) (group : List Nat) : List (Nat × Op) :=
  group.filterMap fun n => (p.ops.find? n).map fun e => (n, e.1)

/-- Takes the commit group `group` out to retry it: what comes back of it no longer waits whole. -/
def takeGroup (p : Parked) (group : List Nat) : Parked :=
  let q := p.takeAll group
  match (p.numbered group).head? with
  | some (_, op) => { q with whole := q.whole.erase op.hlc }
  | none => q

/-- Waits `op` last; past the bound the oldest is skipped. -/
def push (p : Parked) (op : Op) (e : StateError) (skipped : List (Op × StateError)) :
    Parked × List (Op × StateError) :=
  let p := { p with next := p.next + 1 }.put (p.next + 1) op e
  if MAX_PARKED_OPS < p.ops.length then
    match p.ops.firstKey?.bind p.take with
    | some (p, dropped) => (p, skipped ++ [dropped])
    | none => (p, skipped)
  else (p, skipped)

/-- The waiting ops that name one of `tasks`. -/
def naming (p : Parked) (tasks : List TaskId) : OrdSet Nat :=
  tasks.foldl (fun s t => ((p.byTask t).getD .empty).union s) .empty

/-- The numbers of the commit group `n` is in, in arrival order. -/
def groupOf (p : Parked) (n : Nat) : List Nat :=
  match p.ops.find? n with
  | none => []
  | some (op, _) => ((p.byStamp op.hlc).map OrdSet.items).getD []

/-- Whether part of the commit group stamped `hlc` waits whole. -/
def waitsWhole (p : Parked) (hlc : Hlc) : Bool := decide (hlc ∈ p.whole)

end Parked

section

variable {σ : Type} [Document σ]

/-- Whether some op of `group` names a task without a placement that the group does not insert. -/
def needsAMissingTask (state : σ) (group : List Op) : Bool :=
  let inserted := group.filterMap insertedTask
  group.any fun op => (named op).any fun id =>
    decide (id ∉ inserted) && !Document.hasPlacement state id

/-- Whether an op that failed with `e` may fit later. -/
def waits (state : σ) (e : StateError) : Bool :=
  match e with
  | .unknownTask id => !Document.hasPlacement state id
  | .text .. => true
  | _ => false

/-- The ops of `ops` that did not fail. -/
def landedOf (ops : List Op) (failed : List (Op × StateError)) : List Op :=
  ops.filter fun op => !failed.any fun f => f.1.id = op.id

/-- What the parking works on: the document, the queue and what it did. -/
structure Session (σ : Type) where
  state : σ
  parked : Parked
  out : Parking

namespace Session

def skip (x : Session σ) (op : Op) (e : StateError) : Session σ :=
  { x with out := { x.out with skipped := x.out.skipped ++ [(op, e)] } }

/-- Waits `op` last. -/
def push (x : Session σ) (op : Op) (e : StateError) : Session σ :=
  let (parked, skipped) := x.parked.push op e x.out.skipped
  { x with parked := parked, out := { x.out with skipped := skipped } }

/-- An op of a retried group that failed: back at its number in `ops` if it may fit later, else
skipped. -/
def putBack (ops : List (Nat × Op)) (x : Session σ) (failed : Op × StateError) : Session σ :=
  match ops.find? fun o => o.2.id = failed.1.id with
  | some (n, _) =>
    if waits x.state failed.2 then { x with parked := x.parked.put n failed.1 failed.2 }
    else x.skip failed.1 failed.2
  | none => x.skip failed.1 failed.2

/-- One waiting group: where it was unless it applies; the tasks its landed ops touched. -/
def retryGroup (x : Session σ) (group : List Nat) : Option (Session σ × List TaskId) :=
  let ops := x.parked.numbered group
  let bare := ops.map (·.2)
  if needsAMissingTask x.state bare then some (x, [])
  else do
    let (state, failed) ← applyLeniently x.state bare
    let landed := landedOf bare failed
    let out := { x.out with landed := x.out.landed + landed.length }
    return (failed.foldl (putBack ops) ⟨state, x.parked.takeGroup group, out⟩,
      landed.filterMap fun op => subject op.kind)

/-- One round: the groups in `round` from `pos` on, oldest first; a group a landing makes ready joins
it when it comes later, else `later`. -/
def retryRound : Nat → Nat → OrdSet Nat → OrdSet Nat → Session σ → Option (OrdSet Nat × Session σ)
  | 0, _, _, _, _ => none
  | steps + 1, pos, round, later, x =>
    match (round.filter fun k => pos ≤ k).first? with
    | none => some (later, x)
    | some n => do
      let group := x.parked.groupOf n
      let round := round.filter fun k => k ∉ group
      let (x, touched) ← x.retryGroup group
      let ready := x.parked.naming touched
      retryRound steps (n + 1) ((ready.filter fun k => n + 1 ≤ k).union round)
        ((ready.filter fun k => k < n + 1).union later) x

/-- Round after round until none is left; `none` when the rounds do not do. -/
def retryRounds : Nat → OrdSet Nat → Session σ → Option (Session σ)
  | 0, _, _ => none
  | rounds + 1, round, x =>
    if round.isEmpty then some x
    else do
      let (later, x) ← retryRound (x.parked.next + 2) 0 round .empty x
      retryRounds rounds later x

/-- Retries the waiting groups naming a task in `touched`. -/
def retry (x : Session σ) (touched : List TaskId) : Option (Session σ) :=
  retryRounds (x.parked.ops.length + 2) (x.parked.naming touched) x

/-- An op of a new group that failed: waits alone if it may fit later, else skipped. -/
def requeue (x : Session σ) (failed : Op × StateError) : Session σ :=
  if waits x.state failed.2 then x.push failed.1 failed.2 else x.skip failed.1 failed.2

/-- Whether `group` is parked whole: part of it waits so already, or it needs a task not here. -/
def parks (x : Session σ) (group : List Op) : Bool :=
  (group.head?.any fun op => x.parked.waitsWhole op.hlc) || needsAMissingTask x.state group

/-- Waits `op` with its whole group. -/
def pushWhole (x : Session σ) (op : Op) : Session σ :=
  { x with parked := { x.parked with whole := x.parked.whole.insert op.hlc } }.push op
    (.unknownTask (firstName op))

/-- One commit group. -/
def parkGroup (x : Session σ) (group : List Op) : Option (Session σ) :=
  if x.parks group then some (group.foldl pushWhole x)
  else do
    let (state, failed) ← applyLeniently x.state group
    let touched := (landedOf group failed).filterMap fun op => subject op.kind
    let x := failed.foldl requeue { x with state := state }
    if touched.isEmpty then return x else x.retry touched

end Session

/-- `apply_parking`. -/
def applyParking (state : σ) (ops : List Op) (parked : Parked) : Option (Session σ) :=
  (commitGroups ops).foldlM Session.parkGroup ⟨state, parked, ⟨[], 0⟩⟩

end

/-! ## What a queue keeps -/

namespace Parked

/-- `m` lists, under each key, exactly the numbers of the waiting ops that carry it. -/
structure Indexes {κ : Type} (m : κ → Option (OrdSet Nat)) (keys : Op → List κ)
    (ops : OrdMap Nat (Op × StateError)) : Prop where
  mem : ∀ k n, n ∈ (m k).getD .empty ↔ ∃ op e, (n, op, e) ∈ ops.items ∧ k ∈ keys op
  nonempty : ∀ k s, m k = some s → s.isEmpty = false

/-- The indexes list the waiting ops, and every stamp parked whole has one. -/
structure Indexed (p : Parked) : Prop where
  byTask : Indexes p.byTask named p.ops
  byStamp : Indexes p.byStamp (fun op => [op.hlc]) p.ops
  whole : ∀ h ∈ p.whole, ∃ n op e, (n, op, e) ∈ p.ops.items ∧ op.hlc = h

/-- Besides, no number was given out ahead of `next` and not too many ops wait. -/
structure Valid (p : Parked) : Prop extends Indexed p where
  fresh : ∀ n op e, (n, op, e) ∈ p.ops.items → n ≤ p.next
  bound : p.ops.length ≤ MAX_PARKED_OPS

/-- A queue that calls of `apply_parking` leave, on any documents, when no two ops have one id. -/
inductive Built : Parked → Prop
  | empty : Built .empty
  | parked {p : Parked} {state : DocState} {ops : List Op} {x : Session DocState} :
      Built p → ((p.waiting ++ ops).map Op.id).Nodup → applyParking state ops p = some x →
      Built x.parked

end Parked

namespace Session

variable {σ : Type}

/-- The session on the document without its log. -/
def plain (x : Session (Logged σ)) : Session σ := ⟨x.state.doc, x.parked, x.out⟩

/-- Every op of the session, where it is now: applied, waiting or skipped. -/
def total (x : Session (Logged σ)) : List Op :=
  x.state.log ++ x.parked.waiting ++ x.out.skipped.map Prod.fst

end Session

/-!
## Groups left waiting

A commit group is stranded when it waits whole although nothing it names is missing. The runs of
`apply_parking` in which each group that is parked still misses a task, and each group that waits whole
still does when the document changes by other means.
-/

/-- The waiting ops of the commit group stamped `hlc`. -/
def Parked.waitingOf (p : Parked) (hlc : Hlc) : List Op := p.waiting.filter fun op => op.hlc = hlc

section

variable {σ : Type} [Document σ]

/-- The group stamped `hlc` waits whole, and its waiting ops name no task that is missing. -/
def Stranded (state : σ) (p : Parked) (hlc : Hlc) : Prop :=
  hlc ∈ p.whole ∧ needsAMissingTask state (p.waitingOf hlc) = false

/-- Each group that waits whole names a task that `state` has no placement of and that none of its waiting
ops inserts. -/
def Parked.AllMiss (p : Parked) (state : σ) : Prop :=
  ∀ hlc ∈ p.whole, needsAMissingTask state (p.waitingOf hlc) = true

namespace Session

/-- If `group` is parked, it and what waits of its stamp still miss a task. -/
def ParksIncomplete (x : Session σ) (group : List Op) : Prop :=
  x.parks group = true →
    ∀ op ∈ group, needsAMissingTask x.state (x.parked.waitingOf op.hlc ++ group) = true

/-- Each of `groups`, taken in turn, is still incomplete when it is parked. -/
def AllParkIncomplete : Session σ → List (List Op) → Prop
  | _, [] => True
  | x, group :: groups =>
    x.ParksIncomplete group ∧ ∀ x', x.parkGroup group = some x' → x'.AllParkIncomplete groups

end Session

end

/-- Calls of `apply_parking` from no op waiting, on a document that local edits and other paths change
between the calls: the ops passed in, the document and the queue. No such change brings a group that
waits whole the last task it misses. -/
inductive ParkRun : List Op → DocState → Parked → Prop
  | start {state : DocState} : state.Reachable → ParkRun [] state .empty
  | change {past : List Op} {state state' : DocState} {p : Parked} :
      ParkRun past state p → state'.Reachable → p.AllMiss state' → ParkRun past state' p
  | call {past ops : List Op} {state : DocState} {p : Parked} {x : Session DocState} :
      ParkRun past state p →
      Session.AllParkIncomplete ⟨state, p, ⟨[], 0⟩⟩ (commitGroups ops) →
      applyParking state ops p = some x → ParkRun (past ++ ops) x.state x.parked

end Txtodo
