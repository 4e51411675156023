import Txtodo.Engine.Reconcile
import Mathlib.Data.List.Sort

/-!
# Reconciling without tags

`reconcile_sidecar.rs` and `identity_assign.rs`: lines are matched by their bytes, the rest by an
assignment of least cost; matched pairs out of order are moves, blanks are paired run by run; the four
passes of `reconcile` turn the diff into ops. The cost of a pair (floats, scaled to integers) and the
assignment solver come from outside.
-/

namespace Txtodo

/-- What sidecar identity takes from outside: the scaled cost of pairing two tasks at their task-line
indices in files of at most so many tasks, and the solver, which gives each row its column. -/
structure Identity where
  pairCost : Task × Nat → Task × Nat → Nat → Int
  kuhnMunkresMin : Nat → (Nat → Nat → Int) → List Nat

/-- Cost of a pair with padding, `scaled(PADDING_COST)`. -/
def PADDING_COST : Int := 1000 * 1000000

/-- A match costs less than this, `scaled(match_threshold)`. -/
def MATCH_THRESHOLD : Int := 5 * 1000000

/-- How the tasks left over were assigned. -/
structure Assignment where
  matched : List (TaskId × Nat)
  deleted : List TaskId
  inserted : List Nat

/-- `assign`: each old task is matched with its column when the pair is cheap enough, else deleted; the
columns no task matched are inserted. -/
def assign (k : Identity) (old : List (TaskId × (Task × Nat))) (new : List (Task × Nat))
    (maxTaskCount : Nat) : Assignment :=
  let n := max old.length new.length
  let pairCost (row col : Nat) : Int :=
    match old[row]?, new[col]? with
    | some o, some f => k.pairCost o.2 f maxTaskCount
    | _, _ => PADDING_COST
  let columns := k.kuhnMunkresMin n pairCost
  let accepted (row col : Nat) : Bool := col < new.length && pairCost row col < MATCH_THRESHOLD
  let rows := old.zipIdx.filterMap fun (o, row) => columns[row]?.map fun col => (o.1, row, col)
  let matched := (rows.filter fun r => accepted r.2.1 r.2.2).map fun r => (r.1, r.2.2)
  { matched := matched
    deleted := (rows.filter fun r => !accepted r.2.1 r.2.2).map (·.1)
    inserted := (List.range new.length).filter fun i => i ∉ matched.map (·.2) }

/-- A file and its lines' task ids. -/
structure Side where
  file : File
  ids : List (Option TaskId)

namespace Side

/-- The id of the line at `raw`. -/
def idAt (side : Side) (raw : Nat) : Option TaskId := side.ids[raw]?.join

/-- The task lines with an id: the task and its row, in order. -/
def order (side : Side) : List (TaskId × Nat) :=
  side.file.lines.zipIdx.filterMap fun (line, raw) =>
    if isTask line then (side.idAt raw).map fun task => (task, raw) else none

/-- The rows of blanks under the task `anchor`. -/
def blankSlots (side : Side) (anchor : Option TaskId) : List Nat :=
  (List.range side.file.lines.length).filter fun raw =>
    (side.idAt raw).isNone && prevTask side.ids raw = anchor

/-- The tasks blanks are under. -/
def blankAnchors (side : Side) : List (Option TaskId) :=
  ((List.range side.file.lines.length).filter fun raw => (side.idAt raw).isNone).map
    (prevTask side.ids)

end Side

/-- The rows of a file's task lines. -/
def taskRows (file : File) : List Nat :=
  (file.lines.zipIdx.filter fun x => isTask x.1).map (·.2)

/-- The line at a row. -/
def lineAt (file : File) (raw : Nat) : Option OwnedLine := file.lines[raw]?

/-- Task-line indices split into pairs of equal bytes and the rest. -/
structure Split where
  trivial : List (TaskId × Nat)
  remainingOld : List Nat
  remainingNew : List Nat

/-- One old task line: paired with the first new one left that has its bytes. -/
def Split.visit (old new : File) (newRows : List Nat) (split : Split) (x : (TaskId × Nat) × Nat) :
    Split :=
  let bytes := (lineAt old x.1.2).map OwnedLine.bytes
  match split.remainingNew.find? fun i =>
    (newRows[i]?.bind (lineAt new)).map OwnedLine.bytes = bytes with
  | some i => { split with
      trivial := split.trivial ++ [(x.1.1, i)]
      remainingNew := split.remainingNew.erase i }
  | none => { split with remainingOld := split.remainingOld ++ [x.2] }

def splitExactMatches (order : List (TaskId × Nat)) (newRows : List Nat) (old new : File) : Split :=
  order.zipIdx.foldl (Split.visit old new newRows) ⟨[], [], List.range newRows.length⟩

/-- A task line and its task-line index, to be matched. -/
def fingerprintOf (file : File) (raw tli : Nat) : Option (Task × Nat) :=
  ((lineAt file raw).bind OwnedLine.task).map fun task => (task, tli)

/-- Every task's identity in one reconcile. -/
structure Matching where
  matched : List (TaskId × Nat)
  deleted : List TaskId
  inserted : List Nat
  newIds : List (Option TaskId)

/-- The ids of the new lines: those matched, then a minted one for each inserted line. -/
def newIdsOf (rows : List Nat) (length : Nat) (matched : List (TaskId × Nat)) (inserted : List Nat)
    (mint : Nat → TaskId) : List (Option TaskId) :=
  let ids := matched.foldl (fun ids m => ids.set (rows[m.2]?.getD length) (some m.1))
    (List.replicate length none)
  inserted.zipIdx.foldl (fun ids x => ids.set (rows[x.1]?.getD length) (some (mint x.2))) ids

def resolveMatches (k : Identity) (old : Side) (new : File) (mint : Nat → TaskId) : Matching :=
  let order := old.order
  let rows := taskRows new
  let split := splitExactMatches order rows old.file new
  let reducedOld := split.remainingOld.filterMap fun tli => order[tli]?.bind fun x =>
    (fingerprintOf old.file x.2 tli).map fun f => (x.1, f)
  let reducedNew := split.remainingNew.filterMap fun tli => rows[tli]?.bind fun raw =>
    fingerprintOf new raw tli
  let solved := assign k reducedOld reducedNew (max order.length rows.length)
  let matched := split.trivial ++
    solved.matched.filterMap fun m => split.remainingNew[m.2]?.map fun tli => (m.1, tli)
  let inserted := solved.inserted.filterMap (split.remainingNew[·]?)
  { matched := matched
    deleted := solved.deleted
    inserted := inserted
    newIds := newIdsOf rows new.lines.length matched inserted mint }

/-! ## Moves -/

/-- The tails of the increasing runs so far and each index's predecessor. -/
structure Piles where
  tails : List Nat
  prev : List (Option Nat)

/-- The value at `i`. -/
def Piles.place (seq : List Nat) (piles : Piles) (x : Nat × Nat) : Piles :=
  let pos := (piles.tails.takeWhile fun t => seq.getD t 0 < x.1).length
  { prev := piles.prev ++ [if pos = 0 then none else piles.tails[pos - 1]?]
    tails := if pos = piles.tails.length then piles.tails ++ [x.2] else piles.tails.set pos x.2 }

/-- The chain of predecessors from `cur`, at most `n` of them, in front of `lis`. -/
def lisFrom (prev : List (Option Nat)) : Nat → Option Nat → List Nat → List Nat
  | 0, _, lis => lis
  | _ + 1, none, lis => lis
  | n + 1, some i, lis => lisFrom prev n prev[i]?.join (i :: lis)

/-- Indices of one longest strictly increasing subsequence. -/
def lisIndices (seq : List Nat) : List Nat :=
  let piles := seq.zipIdx.foldl (Piles.place seq) ⟨[], []⟩
  lisFrom piles.prev seq.length piles.tails.getLast? []

/-- The task-line index and the row of an old task. -/
def rowOf (order : List (TaskId × Nat)) (task : TaskId) : Option (Nat × Nat) :=
  (order.zipIdx.reverse.find? fun x => x.1.1 = task).map fun x => (x.2, x.1.2)

/-- The matched pairs by rows, in old order, each with whether it stays in order. -/
def orderedPairs (order : List (TaskId × Nat)) (rows : List Nat) (matched : List (TaskId × Nat)) :
    List ((Nat × Nat) × Bool) :=
  let ordered := (matched.filterMap fun m => (rowOf order m.1).bind fun r =>
    rows[m.2]?.map fun row => (r.1, r.2, m.2, row)).insertionSort fun a b => a.1 ≤ b.1
  let lis := lisIndices (ordered.map fun x => x.2.2.1)
  ordered.zipIdx.map fun (x, i) => ((x.2.1, x.2.2.2), decide (i ∈ lis))

/-- Pairs in order whose bytes differ. -/
def changesOf (old new : File) (pairs : List ((Nat × Nat) × Bool)) : List (Nat × Nat) :=
  (pairs.filter fun p => p.2 &&
    (lineAt old p.1.1).map OwnedLine.bytes ≠ (lineAt new p.1.2).map OwnedLine.bytes).map (·.1)

/-- Pairs out of order. -/
def movesOf (pairs : List ((Nat × Nat) × Bool)) : List (Nat × Nat) :=
  (pairs.filter fun p => !p.2).map (·.1)

/-- Rows of the matched pairs that stay in order but differ, and of those that moved. -/
structure Classified where
  changes : List (Nat × Nat)
  moves : List (Nat × Nat)

/-- `classify_matched`: a pair in order whose bytes are equal is in neither list. -/
def classifyMatched (matched : List (TaskId × Nat)) (order : List (TaskId × Nat)) (rows : List Nat)
    (old new : File) : Classified :=
  let pairs := orderedPairs order rows matched
  ⟨changesOf old new pairs, movesOf pairs⟩

/-- The rows of the blanks `a` has under a task beyond those `b` has there. -/
def excessBlanks (a b : Side) : List Nat :=
  (a.blankAnchors ++ b.blankAnchors).dedup.flatMap fun anchor =>
    (a.blankSlots anchor).drop (min (a.blankSlots anchor).length (b.blankSlots anchor).length)

/-- The diff the four passes read. -/
def sidecarDiffs (old new : Side) (m : Matching) : List LineDiff :=
  let rows := taskRows new.file
  let pairs := orderedPairs old.order rows m.matched
  let deletes := m.deleted.filterMap (fun task => (rowOf old.order task).map (·.2)) ++
    excessBlanks old new
  let inserts := m.inserted.filterMap (rows[·]?) ++ excessBlanks new old
  (deletes.insertionSort (· ≤ ·)).map LineDiff.delete ++
    (changesOf old.file new.file pairs).map (fun p => .change p.1 p.2) ++
    (movesOf pairs).map (fun p => .move p.1 p.2) ++
    (inserts.insertionSort (· ≤ ·)).map LineDiff.insert

/-- Derives ops that turn `old` into `new`, tasks identified by their lines. -/
def reconcileSidecar (k : Identity) (old : Side) (new : File) (path : FilePath)
    (mint : Nat → TaskId) : Reconciled :=
  let m := resolveMatches k old new mint
  let diffs := sidecarDiffs old ⟨new, m.newIds⟩ m
  { ops := deletePass diffs old.ids ++ changePass diffs old.file old.ids new ++
      taskPass diffs new m.newIds path ++ blankPass diffs m.newIds
    file := new
    minted := m.inserted.length
    reused := m.matched.length
    ids := m.newIds }

end Txtodo
