import Txtodo.Std.Loop
import Txtodo.Daemon.History
import Txtodo.Sync.Message

/-!
# Serving owed runs merged by stamp

`lan_serve_merged.rs`, with the reader of `heads.rs`: one pushed batch takes the owed origins in HLC
order, each origin at most once, read from the log a window at a time; and batch after batch until nothing is
owed.
-/

namespace Txtodo

/-- One op of the log under its number in its device's run, a positive signed word. -/
structure LogRow where
  device : DeviceId
  originSeq : Int
  op : Op
  positive : 0 < originSeq

/-- The op log: each device's rows by number, no number twice. -/
structure OpLog where
  rows : List LogRow
  numbered : rows.Pairwise fun a b => a.device = b.device → a.originSeq < b.originSeq

/-- Why a read of the log is refused. -/
inductive StoreError where
  | badRun (first last : UInt64)
  deriving DecidableEq

/-- A device's ops numbered from `first` to `last`, bound as signed words. -/
def OpLog.opsFor (log : OpLog) (device : DeviceId) (first last : UInt64) :
    Checked (Except StoreError (List Op)) :=
  if first = 0 ∨ last < first then return .error (.badRun first last)
  else do
    let span ← Checked.sub last first
    let width ← Checked.add span 1
    if UInt64.ofNat MAX_OPS_PER_READ < width then return .error (.badRun first last)
    return .ok ((log.rows.filter fun row => row.device = device ∧
      first.toInt64.toInt ≤ row.originSeq ∧ row.originSeq ≤ last.toInt64.toInt).map (·.op))

/-- Ops read from one origin at a time. -/
def READ_WINDOW : UInt64 := 128

/-- One owed run, read lazily from the log. -/
structure Run where
  range : OriginRange
  /-- The next number not yet read. -/
  next : UInt64
  buf : List Op

namespace Run

def new (range : OriginRange) : Run := ⟨range, range.first, []⟩

/-- The run with its first unsent op in front, the next window read when the buffer is empty. -/
def front (window : UInt64) (log : OpLog) (run : Run) : Checked (Except StoreError Run) :=
  if run.buf.isEmpty ∧ run.next ≤ run.range.last then do
    let past ← Checked.add run.next window
    let windowEnd ← Checked.sub past 1
    let last := min windowEnd run.range.last
    match ← log.opsFor run.range.device run.next last with
    | .error e => return .error e
    | .ok buf =>
      let next ← Checked.add last 1
      return .ok { run with buf, next }
  else return .ok run

end Run

/-- Every run with its first unsent op in front. -/
def readFronts (window : UInt64) (log : OpLog) : List Run → Checked (Except StoreError (List Run))
  | [] => return .ok []
  | run :: runs => do
    match ← run.front window log with
    | .error e => return .error e
    | .ok run =>
      match ← readFronts window log runs with
      | .error e => return .error e
      | .ok runs => return .ok (run :: runs)

/-- The run whose front op has the lowest stamp, the first of equals. -/
def lowest (runs : List Run) : Option Nat :=
  (go none 0 runs).map (·.1)
where
  go (best : Option (Nat × Hlc)) (i : Nat) : List Run → Option (Nat × Hlc)
    | [] => best
    | run :: runs =>
      match run.buf.head? with
      | none => go best (i + 1) runs
      | some op =>
        if best.all fun b => op.hlc < b.2 then go (some (i, op.hlc)) (i + 1) runs
        else go best (i + 1) runs

/-- How many ops of `device` the batch already holds. -/
def rangesLen (ranges : List OriginRange) (device : DeviceId) : Checked UInt64 :=
  (ranges.filter (·.device = device)).foldlM (fun sum r => do
    let span ← Checked.sub r.last r.first
    let width ← Checked.add span 1
    Checked.add sum width) 0

/-- Adds `device`'s op `seq` to the batch's runs: onto the last run when it is that device's, as a new
run when the device is not in the batch yet; `none` when the device would come back. -/
def extend (ranges : List OriginRange) (device : DeviceId) (seq : UInt64) :
    Option (List OriginRange) :=
  match ranges.getLast?.filter (·.device = device) with
  | some r => some (ranges.dropLast ++ [{ r with last := seq }])
  | none => if ranges.any (·.device = device) then none else some (ranges ++ [⟨device, seq, seq⟩])

/-- A batch being merged. -/
structure Merge where
  runs : List Run
  ops : List Op
  ranges : List OriginRange

namespace Merge

def new (runs : List OriginRange) : Merge := ⟨runs.map Run.new, [], []⟩

/-- One turn: the lowest front op joins the batch, until it is full, no run has ops left, or the lowest
belongs to an origin the batch already left. -/
def step (window : UInt64) (log : OpLog) (m : Merge) :
    Checked (Merge ⊕ Except StoreError (List Op × List OriginRange)) :=
  if MAX_OPS_PER_BATCH ≤ m.ops.length then return .inr (.ok (m.ops, m.ranges))
  else do
    match ← readFronts window log m.runs with
    | .error e => return .inr (.error e)
    | .ok runs =>
      match (lowest runs).bind fun i => runs[i]?.map (i, ·) with
      | none => return .inr (.ok (m.ops, m.ranges))
      | some (i, run) =>
        let held ← rangesLen m.ranges run.range.device
        let seq ← Checked.add run.range.first held
        match extend m.ranges run.range.device seq with
        | none => return .inr (.ok (m.ops, m.ranges))
        | some ranges =>
          return .inl ⟨runs.set i { run with buf := run.buf.tail }, m.ops ++ run.buf.take 1, ranges⟩

/-- A turn of the loop, with whether its arithmetic and that of the turns before stayed in range. -/
def turn (window : UInt64) (log : OpLog) (m : Checked Merge) :
    Checked Merge ⊕ Checked (Except StoreError (List Op × List OriginRange)) :=
  match (m >>= step window log).value with
  | .inl m' => .inl ⟨m', (m >>= step window log).fits⟩
  | .inr r => .inr ⟨r, (m >>= step window log).fits⟩

end Merge

/-- The next batch for `runs`, read `window` ops of an origin at a time, with the runs it covers. -/
def mergeBy (window : UInt64) (log : OpLog) (runs : List OriginRange) :
    Option (Checked (Except StoreError (List Op × List OriginRange))) :=
  loop (Merge.turn window log) (MAX_OPS_PER_BATCH + 1) (pure (.new runs))

/-- The next batch for `runs`, with the runs it covers. -/
def merge (log : OpLog) (runs : List OriginRange) :
    Option (Checked (Except StoreError (List Op × List OriginRange))) :=
  mergeBy READ_WINDOW log runs

/-! ## Serving until nothing is owed -/

/-- The batches served for `owed` until one is empty; `none` when that takes more than `n` turns. -/
def serveAll (window : UInt64) (log : OpLog) : Nat → List OriginRange →
    Option (List (List Op × List OriginRange))
  | 0, _ => none
  | n + 1, owed =>
    match mergeBy window log owed with
    | some ⟨.ok (ops, ranges), _⟩ =>
      if ops.isEmpty then some []
      else (serveAll window log n (consume owed ranges).value).map ((ops, ranges) :: ·)
    | _ => none

namespace OpLog

/-- A device's ops by number. -/
def opsOf (log : OpLog) (device : DeviceId) : List Op := (log.rows.filter (·.device = device)).map (·.op)

/-- The ops a run names. -/
def opsIn (log : OpLog) (r : OriginRange) : List Op :=
  (log.rows.filter fun row =>
    row.device = r.device ∧ (r.first.toNat : Int) ≤ row.originSeq ∧ row.originSeq ≤ (r.last.toNat : Int)).map (·.op)

/-- Each device's ops are numbered from 1 up to its head, a signed word. -/
structure Dense (log : OpLog) (head : DeviceId → Nat) : Prop where
  numbers : ∀ device, (log.rows.filter (·.device = device)).map (·.originSeq) =
    (List.range' 1 (head device)).map Int.ofNat
  word : ∀ device, head device ≤ MAX_ROW

end OpLog

end Txtodo
