import Txtodo.Model.Hlc
import Txtodo.Std.OrdMap
import Txtodo.Std.Word

/-!
# Heads and runs

`want.rs`, with the head maps and runs of `message.rs`: per origin device the highest number held,
numbers dense from 1, and what a peer holds that this side does not. `Live` raises the same maps by
what a peer sends and acks (`lan_session_live.rs`).
-/

namespace Txtodo

namespace DeviceId

theorem ulid_injective : Function.Injective DeviceId.ulid := by
  rintro ⟨d⟩ ⟨d'⟩ rfl
  rfl

instance : LinearOrder DeviceId := LinearOrder.lift' DeviceId.ulid ulid_injective

end DeviceId

/-- Per origin device, the highest number held from it. -/
abbrev Heads := OrdMap DeviceId UInt64

/-- The head of a device, 0 where nothing is held from it. -/
def Heads.get (heads : Heads) (device : DeviceId) : UInt64 := (heads.find? device).getD 0

/-- An inclusive run of one device's ops by number. -/
structure OriginRange where
  device : DeviceId
  first : UInt64
  last : UInt64
  deriving DecidableEq

/-- A committed run that does not start right after the head. -/
structure Gap where
  deviceHead : UInt64
  range : OriginRange
  deriving DecidableEq

/-- Most runs in one `Want`, `Ops` or `Ack`. -/
def MAX_WANT_RANGES : Nat := 1024

/-- The runs `remote` holds and `held` does not, in device order, at most `MAX_WANT_RANGES`. -/
def want (held remote : Heads) : Checked (List OriginRange) :=
  go [] remote.items
where
  go (ranges : List OriginRange) : List (DeviceId × UInt64) → Checked (List OriginRange)
    | [] => pure ranges
    | (device, theirHead) :: rest =>
      if ranges.length = MAX_WANT_RANGES then pure ranges
      else if held.get device < theirHead then do
        let first ← Checked.add (held.get device) 1
        go (ranges ++ [⟨device, first, theirHead⟩]) rest
      else go ranges rest

/-- Advances `heads` past a run just committed; a run past the head or held whole is refused. -/
def advance (heads : Heads) (committed : OriginRange) : Checked (Except Gap Heads) := do
  let head := heads.get committed.device
  let next ← Checked.add head 1
  if next < committed.first ∨ committed.last ≤ head then return .error ⟨head, committed⟩
  return .ok (heads.insert committed.device committed.last)

/-- Advances past run after run, up to the first that is refused. -/
def advanceAll (heads : Heads) : List OriginRange → Checked (Except Gap Heads)
  | [] => return .ok heads
  | r :: ranges => do
    match ← advance heads r with
    | .error gap => return .error gap
    | .ok heads' => advanceAll heads' ranges

/-- True when `r` lies within one of `runs`. -/
def covered (runs : List OriginRange) (r : OriginRange) : Bool :=
  runs.any fun w => w.device = r.device && w.first ≤ r.first && r.last ≤ w.last

/-- One wanted run without the prefix that `c` committed. -/
def consumeRun (c w : OriginRange) : Checked OriginRange :=
  if w.device = c.device ∧ w.first ≤ c.last then do
    let first ← Checked.add c.last 1
    return { w with first }
  else return w

/-- Drops the committed prefix of each wanted run; a run fully covered disappears. -/
def consume (wanted committed : List OriginRange) : Checked (List OriginRange) := do
  let wanted ← committed.foldlM (fun wanted c => wanted.mapM (consumeRun c)) wanted
  return wanted.filter fun w => w.first ≤ w.last

/-- Raises each run's device to the run's end. -/
def raise (heads : Heads) (ranges : List OriginRange) : Heads :=
  ranges.foldl (fun heads r => heads.insert r.device (max (heads.get r.device) r.last)) heads

/-- Raises every device to at least its head in `floor`. -/
def raiseTo (heads floor : Heads) : Heads :=
  floor.items.foldl (fun heads e => heads.insert e.1 (max (heads.get e.1) e.2)) heads

@[simp] theorem Heads.get_insert (heads : Heads) (device other : DeviceId) (h : UInt64) :
    Heads.get (heads.insert device h) other = if other = device then h else heads.get other := by
  rw [Heads.get, OrdMap.find?_insert]
  split <;> rfl

end Txtodo
