import Txtodo.Daemon.Landing
import Txtodo.Store.OriginLog

/-!
# Ticks of the file carrier

`file_carrier.rs` with `serve_range` and the commit of `lan_apply.rs`: a device writes the ops it has not
sent yet into its own file and commits the frames of the others' files. How writes, seals and signatures
go and how far a frame lands is given.
-/

namespace Txtodo

/-- One sealed `Ops` message in a file. -/
structure OpsFrame where
  ops : List Op
  range : OriginRange

/-- How it goes with one batch; a write that is reported failed may have put the whole frame in the file. -/
inductive BatchIo where
  | done
  | signFails
  | sealFails
  | writeFails (written : Bool)
  deriving DecidableEq

/-- How it goes with one send: whether the store can be read, and each batch by its run. -/
structure SendIo where
  readFails : Bool
  batch : OriginRange → BatchIo

/-- The sum, or the greatest word when it wraps. -/
def saturatingAdd (a b : UInt64) : UInt64 := if a + b < a then UInt64.MAX else a + b

/-- The frames of one wanted run from `first` on, at most `MAX_OPS_PER_BATCH` ops each and at most `fuel`
of them; `none` when a read is refused. -/
def serveRange (s : OriginLog) (io : SendIo) (r : OriginRange) : Nat → UInt64 → Option (List OpsFrame)
  | 0, _ => some []
  | fuel + 1, first =>
    if first ≤ r.last then do
      let last := min (saturatingAdd first (UInt64.ofNat (MAX_OPS_PER_BATCH - 1))) r.last
      let range : OriginRange := ⟨r.device, first, last⟩
      let ops ← s.opsFor r.device first last
      let frames ← serveRange s io r fuel (last + 1)
      if io.batch range = .signFails then some frames else some (⟨ops, range⟩ :: frames)
    else some []

/-- The frames of the wanted runs: no run has more batches than ops. -/
def serveWant (s : OriginLog) (io : SendIo) (ranges : List OriginRange) : Option (List OpsFrame) :=
  if io.readFails then none
  else (ranges.mapM fun r => serveRange s io r (r.last.toNat + 1 - r.first.toNat) r.first).map List.flatten

/-- Seals and writes the frames one by one, each whatever became of the one before; a run is counted as
sent when its frame was written and no gap is before it. -/
def writeFrames (io : SendIo) : List OpsFrame → List OpsFrame × Heads → List OpsFrame × Heads
  | [], x => x
  | f :: frames, (file, lastSent) =>
    match io.batch f.range with
    | .done =>
      let lastSent := match (advance lastSent f.range).value with
        | .ok heads => heads
        | .error _ => lastSent
      writeFrames io frames (file ++ [f], lastSent)
    | .writeFails true => writeFrames io frames (file ++ [f], lastSent)
    | _ => writeFrames io frames (file, lastSent)

/-- What one device keeps: its log, what it counts as sent, its file and how far it read the others'. -/
structure CarrierPeer where
  log : OriginLog
  lastSent : Heads
  file : List OpsFrame
  read : DeviceId → Nat

namespace CarrierPeer

/-- A device that was just started. -/
def new : CarrierPeer := ⟨.empty, .empty, [], fun _ => 0⟩

def sendRoute (p : CarrierPeer) (io : SendIo) : CarrierPeer :=
  match serveWant p.log io (want p.lastSent p.log.heads).value with
  | none => p
  | some frames =>
    let x := writeFrames io frames (p.file, p.lastSent)
    { p with file := x.1, lastSent := x.2 }

end CarrierPeer

/-- Runs of consecutive ops on one file, in order. -/
def sameFileRuns (ops : List Op) : List (List Op) := ops.splitBy fun a b => a.file = b.file

/-- Commits run by run what is not stored yet, up to the first run that is refused. -/
def commitRuns (s : OriginLog) : List (List Op) → OriginLog
  | [] => s
  | run :: runs =>
    let fresh := run.filter fun op => !s.holds op.id
    if fresh = [] then commitRuns s runs
    else match s.insertOps fresh with
      | none => s
      | some s' => commitRuns s' runs

/-- Commits a frame's ops, of which only the first `runs` runs are not refused. -/
def commitIncomingOps (s : OriginLog) (ops : List Op) (runs : Nat) : OriginLog :=
  commitRuns s ((sameFileRuns ops).take runs)

/-- The devices that share a folder, in one workspace. -/
abbrev CarrierGroup := DeviceId → CarrierPeer

/-- What happens next: a device commits ops of its own, sends, starts anew, or takes the next frame of
another's file, which it drops or commits as far as `landing` says. -/
inductive CarrierTick where
  | commit (device : DeviceId) (ops : List Op)
  | send (device : DeviceId) (io : SendIo)
  | restart (device : DeviceId)
  | receive (device origin : DeviceId) (landing : Option Nat)

namespace CarrierGroup

def new : CarrierGroup := fun _ => .new

/-- The frame a device would take next from another's file. -/
def next? (g : CarrierGroup) (device origin : DeviceId) : Option OpsFrame :=
  (g origin).file[(g device).read origin]?

def receive (g : CarrierGroup) (device origin : DeviceId) (landing : Option Nat) : CarrierGroup :=
  match g.next? device origin with
  | none => g
  | some frame =>
    let p := g device
    let log := match landing with
      | none => p.log
      | some runs => commitIncomingOps p.log frame.ops runs
    Function.update g device
      { p with log, read := Function.update p.read origin (p.read origin + 1) }

def tick (g : CarrierGroup) : CarrierTick → CarrierGroup
  | .commit device ops =>
    match (g device).log.insertOps ops with
    | none => g
    | some log => Function.update g device { g device with log }
  | .send device io => Function.update g device ((g device).sendRoute io)
  | .restart device => Function.update g device { g device with lastSent := .empty, read := fun _ => 0 }
  | .receive device origin landing => g.receive device origin landing

/-- A device commits ops stamped with itself and with ids of their own. -/
def Possible (g : CarrierGroup) : CarrierTick → Prop
  | .commit device ops => (ops.map Op.id).Nodup ∧
      ∀ op ∈ ops, op.hlc.device = device ∧ ∀ other, (g other).log.holds op.id = false
  | _ => True

end CarrierGroup

/-- The groups that ticks which are `Allowed` lead to. -/
inductive CarrierTicks (Allowed : CarrierGroup → CarrierTick → Prop) : CarrierGroup → Prop where
  | start : CarrierTicks Allowed .new
  | tick {g : CarrierGroup} {t : CarrierTick} (h : CarrierTicks Allowed g) (ht : g.Possible t)
      (hallowed : Allowed g t) : CarrierTicks Allowed (g.tick t)

end Txtodo
