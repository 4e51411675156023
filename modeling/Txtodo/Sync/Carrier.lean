import Txtodo.Sync.Frame
import Txtodo.Sync.Heads

/-!
# The file carrier

A shared folder as a link (`carrier.rs`): a device appends its frames to its own files, numbered as they
fill up, and polls the files of the others.
-/

namespace Txtodo

/-- A file is left for the next one from this size on. -/
def MAX_OPS_FILE_BYTES : Nat := 8 * 1024 * 1024

/-- Why the file carrier could not send or receive. -/
inductive CarrierError where
  | record (e : AppendFrameError)
  | frame (e : FrameError)
  | foreignDevice (owner us : DeviceId)
  | io
  deriving DecidableEq

/-- The name of an ops file: its device and its number, 0 for the first. -/
structure OpsFileName where
  device : DeviceId
  rotation : Nat
  deriving DecidableEq

namespace OpsFileName

def key (n : OpsFileName) : DeviceId ×ₗ Nat := toLex (n.device, n.rotation)

theorem key_injective : Function.Injective key := by
  rintro ⟨d, n⟩ ⟨d', n'⟩ h
  obtain ⟨rfl, rfl⟩ := Prod.mk.inj (toLex.injective h)
  rfl

instance : LinearOrder OpsFileName := LinearOrder.lift' key key_injective

end OpsFileName

/-- The ops files of a folder by name; what else lies in it is never looked at. -/
abbrev Folder := OrdMap OpsFileName (List UInt8)

/-- How a write to a file goes: it may fail on asking for the file's size, on opening it, or after some
bytes. -/
inductive WriteIo where
  | done
  | statFails
  | openFails
  | stopsAfter (bytes : Nat)
  deriving DecidableEq

/-- A device's end of the carrier: the number of the file it appends to and the bytes it took from the
files of others. -/
structure FileCarrier where
  device : DeviceId
  writeRotation : Nat
  offsets : OrdMap OpsFileName Nat

/-- The highest number among the files of `device`, 0 when it has none. -/
def highestRotation (folder : Folder) (device : DeviceId) : Nat :=
  folder.items.foldl (fun highest e => if e.1.device = device then max highest e.1.rotation else highest) 0

/-- The files of the other devices, by device and number. -/
def otherDeviceFiles (folder : Folder) (us : DeviceId) : List (OpsFileName × List UInt8) :=
  folder.items.filter (·.1.device ≠ us)

namespace FileCarrier

def openAt (folder : Folder) (device : DeviceId) : FileCarrier :=
  ⟨device, highestRotation folder device, OrdMap.empty⟩

def writePath (c : FileCarrier) : OpsFileName := ⟨c.device, c.writeRotation⟩

/-- Appends bytes to the file `path`, made when it is not there; a file of another device is refused. -/
def writeFrameTo (c : FileCarrier) (folder : Folder) (path : OpsFileName) (bytes : List UInt8)
    (io : WriteIo) : Except CarrierError Unit × Folder :=
  if path.device ≠ c.device then (.error (.foreignDevice path.device c.device), folder)
  else match io with
    | .done => (.ok (), folder.insert path ((folder.find? path).getD [] ++ bytes))
    | .stopsAfter n =>
      (.error .io, folder.insert path ((folder.find? path).getD [] ++ bytes.take n))
    | .statFails => (.error .io, folder)
    | .openFails => (.error .io, folder)

/-- The next file when the current one is full. -/
def rotate (c : FileCarrier) (folder : Folder) : FileCarrier :=
  if MAX_OPS_FILE_BYTES ≤ ((folder.find? c.writePath).getD []).length then
    { c with writeRotation := c.writeRotation + 1 }
  else c

/-- Appends one frame to this device's own file. -/
def append (c : FileCarrier) (folder : Folder) (frame : Frame) (io : WriteIo) :
    Except CarrierError Unit × FileCarrier × Folder :=
  match frame.encode with
  | .error e => (.error (.frame e), c, folder)
  | .ok body =>
    match AppendFrame.new body with
    | .error e => (.error (.record e), c, folder)
    | .ok record =>
      if io = .statFails then (.error .io, c, folder)
      else
        let c := c.rotate folder
        let written := c.writeFrameTo folder c.writePath record.encode io
        (written.1, c, written.2)

/-- The bytes taken from a file so far. -/
def offset (c : FileCarrier) (name : OpsFileName) : Nat := (c.offsets.find? name).getD 0

/-- The next frame of the first of `files` that has a whole record behind its offset, with the file's
name. -/
def pollFiles (c : FileCarrier) : List (OpsFileName × List UInt8) →
    Except CarrierError (Option (OpsFileName × Frame)) × FileCarrier
  | [] => (.ok none, c)
  | (name, bytes) :: rest =>
    match AppendFrame.tryDecode (bytes.drop (c.offset name)) with
    | .error e => (.error (.record e), c)
    | .ok none => pollFiles c rest
    | .ok (some (record, used)) =>
      let c := { c with offsets := c.offsets.insert name (c.offset name + used) }
      match Frame.decode record.body with
      | .error e => (.error (.frame e), c)
      | .ok (frame, _) => (.ok (some (name, frame)), c)

/-- Scans the other devices' files for the next frame not returned yet. -/
def poll (c : FileCarrier) (folder : Folder) :
    Except CarrierError (Option (OpsFileName × Frame)) × FileCarrier :=
  c.pollFiles (otherDeviceFiles folder c.device)

end FileCarrier

end Txtodo

/-!
## Runs of the file carrier

Several devices append, the folder copies their files to the reader in any order and byte by byte, and the
reader polls.
-/

namespace Txtodo

/-- The writers, what they have written, what the reader's folder shows of it, and the frames that were
reported appended and returned so far, each with its file. -/
structure CarrierWorld where
  writers : DeviceId → FileCarrier
  files : Folder
  shown : Folder
  reader : FileCarrier
  appended : List (OpsFileName × Frame)
  returned : List (OpsFileName × Frame)

/-- What happens next: a device appends a frame with this body or starts anew, a file's first bytes show,
a file of the reader's folder gets other content, the reader polls. -/
inductive CarrierEvent where
  | append (device : DeviceId) (body : List UInt8) (io : WriteIo)
  | reopen (device : DeviceId)
  | grow (name : OpsFileName) (bytes : Nat)
  | scribble (name : OpsFileName) (content : List UInt8)
  | poll

namespace CarrierWorld

def new (us : DeviceId) : CarrierWorld where
  writers d := .openAt .empty d
  files := .empty
  shown := .empty
  reader := .openAt .empty us
  appended := []
  returned := []

/-- The writers with `c` in the place of the one of its device. -/
def setWriter (w : CarrierWorld) (c : FileCarrier) : DeviceId → FileCarrier :=
  fun d => if d = c.device then c else w.writers d

def append (w : CarrierWorld) (device : DeviceId) (body : List UInt8) (io : WriteIo) : CarrierWorld :=
  match Frame.new body with
  | .error _ => w
  | .ok frame =>
    let r := (w.writers device).append w.files frame io
    let appended := match r.1 with
      | .ok _ => w.appended ++ [(r.2.1.writePath, frame)]
      | .error _ => w.appended
    { w with writers := w.setWriter r.2.1, files := r.2.2, appended := appended }

/-- A file shows at least what it showed before. -/
def grow (w : CarrierWorld) (name : OpsFileName) (bytes : Nat) : CarrierWorld :=
  match w.files.find? name with
  | none => w
  | some content =>
    { w with
      shown := w.shown.insert name (content.take (max bytes ((w.shown.find? name).getD []).length)) }

def poll (w : CarrierWorld) : CarrierWorld :=
  let r := w.reader.poll w.shown
  let returned := match r.1 with
    | .ok (some e) => w.returned ++ [e]
    | _ => w.returned
  { w with reader := r.2, returned := returned }

def apply (w : CarrierWorld) : CarrierEvent → CarrierWorld
  | .append device body io => w.append device body io
  | .reopen device => { w with writers := w.setWriter (.openAt w.files device) }
  | .grow name bytes => w.grow name bytes
  | .scribble name content => { w with shown := w.shown.insert name content }
  | .poll => w.poll

/-- The frames of one device in a list of frames with their files. -/
def framesOf (log : List (OpsFileName × Frame)) (device : DeviceId) : List Frame :=
  (log.filter (·.1.device = device)).map (·.2)

/-- The frames of one file. -/
def framesIn (log : List (OpsFileName × Frame)) (name : OpsFileName) : List Frame :=
  (log.filter (·.1 = name)).map (·.2)

/-- The bytes of a file, as far as they are written. -/
def contentOf (folder : Folder) (name : OpsFileName) : List UInt8 := (folder.find? name).getD []

end CarrierWorld

/-- A world reached by events that are `Allowed`. -/
inductive CarrierRun (us : DeviceId) (Allowed : CarrierWorld → CarrierEvent → Prop) :
    CarrierWorld → Prop where
  | start : CarrierRun us Allowed (.new us)
  | step {w : CarrierWorld} {e : CarrierEvent} (h : CarrierRun us Allowed w) (he : Allowed w e) :
      CarrierRun us Allowed (w.apply e)

end Txtodo
