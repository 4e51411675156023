import Txtodo.Engine.TextHistory
import Txtodo.Std.Iter

/-!
# The document

`DocState` (`state.rs`): every placement a document ever had, shown or not, in five parallel vectors,
the shown slots, and the merge metadata kept by task. The operations read the vectors slot by slot
(`DocState.slots`) and write them one by one.
-/

namespace Txtodo

/-- Most lines one document may hold. -/
def MAX_LINES_PER_FILE : Nat := 1000000

/-- One line of the document. -/
inductive Entry where
  | task (id : TaskId) (line : OwnedLine)
  | blank (line : OwnedLine)
  deriving DecidableEq

namespace Entry

def line : Entry → OwnedLine
  | .task _ line | .blank line => line

def id : Entry → Option TaskId
  | .task id _ => some id
  | .blank _ => none

def isBlank : Entry → Bool
  | .task .. => false
  | .blank _ => true

end Entry

/-- Why an op or a file could not be applied. -/
inductive StateError where
  | missingId (index : Nat)
  | opaque_ (index : Nat)
  | unknownTask (task : TaskId)
  | idMismatch (task : TaskId)
  | text (task : TaskId) (e : TextEditError)
  | noBlank (after : Option TaskId)
  | unsupported (what : Text)
  | tooManyLines (n : Nat)
  deriving DecidableEq

/-- The anchor placement an entry's op followed, as that task's id and that placement's stamp. -/
abbrev Parent := Option (TaskId × Hlc)

/-- When a task was last deleted here and last inserted again. -/
structure Life where
  died : Option Hlc
  reborn : Option Hlc
  deriving DecidableEq

/-- The document. `entries`, `hidden`, `stamps`, `parents` and `erasers` hold one item a slot;
`visible` lists the slots shown. -/
structure DocState where
  path : FilePath
  entries : List Entry
  hidden : List Bool
  visible : List Nat
  stamps : List Hlc
  parents : List Parent
  erasers : List Bool
  fieldStamps : TaskId → Field → Option Hlc
  textHistory : TaskId → Option TextHistory
  life : TaskId → Option Life
  bom : Bool
  ending : LineEnding
  trailingNewline : Bool
  mode : IdentityMode

/-- One slot of the five vectors. -/
structure Slot where
  entry : Entry
  stamp : Hlc
  hidden : Bool
  parent : Parent
  eraser : Bool
  deriving DecidableEq

namespace Slot

def id (x : Slot) : Option TaskId := x.entry.id

def isBlank (x : Slot) : Bool := x.entry.isBlank

end Slot

/-! ## Reading slots -/

namespace Slots

/-- The slot of a task's shown placement. -/
def liveSlot (xs : List Slot) (id : TaskId) : Option Nat :=
  xs.findIdx? fun x => !x.hidden && x.id = some id

/-- Whether `id` has any placement, shown or not. -/
def hasPlacement (xs : List Slot) (id : TaskId) : Bool := xs.any fun x => x.id = some id

/-- The placements of a task with their slots. -/
def placements (xs : List Slot) (id : TaskId) : List (Slot × Nat) :=
  xs.zipIdx.filter fun x => x.1.id = some id

/-- The slot holding a task's line: its shown placement, else its newest one. -/
def contentSlot (xs : List Slot) (task : TaskId) : Option Nat :=
  (liveSlot xs task).or ((Iter.maxByKey (·.1.stamp) (placements xs task)).map (·.2))

end Slots

/-- The stamp of a line nothing placed. -/
def unplaced : Hlc := Hlc.zero ⟨0⟩

/-- What an op leaves behind: the state after the call and what the call returned. -/
structure Outcome where
  state : DocState
  result : Except StateError Unit

/-- `TextHistory` as `DocState` uses it: splices of one line, bounded by task. -/
def taskEdits : ApplyEdits × Nat := (applyTextEdits, MAX_EDITS_PER_TASK)

/-- `m` with `v` under `k`. -/
def setKey {κ ν : Type} [DecidableEq κ] (m : κ → ν) (k : κ) (v : ν) : κ → ν :=
  fun k' => if k' = k then v else m k'

@[simp] theorem setKey_self {κ ν : Type} [DecidableEq κ] (m : κ → ν) (k : κ) (v : ν) :
    setKey m k v k = v := if_pos rfl

@[simp] theorem setKey_of_ne {κ ν : Type} [DecidableEq κ] (m : κ → ν) {k k' : κ} (v : ν)
    (h : k' ≠ k) : setKey m k v k' = m k' := if_neg h

/-- Putting back what was there undoes a write. -/
@[simp] theorem setKey_setKey_eq {κ ν : Type} [DecidableEq κ] (m : κ → ν) (k : κ) (v : ν) :
    setKey (setKey m k v) k (m k) = m := by
  funext k'
  by_cases h : k' = k <;> simp [setKey, h]

namespace DocState

/-- The five vectors read together. -/
def slots (s : DocState) : List Slot :=
  (s.entries.zip (s.stamps.zip (s.hidden.zip (s.parents.zip s.erasers)))).map
    fun (entry, stamp, hidden, parent, eraser) => ⟨entry, stamp, hidden, parent, eraser⟩

/-- The call changed the state to `s` and returned `Ok`. -/
def done (s : DocState) : Outcome := ⟨s, .ok ()⟩

/-- The call returned `Err` and left the state `s`. -/
def fails (s : DocState) (e : StateError) : Outcome := ⟨s, .error e⟩

/-- Builds one entry from a line and its resolved id. -/
def entryOf (index : Nat) (line : OwnedLine) (id : Option TaskId) : Except StateError Entry :=
  match line.parse with
  | none => .error (.opaque_ index)
  | some ⟨_, .blank, _, _⟩ => .ok (.blank line)
  | some ⟨_, .task _, _, _⟩ =>
    match id with
    | none => .error (.missingId index)
    | some id => .ok (.task id line)

/-- The entries of the lines from `index` on; `ids` holds each line's id. -/
def entriesOf (index : Nat) : List OwnedLine → List (Option TaskId) →
    Except StateError (List Entry)
  | [], _ => .ok []
  | line :: rest, ids => do
    let entry ← entryOf index line (ids.head?.getD none)
    let entries ← entriesOf (index + 1) rest ids.tail
    return entry :: entries

/-- A document of `entries` read from `file`, all shown, placed by nothing. -/
def ofEntries (path : FilePath) (file : File) (mode : IdentityMode) (entries : List Entry) :
    DocState where
  path := path
  entries := entries
  hidden := List.replicate entries.length false
  visible := List.range entries.length
  stamps := List.replicate entries.length unplaced
  parents := List.replicate entries.length none
  erasers := List.replicate entries.length false
  fieldStamps := fun _ _ => none
  textHistory := fun _ => none
  life := fun _ => none
  bom := file.bom
  ending := file.ending
  trailingNewline := file.trailingNewline
  mode := mode

/-- Builds the state from a file and each line's resolved id, `none` for a blank. -/
def fromFile (path : FilePath) (file : File) (ids : List (Option TaskId)) (mode : IdentityMode) :
    Except StateError DocState :=
  if MAX_LINES_PER_FILE < file.lines.length then .error (.tooManyLines file.lines.length)
  else do
    let entries ← entriesOf 0 file.lines ids
    return ofEntries path file mode entries

/-- The document of the empty file. -/
def empty (path : FilePath) (mode : IdentityMode) : DocState := ofEntries path File.empty mode []

/-! ## Reading -/

/-- The entries shown, in order. -/
def visibleEntries (s : DocState) : List Entry := s.visible.filterMap (s.entries[·]?)

/-- The line at `i`. -/
def entryAt (s : DocState) (i : Nat) : Option Entry := s.visible[i]?.bind (s.entries[·]?)

/-- The line a task is on. -/
def indexOf (s : DocState) (id : TaskId) : Option Nat :=
  s.visible.findIdx? fun i => (s.entries[i]?.bind Entry.id) = some id

/-- Every line's task id in file order, `none` for a blank line. -/
def lineIds (s : DocState) : List (Option TaskId) := s.visibleEntries.map Entry.id

/-- The file as bytes. -/
def toBytes (s : DocState) : List UInt8 :=
  File.toBytes ⟨s.visibleEntries.map Entry.line, s.bom, s.ending, s.trailingNewline⟩

/-- The slot of a task's shown placement. -/
def liveSlot (s : DocState) (id : TaskId) : Option Nat := Slots.liveSlot s.slots id

/-- Whether `id` has any placement here, shown or not. -/
def hasPlacement (s : DocState) (id : TaskId) : Bool := Slots.hasPlacement s.slots id

/-- The slot holding a task's line: its shown placement, else its newest one. -/
def contentSlot (s : DocState) (task : TaskId) : Option Nat := Slots.contentSlot s.slots task

/-- The line in `slot`, which is in range. -/
def slotLine (s : DocState) (slot : Nat) : Option OwnedLine := s.entries[slot]?.map Entry.line

/-- The line of a task's content slot. -/
def contentLine (s : DocState) (task : TaskId) : Option OwnedLine :=
  (s.contentSlot task).bind s.slotLine

/-- Number of placements not shown. -/
def ghosts (s : DocState) : Nat := s.entries.length - s.visible.length

/-! ## Writing -/

/-- Rebuilds the visible view after the sequence changed. -/
def reindex (s : DocState) : DocState :=
  { s with visible := (List.range s.entries.length).filter fun i => s.hidden[i]? = some false }

/-- Replaces the entry in `slot`. -/
def replaceEntry (s : DocState) (slot : Nat) (entry : Entry) : DocState :=
  { s with entries := s.entries.set slot entry }

/-- Hides the entry in `slot` where it is. -/
def hideEntry (s : DocState) (slot : Nat) : DocState :=
  { s with hidden := s.hidden.set slot true }.reindex

end DocState

end Txtodo
