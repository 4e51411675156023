import Txtodo.Engine.ReconcileReplay
import Txtodo.Std.Attempts
import Txtodo.Std.Disk

/-!
# Reference directories

`refdir.rs`: the slug a task's `ref:` directory gets, and the names tried when it is taken. Rust's answer
to a look at a path that fails is left out: a look sees what is there.
-/

namespace Txtodo

/-- Longest slug generated. -/
def SLUG_GENERATE_MAX_LEN : Nat := 40

/-- Most suffixes tried after a slug. -/
def MAX_SLUG_COLLISIONS : Nat := 1000

/-- Why a ref-directory operation failed. -/
inductive RefDirError where
  | collisionsExhausted
  | invalidSlug (s : Text)
  | slugTaken (s : Text)
  | io (op : Text) (path : FolderPath) (source : IoError)
  deriving DecidableEq

/-- The directory an operation made, renamed or confirmed. -/
structure RefDirInfo where
  slug : Text
  dir : FolderPath
  deriving DecidableEq

/-! ## Slugs -/

/-- `trim_end_matches('-')`. -/
def trimHyphens (t : Text) : Text := (t.reverse.dropWhile (· = '-')).reverse

/-- One character of a word: a letter or digit in lower case, one hyphen for a run of others. -/
def pushSlugChar (piece : Text) (ch : Char) : Text :=
  if ch.isAlphanum then piece ++ [ch.toLower]
  else if !piece.isEmpty && piece.getLast? ≠ some '-' then piece ++ ['-']
  else piece

/-- What a word gives a slug. -/
def slugPiece (word : Text) : Text := trimHyphens (word.foldl pushSlugChar [])

/-- `base` with the piece of one more word. -/
def pushSlugWord (base word : Text) : Text :=
  let piece := slugPiece word
  if piece.isEmpty then base else (if base.isEmpty then base else base ++ ['-']) ++ piece

/-- The task's id in lower case. -/
def fallbackSlug (id : TaskId) : Text := id.ulid.display.map Char.toLower

/-- Kebab-case slug of a task's plain words, cut short; its id when they leave nothing. -/
def generateSlug (plainWords : List Text) (id : TaskId) : Text :=
  let base := plainWords.foldl pushSlugWord []
  let base := base.dropWhile (!·.isAlphanum)
  let truncated := trimHyphens (base.take SLUG_GENERATE_MAX_LEN)
  if truncated.isEmpty then fallbackSlug id else truncated

/-- What the name tried at `attempt` adds to the slug: nothing, then `-2`, `-3`, … -/
def slugSuffix (attempt : Nat) : Text :=
  if attempt = 0 then [] else '-' :: Nat.toDigits 10 (attempt + 1)

/-- The name tried at `attempt`. -/
def suffixed (base : Text) (attempt : Nat) : Text := base ++ slugSuffix attempt

/-- The names a collision loop tries, in order. -/
def candidates (base : Text) : List Text :=
  (List.range (MAX_SLUG_COLLISIONS + 1)).map (suffixed base)

/-- Whether another task's `ref:` tag names `candidate`. -/
def slugTakenInDoc (s : DocState) (candidate : Text) (exclude : TaskId) : Bool :=
  s.taskLines.any fun (id, line) =>
    id ≠ exclude && (line.task.bind Task.refSlug) = some candidate

/-- The edit that sets or clears the `ref:` tag. -/
def refTagEdit (value : Option Text) : Edit :=
  let edit := match value with
    | some v => Edit.new.setTag "ref".toList v
    | none => Edit.new.removeTag "ref".toList
  match edit with
  | .ok edit => edit
  | .error _ => Edit.new

/-! ## Directories -/

/-- What a claim of a name found. -/
inductive Claim where
  | created
  | taken
  deriving DecidableEq

/-- The folder that holds the ref directories made if missing, then `name` in it made, which must not be
there. -/
def tryCreateDir (d : Disk) (name : Text) (parent : FolderPath) : Disk × Except IoError Claim :=
  match d.createDirAll parent with
  | (d, .error e) => (d, .error e)
  | (d, .ok ()) =>
    match d.createDir name parent with
    | (d, .ok ()) => (d, .ok .created)
    | (d, .error .alreadyExists) => (d, .ok .taken)
    | (d, .error e) => (d, .error e)

/-- One name tried for a moved directory. -/
def moveTurn (src destParent : FolderPath) (d : Disk) (candidate : Text) :
    Disk × Option (Except RefDirError Text) :=
  if d.has (candidate :: destParent) then (d, none)
  else
    match d.rename src candidate destParent with
    | (d, .ok ()) => (d, some (.ok candidate))
    | (d, .error .alreadyExists) => (d, none)
    | (d, .error source) =>
      (d, some (.error (.io "move directory".toList (candidate :: destParent) source)))

/-- Moves `src` into `destParent` under the first free name, and the name. -/
def moveRefDir (d : Disk) (src destParent : FolderPath) (baseSlug : Text) :
    Disk × Except RefDirError Text :=
  match d.createDirAll destParent with
  | (d, .error source) => (d, .error (.io "create directory".toList destParent source))
  | (d, .ok ()) =>
    match attempts (moveTurn src destParent) d (candidates baseSlug) with
    | (d, some result) => (d, result)
    | (d, none) => (d, .error .collisionsExhausted)

end Txtodo
