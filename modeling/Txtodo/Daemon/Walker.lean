import Txtodo.Model.Layout
import Txtodo.Std.FileTree
import Txtodo.Std.Loop
import Mathlib.Data.List.Sort

/-!
# The walk of a workspace

`walker.rs` and `walk_scope.rs`: which folders a workspace's walk enters, the documents it finds, and when two
workspace roots share lists. Nothing on the disk changes during a walk, and the root is a canonical path.
-/

namespace Txtodo

namespace Walker

/-- The names the walker finds. -/
def DOCUMENT_NAMES : List Text := ["todo.txt".toList, "notes.md".toList]
def NOTES_DOCUMENT_NAME : Text := "notes.md".toList
/-- Deepest folder visited. -/
def WALK_MAX_DEPTH : Nat := 32
/-- Most documents one workspace may hold. -/
def WALK_MAX_FILES : Nat := 10000
/-- The daemon's own state folder. -/
def STATE_DIR : Text := ".txtodo".toList
/-- Names of folders a walk never enters. -/
def SKIPPED_DIR_NAMES : List Text := [".git".toList, "node_modules".toList]

/-- Why a walk stopped. -/
inductive WalkError where
  | io (path : OsPath)
  | tooDeep (path : OsPath)
  | tooMany (n : Nat)
  | badName (path : OsPath)
  deriving DecidableEq

def isDocumentName (name : Text) : Bool := name ∈ DOCUMENT_NAMES

def isNotesDocument (name : Text) : Bool := name = NOTES_DOCUMENT_NAME

/-! ## Folders that are skipped -/

/-- The name a path ends in, when it is text. -/
def fileName (p : OsPath) : Option Text := p.getLast?.bind Utf8.decode

/-- The folder a path is in; the top is in none. -/
def parentOf (p : OsPath) : Option OsPath := if p = [] then none else some p.dropLast

/-- `dir.join(name)`. -/
def join (dir : OsPath) (name : Text) : OsPath := dir ++ [Utf8.encode name]

/-- True for a folder that is never part of a workspace's documents. -/
def isSkippedDir (t : FileTree) (dir : OsPath) : Bool :=
  match fileName dir with
  | none => false
  | some name =>
    if name ∈ SKIPPED_DIR_NAMES || (t.kindAt (join dir ".git".toList)).isSome then true
    else if name = "target".toList then
      t.isFile (join dir "CACHEDIR.TAG".toList) || (parentOf dir).any fun p => t.isFile (join p "Cargo.toml".toList)
    else if name = "worktrees".toList then (parentOf dir).bind fileName = some ".claude".toList
    else false

/-- What follows `root` in a path at or below it. -/
def stripPrefix (root path : OsPath) : Option (List FileName) :=
  if root <+: path then some (path.drop root.length) else none

/-- True for a path under a folder skipped by its name alone. -/
def isSkippedPath (path : FilePath) : Bool :=
  let dirs := (path.asStr.splitOn '/').dropLast
  dirs.any (· ∈ SKIPPED_DIR_NAMES) ||
    (dirs.zip dirs.tail).any fun pair => pair = (".claude".toList, "worktrees".toList)

/-- Whether one of the paths from `dir` down `below` is skipped. -/
def anySkipped (t : FileTree) (dir : OsPath) : List FileName → Bool
  | [] => false
  | part :: below => isSkippedDir t (dir ++ [part]) || anySkipped t (dir ++ [part]) below

/-- True when `path` is at or below a skipped folder inside `root`. -/
def isInSkippedDir (t : FileTree) (root path : OsPath) : Bool := (stripPrefix root path).any (anySkipped t root)

/-- Whether a walk enters a folder. -/
def walkEnters (t : FileTree) (dir : OsPath) : Bool :=
  dir.getLast? ≠ some (Utf8.encode STATE_DIR) && !isSkippedDir t dir

/-- The path of a document from the root, with `/` between its parts. -/
def relative (root path : OsPath) : Except WalkError FilePath :=
  match (stripPrefix root path).bind fun below => below.mapM Utf8.decode with
  | none => .error (.badName path)
  | some parts =>
    match FilePath.new (['/'].intercalate parts) with
    | .error _ => .error (.badName path)
    | .ok p => .ok p

/-- Folders still to list with their depths, the next one first, and the documents found. -/
structure Walk where
  stack : List (OsPath × Nat)
  found : List FilePath

/-- One entry of a folder: a folder to enter is pushed, a document is found. -/
def visit (t : FileTree) (root : OsPath) (extra : Option OsPath) (dir : OsPath) (depth : Nat) (w : Walk)
    (entry : FileName × FileKind) : Except WalkError Walk :=
  let path := dir ++ [entry.1]
  match Utf8.decode entry.1 with
  | none => .error (.badName path)
  | some name =>
    match entry.2 with
    | .dir _ =>
      if name ≠ STATE_DIR && !isSkippedDir t path then .ok { w with stack := (path, depth + 1) :: w.stack }
      else .ok w
    | .file =>
      if isDocumentName name || extra = some path then
        if w.found.length = WALK_MAX_FILES then .error (.tooMany (w.found.length + 1))
        else match relative root path with
          | .error e => .error e
          | .ok p => .ok { w with found := w.found ++ [p] }
      else .ok w
    -- links are not followed
    | .link _ | .other => .ok w

/-- Lists the next folder of the stack. -/
def walkTurn (t : FileTree) (root : OsPath) (extra : Option OsPath) (w : Walk) :
    Walk ⊕ Except WalkError (List FilePath) :=
  match w.stack with
  | [] => .inr (.ok (w.found.insertionSort (· ≤ ·)))
  | (dir, depth) :: stack =>
    if WALK_MAX_DEPTH < depth then .inr (.error (.tooDeep dir))
    else match t.readDir dir with
      | none => .inr (.error (.io dir))
      | some entries =>
        match entries.foldlM (visit t root extra dir depth) { w with stack := stack } with
        | .error e => .inr (.error e)
        | .ok w => .inl w

/-- Every document under `root` and the one at `extra`, sorted, within `turns` turns of the walk. -/
def walkInner (turns : Nat) (t : FileTree) (root : OsPath) (extra : Option OsPath) :
    Option (Except WalkError (List FilePath)) :=
  loop (walkTurn t root extra) turns ⟨[(root, 0)], []⟩

end Walker

end Txtodo
