import Txtodo.Model.Hlc
import Mathlib.Data.List.Lex
import Mathlib.Data.List.TakeDrop
import Mathlib.Data.List.TakeWhile

/-!
# Paths and where lists are kept

The paths of synced documents (`ids.rs`) and a workspace's layout (`layout.rs`): where its root list is and where
the folders of its `ref:` lines are.
-/

namespace Txtodo

namespace FilePath

/-- The bytes paths are ordered by. -/
def key (p : FilePath) : List Nat := (Utf8.encode p.asStr).map UInt8.toNat

theorem key_injective : Function.Injective key := by
  intro p q h
  have hbytes := List.map_injective_iff.2 (fun a b => UInt8.toNat_inj.1) h
  cases p
  cases q
  exact congrArg mk (Utf8.encode_injective hbytes)

instance : LinearOrder FilePath := LinearOrder.lift' key key_injective

end FilePath

/-- Longest path of a document, in bytes. -/
def FILE_PATH_MAX_BYTES : Nat := 1024

/-- Why a path was rejected. -/
inductive FilePathError where
  | empty
  | tooLong (len : Nat)
  | malformed (path : Text)
  deriving DecidableEq

/-- The parts of a path between its slashes. -/
def pathSegments (path : Text) : List Text := path.splitOn '/'

/-- Relative, forward slashes, no `.`, `..` or empty segments. -/
def FilePath.new (path : Text) : Except FilePathError FilePath :=
  if path.isEmpty then .error .empty
  else if FILE_PATH_MAX_BYTES < Utf8.size path then .error (.tooLong (Utf8.size path))
  else if path.head? = some '/' ∨ '\\' ∈ path then .error (.malformed path)
  else if (pathSegments path).any fun s => s = [] ∨ s = ['.'] ∨ s = ['.', '.'] then
    .error (.malformed path)
  else .ok ⟨path⟩

theorem FilePath.new_asStr {path : Text} {p : FilePath} (h : FilePath.new path = .ok p) : p.asStr = path := by
  unfold FilePath.new at h
  split_ifs at h
  rw [← Except.ok.inj h]

/-- The path in front of its last segment and the last segment, when there is a `/`. -/
def rsplitOnce (path : Text) : Option (Text × Text) :=
  match path.reverse.span (· ≠ '/') with
  | (_, []) => none
  | (name, _ :: dir) => some (dir.reverse, name.reverse)

theorem rsplitOnce_append {dir name : Text} (h : '/' ∉ name) : rsplitOnce (dir ++ '/' :: name) = some (dir, name) := by
  have hname : ∀ c ∈ name.reverse, decide (c ≠ '/') = true := by
    intro c hc
    refine decide_eq_true fun heq => h ?_
    rw [← heq]
    exact List.mem_reverse.1 hc
  have hrev : (dir ++ '/' :: name).reverse = name.reverse ++ '/' :: dir.reverse := by simp
  rw [rsplitOnce, hrev, List.span_eq_takeWhile_dropWhile, List.takeWhile_append_of_pos hname,
    List.dropWhile_append_of_pos hname]
  simp

theorem rsplitOnce_eq_none {path : Text} (h : '/' ∉ path) : rsplitOnce path = none := by
  have hpath : ∀ c ∈ path.reverse, decide (c ≠ '/') = true := by
    intro c hc
    refine decide_eq_true fun heq => h ?_
    rw [← heq]
    exact List.mem_reverse.1 hc
  rw [rsplitOnce, List.span_eq_takeWhile_dropWhile, List.dropWhile_eq_nil_iff.2 hpath]

theorem eq_of_rsplitOnce {path dir name : Text} (h : rsplitOnce path = some (dir, name)) :
    path = dir ++ '/' :: name ∧ '/' ∉ name := by
  by_cases hslash : '/' ∈ path
  · obtain ⟨back, front, hrev, hback⟩ := List.eq_append_cons_of_mem (List.mem_reverse.2 hslash)
    have hpath : path = front.reverse ++ '/' :: back.reverse := by
      rw [← List.reverse_reverse path, hrev, List.reverse_append, List.reverse_cons, List.append_assoc,
        List.singleton_append]
    have hname : '/' ∉ back.reverse := fun hmem => hback (List.mem_reverse.1 hmem)
    rw [hpath, rsplitOnce_append hname] at h
    obtain ⟨rfl, rfl⟩ := Prod.mk.inj (Option.some.inj h)
    exact ⟨hpath, hname⟩
  · rw [rsplitOnce_eq_none hslash] at h
    cases h

/-! ## Layouts -/

def DEFAULT_TODO_FILE : Text := "todo.txt".toList
def DEFAULT_REFS_DIR : Text := "tasks".toList
/-- A `refs_dir` of `.` puts ref dirs beside the list file. -/
def BESIDE_THE_LIST : Text := ['.']
def NOTES_FILE_NAME : Text := "notes.md".toList
/-- The daemon's own state folder. -/
def LAYOUT_STATE_DIR : Text := ".txtodo".toList

/-- Which setting of a layout. -/
inductive LayoutSetting where
  | refsDir
  | todoFile
  deriving DecidableEq

/-- Why a layout was refused. -/
inductive LayoutError where
  | path (setting : LayoutSetting) (source : FilePathError)
  | notesFile (value : Text)
  | colon (setting : LayoutSetting) (value : Text)
  | insideStateDir (setting : LayoutSetting) (value : Text)
  | notAFile (value : Text)
  deriving DecidableEq

/-- A workspace's layout: the root list and the folder for its lines' ref dirs. -/
structure WorkspaceLayout where
  refsDir : Text
  todoFile : FilePath
  deriving DecidableEq

/-- The rules every synced layout path shares. -/
def checkLayoutPath (setting : LayoutSetting) (value : Text) : Except LayoutError Unit :=
  match FilePath.new value with
  | .error source => .error (.path setting source)
  | .ok _ =>
    if ':' ∈ value then .error (.colon setting value)
    else if ((pathSegments value).headD []).map Char.toLower = LAYOUT_STATE_DIR then .error (.insideStateDir setting value)
    else .ok ()

namespace WorkspaceLayout

/-- Validates a layout; an empty text means the default of that setting. -/
def new (refsDir todoFile : Text) : Except LayoutError WorkspaceLayout :=
  let refsDir := if refsDir.isEmpty then DEFAULT_REFS_DIR else refsDir
  let todoFile := if todoFile.isEmpty then DEFAULT_TODO_FILE else todoFile
  match if refsDir ≠ BESIDE_THE_LIST then checkLayoutPath .refsDir refsDir else .ok () with
  | .error e => .error e
  | .ok () =>
    if todoFile = BESIDE_THE_LIST then .error (.notAFile todoFile)
    else
      match checkLayoutPath .todoFile todoFile with
      | .error e => .error e
      | .ok () =>
        if (pathSegments todoFile).getLast? = some NOTES_FILE_NAME then .error (.notesFile todoFile)
        else
          match FilePath.new todoFile with
          | .error source => .error (.path .todoFile source)
          | .ok todoFile => .ok ⟨refsDir, todoFile⟩

/-- `todo.txt` at the root, ref dirs beside it. -/
def besideTheList : WorkspaceLayout := ⟨BESIDE_THE_LIST, ⟨DEFAULT_TODO_FILE⟩⟩

/-- Whether ref dirs sit beside the list file. -/
def refsBesideList (l : WorkspaceLayout) : Bool := l.refsDir = BESIDE_THE_LIST

/-- The folder of the ref dirs of the lines in `owner`, `[]` for the root itself. -/
def refsParentOf (l : WorkspaceLayout) (owner : FilePath) : Text :=
  let beside (file : Text) : Text := ((rsplitOnce file).map Prod.fst).getD []
  if owner ≠ l.todoFile then beside owner.asStr
  else if l.refsBesideList then beside l.todoFile.asStr
  else l.refsDir

/-- The root list. -/
def rootList (l : WorkspaceLayout) : FilePath := l.todoFile

/-- The ref dir of `slug` for a line in the root list. -/
def refDirOf (l : WorkspaceLayout) (slug : Text) : Text :=
  if l.refsBesideList then
    match rsplitOnce l.todoFile.asStr with
    | some (dir, _) => dir ++ '/' :: slug
    | none => slug
  else l.refsDir ++ '/' :: slug

end WorkspaceLayout

end Txtodo
