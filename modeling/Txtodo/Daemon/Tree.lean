import Txtodo.Model.Tree
import Txtodo.Daemon.Walker
import Mathlib.Data.List.Destutter

/-!
# The tree a workspace serves

`tree.rs` of the daemon: the folders the tree is built from, those of the lists registered and those that hold notes
only, and the answer made of it. What a list's actor is asked for is taken as given.
-/

namespace Txtodo

/-- A registered list: its path, its progress and its `ref:` tags. -/
structure ListActor where
  path : FilePath
  progress : Progress
  refTags : List RefTag

namespace Tree

/-- The node a document belongs to. -/
def nodeOf (layout : WorkspaceLayout) (path : FilePath) : NodeId :=
  if path = layout.rootList then .root else .ofFile path

/-- The last segment of a path. -/
def basename (path : FilePath) : Text := (path.asStr.splitOn '/').getLast (List.splitOn_ne_nil _ _)

/-- Folders that hold notes and no registered list; none when the walk fails. -/
def notesOnlyDirs (walk : Except Walker.WalkError (List FilePath)) (handles : List FilePath) (layout : WorkspaceLayout) :
    List NodeId :=
  let known := handles.map (nodeOf layout)
  match walk with
  | .error _ => []
  | .ok found =>
    let notes := found.filter fun p => Walker.isNotesDocument (basename p)
    let dirs := (notes.map NodeId.ofFile).filter fun id => id ∉ known
    (dirs.insertionSort (· ≤ ·)).destutter (· ≠ ·)

/-- What the tree is told of a registered list; a list beside the workspace's root that is not the root list is left
out. -/
def inputOf (layout : WorkspaceLayout) (a : ListActor) : Option NodeInput :=
  let node := nodeOf layout a.path
  if node.isRoot && a.path ≠ layout.rootList then none else some ⟨node, a.progress, a.refTags⟩

/-- What the tree is rebuilt from. -/
def rebuildInputs (actors : List ListActor) (walk : Except Walker.WalkError (List FilePath)) (layout : WorkspaceLayout) :
    List NodeInput :=
  actors.filterMap (inputOf layout) ++
    (notesOnlyDirs walk (actors.map ListActor.path) layout).map fun dir => ⟨dir, ⟨0, 0⟩, []⟩

def rebuildWorkspaceTree (actors : List ListActor) (walk : Except Walker.WalkError (List FilePath))
    (layout : WorkspaceLayout) : Except TreeError WorkspaceTree :=
  WorkspaceTree.buildWithLayout (rebuildInputs actors walk layout) layout

/-! ## The answer -/

/-- A document of an answer; `rest` is what else is said of it. -/
structure FileInfo (α : Type) where
  path : Text
  rest : α

/-- A node of an answer. -/
inductive TreeNode (α : Type) where
  | node (dir : Text) (progress : Progress) (ownerTaskId : Option TaskId) (files : List (FileInfo α))
      (children : List (TreeNode α))

variable {α : Type}

def filePathOf (f : FileInfo α) : FilePath :=
  match FilePath.new f.path with
  | .ok path => path
  | .error _ => ⟨DEFAULT_TODO_FILE⟩

/-- A node with the nodes below it, `none` below `levels` levels. -/
def buildNode (tree : WorkspaceTree) (files : List (FileInfo α)) (layout : WorkspaceLayout) :
    Nat → NodeId → Option (TreeNode α)
  | 0, _ => none
  | levels + 1, id =>
    let own := files.filter fun f => nodeOf layout (filePathOf f) = id
    ((tree.children id).mapM fun e => buildNode tree files layout levels e.2).map fun children =>
      .node ((id.dir.map FilePath.asStr).getD []) ((tree.progress id).getD ⟨0, 0⟩) (tree.owner id) own children

end Tree

end Txtodo
