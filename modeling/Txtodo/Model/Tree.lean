import Txtodo.Model.Layout
import Txtodo.Model.Op
import Txtodo.Std.OrdMap
import Mathlib.Data.Char
import Mathlib.Order.WithBot

/-!
# The workspace tree

`tree.rs` of the model crate: the graph of `ref:` folders and the workspace's root, with the progress of each, and what
one op can make stale in it.
-/

namespace Txtodo

/-- Deepest nesting the tree models. -/
def MAX_TREE_DEPTH : Nat := 32
/-- Most folders one tree may hold. -/
def MAX_TRACKED_REFS : Nat := 10000

/-- Counters of one node's own list. -/
structure Progress where
  done : Nat
  total : Nat
  deriving DecidableEq

/-- The workspace's root, or a `ref:` folder by its path. -/
structure NodeId where
  dir : Option FilePath
  deriving DecidableEq

namespace NodeId

/-- What nodes are ordered by, the root first. -/
def key (id : NodeId) : WithBot (List Nat) := id.dir.map FilePath.key

theorem key_injective : Function.Injective key := by
  rintro ⟨a⟩ ⟨b⟩ h
  exact congrArg mk (Option.map_injective FilePath.key_injective h)

instance : LinearOrder NodeId := LinearOrder.lift' key key_injective

def root : NodeId := ⟨none⟩

def ofDir (dir : FilePath) : NodeId := ⟨some dir⟩

def isRoot (id : NodeId) : Bool := id.dir.isNone

/-- Nesting depth, 0 for the root. -/
def depth (id : NodeId) : Nat := id.dir.elim 0 fun d => d.asStr.count '/' + 1

/-- The node of the folder a file is in. -/
def ofFile (file : FilePath) : NodeId :=
  match rsplitOnce file.asStr with
  | some (dir, _) =>
    match FilePath.new dir with
    | .ok dir => ofDir dir
    | .error _ => root
  | none => root

/-- The folder a tag's slug names in a node's list; the layout says where the root's are. -/
def child (id : NodeId) (slug : Text) (layout : WorkspaceLayout) : Option NodeId :=
  let joined := match id.dir with
    | none => layout.refDirOf slug
    | some dir => dir.asStr ++ '/' :: slug
  match FilePath.new joined with
  | .ok dir => some (ofDir dir)
  | .error _ => none

end NodeId

/-- One `ref:` tag of a node's own list. -/
structure RefTag where
  owner : TaskId
  slug : Text
  deriving DecidableEq

/-- What the tree is told of one folder. -/
structure NodeInput where
  id : NodeId
  progress : Progress
  refTags : List RefTag

/-- One resolved node. -/
structure Node where
  progress : Progress
  owner : Option TaskId
  children : OrdMap Text NodeId

/-- Why a tree was refused. -/
inductive TreeError where
  | tooMany (n : Nat)
  | tooDeep (id : NodeId)
  deriving DecidableEq

/-- The root and every folder found. -/
structure WorkspaceTree where
  nodes : OrdMap NodeId Node

/-- A node before its edges. -/
def Node.plain (progress : Progress) : Node := ⟨progress, none, .empty⟩

/-- Records the edge of one tag whose folder is there, and its folder's owner. -/
def linkChild (parent : NodeId) (layout : WorkspaceLayout) (nodes : OrdMap NodeId Node) (tag : RefTag) :
    OrdMap NodeId Node :=
  match parent.child tag.slug layout with
  | none => nodes
  | some child =>
    if (nodes.find? child).isNone then nodes
    else
      let nodes := nodes.modify child fun node => { node with owner := node.owner.or (some tag.owner) }
      nodes.modify parent fun node => { node with children := node.children.insert tag.slug child }

/-- The edges of a node's tags. -/
def linkChildren (nodes : OrdMap NodeId Node) (parent : NodeId) (tags : List RefTag) (layout : WorkspaceLayout) :
    OrdMap NodeId Node :=
  tags.foldl (linkChild parent layout) nodes

namespace WorkspaceTree

/-- Every folder with its progress. -/
def folders (inputs : List NodeInput) : OrdMap NodeId Node :=
  inputs.foldl (fun (nodes : OrdMap NodeId Node) i => nodes.insert i.id (.plain i.progress)) .empty

/-- Every folder with its progress, and the root. -/
def collect (inputs : List NodeInput) : OrdMap NodeId Node :=
  let nodes := folders inputs
  if (nodes.find? .root).isNone then nodes.insert .root (.plain ⟨0, 0⟩) else nodes

/-- The tree of the folders found; the layout says where the root list's `ref:` folders are. -/
def buildWithLayout (inputs : List NodeInput) (layout : WorkspaceLayout) : Except TreeError WorkspaceTree :=
  if MAX_TRACKED_REFS < inputs.length then .error (.tooMany inputs.length)
  else
    match inputs.find? fun i => MAX_TREE_DEPTH < i.id.depth with
    | some input => .error (.tooDeep input.id)
    | none => .ok ⟨inputs.foldl (fun nodes i => linkChildren nodes i.id i.refTags layout) (collect inputs)⟩

def progress (t : WorkspaceTree) (id : NodeId) : Option Progress := (t.nodes.find? id).map Node.progress

/-- The task whose tag points at a node. -/
def owner (t : WorkspaceTree) (id : NodeId) : Option TaskId := (t.nodes.find? id).bind Node.owner

/-- A node's folders by slug. -/
def children (t : WorkspaceTree) (id : NodeId) : List (Text × NodeId) :=
  ((t.nodes.find? id).map fun node => node.children.items).getD []

/-- Folders nothing points at. -/
def orphans (t : WorkspaceTree) : List NodeId :=
  (t.nodes.items.filter fun e => !e.1.isRoot && e.2.owner.isNone).map Prod.fst

end WorkspaceTree

end Txtodo
