import Txtodo.Daemon.Tree
import Txtodo.Daemon.Proofs.WalkerProofs
import Txtodo.Model.Proofs.TreeProofs

/-!
# The tree of a walked workspace

The tree of a workspace whose walk goes through is never refused; its nodes are those of the lists and notes found, and
the answer shows each node an edge leads to from the root. A `ref:` folder is made where the tree looks for it.
-/

namespace Txtodo

namespace Tree

variable {layout : WorkspaceLayout} {actors : List ListActor} {p : FilePath} {id : NodeId}
  {found : List FilePath} {walk : Except Walker.WalkError (List FilePath)}

/-! ## How deep a document is -/

theorem length_splitOn (path : Text) : (path.splitOn '/').length = path.count '/' + 1 := by
  induction path with
  | nil => rfl
  | cons c path ih =>
    by_cases h : c = '/'
    · subst h
      have hsplit := List.splitOn_append_cons_self (a := '/') [] path
      rw [List.nil_append, List.splitOn_nil] at hsplit
      rw [hsplit, List.length_append, ih, List.count_cons_self, List.length_singleton]
      omega
    · rw [List.splitOn_cons_eq_if_modifyHead, if_neg (by simpa using h), List.length_modifyHead, ih,
        List.count_cons_of_ne h]

theorem depth_ofFile_le (p : FilePath) : (NodeId.ofFile p).depth ≤ p.asStr.count '/' := by
  unfold NodeId.ofFile
  split
  · rename_i dir name hsplit
    split
    · rename_i d hd
      have hpath := (eq_of_rsplitOnce hsplit).1
      show d.asStr.count '/' + 1 ≤ _
      rw [FilePath.new_asStr hd, hpath, List.count_append, List.count_cons_self]
      omega
    · exact Nat.zero_le _
  · exact Nat.zero_le _

theorem depth_nodeOf_le (layout : WorkspaceLayout) (p : FilePath) : (nodeOf layout p).depth ≤ p.asStr.count '/' := by
  unfold nodeOf
  split
  · exact Nat.zero_le _
  · exact depth_ofFile_le p

section Walked

variable {t : FileTree} {root : OsPath} {extra : Option OsPath} {turns : Nat}

/-- A document found is no deeper than the walk goes. -/
theorem count_le_of_found (h : Walker.walkInner turns t root extra = some (.ok found)) (hp : p ∈ found) :
    p.asStr.count '/' ≤ MAX_TREE_DEPTH := by
  obtain ⟨hwalkable, l, rfl, hl⟩ := Walker.found_perm h
  obtain ⟨d, hd, hrel⟩ := (Walker.mem_found hl).1 hp
  obtain ⟨hdoc, hne, hlisted⟩ := Walker.mem_documents.1 hd
  have hdepth := (hwalkable.listable _ hlisted).depth
  have hparts := congrArg List.length (Walker.relative_segments (Walker.proper_of_document hdoc) hrel)
  rw [List.length_append, List.length_map, length_splitOn] at hparts
  rw [List.length_dropLast, hparts] at hdepth
  have hmax : Walker.WALK_MAX_DEPTH = MAX_TREE_DEPTH := rfl
  omega

theorem length_found_le (h : Walker.walkInner turns t root extra = some (.ok found)) :
    found.length ≤ MAX_TRACKED_REFS := by
  obtain ⟨hwalkable, l, rfl, hl⟩ := Walker.found_perm h
  rw [List.length_insertionSort, hl.length_eq]
  exact (List.length_filterMap_le _ _).trans hwalkable.fits

theorem found_nodup (h : Walker.walkInner turns t root extra = some (.ok found)) : found.Nodup := by
  obtain ⟨-, l, rfl, hl⟩ := Walker.found_perm h
  have hnodup := Walker.named_nodup root (Walker.documents_nodup t root extra) fun d => Walker.isDocument_of_mem
  exact (List.perm_insertionSort _ l).nodup_iff.2 (hl.nodup_iff.2 hnodup)

/-- A walk that looks for one more document finds all the others too. -/
theorem found_subset {turns' : Nat} {found' : List FilePath}
    (h : Walker.walkInner turns t root none = some (.ok found))
    (h' : Walker.walkInner turns' t root extra = some (.ok found')) : found ⊆ found' := by
  intro p hp
  obtain ⟨-, l, rfl, hl⟩ := Walker.found_perm h
  obtain ⟨-, l', rfl, hl'⟩ := Walker.found_perm h'
  obtain ⟨d, hd, hrel⟩ := (Walker.mem_found hl).1 hp
  obtain ⟨⟨hkind, hname⟩, hrest⟩ := Walker.mem_documents.1 hd
  refine (Walker.mem_found hl').2 ⟨d, Walker.mem_documents.2 ⟨⟨hkind, .inl ?_⟩, hrest⟩, hrel⟩
  simpa using hname

end Walked

/-! ## What the tree is rebuilt from -/

theorem mem_destutter' {α : Type} [DecidableEq α] {a b : α} {l : List α} :
    a ∈ l.destutter' (· ≠ ·) b ↔ a = b ∨ a ∈ l := by
  induction l generalizing b with
  | nil => simp
  | cons c l ih =>
    by_cases h : b ≠ c
    · rw [List.destutter'_cons_pos l h, List.mem_cons, ih, List.mem_cons]
    · rw [List.destutter'_cons_neg l h, ih, List.mem_cons]
      rw [not_not.1 h, or_self_left]

theorem mem_destutter {α : Type} [DecidableEq α] {a : α} {l : List α} : a ∈ l.destutter (· ≠ ·) ↔ a ∈ l := by
  cases l with
  | nil => exact Iff.rfl
  | cons b l => exact mem_destutter'.trans List.mem_cons.symm

theorem mem_notesOnlyDirs {handles : List FilePath} :
    id ∈ notesOnlyDirs (.ok found) handles layout ↔
      (∃ p ∈ found, Walker.isNotesDocument (basename p) = true ∧ NodeId.ofFile p = id) ∧
        ∀ h ∈ handles, nodeOf layout h ≠ id := by
  rw [notesOnlyDirs]
  simp only [mem_destutter, List.mem_insertionSort, List.mem_filter, List.mem_map, decide_eq_true_eq, not_exists,
    not_and, and_assoc]

theorem length_notesOnlyDirs_le (handles : List FilePath) :
    (notesOnlyDirs (.ok found) handles layout).length ≤
      (found.filter fun p => Walker.isNotesDocument (basename p)).length := by
  rw [notesOnlyDirs]
  refine (List.destutter_sublist _ _).length_le.trans ?_
  rw [List.length_insertionSort]
  exact List.length_filter_le _ _ |>.trans (List.length_map _).le

/-- Lists registered with the documents a walk found: no two of one path, and none of them notes. -/
structure Registered (found : List FilePath) (actors : List ListActor) : Prop where
  nodup : (actors.map ListActor.path).Nodup
  found : ∀ a ∈ actors, a.path ∈ found
  lists : ∀ a ∈ actors, Walker.isNotesDocument (basename a.path) = false

variable {t : FileTree} {root : OsPath} {extra : Option OsPath} {turns turns' : Nat} {found' : List FilePath}

/-- There are no more inputs than documents. -/
theorem length_rebuildInputs_le (layout : WorkspaceLayout) (hnodup : found.Nodup) (hsub : found ⊆ found')
    (h : Registered found' actors) :
    (rebuildInputs actors (.ok found) layout).length ≤ found'.length := by
  have hall : (actors.map ListActor.path ++ found.filter fun p => Walker.isNotesDocument (basename p)).Nodup := by
    refine List.nodup_append'.2 ⟨h.nodup, hnodup.filter _, fun p hp hnotes => ?_⟩
    obtain ⟨a, ha, rfl⟩ := List.mem_map.1 hp
    have hlist := h.lists a ha
    rw [(List.mem_filter.1 hnotes).2] at hlist
    cases hlist
  have hin : (actors.map ListActor.path ++ found.filter fun p => Walker.isNotesDocument (basename p)) ⊆ found' := by
    intro p hp
    rcases List.mem_append.1 hp with hp | hp
    · obtain ⟨a, ha, rfl⟩ := List.mem_map.1 hp
      exact h.found a ha
    · exact hsub (List.mem_filter.1 hp).1
  have hle := (hall.subperm hin).length_le
  rw [List.length_append, List.length_map] at hle
  rw [rebuildInputs, List.length_append, List.length_map]
  exact (Nat.add_le_add (List.length_filterMap_le _ _) (length_notesOnlyDirs_le _)).trans hle

theorem mem_rebuildInputs {i : NodeInput} (h : i ∈ rebuildInputs actors walk layout) :
    (∃ a ∈ actors, inputOf layout a = some i) ∨ ∃ found p, walk = .ok found ∧ p ∈ found ∧ NodeId.ofFile p = i.id := by
  rcases List.mem_append.1 h with h | h
  · exact .inl (List.mem_filterMap.1 h)
  · obtain ⟨dir, hdir, rfl⟩ := List.mem_map.1 h
    cases walk with
    | error e => cases hdir
    | ok found =>
      obtain ⟨⟨p, hp, -, hid⟩, -⟩ := mem_notesOnlyDirs.1 hdir
      exact .inr ⟨found, p, rfl, hp, hid⟩

theorem inputOf_id {a : ListActor} {i : NodeInput} (h : inputOf layout a = some i) : i.id = nodeOf layout a.path := by
  rw [inputOf] at h
  split at h
  · cases h
  · rw [← Option.some.inj h]

/-- The nodes of a rebuilt tree: the root, the nodes of the lists, and the folders of the notes found. -/
theorem isNode_rebuildInputs : WorkspaceTree.IsNode (rebuildInputs actors (.ok found) layout) id ↔
    id = .root ∨ (∃ a ∈ actors, nodeOf layout a.path = id) ∨
      ∃ p ∈ found, Walker.isNotesDocument (basename p) = true ∧ NodeId.ofFile p = id := by
  rw [WorkspaceTree.IsNode]
  by_cases hroot : id = .root
  · simp [hroot]
  rw [or_iff_right hroot, or_iff_right hroot]
  constructor
  · rintro ⟨i, hi, rfl⟩
    rcases List.mem_append.1 hi with hi | hi
    · obtain ⟨a, ha, hinput⟩ := List.mem_filterMap.1 hi
      exact .inl ⟨a, ha, (inputOf_id hinput).symm⟩
    · obtain ⟨dir, hdir, rfl⟩ := List.mem_map.1 hi
      exact .inr (mem_notesOnlyDirs.1 hdir).1
  · intro h
    by_cases hlist : ∃ a ∈ actors, nodeOf layout a.path = id
    · obtain ⟨a, ha, hid⟩ := hlist
      refine ⟨⟨nodeOf layout a.path, a.progress, a.refTags⟩, List.mem_append_left _ (List.mem_filterMap.2 ⟨a, ha, ?_⟩), hid⟩
      rw [inputOf, hid]
      refine if_neg fun hcond => hroot ?_
      rw [Bool.and_eq_true] at hcond
      obtain ⟨dir⟩ := id
      rw [NodeId.isRoot, Option.isNone_iff_eq_none] at hcond
      exact congrArg NodeId.mk hcond.1
    · have hnotes := h.resolve_left hlist
      refine ⟨⟨id, ⟨0, 0⟩, []⟩, List.mem_append_right _ (List.mem_map.2 ⟨id, mem_notesOnlyDirs.2 ⟨hnotes, ?_⟩, rfl⟩), rfl⟩
      intro path hpath hid
      obtain ⟨a, ha, rfl⟩ := List.mem_map.1 hpath
      exact hlist ⟨a, ha, hid⟩

/-- The tree of a workspace whose walk goes through is never refused, and its nodes are the root, the nodes of its lists
and the folders that hold notes. -/
theorem rebuild_of_walk (hwalk : Walker.walkInner turns t root none = some (.ok found))
    (hwalk' : Walker.walkInner turns' t root extra = some (.ok found')) (h : Registered found' actors) :
    ∃ tree, rebuildWorkspaceTree actors (.ok found) layout = .ok tree ∧
      ∀ id, (tree.progress id).isSome ↔ id = .root ∨ (∃ a ∈ actors, nodeOf layout a.path = id) ∨
        ∃ p ∈ found, Walker.isNotesDocument (basename p) = true ∧ NodeId.ofFile p = id := by
  have hsub := found_subset hwalk hwalk'
  have hdeep : ∀ i ∈ rebuildInputs actors (.ok found) layout, i.id.depth ≤ MAX_TREE_DEPTH := by
    intro i hi
    rcases mem_rebuildInputs hi with ⟨a, ha, hinput⟩ | ⟨found'', p, heq, hp, hid⟩
    · rw [inputOf_id hinput]
      exact (depth_nodeOf_le layout _).trans (count_le_of_found hwalk' (h.found a ha))
    · obtain rfl := Except.ok.inj heq
      rw [← hid]
      exact (depth_ofFile_le p).trans (count_le_of_found hwalk hp)
  have hfew := (length_rebuildInputs_le layout (found_nodup hwalk) hsub h).trans (length_found_le hwalk')
  have hbuilt : WorkspaceTree.buildWithLayout (rebuildInputs actors (.ok found) layout) layout = .ok _ :=
    WorkspaceTree.buildWithLayout_ok.2 ⟨hfew, hdeep, rfl⟩
  refine ⟨_, hbuilt, fun id => ?_⟩
  rw [← isNode_rebuildInputs, ← WorkspaceTree.find?_collect_isSome, ← (WorkspaceTree.linked_of_build hbuilt).there,
    WorkspaceTree.progress, Option.isSome_map]

/-- A workspace `w` with a list, a list below it and a folder of notes nothing points at. -/
def nestedTree : FileTree where
  nodes :=
    let w : OsPath := Walker.join [] "w".toList
    let plan : OsPath := Walker.join w "plan".toList
    let ideas : OsPath := Walker.join w "ideas".toList
    [([], .dir true), (w, .dir true), (Walker.join w "todo.txt".toList, .file), (plan, .dir true),
      (Walker.join plan "todo.txt".toList, .file), (ideas, .dir true), (Walker.join ideas "notes.md".toList, .file)]
  nodup := by decide +kernel
  proper := by decide +kernel
  closed := FileTree.closed_of_dropLast (by decide +kernel)

theorem rebuild_of_walk_sample :
    let found : List FilePath := [⟨"ideas/notes.md".toList⟩, ⟨"plan/todo.txt".toList⟩, ⟨"todo.txt".toList⟩]
    let actors : List ListActor := [⟨⟨"todo.txt".toList⟩, ⟨0, 1⟩, [⟨⟨1, by decide⟩, "plan".toList⟩]⟩,
      ⟨⟨"plan/todo.txt".toList⟩, ⟨1, 2⟩, []⟩]
    Walker.walkInner 10 nestedTree (Walker.join [] "w".toList) none = some (.ok found) ∧
      ∃ tree, rebuildWorkspaceTree actors (.ok found) .besideTheList = .ok tree ∧
        ∀ id, (tree.progress id).isSome ↔
          id = .root ∨ id = .ofDir ⟨"plan".toList⟩ ∨ id = .ofDir ⟨"ideas".toList⟩ := by
  intro found actors
  have hwalk : Walker.walkInner 10 nestedTree (Walker.join [] "w".toList) none = some (.ok found) := by
    decide +kernel
  have hactors : Registered found actors := ⟨by decide, by decide, by decide +kernel⟩
  obtain ⟨tree, htree, hnodes⟩ := rebuild_of_walk hwalk hwalk hactors
  have hlists : actors.map (fun a => nodeOf .besideTheList a.path) = [.root, .ofDir ⟨"plan".toList⟩] := by
    decide +kernel
  have hnotes : (found.filter fun p => Walker.isNotesDocument (basename p)).map NodeId.ofFile =
      [.ofDir ⟨"ideas".toList⟩] := by decide +kernel
  refine ⟨hwalk, tree, htree, fun id => ?_⟩
  have hlist : (∃ a ∈ actors, nodeOf .besideTheList a.path = id) ↔ id = .root ∨ id = .ofDir ⟨"plan".toList⟩ := by
    rw [← List.mem_map (f := fun a : ListActor => nodeOf .besideTheList a.path), hlists, List.mem_cons,
      List.mem_singleton]
  have hnote : (∃ p ∈ found, Walker.isNotesDocument (basename p) = true ∧ NodeId.ofFile p = id) ↔
      id = .ofDir ⟨"ideas".toList⟩ := by
    rw [← List.mem_singleton, ← hnotes, List.mem_map]
    simp only [List.mem_filter, and_assoc]
  rw [hnodes, hlist, hnote, ← or_assoc, ← or_assoc, or_self, or_assoc]

/-! ## The answer -/

section Answer

variable {α : Type} {tree : WorkspaceTree} {files : List (FileInfo α)} {inputs : List NodeInput} {levels : Nat}

mutual

/-- A node of an answer and the nodes below it. -/
def TreeNode.all : TreeNode α → List (TreeNode α)
  | .node dir progress owner files children => .node dir progress owner files children :: allIn children

/-- Nodes and those below them. -/
def allIn : List (TreeNode α) → List (TreeNode α)
  | [] => []
  | n :: rest => n.all ++ allIn rest

end

theorem mem_allIn {x : TreeNode α} {l : List (TreeNode α)} : x ∈ allIn l ↔ ∃ n ∈ l, x ∈ n.all := by
  induction l with
  | nil => simp [allIn]
  | cons n l ih => rw [allIn, List.mem_append, ih, List.exists_mem_cons_iff]

/-- What an answer says of a node: its path, its progress, its owner and the documents in it. -/
def Shows (tree : WorkspaceTree) (files : List (FileInfo α)) (layout : WorkspaceLayout) (id : NodeId) :
    TreeNode α → Prop
  | .node dir progress owner own _ =>
    dir = (id.dir.map FilePath.asStr).getD [] ∧ progress = (tree.progress id).getD ⟨0, 0⟩ ∧ owner = tree.owner id ∧
      own = files.filter fun f => nodeOf layout (filePathOf f) = id

/-- An answer from a node on: it shows the nodes edges lead to from there and nothing else. -/
structure Answers (tree : WorkspaceTree) (files : List (FileInfo α)) (layout : WorkspaceLayout) (id : NodeId)
    (x : TreeNode α) : Prop where
  shown : ∀ id', Relation.ReflTransGen tree.Edge id id' → ∃ y ∈ x.all, Shows tree files layout id' y
  only : ∀ y ∈ x.all, ∃ id', Relation.ReflTransGen tree.Edge id id' ∧ Shows tree files layout id' y

theorem mapM_some {β γ : Type} {f : β → Option γ} {l : List β} (h : ∀ b ∈ l, ∃ c, f b = some c) :
    ∃ cs, l.mapM f = some cs ∧ List.Forall₂ (fun b c => f b = some c) l cs := by
  induction l with
  | nil => exact ⟨[], rfl, .nil⟩
  | cons b l ih =>
    obtain ⟨c, hc⟩ := h b List.mem_cons_self
    obtain ⟨cs, hcs, hall⟩ := ih fun b hb => h b (List.mem_cons_of_mem _ hb)
    refine ⟨c :: cs, ?_, .cons hc hall⟩
    rw [List.mapM_cons, hc, hcs]
    rfl

theorem exists_right {β γ : Type} {R : β → γ → Prop} {l : List β} {cs : List γ} (h : List.Forall₂ R l cs) {b : β}
    (hb : b ∈ l) : ∃ c ∈ cs, R b c := by
  induction h with
  | nil => cases hb
  | cons hR _ ih =>
    rcases List.mem_cons.1 hb with rfl | hb
    · exact ⟨_, List.mem_cons_self, hR⟩
    · obtain ⟨c, hc, hRc⟩ := ih hb
      exact ⟨c, List.mem_cons_of_mem _ hc, hRc⟩

/-- A node is answered when enough levels are left below it. -/
theorem buildNode_answers (files : List (FileInfo α)) (h : WorkspaceTree.buildWithLayout inputs layout = .ok tree)
    (hnode : WorkspaceTree.IsNode inputs id) (hlevels : MAX_TREE_DEPTH < id.depth + levels) :
    ∃ x, buildNode tree files layout levels id = some x ∧ Answers tree files layout id x := by
  induction levels generalizing id with
  | zero =>
    have hdepth : id.depth ≤ MAX_TREE_DEPTH := by
      obtain ⟨-, hdeep, -⟩ := WorkspaceTree.buildWithLayout_ok.1 h
      rcases hnode with rfl | ⟨i, hi, rfl⟩
      · exact Nat.zero_le _
      · exact hdeep i hi
    exact absurd hlevels (not_lt.2 hdepth)
  | succ levels ih =>
    have hchildren : ∀ e ∈ tree.children id, ∃ x, buildNode tree files layout levels e.2 = some x ∧
        Answers tree files layout e.2 x := by
      rintro ⟨slug, c⟩ he
      obtain ⟨-, hc, hchild⟩ := WorkspaceTree.edge_nodes h he
      have hdeeper := WorkspaceTree.child_depth hchild
      exact ih hc (by show MAX_TREE_DEPTH < c.depth + levels; omega)
    obtain ⟨xs, hxs, hall⟩ := mapM_some fun e he => (hchildren e he).imp fun x hx => hx.1
    have hanswers : ∀ e ∈ tree.children id, ∀ x, buildNode tree files layout levels e.2 = some x →
        Answers tree files layout e.2 x := by
      intro e he x hx
      obtain ⟨x', hx', hans⟩ := hchildren e he
      rw [hx] at hx'
      exact Option.some.inj hx' ▸ hans
    refine ⟨_, by rw [buildNode, hxs, Option.map_some], ⟨fun id' hpath => ?_, fun y hy => ?_⟩⟩
    · rcases Relation.ReflTransGen.cases_head hpath with rfl | ⟨m, ⟨slug, hedge⟩, hrest⟩
      · exact ⟨_, List.mem_cons_self, rfl, rfl, rfl, rfl⟩
      · obtain ⟨x, hx, hbuilt⟩ := exists_right hall hedge
        obtain ⟨y, hy, hshows⟩ := (hanswers _ hedge x hbuilt).shown id' hrest
        exact ⟨y, List.mem_cons_of_mem _ (mem_allIn.2 ⟨x, hx, hy⟩), hshows⟩
    · rcases List.mem_cons.1 hy with rfl | hy
      · exact ⟨id, .refl, rfl, rfl, rfl, rfl⟩
      · obtain ⟨x, hx, hy⟩ := mem_allIn.1 hy
        obtain ⟨⟨slug, c⟩, he, hbuilt⟩ := exists_right hall.flip hx
        obtain ⟨id', hpath, hshows⟩ := (hanswers _ he x hbuilt).only y hy
        exact ⟨id', .head ⟨slug, he⟩ hpath, hshows⟩

/-- The answer is finished within the depth a tree may have, and it shows just the nodes that edges lead to from the
root, each with its own documents. -/
theorem toPbTree_answers (files : List (FileInfo α)) (h : WorkspaceTree.buildWithLayout inputs layout = .ok tree) :
    ∃ x, buildNode tree files layout (MAX_TREE_DEPTH + 1) .root = some x ∧
      (∀ id, Relation.ReflTransGen tree.Edge .root id → ∃ y ∈ x.all, Shows tree files layout id y) ∧
      ∀ y ∈ x.all, ∃ id, Relation.ReflTransGen tree.Edge .root id ∧ Shows tree files layout id y := by
  obtain ⟨x, hx, hanswers⟩ := buildNode_answers files h (.inl rfl) (Nat.lt_add_left NodeId.root.depth (Nat.lt_succ_self MAX_TREE_DEPTH))
  exact ⟨x, hx, hanswers.shown, hanswers.only⟩

theorem toPbTree_answers_sample :
    ∃ x, buildNode WorkspaceTree.sampleTree ([] : List (FileInfo Unit)) .besideTheList (MAX_TREE_DEPTH + 1) .root = some x ∧
      ∃ y ∈ x.all, Shows WorkspaceTree.sampleTree [] .besideTheList (.ofDir ⟨"a".toList⟩) y := by
  obtain ⟨x, hx, hshown, -⟩ := toPbTree_answers ([] : List (FileInfo Unit)) WorkspaceTree.sampleTree_built
  exact ⟨x, hx, hshown _ (.single ⟨"a".toList, by decide +kernel⟩)⟩

end Answer

/-! ## Where a `ref:` folder is made -/

/-- A valid layout names a folder and a file. -/
theorem new_ok {refsDir todoFile : Text} (h : WorkspaceLayout.new refsDir todoFile = .ok layout) :
    layout.refsDir ≠ [] ∧ FilePath.new layout.todoFile.asStr = .ok layout.todoFile := by
  have hrefs : (if refsDir.isEmpty then DEFAULT_REFS_DIR else refsDir) ≠ [] := by
    split
    · decide
    · rename_i hempty
      simpa using hempty
  unfold WorkspaceLayout.new at h
  dsimp only at h
  generalize (if refsDir.isEmpty then DEFAULT_REFS_DIR else refsDir) = refs at h hrefs
  generalize (if todoFile.isEmpty then DEFAULT_TODO_FILE else todoFile) = todo at h
  split at h
  · cases h
  split at h
  · cases h
  split at h
  · cases h
  split at h
  · cases h
  split at h
  · cases h
  rename_i file hfile
  rw [← Except.ok.inj h]
  exact ⟨hrefs, (FilePath.new_asStr hfile).symm ▸ hfile⟩

end Tree

end Txtodo
