import Txtodo.Model.Tree
import Mathlib.Logic.Relation

/-!
# What the workspace tree is

Every edge of a tree leads deeper, so the tree has no cycle; a folder is an orphan just when no edge leads to it; and
one node at most points at a folder, but for the folder the root list keeps its `ref:` folders in.
-/

namespace Txtodo

variable {layout : WorkspaceLayout} {inputs : List NodeInput} {id parent c : NodeId} {slug : Text}

namespace WorkspaceTree

/-! ## Links -/

/-- A tag in a node's list that names a folder. -/
structure Link where
  parent : NodeId
  slug : Text
  owner : TaskId
  child : NodeId

def linksOf (layout : WorkspaceLayout) (i : NodeInput) : List Link :=
  i.refTags.filterMap fun tag => (i.id.child tag.slug layout).map fun c => ⟨i.id, tag.slug, tag.owner, c⟩

/-- Every tag's link, in the order the tree takes them. -/
def links (layout : WorkspaceLayout) (inputs : List NodeInput) : List Link := inputs.flatMap (linksOf layout)

/-- The edge of a link whose folder is there. -/
def addLink (nodes : OrdMap NodeId Node) (l : Link) : OrdMap NodeId Node :=
  if (nodes.find? l.child).isNone then nodes
  else
    let nodes := nodes.modify l.child fun node => { node with owner := node.owner.or (some l.owner) }
    nodes.modify l.parent fun node => { node with children := node.children.insert l.slug l.child }

theorem linkChildren_eq (nodes : OrdMap NodeId Node) (i : NodeInput) :
    linkChildren nodes i.id i.refTags layout = (linksOf layout i).foldl addLink nodes := by
  unfold linkChildren linksOf
  induction i.refTags generalizing nodes with
  | nil => rfl
  | cons tag tags ih =>
    rw [List.foldl_cons, List.filterMap_cons, ih, linkChild]
    cases hchild : i.id.child tag.slug layout with
    | none => rfl
    | some c => rfl

theorem foldl_linkChildren (nodes : OrdMap NodeId Node) :
    inputs.foldl (fun nodes i => linkChildren nodes i.id i.refTags layout) nodes =
      (links layout inputs).foldl addLink nodes := by
  induction inputs generalizing nodes with
  | nil => rfl
  | cons i inputs ih =>
    rw [List.foldl_cons, links, List.flatMap_cons, List.foldl_append, ih, linkChildren_eq]
    rfl

theorem mem_links {l : Link} : l ∈ links layout inputs ↔
    ∃ i ∈ inputs, i.id = l.parent ∧ ⟨l.owner, l.slug⟩ ∈ i.refTags ∧ l.parent.child l.slug layout = some l.child := by
  rw [links, List.mem_flatMap]
  refine exists_congr fun i => and_congr_right fun _ => ?_
  rw [linksOf, List.mem_filterMap]
  constructor
  · rintro ⟨tag, htag, hl⟩
    obtain ⟨c, hc, rfl⟩ := Option.map_eq_some_iff.1 hl
    exact ⟨rfl, htag, hc⟩
  · rintro ⟨hid, htag, hc⟩
    refine ⟨_, htag, ?_⟩
    rw [hid, hc]
    rfl

/-- What links have made of the nodes they started from. -/
structure Linked (start : OrdMap NodeId Node) (l : List Link) (nodes : OrdMap NodeId Node) : Prop where
  there : ∀ id, (nodes.find? id).isSome = (start.find? id).isSome
  progress : ∀ id, (nodes.find? id).map Node.progress = (start.find? id).map Node.progress
  owner : ∀ id node, nodes.find? id = some node → node.owner = (l.find? fun e => e.child = id).map Link.owner
  children : ∀ id node, nodes.find? id = some node → ∀ slug c, node.children.find? slug = some c ↔
    ∃ e ∈ l, e.parent = id ∧ e.slug = slug ∧ e.child = c ∧ (start.find? c).isSome

variable {start nodes : OrdMap NodeId Node} {l : List Link} {e : Link}

/-- A link to a folder that is not there changes nothing. -/
theorem Linked.skip (h : Linked start l nodes) (hnone : nodes.find? e.child = none) : Linked start (l ++ [e]) nodes where
  there := h.there
  progress := h.progress
  owner id node hnode := by
    have hne : e.child ≠ id := by
      rintro rfl
      rw [hnone] at hnode
      cases hnode
    rw [h.owner id node hnode, List.find?_append]
    simp [hne]
  children id node hnode slug c := by
    rw [h.children id node hnode slug c]
    constructor
    · rintro ⟨e', he', hrest⟩
      exact ⟨e', List.mem_append_left _ he', hrest⟩
    · rintro ⟨e', he', hparent, hslug, hchild, hthere⟩
      rcases List.mem_append.1 he' with he' | he'
      · exact ⟨e', he', hparent, hslug, hchild, hthere⟩
      · obtain rfl := List.mem_singleton.1 he'
        rw [← hchild, ← h.there, hnone] at hthere
        cases hthere

/-- A link to a folder that is there gives it an owner, if it has none, and its parent the edge. -/
theorem Linked.add (h : Linked start l nodes) (hthere : (nodes.find? e.child).isSome = true)
    (hone : ∀ e' ∈ l, e'.parent = e.parent → e'.slug = e.slug → e'.child = e.child) :
    Linked start (l ++ [e]) (addLink nodes e) := by
  have hadd : ∀ id, (addLink nodes e).find? id =
      (nodes.find? id).map fun node => {
        progress := node.progress
        owner := if id = e.child then node.owner.or (some e.owner) else node.owner
        children := if id = e.parent then node.children.insert e.slug e.child else node.children : Node } := by
    intro id
    have hsome : (nodes.find? e.child).isNone = false := by
      rw [← Option.not_isSome, hthere]
      rfl
    rw [addLink, if_neg (by rw [hsome]; exact Bool.false_ne_true), OrdMap.find?_modify, OrdMap.find?_modify]
    cases nodes.find? id with
    | none => split_ifs <;> rfl
    | some node => split_ifs <;> rfl
  have hsomes : ∀ id node', (addLink nodes e).find? id = some node' → ∃ node, nodes.find? id = some node ∧
      node'.owner = (if id = e.child then node.owner.or (some e.owner) else node.owner) ∧
      node'.children = if id = e.parent then node.children.insert e.slug e.child else node.children := by
    intro id node' hnode'
    rw [hadd] at hnode'
    obtain ⟨node, hnode, rfl⟩ := Option.map_eq_some_iff.1 hnode'
    exact ⟨node, hnode, rfl, rfl⟩
  refine ⟨fun id => ?_, fun id => ?_, fun id node' hnode' => ?_, fun id node' hnode' slug c => ?_⟩
  · rw [hadd, Option.isSome_map, h.there]
  · rw [hadd, Option.map_map, ← h.progress]
    rfl
  · obtain ⟨node, hnode, howner, -⟩ := hsomes id node' hnode'
    rw [howner, h.owner id node hnode, List.find?_append]
    by_cases hchild : e.child = id
    · rw [if_pos hchild.symm]
      cases l.find? fun e' => decide (e'.child = id) with
      | none => simp [hchild]
      | some e' => rfl
    · rw [if_neg (Ne.symm hchild)]
      simp [hchild]
  · obtain ⟨node, hnode, -, hchildren⟩ := hsomes id node' hnode'
    have hl := h.children id node hnode slug c
    rw [hchildren]
    by_cases hparent : id = e.parent
    · rw [if_pos hparent, OrdMap.find?_insert]
      by_cases hslug : slug = e.slug
      · rw [if_pos hslug, Option.some_inj]
        constructor
        · rintro rfl
          exact ⟨e, by simp, hparent.symm, hslug.symm, rfl, by rw [← h.there, hthere]⟩
        · rintro ⟨e', he', hp, hs, hc, -⟩
          rcases List.mem_append.1 he' with he' | he'
          · rw [← hc, hone e' he' (hp.trans hparent) (hs.trans hslug)]
          · obtain rfl := List.mem_singleton.1 he'
            exact hc
      · rw [if_neg hslug, hl]
        constructor
        · rintro ⟨e', he', hrest⟩
          exact ⟨e', List.mem_append_left _ he', hrest⟩
        · rintro ⟨e', he', hp, hs, hrest⟩
          rcases List.mem_append.1 he' with he' | he'
          · exact ⟨e', he', hp, hs, hrest⟩
          · obtain rfl := List.mem_singleton.1 he'
            exact absurd hs.symm hslug
    · rw [if_neg hparent, hl]
      constructor
      · rintro ⟨e', he', hrest⟩
        exact ⟨e', List.mem_append_left _ he', hrest⟩
      · rintro ⟨e', he', hp, hrest⟩
        rcases List.mem_append.1 he' with he' | he'
        · exact ⟨e', he', hp, hrest⟩
        · obtain rfl := List.mem_singleton.1 he'
          exact absurd hp.symm hparent

/-- What the links of a tree make of its folders. -/
theorem linked_foldl (hplain : ∀ id node, start.find? id = some node → node.owner = none ∧ node.children = .empty)
    (hone : ∀ e ∈ l, ∀ e' ∈ l, e'.parent = e.parent → e'.slug = e.slug → e'.child = e.child) :
    Linked start l (l.foldl addLink start) := by
  induction l using List.reverseRecOn with
  | nil =>
    refine ⟨fun _ => rfl, fun _ => rfl, fun id node hnode => (hplain id node hnode).1, fun id node hnode slug c => ?_⟩
    rw [List.foldl_nil] at hnode
    rw [(hplain id node hnode).2, OrdMap.find?_empty]
    simp
  | append_singleton l e ih =>
    have hl := ih fun e he e' he' => hone e (List.mem_append_left _ he) e' (List.mem_append_left _ he')
    rw [List.foldl_append, List.foldl_cons, List.foldl_nil]
    cases hchild : (l.foldl addLink start).find? e.child with
    | none =>
      have hsame : addLink (l.foldl addLink start) e = l.foldl addLink start := by
        rw [addLink, hchild]
        rfl
      rw [hsame]
      exact hl.skip hchild
    | some node =>
      refine hl.add (by rw [hchild]; rfl) fun e' he' => ?_
      exact hone e (by simp) e' (List.mem_append_left _ he')

/-! ## The tree of folders -/

/-- The root and the folders found. -/
def IsNode (inputs : List NodeInput) (id : NodeId) : Prop := id = .root ∨ ∃ i ∈ inputs, i.id = id

theorem folders_append (inputs : List NodeInput) (i : NodeInput) :
    folders (inputs ++ [i]) = (folders inputs).insert i.id (.plain i.progress) := by
  rw [folders, List.foldl_append]
  rfl

theorem find?_folders_isSome : ((folders inputs).find? id).isSome = true ↔ ∃ i ∈ inputs, i.id = id := by
  induction inputs using List.reverseRecOn with
  | nil => simp [folders]
  | append_singleton inputs i ih =>
    rw [folders_append, OrdMap.find?_insert]
    split
    · rename_i heq
      exact iff_of_true rfl ⟨i, by simp, heq.symm⟩
    · rename_i hne
      rw [ih]
      constructor
      · rintro ⟨j, hj, hid⟩
        exact ⟨j, List.mem_append_left _ hj, hid⟩
      · rintro ⟨j, hj, hid⟩
        rcases List.mem_append.1 hj with hj | hj
        · exact ⟨j, hj, hid⟩
        · rw [List.mem_singleton.1 hj] at hid
          exact absurd hid.symm hne

theorem folders_plain {node : Node} (h : (folders inputs).find? id = some node) :
    node.owner = none ∧ node.children = .empty := by
  induction inputs using List.reverseRecOn with
  | nil => simp [folders] at h
  | append_singleton inputs i ih =>
    rw [folders_append, OrdMap.find?_insert] at h
    split at h
    · rw [← Option.some.inj h]
      exact ⟨rfl, rfl⟩
    · exact ih h

theorem find?_collect_isSome : ((collect inputs).find? id).isSome = true ↔ IsNode inputs id := by
  rw [IsNode, collect]
  split
  · rw [OrdMap.find?_insert]
    split
    · rename_i heq
      exact iff_of_true rfl (.inl heq)
    · rename_i hne
      rw [find?_folders_isSome, or_iff_right hne]
  · rename_i hroot
    rw [Bool.not_eq_true, Option.isNone_eq_false_iff, find?_folders_isSome] at hroot
    rw [find?_folders_isSome]
    constructor
    · exact .inr
    · rintro (rfl | h)
      · exact hroot
      · exact h

theorem collect_plain {node : Node} (h : (collect inputs).find? id = some node) :
    node.owner = none ∧ node.children = .empty := by
  rw [collect] at h
  split at h
  · rw [OrdMap.find?_insert] at h
    split at h
    · rw [← Option.some.inj h]
      exact ⟨rfl, rfl⟩
    · exact folders_plain h
  · exact folders_plain h

variable {t : WorkspaceTree}

/-- A tree is built of few folders, none of them deep. -/
theorem buildWithLayout_ok : buildWithLayout inputs layout = .ok t ↔
    inputs.length ≤ MAX_TRACKED_REFS ∧ (∀ i ∈ inputs, i.id.depth ≤ MAX_TREE_DEPTH) ∧
      t = ⟨(links layout inputs).foldl addLink (collect inputs)⟩ := by
  unfold buildWithLayout
  rw [foldl_linkChildren]
  by_cases hmany : MAX_TRACKED_REFS < inputs.length
  · rw [if_pos hmany]
    exact iff_of_false (by intro h; cases h) fun h => absurd h.1 (not_le.2 hmany)
  rw [if_neg hmany, and_iff_right (not_lt.1 hmany)]
  split
  · rename_i i hdeep
    refine iff_of_false (by intro h; cases h) fun h => ?_
    have hlt : MAX_TREE_DEPTH < i.id.depth := by simpa using List.find?_some hdeep
    exact absurd (h.1 i (List.mem_of_find?_eq_some hdeep)) (not_le.2 hlt)
  · rename_i hnone
    have hall : ∀ i ∈ inputs, i.id.depth ≤ MAX_TREE_DEPTH := by
      intro i hi
      simpa using List.find?_eq_none.1 hnone i hi
    rw [and_iff_right hall]
    exact ⟨fun h => (Except.ok.inj h).symm, fun h => h ▸ rfl⟩

/-- What the links of a built tree made of its folders. -/
theorem linked_of_build (h : buildWithLayout inputs layout = .ok t) :
    Linked (collect inputs) (links layout inputs) t.nodes := by
  obtain ⟨-, -, rfl⟩ := buildWithLayout_ok.1 h
  refine linked_foldl (fun id node => collect_plain) fun e he e' he' hparent hslug => ?_
  obtain ⟨-, -, -, -, hchild⟩ := mem_links.1 he
  obtain ⟨-, -, -, -, hchild'⟩ := mem_links.1 he'
  rw [hparent, hslug, hchild] at hchild'
  exact (Option.some.inj hchild').symm

theorem mem_children {node : Node} (h : t.nodes.find? parent = some node) :
    (slug, c) ∈ t.children parent ↔ node.children.find? slug = some c := by
  rw [children, h, Option.map_some, Option.getD_some, OrdMap.find?_eq_some]

/-- The edges of a tree: the tags whose folders are there. -/
theorem mem_children_iff (h : buildWithLayout inputs layout = .ok t) :
    (slug, c) ∈ t.children parent ↔ IsNode inputs c ∧ ∃ e ∈ links layout inputs, e.parent = parent ∧ e.slug = slug ∧
      e.child = c := by
  have hlinked := linked_of_build h
  cases hnode : t.nodes.find? parent with
  | none =>
    refine iff_of_false (by simp [children, hnode]) ?_
    rintro ⟨-, e, he, rfl, -, -⟩
    obtain ⟨i, hi, hid, -⟩ := mem_links.1 he
    have hthere : ((collect inputs).find? e.parent).isSome = true := find?_collect_isSome.2 (.inr ⟨i, hi, hid⟩)
    rw [← hlinked.there, hnode] at hthere
    cases hthere
  | some node =>
    rw [mem_children hnode, hlinked.children parent node hnode]
    constructor
    · rintro ⟨e, he, hp, hs, hc, hthere⟩
      exact ⟨find?_collect_isSome.1 hthere, e, he, hp, hs, hc⟩
    · rintro ⟨hisnode, e, he, hp, hs, hc⟩
      exact ⟨e, he, hp, hs, hc, find?_collect_isSome.2 hisnode⟩

/-! ## Depth -/

theorem child_depth (h : parent.child slug layout = some c) : parent.depth < c.depth := by
  obtain ⟨dir⟩ := parent
  unfold NodeId.child at h
  cases dir with
  | none =>
    dsimp only at h
    split at h
    · rw [← Option.some.inj h]
      exact Nat.succ_pos _
    · cases h
  | some dir =>
    dsimp only at h
    split at h
    · rename_i d hd
      rw [← Option.some.inj h]
      have hasStr := FilePath.new_asStr hd
      show dir.asStr.count '/' + 1 < d.asStr.count '/' + 1
      rw [hasStr, List.count_append, List.count_cons_self]
      omega
    · cases h

/-- One edge of a tree. -/
def Edge (t : WorkspaceTree) (a b : NodeId) : Prop := ∃ slug, (slug, b) ∈ t.children a

theorem edge_nodes (h : buildWithLayout inputs layout = .ok t) (hedge : (slug, c) ∈ t.children parent) :
    IsNode inputs parent ∧ IsNode inputs c ∧ parent.child slug layout = some c := by
  obtain ⟨hc, e, he, rfl, rfl, rfl⟩ := (mem_children_iff h).1 hedge
  obtain ⟨i, hi, hid, -, hchild⟩ := mem_links.1 he
  exact ⟨.inr ⟨i, hi, hid⟩, hc, hchild⟩

theorem depth_lt_of_path {a b : NodeId} (h : buildWithLayout inputs layout = .ok t) (hpath : Relation.TransGen t.Edge a b) :
    a.depth < b.depth := by
  induction hpath with
  | single hedge =>
    obtain ⟨slug, hedge⟩ := hedge
    exact child_depth (edge_nodes h hedge).2.2
  | tail _ hedge ih =>
    obtain ⟨slug, hedge⟩ := hedge
    exact ih.trans (child_depth (edge_nodes h hedge).2.2)

theorem owner_eq (h : buildWithLayout inputs layout = .ok t) (hnode : IsNode inputs c) :
    t.owner c = ((links layout inputs).find? fun e => e.child = c).map Link.owner := by
  have hlinked := linked_of_build h
  have hthere := find?_collect_isSome.2 hnode
  rw [← hlinked.there, Option.isSome_iff_exists] at hthere
  obtain ⟨node, hfind⟩ := hthere
  rw [owner, hfind, Option.bind_some, hlinked.owner c node hfind]

theorem mem_orphans : c ∈ t.orphans ↔ (t.nodes.find? c).isSome ∧ c ≠ .root ∧ t.owner c = none := by
  rw [orphans, List.mem_map]
  constructor
  · rintro ⟨⟨id, node⟩, hmem, rfl⟩
    obtain ⟨hitem, hcond⟩ := List.mem_filter.1 hmem
    have hfind := OrdMap.find?_eq_some.2 hitem
    rw [Bool.and_eq_true, Bool.not_eq_true', Option.isNone_iff_eq_none] at hcond
    refine ⟨by rw [hfind]; rfl, ?_, ?_⟩
    · rintro rfl
      cases hcond.1
    · rw [owner, hfind]
      exact hcond.2
  · rintro ⟨hthere, hroot, howner⟩
    obtain ⟨node, hfind⟩ := Option.isSome_iff_exists.1 hthere
    rw [owner, hfind, Option.bind_some] at howner
    refine ⟨(c, node), List.mem_filter.2 ⟨OrdMap.find?_eq_some.1 hfind, ?_⟩, rfl⟩
    have hdir : c.isRoot = false := by
      obtain ⟨dir⟩ := c
      cases dir with
      | none => exact absurd rfl hroot
      | some dir => rfl
    simp [hdir, howner]

/-- A tree has no cycle, its edges lead between folders that are there, its orphans are the folders no edge leads to,
and a folder's owner carries the tag of an edge to it. -/
theorem build_spec (h : buildWithLayout inputs layout = .ok t) :
    (∀ a b, Relation.TransGen t.Edge a b → IsNode inputs a ∧ IsNode inputs b ∧ a ≠ b) ∧
      (∀ c, c ∈ t.orphans ↔ IsNode inputs c ∧ c ≠ .root ∧ ∀ a, ¬t.Edge a c) ∧
      ∀ c task, t.owner c = some task → ∃ i ∈ inputs, ∃ tag ∈ i.refTags, tag.owner = task ∧
        (tag.slug, c) ∈ t.children i.id := by
  have howned : ∀ c, IsNode inputs c → (t.owner c = none ↔ ∀ a, ¬t.Edge a c) := by
    intro c hc
    rw [owner_eq h hc, Option.map_eq_none_iff, List.find?_eq_none]
    constructor
    · rintro hnone a ⟨slug, hedge⟩
      obtain ⟨-, e, he, -, -, hchild⟩ := (mem_children_iff h).1 hedge
      exact hnone e he (decide_eq_true hchild)
    · intro hno e he hchild
      exact hno e.parent ⟨e.slug, (mem_children_iff h).2 ⟨hc, e, he, rfl, rfl, of_decide_eq_true hchild⟩⟩
  have hthere : ∀ c, (t.nodes.find? c).isSome = true ↔ IsNode inputs c := by
    intro c
    rw [(linked_of_build h).there, find?_collect_isSome]
  refine ⟨fun a b hpath => ⟨?_, ?_, ?_⟩, fun c => ?_, fun c task howner => ?_⟩
  · obtain ⟨m, ⟨slug, hedge⟩, -⟩ := Relation.TransGen.head'_iff.1 hpath
    exact (edge_nodes h hedge).1
  · obtain ⟨m, -, slug, hedge⟩ := Relation.TransGen.tail'_iff.1 hpath
    exact (edge_nodes h hedge).2.1
  · rintro rfl
    exact lt_irrefl _ (depth_lt_of_path h hpath)
  · rw [mem_orphans, hthere]
    exact and_congr_right fun hc => and_congr_right fun _ => howned c hc
  · have hc : IsNode inputs c := by
      rw [← hthere, Option.isSome_iff_ne_none]
      intro hnone
      rw [owner, hnone] at howner
      cases howner
    rw [owner_eq h hc] at howner
    obtain ⟨e, hfind, rfl⟩ := Option.map_eq_some_iff.1 howner
    have he := List.mem_of_find?_eq_some hfind
    have hchild : e.child = c := by simpa using List.find?_some hfind
    obtain ⟨i, hi, hid, htag, -⟩ := mem_links.1 he
    refine ⟨i, hi, _, htag, rfl, (mem_children_iff h).2 ⟨hc, e, he, hid.symm, rfl, hchild⟩⟩

/-- A root list whose tag names `a`, the folder `a` and the folder `b`. -/
def sampleInputs : List NodeInput :=
  [⟨.root, ⟨0, 1⟩, [⟨⟨⟨1, by decide⟩⟩, "a".toList⟩]⟩, ⟨.ofDir ⟨"a".toList⟩, ⟨0, 0⟩, []⟩, ⟨.ofDir ⟨"b".toList⟩, ⟨0, 0⟩, []⟩]

def sampleTree : WorkspaceTree := ⟨(links .besideTheList sampleInputs).foldl addLink (collect sampleInputs)⟩

theorem sampleTree_built : buildWithLayout sampleInputs .besideTheList = .ok sampleTree :=
  buildWithLayout_ok.2 ⟨by decide, by decide, rfl⟩

theorem build_spec_sample : sampleTree.orphans = [.ofDir ⟨"b".toList⟩] ∧
    ∀ a, ¬sampleTree.Edge a (.ofDir ⟨"b".toList⟩) := by
  have horphans : sampleTree.orphans = [.ofDir ⟨"b".toList⟩] := by decide +kernel
  exact ⟨horphans, (((build_spec sampleTree_built).2.1 _).1 (horphans ▸ List.mem_singleton_self _)).2.2⟩

/-! ## One parent -/

/-- The folder a node's `ref:` folders are in. -/
def home (layout : WorkspaceLayout) (id : NodeId) : Text :=
  match id.dir with
  | none => layout.refsParentOf layout.rootList
  | some dir => dir.asStr

/-- A slug has no `/`. -/
theorem slash_not_mem (h : isValidSlug slug = true) : '/' ∉ slug := by
  intro hmem
  unfold isValidSlug at h
  simp only [Bool.and_eq_true, List.all_eq_true] at h
  have hslash := h.1.1.1.2 '/' hmem
  exact absurd hslash (by decide)

/-- A slug in a folder, the workspace's own when it is empty. -/
def inside (home slug : Text) : Text := if home = [] then slug else home ++ '/' :: slug

theorem new_slash (path : Text) (p : FilePath) : FilePath.new ('/' :: path) ≠ .ok p := by
  unfold FilePath.new
  intro h
  split_ifs at h with hempty hlong hstart
  exact hstart (.inl rfl)

/-- The path of a child is its slug in its parent's home. -/
theorem child_path (h : parent.child slug layout = some c) :
    ∃ dir, c = .ofDir dir ∧ dir.asStr = inside (home layout parent) slug := by
  have hjoined : ∀ (front : Text) (dir : FilePath), FilePath.new (front ++ '/' :: slug) = .ok dir →
      dir.asStr = inside front slug := by
    intro front dir hnew
    rw [inside, FilePath.new_asStr hnew, if_neg]
    rintro rfl
    exact new_slash _ _ hnew
  obtain ⟨pdir⟩ := parent
  unfold NodeId.child at h
  cases pdir with
  | some pdir =>
    dsimp only at h
    split at h
    · rename_i dir hnew
      exact ⟨dir, (Option.some.inj h).symm, hjoined pdir.asStr dir hnew⟩
    · cases h
  | none =>
    dsimp only at h
    split at h
    · rename_i dir hnew
      refine ⟨dir, (Option.some.inj h).symm, ?_⟩
      have hparent : home layout ⟨none⟩ =
          if layout.refsBesideList then ((rsplitOnce layout.todoFile.asStr).map Prod.fst).getD [] else layout.refsDir := by
        rw [home, WorkspaceLayout.refsParentOf, WorkspaceLayout.rootList, if_neg (not_not.2 rfl)]
      rw [hparent]
      rw [WorkspaceLayout.refDirOf] at hnew
      split_ifs at hnew ⊢ with hbeside
      · cases hsplit : rsplitOnce layout.todoFile.asStr with
        | none =>
          rw [hsplit] at hnew
          exact FilePath.new_asStr hnew
        | some pair =>
          rw [hsplit] at hnew
          exact hjoined _ dir hnew
      · exact hjoined _ dir hnew
    · cases h

theorem inside_inj {home home' slug' : Text} (hslug : '/' ∉ slug) (hslug' : '/' ∉ slug')
    (h : inside home slug = inside home' slug') : home = home' ∧ slug = slug' := by
  unfold inside at h
  split_ifs at h with hnil hnil' hnil'
  · exact ⟨hnil.trans hnil'.symm, h⟩
  · exact absurd (h ▸ by simp) hslug
  · exact absurd (h ▸ by simp) hslug'
  · have hsplit := congrArg rsplitOnce h
    rw [rsplitOnce_append hslug, rsplitOnce_append hslug'] at hsplit
    exact Prod.mk.inj (Option.some.inj hsplit)

/-- Two edges to one folder have one slug, and they come from one node, unless one comes from the root and the other
from the folder the root list keeps its `ref:` folders in. -/
theorem one_parent (h : buildWithLayout inputs layout = .ok t)
    (hvalid : ∀ i ∈ inputs, ∀ tag ∈ i.refTags, isValidSlug tag.slug = true) {a b : NodeId} {slug' : Text}
    (hedge : (slug, c) ∈ t.children a) (hedge' : (slug', c) ∈ t.children b) :
    slug = slug' ∧ (a = b ∨ a.isRoot ≠ b.isRoot ∧ home layout a = home layout b) := by
  have hslash : ∀ {parent slug}, (slug, c) ∈ t.children parent → '/' ∉ slug := by
    intro parent slug hedge
    obtain ⟨-, e, he, -, rfl, -⟩ := (mem_children_iff h).1 hedge
    obtain ⟨i, hi, -, htag, -⟩ := mem_links.1 he
    exact slash_not_mem (hvalid i hi _ htag)
  obtain ⟨dir, rfl, hpath⟩ := child_path (edge_nodes h hedge).2.2
  obtain ⟨dir', heq, hpath'⟩ := child_path (edge_nodes h hedge').2.2
  obtain rfl : dir = dir' := by simpa [NodeId.ofDir] using heq
  obtain ⟨hhome, hslugs⟩ := inside_inj (hslash hedge) (hslash hedge') (hpath.symm.trans hpath')
  refine ⟨hslugs, ?_⟩
  obtain ⟨adir⟩ := a
  obtain ⟨bdir⟩ := b
  cases adir with
  | none =>
    cases bdir with
    | none => exact .inl rfl
    | some b => exact .inr ⟨by simp [NodeId.isRoot], hhome⟩
  | some a =>
    cases bdir with
    | none => exact .inr ⟨by simp [NodeId.isRoot], hhome⟩
    | some b =>
      obtain ⟨a⟩ := a
      obtain ⟨b⟩ := b
      obtain rfl : a = b := hhome
      exact .inl rfl

theorem one_parent_sample : ("a".toList, .ofDir ⟨"a".toList⟩) ∈ sampleTree.children .root ∧
    ∀ b slug, (slug, .ofDir ⟨"a".toList⟩) ∈ sampleTree.children b → "a".toList = slug := by
  have hedge : ("a".toList, .ofDir ⟨"a".toList⟩) ∈ sampleTree.children .root := by decide +kernel
  exact ⟨hedge, fun b slug hedge' => (one_parent sampleTree_built (by decide +kernel) hedge hedge').1⟩

end WorkspaceTree

end Txtodo
