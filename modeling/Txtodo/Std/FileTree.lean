import Mathlib.Data.List.Basic
import Mathlib.Data.List.Infix
import Mathlib.Data.List.Nodup
import Mathlib.Data.List.Perm.Basic
import Mathlib.Data.List.Perm.Lattice

/-!
# Files and folders

What is on a disk, by path: folders, which may be unreadable, files, links and the rest. A folder's entries, the
folders below it, and the walk of a folder that enters some of its subfolders.
-/

namespace Txtodo

/-- A file name, as bytes. -/
abbrev FileName := List UInt8

/-- A path from the top, its own name last. -/
abbrev OsPath := List FileName

/-- What is at a path, links not followed. A link may lead to a file; a folder may refuse to be listed. -/
inductive FileKind where
  | dir (readable : Bool)
  | file
  | link (toFile : Bool)
  | other
  deriving DecidableEq

/-- A name an entry of a folder may have. -/
def ProperName (name : FileName) : Prop := name ≠ [] ∧ 0x2F ∉ name ∧ name ≠ [0x2E] ∧ name ≠ [0x2E, 0x2E]

/-- Everything on a disk, each thing in a folder that is there. -/
structure FileTree where
  nodes : List (OsPath × FileKind)
  nodup : (nodes.map Prod.fst).Nodup
  proper : ∀ node ∈ nodes, ∀ name ∈ node.1, ProperName name
  closed : ∀ p name kind, (p ++ [name], kind) ∈ nodes → ∃ readable, (p, FileKind.dir readable) ∈ nodes

instance (name : FileName) : Decidable (ProperName name) := inferInstanceAs (Decidable (_ ∧ _ ∧ _ ∧ _))

namespace FileTree

/-- A disk is closed when the folder each thing is in is there. -/
theorem closed_of_dropLast {nodes : List (OsPath × FileKind)}
    (h : ∀ node ∈ nodes, node.1 = [] ∨ (node.1.dropLast, FileKind.dir true) ∈ nodes ∨
      (node.1.dropLast, FileKind.dir false) ∈ nodes) (p : OsPath) (name : FileName) (kind : FileKind)
    (hmem : (p ++ [name], kind) ∈ nodes) : ∃ readable, (p, FileKind.dir readable) ∈ nodes := by
  have hdir := h _ hmem
  rw [List.dropLast_concat] at hdir
  rcases hdir with hnil | hdir | hdir
  · simp at hnil
  · exact ⟨true, hdir⟩
  · exact ⟨false, hdir⟩

variable {t : FileTree} {p q root : OsPath} {name : FileName} {kind : FileKind}

/-- What is at a path. -/
def kindAt (t : FileTree) (p : OsPath) : Option FileKind := (t.nodes.find? fun node => node.1 = p).map Prod.snd

theorem kindAt_eq_some : t.kindAt p = some kind ↔ (p, kind) ∈ t.nodes := by
  rw [kindAt, Option.map_eq_some_iff]
  constructor
  · rintro ⟨node, hnode, rfl⟩
    have heq : node.1 = p := by simpa using List.find?_some hnode
    exact heq ▸ List.mem_of_find?_eq_some hnode
  · intro hmem
    cases hfind : t.nodes.find? fun node => node.1 = p with
    | none =>
      have hne := List.find?_eq_none.1 hfind _ hmem
      simp at hne
    | some node =>
      have heq : node.1 = p := by simpa using List.find?_some hfind
      have hin := List.mem_of_find?_eq_some hfind
      refine ⟨node, rfl, ?_⟩
      rw [List.inj_on_of_nodup_map t.nodup hin hmem heq]

/-- Whether a path leads to a file, links followed. -/
def isFile (t : FileTree) (p : OsPath) : Bool := t.kindAt p = some .file || t.kindAt p = some (.link true)

/-- Whether a folder is at a path. -/
def isDir (t : FileTree) (p : OsPath) : Bool := t.kindAt p = some (.dir true) || t.kindAt p = some (.dir false)

theorem isDir_iff : t.isDir p = true ↔ ∃ readable, (p, .dir readable) ∈ t.nodes := by
  simp only [isDir, Bool.or_eq_true, decide_eq_true_eq, kindAt_eq_some, Bool.exists_bool]
  exact or_comm

/-- The entries of a folder, in the order the disk lists them. -/
def entries (t : FileTree) (p : OsPath) : List (FileName × FileKind) :=
  t.nodes.filterMap fun node => if node.1.dropLast = p then node.1.getLast?.map fun name => (name, node.2) else none

theorem mem_entries : (name, kind) ∈ t.entries p ↔ (p ++ [name], kind) ∈ t.nodes := by
  rw [entries, List.mem_filterMap]
  constructor
  · rintro ⟨⟨path, k⟩, hmem, hsome⟩
    split_ifs at hsome with hp
    obtain ⟨last, hlast, heq⟩ := Option.map_eq_some_iff.1 hsome
    obtain ⟨rfl, rfl⟩ := Prod.mk.inj heq
    rw [← hp, List.dropLast_append_getLast? last hlast]
    exact hmem
  · intro hmem
    exact ⟨_, hmem, by simp⟩

theorem entries_nodup (t : FileTree) (p : OsPath) : ((t.entries p).map Prod.fst).Nodup := by
  refine List.Nodup.of_map (fun name => p ++ [name]) (List.Nodup.sublist ?_ t.nodup)
  rw [entries]
  induction t.nodes with
  | nil => exact .slnil
  | cons node nodes ih =>
    rw [List.filterMap_cons, List.map_cons]
    split
    · exact ih.cons _
    · rename_i entry hentry
      split_ifs at hentry with hp
      obtain ⟨last, hlast, rfl⟩ := Option.map_eq_some_iff.1 hentry
      have heq : p ++ [last] = node.1 := by rw [← hp, List.dropLast_append_getLast? last hlast]
      rw [List.map_cons, List.map_cons, heq]
      exact ih.cons_cons _

/-- The entries of a folder, `none` when it refuses to be listed. -/
def readDir (t : FileTree) (p : OsPath) : Option (List (FileName × FileKind)) :=
  if t.kindAt p = some (.dir true) then some (t.entries p) else none

/-- What is in a folder's folder is there. -/
theorem exists_of_prefix (hq : (q, kind) ∈ t.nodes) (hp : p <+: q) (hne : p ≠ q) :
    ∃ readable, (p, .dir readable) ∈ t.nodes := by
  induction q using List.reverseRecOn generalizing kind with
  | nil => exact absurd (List.prefix_nil.1 hp) hne
  | append_singleton q last ih =>
    have hp' : p <+: q := by
      rcases List.prefix_concat_iff.1 hp with heq | hp
      · exact absurd heq hne
      · exact hp
    obtain ⟨readable, hdir⟩ := t.closed q last kind hq
    by_cases heq : p = q
    · exact ⟨readable, heq ▸ hdir⟩
    · exact ih hdir hp' heq

/-! ## A walk -/

section Walk

variable {enters : OsPath → Bool}

/-- Whether a walk enters every folder on the way from `dir` down `below`. -/
def entersAll (enters : OsPath → Bool) (dir : OsPath) : List FileName → Bool
  | [] => true
  | part :: rest => enters (dir ++ [part]) && entersAll enters (dir ++ [part]) rest

theorem entersAll_append (dir : OsPath) (below : List FileName) (last : FileName) :
    entersAll enters dir (below ++ [last]) = (entersAll enters dir below && enters (dir ++ below ++ [last])) := by
  induction below generalizing dir with
  | nil => simp [entersAll]
  | cons part rest ih => simp [entersAll, ih, Bool.and_assoc]

theorem entersAll_iff (dir : OsPath) (below : List FileName) :
    entersAll enters dir below = true ↔
      ∀ front last rest, below = front ++ last :: rest → enters (dir ++ front ++ [last]) = true := by
  induction below using List.reverseRecOn with
  | nil => simp [entersAll]
  | append_singleton below last ih =>
    rw [entersAll_append, Bool.and_eq_true, ih]
    constructor
    · rintro ⟨hall, hlast⟩ front part rest heq
      rcases List.eq_nil_or_concat rest with rfl | ⟨rest, z, rfl⟩
      · obtain ⟨rfl, hpart⟩ := List.append_inj' heq rfl
        obtain rfl : last = part := by simpa using hpart
        exact hlast
      · rw [List.concat_eq_append, ← List.cons_append, ← List.append_assoc] at heq
        exact hall front part rest (List.append_inj' heq rfl).1
    · intro hall
      refine ⟨fun front part rest heq => hall front part (rest ++ [last]) (by simp [heq]), ?_⟩
      exact hall below last [] rfl

theorem entersAll_and (enters enters' : OsPath → Bool) (dir : OsPath) (below : List FileName) :
    entersAll (fun d => enters d && enters' d) dir below = (entersAll enters dir below && entersAll enters' dir below) := by
  induction below generalizing dir with
  | nil => rfl
  | cons part rest ih =>
    rw [entersAll, entersAll, entersAll, ih]
    ac_rfl

/-- A walk that shuns one name gets down every path without it. -/
theorem entersAll_name (name : FileName) (dir : OsPath) (below : List FileName) :
    entersAll (fun d => d.getLast? ≠ some name) dir below = true ↔ name ∉ below := by
  induction below generalizing dir with
  | nil => simp [entersAll]
  | cons part rest ih =>
    rw [entersAll, Bool.and_eq_true, ih, List.getLast?_concat, List.mem_cons, not_or, decide_eq_true_eq, ne_eq,
      Option.some_inj]
    exact and_congr_left fun _ => not_congr eq_comm

/-- The folders a walk of `root` lists: `root`, and those it enters on the way. -/
def walked (t : FileTree) (enters : OsPath → Bool) (root : OsPath) : List OsPath :=
  ((t.nodes.map Prod.fst).filter t.isDir).filter fun d => decide (root <+: d) && entersAll enters root (d.drop root.length)

theorem mem_walked_iff {d : OsPath} :
    d ∈ t.walked enters root ↔
      (∃ readable, (d, .dir readable) ∈ t.nodes) ∧ root <+: d ∧ entersAll enters root (d.drop root.length) = true := by
  rw [walked, List.mem_filter, List.mem_filter, Bool.and_eq_true, decide_eq_true_eq, isDir_iff]
  refine and_congr_left fun _ => ⟨fun h => h.2, ?_⟩
  rintro ⟨readable, hdir⟩
  exact ⟨List.mem_map_of_mem hdir, readable, hdir⟩

theorem walked_nodup (t : FileTree) (enters : OsPath → Bool) (root : OsPath) : (t.walked enters root).Nodup :=
  (t.nodup.filter _).filter _

/-- The subfolders of `dir` a walk enters. -/
def entered (t : FileTree) (enters : OsPath → Bool) (dir : OsPath) : List OsPath :=
  (t.entries dir).filterMap fun entry =>
    match entry.2 with
    | .dir _ => if enters (dir ++ [entry.1]) then some (dir ++ [entry.1]) else none
    | _ => none

theorem mem_entered {dir d : OsPath} :
    d ∈ t.entered enters dir ↔
      ∃ name readable, d = dir ++ [name] ∧ (d, .dir readable) ∈ t.nodes ∧ enters d = true := by
  rw [entered, List.mem_filterMap]
  constructor
  · rintro ⟨⟨name, kind⟩, hmem, hsome⟩
    cases kind with
    | dir readable =>
      dsimp only at hsome
      split_ifs at hsome with henters
      obtain rfl := Option.some.inj hsome
      exact ⟨name, readable, rfl, mem_entries.1 hmem, henters⟩
    | file => cases hsome
    | link toFile => cases hsome
    | other => cases hsome
  · rintro ⟨name, readable, rfl, hmem, henters⟩
    exact ⟨(name, .dir readable), mem_entries.2 hmem, if_pos henters⟩

theorem entered_nodup (t : FileTree) (enters : OsPath → Bool) (dir : OsPath) : (t.entered enters dir).Nodup := by
  have hpaths : ((t.entries dir).map fun entry => dir ++ [entry.1]).Nodup := by
    have hmap : ((t.entries dir).map fun entry => dir ++ [entry.1]) =
        ((t.entries dir).map Prod.fst).map fun name => dir ++ [name] := by
      rw [List.map_map]
      rfl
    rw [hmap]
    refine (t.entries_nodup dir).map fun a b heq => ?_
    simpa using heq
  refine List.Nodup.sublist ?_ hpaths
  rw [entered]
  induction t.entries dir with
  | nil => exact .slnil
  | cons entry entries ih =>
    rw [List.filterMap_cons, List.map_cons]
    split
    · exact ih.cons _
    · rename_i d hd
      obtain ⟨name, kind⟩ := entry
      cases kind with
      | dir readable =>
        dsimp only at hd
        split_ifs at hd
        obtain rfl := Option.some.inj hd
        exact ih.cons_cons _
      | file => cases hd
      | link toFile => cases hd
      | other => cases hd

/-- The walked folders at and below `dir`. -/
def below (t : FileTree) (enters : OsPath → Bool) (root dir : OsPath) : List OsPath :=
  (t.walked enters root).filter fun d => decide (dir <+: d)

theorem mem_below {dir d : OsPath} : d ∈ t.below enters root dir ↔ d ∈ t.walked enters root ∧ dir <+: d := by
  rw [below, List.mem_filter, decide_eq_true_eq]

/-- What a walk enters from a folder it lists, it lists. -/
theorem entered_walked {dir d : OsPath} (hdir : dir ∈ t.walked enters root) (hd : d ∈ t.entered enters dir) :
    d ∈ t.walked enters root := by
  obtain ⟨-, hroot, hall⟩ := mem_walked_iff.1 hdir
  obtain ⟨name, readable, rfl, hnode, henters⟩ := mem_entered.1 hd
  refine mem_walked_iff.2 ⟨⟨readable, hnode⟩, hroot.trans (List.prefix_append _ _), ?_⟩
  obtain ⟨rest, rfl⟩ := hroot
  rw [List.append_assoc, List.drop_left, entersAll_append, Bool.and_eq_true]
  rw [List.drop_left] at hall
  exact ⟨hall, henters⟩

/-- The walk of a folder is the folder and the walks of what it enters from there. -/
theorem below_perm {dir : OsPath} (hdir : dir ∈ t.walked enters root) :
    (t.below enters root dir).Perm (dir :: (t.entered enters dir).flatMap (t.below enters root)) := by
  have hstrict : ∀ {e : OsPath}, e ∈ t.entered enters dir → dir.length < e.length := fun he => by
    obtain ⟨name, readable, rfl, -, -⟩ := mem_entered.1 he
    simp
  refine (List.perm_ext_iff_of_nodup ((t.walked_nodup enters root).filter _) ?_).2 fun d => ?_
  · refine List.nodup_cons.2 ⟨fun hmem => ?_, List.nodup_flatMap.2 ⟨fun e _ => (t.walked_nodup enters root).filter _, ?_⟩⟩
    · obtain ⟨e, he, hin⟩ := List.mem_flatMap.1 hmem
      exact absurd (mem_below.1 hin).2.length_le (not_le.2 (hstrict he))
    · refine (t.entered_nodup enters dir).imp_of_mem fun {e e'} he he' hne d hd hd' => hne ?_
      obtain ⟨name, readable, rfl, -, -⟩ := mem_entered.1 he
      obtain ⟨name', readable', rfl, -, -⟩ := mem_entered.1 he'
      have hlen : (dir ++ [name]).length ≤ (dir ++ [name']).length := by simp
      exact (List.prefix_of_prefix_length_le (mem_below.1 hd).2 (mem_below.1 hd').2 hlen).eq_of_length (by simp)
  · show d ∈ t.below enters root dir ↔ _
    rw [mem_below, List.mem_cons, List.mem_flatMap]
    constructor
    · rintro ⟨hd, hpre⟩
      by_cases heq : d = dir
      · exact .inl heq
      · obtain ⟨rest, rfl⟩ := hpre
        obtain ⟨⟨readable, hnode⟩, hroot, hall⟩ := mem_walked_iff.1 hd
        cases rest with
        | nil => exact absurd (List.append_nil dir) heq
        | cons name rest =>
          have hpre : dir ++ [name] <+: dir ++ name :: rest := by simp
          have hdirnode : ∃ readable, (dir ++ [name], FileKind.dir readable) ∈ t.nodes := by
            by_cases hrest : rest = []
            · exact ⟨readable, by rw [← hrest]; exact hnode⟩
            · refine exists_of_prefix hnode hpre fun h => hrest ?_
              simpa using h
          obtain ⟨readable', hnode'⟩ := hdirnode
          obtain ⟨-, ⟨front, rfl⟩, -⟩ := mem_walked_iff.1 hdir
          refine .inr ⟨root ++ front ++ [name], mem_entered.2 ⟨name, readable', rfl, hnode', ?_⟩, mem_below.2 ⟨hd, hpre⟩⟩
          rw [List.append_assoc, List.drop_left] at hall
          exact (entersAll_iff root (front ++ name :: rest)).1 hall front name rest rfl
    · rintro (rfl | ⟨e, he, hin⟩)
      · exact ⟨hdir, List.prefix_rfl⟩
      · obtain ⟨hd, hpre⟩ := mem_below.1 hin
        obtain ⟨name, readable, rfl, -, -⟩ := mem_entered.1 he
        exact ⟨hd, (List.prefix_append _ _).trans hpre⟩

theorem below_root (t : FileTree) (enters : OsPath → Bool) (root : OsPath) :
    t.below enters root root = t.walked enters root :=
  List.filter_eq_self.2 fun _ hd => decide_eq_true (mem_walked_iff.1 hd).2.1

end Walk

end FileTree

end Txtodo
