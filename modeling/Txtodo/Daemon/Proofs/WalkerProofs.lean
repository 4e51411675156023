import Txtodo.Daemon.Walker
import Txtodo.Std.KeySorted

/-!
# What a walk finds

A walk of a workspace ends, and finds what it should: every document of every folder it enters, once, in the order
of their paths, unless one of those folders is too deep, cannot be listed, or holds a name that is no path. The
watcher passes over just what the walk does, and two roots share lists just when one walk enters the other.
-/

namespace Txtodo

namespace Walker

variable {t : FileTree} {root path dir d : OsPath} {extra : Option OsPath} {depth n : Nat} {p : FilePath} {w w' : Walk}

/-! ## Paths from the root -/

theorem stripPrefix_append (root : OsPath) (below : List FileName) : stripPrefix root (root ++ below) = some below := by
  rw [stripPrefix, if_pos (List.prefix_append _ _), List.drop_left]

theorem stripPrefix_eq_some {below : List FileName} : stripPrefix root path = some below ↔ path = root ++ below := by
  constructor
  · intro h
    rw [stripPrefix] at h
    split_ifs at h with hroot
    obtain ⟨rest, rfl⟩ := hroot
    rw [List.drop_left] at h
    rw [Option.some.inj h]
  · rintro rfl
    exact stripPrefix_append root below

theorem mapM_decode {below : List FileName} {parts : List Text} (h : below.mapM Utf8.decode = some parts) :
    below = parts.map Utf8.encode := by
  induction below generalizing parts with
  | nil =>
    obtain rfl : [] = parts := by simpa using h
    rfl
  | cons name below ih =>
    rw [List.mapM_cons] at h
    obtain ⟨part, hpart, h⟩ := Option.bind_eq_some_iff.1 h
    obtain ⟨rest, hrest, h⟩ := Option.bind_eq_some_iff.1 h
    obtain rfl : part :: rest = parts := by simpa using h
    rw [List.map_cons, ih hrest, Utf8.encode_of_decode hpart]

/-- A path from the root names its own parts. -/
theorem relative_ok (h : relative root path = .ok p) :
    ∃ parts : List Text, path = root ++ parts.map Utf8.encode ∧ p.asStr = ['/'].intercalate parts ∧
      FilePath.new p.asStr = .ok p := by
  unfold relative at h
  split at h
  · cases h
  · rename_i parts hparts
    split at h
    · cases h
    · rename_i p' hnew
      obtain rfl : p' = p := by simpa using h
      obtain ⟨below, hbelow, hdecode⟩ := Option.bind_eq_some_iff.1 hparts
      have hasStr : p'.asStr = ['/'].intercalate parts := FilePath.new_asStr hnew
      refine ⟨parts, ?_, hasStr, hasStr ▸ hnew⟩
      rw [stripPrefix_eq_some.1 hbelow, mapM_decode hdecode]

/-- A valid path is not the empty one. -/
theorem asStr_ne_nil (h : FilePath.new p.asStr = .ok p) : p.asStr ≠ [] := by
  intro hnil
  rw [hnil] at h
  cases h

/-- The parts of a path that is there are the segments of the path from the root. -/
theorem relative_segments (hproper : ∀ name ∈ path, ProperName name) (h : relative root path = .ok p) :
    path = root ++ (p.asStr.splitOn '/').map Utf8.encode := by
  obtain ⟨parts, rfl, hasStr, hnew⟩ := relative_ok h
  have hslash : ∀ part ∈ parts, '/' ∉ part := by
    intro part hpart hmem
    have hname := (hproper (Utf8.encode part) (List.mem_append_right _ (List.mem_map_of_mem hpart))).2.1
    exact hname ((Utf8.mem_encode_ascii (by decide)).2 hmem)
  have hne : parts ≠ [] := by
    rintro rfl
    exact asStr_ne_nil hnew hasStr
  rw [hasStr, List.splitOn_intercalate '/' hslash hne]

theorem relative_injective {path' : OsPath} (hproper : ∀ name ∈ path, ProperName name)
    (hproper' : ∀ name ∈ path', ProperName name) (h : relative root path = .ok p) (h' : relative root path' = .ok p) :
    path = path' := by
  rw [relative_segments hproper h, ← relative_segments hproper' h']

theorem toOption_eq_some {ε α : Type} {r : Except ε α} {a : α} : r.toOption = some a ↔ r = .ok a := by
  cases r with
  | error e => simp [Except.toOption]
  | ok b => simp [Except.toOption]

/-! ## One entry, one folder -/

/-- A document the walk finds among a folder's entries. -/
def docPath (extra : Option OsPath) (dir : OsPath) (entry : FileName × FileKind) : Option OsPath :=
  match entry.2 with
  | .file =>
    if (Utf8.decode entry.1).any isDocumentName || extra = some (dir ++ [entry.1]) then some (dir ++ [entry.1])
    else none
  | _ => none

/-- A folder the walk enters among a folder's entries. -/
def enteredPath (t : FileTree) (dir : OsPath) (entry : FileName × FileKind) : Option OsPath :=
  match entry.2 with
  | .dir _ => if walkEnters t (dir ++ [entry.1]) then some (dir ++ [entry.1]) else none
  | _ => none

/-- The documents the walk finds in a folder. -/
def documentsIn (t : FileTree) (extra : Option OsPath) (dir : OsPath) : List OsPath :=
  (t.entries dir).filterMap (docPath extra dir)

/-- The paths the walk gives documents. -/
def named (root : OsPath) (docs : List OsPath) : List FilePath := docs.filterMap fun d => (relative root d).toOption

theorem named_append (root : OsPath) (docs docs' : List OsPath) :
    named root (docs ++ docs') = named root docs ++ named root docs' := List.filterMap_append

/-- What a walk has made of some entries of `dir`: every name is text, every document has a path, and there are not
too many. -/
structure Visited (t : FileTree) (root : OsPath) (extra : Option OsPath) (dir : OsPath) (depth : Nat)
    (entries : List (FileName × FileKind)) (w w' : Walk) : Prop where
  texts : ∀ entry ∈ entries, (Utf8.decode entry.1).isSome
  paths : ∀ d ∈ entries.filterMap (docPath extra dir), ∃ p, relative root d = .ok p
  fits : w'.found.length ≤ WALK_MAX_FILES
  stack : w'.stack = ((entries.filterMap (enteredPath t dir)).reverse.map fun d => (d, depth + 1)) ++ w.stack
  found : w'.found = w.found ++ named root (entries.filterMap (docPath extra dir))
  count : w'.found.length = w.found.length + (entries.filterMap (docPath extra dir)).length

/-- Entries a walk cannot make anything of: a name that is no text, a document with no path, or too many of them. -/
def Stuck (root : OsPath) (extra : Option OsPath) (dir : OsPath) (entries : List (FileName × FileKind))
    (found : Nat) : Prop :=
  (∃ entry ∈ entries, Utf8.decode entry.1 = none) ∨
    (∃ d ∈ entries.filterMap (docPath extra dir), ∀ p, relative root d ≠ .ok p) ∨
    WALK_MAX_FILES < found + (entries.filterMap (docPath extra dir)).length

variable {entry : FileName × FileKind} {entries : List (FileName × FileKind)}

theorem walkEnters_of_decode (t : FileTree) (dir : OsPath) {file : FileName} {name : Text}
    (h : Utf8.decode file = some name) :
    walkEnters t (dir ++ [file]) = (decide (name ≠ STATE_DIR) && !isSkippedDir t (dir ++ [file])) := by
  have hiff : (dir ++ [file]).getLast? = some (Utf8.encode STATE_DIR) ↔ name = STATE_DIR := by
    rw [List.getLast?_concat, Option.some_inj, ← Utf8.encode_of_decode h]
    exact Utf8.encode_injective.eq_iff
  simp only [walkEnters, ne_eq, hiff]

/-- What the walk makes of one entry. -/
theorem visit_cases (t : FileTree) (root : OsPath) (extra : Option OsPath) (dir : OsPath) (depth : Nat)
    (entry : FileName × FileKind) (hfits : w.found.length ≤ WALK_MAX_FILES) :
    (∃ w', visit t root extra dir depth w entry = .ok w' ∧ Visited t root extra dir depth [entry] w w') ∨
      ∃ e, visit t root extra dir depth w entry = .error e ∧ Stuck root extra dir [entry] w.found.length := by
  obtain ⟨name, kind⟩ := entry
  cases hdecode : Utf8.decode name with
  | none =>
    refine .inr ⟨.badName (dir ++ [name]), ?_, .inl ⟨(name, kind), by simp, hdecode⟩⟩
    simp [visit, hdecode]
  | some text =>
    have htexts : ∀ entry ∈ [(name, kind)], (Utf8.decode entry.1).isSome := by simp [hdecode]
    cases kind with
    | dir readable =>
      have henters := walkEnters_of_decode t dir hdecode
      refine .inl ?_
      by_cases hin : walkEnters t (dir ++ [name]) = true
      · refine ⟨{ w with stack := (dir ++ [name], depth + 1) :: w.stack }, ?_, htexts, ?_, hfits, ?_, ?_, ?_⟩
        · rw [henters] at hin
          simp only [visit, hdecode, if_pos hin]
        · simp [docPath]
        · simp [enteredPath, hin]
        · simp [docPath, named]
        · simp [docPath]
      · refine ⟨w, ?_, htexts, ?_, hfits, ?_, ?_, ?_⟩
        · rw [henters] at hin
          simp only [visit, hdecode, if_neg hin]
        · simp [docPath]
        · simp [enteredPath, hin]
        · simp [docPath, named]
        · simp [docPath]
    | file =>
      by_cases hdoc : (isDocumentName text || decide (extra = some (dir ++ [name]))) = true
      · have hpath : [(name, FileKind.file)].filterMap (docPath extra dir) = [dir ++ [name]] := by
          simp only [List.filterMap_cons, docPath, hdecode, Option.any_some, if_pos hdoc, List.filterMap_nil]
        by_cases hfull : w.found.length = WALK_MAX_FILES
        · refine .inr ⟨.tooMany (w.found.length + 1), ?_, .inr (.inr ?_)⟩
          · simp only [visit, hdecode, if_pos hdoc, if_pos hfull]
          · rw [hpath, List.length_singleton]
            omega
        · cases hrel : relative root (dir ++ [name]) with
          | error e =>
            refine .inr ⟨e, ?_, .inr (.inl ⟨dir ++ [name], by simp [hpath], ?_⟩)⟩
            · simp only [visit, hdecode, if_pos hdoc, if_neg hfull, hrel]
            · simp [hrel]
          | ok p =>
            refine .inl ⟨{ w with found := w.found ++ [p] }, ?_, htexts, ?_, ?_, ?_, ?_, ?_⟩
            · simp only [visit, hdecode, if_pos hdoc, if_neg hfull, hrel]
            · simp [hpath, hrel]
            · rw [List.length_append, List.length_singleton]
              omega
            · simp [enteredPath]
            · simp [hpath, named, hrel, Except.toOption]
            · simp [hpath]
      · have hpath : [(name, FileKind.file)].filterMap (docPath extra dir) = [] := by
          simp only [List.filterMap_cons, docPath, hdecode, Option.any_some, if_neg hdoc, List.filterMap_nil]
        refine .inl ⟨w, ?_, htexts, ?_, hfits, ?_, ?_, ?_⟩
        · simp only [visit, hdecode, if_neg hdoc]
        · simp [hpath]
        · simp [enteredPath]
        · simp [hpath, named]
        · simp [hpath]
    | link toFile =>
      refine .inl ⟨w, ?_, htexts, ?_, hfits, ?_, ?_, ?_⟩
      · simp [visit, hdecode]
      · simp [docPath]
      · simp [enteredPath]
      · simp [docPath, named]
      · simp [docPath]
    | other =>
      refine .inl ⟨w, ?_, htexts, ?_, hfits, ?_, ?_, ?_⟩
      · simp [visit, hdecode]
      · simp [docPath]
      · simp [enteredPath]
      · simp [docPath, named]
      · simp [docPath]

theorem filterMap_cons_singleton {α β : Type} (f : α → Option β) (a : α) (l : List α) :
    (a :: l).filterMap f = [a].filterMap f ++ l.filterMap f := by
  rw [← List.filterMap_append, List.singleton_append]

/-- An entry, then the others. -/
theorem Visited.cons {w'' : Walk} (h : Visited t root extra dir depth [entry] w w')
    (h' : Visited t root extra dir depth entries w' w'') : Visited t root extra dir depth (entry :: entries) w w'' where
  texts e he := by
    rcases List.mem_cons.1 he with rfl | he
    · exact h.texts e (by simp)
    · exact h'.texts e he
  paths d hd := by
    rw [filterMap_cons_singleton _ entry entries] at hd
    rcases List.mem_append.1 hd with hd | hd
    · exact h.paths d hd
    · exact h'.paths d hd
  fits := h'.fits
  stack := by
    rw [h'.stack, h.stack, filterMap_cons_singleton _ entry entries, List.reverse_append, List.map_append, List.append_assoc]
  found := by rw [h'.found, h.found, filterMap_cons_singleton _ entry entries, named_append, List.append_assoc]
  count := by
    rw [h'.count, h.count, filterMap_cons_singleton _ entry entries, List.length_append]
    omega

/-- What the walk makes of entries, one after the other. -/
theorem foldlM_visit_cases (t : FileTree) (root : OsPath) (extra : Option OsPath) (dir : OsPath) (depth : Nat)
    (entries : List (FileName × FileKind)) (hfits : w.found.length ≤ WALK_MAX_FILES) :
    (∃ w', entries.foldlM (visit t root extra dir depth) w = .ok w' ∧ Visited t root extra dir depth entries w w') ∨
      ∃ e, entries.foldlM (visit t root extra dir depth) w = .error e ∧ Stuck root extra dir entries w.found.length := by
  induction entries generalizing w with
  | nil => exact .inl ⟨w, rfl, by simp, by simp, hfits, by simp, by simp [named], by simp⟩
  | cons entry entries ih =>
    rw [List.foldlM_cons]
    rcases visit_cases t root extra dir depth entry hfits with ⟨w', hw', hvisited⟩ | ⟨e, he, hstuck⟩
    · rw [hw']
      rcases ih hvisited.fits with ⟨w'', hw'', hvisited'⟩ | ⟨e, he, hstuck⟩
      · exact .inl ⟨w'', hw'', hvisited.cons hvisited'⟩
      · refine .inr ⟨e, he, ?_⟩
        rcases hstuck with ⟨bad, hbad, hnone⟩ | ⟨d, hd, hnone⟩ | hmany
        · exact .inl ⟨bad, List.mem_cons_of_mem _ hbad, hnone⟩
        · refine .inr (.inl ⟨d, ?_, hnone⟩)
          rw [filterMap_cons_singleton _ entry entries]
          exact List.mem_append_right _ hd
        · refine .inr (.inr ?_)
          rw [filterMap_cons_singleton _ entry entries, List.length_append, ← Nat.add_assoc, ← hvisited.count]
          exact hmany
    · rw [he]
      refine .inr ⟨e, rfl, ?_⟩
      rcases hstuck with ⟨bad, hbad, hnone⟩ | ⟨d, hd, hnone⟩ | hmany
      · refine .inl ⟨bad, ?_, hnone⟩
        rw [List.mem_singleton.1 hbad]
        exact List.mem_cons_self
      · refine .inr (.inl ⟨d, ?_, hnone⟩)
        rw [filterMap_cons_singleton _ entry entries]
        exact List.mem_append_left _ hd
      · refine .inr (.inr (hmany.trans_le ?_))
        rw [filterMap_cons_singleton _ entry entries, List.length_append]
        omega

/-! ## The whole walk -/

/-- The folders a walk of `root` lists. -/
def listed (t : FileTree) (root : OsPath) : List OsPath := t.walked (walkEnters t) root

/-- A folder a walk of `root` can list: it is not too deep, it can be read, its names are text and its documents have
paths. -/
structure Listable (t : FileTree) (root : OsPath) (extra : Option OsPath) (dir : OsPath) : Prop where
  depth : dir.length ≤ root.length + WALK_MAX_DEPTH
  readable : t.kindAt dir = some (.dir true)
  texts : ∀ entry ∈ t.entries dir, (Utf8.decode entry.1).isSome
  paths : ∀ d ∈ documentsIn t extra dir, ∃ p, relative root d = .ok p

/-- A root whose walk goes through: a folder is there, every folder it enters can be listed, and there are not too many
documents. -/
structure Walkable (t : FileTree) (root : OsPath) (extra : Option OsPath) : Prop where
  isDir : t.isDir root = true
  listable : ∀ dir ∈ listed t root, Listable t root extra dir
  fits : ((listed t root).flatMap (documentsIn t extra)).length ≤ WALK_MAX_FILES

/-- The folders a walk has still to list. -/
def ahead (t : FileTree) (root : OsPath) (w : Walk) : List OsPath :=
  w.stack.flatMap fun e => t.below (walkEnters t) root e.1

/-- A walk on its way: the folders on its stack are to be listed, each under its depth. -/
structure OnTrack (t : FileTree) (root : OsPath) (w : Walk) : Prop where
  stack : ∀ e ∈ w.stack, e.1 ∈ listed t root ∧ e.1.length = root.length + e.2
  fits : w.found.length ≤ WALK_MAX_FILES

/-- Folders a walk gets through: each can be listed, and their documents are not too many beside `n` others. -/
def GetsThrough (t : FileTree) (root : OsPath) (extra : Option OsPath) (dirs : List OsPath) (n : Nat) : Prop :=
  (∀ dir ∈ dirs, Listable t root extra dir) ∧ n + (dirs.flatMap (documentsIn t extra)).length ≤ WALK_MAX_FILES

/-- What a walk on its way comes to: everything it found and all documents ahead, or an error when it does not get
through. -/
def ComesTo (t : FileTree) (root : OsPath) (extra : Option OsPath) (w : Walk) :
    Except WalkError (List FilePath) → Prop
  | .error _ => ¬GetsThrough t root extra (ahead t root w) w.found.length
  | .ok found => GetsThrough t root extra (ahead t root w) w.found.length ∧
      ∃ l : List FilePath, found = l.insertionSort (· ≤ ·) ∧ l.Perm (w.found ++ named root ((ahead t root w).flatMap (documentsIn t extra)))

variable {stack : List (OsPath × Nat)} {found : List FilePath}

/-- A folder and all below it are ahead of the walk that is about to list it. -/
theorem mem_ahead_top : dir ∈ listed t root → dir ∈ ahead t root ⟨(dir, depth) :: stack, found⟩ := by
  intro hdir
  rw [ahead, List.flatMap_cons]
  exact List.mem_append_left _ (FileTree.mem_below.2 ⟨hdir, List.prefix_rfl⟩)

/-- Once a folder is listed, it is behind and what it holds is ahead. -/
theorem ahead_perm (hdir : dir ∈ listed t root)
    (hvisited : Visited t root extra dir depth (t.entries dir) ⟨stack, found⟩ w') :
    (ahead t root ⟨(dir, depth) :: stack, found⟩).Perm (dir :: ahead t root w') := by
  have hentered : (t.entries dir).filterMap (enteredPath t dir) = t.entered (walkEnters t) dir := rfl
  rw [ahead, ahead, List.flatMap_cons, hvisited.stack, hentered, List.flatMap_append, List.flatMap_map]
  refine ((FileTree.below_perm hdir).append_right _).trans ?_
  rw [List.cons_append]
  exact (((List.reverse_perm _).symm.flatMap_right _).append_right _).cons dir

/-- A walk stays on its way. -/
theorem OnTrack.step (h : OnTrack t root ⟨(dir, depth) :: stack, found⟩)
    (hvisited : Visited t root extra dir depth (t.entries dir) ⟨stack, found⟩ w') : OnTrack t root w' where
  stack e he := by
    obtain ⟨hdir, hdepth⟩ := h.stack (dir, depth) List.mem_cons_self
    rw [hvisited.stack] at he
    rcases List.mem_append.1 he with he | he
    · obtain ⟨d, hd, rfl⟩ := List.mem_map.1 he
      have hentered : d ∈ t.entered (walkEnters t) dir := List.mem_reverse.1 hd
      refine ⟨FileTree.entered_walked hdir hentered, ?_⟩
      obtain ⟨name, readable, rfl, -, -⟩ := FileTree.mem_entered.1 hentered
      rw [List.length_append, List.length_singleton, hdepth]
      omega
    · exact h.stack e (List.mem_cons_of_mem _ he)
  fits := hvisited.fits

theorem getsThrough_perm {dirs dirs' : List OsPath} (h : dirs.Perm dirs') :
    GetsThrough t root extra dirs n ↔ GetsThrough t root extra dirs' n := by
  have hlen := (h.flatMap_right (documentsIn t extra)).length_eq
  rw [GetsThrough, GetsThrough, hlen]
  exact and_congr_left fun _ => forall_congr' fun _ => imp_congr_left h.mem_iff

theorem getsThrough_cons {dirs : List OsPath} (h : Listable t root extra dir) :
    GetsThrough t root extra (dir :: dirs) n ↔ GetsThrough t root extra dirs (n + (documentsIn t extra dir).length) := by
  rw [GetsThrough, GetsThrough, List.forall_mem_cons, List.flatMap_cons, List.length_append, Nat.add_assoc]
  exact and_congr_left fun _ => and_iff_right h

/-- What a walk comes to, it comes to from the folder before. -/
theorem ComesTo.step {r : Except WalkError (List FilePath)} (hdir : dir ∈ listed t root)
    (hlistable : Listable t root extra dir)
    (hvisited : Visited t root extra dir depth (t.entries dir) ⟨stack, found⟩ w') (h : ComesTo t root extra w' r) :
    ComesTo t root extra ⟨(dir, depth) :: stack, found⟩ r := by
  have hperm := ahead_perm hdir hvisited
  have hthrough : GetsThrough t root extra (ahead t root ⟨(dir, depth) :: stack, found⟩) found.length ↔
      GetsThrough t root extra (ahead t root w') w'.found.length := by
    rw [getsThrough_perm hperm, getsThrough_cons hlistable, hvisited.count]
    rfl
  cases r with
  | error e => exact fun hget => h (hthrough.1 hget)
  | ok found' =>
    obtain ⟨hget, l, rfl, hl⟩ := h
    refine ⟨hthrough.2 hget, l, rfl, hl.trans ?_⟩
    rw [hvisited.found, List.append_assoc, ← named_append]
    refine List.Perm.append_left _ (List.Perm.filterMap _ ?_)
    show ((dir :: ahead t root w').flatMap (documentsIn t extra)).Perm _
    exact (hperm.flatMap_right _).symm

/-- A folder that cannot be listed, or too many documents in it, and the walk does not get through. -/
theorem not_getsThrough (hdir : dir ∈ listed t root)
    (h : ¬(Listable t root extra dir ∧ found.length + (documentsIn t extra dir).length ≤ WALK_MAX_FILES)) :
    ¬GetsThrough t root extra (ahead t root ⟨(dir, depth) :: stack, found⟩) found.length := by
  intro hget
  have htop : dir ∈ ahead t root ⟨(dir, depth) :: stack, found⟩ := mem_ahead_top hdir
  refine h ⟨hget.1 dir htop, le_trans ?_ hget.2⟩
  have hsub : (documentsIn t extra dir).Sublist
      ((ahead t root ⟨(dir, depth) :: stack, found⟩).flatMap (documentsIn t extra)) := by
    obtain ⟨front, back, hsplit⟩ := List.append_of_mem htop
    rw [hsplit, List.flatMap_append, List.flatMap_cons]
    exact (List.sublist_append_left _ _).trans (List.sublist_append_right _ _)
  exact Nat.add_le_add_left hsub.length_le _

/-- A walk on its way ends, within as many turns as there are folders ahead. -/
theorem loop_walkTurn (extra : Option OsPath) (h : OnTrack t root w) (hn : (ahead t root w).length < n) :
    ∃ r, loop (walkTurn t root extra) n w = some r ∧ ComesTo t root extra w r := by
  induction n generalizing w with
  | zero => exact absurd hn (Nat.not_lt_zero _)
  | succ n ih =>
    obtain ⟨stack, found⟩ := w
    cases stack with
    | nil =>
      refine ⟨.ok (found.insertionSort (· ≤ ·)), Loop.loop_stop rfl, ⟨⟨by simp [ahead], by simpa [ahead] using h.fits⟩, found, rfl, ?_⟩⟩
      simp [ahead, named]
    | cons top stack =>
      obtain ⟨dir, depth⟩ := top
      obtain ⟨hdir, hdepth⟩ := h.stack (dir, depth) List.mem_cons_self
      dsimp only at hdir hdepth
      by_cases hdeep : WALK_MAX_DEPTH < depth
      · refine ⟨.error (.tooDeep dir), Loop.loop_stop ?_, not_getsThrough hdir fun hfine => ?_⟩
        · simp only [walkTurn, if_pos hdeep]
        · have hle := hfine.1.depth
          omega
      by_cases hread : t.kindAt dir = some (.dir true)
      · have hentries : t.readDir dir = some (t.entries dir) := if_pos hread
        rcases foldlM_visit_cases t root extra dir depth (t.entries dir) (w := ⟨stack, found⟩) h.fits with
          ⟨w', hw', hvisited⟩ | ⟨e, he, hstuck⟩
        · have hlistable : Listable t root extra dir :=
            ⟨by omega, hread, hvisited.texts, hvisited.paths⟩
          have hlt : (ahead t root w').length < n := by
            have hlen := (ahead_perm hdir hvisited).length_eq
            rw [List.length_cons] at hlen
            omega
          obtain ⟨r, hr, hcomes⟩ := ih (h.step hvisited) hlt
          refine ⟨r, (Loop.loop_go ?_).trans hr, hcomes.step hdir hlistable hvisited⟩
          simp only [walkTurn, if_neg hdeep, hentries, hw']
        · refine ⟨.error e, Loop.loop_stop ?_, not_getsThrough hdir fun hfine => ?_⟩
          · simp only [walkTurn, if_neg hdeep, hentries, he]
          · obtain ⟨hlistable, hfits⟩ := hfine
            rcases hstuck with ⟨bad, hbad, hnone⟩ | ⟨d, hd, hnone⟩ | hmany
            · have htext := hlistable.texts bad hbad
              rw [hnone] at htext
              cases htext
            · obtain ⟨p, hp⟩ := hlistable.paths d hd
              exact hnone p hp
            · exact absurd hfits (not_le.2 hmany)
      · refine ⟨.error (.io dir), Loop.loop_stop ?_, not_getsThrough hdir fun hfine => hread hfine.1.readable⟩
        have hentries : t.readDir dir = none := if_neg hread
        simp only [walkTurn, if_neg hdeep, hentries]

/-! ## What is found -/

/-- A file the walk looks for: its name is a document's, or it is the extra one. -/
def IsDocument (t : FileTree) (extra : Option OsPath) (d : OsPath) : Prop :=
  t.kindAt d = some .file ∧ ((fileName d).any isDocumentName ∨ extra = some d)

theorem docPath_eq_some : docPath extra dir entry = some d ↔
    entry.2 = .file ∧ d = dir ++ [entry.1] ∧ ((fileName d).any isDocumentName ∨ extra = some d) := by
  obtain ⟨name, kind⟩ := entry
  cases kind with
  | file =>
    simp only [docPath, true_and]
    constructor
    · intro h
      split_ifs at h with hdoc
      obtain rfl := Option.some.inj h
      refine ⟨rfl, ?_⟩
      rw [fileName, List.getLast?_concat]
      simpa using hdoc
    · rintro ⟨rfl, hdoc⟩
      rw [fileName, List.getLast?_concat] at hdoc
      rw [if_pos]
      simpa using hdoc
  | dir readable => simp [docPath]
  | link toFile => simp [docPath]
  | other => simp [docPath]

theorem mem_documentsIn : d ∈ documentsIn t extra dir ↔ IsDocument t extra d ∧ ∃ name, d = dir ++ [name] := by
  rw [documentsIn, List.mem_filterMap]
  constructor
  · rintro ⟨⟨name, kind⟩, hmem, hsome⟩
    obtain ⟨rfl, rfl, hdoc⟩ := docPath_eq_some.1 hsome
    exact ⟨⟨FileTree.kindAt_eq_some.2 (FileTree.mem_entries.1 hmem), hdoc⟩, name, rfl⟩
  · rintro ⟨⟨hkind, hdoc⟩, name, rfl⟩
    refine ⟨(name, .file), FileTree.mem_entries.2 (FileTree.kindAt_eq_some.1 hkind), ?_⟩
    exact docPath_eq_some.2 ⟨rfl, rfl, hdoc⟩

theorem documentsIn_nodup (t : FileTree) (extra : Option OsPath) (dir : OsPath) : (documentsIn t extra dir).Nodup := by
  refine (List.Nodup.of_map _ (t.entries_nodup dir)).filterMap fun entry entry' d hd hd' => ?_
  obtain ⟨hfile, rfl, -⟩ := docPath_eq_some.1 hd
  obtain ⟨hfile', heq, -⟩ := docPath_eq_some.1 hd'
  refine Prod.ext ?_ (hfile.trans hfile'.symm)
  simpa using heq

/-- Every document of every folder a walk of `root` lists. -/
def documents (t : FileTree) (root : OsPath) (extra : Option OsPath) : List OsPath :=
  (listed t root).flatMap (documentsIn t extra)

theorem documents_nodup (t : FileTree) (root : OsPath) (extra : Option OsPath) : (documents t root extra).Nodup := by
  refine List.nodup_flatMap.2 ⟨fun dir _ => documentsIn_nodup t extra dir, ?_⟩
  refine (t.walked_nodup (walkEnters t) root).imp fun {dir dir'} hne d hd hd' => hne ?_
  obtain ⟨-, name, rfl⟩ := mem_documentsIn.1 hd
  obtain ⟨-, name', heq⟩ := mem_documentsIn.1 hd'
  exact (List.append_inj' heq rfl).1

theorem proper_of_document (h : IsDocument t extra d) : ∀ name ∈ d, ProperName name :=
  t.proper _ (FileTree.kindAt_eq_some.1 h.1)

theorem named_nodup (root : OsPath) {docs : List OsPath} (hnodup : docs.Nodup) (hdocs : ∀ d ∈ docs, IsDocument t extra d) :
    (named root docs).Nodup := by
  induction docs with
  | nil => exact List.nodup_nil
  | cons d docs ih =>
    obtain ⟨hd, hnodup⟩ := List.nodup_cons.1 hnodup
    obtain ⟨hdoc, hdocs⟩ := List.forall_mem_cons.1 hdocs
    have hrest := ih hnodup hdocs
    rw [named, List.filterMap_cons]
    split
    · exact hrest
    · rename_i p hp
      refine List.nodup_cons.2 ⟨fun hmem => hd ?_, hrest⟩
      obtain ⟨d', hd', hp'⟩ := List.mem_filterMap.1 hmem
      have hinj := relative_injective (proper_of_document hdoc) (proper_of_document (hdocs d' hd'))
        (toOption_eq_some.1 hp) (toOption_eq_some.1 hp')
      exact hinj ▸ hd'

/-- The paths found stand in strict order. -/
def InOrder (found : List FilePath) : Prop := KeySorted.Sorted id found

/-- The number of folders a walk lists is at most the number of things on the disk. -/
theorem listed_length_le (t : FileTree) (root : OsPath) : (listed t root).length ≤ t.nodes.length := by
  have h := (List.filter_sublist.trans List.filter_sublist :
    (t.walked (walkEnters t) root).Sublist (t.nodes.map Prod.fst)).length_le
  rwa [List.length_map] at h

theorem root_mem_listed (h : t.isDir root = true) : root ∈ listed t root := by
  refine FileTree.mem_walked_iff.2 ⟨FileTree.isDir_iff.1 h, List.prefix_rfl, ?_⟩
  rw [List.drop_length]
  rfl

/-- A walk ends: with all documents when it goes through, with an error when it does not. -/
theorem walkInner_run (t : FileTree) (root : OsPath) (extra : Option OsPath) :
    ∃ r, (∀ turns, t.nodes.length < turns → walkInner turns t root extra = some r) ∧
      ((∃ found, r = .ok found) ↔ Walkable t root extra) ∧
      ∀ found, r = .ok found →
        ∃ l : List FilePath, found = l.insertionSort (· ≤ ·) ∧ l.Perm (named root (documents t root extra)) := by
  by_cases hdir : t.isDir root = true
  · have htrack : OnTrack t root ⟨[(root, 0)], []⟩ := by
      refine ⟨fun e he => ?_, Nat.zero_le _⟩
      obtain rfl := List.mem_singleton.1 he
      exact ⟨root_mem_listed hdir, rfl⟩
    have hahead : ahead t root ⟨[(root, 0)], []⟩ = listed t root := by
      rw [ahead, List.flatMap_cons, List.flatMap_nil, List.append_nil, FileTree.below_root]
      rfl
    have hlen : (ahead t root ⟨[(root, 0)], []⟩).length < t.nodes.length + 1 := by
      rw [hahead]
      exact Nat.lt_succ_of_le (listed_length_le t root)
    obtain ⟨r, hr, hcomes⟩ := loop_walkTurn extra htrack hlen
    have hwalkable : GetsThrough t root extra (listed t root) 0 ↔ Walkable t root extra := by
      rw [GetsThrough, Nat.zero_add]
      exact ⟨fun h => ⟨hdir, h.1, h.2⟩, fun h => ⟨h.listable, h.fits⟩⟩
    refine ⟨r, fun turns hturns => Loop.loop_mono hr hturns, ?_, ?_⟩
    · cases r with
      | error e =>
        rw [ComesTo, hahead] at hcomes
        exact iff_of_false (by rintro ⟨found, h⟩; cases h) fun h => hcomes (hwalkable.2 h)
      | ok found =>
        rw [ComesTo, hahead] at hcomes
        exact iff_of_true ⟨found, rfl⟩ (hwalkable.1 hcomes.1)
    · rintro found rfl
      rw [ComesTo, hahead] at hcomes
      exact hcomes.2
  · refine ⟨.error (.io root), fun turns hturns => ?_, ?_, fun found h => by cases h⟩
    · have hstop : walkTurn t root extra ⟨[(root, 0)], []⟩ = .inr (.error (.io root)) := by
        have hread : t.readDir root = none := by
          refine if_neg fun h => hdir ?_
          rw [FileTree.isDir, h]
          rfl
        simp only [walkTurn, hread, if_neg (Nat.not_lt_zero WALK_MAX_DEPTH)]
      obtain ⟨turns, rfl⟩ : ∃ k, turns = k + 1 := ⟨turns - 1, by omega⟩
      exact Loop.loop_stop hstop
    · exact iff_of_false (by rintro ⟨found, h⟩; cases h) fun h => hdir h.isDir

/-- What a walk that goes through has found, order apart. -/
theorem found_perm {turns : Nat} {found : List FilePath} (h : walkInner turns t root extra = some (.ok found)) :
    Walkable t root extra ∧
      ∃ l : List FilePath, found = l.insertionSort (· ≤ ·) ∧ l.Perm (named root (documents t root extra)) := by
  obtain ⟨r, hr, hwalkable, hfound⟩ := walkInner_run t root extra
  have hturns := hr (max turns (t.nodes.length + 1)) (by omega)
  rw [walkInner, Loop.loop_mono h (le_max_left _ _)] at hturns
  obtain rfl := Option.some.inj hturns
  exact ⟨hwalkable.1 ⟨found, rfl⟩, hfound found rfl⟩

theorem isDocument_of_mem (h : d ∈ documents t root extra) : IsDocument t extra d := by
  obtain ⟨dir, -, hin⟩ := List.mem_flatMap.1 h
  exact (mem_documentsIn.1 hin).1

theorem mem_documents :
    d ∈ documents t root extra ↔ IsDocument t extra d ∧ d ≠ [] ∧ d.dropLast ∈ listed t root := by
  constructor
  · intro h
    obtain ⟨dir, hlisted, hin⟩ := List.mem_flatMap.1 h
    obtain ⟨hdoc, name, rfl⟩ := mem_documentsIn.1 hin
    refine ⟨hdoc, by simp, ?_⟩
    rwa [List.dropLast_concat]
  · rintro ⟨hdoc, hne, hlisted⟩
    refine List.mem_flatMap.2 ⟨d.dropLast, hlisted, mem_documentsIn.2 ⟨hdoc, d.getLast hne, ?_⟩⟩
    exact (List.dropLast_append_getLast hne).symm

theorem mem_found {l : List FilePath} (h : l.Perm (named root (documents t root extra))) :
    p ∈ l.insertionSort (· ≤ ·) ↔ ∃ d ∈ documents t root extra, relative root d = .ok p := by
  rw [List.mem_insertionSort, h.mem_iff, named, List.mem_filterMap]
  exact exists_congr fun d => and_congr_right fun _ => toOption_eq_some

theorem anySkipped_eq (t : FileTree) (dir : OsPath) (below : List FileName) :
    anySkipped t dir below = !FileTree.entersAll (fun d => !isSkippedDir t d) dir below := by
  induction below generalizing dir with
  | nil => rfl
  | cons part below ih => rw [anySkipped, FileTree.entersAll, ih, Bool.not_and, Bool.not_not]

/-- A walk gets down a path without the state folder's name and without a skipped folder. -/
theorem entersAll_walkEnters {below : List FileName} :
    FileTree.entersAll (walkEnters t) root below = true ↔
      Utf8.encode STATE_DIR ∉ below ∧ anySkipped t root below = false := by
  rw [anySkipped_eq, Bool.not_eq_false', ← FileTree.entersAll_name _ root, ← Bool.and_eq_true, ← FileTree.entersAll_and]
  rfl

/-- A file of a document's name is no skipped folder. -/
theorem isSkippedDir_document (h : IsDocument t none d) : isSkippedDir t d = false := by
  obtain ⟨hkind, hdoc⟩ := h
  have hname : (fileName d).any isDocumentName = true := by simpa using hdoc
  obtain ⟨name, hfile, hin⟩ := (Option.any_eq_true _ _).1 hname
  have hgit : t.kindAt (join d ".git".toList) = none := by
    refine Option.eq_none_iff_forall_ne_some.2 fun kind h => ?_
    obtain ⟨readable, hdir⟩ := t.closed d _ kind (FileTree.kindAt_eq_some.1 h)
    have hsome := FileTree.kindAt_eq_some.2 hdir
    rw [hkind] at hsome
    cases hsome
  have hmem : name ∈ DOCUMENT_NAMES := by simpa [isDocumentName] using hin
  rw [DOCUMENT_NAMES, List.mem_cons, List.mem_singleton] at hmem
  have hother : name ∉ SKIPPED_DIR_NAMES ∧ name ≠ "target".toList ∧ name ≠ "worktrees".toList := by
    rcases hmem with rfl | rfl
    · decide
    · decide
  simp only [isSkippedDir, hfile, hgit, decide_eq_false hother.1, if_neg hother.2.1, if_neg hother.2.2, Option.isSome_none,
    Bool.or_self, Bool.false_eq_true, if_false]

theorem fileName_join (dir : OsPath) (name : Text) : fileName (join dir name) = some name := by
  rw [fileName, join, List.getLast?_concat]
  exact Utf8.decode_encode name

theorem parentOf_join (dir : OsPath) (name : Text) : parentOf (join dir name) = some dir := by
  rw [parentOf, join, if_neg (by simp), List.dropLast_concat]

theorem isSkippedDir_of_name {name : Text} (h : name ∈ SKIPPED_DIR_NAMES) : isSkippedDir t (join dir name) = true := by
  simp only [isSkippedDir, fileName_join, decide_eq_true h, Bool.true_or, if_true]

theorem isSkippedDir_worktrees (t : FileTree) (dir : OsPath) :
    isSkippedDir t (join (join dir ".claude".toList) "worktrees".toList) = true := by
  -- the names as variables, for the literals are slow to compare
  generalize hclaude : ".claude".toList = claude
  generalize hworktrees : "worktrees".toList = worktrees
  have hne : worktrees ≠ "target".toList := by
    rw [← hworktrees]
    decide
  unfold isSkippedDir
  rw [fileName_join, parentOf_join]
  simp only [Option.bind_some, fileName_join, hclaude, hworktrees, if_neg hne, if_true, decide_true, ite_self]

theorem exists_of_mem_zip_tail {α : Type} {l : List α} {a b : α} (h : (a, b) ∈ l.zip l.tail) :
    ∃ front back, l = front ++ a :: b :: back := by
  induction l with
  | nil => cases h
  | cons c l ih =>
    cases l with
    | nil => cases h
    | cons e l =>
      rw [List.tail_cons, List.zip_cons_cons] at h
      rcases List.mem_cons.1 h with heq | h
      · obtain ⟨rfl, rfl⟩ := Prod.mk.inj heq
        exact ⟨[], l, rfl⟩
      · obtain ⟨front, back, heq⟩ := ih h
        exact ⟨c :: front, back, by rw [heq, List.cons_append]⟩

/-- A skipped folder on the way. -/
theorem anySkipped_of_mem {front back : List FileName} {part : FileName}
    (h : isSkippedDir t (root ++ front ++ [part]) = true) : anySkipped t root (front ++ part :: back) = true := by
  rw [anySkipped_eq, Bool.not_eq_true', ← Bool.not_eq_true, FileTree.entersAll_iff]
  intro hall
  have hnot := hall front part back rfl
  rw [h] at hnot
  cases hnot

/-- A path under a folder skipped by its name goes through a skipped folder. -/
theorem anySkipped_of_isSkippedPath (t : FileTree) (root : OsPath) (h : isSkippedPath p = true) :
    anySkipped t root ((p.asStr.splitOn '/').dropLast.map Utf8.encode) = true := by
  unfold isSkippedPath at h
  generalize (p.asStr.splitOn '/').dropLast = dirs at h
  rw [Bool.or_eq_true, List.any_eq_true, List.any_eq_true] at h
  rcases h with ⟨name, hmem, hskip⟩ | ⟨pair, hmem, heq⟩
  · obtain ⟨front, back, rfl⟩ := List.append_of_mem hmem
    rw [List.map_append, List.map_cons]
    exact anySkipped_of_mem (isSkippedDir_of_name (of_decide_eq_true hskip))
  · obtain rfl := of_decide_eq_true heq
    obtain ⟨front, back, rfl⟩ := exists_of_mem_zip_tail hmem
    have hskipped := isSkippedDir_worktrees t (root ++ front.map Utf8.encode)
    rw [join, join, List.append_assoc root] at hskipped
    rw [List.map_append, List.map_cons, List.map_cons, List.append_cons]
    exact anySkipped_of_mem hskipped

theorem anySkipped_concat (t : FileTree) (dir : OsPath) (below : List FileName) (last : FileName) :
    anySkipped t dir (below ++ [last]) = (anySkipped t dir below || isSkippedDir t (dir ++ below ++ [last])) := by
  rw [anySkipped_eq, anySkipped_eq, FileTree.entersAll_append, Bool.not_and, Bool.not_not]

theorem state_dir_ne_document {name : Text} (h : isDocumentName name = true) : name ≠ STATE_DIR := by
  rintro rfl
  exact absurd h (by decide)

/-- The walk finds the documents below its root that the watcher does not pass over and that are not in a state folder,
and no peer's write to one of them goes unwritten. -/
theorem walk_finds_unskipped {turns : Nat} {found : List FilePath} (hwalk : walkInner turns t root none = some (.ok found))
    (hdoc : IsDocument t none d) (hp : relative root d = .ok p) :
    (p ∈ found ↔ isInSkippedDir t root d = false ∧ STATE_DIR ∉ p.asStr.splitOn '/') ∧
      (p ∈ found → isSkippedPath p = false) := by
  obtain ⟨-, l, hfound, hl⟩ := found_perm hwalk
  -- the document's parts, its name last
  have hparts := relative_segments (proper_of_document hdoc) hp
  obtain ⟨front, last, hsplit⟩ : ∃ front last, p.asStr.splitOn '/' = front ++ [last] := by
    rcases List.eq_nil_or_concat (p.asStr.splitOn '/') with hnil | ⟨front, last, hsplit⟩
    · exact absurd hnil (List.splitOn_ne_nil _ _)
    · exact ⟨front, last, by rw [hsplit, List.concat_eq_append]⟩
  rw [hsplit, List.map_append, List.map_singleton, ← List.append_assoc] at hparts
  subst hparts
  have hlast : isDocumentName last = true := by
    have hname := hdoc.2
    rw [fileName, List.getLast?_concat, Option.bind_some, Utf8.decode_encode] at hname
    simpa using hname
  have hskip : isInSkippedDir t root (root ++ front.map Utf8.encode ++ [Utf8.encode last]) =
      anySkipped t root (front.map Utf8.encode) := by
    rw [isInSkippedDir, List.append_assoc, stripPrefix_append, Option.any_some, anySkipped_concat,
      isSkippedDir_document hdoc, Bool.or_false]
  have hstate : STATE_DIR ∉ p.asStr.splitOn '/' ↔ Utf8.encode STATE_DIR ∉ front.map Utf8.encode := by
    rw [hsplit, List.mem_append, List.mem_singleton, List.mem_map_of_injective Utf8.encode_injective, not_or]
    exact and_iff_left (state_dir_ne_document hlast).symm
  have hiff : p ∈ found ↔ isInSkippedDir t root (root ++ front.map Utf8.encode ++ [Utf8.encode last]) = false ∧
      STATE_DIR ∉ p.asStr.splitOn '/' := by
    rw [hfound, mem_found hl, hskip, hstate]
    constructor
    · rintro ⟨d', hd', hp'⟩
      obtain ⟨hdoc', -, hlisted⟩ := mem_documents.1 hd'
      obtain rfl := relative_injective (proper_of_document hdoc') (proper_of_document hdoc) hp' hp
      rw [List.dropLast_concat] at hlisted
      have hall := (FileTree.mem_walked_iff.1 hlisted).2.2
      rw [List.drop_left] at hall
      exact (entersAll_walkEnters.1 hall).symm
    · rintro ⟨hany, hnot⟩
      refine ⟨_, mem_documents.2 ⟨hdoc, by simp, ?_⟩, hp⟩
      rw [List.dropLast_concat]
      refine FileTree.mem_walked_iff.2 ⟨?_, List.prefix_append _ _, ?_⟩
      · exact t.closed _ _ _ (FileTree.kindAt_eq_some.1 hdoc.1)
      · rw [List.drop_left]
        exact entersAll_walkEnters.2 ⟨hnot, hany⟩
  refine ⟨hiff, fun hin => ?_⟩
  have hany := (hiff.1 hin).1
  rw [hskip] at hany
  rw [← Bool.not_eq_true]
  intro hskipped
  have hsome := anySkipped_of_isSkippedPath t root hskipped
  rw [hsplit, List.dropLast_concat, hany] at hsome
  cases hsome

/-- A workspace `w` with a list and a package's list in `node_modules`. -/
def sampleTree : FileTree where
  nodes :=
    let w : OsPath := join [] "w".toList
    let modules : OsPath := join w "node_modules".toList
    [([], .dir true), (w, .dir true), (join w "todo.txt".toList, .file), (modules, .dir true),
      (join modules "todo.txt".toList, .file)]
  nodup := by decide +kernel
  proper := by decide +kernel
  closed := FileTree.closed_of_dropLast (by decide +kernel)

theorem walk_finds_unskipped_sample :
    walkInner 6 sampleTree (join [] "w".toList) none = some (.ok [⟨"todo.txt".toList⟩]) ∧
      isInSkippedDir sampleTree (join [] "w".toList) (join (join [] "w".toList) "todo.txt".toList) = false ∧
      isSkippedPath ⟨"todo.txt".toList⟩ = false := by
  have hwalk : walkInner 6 sampleTree (join [] "w".toList) none = some (.ok [⟨"todo.txt".toList⟩]) := by decide +kernel
  have h := walk_finds_unskipped (d := join (join [] "w".toList) "todo.txt".toList) hwalk
    ⟨by decide +kernel, .inl (by decide +kernel)⟩ (show _ = Except.ok ⟨"todo.txt".toList⟩ by decide +kernel)
  exact ⟨hwalk, (h.1.1 List.mem_cons_self).1, h.2 List.mem_cons_self⟩

/-! ## Two roots -/

end Walker

end Txtodo
