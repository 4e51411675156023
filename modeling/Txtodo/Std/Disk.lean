import Mathlib.Data.List.Basic
import Mathlib.Data.List.Infix

/-!
# Folders on a disk

The calls that make and move folders (`mkdir`, `mkdir -p`, `rename`). Every call may fail for a reason of
the system's own; what is in a folder beside other folders is left out.
-/

namespace Txtodo

/-- Why a call fails. -/
inductive IoError where
  | alreadyExists
  | notFound
  | other
  deriving DecidableEq

/-- A folder's path from the root, its own name first; `[]` is the root. -/
abbrev FolderPath := List (List Char)

/-- The folders below the root, every one in a folder that exists, and the calls made so far; call `n` is
refused when `refuses n`. -/
structure Disk where
  folders : List FolderPath
  closed : ∀ name parent, name :: parent ∈ folders → parent = [] ∨ parent ∈ folders
  calls : Nat
  refuses : Nat → Bool

namespace Disk

/-- Whether a folder is there. -/
def has (d : Disk) (p : FolderPath) : Bool := p = [] || p ∈ d.folders

theorem has_iff {d : Disk} {p : FolderPath} : d.has p = true ↔ p = [] ∨ p ∈ d.folders := by
  simp [has]

theorem has_cons {d : Disk} {name : List Char} {p : FolderPath} :
    d.has (name :: p) = true ↔ name :: p ∈ d.folders := by
  simp [has_iff]

/-- A folder that is there is in one that is there. -/
theorem has_parent {d : Disk} {name : List Char} {p : FolderPath} (h : d.has (name :: p) = true) :
    d.has p = true := has_iff.mpr (d.closed name p (has_cons.mp h))

/-- The disk after a call that changed nothing. -/
def called (d : Disk) : Disk := { d with calls := d.calls + 1 }

@[simp] theorem called_folders (d : Disk) : d.called.folders = d.folders := rfl

@[simp] theorem called_has (d : Disk) (p : FolderPath) : d.called.has p = d.has p := rfl

/-- The disk with the folder `name` in `parent`, which is there. -/
def add (d : Disk) (name : List Char) (parent : FolderPath) (h : d.has parent = true) : Disk where
  folders := (name :: parent) :: d.folders
  closed := by
    intro name' parent' hmem
    rcases List.mem_cons.mp hmem with heq | hmem
    · obtain ⟨rfl, rfl⟩ := List.cons.inj heq
      exact (has_iff.mp h).imp_right (List.mem_cons_of_mem _)
    · exact (d.closed name' parent' hmem).imp_right (List.mem_cons_of_mem _)
  calls := d.calls + 1
  refuses := d.refuses

/-- `mkdir`: makes the folder `name` in `parent`. -/
def createDir (d : Disk) (name : List Char) (parent : FolderPath) : Disk × Except IoError Unit :=
  if d.refuses d.calls then (d.called, .error .other)
  else if d.has (name :: parent) then (d.called, .error .alreadyExists)
  else if h : d.has parent = true then (d.add name parent h, .ok ())
  else (d.called, .error .notFound)

/-- `mkdir -p`: makes every folder of the path that is missing. -/
def createDirAll (d : Disk) : FolderPath → Disk × Except IoError Unit
  | [] => (d, .ok ())
  | name :: parent =>
    if d.has (name :: parent) then (d, .ok ())
    else match d.createDirAll parent with
      | (d, .error e) => (d, .error e)
      | (d, .ok ()) => d.createDir name parent

/-- `p` once `src` and all below it is at `dst`. -/
def rebase (src dst p : FolderPath) : FolderPath :=
  if src <:+ p then p.take (p.length - src.length) ++ dst else p

theorem rebase_below (src dst q : FolderPath) : rebase src dst (q ++ src) = q ++ dst := by
  simp [rebase, List.suffix_append]

theorem rebase_other {src p : FolderPath} (dst : FolderPath) (h : ¬src <:+ p) :
    rebase src dst p = p := if_neg h

/-- A move the system can make: `src` is there, what is to hold it is there and not inside it, and nothing
is in the folder it takes the place of, if there is one. -/
def Movable (d : Disk) (src : FolderPath) (name : List Char) (parent : FolderPath) : Prop :=
  src ∈ d.folders ∧ d.has parent = true ∧ ¬src <:+ parent ∧
    ∀ p ∈ d.folders, p.tail ≠ name :: parent

instance (d : Disk) (src : FolderPath) (name : List Char) (parent : FolderPath) :
    Decidable (d.Movable src name parent) :=
  inferInstanceAs (Decidable (_ ∧ _ ∧ _ ∧ _))

/-- The disk with `src` moved to `name` in `parent`. -/
def move (d : Disk) (src : FolderPath) (name : List Char) (parent : FolderPath)
    (h : d.Movable src name parent) : Disk where
  folders := (d.folders.filter (· ≠ name :: parent)).map (rebase src (name :: parent))
  closed := by
    obtain ⟨-, hparent, hout, hempty⟩ := h
    -- a folder not below `src` keeps its place
    have hstays : ∀ p ∈ d.folders, ¬src <:+ p → p ≠ name :: parent →
        p ∈ (d.folders.filter (· ≠ name :: parent)).map (rebase src (name :: parent)) :=
      fun p hp hsrc hne => List.mem_map.mpr
        ⟨p, List.mem_filter.mpr ⟨hp, by simpa using hne⟩, rebase_other _ hsrc⟩
    intro name' parent' hmem
    obtain ⟨p, hp, heq⟩ := List.mem_map.mp hmem
    have hp := (List.mem_filter.mp hp).1
    by_cases hsrc : src <:+ p
    · obtain ⟨q, rfl⟩ := hsrc
      rw [rebase_below] at heq
      cases q with
      | nil =>
        obtain ⟨rfl, rfl⟩ := List.cons.inj heq
        exact (has_iff.mp hparent).imp_right fun hin =>
          hstays parent hin hout fun hself => by simpa using congrArg List.length hself
      | cons name₁ q =>
        obtain ⟨rfl, rfl⟩ := List.cons.inj heq
        have hin : q ++ src ∈ d.folders ∨ q ++ src = [] :=
          (d.closed name₁ (q ++ src) hp).symm
        have hne : q ++ src ≠ name :: parent := fun hdst => hempty _ hp hdst
        refine .inr (List.mem_map.mpr ⟨q ++ src, List.mem_filter.mpr ⟨?_, by simpa using hne⟩,
          rebase_below src (name :: parent) q⟩)
        refine hin.resolve_right fun hnil => hout ?_
        rw [(List.append_eq_nil_iff.mp hnil).2]
        exact List.nil_suffix
    · rw [rebase_other _ hsrc] at heq
      subst heq
      have hout' : ¬src <:+ parent' := fun h => hsrc (h.trans (List.suffix_cons _ _))
      exact (d.closed name' parent' hp).imp_right fun hin =>
        hstays parent' hin hout' fun hdst => hempty _ hp hdst
  calls := d.calls + 1
  refuses := d.refuses

/-- `rename`: `src` moved to `name` in `parent`; a move onto itself changes nothing. -/
def rename (d : Disk) (src : FolderPath) (name : List Char) (parent : FolderPath) :
    Disk × Except IoError Unit :=
  if d.refuses d.calls then (d.called, .error .other)
  else if src = name :: parent ∧ src ∈ d.folders then (d.called, .ok ())
  else if h : d.Movable src name parent then (d.move src name parent h, .ok ())
  else (d.called, .error .other)

/-! ## What a call leaves -/

variable {d d' : Disk} {name : List Char} {parent : FolderPath}

/-- A folder `mkdir` made was free, and is the only one it made. -/
theorem createDir_ok (h : d.createDir name parent = (d', .ok ())) :
    d.has (name :: parent) = false ∧ d'.folders = (name :: parent) :: d.folders := by
  unfold createDir at h
  split at h
  · cases h
  · split at h
    · cases h
    · rename_i hfree
      split at h
      · cases h
        exact ⟨by simpa using hfree, rfl⟩
      · cases h

/-- A `mkdir` that fails makes nothing. -/
theorem createDir_error {e : IoError} (h : d.createDir name parent = (d', .error e)) :
    d'.folders = d.folders := by
  unfold createDir at h
  split at h
  · cases h
    rfl
  · split at h
    · cases h
      rfl
    · split at h
      · cases h
      · cases h
        rfl

/-- A path that is there needs no folder made. -/
theorem createDirAll_of_has {p : FolderPath} (h : d.has p = true) : d.createDirAll p = (d, .ok ()) := by
  cases p with
  | nil => rfl
  | cons name parent => rw [createDirAll, if_pos h]

/-- `mkdir -p` makes no folder but those of its path that were missing. -/
theorem mem_createDirAll {p : FolderPath} {d : Disk} {q : FolderPath}
    (h : q ∈ (d.createDirAll p).1.folders) : q ∈ d.folders ∨ (q <:+ p ∧ d.has q = false) := by
  induction p with
  | nil => exact .inl h
  | cons name parent ih =>
    rw [createDirAll] at h
    split at h
    · exact .inl h
    · rename_i hmissing
      have hbelow : q ∈ (d.createDirAll parent).1.folders →
          q ∈ d.folders ∨ (q <:+ name :: parent ∧ d.has q = false) := fun hq =>
        (ih hq).imp_right fun ⟨hsuffix, hfree⟩ => ⟨hsuffix.trans (List.suffix_cons _ _), hfree⟩
      rcases hall : d.createDirAll parent with ⟨d₁, _ | _⟩
      · rw [hall] at h hbelow
        exact hbelow h
      · rw [hall] at h hbelow
        have h : q ∈ (d₁.createDir name parent).1.folders := h
        rcases hmade : d₁.createDir name parent with ⟨d₂, _ | _⟩
        · rw [hmade] at h
          exact hbelow (by rwa [createDir_error hmade] at h)
        · rw [hmade] at h
          rw [(createDir_ok hmade).2] at h
          rcases List.mem_cons.mp h with rfl | h
          · exact .inr ⟨List.suffix_refl _, by simpa using hmissing⟩
          · exact hbelow h

/-- `mkdir` takes no folder away. -/
theorem subset_createDir (d : Disk) (name : List Char) (parent : FolderPath) :
    d.folders ⊆ (d.createDir name parent).1.folders := by
  rcases hmade : d.createDir name parent with ⟨d', _ | _⟩
  · rw [createDir_error hmade]
    exact fun _ h => h
  · rw [(createDir_ok hmade).2]
    exact fun _ h => List.mem_cons_of_mem _ h

/-- Nor does `mkdir -p`. -/
theorem subset_createDirAll (d : Disk) (p : FolderPath) :
    d.folders ⊆ (d.createDirAll p).1.folders := by
  induction p with
  | nil => exact fun _ h => h
  | cons name parent ih =>
    rw [createDirAll]
    split
    · exact fun _ h => h
    · rcases hall : d.createDirAll parent with ⟨d₁, _ | _⟩
      · rw [hall] at ih
        exact ih
      · rw [hall] at ih
        exact fun q hq => subset_createDir d₁ name parent (ih hq)

theorem has_of_subset (h : d.folders ⊆ d'.folders) {p : FolderPath} (hp : d.has p = true) :
    d'.has p = true := has_iff.mpr ((has_iff.mp hp).imp_right fun hin => h hin)

/-- A name in a folder is there after `mkdir -p` of the folder exactly when it was before. -/
theorem has_createDirAll_child (d : Disk) (name : List Char) (p : FolderPath) :
    (d.createDirAll p).1.has (name :: p) = d.has (name :: p) := by
  rw [Bool.eq_iff_iff]
  refine ⟨fun h => ?_, has_of_subset (subset_createDirAll d p)⟩
  rcases mem_createDirAll (has_cons.mp h) with hin | ⟨hsuffix, -⟩
  · exact has_cons.mpr hin
  · exact absurd hsuffix.length_le (by simp)

end Disk

end Txtodo
