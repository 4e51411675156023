import Txtodo.Engine.Proofs.PlacedProofs

/-!
# Proofs: what no op changes

A document's path and mode, and how its bytes begin and its lines end, stay what they were.
-/

namespace Txtodo

namespace DocState

variable {s s' : DocState} {task : TaskId}

/-- What no op changes. -/
def header (s : DocState) : FilePath × IdentityMode × LineEnding × Bool × Bool :=
  (s.path, s.mode, s.ending, s.bom, s.trailingNewline)

theorem header_rehomePasses (task : TaskId) (placed : Hlc) (n : Nat) (s : DocState) :
    (rehomePasses task placed n s).header = s.header := by
  induction n generalizing s with
  | zero => rfl
  | succ n ih =>
    rw [rehomePasses]
    split
    · rfl
    · next s' h =>
      obtain ⟨head, -, hmove⟩ := Option.bind_eq_some_iff.1 h
      obtain ⟨_, -, rfl⟩ := Option.map_eq_some_iff.1 hmove
      exact ih _

theorem header_rehomeOnto (s : DocState) (task : TaskId) (placed : Hlc) :
    (s.rehomeOnto task placed).header = s.header := header_rehomePasses ..

theorem header_settleErasers (s : DocState) : s.settleErasers.header = s.header := by
  unfold settleErasers
  dsimp only
  split_ifs <;> rfl

theorem header_pruneGhosts (s : DocState) : s.pruneGhosts.header = s.header := by
  unfold pruneGhosts pruneGhostsPast pruneGhostsTo
  split_ifs <;> rfl

theorem header_showNewest (s : DocState) (task : TaskId) (added : Nat) :
    (s.showNewest task added).header = s.header := by
  unfold showNewest
  dsimp only
  split_ifs <;> rfl

theorem header_placeAgain (s : DocState) (task : TaskId) (spot : Spot) (merged : OwnedLine) (at_ : Hlc) :
    (s.placeAgain task spot merged at_).header = s.header := by
  unfold placeAgain
  dsimp only
  rw [header_rehomeOnto]
  split_ifs
  · exact header_showNewest _ _ _
  · rfl

/-- What an op that failed or applied leaves has the header, when what `P` says has it. -/
theorem FailsOr.header {P : DocState → Prop} {out : Outcome} (h : FailsOr s P out)
    (hP : ∀ s', P s' → s'.header = s.header) : out.state.header = s.header := by
  rcases h with ⟨e, rfl⟩ | ⟨s', rfl, hp⟩
  · rfl
  · exact hP s' hp

theorem Rewrites.header (h : Rewrites task s s') : s'.header = s.header := by
  obtain ⟨_, _, _, _, -, rfl⟩ := h
  rfl

theorem header_applyKind (s : DocState) (op : Op) : (s.applyKind op).state.header = s.header := by
  obtain ⟨id, at_, file, kind⟩ := op
  cases kind with
  | insert task after line =>
    rcases insert_outcome (s := s) task after line at_ with hor | ⟨h, e, -, -, hout⟩
    · refine hor.header ?_
      rintro s' (⟨-, -, -, spot, -, rfl⟩ | ⟨-, -, spot, h, stamps, merged, -, rfl⟩)
      · rfl
      · exact header_placeAgain _ _ _ _ _
    · rw [show s.applyKind ⟨id, at_, file, .insert task after line⟩ = _ from hout]
      rfl
  | setField task field value =>
    by_cases hdeleted : field = .deleted
    · subst hdeleted
      refine (setDeleted_outcome task value at_).header ?_
      rintro s' ⟨-, rfl⟩
      split
      · split_ifs <;> rfl
      · rfl
    · rcases setField_outcome s task hdeleted value at_ with hor |
        ⟨-, -, -, line, description, e, -, -, -, hout⟩
      · refine hor.header ?_
        rintro s' (rfl | hr)
        · rfl
        · exact hr.header
      · obtain ⟨h, hh⟩ := clearPriInDescription_state s task description
        rw [show s.applyKind ⟨id, at_, file, .setField task field value⟩ = _ from hout, hh]
        rfl
  | editText task edits => exact (editText_outcome task edits at_).header fun s' h => h.header
  | move task after toFile =>
    by_cases hfile : toFile = s.path
    · subst hfile
      refine (moveTask_here task after at_).header ?_
      rintro s' ⟨-, ⟨-, spot, line, -, -, rfl⟩ | ⟨slot, entry, spot, -, -, -, -, rfl⟩⟩
      · exact header_rehomeOnto _ _ _
      · exact header_rehomeOnto _ _ _
    · refine (moveTask_away task after at_ hfile).header ?_
      rintro s' ⟨-, rfl⟩
      cases s.liveSlot task <;> rfl
  | notesEdit file edits => rfl
  | blankInsert after =>
    refine (blankInsert_outcome after at_).header ?_
    rintro s' ⟨-, spot, -, rfl⟩
    rfl
  | blankRemove after =>
    refine (blankRemove_outcome after at_).header ?_
    rintro s' ⟨spot, -, rfl⟩
    rfl
  | removeTag task key => exact (removeTag_outcome task key at_).header fun s' h => h.header

/-- Applying an op leaves the header. -/
theorem header_apply (s : DocState) (op : Op) : (s.apply op).state.header = s.header := by
  have hkind := header_applyKind s op
  unfold DocState.apply
  dsimp only
  split
  · exact hkind
  · refine (header_pruneGhosts _).trans ?_
    unfold settled
    split_ifs
    · exact (header_settleErasers _).trans hkind
    · exact hkind

theorem path_apply (s : DocState) (op : Op) : (s.apply op).state.path = s.path :=
  congrArg Prod.fst (header_apply s op)

end DocState

end Txtodo
