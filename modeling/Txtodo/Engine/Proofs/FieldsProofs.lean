import Txtodo.Engine.Proofs.SlotsProofs
import Txtodo.Engine.Refusal

/-!
# Proofs: what rewriting a line touches

`SetField`, `EditText` and `RemoveTag` change one entry, the history of its task, its field stamps and
its life.
-/

namespace Txtodo

namespace DocState

variable {s : DocState} {task : TaskId}

@[simp] theorem setHistory_setHistory (h h' : Option TextHistory) :
    (s.setHistory task h).setHistory task h' = s.setHistory task h' := by
  have hmap : setKey (setKey s.textHistory task h) task h' = setKey s.textHistory task h' := by
    funext t
    by_cases ht : t = task <;> simp [setKey, ht]
  simp only [setHistory, hmap]

@[simp] theorem setHistory_self : s.setHistory task (s.textHistory task) = s := by
  have hmap : setKey s.textHistory task (s.textHistory task) = s.textHistory := by
    funext t
    by_cases ht : t = task <;> simp [setKey, ht]
  simp only [setHistory, hmap]

@[simp] theorem textHistory_setHistory (h : Option TextHistory) :
    (s.setHistory task h).textHistory task = h := setKey_self ..

/-! ## Histories -/

theorem editDescription_state (s : DocState) (task : TaskId) (current : Text) (at_ : Hlc) (edits : List TextEdit) :
    ∃ h, (s.editDescription task current at_ edits).1 = s.setHistory task h := ⟨_, rfl⟩

theorem setPriInDescription_state (s : DocState) (task : TaskId) (current : Text) (at_ : Hlc) (letter : Char) (add : Bool) :
    ∃ h, (s.setPriInDescription task current at_ letter add).1 = s.setHistory task h := by
  cases add <;> exact ⟨_, rfl⟩

theorem clearPriInDescription_state (s : DocState) (task : TaskId) (current : Text) :
    ∃ h, (s.clearPriInDescription task current).1 = s.setHistory task h := by
  unfold clearPriInDescription
  split <;> exact ⟨_, rfl⟩

theorem removeTagInDescription_state (s : DocState) (task : TaskId) (current : Text) (at_ : Hlc) (key : Text) :
    ∃ h, (s.removeTagInDescription task current at_ key).1 = s.setHistory task h := ⟨_, rfl⟩

theorem keepInHistory_state (s : DocState) (task : TaskId) (oldLine newLine : OwnedLine) (at_ : Hlc) :
    ∃ h, (s.keepInHistory task oldLine newLine at_).1 = s.setHistory task h := by
  unfold keepInHistory
  cases movedIntoPri oldLine newLine with
  | none => exact ⟨none, rfl⟩
  | some moved =>
    obtain ⟨old, new, letter, add⟩ := moved
    obtain ⟨h, hh⟩ := setPriInDescription_state s task old at_ letter add
    dsimp only
    rcases hset : s.setPriInDescription task old at_ letter add with ⟨s₁, _ | held⟩
    · obtain rfl : s₁ = s.setHistory task h := by rw [hset] at hh; exact hh
      exact ⟨none, setHistory_setHistory ..⟩
    · obtain rfl : s₁ = s.setHistory task h := by rw [hset] at hh; exact hh
      refine ⟨h, ?_⟩
      dsimp only
      split_ifs
      · rfl
      · split <;> rfl

/-! ## Outcomes -/

/-- `s'` is `s` with another line for `task` in its content slot, and other metadata. -/
def Rewrites (task : TaskId) (s s' : DocState) : Prop :=
  ∃ (h : Option TextHistory) (slot : Nat) (line : OwnedLine) (stamps : TaskId → Field → Option Hlc),
    s.contentSlot task = some slot ∧
      s' = { (s.setHistory task h).replaceEntry slot (.task task line) with fieldStamps := stamps }

/-- The op failed and left `s`, or applied and left a state `P` describes. -/
def FailsOr (s : DocState) (P : DocState → Prop) (out : Outcome) : Prop :=
  (∃ e, out = s.fails e) ∨ ∃ s', out = s'.done ∧ P s'

theorem editText_outcome (task : TaskId) (edits : List TextEdit) (at_ : Hlc) :
    FailsOr s (Rewrites task s) (s.editText task edits at_) := by
  unfold editText
  cases hslot : s.contentSlot task with
  | none => exact .inl ⟨_, rfl⟩
  | some slot =>
    dsimp only
    split
    · exact .inl ⟨_, rfl⟩
    · next line _ =>
      split
      · exact .inl ⟨_, rfl⟩
      · next description _ =>
        obtain ⟨h, hh⟩ := editDescription_state s task description at_ edits
        rcases hedit : s.editDescription task description at_ edits with ⟨s₁, _ | text⟩
        · obtain rfl : s₁ = s.setHistory task h := by rw [hedit] at hh; exact hh
          exact .inl ⟨_, by simp only [restoreText, setHistory_setHistory, setHistory_self]; rfl⟩
        · obtain rfl : s₁ = s.setHistory task h := by rw [hedit] at hh; exact hh
          dsimp only
          split
          · exact .inl ⟨_, by simp only [restoreText, setHistory_setHistory, setHistory_self]; rfl⟩
          · next newLine _ => exact .inr ⟨_, rfl, h, slot, newLine, s.fieldStamps, hslot, rfl⟩

theorem removeTag_outcome (task : TaskId) (key : Text) (at_ : Hlc) :
    FailsOr s (Rewrites task s) (s.removeTag task key at_) := by
  unfold removeTag
  split_ifs
  · exact .inl ⟨_, rfl⟩
  · cases hslot : s.contentSlot task with
    | none => exact .inl ⟨_, rfl⟩
    | some slot =>
      dsimp only
      split
      · exact .inl ⟨_, rfl⟩
      · next line _ =>
        split
        · exact .inl ⟨_, rfl⟩
        · next description _ =>
          obtain ⟨h, hh⟩ := removeTagInDescription_state s task description at_ key
          rcases hremove : s.removeTagInDescription task description at_ key with ⟨s₁, held⟩
          obtain rfl : s₁ = s.setHistory task h := by rw [hremove] at hh; exact hh
          dsimp only
          split
          · exact .inl ⟨_, by simp only [restoreText, setHistory_setHistory, setHistory_self]; rfl⟩
          · next newLine _ => exact .inr ⟨_, rfl, h, slot, newLine, s.fieldStamps, hslot, rfl⟩

/-- What a delete leaves: the death recorded, and the shown placement hidden unless a newer insert
again landed. -/
def Deletes (task : TaskId) (at_ : Hlc) (s s' : DocState) : Prop :=
  s.hasPlacement task = true ∧
    s' = match s.liveSlot task with
      | some slot => if (s.noteDeath task at_).2 then (s.noteDeath task at_).1.hideEntry slot
        else (s.noteDeath task at_).1
      | none => (s.noteDeath task at_).1

theorem liveSlot_noteDeath (task : TaskId) (at_ : Hlc) :
    (s.noteDeath task at_).1.liveSlot task = s.liveSlot task := rfl

theorem setDeleted_outcome (task : TaskId) (value : FieldValue) (at_ : Hlc) :
    FailsOr s (Deletes task at_ s) (s.setDeleted task value at_) := by
  unfold setDeleted
  split_ifs with hvalue hplace
  · refine .inr ⟨_, ?_, hplace, rfl⟩
    dsimp only
    rw [liveSlot_noteDeath]
    cases s.liveSlot task with
    | none => rfl
    | some slot => dsimp only; split_ifs <;> rfl
  · exact .inl ⟨_, rfl⟩
  · exact .inl ⟨_, rfl⟩

theorem setStaleField_outcome {slot : Nat} (hslot : s.contentSlot task = some slot)
    (line : OwnedLine) (field : Field) :
    ∃ s', s.setStaleField task slot line field = s'.done ∧ (s' = s ∨ Rewrites task s s') := by
  unfold setStaleField
  split
  · next restored _ =>
    refine ⟨_, rfl, .inr ⟨s.textHistory task, slot, restored, s.fieldStamps, hslot, ?_⟩⟩
    rw [setHistory_self]
    rfl
  · exact ⟨s, rfl, .inl rfl⟩

theorem setPrefixField_outcome {slot : Nat} (hslot : s.contentSlot task = some slot)
    (line : OwnedLine) (field : Field) (value : FieldValue) (at_ : Hlc) :
    FailsOr s (Rewrites task s) (s.setPrefixField task slot line field value at_) := by
  unfold setPrefixField
  split
  · exact .inl ⟨_, rfl⟩
  · next newLine _ =>
    by_cases hsame : descriptionOf line = descriptionOf newLine
    · simp only [if_pos hsame]
      refine .inr ⟨_, rfl, s.textHistory task, slot, newLine, (s.recordField task field at_).fieldStamps,
        hslot, ?_⟩
      rw [setHistory_self]
      rfl
    · simp only [if_neg hsame]
      obtain ⟨h, hh⟩ := keepInHistory_state s task line newLine at_
      rcases hkeep : s.keepInHistory task line newLine at_ with ⟨s₁, kept⟩
      obtain rfl : s₁ = s.setHistory task h := by rw [hkeep] at hh; exact hh
      exact .inr ⟨_, rfl, h, slot, kept, (s.recordField task field at_).fieldStamps, hslot, rfl⟩

/-- A clear that is refused leaves the history it made. -/
theorem clearDonePriority_outcome {slot : Nat} (hslot : s.contentSlot task = some slot)
    (line : OwnedLine) (description : Text) (at_ : Hlc) :
    (∃ s', s.clearDonePriority task slot line description at_ = s'.done ∧ Rewrites task s s') ∨
    (∃ e, s.clearDonePriority task slot line description at_ =
        (s.clearPriInDescription task description).1.fails e ∧
      (s.withDescription task line (s.clearPriInDescription task description).2).isOk = false) := by
  unfold clearDonePriority
  obtain ⟨h, hh⟩ := clearPriInDescription_state s task description
  rcases hclear : s.clearPriInDescription task description with ⟨s₁, held⟩
  obtain rfl : s₁ = s.setHistory task h := by rw [hclear] at hh; exact hh
  dsimp only
  have hmode : (s.setHistory task h).withDescription task line held =
    s.withDescription task line held := rfl
  rw [hmode]
  cases hwith : s.withDescription task line held with
  | error e => exact .inr ⟨e, rfl, rfl⟩
  | ok newLine =>
    exact .inl ⟨_, rfl, h, slot, newLine, (s.recordField task .priority at_).fieldStamps, hslot, rfl⟩

/-- `SetField` of a prefix field: refused with nothing changed, nothing to do, one line rewritten, or
a clear refused late. -/
theorem setField_outcome (s : DocState) (task : TaskId) {field : Field} (hfield : field ≠ .deleted) (value : FieldValue) (at_ : Hlc) :
    FailsOr s (fun s' => s' = s ∨ Rewrites task s s') (s.setField task field value at_) ∨
    (field = .priority ∧ value = .priority none ∧ s.isStaleField task .priority at_ = false ∧
      ∃ line description e, s.contentLine task = some line ∧ doneDescription line = some description ∧
        (s.withDescription task line (s.clearPriInDescription task description).2).isOk = false ∧
        s.setField task field value at_ =
          (s.clearPriInDescription task description).1.fails e) := by
  unfold setField
  rw [if_neg hfield]
  cases hslot : s.contentSlot task with
  | none => exact .inl (.inl ⟨_, rfl⟩)
  | some slot =>
    dsimp only
    cases hline : s.slotLine slot with
    | none => exact .inl (.inl ⟨_, rfl⟩)
    | some line =>
      dsimp only
      by_cases hstale : s.isStaleField task field at_ = true
      · rw [if_pos hstale]
        obtain ⟨s', hs', hor⟩ := setStaleField_outcome hslot line field
        exact .inl (.inr ⟨s', hs', hor⟩)
      · rw [if_neg hstale]
        split
        · next description hdone =>
          split_ifs at hdone with hclear
          obtain ⟨rfl, rfl⟩ := hclear
          rcases clearDonePriority_outcome hslot line description at_ with ⟨s', hs', hr⟩ | ⟨e, he, hw⟩
          · exact .inl (.inr ⟨s', hs', .inr hr⟩)
          · refine .inr ⟨rfl, rfl, by simpa using hstale, line, description, e, ?_, hdone, hw, he⟩
            rw [contentLine, hslot]
            exact hline
        · rcases setPrefixField_outcome hslot line field value at_ with he | ⟨s', hs', hr⟩
          · exact .inl (.inl he)
          · exact .inl (.inr ⟨s', hs', .inr hr⟩)

end DocState

end Txtodo
