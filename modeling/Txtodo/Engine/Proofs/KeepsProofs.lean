import Txtodo.Engine.Restamp
import Txtodo.Engine.Proofs.PlacingProofs

/-!
# Proofs: the stamps a document holds

An op stores its own stamp and stamps that were there, and changes a text history by the operations of
histories; so whatever these keep, every document holds.
-/

namespace Txtodo

/-- What the operations of a history stamped `at_` keep. -/
structure KeepsTexts (P : TextHistory → Prop) (at_ : Hlc) : Prop where
  new : ∀ base, P (.new base)
  record : ∀ h current c, P h → P (h.record current at_ c taskEdits).1
  reset : ∀ h text, P h → P (h.reset text at_ applyTextEdits).1
  swapPri : ∀ h letter, P h → P (h.swapPri letter applyTextEdits).1
  clearPri : ∀ h, P h → P (h.clearPri applyTextEdits).1

namespace DocState

variable {A : Hlc → Prop} {P : TextHistory → Prop} {s : DocState} {task : TaskId} {at_ : Hlc}

/-! ## Histories -/

theorem Keeps.setHistory (hs : s.Keeps A P) {o : Option TextHistory} (ho : ∀ h ∈ o, P h) :
    (s.setHistory task o).Keeps A P where
  stamps := hs.stamps
  parents := hs.parents
  fields := hs.fields
  texts t h ht := by
    by_cases htask : t = task
    · subst htask
      rw [textHistory_setHistory] at ht
      exact ho h ht
    · exact hs.texts t h ((setKey_of_ne _ _ htask).symm.trans ht)
  life := hs.life

theorem Keeps.forgetText (hs : s.Keeps A P) : (s.forgetText task).Keeps A P :=
  hs.setHistory (o := none) (by simp)

theorem record_setPri (h : TextHistory) (current : Text) (letter : Char) :
    (h.setPri current at_ letter taskEdits).1 = (h.record current at_ (.pri letter) taskEdits).1 := by
  rw [TextHistory.setPri]
  split <;> next heq => rw [heq]

theorem record_removeTag (h : TextHistory) (current key : Text) :
    (h.removeTag current at_ key taskEdits).1 = (h.record current at_ (.removeTag key) taskEdits).1 := by
  rw [TextHistory.removeTag]
  split <;> next heq => rw [heq]

section Texts

variable (hs : s.Keeps A P) (hP : KeepsTexts P at_)

include hs hP

theorem Keeps.historyOr (task : TaskId) (current : Text) : P (s.historyOr task current) := by
  rw [DocState.historyOr]
  cases h : s.textHistory task with
  | none => exact hP.new current
  | some h' => exact hs.texts task h' h

theorem Keeps.editDescription (task : TaskId) (current : Text) (edits : List TextEdit) :
    (s.editDescription task current at_ edits).1.Keeps A P :=
  hs.setHistory (by
    rintro h ⟨⟩
    exact hP.record _ _ _ (hs.historyOr hP task current))

theorem Keeps.setPriInDescription (task : TaskId) (current : Text) (letter : Char) (add : Bool) :
    (s.setPriInDescription task current at_ letter add).1.Keeps A P := by
  rw [DocState.setPriInDescription]
  split_ifs
  · refine hs.setHistory ?_
    rintro h ⟨⟩
    rw [record_setPri]
    exact hP.record _ _ _ (hs.historyOr hP task current)
  · refine hs.setHistory ?_
    rintro h ⟨⟩
    exact hP.swapPri _ _ (hs.historyOr hP task current)

theorem Keeps.clearPriInDescription (task : TaskId) (current : Text) :
    (s.clearPriInDescription task current).1.Keeps A P := by
  have hclear := hP.clearPri _ (hs.historyOr hP task current)
  rw [DocState.clearPriInDescription]
  split
  · next h text heq =>
    rw [heq] at hclear
    exact hs.setHistory (by rintro h' ⟨⟩; exact hclear)
  · exact hs.forgetText

theorem Keeps.removeTagInDescription (task : TaskId) (current key : Text) :
    (s.removeTagInDescription task current at_ key).1.Keeps A P := by
  have hrecord := hP.record _ current (.removeTag key) (hs.historyOr hP task current)
  rw [← record_removeTag] at hrecord
  exact hs.setHistory (by rintro h ⟨⟩; exact hrecord)

theorem Keeps.keepInHistory (task : TaskId) (oldLine newLine : OwnedLine) :
    (s.keepInHistory task oldLine newLine at_).1.Keeps A P := by
  rw [DocState.keepInHistory]
  split
  · exact hs.forgetText
  · next old new letter add _ =>
    have hset := hs.setPriInDescription hP task old letter add
    split
    · next s₁ heq =>
      rw [heq] at hset
      exact hset.forgetText
    · next s₁ held heq =>
      rw [heq] at hset
      split_ifs
      · exact hset
      · split <;> exact hset

end Texts

/-! ## Rewriting a line -/

theorem Keeps.replaceEntry (hs : s.Keeps A P) (slot : Nat) (entry : Entry) :
    (s.replaceEntry slot entry).Keeps A P :=
  ⟨hs.stamps, hs.parents, hs.fields, hs.texts, hs.life⟩

theorem Keeps.recordField (hs : s.Keeps A P) (hat : A at_) (field : Field) :
    (s.recordField task field at_).Keeps A P where
  stamps := hs.stamps
  parents := hs.parents
  fields t f x hx := by
    rw [DocState.recordField] at hx
    dsimp only at hx
    split_ifs at hx
    · exact Option.some.inj hx ▸ hat
    · exact hs.fields t f x hx
  texts := hs.texts
  life := hs.life

theorem Keeps.hideEntry (hs : s.Keeps A P) (slot : Nat) : (s.hideEntry slot).Keeps A P :=
  ⟨hs.stamps, hs.parents, hs.fields, hs.texts, hs.life⟩

theorem Keeps.setLife (hs : s.Keeps A P) {l : Life} (hdied : ∀ d ∈ l.died, A d)
    (hreborn : ∀ r ∈ l.reborn, A r) :
    ({ s with life := setKey s.life task (some l) } : DocState).Keeps A P where
  stamps := hs.stamps
  parents := hs.parents
  fields := hs.fields
  texts := hs.texts
  life t l' hl' := by
    by_cases htask : t = task
    · subst htask
      obtain rfl := Option.some.inj ((setKey_self s.life t (some l)).symm.trans hl')
      exact ⟨hdied, hreborn⟩
    · exact hs.life t l' ((setKey_of_ne _ _ htask).symm.trans hl')

theorem Keeps.lifeOf (hs : s.Keeps A P) (task : TaskId) :
    (∀ d ∈ ((s.life task).getD ⟨none, none⟩).died, A d) ∧
      ∀ r ∈ ((s.life task).getD ⟨none, none⟩).reborn, A r := by
  cases hl : s.life task with
  | none => simp
  | some l => exact hs.life task l hl

/-- The greater of two stamps that satisfy `A`. -/
theorem keeps_max {a b : Hlc} (ha : A a) (hb : A b) : A (max a b) := by
  rcases le_total a b with h | h
  · rwa [max_eq_right h]
  · rwa [max_eq_left h]

theorem Keeps.noteDeath (hs : s.Keeps A P) (hat : A at_) (task : TaskId) : (s.noteDeath task at_).1.Keeps A P := by
  obtain ⟨hdied, hreborn⟩ := hs.lifeOf task
  refine hs.setLife (fun d hd => ?_) hreborn
  cases hold : ((s.life task).getD ⟨none, none⟩).died with
  | none =>
    rw [hold] at hd
    exact Option.some.inj hd ▸ hat
  | some old =>
    rw [hold] at hd
    exact Option.some.inj hd ▸ keeps_max (hdied old hold) hat

theorem Keeps.noteRebirth (hs : s.Keeps A P) (hat : A at_) (task : TaskId) : (s.noteRebirth task at_).Keeps A P := by
  obtain ⟨hdied, hreborn⟩ := hs.lifeOf task
  refine hs.setLife hdied fun r hr => ?_
  cases hold : ((s.life task).getD ⟨none, none⟩).reborn with
  | none =>
    rw [hold] at hr
    exact Option.some.inj hr ▸ hat
  | some old =>
    rw [hold] at hr
    exact Option.some.inj hr ▸ keeps_max (hreborn old hold) hat

theorem Keeps.setDeleted (hs : s.Keeps A P) (hat : A at_) (value : FieldValue) :
    (s.setDeleted task value at_).state.Keeps A P := by
  have hdeath := hs.noteDeath hat task
  rw [DocState.setDeleted]
  split_ifs
  · dsimp only
    split
    · split_ifs
      · exact hdeath.hideEntry _
      · exact hdeath
    · exact hdeath
  · exact hs
  · exact hs

section Rewrite

variable (hs : s.Keeps A P) (hat : A at_) (hP : KeepsTexts P at_)

include hs

theorem Keeps.setStaleField (slot : Nat) (line : OwnedLine) (field : Field) :
    (s.setStaleField task slot line field).state.Keeps A P := by
  rw [DocState.setStaleField]
  split
  · exact hs.replaceEntry _ _
  · exact hs

include hP

theorem Keeps.editText (edits : List TextEdit) : (s.editText task edits at_).state.Keeps A P := by
  have hrestore : ∀ (s₁ : DocState), s₁.Keeps A P → ∀ e,
      (s₁.restoreText task (s.textHistory task) e).state.Keeps A P :=
    fun s₁ h₁ e => h₁.setHistory fun h hh => hs.texts task h hh
  rw [DocState.editText]
  split
  · exact hs
  · next slot _ =>
    split
    · exact hs
    · next line _ =>
      split
      · exact hs
      · next description _ =>
        have hedit := hs.editDescription hP task description edits
        dsimp only
        split
        · next s₁ e heq =>
          rw [heq] at hedit
          exact hrestore s₁ hedit _
        · next s₁ text heq =>
          rw [heq] at hedit
          split
          · exact hrestore s₁ hedit _
          · exact hedit.replaceEntry _ _

theorem Keeps.removeTag (key : Text) : (s.removeTag task key at_).state.Keeps A P := by
  rw [DocState.removeTag]
  split_ifs
  · exact hs
  · split
    · exact hs
    · next slot _ =>
      split
      · exact hs
      · next line _ =>
        split
        · exact hs
        · next description _ =>
          have hremove := hs.removeTagInDescription hP task description key
          dsimp only
          split
          · exact hremove.setHistory fun h hh => hs.texts task h hh
          · exact hremove.replaceEntry _ _

include hat

theorem Keeps.clearDonePriority (slot : Nat) (line : OwnedLine) (description : Text) :
    (s.clearDonePriority task slot line description at_).state.Keeps A P := by
  have hclear := hs.clearPriInDescription hP task description
  rw [DocState.clearDonePriority]
  dsimp only
  split
  · exact hclear
  · exact (hclear.replaceEntry _ _).recordField hat _

theorem Keeps.setPrefixField (slot : Nat) (line : OwnedLine) (field : Field) (value : FieldValue) :
    (s.setPrefixField task slot line field value at_).state.Keeps A P := by
  rw [DocState.setPrefixField]
  split
  · exact hs
  · next newLine _ =>
    dsimp only
    split_ifs
    · exact (hs.replaceEntry _ _).recordField hat _
    · exact ((hs.keepInHistory hP task line newLine).replaceEntry _ _).recordField hat _

theorem Keeps.setField (field : Field) (value : FieldValue) :
    (s.setField task field value at_).state.Keeps A P := by
  rw [DocState.setField]
  by_cases hdeleted : field = .deleted
  · rw [if_pos hdeleted]
    exact hs.setDeleted hat value
  rw [if_neg hdeleted]
  split
  · exact hs
  · next slot _ =>
    split
    · exact hs
    · next line _ =>
      by_cases hstale : s.isStaleField task field at_ = true
      · rw [if_pos hstale]
        exact hs.setStaleField slot line field
      · rw [if_neg hstale]
        split
        · exact hs.clearDonePriority hat hP slot line _
        · exact hs.setPrefixField hat hP slot line field value

end Rewrite

/-! ## Placing -/

/-- A slot's stamp and parent stand in their columns. -/
theorem slot_columns {x : Slot} (hx : x ∈ s.slots) : x.stamp ∈ s.stamps ∧ x.parent ∈ s.parents := by
  obtain ⟨⟨entry, stamp, hidden, parent, eraser⟩, hmem, rfl⟩ := List.mem_map.1 hx
  obtain ⟨-, hmem⟩ := List.of_mem_zip hmem
  obtain ⟨hstamp, hmem⟩ := List.of_mem_zip hmem
  obtain ⟨-, hmem⟩ := List.of_mem_zip hmem
  exact ⟨hstamp, (List.of_mem_zip hmem).1⟩

theorem Keeps.slot (hs : s.Keeps A P) {x : Slot} (hx : x ∈ s.slots) :
    A x.stamp ∧ ∀ q ∈ x.parent, A q.2 :=
  ⟨hs.stamps _ (slot_columns hx).1, hs.parents _ (slot_columns hx).2⟩

theorem Keeps.spot (hs : s.Keeps A P) {after : Option TaskId} {spot : Spot}
    (hspot : s.slotAfter after at_ = .ok spot) : ∀ q ∈ spot.parent, A q.2 := by
  rw [slotAfter, Slots.slotAfter] at hspot
  split at hspot
  · cases hspot
  · next anchor _ =>
    obtain rfl := Except.ok.inj hspot
    intro q hq
    obtain ⟨slot, -, hparent⟩ := Option.bind_eq_some_iff.1 hq
    obtain ⟨x, hx, hparent⟩ := Option.bind_eq_some_iff.1 hparent
    obtain ⟨id, -, rfl⟩ := Option.map_eq_some_iff.1 hparent
    exact (hs.slot (List.mem_of_getElem? hx)).1

theorem Keeps.insertEntry (hs : s.Keeps A P) (hat : A at_) {spot : Spot}
    (hspot : ∀ q ∈ spot.parent, A q.2) (entry : Entry) : (s.insertEntry spot entry at_).Keeps A P where
  stamps x hx := by
    rcases List.eq_or_mem_of_mem_insertIdx hx with rfl | hx
    · exact hat
    · exact hs.stamps x hx
  parents p hp := by
    rcases List.eq_or_mem_of_mem_insertIdx hp with rfl | hp
    · exact hspot
    · exact hs.parents p hp
  fields := hs.fields
  texts := hs.texts
  life := hs.life

theorem mem_moveRange {α : Type} {head stop put : Nat} {f : List α → List α} {l : List α} {a : α}
    (h : a ∈ moveRange head stop put f l) : a ∈ f ((l.take stop).drop head) ∨ a ∈ l := by
  have hleft : ∀ {b : α}, b ∈ l.take head ++ l.drop stop → b ∈ l := fun {b} hb =>
    (List.mem_append.1 hb).elim List.mem_of_mem_take List.mem_of_mem_drop
  simp only [moveRange, List.mem_append (a := a)] at h
  rcases h with (h | h) | h
  · exact .inr (hleft (List.mem_of_mem_take h))
  · exact .inl h
  · exact .inr (hleft (List.mem_of_mem_drop h))

theorem Keeps.moveBlock (hs : s.Keeps A P) {head : Nat} {placed : Hlc} (hplaced : A placed)
    {s' : DocState} (hmove : s.moveBlock head task placed = some s') : s'.Keeps A P := by
  obtain ⟨⟨stop, put⟩, -, rfl⟩ := Option.map_eq_some_iff.1 hmove
  refine ⟨fun x hx => ?_, fun p hp => ?_, hs.fields, hs.texts, hs.life⟩
  · rcases mem_moveRange hx with hx | hx
    · exact hs.stamps x (List.mem_of_mem_take (List.mem_of_mem_drop hx))
    · exact hs.stamps x hx
  · have hp : p ∈ moveRange head stop put (fun block => block.set 0 (some (task, placed))) s.parents := hp
    rcases mem_moveRange hp with hp | hp
    · rcases List.mem_or_eq_of_mem_set hp with hp | rfl
      · exact hs.parents p (List.mem_of_mem_take (List.mem_of_mem_drop hp))
      · rintro q ⟨⟩
        exact hplaced
    · exact hs.parents p hp

theorem Keeps.rehomePasses {placed : Hlc} (hplaced : A placed) (n : Nat) (hs : s.Keeps A P) :
    (rehomePasses task placed n s).Keeps A P := by
  induction n generalizing s with
  | zero => exact hs
  | succ n ih =>
    rw [DocState.rehomePasses]
    split
    · exact hs
    · next s' hmove =>
      obtain ⟨head, -, hblock⟩ := Option.bind_eq_some_iff.1 hmove
      exact ih (hs.moveBlock hplaced hblock)

theorem Keeps.rehomeOnto (hs : s.Keeps A P) (hat : A at_) (task : TaskId) :
    (s.rehomeOnto task at_).Keeps A P := hs.rehomePasses hat _

theorem Keeps.showNewest (hs : s.Keeps A P) (added : Nat) : (s.showNewest task added).Keeps A P := by
  rw [DocState.showNewest]
  dsimp only
  split_ifs
  · exact hs
  · exact ⟨hs.stamps, hs.parents, hs.fields, hs.texts, hs.life⟩

theorem Keeps.setLines (hs : s.Keeps A P) (line : OwnedLine) : (s.setLines task line).Keeps A P :=
  ⟨hs.stamps, hs.parents, hs.fields, hs.texts, hs.life⟩

theorem Keeps.settleErasers (hs : s.Keeps A P) : s.settleErasers.Keeps A P := by
  rw [DocState.settleErasers]
  by_cases hnone : true ∉ s.erasers
  · rwa [if_pos hnone]
  · rw [if_neg hnone]
    dsimp only
    split_ifs
    · exact hs
    · exact ⟨hs.stamps, hs.parents, hs.fields, hs.texts, hs.life⟩

theorem mem_removeAt {α : Type} {drop : List Nat} {l : List α} {a : α} (h : a ∈ removeAt drop l) :
    a ∈ l := by
  obtain ⟨x, hx, rfl⟩ := List.mem_map.1 h
  exact List.fst_mem_of_mem_zipIdx (List.mem_filter.1 hx).1

theorem Keeps.pruneGhostsTo (hs : s.Keeps A P) (max : Nat) : (s.pruneGhostsTo max).Keeps A P := by
  rw [DocState.pruneGhostsTo]
  split_ifs
  · exact hs
  · refine ⟨fun x hx => hs.stamps x (mem_removeAt hx), fun p hp => hs.parents p (mem_removeAt hp),
      fun t f x hx => ?_, fun t h hh => ?_, fun t l hl => ?_⟩
    · dsimp only [DocState.reindex] at hx
      split_ifs at hx
      exact hs.fields t f x hx
    · dsimp only [DocState.reindex] at hh
      split_ifs at hh
      exact hs.texts t h hh
    · dsimp only [DocState.reindex] at hl
      split_ifs at hl
      exact hs.life t l hl

theorem Keeps.pruneGhosts (hs : s.Keeps A P) : s.pruneGhosts.Keeps A P := by
  rw [DocState.pruneGhosts, pruneGhostsPast]
  split_ifs
  · exact hs.pruneGhostsTo _
  · exact hs

/-! ## One op -/

section Apply

variable (hs : s.Keeps A P) (hat : A at_) (hP : KeepsTexts P at_)

include hs hat hP

theorem Keeps.mergedLine (task : TaskId) (current inserted : OwnedLine) :
    (s.mergedLine task current inserted at_).1.Keeps A P := by
  have hrecord : ∀ (fields : List Field) (s : DocState), s.Keeps A P →
      (fields.foldl (fun s f => s.recordField task f at_) s).Keeps A P := by
    intro fields
    induction fields with
    | nil => exact fun _ h => h
    | cons f fields ih => exact fun s h => ih _ (h.recordField hat f)
  rw [DocState.mergedLine]
  dsimp only
  split
  · exact hs
  · split
    · exact hs
    · next description _ =>
      have hreset := hP.reset _ description (hs.historyOr hP task description)
      have hset : (s.setHistory task (some ((s.historyOr task description).reset description at_
          applyTextEdits).1)).Keeps A P := hs.setHistory (by rintro h ⟨⟩; exact hreset)
      split
      · exact hset
      · exact hrecord _ _ hset

omit hP in
theorem Keeps.placeAgain (task : TaskId) {spot : Spot} (hspot : ∀ q ∈ spot.parent, A q.2)
    (merged : OwnedLine) : (s.placeAgain task spot merged at_).Keeps A P := by
  have hplaced := (((hs.insertEntry hat hspot (.task task merged)).hideEntry spot.at_).noteRebirth hat
    task)
  rw [DocState.placeAgain]
  refine Keeps.rehomeOnto (Keeps.setLines ?_ merged) hat task
  split_ifs
  · exact hplaced.showNewest _
  · exact hplaced

theorem Keeps.reinsert (task : TaskId) (after : Option TaskId) (line : OwnedLine) :
    (s.reinsert task after line at_).state.Keeps A P := by
  rw [DocState.reinsert]
  split
  · exact hs
  · next spot hspot =>
    split
    · exact hs
    · next current _ =>
      have hmerged := hs.mergedLine hat hP task current line
      split
      · next s₁ e heq =>
        rw [heq] at hmerged
        exact hmerged
      · next s₁ merged heq =>
        rw [heq] at hmerged
        exact hmerged.placeAgain hat task (hs.spot hspot) merged

theorem Keeps.insert (task : TaskId) (after : Option TaskId) (line : Text) :
    (s.insert task after line at_).state.Keeps A P := by
  rw [DocState.insert]
  dsimp only
  split_ifs
  · exact hs
  · exact hs
  · exact hs.reinsert hat hP task after _
  · split
    · exact hs
    · next spot hspot => exact hs.insertEntry hat (hs.spot hspot) _

omit hP in
theorem Keeps.placeGhost (task : TaskId) (after : Option TaskId) :
    (s.placeGhost task after at_).state.Keeps A P := by
  rw [DocState.placeGhost]
  split
  · exact hs
  · split
    · exact hs
    · next spot hspot =>
      exact ((hs.insertEntry hat (hs.spot hspot) _).hideEntry _).rehomeOnto hat task

omit hP in
theorem Keeps.moveTask (task : TaskId) (after : Option TaskId) (toFile : FilePath) :
    (s.moveTask task after toFile at_).state.Keeps A P := by
  rw [DocState.moveTask]
  by_cases hfile : toFile ≠ s.path
  · rw [if_pos hfile]
    split
    · exact hs.hideEntry _
    · split_ifs <;> exact hs
  rw [if_neg hfile]
  by_cases hself : after = some task
  · rw [if_pos hself]
    exact hs
  rw [if_neg hself]
  split
  · exact hs
  · split
    · exact hs.placeGhost hat task after
    · next slot _ =>
      by_cases hstale : s.isStaleMove slot at_ = true
      · rw [if_pos hstale]
        exact hs.placeGhost hat task after
      rw [if_neg hstale]
      split
      · exact hs
      · next entry _ =>
        have hhide := hs.hideEntry slot
        dsimp only
        split
        · exact hhide
        · next spot hspot => exact (hhide.insertEntry hat (hhide.spot hspot) entry).rehomeOnto hat task

omit hP in
theorem Keeps.blankInsert (after : Option TaskId) : (s.blankInsert after at_).state.Keeps A P := by
  rw [DocState.blankInsert]
  split_ifs
  · exact hs
  · split
    · exact hs
    · next spot hspot => exact hs.insertEntry hat (hs.spot hspot) _

omit hP in
theorem Keeps.blankRemove (after : Option TaskId) : (s.blankRemove after at_).state.Keeps A P := by
  rw [DocState.blankRemove]
  split
  · exact hs
  · next spot hspot =>
    have hplaced := hs.insertEntry hat (hs.spot hspot) s.blankEntry
    exact ⟨hplaced.stamps, hplaced.parents, hplaced.fields, hplaced.texts, hplaced.life⟩

end Apply

theorem Keeps.applyKind (hs : s.Keeps A P) (op : Op) (hat : A op.hlc) (hP : KeepsTexts P op.hlc) :
    (s.applyKind op).state.Keeps A P := by
  obtain ⟨id, at_, file, kind⟩ := op
  cases kind with
  | insert task after line => exact hs.insert hat hP task after line
  | setField task field value => exact hs.setField hat hP field value
  | editText task edits => exact hs.editText hP edits
  | move task after toFile => exact hs.moveTask hat task after toFile
  | notesEdit file edits => exact hs
  | blankInsert after => exact hs.blankInsert hat after
  | blankRemove after => exact hs.blankRemove hat after
  | removeTag task key => exact hs.removeTag hP key

/-- What the document holds after an op, it held or is the op's stamp. -/
theorem Keeps.apply (hs : s.Keeps A P) (op : Op) (hat : A op.hlc) (hP : KeepsTexts P op.hlc) :
    (s.apply op).state.Keeps A P := by
  have hkind := hs.applyKind op hat hP
  rw [DocState.apply]
  split
  · exact hkind
  · refine Keeps.pruneGhosts ?_
    rw [DocState.settled]
    split_ifs
    · exact hkind.settleErasers
    · exact hkind

end DocState

end Txtodo
