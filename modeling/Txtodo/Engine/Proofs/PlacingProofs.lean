import Txtodo.Engine.Proofs.FieldsProofs
import Txtodo.Engine.Proofs.SoundProofs

/-!
# Proofs: what a placing op does

An inversion lemma for each op that places, moves or hides an entry: what it leaves when it applies,
and that it leaves nothing when it does not.
-/

namespace Txtodo

namespace Slots

variable {xs ys : List Slot}

theorem hasPlacement_iff {task : TaskId} :
    hasPlacement xs task = true ↔ ∃ x ∈ xs, x.id = some task := by
  simp [hasPlacement]

theorem placements_eq_nil_iff {task : TaskId} :
    placements xs task = [] ↔ hasPlacement xs task = false := by
  rw [← Bool.not_eq_true, hasPlacement_iff, List.eq_nil_iff_forall_not_mem]
  constructor
  · rintro h ⟨x, hx, hid⟩
    obtain ⟨i, hi⟩ := List.mem_iff_getElem?.1 hx
    exact h (x, i) (mem_placements.2 ⟨hi, hid⟩)
  · rintro h ⟨x, i⟩ hmem
    obtain ⟨hi, hid⟩ := mem_placements.1 hmem
    exact h ⟨x, List.mem_of_getElem? hi, hid⟩

/-- An anchor is found exactly when it has a placement. -/
theorem anchorSlot_isOk {after : Option TaskId} {at_ : Hlc} :
    (anchorSlot xs after at_).isOk = true ↔ ∀ id, after = some id → hasPlacement xs id = true := by
  cases after with
  | none => simp [anchorSlot, Except.isOk, Except.toBool]
  | some id =>
    simp only [Option.some.injEq, forall_eq']
    unfold anchorSlot
    dsimp only
    constructor
    · intro hok
      by_contra hnone
      have hnil := placements_eq_nil_iff.2 (Bool.not_eq_true _ ▸ hnone)
      simp [hnil, Iter.maxByKey, Iter.minByKey, Except.isOk, Except.toBool] at hok
    · intro hplace
      have hne : placements xs id ≠ [] := fun hnil => by
        simp [placements_eq_nil_iff.1 hnil] at hplace
      cases hold : Iter.minByKey (fun x : Slot × Nat => x.1.stamp) (placements xs id) with
      | none => exact absurd (Iter.minByKey_eq_none.1 hold) hne
      | some old =>
        split
        · rfl
        · next hor => simp at hor

theorem slotAfter_isOk {after : Option TaskId} {at_ : Hlc} :
    (slotAfter xs after at_).isOk = (anchorSlot xs after at_).isOk := by
  unfold slotAfter
  split <;> simp [*, Except.isOk, Except.toBool]

theorem anchorSlot_lt {after : Option TaskId} {at_ : Hlc} {a : Nat} (h : anchorSlot xs after at_ = .ok (some a)) :
    a < xs.length := by
  have hlt : ∀ {x : Slot × Nat} {id : TaskId}, x ∈ placements xs id → x.2 < xs.length := fun hx =>
    (List.getElem?_eq_some_iff.1 (mem_placements.1 hx).1).1
  cases after with
  | none => cases h
  | some id =>
    rw [anchorSlot] at h
    split at h
    · rename_i x hx
      obtain rfl := Option.some.inj (Except.ok.inj h)
      rcases Option.or_eq_some_iff.1 hx with hx | ⟨-, hx⟩
      · rcases Option.or_eq_some_iff.1 hx with hx | ⟨-, hx⟩
        · exact hlt (List.mem_filter.1 (Iter.maxByKey_mem hx)).1
        · exact hlt (List.mem_of_find?_eq_some hx)
      · exact hlt (Iter.minByKey_mem hx)
    · cases h

/-- A spot is among the slots or right behind them. -/
theorem slotAfter_le {after : Option TaskId} {at_ : Hlc} {spot : Spot} (h : slotAfter xs after at_ = .ok spot) :
    spot.at_ ≤ xs.length := by
  have hskip : ∀ {start : Nat}, start ≤ xs.length → skipNewer xs start at_ ≤ xs.length := fun {start} hstart => by
    have hrun := (List.takeWhile_prefix (fun x : Slot => decide (at_ < x.stamp)) (l := xs.drop start)).length_le
    rw [List.length_drop] at hrun
    rw [skipNewer]
    omega
  rw [slotAfter] at h
  split at h
  · cases h
  · rename_i anchor hanchor
    obtain rfl := Except.ok.inj h
    cases anchor with
    | none => exact hskip (Nat.zero_le _)
    | some a => exact hskip (anchorSlot_lt hanchor)

theorem hasPlacement_of_ids (h : xs.map Slot.id = ys.map Slot.id) (task : TaskId) :
    hasPlacement xs task = hasPlacement ys task := by
  have hany : ∀ zs : List Slot, hasPlacement zs task = (zs.map Slot.id).any (· = some task) :=
    fun zs => by rw [List.any_map]; rfl
  rw [hany, hany, h]

end Slots

namespace DocState

variable {s : DocState} {task : TaskId}

/-! ## Inserting -/

/-- Recording fields changes the field stamps only. -/
theorem foldl_recordField (task : TaskId) (fields : List Field) (at_ : Hlc) (s : DocState) :
    ∃ stamps, fields.foldl (fun s f => s.recordField task f at_) s =
      { s with fieldStamps := stamps } := by
  induction fields generalizing s with
  | nil => exact ⟨s.fieldStamps, rfl⟩
  | cons f fields ih =>
    obtain ⟨stamps, hs⟩ := ih (s.recordField task f at_)
    exact ⟨stamps, hs⟩

/-- The line an insert again leaves, or why it has none: refused before the history is reset, or after
it. -/
theorem mergedLine_outcome {current : OwnedLine} (hcurrent : s.contentLine task = some current)
    (inserted : OwnedLine) (at_ : Hlc) :
    (∃ e, s.mergedLine task current inserted at_ = (s, .error e)) ∨
    (∃ description e, s.insertedDescription task inserted at_ = some description ∧
      (noLineBreak ((s.historyOr task description).reset description at_ applyTextEdits).2).isOk =
        false ∧
      s.mergedLine task current inserted at_ = (s.setHistory task
        (some ((s.historyOr task description).reset description at_ applyTextEdits).1), .error e)) ∨
    (∃ h stamps merged, s.mergedLine task current inserted at_ =
      ({ s.setHistory task h with fieldStamps := stamps }, .ok merged)) := by
  unfold mergedLine
  dsimp only
  cases hkeep : keepFields current inserted
      (PREFIX_FIELDS.filter fun f => s.isStaleField task f at_) with
  | none => exact .inl ⟨_, rfl⟩
  | some line =>
    dsimp only
    cases hdescription : descriptionOf line with
    | none => exact .inl ⟨_, rfl⟩
    | some description =>
      dsimp only
      right
      have hinserted : s.insertedDescription task inserted at_ = some description := by
        simp [insertedDescription, hcurrent, hkeep, hdescription]
      have hset : ∀ held, Edit.new.setDescription held =
          (noLineBreak held).map fun _ => ⟨[.setDescription held]⟩ := fun held => by
        unfold Edit.setDescription
        cases noLineBreak held <;> rfl
      rw [hset]
      rcases hbreak : noLineBreak
          ((s.historyOr task description).reset description at_ applyTextEdits).2 with e | u
      · exact .inl ⟨description, _, hinserted, by rw [hbreak]; rfl, rfl⟩
      · obtain ⟨stamps, hfold⟩ := foldl_recordField task
          (PREFIX_FIELDS.filter fun f => !s.isStaleField task f at_) at_ (s.setHistory task
            (some ((s.historyOr task description).reset description at_ applyTextEdits).1))
        simp only [Except.map]
        exact .inr ⟨_, stamps, _, by rw [hfold]⟩

/-- What an insert of a task not here leaves. -/
def Inserts (task : TaskId) (after : Option TaskId) (line : Text) (at_ : Hlc) (s s' : DocState) :
    Prop :=
  s.hasPlacement task = false ∧ s.visible.length + 1 ≤ MAX_LINES_PER_FILE ∧
    (s.mode = .tagged → idOf (OwnedLine.ofText line s.ending) = some task) ∧
    ∃ spot, s.slotAfter after at_ = .ok spot ∧
      s' = s.insertEntry spot (.task task (OwnedLine.ofText line s.ending)) at_

/-- What an insert again leaves: other metadata of `task`, and the placement. -/
def InsertsAgain (task : TaskId) (after : Option TaskId) (at_ : Hlc) (s s' : DocState) : Prop :=
  s.hasPlacement task = true ∧ s.visible.length + 1 ≤ MAX_LINES_PER_FILE ∧
    ∃ spot h stamps merged, s.slotAfter after at_ = .ok spot ∧
      s' = ({ s.setHistory task h with fieldStamps := stamps } : DocState).placeAgain task spot
        merged at_

section Insert

variable {line : Text}

theorem reinsert_outcome (after : Option TaskId) (at_ : Hlc) (hplace : s.hasPlacement task = true)
    (hfull : s.visible.length + 1 ≤ MAX_LINES_PER_FILE)
    (hmode : ¬(s.mode = .tagged ∧ idOf (OwnedLine.ofText line s.ending) ≠ some task)) :
    FailsOr s (InsertsAgain task after at_ s)
      (s.reinsert task after (OwnedLine.ofText line s.ending) at_) ∨
    ∃ h e, s.LateInsert task after line at_ ∧ s.textHistory task ≠ some h ∧
      s.reinsert task after (OwnedLine.ofText line s.ending) at_ =
        (s.setHistory task (some h)).fails e := by
  unfold reinsert
  cases hspot : s.slotAfter after at_ with
  | error e => exact .inl (.inl ⟨_, rfl⟩)
  | ok spot =>
    dsimp only
    cases hcurrent : s.contentLine task with
    | none => exact .inl (.inl ⟨_, rfl⟩)
    | some current =>
      dsimp only
      rcases mergedLine_outcome hcurrent (OwnedLine.ofText line s.ending) at_ with
        ⟨e, he⟩ | ⟨description, e, hd, hbreak, he⟩ | ⟨h, stamps, merged, he⟩
      · rw [he]
        exact .inl (.inl ⟨_, rfl⟩)
      · rw [he]
        by_cases hsame : s.textHistory task =
            some ((s.historyOr task description).reset description at_ applyTextEdits).1
        · rw [← hsame, setHistory_self]
          exact .inl (.inl ⟨_, rfl⟩)
        · exact .inr ⟨_, e, ⟨hfull, hmode, hplace, by rw [hspot]; rfl, description, hd, hbreak, hsame⟩,
            hsame, rfl⟩
      · rw [he]
        exact .inl (.inr ⟨_, rfl, hplace, hfull, spot, h, stamps, merged, hspot, rfl⟩)

theorem insert_outcome (task : TaskId) (after : Option TaskId) (line : Text) (at_ : Hlc) :
    FailsOr s (fun s' => Inserts task after line at_ s s' ∨ InsertsAgain task after at_ s s')
      (s.insert task after line at_) ∨
    ∃ h e, s.LateInsert task after line at_ ∧ s.textHistory task ≠ some h ∧
      s.insert task after line at_ = (s.setHistory task (some h)).fails e := by
  unfold insert
  by_cases hfull : MAX_LINES_PER_FILE < s.visible.length + 1
  · rw [if_pos hfull]
    exact .inl (.inl ⟨_, rfl⟩)
  rw [if_neg hfull]
  by_cases hmode : s.mode = .tagged ∧ idOf (OwnedLine.ofText line s.ending) ≠ some task
  · simp only [if_pos hmode]
    exact .inl (.inl ⟨_, rfl⟩)
  simp only [if_neg hmode]
  by_cases hplace : s.hasPlacement task = true
  · rw [if_pos hplace]
    rcases reinsert_outcome after at_ hplace (not_lt.1 hfull) hmode with
      (he | ⟨s', hs', hi⟩) | hlate
    · exact .inl (.inl he)
    · exact .inl (.inr ⟨s', hs', .inr hi⟩)
    · exact .inr hlate
  · rw [if_neg hplace]
    split
    · exact .inl (.inl ⟨_, rfl⟩)
    · next spot hspot =>
      refine .inl (.inr ⟨_, rfl, .inl ⟨by simpa using hplace, not_lt.1 hfull, ?_, spot, hspot, rfl⟩⟩)
      exact fun htagged => by_contra fun hid => hmode ⟨htagged, hid⟩

end Insert

/-! ## Moving -/

/-- What a move to another file leaves: the shown placement hidden. -/
def MovesAway (task : TaskId) (s s' : DocState) : Prop :=
  s.hasPlacement task = true ∧ s' = (s.liveSlot task).elim s s.hideEntry

/-- What a move that lost, or of a hidden task, leaves: a ghost. -/
def PlacesGhost (task : TaskId) (after : Option TaskId) (at_ : Hlc) (s s' : DocState) : Prop :=
  (∀ slot, s.liveSlot task = some slot → s.isStaleMove slot at_ = true) ∧
    ∃ spot line, s.slotAfter after at_ = .ok spot ∧ s.contentLine task = some line ∧
      s' = ((s.insertEntry spot (.task task line) at_).hideEntry spot.at_).rehomeOnto task at_

/-- What a move that wins leaves: the shown placement hidden and a new one. -/
def Moves (task : TaskId) (after : Option TaskId) (at_ : Hlc) (s s' : DocState) : Prop :=
  ∃ slot entry spot, s.liveSlot task = some slot ∧ s.isStaleMove slot at_ = false ∧
    s.entries[slot]? = some entry ∧ (s.hideEntry slot).slotAfter after at_ = .ok spot ∧
      s' = ((s.hideEntry slot).insertEntry spot entry at_).rehomeOnto task at_

theorem placeGhost_outcome (task : TaskId) (after : Option TaskId) (at_ : Hlc)
    (hstale : ∀ slot, s.liveSlot task = some slot → s.isStaleMove slot at_ = true) :
    FailsOr s (PlacesGhost task after at_ s) (s.placeGhost task after at_) := by
  unfold placeGhost
  split
  · exact .inl ⟨_, rfl⟩
  · next line hline =>
    split
    · exact .inl ⟨_, rfl⟩
    · next spot hspot => exact .inr ⟨_, rfl, hstale, spot, line, hspot, hline, rfl⟩

theorem hideEntry_slots (s : DocState) (slot : Nat) :
    (s.hideEntry slot).slots = s.slots.modify slot (Slot.withHidden true) := by
  apply List.ext_getElem?
  intro n
  simp only [slots, hideEntry, reindex, List.zip, List.getElem?_map, List.getElem?_zipWith,
    List.getElem?_set, List.getElem?_modify]
  by_cases hn : slot = n
  · subst hn
    by_cases hlt : slot < s.hidden.length
    · rw [List.getElem?_eq_getElem hlt]
      cases s.entries[slot]? <;> cases s.stamps[slot]? <;> cases s.parents[slot]? <;>
        cases s.erasers[slot]? <;> simp [hlt, Slot.withHidden]
    · rw [List.getElem?_eq_none (not_lt.1 hlt)]
      cases s.entries[slot]? <;> cases s.stamps[slot]? <;> simp [hlt]
  · cases s.entries[n]? <;> cases s.stamps[n]? <;> cases s.hidden[n]? <;> cases s.parents[n]? <;>
      cases s.erasers[n]? <;> simp [hn]

/-- Hiding a slot takes no anchor away. -/
theorem hideEntry_slotAfter_isOk (s : DocState) (slot : Nat) (after : Option TaskId) (at_ : Hlc) :
    ((s.hideEntry slot).slotAfter after at_).isOk = (s.anchorSlot after at_).isOk := by
  simp only [slotAfter, anchorSlot, Slots.slotAfter_isOk, hideEntry_slots]
  have hids : (s.slots.modify slot (Slot.withHidden true)).map Slot.id = s.slots.map Slot.id :=
    map_modify_withHidden Slot.id (fun _ _ => rfl) s.slots slot true
  rw [Bool.eq_iff_iff, Slots.anchorSlot_isOk, Slots.anchorSlot_isOk]
  simp only [Slots.hasPlacement_of_ids hids]

theorem moveTask_away (task : TaskId) (after : Option TaskId) {toFile : FilePath} (at_ : Hlc)
    (hfile : toFile ≠ s.path) :
    FailsOr s (MovesAway task s) (s.moveTask task after toFile at_) := by
  unfold moveTask
  rw [if_pos hfile]
  cases hlive : s.liveSlot task with
  | some slot =>
    refine .inr ⟨_, rfl, ?_, by simp [hlive]⟩
    obtain ⟨x, hx, hshows⟩ := Slots.liveSlot_spec hlive
    exact Slots.hasPlacement_iff.2 ⟨x, List.mem_of_getElem? hx, (Slot.shows_iff.1 hshows).2⟩
  | none =>
    dsimp only
    by_cases hplace : s.hasPlacement task = true
    · rw [if_pos hplace]
      exact .inr ⟨_, rfl, hplace, by simp [hlive]⟩
    · rw [if_neg hplace]
      exact .inl ⟨_, rfl⟩

theorem moveTask_here (task : TaskId) (after : Option TaskId) (at_ : Hlc) :
    FailsOr s (fun s' => after ≠ some task ∧
        (PlacesGhost task after at_ s s' ∨ Moves task after at_ s s'))
      (s.moveTask task after s.path at_) := by
  unfold moveTask
  rw [if_neg (not_not.2 rfl)]
  by_cases hself : after = some task
  · rw [if_pos hself]
    exact .inl ⟨_, rfl⟩
  rw [if_neg hself]
  have hghost : (∀ slot, s.liveSlot task = some slot → s.isStaleMove slot at_ = true) →
      FailsOr s (fun s' => after ≠ some task ∧
        (PlacesGhost task after at_ s s' ∨ Moves task after at_ s s'))
        (s.placeGhost task after at_) := by
    intro hstale
    rcases placeGhost_outcome task after at_ hstale with he | ⟨s', hs', hp⟩
    · exact .inl he
    · exact .inr ⟨s', hs', hself, .inl hp⟩
  cases hanchor : s.anchorSlot after at_ with
  | error e => exact .inl ⟨_, rfl⟩
  | ok anchor =>
    dsimp only
    cases hlive : s.liveSlot task with
    | none => exact hghost (by simp [hlive])
    | some slot =>
      dsimp only
      by_cases hstale : s.isStaleMove slot at_ = true
      · rw [if_pos hstale]
        refine hghost fun l hl => ?_
        obtain rfl : slot = l := Option.some.inj (hlive.symm.trans hl)
        exact hstale
      · rw [if_neg hstale]
        cases hentry : s.entries[slot]? with
        | none => exact .inl ⟨_, rfl⟩
        | some entry =>
          dsimp only
          cases hspot : (s.hideEntry slot).slotAfter after at_ with
          | error e =>
            have hok := hideEntry_slotAfter_isOk s slot after at_
            rw [hspot, hanchor] at hok
            cases hok
          | ok spot =>
            exact .inr ⟨_, rfl, hself, .inr
              ⟨slot, entry, spot, hlive, by simpa using hstale, hentry, hspot, rfl⟩⟩

/-! ## Blanks -/

theorem blankInsert_outcome (after : Option TaskId) (at_ : Hlc) :
    FailsOr s (fun s' => s.visible.length + 1 ≤ MAX_LINES_PER_FILE ∧
        ∃ spot, s.slotAfter after at_ = .ok spot ∧ s' = s.insertEntry spot s.blankEntry at_)
      (s.blankInsert after at_) := by
  unfold blankInsert
  split_ifs with hfull
  · exact .inl ⟨_, rfl⟩
  · split
    · exact .inl ⟨_, rfl⟩
    · next spot hspot => exact .inr ⟨_, rfl, not_lt.1 hfull, spot, hspot, rfl⟩

/-- What a `BlankRemove` leaves: an eraser. -/
def Erases (after : Option TaskId) (at_ : Hlc) (s s' : DocState) : Prop :=
  ∃ spot, s.slotAfter after at_ = .ok spot ∧
    s' = { s.insertEntry spot s.blankEntry at_ with
      erasers := (s.insertEntry spot s.blankEntry at_).erasers.set spot.at_ true }.hideEntry spot.at_

theorem blankRemove_outcome (after : Option TaskId) (at_ : Hlc) :
    FailsOr s (Erases after at_ s) (s.blankRemove after at_) := by
  unfold blankRemove
  split
  · exact .inl ⟨_, rfl⟩
  · next spot hspot => exact .inr ⟨_, rfl, spot, hspot, rfl⟩

end DocState

end Txtodo
