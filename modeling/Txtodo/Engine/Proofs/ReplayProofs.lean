import Txtodo.Engine.Proofs.RestampProofs

/-!
# Proofs: an op under a renaming of stamps

Each op, stamped at least as new as everything the document holds, leaves the renamed state and returns
the same result when the document's stamps and its own are renamed.
-/

namespace Txtodo

namespace DocState

open TextHistory (HeldBy keepsTexts_heldBy)

variable {A : Hlc → Prop} {f : Hlc → Hlc} {at_ to_ : Hlc} {s : DocState} {task : TaskId}

variable (hf : Newest A f at_ to_)

include hf

/-! ## Histories -/

theorem historyOr_restamp (s : DocState) (task : TaskId) (current : Text) :
    (s.restamp f).historyOr task current = (s.historyOr task current).restamp f := by
  show ((s.textHistory task).map (TextHistory.restamp f)).getD (.new current) = _
  rw [historyOr]
  cases s.textHistory task with
  | none => exact (TextHistory.new_restamp hf current).symm
  | some h => rfl

variable (hs : s.Keeps A (HeldBy A))

include hs

theorem historyOr_heldBy (task : TaskId) (current : Text) : (s.historyOr task current).HeldBy A :=
  hs.historyOr (keepsTexts_heldBy hf.mem) task current

theorem editDescription_restamp (task : TaskId) (current : Text) (edits : List TextEdit) :
    (s.restamp f).editDescription task current to_ edits =
      ((s.editDescription task current at_ edits).1.restamp f,
        (s.editDescription task current at_ edits).2) := by
  rw [editDescription, editDescription, TextHistory.apply, TextHistory.apply, historyOr_restamp hf,
    TextHistory.record_restamp hf (historyOr_heldBy hf hs task current)]
  exact Prod.ext (setHistory_restamp f s task (some _)) rfl

theorem setPriInDescription_restamp (task : TaskId) (current : Text) (letter : Char) (add : Bool) :
    (s.restamp f).setPriInDescription task current to_ letter add =
      ((s.setPriInDescription task current at_ letter add).1.restamp f,
        (s.setPriInDescription task current at_ letter add).2) := by
  rw [setPriInDescription, setPriInDescription, historyOr_restamp hf]
  cases add with
  | true =>
    simp only [if_true]
    rw [TextHistory.setPri_restamp hf (historyOr_heldBy hf hs task current)]
    exact Prod.ext (setHistory_restamp f s task (some _)) rfl
  | false =>
    simp only [Bool.false_eq_true, if_false]
    rw [TextHistory.swapPri_restamp]
    exact Prod.ext (setHistory_restamp f s task (some _)) rfl

omit hs in
theorem clearPriInDescription_restamp (task : TaskId) (current : Text) :
    (s.restamp f).clearPriInDescription task current =
      ((s.clearPriInDescription task current).1.restamp f,
        (s.clearPriInDescription task current).2) := by
  rw [clearPriInDescription, clearPriInDescription, historyOr_restamp hf,
    TextHistory.clearPri_restamp]
  obtain ⟨h, text⟩ := (s.historyOr task current).clearPri applyTextEdits
  cases text with
  | none => exact Prod.ext (forgetText_restamp f s task) rfl
  | some text => exact Prod.ext (setHistory_restamp f s task (some h)) rfl

theorem removeTagInDescription_restamp (task : TaskId) (current key : Text) :
    (s.restamp f).removeTagInDescription task current to_ key =
      ((s.removeTagInDescription task current at_ key).1.restamp f,
        (s.removeTagInDescription task current at_ key).2) := by
  rw [removeTagInDescription, removeTagInDescription, historyOr_restamp hf,
    TextHistory.removeTag_restamp hf (historyOr_heldBy hf hs task current)]
  exact Prod.ext (setHistory_restamp f s task (some _)) rfl

theorem keepInHistory_restamp (task : TaskId) (oldLine newLine : OwnedLine) :
    (s.restamp f).keepInHistory task oldLine newLine to_ =
      ((s.keepInHistory task oldLine newLine at_).1.restamp f,
        (s.keepInHistory task oldLine newLine at_).2) := by
  rw [keepInHistory, keepInHistory]
  cases movedIntoPri oldLine newLine with
  | none => exact Prod.ext (forgetText_restamp f s task) rfl
  | some moved =>
    obtain ⟨old, new, letter, add⟩ := moved
    dsimp only
    rw [setPriInDescription_restamp hf hs]
    obtain ⟨s₁, held⟩ := s.setPriInDescription task old at_ letter add
    cases held with
    | none => exact Prod.ext (forgetText_restamp f s₁ task) rfl
    | some held =>
      dsimp only
      split_ifs
      · rfl
      · cases Edit.new.setDescription held <;> rfl

/-! ## Rewriting a line -/

omit hs in
theorem clearDonePriority_restamp (task : TaskId) (slot : Nat) (line : OwnedLine) (description : Text) :
    (s.restamp f).clearDonePriority task slot line description to_ =
      (s.clearDonePriority task slot line description at_).restamp f := by
  rw [clearDonePriority, clearDonePriority, clearPriInDescription_restamp hf]
  obtain ⟨s₁, held⟩ := s.clearPriInDescription task description
  dsimp only
  have hmode : (s₁.restamp f).withDescription task line held = s₁.withDescription task line held := rfl
  rw [hmode]
  cases s₁.withDescription task line held with
  | error e => rfl
  | ok newLine =>
    exact congrArg done (recordField_restamp hf (s₁.replaceEntry slot (.task task newLine)) task .priority)

theorem setDeleted_restamp (task : TaskId) (value : FieldValue) :
    (s.restamp f).setDeleted task value to_ = (s.setDeleted task value at_).restamp f := by
  rw [setDeleted, setDeleted, hasPlacement_restamp, noteDeath_restamp hf hs]
  obtain ⟨s₁, hides⟩ := s.noteDeath task at_
  dsimp only
  rw [liveSlot_restamp]
  split_ifs
  · cases s₁.liveSlot task <;> rfl
  · cases s₁.liveSlot task <;> rfl
  · rfl
  · rfl

theorem setPrefixField_restamp (task : TaskId) (slot : Nat) (line : OwnedLine) (field : Field)
    (value : FieldValue) :
    (s.restamp f).setPrefixField task slot line field value to_ =
      (s.setPrefixField task slot line field value at_).restamp f := by
  rw [setPrefixField, setPrefixField]
  cases rewritePrefix line field value with
  | none => rfl
  | some newLine =>
    dsimp only
    rw [keepInHistory_restamp hf hs]
    by_cases hdesc : descriptionOf line = descriptionOf newLine
    · rw [if_pos hdesc, if_pos hdesc]
      exact congrArg done (recordField_restamp hf (s.replaceEntry slot (.task task newLine)) task field)
    · rw [if_neg hdesc, if_neg hdesc]
      obtain ⟨s₁, kept⟩ := s.keepInHistory task line newLine at_
      exact congrArg done (recordField_restamp hf (s₁.replaceEntry slot (.task task kept)) task field)

theorem setField_restamp (task : TaskId) (field : Field) (value : FieldValue) :
    (s.restamp f).setField task field value to_ = (s.setField task field value at_).restamp f := by
  obtain ⟨hfresh, hfresh'⟩ := isStaleField_newest hf hs task field
  rw [setField, setField]
  by_cases hdeleted : field = .deleted
  · rw [if_pos hdeleted, if_pos hdeleted]
    exact setDeleted_restamp hf hs task value
  rw [if_neg hdeleted, if_neg hdeleted, contentSlot_restamp hf hs]
  cases s.contentSlot task with
  | none => rfl
  | some slot =>
    dsimp only
    have hline : (s.restamp f).slotLine slot = s.slotLine slot := rfl
    rw [hline]
    cases s.slotLine slot with
    | none => rfl
    | some line =>
      dsimp only
      rw [hfresh, hfresh']
      simp only [Bool.false_eq_true, if_false]
      cases (if field = .priority ∧ value = .priority none then doneDescription line else none) with
      | none => exact setPrefixField_restamp hf hs task slot line field value
      | some description => exact clearDonePriority_restamp hf task slot line description

omit hf hs in
theorem restoreText_restamp (f : Hlc → Hlc) (s : DocState) (task : TaskId) (saved : Option TextHistory)
    (e : StateError) :
    (s.restamp f).restoreText task (saved.map (TextHistory.restamp f)) e =
      (s.restoreText task saved e).restamp f :=
  congrArg (fun s => fails s e) (setHistory_restamp f s task saved)

theorem editText_restamp (task : TaskId) (edits : List TextEdit) :
    (s.restamp f).editText task edits to_ = (s.editText task edits at_).restamp f := by
  rw [editText, editText, contentSlot_restamp hf hs]
  cases s.contentSlot task with
  | none => rfl
  | some slot =>
    dsimp only
    have hline : (s.restamp f).slotLine slot = s.slotLine slot := rfl
    rw [hline]
    cases s.slotLine slot with
    | none => rfl
    | some line =>
      dsimp only
      cases descriptionOf line with
      | none => rfl
      | some description =>
        dsimp only
        rw [editDescription_restamp hf hs]
        obtain ⟨s₁, r⟩ := s.editDescription task description at_ edits
        cases r with
        | error e => exact restoreText_restamp f s₁ task (s.textHistory task) (.text task e)
        | ok text =>
          dsimp only
          have hmode : (s₁.restamp f).withDescription task line text =
            s₁.withDescription task line text := rfl
          rw [hmode]
          cases s₁.withDescription task line text with
          | error e => exact restoreText_restamp f s₁ task (s.textHistory task) e
          | ok newLine => rfl

theorem removeTag_restamp (task : TaskId) (key : Text) :
    (s.restamp f).removeTag task key to_ = (s.removeTag task key at_).restamp f := by
  rw [removeTag, removeTag]
  by_cases hkey : (!validTagKey key) = true
  · rw [if_pos hkey, if_pos hkey]
    rfl
  rw [if_neg hkey, if_neg hkey, contentSlot_restamp hf hs]
  cases s.contentSlot task with
  | none => rfl
  | some slot =>
    dsimp only
    have hline : (s.restamp f).slotLine slot = s.slotLine slot := rfl
    rw [hline]
    cases s.slotLine slot with
    | none => rfl
    | some line =>
      dsimp only
      cases descriptionOf line with
      | none => rfl
      | some description =>
        dsimp only
        rw [removeTagInDescription_restamp hf hs]
        obtain ⟨s₁, held⟩ := s.removeTagInDescription task description at_ key
        dsimp only
        have hmode : (s₁.restamp f).withDescription task line held =
          s₁.withDescription task line held := rfl
        rw [hmode]
        cases s₁.withDescription task line held with
        | error e => exact restoreText_restamp f s₁ task (s.textHistory task) e
        | ok newLine => rfl

/-! ## Placing -/

omit hs in
theorem recordFields_restamp (s : DocState) (task : TaskId) (fields : List Field) :
    fields.foldl (fun s f => s.recordField task f to_) (s.restamp f) =
      (fields.foldl (fun s f => s.recordField task f at_) s).restamp f := by
  induction fields generalizing s with
  | nil => rfl
  | cons field fields ih =>
    rw [List.foldl_cons, List.foldl_cons, recordField_restamp hf, ih]

theorem mergedLine_restamp (task : TaskId) (current inserted : OwnedLine) :
    (s.restamp f).mergedLine task current inserted to_ =
      ((s.mergedLine task current inserted at_).1.restamp f,
        (s.mergedLine task current inserted at_).2) := by
  have hfresh : (fun field => (s.restamp f).isStaleField task field to_) =
      fun field => s.isStaleField task field at_ := by
    funext field
    obtain ⟨hold, hnew⟩ := isStaleField_newest hf hs task field
    rw [hold, hnew]
  have hfresh' : (fun field => !(s.restamp f).isStaleField task field to_) =
      fun field => !s.isStaleField task field at_ := by
    funext field
    rw [congrFun hfresh field]
  rw [mergedLine, mergedLine, hfresh, hfresh']
  cases keepFields current inserted (PREFIX_FIELDS.filter fun f => s.isStaleField task f at_) with
  | none => rfl
  | some line =>
    dsimp only
    cases descriptionOf line with
    | none => rfl
    | some description =>
      dsimp only
      rw [historyOr_restamp hf,
        TextHistory.reset_restamp hf (historyOr_heldBy hf hs task description)]
      obtain ⟨h, held⟩ := (s.historyOr task description).reset description at_ applyTextEdits
      have hset := setHistory_restamp f s task (some h)
      rw [Option.map_some] at hset
      dsimp only
      rw [hset]
      cases Edit.new.setDescription held with
      | error e => rfl
      | ok edit => exact Prod.ext (recordFields_restamp hf (s.setHistory task (some h)) task _) rfl

theorem placeAgain_restamp (task : TaskId) {spot : Spot} (hspot : ∀ q ∈ spot.parent, A q.2)
    (merged : OwnedLine) :
    (s.restamp f).placeAgain task (spot.restamp f) merged to_ =
      (s.placeAgain task spot merged at_).restamp f := by
  have hplaced := ((hs.insertEntry hf.mem hspot (.task task merged)).hideEntry spot.at_)
  have hreborn := hplaced.noteRebirth hf.mem task
  have hshown : (((((s.insertEntry spot (.task task merged) at_).hideEntry spot.at_).noteRebirth task
      at_).showNewest task spot.at_).setLines task merged).Keeps A (HeldBy A) :=
    (hreborn.showNewest spot.at_).setLines merged
  obtain ⟨hdied, hdied'⟩ := diedBefore_newest hf hreborn task
  have hinsert : ((s.restamp f).insertEntry (spot.restamp f) (.task task merged) to_).hideEntry spot.at_ =
      ((s.insertEntry spot (.task task merged) at_).hideEntry spot.at_).restamp f := by
    rw [insertEntry_restamp hf]
    rfl
  rw [placeAgain, placeAgain]
  simp only [show (spot.restamp f).at_ = spot.at_ from rfl]
  rw [hinsert, noteRebirth_restamp hf hplaced, hdied, hdied', Bool.or_true, Bool.or_true]
  simp only [if_true]
  rw [showNewest_restamp hf hreborn, (rehomeOnto_newest hf hshown task).1]
  exact (rehomeOnto_newest hf hshown task).2

theorem reinsert_restamp (task : TaskId) (after : Option TaskId) (line : OwnedLine) :
    (s.restamp f).reinsert task after line to_ = (s.reinsert task after line at_).restamp f := by
  rw [reinsert, reinsert, slotAfter_restamp hf hs, contentLine_restamp hf hs]
  cases hspot : s.slotAfter after at_ with
  | error e => rfl
  | ok spot =>
    simp only [Except.map]
    cases s.contentLine task with
    | none => rfl
    | some current =>
      dsimp only
      rw [mergedLine_restamp hf hs]
      have hmerged := hs.mergedLine hf.mem (keepsTexts_heldBy hf.mem) task current line
      rcases hline : s.mergedLine task current line at_ with ⟨s₁, e | merged⟩
      · rfl
      · rw [hline] at hmerged
        exact congrArg done (placeAgain_restamp hf hmerged task (hs.spot hspot) merged)

theorem insert_restamp (task : TaskId) (after : Option TaskId) (line : Text) :
    (s.restamp f).insert task after line to_ = (s.insert task after line at_).restamp f := by
  set owned := OwnedLine.ofText line s.ending
  rw [insert, insert]
  simp only [hasPlacement_restamp, slotAfter_restamp hf hs]
  by_cases hfull : MAX_LINES_PER_FILE < s.visible.length + 1
  · rw [if_pos hfull]
    exact if_pos hfull
  rw [if_neg hfull]
  refine (if_neg hfull).trans ?_
  by_cases hid : s.mode = .tagged ∧ idOf owned ≠ some task
  · rw [if_pos hid]
    exact if_pos hid
  rw [if_neg hid]
  refine (if_neg hid).trans ?_
  by_cases hhere : s.hasPlacement task = true
  · rw [if_pos hhere, if_pos hhere]
    exact reinsert_restamp hf hs task after owned
  rw [if_neg hhere, if_neg hhere]
  cases s.slotAfter after at_ with
  | error e => rfl
  | ok spot => exact congrArg done (insertEntry_restamp hf s spot (.task task owned))

theorem placeGhost_restamp (task : TaskId) (after : Option TaskId) :
    (s.restamp f).placeGhost task after to_ = (s.placeGhost task after at_).restamp f := by
  rw [placeGhost, placeGhost, contentLine_restamp hf hs, slotAfter_restamp hf hs]
  cases s.contentLine task with
  | none => rfl
  | some line =>
    dsimp only
    cases hspot : s.slotAfter after at_ with
    | error e => rfl
    | ok spot =>
      have hplaced := ((hs.insertEntry hf.mem (hs.spot hspot) (.task task line)).hideEntry spot.at_)
      have hinsert : ((s.restamp f).insertEntry (spot.restamp f) (.task task line) to_).hideEntry spot.at_ =
          ((s.insertEntry spot (.task task line) at_).hideEntry spot.at_).restamp f := by
        rw [insertEntry_restamp hf]
        rfl
      show ((((s.restamp f).insertEntry (spot.restamp f) (.task task line) to_).hideEntry
        spot.at_).rehomeOnto task to_).done = _
      dsimp only
      rw [hinsert, (rehomeOnto_newest hf hplaced task).1, (rehomeOnto_newest hf hplaced task).2]
      rfl

theorem moveTask_restamp (task : TaskId) (after : Option TaskId) (toFile : FilePath) :
    (s.restamp f).moveTask task after toFile to_ = (s.moveTask task after toFile at_).restamp f := by
  rw [moveTask, moveTask, liveSlot_restamp, hasPlacement_restamp, anchorSlot_restamp hf hs]
  by_cases hfile : toFile ≠ s.path
  · rw [if_pos hfile]
    refine (if_pos hfile).trans ?_
    cases s.liveSlot task with
    | some slot => rfl
    | none =>
      dsimp only
      split_ifs <;> rfl
  rw [if_neg hfile]
  refine (if_neg hfile).trans ?_
  by_cases hself : after = some task
  · rw [if_pos hself, if_pos hself]
    rfl
  rw [if_neg hself, if_neg hself]
  cases s.anchorSlot after at_ with
  | error e => rfl
  | ok anchor =>
    dsimp only
    cases s.liveSlot task with
    | none => exact placeGhost_restamp hf hs task after
    | some slot =>
      obtain ⟨hfresh, hfresh'⟩ := isStaleMove_newest hf hs slot
      dsimp only
      rw [hfresh, hfresh']
      simp only [Bool.false_eq_true, if_false]
      have hentries : (s.restamp f).entries[slot]? = s.entries[slot]? := rfl
      rw [hentries]
      cases s.entries[slot]? with
      | none => rfl
      | some entry =>
        have hhide := hs.hideEntry slot
        have hspot' := slotAfter_restamp hf hhide after
        dsimp only
        rw [show (s.restamp f).hideEntry slot = (s.hideEntry slot).restamp f from rfl, hspot']
        cases hspot : (s.hideEntry slot).slotAfter after at_ with
        | error e => rfl
        | ok spot =>
          have hplaced := hhide.insertEntry hf.mem (hhide.spot hspot) entry
          show ((((s.hideEntry slot).restamp f).insertEntry (spot.restamp f) entry to_).rehomeOnto task
            to_).done = _
          dsimp only
          rw [insertEntry_restamp hf, (rehomeOnto_newest hf hplaced task).1,
            (rehomeOnto_newest hf hplaced task).2]
          rfl

theorem blankInsert_restamp (after : Option TaskId) :
    (s.restamp f).blankInsert after to_ = (s.blankInsert after at_).restamp f := by
  rw [blankInsert, blankInsert, slotAfter_restamp hf hs]
  by_cases hfull : MAX_LINES_PER_FILE < s.visible.length + 1
  · rw [if_pos hfull]
    exact if_pos hfull
  rw [if_neg hfull]
  refine (if_neg hfull).trans ?_
  cases s.slotAfter after at_ with
  | error e => rfl
  | ok spot => exact congrArg done (insertEntry_restamp hf s spot s.blankEntry)

theorem blankRemove_restamp (after : Option TaskId) :
    (s.restamp f).blankRemove after to_ = (s.blankRemove after at_).restamp f := by
  rw [blankRemove, blankRemove, slotAfter_restamp hf hs]
  cases s.slotAfter after at_ with
  | error e => rfl
  | ok spot =>
    have hinsert := insertEntry_restamp hf s spot s.blankEntry
    exact congrArg (fun s : DocState => ({ s with erasers := s.erasers.set spot.at_ true }.hideEntry
      spot.at_).done) hinsert

/-! ## One op -/

theorem applyKind_restamp (op op' : Op) (hat : op.hlc = at_) (hto : op'.hlc = to_)
    (hkind : op'.kind = op.kind) :
    (s.restamp f).applyKind op' = (s.applyKind op).restamp f := by
  obtain ⟨id, hlc, file, kind⟩ := op
  obtain ⟨id', hlc', file', kind'⟩ := op'
  obtain rfl : hlc = at_ := hat
  obtain rfl : hlc' = to_ := hto
  obtain rfl : kind' = kind := hkind
  cases kind' with
  | insert task after line => exact insert_restamp hf hs task after line
  | setField task field value => exact setField_restamp hf hs task field value
  | editText task edits => exact editText_restamp hf hs task edits
  | move task after toFile => exact moveTask_restamp hf hs task after toFile
  | notesEdit file edits => rfl
  | blankInsert after => exact blankInsert_restamp hf hs after
  | blankRemove after => exact blankRemove_restamp hf hs after
  | removeTag task key => exact removeTag_restamp hf hs task key

/-- One op, newest of all, commutes with the renaming. -/
theorem apply_restamp (op op' : Op) (hat : op.hlc = at_) (hto : op'.hlc = to_)
    (hkind : op'.kind = op.kind) :
    (s.restamp f).apply op' = (s.apply op).restamp f := by
  have hmem : A op.hlc := hat ▸ hf.mem
  have hkeeps := hs.applyKind op hmem (keepsTexts_heldBy hmem)
  rw [apply, apply, applyKind_restamp hf hs op op' hat hto hkind]
  rcases hout : s.applyKind op with ⟨s₁, e | u⟩
  · rfl
  · rw [hout] at hkeeps
    show ((s₁.restamp f).settled op').pruneGhosts.done = ((s₁.settled op).pruneGhosts.restamp f).done
    rw [settled, settled, hkind]
    split_ifs
    · rw [settleErasers_restamp hf hkeeps, pruneGhosts_restamp hf hkeeps.settleErasers]
    · rw [pruneGhosts_restamp hf hkeeps]

end DocState

end Txtodo

/-!
## A commit and its replay

The device that makes a commit applies its ops under the scratch stamp and settles them; the others
apply them stamped. Until the commit is settled the two documents differ by the renaming of the scratch
stamp, and settling renames it.
-/

namespace Txtodo

/-- The stamps a document holds while a commit to be stamped `h` runs: older ones and the scratch
stamp. -/
def Running (h x : Hlc) : Prop := x < h ∨ x = scratchStamp

/-- Ops stamped `at_` are ops stamped `to_` where everything held is older than both. -/
theorem newest_settle {P : Hlc → Prop} {at_ to_ : Hlc} (hat : ∀ {x}, P x → x < at_)
    (hto : ∀ {x}, P x → x < to_) (hzero : at_ ≠ Hlc.zero ⟨0⟩) :
    Newest (fun x => P x ∨ x = at_) (DocState.settleStamp at_ to_) at_ to_ where
  mem := .inr rfl
  eq := if_pos rfl
  lt_iff := by
    have hold : ∀ {x : Hlc}, P x → DocState.settleStamp at_ to_ x = x := fun hx => if_neg (hat hx).ne
    have hnew : DocState.settleStamp at_ to_ at_ = to_ := if_pos rfl
    rintro x y (hx | rfl) (hy | rfl)
    · rw [hold hx, hold hy]
    · rw [hold hx, hnew]
      exact iff_of_true (hto hx) (hat hx)
    · rw [hnew, hold hy]
      exact iff_of_false (hto hy).asymm (hat hy).asymm
    · exact iff_of_false (lt_irrefl _) (lt_irrefl _)
  le := by
    rintro x (hx | rfl)
    · exact (hat hx).le
    · exact le_rfl
  zero := if_neg hzero.symm

theorem newest_scratch {h : Hlc} (hscratch : h < scratchStamp) :
    Newest (Running h) (DocState.settleStamp scratchStamp h) scratchStamp h :=
  newest_settle (fun hx => hx.trans hscratch) (fun hx => hx) (by decide)

namespace DocState

open TextHistory (InOrder HeldBy keepsTexts_inOrder keepsTexts_heldBy)

variable {s : DocState} {h : Hlc}

/-! ## Histories in order -/

theorem textHistory_adoptStamps (s replayed : DocState) :
    (s.adoptStamps replayed).textHistory = replayed.textHistory := by
  unfold adoptStamps
  dsimp only
  split
  · next t hadopt =>
    rw [adoptSequence] at hadopt
    split_ifs at hadopt
    obtain rfl := Option.some.inj hadopt
    rfl
  · rfl

theorem textHistory_fromFile {path : FilePath} {file : File} {ids : List (Option TaskId)}
    {mode : IdentityMode} (hs : fromFile path file ids mode = .ok s) (task : TaskId) :
    s.textHistory task = none := by
  unfold fromFile at hs
  split_ifs at hs
  cases hentries : entriesOf 0 file.lines ids with
  | error e =>
    rw [hentries] at hs
    cases hs
  | ok entries =>
    rw [hentries] at hs
    obtain rfl := Except.ok.inj hs
    rfl

/-- A document whose histories satisfy `P`, whatever its stamps. -/
theorem keeps_texts {P : TextHistory → Prop} (hs : ∀ t h, s.textHistory t = some h → P h) :
    s.Keeps (fun _ => True) P :=
  ⟨fun _ _ => trivial, fun _ _ _ _ => trivial, fun _ _ _ _ => trivial, hs,
    fun _ _ _ => ⟨fun _ _ => trivial, fun _ _ => trivial⟩⟩

/-- Every history of a document that can be reached keeps its edits in stamp order. -/
theorem Reachable.keeps_inOrder (hs : Reachable s) : s.Keeps (fun _ => True) TextHistory.InOrder := by
  induction hs with
  | fromFile hs hids =>
    refine keeps_texts fun t h hh => ?_
    rw [textHistory_fromFile hs] at hh
    cases hh
  | apply hs op ih => exact ih.apply op trivial (keepsTexts_inOrder op.hlc)
  | pruneGhostsTo hs max ih => exact ih.pruneGhostsTo max
  | settleScratchStamps hs hlc ih =>
    refine keeps_texts fun t h hh => ?_
    obtain ⟨h', -, rfl⟩ := Option.map_eq_some_iff.1 hh
    exact List.pairwise_insertionSort _ _
  | adoptStamps hs hr hpath ih ihr =>
    refine keeps_texts fun t h hh => ?_
    rw [textHistory_adoptStamps] at hh
    exact ihr.texts t h hh

/-! ## One step and a run -/

/-- Stamps that all satisfy `A` are zero or satisfy `B` when those in `A` do. -/
theorem Holds.keeps {A B : Hlc → Prop} (hs : s.Holds A) (hle : ∀ {x}, A x → B x) :
    s.Keeps B (HeldBy B) :=
  ⟨fun x hx => hle (hs.stamps x hx), fun p hp q hq => hle (hs.parents p hp q hq),
    fun t f x hx => hle (hs.fields t f x hx),
    fun t g hg => ⟨.inr (hle (hs.texts t g hg).1), fun e he => hle ((hs.texts t g hg).2 e he)⟩,
    fun t l hl => ⟨fun d hd => hle ((hs.life t l hl).1 d hd),
      fun r hr => hle ((hs.life t l hl).2 r hr)⟩⟩

/-- A renaming that leaves every stamp a document holds leaves the document. -/
theorem restamp_eq_self {A : Hlc → Prop} {f : Hlc → Hlc} (hs : s.Keeps A (HeldBy A))
    (hold : ∀ {x}, A x → f x = x) (hzero : f (Hlc.zero ⟨0⟩) = Hlc.zero ⟨0⟩) : s.restamp f = s := by
  have hpair : ∀ p : Parent, (∀ q ∈ p, A q.2) → p.map (fun q => (q.1, f q.2)) = p := by
    intro p hp
    cases p with
    | none => rfl
    | some q => rw [Option.map_some, hold (hp q rfl)]
  have hopt : ∀ o : Option Hlc, (∀ x ∈ o, A x) → o.map f = o := by
    intro o ho
    cases o with
    | none => rfl
    | some x => rw [Option.map_some, hold (ho x rfl)]
  have hstamps : s.stamps.map f = s.stamps :=
    (List.map_congr_left fun x hx => hold (hs.stamps x hx)).trans (List.map_id _)
  have hparents : s.parents.map (Option.map fun q => (q.1, f q.2)) = s.parents :=
    (List.map_congr_left fun p hp => hpair p (hs.parents p hp)).trans (List.map_id _)
  have hfields : (fun t g => (s.fieldStamps t g).map f) = s.fieldStamps := by
    funext t g
    exact hopt _ fun x hx => hs.fields t g x hx
  have htexts : (fun t => (s.textHistory t).map (TextHistory.restamp f)) = s.textHistory := by
    funext t
    cases htext : s.textHistory t with
    | none => rfl
    | some g =>
      obtain ⟨hsince, hedits⟩ := hs.texts t g htext
      have hfloor : f g.since = g.since := by
        rcases hsince with h | h
        · rw [h, hzero]
        · exact hold h
      have hmap : g.edits.map (fun e => (f e.1, e.2)) = g.edits :=
        (List.map_congr_left fun e he => by rw [hold (hedits e he), id]).trans (List.map_id _)
      rw [Option.map_some, TextHistory.restamp, hfloor, hmap]
  have hlife : (fun t => (s.life t).map (Life.restamp f)) = s.life := by
    funext t
    cases hl : s.life t with
    | none => rfl
    | some l =>
      obtain ⟨hdied, hreborn⟩ := hs.life t l hl
      rw [Option.map_some, Life.restamp, hopt _ hdied, hopt _ hreborn]
  rw [restamp, hstamps, hparents, hfields, htexts, hlife]

/-- What a document holds before a commit is left alone by the renaming that settles it. -/
theorem restamp_settleStamp {P : Hlc → Prop} {at_ to_ : Hlc} (hs : s.Holds P)
    (hat : ∀ {x}, P x → x < at_) (hzero : at_ ≠ Hlc.zero ⟨0⟩) :
    s.restamp (settleStamp at_ to_) = s :=
  restamp_eq_self (hs.keeps id) (fun hx => if_neg (hat hx).ne) (if_neg hzero.symm)

/-- Settling is the renaming on a document whose histories are in order, when it keeps that order. -/
theorem settleScratchStamps_eq_restamp {A : Hlc → Prop} (hs : s.Keeps A (HeldBy A))
    (horder : s.Keeps (fun _ => True) TextHistory.InOrder)
    (hmono : ∀ {x y}, A x → A y → x ≤ y → settleStamp scratchStamp h x ≤ settleStamp scratchStamp h y) :
    s.settleScratchStamps h = s.restamp (settleStamp scratchStamp h) := by
  have htexts : (fun t => (s.textHistory t).map fun g => g.settle scratchStamp h) =
      fun t => (s.textHistory t).map (TextHistory.restamp (settleStamp scratchStamp h)) := by
    funext t
    refine Option.map_congr fun g hg => ?_
    obtain ⟨-, hedits⟩ := hs.texts t g hg
    exact TextHistory.settle_eq_restamp (horder.texts t g hg) fun e he e' he' hle =>
      hmono (hedits e he) (hedits e' he') hle
  rw [settleScratchStamps, htexts]
  rfl

/-- A document with nothing placed as scratch has nothing to settle. -/
theorem settleScratchStamps_eq_self (hs : s.Keeps (· ≠ scratchStamp) (HeldBy (· ≠ scratchStamp)))
    (horder : s.Keeps (fun _ => True) TextHistory.InOrder) : s.settleScratchStamps h = s := by
  have hold : ∀ {x}, x ≠ scratchStamp → settleStamp scratchStamp h x = x := fun hx => if_neg hx
  rw [settleScratchStamps_eq_restamp hs horder fun hx hy hle => by rwa [hold hx, hold hy],
    restamp_eq_self hs hold (if_neg (by decide))]

/-- A run goes on from the state its first op left when that op applies. -/
theorem replay_cons (s : DocState) (op : Op) (ops : List Op) :
    s.replay (op :: ops) = match s.apply op with
      | ⟨s₁, .ok ()⟩ => s₁.replay ops
      | ⟨_, .error _⟩ => none := by
  rw [replay, List.foldlM_cons]
  rcases s.apply op with ⟨s₁, e | u⟩ <;> rfl

/-- A commit's run, settled, is the run of the stamped ops from the renamed document. -/
theorem settle_replay_scratch (hscratch : h < scratchStamp) (path : FilePath) {ops : List Op}
    (hops : ∀ op ∈ ops, op.hlc = h) (hs : s.Keeps (Running h) (HeldBy (Running h)))
    (horder : s.Keeps (fun _ => True) TextHistory.InOrder) :
    (s.replay (ops.map fun op => scratchOp path op.kind)).map (settleScratchStamps · h) =
      (s.restamp (settleStamp scratchStamp h)).replay ops := by
  have hf := newest_scratch hscratch
  induction ops generalizing s with
  | nil =>
    exact congrArg some (settleScratchStamps_eq_restamp hs horder fun hx hy => (hf.le_iff hx hy).2)
  | cons op ops ih =>
    have hstep := apply_restamp hf hs (scratchOp path op.kind) op rfl (hops op List.mem_cons_self) rfl
    have hs' := hs.apply (scratchOp path op.kind) hf.mem (keepsTexts_heldBy hf.mem)
    have horder' := horder.apply (scratchOp path op.kind) trivial (keepsTexts_inOrder _)
    rw [List.map_cons, replay_cons, replay_cons, hstep]
    rcases hout : s.apply (scratchOp path op.kind) with ⟨s₁, e | u⟩
    · rfl
    · rw [hout] at hs' horder'
      exact ih (fun op hop => hops op (List.mem_cons_of_mem _ hop)) hs' horder'

/-- A commit made as scratch ops and settled at `h` leaves the document its replay as ops stamped `h`
leaves: the whole state, shown lines and merge metadata, or a refusal in both. -/
theorem commit_eq_replay (hs : Reachable s) (hnew : s.Holds (· < h)) (hscratch : h < scratchStamp)
    {ops : List Op} (hops : ∀ op ∈ ops, op.hlc = h) :
    (s.replay (ops.map fun op => scratchOp s.path op.kind)).map (settleScratchStamps · h) =
      s.replay ops := by
  have hrun := settle_replay_scratch hscratch s.path hops (hnew.keeps Or.inl) hs.keeps_inOrder
  rw [hrun, restamp_settleStamp hnew (fun hx => hx.trans hscratch) (by decide)]

/-- A document just built holds the zero stamp only. -/
theorem ofEntries_holds {A : Hlc → Prop} (hzero : A unplaced) {path : FilePath} {file : File}
    {mode : IdentityMode} {entries : List Entry} : (ofEntries path file mode entries).Holds A where
  stamps x hx := List.eq_of_mem_replicate hx ▸ hzero
  parents p hp q hq := by
    rw [List.eq_of_mem_replicate hp] at hq
    cases hq
  fields t g x hx := by cases hx
  texts t g hg := by cases hg
  life t l hl := by cases hl

/-- Two lines: the first is moved after the second, completed and deleted in one commit. -/
theorem commit_eq_replay_move :
    let first : TaskId := ⟨1, by decide⟩
    let second : TaskId := ⟨2, by decide⟩
    let file : File := ⟨[.ofText ['a'] .lf, .ofText ['b'] .lf], false, .lf, true⟩
    let s := ofEntries ⟨['f']⟩ file .sidecar
      [.task first (.ofText ['a'] .lf), .task second (.ofText ['b'] .lf)]
    let at_ : Hlc := ⟨1, 0, ⟨1⟩⟩
    let ops : List Op := [⟨⟨1⟩, at_, ⟨['f']⟩, .move first (some second) ⟨['f']⟩⟩,
      ⟨⟨2⟩, at_, ⟨['f']⟩, .setField first .completed (.bool true)⟩,
      ⟨⟨3⟩, at_, ⟨['f']⟩, .setField first .deleted (.bool true)⟩]
    (s.replay (ops.map fun op => scratchOp s.path op.kind)).map (settleScratchStamps · at_) =
      s.replay ops ∧ (s.replay ops).isSome = true := by
  intro first second file s at_ ops
  have hs : fromFile ⟨['f']⟩ file [some first, some second] .sidecar = .ok s := rfl
  have hzero : s.Holds (· < at_) := ofEntries_holds (by decide)
  refine ⟨commit_eq_replay (.fromFile hs (by decide)) hzero (by decide) (by decide), ?_⟩
  decide

end DocState

end Txtodo
