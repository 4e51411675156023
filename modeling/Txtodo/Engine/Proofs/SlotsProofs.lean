import Txtodo.Engine.Slots
import Txtodo.Std.Columns

/-!
# Proofs: the document by slots

Each operation on an aligned document is an operation on its slots.
-/

namespace Txtodo

namespace DocState

variable {s : DocState} {xs : List Slot}

/-! ## Reading a document written from slots -/

@[simp] theorem slots_withSlots (s : DocState) (xs : List Slot) : (s.withSlots xs).slots = xs := by
  simp [slots, withSlots, reindex, List.zip_map', Function.comp_def]

@[simp] theorem withSlots_entries (s : DocState) (xs : List Slot) :
    (s.withSlots xs).entries = xs.map Slot.entry := rfl

@[simp] theorem withSlots_stamps (s : DocState) (xs : List Slot) :
    (s.withSlots xs).stamps = xs.map Slot.stamp := rfl

@[simp] theorem withSlots_hidden (s : DocState) (xs : List Slot) :
    (s.withSlots xs).hidden = xs.map Slot.hidden := rfl

@[simp] theorem withSlots_parents (s : DocState) (xs : List Slot) :
    (s.withSlots xs).parents = xs.map Slot.parent := rfl

@[simp] theorem withSlots_erasers (s : DocState) (xs : List Slot) :
    (s.withSlots xs).erasers = xs.map Slot.eraser := rfl

@[simp] theorem withSlots_withSlots (s : DocState) (xs ys : List Slot) :
    (s.withSlots xs).withSlots ys = s.withSlots ys := rfl

theorem aligned_withSlots (s : DocState) (xs : List Slot) : (s.withSlots xs).Aligned where
  stamps_length := by simp
  hidden_length := by simp
  parents_length := by simp
  erasers_length := by simp
  visible_eq := rfl

/-- The columns of an aligned document's slots are its vectors. -/
theorem Aligned.columns (h : s.Aligned) :
    s.slots.map Slot.entry = s.entries ∧ s.slots.map Slot.stamp = s.stamps ∧
      s.slots.map Slot.hidden = s.hidden ∧ s.slots.map Slot.parent = s.parents ∧
      s.slots.map Slot.eraser = s.erasers := by
  obtain ⟨h1, h2, h3, h4, -⟩ := h
  have rest₁ : (s.entries.zip (s.stamps.zip (s.hidden.zip (s.parents.zip s.erasers)))).map Prod.snd =
      s.stamps.zip (s.hidden.zip (s.parents.zip s.erasers)) :=
    List.map_snd_zip (by simp [h1, h2, h3, h4])
  have rest₂ : (s.stamps.zip (s.hidden.zip (s.parents.zip s.erasers))).map Prod.snd =
      s.hidden.zip (s.parents.zip s.erasers) := List.map_snd_zip (by simp [h1, h2, h3, h4])
  have rest₃ : (s.hidden.zip (s.parents.zip s.erasers)).map Prod.snd = s.parents.zip s.erasers :=
    List.map_snd_zip (by simp [h2, h3, h4])
  refine ⟨?_, ?_, ?_, ?_, ?_⟩
  · simp only [slots, List.map_map, Function.comp_def]
    exact List.map_fst_zip (by simp [h1, h2, h3, h4])
  · calc s.slots.map Slot.stamp
        = ((s.entries.zip (s.stamps.zip (s.hidden.zip (s.parents.zip s.erasers)))).map
            Prod.snd).map Prod.fst := by simp [slots, Function.comp_def]
      _ = s.stamps := by rw [rest₁]; exact List.map_fst_zip (by simp [h1, h2, h3, h4])
  · calc s.slots.map Slot.hidden
        = (((s.entries.zip (s.stamps.zip (s.hidden.zip (s.parents.zip s.erasers)))).map
            Prod.snd).map Prod.snd).map Prod.fst := by simp [slots, Function.comp_def]
      _ = s.hidden := by rw [rest₁, rest₂]; exact List.map_fst_zip (by simp [h2, h3, h4])
  · calc s.slots.map Slot.parent
        = ((((s.entries.zip (s.stamps.zip (s.hidden.zip (s.parents.zip s.erasers)))).map
            Prod.snd).map Prod.snd).map Prod.snd).map Prod.fst := by
          simp [slots, Function.comp_def]
      _ = s.parents := by rw [rest₁, rest₂, rest₃]; exact List.map_fst_zip (by simp [h3, h4])
  · calc s.slots.map Slot.eraser
        = ((((s.entries.zip (s.stamps.zip (s.hidden.zip (s.parents.zip s.erasers)))).map
            Prod.snd).map Prod.snd).map Prod.snd).map Prod.snd := by
          simp [slots, Function.comp_def]
      _ = s.erasers := by rw [rest₁, rest₂, rest₃]; exact List.map_snd_zip (by simp [h3, h4])

/-- An aligned document is written from its own slots. -/
theorem Aligned.withSlots_slots (h : s.Aligned) : s.withSlots s.slots = s := by
  obtain ⟨h1, h2, h3, h4, h5⟩ := h.columns
  simp only [withSlots, reindex, h1, h2, h3, h4, h5]
  rw [← h.visible_eq]

/-- The slots shown. -/
theorem withSlots_visible (s : DocState) (xs : List Slot) :
    (s.withSlots xs).visible =
      (List.range xs.length).filter fun i => (xs[i]?.map Slot.hidden) = some false := by
  simp [withSlots, reindex]

theorem withSlots_visibleEntries (s : DocState) (xs : List Slot) :
    (s.withSlots xs).visibleEntries = (xs.filter fun x => !x.hidden).map Slot.entry := by
  have hpick : (List.range xs.length).filter (fun i => decide (xs[i]?.map Slot.hidden = some false)) =
      (List.range xs.length).filter fun i => xs[i]?.any fun x => !x.hidden := by
    refine List.filter_congr fun i _ => ?_
    cases xs[i]? <;> simp
  rw [visibleEntries, withSlots_visible, hpick, withSlots_entries,
    ← Columns.filterMap_range_filter (fun x : Slot => !x.hidden) xs, List.map_filterMap]
  exact List.filterMap_congr fun i _ => by simp

/-! ## Writing slots -/

/-- Five vectors that are the columns of `ys`, reindexed. -/
theorem reindex_columns (s : DocState) {ys : List Slot} {entries : List Entry} {hidden : List Bool}
    {stamps : List Hlc} {parents : List Parent} {erasers : List Bool}
    (hentry : ys.map Slot.entry = entries) (hhidden : ys.map Slot.hidden = hidden)
    (hstamp : ys.map Slot.stamp = stamps) (hparent : ys.map Slot.parent = parents)
    (heraser : ys.map Slot.eraser = erasers) :
    { s with
      entries := entries, hidden := hidden, stamps := stamps, parents := parents
      erasers := erasers }.reindex = s.withSlots ys := by
  subst hentry hhidden hstamp hparent heraser
  rfl

@[simp] theorem insertEntry_withSlots (spot : Spot) (e : Entry) (at_ : Hlc) :
    (s.withSlots xs).insertEntry spot e at_ =
      s.withSlots (xs.insertIdx spot.at_ ⟨e, at_, false, spot.parent, false⟩) :=
  reindex_columns s (Columns.map_insertIdx ..) (Columns.map_insertIdx ..)
    (Columns.map_insertIdx ..) (Columns.map_insertIdx ..) (Columns.map_insertIdx ..)

/-- Writing the hidden column only. -/
theorem setHidden_withSlots {ys : List Slot} {hidden : List Bool}
    (hhidden : ys.map Slot.hidden = hidden)
    (hrest : ∀ {β : Type} (g : Slot → β), (∀ b x, g (Slot.withHidden b x) = g x) →
      ys.map g = xs.map g) :
    { s.withSlots xs with hidden := hidden }.reindex = s.withSlots ys :=
  reindex_columns s (hrest Slot.entry fun _ _ => rfl) hhidden (hrest Slot.stamp fun _ _ => rfl)
    (hrest Slot.parent fun _ _ => rfl) (hrest Slot.eraser fun _ _ => rfl)

/-- Showing or hiding one slot changes the hidden column only. -/
theorem map_modify_withHidden {β : Type} (g : Slot → β) (hg : ∀ b x, g (Slot.withHidden b x) = g x)
    (xs : List Slot) (slot : Nat) (b : Bool) :
    (xs.modify slot (Slot.withHidden b)).map g = xs.map g :=
  Columns.map_modify_eq (hg b) slot xs

theorem hidden_modify_withHidden (xs : List Slot) (slot : Nat) (b : Bool) :
    (xs.modify slot (Slot.withHidden b)).map Slot.hidden = (xs.map Slot.hidden).set slot b :=
  Columns.map_modify_set (f := Slot.withHidden b) (fun _ => rfl) slot xs

@[simp] theorem hideEntry_withSlots (slot : Nat) :
    (s.withSlots xs).hideEntry slot = s.withSlots (xs.modify slot (Slot.withHidden true)) :=
  setHidden_withSlots (hidden_modify_withHidden ..) fun g hg => map_modify_withHidden g hg ..

/-- Writing without reindexing is the same when no slot is shown or hidden by it. -/
theorem columns_eq_withSlots (s : DocState) {ys : List Slot} {entries : List Entry}
    {stamps : List Hlc} {parents : List Parent} {erasers : List Bool}
    (hentry : ys.map Slot.entry = entries) (hhidden : ys.map Slot.hidden = xs.map Slot.hidden)
    (hstamp : ys.map Slot.stamp = stamps) (hparent : ys.map Slot.parent = parents)
    (heraser : ys.map Slot.eraser = erasers) :
    { s.withSlots xs with
      entries := entries, stamps := stamps, parents := parents, erasers := erasers } =
      s.withSlots ys := by
  subst hentry hstamp hparent heraser
  have hlen : ys.length = xs.length := by simpa using congrArg List.length hhidden
  simp only [withSlots, reindex, hhidden, hlen, List.length_map]

@[simp] theorem replaceEntry_withSlots (slot : Nat) (e : Entry) :
    (s.withSlots xs).replaceEntry slot e = s.withSlots (xs.modify slot (Slot.withEntry e)) :=
  columns_eq_withSlots s (Columns.map_modify_set (f := Slot.withEntry e) (fun _ => rfl) ..)
    (Columns.map_modify_eq (f := Slot.withEntry e) (fun _ => rfl) ..)
    (Columns.map_modify_eq (f := Slot.withEntry e) (fun _ => rfl) ..)
    (Columns.map_modify_eq (f := Slot.withEntry e) (fun _ => rfl) ..)
    (Columns.map_modify_eq (f := Slot.withEntry e) (fun _ => rfl) ..)

theorem map_moveRange {α β : Type} (g : α → β) (f : List α → List α) (f' : List β → List β)
    (h : ∀ block, (f block).map g = f' (block.map g)) (head stop at_ : Nat) (l : List α) :
    (moveRange head stop at_ f l).map g = moveRange head stop at_ f' (l.map g) := by
  simp only [moveRange, List.map_append, List.map_take, List.map_drop, h]

theorem moveBlock_withSlots (head : Nat) (task : TaskId) (placed : Hlc) :
    (s.withSlots xs).moveBlock head task placed =
      (Slots.moveBlock xs head task placed).map s.withSlots := by
  simp only [moveBlock, Slots.moveBlock, slots_withSlots, Option.map_map, Function.comp_def]
  congr 1
  funext ⟨stop, at_⟩
  have hsame : ∀ {β : Type} (g : Slot → β), (∀ x, g (Slot.withParent (some (task, placed)) x) = g x) →
      ∀ block : List Slot,
        (block.modify 0 (Slot.withParent (some (task, placed)))).map g = id (block.map g) :=
    fun g hg block => Columns.map_modify_eq hg 0 block
  exact reindex_columns s (map_moveRange _ _ _ (hsame Slot.entry fun _ => rfl) ..)
    (map_moveRange _ _ _ (hsame Slot.hidden fun _ => rfl) ..)
    (map_moveRange _ _ _ (hsame Slot.stamp fun _ => rfl) ..)
    (map_moveRange _ _ _ (fun block => Columns.map_modify_set
      (f := Slot.withParent (some (task, placed))) (fun _ => rfl) 0 block) ..)
    (map_moveRange _ _ _ (hsame Slot.eraser fun _ => rfl) ..)

theorem rehomePasses_withSlots (task : TaskId) (placed : Hlc) (n : Nat) (xs : List Slot) :
    rehomePasses task placed n (s.withSlots xs) =
      s.withSlots (Slots.rehomePasses task placed n xs) := by
  induction n generalizing xs with
  | zero => rfl
  | succ n ih =>
    simp only [rehomePasses, Slots.rehomePasses, slots_withSlots]
    cases hhead : Slots.lastHead xs task placed with
    | none => rfl
    | some head =>
      simp only [Option.bind_some, moveBlock_withSlots]
      cases Slots.moveBlock xs head task placed with
      | none => rfl
      | some ys => exact ih ys

@[simp] theorem rehomeOnto_withSlots (task : TaskId) (placed : Hlc) :
    (s.withSlots xs).rehomeOnto task placed = s.withSlots (Slots.rehomeOnto xs task placed) := by
  rw [rehomeOnto, rehomePasses_withSlots, withSlots_entries, List.length_map, Slots.rehomeOnto]

theorem settledHidden_eq (xs : List Slot) (claimed : List Nat) :
    Slots.settledHidden xs claimed =
      (xs.zipIdx.map (Slots.settleBlank claimed)).map Slot.hidden := by
  simp only [Slots.settledHidden, List.map_map]
  refine List.map_congr_left fun x _ => ?_
  simp only [Function.comp_def, Slots.settleBlank]
  split_ifs <;> simp_all [Slot.withHidden]

/-- Settling the blanks changes no other column. -/
theorem map_settleBlank {α : Type} (g : Slot → α) (hg : ∀ b x, g (Slot.withHidden b x) = g x)
    (claimed : List Nat) (xs : List Slot) :
    (xs.zipIdx.map (Slots.settleBlank claimed)).map g = xs.map g := by
  have hpoint : ∀ x : Slot × Nat, g (Slots.settleBlank claimed x) = g x.1 := by
    intro x
    unfold Slots.settleBlank
    split_ifs <;> simp [hg]
  calc (xs.zipIdx.map (Slots.settleBlank claimed)).map g
      = xs.zipIdx.map fun x => g x.1 := by
        rw [List.map_map]
        exact List.map_congr_left fun x _ => hpoint x
    _ = (xs.zipIdx.map Prod.fst).map g := by rw [List.map_map]; rfl
    _ = xs.map g := by rw [List.zipIdx_map_fst]

@[simp] theorem settleErasers_withSlots :
    (s.withSlots xs).settleErasers = s.withSlots (Slots.settleErasers xs) := by
  have hany : true ∉ (s.withSlots xs).erasers ↔ ¬xs.any Slot.eraser = true := by
    simp
  unfold settleErasers Slots.settleErasers
  by_cases he : xs.any Slot.eraser = true
  · rw [if_neg (hany.not.2 (not_not.2 he)), if_pos he]
    simp only [claims, slots_withSlots, settledHidden_eq]
    split_ifs with hsame
    · exact columns_eq_withSlots s (map_settleBlank Slot.entry (fun _ _ => rfl) ..) hsame
        (map_settleBlank Slot.stamp (fun _ _ => rfl) ..)
        (map_settleBlank Slot.parent (fun _ _ => rfl) ..)
        (map_settleBlank Slot.eraser (fun _ _ => rfl) ..)
    · exact setHidden_withSlots rfl fun g hg => map_settleBlank g hg ..
  · rw [if_pos (hany.2 he), if_neg he]

@[simp] theorem showNewest_withSlots (task : TaskId) (added : Nat) :
    (s.withSlots xs).showNewest task added = s.withSlots (Slots.showNewest xs task added) := by
  simp only [showNewest, Slots.showNewest, slots_withSlots, liveSlot]
  split_ifs
  · rfl
  · cases Slots.liveSlot xs task <;>
      cases Iter.maxByKey (fun x => toLex (x.1.stamp, decide (x.2 = added)))
        (Slots.placements xs task)
    · rfl
    · exact setHidden_withSlots (hidden_modify_withHidden ..) fun g hg =>
        map_modify_withHidden g hg ..
    · exact setHidden_withSlots (hidden_modify_withHidden ..) fun g hg =>
        map_modify_withHidden g hg ..
    · refine setHidden_withSlots ?_ fun g hg =>
        (map_modify_withHidden g hg ..).trans (map_modify_withHidden g hg ..)
      exact (hidden_modify_withHidden ..).trans
        (congrArg (List.set · _ false) (hidden_modify_withHidden ..))

@[simp] theorem setLines_withSlots (task : TaskId) (line : OwnedLine) :
    (s.withSlots xs).setLines task line = s.withSlots (Slots.setLines xs task line) := by
  have hcol : ∀ {β : Type} (g : Slot → β), (∀ e x, g (Slot.withEntry e x) = g x) →
      (Slots.setLines xs task line).map g = xs.map g := by
    intro β g hg
    simp only [Slots.setLines, List.map_map, Function.comp_def]
    refine List.map_congr_left fun x _ => ?_
    split_ifs <;> simp [hg]
  have hentry : (Slots.setLines xs task line).map Slot.entry =
      (xs.map Slot.entry).map fun e => if e.id = some task then .task task line else e := by
    simp only [Slots.setLines, List.map_map, Function.comp_def]
    refine List.map_congr_left fun x _ => ?_
    by_cases hid : x.id = some task
    · have hid' : x.entry.id = some task := hid
      simp [hid, hid', Slot.withEntry]
    · have hid' : x.entry.id ≠ some task := hid
      simp [hid, hid']
  exact columns_eq_withSlots s hentry (hcol Slot.hidden fun _ _ => rfl)
    (hcol Slot.stamp fun _ _ => rfl) (hcol Slot.parent fun _ _ => rfl)
    (hcol Slot.eraser fun _ _ => rfl)

/-- The eraser a `BlankRemove` places: hidden from the start. -/
theorem placeEraser_withSlots (spot : Spot) (e : Entry) (at_ : Hlc) :
    { (s.withSlots xs).insertEntry spot e at_ with
      erasers := ((s.withSlots xs).insertEntry spot e at_).erasers.set spot.at_ true }.hideEntry
        spot.at_ =
      s.withSlots (xs.insertIdx spot.at_ ⟨e, at_, true, spot.parent, true⟩) := by
  let placed : Slot := ⟨e, at_, false, spot.parent, false⟩
  have herase : { s.withSlots (xs.insertIdx spot.at_ placed) with
      erasers := (s.withSlots (xs.insertIdx spot.at_ placed)).erasers.set spot.at_ true } =
      s.withSlots (xs.insertIdx spot.at_ { placed with eraser := true }) := by
    have hcol : ∀ {β : Type} (g : Slot → β), (∀ x, g { x with eraser := true } = g x) →
        (xs.insertIdx spot.at_ { placed with eraser := true }).map g =
          (xs.insertIdx spot.at_ placed).map g := fun g hg => by
      rw [Columns.map_insertIdx, Columns.map_insertIdx, hg]
    refine columns_eq_withSlots s (hcol Slot.entry fun _ => rfl) (hcol Slot.hidden fun _ => rfl)
      (hcol Slot.stamp fun _ => rfl) (hcol Slot.parent fun _ => rfl) ?_
    rw [← Columns.modify_insertIdx fun x : Slot => { x with eraser := true }]
    exact Columns.map_modify_set (f := fun x : Slot => { x with eraser := true }) (fun _ => rfl) ..
  rw [insertEntry_withSlots, herase, hideEntry_withSlots, Columns.modify_insertIdx]
  rfl

/-! ## Metadata kept by task -/

@[simp] theorem setHistory_withSlots (task : TaskId) (h : Option TextHistory) :
    (s.withSlots xs).setHistory task h = (s.setHistory task h).withSlots xs := rfl

@[simp] theorem recordField_withSlots (task : TaskId) (field : Field) (at_ : Hlc) :
    (s.withSlots xs).recordField task field at_ = (s.recordField task field at_).withSlots xs := rfl

@[simp] theorem noteRebirth_withSlots (task : TaskId) (at_ : Hlc) :
    (s.withSlots xs).noteRebirth task at_ = (s.noteRebirth task at_).withSlots xs := rfl

/-! ## Pruning, settling, adopting -/

theorem map_removeAt {α β : Type} (g : α → β) (drop : List Nat) (l : List α) :
    (removeAt drop l).map g = removeAt drop (l.map g) := by
  simp only [removeAt, List.zipIdx_map, List.filter_map, List.map_map, Function.comp_def]
  rfl

theorem pruneGhostsTo_withSlots {max : Nat} (h : max < (s.withSlots xs).ghosts) :
    let ys := removeAt (Slots.toDrop xs ((s.withSlots xs).ghosts - max)) xs
    (s.withSlots xs).pruneGhostsTo max = (s.forgetAbsent ys).withSlots ys := by
  intro ys
  have hpresent : ∀ t : TaskId, ((removeAt (Slots.toDrop xs ((s.withSlots xs).ghosts - max))
      (s.withSlots xs).entries).any fun e => e.id = some t) = Slots.hasPlacement ys t := by
    intro t
    rw [withSlots_entries, ← map_removeAt, List.any_map]
    rfl
  rw [pruneGhostsTo, if_neg (not_le.2 h)]
  simp only [slots_withSlots, hpresent]
  exact reindex_columns (s.forgetAbsent ys) (map_removeAt ..) (map_removeAt ..) (map_removeAt ..)
    (map_removeAt ..) (map_removeAt ..)

theorem settleScratchStamps_withSlots (at_ : Hlc) :
    (s.withSlots xs).settleScratchStamps at_ =
      (s.settleScratchStamps at_).withSlots (xs.map (Slot.settle at_)) := by
  have hcol : ∀ {β : Type} (g : Slot → β), (∀ x, g (Slot.settle at_ x) = g x) →
      (xs.map (Slot.settle at_)).map g = xs.map g := fun g hg => by
    rw [List.map_map]
    exact List.map_congr_left fun x _ => hg x
  refine columns_eq_withSlots (s.settleScratchStamps at_) (hcol Slot.entry fun _ => rfl)
    (hcol Slot.hidden fun _ => rfl) ?_ ?_ (hcol Slot.eraser fun _ => rfl)
  · rw [withSlots_stamps, List.map_map, List.map_map]
    rfl
  · rw [withSlots_parents, List.map_map, List.map_map]
    rfl

end DocState

end Txtodo
