import Txtodo.Engine.Proofs.PlacedProofs
import Txtodo.Engine.Proofs.PruneProofs

/-!
# Proofs: what an op leaves alone

An op on one task moves, hides and drops no placement of another: it keeps the other's slots (their parents
apart) and its metadata. Only a prune drops some, and those are not shown.
-/

namespace Txtodo

namespace Slots

variable {xs ys zs : List Slot} {t task : TaskId}

/-- The placements of a task, the parents apart: a block moves with the task it follows. -/
def held (xs : List Slot) (t : TaskId) : List Slot :=
  (xs.map (Slot.withParent none)).filter fun x => x.id = some t

theorem mem_held {x : Slot} : x ∈ held xs t ↔ ∃ y ∈ xs, y.id = some t ∧ y.withParent none = x := by
  rw [held, List.mem_filter, List.mem_map]
  constructor
  · rintro ⟨⟨y, hy, rfl⟩, hid⟩
    exact ⟨y, hy, of_decide_eq_true hid, rfl⟩
  · rintro ⟨y, hy, hid, rfl⟩
    exact ⟨⟨y, hy, rfl⟩, decide_eq_true hid⟩

theorem held_perm (h : (ys.map (Slot.withParent none)).Perm (xs.map (Slot.withParent none))) (t : TaskId) :
    (held ys t).Perm (held xs t) := h.filter _

theorem hasPlacement_iff_held : hasPlacement xs t = true ↔ held xs t ≠ [] := by
  rw [hasPlacement_iff]
  constructor
  · rintro ⟨x, hx, hid⟩
    exact List.ne_nil_of_mem (mem_held.2 ⟨x, hx, hid, rfl⟩)
  · intro hne
    obtain ⟨x, hx⟩ := List.exists_mem_of_ne_nil _ hne
    obtain ⟨y, hy, hid, -⟩ := mem_held.1 hx
    exact ⟨y, hy, hid⟩

theorem held_append (xs ys : List Slot) (t : TaskId) : held (xs ++ ys) t = held xs t ++ held ys t := by
  rw [held, List.map_append, List.filter_append]
  rfl

/-- The slots are looked at one by one. -/
theorem held_eq_flatMap (xs : List Slot) (t : TaskId) : held xs t = xs.flatMap fun x => held [x] t := by
  induction xs with
  | nil => rfl
  | cons x xs ih =>
    rw [List.flatMap_cons, ← ih, ← held_append]
    rfl

theorem held_cons_of_ne {x : Slot} (h : x.id ≠ some t) : held (x :: xs) t = held xs t := by
  rw [held, List.map_cons, List.filter_cons_of_neg]
  · rfl
  · exact fun hid => h (of_decide_eq_true hid)

/-! ## One write -/

/-- A slot of another task, wherever it is put. -/
theorem held_insertIdx {x : Slot} (h : x.id ≠ some t) (i : Nat) : (held (xs.insertIdx i x) t).Perm (held xs t) := by
  by_cases hi : i ≤ xs.length
  · have hperm := held_perm ((List.perm_insertIdx x xs hi).map (Slot.withParent none)) t
    rwa [held_cons_of_ne h] at hperm
  · rw [List.insertIdx_of_length_lt (not_le.1 hi)]

/-- A slot of another task, however it is changed. -/
theorem held_modify {f : Slot → Slot} {i : Nat}
    (h : ∀ x, xs[i]? = some x → x.id ≠ some t ∧ (f x).id ≠ some t) :
    (held (xs.modify i f) t).Perm (held xs t) := by
  cases hi : xs[i]? with
  | none => rw [Columns.modify_of_none f hi]
  | some x =>
    obtain ⟨rest, hp, hp'⟩ := Columns.modify_perm f hi
    have hleft := held_perm (hp'.map (Slot.withParent none)) t
    have hright := held_perm (hp.map (Slot.withParent none)) t
    rw [held_cons_of_ne (h x hi).2] at hleft
    rw [held_cons_of_ne (h x hi).1] at hright
    exact hleft.trans hright.symm

/-- A placement of another task shown or hidden. -/
theorem held_withHidden {i : Nat} {x : Slot} (hx : xs[i]? = some x) (h : x.id ≠ some t) (b : Bool) :
    (held (xs.modify i (Slot.withHidden b)) t).Perm (held xs t) := by
  refine held_modify fun y hy => ?_
  obtain rfl := Option.some.inj (hx.symm.trans hy)
  exact ⟨h, h⟩

theorem ne_of_shows {x : Slot} (hx : x.shows task = true) (h : task ≠ t) : x.id ≠ some t := by
  rw [(Slot.shows_iff.1 hx).2]
  exact fun heq => h (Option.some.inj heq)

theorem held_hide {l : Nat} (hl : liveSlot xs task = some l) (h : task ≠ t) :
    (held (xs.modify l (Slot.withHidden true)) t).Perm (held xs t) := by
  obtain ⟨x, hx, hshows⟩ := liveSlot_spec hl
  exact held_withHidden hx (ne_of_shows hshows h) true

theorem held_rehomeOnto (task : TaskId) (placed : Hlc) (t : TaskId) :
    (held (rehomeOnto xs task placed) t).Perm (held xs t) :=
  held_perm (rehomePasses_perm (fun _ _ => rfl) task placed _ xs) t

theorem held_setLines (h : task ≠ t) (line : OwnedLine) : held (setLines xs task line) t = held xs t := by
  rw [held_eq_flatMap, setLines, List.flatMap_map, held_eq_flatMap xs]
  refine List.flatMap_congr fun x _ => ?_
  by_cases hid : x.id = some task
  · have hne : x.id ≠ some t := fun heq => h (Option.some.inj (hid.symm.trans heq))
    have hne' : (x.withEntry (.task task line)).id ≠ some t := fun heq => h (Option.some.inj heq)
    rw [if_pos hid, held_cons_of_ne hne, held_cons_of_ne hne']
  · rw [if_neg hid]

theorem held_showNewest (h : task ≠ t) (added : Nat) : (held (showNewest xs task added) t).Perm (held xs t) := by
  have hne : ∀ {x : Slot}, x.id = some task → x.id ≠ some t := fun hid heq =>
    h (Option.some.inj (hid.symm.trans heq))
  rw [showNewest]
  split_ifs
  · exact .refl _
  · cases hnew : Iter.maxByKey (fun x : Slot × Nat => toLex (x.1.stamp, decide (x.2 = added)))
        (placements xs task) with
    | none =>
      cases hl : liveSlot xs task with
      | none => exact .refl _
      | some l => exact held_hide hl h
    | some m =>
      obtain ⟨hm, hid⟩ := mem_placements.1 (Iter.maxByKey_mem hnew)
      cases hl : liveSlot xs task with
      | none => exact held_withHidden hm (hne hid) false
      | some l =>
        refine .trans (held_modify fun y hy => ?_) (held_hide hl h)
        obtain ⟨z, hz, hcase⟩ : ∃ z, xs[m.2]? = some z ∧ y.id = z.id := by
          rw [Option.elim_some, List.getElem?_modify] at hy
          split at hy
          · obtain ⟨z, hz, rfl⟩ := Option.map_eq_some_iff.1 hy
            exact ⟨z, hz, rfl⟩
          · obtain ⟨z, hz, rfl⟩ := Option.map_eq_some_iff.1 hy
            exact ⟨z, hz, rfl⟩
        obtain rfl := Option.some.inj (hm.symm.trans hz)
        exact ⟨hcase ▸ hne hid, show y.id ≠ _ from hcase ▸ hne hid⟩

/-- Settling erasers shows and hides blanks. -/
theorem held_settleErasers (xs : List Slot) (t : TaskId) : held (settleErasers xs) t = held xs t := by
  have hpoint : ∀ (claimed : List Nat) (y : Slot × Nat), held [settleBlank claimed y] t = held [y.1] t :=
    fun claimed y => by
      rw [settleBlank]
      split_ifs with hblank
      · have hid : y.1.id = none := Slot.id_eq_none_iff.2 (by simpa using (Bool.and_eq_true_iff.1 hblank).1)
        have hne : y.1.id ≠ some t := by simp [hid]
        have hne' : (y.1.withHidden (decide (y.2 ∈ claimed))).id ≠ some t := hne
        rw [held_cons_of_ne hne, held_cons_of_ne hne']
      · rfl
  rw [settleErasers]
  split_ifs
  · rw [held_eq_flatMap, List.flatMap_map, held_eq_flatMap xs]
    simp only [hpoint]
    conv_rhs => rw [← List.zipIdx_map_fst 0 xs, List.flatMap_map]
  · rfl

/-- A prune drops no shown placement of a task. -/
theorem shown_prune (excess : Nat) :
    (held (removeAt (toDrop xs excess) xs) t).filter (fun x => !x.hidden) = (held xs t).filter fun x => !x.hidden := by
  have hshown : ∀ l : List Slot, (held l t).filter (fun x => !x.hidden) =
      (l.filter (Slot.shows t)).map (Slot.withParent none) := fun l => by
    rw [held, List.filter_filter, List.filter_map]
    rfl
  rw [hshown, hshown]
  congr 1
  rw [removeAt_eq_restOf]
  refine filter_restOf _ fun p hp hdrop => ?_
  rw [← Bool.not_eq_true]
  intro hshows
  obtain ⟨hhidden, hid⟩ := Slot.shows_iff.1 hshows
  rcases mem_toDrop hdrop with ⟨x, hx, hghost⟩ | ⟨e, -, hclaim⟩
  · obtain rfl := eq_of_zipIdx hp hx
    rw [hghost.1] at hhidden
    cases hhidden
  · have htask : p.1.isBlank = false := by
      rw [← Bool.not_eq_true, ← Slot.id_eq_none_iff, hid]
      exact Option.some_ne_none _
    exact task_not_claimed hp htask (List.mem_map.2 ⟨_, hclaim, rfl⟩)

theorem held_sublist (h : ys.Sublist xs) (t : TaskId) : (held ys t).Sublist (held xs t) := (h.map _).filter _

end Slots

namespace DocState

variable {s s' s'' : DocState} {task t : TaskId}

/-- `s'` has the placements of `t` that `s` has, and its metadata. -/
structure Spares (t : TaskId) (s s' : DocState) : Prop where
  held : (Slots.held s'.slots t).Perm (Slots.held s.slots t)
  fieldStamps : s'.fieldStamps t = s.fieldStamps t
  textHistory : s'.textHistory t = s.textHistory t
  life : s'.life t = s.life t

namespace Spares

theorem refl (t : TaskId) (s : DocState) : Spares t s s := ⟨.refl _, rfl, rfl, rfl⟩

theorem trans (h : Spares t s s') (h' : Spares t s' s'') : Spares t s s'' :=
  ⟨h'.held.trans h.held, h'.fieldStamps.trans h.fieldStamps, h'.textHistory.trans h.textHistory, h'.life.trans h.life⟩

/-- Other metadata and other slots. -/
theorem of_slots {u v : DocState} {xs ys : List Slot} (hheld : (Slots.held ys t).Perm (Slots.held xs t))
    (hfields : v.fieldStamps t = u.fieldStamps t) (htext : v.textHistory t = u.textHistory t)
    (hlife : v.life t = u.life t) : Spares t (u.withSlots xs) (v.withSlots ys) := by
  refine ⟨?_, hfields, htext, hlife⟩
  rwa [slots_withSlots, slots_withSlots]

theorem hideEntry (hs : s.Sound) {slot : Nat} (hlive : s.liveSlot task = some slot) (h : task ≠ t) :
    Spares t s (s.hideEntry slot) := by
  obtain ⟨u, xs, rfl⟩ := hs.aligned.exists_slots
  rw [liveSlot, slots_withSlots] at hlive
  rw [hideEntry_withSlots]
  exact of_slots (Slots.held_hide hlive h) rfl rfl rfl

theorem setHistory (h : t ≠ task) (s : DocState) (history : Option TextHistory) :
    Spares t s (s.setHistory task history) := ⟨.refl _, rfl, setKey_of_ne _ _ h, rfl⟩

end Spares

/-! ## Field stamps -/

theorem recordField_of_ne (h : t ≠ task) (s : DocState) (field : Field) (at_ : Hlc) :
    (s.recordField task field at_).fieldStamps t = s.fieldStamps t := by
  funext f
  exact if_neg fun heq => h heq.1

theorem foldl_recordField_of_ne (h : t ≠ task) (fields : List Field) (s : DocState) (at_ : Hlc) :
    (fields.foldl (fun s f => s.recordField task f at_) s).fieldStamps t = s.fieldStamps t := by
  induction fields generalizing s with
  | nil => rfl
  | cons f fields ih => exact (ih _).trans (recordField_of_ne h s f at_)

theorem setField_fieldStamps (h : t ≠ task) (s : DocState) (field : Field) (value : FieldValue) (at_ : Hlc) :
    (s.setField task field value at_).state.fieldStamps t = s.fieldStamps t := by
  by_cases hdeleted : field = .deleted
  · rw [setField, if_pos hdeleted]
    rcases setDeleted_outcome (s := s) task value at_ with ⟨e, he⟩ | ⟨s', he, -, rfl⟩
    · rw [he]
      rfl
    · rw [he]
      show DocState.fieldStamps _ t = _
      split
      · split_ifs
        · rfl
        · rfl
      · rfl
  rw [setField, if_neg hdeleted]
  split
  · rfl
  split
  · rfl
  rename_i line hline
  generalize (if field = .priority ∧ value = .priority none then doneDescription line else none) = done
  split_ifs
  · rw [setStaleField]
    split
    · rfl
    · rfl
  cases done with
  | some description =>
    obtain ⟨history, hh⟩ := clearPriInDescription_state s task description
    dsimp only
    unfold clearDonePriority
    rcases hclear : s.clearPriInDescription task description with ⟨s₁, held⟩
    obtain rfl : s₁ = s.setHistory task history := by rw [hclear] at hh; exact hh
    dsimp only
    split
    · rfl
    · exact recordField_of_ne h _ _ _
  | none =>
    dsimp only
    rw [setPrefixField]
    split
    · rfl
    · rename_i newLine hnew
      obtain ⟨history, hh⟩ := keepInHistory_state s task line newLine at_
      split_ifs
      · exact recordField_of_ne h _ _ _
      · rcases hkeep : s.keepInHistory task line newLine at_ with ⟨s₁, kept⟩
        obtain rfl : s₁ = s.setHistory task history := by rw [hkeep] at hh; exact hh
        exact recordField_of_ne h _ _ _

theorem editText_fieldStamps (s : DocState) (task : TaskId) (edits : List TextEdit) (at_ : Hlc) :
    (s.editText task edits at_).state.fieldStamps = s.fieldStamps := by
  rw [editText]
  split
  · rfl
  split
  · rfl
  split
  · rfl
  rename_i description hdescription
  obtain ⟨history, hh⟩ := editDescription_state s task description at_ edits
  rcases hedit : s.editDescription task description at_ edits with ⟨s₁, _ | text⟩
  · obtain rfl : s₁ = s.setHistory task history := by rw [hedit] at hh; exact hh
    rfl
  · obtain rfl : s₁ = s.setHistory task history := by rw [hedit] at hh; exact hh
    dsimp only
    split
    · rfl
    · rfl

theorem removeTag_fieldStamps (s : DocState) (task : TaskId) (key : Text) (at_ : Hlc) :
    (s.removeTag task key at_).state.fieldStamps = s.fieldStamps := by
  rw [removeTag]
  split_ifs
  · rfl
  split
  · rfl
  split
  · rfl
  split
  · rfl
  dsimp only
  split
  · rfl
  · rfl

theorem mergedLine_fieldStamps (h : t ≠ task) (s : DocState) (current inserted : OwnedLine) (at_ : Hlc) :
    (s.mergedLine task current inserted at_).1.fieldStamps t = s.fieldStamps t := by
  rw [mergedLine]
  dsimp only
  split
  · rfl
  split
  · rfl
  split
  · rfl
  · exact foldl_recordField_of_ne h _ _ at_

/-- Placing the task again records no field. -/
theorem placeAgain_fieldStamps (s : DocState) (task : TaskId) (spot : Spot) (merged : OwnedLine) (at_ : Hlc) :
    (s.placeAgain task spot merged at_).fieldStamps = s.fieldStamps := by
  have hrehome : ∀ (n : Nat) (s : DocState), (rehomePasses task at_ n s).fieldStamps = s.fieldStamps := fun n => by
    induction n with
    | zero => exact fun _ => rfl
    | succ n ih =>
      intro s
      rw [rehomePasses]
      split
      · rfl
      · rename_i s₁ hmove
        obtain ⟨head, -, hblock⟩ := Option.bind_eq_some_iff.1 hmove
        obtain ⟨spot, -, rfl⟩ := Option.map_eq_some_iff.1 hblock
        exact ih _
  have hshow : ∀ (s : DocState) (added : Nat), (s.showNewest task added).fieldStamps = s.fieldStamps :=
    fun s added => by
      rw [showNewest]
      dsimp only
      split_ifs
      · rfl
      · rfl
  unfold placeAgain
  dsimp only
  rw [rehomeOnto, hrehome]
  split_ifs
  · exact hshow _ _
  · rfl

theorem insert_fieldStamps (h : t ≠ task) (s : DocState) (after : Option TaskId) (line : Text) (at_ : Hlc) :
    (s.insert task after line at_).state.fieldStamps t = s.fieldStamps t := by
  rw [insert]
  dsimp only
  split_ifs
  · rfl
  · rfl
  · rw [reinsert]
    split
    · rfl
    split
    · rfl
    rename_i current hcurrent
    have hmerged := mergedLine_fieldStamps h s current (OwnedLine.ofText line s.ending) at_
    split
    · rename_i s₁ e hline
      rw [hline] at hmerged
      exact hmerged
    · rename_i s₁ merged hline
      rw [hline] at hmerged
      exact (congrFun (placeAgain_fieldStamps ..) t).trans hmerged
  · split
    · rfl
    · rfl

/-! ## One op -/

theorem Rewrites.spares (hr : Rewrites task s s') (hs : s.Sound) (h : task ≠ t)
    (hfields : s'.fieldStamps t = s.fieldStamps t) : Spares t s s' := by
  obtain ⟨history, slot, line, stamps, hslot, rfl⟩ := hr
  obtain ⟨u, xs, rfl⟩ := hs.aligned.exists_slots
  rw [contentSlot, slots_withSlots] at hslot
  rw [setHistory_withSlots, replaceEntry_withSlots] at hfields ⊢
  show Spares t _ (({ u.setHistory task history with fieldStamps := stamps } : DocState).withSlots _)
  refine .of_slots (Slots.held_modify fun x hx => ?_) hfields (setKey_of_ne _ _ h.symm) rfl
  have hid := contentSlot_id hslot
  rw [hx, Option.bind_some] at hid
  rw [hid]
  exact ⟨fun heq => h (Option.some.inj heq), fun heq => h (Option.some.inj heq)⟩

theorem Deletes.spares {at_ : Hlc} (hd : Deletes task at_ s s') (hs : s.Sound) (h : task ≠ t) : Spares t s s' := by
  obtain ⟨-, rfl⟩ := hd
  have hnote : Spares t s (s.noteDeath task at_).1 := ⟨.refl _, rfl, rfl, setKey_of_ne _ _ h.symm⟩
  split
  · rename_i slot hlive
    split_ifs
    · exact hnote.trans (.hideEntry (hs.noteDeath task at_) hlive h)
    · exact hnote
  · exact hnote

theorem Inserts.spares {after : Option TaskId} {line : Text} {at_ : Hlc} (hi : Inserts task after line at_ s s')
    (hs : s.Sound) (h : task ≠ t) : Spares t s s' := by
  obtain ⟨-, -, -, spot, -, rfl⟩ := hi
  obtain ⟨u, xs, rfl⟩ := hs.aligned.exists_slots
  rw [insertEntry_withSlots]
  refine .of_slots (Slots.held_insertIdx ?_ _) rfl rfl rfl
  exact fun heq => h (Option.some.inj heq)

theorem InsertsAgain.spares {after : Option TaskId} {at_ : Hlc} (hi : InsertsAgain task after at_ s s')
    (hs : s.Sound) (h : task ≠ t) (hfields : s'.fieldStamps t = s.fieldStamps t) : Spares t s s' := by
  obtain ⟨-, -, spot, history, stamps, merged, -, rfl⟩ := hi
  rw [placeAgain_fieldStamps] at hfields
  obtain ⟨u, xs, rfl⟩ := hs.aligned.exists_slots
  have hwrites : ({ (u.withSlots xs).setHistory task history with fieldStamps := stamps } : DocState) =
      ({ u.setHistory task history with fieldStamps := stamps } : DocState).withSlots xs := rfl
  have htext : (u.setHistory task history).textHistory t = u.textHistory t := setKey_of_ne _ _ h.symm
  rw [hwrites] at hfields ⊢
  generalize hv : ({ u.setHistory task history with fieldStamps := stamps } : DocState) = v at hfields ⊢
  have hvtext : v.textHistory t = u.textHistory t := by rw [← hv]; exact htext
  have hvlife : (v.noteRebirth task at_).life t = u.life t := by
    rw [← hv]
    exact setKey_of_ne _ _ h.symm
  unfold placeAgain
  dsimp only
  rw [insertEntry_withSlots, hideEntry_withSlots, Columns.modify_insertIdx, noteRebirth_withSlots]
  generalize hx : Slot.withHidden true ⟨.task task merged, at_, false, spot.parent, false⟩ = x
  have hne : x.id ≠ some t := by
    rw [← hx]
    exact fun heq => h (Option.some.inj heq)
  have hplaced : (Slots.held (xs.insertIdx spot.at_ x) t).Perm (Slots.held xs t) := Slots.held_insertIdx hne spot.at_
  split_ifs
  · rw [showNewest_withSlots, setLines_withSlots, rehomeOnto_withSlots]
    refine .of_slots ?_ hfields hvtext hvlife
    refine (Slots.held_rehomeOnto task at_ t).trans ?_
    rw [Slots.held_setLines h]
    exact (Slots.held_showNewest h _).trans hplaced
  · rw [setLines_withSlots, rehomeOnto_withSlots]
    refine .of_slots ?_ hfields hvtext hvlife
    refine (Slots.held_rehomeOnto task at_ t).trans ?_
    rw [Slots.held_setLines h]
    exact hplaced

theorem MovesAway.spares (hm : MovesAway task s s') (hs : s.Sound) (h : task ≠ t) : Spares t s s' := by
  obtain ⟨-, rfl⟩ := hm
  cases hlive : s.liveSlot task with
  | none => exact .refl t s
  | some slot => exact .hideEntry hs hlive h

theorem PlacesGhost.spares {after : Option TaskId} {at_ : Hlc} (hg : PlacesGhost task after at_ s s') (hs : s.Sound)
    (h : task ≠ t) : Spares t s s' := by
  obtain ⟨-, spot, line, -, -, rfl⟩ := hg
  obtain ⟨u, xs, rfl⟩ := hs.aligned.exists_slots
  rw [insertEntry_withSlots, hideEntry_withSlots, Columns.modify_insertIdx, rehomeOnto_withSlots]
  refine .of_slots ((Slots.held_rehomeOnto task at_ t).trans (Slots.held_insertIdx ?_ _)) rfl rfl rfl
  exact fun heq => h (Option.some.inj heq)

theorem Moves.spares {after : Option TaskId} {at_ : Hlc} (hm : Moves task after at_ s s') (hs : s.Sound)
    (h : task ≠ t) : Spares t s s' := by
  obtain ⟨slot, entry, spot, hlive, -, hentry, -, rfl⟩ := hm
  obtain ⟨u, xs, rfl⟩ := hs.aligned.exists_slots
  rw [liveSlot, slots_withSlots] at hlive
  rw [hideEntry_withSlots, insertEntry_withSlots, rehomeOnto_withSlots]
  obtain ⟨x, hx, hshows⟩ := Slots.liveSlot_spec hlive
  rw [withSlots_entries, List.getElem?_map, hx] at hentry
  have hne : entry.id ≠ some t := by
    rw [← Option.some.inj hentry]
    exact Slots.ne_of_shows hshows h
  refine .of_slots ((Slots.held_rehomeOnto task at_ t).trans ?_) rfl rfl rfl
  exact (Slots.held_insertIdx (x := ⟨entry, at_, false, spot.parent, false⟩) hne _).trans (Slots.held_hide hlive h)

theorem insertEntry_blank_spares (hs : s.Sound) (t : TaskId) (spot : Spot) (at_ : Hlc) :
    Spares t s (s.insertEntry spot s.blankEntry at_) := by
  obtain ⟨u, xs, rfl⟩ := hs.aligned.exists_slots
  rw [insertEntry_withSlots]
  refine .of_slots (Slots.held_insertIdx ?_ _) rfl rfl rfl
  exact (Option.some_ne_none t).symm

theorem Erases.spares {after : Option TaskId} {at_ : Hlc} (he : Erases after at_ s s') (hs : s.Sound) (t : TaskId) :
    Spares t s s' := by
  obtain ⟨spot, -, rfl⟩ := he
  obtain ⟨u, xs, rfl⟩ := hs.aligned.exists_slots
  rw [placeEraser_withSlots]
  refine .of_slots (Slots.held_insertIdx ?_ _) rfl rfl rfl
  exact (Option.some_ne_none t).symm

theorem spares_settleErasers (hs : s.Sound) (t : TaskId) : Spares t s s.settleErasers := by
  obtain ⟨u, xs, rfl⟩ := hs.aligned.exists_slots
  rw [settleErasers_withSlots]
  exact .of_slots (.of_eq (Slots.held_settleErasers xs t)) rfl rfl rfl

theorem FailsOr.spares {P : DocState → Prop} {out : Outcome} (h : FailsOr s P out)
    (hP : ∀ s', out.state = s' → P s' → Spares t s s') : Spares t s out.state := by
  rcases h with ⟨e, rfl⟩ | ⟨s', rfl, hp⟩
  · exact .refl t s
  · exact hP s' rfl hp

/-- An op on another task, or on none, whether it applies or is refused. -/
theorem applyKind_spares (hs : s.Sound) (op : Op) (h : subject op.kind ≠ some t) :
    Spares t s (s.applyKind op).state := by
  obtain ⟨id, at_, file, kind⟩ := op
  have hother : ∀ {task : TaskId}, subject kind = some task → task ≠ t := fun hsubject heq =>
    h (hsubject.trans (congrArg some heq))
  cases kind with
  | insert task after line =>
    have hne : task ≠ t := hother rfl
    have hfields := insert_fieldStamps hne.symm s after line at_
    rcases insert_outcome task after line at_ with hor | ⟨history, e, -, -, hout⟩
    · refine hor.spares fun s' hout => ?_
      rw [hout] at hfields
      rintro (hi | hi)
      · exact hi.spares hs hne
      · exact hi.spares hs hne hfields
    · show Spares t s (s.insert task after line at_).state
      rw [hout]
      exact .setHistory hne.symm s history
  | setField task field value =>
    have hne : task ≠ t := hother rfl
    have hfields := setField_fieldStamps hne.symm s field value at_
    by_cases hdeleted : field = .deleted
    · subst hdeleted
      exact (setDeleted_outcome task value at_).spares fun s' _ hd => hd.spares hs hne
    · rcases setField_outcome s task hdeleted value at_ with hor |
        ⟨-, -, -, line, description, e, -, -, -, hout⟩
      · refine hor.spares fun s' hout => ?_
        rw [hout] at hfields
        rintro (rfl | hr)
        · exact .refl t _
        · exact hr.spares hs hne hfields
      · show Spares t s (s.setField task field value at_).state
        rw [hout]
        obtain ⟨history, hh⟩ := clearPriInDescription_state s task description
        rw [hh]
        exact .setHistory hne.symm s history
  | editText task edits =>
    have hfields := editText_fieldStamps s task edits at_
    refine (editText_outcome task edits at_).spares fun s' hout hr => hr.spares hs (hother rfl) ?_
    rw [← hout, hfields]
  | move task after toFile =>
    have hne : task ≠ t := hother rfl
    by_cases hfile : toFile = s.path
    · subst hfile
      refine (moveTask_here task after at_).spares fun s' _ => ?_
      rintro ⟨-, hg | hm⟩
      · exact hg.spares hs hne
      · exact hm.spares hs hne
    · exact (moveTask_away task after at_ hfile).spares fun s' _ hm => hm.spares hs hne
  | notesEdit file edits => exact .refl t s
  | blankInsert after =>
    refine (blankInsert_outcome after at_).spares ?_
    rintro s' - ⟨-, spot, -, rfl⟩
    exact insertEntry_blank_spares hs t spot at_
  | blankRemove after => exact (blankRemove_outcome after at_).spares fun s' _ he => he.spares hs t
  | removeTag task key =>
    have hfields := removeTag_fieldStamps s task key at_
    refine (removeTag_outcome task key at_).spares fun s' hout hr => hr.spares hs (hother rfl) ?_
    rw [← hout, hfields]

theorem settled_spares (hs : s.Sound) (op : Op) (t : TaskId) : Spares t s (s.settled op) := by
  rw [settled]
  split_ifs
  · exact spares_settleErasers hs t
  · exact .refl t s

/-! ## Runs -/

/-- `s'` has no placement of `t` that `s` lacks, shows those `s` shows, and has its metadata as long as it has a
placement. -/
structure LeavesAlone (t : TaskId) (s s' : DocState) : Prop where
  held : (Slots.held s'.slots t).Subperm (Slots.held s.slots t)
  shown : ((Slots.held s'.slots t).filter fun x => !x.hidden).Perm ((Slots.held s.slots t).filter fun x => !x.hidden)
  metadata : s'.hasPlacement t = true →
    s'.fieldStamps t = s.fieldStamps t ∧ s'.textHistory t = s.textHistory t ∧ s'.life t = s.life t

theorem LeavesAlone.refl (t : TaskId) (s : DocState) : LeavesAlone t s s :=
  ⟨.refl _, .refl _, fun _ => ⟨rfl, rfl, rfl⟩⟩

theorem LeavesAlone.trans (h : LeavesAlone t s s') (h' : LeavesAlone t s' s'') : LeavesAlone t s s'' := by
  refine ⟨h'.held.trans h.held, h'.shown.trans h.shown, fun hplace => ?_⟩
  have hbefore : s'.hasPlacement t = true := by
    refine Slots.hasPlacement_iff_held.2 fun hnil => Slots.hasPlacement_iff_held.1 hplace ?_
    have hsub := h'.held
    rwa [hnil, List.subperm_nil] at hsub
  obtain ⟨hfields, htext, hlife⟩ := h.metadata hbefore
  obtain ⟨hfields', htext', hlife'⟩ := h'.metadata hplace
  exact ⟨hfields'.trans hfields, htext'.trans htext, hlife'.trans hlife⟩

theorem Spares.leavesAlone (h : Spares t s s') : LeavesAlone t s s' :=
  ⟨h.held.subperm, h.held.filter _, fun _ => ⟨h.fieldStamps, h.textHistory, h.life⟩⟩

/-- A prune drops ghosts of a task at most. -/
theorem pruneGhosts_leavesAlone (hs : s.Sound) (t : TaskId) : LeavesAlone t s s.pruneGhosts := by
  by_cases hmany : MAX_GHOSTS_PER_FILE < s.ghosts
  · have hmark : GHOSTS_AFTER_PRUNE < s.ghosts := lt_of_le_of_lt (by decide) hmany
    obtain ⟨u, xs, rfl⟩ := hs.aligned.exists_slots
    rw [pruneGhosts, pruneGhostsPast, if_pos hmany, pruneGhostsTo_withSlots hmark]
    generalize (u.withSlots xs).ghosts - GHOSTS_AFTER_PRUNE = excess
    refine ⟨?_, ?_, fun hplace => ?_⟩
    · rw [slots_withSlots, slots_withSlots, Slots.removeAt_eq_restOf]
      exact (Slots.held_sublist Slots.restOf_sublist t).subperm
    · rw [slots_withSlots, slots_withSlots, Slots.shown_prune]
    · rw [hasPlacement_withSlots] at hplace
      refine ⟨?_, ?_, ?_⟩
      · funext f
        exact if_pos hplace
      · exact if_pos hplace
      · exact if_pos hplace
  · rw [pruneGhosts, pruneGhostsPast, if_neg hmany]
    exact .refl t s

/-- No op of the list that applies leaves more ghosts than are kept. -/
def Roomy (s : DocState) : List Op → Prop
  | [] => True
  | op :: ops =>
    ((s.apply op).result = .ok () → ((s.applyKind op).state.settled op).ghosts ≤ MAX_GHOSTS_PER_FILE) ∧
      Roomy (s.apply op).state ops

/-- An op that applies leaves what it settled, pruned. -/
theorem apply_cases (s : DocState) (op : Op) :
    ((s.apply op).result ≠ .ok () ∧ (s.apply op).state = (s.applyKind op).state) ∨
      ((s.apply op).result = .ok () ∧ (s.applyKind op).result = .ok () ∧
        (s.apply op).state = ((s.applyKind op).state.settled op).pruneGhosts) := by
  unfold apply
  dsimp only
  split
  · exact .inl ⟨fun hok => (by cases hok), rfl⟩
  · rename_i hok
    exact .inr ⟨rfl, hok, rfl⟩

theorem Sound.settled (hs : s.Sound) (op : Op) : (s.settled op).Sound := by
  rw [DocState.settled]
  split_ifs
  · exact hs.settleErasers
  · exact hs

theorem pruneGhosts_of_le (hroom : s.ghosts ≤ MAX_GHOSTS_PER_FILE) : s.pruneGhosts = s := by
  rw [pruneGhosts, pruneGhostsPast, if_neg (not_lt.2 hroom)]

theorem apply_leavesAlone (hs : s.Sound) (op : Op) (h : subject op.kind ≠ some t) :
    LeavesAlone t s (s.apply op).state := by
  have hkind := applyKind_spares hs op h
  have hsound := hs.applyKind op
  rcases apply_cases s op with ⟨-, hstate⟩ | ⟨-, -, hstate⟩
  · rw [hstate]
    exact hkind.leavesAlone
  · rw [hstate]
    exact (hkind.trans (settled_spares hsound op t)).leavesAlone.trans (pruneGhosts_leavesAlone (hsound.settled op) t)

theorem apply_spares (hs : s.Sound) (op : Op) (h : subject op.kind ≠ some t)
    (hroom : (s.apply op).result = .ok () → ((s.applyKind op).state.settled op).ghosts ≤ MAX_GHOSTS_PER_FILE) :
    Spares t s (s.apply op).state := by
  have hkind := applyKind_spares hs op h
  rcases apply_cases s op with ⟨-, hstate⟩ | ⟨hok, -, hstate⟩
  · rw [hstate]
    exact hkind
  · rw [hstate, pruneGhosts_of_le (hroom hok)]
    exact hkind.trans (settled_spares (hs.applyKind op) op t)

/-- Ops on other tasks, applied or refused, leave a task alone in every run; where nothing is pruned it keeps all
its placements, parents apart, and its metadata. -/
theorem applyAll_leavesAlone (h : Reachable s) {ops : List Op} (hops : ∀ op ∈ ops, subject op.kind ≠ some t) :
    LeavesAlone t s (s.applyAll ops) ∧ (s.Roomy ops → Spares t s (s.applyAll ops)) := by
  induction ops generalizing s with
  | nil => exact ⟨.refl t s, fun _ => .refl t s⟩
  | cons op ops ih =>
    have hop := hops op List.mem_cons_self
    obtain ⟨hleaves, hspares⟩ := ih (h.apply op) fun op' hop' => hops op' (List.mem_cons_of_mem _ hop')
    refine ⟨(apply_leavesAlone h.sound op hop).trans hleaves, fun hroomy => ?_⟩
    exact (apply_spares h.sound op hop hroomy.1).trans (hspares hroomy.2)

/-- The first of two lines moved below the second. -/
theorem applyAll_leavesAlone_two :
    let first : TaskId := ⟨1, by decide⟩
    let second : TaskId := ⟨2, by decide⟩
    let file : File := ⟨[.ofText ['a'] .lf, .ofText ['b'] .lf], false, .lf, true⟩
    let s := ofEntries ⟨['f']⟩ file .sidecar [.task first (.ofText ['a'] .lf), .task second (.ofText ['b'] .lf)]
    let ops : List Op := [⟨⟨1⟩, ⟨1, 0, ⟨1⟩⟩, ⟨['f']⟩, .move first (some second) ⟨['f']⟩⟩]
    LeavesAlone second s (s.applyAll ops) ∧ (s.Roomy ops → Spares second s (s.applyAll ops)) := by
  intro first second file s ops
  have hs : fromFile ⟨['f']⟩ file [some first, some second] .sidecar = .ok s := rfl
  refine applyAll_leavesAlone (.fromFile hs (by decide)) fun op hop => ?_
  rw [List.mem_singleton.1 hop]
  decide

end DocState

end Txtodo
