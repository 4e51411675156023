import Txtodo.Engine.Proofs.PlacingProofs

/-!
# Proofs: reachable documents are consistent

Each operation keeps the vectors in step and the sequence sound; what readers rely on follows.
-/

namespace Txtodo

namespace DocState

variable {s s' : DocState} {task : TaskId}

theorem Aligned.exists_slots (h : s.Aligned) : ∃ (u : DocState) (xs : List Slot), s = u.withSlots xs :=
  ⟨s, s.slots, h.withSlots_slots.symm⟩

@[simp] theorem sound_withSlots {xs : List Slot} : (s.withSlots xs).Sound ↔ Slots.Sound xs :=
  ⟨fun h => by simpa using h.slots, fun h => ⟨aligned_withSlots s xs, by simpa using h⟩⟩

/-! ## One op -/

/-- The content slot of a task holds a placement of it. -/
theorem contentSlot_id {xs : List Slot} {slot : Nat} (h : Slots.contentSlot xs task = some slot) :
    xs[slot]?.bind Slot.id = some task := by
  unfold Slots.contentSlot at h
  cases hlive : Slots.liveSlot xs task with
  | some l =>
    rw [hlive, Option.some_or] at h
    obtain ⟨x, hx, hshows⟩ := Slots.liveSlot_spec hlive
    rw [← Option.some.inj h, hx]
    exact (Slot.shows_iff.1 hshows).2
  | none =>
    rw [hlive, Option.none_or, Option.map_eq_some_iff] at h
    obtain ⟨m, hm, rfl⟩ := h
    obtain ⟨hm, hid⟩ := Slots.mem_placements.1 (Iter.maxByKey_mem hm)
    rw [hm]
    exact hid

theorem Sound.rewrites (hs : s.Sound) (h : Rewrites task s s') : s'.Sound := by
  obtain ⟨u, xs, rfl⟩ := hs.aligned.exists_slots
  obtain ⟨history, slot, line, stamps, hslot, rfl⟩ := h
  rw [setHistory_withSlots, replaceEntry_withSlots]
  show (({ u.setHistory task history with fieldStamps := stamps } : DocState).withSlots _).Sound
  rw [sound_withSlots] at hs ⊢
  exact hs.setEntry line (contentSlot_id (by rwa [contentSlot, slots_withSlots] at hslot))

theorem Sound.hideEntry (hs : s.Sound) (slot : Nat) : (s.hideEntry slot).Sound := by
  obtain ⟨u, xs, rfl⟩ := hs.aligned.exists_slots
  rw [hideEntry_withSlots, sound_withSlots]
  exact (sound_withSlots.1 hs).hide slot

theorem Sound.noteDeath (hs : s.Sound) (task : TaskId) (at_ : Hlc) : (s.noteDeath task at_).1.Sound :=
  ⟨⟨hs.aligned.stamps_length, hs.aligned.hidden_length, hs.aligned.parents_length,
    hs.aligned.erasers_length, hs.aligned.visible_eq⟩, hs.slots⟩

theorem Sound.deletes {at_ : Hlc} (hs : s.Sound) (h : Deletes task at_ s s') : s'.Sound := by
  obtain ⟨-, rfl⟩ := h
  split
  · split_ifs
    · exact (hs.noteDeath task at_).hideEntry _
    · exact hs.noteDeath task at_
  · exact hs.noteDeath task at_

theorem Sound.inserts {after : Option TaskId} {line : Text} {at_ : Hlc} (hs : s.Sound)
    (h : Inserts task after line at_ s s') : s'.Sound := by
  obtain ⟨hplace, -, -, spot, -, rfl⟩ := h
  obtain ⟨u, xs, rfl⟩ := hs.aligned.exists_slots
  rw [insertEntry_withSlots]
  rw [sound_withSlots] at hs ⊢
  refine hs.insertIdx_shown rfl (fun t ht => ?_) _
  obtain rfl : task = t := Option.some.inj ht
  rw [List.countP_eq_zero]
  intro x hx hshows
  have : Slots.hasPlacement xs task = true :=
    Slots.hasPlacement_iff.2 ⟨x, hx, (Slot.shows_iff.1 hshows).2⟩
  rw [hasPlacement, slots_withSlots] at hplace
  simp [hplace] at this

theorem Sound.insertsAgain {after : Option TaskId} {at_ : Hlc} (hs : s.Sound)
    (h : InsertsAgain task after at_ s s') : s'.Sound := by
  obtain ⟨-, -, spot, history, stamps, merged, -, rfl⟩ := h
  obtain ⟨u, xs, rfl⟩ := hs.aligned.exists_slots
  have hfields : ({ (u.withSlots xs).setHistory task history with fieldStamps := stamps } :
      DocState) = ({ u.setHistory task history with fieldStamps := stamps } : DocState).withSlots xs :=
    rfl
  rw [hfields]
  generalize ({ u.setHistory task history with fieldStamps := stamps } : DocState) = v
  rw [sound_withSlots] at hs
  have hplaced := hs.insertIdx_hidden (x := ⟨.task task merged, at_, true, spot.parent, false⟩) rfl
    (by simp) spot.at_
  unfold placeAgain
  dsimp only
  rw [insertEntry_withSlots, hideEntry_withSlots, Columns.modify_insertIdx, noteRebirth_withSlots]
  split_ifs
  · rw [showNewest_withSlots, setLines_withSlots, rehomeOnto_withSlots, sound_withSlots]
    exact ((hplaced.showNewest task spot.at_).setLines task merged).rehomeOnto task at_
  · rw [setLines_withSlots, rehomeOnto_withSlots, sound_withSlots]
    exact (hplaced.setLines task merged).rehomeOnto task at_

theorem Sound.movesAway (hs : s.Sound) (h : MovesAway task s s') : s'.Sound := by
  obtain ⟨-, rfl⟩ := h
  cases s.liveSlot task with
  | none => exact hs
  | some slot => exact hs.hideEntry slot

theorem Sound.placesGhost {after : Option TaskId} {at_ : Hlc} (hs : s.Sound)
    (h : PlacesGhost task after at_ s s') : s'.Sound := by
  obtain ⟨-, spot, line, -, -, rfl⟩ := h
  obtain ⟨u, xs, rfl⟩ := hs.aligned.exists_slots
  rw [insertEntry_withSlots, hideEntry_withSlots, Columns.modify_insertIdx, rehomeOnto_withSlots]
  rw [sound_withSlots] at hs ⊢
  exact (hs.insertIdx_hidden rfl (by simp [Slot.withHidden]) _).rehomeOnto task at_

theorem Sound.moves {after : Option TaskId} {at_ : Hlc} (hs : s.Sound)
    (h : Moves task after at_ s s') : s'.Sound := by
  obtain ⟨slot, entry, spot, hlive, -, hentry, -, rfl⟩ := h
  obtain ⟨u, xs, rfl⟩ := hs.aligned.exists_slots
  rw [hideEntry_withSlots, insertEntry_withSlots, rehomeOnto_withSlots]
  rw [sound_withSlots] at hs ⊢
  rw [liveSlot, slots_withSlots] at hlive
  refine ((hs.hide slot).insertIdx_shown rfl (fun t ht => ?_) _).rehomeOnto task at_
  obtain ⟨x, hx, hshows⟩ := Slots.liveSlot_spec hlive
  have hid : entry.id = some task := by
    rw [withSlots_entries, List.getElem?_map, hx] at hentry
    rw [← Option.some.inj hentry]
    exact (Slot.shows_iff.1 hshows).2
  obtain rfl : task = t := Option.some.inj (hid.symm.trans ht)
  exact hs.hide_live hlive

theorem Sound.erases {after : Option TaskId} {at_ : Hlc} (hs : s.Sound)
    (h : Erases after at_ s s') : s'.Sound := by
  obtain ⟨spot, -, rfl⟩ := h
  obtain ⟨u, xs, rfl⟩ := hs.aligned.exists_slots
  rw [placeEraser_withSlots]
  rw [sound_withSlots] at hs ⊢
  exact hs.insertIdx_hidden rfl (fun _ => rfl) _

theorem Sound.settleErasers (hs : s.Sound) : s.settleErasers.Sound := by
  obtain ⟨u, xs, rfl⟩ := hs.aligned.exists_slots
  rw [settleErasers_withSlots]
  rw [sound_withSlots] at hs ⊢
  exact hs.settleErasers

theorem Sound.pruneGhostsTo (hs : s.Sound) (max : Nat) : (s.pruneGhostsTo max).Sound := by
  by_cases hle : s.ghosts ≤ max
  · rwa [DocState.pruneGhostsTo, if_pos hle]
  · obtain ⟨u, xs, rfl⟩ := hs.aligned.exists_slots
    rw [pruneGhostsTo_withSlots (not_le.1 hle)]
    rw [sound_withSlots] at hs ⊢
    exact hs.removeAt _

theorem Sound.pruneGhosts (hs : s.Sound) : s.pruneGhosts.Sound := by
  unfold DocState.pruneGhosts pruneGhostsPast
  split_ifs
  · exact hs.pruneGhostsTo _
  · exact hs

theorem Sound.settleScratchStamps (hs : s.Sound) (at_ : Hlc) : (s.settleScratchStamps at_).Sound := by
  obtain ⟨u, xs, rfl⟩ := hs.aligned.exists_slots
  rw [settleScratchStamps_withSlots]
  rw [sound_withSlots] at hs ⊢
  exact hs.settle at_

theorem Sound.setHistory (hs : s.Sound) (h : Option TextHistory) : (s.setHistory task h).Sound := by
  obtain ⟨u, xs, rfl⟩ := hs.aligned.exists_slots
  rw [setHistory_withSlots]
  rw [sound_withSlots] at hs ⊢
  exact hs

theorem FailsOr.sound {P : DocState → Prop} {out : Outcome} (h : FailsOr s P out) (hs : s.Sound)
    (hP : ∀ s', P s' → s'.Sound) : out.state.Sound := by
  rcases h with ⟨e, rfl⟩ | ⟨s', rfl, hp⟩
  · exact hs
  · exact hP s' hp

theorem Sound.applyKind (hs : s.Sound) (op : Op) : (s.applyKind op).state.Sound := by
  obtain ⟨id, at_, file, kind⟩ := op
  cases kind with
  | insert task after line =>
    rcases insert_outcome task after line at_ with hor | ⟨h, e, -, -, hout⟩
    · refine hor.sound hs fun s' => ?_
      rintro (hi | hi)
      · exact hs.inserts hi
      · exact hs.insertsAgain hi
    · show (s.insert task after line at_).state.Sound
      rw [hout]
      exact hs.setHistory _
  | setField task field value =>
    by_cases hdeleted : field = .deleted
    · subst hdeleted
      exact (setDeleted_outcome task value at_).sound hs fun s' => hs.deletes
    · rcases setField_outcome s task hdeleted value at_ with hor |
        ⟨-, -, -, line, description, e, -, -, -, hout⟩
      · refine hor.sound hs fun s' => ?_
        rintro (rfl | hr)
        · exact hs
        · exact hs.rewrites hr
      · show (s.setField task field value at_).state.Sound
        rw [hout]
        obtain ⟨h, hh⟩ := clearPriInDescription_state s task description
        rw [hh]
        exact hs.setHistory h
  | editText task edits => exact (editText_outcome task edits at_).sound hs fun s' => hs.rewrites
  | move task after toFile =>
    by_cases hfile : toFile = s.path
    · subst hfile
      refine (moveTask_here task after at_).sound hs fun s' => ?_
      rintro ⟨-, hg | hm⟩
      · exact hs.placesGhost hg
      · exact hs.moves hm
    · exact (moveTask_away task after at_ hfile).sound hs fun s' => hs.movesAway
  | notesEdit file edits => exact hs
  | blankInsert after =>
    refine (blankInsert_outcome after at_).sound hs ?_
    rintro s' ⟨-, spot, -, rfl⟩
    obtain ⟨u, xs, rfl⟩ := hs.aligned.exists_slots
    rw [insertEntry_withSlots]
    rw [sound_withSlots] at hs ⊢
    exact hs.insertIdx_shown rfl (fun t ht => by cases ht) _
  | blankRemove after => exact (blankRemove_outcome after at_).sound hs fun s' => hs.erases
  | removeTag task key => exact (removeTag_outcome task key at_).sound hs fun s' => hs.rewrites

theorem Sound.apply (hs : s.Sound) (op : Op) : (s.apply op).state.Sound := by
  have hkind := hs.applyKind op
  unfold DocState.apply
  dsimp only
  split
  · exact hkind
  · refine Sound.pruneGhosts ?_
    unfold settled
    split_ifs
    · exact hkind.settleErasers
    · exact hkind

theorem Sound.applyAll (hs : s.Sound) (ops : List Op) : (s.applyAll ops).Sound := by
  induction ops generalizing s with
  | nil => exact hs
  | cons op ops ih => exact ih (hs.apply op)

/-! ## Building and adopting -/

/-- A document just built has every entry shown, placed by nothing. -/
theorem fromFile_slots {path : FilePath} {file : File} {ids : List (Option TaskId)}
    {mode : IdentityMode} (h : fromFile path file ids mode = .ok s) :
    s = s.withSlots (s.entries.map Slot.ofEntry) := by
  unfold fromFile at h
  split_ifs at h
  cases hentries : entriesOf 0 file.lines ids with
  | error e =>
    rw [hentries] at h
    cases h
  | ok entries =>
    rw [hentries] at h
    obtain rfl := Except.ok.inj h
    have hall : (List.range entries.length).filter
        (fun i => decide ((List.replicate entries.length false)[i]? = some false)) =
        List.range entries.length :=
      List.filter_eq_self.2 fun i hi => by simp [List.mem_range.1 hi]
    simp [ofEntries, withSlots, reindex, Function.comp_def, Slot.ofEntry, List.map_const', hall]

theorem fromFile_sound {path : FilePath} {file : File} {ids : List (Option TaskId)}
    {mode : IdentityMode} (h : fromFile path file ids mode = .ok s)
    (hids : (s.entries.filterMap Entry.id).Nodup) : s.Sound := by
  rw [fromFile_slots h, sound_withSlots]
  refine ⟨by simp [Slot.ofEntry], fun task => ?_⟩
  have hcount : (s.entries.map Slot.ofEntry).countP (Slot.shows task) =
      (s.entries.filterMap Entry.id).count task := by
    rw [List.countP_map, List.count, List.countP_filterMap]
    refine List.countP_congr fun e _ => ?_
    cases hid : e.id <;> simp [Slot.shows, Slot.ofEntry, Slot.id, hid]
  rw [hcount]
  exact List.nodup_iff_count_le_one.1 hids task

/-- Replacing shown entries by entries of the same ids changes no id. -/
theorem adoptShown_ids (theirs : List Nat) (mine entries : List Entry)
    (h : theirs.map (fun i => (entries.map Entry.id)[i]?) = mine.map fun e => some e.id) :
    (adoptShown entries theirs mine).map Entry.id = entries.map Entry.id := by
  induction theirs generalizing mine entries with
  | nil => rw [adoptShown]; simp
  | cons i theirs ih =>
    cases mine with
    | nil => simp at h
    | cons e mine =>
      rw [List.map_cons, List.map_cons, List.cons.injEq] at h
      have hset : (entries.set i e).map Entry.id = entries.map Entry.id := by
        rw [List.map_set]
        obtain ⟨hi, hid⟩ := List.getElem?_eq_some_iff.1 h.1
        rw [← hid, List.set_getElem_self]
      rw [adoptShown, ih mine (entries.set i e) (by rw [hset]; exact h.2), hset]

/-- The slots shown, position by position. -/
theorem Aligned.visible_ids (h : s.Aligned) :
    s.visible.map (fun i => (s.entries.map Entry.id)[i]?) = s.lineIds.map some := by
  have hin : ∀ i ∈ s.visible, (s.entries.map Entry.id)[i]? = (s.entries[i]?.map Entry.id) :=
    fun i _ => List.getElem?_map ..
  have hlt : ∀ i ∈ s.visible, i < s.entries.length := by
    intro i hi
    rw [h.visible_eq, List.mem_filter, List.mem_range] at hi
    exact hi.1
  rw [lineIds, visibleEntries]
  generalize s.visible = l at hin hlt
  induction l with
  | nil => rfl
  | cons i l ih =>
    have hi := hlt i (List.mem_cons_self ..)
    rw [List.map_cons, ih (fun j hj => hin j (List.mem_cons_of_mem _ hj))
      fun j hj => hlt j (List.mem_cons_of_mem _ hj), hin i (List.mem_cons_self ..)]
    simp [List.getElem?_eq_getElem hi]

theorem adoptSequence_sound {replayed t : DocState} (hr : replayed.Sound)
    (h : s.adoptSequence replayed = some t) : t.Sound := by
  unfold adoptSequence at h
  split_ifs at h with hids
  obtain rfl := Option.some.inj h
  have hids' : s.lineIds = replayed.lineIds := not_not.1 hids
  obtain ⟨hentry, hstamp, hhidden, hparent, heraser⟩ := hr.aligned.columns
  generalize hes : adoptShown replayed.entries replayed.visible s.visibleEntries = es
  have hcol : es.map Entry.id = replayed.entries.map Entry.id := by
    rw [← hes]
    refine adoptShown_ids _ _ _ ?_
    rw [hr.aligned.visible_ids, ← hids', lineIds, List.map_map]
    rfl
  have hlen : es.length = replayed.slots.length := by
    have := congrArg List.length hcol
    rw [List.length_map, List.length_map, ← hentry, List.length_map] at this
    exact this
  let zs := List.zipWith (fun e x => Slot.withEntry e x) es replayed.slots
  have hzs : ∀ {β : Type} (g : Slot → β), (∀ e x, g (Slot.withEntry e x) = g x) →
      zs.map g = replayed.slots.map g := fun g hg => by
    simp only [zs, List.map_zipWith, hg]
    exact Columns.zipWith_right g hlen
  have hzentry : zs.map Slot.entry = es := by
    simp only [zs, List.map_zipWith]
    exact (Columns.zipWith_left id hlen).trans (List.map_id es)
  have hwrite := reindex_columns s hzentry ((hzs Slot.hidden fun _ _ => rfl).trans hhidden)
    ((hzs Slot.stamp fun _ _ => rfl).trans hstamp) ((hzs Slot.parent fun _ _ => rfl).trans hparent)
    ((hzs Slot.eraser fun _ _ => rfl).trans heraser)
  rw [hwrite, sound_withSlots]
  refine hr.slots.of_map_eq ?_
  have hzids : es.map Entry.id = replayed.slots.map Slot.id := by
    rw [hcol, ← hentry, List.map_map]
    rfl
  calc zs.map Slot.face
      = List.zipWith (fun id x => (id, Slot.hidden x, Slot.eraser x)) (es.map Entry.id)
          replayed.slots := by
        simp only [zs, List.map_zipWith, List.zipWith_map_left]
        rfl
    _ = replayed.slots.map Slot.face := by
        rw [hzids, List.zipWith_map_left, List.zipWith_self]
        rfl

/-- The metadata of another replay. -/
theorem Sound.withMeta (hs : s.Sound) (fieldStamps : TaskId → Field → Option Hlc)
    (textHistory : TaskId → Option TextHistory) (life : TaskId → Option Life) :
    ({ s with fieldStamps := fieldStamps, textHistory := textHistory, life := life } :
      DocState).Sound :=
  ⟨⟨hs.aligned.stamps_length, hs.aligned.hidden_length, hs.aligned.parents_length,
    hs.aligned.erasers_length, hs.aligned.visible_eq⟩, hs.slots⟩

theorem Sound.adoptByTask (hs : s.Sound) (replayed : DocState) : (s.adoptByTask replayed).Sound := by
  obtain ⟨u, xs, rfl⟩ := hs.aligned.exists_slots
  let byTask (x : Slot) : Option (Hlc × Parent) := x.id.bind replayed.shownStamp
  let adopted (x : Slot) : Slot := { x with
    stamp := ((byTask x).map (·.1)).getD x.stamp
    parent := ((byTask x).map (·.2)).getD x.parent }
  have hcol : ∀ {β : Type} (g : Slot → β), (∀ x, g (adopted x) = g x) →
      (xs.map adopted).map g = xs.map g := fun g hg => by
    rw [List.map_map]
    exact List.map_congr_left fun x _ => hg x
  have hstamp : (xs.map adopted).map Slot.stamp =
      (u.withSlots xs).slots.map fun x => ((byTask x).map (·.1)).getD x.stamp := by
    rw [slots_withSlots, List.map_map]
    rfl
  have hparent : (xs.map adopted).map Slot.parent =
      (u.withSlots xs).slots.map fun x => ((byTask x).map (·.2)).getD x.parent := by
    rw [slots_withSlots, List.map_map]
    rfl
  have hwrite := columns_eq_withSlots u (hcol Slot.entry fun _ => rfl)
    (hcol Slot.hidden fun _ => rfl) hstamp hparent (hcol Slot.eraser fun _ => rfl)
  refine Eq.subst (motive := DocState.Sound) hwrite.symm ?_
  rw [sound_withSlots] at hs ⊢
  refine hs.of_map_eq ?_
  rw [List.map_map]
  rfl

theorem Sound.adoptStamps {replayed : DocState} (hs : s.Sound) (hr : replayed.Sound) :
    (s.adoptStamps replayed).Sound := by
  have hmeta := hs.withMeta replayed.fieldStamps replayed.textHistory replayed.life
  unfold DocState.adoptStamps
  dsimp only
  split
  · next t hadopt => exact adoptSequence_sound hr hadopt
  · exact hmeta.adoptByTask replayed

theorem Reachable.sound (h : Reachable s) : s.Sound := by
  induction h with
  | fromFile hs hids => exact fromFile_sound hs hids
  | apply _ op ih => exact ih.apply op
  | pruneGhostsTo _ max ih => exact ih.pruneGhostsTo max
  | settleScratchStamps _ at_ ih => exact ih.settleScratchStamps at_
  | adoptStamps _ _ _ ih ihr => exact ih.adoptStamps ihr

/-! ## What readers rely on -/

section Consistent

variable {u : DocState} {xs : List Slot}

/-- The shown slots in order, ids only. -/
theorem withSlots_lineIds (u : DocState) (xs : List Slot) :
    (u.withSlots xs).lineIds = (xs.filter fun x => !x.hidden).map Slot.id := by
  rw [lineIds, withSlots_visibleEntries, List.map_map]
  rfl

theorem lineIds_nodup (h : Slots.Sound xs) : ((u.withSlots xs).lineIds.filterMap id).Nodup := by
  rw [List.nodup_iff_count_le_one]
  intro task
  have hcount : (((u.withSlots xs).lineIds).filterMap id).count task =
      xs.countP (Slot.shows task) := by
    rw [withSlots_lineIds, List.filterMap_map, List.count, List.countP_filterMap, List.countP_filter]
    refine List.countP_congr fun x _ => ?_
    cases hid : x.id with
    | none => simp [Slot.shows, hid]
    | some t => simp [Slot.shows, hid, and_comm]
  rw [hcount]
  exact h.shown task

theorem indexOf_liveSlot (u : DocState) (xs : List Slot) (task : TaskId) :
    ((u.withSlots xs).indexOf task).bind ((u.withSlots xs).visible[·]?) =
      (u.withSlots xs).liveSlot task := by
  rw [indexOf, ← List.find?_eq_bind_findIdx?_getElem?, withSlots_visible, List.find?_filter, liveSlot,
    slots_withSlots, Slots.liveSlot, Columns.findIdx?_eq_find?_range]
  congr 1
  funext i
  rw [withSlots_entries, List.getElem?_map]
  cases hi : xs[i]? with
  | none => simp
  | some x => by_cases hid : x.id = some task <;> simp [hid]

theorem shows_of_columns {task : TaskId} {i : Nat}
    (h : (u.withSlots xs).hidden[i]? = some false ∧
      (u.withSlots xs).entries[i]?.bind Entry.id = some task) :
    ∃ x, xs[i]? = some x ∧ x.shows task = true := by
  rw [withSlots_hidden, withSlots_entries, List.getElem?_map, List.getElem?_map] at h
  cases hi : xs[i]? with
  | none => simp [hi] at h
  | some x =>
    refine ⟨x, rfl, Slot.shows_iff.2 ⟨?_, ?_⟩⟩
    · simpa [hi] using h.1
    · simpa [hi] using h.2

theorem shown_once (h : Slots.Sound xs) {task : TaskId} {i j : Nat}
    (hi : (u.withSlots xs).hidden[i]? = some false ∧
      (u.withSlots xs).entries[i]?.bind Entry.id = some task)
    (hj : (u.withSlots xs).hidden[j]? = some false ∧
      (u.withSlots xs).entries[j]?.bind Entry.id = some task) : i = j := by
  obtain ⟨x, hx, hshowsx⟩ := shows_of_columns hi
  obtain ⟨y, hy, hshowsy⟩ := shows_of_columns hj
  exact Columns.eq_of_countP_le_one (h.shown task) hx hy hshowsx hshowsy

theorem Aligned.visible_nodup (h : s.Aligned) : s.visible.Nodup := by
  rw [h.visible_eq]
  exact List.nodup_range.filter _

/-- A line that holds `task` is the one `indexOf` finds. -/
theorem indexOf_eq_some (h : Slots.Sound xs) {task : TaskId} {n i : Nat}
    (hn : (u.withSlots xs).visible[n]? = some i)
    (hid : (u.withSlots xs).entries[i]?.bind Entry.id = some task) :
    (u.withSlots xs).indexOf task = some n := by
  have hshown : ∀ {m j : Nat}, (u.withSlots xs).visible[m]? = some j →
      (u.withSlots xs).hidden[j]? = some false := by
    intro m j hm
    have hmem := List.mem_of_getElem? hm
    rw [(aligned_withSlots u xs).visible_eq, List.mem_filter] at hmem
    simpa using hmem.2
  cases hindex : (u.withSlots xs).indexOf task with
  | none =>
    rw [indexOf, List.findIdx?_eq_none_iff] at hindex
    exact absurd hid (of_decide_eq_false (hindex i (List.mem_of_getElem? hn)))
  | some m =>
    obtain ⟨hm, hidm, -⟩ := List.findIdx?_eq_some_iff_getElem.1 hindex
    have hmv := List.getElem?_eq_getElem hm
    have hij := shown_once h ⟨hshown hn, hid⟩ ⟨hshown hmv, by simpa using hidm⟩
    obtain ⟨hnlt, hnv⟩ := List.getElem?_eq_some_iff.1 hn
    have hnm := (aligned_withSlots u xs).visible_nodup.getElem_inj_iff.1 (hnv.trans hij)
    rw [hnm]

/-- Whatever a client names a line by, the line it gets is the one `indexOf` finds. -/
theorem resolve_indexOf
    (hindexed : ∀ {task n entry}, s.entryAt n = some entry → entry.id = some task →
      s.indexOf task = some n)
    {ref : TaskRef} {i : Nat} {found : TaskId} (h : resolve s ref = .ok (i, found)) :
    s.indexOf found = some i := by
  have hline : ∀ n expected, resolveLine s n expected = .ok (i, found) →
      s.indexOf found = some i := by
    intro n expected h
    unfold resolveLine at h
    split_ifs at h
    split at h
    · cases h
    · cases h
    · next id line hentry =>
      split at h
      · obtain ⟨rfl, rfl⟩ := Prod.mk.inj (Except.ok.inj h)
        exact hindexed hentry rfl
      · split_ifs at h
        obtain ⟨rfl, rfl⟩ := Prod.mk.inj (Except.ok.inj h)
        exact hindexed hentry rfl
  unfold resolve at h
  split at h
  · split at h
    · next hindex =>
      obtain ⟨rfl, rfl⟩ := Prod.mk.inj (Except.ok.inj h)
      exact hindex
    · cases h
  · exact hline _ _ h

theorem resolve_line {task : TaskId} {i : Nat} (hi : s.indexOf task = some i) :
    resolve s ⟨i + 1, some task⟩ = .ok (i, task) := by
  obtain ⟨hlt, hid, -⟩ := List.findIdx?_eq_some_iff_getElem.1 hi
  have hentry : ∃ line, s.entryAt i = some (.task task line) := by
    rw [entryAt, List.getElem?_eq_getElem hlt, Option.bind_some]
    cases hslot : s.entries[s.visible[i]]? with
    | none => simp [hslot] at hid
    | some entry =>
      cases entry with
      | blank line => simp [hslot, Entry.id] at hid
      | task id line =>
        obtain rfl : id = task := by simpa [hslot, Entry.id] using hid
        exact ⟨line, rfl⟩
  obtain ⟨line, hentry⟩ := hentry
  simp [resolve, resolveLine, hentry]

theorem Sound.consistent (hs : s.Sound) : s.Consistent := by
  obtain ⟨u, xs, rfl⟩ := hs.aligned.exists_slots
  have haligned := hs.aligned
  rw [sound_withSlots] at hs
  have hindexed : ∀ {task n entry}, (u.withSlots xs).entryAt n = some entry → entry.id = some task →
      (u.withSlots xs).indexOf task = some n := by
    intro task n entry hentry hid
    obtain ⟨i, hi, hslot⟩ := Option.bind_eq_some_iff.1 hentry
    exact indexOf_eq_some hs hi (by rw [hslot]; exact hid)
  refine ⟨haligned, ?_, fun task i j => shown_once hs, lineIds_nodup hs, indexOf_liveSlot u xs, ?_, ?_⟩
  · intro i hi
    rw [withSlots_erasers, List.getElem?_map, Option.map_eq_some_iff] at hi
    obtain ⟨x, hx, heraser⟩ := hi
    obtain ⟨hhidden, hid⟩ := hs.eraser x (List.mem_of_getElem? hx) heraser
    rw [withSlots_hidden, withSlots_entries, List.getElem?_map, List.getElem?_map, hx]
    exact ⟨congrArg some hhidden, congrArg some (Slot.id_eq_none_iff.1 hid)⟩
  · exact fun ref i found hres => resolve_indexOf hindexed hres
  · intro task i hi
    exact ⟨by simp [resolve, hi], resolve_line hi⟩

/-- Every document reached from a file with distinct task ids by ops, prunes, settled commits and
adopted replays is consistent. -/
theorem reachable_consistent (h : Reachable s) : s.Consistent := h.sound.consistent

/-- Two lines, the first moved after the second. -/
theorem reachable_consistent_move :
    let first : TaskId := ⟨1, by decide⟩
    let second : TaskId := ⟨2, by decide⟩
    let file : File := ⟨[.ofText ['a'] .lf, .ofText ['b'] .lf], false, .lf, true⟩
    let s := ofEntries ⟨['f']⟩ file .sidecar
      [.task first (.ofText ['a'] .lf), .task second (.ofText ['b'] .lf)]
    fromFile ⟨['f']⟩ file [some first, some second] .sidecar = .ok s ∧
      (s.apply ⟨⟨1⟩, ⟨1, 0, ⟨1⟩⟩, ⟨['f']⟩, .move first (some second) ⟨['f']⟩⟩).state.Consistent := by
  intro first second file s
  have hs : fromFile ⟨['f']⟩ file [some first, some second] .sidecar = .ok s := rfl
  exact ⟨hs, reachable_consistent (.apply (.fromFile hs (by decide)) _)⟩

end Consistent

end DocState

end Txtodo
