import Txtodo.Engine.Proofs.ReachableProofs
import Txtodo.Engine.SyncPark

/-!
# Proofs: which tasks have a placement

An op that applies brings a placement of its subject at most; one that does not brings none.
-/

namespace Txtodo

namespace Slots

variable {xs ys : List Slot} {task t : TaskId}

theorem hasPlacement_iff_mem : hasPlacement xs t = true ↔ some t ∈ xs.map Slot.id := by
  rw [hasPlacement_iff, List.mem_map]

theorem hasPlacement_of_faces (h : (ys.map Slot.face).Perm (xs.map Slot.face)) :
    hasPlacement ys t = hasPlacement xs t := by
  have hids : ∀ zs : List Slot, (zs.map Slot.face).map Prod.fst = zs.map Slot.id := fun zs => by
    rw [List.map_map]
    rfl
  have hperm := h.map Prod.fst
  rw [hids, hids] at hperm
  rw [Bool.eq_iff_iff, hasPlacement_iff_mem, hasPlacement_iff_mem, hperm.mem_iff]

@[simp] theorem hasPlacement_rehomeOnto (placed : Hlc) :
    hasPlacement (rehomeOnto xs task placed) t = hasPlacement xs t :=
  hasPlacement_of_faces (rehomePasses_faces task placed _ xs)

@[simp] theorem hasPlacement_hide (slot : Nat) (b : Bool) :
    hasPlacement (xs.modify slot (Slot.withHidden b)) t = hasPlacement xs t :=
  hasPlacement_of_ids (DocState.map_modify_withHidden Slot.id (fun _ _ => rfl) ..) t

@[simp] theorem hasPlacement_setLines (line : OwnedLine) :
    hasPlacement (setLines xs task line) t = hasPlacement xs t := by
  refine hasPlacement_of_ids ?_ t
  rw [setLines, List.map_map]
  refine List.map_congr_left fun x _ => ?_
  by_cases hid : x.id = some task
  · rw [Function.comp_apply, if_pos hid]
    exact congrArg Prod.fst (Slot.face_withEntry hid line)
  · rw [Function.comp_apply, if_neg hid]

@[simp] theorem hasPlacement_showNewest (added : Nat) :
    hasPlacement (showNewest xs task added) t = hasPlacement xs t := by
  rw [showNewest]
  dsimp only
  split_ifs
  · rfl
  · cases liveSlot xs task <;>
      cases Iter.maxByKey (fun x => toLex (x.1.stamp, decide (x.2 = added))) (placements xs task) <;>
      simp

@[simp] theorem hasPlacement_settleErasers :
    hasPlacement (settleErasers xs) t = hasPlacement xs t := by
  rw [settleErasers]
  split_ifs
  · exact hasPlacement_of_ids (DocState.map_settleBlank Slot.id (fun _ _ => rfl) ..) t
  · rfl

theorem hasPlacement_insertIdx {x : Slot} {i : Nat} (h : hasPlacement (xs.insertIdx i x) t = true) :
    hasPlacement xs t = true ∨ x.id = some t := by
  obtain ⟨y, hy, hid⟩ := hasPlacement_iff.1 h
  rcases List.eq_or_mem_of_mem_insertIdx hy with rfl | hy
  · exact .inr hid
  · exact .inl (hasPlacement_iff.2 ⟨y, hy, hid⟩)

theorem hasPlacement_sublist (h : ys.Sublist xs) (hplace : hasPlacement ys t = true) :
    hasPlacement xs t = true := by
  obtain ⟨y, hy, hid⟩ := hasPlacement_iff.1 hplace
  exact hasPlacement_iff.2 ⟨y, h.subset hy, hid⟩

end Slots

namespace DocState

variable {s s' : DocState} {task t : TaskId}

@[simp] theorem hasPlacement_withSlots (u : DocState) (xs : List Slot) :
    (u.withSlots xs).hasPlacement t = Slots.hasPlacement xs t := by
  rw [hasPlacement, slots_withSlots]

/-- `s'` has no placement that `s` lacks but one of a task in `tasks`. -/
def Brings (tasks : Option TaskId) (s s' : DocState) : Prop :=
  ∀ t, s'.hasPlacement t = true → s.hasPlacement t = true ∨ tasks = some t

theorem Brings.refl (tasks : Option TaskId) (s : DocState) : Brings tasks s s := fun _ h => .inl h

theorem Brings.trans {tasks : Option TaskId} {s'' : DocState} (h : Brings tasks s s')
    (h' : Brings tasks s' s'') : Brings tasks s s'' :=
  fun t ht => (h' t ht).elim (h t) .inr

theorem Brings.of_eq {tasks : Option TaskId} (h : ∀ t, s'.hasPlacement t = s.hasPlacement t) :
    Brings tasks s s' := fun t ht => .inl (h t ▸ ht)

theorem brings_hideEntry (hs : s.Sound) (tasks : Option TaskId) (slot : Nat) :
    Brings tasks s (s.hideEntry slot) := by
  obtain ⟨u, xs, rfl⟩ := hs.aligned.exists_slots
  exact .of_eq fun t => by rw [hideEntry_withSlots]; simp

theorem Rewrites.brings (h : Rewrites task s s') (hs : s.Sound) (tasks : Option TaskId) :
    Brings tasks s s' := by
  obtain ⟨history, slot, line, stamps, hslot, rfl⟩ := h
  obtain ⟨u, xs, rfl⟩ := hs.aligned.exists_slots
  rw [contentSlot, slots_withSlots] at hslot
  obtain ⟨x, hx, hid⟩ := Option.bind_eq_some_iff.1 (contentSlot_id hslot)
  refine .of_eq fun t => ?_
  rw [setHistory_withSlots, replaceEntry_withSlots]
  show (({ u.setHistory task history with fieldStamps := stamps } : DocState).withSlots _).hasPlacement
    t = _
  rw [hasPlacement_withSlots, hasPlacement_withSlots]
  obtain ⟨rest, hperm, hperm'⟩ := Columns.modify_perm (Slot.withEntry (.task task line)) hx
  have hface : (x.withEntry (.task task line)).face = x.face := Slot.face_withEntry hid line
  refine Slots.hasPlacement_of_faces ?_
  refine (hperm'.map _).trans (List.Perm.trans ?_ (hperm.map _).symm)
  rw [List.map_cons, List.map_cons, hface]

theorem Deletes.brings {at_ : Hlc} (h : Deletes task at_ s s') (hs : s.Sound)
    (tasks : Option TaskId) : Brings tasks s s' := by
  obtain ⟨-, rfl⟩ := h
  have hnote : Brings tasks s (s.noteDeath task at_).1 := .of_eq fun _ => rfl
  split
  · split_ifs
    · exact hnote.trans (brings_hideEntry (hs.noteDeath task at_) tasks _)
    · exact hnote
  · exact hnote

theorem Inserts.brings {after : Option TaskId} {line : Text} {at_ : Hlc}
    (h : Inserts task after line at_ s s') (hs : s.Sound) : Brings (some task) s s' := by
  obtain ⟨-, -, -, spot, -, rfl⟩ := h
  obtain ⟨u, xs, rfl⟩ := hs.aligned.exists_slots
  intro t ht
  rw [insertEntry_withSlots, hasPlacement_withSlots] at ht
  rw [hasPlacement_withSlots]
  exact Slots.hasPlacement_insertIdx ht

theorem InsertsAgain.brings {after : Option TaskId} {at_ : Hlc} (h : InsertsAgain task after at_ s s')
    (hs : s.Sound) : Brings (some task) s s' := by
  obtain ⟨-, -, spot, history, stamps, merged, -, rfl⟩ := h
  obtain ⟨u, xs, rfl⟩ := hs.aligned.exists_slots
  have hfields : ({ (u.withSlots xs).setHistory task history with fieldStamps := stamps } :
      DocState) = ({ u.setHistory task history with fieldStamps := stamps } : DocState).withSlots xs :=
    rfl
  rw [hfields]
  generalize ({ u.setHistory task history with fieldStamps := stamps } : DocState) = v
  intro t ht
  rw [hasPlacement_withSlots]
  unfold placeAgain at ht
  dsimp only at ht
  rw [insertEntry_withSlots, hideEntry_withSlots, noteRebirth_withSlots] at ht
  split_ifs at ht
  · rw [showNewest_withSlots, setLines_withSlots, rehomeOnto_withSlots, hasPlacement_withSlots] at ht
    simp only [Slots.hasPlacement_rehomeOnto, Slots.hasPlacement_setLines,
      Slots.hasPlacement_showNewest, Slots.hasPlacement_hide] at ht
    exact Slots.hasPlacement_insertIdx ht
  · rw [setLines_withSlots, rehomeOnto_withSlots, hasPlacement_withSlots] at ht
    simp only [Slots.hasPlacement_rehomeOnto, Slots.hasPlacement_setLines,
      Slots.hasPlacement_hide] at ht
    exact Slots.hasPlacement_insertIdx ht

theorem MovesAway.brings (h : MovesAway task s s') (hs : s.Sound) (tasks : Option TaskId) :
    Brings tasks s s' := by
  obtain ⟨-, rfl⟩ := h
  cases s.liveSlot task with
  | none => exact .refl tasks s
  | some slot => exact brings_hideEntry hs tasks slot

theorem PlacesGhost.brings {after : Option TaskId} {at_ : Hlc} (h : PlacesGhost task after at_ s s')
    (hs : s.Sound) : Brings (some task) s s' := by
  obtain ⟨-, spot, line, -, -, rfl⟩ := h
  obtain ⟨u, xs, rfl⟩ := hs.aligned.exists_slots
  intro t ht
  rw [insertEntry_withSlots, hideEntry_withSlots, rehomeOnto_withSlots, hasPlacement_withSlots] at ht
  simp only [Slots.hasPlacement_rehomeOnto, Slots.hasPlacement_hide] at ht
  rw [hasPlacement_withSlots]
  exact Slots.hasPlacement_insertIdx ht

theorem Moves.brings {after : Option TaskId} {at_ : Hlc} (h : Moves task after at_ s s')
    (hs : s.Sound) : Brings (some task) s s' := by
  obtain ⟨slot, entry, spot, hlive, -, hentry, -, rfl⟩ := h
  obtain ⟨u, xs, rfl⟩ := hs.aligned.exists_slots
  intro t ht
  rw [hideEntry_withSlots, insertEntry_withSlots, rehomeOnto_withSlots, hasPlacement_withSlots,
    Slots.hasPlacement_rehomeOnto] at ht
  rw [hasPlacement_withSlots]
  rcases Slots.hasPlacement_insertIdx ht with ht | ht
  · exact .inl (by simpa using ht)
  · refine .inr ?_
    rw [liveSlot, slots_withSlots] at hlive
    obtain ⟨x, hx, hshows⟩ := Slots.liveSlot_spec hlive
    rw [withSlots_entries, List.getElem?_map, hx] at hentry
    have hentry' : x.entry = entry := Option.some.inj hentry
    rw [← ht, ← (Slot.shows_iff.1 hshows).2, ← hentry']
    rfl

theorem insertEntry_blank_brings (hs : s.Sound) (spot : Spot) (at_ : Hlc) :
    Brings none s (s.insertEntry spot s.blankEntry at_) := by
  obtain ⟨u, xs, rfl⟩ := hs.aligned.exists_slots
  intro t ht
  rw [insertEntry_withSlots, hasPlacement_withSlots] at ht
  rw [hasPlacement_withSlots]
  exact Slots.hasPlacement_insertIdx ht

theorem Erases.brings {after : Option TaskId} {at_ : Hlc} (h : Erases after at_ s s') (hs : s.Sound) :
    Brings none s s' := by
  obtain ⟨spot, -, rfl⟩ := h
  obtain ⟨u, xs, rfl⟩ := hs.aligned.exists_slots
  intro t ht
  rw [placeEraser_withSlots, hasPlacement_withSlots] at ht
  rw [hasPlacement_withSlots]
  exact Slots.hasPlacement_insertIdx ht

theorem brings_settleErasers (hs : s.Sound) (tasks : Option TaskId) :
    Brings tasks s s.settleErasers := by
  obtain ⟨u, xs, rfl⟩ := hs.aligned.exists_slots
  exact .of_eq fun t => by rw [settleErasers_withSlots]; simp

theorem brings_pruneGhosts (hs : s.Sound) (tasks : Option TaskId) : Brings tasks s s.pruneGhosts := by
  have hto : ∀ max, Brings tasks s (s.pruneGhostsTo max) := by
    intro max
    by_cases hle : s.ghosts ≤ max
    · rw [pruneGhostsTo, if_pos hle]
      exact .refl tasks s
    · obtain ⟨u, xs, rfl⟩ := hs.aligned.exists_slots
      intro t ht
      rw [pruneGhostsTo_withSlots (not_le.1 hle), hasPlacement_withSlots] at ht
      rw [hasPlacement_withSlots]
      refine .inl (Slots.hasPlacement_sublist ?_ ht)
      conv_rhs => rw [← List.zipIdx_map_fst 0 xs]
      exact List.filter_sublist.map _
  unfold pruneGhosts pruneGhostsPast
  split_ifs
  · exact hto _
  · exact .refl tasks s

/-- What an op that failed or applied brings, when it leaves what `P` says. -/
theorem FailsOr.brings {P : DocState → Prop} {out : Outcome} {tasks : Option TaskId}
    (h : FailsOr s P out) (hP : ∀ s', P s' → Brings tasks s s') :
    (out.result = .ok () → Brings tasks s out.state) ∧
      (out.result ≠ .ok () → Brings none s out.state) := by
  rcases h with ⟨e, rfl⟩ | ⟨s', rfl, hp⟩
  · exact ⟨fun hok => (by cases hok), fun _ => .refl none s⟩
  · exact ⟨fun _ => hP s' hp, fun hne => absurd rfl hne⟩

theorem brings_setHistory_fails (h : Option TextHistory) (e : StateError) (tasks : Option TaskId) :
    (((s.setHistory task h).fails e).result = .ok () →
        Brings tasks s ((s.setHistory task h).fails e).state) ∧
      (((s.setHistory task h).fails e).result ≠ .ok () →
        Brings none s ((s.setHistory task h).fails e).state) :=
  ⟨fun hok => (by cases hok), fun _ => .of_eq fun _ => rfl⟩

theorem applyKind_brings (hs : s.Sound) (op : Op) :
    ((s.applyKind op).result = .ok () → Brings (subject op.kind) s (s.applyKind op).state) ∧
      ((s.applyKind op).result ≠ .ok () → Brings none s (s.applyKind op).state) := by
  obtain ⟨id, at_, file, kind⟩ := op
  cases kind with
  | insert task after line =>
    rcases insert_outcome task after line at_ with hor | ⟨h, e, -, -, hout⟩
    · refine hor.brings fun s' => ?_
      rintro (hi | hi)
      · exact hi.brings hs
      · exact hi.brings hs
    · show ((s.insert task after line at_).result = _ → _) ∧ _
      rw [show s.applyKind ⟨id, at_, file, .insert task after line⟩ = s.insert task after line at_
        from rfl, hout]
      exact brings_setHistory_fails _ e _
  | setField task field value =>
    by_cases hdeleted : field = .deleted
    · subst hdeleted
      exact (setDeleted_outcome task value at_).brings fun s' h => h.brings hs _
    · rcases setField_outcome s task hdeleted value at_ with hor |
        ⟨-, -, -, line, description, e, -, -, -, hout⟩
      · refine hor.brings fun s' => ?_
        rintro (rfl | hr)
        · exact .refl _ s'
        · exact hr.brings hs _
      · obtain ⟨h, hh⟩ := clearPriInDescription_state s task description
        rw [show s.applyKind ⟨id, at_, file, .setField task field value⟩
          = s.setField task field value at_ from rfl, hout, hh]
        exact brings_setHistory_fails h e _
  | editText task edits => exact (editText_outcome task edits at_).brings fun s' h => h.brings hs _
  | move task after toFile =>
    by_cases hfile : toFile = s.path
    · subst hfile
      refine (moveTask_here task after at_).brings fun s' => ?_
      rintro ⟨-, hg | hm⟩
      · exact hg.brings hs
      · exact hm.brings hs
    · exact (moveTask_away task after at_ hfile).brings fun s' h => h.brings hs _
  | notesEdit file edits => exact ⟨fun hok => (by cases hok), fun _ => .refl none s⟩
  | blankInsert after =>
    refine (blankInsert_outcome after at_).brings ?_
    rintro s' ⟨-, spot, -, rfl⟩
    exact insertEntry_blank_brings hs spot at_
  | blankRemove after => exact (blankRemove_outcome after at_).brings fun s' h => h.brings hs
  | removeTag task key => exact (removeTag_outcome task key at_).brings fun s' h => h.brings hs _

/-- An op that applies brings a placement of its subject at most, one that fails none. -/
theorem apply_brings (hs : s.Sound) (op : Op) :
    ((s.apply op).result = .ok () → Brings (subject op.kind) s (s.apply op).state) ∧
      ((s.apply op).result ≠ .ok () → Brings none s (s.apply op).state) := by
  obtain ⟨hok, herr⟩ := applyKind_brings hs op
  have hkind := hs.applyKind op
  unfold DocState.apply
  dsimp only
  split
  · next e he => exact ⟨fun h => (by cases h), fun _ => herr (by rw [he]; simp)⟩
  · next he =>
    refine ⟨fun _ => (hok he).trans ?_, fun hne => absurd rfl hne⟩
    unfold settled
    split_ifs
    · exact (brings_settleErasers hkind _).trans (brings_pruneGhosts hkind.settleErasers _)
    · exact brings_pruneGhosts hkind _

end DocState

end Txtodo
