import Txtodo.Engine.Reachable
import Txtodo.Engine.Proofs.SlotsProofs
import Mathlib.Data.List.Count

/-!
# Proofs: the sequence stays sound

Soundness reads a slot's id and flags only, and no order: what places, moves, hides or shows slots
keeps it.
-/

namespace Txtodo

/-- The part of a slot soundness reads. -/
def Slot.face (x : Slot) : Option TaskId × Bool × Bool := (x.id, x.hidden, x.eraser)

namespace Slot

@[simp] theorem face_withHidden (b : Bool) (x : Slot) :
    (x.withHidden b).face = (x.id, b, x.eraser) := rfl

@[simp] theorem face_withParent (p : Parent) (x : Slot) : (x.withParent p).face = x.face := rfl

@[simp] theorem face_settle (at_ : Hlc) (x : Slot) : (x.settle at_).face = x.face := rfl

theorem face_withEntry {task : TaskId} {x : Slot} (h : x.id = some task) (line : OwnedLine) :
    (x.withEntry (.task task line)).face = x.face := by
  simp only [face, withEntry, h]
  rfl

@[simp] theorem entry_id (x : Slot) : x.entry.id = x.id := rfl

theorem shows_iff {task : TaskId} {x : Slot} :
    x.shows task = true ↔ x.hidden = false ∧ x.id = some task := by simp [shows]

theorem id_eq_none_iff {x : Slot} : x.id = none ↔ x.isBlank = true := by
  cases h : x.entry <;> simp [id, isBlank, h, Entry.id, Entry.isBlank]

end Slot

namespace Slots

variable {xs ys : List Slot}

/-- Soundness depends on the faces only, in any order. -/
theorem Sound.of_faces (h : Sound xs) (hp : (ys.map Slot.face).Perm (xs.map Slot.face)) :
    Sound ys where
  eraser := by
    intro y hy he
    obtain ⟨x, hx, hface⟩ := List.mem_map.1 (hp.mem_iff.1 (List.mem_map_of_mem (f := Slot.face) hy))
    simp only [Slot.face, Prod.mk.injEq] at hface
    obtain ⟨hid, hhidden, heraser⟩ := hface
    rw [← hid, ← hhidden]
    exact h.eraser x hx (heraser ▸ he)
  shown := by
    intro task
    let p : Option TaskId × Bool × Bool → Bool := fun f => !f.2.1 && f.1 = some task
    have hcount : ∀ zs : List Slot, zs.countP (Slot.shows task) = (zs.map Slot.face).countP p :=
      fun zs => by rw [List.countP_map]; rfl
    rw [hcount, hp.countP_eq, ← hcount]
    exact h.shown task

theorem Sound.sublist (h : Sound xs) (hsub : ys.Sublist xs) : Sound ys where
  eraser y hy := h.eraser y (hsub.subset hy)
  shown task := (hsub.countP_le).trans (h.shown task)

theorem sound_cons {x : Slot} :
    Sound (x :: xs) ↔ (x.eraser = true → x.hidden = true ∧ x.id = none) ∧ Sound xs ∧
      ∀ task, x.shows task = true → xs.countP (Slot.shows task) = 0 := by
  constructor
  · intro h
    refine ⟨h.eraser x (List.mem_cons_self ..), h.sublist (List.sublist_cons_self ..), ?_⟩
    intro task hshows
    have := h.shown task
    rw [List.countP_cons_of_pos hshows] at this
    omega
  · rintro ⟨heraser, h, hfree⟩
    refine ⟨fun y hy he => ?_, fun task => ?_⟩
    · rcases List.mem_cons.1 hy with rfl | hy
      · exact heraser he
      · exact h.eraser y hy he
    · by_cases hshows : x.shows task = true
      · rw [List.countP_cons_of_pos hshows, hfree task hshows]
      · rw [List.countP_cons_of_neg hshows]
        exact h.shown task

theorem Sound.perm (h : Sound xs) (hp : ys.Perm xs) : Sound ys := h.of_faces (hp.map _)

/-- A new slot keeps the sequence sound wherever it is put, when it does so at the front. -/
theorem Sound.insertIdx (h : Sound xs) {x : Slot} (hx : Sound (x :: xs)) (i : Nat) :
    Sound (xs.insertIdx i x) := by
  by_cases hi : i ≤ xs.length
  · exact hx.perm (List.perm_insertIdx x xs hi)
  · rwa [List.insertIdx_of_length_lt (not_le.1 hi)]

/-- A new slot that is hidden, and blank if it is an eraser. -/
theorem Sound.insertIdx_hidden (h : Sound xs) {x : Slot} (hhidden : x.hidden = true)
    (heraser : x.eraser = true → x.id = none) (i : Nat) : Sound (xs.insertIdx i x) :=
  h.insertIdx (sound_cons.2 ⟨fun he => ⟨hhidden, heraser he⟩, h,
    fun task hs => by simp [Slot.shows, hhidden] at hs⟩) i

/-- A new shown slot of a task not shown, or of a blank. -/
theorem Sound.insertIdx_shown (h : Sound xs) {x : Slot} (heraser : x.eraser = false)
    (hfree : ∀ task, x.id = some task → xs.countP (Slot.shows task) = 0) (i : Nat) :
    Sound (xs.insertIdx i x) :=
  h.insertIdx (sound_cons.2 ⟨by simp [heraser], h,
    fun task hs => hfree task (Slot.shows_iff.1 hs).2⟩) i

/-- Changing one slot so that the sequence stays sound with it at the front. -/
theorem Sound.modify (h : Sound xs) {f : Slot → Slot} (i : Nat)
    (hf : ∀ x rest, xs[i]? = some x → xs.Perm (x :: rest) → Sound (x :: rest) →
      Sound (f x :: rest)) :
    Sound (xs.modify i f) := by
  cases hi : xs[i]? with
  | none => rwa [Columns.modify_of_none f hi]
  | some x =>
    obtain ⟨rest, hp, hp'⟩ := Columns.modify_perm f hi
    exact (hf x rest hi hp (h.perm hp.symm)).perm hp'

theorem Sound.hide (h : Sound xs) (i : Nat) : Sound (xs.modify i (Slot.withHidden true)) := by
  refine h.modify i fun x rest _ _ hx => ?_
  obtain ⟨heraser, hrest, -⟩ := sound_cons.1 hx
  exact sound_cons.2 ⟨fun he => ⟨rfl, (heraser he).2⟩, hrest,
    fun task hs => by simp [Slot.shows, Slot.withHidden] at hs⟩

/-- Showing a placement of a task that is not shown. -/
theorem Sound.show_ (h : Sound xs) {i : Nat} {x : Slot} {task : TaskId} (hi : xs[i]? = some x)
    (hid : x.id = some task) (hfree : xs.countP (Slot.shows task) = 0) :
    Sound (xs.modify i (Slot.withHidden false)) := by
  refine h.modify i fun y rest hy hp hyr => ?_
  obtain rfl : x = y := Option.some.inj (hi.symm.trans hy)
  obtain ⟨heraser, hrest, -⟩ := sound_cons.1 hyr
  refine sound_cons.2 ⟨fun he => absurd (heraser he).2 (by simp [hid]), hrest, fun other hs => ?_⟩
  obtain rfl : task = other := Option.some.inj (hid.symm.trans (Slot.shows_iff.1 hs).2)
  have := hp.countP_eq (Slot.shows task)
  rw [hfree, List.countP_cons] at this
  omega

/-- Another line for a placement of the same task. -/
theorem Sound.setEntry (h : Sound xs) {i : Nat} {task : TaskId} (line : OwnedLine)
    (hid : xs[i]?.bind Slot.id = some task) :
    Sound (xs.modify i (Slot.withEntry (.task task line))) := by
  refine h.modify i fun x rest hi _ hx => ?_
  rw [hi, Option.bind_some] at hid
  refine hx.of_faces ?_
  rw [List.map_cons, List.map_cons, Slot.face_withEntry hid line]

theorem Sound.setLines (h : Sound xs) (task : TaskId) (line : OwnedLine) :
    Sound (setLines xs task line) := by
  refine h.of_faces (List.Perm.of_eq ?_)
  rw [Slots.setLines, List.map_map]
  refine List.map_congr_left fun x _ => ?_
  by_cases hid : x.id = some task
  · simp [hid, Slot.face_withEntry hid]
  · simp [hid]

/-- Moving a range keeps every item. -/
theorem moveRange_perm {α : Type} {head stop : Nat} (hle : head ≤ stop) (at_ : Nat) (l : List α) :
    (moveRange head stop at_ id l).Perm l := by
  have hsplit : l.take head ++ ((l.take stop).drop head ++ l.drop stop) = l := by
    have htake : l.take head = (l.take stop).take head := by rw [List.take_take, min_eq_left hle]
    rw [← List.append_assoc, htake, List.take_append_drop, List.take_append_drop]
  simp only [moveRange, id]
  calc (l.take head ++ l.drop stop).take at_ ++ (l.take stop).drop head ++
        (l.take head ++ l.drop stop).drop at_
      = (l.take head ++ l.drop stop).take at_ ++ ((l.take stop).drop head ++
        (l.take head ++ l.drop stop).drop at_) := List.append_assoc ..
    _ |>.Perm ((l.take head ++ l.drop stop).take at_ ++ ((l.take head ++ l.drop stop).drop at_ ++
        (l.take stop).drop head)) := List.perm_append_comm.append_left _
    _ = (l.take head ++ l.drop stop) ++ (l.take stop).drop head := by
        rw [← List.append_assoc, List.take_append_drop]
    _ |>.Perm (l.take head ++ ((l.take stop).drop head ++ l.drop stop)) := by
        rw [List.append_assoc]
        exact List.perm_append_comm.append_left _
    _ = l := hsplit

theorem le_blockEnd (xs : List Slot) (head : Nat) : head ≤ blockEnd xs head := by
  unfold blockEnd
  split <;> omega

theorem blockSpot_stop {head : Nat} {task : TaskId} {placed : Hlc} {spot : Nat × Nat}
    (h : blockSpot xs head task placed = some spot) : spot.1 = blockEnd xs head := by
  unfold blockSpot at h
  split at h
  · cases h
  · next anchor _ =>
    by_cases hin : head ≤ anchor ∧ anchor < blockEnd xs head
    · simp [hin] at h
    · rw [if_neg hin] at h
      exact (congrArg Prod.fst (Option.some.inj h)).symm

/-- The slots of a moved block are those it had, its head under another parent. -/
theorem moveBlock_perm {β : Type} {g : Slot → β} (hg : ∀ p x, g (Slot.withParent p x) = g x) {head : Nat}
    {task : TaskId} {placed : Hlc} (h : moveBlock xs head task placed = some ys) :
    (ys.map g).Perm (xs.map g) := by
  obtain ⟨⟨stop, at_⟩, hspot, rfl⟩ := Option.map_eq_some_iff.1 h
  have hstop : head ≤ stop := (le_blockEnd xs head).trans_eq (blockSpot_stop hspot).symm
  rw [DocState.map_moveRange g _ id fun block =>
    Columns.map_modify_eq (f := Slot.withParent _) (hg _) 0 block]
  exact moveRange_perm hstop at_ _

theorem rehomePasses_perm {β : Type} {g : Slot → β} (hg : ∀ p x, g (Slot.withParent p x) = g x) (task : TaskId)
    (placed : Hlc) (n : Nat) (xs : List Slot) : ((rehomePasses task placed n xs).map g).Perm (xs.map g) := by
  induction n generalizing xs with
  | zero => exact .refl _
  | succ n ih =>
    rw [rehomePasses]
    split
    · exact .refl _
    · next ys hmove =>
      obtain ⟨head, -, hblock⟩ := Option.bind_eq_some_iff.1 hmove
      exact (ih ys).trans (moveBlock_perm hg hblock)

theorem rehomePasses_faces (task : TaskId) (placed : Hlc) (n : Nat) (xs : List Slot) :
    ((rehomePasses task placed n xs).map Slot.face).Perm (xs.map Slot.face) :=
  rehomePasses_perm (fun _ _ => rfl) task placed n xs

theorem Sound.rehomeOnto (h : Sound xs) (task : TaskId) (placed : Hlc) :
    Sound (rehomeOnto xs task placed) :=
  h.of_faces (rehomePasses_faces task placed _ xs)

/-- Settling erasers shows and hides blanks that are not erasers. -/
theorem Sound.settleErasers (h : Sound xs) : Sound (settleErasers xs) := by
  have hpoint : ∀ (claimed : List Nat) (x : Slot × Nat) (task : TaskId),
      (settleBlank claimed x).shows task = x.1.shows task := by
    intro claimed x task
    unfold settleBlank
    split_ifs with hblank
    · have hid : x.1.id = none := Slot.id_eq_none_iff.2 (by simpa using (Bool.and_eq_true_iff.1 hblank).1)
      have hid' : (x.1.withHidden (decide (x.2 ∈ claimed))).id = none := hid
      simp [Slot.shows, hid, hid']
    · rfl
  unfold Slots.settleErasers
  split_ifs with he
  · refine ⟨fun y hy heraser => ?_, fun task => ?_⟩
    · obtain ⟨x, hx, rfl⟩ := List.mem_map.1 hy
      have hmem : x.1 ∈ xs := (List.mem_zipIdx' hx).2 ▸ List.getElem_mem _
      revert heraser
      unfold settleBlank
      split_ifs with hblank
      · intro heraser
        have heraser' : x.1.eraser = true := heraser
        simp [heraser'] at hblank
      · exact h.eraser x.1 hmem
    · rw [List.countP_map]
      have hcount := h.shown task
      rw [← List.zipIdx_map_fst 0 xs, List.countP_map] at hcount
      rwa [List.countP_congr fun x _ => by rw [Function.comp_apply, hpoint]]
  · exact h

theorem liveSlot_eq_none_iff {task : TaskId} :
    liveSlot xs task = none ↔ xs.countP (Slot.shows task) = 0 := by
  rw [liveSlot, List.findIdx?_eq_none_iff, List.countP_eq_zero]
  simp [Slot.shows]

/-- The live slot shows its task. -/
theorem liveSlot_spec {task : TaskId} {l : Nat} (h : liveSlot xs task = some l) :
    ∃ x, xs[l]? = some x ∧ x.shows task = true := by
  obtain ⟨hl, hshows, -⟩ := List.findIdx?_eq_some_iff_getElem.1 h
  exact ⟨xs[l], List.getElem?_eq_getElem hl, hshows⟩

theorem mem_placements {task : TaskId} {x : Slot × Nat} :
    x ∈ placements xs task ↔ xs[x.2]? = some x.1 ∧ x.1.id = some task := by
  rw [placements, List.mem_filter, List.mem_zipIdx_iff_getElem?]
  simp

/-- No shown placement is left once the live slot is hidden. -/
theorem Sound.hide_live (h : Sound xs) {task : TaskId} {l : Nat} (hl : liveSlot xs task = some l) :
    (xs.modify l (Slot.withHidden true)).countP (Slot.shows task) = 0 := by
  obtain ⟨x, hx, hshows⟩ := liveSlot_spec hl
  obtain ⟨rest, hp, hp'⟩ := Columns.modify_perm (Slot.withHidden true) hx
  rw [hp'.countP_eq, List.countP_cons_of_neg (by simp [Slot.shows, Slot.withHidden])]
  exact (sound_cons.1 (h.perm hp.symm)).2.2 task hshows

theorem Sound.showNewest (h : Sound xs) (task : TaskId) (added : Nat) :
    Sound (showNewest xs task added) := by
  unfold Slots.showNewest
  dsimp only
  split_ifs with hsame
  · exact h
  · cases hnew : Iter.maxByKey (fun x : Slot × Nat => toLex (x.1.stamp, decide (x.2 = added)))
      (placements xs task) with
    | none =>
      cases liveSlot xs task with
      | none => exact h
      | some l => exact h.hide l
    | some m =>
      obtain ⟨hm, hid⟩ := mem_placements.1 (Iter.maxByKey_mem hnew)
      cases hl : liveSlot xs task with
      | none => exact h.show_ hm hid (liveSlot_eq_none_iff.1 hl)
      | some l =>
        rw [hnew, hl] at hsame
        have hne : l ≠ m.2 := fun heq => hsame (by simp [heq])
        exact (h.hide l).show_ (by rw [List.getElem?_modify_ne _ _ hne]; exact hm) hid
          (h.hide_live hl)

theorem Sound.removeAt (h : Sound xs) (drop : List Nat) : Sound (removeAt drop xs) := by
  refine h.sublist ?_
  conv_rhs => rw [← List.zipIdx_map_fst 0 xs]
  exact List.filter_sublist.map _

/-- Slots with the same faces, read column by column. -/
theorem Sound.of_map_eq (h : Sound xs) (heq : ys.map Slot.face = xs.map Slot.face) : Sound ys :=
  h.of_faces (List.Perm.of_eq heq)

theorem Sound.settle (h : Sound xs) (at_ : Hlc) : Sound (xs.map (Slot.settle at_)) := by
  refine h.of_map_eq ?_
  rw [List.map_map]
  rfl

end Slots

end Txtodo
