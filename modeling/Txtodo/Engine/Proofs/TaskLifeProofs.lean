import Txtodo.Engine.Proofs.FrameProofs
import Txtodo.Engine.Proofs.HeaderProofs
import Txtodo.Std.Standing
import Mathlib.Data.List.Permutation

/-!
# Proofs: the life of a task

A delete, an insert again, a move and a move to another file do to a task what the four acts do to a thing that
stands under stamps; so its life settles alike in every order exactly where these do not clash.
-/

namespace Txtodo

namespace Slots

variable {xs ys : List Slot} {task : TaskId} {live : Option Hlc} {newest at_ : Hlc}

/-! ## Where a task stands -/

/-- The placement a task is shown at and its newest one. -/
structure Stands (xs : List Slot) (task : TaskId) (live : Option Hlc) (newest : Hlc) : Prop where
  shown : ∀ at_, live = some at_ ↔ ∃ x ∈ xs, x.shows task = true ∧ x.stamp = at_
  exists_newest : ∃ x ∈ xs, x.id = some task ∧ x.stamp = newest
  le_newest : ∀ x ∈ xs, x.id = some task → x.stamp ≤ newest

/-- The part of a slot this reads. -/
def post (x : Slot) : Option TaskId × Bool × Hlc := (x.id, x.hidden, x.stamp)

theorem Stands.of_posts (h : Stands xs task live newest) (hp : (ys.map post).Perm (xs.map post)) :
    Stands ys task live newest := by
  have hmem : ∀ {zs zs' : List Slot}, (zs.map post).Perm (zs'.map post) → ∀ x ∈ zs,
      ∃ y ∈ zs', y.id = x.id ∧ y.hidden = x.hidden ∧ y.stamp = x.stamp := fun hperm x hx => by
    obtain ⟨y, hy, hpost⟩ := List.mem_map.1 (hperm.mem_iff.1 (List.mem_map_of_mem hx))
    simp only [post, Prod.mk.injEq] at hpost
    exact ⟨y, hy, hpost⟩
  refine ⟨fun at_ => (h.shown at_).trans ⟨?_, ?_⟩, ?_, fun y hy hid => ?_⟩
  · rintro ⟨x, hx, hshows, rfl⟩
    obtain ⟨y, hy, hid, hhidden, hstamp⟩ := hmem hp.symm x hx
    exact ⟨y, hy, by rw [Slot.shows, hid, hhidden]; exact hshows, hstamp⟩
  · rintro ⟨y, hy, hshows, rfl⟩
    obtain ⟨x, hx, hid, hhidden, hstamp⟩ := hmem hp y hy
    exact ⟨x, hx, by rw [Slot.shows, hid, hhidden]; exact hshows, hstamp⟩
  · obtain ⟨x, hx, hid, hstamp⟩ := h.exists_newest
    obtain ⟨y, hy, hid', -, hstamp'⟩ := hmem hp.symm x hx
    exact ⟨y, hy, hid'.trans hid, hstamp'.trans hstamp⟩
  · obtain ⟨x, hx, hid', -, hstamp⟩ := hmem hp y hy
    exact hstamp ▸ h.le_newest x hx (hid'.trans hid)

/-- Only a task's own placements are read, and not what they follow. -/
theorem Stands.of_held (h : Stands xs task live newest) (hp : (held ys task).Perm (held xs task)) :
    Stands ys task live newest := by
  have hmem : ∀ {zs zs' : List Slot}, (held zs task).Perm (held zs' task) → ∀ x ∈ zs, x.id = some task →
      ∃ y ∈ zs', y.id = some task ∧ y.hidden = x.hidden ∧ y.stamp = x.stamp := fun hperm x hx hid => by
    obtain ⟨y, hy, hidy, heq⟩ := mem_held.1 (hperm.mem_iff.1 (mem_held.2 ⟨x, hx, hid, rfl⟩))
    rw [Slot.withParent, Slot.withParent, Slot.mk.injEq] at heq
    exact ⟨y, hy, hidy, heq.2.2.1, heq.2.1⟩
  have hshows : ∀ {zs zs' : List Slot}, (held zs task).Perm (held zs' task) → ∀ at_ : Hlc,
      (∃ x ∈ zs, x.shows task = true ∧ x.stamp = at_) → ∃ y ∈ zs', y.shows task = true ∧ y.stamp = at_ := by
    rintro zs zs' hperm at_ ⟨x, hx, hshows, rfl⟩
    obtain ⟨hhidden, hid⟩ := Slot.shows_iff.1 hshows
    obtain ⟨y, hy, hidy, hhiddeny, hstamp⟩ := hmem hperm x hx hid
    exact ⟨y, hy, Slot.shows_iff.2 ⟨hhiddeny.trans hhidden, hidy⟩, hstamp⟩
  refine ⟨fun at_ => (h.shown at_).trans ⟨hshows hp.symm at_, hshows hp at_⟩, ?_, fun y hy hid => ?_⟩
  · obtain ⟨x, hx, hid, hstamp⟩ := h.exists_newest
    obtain ⟨y, hy, hidy, -, hstampy⟩ := hmem hp.symm x hx hid
    exact ⟨y, hy, hidy, hstampy.trans hstamp⟩
  · obtain ⟨x, hx, hidx, -, hstamp⟩ := hmem hp y hy hid
    exact hstamp ▸ h.le_newest x hx hidx

/-- One more placement, which counts among the newest. -/
theorem Stands.placed (h : Stands xs task live newest) {x : Slot} {live' : Option Hlc} (hp : ys.Perm (x :: xs))
    (hid : x.id = some task)
    (hshown : ∀ at_, live' = some at_ ↔ ∃ y ∈ x :: xs, y.shows task = true ∧ y.stamp = at_) :
    Stands ys task live' (max newest x.stamp) := by
  refine ⟨fun at_ => (hshown at_).trans ?_, ?_, fun y hy hid' => ?_⟩
  · simp only [hp.mem_iff]
  · rcases le_total newest x.stamp with hle | hle
    · exact ⟨x, hp.mem_iff.2 List.mem_cons_self, hid, (max_eq_right hle).symm⟩
    · obtain ⟨y, hy, hid', hstamp⟩ := h.exists_newest
      exact ⟨y, hp.mem_iff.2 (List.mem_cons_of_mem _ hy), hid', hstamp.trans (max_eq_left hle).symm⟩
  · rcases List.mem_cons.1 (hp.mem_iff.1 hy) with rfl | hy
    · exact le_max_right ..
    · exact (h.le_newest y hy hid').trans (le_max_left ..)

/-- A new placement that is not shown. -/
theorem Stands.ghost (h : Stands xs task live newest) {x : Slot} (hp : ys.Perm (x :: xs)) (hid : x.id = some task)
    (hhidden : x.hidden = true) : Stands ys task live (max newest x.stamp) := by
  refine h.placed hp hid fun at_ => (h.shown at_).trans ⟨?_, ?_⟩
  · rintro ⟨y, hy, rest⟩
    exact ⟨y, List.mem_cons_of_mem _ hy, rest⟩
  · rintro ⟨y, hy, hshows, hstamp⟩
    rcases List.mem_cons.1 hy with rfl | hy
    · rw [(Slot.shows_iff.1 hshows).1] at hhidden
      cases hhidden
    · exact ⟨y, hy, hshows, hstamp⟩

/-- A new placement that is shown, of a task that was not. -/
theorem Stands.shows (h : Stands xs task none newest) {x : Slot} (hp : ys.Perm (x :: xs)) (hid : x.id = some task)
    (hhidden : x.hidden = false) : Stands ys task (some x.stamp) (max newest x.stamp) := by
  refine h.placed hp hid fun at_ => ⟨?_, ?_⟩
  · rintro ⟨⟩
    exact ⟨x, List.mem_cons_self, Slot.shows_iff.2 ⟨hhidden, hid⟩, rfl⟩
  · rintro ⟨y, hy, hshows, rfl⟩
    rcases List.mem_cons.1 hy with rfl | hy
    · rfl
    · cases (h.shown y.stamp).2 ⟨y, hy, hshows, rfl⟩

/-- Hiding and showing change no placement. -/
theorem Stands.withHidden (h : Stands xs task live newest) {i : Nat} {b : Bool} {live' : Option Hlc}
    (hshown : ∀ at_, live' = some at_ ↔
      ∃ x ∈ xs.modify i (Slot.withHidden b), x.shows task = true ∧ x.stamp = at_) :
    Stands (xs.modify i (Slot.withHidden b)) task live' newest := by
  have hcolumns : (xs.modify i (Slot.withHidden b)).map (fun x => (x.id, x.stamp)) =
      xs.map fun x => (x.id, x.stamp) := DocState.map_modify_withHidden _ (fun _ _ => rfl) xs i b
  have hmem : ∀ {zs zs' : List Slot}, zs.map (fun x => (x.id, x.stamp)) = zs'.map (fun x => (x.id, x.stamp)) →
      ∀ x ∈ zs, ∃ y ∈ zs', y.id = x.id ∧ y.stamp = x.stamp := fun heq x hx => by
    obtain ⟨y, hy, hpair⟩ := List.mem_map.1 (heq ▸ List.mem_map_of_mem hx)
    exact ⟨y, hy, Prod.mk.inj hpair⟩
  refine ⟨hshown, ?_, fun y hy hid => ?_⟩
  · obtain ⟨x, hx, hid, hstamp⟩ := h.exists_newest
    obtain ⟨y, hy, hid', hstamp'⟩ := hmem hcolumns.symm x hx
    exact ⟨y, hy, hid'.trans hid, hstamp'.trans hstamp⟩
  · obtain ⟨x, hx, hid', hstamp⟩ := hmem hcolumns y hy
    exact hstamp ▸ h.le_newest x hx (hid'.trans hid)

/-- The shown placement hidden. -/
theorem Stands.hide (h : Stands xs task live newest) (hs : Sound xs) {l : Nat} (hl : liveSlot xs task = some l) :
    Stands (xs.modify l (Slot.withHidden true)) task none newest := by
  refine h.withHidden fun at_ => ⟨fun hnone => (Option.some_ne_none _ hnone.symm).elim, ?_⟩
  rintro ⟨x, hx, hshows, -⟩
  exact absurd hshows (List.countP_eq_zero.1 (hs.hide_live hl) x hx)

/-- A placement of a hidden task shown. -/
theorem Stands.show_ (h : Stands xs task none newest) {i : Nat} {x : Slot} (hi : xs[i]? = some x)
    (hid : x.id = some task) : Stands (xs.modify i (Slot.withHidden false)) task (some x.stamp) newest := by
  obtain ⟨rest, hp, hp'⟩ := Columns.modify_perm (Slot.withHidden false) hi
  refine h.withHidden fun at_ => ⟨?_, ?_⟩
  · rintro ⟨⟩
    exact ⟨x.withHidden false, hp'.mem_iff.2 List.mem_cons_self, Slot.shows_iff.2 ⟨rfl, hid⟩, rfl⟩
  · rintro ⟨y, hy, hshows, rfl⟩
    rcases List.mem_cons.1 (hp'.mem_iff.1 hy) with rfl | hy
    · rfl
    · cases (h.shown y.stamp).2 ⟨y, hp.mem_iff.2 (List.mem_cons_of_mem _ hy), hshows, rfl⟩

/-- A task is shown where its live slot is. -/
theorem Stands.at_live (h : Stands xs task live newest) : (liveSlot xs task).bind (fun l => xs[l]?.map Slot.stamp) = live := by
  cases hl : liveSlot xs task with
  | some l =>
    obtain ⟨x, hx, hshows⟩ := liveSlot_spec hl
    rw [Option.bind_some, hx]
    exact ((h.shown x.stamp).2 ⟨x, List.mem_of_getElem? hx, hshows, rfl⟩).symm
  | none =>
    cases live with
    | none => rfl
    | some at_ =>
      obtain ⟨x, hx, hshows, -⟩ := (h.shown at_).1 rfl
      exact absurd hshows (List.countP_eq_zero.1 (liveSlot_eq_none_iff.1 hl) x hx)

theorem Stands.live_eq_none (h : Stands xs task live newest) (hl : liveSlot xs task = none) : live = none := by
  rw [← h.at_live, hl]
  rfl

/-- The newest placement is the one shown. -/
theorem Stands.showNewest (h : Stands xs task live newest) (hs : Sound xs) (added : Nat) :
    Stands (showNewest xs task added) task (some newest) newest := by
  cases hnew : Iter.maxByKey (fun x : Slot × Nat => toLex (x.1.stamp, decide (x.2 = added)))
      (placements xs task) with
  | none =>
    obtain ⟨x, hx, hid, -⟩ := h.exists_newest
    obtain ⟨i, hi⟩ := List.getElem?_of_mem hx
    have hmem : (x, i) ∈ placements xs task := mem_placements.2 ⟨hi, hid⟩
    rw [Iter.maxByKey_eq_none.1 hnew] at hmem
    cases hmem
  | some m =>
    obtain ⟨hm, hid⟩ := mem_placements.1 (Iter.maxByKey_mem hnew)
    have hstamp : m.1.stamp = newest := by
      refine le_antisymm (h.le_newest _ (List.mem_of_getElem? hm) hid) ?_
      obtain ⟨x, hx, hid', rfl⟩ := h.exists_newest
      obtain ⟨i, hi⟩ := List.getElem?_of_mem hx
      have hle := Iter.le_maxByKey hnew (mem_placements.2 ⟨hi, hid'⟩ : (x, i) ∈ placements xs task)
      exact (Prod.Lex.toLex_le_toLex.1 hle).elim le_of_lt fun heq => heq.1.le
    rw [Slots.showNewest, hnew]
    dsimp only [Option.map_some]
    cases hl : liveSlot xs task with
    | none =>
      obtain rfl := h.live_eq_none hl
      rw [if_neg (Option.some_ne_none _), ← hstamp]
      exact hstamp ▸ h.show_ hm hid
    | some l =>
      split_ifs with hsame
      · obtain rfl := Option.some.inj hsame
        have hlive := h.at_live
        rw [hl, Option.bind_some, hm] at hlive
        rwa [← hstamp, show some m.1.stamp = live from hlive, hstamp]
      · have hne : l ≠ m.2 := fun heq => hsame (by rw [heq])
        have hshown := (h.hide hs hl).show_ (by rw [List.getElem?_modify_ne _ _ hne]; exact hm) hid
        rwa [hstamp] at hshown

/-- Only a task's own slots are read. -/
theorem Stands.of_mem (h : Stands xs task live newest) (hmem : ∀ x : Slot, x.id = some task → (x ∈ ys ↔ x ∈ xs)) :
    Stands ys task live newest := by
  refine ⟨fun at_ => (h.shown at_).trans (exists_congr fun x => and_congr_left fun hx => ?_), ?_, fun x hx hid => ?_⟩
  · exact (hmem x (Slot.shows_iff.1 hx.1).2).symm
  · obtain ⟨x, hx, hid, hstamp⟩ := h.exists_newest
    exact ⟨x, (hmem x hid).2 hx, hid, hstamp⟩
  · exact h.le_newest x ((hmem x hid).1 hx) hid

theorem Stands.rehomeOnto (h : Stands xs task live newest) (head : TaskId) (placed : Hlc) :
    Stands (rehomeOnto xs head placed) task live newest :=
  h.of_posts (rehomePasses_perm (fun _ _ => rfl) head placed _ xs)

theorem Stands.setLines (h : Stands xs task live newest) (other : TaskId) (line : OwnedLine) :
    Stands (setLines xs other line) task live newest := by
  refine h.of_posts (.of_eq ?_)
  rw [Slots.setLines, List.map_map]
  refine List.map_congr_left fun x _ => ?_
  rw [Function.comp_apply]
  split_ifs with hid
  · rw [post, post, hid]
    rfl
  · rfl

end Slots

namespace DocState

variable {s s' : DocState} {task : TaskId} {after : Option TaskId} {at_ : Hlc} {σ : Standing Hlc}

/-- The stamp of the placement a task is shown at. -/
def shownAt (s : DocState) (task : TaskId) : Option Hlc := (s.liveSlot task).bind fun l => s.stamps[l]?

/-- A task stands in a document as `σ` says. -/
structure Follows (s : DocState) (task : TaskId) (σ : Standing Hlc) : Prop where
  stands : Slots.Stands s.slots task σ.shown σ.newest
  died : ((s.life task).bind Life.died).getD ⊥ = σ.died
  reborn : ((s.life task).bind Life.reborn).getD ⊥ = σ.reborn

theorem shownAt_withSlots (s : DocState) (xs : List Slot) (task : TaskId) :
    (s.withSlots xs).shownAt task = (Slots.liveSlot xs task).bind fun l => xs[l]?.map Slot.stamp := by
  rw [shownAt, liveSlot, slots_withSlots]
  congr 1
  funext l
  exact List.getElem?_map ..

theorem Follows.shownAt_eq (h : s.Follows task σ) (hs : s.Sound) : s.shownAt task = σ.shown := by
  obtain ⟨u, xs, rfl⟩ := hs.aligned.exists_slots
  have hstands := h.stands
  rw [slots_withSlots] at hstands
  rw [shownAt_withSlots, hstands.at_live]

theorem Follows.hasPlacement (h : s.Follows task σ) : s.hasPlacement task = true := by
  obtain ⟨x, hx, hid, -⟩ := h.stands.exists_newest
  exact Slots.hasPlacement_iff.2 ⟨x, hx, hid⟩

theorem getD_bot_max (o : Option Hlc) (at_ : Hlc) : (o.elim at_ fun d => max d at_) = max (o.getD ⊥) at_ := by
  cases o with
  | none => exact (max_bot_left at_).symm
  | some d => rfl

theorem all_le_iff (o : Option Hlc) (at_ : Hlc) : (o.all fun d => decide (d ≤ at_)) = true ↔ o.getD ⊥ ≤ at_ := by
  cases o with
  | none => exact iff_of_true rfl bot_le
  | some d => exact decide_eq_true_iff

/-- A life not yet recorded knows of nothing. -/
theorem life_getD (s : DocState) (task : TaskId) :
    ((s.life task).getD ⟨none, none⟩).died = (s.life task).bind Life.died ∧
      ((s.life task).getD ⟨none, none⟩).reborn = (s.life task).bind Life.reborn := by
  cases s.life task with
  | none => exact ⟨rfl, rfl⟩
  | some l => exact ⟨rfl, rfl⟩

theorem noteDeath_life (s : DocState) (task : TaskId) (at_ : Hlc) :
    (((s.noteDeath task at_).1.life task).bind Life.died).getD ⊥ =
        max (((s.life task).bind Life.died).getD ⊥) at_ ∧
      ((s.noteDeath task at_).1.life task).bind Life.reborn = (s.life task).bind Life.reborn := by
  obtain ⟨hdied, hreborn⟩ := life_getD s task
  simp only [noteDeath, setKey_self, Option.bind_some, Option.getD_some, getD_bot_max, hdied, hreborn, and_self]

theorem noteDeath_hides (s : DocState) (task : TaskId) (at_ : Hlc) :
    (s.noteDeath task at_).2 = true ↔ ((s.life task).bind Life.reborn).getD ⊥ ≤ at_ := by
  rw [noteDeath, (life_getD s task).2, all_le_iff]

theorem noteRebirth_life (s : DocState) (task : TaskId) (at_ : Hlc) :
    ((s.noteRebirth task at_).life task).bind Life.died = (s.life task).bind Life.died ∧
      (((s.noteRebirth task at_).life task).bind Life.reborn).getD ⊥ =
        max (((s.life task).bind Life.reborn).getD ⊥) at_ := by
  obtain ⟨hdied, hreborn⟩ := life_getD s task
  simp only [noteRebirth, setKey_self, Option.bind_some, Option.getD_some, getD_bot_max, hdied, hreborn, and_self]

/-- A delete takes the task down. -/
theorem Follows.deletes (h : s.Follows task σ) (hs : s.Sound) (hd : Deletes task at_ s s') :
    s'.Follows task (σ.step (.takeDown at_)) := by
  obtain ⟨-, rfl⟩ := hd
  have hlife := noteDeath_life s task at_
  have hhides := noteDeath_hides s task at_
  rw [h.died] at hlife
  rw [h.reborn] at hhides
  have hreborn := (congrArg (·.getD ⊥) hlife.2).trans h.reborn
  have hdied := hlife.1
  have hstands := h.stands
  obtain ⟨u, xs, rfl⟩ := hs.aligned.exists_slots
  rw [sound_withSlots] at hs
  rw [slots_withSlots] at hstands
  have hnote : ((u.withSlots xs).noteDeath task at_).1 = (u.noteDeath task at_).1.withSlots xs := rfl
  rw [hnote] at hdied hreborn ⊢
  rw [liveSlot, slots_withSlots]
  rw [Standing.step]
  cases hl : Slots.liveSlot xs task with
  | none =>
    have hnone := hstands.live_eq_none hl
    refine ⟨?_, hdied, hreborn⟩
    dsimp only
    rw [slots_withSlots, hnone, ite_self, ← hnone]
    exact hstands
  | some l =>
    dsimp only
    by_cases hnewer : σ.reborn ≤ at_
    · rw [if_pos (hhides.2 hnewer), if_pos hnewer, hideEntry_withSlots]
      refine ⟨?_, hdied, hreborn⟩
      rw [slots_withSlots]
      exact hstands.hide hs hl
    · rw [if_neg fun hh => hnewer (hhides.1 hh), if_neg hnewer]
      refine ⟨?_, hdied, hreborn⟩
      rw [slots_withSlots]
      exact hstands

/-- A move to another file sends the task away. -/
theorem Follows.movesAway (h : s.Follows task σ) (hs : s.Sound) (hm : MovesAway task s s') :
    s'.Follows task (σ.step .sendAway) := by
  obtain ⟨-, rfl⟩ := hm
  have hstands := h.stands
  obtain ⟨u, xs, rfl⟩ := hs.aligned.exists_slots
  rw [sound_withSlots] at hs
  rw [slots_withSlots] at hstands
  rw [liveSlot, slots_withSlots]
  cases hl : Slots.liveSlot xs task with
  | none =>
    refine ⟨?_, h.died, h.reborn⟩
    have hnone := hstands.live_eq_none hl
    rw [hnone] at hstands
    rw [Option.elim_none, slots_withSlots]
    exact hstands
  | some l =>
    rw [Option.elim_some, hideEntry_withSlots]
    refine ⟨?_, h.died, h.reborn⟩
    rw [slots_withSlots]
    exact hstands.hide hs hl

/-- A move of a hidden task, or one older than the shown placement, leaves the task where it was. -/
theorem Follows.placesGhost (h : s.Follows task σ) (hs : s.Sound) (hg : PlacesGhost task after at_ s s') :
    s'.Follows task (σ.step (.place at_)) := by
  obtain ⟨hstale, spot, line, hspot, -, rfl⟩ := hg
  have hshown := h.shownAt_eq hs
  have hstands := h.stands
  obtain ⟨u, xs, rfl⟩ := hs.aligned.exists_slots
  rw [slots_withSlots] at hstands
  rw [slotAfter, slots_withSlots] at hspot
  have hstays : σ.shown.map (max · at_) = σ.shown := by
    rw [← hshown, shownAt]
    cases hl : (u.withSlots xs).liveSlot task with
    | none => rfl
    | some l =>
      rw [Option.bind_some]
      have hnewer := hstale l hl
      rw [isStaleMove] at hnewer
      cases hstamp : (u.withSlots xs).stamps[l]? with
      | none => rfl
      | some placed =>
        rw [hstamp] at hnewer
        exact congrArg some (max_eq_left (of_decide_eq_true hnewer).le)
  rw [insertEntry_withSlots, hideEntry_withSlots, Columns.modify_insertIdx, rehomeOnto_withSlots]
  refine ⟨?_, h.died, h.reborn⟩
  rw [slots_withSlots, Standing.step, hstays]
  exact (hstands.ghost (List.perm_insertIdx _ xs (Slots.slotAfter_le hspot)) rfl rfl).rehomeOnto task at_

/-- A move that wins shows the task at its new placement. -/
theorem Follows.moves (h : s.Follows task σ) (hs : s.Sound) (hm : Moves task after at_ s s') :
    s'.Follows task (σ.step (.place at_)) := by
  obtain ⟨slot, entry, spot, hlive, hstale, hentry, hspot, rfl⟩ := hm
  have hshown := h.shownAt_eq hs
  have hstands := h.stands
  obtain ⟨u, xs, rfl⟩ := hs.aligned.exists_slots
  rw [sound_withSlots] at hs
  rw [slots_withSlots] at hstands
  obtain ⟨x, hx, hshows⟩ : ∃ x, xs[slot]? = some x ∧ x.shows task = true := by
    rw [liveSlot, slots_withSlots] at hlive
    exact Slots.liveSlot_spec hlive
  have hmoved : σ.shown.map (max · at_) = some at_ := by
    have hstamp : (u.withSlots xs).stamps[slot]? = some x.stamp := by
      rw [withSlots_stamps, List.getElem?_map, hx]
      rfl
    rw [isStaleMove, hstamp] at hstale
    rw [← hshown, shownAt, hlive, Option.bind_some, hstamp]
    exact congrArg some (max_eq_right (not_lt.1 (of_decide_eq_false hstale)))
  have hid : entry.id = some task := by
    rw [withSlots_entries, List.getElem?_map, hx] at hentry
    rw [← Option.some.inj hentry]
    exact (Slot.shows_iff.1 hshows).2
  rw [hideEntry_withSlots, slotAfter, slots_withSlots] at hspot
  rw [hideEntry_withSlots, insertEntry_withSlots, rehomeOnto_withSlots]
  refine ⟨?_, h.died, h.reborn⟩
  rw [slots_withSlots, Standing.step, hmoved]
  rw [liveSlot, slots_withSlots] at hlive
  exact ((hstands.hide hs hlive).shows (x := ⟨entry, at_, false, spot.parent, false⟩)
    (List.perm_insertIdx _ _ (Slots.slotAfter_le hspot)) hid rfl).rehomeOnto task at_

/-- An insert again puts the task up. -/
theorem Follows.insertsAgain (h : s.Follows task σ) (hs : s.Sound) (hi : InsertsAgain task after at_ s s') :
    s'.Follows task (σ.step (.putUp at_)) := by
  obtain ⟨-, -, spot, history, stamps, merged, hspot, rfl⟩ := hi
  obtain ⟨hstands, hdied, hreborn⟩ := h
  obtain ⟨u, xs, rfl⟩ := hs.aligned.exists_slots
  rw [sound_withSlots] at hs
  rw [slots_withSlots] at hstands
  rw [slotAfter, slots_withSlots] at hspot
  have hfields : ({ (u.withSlots xs).setHistory task history with fieldStamps := stamps } :
      DocState) = ({ u.setHistory task history with fieldStamps := stamps } : DocState).withSlots xs :=
    rfl
  have hsame : u.life = ({ u.setHistory task history with fieldStamps := stamps } : DocState).life := rfl
  rw [hfields]
  generalize ({ u.setHistory task history with fieldStamps := stamps } : DocState) = v at hsame ⊢
  unfold placeAgain
  dsimp only
  rw [insertEntry_withSlots, hideEntry_withSlots, Columns.modify_insertIdx, noteRebirth_withSlots]
  generalize hx : Slot.withHidden true ⟨.task task merged, at_, false, spot.parent, false⟩ = x
  have hghost := hs.insertIdx_hidden (x := x) (by rw [← hx]; rfl) (by rw [← hx]; exact Bool.false_ne_true.elim) spot.at_
  have hplaced := hstands.ghost (x := x) (List.perm_insertIdx _ xs (Slots.slotAfter_le hspot)) (by rw [← hx]; rfl)
    (by rw [← hx]; rfl)
  have hat : x.stamp = at_ := by rw [← hx]; rfl
  rw [hat] at hplaced
  obtain ⟨hdied', hreborn'⟩ := noteRebirth_life v task at_
  rw [← hsame] at hdied' hreborn'
  have hlive : ((v.withSlots xs).liveSlot task).isSome = σ.shown.isSome := by
    rw [liveSlot, slots_withSlots, ← hstands.at_live]
    cases hl : Slots.liveSlot xs task with
    | none => rfl
    | some l =>
      obtain ⟨x, hx, -⟩ := Slots.liveSlot_spec hl
      rw [Option.bind_some, hx]
      rfl
  have hshows : (((v.withSlots xs).liveSlot task).isSome || ((v.noteRebirth task at_).withSlots
      (xs.insertIdx spot.at_ x)).diedBefore task at_) = true ↔
      σ.shown.isSome = true ∨ σ.died ≤ at_ := by
    rw [Bool.or_eq_true, hlive]
    refine or_congr_right ?_
    show Option.all _ (((v.noteRebirth task at_).life task).bind Life.died) = true ↔ _
    rw [all_le_iff, hdied']
    exact hdied ▸ .rfl
  rw [Standing.step]
  by_cases hput : σ.shown.isSome = true ∨ σ.died ≤ at_
  · rw [if_pos (hshows.2 hput), if_pos hput, showNewest_withSlots, setLines_withSlots, rehomeOnto_withSlots]
    refine ⟨?_, (congrArg (·.getD ⊥) hdied').trans hdied, hreborn'.trans (congrArg (max · at_) hreborn)⟩
    rw [slots_withSlots]
    exact ((hplaced.showNewest hghost spot.at_).setLines task merged).rehomeOnto task at_
  · have hnone : σ.shown = none := by
      by_contra hsome
      exact hput (.inl (Option.isSome_iff_ne_none.2 hsome))
    rw [if_neg fun hh => hput (hshows.1 hh), if_neg hput, setLines_withSlots, rehomeOnto_withSlots]
    refine ⟨?_, (congrArg (·.getD ⊥) hdied').trans hdied, hreborn'.trans (congrArg (max · at_) hreborn)⟩
    rw [slots_withSlots]
    rw [hnone] at hplaced
    exact (hplaced.setLines task merged).rehomeOnto task at_

/-- What leaves the task alone leaves it standing. -/
theorem Follows.spares (h : s.Follows task σ) (hsp : Spares task s s') : s'.Follows task σ :=
  ⟨h.stands.of_held hsp.held, by rw [hsp.life]; exact h.died, by rw [hsp.life]; exact h.reborn⟩

/-- Another line is no other placement. -/
theorem Follows.rewrites (h : s.Follows task σ) (hs : s.Sound) (hr : Rewrites task s s') : s'.Follows task σ := by
  obtain ⟨history, slot, line, stamps, hslot, rfl⟩ := hr
  have hstands := h.stands
  obtain ⟨u, xs, rfl⟩ := hs.aligned.exists_slots
  rw [slots_withSlots] at hstands
  rw [contentSlot, slots_withSlots] at hslot
  refine ⟨?_, h.died, h.reborn⟩
  rw [setHistory_withSlots, replaceEntry_withSlots]
  show Slots.Stands
    (({ u.setHistory task history with fieldStamps := stamps } : DocState).withSlots _).slots task σ.shown σ.newest
  rw [slots_withSlots]
  refine hstands.of_posts ?_
  obtain ⟨x, hx, hid⟩ := Option.bind_eq_some_iff.1 (contentSlot_id hslot)
  obtain ⟨rest, hp, hp'⟩ := Columns.modify_perm (Slot.withEntry (.task task line)) hx
  refine (hp'.map _).trans (.trans (.of_eq ?_) (hp.map _).symm)
  rw [List.map_cons, List.map_cons, Slots.post, Slots.post, hid]
  rfl

/-! ## Runs -/

/-- The act of an op on a task in the document at `path`, if it is one: an insert of what is here puts it up, a
delete takes it down, a move places it anew or sends it away. -/
def act (task : TaskId) (path : FilePath) (op : Op) : Option (Standing.Act Hlc) :=
  match op.kind with
  | .insert other _ _ => if other = task then some (.putUp op.hlc) else none
  | .setField other .deleted (.bool true) => if other = task then some (.takeDown op.hlc) else none
  | .move other _ toFile =>
    if other = task then some (if toFile = path then .place op.hlc else .sendAway) else none
  | _ => none

theorem act_of_other {op : Op} {path : FilePath} (h : subject op.kind ≠ some task) : act task path op = none := by
  obtain ⟨id, at_, file, kind⟩ := op
  have hne : ∀ {other : TaskId}, subject kind = some other → other ≠ task := fun hsubject heq =>
    h (hsubject.trans (congrArg some heq))
  cases kind with
  | insert other after line => exact if_neg (hne rfl)
  | setField other field value =>
    cases field with
    | deleted =>
      cases value with
      | bool b =>
        cases b with
        | true => exact if_neg (hne rfl)
        | false => rfl
      | date d => rfl
      | priority p => rfl
      | quirks bits => rfl
    | completed => rfl
    | completionDate => rfl
    | creationDate => rfl
    | priority => rfl
    | quirks => rfl
  | editText other edits => rfl
  | move other after toFile => exact if_neg (hne rfl)
  | notesEdit path edits => rfl
  | blankInsert after => rfl
  | blankRemove after => rfl
  | removeTag other key => rfl

/-- The standing after an op that does `a`, or nothing to the task. -/
def acted (σ : Standing Hlc) (a : Option (Standing.Act Hlc)) : Standing Hlc := a.elim σ σ.step

theorem FailsOr.follows {P : DocState → Prop} {out : Outcome} {a : Option (Standing.Act Hlc)} (hor : FailsOr s P out)
    (h : s.Follows task σ) (hok : a.isSome = true → out.result = .ok ())
    (hP : ∀ s', P s' → s'.Follows task (acted σ a)) : out.state.Follows task (acted σ a) := by
  rcases hor with ⟨e, rfl⟩ | ⟨s', rfl, hp⟩
  · cases a with
    | none => exact h
    | some a => cases hok rfl
  · exact hP s' hp

/-- An op does to where a task stands what its act says; any other leaves it standing, applied or refused. -/
theorem Follows.applyKind (h : s.Follows task σ) (hs : s.Sound) (op : Op)
    (hok : (act task s.path op).isSome = true → (s.applyKind op).result = .ok ()) :
    (s.applyKind op).state.Follows task (acted σ (act task s.path op)) := by
  by_cases hsubject : subject op.kind = some task
  · obtain ⟨id, at_, file, kind⟩ := op
    cases kind with
    | insert other after line =>
      obtain rfl := Option.some.inj hsubject
      have hact : act other s.path ⟨id, at_, file, .insert other after line⟩ = some (.putUp at_) := if_pos rfl
      rw [hact] at hok ⊢
      rcases insert_outcome other after line at_ with hor | ⟨history, e, -, -, hout⟩
      · refine hor.follows h hok fun s' => ?_
        rintro (hi | hi)
        · have hnone := hi.1
          rw [h.hasPlacement] at hnone
          cases hnone
        · exact h.insertsAgain hs hi
      · have hok' : (s.insert other after line at_).result = .ok () := hok rfl
        rw [hout] at hok'
        cases hok'
    | setField other field value =>
      obtain rfl := Option.some.inj hsubject
      by_cases hdeleted : field = .deleted
      · subst hdeleted
        by_cases hvalue : value = .bool true
        · subst hvalue
          have hact : act other s.path ⟨id, at_, file, .setField other .deleted (.bool true)⟩ =
              some (.takeDown at_) := if_pos rfl
          rw [hact] at hok ⊢
          exact (setDeleted_outcome other (.bool true) at_).follows h hok fun s' => h.deletes hs
        · have hout : s.applyKind ⟨id, at_, file, .setField other .deleted value⟩ =
              s.fails (.unsupported "undelete via SetField".toList) := by
            show s.setField other .deleted value at_ = _
            rw [setField, if_pos rfl, setDeleted, if_neg hvalue]
          have hact : act other s.path ⟨id, at_, file, .setField other .deleted value⟩ = none := by
            cases hcase : act other s.path ⟨id, at_, file, .setField other .deleted value⟩ with
            | none => rfl
            | some a =>
              rw [hcase, hout] at hok
              cases hok rfl
          rw [hact, hout]
          exact h
      · have hact : act other s.path ⟨id, at_, file, .setField other field value⟩ = none := by
          cases field with
          | deleted => exact absurd rfl hdeleted
          | completed => rfl
          | completionDate => rfl
          | creationDate => rfl
          | priority => rfl
          | quirks => rfl
        rw [hact]
        rcases setField_outcome s other hdeleted value at_ with hor |
          ⟨-, -, -, line, description, e, -, -, -, hout⟩
        · refine hor.follows (a := none) h (fun hsome => by cases hsome) fun s' => ?_
          rintro (rfl | hr)
          · exact h
          · exact h.rewrites hs hr
        · obtain ⟨history, hh⟩ := clearPriInDescription_state s other description
          show (s.setField other field value at_).state.Follows other σ
          rw [hout, hh]
          exact ⟨h.stands, h.died, h.reborn⟩
    | editText other edits =>
      obtain rfl := Option.some.inj hsubject
      exact (editText_outcome other edits at_).follows (a := none) h (fun hsome => by cases hsome) fun s' =>
        h.rewrites hs
    | move other after toFile =>
      obtain rfl := Option.some.inj hsubject
      by_cases hfile : toFile = s.path
      · subst hfile
        have hact : act other s.path ⟨id, at_, file, .move other after s.path⟩ = some (.place at_) := by
          rw [act]
          dsimp only
          rw [if_pos rfl, if_pos rfl]
        rw [hact] at hok ⊢
        refine (moveTask_here other after at_).follows h hok fun s' => ?_
        rintro ⟨-, hg | hm⟩
        · exact h.placesGhost hs hg
        · exact h.moves hs hm
      · have hact : act other s.path ⟨id, at_, file, .move other after toFile⟩ = some .sendAway := by
          rw [act]
          dsimp only
          rw [if_pos rfl, if_neg hfile]
        rw [hact] at hok ⊢
        exact (moveTask_away other after at_ hfile).follows h hok fun s' => h.movesAway hs
    | notesEdit path edits => cases hsubject
    | blankInsert after => cases hsubject
    | blankRemove after => cases hsubject
    | removeTag other key =>
      obtain rfl := Option.some.inj hsubject
      exact (removeTag_outcome other key at_).follows (a := none) h (fun hsome => by cases hsome) fun s' =>
        h.rewrites hs
  · rw [act_of_other hsubject]
    exact h.spares (applyKind_spares hs op hsubject)

/-- The ops of a list that act on the task apply. -/
def Takes (task : TaskId) (s : DocState) : List Op → Prop
  | [] => True
  | op :: ops => ((act task s.path op).isSome = true → (s.apply op).result = .ok ()) ∧ Takes task (s.apply op).state ops

theorem Follows.apply (h : s.Follows task σ) (hs : s.Sound) (op : Op)
    (hok : (act task s.path op).isSome = true → (s.apply op).result = .ok ())
    (hroom : (s.apply op).result = .ok () → ((s.applyKind op).state.settled op).ghosts ≤ MAX_GHOSTS_PER_FILE) :
    (s.apply op).state.Follows task (acted σ (act task s.path op)) := by
  have hkind : ((act task s.path op).isSome = true → (s.applyKind op).result = .ok ()) := fun hsome => by
    rcases apply_cases s op with ⟨hne, -⟩ | ⟨-, hok', -⟩
    · exact absurd (hok hsome) hne
    · exact hok'
  have hfollows := h.applyKind hs op hkind
  rcases apply_cases s op with ⟨-, hstate⟩ | ⟨hok', -, hstate⟩
  · rw [hstate]
    exact hfollows
  · rw [hstate, pruneGhosts_of_le (hroom hok')]
    exact hfollows.spares (settled_spares (hs.applyKind op) op task)

theorem Follows.applyAll (h : s.Follows task σ) (hs : s.Sound) {ops : List Op} (htakes : s.Takes task ops)
    (hroomy : s.Roomy ops) : (s.applyAll ops).Follows task (σ.run (ops.filterMap (act task s.path))) := by
  induction ops generalizing s σ with
  | nil => exact h
  | cons op ops ih =>
    have hstep := ih (h.apply hs op htakes.1 hroomy.1) (hs.apply op) htakes.2 hroomy.2
    rw [path_apply] at hstep
    rw [List.filterMap_cons]
    cases hact : act task s.path op with
    | none =>
      rw [hact] at hstep
      exact hstep
    | some a =>
      rw [hact] at hstep
      exact hstep

/-! ## Any order -/

end DocState

end Txtodo
