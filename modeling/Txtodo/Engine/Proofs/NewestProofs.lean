import Txtodo.Engine.Proofs.PruneProofs
import Txtodo.Engine.Proofs.PlacingProofs
import Txtodo.Engine.ReconcileReplay
import Txtodo.Engine.Proofs.KeepsProofs

/-!
# Proofs: ops applied as the newest

What applying an op under the scratch stamp leaves, the lines a document shows by number, and the blanks
that follow a task.
-/

/-!
## Where the newest op lands

An op under the scratch stamp is newer than everything a document holds: it follows its anchor's newest
placement directly.
-/

namespace Txtodo

namespace Slots

/-- What decides between two placements of an anchor: the stamp, then being shown. -/
def anchorKey (x : Slot) : Hlc ×ₗ Bool := toLex (x.stamp, !x.hidden)

/-- The newest op anchored on `after` puts its entry between `front` and `back`: at the top, or after the
anchor's newest placement, the shown one on a tie. -/
inductive Between : Option TaskId → List Slot → List Slot → Prop where
  | top (back : List Slot) : Between none [] back
  | task {t : TaskId} {before back : List Slot} {g : Slot} (hid : g.id = some t)
      (hbefore : ∀ x ∈ before, x.id = some t → anchorKey x ≤ anchorKey g)
      (hback : ∀ x ∈ back, x.id = some t → anchorKey x < anchorKey g) :
      Between (some t) (before ++ [g]) back

variable {xs front back : List Slot} {after : Option TaskId} {t : TaskId}

theorem placements_append (xs ys : List Slot) (t : TaskId) :
    placements (xs ++ ys) t =
      placements xs t ++ (ys.zipIdx xs.length).filter fun x => x.1.id = some t := by
  rw [placements, List.zipIdx_append, List.filter_append, Nat.zero_add]
  rfl

theorem mem_of_mem_placements {p : Slot × Nat} {k : Nat}
    (hp : p ∈ (xs.zipIdx k).filter fun x => x.1.id = some t) : p.1 ∈ xs ∧ p.1.id = some t := by
  obtain ⟨hp, hid⟩ := List.mem_filter.1 hp
  refine ⟨?_, by simpa using hid⟩
  rw [← List.zipIdx_map_fst k xs]
  exact List.mem_map_of_mem hp

/-- The newest op lands where `Between` says. -/
theorem Between.slotAfter (h : Between after front back)
    (hle : ∀ x ∈ front ++ back, x.stamp ≤ scratchStamp) :
    ∃ p, Slots.slotAfter (front ++ back) after scratchStamp = .ok ⟨front.length, p⟩ := by
  have hskip : skipNewer (front ++ back) front.length scratchStamp = front.length := by
    rw [skipNewer, List.drop_left]
    cases hback : back with
    | nil => rfl
    | cons x rest =>
      have hx : ¬scratchStamp < x.stamp := not_lt.2 (hle x (by simp [hback]))
      rw [List.takeWhile_cons_of_neg (by simpa using hx)]
      rfl
  cases h with
  | top => exact ⟨none, by rw [Slots.slotAfter]; simpa [anchorSlot] using hskip⟩
  | @task t before back g hid hbefore hback =>
    have hplacements : placements (before ++ [g] ++ back) t = placements before t ++
        (g, before.length) :: (back.zipIdx (before.length + 1)).filter fun x => x.1.id = some t := by
      rw [List.append_assoc, placements_append, List.singleton_append, List.zipIdx_cons,
        List.filter_cons, if_pos (by simpa using hid)]
    have hnewest : Iter.maxByKey (fun x : Slot × Nat => toLex (x.1.stamp, !x.1.hidden))
        (placements (before ++ [g] ++ back) t) = some (g, before.length) := by
      rw [hplacements]
      refine Iter.maxByKey_append_cons (fun p hp => ?_) fun p hp => ?_
      · obtain ⟨hmem, hp⟩ := mem_of_mem_placements hp
        exact hbefore p.1 hmem hp
      · obtain ⟨hmem, hp⟩ := mem_of_mem_placements hp
        exact hback p.1 hmem hp
    have hold : (placements (before ++ [g] ++ back) t).filter (fun x => x.1.stamp ≤ scratchStamp) =
        placements (before ++ [g] ++ back) t :=
      List.filter_eq_self.2 fun p hp => by
        simpa using hle p.1 (mem_of_mem_placements hp).1
    have hanchor : anchorSlot (before ++ [g] ++ back) (some t) scratchStamp =
        .ok (some before.length) := by
      unfold anchorSlot
      simp only [hold, hnewest, Option.some_or]
    refine ⟨parentAt (before ++ [g] ++ back) before.length, ?_⟩
    rw [Slots.slotAfter, hanchor]
    simp only [List.length_append, List.length_singleton, Option.bind_some] at hskip ⊢
    rw [hskip]

/-- A task with a placement has a newest one. -/
theorem exists_between (h : ∀ t, after = some t → hasPlacement xs t = true) :
    ∃ front back, xs = front ++ back ∧ Between after front back := by
  cases after with
  | none => exact ⟨[], xs, rfl, .top xs⟩
  | some t =>
    obtain ⟨x, hx, hid⟩ := hasPlacement_iff.1 (h t rfl)
    cases hnewest : Iter.maxByKey anchorKey (xs.filter fun x => x.id = some t) with
    | none =>
      have hmem : x ∈ xs.filter fun x => x.id = some t := List.mem_filter.2 ⟨hx, by simpa using hid⟩
      rw [Iter.maxByKey_eq_none.1 hnewest] at hmem
      cases hmem
    | some g =>
      obtain ⟨l₁, l₂, hsplit, h₁, h₂⟩ := Iter.exists_append_cons_of_maxByKey hnewest
      obtain ⟨before, rest, rfl, rfl, hrest⟩ := List.filter_eq_append_iff.1 hsplit
      obtain ⟨skipped, back, rfl, hskipped, hg, rfl⟩ := List.filter_eq_cons_iff.1 hrest
      refine ⟨before ++ skipped ++ [g], back, by simp, .task (by simpa using hg) ?_ ?_⟩
      · intro y hy hid
        rcases List.mem_append.1 hy with hy | hy
        · exact h₁ y (List.mem_filter.2 ⟨hy, by simpa using hid⟩)
        · exact absurd hid (by simpa using hskipped y hy)
      · intro y hy hid
        exact h₂ y (List.mem_filter.2 ⟨hy, by simpa using hid⟩)

end Slots

end Txtodo

namespace Txtodo

/-- A stamp of machine integers is at most the scratch stamp. -/
theorem Hlc.Fits.le_scratchStamp {h : Hlc} (hfits : h.Fits) : h ≤ scratchStamp := by
  show h.key ≤ scratchStamp.key
  have hwall := hfits.wallMs
  have hcounter := hfits.counter
  have hdevice := hfits.device
  simp only [Hlc.key, scratchStamp, Prod.Lex.le_iff, ofLex_toLex]
  omega

namespace DocState

variable {s s' : DocState} {kind : OpKind}

/-! ## Applying -/

/-- An op that applies as the newest: its own effect, settled and pruned. -/
theorem applyNewest_spec (h : s.applyNewest kind = some s') :
    ∃ s₁ : DocState, s.applyKind (scratchOp s.path kind) = s₁.done ∧
      s' = (s₁.settled (scratchOp s.path kind)).pruneGhosts := by
  unfold applyNewest apply at h
  cases hkind : s.applyKind (scratchOp s.path kind) with
  | mk s₁ result =>
    cases result with
    | error e => simp [hkind, fails] at h
    | ok u =>
      simp only [hkind, done, Option.some.injEq] at h
      exact ⟨s₁, rfl, h.symm⟩

theorem applyNewest_eq (h : s.applyNewest kind = some s') :
    s' = (s.apply (scratchOp s.path kind)).state := by
  unfold applyNewest at h
  cases happly : s.apply (scratchOp s.path kind) with
  | mk s₁ result =>
    cases result with
    | error e => simp [happly] at h
    | ok u =>
      simp only [happly, Option.some.injEq] at h
      exact h.symm

/-- No stamp of the document is newer than the scratch stamp. -/
def Fits (s : DocState) : Prop := s.Keeps (· ≤ scratchStamp) fun _ => True

theorem Fits.stamp_le (hs : s.Fits) {x : Slot} (hx : x ∈ s.slots) : x.stamp ≤ scratchStamp :=
  hs.stamps _ (slot_columns hx).1

theorem fits_applyNewest (hs : s.Fits) (h : s.applyNewest kind = some s') : s'.Fits := by
  rw [applyNewest_eq h]
  exact Keeps.apply hs _ le_rfl ⟨fun _ => trivial, fun _ _ _ _ => trivial, fun _ _ _ => trivial,
    fun _ _ _ => trivial, fun _ _ => trivial⟩

theorem sound_applyNewest (hs : s.Sound) (h : s.applyNewest kind = some s') : s'.Sound := by
  rw [applyNewest_eq h]
  exact hs.apply _

/-! ## Lines by number -/

theorem Aligned.entryAt (hs : s.Aligned) (i : Nat) : s.entryAt i = s.visibleEntries[i]? := by
  have hlt : ∀ i ∈ s.visible, i < s.entries.length := by
    intro i hi
    rw [hs.visible_eq, List.mem_filter, List.mem_range] at hi
    exact hi.1
  rw [DocState.entryAt, visibleEntries]
  generalize s.visible = l at hlt
  induction l generalizing i with
  | nil => rfl
  | cons j l ih =>
    have hj := List.getElem?_eq_getElem (hlt j (List.mem_cons_self ..))
    rw [List.filterMap_cons_some hj]
    cases i with
    | zero => exact hj
    | succ i => exact ih i fun k hk => hlt k (List.mem_cons_of_mem _ hk)

theorem Aligned.length_visible (hs : s.Aligned) : s.visible.length = s.visibleEntries.length := by
  obtain ⟨u, xs, rfl⟩ := hs.exists_slots
  rw [withSlots_length_visible, withSlots_visibleEntries, List.length_map]

theorem Aligned.indexOf (hs : s.Aligned) (id : TaskId) :
    s.indexOf id = s.visibleEntries.findIdx? fun e => e.id = some id := by
  have hlt : ∀ i ∈ s.visible, i < s.entries.length := by
    intro i hi
    rw [hs.visible_eq, List.mem_filter, List.mem_range] at hi
    exact hi.1
  rw [DocState.indexOf, visibleEntries]
  generalize s.visible = l at hlt
  induction l with
  | nil => rfl
  | cons j l ih =>
    have hj := List.getElem?_eq_getElem (hlt j (List.mem_cons_self ..))
    rw [List.filterMap_cons_some hj, List.findIdx?_cons, List.findIdx?_cons, hj,
      ih fun k hk => hlt k (List.mem_cons_of_mem _ hk)]
    rfl

/-- Counting the positions whose item passes `p` counts the items. -/
theorem length_takeWhile_range {α : Type} (p : α → Bool) (l : List α) (k : Nat) :
    (((List.range l.length).drop k).takeWhile fun i => l[i]?.any p).length =
      ((l.drop k).takeWhile p).length := by
  induction hn : l.length - k generalizing k with
  | zero =>
    rw [List.drop_eq_nil_of_le (by simp; omega), List.drop_eq_nil_of_le (by omega)]
    rfl
  | succ n ih =>
    have hk : k < l.length := by omega
    have hrange : k < (List.range l.length).length := by simpa using hk
    rw [List.drop_eq_getElem_cons hrange, List.drop_eq_getElem_cons hk, List.takeWhile_cons,
      List.takeWhile_cons, List.getElem_range, List.getElem?_eq_getElem hk, Option.any_some]
    cases p l[k] with
    | true => exact congrArg Nat.succ (ih (k + 1) (by omega))
    | false => rfl

/-- How many blanks a list of lines begins with. -/
def blankRun (es : List Entry) : Nat := (es.takeWhile Entry.isBlank).length

theorem Aligned.blanksAfter (hs : s.Aligned) (after : Option TaskId) :
    s.blanksAfter after = (after.elim (some 0) fun id =>
      (s.visibleEntries.findIdx? fun e => e.id = some id).map (· + 1)).map fun k =>
        blankRun (s.visibleEntries.drop k) := by
  have hrun : ∀ k, (((List.range s.visible.length).drop k).takeWhile s.isBlankAt).length =
      blankRun (s.visibleEntries.drop k) := by
    intro k
    have hblank : s.isBlankAt = fun i => (s.visibleEntries[i]?).any Entry.isBlank :=
      funext fun i => by rw [isBlankAt, hs.entryAt]
    rw [hblank, hs.length_visible, blankRun]
    exact length_takeWhile_range _ _ _
  cases after with
  | none => simp only [DocState.blanksAfter, Option.map_some, hrun, Option.elim_none]
  | some id => simp only [DocState.blanksAfter, hs.indexOf, Option.map_map, hrun, Option.elim_some,
      Function.comp_def]

/-! ## Blanks as the newest ops -/

section Blanks

variable {front back : List Slot} {after : Option TaskId}

/-- The slot of a blank the newest op inserts, or of the eraser it places. -/
def newestBlank (line : OwnedLine) (parent : Parent) (erases : Bool) : Slot :=
  ⟨.blank line, scratchStamp, erases, parent, erases⟩

/-- Inserts or removes a blank after `after`. -/
def blankOp (after : Option TaskId) (erases : Bool) : OpKind :=
  if erases then .blankRemove after else .blankInsert after

theorem settled_blankOp (s : DocState) (path : FilePath) (erases : Bool) :
    s.settled (scratchOp path (blankOp after erases)) = s.settleErasers := by
  cases erases <;> rfl

/-- What settling and pruning leave of a sequence. -/
theorem slots_settle_prune (u : DocState) (xs : List Slot) :
    (u.withSlots xs).settleErasers.pruneGhosts.slots = Slots.prune (Slots.settleErasers xs) := by
  obtain ⟨v, hv, -, -⟩ := pruneGhosts_withSlots u (Slots.settleErasers xs)
  rw [settleErasers_withSlots, hv, slots_withSlots]

/-- A blank op that applies as the newest puts its slot right after its anchor. -/
theorem applyNewest_blankOp (hs : s.Sound) (hfits : s.Fits) (hslots : s.slots = front ++ back)
    (hbetween : Slots.Between after front back) {erases : Bool}
    (h : s.applyNewest (blankOp after erases) = some s') :
    (erases = false → s.visible.length + 1 ≤ MAX_LINES_PER_FILE) ∧
      ∃ line parent, s'.slots =
        Slots.prune (Slots.settleErasers (front ++ newestBlank line parent erases :: back)) := by
  obtain ⟨u, xs, rfl⟩ := hs.aligned.exists_slots
  rw [slots_withSlots] at hslots
  subst hslots
  obtain ⟨parent, hspot⟩ := hbetween.slotAfter fun x hx => hfits.stamp_le (by simpa using hx)
  have hspot' : (u.withSlots (front ++ back)).slotAfter after scratchStamp =
      .ok ⟨front.length, parent⟩ := by
    rw [slotAfter, slots_withSlots]
    exact hspot
  obtain ⟨s₁, hkind, rfl⟩ := applyNewest_spec h
  rw [settled_blankOp]
  cases erases with
  | false =>
    have hrun : (u.withSlots (front ++ back)).blankInsert after scratchStamp = s₁.done := hkind
    rcases blankInsert_outcome (s := u.withSlots (front ++ back)) after scratchStamp with
      ⟨e, he⟩ | ⟨s₂, hs₂, hroom, spot, hspot₂, rfl⟩
    · rw [he] at hrun
      cases hrun
    · obtain rfl := congrArg Outcome.state (hs₂.symm.trans hrun)
      obtain rfl := Except.ok.inj (hspot'.symm.trans hspot₂)
      refine ⟨fun _ => hroom, OwnedLine.fromBytes [] u.ending, parent, ?_⟩
      show (insertEntry _ _ _ _).settleErasers.pruneGhosts.slots = _
      rw [insertEntry_withSlots, slots_settle_prune, Columns.insertIdx_append]
      rfl
  | true =>
    have hrun : (u.withSlots (front ++ back)).blankRemove after scratchStamp = s₁.done := hkind
    rcases blankRemove_outcome (s := u.withSlots (front ++ back)) after scratchStamp with
      ⟨e, he⟩ | ⟨s₂, hs₂, spot, hspot₂, rfl⟩
    · rw [he] at hrun
      cases hrun
    · obtain rfl := congrArg Outcome.state (hs₂.symm.trans hrun)
      obtain rfl := Except.ok.inj (hspot'.symm.trans hspot₂)
      refine ⟨fun h => absurd h (by decide), OwnedLine.fromBytes [] u.ending, parent, ?_⟩
      show (hideEntry _ _).settleErasers.pruneGhosts.slots = _
      rw [placeEraser_withSlots, slots_settle_prune, Columns.insertIdx_append]
      rfl

end Blanks

/-! ## The blanks after a task -/

/-- How many shown blanks a sequence begins with. -/
def shownRun (back : List Slot) : Nat :=
  ((back.filter fun x => !x.hidden).takeWhile Slot.isBlank).length

theorem blankRun_entries (xs : List Slot) :
    blankRun ((xs.filter fun x => !x.hidden).map Slot.entry) = shownRun xs := by
  rw [blankRun, List.takeWhile_map, List.length_map]
  rfl

/-- The blanks after an anchor whose newest placement is the shown one. -/
theorem blanksAfter_eq_shownRun {front back : List Slot} {after : Option TaskId} (hs : s.Sound)
    (hslots : s.slots = front ++ back) (hbetween : Slots.Between after front back)
    (hshown : ∀ g ∈ front.getLast?, g.hidden = false) :
    s.blanksAfter after = some (shownRun back) := by
  obtain ⟨u, xs, rfl⟩ := hs.aligned.exists_slots
  rw [slots_withSlots] at hslots
  subst hslots
  rw [sound_withSlots] at hs
  rw [(aligned_withSlots u _).blanksAfter, withSlots_visibleEntries]
  cases hbetween with
  | top =>
    rw [Option.elim_none, Option.map_some, List.drop_zero, List.nil_append, blankRun_entries]
  | @task t before back g hid _ _ =>
    have hg : g.hidden = false := hshown g (by simp)
    have hbefore : ∀ e ∈ (before.filter fun x => !x.hidden).map Slot.entry, e.id ≠ some t := by
      intro e he hidt
      obtain ⟨x, hx, rfl⟩ := List.mem_map.1 he
      obtain ⟨hx, hxshown⟩ := List.mem_filter.1 hx
      have hcount := hs.shown t
      have hgshows : Slot.shows t g = true := Slot.shows_iff.2 ⟨hg, hid⟩
      have hxshows : Slot.shows t x = true := Slot.shows_iff.2 ⟨by simpa using hxshown, hidt⟩
      rw [List.append_assoc, List.countP_append, List.singleton_append,
        List.countP_cons_of_pos hgshows] at hcount
      have hpos := List.countP_pos_iff.2 ⟨x, hx, hxshows⟩
      omega
    have hsplit : ((before ++ [g] ++ back).filter fun x => !x.hidden).map Slot.entry =
        (before.filter fun x => !x.hidden).map Slot.entry ++
          g.entry :: (back.filter fun x => !x.hidden).map Slot.entry := by
      simp [hg]
    have hgid : decide (g.entry.id = some t) = true := decide_eq_true hid
    rw [hsplit, Option.elim_some, List.findIdx?_append,
      List.findIdx?_eq_none_iff.2 fun e he => by simpa using hbefore e he, List.findIdx?_cons, hgid]
    simp only [if_true, Option.none_or, Option.map_some, Nat.zero_add]
    rw [List.drop_length_add_append]
    exact congrArg some (blankRun_entries back)

end DocState

end Txtodo
