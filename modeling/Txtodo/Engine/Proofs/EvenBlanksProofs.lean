import Mathlib.Data.List.Perm.Subperm
import Mathlib.Data.List.TakeWhile
import Txtodo.Engine.Proofs.NewestProofs

/-!
# Proofs: the blank loop ends

Each turn puts one blank or one eraser right after the anchor; settling then hides and shows other blanks,
and a prune drops old ghosts, so a turn may change a run by more or less than one line. The loop ends all
the same: prunes use up the slots that were there before it, and between prunes the turns are bounded.
-/

namespace Txtodo

namespace Slots

/-! ## What a turn does to a sequence -/

/-- `y` is `x`, or `x` a blank hidden or shown. -/
def Resettled (x y : Slot) : Prop := y = x ∨ Claimable x ∧ ∃ b, y = x.withHidden b

variable {x y : Slot} {xs ys front back : List Slot} {after : Option TaskId}

theorem Resettled.stamp (h : Resettled x y) : y.stamp = x.stamp := by
  rcases h with rfl | ⟨-, b, rfl⟩ <;> rfl

theorem Resettled.id (h : Resettled x y) : y.id = x.id := by
  rcases h with rfl | ⟨-, b, rfl⟩ <;> rfl

theorem Resettled.isBlank (h : Resettled x y) : y.isBlank = x.isBlank := by
  rcases h with rfl | ⟨-, b, rfl⟩ <;> rfl

theorem Resettled.eraser (h : Resettled x y) : y.eraser = x.eraser := by
  rcases h with rfl | ⟨-, b, rfl⟩ <;> rfl

theorem Resettled.eq_of_id (h : Resettled x y) {t : TaskId} (hid : x.id = some t) : y = x := by
  rcases h with rfl | ⟨hx, -⟩
  · rfl
  · rw [Slot.id_eq_none_iff.2 hx.1] at hid
    cases hid

theorem forall₂_settleErasers (xs : List Slot) : List.Forall₂ Resettled xs (settleErasers xs) := by
  unfold settleErasers
  split_ifs
  · conv_lhs => rw [← List.zipIdx_map_fst 0 xs]
    rw [List.forall₂_map_left_iff, List.forall₂_map_right_iff, List.forall₂_same]
    intro p _
    by_cases hp : Claimable p.1
    · exact .inr ⟨hp, _, settleBlank_claimable hp⟩
    · refine .inl (if_neg ?_)
      simpa [Claimable] using hp
  · exact List.forall₂_same.2 fun x _ => .inl rfl

theorem forall₂_countP {P : Slot → Bool} (hP : ∀ x y, Resettled x y → P y = P x)
    (h : List.Forall₂ Resettled xs ys) : ys.countP P = xs.countP P := by
  induction h with
  | nil => rfl
  | cons hxy _ ih => rw [List.countP_cons, List.countP_cons, ih, hP _ _ hxy]

theorem exists_of_forall₂_append {zs : List Slot} (h : List.Forall₂ Resettled (xs ++ ys) zs) :
    ∃ xs' ys', zs = xs' ++ ys' ∧ List.Forall₂ Resettled xs xs' ∧ List.Forall₂ Resettled ys ys' := by
  induction xs generalizing zs with
  | nil => exact ⟨[], zs, rfl, .nil, h⟩
  | cons x xs ih =>
    cases h with
    | @cons _ z _ zs hxz h =>
      obtain ⟨xs', ys', rfl, hxs, hys⟩ := ih h
      exact ⟨z :: xs', ys', rfl, .cons hxz hxs, hys⟩

theorem mem_of_forall₂ (h : List.Forall₂ Resettled xs ys) (hy : y ∈ ys) : ∃ x ∈ xs, Resettled x y := by
  induction h with
  | nil => cases hy
  | cons hxy _ ih =>
    rcases List.mem_cons.1 hy with rfl | hy
    · exact ⟨_, List.mem_cons_self .., hxy⟩
    · obtain ⟨x, hx, hr⟩ := ih hy
      exact ⟨x, List.mem_cons_of_mem _ hx, hr⟩

/-- Hiding and showing blanks moves no anchor. -/
theorem Between.resettled {front' back' : List Slot} (h : Between after front back)
    (hfront : List.Forall₂ Resettled front front') (hback : List.Forall₂ Resettled back back') :
    Between after front' back' := by
  cases h with
  | top =>
    cases hfront
    exact .top back'
  | @task t before back g hid hbefore hnewest =>
    obtain ⟨before', tail, rfl, hb, htail⟩ := exists_of_forall₂_append hfront
    obtain ⟨g', hg, -, rfl⟩ : ∃ g', Resettled g g' ∧ List.Forall₂ Resettled [] [] ∧ tail = [g'] := by
      cases htail with
      | cons hg hnil =>
        cases hnil
        exact ⟨_, hg, .nil, rfl⟩
    obtain rfl := hg.eq_of_id hid
    refine .task hid (fun x hx hxid => ?_) fun x hx hxid => ?_
    · obtain ⟨y, hy, hr⟩ := mem_of_forall₂ hb hx
      have hyid : y.id = some t := hr.id ▸ hxid
      exact hr.eq_of_id hyid ▸ hbefore y hy hyid
    · obtain ⟨y, hy, hr⟩ := mem_of_forall₂ hback hx
      have hyid : y.id = some t := hr.id ▸ hxid
      exact hr.eq_of_id hyid ▸ hnewest y hy hyid

/-- A blank after the anchor does not hide it. -/
theorem Between.cons (h : Between after front back) (hx : x.id = none) :
    Between after front (x :: back) := by
  cases h with
  | top => exact .top _
  | task hid hbefore hback =>
    refine .task hid hbefore fun y hy hyid => ?_
    rcases List.mem_cons.1 hy with rfl | hy
    · rw [hx] at hyid
      cases hyid
    · exact hback y hy hyid

/-- The slots dropped around an anchor that stays leave it where the op lands. -/
theorem Between.restOf {D : List Nat} (h : Between after front back)
    (hanchor : ∀ p ∈ front.zipIdx, p.2 + 1 = front.length → p.2 ∉ D) :
    Between after (restOf D 0 front) (restOf D front.length back) := by
  cases h with
  | top => exact .top _
  | @task t before back g hid hbefore hback =>
    have hg : before.length ∉ D := hanchor (g, before.length) (by simp [List.zipIdx_append]) (by simp)
    have hrest : Slots.restOf D 0 (before ++ [g]) = Slots.restOf D 0 before ++ [g] := by
      rw [restOf_append, Nat.zero_add, restOf_cons_of_not_mem hg]
      rfl
    rw [hrest]
    exact .task hid (fun x hx => hbefore x (restOf_sublist.subset hx))
      fun x hx => hback x (restOf_sublist.subset hx)

end Slots

namespace Pass

open DocState Slots

variable {after : Option TaskId} {want : Nat} {pass pass' : Pass} {front back : List Slot}

/-- A pass whose next blank op puts its slot between `front` and `back`. -/
structure At (after : Option TaskId) (front back : List Slot) (pass : Pass) : Prop where
  sound : pass.work.Sound
  fits : pass.work.Fits
  slots : pass.work.slots = front ++ back
  between : Between after front back

/-- A turn that goes on: the op, and the sequence it leaves before the prune. -/
structure Turn (after : Option TaskId) (want have_ : Nat) (pass pass' : Pass) (front back : List Slot)
    (x : Slot) (front' back' : List Slot) : Prop where
  blanks : pass.work.blanksAfter after = some have_
  ne : have_ ≠ want
  room : have_ < want → pass.work.visible.length + 1 ≤ MAX_LINES_PER_FILE
  sound : pass'.work.Sound
  fits : pass'.work.Fits
  frontKept : List.Forall₂ Resettled front front'
  backKept : List.Forall₂ Resettled back back'
  stamp : x.stamp = scratchStamp
  blank : x.isBlank = true
  eraser : x.eraser = decide (want < have_)
  settled : ∃ y, Resettled y x ∧ y.hidden = y.eraser ∧
    front' ++ x :: back' = settleErasers (front ++ y :: back)
  slots : pass'.work.slots = prune (front' ++ x :: back')

theorem evenTurn_push (h : evenTurn after want pass = .inl pass') :
    ∃ have_, pass.work.blanksAfter after = some have_ ∧ have_ ≠ want ∧
      pass.push (blankOp after (decide (want < have_))) = some pass' := by
  unfold evenTurn at h
  cases hblanks : pass.work.blanksAfter after with
  | none => simp [hblanks] at h
  | some have_ =>
    simp only [hblanks] at h
    by_cases hne : have_ = want
    · rw [if_pos hne] at h
      cases h
    rw [if_neg hne] at h
    have hop : (if have_ < want then OpKind.blankInsert after else .blankRemove after) =
        blankOp after (decide (want < have_)) := by
      unfold blankOp
      by_cases hlt : have_ < want
      · rw [if_pos hlt, if_neg (by simpa using hlt.le)]
      · rw [if_neg hlt, if_pos (by simp; omega)]
    rw [hop] at h
    cases hpush : pass.push (blankOp after (decide (want < have_))) with
    | none => simp [hpush] at h
    | some next =>
      simp only [hpush, Sum.inl.injEq] at h
      exact ⟨have_, rfl, hne, h ▸ hpush⟩

theorem evenTurn_go (h : evenTurn after want pass = .inl pass') :
    ∃ have_, pass.work.blanksAfter after = some have_ ∧ have_ ≠ want ∧
      pass.work.applyNewest (blankOp after (decide (want < have_))) = some pass'.work := by
  obtain ⟨have_, hblanks, hne, hpush⟩ := evenTurn_push h
  obtain ⟨work, hwork, rfl⟩ := Option.map_eq_some_iff.1 hpush
  exact ⟨have_, hblanks, hne, hwork⟩

theorem At.turn (h : At after front back pass) (hturn : evenTurn after want pass = .inl pass') :
    ∃ have_ x front' back', Turn after want have_ pass pass' front back x front' back' := by
  obtain ⟨have_, hblanks, hne, happly⟩ := evenTurn_go hturn
  obtain ⟨hroom, line, parent, hslots⟩ :=
    applyNewest_blankOp h.sound h.fits h.slots h.between happly
  obtain ⟨front', rest, hsplit, hfront, hrest⟩ :=
    exists_of_forall₂_append (forall₂_settleErasers
      (front ++ newestBlank line parent (decide (want < have_)) :: back))
  cases hrest with
  | @cons _ x _ back' hx hback =>
    exact ⟨have_, x, front', back', hblanks, hne, fun hlt => hroom (by simpa using hlt.le),
      sound_applyNewest h.sound happly, fits_applyNewest h.fits happly, hfront, hback, hx.stamp,
      hx.isBlank, hx.eraser, ⟨_, hx, rfl, hsplit.symm⟩, by rw [hslots, hsplit]⟩

section Turns

variable {have_ : Nat} {x : Slot} {front' back' : List Slot}

theorem Turn.between (ht : Turn after want have_ pass pass' front back x front' back')
    (h : Between after front back) : Between after front' (x :: back') :=
  (h.resettled ht.frontKept ht.backKept).cons (Slot.id_eq_none_iff.2 ht.blank)

/-- A turn without a prune. -/
theorem Turn.unpruned (ht : Turn after want have_ pass pass' front back x front' back')
    (h : Between after front back) (hle : ghosts (front' ++ x :: back') ≤ MAX_GHOSTS_PER_FILE) :
    At after front' (x :: back') pass' :=
  ⟨ht.sound, ht.fits, by rw [ht.slots, prune_of_le hle], ht.between h⟩

/-- The slots a prune after a turn drops. -/
def turnDrop (xs : List Slot) : List Nat := toDrop xs (ghosts xs - GHOSTS_AFTER_PRUNE)

/-- A turn with a prune that leaves the anchor. -/
theorem Turn.pruned (ht : Turn after want have_ pass pass' front back x front' back')
    (h : Between after front back) (hlt : MAX_GHOSTS_PER_FILE < ghosts (front' ++ x :: back'))
    (hanchor : ∀ p ∈ front'.zipIdx, p.2 + 1 = front'.length →
      p.2 ∉ turnDrop (front' ++ x :: back')) :
    At after (restOf (turnDrop (front' ++ x :: back')) 0 front')
      (restOf (turnDrop (front' ++ x :: back')) front'.length (x :: back')) pass' := by
  refine ⟨ht.sound, ht.fits, ?_, (ht.between h).restOf hanchor⟩
  rw [ht.slots, prune_of_lt hlt, removeAt_eq_restOf, restOf_append, Nat.zero_add]
  rfl

end Turns

/-! ## Between two prunes -/

/-- How many erasers, and how many other blanks, a sequence holds. -/
def eraserCount (xs : List Slot) : Nat := xs.countP Slot.eraser

def blankCount (xs : List Slot) : Nat := xs.countP fun x => x.isBlank && !x.eraser

theorem Turn.counts {have_ : Nat} {x : Slot} {front' back' : List Slot}
    (ht : Turn after want have_ pass pass' front back x front' back') :
    eraserCount (front' ++ x :: back') =
        eraserCount (front ++ back) + (decide (want < have_)).toNat ∧
      blankCount (front' ++ x :: back') =
        blankCount (front ++ back) + (!decide (want < have_)).toNat := by
  have heraser : ∀ a b, Resettled a b → b.eraser = a.eraser := fun a b h => h.eraser
  have hblank : ∀ a b, Resettled a b → (b.isBlank && !b.eraser) = (a.isBlank && !a.eraser) :=
    fun a b h => by rw [h.isBlank, h.eraser]
  simp only [eraserCount, blankCount, List.countP_append, List.countP_cons,
    forall₂_countP heraser ht.frontKept, forall₂_countP heraser ht.backKept,
    forall₂_countP hblank ht.frontKept, forall₂_countP hblank ht.backKept, ht.eraser, ht.blank, Bool.true_and]
  cases decide (want < have_) <;> simp <;> omega

/-- A turn that goes on without a prune. -/
structure Grows (pass pass' : Pass) : Prop where
  ghosts : Slots.ghosts pass'.work.slots ≤ MAX_GHOSTS_PER_FILE
  erasers : eraserCount pass'.work.slots ≤ Slots.ghosts pass'.work.slots
  counts : eraserCount pass'.work.slots = eraserCount pass.work.slots + 1 ∧
      blankCount pass'.work.slots = blankCount pass.work.slots ∨
    eraserCount pass'.work.slots = eraserCount pass.work.slots ∧
      blankCount pass'.work.slots = blankCount pass.work.slots + 1 ∧
      blankCount pass.work.slots + 1 ≤ MAX_LINES_PER_FILE + Slots.ghosts pass.work.slots

theorem eraserCount_le_ghosts {s : DocState} (hs : s.Sound) :
    eraserCount s.slots ≤ Slots.ghosts s.slots :=
  List.countP_mono_left fun x hx heraser => (hs.slots.eraser x hx heraser).1

theorem Turn.grows {have_ : Nat} {x : Slot} {front' back' : List Slot}
    (ht : Turn after want have_ pass pass' front back x front' back') (h : At after front back pass)
    (hle : Slots.ghosts (front' ++ x :: back') ≤ MAX_GHOSTS_PER_FILE) : Grows pass pass' := by
  have hslots' : pass'.work.slots = front' ++ x :: back' := by rw [ht.slots, prune_of_le hle]
  obtain ⟨herasers, hblanks⟩ := ht.counts
  refine ⟨hslots' ▸ hle, eraserCount_le_ghosts ht.sound, ?_⟩
  rw [hslots', h.slots, herasers, hblanks]
  by_cases hlt : want < have_
  · exact .inl (by simp [hlt])
  · have hroom := ht.room (by have := ht.ne; omega)
    have hlength := h.sound.aligned.length_slots
    rw [h.slots] at hlength
    have hblanks : blankCount (front ++ back) ≤ (front ++ back).length := List.countP_le_length
    refine .inr ⟨by simp [hlt], by simp [hlt], ?_⟩
    omega

/-- A loop ends when every prune in it does: between prunes the turns are bounded. -/
theorem ends_of_prunes {P : Pass → Prop}
    (hstep : ∀ pass pass', P pass → evenTurn after want pass = .inl pass' →
      Loop.Ends (evenTurn after want) pass' ∨ P pass' ∧ Grows pass pass') (hs : P pass) :
    Loop.Ends (evenTurn after want) pass := by
  let room (pass : Pass) : Nat := (MAX_GHOSTS_PER_FILE - eraserCount pass.work.slots) +
    (MAX_LINES_PER_FILE + MAX_GHOSTS_PER_FILE - blankCount pass.work.slots)
  refine .of_turn fun pass₁ hturn => ?_
  rcases hstep pass pass₁ hs hturn with hends | ⟨hs₁, hgrows₁⟩
  · exact hends
  refine Loop.Ends.of_measure (P := fun pass => P pass ∧
    Slots.ghosts pass.work.slots ≤ MAX_GHOSTS_PER_FILE) room (fun a b ha hturn => ?_)
    ⟨hs₁, hgrows₁.ghosts⟩
  rcases hstep a b ha.1 hturn with hends | ⟨hb, hgrows⟩
  · exact .inl hends
  · refine .inr ⟨⟨hb, hgrows.ghosts⟩, ?_⟩
    have hle := hgrows.erasers.trans hgrows.ghosts
    have hghosts := ha.2
    have hcounts := hgrows.counts
    simp only [room]
    omega

/-! ## A run after a shown anchor -/

/-- A run of blanks and erasers of newest ops after a shown anchor. -/
structure Level (after : Option TaskId) (front run back : List Slot) (pass : Pass) : Prop where
  place : At after front (run ++ back) pass
  shown : ∀ g ∈ front.getLast?, g.hidden = false
  blanks : ∀ x ∈ run, x.isBlank = true ∧ x.stamp = scratchStamp

/-- A turn from a run: one slot more in it, before the prune. -/
structure LevelTurn (after : Option TaskId) (want have_ : Nat) (pass pass' : Pass)
    (front run back : List Slot) (x : Slot) (front' run' back' : List Slot) : Prop where
  turn : Turn after want have_ pass pass' front (run ++ back) x front' (run' ++ back')
  frontLength : front'.length = front.length
  backLength : back'.length = back.length
  shown : ∀ g ∈ front'.getLast?, g.hidden = false
  blanks : ∀ y ∈ x :: run', y.isBlank = true ∧ y.stamp = scratchStamp
  frontErasers : front'.countP Slot.eraser = front.countP Slot.eraser
  runKept : List.Forall₂ Resettled run run'
  backKept : List.Forall₂ Resettled back back'

theorem resettled_shown {front front' : List Slot} {back : List Slot}
    (hbetween : Between after front back) (hfront : List.Forall₂ Resettled front front')
    (hshown : ∀ g ∈ front.getLast?, g.hidden = false) : ∀ g ∈ front'.getLast?, g.hidden = false := by
  cases hbetween with
  | top =>
    cases hfront
    exact hshown
  | @task t before _ g hid _ _ =>
    obtain ⟨before', tail, rfl, -, htail⟩ := exists_of_forall₂_append hfront
    cases htail with
    | cons hg hnil =>
      cases hnil
      obtain rfl := hg.eq_of_id hid
      simpa using hshown

theorem Level.turn {run : List Slot} (h : Level after front run back pass)
    (hturn : evenTurn after want pass = .inl pass') :
    ∃ have_ x front' run' back',
      LevelTurn after want have_ pass pass' front run back x front' run' back' := by
  obtain ⟨have_, x, front', rest, ht⟩ := h.place.turn hturn
  obtain ⟨run', back', rfl, hrun, hback⟩ := exists_of_forall₂_append ht.backKept
  have heraser : ∀ a b, Resettled a b → b.eraser = a.eraser := fun a b h => h.eraser
  refine ⟨have_, x, front', run', back', ht, ht.frontKept.length_eq.symm, hback.length_eq.symm,
    resettled_shown h.place.between ht.frontKept h.shown, fun y hy => ?_,
    forall₂_countP heraser ht.frontKept, hrun, hback⟩
  rcases List.mem_cons.1 hy with rfl | hy
  · exact ⟨ht.blank, ht.stamp⟩
  · obtain ⟨z, hz, hr⟩ := mem_of_forall₂ hrun hy
    rw [hr.isBlank, hr.stamp]
    exact h.blanks z hz

section LevelTurns

variable {have_ : Nat} {run run' front' back' : List Slot} {x : Slot}

theorem LevelTurn.calm (ht : LevelTurn after want have_ pass pass' front run back x front' run' back') :
    Calm (front' ++ x :: (run' ++ back')) := by
  obtain ⟨y, -, -, hsettled⟩ := ht.turn.settled
  rw [hsettled]
  exact calm_settleErasers _

/-- Every slot after a turn is one before it, hidden or shown, or the new one. -/
theorem LevelTurn.mem (ht : LevelTurn after want have_ pass pass' front run back x front' run' back')
    (h : Level after front run back pass) {z : Slot} (hz : z ∈ front' ++ ((x :: run') ++ back')) :
    z = x ∨ ∃ y ∈ pass.work.slots, Resettled y z := by
  rw [h.place.slots]
  rcases List.mem_append.1 hz with hz | hz
  · obtain ⟨y, hy, hr⟩ := mem_of_forall₂ ht.turn.frontKept hz
    exact .inr ⟨y, List.mem_append_left _ hy, hr⟩
  · rcases List.mem_cons.1 hz with rfl | hz
    · exact .inl rfl
    · obtain ⟨y, hy, hr⟩ := mem_of_forall₂ ht.turn.backKept hz
      exact .inr ⟨y, List.mem_append_right _ hy, hr⟩

theorem LevelTurn.erasers_hidden
    (ht : LevelTurn after want have_ pass pass' front run back x front' run' back')
    (h : Level after front run back pass) :
    ∀ z ∈ front' ++ ((x :: run') ++ back'), z.eraser = true → z.hidden = true := by
  intro z hz heraser
  have hkept : ∀ y, Resettled y z → z = y := by
    rintro y (rfl | ⟨hy, b, rfl⟩)
    · rfl
    · have hfalse : (y.withHidden b).eraser = false := hy.2
      rw [hfalse] at heraser
      cases heraser
  rcases ht.mem h hz with rfl | ⟨y, hy, hr⟩
  · obtain ⟨y, hr, hhidden, -⟩ := ht.turn.settled
    obtain rfl := hkept y hr
    exact hhidden.trans heraser
  · obtain rfl := hkept y hr
    exact (h.place.sound.slots.eraser _ hy heraser).1

theorem LevelTurn.stamp_le
    (ht : LevelTurn after want have_ pass pass' front run back x front' run' back')
    (h : Level after front run back pass) :
    ∀ z ∈ front' ++ ((x :: run') ++ back'), z.stamp ≤ scratchStamp := by
  intro z hz
  rcases ht.mem h hz with rfl | ⟨y, hy, hr⟩
  · exact ht.turn.stamp.le
  · rw [hr.stamp]
    exact h.place.fits.stamp_le hy

theorem LevelTurn.unpruned
    (ht : LevelTurn after want have_ pass pass' front run back x front' run' back')
    (h : Level after front run back pass)
    (hle : ghosts (front' ++ x :: (run' ++ back')) ≤ MAX_GHOSTS_PER_FILE) :
    Level after front' (x :: run') back' pass' :=
  ⟨ht.turn.unpruned h.place.between hle, ht.shown, ht.blanks⟩

/-- A prune leaves a shorter surrounding of the run, or drops slots of the run only. -/
theorem LevelTurn.pruned
    (ht : LevelTurn after want have_ pass pass' front run back x front' run' back')
    (h : Level after front run back pass)
    (hlt : MAX_GHOSTS_PER_FILE < ghosts (front' ++ x :: (run' ++ back'))) :
    (∃ f r b, Level after f r b pass' ∧ f.length + b.length < front.length + back.length) ∨
      (∀ i ∈ turnDrop (front' ++ x :: (run' ++ back')),
        front'.length ≤ i ∧ i < front'.length + (x :: run').length) ∧
      Level after front' (restOf (turnDrop (front' ++ x :: (run' ++ back'))) front'.length (x :: run'))
        back' pass' := by
  have hcalm := ht.calm
  have hanchor : ∀ p ∈ front'.zipIdx, p.2 + 1 = front'.length →
      p.2 ∉ turnDrop (front' ++ x :: (run' ++ back')) := by
    rintro ⟨g, i⟩ hp hi hdrop
    have hg : (g, i) ∈ (front' ++ x :: (run' ++ back')).zipIdx := by
      rw [List.zipIdx_append]
      exact List.mem_append_left _ hp
    have hhidden : g.hidden = true := hcalm.hidden_of_mem_toDrop hg hdrop
    have hlast : front'.getLast? = some g := by
      rw [List.getLast?_eq_getElem?, ← List.mk_mem_zipIdx_iff_getElem?]
      have : front'.length - 1 = i := by omega
      rw [this]
      exact hp
    rw [ht.shown g hlast] at hhidden
    cases hhidden
  have hplace := ht.turn.pruned h.place.between hlt hanchor
  have hlabel : ∀ i ∈ turnDrop (front' ++ x :: (run' ++ back')),
      i < front'.length + ((x :: run').length + back'.length) := by
    intro i hi
    obtain ⟨y, hy⟩ := exists_of_mem_toDrop hi
    have hlt := (zipIdx_label hy).2
    simp only [List.length_append, List.length_cons] at hlt ⊢
    omega
  generalize turnDrop (front' ++ x :: (run' ++ back')) = D at hplace hanchor hlabel ⊢
  have hsplit : restOf D front'.length (x :: (run' ++ back')) =
      restOf D front'.length (x :: run') ++
        restOf D (front'.length + (x :: run').length) back' := by
    rw [← List.cons_append, restOf_append]
  rw [hsplit] at hplace
  have hlevel : Level after (restOf D 0 front') (restOf D front'.length (x :: run'))
      (restOf D (front'.length + (x :: run').length) back') pass' :=
    ⟨hplace, by rw [getLast?_restOf hanchor]; exact ht.shown,
      fun y hy => ht.blanks y (restOf_sublist.subset hy)⟩
  have hfrontLe : (restOf D 0 front').length ≤ front'.length := restOf_sublist.length_le
  have hbackLe : (restOf D (front'.length + (x :: run').length) back').length ≤ back'.length :=
    restOf_sublist.length_le
  have hlengths := ht.frontLength
  have hlengths' := ht.backLength
  by_cases hfront : ∃ p ∈ front'.zipIdx, p.2 ∈ D
  · obtain ⟨p, hp, hdrop⟩ := hfront
    have hless := length_restOf_lt hp hdrop
    exact .inl ⟨_, _, _, hlevel, by omega⟩
  by_cases hback : ∃ p ∈ back'.zipIdx (front'.length + (x :: run').length), p.2 ∈ D
  · obtain ⟨p, hp, hdrop⟩ := hback
    have hless := length_restOf_lt hp hdrop
    exact .inl ⟨_, _, _, hlevel, by omega⟩
  simp only [not_exists, not_and] at hfront hback
  rw [restOf_eq_self hfront, restOf_eq_self hback] at hlevel
  refine .inr ⟨fun i hi => ?_, hlevel⟩
  have htotal := hlabel i hi
  by_contra hout
  by_cases hlow : i < front'.length
  · exact hfront (front'[i], i) (List.mk_mem_zipIdx_iff_getElem?.2 (List.getElem?_eq_getElem hlow)) hi
  · have hhigh : i - (front'.length + (x :: run').length) < back'.length := by omega
    refine hback (back'[i - (front'.length + (x :: run').length)], i) ?_ hi
    rw [List.mk_mem_zipIdx_iff_le_and_getElem?_sub]
    exact ⟨by omega, List.getElem?_eq_getElem hhigh⟩

end LevelTurns

/-! ## The erasers a run begins with -/

/-- How many erasers a run begins with. -/
def lead (run : List Slot) : Nat := (run.takeWhile Slot.eraser).length

theorem exists_shown_blank {zs : List Slot} (h : 0 < shownRun zs) :
    ∃ Q v T, zs = Q ++ v :: T ∧ (∀ q ∈ Q, q.hidden = true) ∧ v.hidden = false ∧
      v.isBlank = true := by
  cases hshown : zs.filter fun x => !x.hidden with
  | nil => simp [shownRun, hshown] at h
  | cons v rest =>
    obtain ⟨Q, T, rfl, hQ, hv, -⟩ := List.filter_eq_cons_iff.1 hshown
    refine ⟨Q, v, T, rfl, fun q hq => by simpa using hQ q hq, by simpa using hv, ?_⟩
    by_contra hblank
    simp [shownRun, hshown, hblank] at h

theorem zipIdx_two {α : Type} (l l' l'' : List α) (a b : α) :
    (l ++ a :: (l' ++ b :: l'')).zipIdx = l.zipIdx ++ (a, l.length) :: (l'.zipIdx (l.length + 1) ++
      (b, l.length + 1 + l'.length) :: l''.zipIdx (l.length + 1 + l'.length + 1)) := by
  rw [List.zipIdx_append, List.zipIdx_cons, List.zipIdx_append, List.zipIdx_cons, Nat.zero_add]

/-- One of the erasers a run begins with, and the blank shown first after it. -/
theorem exists_lead_split {run back : List Slot}
    (herasers : ∀ x ∈ run ++ back, x.eraser = true → x.hidden = true)
    (hshown : 0 < shownRun (run ++ back)) {j : Nat} (hj : j < lead run) :
    ∃ pre x mid v post, run ++ back = pre ++ x :: (mid ++ v :: post) ∧ pre.length = j ∧ x ∈ run ∧
      x.eraser = true ∧ (∀ q ∈ mid, q.hidden = true) ∧ v.hidden = false ∧ v.isBlank = true := by
  have hrun : run.takeWhile Slot.eraser ++ run.dropWhile Slot.eraser = run :=
    List.takeWhile_append_dropWhile
  obtain ⟨pre, x, rest, hlead, hlength⟩ : ∃ pre x rest,
      run.takeWhile Slot.eraser = pre ++ x :: rest ∧ pre.length = j := by
    refine ⟨_, _, _, (List.take_append_drop j _).symm.trans (congrArg _ (List.drop_eq_getElem_cons hj)), ?_⟩
    rw [List.length_take]
    exact min_eq_left hj.le
  have heraser : ∀ y ∈ pre ++ x :: rest, y.eraser = true := by
    rw [← hlead]
    exact fun y hy => List.mem_takeWhile_imp hy
  have hwhole : run ++ back = pre ++ x :: (rest ++ (run.dropWhile Slot.eraser ++ back)) := by
    conv_lhs => rw [← hrun, hlead]
    simp
  have hhidden : ∀ y ∈ pre ++ [x], y.hidden = true := by
    intro y hy
    have hy' : y ∈ pre ++ x :: rest := by
      rw [← List.singleton_append, ← List.append_assoc]
      exact List.mem_append_left _ hy
    refine herasers y ?_ (heraser y hy')
    rw [hwhole, ← List.singleton_append, ← List.append_assoc]
    exact List.mem_append_left _ hy
  have hnone : (pre ++ [x]).filter (fun x => !x.hidden) = [] :=
    List.filter_eq_nil_iff.2 fun y hy => by simp [hhidden y hy]
  have hafter : 0 < shownRun (rest ++ (run.dropWhile Slot.eraser ++ back)) := by
    rwa [hwhole, ← List.singleton_append, ← List.append_assoc, shownRun, List.filter_append, hnone,
      List.nil_append] at hshown
  obtain ⟨mid, v, post, hmid, hmidHidden, hv, hblank⟩ := exists_shown_blank hafter
  have hx : x ∈ run := by
    rw [← hrun, hlead]
    simp
  exact ⟨pre, x, mid, v, post, by rw [hwhole, hmid], hlength, hx, heraser x (by simp), hmidHidden,
    hv, hblank⟩

/-- While a blank shows after them, each of the erasers a run begins with claims a blank. -/
theorem exists_claim_of_lead {front run back : List Slot} (hsynced : Synced (front ++ (run ++ back)))
    (herasers : ∀ x ∈ front ++ (run ++ back), x.eraser = true → x.hidden = true)
    (hfits : ∀ x ∈ front ++ (run ++ back), x.stamp ≤ scratchStamp)
    (hrun : ∀ x ∈ run, x.isBlank = true ∧ x.stamp = scratchStamp)
    (hshown : 0 < shownRun (run ++ back)) {j : Nat} (hj : j < lead run) :
    ∃ b, (front.length + j, b) ∈ claims (front ++ (run ++ back)) := by
  obtain ⟨pre, x, mid, v, post, hsplit, rfl, hx, hxeraser, hmid, hvshown, hvblank⟩ :=
    exists_lead_split (fun y hy => herasers y (List.mem_append_right _ hy)) hshown hj
  have hvmem : v ∈ front ++ (run ++ back) := by simp [hsplit]
  have hv : Claimable v := by
    refine ⟨hvblank, ?_⟩
    by_contra hne
    simp [herasers v hvmem (by simpa using hne)] at hvshown
  have hlabels := zipIdx_two (front ++ pre) mid post x v
  rw [List.append_assoc, ← hsplit, List.length_append] at hlabels
  generalize front.length + pre.length + 1 + mid.length = i at hlabels
  have hfree : i ∉ (claimsOn [] (front ++ (run ++ back)).zipIdx).map (·.2) := by
    intro hmem
    have hin : (v, i) ∈ (front ++ (run ++ back)).zipIdx := by
      rw [hlabels]
      simp
    rw [(hsynced _ hin hv).2 hmem] at hvshown
    cases hvshown
  rw [claims_eq_claimsOn, hlabels]
  rw [hlabels] at hfree
  refine claimsOn_front hxeraser hv ?_ List.not_mem_nil (fun p hp => .inr ?_) hfree
  · rw [(hrun x hx).2]
    exact hfits v hvmem
  · exact hmid p.1 (List.fst_mem_of_mem_zipIdx hp)

/-- While a blank shows after them, the erasers a run begins with are no more than the blanks. -/
theorem lead_le_blankCount {front run back : List Slot} (hsynced : Synced (front ++ (run ++ back)))
    (herasers : ∀ x ∈ front ++ (run ++ back), x.eraser = true → x.hidden = true)
    (hfits : ∀ x ∈ front ++ (run ++ back), x.stamp ≤ scratchStamp)
    (hrun : ∀ x ∈ run, x.isBlank = true ∧ x.stamp = scratchStamp)
    (hshown : 0 < shownRun (run ++ back)) : lead run ≤ blankCount (front ++ (run ++ back)) := by
  have hclaim := fun {j} => exists_claim_of_lead hsynced herasers hfits hrun hshown (j := j)
  generalize front ++ (run ++ back) = xs at hclaim
  have hfirst : ((List.range (lead run)).map (front.length + ·)).Nodup :=
    List.nodup_range.map fun a b h => by simpa using h
  have hle : lead run ≤ (claims xs).length := by
    have hsub : (List.range (lead run)).map (front.length + ·) ⊆ (claims xs).map (·.1) := by
      intro i hi
      obtain ⟨j, hj, rfl⟩ := List.mem_map.1 hi
      obtain ⟨b, hb⟩ := hclaim (List.mem_range.1 hj)
      exact List.mem_map.2 ⟨_, hb, rfl⟩
    simpa using (hfirst.subperm hsub).length_le
  have hblanks : (claims xs).length ≤ blankCount xs := by
    have hsub : (claims xs).map (·.2) ⊆
        (xs.zipIdx.filter fun p => p.1.isBlank && !p.1.eraser).map (·.2) := by
      intro i hi
      obtain ⟨c, hc, rfl⟩ := List.mem_map.1 hi
      obtain ⟨-, y, hy, hclaimable⟩ := mem_claims hc
      exact List.mem_map.2 ⟨(y, c.2), List.mem_filter.2 ⟨hy, by simp [hclaimable.1, hclaimable.2]⟩, rfl⟩
    have hlength := ((claims_snd_nodup xs).subperm hsub).length_le
    rw [List.length_map, List.length_map, ← List.countP_eq_length_filter] at hlength
    refine hlength.trans (le_of_eq ?_)
    conv_rhs => rw [blankCount, ← List.zipIdx_map_fst 0 xs, List.countP_map]
    rfl
  exact hle.trans hblanks

/-! ## No erasers in front of the run -/

/-- A run whose claims nothing in front of it disturbs. -/
structure Clear (after : Option TaskId) (front run back : List Slot) (pass : Pass) : Prop
    extends Level after front run back pass where
  noErasers : ∀ x ∈ front, x.eraser = false
  calm : Calm pass.work.slots

/-- A run with fewer slots around it than `n`. -/
def Smaller (after : Option TaskId) (n : Nat) (pass : Pass) : Prop :=
  ∃ front run back, Level after front run back pass ∧ front.length + back.length < n

theorem Level.blanksAfter {run : List Slot} (h : Level after front run back pass) :
    pass.work.blanksAfter after = some (shownRun (run ++ back)) :=
  blanksAfter_eq_shownRun h.place.sound h.place.slots h.place.between h.shown

section ClearTurns

variable {have_ : Nat} {run run' front' back' : List Slot} {x : Slot}

/-- What a turn makes of the run once its prune, if any, ran. -/
inductive RunAfter (front' : List Slot) (x : Slot) (run' back' : List Slot) (pass' : Pass) :
    List Slot → Prop where
  | unpruned (hslots : pass'.work.slots = front' ++ x :: (run' ++ back')) :
      RunAfter front' x run' back' pass' (x :: run')
  | pruned (hlt : MAX_GHOSTS_PER_FILE < ghosts (front' ++ x :: (run' ++ back')))
      (hD : ∀ i ∈ turnDrop (front' ++ x :: (run' ++ back')),
        front'.length ≤ i ∧ i < front'.length + (x :: run').length) :
      RunAfter front' x run' back' pass'
        (restOf (turnDrop (front' ++ x :: (run' ++ back'))) front'.length (x :: run'))

/-- Nothing shown is dropped from the run. -/
theorem RunAfter.shownRun {run₁ : List Slot} (h : RunAfter front' x run' back' pass' run₁)
    (hcalm : Calm (front' ++ x :: (run' ++ back'))) :
    shownRun (run₁ ++ back') = shownRun (x :: (run' ++ back')) := by
  cases h with
  | unpruned => rfl
  | pruned hlt hD =>
    have hkept : (restOf (turnDrop (front' ++ x :: (run' ++ back'))) front'.length (x :: run')).filter
        (fun x => !x.hidden) = (x :: run').filter fun x => !x.hidden := by
      refine filter_restOf _ fun p hp hdrop => ?_
      have hin : p ∈ (front' ++ ((x :: run') ++ back')).zipIdx := by
        rw [List.zipIdx_append, List.zipIdx_append, Nat.zero_add]
        exact List.mem_append_right _ (List.mem_append_left _ hp)
      have hhidden := hcalm.hidden_of_mem_toDrop hin hdrop
      simp [hhidden]
    rw [DocState.shownRun, DocState.shownRun, List.filter_append, hkept, ← List.cons_append,
      List.filter_append]

/-- A slot whose number is in the middle part is in it. -/
theorem mem_middle {front run back : List Slot} {p : Slot × Nat}
    (hp : p ∈ (front ++ (run ++ back)).zipIdx) (hlow : front.length ≤ p.2)
    (hhigh : p.2 < front.length + run.length) : p.1 ∈ run := by
  rw [List.zipIdx_append, List.zipIdx_append, Nat.zero_add] at hp
  rcases List.mem_append.1 hp with hp | hp
  · have := (zipIdx_label hp).2
    omega
  · rcases List.mem_append.1 hp with hp | hp
    · rw [← List.zipIdx_map_fst front.length run]
      exact List.mem_map_of_mem hp
    · have := (zipIdx_label hp).1
      omega

/-- A prune that drops slots of the run only met no eraser in front of it: that one would go first. -/
theorem LevelTurn.noErasers
    (ht : LevelTurn after want have_ pass pass' front run back x front' run' back')
    (h : Level after front run back pass)
    (hlt : MAX_GHOSTS_PER_FILE < ghosts (front' ++ x :: (run' ++ back')))
    (hD : ∀ i ∈ turnDrop (front' ++ x :: (run' ++ back')),
      front'.length ≤ i ∧ i < front'.length + (x :: run').length) :
    ∀ e ∈ front', e.eraser = false := by
  intro e he
  by_contra heraser
  rw [Bool.not_eq_false] at heraser
  obtain ⟨i, hi, rfl⟩ := List.getElem_of_mem he
  have hin : (front'[i], i) ∈ (front' ++ ((x :: run') ++ back')).zipIdx := by
    rw [List.zipIdx_append]
    exact List.mem_append_left _ (List.mk_mem_zipIdx_iff_getElem?.2 (List.getElem?_eq_getElem hi))
  have hghost : Unclaimed (front' ++ ((x :: run') ++ back')) (front'[i], i) :=
    ⟨ht.erasers_hidden h _ (List.mem_append_left _ he) heraser, eraser_not_claimed hin heraser⟩
  obtain ⟨p, hp, hdrop, -, hmin⟩ := exists_oldest_dropped (excess_pos hlt) hin hghost
  obtain ⟨hlow, hhigh⟩ := hD p.2 hdrop
  have hstamp := (ht.blanks p.1 (mem_middle hp hlow hhigh)).2
  have hfirst : p.2 ≤ i := (hmin _ hin hghost).2
    (by rw [hstamp]; exact ht.stamp_le h _ (List.mem_append_left _ he))
  omega

/-- A turn leaves a smaller surrounding, or a clear run again. -/
theorem Clear.next (h : Clear after front run back pass)
    (hturn : evenTurn after want pass = .inl pass') :
    Smaller after (front.length + back.length) pass' ∨
      ∃ have_ x front' run' back' run₁,
        LevelTurn after want have_ pass pass' front run back x front' run' back' ∧
        RunAfter front' x run' back' pass' run₁ ∧ Clear after front' run₁ back' pass' := by
  obtain ⟨have_, x, front', run', back', ht⟩ := h.toLevel.turn hturn
  have hnone : ∀ y ∈ front', y.eraser = false := by
    have hcount : front'.countP Slot.eraser = 0 := by
      rw [ht.frontErasers, List.countP_eq_zero]
      exact fun y hy => by simp [h.noErasers y hy]
    exact fun y hy => by simpa using List.countP_eq_zero.1 hcount y hy
  rcases le_or_gt (ghosts (front' ++ x :: (run' ++ back'))) MAX_GHOSTS_PER_FILE with hle | hlt
  · have hslots : pass'.work.slots = front' ++ x :: (run' ++ back') := by
      rw [ht.turn.slots, prune_of_le hle]
    exact .inr ⟨have_, x, front', run', back', _, ht, .unpruned hslots,
      ⟨ht.unpruned h.toLevel hle, hnone, hslots ▸ ht.calm⟩⟩
  · rcases ht.pruned h.toLevel hlt with hsmaller | ⟨hD, hlevel⟩
    · exact .inl hsmaller
    · refine .inr ⟨have_, x, front', run', back', _, ht, .pruned hlt hD, ⟨hlevel, hnone, ?_⟩⟩
      rw [ht.turn.slots, prune_of_lt hlt]
      have hcalm : Calm (front' ++ (x :: run' ++ back')) := ht.calm
      exact hcalm.removeAt hnone ht.blanks hD fun c hc => toDrop_closed hc

/-- A blank inserted into a clear run shows, and hides or shows no other. -/
theorem Clear.insert (h : Clear after front run back pass)
    (ht : LevelTurn after want have_ pass pass' front run back x front' run' back')
    (hlt : have_ < want) : shownRun (x :: (run' ++ back')) = shownRun (run ++ back) + 1 := by
  obtain ⟨y, hy, hhidden, hsettled⟩ := ht.turn.settled
  have heraser : y.eraser = false := by
    rw [← hy.eraser, ht.turn.eraser]
    simpa using hlt.le
  have hcalm : Calm (front ++ (run ++ back)) := h.place.slots ▸ h.calm
  rw [(hcalm.insert_blank h.noErasers (hhidden.trans heraser) heraser).settleErasers] at hsettled
  obtain ⟨-, heq⟩ := List.append_inj hsettled ht.frontLength
  have hshown : x.hidden = false := by
    rw [(List.cons.inj heq).1]
    exact hhidden.trans heraser
  rw [(List.cons.inj heq).2]
  simp [DocState.shownRun, hshown, ht.turn.blank]

theorem lead_resettled {run run' : List Slot} (h : List.Forall₂ Resettled run run') :
    lead run' = lead run := by
  induction h with
  | nil => rfl
  | @cons a b run run' hab _ ih =>
    rw [lead, lead, List.takeWhile_cons, List.takeWhile_cons, hab.eraser]
    cases a.eraser with
    | false => rfl
    | true => exact congrArg Nat.succ ih

/-- An eraser put into a clear run, with a blank still shown after it: fewer blanks are left, or the run
begins with one eraser more, of which there are no more than blanks. -/
theorem Clear.remove {run₁ : List Slot} (h : Clear after front run back pass)
    (ht : LevelTurn after want have_ pass pass' front run back x front' run' back')
    (hafter : RunAfter front' x run' back' pass' run₁) (hlt : want < have_)
    (hshown : 0 < shownRun (x :: (run' ++ back'))) :
    blankCount pass'.work.slots < blankCount pass.work.slots ∨
      blankCount pass'.work.slots = blankCount pass.work.slots ∧ lead run₁ = lead run + 1 ∧
        lead run₁ ≤ blankCount pass'.work.slots := by
  have hx : x.eraser = true := by rw [ht.turn.eraser]; simpa using hlt
  have hsynced : Synced (front' ++ ((x :: run') ++ back')) := ht.calm.synced (by simp) hx
  have hlead := lead_le_blankCount hsynced (ht.erasers_hidden h.toLevel) (ht.stamp_le h.toLevel)
    ht.blanks hshown
  have hblanks : blankCount (front' ++ ((x :: run') ++ back')) = blankCount pass.work.slots := by
    rw [h.place.slots, List.cons_append, ht.turn.counts.2]
    simp [hlt]
  cases hafter with
  | unpruned hslots =>
    refine .inr ⟨?_, ?_, ?_⟩
    · rw [hslots]
      exact hblanks
    · rw [← lead_resettled ht.runKept, lead, List.takeWhile_cons, if_pos hx]
      rfl
    · rw [hslots]
      exact hlead
  | pruned hprune hD =>
    left
    have hxin : (x, front'.length) ∈ (front' ++ ((x :: run') ++ back')).zipIdx := by
      rw [List.zipIdx_append, List.cons_append, List.zipIdx_cons]
      simp
    have hxhidden : x.hidden = true := ht.erasers_hidden h.toLevel x (by simp) hx
    obtain ⟨p, hp, hdrop, -, hmin⟩ := exists_oldest_dropped (excess_pos hprune) hxin
      ⟨hxhidden, eraser_not_claimed hxin hx⟩
    -- the newest eraser is the first of the ghosts of its stamp, and only the run's are dropped
    have hfirst : p.2 = front'.length := by
      obtain ⟨hlow, hhigh⟩ := hD p.2 hdrop
      have hstamp : p.1.stamp = scratchStamp := (ht.blanks p.1 (mem_middle hp hlow hhigh)).2
      have hle := (hmin (x, front'.length) hxin ⟨hxhidden, eraser_not_claimed hxin hx⟩).2
        (by rw [hstamp]; exact ht.turn.stamp.le)
      exact le_antisymm hle hlow
    have hpos : 0 < lead (x :: run') := by
      rw [lead, List.takeWhile_cons, if_pos hx]
      exact Nat.succ_pos _
    obtain ⟨b, hb⟩ := exists_claim_of_lead hsynced (ht.erasers_hidden h.toLevel)
      (ht.stamp_le h.toLevel) ht.blanks hshown hpos
    have hbdrop : b ∈ turnDrop (front' ++ x :: (run' ++ back')) :=
      (toDrop_closed hb).1 (by rw [Nat.add_zero, ← hfirst]; exact hdrop)
    obtain ⟨-, y, hy, hclaimable⟩ := mem_claims hb
    rw [← hblanks, ht.turn.slots, prune_of_lt hprune]
    exact countP_restOf_lt _ hy hbdrop (by simp [hclaimable.1, hclaimable.2])

end ClearTurns

/-! ## The loop ends -/

section Ends

variable {n : Nat} {run : List Slot}

/-- From a clear run that is not too long the loop inserts blanks until it ends. -/
theorem Clear.ends_up (ih : ∀ pass, Smaller after n pass → Loop.Ends (evenTurn after want) pass)
    (h : Clear after front run back pass) (hn : front.length + back.length = n)
    (hle : shownRun (run ++ back) ≤ want) : Loop.Ends (evenTurn after want) pass := by
  refine Loop.Ends.of_measure (P := fun pass => ∃ front run back, Clear after front run back pass ∧
    front.length + back.length = n ∧ shownRun (run ++ back) ≤ want)
    (fun pass => want - (pass.work.blanksAfter after).getD 0) (fun pass pass' hpass hturn => ?_)
    ⟨front, run, back, h, hn, hle⟩
  obtain ⟨front, run, back, h, rfl, hle⟩ := hpass
  rcases h.next hturn with hsmaller | ⟨have_, x, front', run', back', run₁, ht, hafter, hclear⟩
  · exact .inl (ih pass' hsmaller)
  · have hblanks := h.blanksAfter
    obtain rfl := Option.some.inj (hblanks.symm.trans ht.turn.blanks)
    have hlt := lt_of_le_of_ne hle ht.turn.ne
    have hgrown := (hafter.shownRun ht.calm).trans (h.insert ht hlt)
    refine .inr ⟨⟨front', run₁, back', hclear, by rw [ht.frontLength, ht.backLength], by omega⟩, ?_⟩
    rw [hblanks, hclear.blanksAfter, hgrown, Option.getD_some, Option.getD_some]
    omega

/-- From a clear run the loop ends: erasers are put in front until no blank too many shows, then blanks. -/
theorem Clear.ends (ih : ∀ pass, Smaller after n pass → Loop.Ends (evenTurn after want) pass)
    (h : Clear after front run back pass) (hn : front.length + back.length = n) :
    Loop.Ends (evenTurn after want) pass := by
  induction hB : blankCount pass.work.slots using Nat.strong_induction_on
    generalizing pass front run back with
  | _ B ihB =>
    induction hk : B + 1 - lead run using Nat.strong_induction_on generalizing pass front run back with
    | _ k ihk =>
      refine .of_turn fun pass' hturn => ?_
      rcases h.next hturn with hsmaller | ⟨have_, x, front', run', back', run₁, ht, hafter, hclear⟩
      · exact ih pass' (hn ▸ hsmaller)
      have hn' : front'.length + back'.length = n := by rw [ht.frontLength, ht.backLength, hn]
      have hrun := hafter.shownRun ht.calm
      rcases le_or_gt (shownRun (run₁ ++ back')) want with hle | hgt
      · exact hclear.ends_up ih hn' hle
      · have hlt : want < have_ := by
          by_contra hnot
          have hless : have_ < want := lt_of_le_of_ne (not_lt.1 hnot) ht.turn.ne
          have hblanks := Option.some.inj (h.blanksAfter.symm.trans ht.turn.blanks)
          have hgrown := h.insert ht hless
          omega
        rcases h.remove ht hafter hlt (by omega) with hfewer | ⟨hsame, hlead, hbound⟩
        · exact ihB _ (hB ▸ hfewer) hclear hn' rfl
        · exact ihk (B + 1 - lead run₁) (by omega) hclear hn' (hsame.trans hB) rfl

/-- From a run after a shown anchor the loop ends. -/
theorem Level.ends (h : Level after front run back pass) :
    Loop.Ends (evenTurn after want) pass := by
  induction hn : front.length + back.length using Nat.strong_induction_on
    generalizing pass front run back with
  | _ n ih =>
    have hsmall : ∀ pass, Smaller after n pass → Loop.Ends (evenTurn after want) pass :=
      fun pass ⟨f, r, b, hlevel, hlt⟩ => ih _ hlt hlevel rfl
    refine ends_of_prunes (P := fun pass => ∃ front run back, Level after front run back pass ∧
      front.length + back.length = n) (fun pass pass' hpass hturn => ?_) ⟨front, run, back, h, hn⟩
    obtain ⟨front, run, back, h, hn⟩ := hpass
    obtain ⟨have_, x, front', run', back', ht⟩ := h.turn hturn
    have hn' : front'.length + back'.length = n := by rw [ht.frontLength, ht.backLength, hn]
    rcases le_or_gt (ghosts (front' ++ x :: (run' ++ back'))) MAX_GHOSTS_PER_FILE with hle | hlt
    · exact .inr ⟨⟨front', x :: run', back', ht.unpruned h hle, hn'⟩, ht.turn.grows h.place hle⟩
    · left
      rcases ht.pruned h hlt with hsmaller | ⟨hD, hlevel⟩
      · exact hsmall pass' (hn ▸ hsmaller)
      · have hnone := ht.noErasers h hlt hD
        refine Clear.ends hsmall ⟨hlevel, hnone, ?_⟩ hn'
        rw [ht.turn.slots, prune_of_lt hlt]
        have hcalm : Calm (front' ++ (x :: run' ++ back')) := ht.calm
        exact hcalm.removeAt hnone ht.blanks hD fun c hc => toDrop_closed hc

/-- The slots that are no blanks and no erasers of newest ops. -/
def oldCount (xs : List Slot) : Nat := xs.countP fun x => !(x.isBlank && x.stamp = scratchStamp)

theorem Turn.keepsOld {have_ : Nat} {x : Slot} {front' back' : List Slot}
    (ht : Turn after want have_ pass pass' front back x front' back') :
    oldCount (front' ++ x :: back') = oldCount (front ++ back) := by
  have hold : ∀ a b, Resettled a b → (!(b.isBlank && b.stamp = scratchStamp)) =
      !(a.isBlank && a.stamp = scratchStamp) := fun a b h => by rw [h.isBlank, h.stamp]
  rw [oldCount, oldCount, List.countP_append, List.countP_append, List.countP_cons,
    forall₂_countP hold ht.frontKept, forall₂_countP hold ht.backKept, ht.blank, ht.stamp]
  simp

/-- A hidden anchor is a task, which a turn leaves as it is. -/
theorem Turn.anchor {have_ : Nat} {x g : Slot} {before front' back' : List Slot}
    (ht : Turn after want have_ pass pass' (before ++ [g]) back x front' back')
    (h : Between after (before ++ [g]) back) :
    ∃ before', front' = before' ++ [g] ∧ before'.length = before.length ∧ g.isBlank = false := by
  obtain ⟨t, hid⟩ : ∃ t, g.id = some t := by
    generalize hfront : before ++ [g] = front at h
    cases h with
    | top => simp at hfront
    | @task t before₁ _ g₁ hid _ _ =>
      obtain ⟨-, hg⟩ := List.append_inj' hfront rfl
      exact ⟨t, (List.cons.inj hg).1 ▸ hid⟩
  obtain ⟨before', tail, rfl, hbefore, htail⟩ := exists_of_forall₂_append ht.frontKept
  cases htail with
  | cons hg hnil =>
    cases hnil
    obtain rfl := hg.eq_of_id hid
    refine ⟨before', rfl, hbefore.length_eq.symm, ?_⟩
    by_contra hblank
    rw [Slot.id_eq_none_iff.2 (by simpa using hblank)] at hid
    cases hid

/-- A prune after a hidden anchor drops an old slot, or one in front of the anchor. -/
theorem Turn.pruned_hidden {have_ : Nat} {x g : Slot} {before' back' : List Slot}
    (ht : Turn after want have_ pass pass' front back x (before' ++ [g]) back')
    (h : At after front back pass) (hg : g.hidden = true) (hid : g.isBlank = false)
    (hlt : MAX_GHOSTS_PER_FILE < ghosts (before' ++ [g] ++ x :: back')) :
    oldCount pass'.work.slots < oldCount pass.work.slots ∨
      oldCount pass'.work.slots = oldCount pass.work.slots ∧
        ∃ before₁ back₁, At after (before₁ ++ [g]) back₁ pass' ∧ before₁.length < before'.length := by
  have hslots : pass'.work.slots = restOf (turnDrop (before' ++ [g] ++ x :: back')) 0
      (before' ++ [g] ++ x :: back') := by
    rw [ht.slots, prune_of_lt hlt]
    rfl
  have hcount : oldCount (before' ++ [g] ++ x :: back') = oldCount pass.work.slots := by
    rw [h.slots]
    exact ht.keepsOld
  by_cases hdropped : ∃ p ∈ (before' ++ [g] ++ x :: back').zipIdx,
      p.2 ∈ turnDrop (before' ++ [g] ++ x :: back') ∧
        (!(p.1.isBlank && p.1.stamp = scratchStamp)) = true
  · obtain ⟨p, hp, hdrop, hold⟩ := hdropped
    left
    rw [hslots, ← hcount]
    exact countP_restOf_lt _ hp hdrop hold
  right
  simp only [not_exists, not_and, Bool.not_eq_true] at hdropped
  have hgin : (g, before'.length) ∈ (before' ++ [g] ++ x :: back').zipIdx := by
    simp [List.zipIdx_append]
  have hgkept : before'.length ∉ turnDrop (before' ++ [g] ++ x :: back') := fun hdrop => by
    have := hdropped _ hgin hdrop
    simp [hid] at this
  have hplace := ht.pruned h.between hlt fun p hp hi => by
    have hpi : p.2 = before'.length := by simpa using hi
    rw [hpi]
    exact hgkept
  rw [restOf_append, Nat.zero_add, restOf_cons_of_not_mem hgkept] at hplace
  refine ⟨?_, _, _, hplace, ?_⟩
  · rw [← hcount, hslots, oldCount, oldCount, List.countP_eq_length_filter,
      List.countP_eq_length_filter, filter_restOf _ fun p hp hdrop => hdropped p hp hdrop]
  · -- the anchor's own ghost would go before any newer one behind it
    have hghost : Unclaimed (before' ++ [g] ++ x :: back') (g, before'.length) :=
      ⟨hg, task_not_claimed hgin hid⟩
    obtain ⟨p, hp, hdrop, -, hmin⟩ := exists_oldest_dropped (excess_pos hlt) hgin hghost
    have hstamp : p.1.stamp = scratchStamp := by
      have := hdropped p hp hdrop
      simp at this
      exact this.2
    have hgfits : g.stamp ≤ scratchStamp := by
      obtain ⟨y, hy, hr⟩ := mem_of_forall₂ ht.frontKept (List.mem_append_right _ (List.mem_singleton_self g))
      rw [hr.stamp]
      exact h.fits.stamp_le (h.slots ▸ List.mem_append_left _ hy)
    have hfirst : p.2 ≤ before'.length := (hmin _ hgin hghost).2 (by rw [hstamp]; exact hgfits)
    have hne : p.2 ≠ before'.length := fun heq => hgkept (heq ▸ hdrop)
    refine length_restOf_lt (p := p) ?_ hdrop
    rw [List.append_assoc, List.zipIdx_append] at hp
    rcases List.mem_append.1 hp with hp | hp
    · exact hp
    · have := (zipIdx_label hp).1
      omega

/-- The slots that make the loop's anchor, when it has one. -/
theorem exists_at {have_ : Nat} (hs : pass.work.Sound) (hfits : pass.work.Fits)
    (hblanks : pass.work.blanksAfter after = some have_) : ∃ front back, At after front back pass := by
  have hplace : ∀ t, after = some t → Slots.hasPlacement pass.work.slots t = true := by
    rintro t rfl
    rw [hs.aligned.blanksAfter, Option.elim_some, Option.map_map] at hblanks
    obtain ⟨i, hi, -⟩ := Option.map_eq_some_iff.1 hblanks
    obtain ⟨hlt, hid, -⟩ := List.findIdx?_eq_some_iff_getElem.1 hi
    have hmem := List.getElem_mem hlt
    obtain ⟨u, xs, hxs⟩ := hs.aligned.exists_slots
    rw [hxs, slots_withSlots]
    simp only [hxs, withSlots_visibleEntries] at hmem hid
    obtain ⟨x, hx, hxe⟩ := List.mem_map.1 hmem
    refine hasPlacement_iff.2 ⟨x, (List.mem_filter.1 hx).1, ?_⟩
    rw [← Slot.entry_id, hxe]
    simpa using hid
  obtain ⟨front, back, hslots, hbetween⟩ := exists_between hplace
  exact ⟨front, back, hs, hfits, hslots, hbetween⟩

/-- The loop that evens out the blanks after `after` ends. -/
theorem evenTurn_ends (hs : pass.work.Sound) (hfits : pass.work.Fits) :
    Loop.Ends (evenTurn after want) pass := by
  induction hm : oldCount pass.work.slots using Nat.strong_induction_on generalizing pass with
  | _ m ihm =>
    cases hblanks : pass.work.blanksAfter after with
    | none => exact .stop (r := none) (by rw [evenTurn, hblanks])
    | some have_ =>
      obtain ⟨front, back, hat⟩ := exists_at hs hfits hblanks
      clear hblanks hs hfits
      induction hk : front.length using Nat.strong_induction_on generalizing pass front back with
      | _ k ihk =>
        by_cases hshown : ∀ g ∈ front.getLast?, g.hidden = false
        · have hlevel : Level after front [] back pass := ⟨hat, hshown, by simp⟩
          exact hlevel.ends
        obtain ⟨before, g, rfl, hg⟩ : ∃ before g, front = before ++ [g] ∧ g.hidden = true := by
          simp only [not_forall, Bool.not_eq_false] at hshown
          obtain ⟨g, hlast, hg⟩ := hshown
          obtain ⟨before, rfl⟩ := List.getLast?_eq_some_iff.1 hlast
          exact ⟨before, g, rfl, hg⟩
        refine ends_of_prunes (P := fun pass => ∃ before g back, At after (before ++ [g]) back pass ∧
          g.hidden = true ∧ (before ++ [g]).length = k ∧ oldCount pass.work.slots = m)
          (fun pass pass' hpass hturn => ?_) ⟨before, g, back, hat, hg, hk, hm⟩
        obtain ⟨before, g, back, hat, hg, hk, hm⟩ := hpass
        obtain ⟨have_, x, front', back', ht⟩ := hat.turn hturn
        obtain ⟨before', rfl, hlength, hid⟩ := ht.anchor hat.between
        rcases le_or_gt (ghosts (before' ++ [g] ++ x :: back')) MAX_GHOSTS_PER_FILE with hle | hlt
        · refine .inr ⟨⟨before', g, x :: back', ht.unpruned hat.between hle, hg, ?_, ?_⟩,
            ht.grows hat hle⟩
          · rw [← hk, List.length_append, List.length_append, hlength]
          · rw [ht.slots, prune_of_le hle, ht.keepsOld, ← hat.slots, hm]
        · left
          rcases ht.pruned_hidden hat hg hid hlt with hfewer | ⟨hsame, before₁, back₁, hat₁, hshorter⟩
          · exact ihm _ (hm ▸ hfewer) ht.sound ht.fits rfl
          · refine ihk (before₁ ++ [g]).length ?_ (hsame.trans hm) _ _ hat₁ rfl
            rw [← hk, List.length_append, List.length_append]
            omega

end Ends

end Pass

end Txtodo
