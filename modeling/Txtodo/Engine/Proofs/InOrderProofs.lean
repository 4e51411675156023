import Txtodo.Engine.SyncPark
import Txtodo.Engine.Proofs.ReplayProofs
import Txtodo.Engine.Proofs.HeaderProofs
import Txtodo.Engine.Proofs.LenientProofs
import Txtodo.Engine.Proofs.ParkedProofs

/-!
# Proofs: a batch that applies in order

Ops that apply one after another name tasks with a placement only; so no group is parked, nothing is
retried, and the batch leaves what applying them one after another leaves.
-/

namespace Txtodo

namespace DocState

variable {s s' : DocState} {ops : List Op}

/-! ## A run of ops -/

theorem replay_cons_eq_some {op : Op} : s.replay (op :: ops) = some s' ↔
    ∃ s₁ : DocState, s.apply op = s₁.done ∧ s₁.replay ops = some s' := by
  rw [replay_cons]
  rcases s.apply op with ⟨s₁, e | u⟩ <;> simp [done]

theorem replay_append (s : DocState) (ops ops' : List Op) :
    s.replay (ops ++ ops') = (s.replay ops).bind fun s' => s'.replay ops' := by
  rw [replay, List.foldlM_append]
  rfl

theorem replay_append_eq_some {ops' : List Op} : s.replay (ops ++ ops') = some s' ↔
    ∃ s₁ : DocState, s.replay ops = some s₁ ∧ s₁.replay ops' = some s' := by
  rw [replay_append, Option.bind_eq_some_iff]

theorem sound_replay (hs : s.Sound) (h : s.replay ops = some s') : s'.Sound := by
  induction ops generalizing s with
  | nil =>
    obtain rfl : s = s' := Option.some.inj h
    exact hs
  | cons op ops ih =>
    obtain ⟨s₁, hfirst, hrest⟩ := replay_cons_eq_some.1 h
    have hs₁ := hs.apply op
    rw [hfirst] at hs₁
    exact ih hs₁ hrest

theorem path_replay (h : s.replay ops = some s') : s'.path = s.path := by
  induction ops generalizing s with
  | nil =>
    obtain rfl : s = s' := Option.some.inj h
    rfl
  | cons op ops ih =>
    obtain ⟨s₁, hfirst, hrest⟩ := replay_cons_eq_some.1 h
    have hpath := path_apply s op
    rw [hfirst] at hpath
    exact (ih hrest).trans hpath

/-! ## The tasks an op names -/

theorem anchorSlot_placed {after : Option TaskId} {at_ : Hlc}
    (h : (s.anchorSlot after at_).isOk = true) : ∀ t ∈ after, s.hasPlacement t = true :=
  Slots.anchorSlot_isOk.1 h

theorem slotAfter_placed {after : Option TaskId} {at_ : Hlc} {spot : Spot}
    (h : s.slotAfter after at_ = .ok spot) : ∀ t ∈ after, s.hasPlacement t = true := by
  have hok : (s.anchorSlot after at_).isOk = true := by
    rw [anchorSlot, ← Slots.slotAfter_isOk, show Slots.slotAfter s.slots after at_ = .ok spot from h]
    rfl
  exact anchorSlot_placed hok

theorem contentSlot_placed {task : TaskId} {slot : Nat} (h : s.contentSlot task = some slot) :
    s.hasPlacement task = true := by
  obtain ⟨x, hx, hid⟩ := Option.bind_eq_some_iff.1 (contentSlot_id h)
  exact Slots.hasPlacement_iff.2 ⟨x, List.mem_of_getElem? hx, hid⟩

/-- An op that fails says so. -/
theorem FailsOr.of_ok {P : DocState → Prop} {out : Outcome} (h : FailsOr s P out)
    (hok : out.result = .ok ()) : P out.state := by
  rcases h with ⟨e, rfl⟩ | ⟨s', rfl, hp⟩
  · cases hok
  · exact hp

theorem Rewrites.placed {task : TaskId} (h : Rewrites task s s') : s.hasPlacement task = true := by
  obtain ⟨_, slot, _, _, hslot, -⟩ := h
  exact contentSlot_placed hslot

theorem setField_placed {task : TaskId} {field : Field} (hfield : field ≠ .deleted) {value : FieldValue}
    {at_ : Hlc} (hok : (s.setField task field value at_).result = .ok ()) :
    s.hasPlacement task = true := by
  rw [setField, if_neg hfield] at hok
  cases hslot : s.contentSlot task with
  | none =>
    rw [hslot] at hok
    cases hok
  | some slot => exact contentSlot_placed hslot

/-- Every task a routed op names has a placement where the op applies. -/
theorem applyKind_placed {op : Op} (hfile : op.file = s.path) (hok : (s.applyKind op).result = .ok ()) :
    ∀ t ∈ named op, s.hasPlacement t = true := by
  obtain ⟨id, at_, file, kind⟩ := op
  obtain rfl : file = s.path := hfile
  intro t ht
  cases kind with
  | insert task after line =>
    have hafter : t ∈ after := by simpa [named, names] using ht
    rcases insert_outcome (s := s) task after line at_ with hor | ⟨h, e, -, -, hout⟩
    · rcases hor.of_ok hok with ⟨-, -, -, spot, hspot, -⟩ | ⟨-, -, spot, _, _, _, hspot, -⟩
      · exact slotAfter_placed hspot t hafter
      · exact slotAfter_placed hspot t hafter
    · rw [show s.applyKind ⟨id, at_, s.path, .insert task after line⟩ = _ from hout] at hok
      cases hok
  | setField task field value =>
    obtain rfl : t = task := by simpa [named, names] using ht
    by_cases hdeleted : field = .deleted
    · subst hdeleted
      exact ((setDeleted_outcome t value at_).of_ok hok).1
    · exact setField_placed hdeleted hok
  | editText task edits =>
    obtain rfl : t = task := by simpa [named, names] using ht
    exact ((editText_outcome t edits at_).of_ok hok).placed
  | move task after toFile =>
    by_cases hfile : toFile = s.path
    · subst hfile
      have ht : t = task ∨ t ∈ after := by simpa [named, names] using ht
      rcases (moveTask_here task after at_).of_ok hok with ⟨-, ⟨-, spot, line, hspot, hline, -⟩ |
        ⟨slot, entry, spot, hlive, -, -, hspot, -⟩⟩
      · rcases ht with rfl | ht
        · obtain ⟨slot, hslot, -⟩ := Option.bind_eq_some_iff.1 hline
          exact contentSlot_placed hslot
        · exact slotAfter_placed hspot t ht
      · rcases ht with rfl | ht
        · have hcontent : s.contentSlot t = some slot := by
            rw [contentSlot, Slots.contentSlot, show Slots.liveSlot s.slots t = some slot from hlive,
              Option.some_or]
          exact contentSlot_placed hcontent
        · have hok : (s.anchorSlot after at_).isOk = true := by
            rw [← hideEntry_slotAfter_isOk s slot, hspot]
            rfl
          exact anchorSlot_placed hok t ht
    · have ht : t = task := by simpa [named, names, hfile] using ht
      subst ht
      exact ((moveTask_away t after at_ hfile).of_ok hok).1
  | notesEdit file edits => cases hok
  | blankInsert after =>
    have hafter : t ∈ after := by simpa [named, names] using ht
    obtain ⟨-, spot, hspot, -⟩ := (blankInsert_outcome after at_).of_ok hok
    exact slotAfter_placed hspot t hafter
  | blankRemove after =>
    have hafter : t ∈ after := by simpa [named, names] using ht
    obtain ⟨spot, hspot, -⟩ := (blankRemove_outcome after at_).of_ok hok
    exact slotAfter_placed hspot t hafter
  | removeTag task key =>
    obtain rfl : t = task := by simpa [named, names] using ht
    exact ((removeTag_outcome t key at_).of_ok hok).placed

theorem apply_placed {op : Op} (hfile : op.file = s.path) (h : s.apply op = s'.done) :
    ∀ t ∈ named op, s.hasPlacement t = true := by
  refine applyKind_placed hfile ?_
  unfold DocState.apply at h
  dsimp only at h
  split at h
  · cases h
  · assumption

/-- What an op that applies brings is what it inserts, or had a placement. -/
theorem apply_inserts (hs : s.Sound) {op : Op} (hfile : op.file = s.path) (h : s.apply op = s'.done)
    {t : TaskId} (ht : s'.hasPlacement t = true) : insertedTask op = some t ∨ s.hasPlacement t = true := by
  have hbrings : Brings (subject op.kind) s s' := by
    have := (apply_brings hs op).1 (by rw [h]; rfl)
    rwa [h] at this
  rcases hbrings t ht with hold | hsubject
  · exact .inr hold
  · obtain ⟨id, at_, file, kind⟩ := op
    cases kind with
    | insert task after line => exact .inl hsubject
    | notesEdit => cases hsubject
    | blankInsert => cases hsubject
    | blankRemove => cases hsubject
    | _ =>
      obtain rfl := Option.some.inj hsubject
      exact .inr (apply_placed hfile h _ (by simp [named, names]))

/-- A run's ops name tasks placed before it or inserted in it. -/
theorem replay_placed (hs : s.Sound) (hfile : ∀ op ∈ ops, op.file = s.path)
    (h : s.replay ops = some s') {op : Op} (hop : op ∈ ops) {t : TaskId} (ht : t ∈ named op) :
    (∃ op' ∈ ops, insertedTask op' = some t) ∨ s.hasPlacement t = true := by
  induction ops generalizing s with
  | nil => cases hop
  | cons first ops ih =>
    obtain ⟨s₁, hfirst, hrest⟩ := replay_cons_eq_some.1 h
    have hfile₁ := hfile first List.mem_cons_self
    rcases List.mem_cons.1 hop with rfl | hop
    · exact .inr (apply_placed hfile₁ hfirst t ht)
    · have hs₁ := hs.apply first
      have hpath := path_apply s first
      rw [hfirst] at hs₁ hpath
      rcases ih hs₁ (fun o ho => (hfile o (List.mem_cons_of_mem _ ho)).trans hpath.symm) hrest hop with
        ⟨op', hop', hins⟩ | hplaced
      · exact .inl ⟨op', List.mem_cons_of_mem _ hop', hins⟩
      · rcases apply_inserts hs hfile₁ hfirst hplaced with hins | hold
        · exact .inl ⟨first, List.mem_cons_self, hins⟩
        · exact .inr hold

theorem needsAMissingTask_of_replay (hs : s.Sound) (hfile : ∀ op ∈ ops, op.file = s.path)
    (h : s.replay ops = some s') : needsAMissingTask s ops = false := by
  rw [← Bool.not_eq_true]
  intro hneeds
  simp only [needsAMissingTask, List.any_eq_true, Bool.and_eq_true, decide_eq_true_eq,
    List.mem_filterMap, not_exists, not_and, Bool.not_eq_true'] at hneeds
  obtain ⟨op, hop, t, ht, hnone, hmissing⟩ := hneeds
  rcases replay_placed hs hfile h hop ht with ⟨op', hop', hins⟩ | hplaced
  · exact hnone op' hop' hins
  · exact absurd (hmissing.symm.trans hplaced) Bool.false_ne_true

/-! ## The batch -/

theorem applyEach_of_replay (h : s.replay ops = some s') : applyEach s ops = (s', []) := by
  induction ops generalizing s with
  | nil => rw [applyEach, Option.some.inj h]
  | cons op ops ih =>
    obtain ⟨s₁, hfirst, hrest⟩ := replay_cons_eq_some.1 h
    have happly : Document.apply s op = (s₁, .ok ()) := by
      show ((s.apply op).state, (s.apply op).result) = _
      rw [hfirst]
      rfl
    rw [applyEach_ok happly, ih hrest]

theorem lenientRounds_of_replay (h : s.replay ops = some s') (rounds : Nat) :
    lenientRounds (rounds + 1) s ops = some (s', []) := by
  rw [lenientRounds, applyEach_of_replay h]
  rfl

theorem commitGroups_of_replay {groups : List (List Op)} (h : s.replay groups.flatten = some s') :
    groups.foldlM lenientGroup (s, []) = some (s', []) := by
  induction groups generalizing s with
  | nil =>
    obtain rfl : s = s' := Option.some.inj h
    rfl
  | cons group groups ih =>
    rw [List.flatten_cons, replay_append_eq_some] at h
    obtain ⟨s₁, hgroup, hrest⟩ := h
    rw [List.foldlM_cons, lenientGroup, lenientRounds_of_replay hgroup]
    exact ih hrest

/-- A batch whose ops apply in order is applied in order, none skipped. -/
theorem applyLeniently_of_replay (h : s.replay ops = some s') : applyLeniently s ops = some (s', []) :=
  commitGroups_of_replay (by rwa [flatten_commitGroups])

/-- Nothing waits, so nothing is retried. -/
theorem retry_empty (s : DocState) (out : Parking) (touched : List TaskId) :
    Session.retry ⟨s, .empty, out⟩ touched = some ⟨s, .empty, out⟩ := by
  have hready : (Parked.empty.naming touched).isEmpty = true := by
    rw [OrdSet.isEmpty_iff]
    intro n hn
    obtain ⟨t, -, hn⟩ := Parked.mem_naming.1 hn
    exact absurd hn List.not_mem_nil
  rw [Session.retry, Session.retryRounds, if_pos hready]

theorem parkGroup_of_replay {out : Parking} {group : List Op} (hs : s.Sound)
    (hfile : ∀ op ∈ group, op.file = s.path) (h : s.replay group = some s') :
    Session.parkGroup ⟨s, .empty, out⟩ group = some ⟨s', .empty, out⟩ := by
  have hwhole : ∀ hlc, Parked.empty.waitsWhole hlc = false := fun _ => rfl
  have hparks : Session.parks ⟨s, Parked.empty, out⟩ group = false := by
    rw [Session.parks, needsAMissingTask_of_replay hs hfile h, Bool.or_false]
    cases group.head? with
    | none => rfl
    | some op => exact hwhole op.hlc
  rw [Session.parkGroup, hparks, if_neg Bool.false_ne_true, applyLeniently_of_replay h]
  show (if _ then some _ else _) = _
  split_ifs
  · rfl
  · exact retry_empty s' out _

theorem commitGroups_parkGroup_of_replay {out : Parking} {groups : List (List Op)} (hs : s.Sound)
    (hfile : ∀ op ∈ groups.flatten, op.file = s.path) (h : s.replay groups.flatten = some s') :
    groups.foldlM Session.parkGroup ⟨s, .empty, out⟩ = some ⟨s', .empty, out⟩ := by
  induction groups generalizing s with
  | nil =>
    obtain rfl : s = s' := Option.some.inj h
    rfl
  | cons group groups ih =>
    rw [List.flatten_cons] at hfile h
    obtain ⟨s₁, hgroup, hrest⟩ := replay_append_eq_some.1 h
    have hfile₁ : ∀ op ∈ groups.flatten, op.file = s₁.path := by
      intro op hop
      rw [path_replay hgroup]
      exact hfile op (List.mem_append_right _ hop)
    rw [List.foldlM_cons,
      parkGroup_of_replay hs (fun op hop => hfile op (List.mem_append_left _ hop)) hgroup]
    exact ih (sound_replay hs hgroup) hfile₁ hrest

/-- A batch whose ops apply in order with nothing waiting leaves nothing waiting. -/
theorem applyParking_of_replay (hs : s.Sound) (hfile : ∀ op ∈ ops, op.file = s.path)
    (h : s.replay ops = some s') : applyParking s ops .empty = some ⟨s', .empty, ⟨[], 0⟩⟩ :=
  commitGroups_parkGroup_of_replay hs (by rwa [flatten_commitGroups]) (by rwa [flatten_commitGroups])

end DocState

end Txtodo
