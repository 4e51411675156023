import Txtodo.Engine.Proofs.FrameProofs

/-!
# Proofs: how many ghosts are kept

What a prune drops is hidden, so what is shown stays; it drops as many ghosts as there are too many, or one more:
an eraser goes with the blank it claims. On a document changed by ops only the bound holds after every op.
-/

namespace Txtodo

namespace Slots

variable {xs : List Slot} {excess : Nat} {claims : List (Nat × Nat)} {drop acc l : List Nat}

/-- The drop stops with the first ghost that makes it large enough. -/
theorem dropped_length (claims : List (Nat × Nat)) (acc l : List Nat) (hacc : acc.length ≤ excess + 1) :
    (dropped claims excess acc l).length ≤ excess + 1 ∧
      (excess ≤ (dropped claims excess acc l).length ∨
        dropped claims excess acc l = acc ++ l.flatMap (withClaim claims)) := by
  induction l generalizing acc with
  | nil => exact ⟨hacc, .inr (List.append_nil acc).symm⟩
  | cons i rest ih =>
    rw [dropped]
    by_cases hfull : excess ≤ acc.length
    · rw [if_pos hfull]
      exact ⟨hacc, .inl hfull⟩
    · rw [if_neg hfull]
      have htwo : (withClaim claims i).length ≤ 2 := by
        rw [withClaim, List.length_cons, List.length_map]
        have hone := Option.length_toList_le (o := claims.find? (·.1 = i))
        omega
      have hnext : (acc ++ withClaim claims i).length ≤ excess + 1 := by
        rw [List.length_append]
        omega
      rw [List.flatMap_cons, ← List.append_assoc]
      exact ih _ hnext

/-- The ghosts no eraser claims, each with the blank it claims, are all that a prune may drop. -/
def droppable (xs : List Slot) : List Nat := ((oldestGhosts xs).map (·.2)).flatMap (withClaim (Slots.claims xs))

theorem mem_droppable {i : Nat} :
    i ∈ droppable xs ↔ ∃ p, p ∈ xs.zipIdx ∧ Unclaimed xs p ∧ (i = p.2 ∨ (p.2, i) ∈ Slots.claims xs) := by
  rw [droppable, List.mem_flatMap]
  constructor
  · rintro ⟨e, he, hi⟩
    obtain ⟨p, hp, rfl⟩ := List.mem_map.1 he
    obtain ⟨hmem, hghost⟩ := mem_oldestGhosts.1 hp
    exact ⟨p, hmem, hghost, (mem_withClaim (claims_fst_nodup xs)).1 hi⟩
  · rintro ⟨p, hmem, hghost, hi⟩
    exact ⟨p.2, List.mem_map_of_mem (mem_oldestGhosts.2 ⟨hmem, hghost⟩), (mem_withClaim (claims_fst_nodup xs)).2 hi⟩

theorem labels_nodup (xs : List Slot) : (xs.zipIdx.map (·.2)).Nodup := by
  rw [List.zipIdx_map_snd]
  exact List.nodup_range' ..

theorem droppable_nodup (xs : List Slot) : (droppable xs).Nodup := by
  have hlabels : ((oldestGhosts xs).map (·.2)).Nodup := by
    refine ((List.perm_insertionSort _ _).map _).nodup_iff.2 ?_
    exact (List.filter_sublist.map _).nodup (labels_nodup xs)
  have hghost : ∀ e ∈ (oldestGhosts xs).map (·.2), e ∉ (Slots.claims xs).map (·.2) := fun e he => by
    obtain ⟨p, hp, rfl⟩ := List.mem_map.1 he
    exact (mem_oldestGhosts.1 hp).2.2
  refine List.nodup_flatMap.2 ⟨fun e he => ?_, hlabels.imp_of_mem fun {e e'} he he' hne i hi hi' => ?_⟩
  · rw [withClaim, List.nodup_cons]
    constructor
    · intro hmem
      obtain ⟨c, hc, hce⟩ := List.mem_map.1 hmem
      exact hghost e he (List.mem_map.2 ⟨c, List.mem_of_find?_eq_some (Option.mem_toList.1 hc), hce⟩)
    · cases (Slots.claims xs).find? (·.1 = e) with
      | none => exact List.nodup_nil
      | some c => exact List.nodup_singleton _
  · rcases (mem_withClaim (claims_fst_nodup xs)).1 hi with rfl | hclaim
    · rcases (mem_withClaim (claims_fst_nodup xs)).1 hi' with rfl | hclaim'
      · exact hne rfl
      · exact hghost _ he (List.mem_map.2 ⟨_, hclaim', rfl⟩)
    · rcases (mem_withClaim (claims_fst_nodup xs)).1 hi' with rfl | hclaim'
      · exact hghost _ he' (List.mem_map.2 ⟨_, hclaim, rfl⟩)
      · have heq : (e, i) = (e', i) := List.inj_on_of_nodup_map (claims_snd_nodup xs) hclaim hclaim' rfl
        exact hne (Prod.mk.inj heq).1

theorem toDrop_nodup (xs : List Slot) (excess : Nat) : (toDrop xs excess).Nodup := by
  obtain ⟨n, hn, -⟩ := toDrop_eq xs excess
  rw [hn]
  refine List.Nodup.sublist ?_ (droppable_nodup xs)
  conv_rhs => rw [droppable, ← List.take_append_drop n ((oldestGhosts xs).map (·.2)), List.flatMap_append]
  exact List.sublist_append_left ..

/-- Every ghost may be dropped. -/
theorem Sound.ghosts_le (h : Sound xs) : ghosts xs ≤ (droppable xs).length := by
  have hcount : ghosts xs = ((xs.zipIdx.filter fun p => p.1.hidden).map (·.2)).length := by
    rw [ghosts, List.length_map, ← List.countP_eq_length_filter]
    conv_lhs => rw [← List.zipIdx_map_fst 0 xs, List.countP_map]
    rfl
  rw [hcount]
  refine ((List.subperm_of_subset ((List.filter_sublist.map _).nodup (labels_nodup xs)) ?_)).length_le
  intro i hi
  obtain ⟨p, hp, rfl⟩ := List.mem_map.1 hi
  obtain ⟨hmem, hhidden⟩ := List.mem_filter.1 hp
  by_cases hclaimed : p.2 ∈ (Slots.claims xs).map (·.2)
  · obtain ⟨⟨e, b⟩, hc, hb⟩ := List.mem_map.1 hclaimed
    obtain ⟨⟨x, hx, heraser⟩, -⟩ := mem_claims hc
    have hxmem : x ∈ xs := (List.mem_zipIdx' hx).2 ▸ List.getElem_mem _
    refine mem_droppable.2 ⟨(x, e), hx, ⟨(h.eraser x hxmem heraser).1, eraser_not_claimed hx heraser⟩, .inr ?_⟩
    rw [← hb]
    exact hc
  · exact mem_droppable.2 ⟨p, hmem, ⟨hhidden, hclaimed⟩, .inl rfl⟩

theorem length_toDrop (h : Sound xs) (hexcess : excess ≤ ghosts xs) :
    excess ≤ (toDrop xs excess).length ∧ (toDrop xs excess).length ≤ excess + 1 := by
  have hlength := dropped_length (Slots.claims xs) [] ((oldestGhosts xs).map (·.2)) (Nat.zero_le (excess + 1))
  have heq : toDrop xs excess = dropped (Slots.claims xs) excess [] ((oldestGhosts xs).map (·.2)) := rfl
  rw [heq]
  refine ⟨?_, hlength.1⟩
  rcases hlength.2 with hfull | hall
  · exact hfull
  · rw [hall, List.nil_append]
    exact hexcess.trans h.ghosts_le

/-- Ghosts dropped and ghosts left. -/
theorem ghosts_removeAt (hnd : drop.Nodup) (h : ∀ i ∈ drop, ∃ x, (x, i) ∈ xs.zipIdx ∧ x.hidden = true) :
    ghosts (removeAt drop xs) + drop.length = ghosts xs := by
  have hsplit := List.countP_eq_countP_filter_add xs.zipIdx (fun p => p.1.hidden) fun p => decide (p.2 ∉ drop)
  have hleft : ghosts (removeAt drop xs) = (xs.zipIdx.filter fun p => decide (p.2 ∉ drop)).countP fun p => p.1.hidden := by
    rw [ghosts, removeAt, List.countP_map]
    rfl
  have hall : ghosts xs = xs.zipIdx.countP fun p => p.1.hidden := by
    conv_lhs => rw [ghosts, ← List.zipIdx_map_fst 0 xs, List.countP_map]
    rfl
  have hdrop : (xs.zipIdx.filter fun p => !decide (p.2 ∉ drop)).countP (fun p => p.1.hidden) =
      drop.length := by
    have hperm : ((xs.zipIdx.filter fun p => !decide (p.2 ∉ drop)).map (·.2)).Perm drop := by
      refine (List.perm_ext_iff_of_nodup ((List.filter_sublist.map _).nodup (labels_nodup xs)) hnd).2 fun i => ?_
      constructor
      · intro hi
        obtain ⟨p, hp, rfl⟩ := List.mem_map.1 hi
        simpa using (List.mem_filter.1 hp).2
      · intro hi
        obtain ⟨x, hx, -⟩ := h i hi
        exact List.mem_map.2 ⟨(x, i), List.mem_filter.2 ⟨hx, by simpa using hi⟩, rfl⟩
    rw [← hperm.length_eq, List.length_map, List.countP_eq_length]
    intro p hp
    obtain ⟨hmem, hin⟩ := List.mem_filter.1 hp
    obtain ⟨x, hx, hhidden⟩ := h p.2 (by simpa using hin)
    rw [eq_of_zipIdx hmem hx]
    exact hhidden
  omega

/-- Erasers settle nothing of one another. -/
theorem settleErasers_of_erasers (h : ∀ x ∈ xs, x.eraser = true) : settleErasers xs = xs := by
  unfold settleErasers
  split_ifs
  · conv_rhs => rw [← List.zipIdx_map_fst 0 xs]
    refine List.map_congr_left fun p hp => if_neg ?_
    simp [h p.1 (List.fst_mem_of_mem_zipIdx hp)]
  · rfl

end Slots

namespace DocState

variable {s s' : DocState} {task : TaskId}

theorem Rewrites.ghosts (h : Rewrites task s s') : s'.ghosts = s.ghosts := by
  obtain ⟨history, slot, line, stamps, -, rfl⟩ := h
  show (s.entries.set slot _).length - s.visible.length = _
  rw [List.length_set]
  rfl

theorem FailsOr.ghosts {P : DocState → Prop} {out : Outcome} (h : FailsOr s P out)
    (hP : ∀ s', out.result = .ok () → P s' → s'.ghosts = s.ghosts) : out.state.ghosts = s.ghosts := by
  rcases h with ⟨e, rfl⟩ | ⟨s', rfl, hp⟩
  · rfl
  · exact hP s' rfl hp

/-- An op that is refused, or that places and hides nothing, makes no ghost. -/
theorem applyKind_ghosts (op : Op) (h : (s.applyKind op).result ≠ .ok () ∨ reshapes op.kind = false) :
    (s.applyKind op).state.ghosts = s.ghosts := by
  obtain ⟨id, at_, file, kind⟩ := op
  have hrefused : ∀ {P : DocState → Prop} {out : Outcome}, FailsOr s P out → reshapes kind = true →
      s.applyKind ⟨id, at_, file, kind⟩ = out → out.state.ghosts = s.ghosts := fun hor hreshapes hout => by
    refine hor.ghosts fun s' hok => ?_
    rcases h with hne | hnone
    · rw [hout] at hne
      exact absurd hok hne
    · rw [show reshapes kind = false from hnone] at hreshapes
      cases hreshapes
  cases kind with
  | insert task after line =>
    rcases insert_outcome task after line at_ with hor | ⟨history, e, -, -, hout⟩
    · exact hrefused hor rfl rfl
    · show (s.insert task after line at_).state.ghosts = _
      rw [hout]
      rfl
  | setField task field value =>
    by_cases hdeleted : field = .deleted
    · subst hdeleted
      exact hrefused (setDeleted_outcome task value at_) rfl rfl
    · rcases setField_outcome s task hdeleted value at_ with hor |
        ⟨-, -, -, line, description, e, -, -, -, hout⟩
      · refine hor.ghosts fun s' _ => ?_
        rintro (rfl | hr)
        · rfl
        · exact hr.ghosts
      · obtain ⟨history, hh⟩ := clearPriInDescription_state s task description
        show (s.setField task field value at_).state.ghosts = _
        rw [hout, hh]
        rfl
  | editText task edits => exact (editText_outcome task edits at_).ghosts fun s' _ hr => hr.ghosts
  | move task after toFile =>
    by_cases hfile : toFile = s.path
    · subst hfile
      exact hrefused (moveTask_here task after at_) rfl rfl
    · exact hrefused (moveTask_away task after at_ hfile) rfl rfl
  | notesEdit file edits => rfl
  | blankInsert after => exact hrefused (blankInsert_outcome after at_) rfl rfl
  | blankRemove after => exact hrefused (blankRemove_outcome after at_) rfl rfl
  | removeTag task key => exact (removeTag_outcome task key at_).ghosts fun s' _ hr => hr.ghosts

/-! ## Pruning what is settled -/

section Prune

variable {u : DocState} {xs : List Slot}

/-- A prune of a settled document drops nothing shown. -/
theorem pruneGhosts_visibleEntries (h : Slots.Calm xs) :
    (u.withSlots xs).pruneGhosts.visibleEntries = (u.withSlots xs).visibleEntries := by
  obtain ⟨v, hv, -, -⟩ := pruneGhosts_withSlots u xs
  rw [hv, withSlots_visibleEntries, withSlots_visibleEntries, Slots.prune]
  split_ifs
  · rw [Slots.removeAt_eq_restOf, Slots.filter_restOf]
    intro p hp hdrop
    rw [h.hidden_of_mem_toDrop hp hdrop]
    rfl
  · rfl

/-- It leaves as many ghosts as it should, or one fewer. -/
theorem pruneGhosts_ghosts (hs : Slots.Sound xs) (h : Slots.Calm xs)
    (hmany : MAX_GHOSTS_PER_FILE < (u.withSlots xs).ghosts) :
    (u.withSlots xs).pruneGhosts.ghosts = GHOSTS_AFTER_PRUNE ∨
      (u.withSlots xs).pruneGhosts.ghosts + 1 = GHOSTS_AFTER_PRUNE := by
  rw [withSlots_ghosts] at hmany
  obtain ⟨v, hv, -, -⟩ := pruneGhosts_withSlots u xs
  rw [hv, withSlots_ghosts, Slots.prune_of_lt hmany]
  have hmark : GHOSTS_AFTER_PRUNE < MAX_GHOSTS_PER_FILE := by decide
  have hlength := Slots.length_toDrop hs (Nat.sub_le (Slots.ghosts xs) GHOSTS_AFTER_PRUNE)
  have hleft := Slots.ghosts_removeAt (Slots.toDrop_nodup xs (Slots.ghosts xs - GHOSTS_AFTER_PRUNE))
    fun i hi => by
      obtain ⟨x, hx⟩ := Slots.exists_of_mem_toDrop hi
      exact ⟨x, hx, h.hidden_of_mem_toDrop hx hi⟩
  omega

end Prune

/-- One op keeps the bound; what it prunes is not shown. -/
theorem apply_ghosts (hs : s.Sound) (hle : s.ghosts ≤ MAX_GHOSTS_PER_FILE) (op : Op) :
    (s.apply op).state.ghosts ≤ MAX_GHOSTS_PER_FILE ∧
      ((s.apply op).result = .ok () → (s.apply op).state.visibleEntries =
          ((s.applyKind op).state.settled op).visibleEntries ∧
        (MAX_GHOSTS_PER_FILE < ((s.applyKind op).state.settled op).ghosts →
          (s.apply op).state.ghosts = GHOSTS_AFTER_PRUNE ∨ (s.apply op).state.ghosts + 1 = GHOSTS_AFTER_PRUNE)) := by
  have hmark : GHOSTS_AFTER_PRUNE < MAX_GHOSTS_PER_FILE := by decide
  have hsound := hs.applyKind op
  rcases apply_cases s op with ⟨hne, hstate⟩ | ⟨-, hok, hstate⟩
  · have hkind : (s.applyKind op).result ≠ .ok () := fun hok => hne (by
      rw [DocState.apply, hok]
      rfl)
    rw [hstate, applyKind_ghosts op (.inl hkind)]
    exact ⟨hle, fun hok => absurd hok hne⟩
  · rw [hstate]
    by_cases hreshapes : reshapes op.kind = true
    · obtain ⟨u, xs, hu⟩ := hsound.aligned.exists_slots
      have hsettled : (s.applyKind op).state.settled op = u.withSlots (Slots.settleErasers xs) := by
        rw [settled, if_pos hreshapes, hu, settleErasers_withSlots]
      have hxs : Slots.Sound (Slots.settleErasers xs) := by
        rw [hu, sound_withSlots] at hsound
        exact hsound.settleErasers
      have hcalm := Slots.calm_settleErasers xs
      rw [hsettled]
      refine ⟨?_, fun _ => ⟨pruneGhosts_visibleEntries hcalm, pruneGhosts_ghosts hxs hcalm⟩⟩
      by_cases hmany : MAX_GHOSTS_PER_FILE < (u.withSlots (Slots.settleErasers xs)).ghosts
      · have hleft := pruneGhosts_ghosts hxs hcalm hmany
        omega
      · rw [pruneGhosts_of_le (not_lt.1 hmany)]
        exact not_lt.1 hmany
    · rw [Bool.not_eq_true] at hreshapes
      have hsame := applyKind_ghosts (s := s) op (.inr hreshapes)
      have hsettled : (s.applyKind op).state.settled op = (s.applyKind op).state := by
        rw [settled, hreshapes]
        rfl
      have hroom : (s.applyKind op).state.ghosts ≤ MAX_GHOSTS_PER_FILE := hsame ▸ hle
      rw [hsettled, pruneGhosts_of_le hroom]
      exact ⟨hroom, fun _ => ⟨rfl, fun hmany => absurd hmany (not_lt.2 hroom)⟩⟩

theorem applyAll_ghosts (hs : s.Sound) (hle : s.ghosts ≤ MAX_GHOSTS_PER_FILE) (ops : List Op) :
    (s.applyAll ops).ghosts ≤ MAX_GHOSTS_PER_FILE := by
  induction ops generalizing s with
  | nil => exact hle
  | cons op ops ih => exact ih (hs.apply op) (apply_ghosts hs hle op).1

/-- In every run from a file no more ghosts are kept than may be, and the prune an op ends with changes nothing
that is shown and leaves what it should, or one ghost fewer. -/
theorem prunes_stay_hidden {path : FilePath} {file : File} {ids : List (Option TaskId)} {mode : IdentityMode}
    (hs : fromFile path file ids mode = .ok s) (hids : (s.entries.filterMap Entry.id).Nodup) (ops : List Op)
    (op : Op) :
    let t := s.applyAll ops
    let settled := (t.applyKind op).state.settled op
    t.ghosts ≤ MAX_GHOSTS_PER_FILE ∧
      ((t.apply op).result = .ok () → (t.apply op).state.visibleEntries = settled.visibleEntries ∧
        (MAX_GHOSTS_PER_FILE < settled.ghosts →
          (t.apply op).state.ghosts = GHOSTS_AFTER_PRUNE ∨ (t.apply op).state.ghosts + 1 = GHOSTS_AFTER_PRUNE)) := by
  intro t settled
  have hsound := fromFile_sound hs hids
  have hstart : s.ghosts ≤ MAX_GHOSTS_PER_FILE := by
    rw [fromFile_slots hs, withSlots_ghosts, Slots.ghosts, List.countP_map]
    have hnone : s.entries.countP (Slot.hidden ∘ Slot.ofEntry) = 0 :=
      List.countP_eq_zero.2 fun e _ => by simp [Slot.ofEntry]
    rw [hnone]
    exact Nat.zero_le _
  have hle := applyAll_ghosts hsound hstart ops
  exact ⟨hle, (apply_ghosts (hsound.applyAll ops) hle op).2⟩

/-! ## A prune -/

variable {m n : Nat}

/-- The document holds `n` erasers and nothing else. -/
def HoldsErasers (n : Nat) (s : DocState) : Prop :=
  ∃ (u : DocState) (xs : List Slot), s = u.withSlots xs ∧ xs.length = n ∧
    ∀ x ∈ xs, x.eraser = true ∧ x.hidden = true

theorem HoldsErasers.ghosts (h : HoldsErasers n s) : s.ghosts = n := by
  obtain ⟨u, xs, rfl, hlength, hxs⟩ := h
  rw [withSlots_ghosts, Slots.ghosts, ← hlength]
  exact List.countP_eq_length.2 fun x hx => (hxs x hx).2

/-- Removes a blank at the top. -/
def eraseTop : Op := ⟨⟨1⟩, ⟨1, 0, ⟨1⟩⟩, ⟨['f']⟩, .blankRemove none⟩

theorem HoldsErasers.applyKind (h : HoldsErasers n s) : (s.applyKind eraseTop).result = .ok () ∧
    HoldsErasers (n + 1) ((s.applyKind eraseTop).state.settled eraseTop) := by
  obtain ⟨u, xs, rfl, hlength, hxs⟩ := h
  obtain ⟨spot, hspot⟩ : ∃ spot, (u.withSlots xs).slotAfter none eraseTop.hlc = .ok spot := ⟨_, rfl⟩
  have hle : spot.at_ ≤ xs.length := by
    rw [slotAfter, slots_withSlots] at hspot
    exact Slots.slotAfter_le hspot
  have hplaced : ∀ x ∈ xs.insertIdx spot.at_
      ⟨(u.withSlots xs).blankEntry, eraseTop.hlc, true, spot.parent, true⟩,
      x.eraser = true ∧ x.hidden = true := by
    intro x hx
    obtain rfl | hmem := (List.mem_insertIdx hle).1 hx
    · exact ⟨rfl, rfl⟩
    · exact hxs x hmem
  have hkind : (u.withSlots xs).applyKind eraseTop =
      (u.withSlots xs).blankRemove none eraseTop.hlc := rfl
  rw [hkind, blankRemove, hspot]
  refine ⟨rfl, u, _, ?_, (List.length_insertIdx_of_le_length hle _).trans (congrArg _ hlength), hplaced⟩
  show (hideEntry _ _).settleErasers = _
  rw [placeEraser_withSlots, settleErasers_withSlots,
    Slots.settleErasers_of_erasers fun x hx => (hplaced x hx).1]

/-- Below the cap an eraser more is held. -/
theorem HoldsErasers.applyAll (h : HoldsErasers m s) (hle : m + n ≤ MAX_GHOSTS_PER_FILE) :
    HoldsErasers (m + n) (s.applyAll (List.replicate n eraseTop)) := by
  induction n generalizing s m with
  | zero => exact h
  | succ n ih =>
    obtain ⟨hok, hsettled⟩ := h.applyKind
    have happly : (s.apply eraseTop).state = (s.applyKind eraseTop).state.settled eraseTop := by
      have hstate : (s.apply eraseTop).state =
          ((s.applyKind eraseTop).state.settled eraseTop).pruneGhosts := by
        rw [DocState.apply, hok]
        rfl
      rw [hstate, pruneGhosts_of_le]
      rw [hsettled.ghosts]
      omega
    rw [← happly] at hsettled
    rw [List.replicate_succ, ← Nat.add_assoc, Nat.add_right_comm]
    exact ih hsettled (by omega)

/-- One eraser more than may be kept. -/
theorem prunes_stay_hidden_at_cap :
    let s := ofEntries ⟨['f']⟩ ⟨[], false, .lf, true⟩ .sidecar []
    let t := s.applyAll (List.replicate MAX_GHOSTS_PER_FILE eraseTop)
    MAX_GHOSTS_PER_FILE < ((t.applyKind eraseTop).state.settled eraseTop).ghosts ∧
      ((t.apply eraseTop).state.ghosts = GHOSTS_AFTER_PRUNE ∨
        (t.apply eraseTop).state.ghosts + 1 = GHOSTS_AFTER_PRUNE) := by
  intro s t
  have hs : fromFile ⟨['f']⟩ ⟨[], false, .lf, true⟩ [] .sidecar = .ok s := rfl
  have hfull : HoldsErasers MAX_GHOSTS_PER_FILE t :=
    (show HoldsErasers 0 s from ⟨s, [], rfl, rfl, by simp⟩).applyAll (Nat.zero_add _).le
  obtain ⟨hok, hsettled⟩ := hfull.applyKind
  have happly : (t.apply eraseTop).result = .ok () := by
    rw [DocState.apply, hok]
    rfl
  have hmany : MAX_GHOSTS_PER_FILE < ((t.applyKind eraseTop).state.settled eraseTop).ghosts := by
    rw [hsettled.ghosts]
    exact Nat.lt_succ_self _
  exact ⟨hmany, ((prunes_stay_hidden hs (by decide) _ eraseTop).2 happly).2 hmany⟩

end DocState

end Txtodo
