import Txtodo.Engine.Proofs.KeepsProofs
import Txtodo.Engine.Proofs.ReachableProofs
import Txtodo.Std.KeySorted

/-!
# Proofs: renaming stamps

An op at least as new as everything a document holds compares stamps only, so renaming the stamps in
order commutes with it. A commit made as scratch ops and settled is then its replay.
-/

namespace Txtodo

/-- `f` renames the stamps in `A` in order, among them the newest, `at_`, to `to_`, and leaves the zero
stamp. -/
structure Newest (A : Hlc → Prop) (f : Hlc → Hlc) (at_ to_ : Hlc) : Prop where
  mem : A at_
  eq : f at_ = to_
  lt_iff : ∀ {x y}, A x → A y → (f x < f y ↔ x < y)
  le : ∀ {x}, A x → x ≤ at_
  zero : f (Hlc.zero ⟨0⟩) = Hlc.zero ⟨0⟩

namespace Newest

variable {A : Hlc → Prop} {f : Hlc → Hlc} {at_ to_ x y : Hlc}

theorem le_iff (h : Newest A f at_ to_) (hx : A x) (hy : A y) : f x ≤ f y ↔ x ≤ y := by
  rw [← not_lt, ← not_lt, h.lt_iff hy hx]

theorem map_le (h : Newest A f at_ to_) (hx : A x) : f x ≤ to_ := by
  rw [← h.eq, h.le_iff hx h.mem]
  exact h.le hx

theorem map_max (h : Newest A f at_ to_) (hx : A x) (hy : A y) : f (max x y) = max (f x) (f y) := by
  rcases le_total x y with hle | hle
  · rw [max_eq_right hle, max_eq_right ((h.le_iff hx hy).2 hle)]
  · rw [max_eq_left hle, max_eq_left ((h.le_iff hy hx).2 hle)]

end Newest

/-! ## Text histories -/

namespace TextHistory

/-- The kept edits stand in stamp order. -/
def InOrder (h : TextHistory) : Prop := h.edits.Pairwise fun a b => a.1 ≤ b.1

variable {apply : ApplyEdits} {max : Nat} {at_ : Hlc}

theorem trimEdits_suffix (base : Text) (edits : List (Hlc × Change)) :
    (trimEdits apply max base edits).2 <:+ edits := by
  induction edits generalizing base with
  | nil => exact List.suffix_rfl
  | cons e rest ih =>
    rw [trimEdits]
    split_ifs
    · exact (ih _).trans (List.suffix_cons e rest)
    · exact List.suffix_rfl

theorem trim_edits_suffix (h : TextHistory) : (h.trim apply max).edits <:+ h.edits :=
  trimEdits_suffix h.base h.edits

theorem record_inOrder {h : TextHistory} (hh : h.InOrder) (current : Text) (at_ : Hlc) (c : Change)
    (how : ApplyEdits × Nat) : (h.record current at_ c how).1.InOrder := by
  obtain ⟨apply, max⟩ := how
  rw [record]
  dsimp only
  split_ifs with hfloor hlate
  · exact hh
  · refine List.Pairwise.sublist (trim_edits_suffix _).sublist ?_
    dsimp only
    rw [KeySorted.insertIdx_takeWhile]
    have hsplit := hh
    rw [InOrder, ← List.takeWhile_append_dropWhile (p := fun e => decide (e.1 ≤ at_)) (l := h.edits)]
      at hsplit
    obtain ⟨htake, hdrop, hcross⟩ := List.pairwise_append.1 hsplit
    have hafter : ∀ e ∈ h.edits.dropWhile (fun e => decide (e.1 ≤ at_)), at_ ≤ e.1 := by
      cases hrest : h.edits.dropWhile (fun e => decide (e.1 ≤ at_)) with
      | nil => exact fun e he => absurd he List.not_mem_nil
      | cons e₀ rest =>
        have hhead : ¬e₀.1 ≤ at_ := by
          have hfirst := List.head_dropWhile_not (fun e : Hlc × Change => decide (e.1 ≤ at_))
            (l := h.edits) (by rw [hrest]; exact List.cons_ne_nil _ _)
          simpa [hrest] using hfirst
        rw [hrest] at hdrop
        intro e he
        rcases List.mem_cons.1 he with rfl | he
        · exact (not_le.1 hhead).le
        · exact (not_le.1 hhead).le.trans ((List.pairwise_cons.1 hdrop).1 e he)
    refine List.pairwise_append.2 ⟨htake, List.pairwise_cons.2 ⟨hafter, hdrop⟩, ?_⟩
    intro a ha b hb
    rcases List.mem_cons.1 hb with rfl | hb
    · exact of_decide_eq_true (List.mem_takeWhile_imp (p := fun e : Hlc × Change => decide (e.1 ≤ at_)) ha)
    · exact hcross a ha b hb
  · split
    · exact hh
    · refine List.Pairwise.sublist (trim_edits_suffix _).sublist ?_
      refine List.pairwise_append.2 ⟨hh, List.pairwise_singleton _ _, fun a ha b hb => ?_⟩
      obtain rfl := List.mem_singleton.1 hb
      obtain ⟨last, hlast⟩ : ∃ last, h.edits.getLast? = some last :=
        ⟨_, List.getLast?_eq_some_getLast (List.ne_nil_of_mem ha)⟩
      have hle : last.1 ≤ at_ := by simpa [hlast] using hlate
      obtain ⟨front, hfront⟩ := List.getLast?_eq_some_iff.1 hlast
      rw [InOrder, hfront] at hh
      rw [hfront] at ha
      rcases List.mem_append.1 ha with ha | ha
      · exact ((List.pairwise_append.1 hh).2.2 a ha last (List.mem_singleton.2 rfl)).trans hle
      · rw [List.mem_singleton.1 ha]
        exact hle

theorem keepsTexts_inOrder (at_ : Hlc) : KeepsTexts InOrder at_ where
  new _ := List.Pairwise.nil
  record h current c hh := record_inOrder hh current at_ c taskEdits
  reset h text hh := by
    rw [reset]
    dsimp only
    split_ifs
    · exact hh.filter _
    · exact hh
  swapPri h letter hh := by
    refine List.pairwise_map.2 (hh.imp fun {a b} hab => ?_)
    have hstamp : ∀ e : Hlc × Change, (swapLetter letter e).1 = e.1 := fun e => by
      rw [swapLetter]
      split <;> rfl
    rw [hstamp, hstamp]
    exact hab
  clearPri h hh := hh.filter _

/-- The stamps of a history: `since` is zero until the text is set whole. -/
def HeldBy (A : Hlc → Prop) (h : TextHistory) : Prop :=
  (h.since = Hlc.zero ⟨0⟩ ∨ A h.since) ∧ ∀ e ∈ h.edits, A e.1

theorem trim_heldBy {A : Hlc → Prop} {h : TextHistory} (hh : h.HeldBy A) : (h.trim apply max).HeldBy A :=
  ⟨hh.1, fun e he => hh.2 e ((trim_edits_suffix h).subset he)⟩

theorem record_heldBy {A : Hlc → Prop} {h : TextHistory} (hh : h.HeldBy A) (hat : A at_)
    (current : Text) (c : Change) (how : ApplyEdits × Nat) :
    (h.record current at_ c how).1.HeldBy A := by
  obtain ⟨apply, max⟩ := how
  rw [record]
  dsimp only
  split_ifs
  · exact hh
  · refine trim_heldBy ⟨hh.1, fun e he => ?_⟩
    rcases List.eq_or_mem_of_mem_insertIdx he with rfl | he
    · exact hat
    · exact hh.2 e he
  · split
    · exact hh
    · refine trim_heldBy ⟨hh.1, fun e he => ?_⟩
      rcases List.mem_append.1 he with he | he
      · exact hh.2 e he
      · exact List.mem_singleton.1 he ▸ hat

theorem keepsTexts_heldBy {A : Hlc → Prop} (hat : A at_) : KeepsTexts (HeldBy A) at_ where
  new _ := ⟨.inl rfl, fun e he => absurd he List.not_mem_nil⟩
  record h current c hh := record_heldBy hh hat current c taskEdits
  reset h text hh := by
    rw [reset]
    dsimp only
    split_ifs
    · exact ⟨.inr hat, fun e he => hh.2 e (List.mem_filter.1 he).1⟩
    · exact hh
  swapPri h letter hh := by
    refine ⟨hh.1, fun e he => ?_⟩
    obtain ⟨e', he', rfl⟩ := List.mem_map.1 he
    have hstamp : (swapLetter letter e').1 = e'.1 := by
      rw [swapLetter]
      split <;> rfl
    rw [hstamp]
    exact hh.2 e' he'
  clearPri h hh := ⟨hh.1, fun e he => hh.2 e (List.mem_filter.1 he).1⟩

/-! ## Renaming the stamps of a history -/

section Restamp

variable {A : Hlc → Prop} {f : Hlc → Hlc} {to_ : Hlc} {h : TextHistory}

@[simp] theorem replay_restamp (f : Hlc → Hlc) (h : TextHistory) :
    (h.restamp f).replay apply = h.replay apply := by
  rw [replay, replay, restamp, List.foldl_map]
  rfl

theorem trimEdits_map (f : Hlc → Hlc) (base : Text) (edits : List (Hlc × Change)) :
    trimEdits apply max base (edits.map fun e => (f e.1, e.2)) =
      ((trimEdits apply max base edits).1,
        (trimEdits apply max base edits).2.map fun e => (f e.1, e.2)) := by
  induction edits generalizing base with
  | nil => rfl
  | cons e rest ih =>
    rw [List.map_cons, trimEdits, trimEdits, List.length_map]
    by_cases hover : max < rest.length + 1
    · rw [if_pos hover, if_pos hover]
      exact ih _
    · rw [if_neg hover, if_neg hover]
      rfl

theorem trim_restamp (f : Hlc → Hlc) (h : TextHistory) :
    (h.restamp f).trim apply max = (h.trim apply max).restamp f := by
  rw [trim, trim, restamp, trimEdits_map]
  rfl

@[simp] theorem new_restamp (hf : Newest A f at_ to_) (base : Text) :
    (new base).restamp f = new base := by
  rw [restamp, new, hf.zero]
  rfl

theorem since_le (hf : Newest A f at_ to_) (hh : h.HeldBy A) : h.since ≤ at_ := by
  rcases hh.1 with hzero | hsince
  · exact hzero ▸ bot_le
  · exact hf.le hsince

theorem map_since_le (hf : Newest A f at_ to_) (hh : h.HeldBy A) : f h.since ≤ to_ := by
  rcases hh.1 with hzero | hsince
  · rw [hzero, hf.zero]
    exact bot_le
  · exact hf.map_le hsince

theorem record_restamp (hf : Newest A f at_ to_) (hh : h.HeldBy A) (current : Text) (c : Change)
    (how : ApplyEdits × Nat) :
    (h.restamp f).record current to_ c how =
      ((h.record current at_ c how).1.restamp f, (h.record current at_ c how).2) := by
  obtain ⟨apply, max⟩ := how
  have hlast : ¬h.edits.getLast?.any (fun e => decide (at_ < e.1)) = true := by
    cases hlast : h.edits.getLast? with
    | none => simp
    | some e => simpa using hf.le (hh.2 e (List.mem_of_getLast? hlast))
  have hlast' : ¬(h.restamp f).edits.getLast?.any (fun e => decide (to_ < e.1)) = true := by
    rw [restamp, List.getLast?_map]
    cases hlast : h.edits.getLast? with
    | none => simp
    | some e => simpa using hf.map_le (hh.2 e (List.mem_of_getLast? hlast))
  rw [record, record]
  dsimp only
  rw [if_neg (not_lt.2 (map_since_le hf hh) : ¬to_ < (h.restamp f).since), if_neg hlast',
    if_neg (not_lt.2 (since_le hf hh)), if_neg hlast]
  cases c.on current apply with
  | error e => rfl
  | ok next =>
    have hadd : (⟨(h.restamp f).base, (h.restamp f).since, (h.restamp f).edits ++ [(to_, c)]⟩ :
        TextHistory) = (⟨h.base, h.since, h.edits ++ [(at_, c)]⟩ : TextHistory).restamp f := by
      rw [restamp, restamp, List.map_append, ← hf.eq]
      rfl
    dsimp only
    rw [hadd, trim_restamp]

theorem setPri_restamp (hf : Newest A f at_ to_) (hh : h.HeldBy A) (current : Text) (letter : Char)
    (how : ApplyEdits × Nat) :
    (h.restamp f).setPri current to_ letter how =
      ((h.setPri current at_ letter how).1.restamp f, (h.setPri current at_ letter how).2) := by
  rw [setPri, setPri, record_restamp hf hh]
  obtain ⟨h', r⟩ := h.record current at_ (.pri letter) how
  cases r <;> rfl

theorem removeTag_restamp (hf : Newest A f at_ to_) (hh : h.HeldBy A) (current key : Text)
    (how : ApplyEdits × Nat) :
    (h.restamp f).removeTag current to_ key how =
      ((h.removeTag current at_ key how).1.restamp f, (h.removeTag current at_ key how).2) := by
  rw [removeTag, removeTag, record_restamp hf hh]
  obtain ⟨h', r⟩ := h.record current at_ (.removeTag key) how
  cases r <;> rfl

theorem reset_restamp (hf : Newest A f at_ to_) (hh : h.HeldBy A) (text : Text) :
    (h.restamp f).reset text to_ apply =
      ((h.reset text at_ apply).1.restamp f, (h.reset text at_ apply).2) := by
  have hnone : h.edits.filter (fun e => decide (at_ < e.1)) = [] :=
    List.filter_eq_nil_iff.2 fun e he => by simpa using hf.le (hh.2 e he)
  have hnone' : (h.restamp f).edits.filter (fun e => decide (to_ < e.1)) = [] := by
    refine List.filter_eq_nil_iff.2 fun e he => ?_
    obtain ⟨e', he', rfl⟩ := List.mem_map.1 he
    simpa using hf.map_le (hh.2 e' he')
  have hle : (h.restamp f).since ≤ to_ := map_since_le hf hh
  rw [reset, reset]
  dsimp only
  rw [if_pos hle, if_pos (since_le hf hh), hnone, hnone', ← hf.eq]
  rfl

theorem swapPri_restamp (f : Hlc → Hlc) (h : TextHistory) (letter : Char) :
    (h.restamp f).swapPri letter apply =
      ((h.swapPri letter apply).1.restamp f, (h.swapPri letter apply).2) := by
  have hswap : (⟨Txtodo.setPri (h.restamp f).base letter false, (h.restamp f).since,
      (h.restamp f).edits.map (swapLetter letter)⟩ : TextHistory) =
      (⟨Txtodo.setPri h.base letter false, h.since, h.edits.map (swapLetter letter)⟩ :
        TextHistory).restamp f := by
    rw [restamp, restamp, List.map_map, List.map_map]
    congr 1
    refine List.map_congr_left fun e _ => ?_
    obtain ⟨stamp, change⟩ := e
    cases change <;> rfl
  rw [swapPri, swapPri]
  dsimp only
  rw [hswap, replay_restamp]

theorem clearPri_restamp (f : Hlc → Hlc) (h : TextHistory) :
    (h.restamp f).clearPri apply = ((h.clearPri apply).1.restamp f, (h.clearPri apply).2) := by
  have hfilter : ∀ p : Hlc × Change → Bool, (∀ a c, p (f a, c) = p (a, c)) →
      (⟨Txtodo.removeTag (h.restamp f).base "pri".toList, (h.restamp f).since,
        (h.restamp f).edits.filter p⟩ : TextHistory) =
      (⟨Txtodo.removeTag h.base "pri".toList, h.since, h.edits.filter p⟩ : TextHistory).restamp f := by
    intro p hp
    have hcomp : (p ∘ fun e : Hlc × Change => (f e.1, e.2)) = p := funext fun e => hp e.1 e.2
    rw [restamp, restamp, List.filter_map, hcomp]
  rw [clearPri, clearPri]
  dsimp only
  rw [hfilter _ fun _ _ => rfl, replay_restamp]

/-- A history in order is settled by renaming. -/
theorem settle_eq_restamp {scratch real : Hlc} (hh : h.InOrder)
    (hmono : ∀ e ∈ h.edits, ∀ e' ∈ h.edits, e.1 ≤ e'.1 →
      DocState.settleStamp scratch real e.1 ≤ DocState.settleStamp scratch real e'.1) :
    h.settle scratch real = h.restamp (DocState.settleStamp scratch real) := by
  have hmap : (h.edits.map fun e => if e.1 = scratch then (real, e.2) else e) =
      h.edits.map fun e => (DocState.settleStamp scratch real e.1, e.2) := by
    refine List.map_congr_left fun e _ => ?_
    rw [DocState.settleStamp]
    split_ifs <;> rfl
  have hsorted : (h.edits.map fun e => (DocState.settleStamp scratch real e.1, e.2)).Pairwise
      fun a b => a.1 ≤ b.1 := by
    refine List.pairwise_map.2 (List.Pairwise.imp_of_mem ?_ hh)
    exact fun {a b} ha hb hab => hmono a ha b hb hab
  rw [settle, restamp, hmap, hsorted.insertionSort_eq]
  rfl

end Restamp

end TextHistory

/-! ## Renaming the stamps of slots -/

namespace Slots

variable {A : Hlc → Prop} {f : Hlc → Hlc} {at_ to_ : Hlc} {xs : List Slot} {task : TaskId}

@[simp] theorem id_restamp (f : Hlc → Hlc) (x : Slot) : (x.restamp f).id = x.id := rfl

theorem liveSlot_restamp (f : Hlc → Hlc) (xs : List Slot) (task : TaskId) :
    liveSlot (xs.map (Slot.restamp f)) task = liveSlot xs task := by
  rw [liveSlot, liveSlot, List.findIdx?_map]
  rfl

theorem hasPlacement_restamp (f : Hlc → Hlc) (xs : List Slot) (task : TaskId) :
    hasPlacement (xs.map (Slot.restamp f)) task = hasPlacement xs task := by
  rw [hasPlacement, hasPlacement, List.any_map]
  rfl

theorem placements_restamp (f : Hlc → Hlc) (xs : List Slot) (task : TaskId) :
    placements (xs.map (Slot.restamp f)) task =
      (placements xs task).map fun x => (x.1.restamp f, x.2) := by
  rw [placements, placements, List.zipIdx_map, List.filter_map]
  rfl

theorem placements_stamp (hxs : ∀ x ∈ xs, A x.stamp) {x : Slot × Nat} (hx : x ∈ placements xs task) :
    A x.1.stamp :=
  hxs _ (List.mem_of_getElem? (mem_placements.1 hx).1)

theorem contentSlot_restamp (hf : Newest A f at_ to_) (hxs : ∀ x ∈ xs, A x.stamp) (task : TaskId) :
    contentSlot (xs.map (Slot.restamp f)) task = contentSlot xs task := by
  have hmax : Iter.maxByKey (fun x : Slot × Nat => x.1.stamp)
      ((placements xs task).map fun x => (x.1.restamp f, x.2)) =
      (Iter.maxByKey (fun x => x.1.stamp) (placements xs task)).map fun x => (x.1.restamp f, x.2) :=
    Iter.maxByKey_map _ fun a ha b hb => hf.lt_iff (placements_stamp hxs ha) (placements_stamp hxs hb)
  rw [contentSlot, contentSlot, liveSlot_restamp, placements_restamp, hmax, Option.map_map]
  rfl

/-- Keys with a tie-break keep their order. -/
theorem toLex_lt_iff (hf : Newest A f at_ to_) {x y : Hlc} (hx : A x) (hy : A y) (a b : Bool) :
    (toLex (f x, a) < toLex (f y, b) ↔ toLex (x, a) < toLex (y, b)) := by
  have heq : f x = f y ↔ x = y := by
    constructor
    · intro h
      exact le_antisymm ((hf.le_iff hx hy).1 h.le) ((hf.le_iff hy hx).1 h.ge)
    · exact congrArg f
  rw [Prod.Lex.toLex_lt_toLex, Prod.Lex.toLex_lt_toLex, hf.lt_iff hx hy, heq]

theorem anchorSlot_restamp (hf : Newest A f at_ to_) (hxs : ∀ x ∈ xs, A x.stamp)
    (after : Option TaskId) :
    anchorSlot (xs.map (Slot.restamp f)) after to_ = anchorSlot xs after at_ := by
  cases after with
  | none => rfl
  | some id =>
    have hall : (placements xs id).filter (fun x => decide (x.1.stamp ≤ at_)) = placements xs id :=
      List.filter_eq_self.2 fun x hx => decide_eq_true (hf.le (placements_stamp hxs hx))
    have hall' : ((placements xs id).map fun x => (x.1.restamp f, x.2)).filter
        (fun x => decide (x.1.stamp ≤ to_)) = (placements xs id).map fun x => (x.1.restamp f, x.2) := by
      refine List.filter_eq_self.2 fun x hx => ?_
      obtain ⟨y, hy, rfl⟩ := List.mem_map.1 hx
      exact decide_eq_true (hf.map_le (placements_stamp hxs hy))
    have hmax : Iter.maxByKey (fun x : Slot × Nat => toLex (x.1.stamp, !x.1.hidden))
        ((placements xs id).map fun x => (x.1.restamp f, x.2)) =
        (Iter.maxByKey (fun x => toLex (x.1.stamp, !x.1.hidden)) (placements xs id)).map
          fun x => (x.1.restamp f, x.2) :=
      Iter.maxByKey_map _ fun a ha b hb =>
        toLex_lt_iff hf (placements_stamp hxs ha) (placements_stamp hxs hb) _ _
    have hshown : ((placements xs id).map fun x => (x.1.restamp f, x.2)).find?
        (fun x => !x.1.hidden) =
        ((placements xs id).find? fun x => !x.1.hidden).map fun x => (x.1.restamp f, x.2) := by
      rw [List.find?_map]
      rfl
    have hmin : Iter.minByKey (fun x : Slot × Nat => x.1.stamp)
        ((placements xs id).map fun x => (x.1.restamp f, x.2)) =
        (Iter.minByKey (fun x => x.1.stamp) (placements xs id)).map fun x => (x.1.restamp f, x.2) :=
      Iter.minByKey_map _ fun a ha b hb =>
        hf.lt_iff (placements_stamp hxs ha) (placements_stamp hxs hb)
    rw [anchorSlot, anchorSlot, placements_restamp, hall, hall', hmax, hshown, hmin, ← Option.map_or, ← Option.map_or]
    cases ((Iter.maxByKey (fun x : Slot × Nat => toLex (x.1.stamp, !x.1.hidden)) (placements xs id)).or
      ((placements xs id).find? fun x => !x.1.hidden)).or
      (Iter.minByKey (fun x : Slot × Nat => x.1.stamp) (placements xs id)) <;> rfl

theorem parentAt_restamp (f : Hlc → Hlc) (xs : List Slot) (slot : Nat) :
    parentAt (xs.map (Slot.restamp f)) slot = (parentAt xs slot).map fun p => (p.1, f p.2) := by
  rw [parentAt, parentAt, List.getElem?_map]
  cases xs[slot]? with
  | none => rfl
  | some x =>
    rw [Option.map_some, Option.bind_some, Option.bind_some, id_restamp, Option.map_map]
    rfl

/-- The newest op skips no slot. -/
theorem skipNewer_newest (hxs : ∀ x ∈ xs, x.stamp ≤ at_) (start : Nat) :
    skipNewer xs start at_ = start := by
  have hnone : (xs.drop start).takeWhile (fun x => decide (at_ < x.stamp)) = [] := by
    rw [List.takeWhile_eq_nil_iff]
    intro hlen
    simpa using hxs _ (List.mem_of_mem_drop (List.getElem_mem hlen))
  rw [skipNewer, hnone]
  rfl

theorem slotAfter_restamp (hf : Newest A f at_ to_) (hxs : ∀ x ∈ xs, A x.stamp)
    (after : Option TaskId) :
    slotAfter (xs.map (Slot.restamp f)) after to_ = (slotAfter xs after at_).map (Spot.restamp f) := by
  have hle : ∀ x ∈ xs, x.stamp ≤ at_ := fun x hx => hf.le (hxs x hx)
  have hle' : ∀ x ∈ xs.map (Slot.restamp f), x.stamp ≤ to_ := by
    intro x hx
    obtain ⟨y, hy, rfl⟩ := List.mem_map.1 hx
    exact hf.map_le (hxs y hy)
  rw [slotAfter, slotAfter, anchorSlot_restamp hf hxs]
  cases anchorSlot xs after at_ with
  | error e => rfl
  | ok anchor =>
    dsimp only
    rw [skipNewer_newest hle, skipNewer_newest hle']
    cases anchor with
    | none => rfl
    | some slot =>
      rw [Option.bind_some, Option.bind_some, parentAt_restamp]
      rfl

/-- The newest placement takes no block: nothing is newer than it. -/
theorem lastHead_newest (hxs : ∀ x ∈ xs, x.stamp ≤ at_) (task : TaskId) :
    lastHead xs task at_ = none := by
  rw [lastHead, Option.map_eq_none_iff, List.find?_eq_none]
  intro x hx
  have hle := hxs x.1 (List.fst_mem_of_mem_zipIdx (List.mem_reverse.1 hx))
  rw [followsOlder]
  cases x.1.parent with
  | none => simp
  | some p => simp [hle]

theorem claimFrom_restamp (hf : Newest A f at_ to_) {mine : Hlc} (hmine : A mine) (taken : List Nat)
    (rest : List (Slot × Nat)) (hrest : ∀ x ∈ rest, A x.1.stamp) (oldest : Option Hlc)
    (hold : ∀ o ∈ oldest, A o) :
    claimFrom (f mine) taken (oldest.map f) (rest.map fun x => (x.1.restamp f, x.2)) =
      claimFrom mine taken oldest rest := by
  induction rest generalizing oldest with
  | nil => rfl
  | cons x rest ih =>
    obtain ⟨x, i⟩ := x
    have hx : A x.stamp := hrest (x, i) List.mem_cons_self
    have hrest' := fun y hy => hrest y (List.mem_cons_of_mem _ hy)
    have hmine' : f mine < (x.restamp f).stamp ↔ mine < x.stamp := hf.lt_iff hmine hx
    rw [List.map_cons, claimFrom, claimFrom]
    simp only [hmine']
    by_cases hpass : (x.eraser || (x.hidden && !x.isBlank) || decide (i ∈ taken)
      || decide (mine < x.stamp)) = true
    · exact (if_pos hpass).trans ((ih hrest' oldest hold).trans (if_pos hpass).symm)
    refine (if_neg hpass).trans (Eq.trans ?_ (if_neg hpass).symm)
    by_cases hblank : x.isBlank = true
    · refine (if_pos hblank).trans (Eq.trans ?_ (if_pos hblank).symm)
      cases oldest with
      | none => rfl
      | some o =>
        have hlt : (x.restamp f).stamp < f o ↔ x.stamp < o := hf.lt_iff hx (hold o rfl)
        simp only [Option.map_some, Option.all_some, hlt]
    · refine (if_neg hblank).trans (Eq.trans ?_ (if_neg hblank).symm)
      have hmin : some ((oldest.map f).elim (f x.stamp) fun old => min old (f x.stamp)) =
          (some (oldest.elim x.stamp fun old => min old x.stamp)).map f := by
        cases oldest with
        | none => rfl
        | some o =>
          simp only [Option.map_some, Option.elim_some]
          rcases le_total o x.stamp with hle | hle
          · rw [min_eq_left hle, min_eq_left ((hf.le_iff (hold o rfl) hx).2 hle)]
          · rw [min_eq_right hle, min_eq_right ((hf.le_iff hx (hold o rfl)).2 hle)]
      refine (congrArg (fun o => claimFrom (f mine) taken o _) hmin).trans (ih hrest' _ fun o ho => ?_)
      obtain rfl := Option.some.inj ho
      cases oldest with
      | none => exact hx
      | some o =>
        rw [Option.elim_some]
        rcases le_total o x.stamp with hle | hle
        · rw [min_eq_left hle]
          exact hold o rfl
        · rw [min_eq_right hle]
          exact hx

theorem claimsFrom_restamp (hf : Newest A f at_ to_) (hxs : ∀ x ∈ xs, A x.stamp) (erasers : List Nat)
    (hin : ∀ e ∈ erasers, e < xs.length) (taken : List Nat) :
    claimsFrom (xs.map (Slot.restamp f)) taken erasers = claimsFrom xs taken erasers := by
  induction erasers generalizing taken with
  | nil => rfl
  | cons e erasers ih =>
    have he := hin e List.mem_cons_self
    have hclaim : claim (xs.map (Slot.restamp f)) e taken = claim xs e taken := by
      have hrest : ((xs.map (Slot.restamp f)).zipIdx).drop (e + 1) =
          (xs.zipIdx.drop (e + 1)).map fun x => (x.1.restamp f, x.2) := by
        rw [List.zipIdx_map, List.map_drop]
        rfl
      rw [claim, claim, hrest, List.getElem?_map, List.getElem?_eq_getElem he]
      exact claimFrom_restamp hf (hxs _ (List.getElem_mem he)) taken _
        (fun x hx => hxs x.1 (List.fst_mem_of_mem_zipIdx (List.mem_of_mem_drop hx))) none (by simp)
    have hrest := fun e he => hin e (List.mem_cons_of_mem _ he)
    rw [claimsFrom, claimsFrom, hclaim]
    cases claim xs e taken with
    | none => exact ih hrest taken
    | some b =>
      dsimp only
      rw [ih hrest]

theorem claims_restamp (hf : Newest A f at_ to_) (hxs : ∀ x ∈ xs, A x.stamp) :
    claims (xs.map (Slot.restamp f)) = claims xs := by
  have herasers : ((xs.map (Slot.restamp f)).zipIdx.filter fun x => x.1.eraser).map (·.2) =
      (xs.zipIdx.filter fun x => x.1.eraser).map (·.2) := by
    rw [List.zipIdx_map, List.filter_map, List.map_map]
    rfl
  rw [claims, claims, herasers]
  refine claimsFrom_restamp hf hxs _ (fun e he => ?_) []
  obtain ⟨x, hx, rfl⟩ := List.mem_map.1 he
  exact List.snd_lt_of_mem_zipIdx (List.mem_filter.1 hx).1

theorem settledHidden_restamp (f : Hlc → Hlc) (xs : List Slot) (claimed : List Nat) :
    settledHidden (xs.map (Slot.restamp f)) claimed = settledHidden xs claimed := by
  rw [settledHidden, settledHidden, List.zipIdx_map, List.map_map]
  rfl

theorem toDrop_restamp (hf : Newest A f at_ to_) (hxs : ∀ x ∈ xs, A x.stamp) (excess : Nat) :
    toDrop (xs.map (Slot.restamp f)) excess = toDrop xs excess := by
  have hghosts : ((xs.map (Slot.restamp f)).zipIdx.filter
      fun x => x.1.hidden && decide (x.2 ∉ (claims xs).map (·.2))) =
      (xs.zipIdx.filter fun x => x.1.hidden && decide (x.2 ∉ (claims xs).map (·.2))).map
        fun x => (x.1.restamp f, x.2) := by
    rw [List.zipIdx_map, List.filter_map]
    rfl
  rw [toDrop, toDrop, claims_restamp hf hxs, hghosts, ← List.map_insertionSort (fun a b : Slot × Nat => a.1.stamp ≤ b.1.stamp)]
  · rw [List.map_map]
    rfl
  · intro a ha b hb
    have hmem : ∀ {c : Slot × Nat}, c ∈ xs.zipIdx.filter
        (fun x => x.1.hidden && decide (x.2 ∉ (claims xs).map (·.2))) → A c.1.stamp :=
      fun hc => hxs _ (List.fst_mem_of_mem_zipIdx (List.mem_filter.1 hc).1)
    exact (hf.le_iff (hmem ha) (hmem hb)).symm

end Slots

/-! ## Renaming the stamps of a document -/

namespace DocState

open TextHistory (HeldBy)

variable {A : Hlc → Prop} {f : Hlc → Hlc} {at_ to_ : Hlc} {s : DocState} {task : TaskId}

theorem slots_restamp (f : Hlc → Hlc) (s : DocState) :
    (s.restamp f).slots = s.slots.map (Slot.restamp f) := by
  apply List.ext_getElem?
  intro n
  simp only [slots, restamp, List.zip, List.getElem?_map, List.getElem?_zipWith]
  cases s.entries[n]? <;> cases s.stamps[n]? <;> cases s.hidden[n]? <;> cases s.parents[n]? <;>
    cases s.erasers[n]? <;> rfl

theorem liveSlot_restamp (f : Hlc → Hlc) (s : DocState) (task : TaskId) :
    (s.restamp f).liveSlot task = s.liveSlot task := by
  rw [liveSlot, liveSlot, slots_restamp, Slots.liveSlot_restamp]

theorem hasPlacement_restamp (f : Hlc → Hlc) (s : DocState) (task : TaskId) :
    (s.restamp f).hasPlacement task = s.hasPlacement task := by
  rw [hasPlacement, hasPlacement, slots_restamp, Slots.hasPlacement_restamp]

theorem setHistory_restamp (f : Hlc → Hlc) (s : DocState) (task : TaskId) (o : Option TextHistory) :
    (s.restamp f).setHistory task (o.map (TextHistory.restamp f)) =
      (s.setHistory task o).restamp f := by
  have hkey : setKey (s.restamp f).textHistory task (o.map (TextHistory.restamp f)) =
      fun t => (setKey s.textHistory task o t).map (TextHistory.restamp f) := by
    funext t
    by_cases ht : t = task <;> simp [setKey, ht, restamp]
  rw [setHistory, hkey]
  rfl

theorem forgetText_restamp (f : Hlc → Hlc) (s : DocState) (task : TaskId) :
    (s.restamp f).forgetText task = (s.forgetText task).restamp f :=
  setHistory_restamp f s task none

theorem setLife_restamp (f : Hlc → Hlc) (s : DocState) (task : TaskId) (l : Life) :
    ({ s.restamp f with life := setKey (s.restamp f).life task (some (l.restamp f)) } : DocState) =
      ({ s with life := setKey s.life task (some l) } : DocState).restamp f := by
  have hkey : setKey (s.restamp f).life task (some (l.restamp f)) =
      fun t => (setKey s.life task (some l) t).map (Life.restamp f) := by
    funext t
    by_cases ht : t = task <;> simp [setKey, ht, restamp]
  rw [hkey]
  rfl

theorem lifeOf_restamp (f : Hlc → Hlc) (s : DocState) (task : TaskId) :
    ((s.restamp f).life task).getD ⟨none, none⟩ =
      Life.restamp f ((s.life task).getD ⟨none, none⟩) := by
  show ((s.life task).map (Life.restamp f)).getD ⟨none, none⟩ = _
  cases s.life task <;> rfl

theorem slots_stamp (hs : s.Keeps A (HeldBy A)) : ∀ x ∈ s.slots, A x.stamp :=
  fun _ hx => (hs.slot hx).1

section Newest

variable (hf : Newest A f at_ to_)

include hf

theorem recordField_restamp (s : DocState) (task : TaskId) (field : Field) :
    (s.restamp f).recordField task field to_ = (s.recordField task field at_).restamp f := by
  have hkey : (fun t g => if t = task ∧ g = field then some to_ else (s.restamp f).fieldStamps t g) =
      fun t g => (if t = task ∧ g = field then some at_ else s.fieldStamps t g).map f := by
    funext t g
    split_ifs
    · rw [Option.map_some, hf.eq]
    · rfl
  rw [recordField, hkey]
  rfl

theorem insertEntry_restamp (s : DocState) (spot : Spot) (entry : Entry) :
    (s.restamp f).insertEntry (spot.restamp f) entry to_ =
      (s.insertEntry spot entry at_).restamp f := by
  simp only [insertEntry, restamp, reindex, Spot.restamp, Columns.map_insertIdx, hf.eq]
  rfl

variable (hs : s.Keeps A (HeldBy A))

include hs

theorem contentSlot_restamp (task : TaskId) : (s.restamp f).contentSlot task = s.contentSlot task := by
  rw [contentSlot, contentSlot, slots_restamp, Slots.contentSlot_restamp hf (slots_stamp hs)]

theorem contentLine_restamp (task : TaskId) : (s.restamp f).contentLine task = s.contentLine task := by
  rw [contentLine, contentLine, contentSlot_restamp hf hs]
  rfl

theorem slotAfter_restamp (after : Option TaskId) :
    (s.restamp f).slotAfter after to_ = (s.slotAfter after at_).map (Spot.restamp f) := by
  rw [slotAfter, slotAfter, slots_restamp, Slots.slotAfter_restamp hf (slots_stamp hs)]

theorem anchorSlot_restamp (after : Option TaskId) :
    (s.restamp f).anchorSlot after to_ = s.anchorSlot after at_ := by
  rw [anchorSlot, anchorSlot, slots_restamp, Slots.anchorSlot_restamp hf (slots_stamp hs)]

theorem isStaleField_newest (task : TaskId) (field : Field) :
    s.isStaleField task field at_ = false ∧ (s.restamp f).isStaleField task field to_ = false := by
  rw [isStaleField, isStaleField, restamp]
  cases hset : s.fieldStamps task field with
  | none => simp [hset]
  | some set =>
    have hA := hs.fields task field set hset
    simp [hset, hf.le hA, hf.map_le hA]

theorem isStaleMove_newest (slot : Nat) :
    s.isStaleMove slot at_ = false ∧ (s.restamp f).isStaleMove slot to_ = false := by
  rw [isStaleMove, isStaleMove, restamp, List.getElem?_map]
  cases hplaced : s.stamps[slot]? with
  | none => simp
  | some placed =>
    have hA := hs.stamps placed (List.mem_of_getElem? hplaced)
    simp [hf.le hA, hf.map_le hA]

theorem noteDeath_restamp (task : TaskId) :
    (s.restamp f).noteDeath task to_ =
      ((s.noteDeath task at_).1.restamp f, (s.noteDeath task at_).2) := by
  obtain ⟨hdied, hreborn⟩ := hs.lifeOf task
  set l := (s.life task).getD ⟨none, none⟩ with hl
  have hlife : (⟨some ((l.restamp f).died.elim to_ fun d => max d to_), (l.restamp f).reborn⟩ : Life) =
      Life.restamp f ⟨some (l.died.elim at_ fun d => max d at_), l.reborn⟩ := by
    rw [Life.restamp, Life.restamp]
    cases hd : l.died with
    | none => rw [Option.map_none, Option.map_some, Option.elim_none, Option.elim_none, ← hf.eq]
    | some d =>
      rw [Option.map_some, Option.map_some, Option.elim_some, Option.elim_some,
        hf.map_max (hdied d hd) hf.mem, hf.eq]
  have hreborn' : (l.restamp f).reborn.all (fun r => decide (r ≤ to_)) =
      l.reborn.all fun r => decide (r ≤ at_) := by
    rw [Life.restamp]
    cases hr : l.reborn with
    | none => rfl
    | some r => simp [hf.le (hreborn r hr), hf.map_le (hreborn r hr)]
  rw [noteDeath, noteDeath, lifeOf_restamp, ← hl]
  dsimp only
  rw [hreborn', hlife, setLife_restamp]

theorem noteRebirth_restamp (task : TaskId) :
    (s.restamp f).noteRebirth task to_ = (s.noteRebirth task at_).restamp f := by
  obtain ⟨-, hreborn⟩ := hs.lifeOf task
  set l := (s.life task).getD ⟨none, none⟩ with hl
  have hlife : (⟨(l.restamp f).died, some ((l.restamp f).reborn.elim to_ fun r => max r to_)⟩ : Life) =
      Life.restamp f ⟨l.died, some (l.reborn.elim at_ fun r => max r at_)⟩ := by
    rw [Life.restamp, Life.restamp]
    cases hr : l.reborn with
    | none => rw [Option.map_none, Option.map_some, Option.elim_none, Option.elim_none, ← hf.eq]
    | some r =>
      rw [Option.map_some, Option.map_some, Option.elim_some, Option.elim_some,
        hf.map_max (hreborn r hr) hf.mem, hf.eq]
  rw [noteRebirth, noteRebirth, lifeOf_restamp, ← hl, hlife, setLife_restamp]

theorem diedBefore_newest (task : TaskId) :
    s.diedBefore task at_ = true ∧ (s.restamp f).diedBefore task to_ = true := by
  rw [diedBefore, diedBefore, restamp]
  cases hl : s.life task with
  | none => simp [hl]
  | some l =>
    obtain ⟨hdied, -⟩ := hs.life task l hl
    cases hd : l.died with
    | none => simp [hl, hd, Life.restamp]
    | some d => simp [hl, hd, Life.restamp, hf.le (hdied d hd), hf.map_le (hdied d hd)]

theorem rehomeOnto_newest (task : TaskId) :
    s.rehomeOnto task at_ = s ∧ (s.restamp f).rehomeOnto task to_ = s.restamp f := by
  have hpasses : ∀ (n : Nat) (s : DocState) (placed : Hlc), (∀ x ∈ s.slots, x.stamp ≤ placed) →
      rehomePasses task placed n s = s := by
    intro n s placed hle
    cases n with
    | zero => rfl
    | succ n => rw [rehomePasses, Slots.lastHead_newest hle]; rfl
  refine ⟨hpasses _ s at_ fun x hx => hf.le (slots_stamp hs x hx), hpasses _ _ to_ fun x hx => ?_⟩
  rw [slots_restamp] at hx
  obtain ⟨y, hy, rfl⟩ := List.mem_map.1 hx
  exact hf.map_le (slots_stamp hs y hy)

theorem showNewest_restamp (task : TaskId) (added : Nat) :
    (s.restamp f).showNewest task added = (s.showNewest task added).restamp f := by
  have hmax : Iter.maxByKey (fun x : Slot × Nat => toLex (x.1.stamp, decide (x.2 = added)))
      (Slots.placements (s.restamp f).slots task) =
      (Iter.maxByKey (fun x => toLex (x.1.stamp, decide (x.2 = added)))
        (Slots.placements s.slots task)).map fun x => (x.1.restamp f, x.2) := by
    rw [slots_restamp, Slots.placements_restamp]
    exact Iter.maxByKey_map _ fun a ha b hb => Slots.toLex_lt_iff hf
      (Slots.placements_stamp (slots_stamp hs) ha) (Slots.placements_stamp (slots_stamp hs) hb) _ _
  have hnewest : (Iter.maxByKey (fun x : Slot × Nat => toLex (x.1.stamp, decide (x.2 = added)))
      (Slots.placements (s.restamp f).slots task)).map (·.2) =
      (Iter.maxByKey (fun x : Slot × Nat => toLex (x.1.stamp, decide (x.2 = added)))
        (Slots.placements s.slots task)).map (·.2) := by
    rw [hmax, Option.map_map]
    rfl
  rw [showNewest, showNewest, hnewest, liveSlot_restamp]
  dsimp only
  split_ifs <;> rfl

theorem settleErasers_restamp : (s.restamp f).settleErasers = s.settleErasers.restamp f := by
  have hclaims : (s.restamp f).claims = s.claims := by
    rw [claims, claims, slots_restamp, Slots.claims_restamp hf (slots_stamp hs)]
  have hhidden : Slots.settledHidden (s.restamp f).slots ((s.restamp f).claims.map (·.2)) =
      Slots.settledHidden s.slots (s.claims.map (·.2)) := by
    rw [slots_restamp, hclaims, Slots.settledHidden_restamp]
  rw [settleErasers, settleErasers, hhidden]
  generalize Slots.settledHidden s.slots (s.claims.map (·.2)) = hidden
  show (if true ∉ s.erasers then s.restamp f else if hidden = s.hidden then s.restamp f
      else { s.restamp f with hidden := hidden }.reindex) =
    restamp f (if true ∉ s.erasers then s else if hidden = s.hidden then s
      else { s with hidden := hidden }.reindex)
  by_cases hnone : true ∉ s.erasers
  · rw [if_pos hnone, if_pos hnone]
  · rw [if_neg hnone, if_neg hnone]
    split_ifs <;> rfl

theorem pruneGhostsTo_restamp (max : Nat) :
    (s.restamp f).pruneGhostsTo max = (s.pruneGhostsTo max).restamp f := by
  have hdrop : Slots.toDrop (s.restamp f).slots (s.ghosts - max) =
      Slots.toDrop s.slots (s.ghosts - max) := by
    rw [slots_restamp, Slots.toDrop_restamp hf (slots_stamp hs)]
  have hghosts : (s.restamp f).ghosts = s.ghosts := rfl
  rw [pruneGhostsTo, pruneGhostsTo, hghosts, hdrop]
  by_cases hle : s.ghosts ≤ max
  · rw [if_pos hle, if_pos hle]
  · rw [if_neg hle, if_neg hle]
    simp only [restamp, reindex, map_removeAt]
    congr 1 <;> funext t
    · funext g
      rw [apply_ite (Option.map f)]
      rfl
    · rw [apply_ite (Option.map (TextHistory.restamp f))]
      rfl
    · rw [apply_ite (Option.map (Life.restamp f))]
      rfl

theorem pruneGhosts_restamp : (s.restamp f).pruneGhosts = s.pruneGhosts.restamp f := by
  have hghosts : (s.restamp f).ghosts = s.ghosts := rfl
  rw [pruneGhosts, pruneGhosts, pruneGhostsPast, pruneGhostsPast, hghosts]
  split_ifs
  · exact pruneGhostsTo_restamp hf hs _
  · rfl

end Newest

end DocState

end Txtodo
