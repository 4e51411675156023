import Txtodo.Engine.Proofs.ClaimsProofs
import Txtodo.Engine.Proofs.ReachableProofs

/-!
# Proofs: what a prune drops

A prune drops ghosts no eraser claims, oldest first, each eraser with the blank it claims.
-/

namespace Txtodo

namespace Slots

variable {xs : List Slot}

/-! ## The slots dropped -/

/-- Whether a slot is a ghost no eraser claims. -/
def Unclaimed (xs : List Slot) (p : Slot × Nat) : Prop :=
  p.1.hidden = true ∧ p.2 ∉ (claims xs).map (·.2)

/-- The ghosts no eraser claims, the oldest first. -/
def oldestGhosts (xs : List Slot) : List (Slot × Nat) :=
  (xs.zipIdx.filter fun x => x.1.hidden && x.2 ∉ (claims xs).map (·.2)).insertionSort
    fun a b => a.1.stamp ≤ b.1.stamp

/-- A ghost with the blank it claims. -/
def withClaim (claims : List (Nat × Nat)) (i : Nat) : List Nat :=
  i :: (claims.find? (·.1 = i)).toList.map (·.2)

theorem dropped_eq (claims : List (Nat × Nat)) (excess : Nat) (acc l : List Nat) :
    ∃ n, dropped claims excess acc l = acc ++ (l.take n).flatMap (withClaim claims) ∧
      (acc.length < excess → l ≠ [] → 0 < n) := by
  induction l generalizing acc with
  | nil => exact ⟨0, by simp [dropped], fun _ h => absurd rfl h⟩
  | cons i rest ih =>
    rw [dropped]
    split_ifs with hfull
    · exact ⟨0, by simp, fun hlt => absurd hfull (not_le.2 hlt)⟩
    · obtain ⟨n, hn, -⟩ := ih (acc ++ withClaim claims i)
      refine ⟨n + 1, ?_, fun _ _ => Nat.succ_pos n⟩
      rw [List.take_succ_cons, List.flatMap_cons, ← List.append_assoc]
      exact hn

theorem mem_oldestGhosts {p : Slot × Nat} :
    p ∈ oldestGhosts xs ↔ p ∈ xs.zipIdx ∧ Unclaimed xs p := by
  rw [oldestGhosts, List.mem_insertionSort, List.mem_filter, Unclaimed, Bool.and_eq_true,
    decide_eq_true_iff]

/-- A prune drops the first of the oldest ghosts, with their claims. -/
theorem toDrop_eq (xs : List Slot) (excess : Nat) :
    ∃ n, toDrop xs excess =
        (((oldestGhosts xs).map (·.2)).take n).flatMap (withClaim (claims xs)) ∧
      (0 < excess → oldestGhosts xs ≠ [] → 0 < n) := by
  obtain ⟨n, hn, hpos⟩ := dropped_eq (claims xs) excess [] ((oldestGhosts xs).map (·.2))
  rw [List.nil_append] at hn
  exact ⟨n, hn, fun hexcess hne => hpos hexcess (by simpa using hne)⟩

theorem claims_fst_nodup (xs : List Slot) : ((claims xs).map (·.1)).Nodup := by
  have hsub : ∀ (l : List (Slot × Nat)) (taken : List Nat),
      ((claimsOn taken l).map (·.1)).Sublist (l.map (·.2)) := by
    intro l
    induction l with
    | nil => exact fun _ => List.Sublist.refl _
    | cons p rest ih =>
      intro taken
      obtain ⟨x, i⟩ := p
      rw [List.map_cons]
      cases hx : x.eraser with
      | false =>
        rw [claimsOn_other hx]
        exact (ih taken).cons _
      | true =>
        cases hc : claimFrom x.stamp taken none rest with
        | none =>
          rw [claimsOn_idle hx hc]
          exact (ih taken).cons _
        | some c =>
          rw [claimsOn_eraser hx hc]
          exact (ih (c :: taken)).cons_cons _
  rw [claims_eq_claimsOn]
  refine List.Nodup.sublist (hsub xs.zipIdx []) ?_
  rw [List.zipIdx_map_snd]
  exact List.nodup_range' ..

theorem claims_snd_nodup (xs : List Slot) : ((claims xs).map (·.2)).Nodup := by
  rw [claims_eq_claimsOn]
  exact claimsOn_nodup

theorem mem_claims {c : Nat × Nat} (h : c ∈ claims xs) :
    (∃ x, (x, c.1) ∈ xs.zipIdx ∧ x.eraser = true) ∧ ∃ x, (x, c.2) ∈ xs.zipIdx ∧ Claimable x := by
  rw [claims_eq_claimsOn] at h
  exact (mem_claimsOn h).2

theorem eq_of_zipIdx {x y : Slot} {i : Nat} (hx : (x, i) ∈ xs.zipIdx) (hy : (y, i) ∈ xs.zipIdx) :
    x = y :=
  (List.mem_zipIdx' hx).2.trans (List.mem_zipIdx' hy).2.symm

/-- An eraser is not claimed. -/
theorem eraser_not_claimed {x : Slot} {i : Nat} (hx : (x, i) ∈ xs.zipIdx)
    (heraser : x.eraser = true) : i ∉ (claims xs).map (·.2) := by
  intro hmem
  obtain ⟨c, hc, rfl⟩ := List.mem_map.1 hmem
  obtain ⟨-, y, hy, hclaimable⟩ := mem_claims hc
  obtain rfl := eq_of_zipIdx hx hy
  simp [hclaimable.2] at heraser

/-- A task is not claimed. -/
theorem task_not_claimed {x : Slot} {i : Nat} (hx : (x, i) ∈ xs.zipIdx)
    (htask : x.isBlank = false) : i ∉ (claims xs).map (·.2) := by
  intro hmem
  obtain ⟨c, hc, rfl⟩ := List.mem_map.1 hmem
  obtain ⟨-, y, hy, hclaimable⟩ := mem_claims hc
  obtain rfl := eq_of_zipIdx hx hy
  simp [hclaimable.1] at htask

section Dropped

variable {excess : Nat} {i : Nat}

theorem mem_withClaim {claims : List (Nat × Nat)} (hfst : (claims.map (·.1)).Nodup) {e b : Nat} :
    b ∈ withClaim claims e ↔ b = e ∨ (e, b) ∈ claims := by
  rw [withClaim, List.mem_cons]
  refine or_congr_right ⟨fun h => ?_, fun h => ?_⟩
  · obtain ⟨c, hc, rfl⟩ := List.mem_map.1 h
    have hfind := Option.mem_toList.1 hc
    obtain rfl : c.1 = e := by simpa using List.find?_some hfind
    exact List.mem_of_find?_eq_some hfind
  · refine List.mem_map.2 ⟨(e, b), Option.mem_toList.2 ?_, rfl⟩
    cases hfind : claims.find? (·.1 = e) with
    | none =>
      have hne := List.find?_eq_none.1 hfind (e, b) h
      simp at hne
    | some c =>
      have hce : c.1 = e := by simpa using List.find?_some hfind
      have hc := List.mem_of_find?_eq_some hfind
      exact congrArg some (List.inj_on_of_nodup_map hfst hc h hce)

theorem mem_toDrop (h : i ∈ toDrop xs excess) :
    (∃ x, (x, i) ∈ xs.zipIdx ∧ Unclaimed xs (x, i)) ∨
      ∃ e ∈ toDrop xs excess, (e, i) ∈ claims xs := by
  obtain ⟨n, hn, -⟩ := toDrop_eq xs excess
  rw [hn] at h ⊢
  obtain ⟨e, he, hi⟩ := List.mem_flatMap.1 h
  rcases (mem_withClaim (claims_fst_nodup xs)).1 hi with rfl | hclaim
  · obtain ⟨⟨x, j⟩, hx, rfl⟩ := List.mem_map.1 (List.mem_of_mem_take he)
    obtain ⟨hmem, hghost⟩ := mem_oldestGhosts.1 hx
    exact .inl ⟨x, hmem, hghost⟩
  · exact .inr ⟨e, List.mem_flatMap.2 ⟨e, he, List.mem_cons_self ..⟩, hclaim⟩

theorem exists_of_mem_toDrop (h : i ∈ toDrop xs excess) : ∃ x, (x, i) ∈ xs.zipIdx := by
  rcases mem_toDrop h with ⟨x, hx, -⟩ | ⟨e, -, hclaim⟩
  · exact ⟨x, hx⟩
  · obtain ⟨-, x, hx, -⟩ := mem_claims hclaim
    exact ⟨x, hx⟩

/-- An eraser is dropped exactly with the blank it claims. -/
theorem toDrop_closed {c : Nat × Nat} (hc : c ∈ claims xs) :
    c.1 ∈ toDrop xs excess ↔ c.2 ∈ toDrop xs excess := by
  obtain ⟨⟨x, hx, heraser⟩, -⟩ := mem_claims hc
  obtain ⟨n, hn, -⟩ := toDrop_eq xs excess
  constructor
  · intro he
    rw [hn] at he ⊢
    obtain ⟨e, he', hmem⟩ := List.mem_flatMap.1 he
    rcases (mem_withClaim (claims_fst_nodup xs)).1 hmem with heq | hclaim
    · exact List.mem_flatMap.2 ⟨e, he', (mem_withClaim (claims_fst_nodup xs)).2 (.inr (heq ▸ hc))⟩
    · exact absurd (List.mem_map.2 ⟨_, hclaim, rfl⟩) (eraser_not_claimed hx heraser)
  · intro hb
    rcases mem_toDrop hb with ⟨y, -, -, hfree⟩ | ⟨e, he, hclaim⟩
    · exact absurd (List.mem_map.2 ⟨c, hc, rfl⟩) hfree
    · have heq : (e, c.2) = c := List.inj_on_of_nodup_map (claims_snd_nodup xs) hclaim hc rfl
      rw [← heq]
      exact he

theorem zipIdx_pairwise (xs : List Slot) : xs.zipIdx.Pairwise fun a b => a.2 < b.2 := by
  have h : (xs.zipIdx.map (·.2)).Pairwise (· < ·) := by
    rw [List.zipIdx_map_snd]
    exact List.pairwise_lt_range' ..
  exact List.pairwise_map.1 h

/-- Two items of a list sorted by label stand in the order of their labels. -/
theorem pair_sublist {l : List (Slot × Nat)} (hl : l.Pairwise fun a b => a.2 < b.2) {p q : Slot × Nat}
    (hp : p ∈ l) (hq : q ∈ l) (hlt : p.2 < q.2) : [p, q].Sublist l := by
  obtain ⟨a, b, rfl⟩ := List.append_of_mem hq
  have hpa : p ∈ a := by
    rcases List.mem_append.1 hp with h | h
    · exact h
    · exfalso
      rcases List.mem_cons.1 h with rfl | h
      · exact lt_irrefl _ hlt
      · have := (List.pairwise_cons.1 (List.pairwise_append.1 hl).2.1).1 p h
        omega
  exact (List.singleton_sublist.2 hpa).append (List.singleton_sublist.2 (List.mem_cons_self ..))

/-- A prune drops a ghost that is the oldest of those no eraser claims, the first of its stamp. -/
theorem exists_oldest_dropped (hexcess : 0 < excess) {q : Slot × Nat} (hq : q ∈ xs.zipIdx)
    (hghost : Unclaimed xs q) :
    ∃ p ∈ xs.zipIdx, p.2 ∈ toDrop xs excess ∧ Unclaimed xs p ∧
      ∀ r ∈ xs.zipIdx, Unclaimed xs r → p.1.stamp ≤ r.1.stamp ∧ (r.1.stamp ≤ p.1.stamp → p.2 ≤ r.2) := by
  obtain ⟨n, hn, hpos⟩ := toDrop_eq xs excess
  cases hold : oldestGhosts xs with
  | nil =>
    have hmem := mem_oldestGhosts.2 ⟨hq, hghost⟩
    rw [hold] at hmem
    cases hmem
  | cons p rest =>
    obtain ⟨hp, hpghost⟩ := mem_oldestGhosts.1 (hold ▸ List.mem_cons_self .. : p ∈ oldestGhosts xs)
    have hsorted : (oldestGhosts xs).Pairwise fun a b => a.1.stamp ≤ b.1.stamp :=
      List.pairwise_insertionSort _ _
    have hlabels : (xs.zipIdx.map (·.2)).Nodup := by
      rw [List.zipIdx_map_snd]
      exact List.nodup_range' ..
    have hnodup : (oldestGhosts xs).Nodup :=
      (List.perm_insertionSort _ _).nodup_iff.2 ((List.Nodup.of_map _ hlabels).filter _)
    refine ⟨p, hp, ?_, hpghost, fun r hr hrghost => ⟨?_, fun hle => ?_⟩⟩
    · obtain ⟨m, rfl⟩ : ∃ m, n = m + 1 := ⟨n - 1, by have := hpos hexcess (by simp [hold]); omega⟩
      rw [hn, hold, List.map_cons, List.take_succ_cons, List.flatMap_cons]
      exact List.mem_append_left _ (List.mem_cons_self ..)
    · have hmem : r ∈ p :: rest := hold ▸ mem_oldestGhosts.2 ⟨hr, hrghost⟩
      rw [hold] at hsorted
      rcases List.mem_cons.1 hmem with rfl | hmem
      · exact le_rfl
      · exact (List.pairwise_cons.1 hsorted).1 r hmem
    · by_contra hlt
      -- the sort is stable: a ghost of the same stamp in front of `p` would come first
      have hpair : [r, p].Sublist (xs.zipIdx.filter fun x =>
          x.1.hidden && x.2 ∉ (claims xs).map (·.2)) := by
        refine pair_sublist (List.Pairwise.filter _ (zipIdx_pairwise xs)) ?_ ?_ (not_le.1 hlt)
        · exact (List.mem_insertionSort _).1 (mem_oldestGhosts.2 ⟨hr, hrghost⟩)
        · exact (List.mem_insertionSort _).1 (mem_oldestGhosts.2 ⟨hp, hpghost⟩)
      have hsub : [r, p].Sublist (oldestGhosts xs) := List.pair_sublist_insertionSort hle hpair
      rw [hold] at hsub hnodup
      rcases List.cons_sublist_cons'.1 hsub with h | ⟨h, -⟩
      · exact (List.nodup_cons.1 hnodup).1 (h.subset (by simp))
      · exact hlt (h ▸ le_rfl)

end Dropped

/-! ## The slots that stay -/

/-- The items of a part of a sequence that starts at slot `k`, without those in the slots of `drop`. -/
def restOf {α : Type} (drop : List Nat) (k : Nat) (l : List α) : List α :=
  ((l.zipIdx k).filter fun x => x.2 ∉ drop).map (·.1)

section Rest

variable {α : Type} {drop : List Nat} {k : Nat} {l l' : List α} {a : α}

theorem removeAt_eq_restOf : removeAt drop l = restOf drop 0 l := rfl

theorem restOf_append : restOf drop k (l ++ l') = restOf drop k l ++ restOf drop (k + l.length) l' := by
  rw [restOf, List.zipIdx_append, List.filter_append, List.map_append]
  rfl

theorem restOf_cons_of_mem (h : k ∈ drop) : restOf drop k (a :: l) = restOf drop (k + 1) l := by
  rw [restOf, List.zipIdx_cons, List.filter_cons, if_neg (by simpa using h)]
  rfl

theorem restOf_cons_of_not_mem (h : k ∉ drop) :
    restOf drop k (a :: l) = a :: restOf drop (k + 1) l := by
  rw [restOf, List.zipIdx_cons, List.filter_cons, if_pos (by simpa using h)]
  rfl

theorem restOf_sublist : (restOf drop k l).Sublist l := by
  induction l generalizing k with
  | nil => exact List.Sublist.refl _
  | cons a l ih =>
    by_cases hk : k ∈ drop
    · rw [restOf_cons_of_mem hk]
      exact ih.cons _
    · rw [restOf_cons_of_not_mem hk]
      exact ih.cons_cons _

theorem restOf_eq_self (h : ∀ p ∈ l.zipIdx k, p.2 ∉ drop) : restOf drop k l = l := by
  rw [restOf, List.filter_eq_self.2 fun p hp => by simpa using h p hp, List.zipIdx_map_fst]

/-- The last item stays last when it is not dropped. -/
theorem getLast?_restOf (h : ∀ p ∈ l.zipIdx, p.2 + 1 = l.length → p.2 ∉ drop) :
    (restOf drop 0 l).getLast? = l.getLast? := by
  rcases List.eq_nil_or_concat l with rfl | ⟨l, a, rfl⟩
  · rfl
  · have ha : l.length ∉ drop := h (a, l.length) (by simp [List.zipIdx_append]) (by simp)
    rw [List.concat_eq_append, restOf_append, Nat.zero_add, restOf_cons_of_not_mem ha]
    simp [restOf]

/-- Dropping an item that passes `P` leaves fewer of those. -/
theorem countP_restOf_lt (P : α → Bool) {p : α × Nat} (hp : p ∈ l.zipIdx k) (hdrop : p.2 ∈ drop)
    (hP : P p.1 = true) : (restOf drop k l).countP P < l.countP P := by
  induction l generalizing k with
  | nil => cases hp
  | cons a l ih =>
    rw [List.zipIdx_cons] at hp
    rcases List.mem_cons.1 hp with rfl | hp
    · rw [restOf_cons_of_mem hdrop, List.countP_cons_of_pos hP]
      exact Nat.lt_succ_of_le restOf_sublist.countP_le
    · by_cases hk : k ∈ drop
      · rw [restOf_cons_of_mem hk, List.countP_cons]
        exact (ih hp).trans_le (Nat.le_add_right ..)
      · rw [restOf_cons_of_not_mem hk, List.countP_cons, List.countP_cons]
        exact Nat.add_lt_add_right (ih hp) _

/-- Dropping an item leaves fewer. -/
theorem length_restOf_lt {p : α × Nat} (hp : p ∈ l.zipIdx k) (hdrop : p.2 ∈ drop) :
    (restOf drop k l).length < l.length := by
  simpa using countP_restOf_lt (fun _ => true) hp hdrop rfl

/-- Dropping items that do not pass `P` leaves those that do. -/
theorem filter_restOf (P : α → Bool) (h : ∀ p ∈ l.zipIdx k, p.2 ∈ drop → P p.1 = false) :
    (restOf drop k l).filter P = l.filter P := by
  induction l generalizing k with
  | nil => rfl
  | cons a l ih =>
    rw [List.zipIdx_cons] at h
    have ih' := ih (k := k + 1) fun p hp => h p (List.mem_cons_of_mem _ hp)
    by_cases hk : k ∈ drop
    · have ha : P a = false := h (a, k) (List.mem_cons_self ..) hk
      rw [restOf_cons_of_mem hk, List.filter_cons, if_neg (by simp [ha]), ih']
    · rw [restOf_cons_of_not_mem hk, List.filter_cons, List.filter_cons, ih']

end Rest

/-! ## Pruning -/

/-- How many slots are not shown. -/
def ghosts (xs : List Slot) : Nat := xs.countP Slot.hidden

/-- `DocState.pruneGhosts` on slots. -/
def prune (xs : List Slot) : List Slot :=
  if MAX_GHOSTS_PER_FILE < ghosts xs then
    removeAt (toDrop xs (ghosts xs - GHOSTS_AFTER_PRUNE)) xs
  else xs

theorem prune_of_le (h : ghosts xs ≤ MAX_GHOSTS_PER_FILE) : prune xs = xs := if_neg (not_lt.2 h)

theorem prune_of_lt (h : MAX_GHOSTS_PER_FILE < ghosts xs) :
    prune xs = removeAt (toDrop xs (ghosts xs - GHOSTS_AFTER_PRUNE)) xs := if_pos h

theorem excess_pos (h : MAX_GHOSTS_PER_FILE < ghosts xs) : 0 < ghosts xs - GHOSTS_AFTER_PRUNE := by
  have hmark : GHOSTS_AFTER_PRUNE < MAX_GHOSTS_PER_FILE := by decide
  omega

/-! ## Sequences settled already -/

/-- Settling a sequence again changes nothing: it has no eraser, or its blanks are in step. -/
def Calm (xs : List Slot) : Prop := (∀ x ∈ xs, x.eraser = false) ∨ Synced xs

theorem any_eraser {xs : List Slot} : ¬xs.any Slot.eraser = true ↔ ∀ x ∈ xs, x.eraser = false := by
  simp

theorem calm_settleErasers (xs : List Slot) : Calm (settleErasers xs) := by
  by_cases h : xs.any Slot.eraser = true
  · exact .inr (synced_settleErasers (.inl h))
  · rw [settleErasers, if_neg h]
    exact .inl (any_eraser.1 h)

theorem Calm.settleErasers (h : Calm xs) : Slots.settleErasers xs = xs := by
  rcases h with h | h
  · rw [Slots.settleErasers, if_neg (any_eraser.2 h)]
  · exact h.settleErasers

theorem Calm.synced (h : Calm xs) {x : Slot} (hx : x ∈ xs) (heraser : x.eraser = true) : Synced xs :=
  h.resolve_left fun hnone => by simp [hnone x hx] at heraser

theorem Calm.insert_blank {front back : List Slot} (h : Calm (front ++ back))
    (hfront : ∀ x ∈ front, x.eraser = false) {b : Slot} (hhidden : b.hidden = false)
    (heraser : b.eraser = false) : Calm (front ++ b :: back) := by
  rcases h with h | h
  · refine .inl fun x hx => ?_
    rcases List.mem_append.1 hx with hx | hx
    · exact hfront x hx
    · rcases List.mem_cons.1 hx with rfl | hx
      · exact heraser
      · exact h x (List.mem_append_right _ hx)
  · exact .inr (h.insert_blank hfront hhidden heraser)

theorem Calm.removeAt {front run back : List Slot} {D : List Nat} {mine : Hlc}
    (h : Calm (front ++ (run ++ back))) (hfront : ∀ x ∈ front, x.eraser = false)
    (hrun : ∀ x ∈ run, x.isBlank = true ∧ x.stamp = mine)
    (hD : ∀ i ∈ D, front.length ≤ i ∧ i < front.length + run.length)
    (hclosed : ∀ c ∈ claims (front ++ (run ++ back)), c.1 ∈ D ↔ c.2 ∈ D) :
    Calm (Txtodo.removeAt D (front ++ (run ++ back))) := by
  rcases h with h | h
  · exact .inl fun x hx => h x (restOf_sublist.subset hx)
  · exact .inr (h.removeAt hfront hrun hD hclosed)

/-- Everything a prune of a settled sequence drops is hidden. -/
theorem Calm.hidden_of_mem_toDrop {excess : Nat} (h : Calm xs) {p : Slot × Nat}
    (hp : p ∈ xs.zipIdx) (hdrop : p.2 ∈ toDrop xs excess) : p.1.hidden = true := by
  obtain ⟨x, i⟩ := p
  rcases mem_toDrop hdrop with ⟨y, hy, hghost⟩ | ⟨e, -, hclaim⟩
  · obtain rfl := eq_of_zipIdx hp hy
    exact hghost.1
  · obtain ⟨⟨z, hz, heraser⟩, y, hy, hclaimable⟩ := mem_claims hclaim
    obtain rfl := eq_of_zipIdx hp hy
    have hzmem : z ∈ xs := (List.mem_zipIdx' hz).2 ▸ List.getElem_mem _
    refine (h.synced hzmem heraser (x, i) hp hclaimable).2 ?_
    rw [← claims_eq_claimsOn]
    exact List.mem_map.2 ⟨_, hclaim, rfl⟩

end Slots

namespace DocState

variable {u : DocState} {xs : List Slot}

theorem withSlots_length_visible (u : DocState) (xs : List Slot) :
    (u.withSlots xs).visible.length = (xs.filter fun x => !x.hidden).length := by
  have hslots : List.range xs.length = xs.zipIdx.map (·.2) := by
    rw [List.zipIdx_map_snd, List.range_eq_range']
  have hshown : xs.countP (fun x => !x.hidden) = xs.zipIdx.countP fun p => !p.1.hidden := by
    conv_lhs => rw [← List.zipIdx_map_fst 0 xs, List.countP_map]
    rfl
  rw [withSlots_visible, ← List.countP_eq_length_filter, ← List.countP_eq_length_filter, hslots,
    List.countP_map, hshown]
  refine List.countP_congr fun p hp => ?_
  obtain ⟨x, i⟩ := p
  have hx : xs[i]? = some x := List.mk_mem_zipIdx_iff_getElem?.1 hp
  simp [hx]

/-- A slot is shown or a ghost. -/
theorem Aligned.length_slots {s : DocState} (hs : s.Aligned) :
    s.slots.length = s.visible.length + Slots.ghosts s.slots := by
  obtain ⟨u, xs, rfl⟩ := hs.exists_slots
  rw [slots_withSlots, withSlots_length_visible, Slots.ghosts, ← List.countP_eq_length_filter]
  have hsplit := List.length_eq_countP_add_countP Slot.hidden (l := xs)
  have hshown : xs.countP (fun x => !x.hidden) = xs.countP fun x => decide ¬x.hidden = true :=
    List.countP_congr fun x _ => by simp
  omega

theorem withSlots_ghosts : (u.withSlots xs).ghosts = Slots.ghosts xs := by
  have hlength := (aligned_withSlots u xs).length_slots
  rw [slots_withSlots] at hlength
  rw [ghosts, withSlots_entries, List.length_map]
  omega

theorem pruneGhosts_withSlots (u : DocState) (xs : List Slot) :
    ∃ v : DocState, (u.withSlots xs).pruneGhosts = v.withSlots (Slots.prune xs) ∧
      v.path = u.path ∧ v.ending = u.ending := by
  unfold pruneGhosts pruneGhostsPast Slots.prune
  rw [withSlots_ghosts]
  split_ifs with hlt
  · have hmark : GHOSTS_AFTER_PRUNE < MAX_GHOSTS_PER_FILE := by decide
    have hover : GHOSTS_AFTER_PRUNE < (u.withSlots xs).ghosts := by
      rw [withSlots_ghosts]
      omega
    have hprune := pruneGhostsTo_withSlots hover
    rw [withSlots_ghosts] at hprune
    exact ⟨_, hprune, rfl, rfl⟩
  · exact ⟨u, rfl, rfl, rfl⟩

end DocState

end Txtodo
