import Txtodo.Engine.Proofs.SlotsProofs

/-!
# Proofs: which blanks erasers claim

An eraser looks only at what follows it, so the claims of a sequence are read off from left to right.
Labels stand for slots: what is claimed does not depend on how the slots are numbered.
-/

namespace Txtodo

namespace Slots

variable {xs : List Slot} {mine : Hlc} {taken : List Nat} {oldest : Option Hlc}
  {l l' : List (Slot × Nat)}

/-- The claims of the erasers of a labelled sequence, `taken` being claimed already. -/
def claimsOn (taken : List Nat) : List (Slot × Nat) → List (Nat × Nat)
  | [] => []
  | (x, i) :: rest =>
    if x.eraser then
      match claimFrom x.stamp taken none rest with
      | some b => (i, b) :: claimsOn (b :: taken) rest
      | none => claimsOn taken rest
    else claimsOn taken rest

theorem claimsOn_eraser {x : Slot} {i b : Nat} (hx : x.eraser = true)
    (hb : claimFrom x.stamp taken none l = some b) :
    claimsOn taken ((x, i) :: l) = (i, b) :: claimsOn (b :: taken) l := by
  rw [claimsOn, if_pos hx, hb]

theorem claimsOn_idle {x : Slot} {i : Nat} (hx : x.eraser = true)
    (hb : claimFrom x.stamp taken none l = none) :
    claimsOn taken ((x, i) :: l) = claimsOn taken l := by
  rw [claimsOn, if_pos hx, hb]

theorem claimsOn_other {x : Slot} {i : Nat} (hx : x.eraser = false) :
    claimsOn taken ((x, i) :: l) = claimsOn taken l := by
  rw [claimsOn, if_neg (by simp [hx])]

/-- The claims of a sequence, read off its slots in order. -/
theorem claims_eq_claimsOn (xs : List Slot) : claims xs = claimsOn [] xs.zipIdx := by
  have hdrop : ∀ (n : Nat) (taken : List Nat),
      claimsFrom xs taken (((xs.zipIdx.drop n).filter fun x => x.1.eraser).map (·.2)) =
        claimsOn taken (xs.zipIdx.drop n) := by
    intro n taken
    induction hk : xs.length - n generalizing n taken with
    | zero =>
      rw [List.drop_eq_nil_of_le (by simp; omega)]
      rfl
    | succ k ih =>
      have hn : n < xs.zipIdx.length := by simp; omega
      have hn' : n < xs.length := by simpa using hn
      obtain ⟨x, hx⟩ : ∃ x, xs[n] = x := ⟨_, rfl⟩
      rw [List.drop_eq_getElem_cons hn, List.getElem_zipIdx, Nat.zero_add, hx]
      have hclaim : claim xs n taken = claimFrom x.stamp taken none (xs.zipIdx.drop (n + 1)) := by
        rw [claim, List.getElem?_eq_getElem hn', hx]
        rfl
      by_cases heraser : x.eraser = true
      · rw [List.filter_cons, if_pos heraser, List.map_cons, claimsFrom, hclaim]
        cases hb : claimFrom x.stamp taken none (xs.zipIdx.drop (n + 1)) with
        | none =>
          rw [claimsOn_idle heraser hb]
          exact ih (n + 1) taken (by omega)
        | some b =>
          rw [claimsOn_eraser heraser hb]
          exact congrArg _ (ih (n + 1) (b :: taken) (by omega))
      · rw [List.filter_cons, if_neg heraser, claimsOn_other (by simpa using heraser)]
        exact ih (n + 1) taken (by omega)
  simpa [claims] using hdrop 0 []

/-- Whether a slot is a blank an eraser may claim. -/
def Claimable (x : Slot) : Prop := x.isBlank = true ∧ x.eraser = false

theorem claimFrom_spec {b : Nat} (h : claimFrom mine taken oldest l = some b) :
    b ∉ taken ∧ ∃ x, (x, b) ∈ l ∧ Claimable x := by
  induction l generalizing oldest with
  | nil => cases h
  | cons p rest ih =>
    obtain ⟨x, i⟩ := p
    rw [claimFrom] at h
    split_ifs at h with hpass hblank hold
    · obtain ⟨hfree, y, hy, hc⟩ := ih h
      exact ⟨hfree, y, List.mem_cons_of_mem _ hy, hc⟩
    · obtain rfl := Option.some.inj h
      have heraser : x.eraser = false := by
        by_contra hne
        exact hpass (by simp [hne])
      have hfree : i ∉ taken := fun hi => hpass (by simp [hi])
      exact ⟨hfree, x, List.mem_cons_self .., hblank, heraser⟩
    · obtain ⟨hfree, y, hy, hc⟩ := ih h
      exact ⟨hfree, y, List.mem_cons_of_mem _ hy, hc⟩

/-- An eraser of the sequence claims a blank of it that was not taken. -/
theorem mem_claimsOn {e b : Nat} (h : (e, b) ∈ claimsOn taken l) :
    b ∉ taken ∧ (∃ x, (x, e) ∈ l ∧ x.eraser = true) ∧ ∃ x, (x, b) ∈ l ∧ Claimable x := by
  induction l generalizing taken with
  | nil => cases h
  | cons p rest ih =>
    obtain ⟨x, i⟩ := p
    have hlift : ∀ {P : Slot → Prop} {k : Nat}, (∃ y, (y, k) ∈ rest ∧ P y) →
        ∃ y, (y, k) ∈ (x, i) :: rest ∧ P y :=
      fun ⟨y, hy, hp⟩ => ⟨y, List.mem_cons_of_mem _ hy, hp⟩
    cases hx : x.eraser with
    | false =>
      rw [claimsOn_other hx] at h
      obtain ⟨hfree, he, hb⟩ := ih h
      exact ⟨hfree, hlift he, hlift hb⟩
    | true =>
      cases hc : claimFrom x.stamp taken none rest with
      | none =>
        rw [claimsOn_idle hx hc] at h
        obtain ⟨hfree, he, hb⟩ := ih h
        exact ⟨hfree, hlift he, hlift hb⟩
      | some c =>
        rw [claimsOn_eraser hx hc] at h
        rcases List.mem_cons.1 h with heq | h
        · obtain ⟨rfl, rfl⟩ := Prod.mk.inj heq
          obtain ⟨hfree, hb⟩ := claimFrom_spec hc
          exact ⟨hfree, ⟨x, List.mem_cons_self .., hx⟩, hlift hb⟩
        · obtain ⟨hfree, he, hb⟩ := ih h
          exact ⟨fun hb' => hfree (List.mem_cons_of_mem _ hb'), hlift he, hlift hb⟩

/-- No blank is claimed twice. -/
theorem claimsOn_nodup : ((claimsOn taken l).map (·.2)).Nodup := by
  induction l generalizing taken with
  | nil => exact List.nodup_nil
  | cons p rest ih =>
    obtain ⟨x, i⟩ := p
    cases hx : x.eraser with
    | false =>
      rw [claimsOn_other hx]
      exact ih
    | true =>
      cases hc : claimFrom x.stamp taken none rest with
      | none =>
        rw [claimsOn_idle hx hc]
        exact ih
      | some c =>
        rw [claimsOn_eraser hx hc, List.map_cons, List.nodup_cons]
        refine ⟨fun hmem => ?_, ih⟩
        obtain ⟨⟨e, b⟩, heb, rfl⟩ := List.mem_map.1 hmem
        exact (mem_claimsOn heb).1 (List.mem_cons_self ..)

/-- Slots without erasers in front claim nothing. -/
theorem claimsOn_append {front : List (Slot × Nat)} (h : ∀ p ∈ front, p.1.eraser = false) :
    claimsOn taken (front ++ l) = claimsOn taken l := by
  induction front with
  | nil => rfl
  | cons p front ih =>
    rw [List.cons_append, claimsOn_other (h p (List.mem_cons_self ..))]
    exact ih fun q hq => h q (List.mem_cons_of_mem _ hq)

/-! ## Numbering the slots -/

theorem claimFrom_relabel (g : Nat → Nat)
    (hg : ∀ p ∈ l, ∀ j ∈ taken, g p.2 = g j → p.2 = j) :
    claimFrom mine (taken.map g) oldest (l.map (Prod.map id g)) =
      (claimFrom mine taken oldest l).map g := by
  induction l generalizing oldest with
  | nil => rfl
  | cons p rest ih =>
    obtain ⟨x, i⟩ := p
    have hrest : ∀ p ∈ rest, ∀ j ∈ taken, g p.2 = g j → p.2 = j :=
      fun p hp => hg p (List.mem_cons_of_mem _ hp)
    have htaken : g i ∈ taken.map g ↔ i ∈ taken := by
      refine ⟨fun h => ?_, List.mem_map_of_mem⟩
      obtain ⟨j, hj, hij⟩ := List.mem_map.1 h
      obtain rfl : i = j := hg (x, i) (List.mem_cons_self ..) j hj hij.symm
      exact hj
    simp only [List.map_cons, Prod.map_apply, id_eq, claimFrom, decide_eq_true_eq, Bool.or_eq_true,
      htaken]
    split_ifs
    · exact ih hrest
    · rfl
    · rfl
    · exact ih hrest

theorem claimsOn_relabel (g : Nat → Nat) (S : Nat → Prop) (hl : ∀ p ∈ l, S p.2)
    (htaken : ∀ j ∈ taken, S j) (hg : ∀ i j, S i → S j → g i = g j → i = j) :
    claimsOn (taken.map g) (l.map (Prod.map id g)) = (claimsOn taken l).map (Prod.map g g) := by
  induction l generalizing taken with
  | nil => rfl
  | cons p rest ih =>
    obtain ⟨x, i⟩ := p
    have hrest : ∀ p ∈ rest, S p.2 := fun p hp => hl p (List.mem_cons_of_mem _ hp)
    have hfrom : claimFrom x.stamp (taken.map g) none (rest.map (Prod.map id g)) =
        (claimFrom x.stamp taken none rest).map g :=
      claimFrom_relabel g fun p hp j hj => hg p.2 j (hrest p hp) (htaken j hj)
    rw [List.map_cons]
    cases hx : x.eraser with
    | false =>
      rw [claimsOn_other hx, ← ih hrest htaken]
      exact claimsOn_other hx
    | true =>
      cases hc : claimFrom x.stamp taken none rest with
      | none =>
        rw [claimsOn_idle hx hc, ← ih hrest htaken]
        exact claimsOn_idle hx (hfrom.trans (by rw [hc]; rfl))
      | some c =>
        obtain ⟨-, y, hy, -⟩ := claimFrom_spec hc
        have htaken' : ∀ j ∈ c :: taken, S j := by
          intro j hj
          rcases List.mem_cons.1 hj with rfl | hj
          · exact hrest (y, j) hy
          · exact htaken j hj
        rw [claimsOn_eraser hx hc, List.map_cons, ← ih hrest htaken']
        exact claimsOn_eraser hx (hfrom.trans (by rw [hc]; rfl))

/-- Slots numbered in another way: the `n`-th carries the label `g n`. -/
theorem exists_numbering (hl : (l.map (·.2)).Nodup) :
    ∃ g : Nat → Nat, (l.map (·.1)).zipIdx.map (Prod.map id g) = l ∧
      ∀ i j, i < l.length → j < l.length → g i = g j → i = j := by
  refine ⟨fun n => ((l.map (·.2))[n]?).getD 0, List.ext_getElem (by simp) fun n hn hn' => ?_, ?_⟩
  · simp [List.getElem?_eq_getElem hn']
  · intro i j hi hj hij
    simp only [List.getElem?_map, List.getElem?_eq_getElem hi, List.getElem?_eq_getElem hj,
      Option.map_some, Option.getD_some] at hij
    rw [← List.length_map (·.2)] at hi hj
    have heq : (l.map (·.2))[i] = (l.map (·.2))[j] := by simpa using hij
    exact hl.getElem_inj_iff.1 heq

/-! ## Blanks in step with the claims -/

/-- A blank is hidden exactly when an eraser claims it. -/
def SyncedOn (l : List (Slot × Nat)) : Prop :=
  ∀ p ∈ l, Claimable p.1 → (p.1.hidden = true ↔ p.2 ∈ (claimsOn [] l).map (·.2))

/-- A blank is hidden exactly when an eraser claims it. -/
def Synced (xs : List Slot) : Prop := SyncedOn xs.zipIdx

/-- Blanks in step with the claims stay so under another numbering. -/
theorem SyncedOn.synced (h : SyncedOn l) (hl : (l.map (·.2)).Nodup) : Synced (l.map (·.1)) := by
  obtain ⟨g, hg, hinj⟩ := exists_numbering hl
  have hlabel : ∀ p ∈ (l.map (·.1)).zipIdx, p.2 < l.length := by
    rintro ⟨x, i⟩ hp
    simpa using (List.mem_zipIdx' hp).1
  have hclaims : claimsOn [] l = (claimsOn [] (l.map (·.1)).zipIdx).map (Prod.map g g) := by
    conv_lhs => rw [← hg]
    exact claimsOn_relabel g (· < l.length) hlabel (fun j hj => absurd hj List.not_mem_nil) hinj
  rintro ⟨x, i⟩ hp hx
  have hmem : (x, g i) ∈ l := by
    rw [← hg]
    exact List.mem_map_of_mem (f := Prod.map id g) hp
  rw [h (x, g i) hmem hx, hclaims, List.map_map]
  constructor
  · intro hi
    obtain ⟨⟨e, b⟩, heb, hb⟩ := List.mem_map.1 hi
    obtain ⟨-, -, y, hy, -⟩ := mem_claimsOn heb
    exact List.mem_map.2 ⟨(e, b), heb, hinj b i (hlabel _ hy) (hlabel _ hp) hb⟩
  · intro hi
    obtain ⟨⟨e, b⟩, heb, rfl⟩ := List.mem_map.1 hi
    exact List.mem_map.2 ⟨(e, b), heb, rfl⟩

/-- Hiding and showing blanks changes no claim. -/
theorem claimFrom_congr (f : Slot × Nat → Slot)
    (hf : ∀ p ∈ l, (f p).eraser = p.1.eraser ∧ (f p).stamp = p.1.stamp ∧
      (f p).isBlank = p.1.isBlank ∧ (p.1.isBlank = false → (f p).hidden = p.1.hidden)) :
    claimFrom mine taken oldest (l.map fun p => (f p, p.2)) = claimFrom mine taken oldest l := by
  induction l generalizing oldest with
  | nil => rfl
  | cons p rest ih =>
    obtain ⟨heraser, hstamp, hblank, hhidden⟩ := hf p (List.mem_cons_self ..)
    have ih' : ∀ o, claimFrom mine taken o (rest.map fun p => (f p, p.2)) =
        claimFrom mine taken o rest := fun _ => ih fun q hq => hf q (List.mem_cons_of_mem _ hq)
    have htask : ((f p).hidden && !p.1.isBlank) = (p.1.hidden && !p.1.isBlank) := by
      cases hp : p.1.isBlank with
      | true => simp
      | false => simp [hhidden hp]
    simp only [List.map_cons, claimFrom, heraser, hstamp, hblank, htask, ih']

theorem claimsOn_congr (f : Slot × Nat → Slot)
    (hf : ∀ p ∈ l, (f p).eraser = p.1.eraser ∧ (f p).stamp = p.1.stamp ∧
      (f p).isBlank = p.1.isBlank ∧ (p.1.isBlank = false → (f p).hidden = p.1.hidden)) :
    claimsOn taken (l.map fun p => (f p, p.2)) = claimsOn taken l := by
  induction l generalizing taken with
  | nil => rfl
  | cons p rest ih =>
    obtain ⟨heraser, hstamp, -, -⟩ := hf p (List.mem_cons_self ..)
    have hrest : ∀ q ∈ rest, _ := fun q hq => hf q (List.mem_cons_of_mem _ hq)
    have ih' : ∀ t, claimsOn t (rest.map fun p => (f p, p.2)) = claimsOn t rest := fun _ => ih hrest
    simp only [List.map_cons, claimsOn, heraser, hstamp, claimFrom_congr f hrest, ih']

/-! ## Settling -/

theorem zipIdx_map_zipIdx (f : Slot × Nat → Slot) (xs : List Slot) :
    (xs.zipIdx.map f).zipIdx = xs.zipIdx.map fun p => (f p, p.2) :=
  List.ext_getElem (by simp) fun n _ _ => by simp

theorem settleBlank_spec (claimed : List Nat) (p : Slot × Nat) :
    (settleBlank claimed p).eraser = p.1.eraser ∧ (settleBlank claimed p).stamp = p.1.stamp ∧
      (settleBlank claimed p).isBlank = p.1.isBlank ∧
      (p.1.isBlank = false → (settleBlank claimed p).hidden = p.1.hidden) := by
  unfold settleBlank
  split_ifs with h
  · exact ⟨rfl, rfl, rfl, fun hp => by simp [hp] at h⟩
  · exact ⟨rfl, rfl, rfl, fun _ => rfl⟩

theorem settleBlank_claimable {claimed : List Nat} {p : Slot × Nat} (h : Claimable p.1) :
    settleBlank claimed p = p.1.withHidden (decide (p.2 ∈ claimed)) :=
  if_pos (by simp [h.1, h.2])

/-- Settling brings the blanks in step with the claims. -/
theorem synced_settleErasers (h : xs.any Slot.eraser = true ∨ Synced xs) :
    Synced (settleErasers xs) := by
  unfold settleErasers
  split_ifs with herase
  · unfold Synced
    rw [zipIdx_map_zipIdx]
    rintro q hq hx
    obtain ⟨p, hp, rfl⟩ := List.mem_map.1 hq
    obtain ⟨heraser, -, hblank, -⟩ := settleBlank_spec ((claims xs).map (·.2)) p
    have hp' : Claimable p.1 := ⟨hblank ▸ hx.1, heraser ▸ hx.2⟩
    rw [claimsOn_congr (settleBlank ((claims xs).map (·.2))) fun q _ => settleBlank_spec _ q,
      ← claims_eq_claimsOn]
    show (settleBlank ((claims xs).map (·.2)) p).hidden = true ↔ _
    rw [settleBlank_claimable hp']
    exact decide_eq_true_iff
  · exact h.resolve_left herase

/-- Settling leaves blanks in step with the claims alone. -/
theorem Synced.settleErasers (h : Synced xs) : Slots.settleErasers xs = xs := by
  unfold Slots.settleErasers
  split_ifs with herase
  · conv_rhs => rw [← List.zipIdx_map_fst 0 xs]
    refine List.map_congr_left fun p hp => ?_
    unfold settleBlank
    split_ifs with hx
    · have hc : Claimable p.1 := by simpa [Claimable] using hx
      have hhidden : decide (p.2 ∈ (claims xs).map (·.2)) = p.1.hidden := by
        rw [claims_eq_claimsOn, Bool.eq_iff_iff, decide_eq_true_iff]
        exact (h p hp hc).symm
      rw [hhidden]
      rfl
    · rfl
  · rfl

/-! ## A blank in front of the erasers -/

theorem zipIdx_label {xs : List Slot} {k : Nat} {p : Slot × Nat} (hp : p ∈ xs.zipIdx k) :
    k ≤ p.2 ∧ p.2 < k + xs.length := by
  obtain ⟨x, i⟩ := p
  have h := List.mem_zipIdx hp
  exact ⟨h.1, h.2.1⟩

/-- A shown blank put where no eraser precedes it changes no claim. -/
theorem Synced.insert_blank {front back : List Slot} (h : Synced (front ++ back))
    (hfront : ∀ x ∈ front, x.eraser = false) {b : Slot} (hhidden : b.hidden = false)
    (heraser : b.eraser = false) : Synced (front ++ b :: back) := by
  let n := front.length + back.length
  let l := front.zipIdx ++ (b, n) :: back.zipIdx front.length
  have hsplit : (front ++ back).zipIdx = front.zipIdx ++ back.zipIdx front.length := by
    rw [List.zipIdx_append, Nat.zero_add]
  have hfront' : ∀ p ∈ front.zipIdx, p.1.eraser = false := fun p hp =>
    hfront _ ((List.mem_zipIdx' hp).2 ▸ List.getElem_mem _)
  have hclaims : claimsOn [] l = claimsOn [] (front ++ back).zipIdx := by
    rw [hsplit, claimsOn_append hfront', claimsOn_append hfront', claimsOn_other heraser]
  have hlabels : (l.map (·.2)).Nodup := by
    have hperm : (l.map (·.2)).Perm (n :: (front ++ back).zipIdx.map (·.2)) := by
      rw [hsplit, List.map_append, List.map_append, List.map_cons]
      exact List.perm_middle
    rw [hperm.nodup_iff, List.nodup_cons]
    refine ⟨fun hn => ?_, by rw [List.zipIdx_map_snd]; exact List.nodup_range' ..⟩
    obtain ⟨p, hp, hpn⟩ := List.mem_map.1 hn
    have hlt := (zipIdx_label hp).2
    simp only [List.length_append, Nat.zero_add, n] at hlt hpn
    omega
  have hsynced : SyncedOn l := by
    intro p hp hx
    rw [hclaims]
    rcases List.mem_append.1 hp with hp | hp
    · exact h p (by rw [hsplit]; exact List.mem_append_left _ hp) hx
    · rcases List.mem_cons.1 hp with rfl | hp
      · refine iff_of_false (by simp [hhidden]) fun hn => ?_
        obtain ⟨⟨e, c⟩, hc, rfl⟩ := List.mem_map.1 hn
        obtain ⟨-, -, y, hy, -⟩ := mem_claimsOn hc
        have hlt := (zipIdx_label hy).2
        simp only [List.length_append, Nat.zero_add, n] at hlt
        omega
      · exact h p (by rw [hsplit]; exact List.mem_append_right _ hp) hx
  have hmap : l.map (·.1) = front ++ b :: back := by
    simp only [l, List.map_append, List.map_cons, List.zipIdx_map_fst]
  exact hmap ▸ hsynced.synced hlabels

/-! ## Erasers in front of a shown blank -/

theorem claimFrom_isSome {mid post : List (Slot × Nat)} {v : Slot} {i : Nat} (hv : Claimable v)
    (hstamp : v.stamp ≤ mine) (hi : i ∉ taken)
    (hmid : ∀ p ∈ mid, p.1.isBlank = true ∨ p.1.hidden = true) :
    ∃ b, claimFrom mine taken none (mid ++ (v, i) :: post) = some b := by
  induction mid with
  | nil =>
    refine ⟨i, ?_⟩
    rw [List.nil_append, claimFrom, if_neg (by simp [hv.1, hv.2, hi, hstamp]), if_pos hv.1]
    rfl
  | cons p mid ih =>
    obtain ⟨x, j⟩ := p
    rw [List.cons_append, claimFrom]
    split_ifs with hpass hblank
    · exact ih fun q hq => hmid q (List.mem_cons_of_mem _ hq)
    · exact ⟨j, rfl⟩
    · next hall => exact absurd rfl hall
    · exfalso
      have hhidden : x.hidden = true :=
        (hmid (x, j) (List.mem_cons_self ..)).resolve_left hblank
      exact hpass (by simp [hhidden, hblank])

/-- An eraser claims a blank when a blank not newer than it stays unclaimed after it, with no shown task in
between. -/
theorem claimsOn_front {pre mid post : List (Slot × Nat)} {x v : Slot} {e i : Nat}
    (hx : x.eraser = true) (hv : Claimable v) (hstamp : v.stamp ≤ x.stamp) (hi : i ∉ taken)
    (hmid : ∀ p ∈ mid, p.1.isBlank = true ∨ p.1.hidden = true)
    (hfree : i ∉ (claimsOn taken (pre ++ (x, e) :: (mid ++ (v, i) :: post))).map (·.2)) :
    ∃ b, (e, b) ∈ claimsOn taken (pre ++ (x, e) :: (mid ++ (v, i) :: post)) := by
  induction pre generalizing taken with
  | nil =>
    obtain ⟨b, hb⟩ : ∃ b, claimFrom x.stamp taken none (mid ++ (v, i) :: post) = some b :=
      claimFrom_isSome hv hstamp hi hmid
    rw [List.nil_append, claimsOn_eraser hx hb]
    exact ⟨b, List.mem_cons_self ..⟩
  | cons p pre ih =>
    obtain ⟨y, k⟩ := p
    rw [List.cons_append] at hfree ⊢
    cases hy : y.eraser with
    | false =>
      rw [claimsOn_other hy] at hfree ⊢
      exact ih hi hfree
    | true =>
      cases hc : claimFrom y.stamp taken none (pre ++ (x, e) :: (mid ++ (v, i) :: post)) with
      | none =>
        rw [claimsOn_idle hy hc] at hfree ⊢
        exact ih hi hfree
      | some c =>
        rw [claimsOn_eraser hy hc] at hfree ⊢
        rw [List.map_cons, List.mem_cons, not_or] at hfree
        have hi' : i ∉ c :: taken := by simpa using ⟨hfree.1, hi⟩
        obtain ⟨b, hb⟩ := ih hi' hfree.2
        exact ⟨b, List.mem_cons_of_mem _ hb⟩

/-! ## Dropping blanks with their erasers -/

theorem claimFrom_agree {taken' : List Nat} (h : ∀ p ∈ l, p.2 ∈ taken ↔ p.2 ∈ taken') :
    claimFrom mine taken' oldest l = claimFrom mine taken oldest l := by
  induction l generalizing oldest with
  | nil => rfl
  | cons p rest ih =>
    have ih' : ∀ o, claimFrom mine taken' o rest = claimFrom mine taken o rest :=
      fun _ => ih fun q hq => h q (List.mem_cons_of_mem _ hq)
    simp only [claimFrom, h p (List.mem_cons_self ..), ih']

theorem claimsOn_agree {taken' : List Nat} (h : ∀ p ∈ l, p.2 ∈ taken ↔ p.2 ∈ taken') :
    claimsOn taken' l = claimsOn taken l := by
  induction l generalizing taken taken' with
  | nil => rfl
  | cons p rest ih =>
    obtain ⟨x, i⟩ := p
    have hrest : ∀ q ∈ rest, q.2 ∈ taken ↔ q.2 ∈ taken' :=
      fun q hq => h q (List.mem_cons_of_mem _ hq)
    have hfrom : claimFrom x.stamp taken' none rest = claimFrom x.stamp taken none rest :=
      claimFrom_agree hrest
    cases hx : x.eraser with
    | false => rw [claimsOn_other hx, claimsOn_other hx, ih hrest]
    | true =>
      cases hc : claimFrom x.stamp taken none rest with
      | none => rw [claimsOn_idle hx hc, claimsOn_idle hx (hfrom.trans hc), ih hrest]
      | some c =>
        rw [claimsOn_eraser hx hc, claimsOn_eraser hx (hfrom.trans hc), ih fun q hq => ?_]
        rw [List.mem_cons, List.mem_cons, hrest q hq]

section Drop

variable {D taken' : List Nat} {run back : List (Slot × Nat)}

/-- The items of `run` not in `D`. -/
def keptOf (D : List Nat) (run : List (Slot × Nat)) : List (Slot × Nat) :=
  run.filter fun p => p.2 ∉ D

theorem keptOf_cons_of_mem {p : Slot × Nat} (h : p.2 ∈ D) : keptOf D (p :: run) = keptOf D run :=
  List.filter_cons_of_neg (by simpa using h)

theorem keptOf_cons_of_not_mem {p : Slot × Nat} (h : p.2 ∉ D) :
    keptOf D (p :: run) = p :: keptOf D run :=
  List.filter_cons_of_pos (by simpa using h)

/-- An eraser whose claim stays makes the same claim once blanks of the run of its stamp it looks over are
dropped. -/
theorem claimFrom_keptOf (hrun : ∀ p ∈ run, p.1.isBlank = true ∧ p.1.stamp = mine)
    (hback : ∀ p ∈ back, p.2 ∉ D) (hagree : ∀ i, i ∉ D → (i ∈ taken ↔ i ∈ taken'))
    (hclaim : ∀ b, claimFrom mine taken none (run ++ back) = some b → b ∉ D) :
    claimFrom mine taken' none (keptOf D run ++ back) = claimFrom mine taken none (run ++ back) := by
  induction run with
  | nil => exact claimFrom_agree fun p hp => hagree p.2 (hback p hp)
  | cons p run ih =>
    obtain ⟨x, i⟩ := p
    obtain ⟨hblank, hstamp⟩ := hrun (x, i) (List.mem_cons_self ..)
    have hrun' : ∀ p ∈ run, _ := fun q hq => hrun q (List.mem_cons_of_mem _ hq)
    by_cases hpass : x.eraser = true ∨ i ∈ taken
    · have hskip : claimFrom mine taken none ((x, i) :: run ++ back) =
          claimFrom mine taken none (run ++ back) := by
        rw [List.cons_append, claimFrom, if_pos (by rcases hpass with h | h <;> simp [h])]
      rw [hskip] at hclaim ⊢
      by_cases hi : i ∈ D
      · rw [keptOf_cons_of_mem hi]
        exact ih hrun' hclaim
      · rw [keptOf_cons_of_not_mem hi, List.cons_append, claimFrom,
          if_pos (by rcases hpass with h | h <;> simp [h, ← hagree i hi])]
        exact ih hrun' hclaim
    · rw [not_or] at hpass
      have hstop : ∀ t l, i ∉ t → claimFrom mine t none ((x, i) :: l) = some i := by
        intro t l hi
        have hnewer : ¬mine < x.stamp := hstamp ▸ lt_irrefl _
        rw [claimFrom, if_neg (by simp [hpass.1, hblank, hi, hnewer]), if_pos hblank]
        rfl
      have hi : i ∉ D := hclaim i (hstop _ _ hpass.2)
      rw [keptOf_cons_of_not_mem hi]
      exact (hstop _ _ ((hagree i hi).not.1 hpass.2)).trans (hstop _ _ hpass.2).symm

/-- Dropping erasers of a run of one stamp together with the blanks they claim there leaves the other
claims. -/
theorem claimsOn_keptOf (hrun : ∀ p ∈ run, p.1.isBlank = true ∧ p.1.stamp = mine)
    (hback : ∀ p ∈ back, p.2 ∉ D) (hagree : ∀ i, i ∉ D → (i ∈ taken ↔ i ∈ taken'))
    (hclosed : ∀ c ∈ claimsOn taken (run ++ back), c.1 ∈ D ↔ c.2 ∈ D) {i : Nat} (hi : i ∉ D) :
    i ∈ (claimsOn taken' (keptOf D run ++ back)).map (·.2) ↔
      i ∈ (claimsOn taken (run ++ back)).map (·.2) := by
  induction run generalizing taken taken' with
  | nil =>
    have hagree' : ∀ p ∈ back, p.2 ∈ taken ↔ p.2 ∈ taken' := fun p hp => hagree p.2 (hback p hp)
    rw [show keptOf D [] = [] from rfl, List.nil_append, claimsOn_agree hagree']
  | cons p run ih =>
    obtain ⟨x, e⟩ := p
    obtain ⟨-, hstamp⟩ := hrun (x, e) (List.mem_cons_self ..)
    have hrun' : ∀ p ∈ run, _ := fun q hq => hrun q (List.mem_cons_of_mem _ hq)
    rw [List.cons_append] at hclosed ⊢
    cases hx : x.eraser with
    | false =>
      rw [claimsOn_other hx] at hclosed ⊢
      by_cases he : e ∈ D
      · rw [keptOf_cons_of_mem he]
        exact ih hrun' hagree hclosed
      · rw [keptOf_cons_of_not_mem he, List.cons_append, claimsOn_other hx]
        exact ih hrun' hagree hclosed
    | true =>
      cases hc : claimFrom x.stamp taken none (run ++ back) with
      | none =>
        have hkept : claimFrom x.stamp taken' none (keptOf D run ++ back) = none := by
          rw [hstamp] at hc ⊢
          exact (claimFrom_keptOf hrun' hback hagree (by simp [hc])).trans hc
        rw [claimsOn_idle hx hc] at hclosed ⊢
        by_cases he : e ∈ D
        · rw [keptOf_cons_of_mem he]
          exact ih hrun' hagree hclosed
        · rw [keptOf_cons_of_not_mem he, List.cons_append, claimsOn_idle hx hkept]
          exact ih hrun' hagree hclosed
      | some c =>
        rw [claimsOn_eraser hx hc] at hclosed ⊢
        have hpair : e ∈ D ↔ c ∈ D := hclosed (e, c) (List.mem_cons_self ..)
        have hclosed' := fun q hq => hclosed q (List.mem_cons_of_mem _ hq)
        by_cases he : e ∈ D
        · have hagree' : ∀ j, j ∉ D → (j ∈ c :: taken ↔ j ∈ taken') := by
            intro j hj
            have hne : j ≠ c := fun h => hj (h ▸ hpair.1 he)
            rw [List.mem_cons, or_iff_right hne, hagree j hj]
          have hne : i ≠ c := fun h => hi (h ▸ hpair.1 he)
          rw [keptOf_cons_of_mem he, List.map_cons, List.mem_cons, or_iff_right hne]
          exact ih hrun' hagree' hclosed'
        · have hkept : claimFrom x.stamp taken' none (keptOf D run ++ back) = some c := by
            rw [hstamp] at hc ⊢
            refine (claimFrom_keptOf hrun' hback hagree fun b hb => ?_).trans hc
            obtain rfl : b = c := Option.some.inj (hb.symm.trans hc)
            exact hpair.not.1 he
          have hagree' : ∀ j, j ∉ D → (j ∈ c :: taken ↔ j ∈ c :: taken') := by
            intro j hj
            rw [List.mem_cons, List.mem_cons, hagree j hj]
          rw [keptOf_cons_of_not_mem he, List.cons_append, claimsOn_eraser hx hkept, List.map_cons,
            List.map_cons, List.mem_cons, List.mem_cons, ih hrun' hagree' hclosed']

end Drop

/-- Blanks stay in step with the claims when, after slots without erasers, erasers of a run of one stamp
are dropped together with the blanks they claim there. -/
theorem Synced.removeAt {front run back : List Slot} {D : List Nat}
    (h : Synced (front ++ (run ++ back))) (hfront : ∀ x ∈ front, x.eraser = false)
    (hrun : ∀ x ∈ run, x.isBlank = true ∧ x.stamp = mine)
    (hD : ∀ i ∈ D, front.length ≤ i ∧ i < front.length + run.length)
    (hclosed : ∀ c ∈ claims (front ++ (run ++ back)), c.1 ∈ D ↔ c.2 ∈ D) :
    Synced (removeAt D (front ++ (run ++ back))) := by
  let n := front.length
  let m := front.length + run.length
  have hsplit : (front ++ (run ++ back)).zipIdx =
      front.zipIdx ++ (run.zipIdx n ++ back.zipIdx m) := by
    rw [List.zipIdx_append, List.zipIdx_append, Nat.zero_add]
  have hback : ∀ p ∈ back.zipIdx m, p.2 ∉ D := fun p hp hmem =>
    absurd (hD _ hmem).2 (not_lt.2 (zipIdx_label hp).1)
  have hfront' : ∀ p ∈ front.zipIdx, p.2 ∉ D := fun p hp hmem => by
    have hlt := (zipIdx_label hp).2
    have hle := (hD _ hmem).1
    omega
  have hidle : ∀ p ∈ front.zipIdx, p.1.eraser = false := fun p hp =>
    hfront _ ((List.mem_zipIdx' hp).2 ▸ List.getElem_mem _)
  have hrun' : ∀ p ∈ run.zipIdx n, p.1.isBlank = true ∧ p.1.stamp = mine := by
    rintro ⟨x, i⟩ hp
    exact hrun x ((List.mem_zipIdx hp).2.2 ▸ List.getElem_mem _)
  have hkeep : (front ++ (run ++ back)).zipIdx.filter (fun p => p.2 ∉ D) =
      front.zipIdx ++ (keptOf D (run.zipIdx n) ++ back.zipIdx m) := by
    have hkeepFront : front.zipIdx.filter (fun p => p.2 ∉ D) = front.zipIdx :=
      List.filter_eq_self.2 fun p hp => by simpa using hfront' p hp
    have hkeepBack : (back.zipIdx m).filter (fun p => p.2 ∉ D) = back.zipIdx m :=
      List.filter_eq_self.2 fun p hp => by simpa using hback p hp
    rw [hsplit, List.filter_append, List.filter_append, hkeepFront, hkeepBack, keptOf]
  have hclosed' : ∀ c ∈ claimsOn [] (run.zipIdx n ++ back.zipIdx m), c.1 ∈ D ↔ c.2 ∈ D := by
    rw [claims_eq_claimsOn, hsplit, claimsOn_append hidle] at hclosed
    exact hclosed
  have hclaims : ∀ i, i ∉ D → (i ∈ (claimsOn [] ((front ++ (run ++ back)).zipIdx.filter
      fun p => p.2 ∉ D)).map (·.2) ↔ i ∈ (claimsOn [] (front ++ (run ++ back)).zipIdx).map (·.2)) := by
    intro i hi
    rw [hkeep, hsplit, claimsOn_append hidle, claimsOn_append hidle]
    exact claimsOn_keptOf hrun' hback (fun _ _ => Iff.rfl) hclosed' hi
  have hsynced : SyncedOn ((front ++ (run ++ back)).zipIdx.filter fun p => p.2 ∉ D) := by
    intro p hp hx
    obtain ⟨hp, hkept⟩ := List.mem_filter.1 hp
    rw [hclaims p.2 (by simpa using hkept)]
    exact h p hp hx
  refine hsynced.synced ?_
  have hnodup : ((front ++ (run ++ back)).zipIdx.map (·.2)).Nodup := by
    rw [List.zipIdx_map_snd]
    exact List.nodup_range' ..
  exact hnodup.sublist (List.filter_sublist.map _)

end Slots

end Txtodo
