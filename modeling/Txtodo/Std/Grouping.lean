import Mathlib.Data.List.Pairwise
import Mathlib.Data.List.Sort
import Mathlib.Data.List.Perm.Lattice
import Mathlib.Data.List.Induction

/-!
# Grouping and stable sorting

Places of a list grouped by a key: every place is in the one group of its key. A stable sort by rank keeps the
order of places of one rank, so it gives another order exactly where the ranks decide as that order does.
-/

namespace Grouping

variable {κ : Type*} [DecidableEq κ] {keys : List κ} {groups : List (κ × List Nat)} {k name : κ} {i : Nat}
  {members : List Nat}

/-- The place joins the group of its key, or starts one. -/
def add (name : κ) (i : Nat) : List (κ × List Nat) → List (κ × List Nat)
  | [] => [(name, [i])]
  | g :: groups => if g.1 = name then (g.1, g.2 ++ [i]) :: groups else g :: add name i groups

/-- The places of a list's keys by key, first come first. -/
def collect (keys : List κ) : List (κ × List Nat) :=
  keys.zipIdx.foldl (fun groups key => add key.1 key.2 groups) []

theorem collect_concat (keys : List κ) (k : κ) : collect (keys ++ [k]) = add k keys.length (collect keys) := by
  rw [collect, List.zipIdx_append, List.foldl_append, Nat.zero_add]
  rfl

theorem perm_add (name : κ) (i : Nat) (groups : List (κ × List Nat)) :
    ((add name i groups).map (·.2)).flatten.Perm (i :: (groups.map (·.2)).flatten) := by
  induction groups with
  | nil => exact List.Perm.refl _
  | cons g groups ih =>
    unfold add
    split_ifs with hname
    · rw [List.map_cons, List.map_cons, List.flatten_cons, List.flatten_cons, List.append_assoc]
      exact List.perm_middle
    · rw [List.map_cons, List.map_cons, List.flatten_cons, List.flatten_cons]
      exact (ih.append_left g.2).trans List.perm_middle

theorem keys_add (name : κ) (i : Nat) (groups : List (κ × List Nat)) :
    (add name i groups).map (·.1) =
      if name ∈ groups.map (·.1) then groups.map (·.1) else groups.map (·.1) ++ [name] := by
  induction groups with
  | nil => rfl
  | cons g groups ih =>
    unfold add
    by_cases hname : g.1 = name
    · rw [if_pos hname, if_pos (by rw [← hname]; exact List.mem_cons_self)]
      rfl
    · have hmem : name ∈ (g :: groups).map (·.1) ↔ name ∈ groups.map (·.1) := by
        rw [List.map_cons, List.mem_cons, or_iff_right (Ne.symm hname)]
      rw [if_neg hname, List.map_cons, ih, if_congr hmem rfl rfl]
      split_ifs
      · rfl
      · rfl

theorem mem_add (h : (k, members) ∈ add name i groups) (hnodup : (groups.map (·.1)).Nodup) :
    (k ≠ name ∧ (k, members) ∈ groups) ∨
      k = name ∧ ((∃ old, (k, old) ∈ groups ∧ members = old ++ [i]) ∨ (name ∉ groups.map (·.1) ∧ members = [i])) := by
  induction groups with
  | nil =>
    obtain ⟨rfl, rfl⟩ := Prod.mk.inj (List.mem_singleton.1 h)
    exact .inr ⟨rfl, .inr ⟨List.not_mem_nil, rfl⟩⟩
  | cons g groups ih =>
    rw [List.map_cons, List.nodup_cons] at hnodup
    unfold add at h
    split_ifs at h with hname
    · rcases List.mem_cons.1 h with heq | hmem
      · obtain ⟨rfl, rfl⟩ := Prod.mk.inj heq
        exact .inr ⟨hname, .inl ⟨g.2, List.mem_cons_self, rfl⟩⟩
      · refine .inl ⟨fun hk => hnodup.1 ?_, List.mem_cons_of_mem _ hmem⟩
        rw [hname, ← hk]
        exact List.mem_map_of_mem (f := (·.1)) hmem
    · rcases List.mem_cons.1 h with rfl | hmem
      · exact .inl ⟨hname, List.mem_cons_self⟩
      · rcases ih hmem hnodup.2 with ⟨hk, hold⟩ | ⟨hk, ⟨old, hold, hmembers⟩ | ⟨hnew, hmembers⟩⟩
        · exact .inl ⟨hk, List.mem_cons_of_mem _ hold⟩
        · exact .inr ⟨hk, .inl ⟨old, List.mem_cons_of_mem _ hold, hmembers⟩⟩
        · refine .inr ⟨hk, .inr ⟨fun hold => ?_, hmembers⟩⟩
          rcases List.mem_cons.1 hold with heq | hold
          · exact hname heq.symm
          · exact hnew hold

/-- What the groups of some keys are. -/
structure Groups (keys : List κ) (groups : List (κ × List Nat)) : Prop where
  nodup : (groups.map (·.1)).Nodup
  perm : (groups.map (·.2)).flatten.Perm (List.range keys.length)
  keys : ∀ k members, (k, members) ∈ groups → ∀ i ∈ members, keys[i]? = some k
  increasing : ∀ k members, (k, members) ∈ groups → members.Pairwise (· < ·)

theorem groups_collect (keys : List κ) : Groups keys (collect keys) := by
  induction keys using List.reverseRecOn with
  | nil => exact ⟨List.nodup_nil, List.Perm.refl _, fun _ _ h => (nomatch h), fun _ _ h => (nomatch h)⟩
  | append_singleton keys k ih =>
    obtain ⟨hnodup, hperm, hkeys, hincreasing⟩ := ih
    have hlt : ∀ k members, (k, members) ∈ collect keys → ∀ i ∈ members, i < keys.length := fun k members h i hi =>
      (List.getElem?_eq_some_iff.1 (hkeys k members h i hi)).1
    rw [collect_concat]
    refine ⟨?_, ?_, fun k' members h i hi => ?_, fun k' members h => ?_⟩
    · rw [keys_add]
      split_ifs with hold
      · exact hnodup
      · exact List.nodup_append.2 ⟨hnodup, List.nodup_singleton _, fun a ha b hb heq =>
          hold (by rw [← List.mem_singleton.1 hb, ← heq]; exact ha)⟩
    · rw [List.length_append, List.length_singleton, List.range_succ]
      exact (perm_add _ _ _).trans ((hperm.cons _).trans (List.perm_append_singleton _ _).symm)
    · rcases mem_add h hnodup with ⟨-, hold⟩ | ⟨rfl, ⟨old, hold, rfl⟩ | ⟨-, rfl⟩⟩
      · rw [List.getElem?_append_left (hlt k' members hold i hi)]
        exact hkeys k' members hold i hi
      · rcases List.mem_append.1 hi with hi | hi
        · rw [List.getElem?_append_left (hlt k' old hold i hi)]
          exact hkeys k' old hold i hi
        · rw [List.mem_singleton.1 hi]
          exact List.getElem?_concat_length
      · rw [List.mem_singleton.1 hi]
        exact List.getElem?_concat_length
    · rcases mem_add h hnodup with ⟨-, hold⟩ | ⟨rfl, ⟨old, hold, rfl⟩ | ⟨-, rfl⟩⟩
      · exact hincreasing k' members hold
      · refine List.pairwise_append.2 ⟨hincreasing k' old hold, List.pairwise_singleton _ _, fun i hi j hj => ?_⟩
        rw [List.mem_singleton.1 hj]
        exact hlt k' old hold i hi
      · exact List.pairwise_singleton _ _

/-! ## Stable sorting -/

section Stable
variable {ρ : Type*} [LinearOrder ρ] {rank : Nat → ρ} {l : List Nat}

/-- One place before another by rank, and by place where the ranks are equal. -/
def Before (rank : Nat → ρ) (i j : Nat) : Prop := rank i < rank j ∨ rank i = rank j ∧ i < j

theorem Before.asymm {j : Nat} (h : Before rank i j) : ¬Before rank j i := by
  rintro (hlt | ⟨heq, hlt⟩)
  · rcases h with hlt' | ⟨heq, -⟩
    · exact lt_asymm hlt hlt'
    · exact hlt.ne' heq
  · rcases h with hlt' | ⟨-, hlt'⟩
    · exact hlt'.ne' heq
    · omega

theorem pairwise_orderedInsert (h : l.Pairwise (Before rank)) (hlt : ∀ j ∈ l, i < j) :
    (l.orderedInsert (fun a b => rank a ≤ rank b) i).Pairwise (Before rank) := by
  induction l with
  | nil => exact List.pairwise_singleton _ _
  | cons j l ih =>
    obtain ⟨hj, hl⟩ := List.pairwise_cons.1 h
    rw [List.orderedInsert_cons]
    split_ifs with hle
    · have hfirst : Before rank i j := hle.lt_or_eq.imp_right fun heq => ⟨heq, hlt j List.mem_cons_self⟩
      refine List.pairwise_cons.2 ⟨fun b hb => ?_, h⟩
      rcases List.mem_cons.1 hb with rfl | hb
      · exact hfirst
      · have hjb : rank j ≤ rank b := (hj b hb).elim le_of_lt fun heq => heq.1.le
        exact (hle.trans hjb).lt_or_eq.imp_right fun heq => ⟨heq, hlt b (List.mem_cons_of_mem _ hb)⟩
    · refine List.pairwise_cons.2 ⟨fun b hb => ?_, ih hl fun b hb => hlt b (List.mem_cons_of_mem _ hb)⟩
      rcases (List.mem_orderedInsert _).1 hb with rfl | hb
      · exact .inl (not_le.1 hle)
      · exact hj b hb

/-- Places in order stay in order where their ranks are equal. -/
theorem pairwise_insertionSort (rank : Nat → ρ) (h : l.Pairwise (· < ·)) :
    (l.insertionSort fun a b => rank a ≤ rank b).Pairwise (Before rank) := by
  induction l with
  | nil => exact List.Pairwise.nil
  | cons i l ih =>
    obtain ⟨hi, hl⟩ := List.pairwise_cons.1 h
    exact pairwise_orderedInsert (ih hl) fun j hj => hi j ((List.mem_insertionSort _).1 hj)

/-- A list in one total order is in another exactly when the one decides as the other does. -/
theorem pairwise_iff {R P : Nat → Nat → Prop} (hR : l.Pairwise R) (hRasymm : ∀ i j, R i j → ¬R j i)
    (hPasymm : ∀ i j, P i j → ¬P j i) (hPtotal : ∀ i ∈ l, ∀ j ∈ l, i ≠ j → P i j ∨ P j i) :
    l.Pairwise P ↔ ∀ i ∈ l, ∀ j ∈ l, P i j → R i j := by
  constructor
  · intro hP i hi j hj
    have hforward : l.Pairwise fun i j => P i j → R i j := by
      refine hR.imp ?_
      intro a b h _
      exact h
    have hback : l.Pairwise fun i j => P j i → R j i := by
      refine hP.imp ?_
      intro a b h hba
      exact absurd hba (hPasymm a b h)
    exact hforward.forall_of_forall_of_flip (fun i _ h => absurd h (hPasymm i i h)) hback hi hj
  · intro h
    refine hR.imp_of_mem fun {i j} hi hj hij => ?_
    have hne : i ≠ j := fun heq => hRasymm i j hij (heq ▸ heq ▸ hij)
    exact (hPtotal i hi j hj hne).resolve_right fun hji => hRasymm i j hij (h j hj i hi hji)

end Stable

end Grouping
