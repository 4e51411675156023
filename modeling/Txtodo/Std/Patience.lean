import Mathlib.Order.Lattice
import Mathlib.Data.List.Induction
import Mathlib.Data.List.TakeWhile
import Mathlib.Tactic.Common

/-!
# Patience sorting

Positions come one after the other, each with a value. Behind the tails of the increasing chains seen so
far, one for each length, every position links to one that a longest chain ending in it passes through.
-/

namespace Patience

variable {α : Type*} [LinearOrder α] {v : Nat → α}

/-- Positions in order whose values increase. -/
def Chain (v : Nat → α) (c : List Nat) : Prop := c.Pairwise fun i j => i < j ∧ v i < v j

/-- The number of tails below the value at `n`. -/
def pile (v : Nat → α) (tails : List Nat) (n : Nat) : Nat := (tails.takeWhile fun t => v t < v n).length

/-- What the position `n` links to. -/
def link (v : Nat → α) (tails : List Nat) (n : Nat) : Option Nat :=
  if pile v tails n = 0 then none else tails[pile v tails n - 1]?

/-- The tails once `n` has come. -/
def place (v : Nat → α) (tails : List Nat) (n : Nat) : List Nat :=
  if pile v tails n = tails.length then tails ++ [n] else tails.set (pile v tails n) n

/-- `k` links lead back from `i` to the first position of a chain. -/
inductive Ends (v : Nat → α) (prev : Nat → Option Nat) : Nat → Nat → Prop
  | first {i} : prev i = none → Ends v prev 0 i
  | next {i j k} : prev i = some j → j < i → v j < v i → Ends v prev k j → Ends v prev (k + 1) i

/-- The links of `prev` up to `i`. -/
theorem Ends.congr {prev prev' : Nat → Option Nat} {k i : Nat} (h : Ends v prev k i)
    (hsame : ∀ j ≤ i, prev' j = prev j) : Ends v prev' k i := by
  induction h with
  | first hprev => exact .first ((hsame _ le_rfl).trans hprev)
  | next hprev hlt hv _ ih =>
    exact .next ((hsame _ le_rfl).trans hprev) hlt hv (ih fun j hj => hsame j (hj.trans hlt.le))

theorem Ends.le {prev : Nat → Option Nat} {k i : Nat} (h : Ends v prev k i) : k ≤ i := by
  induction h with
  | first => exact Nat.zero_le _
  | next _ hlt _ _ ih => omega

/-- The tails and links of the first `n` positions: the tail at `k` ends a chain of `k + 1` positions, and
none that long ends in a smaller value. -/
structure Inv (v : Nat → α) (n : Nat) (tails : List Nat) (prev : Nat → Option Nat) : Prop where
  lt : ∀ t ∈ tails, t < n
  sorted : tails.Pairwise fun s t => v s < v t
  ends : ∀ k t, tails[k]? = some t → Ends v prev k t
  least : ∀ c i, Chain v (c ++ [i]) → i < n → ∃ t, tails[c.length]? = some t ∧ v t ≤ v i

theorem Inv.nil (prev : Nat → Option Nat) : Inv v 0 [] prev where
  lt := List.forall_mem_nil _
  sorted := List.Pairwise.nil
  ends _ _ h := nomatch h
  least _ _ _ h := absurd h (Nat.not_lt_zero _)

section Step
variable {tails : List Nat} {prev prev' : Nat → Option Nat} {n : Nat}

/-- The tails below the value at `n`, and the others. -/
theorem exists_split (v : Nat → α) (tails : List Nat) (n : Nat) :
    ∃ low high : List Nat, tails = low ++ high ∧ pile v tails n = low.length ∧ (∀ t ∈ low, v t < v n) ∧
      ∀ t ∈ high.head?, v n ≤ v t := by
  refine ⟨tails.takeWhile fun t => v t < v n, tails.dropWhile fun t => v t < v n,
    List.takeWhile_append_dropWhile.symm, rfl, fun t ht => ?_, fun t ht => ?_⟩
  · have hlt := List.mem_takeWhile_imp ht
    exact of_decide_eq_true hlt
  · have hhead := List.head?_dropWhile_not (fun t => decide (v t < v n)) tails
    rw [Option.mem_def.1 ht] at hhead
    exact not_lt.1 (of_decide_eq_false hhead)

theorem place_eq {low high : List Nat} (htails : tails = low ++ high) (hpile : pile v tails n = low.length) :
    place v tails n = low ++ n :: high.tail := by
  rw [place, hpile, htails]
  cases high with
  | nil => rw [List.append_nil, if_pos rfl, List.tail_nil]
  | cons t high =>
    rw [if_neg (by simp), List.set_append_right _ _ le_rfl, Nat.sub_self, List.set_cons_zero, List.tail_cons]

theorem link_eq {low high : List Nat} (htails : tails = low ++ high) (hpile : pile v tails n = low.length) :
    link v tails n = low.getLast? := by
  rw [link, hpile, htails]
  cases low using List.reverseRecOn with
  | nil => rfl
  | append_singleton low t =>
    rw [if_neg (by simp), List.getLast?_concat, List.append_assoc, List.length_append]
    simp

/-- One more position: the tails and links are those of the positions up to it. -/
theorem Inv.place (h : Inv v n tails prev) (hsame : ∀ i < n, prev' i = prev i)
    (hlink : prev' n = link v tails n) : Inv v (n + 1) (place v tails n) prev' := by
  obtain ⟨low, high, htails, hpile, hlow, hhigh⟩ := exists_split v tails n
  rw [place_eq htails hpile]
  rw [link_eq htails hpile] at hlink
  subst htails
  obtain ⟨hsortedLow, hsortedHigh, hcross⟩ := List.pairwise_append.1 h.sorted
  have hhighAll : ∀ t ∈ high, v n ≤ v t := by
    cases high with
    | nil => exact List.forall_mem_nil _
    | cons t high =>
      refine List.forall_mem_cons.2 ⟨hhigh t rfl, fun t' ht' => ?_⟩
      exact (hhigh t rfl).trans ((List.pairwise_cons.1 hsortedHigh).1 t' ht').le
  have hlt := fun t ht => h.lt t ht
  have hold : ∀ k t, (low ++ high)[k]? = some t → Ends v prev' k t := fun k t ht =>
    (h.ends k t ht).congr fun j hj => hsame j (hj.trans_lt (hlt t (List.mem_of_getElem? ht)))
  refine ⟨fun t ht => ?_, ?_, fun k t ht => ?_, fun c i hc hi => ?_⟩
  · rcases List.mem_append.1 ht with ht | ht
    · exact (hlt t (List.mem_append_left _ ht)).trans (Nat.lt_succ_self n)
    · rcases List.mem_cons.1 ht with rfl | ht
      · exact Nat.lt_succ_self _
      · exact (hlt t (List.mem_append_right _ (List.mem_of_mem_tail ht))).trans (Nat.lt_succ_self n)
  · refine List.pairwise_append.2 ⟨hsortedLow, List.pairwise_cons.2 ⟨fun t ht => ?_, hsortedHigh.tail⟩, ?_⟩
    · cases high with
      | nil => cases ht
      | cons t' high => exact (hhigh t' rfl).trans_lt ((List.pairwise_cons.1 hsortedHigh).1 t ht)
    · intro s hs t ht
      rcases List.mem_cons.1 ht with rfl | ht
      · exact hlow s hs
      · exact hcross s hs t (List.mem_of_mem_tail ht)
  · -- the tail at the pile links to the one before it, the others are as they were
    rcases Nat.lt_trichotomy k low.length with hk | rfl | hk
    · rw [List.getElem?_append_left hk] at ht
      exact hold k t (by rw [List.getElem?_append_left hk, ht])
    · rw [List.getElem?_append_right le_rfl, Nat.sub_self] at ht
      obtain rfl : n = t := Option.some.inj ht
      cases low using List.reverseRecOn with
      | nil => exact .first hlink
      | append_singleton low s =>
        rw [List.getLast?_concat] at hlink
        have hs : s ∈ low ++ [s] := List.mem_append_right _ (List.mem_singleton_self s)
        rw [List.length_append]
        refine .next hlink (hlt s (List.mem_append_left _ hs)) (hlow s hs) (hold _ s ?_)
        simp
    · obtain ⟨d, rfl⟩ := Nat.exists_eq_add_of_lt hk
      have hd : low.length + d + 1 - low.length = d + 1 := by omega
      rw [List.getElem?_append_right (by omega), hd, List.getElem?_cons_succ, List.getElem?_tail] at ht
      refine hold _ t ?_
      rw [List.getElem?_append_right (by omega), hd, ht]
  · have hget : ∀ (k t : Nat), (low ++ high)[k]? = some t →
        ∃ t', (low ++ n :: high.tail)[k]? = some t' ∧ v t' ≤ v t := by
      intro k t ht
      rcases Nat.lt_trichotomy k low.length with hk | rfl | hk
      · rw [List.getElem?_append_left hk] at ht ⊢
        exact ⟨t, ht, le_rfl⟩
      · rw [List.getElem?_append_right le_rfl, Nat.sub_self] at ht ⊢
        exact ⟨n, rfl, hhighAll t (List.mem_of_getElem? ht)⟩
      · obtain ⟨d, rfl⟩ := Nat.exists_eq_add_of_lt hk
        have hd : low.length + d + 1 - low.length = d + 1 := by omega
        rw [List.getElem?_append_right (by omega), hd] at ht ⊢
        rw [List.getElem?_cons_succ, List.getElem?_tail]
        exact ⟨t, ht, le_rfl⟩
    rcases Nat.lt_succ_iff_lt_or_eq.1 hi with hi | rfl
    · obtain ⟨t, ht, hle⟩ := h.least c i hc hi
      obtain ⟨t', ht', hle'⟩ := hget _ t ht
      exact ⟨t', ht', hle'.trans hle⟩
    · -- the chain ends in the new position: what is before it ended in a tail below it
      have hfits : ∀ k ≤ low.length, ∃ t, (low ++ i :: high.tail)[k]? = some t ∧ v t ≤ v i := by
        intro k hk
        rcases hk.lt_or_eq with hk | rfl
        · refine ⟨low[k], ?_, (hlow _ (List.getElem_mem hk)).le⟩
          rw [List.getElem?_append_left hk, List.getElem?_eq_getElem hk]
        · refine ⟨i, ?_, le_rfl⟩
          rw [List.getElem?_append_right le_rfl, Nat.sub_self, List.getElem?_cons_zero]
      cases c using List.reverseRecOn with
      | nil => exact hfits 0 (Nat.zero_le _)
      | append_singleton c j =>
        obtain ⟨hchain, -, hji⟩ := List.pairwise_append.1 hc
        obtain ⟨hj, hvj⟩ := hji j (by simp) i (List.mem_singleton_self i)
        obtain ⟨s, hs, hle⟩ := h.least c j hchain hj
        refine hfits _ ?_
        rw [List.length_append, List.length_singleton]
        by_contra hlong
        rw [List.getElem?_append_right (by omega)] at hs
        exact absurd (hle.trans_lt hvj) (not_lt.2 (hhighAll s (List.mem_of_getElem? hs)))

end Step

/-! ## The chain the links lead back along -/

/-- The positions the links lead back along from `cur`, at most `n` of them, in front of `c`. -/
def back (prev : Nat → Option Nat) : Nat → Option Nat → List Nat → List Nat
  | 0, _, c => c
  | _ + 1, none, c => c
  | n + 1, some i, c => back prev n (prev i) (i :: c)

theorem back_none (prev : Nat → Option Nat) (n : Nat) (c : List Nat) : back prev n none c = c := by
  cases n <;> rfl

theorem Chain.concat {c : List Nat} {j i : Nat} (h : Chain v (c ++ [j])) (hlt : j < i) (hv : v j < v i) :
    Chain v (c ++ [j] ++ [i]) := by
  refine List.pairwise_append.2 ⟨h, List.pairwise_singleton _ _, fun s hs t ht => ?_⟩
  obtain rfl := List.mem_singleton.1 ht
  rcases List.mem_append.1 hs with hs | hs
  · obtain ⟨hsj, hvs⟩ := (List.pairwise_append.1 h).2.2 s hs j (List.mem_singleton_self j)
    exact ⟨hsj.trans hlt, hvs.trans hv⟩
  · obtain rfl := List.mem_singleton.1 hs
    exact ⟨hlt, hv⟩

/-- Later positions of a chain have larger values. -/
theorem Chain.value_lt {c : List Nat} {i j : Nat} (h : Chain v c) (hi : i ∈ c) (hj : j ∈ c) (hlt : i < j) :
    v i < v j := by
  induction c with
  | nil => cases hi
  | cons k c ih =>
    obtain ⟨hk, hc⟩ := List.pairwise_cons.1 h
    rcases List.mem_cons.1 hi with rfl | hic
    · rcases List.mem_cons.1 hj with rfl | hjc
      · exact absurd hlt (lt_irrefl _)
      · exact (hk j hjc).2
    · rcases List.mem_cons.1 hj with rfl | hjc
      · exact absurd hlt (hk i hic).1.not_gt
      · exact ih hc hic hjc

theorem Ends.back {prev : Nat → Option Nat} {k i : Nat} (h : Ends v prev k i) {n : Nat} (hn : k < n)
    (rest : List Nat) :
    ∃ c, back prev n (some i) rest = c ++ i :: rest ∧ c.length = k ∧ Chain v (c ++ [i]) := by
  induction h generalizing n rest with
  | first hprev =>
    obtain ⟨n, rfl⟩ := Nat.exists_eq_add_one_of_ne_zero (Nat.ne_zero_of_lt hn)
    exact ⟨[], by rw [Patience.back, hprev, back_none, List.nil_append], rfl, List.pairwise_singleton _ _⟩
  | @next i j k hprev hlt hv _ ih =>
    obtain ⟨n, rfl⟩ := Nat.exists_eq_add_one_of_ne_zero (Nat.ne_zero_of_lt hn)
    obtain ⟨c, hback, hlen, hchain⟩ := ih (Nat.lt_of_succ_lt_succ hn) (i :: rest)
    refine ⟨c ++ [j], ?_, by rw [List.length_append, hlen, List.length_singleton], hchain.concat hlt hv⟩
    rw [Patience.back, hprev, hback, List.append_assoc, List.singleton_append]

/-- The chain behind the last tail is a longest one. -/
theorem Inv.longest {n : Nat} {tails : List Nat} {prev : Nat → Option Nat} (h : Inv v n tails prev) :
    Chain v (back prev n tails.getLast? []) ∧ (∀ i ∈ back prev n tails.getLast? [], i < n) ∧
      ∀ c, Chain v c → (∀ i ∈ c, i < n) → c.length ≤ (back prev n tails.getLast? []).length := by
  have hbound : ∀ c, Chain v c → (∀ i ∈ c, i < n) → c.length ≤ tails.length := by
    intro c hc hlt
    cases c using List.reverseRecOn with
    | nil => exact Nat.zero_le _
    | append_singleton c i =>
      obtain ⟨t, ht, -⟩ := h.least c i hc (hlt i (by simp))
      rw [List.length_append, List.length_singleton]
      exact (List.getElem?_eq_some_iff.1 ht).1
  cases htails : tails using List.reverseRecOn with
  | nil =>
    subst htails
    rw [List.getLast?_nil, back_none]
    exact ⟨List.Pairwise.nil, List.forall_mem_nil _, hbound⟩
  | append_singleton low t =>
    subst htails
    have ht := h.lt t (by simp)
    have hends : Ends v prev low.length t := h.ends _ t (by simp)
    obtain ⟨c, hback, hlen, hchain⟩ := hends.back (hends.le.trans_lt ht) []
    rw [List.getLast?_concat, hback]
    refine ⟨hchain, fun i hi => ?_, fun c' hc' hlt => ?_⟩
    · rcases List.mem_append.1 hi with hi | hi
      · exact ((List.pairwise_append.1 hchain).2.2 i hi t (List.mem_singleton_self t)).1.trans ht
      · exact List.mem_singleton.1 hi ▸ ht
    · have hle := hbound c' hc' hlt
      rw [List.length_append, List.length_singleton] at hle ⊢
      omega

end Patience
