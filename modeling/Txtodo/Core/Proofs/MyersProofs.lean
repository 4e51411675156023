import Txtodo.Core.Diff

/-!
# The Myers search

What one round of the search knows about each diagonal, why the search ends within `n + m` rounds
and why it ends in the far corner itself, and the script the walk back finds.
-/

namespace Txtodo

open EditGraph

section
variable {α : Type} {a b : List α} {i j : Nat}

theorem matches_iff : Matches a b i j ↔ ∃ c, a[i]? = some c ∧ b[j]? = some c := by
  constructor
  · rintro ⟨hi, hj, heq⟩
    exact ⟨a[i], List.getElem?_eq_getElem hi, heq ▸ List.getElem?_eq_getElem hi⟩
  · rintro ⟨c, ha, hb⟩
    exact ⟨(List.getElem?_eq_some_iff.1 ha).1, (List.getElem?_eq_some_iff.1 hb).1, ha.trans hb.symm⟩

theorem matches_drop {x y : Nat} :
    Matches (a.drop x) (b.drop y) i j ↔ Matches a b (x + i) (y + j) := by
  rw [matches_iff, matches_iff, List.getElem?_drop, List.getElem?_drop]

variable [DecidableEq α]

theorem commonPrefix_matches (a b : List α) {t : Nat} (ht : t < commonPrefix a b) :
    Matches a b t t := by
  induction a generalizing b t with
  | nil => exact absurd ht (Nat.not_lt_zero t)
  | cons x a ih =>
    cases b with
    | nil => exact absurd ht (Nat.not_lt_zero t)
    | cons y b =>
      rw [commonPrefix] at ht
      split_ifs at ht with hxy
      · cases t with
        | zero => exact matches_iff.2 ⟨x, rfl, by simp [hxy]⟩
        | succ t =>
          obtain ⟨c, ha, hb⟩ := matches_iff.1 (ih b (t := t) (by omega))
          exact matches_iff.2 ⟨c, by simpa using ha, by simpa using hb⟩
      · exact absurd ht (Nat.not_lt_zero t)

theorem commonPrefix_stops (a b : List α) :
    ¬Matches a b (commonPrefix a b) (commonPrefix a b) := by
  induction a generalizing b with
  | nil =>
    rintro ⟨h, -⟩
    exact absurd h (Nat.not_lt_zero _)
  | cons x a ih =>
    cases b with
    | nil =>
      rintro ⟨-, h, -⟩
      exact absurd h (Nat.not_lt_zero _)
    | cons y b =>
      intro h
      rw [commonPrefix] at h
      split_ifs at h with hxy
      · obtain ⟨c, ha, hb⟩ := matches_iff.1 h
        exact ih b (matches_iff.2 ⟨c, by simpa using ha, by simpa using hb⟩)
      · obtain ⟨c, ha, hb⟩ := matches_iff.1 h
        rw [List.getElem?_cons_zero, Option.some_inj] at ha hb
        exact hxy (ha.trans hb.symm)

end

/-! ## Rounds -/

/-- The diagonals round `d` fills in. -/
def OnRound (d : Nat) (k : Int) : Prop := -d ≤ k ∧ k ≤ d ∧ (k + d) % 2 = 0

instance (d : Nat) (k : Int) : Decidable (OnRound d k) :=
  inferInstanceAs (Decidable (_ ∧ _ ∧ _))

section
variable {α : Type} [DecidableEq α] (a b : List α)

/-- The vector round `d` starts from. -/
def furthest : Nat → Diagonals
  | 0 => fun _ => 0
  | d + 1 => fun k => if OnRound d k then (reach a b (furthest d) d k).1 else furthest d k

/-- The `x` round `d` enters diagonal `k` at. -/
def entry (d : Nat) (k : Int) : Nat :=
  let v := furthest a b d
  if stepsDown v d k then v (k + 1) else v (k - 1) + 1

/-- The `x` round `d` reaches on diagonal `k`. -/
def tip (d : Nat) (k : Int) : Nat := (reach a b (furthest a b d) d k).1

/-- The number of matches between the two. -/
def run (d : Nat) (k : Int) : Nat :=
  commonPrefix (a.drop (entry a b d k)) (b.drop (entry a b d k - k).toNat)

/-- Round `d` is past the far corner on diagonal `k`. -/
def Ends (d : Nat) (k : Int) : Prop :=
  a.length ≤ tip a b d k ∧ b.length ≤ (reach a b (furthest a b d) d k).2

variable {a b} {d : Nat} {k : Int}

theorem tip_eq (d : Nat) (k : Int) : tip a b d k = entry a b d k + run a b d k := rfl

theorem furthest_succ_on (h : OnRound d k) : furthest a b (d + 1) k = tip a b d k := if_pos h

theorem stepsDown_iff {v : Diagonals} :
    stepsDown v d k = true ↔ k = -d ∨ k ≠ d ∧ v (k - 1) < v (k + 1) := by
  simp [stepsDown]

/-- How round `d + 1` enters a diagonal: from the better of its neighbours. -/
theorem entry_cases (h : OnRound (d + 1) k) :
    (stepsDown (furthest a b (d + 1)) (d + 1) k = true ∧ OnRound d (k + 1) ∧
      entry a b (d + 1) k = tip a b d (k + 1) ∧
      (OnRound d (k - 1) → tip a b d (k - 1) + 1 ≤ tip a b d (k + 1))) ∨
    (stepsDown (furthest a b (d + 1)) (d + 1) k = false ∧ OnRound d (k - 1) ∧
      entry a b (d + 1) k = tip a b d (k - 1) + 1 ∧
      (OnRound d (k + 1) → tip a b d (k + 1) ≤ tip a b d (k - 1))) := by
  obtain ⟨hlo, hhi, hpar⟩ := h
  have hup : OnRound d (k + 1) ↔ k ≠ (d + 1 : Nat) := by
    constructor
    · rintro ⟨-, h, -⟩
      omega
    · intro h
      exact ⟨by omega, by omega, by omega⟩
  have hdn : OnRound d (k - 1) ↔ k ≠ -(d + 1 : Nat) := by
    constructor
    · rintro ⟨h, -, -⟩
      omega
    · intro h
      exact ⟨by omega, by omega, by omega⟩
  by_cases hdown : stepsDown (furthest a b (d + 1)) (d + 1) k = true
  · left
    have hk : k ≠ (d + 1 : Nat) := by
      rcases stepsDown_iff.1 hdown with hk | ⟨hk, -⟩
      · omega
      · exact hk
    refine ⟨hdown, hup.2 hk, ?_, ?_⟩
    · rw [entry, if_pos hdown, furthest_succ_on (hup.2 hk)]
    · intro hon
      have hlt := ((stepsDown_iff.1 hdown).resolve_left (hdn.1 hon)).2
      rw [furthest_succ_on hon, furthest_succ_on (hup.2 hk)] at hlt
      exact hlt
  · right
    have hstep := hdown
    rw [stepsDown_iff] at hstep
    push Not at hstep
    refine ⟨Bool.not_eq_true _ ▸ hdown, hdn.2 hstep.1, ?_, ?_⟩
    · rw [entry, if_neg hdown, furthest_succ_on (hdn.2 hstep.1)]
    · intro hon
      have hle := hstep.2 (hup.1 hon)
      rw [furthest_succ_on hon, furthest_succ_on (hdn.2 hstep.1)] at hle
      exact hle

theorem entry_zero : entry a b 0 0 = 0 := by
  have hdown : stepsDown (furthest a b 0) 0 0 = true := stepsDown_iff.2 (.inl rfl)
  rw [entry, if_pos hdown]
  rfl

theorem onRound_zero (h : OnRound 0 k) : k = 0 := by
  obtain ⟨hlo, hhi, -⟩ := h
  omega

theorem entry_le_tip (d : Nat) (k : Int) : entry a b d k ≤ tip a b d k := Nat.le_add_right _ _

/-- No point of a round is above the first row, and a round gets at least as far as edits alone. -/
theorem entry_bounds (h : OnRound d k) :
    k ≤ entry a b d k ∧ (d : Int) + k ≤ 2 * entry a b d k := by
  induction d generalizing k with
  | zero =>
    rw [onRound_zero h, entry_zero]
    exact ⟨le_rfl, le_rfl⟩
  | succ d ih =>
    rcases entry_cases (a := a) (b := b) h with ⟨-, hon, heq, -⟩ | ⟨-, hon, heq, -⟩
    · obtain ⟨hrow, hfar⟩ := ih hon
      have := entry_le_tip (a := a) (b := b) d (k + 1)
      omega
    · obtain ⟨hrow, hfar⟩ := ih hon
      have := entry_le_tip (a := a) (b := b) d (k - 1)
      omega

theorem tip_row (h : OnRound d k) : k ≤ tip a b d k := by
  have := (entry_bounds (a := a) (b := b) h).1
  have := entry_le_tip (a := a) (b := b) d k
  omega

theorem reach_snd (h : OnRound d k) :
    (reach a b (furthest a b d) d k).2 = (tip a b d k - k).toNat := by
  have hrow := (entry_bounds (a := a) (b := b) h).1
  have htip := tip_eq (a := a) (b := b) d k
  have hy : (reach a b (furthest a b d) d k).2 = (entry a b d k - k).toNat + run a b d k := rfl
  omega

theorem ends_iff (h : OnRound d k) :
    Ends a b d k ↔ a.length ≤ tip a b d k ∧ (b.length : Int) ≤ tip a b d k - k := by
  have hrow := tip_row (a := a) (b := b) h
  rw [Ends, reach_snd h]
  omega

/-- What lies between the entry and the tip of a diagonal matches. -/
theorem run_matches (h : OnRound d k) {x : Nat} (hlo : entry a b d k ≤ x) (hhi : x < tip a b d k) :
    Matches a b x (x - k).toNat := by
  have hrow := (entry_bounds (a := a) (b := b) h).1
  rw [tip_eq] at hhi
  have hm := commonPrefix_matches _ _ (t := x - entry a b d k)
    (show _ < run a b d k by omega)
  rw [matches_drop] at hm
  convert hm using 1 <;> omega

/-- A tip is where the matches end. -/
theorem tip_stops (h : OnRound d k) : ¬Matches a b (tip a b d k) (tip a b d k - k).toNat := by
  have hrow := (entry_bounds (a := a) (b := b) h).1
  have htip := tip_eq (a := a) (b := b) d k
  have hm := commonPrefix_stops (a.drop (entry a b d k)) (b.drop (entry a b d k - k).toNat)
  rw [matches_drop, show commonPrefix _ _ = run a b d k from rfl, ← htip] at hm
  have hy : (entry a b d k - k).toNat + run a b d k = (tip a b d k - k).toNat := by omega
  rw [hy] at hm
  exact hm

/-- A round gets at least as far as an edit from the tips of the round before it. -/
theorem tip_succ (h : OnRound d k) :
    tip a b d k + 1 ≤ tip a b (d + 1) (k + 1) ∧ tip a b d k ≤ tip a b (d + 1) (k - 1) := by
  obtain ⟨hlo, hhi, hpar⟩ := h
  have hup : OnRound (d + 1) (k + 1) := ⟨by omega, by omega, by omega⟩
  have hdn : OnRound (d + 1) (k - 1) := ⟨by omega, by omega, by omega⟩
  have hk : OnRound d k := ⟨hlo, hhi, hpar⟩
  have hup_le := entry_le_tip (a := a) (b := b) (d + 1) (k + 1)
  have hdn_le := entry_le_tip (a := a) (b := b) (d + 1) (k - 1)
  constructor
  · rcases entry_cases (a := a) (b := b) hup with ⟨-, -, heq, hle⟩ | ⟨-, -, heq, -⟩
    · rw [add_sub_cancel_right] at hle
      have := hle hk
      omega
    · rw [add_sub_cancel_right] at heq
      omega
  · rcases entry_cases (a := a) (b := b) hdn with ⟨-, -, heq, -⟩ | ⟨-, -, heq, hle⟩
    · rw [sub_add_cancel] at heq
      omega
    · rw [sub_add_cancel] at hle
      have := hle hk
      omega

/-! ## The end of the search -/

/-- A tip past the last column is where its diagonal was entered, and so for the last row. -/
theorem tip_eq_entry (h : OnRound d k)
    (hout : a.length < tip a b d k ∨ (b.length : Int) < tip a b d k - k) :
    tip a b d k = entry a b d k := by
  have hrow := (entry_bounds (a := a) (b := b) h).1
  have hle := entry_le_tip (a := a) (b := b) d k
  by_contra hne
  obtain ⟨hx, hy, -⟩ := run_matches (a := a) (b := b) h (x := tip a b d k - 1) (by omega) (by omega)
  omega

/-- A round past the last column is no further than a deletion from the round before. -/
theorem past_column (h : OnRound d k) (hout : a.length < tip a b d k) :
    ∃ e, d = e + 1 ∧ OnRound e (k - 1) ∧ tip a b d k ≤ tip a b e (k - 1) + 1 := by
  have heq := tip_eq_entry h (.inl hout)
  induction d generalizing k with
  | zero =>
    rw [onRound_zero h] at heq hout
    rw [heq, entry_zero] at hout
    omega
  | succ d ih =>
    rcases entry_cases (a := a) (b := b) h with ⟨-, hon, hentry, -⟩ | ⟨-, hon, hentry, -⟩
    · obtain ⟨e, rfl, hback, hle⟩ := ih hon (by omega) (tip_eq_entry hon (.inl (by omega)))
      rw [add_sub_cancel_right] at hback hle
      have hstep := (tip_succ (a := a) (b := b) hback).2
      obtain ⟨hlo, hhi, hpar⟩ := hback
      exact ⟨e + 1, rfl, ⟨by omega, by omega, by omega⟩, by omega⟩
    · exact ⟨d, rfl, hon, by omega⟩

/-- A round past the last row is no further than an insertion from the round before. -/
theorem past_row (h : OnRound d k) (hout : (b.length : Int) < tip a b d k - k) :
    ∃ e, d = e + 1 ∧ OnRound e (k + 1) ∧ tip a b d k ≤ tip a b e (k + 1) := by
  have heq := tip_eq_entry h (.inr hout)
  induction d generalizing k with
  | zero =>
    rw [onRound_zero h] at heq hout
    rw [heq, entry_zero] at hout
    omega
  | succ d ih =>
    rcases entry_cases (a := a) (b := b) h with ⟨-, hon, hentry, -⟩ | ⟨-, hon, hentry, -⟩
    · exact ⟨d, rfl, hon, by omega⟩
    · obtain ⟨e, rfl, hback, hle⟩ := ih hon (by omega) (tip_eq_entry hon (.inr (by omega)))
      rw [sub_add_cancel] at hback hle
      have hstep := (tip_succ (a := a) (b := b) hback).1
      obtain ⟨hlo, hhi, hpar⟩ := hback
      exact ⟨e + 1, rfl, ⟨by omega, by omega, by omega⟩, by omega⟩

/-- The first round to pass the far corner is on it. -/
theorem first_end (h : OnRound d k) (hend : Ends a b d k)
    (hfirst : ∀ e < d, ∀ k, OnRound e k → ¬Ends a b e k) :
    tip a b d k = a.length ∧ tip a b d k - k = (b.length : Int) := by
  obtain ⟨hx, hy⟩ := (ends_iff h).1 hend
  constructor
  · by_contra hne
    obtain ⟨e, rfl, hon, hle⟩ := past_column (a := a) (b := b) h (by omega)
    exact hfirst e (by omega) _ hon ((ends_iff hon).2 ⟨by omega, by omega⟩)
  · by_contra hne
    obtain ⟨e, rfl, hon, hle⟩ := past_row (a := a) (b := b) h (by omega)
    exact hfirst e (by omega) _ hon ((ends_iff hon).2 ⟨by omega, by omega⟩)

/-- As many rounds as there are elements pass the far corner. -/
theorem last_round_ends (a b : List α) :
    OnRound (a.length + b.length) (a.length - b.length : Int) ∧
      Ends a b (a.length + b.length) (a.length - b.length) := by
  have hon : OnRound (a.length + b.length) (a.length - b.length : Int) :=
    ⟨by omega, by omega, by omega⟩
  have hfar := (entry_bounds (a := a) (b := b) hon).2
  have hle := entry_le_tip (a := a) (b := b) (a.length + b.length) (a.length - b.length)
  exact ⟨hon, (ends_iff hon).2 ⟨by omega, by omega⟩⟩

/-! ## The loops -/

theorem reach_congr {v w : Diagonals} (hdn : v (k - 1) = w (k - 1)) (hup : v (k + 1) = w (k + 1)) :
    reach a b v d k = reach a b w d k := by
  have hdown : stepsDown v d k = stepsDown w d k := by rw [stepsDown, stepsDown, hdn, hup]
  rw [reach, reach, hdown, hdn, hup]

/-- The vector of round `d` with the diagonals below `k` filled in. -/
def filled (a b : List α) (d : Nat) (k : Int) : Diagonals := fun k' =>
  if OnRound d k' ∧ k' < k then tip a b d k' else furthest a b d k'

theorem filled_start (a b : List α) (d : Nat) : filled a b d (-d) = furthest a b d := by
  funext k'
  apply if_neg
  rintro ⟨⟨hlo, -⟩, hlt⟩
  omega

theorem filled_last (a b : List α) (d : Nat) : filled a b d (d + 2) = furthest a b (d + 1) := by
  funext k'
  rw [filled, furthest, tip]
  have hlt : OnRound d k' ∧ k' < (d : Int) + 2 ↔ OnRound d k' := by
    refine and_iff_left_of_imp ?_
    rintro ⟨-, hhi, -⟩
    omega
  simp only [hlt]

theorem filled_next (h : OnRound d k) :
    Function.update (filled a b d k) k (tip a b d k) = filled a b d (k + 2) := by
  funext k'
  by_cases hk : k' = k
  · subst hk
    rw [Function.update_self, filled, if_pos ⟨h, by omega⟩]
  · rw [Function.update_of_ne hk, filled, filled]
    have hlt : OnRound d k' ∧ k' < k ↔ OnRound d k' ∧ k' < k + 2 := by
      obtain ⟨hlo, hhi, hpar⟩ := h
      refine and_congr_right ?_
      rintro ⟨hlo', hhi', hpar'⟩
      omega
    simp only [hlt]

theorem reach_filled (h : OnRound d k) :
    reach a b (filled a b d k) d k = reach a b (furthest a b d) d k := by
  obtain ⟨hlo, hhi, hpar⟩ := h
  have hother : ∀ k' : Int, (k' + d) % 2 = 1 → filled a b d k k' = furthest a b d k' := by
    intro k' hk'
    apply if_neg
    rintro ⟨⟨-, -, hpar'⟩, -⟩
    omega
  exact reach_congr (hother (k - 1) (by omega)) (hother (k + 1) (by omega))

/-- A round either passes the far corner or leaves the vector of the next one. -/
theorem sweep_spec (a b : List α) (rounds : Nat) {d : Nat} {k : Int} (hr : rounds ≤ d + 1)
    (hk : k = d + 2 - 2 * rounds) :
    (sweep a b d rounds k (filled a b d k) = none ∧ ∃ k', OnRound d k' ∧ Ends a b d k') ∨
      (sweep a b d rounds k (filled a b d k) = some (furthest a b (d + 1)) ∧
        ∀ k', OnRound d k' → k ≤ k' → ¬Ends a b d k') := by
  induction rounds generalizing k with
  | zero =>
    right
    have hlast : k = d + 2 := by omega
    refine ⟨?_, ?_⟩
    · rw [sweep, hlast, filled_last]
    · rintro k' ⟨-, hhi, -⟩ hle
      omega
  | succ rounds ih =>
    have hon : OnRound d k := ⟨by omega, by omega, by omega⟩
    by_cases hend : Ends a b d k
    · left
      refine ⟨?_, k, hon, hend⟩
      rw [sweep, reach_filled hon]
      exact if_pos hend
    · have hnext : sweep a b d (rounds + 1) k (filled a b d k) =
          sweep a b d rounds (k + 2) (filled a b d (k + 2)) := by
        rw [sweep, reach_filled hon, ← filled_next hon]
        exact if_neg hend
      rw [hnext]
      refine (ih (k := k + 2) (by omega) (by omega)).imp_right (And.imp_right ?_)
      intro hno k' hon' hle
      by_cases hk' : k' = k
      · rwa [hk']
      · obtain ⟨hlo, hhi, hpar⟩ := hon
        obtain ⟨hlo', hhi', hpar'⟩ := hon'
        exact hno k' ⟨hlo', hhi', hpar'⟩ (by omega)

/-- The vectors recorded before round `d`, the newest first. -/
def recorded (a b : List α) : Nat → List Diagonals
  | 0 => []
  | d + 1 => furthest a b d :: recorded a b d

@[simp] theorem length_recorded (a b : List α) (d : Nat) : (recorded a b d).length = d := by
  induction d with
  | zero => rfl
  | succ d ih => rw [recorded, List.length_cons, ih]

/-- The search returns from its first round to pass the far corner. -/
theorem searchFrom_spec (a b : List α) (rounds : Nat) {d : Nat}
    (hr : rounds + d = a.length + b.length + 1)
    (hfirst : ∀ e < d, ∀ k, OnRound e k → ¬Ends a b e k) :
    ∃ last k, OnRound last k ∧ Ends a b last k ∧
      (∀ e < last, ∀ k, OnRound e k → ¬Ends a b e k) ∧
      searchFrom a b rounds d (furthest a b d) (recorded a b d) =
        some (backtrack (recorded a b (last + 1)) a.length b.length []) := by
  induction rounds generalizing d with
  | zero =>
    obtain ⟨hon, hend⟩ := last_round_ends a b
    exact absurd hend (hfirst _ (by omega) _ hon)
  | succ rounds ih =>
    have hsweep := sweep_spec a b (d + 1) (d := d) (k := -d) le_rfl (by omega)
    rw [filled_start] at hsweep
    rcases hsweep with ⟨hnone, k, hon, hend⟩ | ⟨hsome, hno⟩
    · refine ⟨d, k, hon, hend, hfirst, ?_⟩
      rw [searchFrom, hnone]
      rfl
    · rw [searchFrom, hsome]
      refine ih (d := d + 1) (by omega) ?_
      intro e he k hon
      by_cases hed : e = d
      · subst hed
        exact hno k hon hon.1
      · exact hfirst e (by omega) k hon

/-! ## The walk back -/

omit [DecidableEq α] in
theorem walkKeeps_script {P : Nat → Nat → Prop} {i j : Nat} (run : Nat) {steps : List Step}
    (hm : ∀ t < run, Matches a b (i + t) (j + t))
    (hs : Script a b P (i + run) (j + run) steps) :
    Script a b P i j (walkKeeps run (i + run : Nat) (j + run : Nat) steps) := by
  induction run generalizing steps with
  | zero => exact hs
  | succ run ih =>
    have hx : ((i + (run + 1) : Nat) : Int) - 1 = (i + run : Nat) := by omega
    have hy : ((j + (run + 1) : Nat) : Int) - 1 = (j + run : Nat) := by omega
    rw [walkKeeps, hx, hy, Int.toNat_natCast, Int.toNat_natCast]
    apply ih
    · intro t ht
      exact hm t (by omega)
    · exact .keep (hm run (by omega)) hs

theorem cost_walkKeeps (run : Nat) (x y : Int) (steps : List Step) :
    cost (walkKeeps run x y steps) = cost steps := by
  induction run generalizing x y steps with
  | zero => rfl
  | succ run ih => rw [walkKeeps, ih, cost_keep]

/-- The steps back to the entry of a diagonal. -/
theorem walk_to_entry (h : OnRound d k) {P : Nat → Nat → Prop} {steps : List Step} {y : Nat}
    (hy : (y : Int) = tip a b d k - k) (hs : Script a b P (tip a b d k) y steps) :
    Script a b P (entry a b d k) (entry a b d k - k).toNat
      (walkKeeps (tip a b d k - entry a b d k) (tip a b d k) y steps) := by
  have hrow := (entry_bounds (a := a) (b := b) h).1
  have hle := entry_le_tip (a := a) (b := b) d k
  have hx : tip a b d k = entry a b d k + (tip a b d k - entry a b d k) := by omega
  have hy' : y = (entry a b d k - k).toNat + (tip a b d k - entry a b d k) := by omega
  have hend : Script a b P (entry a b d k + (tip a b d k - entry a b d k))
      ((entry a b d k - k).toNat + (tip a b d k - entry a b d k)) steps := by
    rwa [← hx, ← hy']
  have hm : ∀ t < tip a b d k - entry a b d k,
      Matches a b (entry a b d k + t) ((entry a b d k - k).toNat + t) := by
    intro t ht
    have hm := run_matches (a := a) (b := b) h (x := entry a b d k + t) (by omega) (by omega)
    convert hm using 1
    omega
  have hwalk := walkKeeps_script (tip a b d k - entry a b d k) hm hend
  rwa [← hx, ← hy'] at hwalk

/-- One step of the walk back, over an insertion. -/
theorem backtrack_insert (v : Diagonals) (trace : List Diagonals) (x y : Int) (steps : List Step)
    (hlen : 0 < trace.length) (hdown : stepsDown v trace.length (x - y) = true) :
    backtrack (v :: trace) x y steps =
      backtrack trace (v (x - y + 1)) (v (x - y + 1) - (x - y + 1))
        (.insert (v (x - y + 1) - (x - y + 1) : Int).toNat ::
          walkKeeps (min (x - v (x - y + 1)) (y - (v (x - y + 1) - (x - y + 1)))).toNat x y
            steps) := by
  simp [backtrack, hdown, hlen, Nat.ne_of_gt hlen]

/-- One step of the walk back, over a deletion. -/
theorem backtrack_delete (v : Diagonals) (trace : List Diagonals) (x y : Int) (steps : List Step)
    (hlen : 0 < trace.length) (hdown : stepsDown v trace.length (x - y) = false) :
    backtrack (v :: trace) x y steps =
      backtrack trace (v (x - y - 1)) (v (x - y - 1) - (x - y - 1))
        (.delete (v (x - y - 1)) ::
          walkKeeps (min (x - v (x - y - 1)) (y - (v (x - y - 1) - (x - y - 1)))).toNat x y
            steps) := by
  simp [backtrack, hdown, hlen, Nat.ne_of_gt hlen]

/-- The walk back over one round: from a tip to one of the round before it. -/
theorem backtrack_succ (h : OnRound (d + 1) k) {y : Nat} (steps : List Step)
    (hy : (y : Int) = tip a b (d + 1) k - k) :
    (∃ j : Nat, OnRound d (k + 1) ∧ (j : Int) = tip a b d (k + 1) - (k + 1) ∧
      entry a b (d + 1) k = tip a b d (k + 1) ∧
      backtrack (recorded a b (d + 2)) (tip a b (d + 1) k) y steps =
        backtrack (recorded a b (d + 1)) (tip a b d (k + 1)) j (.insert j ::
          walkKeeps (tip a b (d + 1) k - entry a b (d + 1) k) (tip a b (d + 1) k) y steps)) ∨
    (∃ j : Nat, OnRound d (k - 1) ∧ (j : Int) = tip a b d (k - 1) - (k - 1) ∧
      entry a b (d + 1) k = tip a b d (k - 1) + 1 ∧
      (OnRound d (k + 1) → tip a b d (k + 1) ≤ tip a b d (k - 1)) ∧
      backtrack (recorded a b (d + 2)) (tip a b (d + 1) k) y steps =
        backtrack (recorded a b (d + 1)) (tip a b d (k - 1)) j (.delete (tip a b d (k - 1)) ::
          walkKeeps (tip a b (d + 1) k - entry a b (d + 1) k) (tip a b (d + 1) k) y steps)) := by
  have hk : (tip a b (d + 1) k : Int) - y = k := by omega
  have hle := entry_le_tip (a := a) (b := b) (d + 1) k
  have hlen : (recorded a b (d + 1)).length = d + 1 := length_recorded a b (d + 1)
  rcases entry_cases (a := a) (b := b) h with ⟨hdown, hon, heq, -⟩ | ⟨hdown, hon, heq, hother⟩
  · have hrow := tip_row (a := a) (b := b) hon
    obtain ⟨j, hj⟩ := Int.eq_ofNat_of_zero_le (Int.sub_nonneg.2 hrow)
    refine .inl ⟨j, hon, hj.symm, heq, ?_⟩
    have hback := backtrack_insert (furthest a b (d + 1)) (recorded a b (d + 1))
      (tip a b (d + 1) k) y steps (by omega) (by rwa [hlen, hk])
    have hrun : (min ((tip a b (d + 1) k : Int) - tip a b d (k + 1)) (y - j)).toNat =
        tip a b (d + 1) k - entry a b (d + 1) k := by omega
    rw [hk, furthest_succ_on hon, hj, Int.toNat_natCast, hrun] at hback
    exact hback
  · have hrow := tip_row (a := a) (b := b) hon
    obtain ⟨j, hj⟩ := Int.eq_ofNat_of_zero_le (Int.sub_nonneg.2 hrow)
    refine .inr ⟨j, hon, hj.symm, heq, hother, ?_⟩
    have hback := backtrack_delete (furthest a b (d + 1)) (recorded a b (d + 1))
      (tip a b (d + 1) k) y steps (by omega) (by rwa [hlen, hk])
    have hrun : (min ((tip a b (d + 1) k : Int) - tip a b d (k - 1)) (y - j)).toNat =
        tip a b (d + 1) k - entry a b (d + 1) k := by omega
    rw [hk, furthest_succ_on hon, hj, hrun] at hback
    exact hback

/-- The walk back over round `0` keeps what is left. -/
theorem backtrack_zero {y : Nat} (steps : List Step) (hy : (y : Int) = tip a b 0 0) :
    backtrack (recorded a b 1) (tip a b 0 0) y steps =
      walkKeeps (tip a b 0 0 - entry a b 0 0) (tip a b 0 0) y steps := by
  have hrun : (min ((tip a b 0 0 : Int) - 0) (y - 0)).toNat = tip a b 0 0 - entry a b 0 0 := by
    rw [entry_zero]
    omega
  rw [← hrun]
  rfl

/-- A greedy script from a tip is one from a tip of the round before, an edit longer. -/
theorem backtrack_round (h : OnRound (d + 1) k) {y : Nat} {steps : List Step}
    (hy : (y : Int) = tip a b (d + 1) k - k) (hs : Greedy a b (tip a b (d + 1) k) y steps) :
    ∃ (k' : Int) (y' : Nat) (steps' : List Step), OnRound d k' ∧ (y' : Int) = tip a b d k' - k' ∧
      Greedy a b (tip a b d k') y' steps' ∧ cost steps' = cost steps + 1 ∧
      backtrack (recorded a b (d + 2)) (tip a b (d + 1) k) y steps =
        backtrack (recorded a b (d + 1)) (tip a b d k') y' steps' := by
  have hwalk := walk_to_entry h hy hs
  have hin := hwalk.bounds
  rcases backtrack_succ h steps hy with ⟨j, hon, hj, heq, hback⟩ | ⟨j, hon, hj, heq, -, hback⟩
  · have hnext : (entry a b (d + 1) k - k : Int).toNat = j + 1 := by omega
    have hstop := tip_stops (a := a) (b := b) hon
    rw [← hj, Int.toNat_natCast] at hstop
    rw [hnext, heq] at hwalk hin
    refine ⟨k + 1, j, _, hon, hj, .insert (by omega) hstop hwalk, ?_, ?_⟩
    · rw [cost_insert, cost_walkKeeps]
    · rw [hback, heq]
  · have hnext : (entry a b (d + 1) k - k : Int).toNat = j := by omega
    have hstop := tip_stops (a := a) (b := b) hon
    rw [← hj, Int.toNat_natCast] at hstop
    rw [hnext, heq] at hwalk hin
    refine ⟨k - 1, j, _, hon, hj, .delete (by omega) hstop hwalk, ?_, ?_⟩
    · rw [cost_delete, cost_walkKeeps]
    · rw [hback, heq]

/-- The walk back from a tip inside the grid turns a greedy script from there into one from the
origin, an edit longer for each round. -/
theorem backtrack_script (h : OnRound d k) {y : Nat} {steps : List Step}
    (hy : (y : Int) = tip a b d k - k) (hs : Greedy a b (tip a b d k) y steps) :
    Greedy a b 0 0 (backtrack (recorded a b (d + 1)) (tip a b d k) y steps) ∧
      cost (backtrack (recorded a b (d + 1)) (tip a b d k) y steps) = d + cost steps := by
  induction d generalizing k y steps with
  | zero =>
    have h0 := onRound_zero h
    subst h0
    have hwalk := walk_to_entry h hy hs
    rw [backtrack_zero steps (by omega), cost_walkKeeps]
    rw [entry_zero] at hwalk ⊢
    exact ⟨hwalk, (Nat.zero_add _).symm⟩
  | succ d ih =>
    obtain ⟨k', y', steps', hon, hy', hs', hcost, hback⟩ := backtrack_round h hy hs
    obtain ⟨hscript, htotal⟩ := ih hon hy' hs'
    rw [hback]
    exact ⟨hscript, by omega⟩

/-- A script from a point a round has reached ends no earlier than the search does. -/
theorem script_reaches {P : Nat → Nat → Prop} {i j : Nat} {steps : List Step}
    (hs : Script a b P i j steps) (hon : OnRound d (i - j : Int)) (hi : i ≤ tip a b d (i - j)) :
    ∃ k, OnRound (d + cost steps) k ∧ Ends a b (d + cost steps) k := by
  induction hs generalizing d with
  | done => exact ⟨_, hon, (ends_iff hon).2 ⟨hi, by omega⟩⟩
  | @keep i j steps hm hs ih =>
    have hdiag : ((i + 1 : Nat) : Int) - (j + 1 : Nat) = i - j := by omega
    rw [hdiag] at ih
    rw [cost_keep]
    apply ih hon
    by_contra hlt
    have htip : tip a b d (i - j) = i := by omega
    apply tip_stops (a := a) (b := b) hon
    rw [htip, sub_sub_cancel, Int.toNat_natCast]
    exact hm
  | @delete i j steps hlt hp hs ih =>
    have hdiag : ((i + 1 : Nat) : Int) - j = i - j + 1 := by omega
    have hstep := (tip_succ (a := a) (b := b) hon).1
    obtain ⟨hlo, hhi, hpar⟩ := hon
    rw [hdiag] at ih
    rw [cost_delete, show d + (cost steps + 1) = d + 1 + cost steps by omega]
    exact ih ⟨by omega, by omega, by omega⟩ (by omega)
  | @insert i j steps hlt hp hs ih =>
    have hdiag : (i : Int) - (j + 1 : Nat) = i - j - 1 := by omega
    have hstep := (tip_succ (a := a) (b := b) hon).2
    obtain ⟨hlo, hhi, hpar⟩ := hon
    rw [hdiag] at ih
    rw [cost_insert, show d + (cost steps + 1) = d + 1 + cost steps by omega]
    exact ih ⟨by omega, by omega, by omega⟩ (by omega)

/-- The search returns a greedy script, and no script has fewer edits. -/
theorem myers_spec (a b : List α) :
    ∃ steps, myers a b = some steps ∧ Greedy a b 0 0 steps ∧
      ∀ P other, Script a b P 0 0 other → cost steps ≤ cost other := by
  obtain ⟨last, k, hon, hend, hfirst, hsearch⟩ :=
    searchFrom_spec a b (a.length + b.length + 1) (d := 0) (by omega)
      (by intro e he; omega)
  obtain ⟨hx, hy⟩ := first_end hon hend hfirst
  have hdone : Greedy a b (tip a b last k) b.length [] := by
    rw [hx]
    exact .done
  obtain ⟨hscript, hcost⟩ := backtrack_script hon hy.symm hdone
  rw [hx] at hscript hcost
  refine ⟨_, hsearch, hscript, ?_⟩
  intro P other hother
  have h0 : OnRound 0 ((0 : Nat) - (0 : Nat) : Int) := ⟨by omega, by omega, by omega⟩
  obtain ⟨k', hon', hend'⟩ := script_reaches hother h0 (Nat.zero_le _)
  rw [hcost, cost_nil]
  by_contra hlt
  exact hfirst _ (by omega) k' hon' hend'

/-! ## The script it picks -/

/-- A diagonal is entered no earlier than an edit from the tips beside it gets. -/
theorem tip_le_entry (h : OnRound (d + 1) k) :
    (OnRound d (k + 1) → tip a b d (k + 1) ≤ entry a b (d + 1) k) ∧
      (OnRound d (k - 1) → tip a b d (k - 1) + 1 ≤ entry a b (d + 1) k) := by
  rcases entry_cases (a := a) (b := b) h with ⟨-, -, heq, hle⟩ | ⟨-, -, heq, hle⟩
  · exact ⟨fun _ => heq.ge, fun hon => heq ▸ hle hon⟩
  · refine ⟨fun hon => ?_, fun _ => heq.ge⟩
    have := hle hon
    omega

/-- A round gets at least as far as scripts of its cost. -/
theorem le_tip (a b : List α) (x y : Nat) :
    OnRound (fewest a b x y) (x - y) ∧ x ≤ tip a b (fewest a b x y) (x - y) := by
  induction hn : x + y using Nat.strongRecOn generalizing x y with
  | ind n ih =>
    rcases latest_cases a b x y with ⟨rfl, rfl⟩ | ⟨l, rfl, hcost, -⟩ | ⟨l, rfl, hcost, -⟩ |
      ⟨l, r, rfl, rfl, hm, hcost, -⟩
    · exact ⟨⟨by simp, by simp, by simp⟩, Nat.zero_le _⟩
    · obtain ⟨hon, hle⟩ := ih _ (by omega) x l rfl
      have hdiag : (x : Int) - (l + 1 : Nat) = x - l - 1 := by omega
      have hstep := (tip_succ (a := a) (b := b) hon).2
      obtain ⟨hlo, hhi, hpar⟩ := hon
      rw [hdiag, ← hcost]
      exact ⟨⟨by omega, by omega, by omega⟩, by omega⟩
    · obtain ⟨hon, hle⟩ := ih _ (by omega) l y rfl
      have hdiag : ((l + 1 : Nat) : Int) - y = l - y + 1 := by omega
      have hstep := (tip_succ (a := a) (b := b) hon).1
      obtain ⟨hlo, hhi, hpar⟩ := hon
      rw [hdiag, ← hcost]
      exact ⟨⟨by omega, by omega, by omega⟩, by omega⟩
    · obtain ⟨hon, hle⟩ := ih _ (by omega) l r rfl
      have hdiag : ((l + 1 : Nat) : Int) - (r + 1 : Nat) = l - r := by omega
      rw [hdiag, ← hcost]
      refine ⟨hon, ?_⟩
      by_contra hlt
      have htip : tip a b (fewest a b l r) (l - r) = l := by omega
      have hstop := tip_stops (a := a) (b := b) hon
      rw [htip, sub_sub_cancel, Int.toNat_natCast] at hstop
      exact hstop hm

/-- What a round reaches takes no more edits than the round has. -/
theorem fewest_tip (h : OnRound d k) {x y : Nat} (hlo : entry a b d k ≤ x) (hhi : x ≤ tip a b d k)
    (hy : (y : Int) = x - k) : fewest a b x y ≤ d := by
  induction d generalizing k x y with
  | zero =>
    have h0 := onRound_zero h
    subst h0
    obtain rfl : x = y := by omega
    induction x with
    | zero => simp
    | succ x ih =>
      have hm := run_matches (a := a) (b := b) h (x := x) (by rw [entry_zero]; omega) (by omega)
      rw [sub_zero, Int.toNat_natCast] at hm
      exact (fewest_keep_le hm).trans
        (ih (by rw [entry_zero]; omega) (by omega) (by omega))
  | succ d ih =>
    have hrow := (entry_bounds (a := a) (b := b) h).1
    induction hrun : x - entry a b (d + 1) k generalizing x y with
    | zero =>
      obtain rfl : x = entry a b (d + 1) k := by omega
      rcases entry_cases (a := a) (b := b) h with ⟨-, hon, heq, -⟩ | ⟨-, hon, heq, -⟩
      · have hback := tip_row (a := a) (b := b) hon
        obtain ⟨j, rfl⟩ : ∃ j, y = j + 1 := ⟨y - 1, by omega⟩
        rw [heq] at hy ⊢
        have := ih hon (entry_le_tip d (k + 1)) le_rfl (y := j) (by omega)
        have := fewest_insert_le a b (tip a b d (k + 1)) j
        omega
      · rw [heq] at hy ⊢
        have := ih hon (entry_le_tip d (k - 1)) le_rfl (y := y) (by omega)
        have := fewest_delete_le a b (tip a b d (k - 1)) y
        omega
    | succ run ihrun =>
      obtain ⟨i, rfl⟩ : ∃ i, x = i + 1 := ⟨x - 1, by omega⟩
      obtain ⟨j, rfl⟩ : ∃ j, y = j + 1 := ⟨y - 1, by omega⟩
      have hm := run_matches (a := a) (b := b) h (x := i) (by omega) (by omega)
      rw [show ((i : Int) - k).toNat = j by omega] at hm
      exact (fewest_keep_le hm).trans (ihrun (by omega) (by omega) (by omega) (by omega))

/-- Past its entry no edit of a cheapest script ends on a diagonal: one that did would have entered it
later. -/
theorem past_entry (h : OnRound d k) {i j : Nat} (hlo : entry a b d k < i + 1)
    (hy : (j : Int) = i - k) (hd : fewest a b (i + 1) (j + 1) = d) :
    ¬fewest a b (i + 1) j < fewest a b (i + 1) (j + 1) ∧
      ¬fewest a b i (j + 1) < fewest a b (i + 1) (j + 1) := by
  have hinsert := fewest_insert_le a b (i + 1) j
  have hdelete := fewest_delete_le a b i (j + 1)
  cases d with
  | zero => constructor <;> omega
  | succ d =>
    obtain ⟨hup, hdn⟩ := tip_le_entry (a := a) (b := b) h
    constructor
    · intro hlt
      obtain ⟨hon, hle⟩ := le_tip a b (i + 1) j
      rw [show fewest a b (i + 1) j = d by omega,
        show ((i + 1 : Nat) : Int) - j = k + 1 by omega] at hon hle
      have := hup hon
      omega
    · intro hlt
      obtain ⟨hon, hle⟩ := le_tip a b i (j + 1)
      rw [show fewest a b i (j + 1) = d by omega,
        show (i : Int) - (j + 1 : Nat) = k - 1 by omega] at hon hle
      have := hdn hon
      omega

/-- The latest script goes back along a diagonal to its entry. -/
theorem latest_walk (h : OnRound d k) {x y : Nat} (run : Nat) (hx : x = entry a b d k + run)
    (hy : (y : Int) = x - k) (hd : fewest a b x y = d) (steps : List Step) :
    ∃ r : Nat, (r : Int) = entry a b d k - k ∧ fewest a b (entry a b d k) r = d ∧
      latest a b x y ++ steps = latest a b (entry a b d k) r ++ walkKeeps run x y steps := by
  have hrow := (entry_bounds (a := a) (b := b) h).1
  induction run generalizing x y steps with
  | zero =>
    obtain rfl : x = entry a b d k := hx
    exact ⟨y, hy, hd, rfl⟩
  | succ run ih =>
    obtain ⟨i, rfl⟩ : ∃ i, x = i + 1 := ⟨x - 1, by omega⟩
    obtain ⟨j, rfl⟩ : ∃ j, y = j + 1 := ⟨y - 1, by omega⟩
    obtain ⟨hinsert, hdelete⟩ := past_entry h (by omega) (by omega) hd
    obtain ⟨-, hcost⟩ := fewest_keep hinsert hdelete
    obtain ⟨r, hr, hdr, heq⟩ := ih (x := i) (y := j) (by omega) (by omega) (hcost.trans hd)
      (.keep i j :: steps)
    refine ⟨r, hr, hdr, ?_⟩
    rw [latest_keep hinsert hdelete, List.append_assoc, List.singleton_append, heq, walkKeeps]
    simp

/-- The walk back finds the latest script to the tip it starts from. -/
theorem backtrack_latest (h : OnRound d k) {y : Nat} (hy : (y : Int) = tip a b d k - k)
    (hd : fewest a b (tip a b d k) y = d) (steps : List Step) :
    backtrack (recorded a b (d + 1)) (tip a b d k) y steps = latest a b (tip a b d k) y ++ steps := by
  induction d generalizing k y steps with
  | zero =>
    have h0 := onRound_zero h
    subst h0
    obtain ⟨r, hr, -, hwalk⟩ := latest_walk h (tip a b 0 0 - entry a b 0 0)
      (by have := entry_le_tip (a := a) (b := b) 0 0; omega) hy hd steps
    obtain rfl : r = 0 := by
      rw [entry_zero] at hr
      omega
    rw [hwalk, backtrack_zero steps (by omega), entry_zero, latest, List.nil_append]
  | succ d ih =>
    have hle := entry_le_tip (a := a) (b := b) (d + 1) k
    obtain ⟨r, hr, hdr, hwalk⟩ :=
      latest_walk h (tip a b (d + 1) k - entry a b (d + 1) k) (by omega) hy hd steps
    rw [hwalk]
    rcases backtrack_succ h steps hy with ⟨j, hon, hj, heq, hback⟩ | ⟨j, hon, hj, heq, hother, hback⟩
    · obtain rfl : r = j + 1 := by omega
      have hcost := fewest_tip hon (entry_le_tip d (k + 1)) le_rfl hj
      have hstep := fewest_insert_le a b (tip a b d (k + 1)) j
      rw [heq] at hdr hback ⊢
      rw [hback, ih hon hj (by omega), latest_insert (by omega), List.append_assoc,
        List.singleton_append]
    · obtain rfl : r = j := by omega
      have hcost := fewest_tip hon (entry_le_tip d (k - 1)) le_rfl hj
      have hstep := fewest_delete_le a b (tip a b d (k - 1)) r
      rw [heq] at hdr hback ⊢
      have hinsert : ∀ l, r = l + 1 → ¬fewest a b (tip a b d (k - 1) + 1) l <
          fewest a b (tip a b d (k - 1) + 1) r := by
        rintro l rfl hlt
        obtain ⟨hup, hle'⟩ := le_tip a b (tip a b d (k - 1) + 1) l
        have hstep' := fewest_insert_le a b (tip a b d (k - 1) + 1) l
        rw [show fewest a b (tip a b d (k - 1) + 1) l = d by omega,
          show ((tip a b d (k - 1) + 1 : Nat) : Int) - l = k + 1 by omega] at hup hle'
        have := hother hup
        omega
      rw [hback, ih hon hj (by omega), latest_delete hinsert (by omega), List.append_assoc,
        List.singleton_append]

/-- Of the shortest scripts the search returns the latest. -/
theorem myers_latest (a b : List α) : myers a b = some (latest a b a.length b.length) := by
  obtain ⟨last, k, hon, hend, hfirst, hsearch⟩ :=
    searchFrom_spec a b (a.length + b.length + 1) (d := 0) (by omega)
      (by intro e he; omega)
  obtain ⟨hx, hy⟩ := first_end hon hend hfirst
  have hmost := fewest_tip hon (entry_le_tip last k) le_rfl hy.symm
  have hleast : last ≤ fewest a b a.length b.length := by
    obtain ⟨hon', hle⟩ := le_tip a b a.length b.length
    by_contra hlt
    exact hfirst _ (by omega) _ hon' ((ends_iff hon').2 ⟨hle, by omega⟩)
  rw [hx] at hmost
  have hback := backtrack_latest hon hy.symm (by rw [hx]; omega) []
  rw [hx, List.append_nil] at hback
  rw [← hback]
  exact hsearch

end

end Txtodo
