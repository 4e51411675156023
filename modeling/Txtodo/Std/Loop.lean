import Mathlib.Order.WellFounded

/-!
# Loops

A loop whose turn goes on with a state or stops with a result, run with a bound on its turns; loops that
end, and what a loop that stops has kept.
-/

namespace Txtodo

variable {σ ρ : Type}

/-- At most `n` turns from `s`: the result, `none` when none of them stops. -/
def loop (turn : σ → σ ⊕ ρ) : Nat → σ → Option ρ
  | 0, _ => none
  | n + 1, s =>
    match turn s with
    | .inl s => loop turn n s
    | .inr r => some r

namespace Loop

/-- Some number of turns from `s` ends the loop. -/
inductive Ends (turn : σ → σ ⊕ ρ) : σ → Prop where
  | stop {s : σ} {r : ρ} (h : turn s = .inr r) : Ends turn s
  | go {s s' : σ} (h : turn s = .inl s') (hs : Ends turn s') : Ends turn s

variable {turn : σ → σ ⊕ ρ} {s s' : σ} {r : ρ} {n m : Nat}

theorem loop_go (h : turn s = .inl s') : loop turn (n + 1) s = loop turn n s' := by
  rw [loop, h]

theorem loop_stop (h : turn s = .inr r) : loop turn (n + 1) s = some r := by
  rw [loop, h]

/-- More turns do not change a result. -/
theorem loop_mono (h : loop turn n s = some r) (hle : n ≤ m) : loop turn m s = some r := by
  induction n generalizing s m with
  | zero => cases h
  | succ n ih =>
    obtain ⟨m, rfl⟩ : ∃ m', m = m' + 1 := ⟨m - 1, by omega⟩
    cases hturn : turn s with
    | inl s' =>
      rw [loop_go hturn] at h ⊢
      exact ih h (by omega)
    | inr x =>
      rw [loop_stop hturn] at h ⊢
      exact h

/-- A loop that ends has a result, whatever the bound past some number of turns. -/
theorem Ends.exists_result (h : Ends turn s) : ∃ r n, ∀ m, n ≤ m → loop turn m s = some r := by
  induction h with
  | @stop s r h => exact ⟨r, 1, fun m hm => loop_mono (n := 1) (loop_stop h) hm⟩
  | @go s s' h _ ih =>
    obtain ⟨r, n, hn⟩ := ih
    exact ⟨r, n + 1, fun m hm => loop_mono (n := n + 1) ((loop_go h).trans (hn n le_rfl)) hm⟩

/-- A loop ends from `s` when it ends wherever its next turn leads. -/
theorem Ends.of_turn (h : ∀ s', turn s = .inl s' → Ends turn s') : Ends turn s := by
  cases hturn : turn s with
  | inl s' => exact .go hturn (h s' hturn)
  | inr r => exact .stop hturn

/-- A loop ends from every state that satisfies `P` when each turn that goes on ends or leads to a
smaller state that satisfies it. -/
theorem Ends.of_measure {P : σ → Prop} (f : σ → Nat)
    (h : ∀ s s', P s → turn s = .inl s' → Ends turn s' ∨ P s' ∧ f s' < f s) (hs : P s) :
    Ends turn s := by
  induction hn : f s using Nat.strong_induction_on generalizing s with
  | _ n ih =>
    refine .of_turn fun s' hturn => ?_
    rcases h s s' hs hturn with hends | ⟨hs', hlt⟩
    · exact hends
    · exact ih (f s') (hn ▸ hlt) hs' rfl

/-- A loop whose turns make a state smaller has a result within as many turns. -/
theorem exists_result_of_measure (f : σ → Nat) (h : ∀ s s', turn s = .inl s' → f s' < f s)
    (hn : f s < n) : ∃ r, loop turn n s = some r := by
  induction n generalizing s with
  | zero => exact absurd hn (Nat.not_lt_zero _)
  | succ n ih =>
    cases hturn : turn s with
    | inl s' =>
      rw [loop_go hturn]
      exact ih ((h s s' hturn).trans_le (Nat.le_of_lt_succ hn))
    | inr r => exact ⟨r, loop_stop hturn⟩

/-- What every turn keeps and every stop turns into `Q` holds of the result. -/
theorem result_of_invariant {P : σ → Prop} {Q : ρ → Prop}
    (hgo : ∀ s s', P s → turn s = .inl s' → P s') (hstop : ∀ s r, P s → turn s = .inr r → Q r)
    (hs : P s) (h : loop turn n s = some r) : Q r := by
  induction n generalizing s with
  | zero => cases h
  | succ n ih =>
    cases hturn : turn s with
    | inl s' => exact ih (hgo s s' hs hturn) ((loop_go hturn).symm.trans h)
    | inr x =>
      obtain rfl := Option.some.inj ((loop_stop hturn).symm.trans h)
      exact hstop s x hs hturn

end Loop

end Txtodo
