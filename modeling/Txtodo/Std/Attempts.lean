import Mathlib.Data.List.Basic

/-!
# Attempts

A bounded retry: candidates tried in order, each turn going on with a new state or ending the loop with a
result. What the loop tries, and what its turns keep.
-/

namespace Txtodo

variable {α σ ρ : Type}

/-- The candidates tried in order from `s`: the state left, and the result of the first turn that ended
the loop. -/
def attempts (turn : σ → α → σ × Option ρ) : σ → List α → σ × Option ρ
  | s, [] => (s, none)
  | s, c :: cs =>
    match turn s c with
    | (s, none) => attempts turn s cs
    | (s, some r) => (s, some r)

namespace Attempts

/-- The candidates a run looks at. -/
def tried (turn : σ → α → σ × Option ρ) : σ → List α → List α
  | _, [] => []
  | s, c :: cs =>
    match turn s c with
    | (s, none) => c :: tried turn s cs
    | (_, some _) => [c]

variable {turn : σ → α → σ × Option ρ} {s s' : σ} {c : α} {cs : List α} {r : ρ}

theorem attempts_next (h : turn s c = (s', none)) :
    attempts turn s (c :: cs) = attempts turn s' cs := by
  rw [attempts, h]

theorem attempts_stop (h : turn s c = (s', some r)) : attempts turn s (c :: cs) = (s', some r) := by
  rw [attempts, h]

theorem tried_next (h : turn s c = (s', none)) :
    tried turn s (c :: cs) = c :: tried turn s' cs := by
  rw [tried, h]

theorem tried_stop (h : turn s c = (s', some r)) : tried turn s (c :: cs) = [c] := by
  rw [tried, h]

/-- A loop tries its candidates in order, from the first. -/
theorem tried_isPrefix (turn : σ → α → σ × Option ρ) (s : σ) (cs : List α) :
    tried turn s cs <+: cs := by
  induction cs generalizing s with
  | nil => exact List.nil_prefix
  | cons c cs ih =>
    rcases hturn : turn s c with ⟨s', result⟩
    cases result with
    | none =>
      rw [tried_next hturn]
      exact List.cons_prefix_cons.mpr ⟨rfl, ih s'⟩
    | some r =>
      rw [tried_stop hturn]
      exact List.cons_prefix_cons.mpr ⟨rfl, List.nil_prefix⟩

/-- What every turn that goes on keeps holds of the state the last turn starts from: the loop either ran
out of candidates there, or ended with that turn's result. -/
theorem attempts_ind (turn : σ → α → σ × Option ρ) (cs : List α) (keeps : σ → Prop)
    (hturn : ∀ s, ∀ c ∈ cs, keeps s → (turn s c).2 = none → keeps (turn s c).1) (hs : keeps s) :
    (keeps (attempts turn s cs).1 ∧ (attempts turn s cs).2 = none) ∨
      ∃ s₀, keeps s₀ ∧ ∃ c ∈ cs, ∃ r, turn s₀ c = ((attempts turn s cs).1, some r) ∧
        (attempts turn s cs).2 = some r := by
  induction cs generalizing s with
  | nil => exact .inl ⟨hs, rfl⟩
  | cons c cs ih =>
    rcases hc : turn s c with ⟨s', result⟩
    cases result with
    | none =>
      have hs' : keeps s' := by
        have hkept := hturn s c List.mem_cons_self hs (by rw [hc])
        rwa [hc] at hkept
      rw [attempts_next hc]
      obtain hout | ⟨s₀, hs₀, c', hmem, r, hr, hend⟩ :=
        ih (fun s c hmem => hturn s c (List.mem_cons_of_mem _ hmem)) hs'
      · exact .inl hout
      · exact .inr ⟨s₀, hs₀, c', List.mem_cons_of_mem _ hmem, r, hr, hend⟩
    | some r =>
      rw [attempts_stop hc]
      exact .inr ⟨s, hs, c, List.mem_cons_self, r, hc, rfl⟩

/-- A loop whose turns decide by `busy` alone, on a state they keep, tries the first candidate that is not
busy and the ones before it. -/
theorem lt_length_tried_iff (turn : σ → α → σ × Option ρ) (cs : List α) (busy : α → Bool) (keeps : σ → Prop)
    (hbusy : ∀ s c, keeps s → busy c = true → (turn s c).2 = none ∧ keeps (turn s c).1)
    (hfree : ∀ s c, keeps s → busy c = false → ((turn s c).2).isSome) (hs : keeps s) {n : Nat} :
    (n < (tried turn s cs).length) ↔ n < cs.length ∧ ∀ i < n, ∀ c, cs[i]? = some c → busy c = true := by
  induction cs generalizing s n with
  | nil => simp [tried]
  | cons c cs ih =>
    cases hc : busy c with
    | true =>
      obtain ⟨hnone, hkept⟩ := hbusy s c hs hc
      have hturn : turn s c = ((turn s c).1, none) := by rw [← hnone]
      rw [tried_next hturn]
      cases n with
      | zero => simp
      | succ n =>
        rw [List.length_cons, Nat.add_lt_add_iff_right, ih hkept, List.length_cons,
          Nat.add_lt_add_iff_right]
        refine and_congr_right fun _ => ⟨fun h i hi c' hc' => ?_, fun h i hi c' hc' => ?_⟩
        · cases i with
          | zero =>
            obtain rfl : c = c' := by simpa using hc'
            exact hc
          | succ i => exact h i (by omega) c' (by simpa using hc')
        · exact h (i + 1) (by omega) c' (by simpa using hc')
    | false =>
      obtain ⟨r, hr⟩ := Option.isSome_iff_exists.mp (hfree s c hs hc)
      have hturn : turn s c = ((turn s c).1, some r) := by rw [← hr]
      rw [tried_stop hturn]
      cases n with
      | zero => simp
      | succ n =>
        refine ⟨fun h => absurd h (by simp), fun h => ?_⟩
        have hfirst := h.2 0 (by omega) c rfl
        rw [hc] at hfirst
        cases hfirst

end Attempts

end Txtodo
