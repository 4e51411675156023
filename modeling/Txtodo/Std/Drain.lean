import Mathlib.Data.List.Basic

/-!
# Items off the front of a stream

A reader takes items off the front of the bytes it holds and keeps the rest until more come. When its
steps stand whatever follows, the items do not depend on where the stream was cut.
-/

namespace Drain

variable {α β ε : Type*}

/-- One step of a reader: an item with what is left after it, none as yet, or an error. -/
abbrev Step (α β ε : Type*) := List β → Except ε (Option (α × List β))

/-- The items taken off the front of `bs` in at most `n` steps, and what is left. -/
def drainN (step : Step α β ε) : Nat → List β → Except ε (List α × List β)
  | 0, bs => .ok ([], bs)
  | n + 1, bs =>
    match step bs with
    | .error e => .error e
    | .ok none => .ok ([], bs)
    | .ok (some x) =>
      match drainN step n x.2 with
      | .error e => .error e
      | .ok y => .ok (x.1 :: y.1, y.2)

/-- All the items: every one takes a byte at least. -/
def drain (step : Step α β ε) (bs : List β) : Except ε (List α × List β) :=
  drainN step (bs.length + 1) bs

/-- The items of a stream that comes piece by piece, `carry` being left of the pieces before. -/
def pieces (step : Step α β ε) : List β → List (List β) → Except ε (List α × List β)
  | carry, [] => .ok ([], carry)
  | carry, p :: ps =>
    match drain step (carry ++ p) with
    | .error e => .error e
    | .ok x =>
      match pieces step x.2 ps with
      | .error e => .error e
      | .ok y => .ok (x.1 ++ y.1, y.2)

/-- A step takes something and stands whatever follows. -/
structure Stable (step : Step α β ε) : Prop where
  shorter : ∀ {bs x}, step bs = .ok (some x) → x.2.length < bs.length
  some_append : ∀ {bs x} more, step bs = .ok (some x) → step (bs ++ more) = .ok (some (x.1, x.2 ++ more))
  error_append : ∀ {bs e} more, step bs = .error e → step (bs ++ more) = .error e

section Steps
variable {step : Step α β ε} {bs carry : List β}

theorem drain_of_error {e : ε} (h : step bs = .error e) : drain step bs = .error e := by
  rw [drain, drainN, h]

theorem drain_of_none (h : step bs = .ok none) : drain step bs = .ok ([], bs) := by
  rw [drain, drainN, h]

variable (hstable : Stable step)
include hstable

/-- More steps than bytes are enough. -/
theorem drainN_congr {n m : Nat} (hn : bs.length < n) (hm : bs.length < m) :
    drainN step n bs = drainN step m bs := by
  induction n generalizing m bs with
  | zero => exact absurd hn (Nat.not_lt_zero _)
  | succ n ih =>
    obtain ⟨m, rfl⟩ := Nat.exists_eq_add_one_of_ne_zero (Nat.ne_zero_of_lt hm)
    rw [drainN, drainN]
    cases hstep : step bs with
    | error e => rfl
    | ok o =>
      cases o with
      | none => rfl
      | some x =>
        have hlt := hstable.shorter hstep
        dsimp only
        rw [ih (m := m) (by omega) (by omega)]

theorem drain_of_some {x : α × List β} (h : step bs = .ok (some x)) :
    drain step bs =
      match drain step x.2 with
      | .error e => .error e
      | .ok y => .ok (x.1 :: y.1, y.2) := by
  have hlt := hstable.shorter h
  rw [drain, drainN, h]
  dsimp only
  rw [drainN_congr hstable hlt (Nat.lt_add_one _)]
  rfl

/-- What the reader keeps has no item in front. -/
theorem step_of_drain {y : List α × List β} (h : drain step bs = .ok y) : step y.2 = .ok none := by
  induction hlen : bs.length using Nat.strongRecOn generalizing bs y with
  | ind n ih =>
    cases hstep : step bs with
    | error e =>
      rw [drain_of_error hstep] at h
      cases h
    | ok o =>
      cases o with
      | none =>
        rw [drain_of_none hstep] at h
        cases h
        exact hstep
      | some x =>
        rw [drain_of_some hstable hstep] at h
        cases hrest : drain step x.2 with
        | error e =>
          rw [hrest] at h
          cases h
        | ok z =>
          rw [hrest] at h
          cases h
          show step z.2 = .ok none
          exact ih _ (hlen ▸ hstable.shorter hstep) hrest rfl

/-- The items of a stream are those of a first part and then those of what is left and the rest. -/
theorem drain_append (more : List β) :
    drain step (bs ++ more) =
      match drain step bs with
      | .error e => .error e
      | .ok x =>
        match drain step (x.2 ++ more) with
        | .error e => .error e
        | .ok y => .ok (x.1 ++ y.1, y.2) := by
  induction hlen : bs.length using Nat.strongRecOn generalizing bs with
  | ind n ih =>
    cases hstep : step bs with
    | error e => rw [drain_of_error hstep, drain_of_error (hstable.error_append more hstep)]
    | ok o =>
      cases o with
      | none =>
        rw [drain_of_none hstep]
        dsimp only
        cases drain step (bs ++ more) with
        | error e => rfl
        | ok y => rfl
      | some x =>
        rw [drain_of_some hstable hstep, drain_of_some hstable (hstable.some_append more hstep)]
        dsimp only
        rw [ih _ (hlen ▸ hstable.shorter hstep) rfl]
        cases drain step x.2 with
        | error e => rfl
        | ok z =>
          dsimp only
          cases drain step (z.2 ++ more) with
          | error e => rfl
          | ok y => rfl

/-- A first part of an item has no item in front of it, and no error. -/
theorem step_of_part {p q rest : List β} {a : α} (h : step (p ++ q ++ rest) = .ok (some (a, rest))) (hq : q ≠ []) :
    step p = .ok none := by
  have hlen : 0 < q.length := List.length_pos_iff.2 hq
  cases hp : step p with
  | error e =>
    rw [List.append_assoc, hstable.error_append (q ++ rest) hp] at h
    cases h
  | ok o =>
    cases o with
    | none => rfl
    | some x =>
      rw [List.append_assoc, hstable.some_append (q ++ rest) hp] at h
      have hrest : x.2 ++ (q ++ rest) = rest := congrArg Prod.snd (Option.some.inj (Except.ok.inj h))
      have := congrArg List.length hrest
      rw [List.length_append, List.length_append] at this
      omega

/-- It does not matter where a stream is cut. -/
theorem pieces_eq (ps : List (List β)) (hcarry : step carry = .ok none) :
    pieces step carry ps = drain step (carry ++ ps.flatten) := by
  induction ps generalizing carry with
  | nil => rw [pieces, List.flatten_nil, List.append_nil, drain_of_none hcarry]
  | cons p ps ih =>
    rw [pieces, List.flatten_cons, ← List.append_assoc, drain_append hstable ps.flatten]
    cases hp : drain step (carry ++ p) with
    | error e => rfl
    | ok x =>
      dsimp only
      rw [ih (step_of_drain hstable hp)]

end Steps

section Frames
variable {γ : Type*} {step : Step α β ε} {frame : γ → List β} {Reads : γ → α → Prop}

/-- When every item is taken off with the bytes it was read from, the items taken off a stream are read
from what it begins with, and the rest is kept. -/
theorem frames_of_drainN
    (hframe : ∀ {bs x}, step bs = .ok (some x) → ∃ c, Reads c x.1 ∧ bs = frame c ++ x.2) {n : Nat} {bs : List β}
    {y : List α × List β} (h : drainN step n bs = .ok y) :
    ∃ cs, List.Forall₂ Reads cs y.1 ∧ bs = cs.flatMap frame ++ y.2 := by
  induction n generalizing bs y with
  | zero =>
    cases h
    exact ⟨[], .nil, rfl⟩
  | succ n ih =>
    rw [drainN] at h
    cases hstep : step bs with
    | error e =>
      rw [hstep] at h
      cases h
    | ok o =>
      rw [hstep] at h
      cases o with
      | none =>
        cases h
        exact ⟨[], .nil, rfl⟩
      | some x =>
        dsimp only at h
        cases hrest : drainN step n x.2 with
        | error e =>
          rw [hrest] at h
          cases h
        | ok z =>
          rw [hrest] at h
          cases h
          obtain ⟨c, hc, hbs⟩ := hframe hstep
          obtain ⟨cs, hcs, hx⟩ := ih hrest
          exact ⟨c :: cs, .cons hc hcs, by rw [hbs, hx, List.flatMap_cons, List.append_assoc]⟩

end Frames

end Drain
