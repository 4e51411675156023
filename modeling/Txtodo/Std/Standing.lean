import Mathlib.Data.List.Perm.Basic
import Mathlib.Order.Lattice
import Mathlib.Order.MinMax
import Mathlib.Data.Set.Finite.Lemmas

/-!
# Standing under stamps

A thing that is placed, taken down, put up again and sent away by acts that carry stamps and are received in
any order. It stands at its newest placement; of a take-down and a put-up the newer one counts, as far as
these two know of each other; sending it away leaves no stamp at all. Which sets of acts leave the same,
whatever their order.
-/

namespace Txtodo

/-- The placement a thing stands at, its newest placement, and when it was last taken down and last put up. -/
structure Standing (α : Type*) where
  shown : Option α
  newest : α
  died : α
  reborn : α
  deriving DecidableEq

namespace Standing

/-- An act and its stamp; one that leaves no stamp has none. -/
inductive Act (α : Type*) where
  | takeDown (at_ : α)
  | putUp (at_ : α)
  | place (at_ : α)
  | sendAway
  deriving DecidableEq

variable {α : Type*}

/-- The stamp of the placement an act makes. -/
def Act.placed : Act α → Option α
  | .putUp i => some i
  | .place m => some m
  | _ => none

variable [LinearOrder α]

def step (σ : Standing α) : Act α → Standing α
  | .takeDown d => { σ with shown := if σ.reborn ≤ d then none else σ.shown, died := max σ.died d }
  | .putUp i =>
    { σ with
      shown := if σ.shown.isSome ∨ σ.died ≤ i then some (max σ.newest i) else none
      newest := max σ.newest i
      reborn := max σ.reborn i }
  | .place m => { σ with shown := σ.shown.map (max · m), newest := max σ.newest m }
  | .sendAway => { σ with shown := none }

/-- Acts received one after the other. -/
def run (σ : Standing α) (acts : List (Act α)) : Standing α := acts.foldl step σ

variable {σ : Standing α} {acts l l' : List (Act α)} {d i x : α}

/-- No take-down and put-up share a stamp. -/
def Apart (acts : List (Act α)) : Prop := ∀ d i, Act.takeDown d ∈ acts → Act.putUp i ∈ acts → d ≠ i

/-- The newest of the stamps that acts of one kind carry. -/
theorem exists_newest {f : α → Act α} (hf : Function.Injective f) (hx : f x ∈ acts) :
    ∃ y, f y ∈ acts ∧ ∀ z, f z ∈ acts → z ≤ y :=
  Set.exists_max_image _ id ((List.finite_toSet acts).preimage hf.injOn) ⟨x, hx⟩

end Standing

end Txtodo
