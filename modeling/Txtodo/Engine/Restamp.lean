import Txtodo.Engine.Slots
import Txtodo.Engine.Reachable

/-!
# Stamps of a document

What every stamp a document holds satisfies, and the document with its stamps renamed: a commit made as
scratch ops and settled, and its replay as stamped ops, differ by such a renaming while they run.
-/

namespace Txtodo

/-- The history with its stamps renamed by `f`, in the order they stand. -/
def TextHistory.restamp (f : Hlc → Hlc) (h : TextHistory) : TextHistory :=
  ⟨h.base, f h.since, h.edits.map fun e => (f e.1, e.2)⟩

/-- The life with its stamps renamed by `f`. -/
def Life.restamp (f : Hlc → Hlc) (l : Life) : Life := ⟨l.died.map f, l.reborn.map f⟩

/-- The slot with its stamps renamed by `f`. -/
def Slot.restamp (f : Hlc → Hlc) (x : Slot) : Slot :=
  { x with stamp := f x.stamp, parent := x.parent.map fun p => (p.1, f p.2) }

/-- The spot with its parent's stamp renamed by `f`. -/
def Spot.restamp (f : Hlc → Hlc) (spot : Spot) : Spot :=
  { spot with parent := spot.parent.map fun p => (p.1, f p.2) }

namespace DocState

/-- The document with its stamps renamed by `f`. -/
def restamp (f : Hlc → Hlc) (s : DocState) : DocState :=
  { s with
    stamps := s.stamps.map f
    parents := s.parents.map (Option.map fun p => (p.1, f p.2))
    fieldStamps := fun t field => (s.fieldStamps t field).map f
    textHistory := fun t => (s.textHistory t).map (TextHistory.restamp f)
    life := fun t => (s.life t).map (Life.restamp f) }

/-- Every stamp of a placement, a parent, a field, a death or a rebirth satisfies `A`, and every text
history `P`. -/
structure Keeps (A : Hlc → Prop) (P : TextHistory → Prop) (s : DocState) : Prop where
  stamps : ∀ x ∈ s.stamps, A x
  parents : ∀ p ∈ s.parents, ∀ q ∈ p, A q.2
  fields : ∀ t f x, s.fieldStamps t f = some x → A x
  texts : ∀ t h, s.textHistory t = some h → P h
  life : ∀ t l, s.life t = some l → (∀ d ∈ l.died, A d) ∧ ∀ r ∈ l.reborn, A r

/-- Every stamp the document holds anywhere satisfies `A`. -/
def Holds (A : Hlc → Prop) (s : DocState) : Prop :=
  s.Keeps A fun h => A h.since ∧ ∀ e ∈ h.edits, A e.1

/-- The state after `ops` when all of them apply. -/
def replay (s : DocState) (ops : List Op) : Option DocState :=
  ops.foldlM (fun s op => match s.apply op with
    | ⟨s, .ok ()⟩ => some s
    | ⟨_, .error _⟩ => none) s

end DocState

/-- The call's outcome with the stamps of its state renamed by `f`. -/
def Outcome.restamp (f : Hlc → Hlc) (out : Outcome) : Outcome := ⟨out.state.restamp f, out.result⟩

end Txtodo
