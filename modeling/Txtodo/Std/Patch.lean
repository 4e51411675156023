import Mathlib.Data.List.Basic
import Mathlib.Order.Lattice

/-!
# Patches

A patch is a list of hunks, each a stretch of a file's lines with what becomes of them. Applying it reads the
old lines once, from the first to the last.

A script lists all lines of both files in order. Its hunks, cut out where it changes anything, turn the old
lines into the new ones as long as they show the lines as they stand.
-/

namespace Patch

variable {α : Type*}

inductive Kind where
  | same
  | del
  | add
deriving DecidableEq, Repr

/-- A stretch of lines with its place in both files, counted from 1. Where it has no line of a file, the
place is that of the line before it. -/
structure Hunk (α : Type*) where
  oldStart : Nat
  newStart : Nat
  body : List (Kind × α)

/-- How many lines of the old file a stretch takes. -/
def oldLen : List (Kind × α) → Nat
  | [] => 0
  | row :: body => if row.1 = .add then oldLen body else oldLen body + 1

/-- How many lines of the new file a stretch makes. -/
def newLen : List (Kind × α) → Nat
  | [] => 0
  | row :: body => if row.1 = .del then newLen body else newLen body + 1

/-- How many lines stand before the `len` lines that start at `start`. -/
def before (start len : Nat) : Option Nat :=
  if len = 0 then some start else if start = 0 then none else some (start - 1)

/-- The place of `len` lines behind `n` others. -/
def first (n len : Nat) : Nat := if len = 0 then n else n + 1

@[simp] theorem before_first (n len : Nat) : before (first n len) len = some n := by
  unfold before first
  split_ifs <;> simp_all

section Apply
variable [DecidableEq α]

/-- What a stretch makes of the lines it starts at, and the lines behind it. -/
def applyBody : List (Kind × α) → List α → Option (List α × List α)
  | [], old => some ([], old)
  | (.add, line) :: body, old => (applyBody body old).map fun r => (line :: r.1, r.2)
  | (.same, _) :: _, [] => none
  | (.same, line) :: body, o :: old =>
    if o = line then (applyBody body old).map fun r => (line :: r.1, r.2) else none
  | (.del, _) :: _, [] => none
  | (.del, line) :: body, o :: old => if o = line then applyBody body old else none

/-- The file made of the lines that are left, when `read` lines were read and `made` lines made. -/
def applyHunks (old : List α) (read made : Nat) : List (Hunk α) → Option (List α)
  | [] => some old
  | h :: hs =>
    match before h.oldStart (oldLen h.body), before h.newStart (newLen h.body) with
    | some o, some n =>
      if read ≤ o ∧ o - read ≤ old.length ∧ n = made + (o - read) then
        (applyBody h.body (old.drop (o - read))).bind fun r =>
          (applyHunks r.2 (o + oldLen h.body) (n + newLen h.body) hs).map
            fun tail => old.take (o - read) ++ (r.1 ++ tail)
      else none
    | _, _ => none

/-- The file a patch makes of `old`. -/
def apply (old : List α) (hunks : List (Hunk α)) : Option (List α) := applyHunks old 0 0 hunks

end Apply

/-! ## Scripts -/

/-- One line of a script: as it stands in the old file, and as a hunk shows it. -/
structure Entry (α : Type*) where
  kind : Kind
  held : α
  shown : α

namespace Entry

def row (e : Entry α) : Kind × α := (e.kind, e.shown)

/-- The line is shown as the old file has it. -/
def Fits (e : Entry α) : Prop := e.kind ≠ .add → e.shown = e.held

end Entry

/-- The old file's lines. -/
def olds : List (Entry α) → List α
  | [] => []
  | e :: es => if e.kind = .add then olds es else e.held :: olds es

/-- The new file's lines, where a line that stays is as the old file has it. -/
def news : List (Entry α) → List α
  | [] => []
  | e :: es =>
    match e.kind with
    | .same => e.held :: news es
    | .del => news es
    | .add => e.shown :: news es

theorem olds_add {e : Entry α} {es : List (Entry α)} (h : e.kind = .add) : olds (e :: es) = olds es := if_pos h

theorem olds_of_ne {e : Entry α} {es : List (Entry α)} (h : e.kind ≠ .add) :
    olds (e :: es) = e.held :: olds es := if_neg h

@[simp] theorem olds_nil : olds ([] : List (Entry α)) = [] := rfl
@[simp] theorem news_nil : news ([] : List (Entry α)) = [] := rfl

theorem olds_append (xs ys : List (Entry α)) : olds (xs ++ ys) = olds xs ++ olds ys := by
  induction xs with
  | nil => rfl
  | cons e xs ih =>
    rw [List.cons_append, olds, olds, ih]
    split_ifs <;> rfl

theorem news_append (xs ys : List (Entry α)) : news (xs ++ ys) = news xs ++ news ys := by
  induction xs with
  | nil => rfl
  | cons e xs ih =>
    rw [List.cons_append, news, news, ih]
    cases e.kind <;> rfl

/-- A stretch in which nothing changes. -/
theorem news_of_same {es : List (Entry α)} (h : ∀ e ∈ es, e.kind = .same) : news es = olds es := by
  induction es with
  | nil => rfl
  | cons e es ih =>
    obtain ⟨he, hes⟩ := List.forall_mem_cons.1 h
    rw [news, olds, he, ih hes]
    rfl

theorem oldLen_map_row (es : List (Entry α)) : oldLen (es.map Entry.row) = (olds es).length := by
  induction es with
  | nil => rfl
  | cons e es ih =>
    rw [List.map_cons, oldLen, olds, ih]
    cases hkind : e.kind <;> simp [Entry.row, hkind]

theorem newLen_map_row (es : List (Entry α)) : newLen (es.map Entry.row) = (news es).length := by
  induction es with
  | nil => rfl
  | cons e es ih =>
    rw [List.map_cons, newLen, news, ih]
    cases hkind : e.kind <;> simp [Entry.row, hkind]

/-- The hunk that shows `seg`, behind `pre`. -/
def hunkOf (pre seg : List (Entry α)) : Hunk α :=
  ⟨first (olds pre).length (olds seg).length, first (news pre).length (news seg).length, seg.map Entry.row⟩

section Apply
variable [DecidableEq α]

/-- A stretch finds its lines when they are shown as they stand, and only then. -/
theorem applyBody_rows (seg : List (Entry α)) (rest : List α) :
    ((∀ e ∈ seg, e.Fits) → applyBody (seg.map Entry.row) (olds seg ++ rest) = some (news seg, rest)) ∧
      ∀ r, applyBody (seg.map Entry.row) (olds seg ++ rest) = some r → ∀ e ∈ seg, e.Fits := by
  induction seg with
  | nil => exact ⟨fun _ => rfl, fun _ _ => List.forall_mem_nil _⟩
  | cons e seg ih =>
    obtain ⟨kind, held, shown⟩ := e
    rw [List.map_cons, List.forall_mem_cons]
    cases kind with
    | same =>
      have hkind : Kind.same ≠ Kind.add := by decide
      rw [olds, if_neg hkind, List.cons_append, Entry.row, applyBody, news]
      constructor
      · rintro ⟨hfits, hrest⟩
        obtain rfl : shown = held := hfits hkind
        rw [if_pos rfl, ih.1 hrest, Option.map_some]
      · intro r hr
        by_cases heq : held = shown
        · rw [if_pos heq] at hr
          obtain ⟨s, hs, -⟩ := Option.map_eq_some_iff.1 hr
          have hfits : (⟨.same, held, shown⟩ : Entry α).Fits := fun _ => heq.symm
          exact ⟨hfits, ih.2 s hs⟩
        · rw [if_neg heq] at hr
          cases hr
    | del =>
      have hkind : Kind.del ≠ Kind.add := by decide
      rw [olds, if_neg hkind, List.cons_append, Entry.row, applyBody, news]
      constructor
      · rintro ⟨hfits, hrest⟩
        obtain rfl : shown = held := hfits hkind
        rw [if_pos rfl, ih.1 hrest]
      · intro r hr
        by_cases heq : held = shown
        · rw [if_pos heq] at hr
          have hfits : (⟨.del, held, shown⟩ : Entry α).Fits := fun _ => heq.symm
          exact ⟨hfits, ih.2 r hr⟩
        · rw [if_neg heq] at hr
          cases hr
    | add =>
      rw [olds, if_pos rfl, Entry.row, applyBody, news]
      constructor
      · rintro ⟨-, hrest⟩
        rw [ih.1 hrest, Option.map_some]
      · intro r hr
        obtain ⟨s, hs, -⟩ := Option.map_eq_some_iff.1 hr
        have hfits : (⟨.add, held, shown⟩ : Entry α).Fits := fun h => absurd rfl h
        exact ⟨hfits, ih.2 s hs⟩

end Apply

/-! ## Stretches of a script -/

/-- The entries from `s` up to `e`. -/
def slice (es : List (Entry α)) (r : Nat × Nat) : List (Entry α) := (es.take r.2).drop r.1

theorem take_slice (es : List (Entry α)) {s e : Nat} (h : s ≤ e) :
    es.take e = es.take s ++ slice es (s, e) := by
  conv_lhs => rw [← List.take_append_drop s (es.take e), List.take_take, min_eq_left h]
  rfl

theorem slice_drop (es : List (Entry α)) {s e : Nat} (h : s ≤ e) :
    es.drop s = slice es (s, e) ++ es.drop e := by
  have hsplit : es = es.take e ++ es.drop e := (List.take_append_drop e es).symm
  by_cases hlen : s ≤ (es.take e).length
  · conv_lhs => rw [hsplit, List.drop_append_of_le_length hlen]
    rfl
  · rw [List.length_take] at hlen
    have hshort : es.length < s := by omega
    rw [List.drop_eq_nil_of_le (by omega), List.drop_eq_nil_of_le (by omega), slice,
      List.drop_eq_nil_of_le (by rw [List.length_take]; omega)]
    rfl

/-- From `p` on nothing changes outside the ranges. -/
def Covers (es : List (Entry α)) (p : Nat) : List (Nat × Nat) → Prop
  | [] => ∀ e ∈ es.drop p, e.kind = .same
  | r :: rs => p ≤ r.1 ∧ r.1 ≤ r.2 ∧ (∀ e ∈ slice es (p, r.1), e.kind = .same) ∧ Covers es r.2 rs

/-- The hunk that shows a range. -/
def hunkAt (es : List (Entry α)) (r : Nat × Nat) : Hunk α := hunkOf (es.take r.1) (slice es r)

variable [DecidableEq α]

/-- The hunks of ranges that cover all changes make the new lines of the old ones when they show the lines as
they stand, and nothing otherwise. -/
theorem applyHunks_ranges {es : List (Entry α)} {p : Nat} {rs : List (Nat × Nat)} (h : Covers es p rs) :
    ((∀ r ∈ rs, ∀ e ∈ slice es r, e.Fits) →
      applyHunks (olds (es.drop p)) (olds (es.take p)).length (news (es.take p)).length (rs.map (hunkAt es)) =
        some (news (es.drop p))) ∧
    ∀ out, applyHunks (olds (es.drop p)) (olds (es.take p)).length (news (es.take p)).length
        (rs.map (hunkAt es)) = some out → ∀ r ∈ rs, ∀ e ∈ slice es r, e.Fits := by
  induction rs generalizing p with
  | nil =>
    refine ⟨fun _ => ?_, fun _ _ => List.forall_mem_nil _⟩
    rw [List.map_nil, applyHunks, news_of_same h]
  | cons r rs ih =>
    obtain ⟨s, e⟩ := r
    obtain ⟨hps, hse, hgap, hrest⟩ := h
    dsimp only at hps hse hgap hrest
    have ih := ih hrest
    have hsame := news_of_same hgap
    have hold : olds (es.drop p) = olds (slice es (p, s)) ++ (olds (slice es (s, e)) ++ olds (es.drop e)) := by
      rw [← olds_append, ← olds_append, ← slice_drop es hse, ← slice_drop es hps]
    have hnew : news (es.drop p) = news (slice es (p, s)) ++ (news (slice es (s, e)) ++ news (es.drop e)) := by
      rw [← news_append, ← news_append, ← slice_drop es hse, ← slice_drop es hps]
    have hread : (olds (es.take s)).length = (olds (es.take p)).length + (olds (slice es (p, s))).length := by
      rw [← List.length_append, ← olds_append, ← take_slice es hps]
    have hmade : (news (es.take s)).length = (news (es.take p)).length + (olds (slice es (p, s))).length := by
      rw [← hsame, ← List.length_append, ← news_append, ← take_slice es hps]
    have hread' : (olds (es.take s)).length + oldLen ((slice es (s, e)).map Entry.row) =
        (olds (es.take e)).length := by
      rw [oldLen_map_row, ← List.length_append, ← olds_append, ← take_slice es hse]
    have hmade' : (news (es.take s)).length + newLen ((slice es (s, e)).map Entry.row) =
        (news (es.take e)).length := by
      rw [newLen_map_row, ← List.length_append, ← news_append, ← take_slice es hse]
    have hgone : (olds (es.take s)).length - (olds (es.take p)).length =
        (olds (slice es (p, s))).length := by omega
    have hstep : applyHunks (olds (es.drop p)) (olds (es.take p)).length (news (es.take p)).length
        (((s, e) :: rs).map (hunkAt es)) =
        (applyBody ((slice es (s, e)).map Entry.row) (olds (slice es (s, e)) ++ olds (es.drop e))).bind fun r =>
          (applyHunks r.2 (olds (es.take e)).length (news (es.take e)).length (rs.map (hunkAt es))).map
            fun tail => olds (slice es (p, s)) ++ (r.1 ++ tail) := by
      rw [List.map_cons, applyHunks]
      dsimp only [hunkAt, hunkOf]
      rw [← oldLen_map_row (slice es (s, e)), ← newLen_map_row (slice es (s, e)), before_first, before_first]
      dsimp only
      rw [hold, hgone, List.drop_left, List.take_left, hread', hmade', if_pos]
      refine ⟨by omega, ?_, hmade⟩
      rw [List.length_append]
      exact Nat.le_add_right _ _
    obtain ⟨hfits, hfound⟩ := applyBody_rows (slice es (s, e)) (olds (es.drop e))
    rw [hstep]
    constructor
    · intro hall
      obtain ⟨hfirst, hothers⟩ := List.forall_mem_cons.1 hall
      rw [hfits hfirst, Option.bind_some, ih.1 hothers, Option.map_some, hnew, hsame]
    · intro out hout
      obtain ⟨x, hbody, -⟩ := Option.bind_eq_some_iff.1 hout
      have hfirst := hfound x hbody
      rw [hfits hfirst, Option.bind_some] at hout
      obtain ⟨tail, htail, -⟩ := Option.map_eq_some_iff.1 hout
      exact List.forall_mem_cons.2 ⟨hfirst, ih.2 tail htail⟩

end Patch
