import Mathlib.Order.Basic
import Mathlib.Order.Lattice
import Mathlib.Data.List.Induction
import Mathlib.Tactic.Common

/-!
# Extremal elements of a list, ties included

`maxByKey` keeps the last of several greatest elements and `minByKey` the first of several least
ones, as an iterator's `max_by_key` and `min_by_key` do.
-/

namespace Iter

variable {α β : Type*} [LinearOrder β]

/-- The last element with the greatest key. -/
def maxByKey (key : α → β) : List α → Option α
  | [] => none
  | x :: xs => some (xs.foldl (fun best y => if key y < key best then best else y) x)

/-- The first element with the least key. -/
def minByKey (key : α → β) : List α → Option α
  | [] => none
  | x :: xs => some (xs.foldl (fun best y => if key y < key best then y else best) x)

variable {key : α → β} {l : List α} {m : α}

theorem foldl_max_spec (key : α → β) (xs : List α) (x : α) :
    xs.foldl (fun best y => if key y < key best then best else y) x ∈ x :: xs ∧
      ∀ y ∈ x :: xs,
        key y ≤ key (xs.foldl (fun best y => if key y < key best then best else y) x) := by
  induction xs generalizing x with
  | nil => simp
  | cons z xs ih =>
    rw [List.foldl_cons]
    obtain ⟨hmem, hmax⟩ := ih (if key z < key x then x else z)
    have hx : key x ≤ key (if key z < key x then x else z) := by
      split_ifs with h
      · exact le_rfl
      · exact not_lt.mp h
    have hz : key z ≤ key (if key z < key x then x else z) := by
      split_ifs with h
      · exact h.le
      · exact le_rfl
    have hhead := hmax _ (List.mem_cons_self ..)
    constructor
    · rcases List.mem_cons.mp hmem with h | h
      · rw [h]
        split_ifs <;> simp
      · simp [h]
    · intro y hy
      rcases List.mem_cons.mp hy with rfl | hy
      · exact hx.trans hhead
      · rcases List.mem_cons.mp hy with rfl | hy
        · exact hz.trans hhead
        · exact hmax y (List.mem_cons_of_mem _ hy)

theorem foldl_min_spec (key : α → β) (xs : List α) (x : α) :
    xs.foldl (fun best y => if key y < key best then y else best) x ∈ x :: xs ∧
      ∀ y ∈ x :: xs,
        key (xs.foldl (fun best y => if key y < key best then y else best) x) ≤ key y := by
  induction xs generalizing x with
  | nil => simp
  | cons z xs ih =>
    rw [List.foldl_cons]
    obtain ⟨hmem, hmin⟩ := ih (if key z < key x then z else x)
    have hx : key (if key z < key x then z else x) ≤ key x := by
      split_ifs with h
      · exact h.le
      · exact le_rfl
    have hz : key (if key z < key x then z else x) ≤ key z := by
      split_ifs with h
      · exact le_rfl
      · exact not_lt.mp h
    have hhead := hmin _ (List.mem_cons_self ..)
    constructor
    · rcases List.mem_cons.mp hmem with h | h
      · rw [h]
        split_ifs <;> simp
      · simp [h]
    · intro y hy
      rcases List.mem_cons.mp hy with rfl | hy
      · exact hhead.trans hx
      · rcases List.mem_cons.mp hy with rfl | hy
        · exact hhead.trans hz
        · exact hmin y (List.mem_cons_of_mem _ hy)

theorem maxByKey_mem (h : maxByKey key l = some m) : m ∈ l := by
  cases l with
  | nil => simp [maxByKey] at h
  | cons x xs => exact Option.some.inj h ▸ (foldl_max_spec key xs x).1

theorem le_maxByKey (h : maxByKey key l = some m) {y : α} (hy : y ∈ l) : key y ≤ key m := by
  cases l with
  | nil => simp [maxByKey] at h
  | cons x xs => exact Option.some.inj h ▸ (foldl_max_spec key xs x).2 y hy

/-- Smaller items after the greatest one do not replace it. -/
theorem foldl_max_of_lt {x : α} {xs : List α} (h : ∀ y ∈ xs, key y < key x) :
    xs.foldl (fun best y => if key y < key best then best else y) x = x := by
  induction xs with
  | nil => rfl
  | cons y xs ih =>
    rw [List.foldl_cons, if_pos (h y List.mem_cons_self)]
    exact ih fun z hz => h z (List.mem_cons_of_mem _ hz)

/-- The greatest item is the last of its key. -/
theorem maxByKey_append_cons {l₁ l₂ : List α} (h₁ : ∀ y ∈ l₁, key y ≤ key m)
    (h₂ : ∀ y ∈ l₂, key y < key m) : maxByKey key (l₁ ++ m :: l₂) = some m := by
  cases l₁ with
  | nil => exact congrArg some (foldl_max_of_lt h₂)
  | cons x xs =>
    have hle := h₁ _ (foldl_max_spec key xs x).1
    rw [List.cons_append, maxByKey, List.foldl_append, List.foldl_cons, if_neg (not_lt.2 hle)]
    exact congrArg some (foldl_max_of_lt h₂)

theorem exists_append_cons_of_maxByKey (h : maxByKey key l = some m) :
    ∃ l₁ l₂, l = l₁ ++ m :: l₂ ∧ (∀ y ∈ l₁, key y ≤ key m) ∧ ∀ y ∈ l₂, key y < key m := by
  cases l with
  | nil => cases h
  | cons x xs =>
    obtain rfl := Option.some.inj h
    clear h
    induction xs using List.reverseRecOn with
    | nil => exact ⟨[], [], rfl, by simp, by simp⟩
    | append_singleton xs z ih =>
      obtain ⟨l₁, l₂, heq, h₁, h₂⟩ := ih
      rw [List.foldl_append, List.foldl_cons, List.foldl_nil]
      split_ifs with hlt
      · refine ⟨l₁, l₂ ++ [z], ?_, h₁, fun y hy => ?_⟩
        · rw [← List.cons_append, heq, List.append_assoc, List.cons_append]
        · rcases List.mem_append.1 hy with hy | hy
          · exact h₂ y hy
          · rw [List.mem_singleton.1 hy]
            exact hlt
      · exact ⟨x :: xs, [], rfl,
          fun y hy => ((foldl_max_spec key xs x).2 y hy).trans (not_lt.1 hlt), by simp⟩

theorem minByKey_mem (h : minByKey key l = some m) : m ∈ l := by
  cases l with
  | nil => simp [minByKey] at h
  | cons x xs => exact Option.some.inj h ▸ (foldl_min_spec key xs x).1

theorem minByKey_le (h : minByKey key l = some m) {y : α} (hy : y ∈ l) : key m ≤ key y := by
  cases l with
  | nil => simp [minByKey] at h
  | cons x xs => exact Option.some.inj h ▸ (foldl_min_spec key xs x).2 y hy

@[simp] theorem maxByKey_eq_none : maxByKey key l = none ↔ l = [] := by
  cases l <;> simp [maxByKey]

@[simp] theorem minByKey_eq_none : minByKey key l = none ↔ l = [] := by
  cases l <;> simp [minByKey]

/-- Items renamed so that their keys keep their order. -/
theorem maxByKey_map {α' β' : Type*} [LinearOrder β'] {key' : α' → β'} (f : α → α')
    (h : ∀ a ∈ l, ∀ b ∈ l, (key' (f a) < key' (f b) ↔ key a < key b)) :
    maxByKey key' (l.map f) = (maxByKey key l).map f := by
  cases l with
  | nil => rfl
  | cons x xs =>
    have hfold : ∀ (ys : List α) (y : α), ys ⊆ x :: xs → y ∈ x :: xs →
        (ys.map f).foldl (fun best z => if key' z < key' best then best else z) (f y) =
          f (ys.foldl (fun best z => if key z < key best then best else z) y) := by
      intro ys
      induction ys with
      | nil => intro y _ _; rfl
      | cons z ys ih =>
        intro y hys hy
        obtain ⟨hz, hys⟩ := List.cons_subset.1 hys
        rw [List.map_cons, List.foldl_cons, List.foldl_cons]
        by_cases hlt : key z < key y
        · rw [if_pos ((h z hz y hy).2 hlt), if_pos hlt]
          exact ih y hys hy
        · rw [if_neg (mt (h z hz y hy).1 hlt), if_neg hlt]
          exact ih z hys hz
    exact congrArg some (hfold xs x (List.subset_cons_self ..) List.mem_cons_self)

theorem minByKey_map {α' β' : Type*} [LinearOrder β'] {key' : α' → β'} (f : α → α')
    (h : ∀ a ∈ l, ∀ b ∈ l, (key' (f a) < key' (f b) ↔ key a < key b)) :
    minByKey key' (l.map f) = (minByKey key l).map f := by
  cases l with
  | nil => rfl
  | cons x xs =>
    have hfold : ∀ (ys : List α) (y : α), ys ⊆ x :: xs → y ∈ x :: xs →
        (ys.map f).foldl (fun best z => if key' z < key' best then z else best) (f y) =
          f (ys.foldl (fun best z => if key z < key best then z else best) y) := by
      intro ys
      induction ys with
      | nil => intro y _ _; rfl
      | cons z ys ih =>
        intro y hys hy
        obtain ⟨hz, hys⟩ := List.cons_subset.1 hys
        rw [List.map_cons, List.foldl_cons, List.foldl_cons]
        by_cases hlt : key z < key y
        · rw [if_pos ((h z hz y hy).2 hlt), if_pos hlt]
          exact ih z hys hz
        · rw [if_neg (mt (h z hz y hy).1 hlt), if_neg hlt]
          exact ih y hys hy
    exact congrArg some (hfold xs x (List.subset_cons_self ..) List.mem_cons_self)

end Iter
