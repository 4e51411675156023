import Mathlib.Data.List.Sort
import Mathlib.Data.List.TakeWhile
import Mathlib.Data.List.InsertIdx
import Mathlib.Order.Defs.LinearOrder

/-!
# Lists in strict order of a key

A list whose items stand in strictly increasing order of a key is determined by its items. An item
with a new key is slotted in after every item whose key is not greater.
-/

namespace KeySorted

variable {α β : Type*} [LinearOrder β]

/-- The items of `l` stand in strictly increasing order of `key`. -/
def Sorted (key : α → β) (l : List α) : Prop := l.Pairwise fun a b => key a < key b

variable {key : α → β} {l l' : List α} {a : α}

theorem Sorted.nodup (h : Sorted key l) : l.Nodup := h.imp fun hlt heq => by simp [heq] at hlt

/-- Two sorted lists with the same items are the same list. -/
theorem Sorted.eq_of_mem_iff (h : Sorted key l) (h' : Sorted key l')
    (hmem : ∀ a, a ∈ l ↔ a ∈ l') : l = l' := by
  have hperm : l.Perm l' := (List.perm_ext_iff_of_nodup h.nodup h'.nodup).2 hmem
  exact hperm.eq_of_pairwise (fun a b _ _ hab hba => absurd (hab.trans hba) (lt_irrefl _)) h h'

/-- An item at the length of a prefix splits the list there. -/
theorem insertIdx_takeWhile (p : α → Bool) (l : List α) (a : α) :
    l.insertIdx (l.takeWhile p).length a = l.takeWhile p ++ a :: l.dropWhile p := by
  induction l with
  | nil => rfl
  | cons b l ih => by_cases hb : p b <;> simp [hb, ih]

theorem Sorted.le_of_mem_takeWhile {b : α} (hb : b ∈ l.takeWhile fun e => key e ≤ key a) :
    key b ≤ key a := by
  simpa using List.mem_takeWhile_imp hb

theorem Sorted.lt_of_mem_dropWhile (h : Sorted key l) {b : α}
    (hb : b ∈ l.dropWhile fun e => key e ≤ key a) : key a < key b := by
  induction l with
  | nil => simp at hb
  | cons c l ih =>
    obtain ⟨hc, hl⟩ := List.pairwise_cons.1 h
    by_cases hle : key c ≤ key a
    · rw [List.dropWhile_cons_of_pos (by simpa using hle)] at hb
      exact ih hl hb
    · rw [List.dropWhile_cons_of_neg (by simpa using hle)] at hb
      have hlt : key a < key c := not_le.1 hle
      rcases List.mem_cons.1 hb with rfl | hb
      · exact hlt
      · exact hlt.trans (hc b hb)

/-- Slotting in an item with a new key keeps the order. -/
theorem Sorted.slotIn (h : Sorted key l) (hnew : ∀ e ∈ l, key e ≠ key a) :
    Sorted key (l.insertIdx (l.takeWhile fun e => key e ≤ key a).length a) := by
  rw [insertIdx_takeWhile]
  have hsplit := h
  rw [← List.takeWhile_append_dropWhile (p := fun e => decide (key e ≤ key a)) (l := l)] at hsplit
  obtain ⟨htake, hdrop, hcross⟩ := List.pairwise_append.1 hsplit
  refine List.pairwise_append.2 ⟨htake, List.pairwise_cons.2 ⟨?_, hdrop⟩, ?_⟩
  · intro b hb
    exact h.lt_of_mem_dropWhile hb
  · intro b hb c hc
    rcases List.mem_cons.1 hc with rfl | hc
    · exact lt_of_le_of_ne (Sorted.le_of_mem_takeWhile hb) (hnew b ((List.takeWhile_prefix _).subset hb))
    · exact hcross b hb c hc

theorem mem_slotIn {p : α → Bool} {b : α} :
    b ∈ l.insertIdx (l.takeWhile p).length a ↔ b = a ∨ b ∈ l := by
  rw [List.mem_insertIdx (List.takeWhile_prefix p).length_le]

/-- An item whose key is above every other goes at the end. -/
theorem Sorted.concat (h : Sorted key l) (hnew : ∀ e ∈ l, key e < key a) :
    Sorted key (l ++ [a]) :=
  List.pairwise_append.2 ⟨h, List.pairwise_singleton _ _, by simpa using hnew⟩

/-- Every key is at most the last one. -/
theorem Sorted.le_getLast (h : Sorted key l) {m b : α} (hm : l.getLast? = some m) (hb : b ∈ l) :
    key b ≤ key m := by
  obtain ⟨front, rfl⟩ := List.getLast?_eq_some_iff.1 hm
  rcases List.mem_append.1 hb with hb | hb
  · exact ((List.pairwise_append.1 h).2.2 b hb m (by simp)).le
  · simp [List.mem_singleton.1 hb]

theorem Sorted.filter (h : Sorted key l) (p : α → Bool) : Sorted key (l.filter p) :=
  List.Pairwise.filter p h

/-- Sorting items whose keys differ. -/
theorem sorted_insertionSort (hnd : (l.map key).Nodup) :
    Sorted key (l.insertionSort fun a b => key a ≤ key b) := by
  have hle := List.pairwise_insertionSort (fun a b : α => key a ≤ key b) l
  have hne : (l.insertionSort fun a b => key a ≤ key b).Pairwise fun a b => key a ≠ key b := by
    have hperm := (List.perm_insertionSort (fun a b : α => key a ≤ key b) l).map key
    exact List.pairwise_map.1 (hperm.nodup_iff.2 hnd)
  exact hle.imp₂ (fun _ _ => lt_of_le_of_ne) hne

end KeySorted
