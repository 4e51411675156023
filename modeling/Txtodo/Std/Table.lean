import Mathlib.Data.List.DropRight
import Mathlib.Data.List.Nodup
import Mathlib.Data.List.Range
import Mathlib.Data.List.Sort

/-!
# Tables with growing row ids

A table whose rows get ids that grow and are never used again. Rows of a kind, oldest first, form a queue:
inserting appends to it, evicting the oldest keeps its newest rows, and rows of another kind do not matter.
-/

/-- Rows with their ids in the order of the ids, and the largest id ever used. -/
structure Table (α : Type*) where
  rows : List (Nat × α)
  lastId : Nat
  sorted : rows.Pairwise fun a b => a.1 < b.1
  used : ∀ row ∈ rows, 1 ≤ row.1 ∧ row.1 ≤ lastId

namespace Table

variable {α : Type*}

/-- The largest id there is. -/
def MAX_ID : Nat := 9223372036854775807

def empty : Table α := ⟨[], 0, List.Pairwise.nil, List.forall_mem_nil _⟩

/-- A row behind all others, `none` once the largest id is used. -/
def insert (t : Table α) (a : α) : Option (Table α) :=
  if t.lastId < MAX_ID then
    some {
      rows := t.rows ++ [(t.lastId + 1, a)]
      lastId := t.lastId + 1
      sorted := List.pairwise_append.2 ⟨t.sorted, List.pairwise_singleton _ _, fun row hrow new hnew => by
        rw [List.mem_singleton.1 hnew]
        exact Nat.lt_succ_of_le (t.used row hrow).2⟩
      used := fun row hrow => by
        rcases List.mem_append.1 hrow with hrow | hrow
        · exact ⟨(t.used row hrow).1, Nat.le_succ_of_le (t.used row hrow).2⟩
        · rw [List.mem_singleton.1 hrow]
          exact ⟨Nat.le_add_left 1 t.lastId, le_rfl⟩ }
  else none

/-- The rows that pass `p`, in the order of their ids. -/
def select (t : Table α) (p : α → Bool) : List (Nat × α) :=
  (t.rows.filter fun row => p row.2).insertionSort fun a b => a.1 ≤ b.1

/-- How many rows pass `p`. -/
def count (t : Table α) (p : α → Bool) : Nat := t.rows.countP fun row => p row.2

/-- The table without the rows that pass `p`. -/
def delete (t : Table α) (p : Nat × α → Bool) : Table α where
  rows := t.rows.filter fun row => !p row
  lastId := t.lastId
  sorted := t.sorted.filter _
  used row hrow := t.used row (List.mem_of_mem_filter hrow)

/-- Without the oldest rows that pass `p`, until at most `cap` remain. -/
def evictOldest (t : Table α) (p : α → Bool) (cap : Nat) : Table α :=
  let excess := t.count p - min cap MAX_ID
  if excess = 0 then t
  else
    let oldest := ((t.select p).take excess).map (·.1)
    t.delete fun row => oldest.contains row.1

variable {t t' : Table α} {p q : α → Bool} {a : α}

/-! ## Queries -/

theorem select_eq (t : Table α) (p : α → Bool) : t.select p = t.rows.filter fun row => p row.2 :=
  List.Pairwise.insertionSort_eq ((t.sorted.filter _).imp le_of_lt)

theorem length_select (t : Table α) (p : α → Bool) : (t.select p).length = t.count p := by
  rw [select_eq, count, List.countP_eq_length_filter]

theorem select_sorted (t : Table α) (p : α → Bool) : (t.select p).Pairwise fun a b => a.1 < b.1 := by
  rw [select_eq]
  exact t.sorted.filter _

theorem nodup_ids (t : Table α) : (t.rows.map (·.1)).Nodup :=
  List.Pairwise.imp (S := (· ≠ ·)) ne_of_lt (List.pairwise_map.2 t.sorted)

/-- There are not more rows than ids were used. -/
theorem count_le (t : Table α) (p : α → Bool) : t.count p ≤ t.lastId := by
  have hsub : t.rows.map (·.1) ⊆ List.range' 1 t.lastId := by
    intro id hid
    obtain ⟨row, hrow, rfl⟩ := List.mem_map.1 hid
    rw [List.mem_range'_1]
    have := t.used row hrow
    omega
  have hlen := (List.subperm_of_subset t.nodup_ids hsub).length_le
  rw [List.length_map, List.length_range'] at hlen
  exact List.countP_le_length.trans hlen

theorem rows_of_insert (h : t.insert a = some t') :
    t'.rows = t.rows ++ [(t.lastId + 1, a)] ∧ t'.lastId = t.lastId + 1 ∧ t'.lastId ≤ MAX_ID := by
  unfold insert at h
  split_ifs at h with hroom
  obtain rfl := Option.some.inj h
  exact ⟨rfl, rfl, hroom⟩

theorem insert_isSome (h : t.lastId < MAX_ID) (a : α) : (t.insert a).isSome = true := by
  rw [insert, if_pos h]
  rfl

/-- A row inserted comes last in the queues of its kinds. -/
theorem select_insert (h : t.insert a = some t') (p : α → Bool) :
    t'.select p = t.select p ++ if p a then [(t.lastId + 1, a)] else [] := by
  rw [select_eq, select_eq, (rows_of_insert h).1, List.filter_append]
  cases hp : p a <;> simp [hp]

theorem select_delete (t : Table α) (f : Nat × α → Bool) (p : α → Bool) :
    (t.delete f).select p = (t.select p).filter fun row => !f row := by
  rw [select_eq, select_eq, delete, List.filter_filter, List.filter_filter]
  simp only [Bool.and_comm]

/-! ## Eviction -/

/-- A list in order without its first items is its rest. -/
theorem filter_not_mem_take {rows : List (Nat × α)} (h : rows.Pairwise fun a b => a.1 < b.1) (n : Nat) :
    rows.filter (fun row => !((rows.take n).map (·.1)).contains row.1) = rows.drop n := by
  conv_lhs => arg 2; rw [← List.take_append_drop n rows]
  rw [← List.take_append_drop n rows] at h
  obtain ⟨-, -, hlt⟩ := List.pairwise_append.1 h
  rw [List.filter_append, List.filter_eq_nil_iff.2, List.nil_append, List.filter_eq_self]
  · intro row hrow
    rw [Bool.not_eq_true', List.contains_eq_mem, decide_eq_false_iff_not]
    intro hmem
    obtain ⟨old, hold, heq⟩ := List.mem_map.1 hmem
    exact (hlt old hold row hrow).ne heq
  · intro row hrow
    rw [List.contains_eq_mem, decide_eq_true (List.mem_map_of_mem hrow)]
    decide

/-- What is left of a queue of its kind after eviction are its newest rows. -/
theorem select_evictOldest (hused : t.lastId ≤ MAX_ID) (p : α → Bool) (cap : Nat) :
    (t.evictOldest p cap).select p = (t.select p).rtake cap := by
  have hcount := (t.count_le p).trans hused
  have hover : t.count p - min cap MAX_ID = (t.select p).length - cap := by
    rw [length_select]
    omega
  unfold evictOldest
  dsimp only
  rw [hover, List.rtake]
  split_ifs with hzero
  · rw [hzero, List.drop_zero]
  · rw [select_delete, filter_not_mem_take (t.select_sorted p)]

/-- Eviction leaves a queue of another kind alone. -/
theorem select_evictOldest_of_disjoint (hpq : ∀ a, q a = true → p a = false) (cap : Nat) :
    (t.evictOldest p cap).select q = t.select q := by
  unfold evictOldest
  dsimp only
  split_ifs with hzero
  · rfl
  · rw [select_delete, List.filter_eq_self]
    intro row hrow
    rw [Bool.not_eq_true', List.contains_eq_mem, decide_eq_false_iff_not]
    intro hmem
    obtain ⟨old, hold, hid⟩ := List.mem_map.1 hmem
    have hold := List.mem_of_mem_take hold
    rw [select_eq] at hrow hold
    obtain ⟨hrow, hq⟩ := List.mem_filter.1 hrow
    obtain ⟨hold, hp⟩ := List.mem_filter.1 hold
    have hsame : old = row := List.inj_on_of_nodup_map t.nodup_ids hold hrow hid
    rw [hsame, hpq row.2 hq] at hp
    cases hp

theorem lastId_evictOldest (t : Table α) (p : α → Bool) (cap : Nat) : (t.evictOldest p cap).lastId = t.lastId := by
  unfold evictOldest
  dsimp only
  split_ifs <;> rfl

end Table
