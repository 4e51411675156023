import Mathlib.Data.List.Pairwise
import Mathlib.Order.Lattice
import Mathlib.Data.List.Basic
import Mathlib.Data.Finset.Basic

/-!
# Ordered sets and maps

A set kept as its items in increasing order and a map kept as its entries in increasing order of key,
as B-tree sets and maps iterate. Both are determined by what they contain.
-/

/-- A finite set in increasing order. -/
structure OrdSet (α : Type*) [LinearOrder α] where
  items : List α
  sorted : items.Pairwise (· < ·)

namespace OrdSet

variable {α : Type*} [LinearOrder α] {s t : OrdSet α} {a b : α}

instance : Membership α (OrdSet α) := ⟨fun s a => a ∈ s.items⟩

instance (a : α) (s : OrdSet α) : Decidable (a ∈ s) := inferInstanceAs (Decidable (a ∈ s.items))

theorem mem_def : a ∈ s ↔ a ∈ s.items := Iff.rfl

/-- The set without items. -/
def empty : OrdSet α := ⟨[], List.Pairwise.nil⟩

def isEmpty (s : OrdSet α) : Bool := s.items.isEmpty

/-- The items that pass `p`. -/
def filter (p : α → Bool) (s : OrdSet α) : OrdSet α := ⟨s.items.filter p, s.sorted.filter p⟩

/-- The set with `a`. -/
def insert (a : α) (s : OrdSet α) : OrdSet α where
  items := s.items.filter (· < a) ++ a :: s.items.filter (a < ·)
  sorted := by
    refine List.pairwise_append.2 ⟨s.sorted.filter _, List.pairwise_cons.2 ⟨?_, s.sorted.filter _⟩, ?_⟩
    · intro b hb
      simpa using (List.mem_filter.1 hb).2
    · intro b hb c hc
      have hba : b < a := by simpa using (List.mem_filter.1 hb).2
      rcases List.mem_cons.1 hc with rfl | hc
      · exact hba
      · exact hba.trans (by simpa using (List.mem_filter.1 hc).2)

/-- The set without `a`. -/
def erase (a : α) (s : OrdSet α) : OrdSet α := s.filter (· ≠ a)

/-- The items of both sets. -/
def union (s t : OrdSet α) : OrdSet α := s.items.foldl (fun u a => u.insert a) t

/-- The least item. -/
def first? (s : OrdSet α) : Option α := s.items.head?

theorem nodup (s : OrdSet α) : s.items.Nodup := s.sorted.imp ne_of_lt

/-- Two sets with the same items are the same set. -/
theorem ext (h : ∀ a, a ∈ s ↔ a ∈ t) : s = t := by
  have hitems : s.items = t.items := by
    have hperm : s.items.Perm t.items := (List.perm_ext_iff_of_nodup s.nodup t.nodup).2 h
    exact hperm.eq_of_pairwise (fun a b _ _ hab hba => absurd (hab.trans hba) (lt_irrefl _)) s.sorted
      t.sorted
  cases s
  cases t
  simp only at hitems
  subst hitems
  rfl

@[simp] theorem not_mem_empty : a ∉ (empty : OrdSet α) := List.not_mem_nil

@[simp] theorem mem_filter {p : α → Bool} : a ∈ s.filter p ↔ a ∈ s ∧ p a = true := List.mem_filter

@[simp] theorem mem_insert : b ∈ s.insert a ↔ b = a ∨ b ∈ s := by
  simp only [mem_def, insert, List.mem_append, List.mem_cons, List.mem_filter, decide_eq_true_eq]
  constructor
  · rintro (h | h | h)
    exacts [.inr h.1, .inl h, .inr h.1]
  · rintro (h | h)
    · exact .inr (.inl h)
    · rcases lt_trichotomy b a with hlt | heq | hgt
      exacts [.inl ⟨h, hlt⟩, .inr (.inl heq), .inr (.inr ⟨h, hgt⟩)]

@[simp] theorem mem_erase : b ∈ s.erase a ↔ b ∈ s ∧ b ≠ a := by simp [erase]

@[simp] theorem mem_union : a ∈ s.union t ↔ a ∈ s ∨ a ∈ t := by
  have hfold : ∀ (l : List α) (u : OrdSet α), a ∈ l.foldl (fun u a => u.insert a) u ↔ a ∈ l ∨ a ∈ u := by
    intro l
    induction l with
    | nil => simp
    | cons b l ih =>
      intro u
      rw [List.foldl_cons, ih, mem_insert, List.mem_cons]
      tauto
  exact hfold s.items t

theorem isEmpty_iff : s.isEmpty = true ↔ ∀ a, a ∉ s := by
  rw [isEmpty, List.isEmpty_iff, List.eq_nil_iff_forall_not_mem]
  rfl

theorem first?_mem (h : s.first? = some a) : a ∈ s := List.mem_of_head? h

theorem first?_le (h : s.first? = some a) (hb : b ∈ s) : a ≤ b := by
  obtain ⟨rest, hrest⟩ := List.head?_eq_some_iff.1 h
  have hsorted := s.sorted
  rw [hrest] at hsorted
  rw [mem_def, hrest] at hb
  rcases List.mem_cons.1 hb with rfl | hb
  · exact le_rfl
  · exact ((List.pairwise_cons.1 hsorted).1 b hb).le

theorem first?_eq_none (h : s.first? = none) : a ∉ s := by
  rw [first?, List.head?_eq_none_iff] at h
  rw [mem_def, h]
  exact List.not_mem_nil

end OrdSet

/-- A finite map in increasing order of key. -/
structure OrdMap (κ ν : Type*) [LinearOrder κ] where
  items : List (κ × ν)
  sorted : items.Pairwise fun e e' => e.1 < e'.1

namespace OrdMap

variable {κ ν : Type*} [LinearOrder κ] {m : OrdMap κ ν} {k k' : κ} {v v' : ν}

/-- The map without entries. -/
def empty : OrdMap κ ν := ⟨[], List.Pairwise.nil⟩

def length (m : OrdMap κ ν) : Nat := m.items.length

/-- The value under `k`. -/
def find? (m : OrdMap κ ν) (k : κ) : Option ν := (m.items.find? (·.1 = k)).map (·.2)

/-- The map with `v` under `k`. -/
def insert (k : κ) (v : ν) (m : OrdMap κ ν) : OrdMap κ ν where
  items := m.items.filter (·.1 < k) ++ (k, v) :: m.items.filter (k < ·.1)
  sorted := by
    refine List.pairwise_append.2 ⟨m.sorted.filter _, List.pairwise_cons.2 ⟨?_, m.sorted.filter _⟩, ?_⟩
    · intro e he
      simpa using (List.mem_filter.1 he).2
    · intro e he e' he'
      have hek : e.1 < k := by simpa using (List.mem_filter.1 he).2
      rcases List.mem_cons.1 he' with rfl | he'
      · exact hek
      · exact hek.trans (by simpa using (List.mem_filter.1 he').2)

/-- The map without `k`. -/
def erase (k : κ) (m : OrdMap κ ν) : OrdMap κ ν :=
  ⟨m.items.filter (·.1 ≠ k), m.sorted.filter _⟩

/-- The map with the value under `k`, if there is one, changed by `f`. -/
def modify (k : κ) (f : ν → ν) (m : OrdMap κ ν) : OrdMap κ ν :=
  match m.find? k with
  | some v => m.insert k (f v)
  | none => m

/-- The entries that pass `p`. -/
def filter (p : κ → ν → Bool) (m : OrdMap κ ν) : OrdMap κ ν :=
  ⟨m.items.filter fun e => p e.1 e.2, m.sorted.filter _⟩

/-- The values in order of key. -/
def values (m : OrdMap κ ν) : List ν := m.items.map Prod.snd

/-- The least key. -/
def firstKey? (m : OrdMap κ ν) : Option κ := m.items.head?.map (·.1)

theorem keys_nodup (m : OrdMap κ ν) : (m.items.map Prod.fst).Nodup :=
  (List.pairwise_map.2 m.sorted).imp ne_of_lt

theorem eq_of_mem (h : (k, v) ∈ m.items) (h' : (k, v') ∈ m.items) : v = v' :=
  congrArg Prod.snd (List.inj_on_of_nodup_map m.keys_nodup h h' rfl)

theorem find?_eq_some : m.find? k = some v ↔ (k, v) ∈ m.items := by
  constructor
  · intro h
    obtain ⟨⟨k', v'⟩, he, rfl⟩ := Option.map_eq_some_iff.1 h
    have hk : k' = k := by simpa using List.find?_some he
    exact hk ▸ List.mem_of_find?_eq_some he
  · intro h
    rw [find?]
    cases hfind : m.items.find? (·.1 = k) with
    | none =>
      rw [List.find?_eq_none] at hfind
      simpa using hfind _ h
    | some e =>
      have hk : e.1 = k := by simpa using List.find?_some hfind
      have hmem : (k, e.2) ∈ m.items := hk ▸ List.mem_of_find?_eq_some hfind
      rw [Option.map_some, m.eq_of_mem hmem h]

theorem find?_eq_none : m.find? k = none ↔ ∀ v, (k, v) ∉ m.items := by
  rw [Option.eq_none_iff_forall_ne_some]
  exact forall_congr' fun v => not_congr find?_eq_some

@[simp] theorem mem_empty {e : κ × ν} : e ∉ (empty : OrdMap κ ν).items := List.not_mem_nil

@[simp] theorem find?_empty : (empty : OrdMap κ ν).find? k = none := rfl

/-- An entry is kept exactly when it passes. -/
theorem find?_filter (p : κ → ν → Bool) : (m.filter p).find? k = (m.find? k).filter (p k) := by
  refine Option.ext fun v => ?_
  rw [find?_eq_some, Option.filter_eq_some_iff, find?_eq_some]
  exact List.mem_filter

theorem mem_erase : (k', v') ∈ (m.erase k).items ↔ (k', v') ∈ m.items ∧ k' ≠ k := by
  simp [erase, List.mem_filter]

theorem mem_insert :
    (k', v') ∈ (m.insert k v).items ↔ (k' = k ∧ v' = v) ∨ (k' ≠ k ∧ (k', v') ∈ m.items) := by
  simp only [insert, List.mem_append, List.mem_cons, List.mem_filter, decide_eq_true_eq,
    Prod.mk.injEq]
  constructor
  · rintro (h | h | h)
    exacts [.inr ⟨h.2.ne, h.1⟩, .inl h, .inr ⟨h.2.ne', h.1⟩]
  · rintro (h | ⟨hne, h⟩)
    · exact .inr (.inl h)
    · rcases lt_or_gt_of_ne hne with hlt | hgt
      exacts [.inl ⟨h, hlt⟩, .inr (.inr ⟨h, hgt⟩)]

theorem find?_insert : (m.insert k v).find? k' = if k' = k then some v else m.find? k' := by
  by_cases hk : k' = k
  · rw [if_pos hk, find?_eq_some, mem_insert]
    exact .inl ⟨hk, rfl⟩
  · rw [if_neg hk]
    refine Option.ext fun v' => ?_
    simp [find?_eq_some, mem_insert, hk]

theorem find?_modify {f : ν → ν} : (m.modify k f).find? k' = if k' = k then (m.find? k').map f else m.find? k' := by
  unfold modify
  split
  · rename_i v hv
    rw [find?_insert]
    split
    · rename_i heq
      rw [heq, hv, Option.map_some]
    · rfl
  · rename_i hnone
    split
    · rename_i heq
      rw [heq, hnone, Option.map_none]
    · rfl

theorem find?_erase : (m.erase k).find? k' = if k' = k then none else m.find? k' := by
  by_cases hk : k' = k
  · rw [if_pos hk, find?_eq_none]
    exact fun v h => (mem_erase.1 h).2 hk
  · rw [if_neg hk]
    refine Option.ext fun v' => ?_
    simp [find?_eq_some, mem_erase, hk]

/-- Inserting under a new key, order apart. -/
theorem insert_perm (h : ∀ v', (k, v') ∉ m.items) :
    (m.insert k v).items.Perm ((k, v) :: m.items) := by
  have hsplit : (m.items.filter (·.1 < k) ++ m.items.filter (k < ·.1)).Perm m.items := by
    have hright : m.items.filter (k < ·.1) = m.items.filter fun e => !decide (e.1 < k) := by
      refine List.filter_congr fun e he => ?_
      have hne : e.1 ≠ k := fun heq => h e.2 (heq ▸ he)
      rcases lt_or_gt_of_ne hne with hlt | hgt
      · simp [hlt, hlt.le]
      · simp [hgt, hgt.le]
    rw [hright]
    exact List.filter_append_perm _ _
  exact List.perm_middle.trans (hsplit.cons _)

/-- Erasing a key, order apart. -/
theorem erase_perm (h : (k, v) ∈ m.items) : m.items.Perm ((k, v) :: (m.erase k).items) := by
  have hone : m.items.filter (fun e => !decide (e.1 ≠ k)) = [(k, v)] := by
    have hnodup : (m.items.filter fun e => !decide (e.1 ≠ k)).Nodup :=
      (List.Nodup.of_map _ m.keys_nodup).filter _
    refine List.perm_singleton.1 ((List.perm_ext_iff_of_nodup hnodup (List.nodup_singleton _)).2 ?_)
    rintro ⟨k', v'⟩
    simp only [List.mem_filter, ne_eq, decide_not, Bool.not_not, decide_eq_true_eq, List.mem_singleton,
      Prod.mk.injEq]
    exact ⟨fun ⟨hmem, hk⟩ => ⟨hk, m.eq_of_mem (hk ▸ hmem) h⟩, fun ⟨hk, hv⟩ => ⟨hk ▸ hv ▸ h, hk⟩⟩
  have hperm := (List.filter_append_perm (fun e => decide (e.1 ≠ k)) m.items).symm
  rw [hone] at hperm
  exact hperm.trans List.perm_append_comm

theorem firstKey?_mem (h : m.firstKey? = some k) : ∃ v, (k, v) ∈ m.items := by
  obtain ⟨e, he, rfl⟩ := Option.map_eq_some_iff.1 h
  exact ⟨e.2, List.mem_of_head? he⟩

end OrdMap
