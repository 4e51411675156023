import Mathlib.Data.List.Basic
import Mathlib.Data.List.InsertIdx
import Mathlib.Data.List.Zip

/-!
# Lists read column by column

A list of records kept as one list a field: what an edit of the records does to a field's list, and
the items picked out by their positions.
-/

namespace Columns

variable {α β : Type*} {f : α → α} {g : α → β}

theorem map_insertIdx (g : α → β) (l : List α) (i : Nat) (a : α) :
    (l.insertIdx i a).map g = (l.map g).insertIdx i (g a) := by
  induction l generalizing i with
  | nil => cases i <;> simp
  | cons b l ih => cases i <;> simp [ih]

/-- Changing an item elsewhere than in a field. -/
theorem map_modify_eq (h : ∀ a, g (f a) = g a) (i : Nat) (l : List α) :
    (l.modify i f).map g = l.map g := by
  induction l generalizing i with
  | nil => simp
  | cons b l ih => cases i <;> simp [h, ih]

/-- Changing an item's field to `b`. -/
theorem map_modify_set {b : β} (h : ∀ a, g (f a) = b) (i : Nat) (l : List α) :
    (l.modify i f).map g = (l.map g).set i b := by
  induction l generalizing i with
  | nil => simp
  | cons c l ih => cases i <;> simp [h, ih]

/-- Inserting where a list ends puts the item between it and what follows. -/
theorem insertIdx_append (l l' : List α) (a : α) : (l ++ l').insertIdx l.length a = l ++ a :: l' := by
  induction l with
  | nil => simp
  | cons b l ih => simp [ih]

/-- Changing the item just put in. -/
theorem modify_insertIdx (f : α → α) (l : List α) (i : Nat) (a : α) :
    (l.insertIdx i a).modify i f = l.insertIdx i (f a) := by
  induction l generalizing i with
  | nil => cases i <;> simp
  | cons b l ih => cases i <;> simp [ih]

/-- Changing one item, order apart. -/
theorem modify_perm (f : α → α) {l : List α} {i : Nat} {a : α} (h : l[i]? = some a) :
    ∃ rest, l.Perm (a :: rest) ∧ (l.modify i f).Perm (f a :: rest) := by
  obtain ⟨hi, rfl⟩ := List.getElem?_eq_some_iff.1 h
  refine ⟨l.take i ++ l.drop (i + 1), ?_, ?_⟩
  · conv_lhs => rw [← List.take_append_drop i l, List.drop_eq_getElem_cons hi]
    exact List.perm_middle
  · rw [List.modify_eq_take_cons_drop hi]
    exact List.perm_middle

/-- Changing an item that is not there. -/
theorem modify_of_none (f : α → α) {l : List α} {i : Nat} (h : l[i]? = none) : l.modify i f = l :=
  List.modify_eq_self (List.getElem?_eq_none_iff.1 h)

/-- The items at the positions whose item passes `p` are the items that pass. -/
theorem filterMap_range_filter (p : α → Bool) (l : List α) :
    ((List.range l.length).filter fun i => l[i]?.any p).filterMap (l[·]?) = l.filter p := by
  induction l with
  | nil => rfl
  | cons a l ih =>
    rw [List.length_cons, List.range_succ_eq_map, List.filter_cons]
    have htail : ((List.map Nat.succ (List.range l.length)).filter
        fun i => (a :: l)[i]?.any p).filterMap ((a :: l)[·]?) = l.filter p := by
      rw [List.filter_map, List.filterMap_map]
      exact ih
    by_cases ha : p a
    · simp [ha, htail]
    · simp [ha, htail]

/-- The first position that passes `p`, as a search over positions. -/
theorem findIdx?_eq_find?_range (p : α → Bool) (l : List α) :
    l.findIdx? p = (List.range l.length).find? fun i => l[i]?.any p := by
  induction l with
  | nil => rfl
  | cons a l ih =>
    rw [List.findIdx?_cons, List.length_cons, List.range_succ_eq_map, List.find?_cons]
    by_cases ha : p a
    · simp [ha]
    · have htail : (fun i => Option.any p (a :: l)[i]?) ∘ Nat.succ = fun i => Option.any p l[i]? := rfl
      rw [Bool.not_eq_true] at ha
      rw [ih, List.find?_map, htail, List.getElem?_cons_zero, Option.any_some, ha]
      rfl

/-- At most one item passes `p`, so at most one position does. -/
theorem eq_of_countP_le_one {p : α → Bool} {l : List α} (h : l.countP p ≤ 1) {i j : Nat} {a b : α}
    (hi : l[i]? = some a) (hj : l[j]? = some b) (ha : p a = true) (hb : p b = true) : i = j := by
  induction l generalizing i j with
  | nil => simp at hi
  | cons c l ih =>
    have hlast : ∀ {k : Nat} {d : α}, p c = true → l[k]? = some d → p d = true → False := by
      intro k d hc hk hd
      rw [List.countP_cons_of_pos hc] at h
      have := List.countP_pos_iff.2 ⟨d, List.mem_of_getElem? hk, hd⟩
      omega
    cases i with
    | zero =>
      cases j with
      | zero => rfl
      | succ j =>
        obtain rfl : c = a := by simpa using hi
        exact (hlast ha (by simpa using hj) hb).elim
    | succ i =>
      cases j with
      | zero =>
        obtain rfl : c = b := by simpa using hj
        exact (hlast hb (by simpa using hi) ha).elim
      | succ j =>
        have hle : l.countP p ≤ 1 := le_trans (List.sublist_cons_self c l).countP_le h
        exact congrArg Nat.succ (ih hle (by simpa using hi) (by simpa using hj))

theorem zipWith_right {γ : Type*} (g : β → γ) {l : List α} {l' : List β}
    (h : l.length = l'.length) : List.zipWith (fun _ b => g b) l l' = l'.map g := by
  induction l generalizing l' with
  | nil => simp [List.length_eq_zero_iff.1 h.symm]
  | cons a l ih =>
    cases l' with
    | nil => simp at h
    | cons b l' => simp [ih (Nat.succ.inj h)]

theorem zipWith_left {γ : Type*} (g : α → γ) {l : List α} {l' : List β}
    (h : l.length = l'.length) : List.zipWith (fun a _ => g a) l l' = l.map g := by
  rw [List.zipWith_comm]
  exact zipWith_right g h.symm

/-- Every position looked up gives the list back. -/
theorem filterMap_range (l : List α) : (List.range l.length).filterMap (l[·]?) = l := by
  have hkeep : (List.range l.length).filter (fun i => l[i]?.any fun _ => true) =
      List.range l.length := by
    refine List.filter_eq_self.2 fun i hi => ?_
    rw [List.getElem?_eq_getElem (List.mem_range.1 hi), Option.any_some]
  have hall := filterMap_range_filter (fun _ => true) l
  rwa [hkeep, List.filter_true] at hall

/-- Numbering the items and reading the items. -/
theorem map_zipIdx_item (g : α → β) (l : List α) : l.zipIdx.map (fun x => g x.1) = l.map g :=
  calc l.zipIdx.map (fun x => g x.1)
    _ = (l.zipIdx.map (·.1)).map g := by rw [List.map_map]; rfl
    _ = l.map g := by rw [List.zipIdx_map_fst]

/-- Numbering the items and reading the numbers. -/
theorem map_zipIdx_number (g : Nat → β) (l : List α) :
    l.zipIdx.map (fun x => g x.2) = (List.range l.length).map g :=
  calc l.zipIdx.map (fun x => g x.2)
    _ = (l.zipIdx.map (·.2)).map g := by rw [List.map_map]; rfl
    _ = (List.range l.length).map g := by rw [List.zipIdx_map_snd, List.range_eq_range']

/-- Writes the values at their positions, one after the other. -/
def setAll (l : List α) (places : List (Nat × α)) : List α :=
  places.foldl (fun l place => l.set place.1 place.2) l

section SetAll
variable {places : List (Nat × α)} {i : Nat}

@[simp] theorem setAll_cons (l : List α) (place : Nat × α) :
    setAll l (place :: places) = setAll (l.set place.1 place.2) places := rfl

@[simp] theorem length_setAll (l : List α) : (setAll l places).length = l.length := by
  induction places generalizing l with
  | nil => rfl
  | cons place places ih => rw [setAll_cons, ih, List.length_set]

/-- A position not written keeps its value. -/
theorem getElem?_setAll_of_not_mem (l : List α) (h : i ∉ places.map (·.1)) :
    (setAll l places)[i]? = l[i]? := by
  induction places generalizing l with
  | nil => rfl
  | cons place places ih =>
    rw [List.map_cons, List.mem_cons, not_or] at h
    rw [setAll_cons, ih _ h.2, List.getElem?_set_ne (Ne.symm h.1)]

/-- A position written once holds what was written there. -/
theorem getElem?_setAll_of_mem {l : List α} {a : α} (hnd : (places.map (·.1)).Nodup)
    (hmem : (i, a) ∈ places) (hi : i < l.length) : (setAll l places)[i]? = some a := by
  induction places generalizing l with
  | nil => cases hmem
  | cons place places ih =>
    rw [List.map_cons, List.nodup_cons] at hnd
    rw [setAll_cons]
    rcases List.mem_cons.1 hmem with hhead | htail
    · subst hhead
      rw [getElem?_setAll_of_not_mem _ hnd.1, List.getElem?_set_self hi]
    · exact ih hnd.2 htail (by rwa [List.length_set])

end SetAll

/-- What the picked positions and the others hold is what all positions hold. -/
theorem perm_range_of_picked {picked : List Nat} {n : Nat} (hnd : picked.Nodup)
    (hlt : ∀ i ∈ picked, i < n) :
    (picked ++ (List.range n).filter fun i => i ∉ picked).Perm (List.range n) := by
  refine (List.perm_ext_iff_of_nodup ?_ List.nodup_range).2 fun i => ?_
  · refine List.nodup_append.2 ⟨hnd, List.nodup_range.filter _, ?_⟩
    rintro i hi j hj rfl
    exact (by simpa using (List.mem_filter.1 hj).2 : i ∉ picked) hi
  · rw [List.mem_append, List.mem_filter, List.mem_range]
    by_cases hi : i ∈ picked
    · simp [hi, hlt i hi]
    · simp [hi]

end Columns
