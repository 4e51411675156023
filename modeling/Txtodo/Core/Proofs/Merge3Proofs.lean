import Mathlib.Data.List.Induction
import Mathlib.Data.List.Perm.Basic
import Txtodo.Core.Merge3

/-!
# A merge counts lines

Ours are taken up to the copies wanted, the copies owed are found among the last ones of theirs, and each is
placed once.
-/

namespace Txtodo

namespace Merge3

/-! ## Lines and text -/

theorem not_mem_of_mem_splitOn {s l : Text} (h : l ∈ s.splitOn '\n') : '\n' ∉ l := by
  induction s generalizing l with
  | nil =>
    rw [List.mem_singleton.1 h]
    exact List.not_mem_nil
  | cons c s ih =>
    rw [List.splitOn_cons_eq_if_modifyHead] at h
    split_ifs at h with hc
    · rcases List.mem_cons.1 h with rfl | h
      · exact List.not_mem_nil
      · exact ih h
    · obtain ⟨first, rest, hsplit⟩ := List.exists_cons_of_ne_nil (List.splitOn_ne_nil '\n' s)
      rw [hsplit, List.modifyHead_cons] at h
      rcases List.mem_cons.1 h with rfl | h
      · have hfirst := ih (by rw [hsplit]; exact List.mem_cons_self ..)
        rintro hmem
        rcases List.mem_cons.1 hmem with heq | hmem
        · exact hc (by rw [heq]; simp)
        · exact hfirst hmem
      · exact ih (by rw [hsplit]; exact List.mem_cons_of_mem _ h)

theorem not_mem_of_mem_lines {text l : Text} (h : l ∈ lines text) : '\n' ∉ l := by
  unfold lines at h
  dsimp only at h
  split_ifs at h
  all_goals first | cases h | exact not_mem_of_mem_splitOn h

/-- Lines joined are the text's lines again, save a last empty one. -/
theorem lines_join {out : List Text} (h : ∀ l ∈ out, '\n' ∉ l) (ours theirs : Text) :
    out = lines (join out ours theirs) ∨ out = lines (join out ours theirs) ++ [[]] := by
  by_cases hnil : out = []
  · subst hnil
    exact .inl rfl
  have hsplit : (['\n'].intercalate out).splitOn '\n' = out := List.splitOn_intercalate '\n' h hnil
  rw [join, if_neg (by simpa using hnil)]
  dsimp only
  split_ifs with hend
  · left
    rw [lines, List.getLast?_concat, if_pos rfl, List.dropLast_concat]
    simp [hsplit]
  · generalize htext : ['\n'].intercalate out = text at hsplit
    by_cases hlast : text.getLast? = some '\n'
    · obtain ⟨body, rfl⟩ := List.getLast?_eq_some_iff.1 hlast
      right
      rw [lines, if_pos hlast, List.dropLast_concat]
      rw [List.splitOn_append_cons_self] at hsplit
      simpa using hsplit.symm
    · rw [lines, if_neg hlast]
      cases text with
      | nil => exact .inr hsplit.symm
      | cons c text => exact .inl (by simpa using hsplit.symm)

theorem count_lines_join {out : List Text} (h : ∀ l ∈ out, '\n' ∉ l) (ours theirs : Text) {K : Text}
    (hK : K ≠ []) : (lines (join out ours theirs)).count K = out.count K := by
  rcases lines_join h ours theirs with heq | heq
  · rw [← heq]
  · conv_rhs => rw [heq]
    rw [List.count_append, List.count_singleton]
    simp [hK]

/-! ## Taking and placing -/

theorem counts_apply (ls : List Text) (K : Text) : counts ls K = ls.count K := by
  have hfold : ∀ m : Counts, ls.foldl Counts.bump m K = m K + ls.count K := by
    induction ls with
    | nil => exact fun m => rfl
    | cons l ls ih =>
      intro m
      rw [List.foldl_cons, ih, Counts.bump_apply, List.count_cons]
      by_cases h : l = K
      · simp [h]
        omega
      · simp [h, Ne.symm h]
  exact (hfold Counts.empty).trans (Nat.zero_add _)

/-- Ours gives each line as often as it has it and it is wanted. -/
theorem takeOurs_spec (want : Text → Nat) (ours : List Text) (K : Text) :
    (takeOurs want ours).1.count K = min (ours.count K) (want K) ∧
      (takeOurs want ours).2 K = min (ours.count K) (want K) := by
  induction ours using List.reverseRecOn with
  | nil => simp [takeOurs]
  | append_singleton ours line ih =>
    have hconcat : ∀ ls : List Text, (ls ++ [line]).count K = ls.count K + if K = line then 1 else 0 := by
      intro ls
      by_cases hline : K = line
      · subst hline
        simp
      · simp [hline, Ne.symm hline]
    rw [takeOurs, List.foldl_concat, ← takeOurs, hconcat]
    by_cases hused : (takeOurs want ours).2 line < want line
    · rw [if_pos hused]
      dsimp only
      rw [hconcat, Counts.bump_apply]
      split_ifs with hline
      · subst hline
        omega
      · omega
    · rw [if_neg hused]
      split_ifs with hline
      · subst hline
        omega
      · omega

/-- The lines that are placed as extra copies. -/
def placed : List (Text × Bool) → List Text
  | [] => []
  | line :: rest => if line.2 then line.1 :: placed rest else placed rest

/-- The last copies of each line are extra, as many as are owed. -/
theorem extra_spec (owed : Counts) (theirs : List Text) (K : Text) :
    (extra owed theirs).1 K = theirs.count K ∧
      (placed (theirs.zip (extra owed theirs).2)).count K = min (theirs.count K) (owed K) := by
  induction theirs with
  | nil => simp [extra, placed]
  | cons line theirs ih =>
    rw [extra, List.foldr_cons, ← extra]
    dsimp only
    rw [Counts.bump_apply, List.zip_cons_cons, placed, List.count_cons]
    by_cases hline : line = K
    · subst hline
      simp only [beq_self_eq_true, if_true, decide_eq_true_eq]
      refine ⟨by rw [ih.1], ?_⟩
      split_ifs with hseen
      · rw [List.count_cons_self]
        omega
      · omega
    · rw [if_neg (Ne.symm hline), if_neg (by simpa using hline)]
      refine ⟨ih.1, ?_⟩
      split_ifs with hseen
      · rw [List.count_cons_of_ne (by simpa using hline)]
        exact ih.2
      · exact ih.2

/-- The slot behind which the next line goes is one of `out`. -/
def SlotIn (s : List Text × Option Nat) : Prop := ∀ a, s.2 = some a → a < s.1.length

/-- An extra copy goes into `out` or right behind it. -/
theorem slot_le {s : List Text × Option Nat} (h : SlotIn s) : s.2.elim 0 (· + 1) ≤ s.1.length := by
  cases hslot : s.2 with
  | none => exact Nat.zero_le _
  | some a => exact h a hslot

theorem rposition_lt {out : List Text} {line : Text} {pos : Nat} (h : rposition out line = some pos) :
    pos < out.length := by
  obtain ⟨i, hi, rfl⟩ := Option.map_eq_some_iff.1 h
  have hlt := (List.findIdx?_eq_some_iff_findIdx_eq.1 hi).1
  rw [List.length_reverse] at hlt
  omega

theorem insertLine_slotIn {s : List Text × Option Nat} (h : SlotIn s) (line : Text × Bool) :
    SlotIn (insertLine s line) := by
  intro a ha
  unfold insertLine at ha ⊢
  split_ifs at ha ⊢ with hextra
  · obtain rfl := Option.some_inj.1 ha
    dsimp only
    rw [List.length_insertIdx_of_le_length (slot_le h)]
    exact Nat.lt_succ_of_le (slot_le h)
  · cases hpos : rposition s.1 line.1 with
    | none =>
      rw [hpos] at ha
      exact h a ha
    | some pos =>
      rw [hpos] at ha
      obtain rfl := Option.some_inj.1 ha
      exact rposition_lt hpos

/-- Placing a line adds it once. -/
theorem insertLine_count {s : List Text × Option Nat} (h : SlotIn s) (line : Text × Bool) (K : Text) :
    (insertLine s line).1.count K = s.1.count K + (placed [line]).count K := by
  unfold insertLine
  rw [placed]
  split_ifs with hextra
  · dsimp only
    rw [(List.perm_insertIdx line.1 s.1 (slot_le h)).count_eq, List.count_cons, placed, List.count_singleton]
  · split <;> rfl

theorem foldl_insertLine_count {s : List Text × Option Nat} (h : SlotIn s) (ls : List (Text × Bool))
    (K : Text) : (ls.foldl insertLine s).1.count K = s.1.count K + (placed ls).count K := by
  induction ls generalizing s with
  | nil => rfl
  | cons line ls ih =>
    have hplaced : placed (line :: ls) = placed [line] ++ placed ls := by
      cases hline : line.2 <;> simp [placed, hline]
    rw [List.foldl_cons, ih (insertLine_slotIn h line), insertLine_count h, hplaced, List.count_append,
      Nat.add_assoc]

theorem insertTheirs_count (out theirs : List Text) (owed : Counts) (K : Text) :
    (insertTheirs out theirs owed).count K = out.count K + min (theirs.count K) (owed K) := by
  have hslot : SlotIn (out, none) := nofun
  rw [insertTheirs, foldl_insertLine_count hslot, (extra_spec owed theirs K).2]

/-! ## The merge -/

/-- The lines of the result before they are joined. -/
def merged (base ours theirs : Text) : List Text :=
  let b := lines base
  let o := lines ours
  let t := lines theirs
  let nt := counts t
  let want := want (counts b) (counts o) nt
  let taken := takeOurs want o
  insertTheirs taken.1 t fun line => if 0 < nt line then want line - taken.2 line else 0

theorem merged_count (base ours theirs : Text) (K : Text) : (merged base ours theirs).count K =
    want (counts (lines base)) (counts (lines ours)) (counts (lines theirs)) K := by
  have htaken := takeOurs_spec (want (counts (lines base)) (counts (lines ours)) (counts (lines theirs)))
    (lines ours) K
  rw [merged, insertTheirs_count, htaken.1, htaken.2, counts_apply]
  unfold want
  simp only [counts_apply]
  split_ifs <;> omega

theorem not_mem_of_mem_merged {base ours theirs l : Text} (h : l ∈ merged base ours theirs) :
    '\n' ∉ l := by
  have hcount := List.count_pos_iff.2 h
  rw [merged_count, want, counts_apply, counts_apply, counts_apply] at hcount
  by_cases hours : l ∈ lines ours
  · exact not_mem_of_mem_lines hours
  · have hzero := List.count_eq_zero.2 hours
    have htheirs : 0 < (lines theirs).count l := by omega
    exact not_mem_of_mem_lines (List.count_pos_iff.1 htheirs)

end Merge3

/-- A line that is not empty occurs in a merge as often as the base has it, less the larger number of
copies a side took out, and the larger number a side put in. Which side is ours does not matter. -/
theorem merge3_count (base ours theirs : Text) :
    (∀ K : Text, K ≠ [] → (Merge3.lines (merge3 base ours theirs)).count K =
      let b := (Merge3.lines base).count K
      let o := (Merge3.lines ours).count K
      let t := (Merge3.lines theirs).count K
      b - min b (max (b - o) (b - t)) + max (o - b) (t - b)) ∧
    ((Merge3.lines (merge3 base ours theirs)).filter (· ≠ [])).Perm
      ((Merge3.lines (merge3 base theirs ours)).filter (· ≠ [])) := by
  have hcount : ∀ (ours theirs K : Text), K ≠ [] →
      (Merge3.lines (merge3 base ours theirs)).count K =
        let b := (Merge3.lines base).count K
        let o := (Merge3.lines ours).count K
        let t := (Merge3.lines theirs).count K
        b - min b (max (b - o) (b - t)) + max (o - b) (t - b) := by
    intro ours theirs K hK
    have hlines : (Merge3.lines (merge3 base ours theirs)).count K =
        (Merge3.merged base ours theirs).count K :=
      Merge3.count_lines_join (fun l hl => Merge3.not_mem_of_mem_merged hl) ours theirs hK
    rw [hlines, Merge3.merged_count, Merge3.want, Merge3.counts_apply, Merge3.counts_apply,
      Merge3.counts_apply]
    dsimp only
    rw [min_comm]
  refine ⟨hcount ours theirs, List.perm_iff_count.2 fun K => ?_⟩
  by_cases hK : K = []
  · have hnone : ∀ ls : List Text, (ls.filter (· ≠ [])).count K = 0 := fun ls =>
      List.count_eq_zero.2 fun h => by simpa [hK] using List.mem_filter.1 h
    rw [hnone, hnone]
  · have hsame : ∀ ls : List Text, (ls.filter (· ≠ [])).count K = ls.count K := fun ls =>
      List.count_filter (by simpa using hK)
    rw [hsame, hsame, hcount ours theirs K hK, hcount theirs ours K hK]
    dsimp only
    rw [max_comm (_ - _) (_ - _), max_comm (List.count K (Merge3.lines ours) - _)]

/-- Ours takes a copy out, theirs puts one in. -/
theorem merge3_count_both : (Merge3.lines (merge3 "x\nx\ny".toList "x\ny".toList
    "x\nx\nx\ny".toList)).count ['x'] = 2 :=
  ((merge3_count _ _ _).1 ['x'] (by decide)).trans (by decide)

end Txtodo
