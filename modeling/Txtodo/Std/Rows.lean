import Mathlib.Data.List.Chain
import Mathlib.Data.List.TakeWhile
import Mathlib.Data.List.Induction
import Mathlib.Algebra.Order.BigOperators.Group.List
import Mathlib.Algebra.Order.Group.Nat
import Mathlib.Algebra.GroupWithZero.Nat
import Mathlib.Tactic.SplitIfs

/-!
# Rows filled greedily

Items go into a row while they fit. A row that is full ends after its last space, and what comes after that
space starts the next row.
-/

namespace Rows

/-- The full rows and the one being filled. -/
structure Fill (α : Type*) where
  rows : List (List α)
  row : List α

section Defs
variable {α : Type*} (cells : α → Nat) (isSpace : α → Bool) (limit : Nat)

/-- The cells of a row. -/
def total (row : List α) : Nat := (row.map cells).sum

/-- What comes after the last space. -/
def carry (row : List α) : List α := (row.reverse.takeWhile fun x => !isSpace x).reverse

/-- What ends with the last space. -/
def kept (row : List α) : List α := (row.reverse.dropWhile fun x => !isSpace x).reverse

def Fill.add (s : Fill α) (x : α) : Fill α :=
  if limit < total cells s.row + cells x ∧ s.row ≠ [] then
    if s.row.any isSpace then ⟨s.rows ++ [kept isSpace s.row], carry isSpace s.row ++ [x]⟩
    else ⟨s.rows ++ [s.row], [x]⟩
  else ⟨s.rows, s.row ++ [x]⟩

/-- What some items are filled to. -/
def fill (l : List α) : Fill α := l.foldl (Fill.add cells isSpace limit) ⟨[], []⟩

def rows (l : List α) : List (List α) := (fill cells isSpace limit l).rows ++ [(fill cells isSpace limit l).row]

/-- A row is within `limit` cells or a single item. -/
def Fits (row : List α) : Prop := total cells row ≤ limit ∨ ∃ x, row = [x]

/-- At a full row with a space, what is carried over is empty or leaves room for the next item. -/
def CarryFits (l : List α) : Prop :=
  ∀ seen x rest, l = seen ++ x :: rest →
    limit < total cells (fill cells isSpace limit seen).row + cells x →
    (fill cells isSpace limit seen).row.any isSpace →
    carry isSpace (fill cells isSpace limit seen).row = [] ∨
      total cells (carry isSpace (fill cells isSpace limit seen).row) + cells x ≤ limit

end Defs

variable {α : Type*} {cells : α → Nat} {isSpace : α → Bool} {limit : Nat} {row l : List α} {s : Fill α} {x : α}

@[simp] theorem total_append (row more : List α) : total cells (row ++ more) = total cells row + total cells more := by
  simp [total]

@[simp] theorem total_singleton (x : α) : total cells [x] = cells x := by simp [total]

theorem kept_append_carry (isSpace : α → Bool) (row : List α) : kept isSpace row ++ carry isSpace row = row := by
  rw [kept, carry, ← List.reverse_append, List.takeWhile_append_dropWhile, List.reverse_reverse]

theorem not_isSpace_of_mem_carry (h : x ∈ carry isSpace row) : isSpace x = false := by
  simpa using List.mem_takeWhile_imp (List.mem_reverse.1 h)

theorem kept_ne_nil (h : row.any isSpace = true) : kept isSpace row ≠ [] := by
  intro hnil
  obtain ⟨x, hx, hspace⟩ := List.any_eq_true.1 h
  have hall := kept_append_carry isSpace row
  rw [hnil, List.nil_append] at hall
  rw [← hall] at hx
  rw [not_isSpace_of_mem_carry hx] at hspace
  cases hspace

/-- What is kept ends with a space. -/
theorem kept_eq_concat (h : row.any isSpace = true) :
    ∃ front x, kept isSpace row = front ++ [x] ∧ isSpace x = true := by
  have hhead := List.head?_dropWhile_not (fun x => !isSpace x) row.reverse
  have hne := kept_ne_nil h
  unfold kept at hne ⊢
  cases hdrop : row.reverse.dropWhile fun x => !isSpace x with
  | nil =>
    rw [hdrop] at hne
    exact absurd rfl hne
  | cons x front =>
    rw [hdrop] at hhead
    refine ⟨front.reverse, x, List.reverse_cons, ?_⟩
    simpa using hhead

/-- A row whose only space is its last item is kept whole. -/
theorem kept_concat (front : List α) (hspace : isSpace x = true) : kept isSpace (front ++ [x]) = front ++ [x] := by
  rw [kept, List.reverse_append, List.reverse_singleton, List.singleton_append,
    List.dropWhile_cons_of_neg (by simp [hspace]), ← List.singleton_append, List.reverse_append,
    List.reverse_reverse, List.reverse_singleton]

theorem kept_concat_of_not (h : isSpace x = false) : kept isSpace (row ++ [x]) = kept isSpace row := by
  rw [kept, List.reverse_append, List.reverse_singleton, List.singleton_append,
    List.dropWhile_cons_of_pos (by simp [h]), kept]

theorem fill_concat (l : List α) (x : α) :
    fill cells isSpace limit (l ++ [x]) = (fill cells isSpace limit l).add cells isSpace limit x :=
  List.foldl_concat _ _ _ _

theorem fill_append (l more : List α) :
    fill cells isSpace limit (l ++ more) = more.foldl (Fill.add cells isSpace limit) (fill cells isSpace limit l) :=
  List.foldl_append ..

/-- What one item does to a row: it ends at its last space, or before the item, or takes it in. -/
theorem add_cases (cells : α → Nat) (isSpace : α → Bool) (limit : Nat) (s : Fill α) (x : α) :
    (limit < total cells s.row + cells x ∧ s.row ≠ [] ∧ s.row.any isSpace = true ∧
      s.add cells isSpace limit x = ⟨s.rows ++ [kept isSpace s.row], carry isSpace s.row ++ [x]⟩) ∨
    (limit < total cells s.row + cells x ∧ s.row ≠ [] ∧ s.row.any isSpace = false ∧
      s.add cells isSpace limit x = ⟨s.rows ++ [s.row], [x]⟩) ∨
    ((total cells s.row + cells x ≤ limit ∨ s.row = []) ∧
      s.add cells isSpace limit x = ⟨s.rows, s.row ++ [x]⟩) := by
  unfold Fill.add
  split_ifs with hfull hspace
  · exact .inl ⟨hfull.1, hfull.2, hspace, rfl⟩
  · exact .inr (.inl ⟨hfull.1, hfull.2, by simpa using hspace, rfl⟩)
  · refine .inr (.inr ⟨?_, rfl⟩)
    rw [not_and_or, not_lt, not_not] at hfull
    exact hfull

/-! ## Every item is in one row -/

theorem flatten_add (s : Fill α) (x : α) :
    (s.add cells isSpace limit x).rows.flatten ++ (s.add cells isSpace limit x).row = s.rows.flatten ++ s.row ++ [x] := by
  rcases add_cases cells isSpace limit s x with ⟨-, -, -, h⟩ | ⟨-, -, -, h⟩ | ⟨-, h⟩
  · rw [h, List.flatten_append, List.flatten_singleton, List.append_assoc, ← List.append_assoc (kept isSpace s.row),
      kept_append_carry, List.append_assoc]
  · rw [h, List.flatten_append, List.flatten_singleton]
  · rw [h, List.append_assoc]

theorem flatten_fill (cells : α → Nat) (isSpace : α → Bool) (limit : Nat) (l : List α) :
    (fill cells isSpace limit l).rows.flatten ++ (fill cells isSpace limit l).row = l := by
  induction l using List.reverseRecOn with
  | nil => rfl
  | append_singleton l x ih => rw [fill_concat, flatten_add, ih]

theorem flatten_rows (cells : α → Nat) (isSpace : α → Bool) (limit : Nat) (l : List α) :
    (rows cells isSpace limit l).flatten = l := by
  rw [rows, List.flatten_append, List.flatten_singleton, flatten_fill]

/-- The full rows are not empty, and only without items is the last one. -/
theorem fill_nonempty (cells : α → Nat) (isSpace : α → Bool) (limit : Nat) (l : List α) :
    [] ∉ (fill cells isSpace limit l).rows ∧
    ((fill cells isSpace limit l).row = [] → l = []) := by
  induction l using List.reverseRecOn with
  | nil => exact ⟨List.not_mem_nil, fun _ => rfl⟩
  | append_singleton l x ih =>
    rw [fill_concat]
    rcases add_cases cells isSpace limit (fill cells isSpace limit l) x with
      ⟨-, -, hspace, h⟩ | ⟨-, hne, -, h⟩ | ⟨-, h⟩
    · rw [h]
      refine ⟨fun hmem => ?_, fun hnil => absurd hnil (List.append_ne_nil_of_right_ne_nil _ (List.cons_ne_nil _ _))⟩
      rcases List.mem_append.1 hmem with hmem | hmem
      · exact ih.1 hmem
      · exact kept_ne_nil hspace (List.mem_singleton.1 hmem).symm
    · rw [h]
      refine ⟨fun hmem => ?_, fun hnil => absurd hnil (List.cons_ne_nil _ _)⟩
      rcases List.mem_append.1 hmem with hmem | hmem
      · exact ih.1 hmem
      · exact hne (List.mem_singleton.1 hmem).symm
    · rw [h]
      exact ⟨ih.1, fun hnil => absurd hnil (List.append_ne_nil_of_right_ne_nil _ (List.cons_ne_nil _ _))⟩

theorem rows_nonempty (hne : l ≠ []) : [] ∉ rows cells isSpace limit l := by
  obtain ⟨hrows, hrow⟩ := fill_nonempty cells isSpace limit l
  intro hmem
  rcases List.mem_append.1 hmem with hmem | hmem
  · exact hrows hmem
  · exact hne (hrow (List.mem_singleton.1 hmem).symm)

/-! ## Rows that fit -/

theorem total_kept_le (cells : α → Nat) (isSpace : α → Bool) (row : List α) : total cells (kept isSpace row) + total cells (carry isSpace row) = total cells row := by
  rw [← total_append, kept_append_carry]

theorem Fits.kept {row : List α} (h : Fits cells limit row) (hspace : row.any isSpace = true) :
    Fits cells limit (kept isSpace row) := by
  rcases h with hle | ⟨x, rfl⟩
  · have hsum := total_kept_le cells isSpace row
    exact .inl (by omega)
  · rw [List.any_cons, List.any_nil, Bool.or_false] at hspace
    exact .inr ⟨x, kept_concat [] hspace⟩

/-- While what is carried over fits, every row does. -/
theorem fits_fill (h : CarryFits cells isSpace limit l) :
    (∀ row ∈ (fill cells isSpace limit l).rows, Fits cells limit row) ∧
      Fits cells limit (fill cells isSpace limit l).row := by
  induction l using List.reverseRecOn with
  | nil => exact ⟨fun _ hmem => absurd hmem List.not_mem_nil, .inl (Nat.zero_le _)⟩
  | append_singleton l x ih =>
    obtain ⟨hrows, hrow⟩ := ih fun seen y rest heq =>
      h seen y (rest ++ [x]) (by rw [heq, List.append_assoc, List.cons_append])
    rw [fill_concat]
    rcases add_cases cells isSpace limit (fill cells isSpace limit l) x with
      ⟨hfull, -, hspace, hadd⟩ | ⟨-, -, -, hadd⟩ | ⟨hfits, hadd⟩
    · rw [hadd]
      refine ⟨fun row hmem => ?_, ?_⟩
      · rcases List.mem_append.1 hmem with hmem | hmem
        · exact hrows row hmem
        · rw [List.mem_singleton.1 hmem]
          exact hrow.kept hspace
      · rcases h l x [] rfl hfull hspace with hnil | hle
        · exact .inr ⟨x, by rw [hnil, List.nil_append]⟩
        · exact .inl (by rwa [total_append, total_singleton])
    · rw [hadd]
      refine ⟨fun row hmem => ?_, .inr ⟨x, rfl⟩⟩
      rcases List.mem_append.1 hmem with hmem | hmem
      · exact hrows row hmem
      · rw [List.mem_singleton.1 hmem]
        exact hrow
    · rw [hadd]
      refine ⟨hrows, ?_⟩
      rcases hfits with hle | hnil
      · exact .inl (by rwa [total_append, total_singleton])
      · exact .inr ⟨x, by rw [hnil, List.nil_append]⟩

/-- Some row does not fit. -/
def Overfull (cells : α → Nat) (limit : Nat) (s : Fill α) : Prop := ∃ row ∈ s.rows ++ [s.row], ¬Fits cells limit row

theorem overfull_of_row (h : ¬Fits cells limit s.row) : Overfull cells limit s :=
  ⟨s.row, List.mem_append_right _ (List.mem_singleton_self _), h⟩

theorem overfull_of_mem (hmem : row ∈ s.rows) (h : ¬Fits cells limit row) : Overfull cells limit s :=
  ⟨row, List.mem_append_left _ hmem, h⟩

theorem rows_subset_add (s : Fill α) (x : α) : s.rows ⊆ (s.add cells isSpace limit x).rows := by
  rcases add_cases cells isSpace limit s x with ⟨-, -, -, h⟩ | ⟨-, -, -, h⟩ | ⟨-, h⟩
  · rw [h]
    exact List.subset_append_left _ _
  · rw [h]
    exact List.subset_append_left _ _
  · rw [h]
    exact List.Subset.refl _

/-- A row that does not fit has no space before its end. -/
def EndsPlain (cells : α → Nat) (isSpace : α → Bool) (limit : Nat) (row : List α) : Prop :=
  Fits cells limit row ∨ ∃ front x, row = front ++ [x] ∧ front.any isSpace = false

theorem endsPlain_add (cells : α → Nat) (isSpace : α → Bool) (limit : Nat) (s : Fill α) (x : α) : EndsPlain cells isSpace limit (s.add cells isSpace limit x).row := by
  rcases add_cases cells isSpace limit s x with ⟨-, -, -, h⟩ | ⟨-, -, -, h⟩ | ⟨hfits, h⟩
  · rw [h]
    refine .inr ⟨carry isSpace s.row, x, rfl, ?_⟩
    rw [List.any_eq_false]
    intro y hy
    rw [not_isSpace_of_mem_carry hy]
    exact Bool.false_ne_true
  · rw [h]
    exact .inl (.inr ⟨x, rfl⟩)
  · rw [h]
    rcases hfits with hle | hnil
    · exact .inl (.inl (by rwa [total_append, total_singleton]))
    · exact .inl (.inr ⟨x, by rw [hnil, List.nil_append]⟩)

/-- A row that does not fit is never filled further. -/
theorem overfull_add (hplain : EndsPlain cells isSpace limit s.row) (h : Overfull cells limit s) (x : α) :
    Overfull cells limit (s.add cells isSpace limit x) := by
  obtain ⟨row, hmem, hrow⟩ := h
  rcases List.mem_append.1 hmem with hmem | hmem
  · exact overfull_of_mem (rows_subset_add s x hmem) hrow
  · obtain rfl := List.mem_singleton.1 hmem
    have hover : limit < total cells s.row := by
      by_contra hle
      exact hrow (.inl (not_lt.1 hle))
    rcases add_cases cells isSpace limit s x with ⟨-, -, hspace, hadd⟩ | ⟨-, -, -, hadd⟩ | ⟨hle | hnil, -⟩
    · obtain ⟨front, y, heq, hfront⟩ := hplain.resolve_left hrow
      have hy : isSpace y = true := by
        rw [heq, List.any_append, hfront, Bool.false_or, List.any_cons, List.any_nil, Bool.or_false] at hspace
        exact hspace
      have hkept : kept isSpace s.row = s.row := by rw [heq, kept_concat front hy]
      rw [hadd, hkept]
      exact overfull_of_mem (List.mem_append_right _ (List.mem_singleton_self _)) hrow
    · rw [hadd]
      exact overfull_of_mem (List.mem_append_right _ (List.mem_singleton_self _)) hrow
    · omega
    · rw [hnil] at hover
      exact absurd hover (Nat.not_lt_zero _)

theorem overfull_foldl (more : List α) (hplain : EndsPlain cells isSpace limit s.row) (h : Overfull cells limit s) :
    Overfull cells limit (more.foldl (Fill.add cells isSpace limit) s) := by
  induction more generalizing s with
  | nil => exact h
  | cons x more ih => exact ih (endsPlain_add cells isSpace limit s x) (overfull_add hplain h x)

/-- Every row fits exactly when what is carried over always does. -/
theorem rows_fit_iff (l : List α) :
    (∀ row ∈ rows cells isSpace limit l, Fits cells limit row) ↔ CarryFits cells isSpace limit l := by
  constructor
  · rintro h seen x rest rfl hfull hspace
    by_contra hcarry
    rw [not_or] at hcarry
    obtain ⟨hne, hover⟩ := hcarry
    have hadd : fill cells isSpace limit (seen ++ [x]) =
        ⟨(fill cells isSpace limit seen).rows ++ [kept isSpace (fill cells isSpace limit seen).row],
          carry isSpace (fill cells isSpace limit seen).row ++ [x]⟩ := by
      rw [fill_concat, Fill.add, if_pos ⟨hfull, fun hnil => by rw [hnil] at hspace; cases hspace⟩, if_pos hspace]
    have hrow : ¬Fits cells limit (fill cells isSpace limit (seen ++ [x])).row := by
      rw [hadd]
      rintro (hle | ⟨y, hy⟩)
      · rw [total_append, total_singleton] at hle
        exact hover hle
      · have hlen := congrArg List.length hy
        rw [List.length_append, List.length_singleton, List.length_singleton] at hlen
        exact hne (List.length_eq_zero_iff.1 (by omega))
    have hplain := endsPlain_add cells isSpace limit
      (fill cells isSpace limit seen) x
    rw [← fill_concat] at hplain
    obtain ⟨row, hmem, hbad⟩ := overfull_foldl rest hplain (overfull_of_row hrow)
    rw [← fill_append, List.append_assoc, List.singleton_append] at hmem
    exact hbad (h row hmem)
  · intro h row hmem
    obtain ⟨hrows, hrow⟩ := fits_fill h
    rcases List.mem_append.1 hmem with hmem | hmem
    · exact hrows row hmem
    · rw [List.mem_singleton.1 hmem]
      exact hrow

/-! ## Rows of one cell

Filled to one cell, a row is without cells or a single item only where no item without cells stands next to one
that takes one cell.
-/

section One

/-- Not an item without cells and one of one cell. -/
def Apart (cells : α → Nat) (a b : α) : Prop := cells a + cells b ≠ 1

theorem cells_le_total (cells : α → Nat) (h : x ∈ row) : cells x ≤ total cells row :=
  List.le_sum_of_mem (List.mem_map_of_mem h)

theorem not_fits_zero (hcells : 0 < total cells row) (hlen : 2 ≤ row.length) : ¬Fits cells 0 row := by
  rintro (hle | ⟨x, rfl⟩)
  · omega
  · exact absurd hlen (by rw [List.length_singleton]; omega)

theorem two_le_length (h : ¬Fits cells 0 row) : 0 < total cells row ∧ 2 ≤ row.length := by
  unfold Fits at h
  rw [not_or, not_le] at h
  refine ⟨h.1, ?_⟩
  by_contra hshort
  match row, h, hshort with
  | [], h, _ => exact absurd h.1 (lt_irrefl 0)
  | [x], h, _ => exact h.2 ⟨x, rfl⟩
  | _ :: _ :: _, _, hshort => exact hshort (by simp)

theorem row_fill_concat (cells : α → Nat) (isSpace : α → Bool) (limit : Nat) (l : List α) (x : α) : ∃ front, (fill cells isSpace limit (l ++ [x])).row = front ++ [x] := by
  rw [fill_concat]
  rcases add_cases cells isSpace limit (fill cells isSpace limit l) x with ⟨-, -, -, h⟩ | ⟨-, -, -, h⟩ | ⟨-, h⟩
  · exact ⟨_, by rw [h]⟩
  · exact ⟨[], by rw [h]; rfl⟩
  · exact ⟨_, by rw [h]⟩

/-- Where no two items are mixed a row filled to one cell is without cells or single. -/
theorem fits_zero_fill (hspace : ∀ x, isSpace x = true → cells x = 1) (h : l.IsChain (Apart cells)) :
    (∀ row ∈ (fill cells isSpace 1 l).rows, Fits cells 0 row) ∧ Fits cells 0 (fill cells isSpace 1 l).row := by
  induction l using List.reverseRecOn with
  | nil => exact ⟨fun _ hmem => absurd hmem List.not_mem_nil, .inl (Nat.zero_le _)⟩
  | append_singleton l x ih =>
    obtain ⟨hrows, hrow⟩ := ih h.left_of_append
    rw [fill_concat]
    rcases add_cases cells isSpace 1 (fill cells isSpace 1 l) x with
      ⟨-, -, hany, hadd⟩ | ⟨-, -, -, hadd⟩ | ⟨hle, hadd⟩
    · rcases hrow with hzero | ⟨y, hy⟩
      · obtain ⟨y, hmem, hy⟩ := List.any_eq_true.1 hany
        have hcell := hspace y hy
        have := cells_le_total cells hmem
        omega
      · rw [hy, List.any_cons, List.any_nil, Bool.or_false] at hany
        have hkept : kept isSpace [y] = [y] := kept_concat [] hany
        have hcarry : carry isSpace [y] = [] := by
          have hall := kept_append_carry isSpace [y]
          rw [hkept] at hall
          exact List.append_right_eq_self.1 hall
        rw [hadd, hy, hkept, hcarry]
        refine ⟨fun row hmem => ?_, .inr ⟨x, rfl⟩⟩
        rcases List.mem_append.1 hmem with hmem | hmem
        · exact hrows row hmem
        · exact .inr ⟨y, List.mem_singleton.1 hmem⟩
    · rw [hadd]
      refine ⟨fun row hmem => ?_, .inr ⟨x, rfl⟩⟩
      rcases List.mem_append.1 hmem with hmem | hmem
      · exact hrows row hmem
      · rw [List.mem_singleton.1 hmem]
        exact hrow
    · rw [hadd]
      refine ⟨hrows, ?_⟩
      rcases hle with hle | hnil
      · rcases List.eq_nil_or_concat' l with rfl | ⟨front, y, rfl⟩
        · exact .inr ⟨x, rfl⟩
        · obtain ⟨rowFront, heq⟩ := row_fill_concat cells isSpace 1 front y
          rw [List.append_assoc, List.singleton_append] at h
          have hapart : cells y + cells x ≠ 1 := (List.isChain_append_cons_cons.1 h).2.1
          rw [heq] at hrow hle ⊢
          rw [total_append, total_singleton] at hle
          left
          rw [total_append, total_append, total_singleton, total_singleton]
          rcases hrow with hzero | ⟨z, hz⟩
          · rw [total_append, total_singleton] at hzero
            omega
          · obtain rfl : rowFront = [] := by
              have hlen := congrArg List.length hz
              rw [List.length_append, List.length_singleton, List.length_singleton] at hlen
              exact List.length_eq_zero_iff.1 (by omega)
            change 0 + cells y + cells x ≤ 1 at hle
            change 0 + cells y + cells x ≤ 0
            omega
      · exact .inr ⟨x, by rw [hnil, List.nil_append]⟩

/-- A mixed row stays one, or leaves one behind. -/
theorem overfull_zero_add (hspace : ∀ x, isSpace x = true → cells x = 1) (h : Overfull cells 0 s) (x : α) :
    Overfull cells 0 (s.add cells isSpace 1 x) := by
  obtain ⟨row, hmem, hbad⟩ := h
  rcases List.mem_append.1 hmem with hmem | hmem
  · exact overfull_of_mem (rows_subset_add s x hmem) hbad
  · obtain rfl := List.mem_singleton.1 hmem
    obtain ⟨hcells, hlen⟩ := two_le_length hbad
    rcases add_cases cells isSpace 1 s x with ⟨hfull, -, hany, hadd⟩ | ⟨-, -, -, hadd⟩ | ⟨-, hadd⟩
    · have hsum := total_kept_le cells isSpace s.row
      have hall := congrArg List.length (kept_append_carry isSpace s.row)
      rw [List.length_append] at hall
      obtain ⟨front, y, hkept, hy⟩ := kept_eq_concat hany
      have hycell := hspace y hy
      rw [hadd]
      rcases Nat.eq_zero_or_pos front.length with hfront | hfront
      · -- what is kept is the space alone, the rest goes on with the item
        rw [List.length_eq_zero_iff.1 hfront, List.nil_append] at hkept
        rw [hkept, List.length_singleton] at hall
        rw [hkept, total_singleton] at hsum
        refine overfull_of_row (not_fits_zero ?_ ?_)
        · rw [total_append, total_singleton]
          omega
        · rw [List.length_append, List.length_singleton]
          omega
      · refine overfull_of_mem (List.mem_append_right _ (List.mem_singleton_self _)) (not_fits_zero ?_ ?_)
        · rw [hkept, total_append, total_singleton]
          omega
        · rw [hkept, List.length_append, List.length_singleton]
          omega
    · rw [hadd]
      exact overfull_of_mem (List.mem_append_right _ (List.mem_singleton_self _)) hbad
    · rw [hadd]
      refine overfull_of_row (not_fits_zero ?_ ?_)
      · rw [total_append]
        omega
      · rw [List.length_append]
        omega

theorem overfull_zero_foldl (hspace : ∀ x, isSpace x = true → cells x = 1) (more : List α) (h : Overfull cells 0 s) :
    Overfull cells 0 (more.foldl (Fill.add cells isSpace 1) s) := by
  induction more generalizing s with
  | nil => exact h
  | cons x more ih => exact ih (overfull_zero_add hspace h x)

/-- Two mixed items end up in one row. -/
theorem overfull_of_mixed (hspace : ∀ x, isSpace x = true → cells x = 1) (pre : List α) {a b : α}
    (hmixed : cells a + cells b = 1) : Overfull cells 0 (fill cells isSpace 1 (pre ++ [a] ++ [b])) := by
  obtain ⟨front, hrow⟩ := row_fill_concat cells isSpace 1 pre a
  rw [fill_concat (pre ++ [a])]
  by_cases hfits : Fits cells 0 (fill cells isSpace 1 (pre ++ [a])).row
  · have htotal : total cells front = 0 := by
      rw [hrow] at hfits
      rcases hfits with hzero | ⟨x, hx⟩
      · rw [total_append] at hzero
        omega
      · have hlen := congrArg List.length hx
        rw [List.length_append, List.length_singleton, List.length_singleton] at hlen
        rw [List.length_eq_zero_iff.1 (by omega : front.length = 0)]
        rfl
    have hle : total cells (front ++ [a]) + cells b = 1 := by
      rw [total_append, total_singleton, htotal]
      omega
    rw [Fill.add, hrow, if_neg (by omega)]
    refine overfull_of_row (not_fits_zero ?_ ?_)
    · rw [total_append, total_singleton]
      omega
    · rw [List.length_append, List.length_append, List.length_singleton, List.length_singleton]
      omega
  · exact overfull_zero_add hspace (overfull_of_row hfits) b

/-- Filled to one cell, every row is without cells or single exactly when no two items are mixed. -/
theorem rows_one_iff (hspace : ∀ x, isSpace x = true → cells x = 1) (l : List α) :
    (∀ row ∈ rows cells isSpace 1 l, Fits cells 0 row) ↔ l.IsChain (Apart cells) := by
  constructor
  · intro h
    rw [List.isChain_iff_forall_rel_of_append_cons_cons]
    rintro a b pre post rfl hmixed
    obtain ⟨row, hmem, hbad⟩ := overfull_zero_foldl hspace post (overfull_of_mixed hspace pre hmixed)
    rw [← fill_append, List.append_assoc, List.append_assoc, List.singleton_append, List.singleton_append] at hmem
    exact hbad (h row hmem)
  · intro h row hmem
    obtain ⟨hrows, hrow⟩ := fits_zero_fill hspace h
    rcases List.mem_append.1 hmem with hmem | hmem
    · exact hrows row hmem
    · rw [List.mem_singleton.1 hmem]
      exact hrow

end One

end Rows
