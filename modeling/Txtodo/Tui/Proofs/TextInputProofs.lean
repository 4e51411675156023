import Txtodo.Std.Rows
import Txtodo.Tui.TextInput

/-!
# Soft wrap covers the line

The loop over a line's graphemes fills rows greedily, as `Rows` does. Its ranges are where these rows stand, so
they follow one another from the line's start to its end, and they are within the width while what is carried
over a break leaves room for the next grapheme.
-/

namespace Txtodo.TextInput

open Rows

/-- What the loop relies on: a slice between graphemes is as wide as they are, and a space takes one cell. -/
structure Segmentation.Cells (seg : Segmentation) : Prop where
  slice : ∀ line gs, gs <:+: seg.graphemes line → seg.width gs.flatten = total seg.width gs
  space : seg.width [' '] = 1

/-- The loop's state before some of a line's graphemes. -/
def wrapState (seg : Segmentation) (line : Text) (width : Nat) (seen : List Text) : WrapState :=
  (indicesFrom 0 seen).foldl (WrapState.step seg line (max width 1)) .new

/-- Where rows of graphemes stand, the first one at `start`. -/
def rangesFrom (start : Nat) : List (List Text) → List (Nat × Nat)
  | [] => []
  | row :: rows => (start, start + row.flatten.length) :: rangesFrom (start + row.flatten.length) rows

/-- Ranges that follow one another from `start` to `stop`. -/
def Contiguous (start stop : Nat) : List (Nat × Nat) → Prop
  | [] => start = stop
  | r :: rows => r.1 = start ∧ Contiguous r.2 stop rows

/-- What is promised of the rows of a line. -/
structure Covers (seg : Segmentation) (line : Text) (width : Nat) (rows : List (Nat × Nat)) : Prop where
  contiguous : Contiguous 0 line.length rows
  nonempty : line = [] ∨ ∀ r ∈ rows, r.1 < r.2
  fits : ∀ r ∈ rows, seg.width (slice line r.1 r.2) ≤ width ∨
    ∃ g, (r.1, g) ∈ seg.graphemeIndices line ∧ r.2 = r.1 + g.length

section Loop
variable {seg : Segmentation} {line : Text} {width start stop : Nat} {seen gs rest : List Text} {g : Text}

def isSpace (g : Text) : Bool := g = [' ']

theorem indicesFrom_append (start : Nat) (gs more : List Text) :
    indicesFrom start (gs ++ more) = indicesFrom start gs ++ indicesFrom (start + gs.flatten.length) more := by
  induction gs generalizing start with
  | nil => rfl
  | cons g gs ih => simp [indicesFrom, ih, Nat.add_assoc]

theorem rangesFrom_append (start : Nat) (rows more : List (List Text)) :
    rangesFrom start (rows ++ more) = rangesFrom start rows ++ rangesFrom (start + rows.flatten.flatten.length) more := by
  induction rows generalizing start with
  | nil => rfl
  | cons row rows ih => simp [rangesFrom, ih, Nat.add_assoc]

theorem wrapState_concat (seg : Segmentation) (line : Text) (width : Nat) (seen : List Text) (g : Text) :
    wrapState seg line width (seen ++ [g]) =
      (wrapState seg line width seen).step seg line (max width 1) (seen.flatten.length, g) := by
  rw [wrapState, indicesFrom_append, List.foldl_append, Nat.zero_add]
  rfl

/-- The slice of a text that stands between two others. -/
theorem slice_append (pre mid post : Text) : slice (pre ++ mid ++ post) pre.length (pre.length + mid.length) = mid := by
  rw [slice, ← List.length_append, List.take_left, List.drop_left]

theorem length_flatten_pos (gs : List Text) (h : ∀ g ∈ gs, g ≠ []) (hne : gs ≠ []) : 0 < gs.flatten.length := by
  cases gs with
  | nil => exact absurd rfl hne
  | cons g gs =>
    have := List.length_pos_iff.2 (h g List.mem_cons_self)
    rw [List.flatten_cons, List.length_append]
    omega

/-- What the loop's state says of the rows filled so far. -/
structure Follows (seg : Segmentation) (s : WrapState) (t : Fill Text) : Prop where
  rows : s.rows = rangesFrom 0 t.rows
  start : s.start = t.rows.flatten.flatten.length
  cells : s.cells = total seg.width t.row
  afterSpace : s.afterSpace =
    if t.row.any isSpace then some (t.rows.flatten.flatten.length + (kept isSpace t.row).flatten.length) else none

section Step
variable {s : WrapState} {t : Fill Text} {i : Nat}

/-- The loop takes a grapheme into the row as the fill does. -/
theorem Follows.take (h : Follows seg s t) (g : Text) (hi : i = t.rows.flatten.flatten.length + t.row.flatten.length) :
    Follows seg
      { s with
        cells := s.cells + seg.width g
        afterSpace := if g = [' '] then some (i + 1) else s.afterSpace }
      ⟨t.rows, t.row ++ [g]⟩ := by
  refine ⟨h.rows, h.start, ?_, ?_⟩
  · rw [h.cells, total_append, total_singleton]
  · dsimp only
    rw [h.afterSpace, List.any_append, List.any_cons, List.any_nil, Bool.or_false]
    by_cases hg : g = [' ']
    · have hspace : isSpace g = true := decide_eq_true hg
      rw [if_pos hg, hspace, Bool.or_true, if_pos rfl, kept_concat _ hspace, List.flatten_append, List.length_append,
        List.flatten_singleton, hg, List.length_singleton, hi, Nat.add_assoc]
    · have hspace : isSpace g = false := decide_eq_false hg
      rw [if_neg hg, hspace, Bool.or_false, kept_concat_of_not hspace]

/-- A row ends in the loop as it does in the fill. -/
theorem Follows.end_row (h : Follows seg s t) (front back : List Text) (hplain : back.any isSpace = false) :
    Follows seg ⟨s.rows ++ [(s.start, t.rows.flatten.flatten.length + front.flatten.length)],
      t.rows.flatten.flatten.length + front.flatten.length, total seg.width back, none⟩ ⟨t.rows ++ [front], back⟩ := by
  refine ⟨?_, ?_, rfl, ?_⟩
  · rw [rangesFrom_append, Nat.zero_add, ← h.rows, h.start]
    rfl
  · rw [List.flatten_append, List.flatten_append, List.length_append, List.flatten_singleton]
  · rw [if_neg (by rw [hplain]; decide)]

theorem Follows.breaks_iff (h : Follows seg s t) (hgraphemes : ∀ g ∈ t.row, g ≠ [])
    (hi : i = t.rows.flatten.flatten.length + t.row.flatten.length) (limit w : Nat) :
    s.breaks limit i w = true ↔ limit < total seg.width t.row + w ∧ t.row ≠ [] := by
  rw [WrapState.breaks, Bool.and_eq_true, decide_eq_true_eq, decide_eq_true_eq, h.cells, h.start, hi]
  refine and_congr_right fun _ => ⟨fun hlt hnil => ?_, fun hne => ?_⟩
  · rw [hnil] at hlt
    exact absurd hlt (lt_irrefl _)
  · have := length_flatten_pos _ hgraphemes hne
    omega

theorem Follows.cut_of_space (h : Follows seg s t) (hgraphemes : ∀ g ∈ t.row, g ≠ [])
    (hany : t.row.any isSpace = true) (i : Nat) :
    s.cut i = t.rows.flatten.flatten.length + (kept isSpace t.row).flatten.length := by
  have hkept : 0 < (kept isSpace t.row).flatten.length := by
    refine length_flatten_pos _ (fun g hg => hgraphemes g ?_) (kept_ne_nil hany)
    rw [← kept_append_carry isSpace t.row]
    exact List.mem_append_left _ hg
  have hlater : decide (s.start < t.rows.flatten.flatten.length + (kept isSpace t.row).flatten.length) = true := by
    rw [decide_eq_true_eq, h.start]
    omega
  rw [WrapState.cut, h.afterSpace, if_pos hany, Option.filter_some, if_pos hlater, Option.getD_some]

theorem Follows.cut_of_plain (h : Follows seg s t) (hany : t.row.any isSpace = false) (i : Nat) : s.cut i = i := by
  rw [WrapState.cut, h.afterSpace, if_neg (by rw [hany]; decide)]
  rfl

/-- What is carried over is as wide as its graphemes. -/
theorem width_carried (hcells : seg.Cells) (hline : seg.graphemes line = t.rows.flatten ++ t.row ++ rest)
    (front back : List Text) (hrow : t.row = front ++ back)
    (hi : i = t.rows.flatten.flatten.length + t.row.flatten.length) :
    seg.width (slice line (t.rows.flatten.flatten.length + front.flatten.length) i) = total seg.width back := by
  have hparts : seg.graphemes line = t.rows.flatten ++ front ++ back ++ rest := by
    rw [hline, hrow, ← List.append_assoc]
  have htext : line = (t.rows.flatten.flatten ++ front.flatten) ++ back.flatten ++ rest.flatten := by
    rw [← List.flatten_append, ← List.flatten_append, ← List.flatten_append, ← hparts, seg.flatten_graphemes]
  have hstart : t.rows.flatten.flatten.length + front.flatten.length =
      (t.rows.flatten.flatten ++ front.flatten).length := List.length_append.symm
  rw [hi, hrow, List.flatten_append, List.length_append, ← Nat.add_assoc, hstart]
  conv_lhs => rw [htext]
  rw [slice_append]
  exact hcells.slice line back ⟨t.rows.flatten ++ front, rest, hparts.symm⟩

end Step

theorem any_carry (row : List Text) : (carry isSpace row).any isSpace = false := by
  rw [List.any_eq_false]
  intro x hx
  rw [not_isSpace_of_mem_carry hx]
  exact Bool.false_ne_true

/-- The loop fills the rows. -/
theorem follows (hcells : seg.Cells) (width : Nat) (seen rest : List Text) (hline : seg.graphemes line = seen ++ rest) :
    Follows seg (wrapState seg line width seen) (fill seg.width isSpace (max width 1) seen) := by
  induction seen using List.reverseRecOn generalizing rest with
  | nil => exact ⟨rfl, rfl, rfl, rfl⟩
  | append_singleton seen g ih =>
    rw [List.append_assoc, List.singleton_append] at hline
    have h := ih (g :: rest) hline
    have hseen := flatten_fill seg.width isSpace (max width 1) seen
    rw [wrapState_concat, fill_concat]
    generalize wrapState seg line width seen = s at h ⊢
    generalize fill seg.width isSpace (max width 1) seen = t at h hseen ⊢
    have hgraphemes : ∀ g ∈ t.row, g ≠ [] := fun g hg hnil =>
      seg.nonempty line (by rw [hline, ← hseen, ← hnil]; exact List.mem_append_left _ (List.mem_append_right _ hg))
    have hi : seen.flatten.length = t.rows.flatten.flatten.length + t.row.flatten.length := by
      rw [← List.length_append, ← List.flatten_append, hseen]
    rw [← hseen] at hline
    unfold WrapState.step
    dsimp only
    rcases add_cases seg.width isSpace (max width 1) t g with
      ⟨hfull, hne, hany, hadd⟩ | ⟨hfull, hne, hany, hadd⟩ | ⟨hfits, hadd⟩
    · have hparts := kept_append_carry isSpace t.row
      rw [hadd, if_pos ((h.breaks_iff hgraphemes hi _ _).2 ⟨hfull, hne⟩), h.cut_of_space hgraphemes hany,
        width_carried hcells hline _ _ hparts.symm hi]
      refine (h.end_row _ _ (any_carry t.row)).take g ?_
      dsimp only
      rw [List.flatten_append, List.flatten_append, List.length_append, List.flatten_singleton, Nat.add_assoc,
        ← List.length_append, ← List.flatten_append, hparts, hi]
    · rw [hadd, if_pos ((h.breaks_iff hgraphemes hi _ _).2 ⟨hfull, hne⟩), h.cut_of_plain hany]
      have hend := (h.end_row t.row [] rfl).take (i := seen.flatten.length) g (by
        dsimp only
        rw [List.flatten_append, List.flatten_append, List.length_append, List.flatten_singleton, hi]
        rfl)
      rw [← hi] at hend
      have hnone : seg.width (slice line seen.flatten.length seen.flatten.length) = total seg.width [] := by
        have := width_carried hcells hline t.row [] (List.append_nil _).symm hi
        rwa [← hi] at this
      rw [hnone]
      exact hend
    · have hstay : ¬s.breaks (max width 1) seen.flatten.length (seg.width g) = true := by
        rw [h.breaks_iff hgraphemes hi, not_and_or, not_lt, not_not]
        exact hfits
      rw [hadd, if_neg hstay]
      exact h.take g hi

/-- The rows are where the filled rows stand. -/
theorem wrap_eq (hcells : seg.Cells) (line : Text) (width : Nat) :
    seg.wrap line width = rangesFrom 0 (rows seg.width isSpace (max width 1) (seg.graphemes line)) := by
  have h := follows hcells width (seg.graphemes line) [] (List.append_nil _).symm
  have hlen : line.length = (fill seg.width isSpace (max width 1) (seg.graphemes line)).rows.flatten.flatten.length +
      (fill seg.width isSpace (max width 1) (seg.graphemes line)).row.flatten.length := by
    rw [← List.length_append, ← List.flatten_append, flatten_fill, seg.flatten_graphemes]
  rw [rows, rangesFrom_append, ← h.rows, Nat.zero_add]
  unfold rangesFrom
  rw [← hlen, ← h.start]
  rfl

theorem contiguous_rangesFrom (start : Nat) (rows : List (List Text)) :
    Contiguous start (start + rows.flatten.flatten.length) (rangesFrom start rows) := by
  induction rows generalizing start with
  | nil => exact rfl
  | cons row rows ih =>
    refine ⟨rfl, ?_⟩
    rw [List.flatten_cons, List.flatten_append, List.length_append, ← Nat.add_assoc]
    exact ih _

theorem mem_rangesFrom {r : Nat × Nat} {rows : List (List Text)} : r ∈ rangesFrom start rows ↔
    ∃ pre row post, rows = pre ++ row :: post ∧ r.1 = start + pre.flatten.flatten.length ∧
      r.2 = r.1 + row.flatten.length := by
  induction rows generalizing start with
  | nil => simp [rangesFrom]
  | cons row rows ih =>
    rw [rangesFrom, List.mem_cons, ih]
    constructor
    · rintro (rfl | ⟨pre, row', post, rfl, hstart, hstop⟩)
      · exact ⟨[], row, rows, rfl, rfl, rfl⟩
      · refine ⟨row :: pre, row', post, rfl, ?_, hstop⟩
        rw [hstart, List.flatten_cons, List.flatten_append, List.length_append, Nat.add_assoc]
    · rintro ⟨pre, row', post, heq, hstart, hstop⟩
      cases pre with
      | nil =>
        obtain ⟨rfl, rfl⟩ := List.cons.inj heq
        exact .inl (Prod.ext hstart (by rw [hstop, hstart]; rfl))
      | cons p pre =>
        obtain ⟨rfl, rfl⟩ := List.cons.inj heq
        refine .inr ⟨pre, row', post, rfl, ?_, hstop⟩
        rw [hstart, List.flatten_cons, List.flatten_append, List.length_append, Nat.add_assoc]

/-! ## Single graphemes -/

theorem le_of_mem_indicesFrom {i : Nat} (h : (i, g) ∈ indicesFrom start gs) : start ≤ i := by
  induction gs generalizing start with
  | nil => cases h
  | cons g' gs ih =>
    rcases List.mem_cons.1 h with heq | h
    · exact (Prod.mk.inj heq).1.ge
    · exact (Nat.le_add_right _ _).trans (ih h)

/-- At a boundary starts the grapheme that comes next. -/
theorem mem_indicesFrom_iff (start : Nat) (g : Text) (pre gs : List Text) (hne : ∀ g ∈ pre ++ gs, g ≠ []) :
    (start + pre.flatten.length, g) ∈ indicesFrom start (pre ++ gs) ↔ gs.head? = some g := by
  induction pre generalizing start with
  | nil =>
    cases gs with
    | nil => simp [indicesFrom]
    | cons g' gs =>
      have hpos := List.length_pos_iff.2 (hne g' List.mem_cons_self)
      rw [List.nil_append, indicesFrom, List.mem_cons, List.head?_cons]
      constructor
      · rintro (heq | hmem)
        · rw [(Prod.mk.inj heq).2]
        · have := le_of_mem_indicesFrom hmem
          rw [List.flatten_nil, List.length_nil] at this
          omega
      · intro heq
        rw [Option.some.inj heq]
        exact .inl rfl
  | cons p pre ih =>
    have hpos := List.length_pos_iff.2 (hne p List.mem_cons_self)
    rw [List.cons_append, indicesFrom, List.mem_cons, List.flatten_cons, List.length_append, ← Nat.add_assoc,
      ih _ fun g hg => hne g (List.mem_cons_of_mem _ hg)]
    exact or_iff_right fun heq => by
      have := (Prod.mk.inj heq).1
      omega

section Row
variable {pre post : List (List Text)} {row : List Text}

/-- A row is one grapheme of the line exactly when it was filled with one. -/
theorem single_iff (hline : seg.graphemes line = pre.flatten ++ (row ++ post.flatten)) :
    (∃ g, (pre.flatten.flatten.length, g) ∈ seg.graphemeIndices line ∧ row.flatten.length = g.length) ↔
      ∃ g, row = [g] := by
  have hne : ∀ g ∈ pre.flatten ++ (row ++ post.flatten), g ≠ [] := fun g hg hnil =>
    seg.nonempty line (by rw [hline, ← hnil]; exact hg)
  refine exists_congr fun g => ?_
  have hmem := mem_indicesFrom_iff 0 g _ _ hne
  rw [Nat.zero_add, ← hline] at hmem
  rw [Segmentation.graphemeIndices, hmem]
  constructor
  · rintro ⟨hhead, hlen⟩
    have hg : g ≠ [] := hne g (List.mem_append_right _ (List.mem_of_head? hhead))
    cases row with
    | nil => exact absurd (List.length_eq_zero_iff.1 hlen.symm) hg
    | cons g' row =>
      obtain rfl := Option.some.inj hhead
      rw [List.flatten_cons, List.length_append] at hlen
      have hempty : row = [] := by
        by_contra hrow
        have := length_flatten_pos _ (fun x hx => hne x (List.mem_append_right _
          (List.mem_append_left _ (List.mem_cons_of_mem _ hx)))) hrow
        omega
      rw [hempty]
  · rintro rfl
    exact ⟨rfl, by rw [List.flatten_singleton]⟩

/-- A row's slice is as wide as its graphemes. -/
theorem width_row (hcells : seg.Cells) (hline : seg.graphemes line = pre.flatten ++ (row ++ post.flatten)) :
    seg.width (slice line pre.flatten.flatten.length (pre.flatten.flatten.length + row.flatten.length)) =
      total seg.width row := by
  have htext : line = pre.flatten.flatten ++ row.flatten ++ post.flatten.flatten := by
    rw [← seg.flatten_graphemes line, hline, List.flatten_append, List.flatten_append, List.append_assoc]
  conv_lhs => rw [htext]
  rw [slice_append]
  exact hcells.slice line row ⟨pre.flatten, post.flatten, by rw [hline, List.append_assoc]⟩

end Row

/-- The rows keep their promise exactly when every filled row fits. -/
theorem covers_iff (hcells : seg.Cells) (line : Text) (width : Nat) : Covers seg line width (seg.wrap line width) ↔
    ∀ row ∈ rows seg.width isSpace (max width 1) (seg.graphemes line), Fits seg.width width row := by
  have hflatten := flatten_rows seg.width isSpace (max width 1) (seg.graphemes line)
  have hline : ∀ pre row post, rows seg.width isSpace (max width 1) (seg.graphemes line) = pre ++ row :: post →
      seg.graphemes line = pre.flatten ++ (row ++ post.flatten) := fun pre row post heq => by
    rw [← hflatten, heq, List.flatten_append, List.flatten_cons]
  rw [wrap_eq hcells]
  constructor
  · intro h row hmem
    obtain ⟨pre, post, heq⟩ := List.append_of_mem hmem
    have hparts := hline pre row post heq
    have hr := h.fits (pre.flatten.flatten.length, pre.flatten.flatten.length + row.flatten.length)
      (mem_rangesFrom.2 ⟨pre, row, post, heq, (Nat.zero_add _).symm, rfl⟩)
    dsimp only at hr
    rw [width_row hcells hparts] at hr
    refine hr.imp_right fun ⟨g, hg, hlen⟩ => (single_iff hparts).1 ⟨g, hg, by omega⟩
  · intro h
    refine ⟨?_, ?_, ?_⟩
    · have hcontiguous := contiguous_rangesFrom 0 (rows seg.width isSpace (max width 1) (seg.graphemes line))
      rwa [hflatten, seg.flatten_graphemes, Nat.zero_add] at hcontiguous
    · rcases List.eq_nil_or_concat' line with hnil | ⟨front, c, hline'⟩
      · exact .inl hnil
      · right
        rintro r hr
        obtain ⟨pre, row, post, heq, hstart, hstop⟩ := mem_rangesFrom.1 hr
        have hgraphemes : seg.graphemes line ≠ [] := fun hnil => by
          have := seg.flatten_graphemes line
          rw [hnil, hline'] at this
          exact List.append_ne_nil_of_right_ne_nil front (List.cons_ne_nil c []) this.symm
        have hmem : row ∈ rows seg.width isSpace (max width 1) (seg.graphemes line) := by
          rw [heq]
          exact List.mem_append_right _ List.mem_cons_self
        have hrow : row ≠ [] := fun hnil => rows_nonempty hgraphemes (hnil ▸ hmem)
        have := length_flatten_pos row (fun g hg hnil => seg.nonempty line (by
          rw [hline pre row post heq, ← hnil]
          exact List.mem_append_right _ (List.mem_append_left _ hg))) hrow
        omega
    · intro r hr
      obtain ⟨pre, row, post, heq, hstart, hstop⟩ := mem_rangesFrom.1 hr
      have hparts := hline pre row post heq
      have hmem : row ∈ rows seg.width isSpace (max width 1) (seg.graphemes line) := by
        rw [heq]
        exact List.mem_append_right _ List.mem_cons_self
      rw [Nat.zero_add] at hstart
      rw [hstop, hstart, width_row hcells hparts]
      refine (h row hmem).imp_right fun hsingle => ?_
      obtain ⟨g, hg, hlen⟩ := (single_iff hparts).2 hsingle
      exact ⟨g, hg, by rw [hlen]⟩

end Loop

/-- **The rows of a line cover it within the width** exactly when, filling rows with its graphemes, what is carried
over from a full row that ends after a space leaves room for the next grapheme. To no width at all they do when no grapheme of one cell stands
next to one without cells. -/
theorem wrap_covers_iff (seg : Segmentation) (hcells : seg.Cells) (line : Text) (width : Nat) :
    Covers seg line width (seg.wrap line width) ↔
      (0 < width → CarryFits seg.width isSpace width (seg.graphemes line)) ∧
        (width = 0 → (seg.graphemes line).IsChain fun g h => seg.width g + seg.width h ≠ 1) := by
  rw [covers_iff hcells]
  rcases Nat.eq_zero_or_pos width with rfl | hpos
  · have hspace : ∀ g, isSpace g = true → seg.width g = 1 := fun g hg => by
      rw [of_decide_eq_true hg]
      exact hcells.space
    exact (rows_one_iff hspace _).trans ⟨fun h => ⟨fun h0 => absurd h0 (lt_irrefl 0), fun _ => h⟩, fun h => h.2 rfl⟩
  · rw [Nat.max_eq_left hpos, rows_fit_iff]
    exact ⟨fun h => ⟨fun _ => h, fun h0 => absurd h0 hpos.ne'⟩, fun h => h.1 hpos⟩

theorem byChar_cells : Segmentation.byChar.Cells := by
  refine ⟨fun line gs hgs => ?_, rfl⟩
  obtain ⟨pre, post, hline⟩ := hgs
  have hsingle : ∀ g ∈ gs, ∃ c, g = [c] := fun g hg => by
    have hmem : g ∈ Segmentation.byChar.graphemes line := by
      rw [← hline]
      exact List.mem_append_left _ (List.mem_append_right _ hg)
    obtain ⟨c, -, rfl⟩ := List.mem_map.1 hmem
    exact ⟨c, rfl⟩
  clear hline
  induction gs with
  | nil => rfl
  | cons g gs ih =>
    obtain ⟨c, rfl⟩ := hsingle g List.mem_cons_self
    exact congrArg (_ + ·) (ih fun g hg => hsingle g (List.mem_cons_of_mem _ hg))

/-- The second word is cut by the width, and its first letter carried over. -/
theorem wrap_covers_words : Covers .byChar "ab cd".toList 4 (Segmentation.byChar.wrap "ab cd".toList 4) := by
  refine (wrap_covers_iff .byChar byChar_cells "ab cd".toList 4).2 ⟨fun _ seen g rest hline => ?_, fun h => nomatch h⟩
  have hlen : seen.length < 5 := by
    have := congrArg List.length hline
    rw [List.length_append, List.length_cons] at this
    change 5 = _ at this
    omega
  have htake : seen = [['a'], ['b'], [' '], ['c'], ['d']].take seen.length := by
    have := congrArg (List.take seen.length) hline
    rw [List.take_left] at this
    exact this.symm
  have hg : [['a'], ['b'], [' '], ['c'], ['d']][seen.length]? = some g := by
    have := congrArg (·[seen.length]?) hline
    rw [List.getElem?_append_right le_rfl, Nat.sub_self] at this
    exact this
  generalize seen.length = n at hlen htake hg
  subst htake
  match n, hlen, hg with
  | 0, _, hg | 1, _, hg | 2, _, hg | 3, _, hg | 4, _, hg =>
    obtain rfl := Option.some.inj hg
    decide

/-- A wide grapheme after a word that fills the row but for the space before it. -/
theorem wrap_not_covers :
    ¬∀ line width, Covers .byChar line width (Segmentation.byChar.wrap line width) := by
  intro h
  have hmany : ∀ ig ∈ Segmentation.byChar.graphemeIndices " bbbb世".toList, ig.1 = 1 → 6 ≠ 1 + ig.2.length := by decide
  rcases (h " bbbb世".toList 5).fits (1, 6) (by decide) with hle | ⟨g, hg, hlen⟩
  · revert hle
    decide
  · exact hmany _ hg rfl hlen

end Txtodo.TextInput
