import Txtodo.Core.Proofs.Merge3Proofs
import Txtodo.Engine.UnifiedDiff

/-!
# A dry run's diff as a patch

The script is an alignment of the two documents whatever the table says, its ranges cover all changes, and
what is written reads back as the hunks of these ranges. The diff makes the new document of the old one
unless a line that stays ends one of them without a newline and not the other.
-/

namespace Txtodo

namespace UnifiedDiff

open Patch (Kind Entry)

/-! ## The documents in a script -/

/-- The old document's lines. -/
def oldTexts : List (Kind × Text) → List Text
  | [] => []
  | e :: script => if e.1 = .add then oldTexts script else e.2 :: oldTexts script

/-- The new document's lines. -/
def newTexts : List (Kind × Text) → List Text
  | [] => []
  | e :: script => if e.1 = .del then newTexts script else e.2 :: newTexts script

theorem oldTexts_append (xs ys : List (Kind × Text)) : oldTexts (xs ++ ys) = oldTexts xs ++ oldTexts ys := by
  induction xs with
  | nil => rfl
  | cons e xs ih =>
    rw [List.cons_append, oldTexts, oldTexts, ih]
    split_ifs <;> rfl

theorem newTexts_append (xs ys : List (Kind × Text)) : newTexts (xs ++ ys) = newTexts xs ++ newTexts ys := by
  induction xs with
  | nil => rfl
  | cons e xs ih =>
    rw [List.cons_append, newTexts, newTexts, ih]
    split_ifs <;> rfl

theorem oldTexts_map (kind : Kind) (ls : List Text) :
    oldTexts (ls.map fun l => (kind, l)) = if kind = .add then [] else ls := by
  induction ls with
  | nil => simp [oldTexts]
  | cons l ls ih =>
    rw [List.map_cons, oldTexts, ih]
    split_ifs <;> rfl

theorem newTexts_map (kind : Kind) (ls : List Text) :
    newTexts (ls.map fun l => (kind, l)) = if kind = .del then [] else ls := by
  induction ls with
  | nil => simp [newTexts]
  | cons l ls ih =>
    rw [List.map_cons, newTexts, ih]
    split_ifs <;> rfl

theorem drop_getD {ls : List Text} {i : Nat} (h : i < ls.length) :
    ls.drop i = ls.getD i [] :: ls.drop (i + 1) := by
  rw [List.drop_eq_getElem_cons h, List.getD_eq_getElem?_getD, List.getElem?_eq_getElem h, Option.getD_some]

/-- The walk lists what is left of both documents, whatever the table holds. -/
theorem walk_texts (a b : List Text) (lcs : Nat → Nat → Nat) {fuel i j : Nat} (hi : i ≤ a.length)
    (hj : j ≤ b.length) (hfuel : (a.length - i) + (b.length - j) ≤ fuel) :
    oldTexts (walk a b lcs fuel i j) = a.drop i ∧ newTexts (walk a b lcs fuel i j) = b.drop j := by
  induction fuel generalizing i j with
  | zero =>
    rw [List.drop_eq_nil_of_le (by omega), List.drop_eq_nil_of_le (by omega)]
    exact ⟨rfl, rfl⟩
  | succ fuel ih =>
    rw [walk]
    by_cases hmore : i < a.length ∨ j < b.length
    · rw [if_pos hmore]
      by_cases hsame : i < a.length ∧ j < b.length ∧ a.getD i [] = b.getD j []
      · obtain ⟨hi', hj', heq⟩ := hsame
        have ih := @ih (i + 1) (j + 1) (by omega) (by omega) (by omega)
        rw [if_pos ⟨hi', hj', heq⟩, oldTexts, newTexts, ih.1, ih.2, drop_getD hi', drop_getD hj', ← heq]
        exact ⟨rfl, rfl⟩
      · rw [if_neg hsame]
        by_cases hdel : j = b.length ∨ (i < a.length ∧ lcs i (j + 1) ≤ lcs (i + 1) j)
        · have hi' : i < a.length := by omega
          have ih := @ih (i + 1) j (by omega) (by omega) (by omega)
          rw [if_pos hdel, oldTexts, newTexts, ih.1, ih.2, drop_getD hi']
          exact ⟨rfl, rfl⟩
        · have hj' : j < b.length := by omega
          have ih := @ih i (j + 1) (by omega) (by omega) (by omega)
          rw [if_neg hdel, oldTexts, newTexts, ih.1, ih.2, drop_getD hj']
          exact ⟨rfl, rfl⟩
    · rw [if_neg hmore, List.drop_eq_nil_of_le (by omega), List.drop_eq_nil_of_le (by omega)]
      exact ⟨rfl, rfl⟩

theorem middle_texts (a b : List Text) : oldTexts (middle a b) = a ∧ newTexts (middle a b) = b := by
  rw [middle]
  split_ifs
  · rw [oldTexts_append, newTexts_append, oldTexts_map, oldTexts_map, newTexts_map, newTexts_map]
    simp
  · exact walk_texts a b _ (Nat.zero_le _) (Nat.zero_le _) (by simp)

theorem common_cons (x y : Text) (a b : List Text) :
    common (x :: a) (y :: b) = if x = y then common a b + 1 else 0 := by
  rw [common, List.zip_cons_cons, List.takeWhile_cons]
  by_cases h : x = y
  · simp [h, common]
  · simp [h]

/-- Two lists agree as far as they have equal lines. -/
theorem take_common (a b : List Text) :
    a.take (common a b) = b.take (common a b) ∧ common a b ≤ a.length ∧ common a b ≤ b.length := by
  induction a generalizing b with
  | nil => exact ⟨by simp [common], Nat.le_refl _, Nat.zero_le _⟩
  | cons x a ih =>
    cases b with
    | nil => exact ⟨by simp [common], Nat.zero_le _, Nat.le_refl _⟩
    | cons y b =>
      rw [common_cons]
      by_cases h : x = y
      · obtain ⟨heq, ha, hb⟩ := ih b
        rw [if_pos h, List.take_succ_cons, List.take_succ_cons, heq, h]
        exact ⟨rfl, Nat.succ_le_succ ha, Nat.succ_le_succ hb⟩
      · rw [if_neg h]
        exact ⟨rfl, Nat.zero_le _, Nat.zero_le _⟩

theorem common_self (a : List Text) : common a a = a.length := by
  induction a with
  | nil => rfl
  | cons x a ih => rw [common_cons, if_pos rfl, ih, List.length_cons]

/-- The script lists both documents. -/
theorem editScript_texts (a b : List Text) :
    oldTexts (editScript a b) = a ∧ newTexts (editScript a b) = b := by
  rw [editScript]
  generalize hpre : common a b = pre
  generalize hsuf : common (a.drop pre).reverse (b.drop pre).reverse = suf
  obtain ⟨htake, ha, hb⟩ := take_common a b
  obtain ⟨hrev, ha', hb'⟩ := take_common (a.drop pre).reverse (b.drop pre).reverse
  rw [hpre] at htake ha hb
  rw [hsuf, List.length_reverse, List.length_drop] at ha' hb'
  rw [hsuf] at hrev
  have hend : a.drop (a.length - suf) = b.drop (b.length - suf) := by
    have h := congrArg List.reverse hrev
    rw [List.reverse_take, List.reverse_take, List.length_reverse, List.length_reverse, List.reverse_reverse,
      List.reverse_reverse, List.length_drop, List.length_drop, List.drop_drop, List.drop_drop] at h
    have hla : pre + (a.length - pre - suf) = a.length - suf := by omega
    have hlb : pre + (b.length - pre - suf) = b.length - suf := by omega
    rwa [hla, hlb] at h
  have hwhole : ∀ c : List Text, pre + suf ≤ c.length →
      c.take pre ++ ((c.take (c.length - suf)).drop pre ++ c.drop (c.length - suf)) = c := by
    intro c hc
    have hsplit : c.take pre = (c.take (c.length - suf)).take pre := by
      rw [List.take_take, Nat.min_eq_left (by omega)]
    rw [← List.append_assoc, hsplit, List.take_append_drop, List.take_append_drop]
  obtain ⟨hma, hmb⟩ := middle_texts ((a.take (a.length - suf)).drop pre) ((b.take (b.length - suf)).drop pre)
  rw [oldTexts_append, oldTexts_append, newTexts_append, newTexts_append, oldTexts_map, oldTexts_map,
    newTexts_map, newTexts_map, hma, hmb]
  constructor
  · rw [if_neg (by decide), if_neg (by decide), List.append_assoc]
    exact hwhole a (by omega)
  · rw [if_neg (by decide), if_neg (by decide), List.append_assoc, htake, hend]
    exact hwhole b (by omega)

/-! ## The ranges cover all changes -/

/-- The ranges written for the changes before `i`. -/
structure Ranges (script : List (Kind × Text)) (i : Nat) (out : List (Nat × Nat)) : Prop where
  ordered : ∀ r ∈ out, r.1 ≤ r.2 ∧ r.1 < i ∧ r.2 ≤ i + CONTEXT ∧ r.2 ≤ script.length
  sorted : out.Pairwise fun r r' => r.2 ≤ r'.1
  covered : ∀ j e, j < i → script[j]? = some e → e.1 ≠ .same → ∃ r ∈ out, r.1 ≤ j ∧ j < r.2

variable {script : List (Kind × Text)} {i : Nat} {out : List (Nat × Nat)}

/-- A change's own range, behind the others. -/
theorem Ranges.push_new (h : Ranges script i out) (hi : i < script.length)
    (hbehind : ∀ r ∈ out, r.2 ≤ i - CONTEXT) :
    Ranges script (i + 1) (out ++ [(i - CONTEXT, min (i + 1 + CONTEXT) script.length)]) where
  ordered := by
    intro r hr
    rcases List.mem_append.1 hr with hr | hr
    · have hold := h.ordered r hr
      omega
    · obtain rfl := List.mem_singleton.1 hr
      dsimp only
      omega
  sorted := List.pairwise_append.2 ⟨h.sorted, List.pairwise_singleton _ _, fun r hr r' hr' => by
    obtain rfl := List.mem_singleton.1 hr'
    exact hbehind r hr⟩
  covered := by
    intro j e hj he hkind
    by_cases hji : j = i
    · exact ⟨_, List.mem_append_right _ (List.mem_singleton_self _), by dsimp only; omega⟩
    · obtain ⟨r, hr, hin⟩ := h.covered j e (by omega) he hkind
      exact ⟨r, List.mem_append_left _ hr, hin⟩

/-- A change whose context reaches the last range. -/
theorem Ranges.push_last {last : Nat × Nat} (h : Ranges script i (out ++ [last])) (hi : i < script.length) :
    Ranges script (i + 1) (out ++ [(last.1, min (i + 1 + CONTEXT) script.length)]) where
  ordered := by
    intro r hr
    rcases List.mem_append.1 hr with hr | hr
    · have hold := h.ordered r (List.mem_append_left _ hr)
      omega
    · obtain rfl := List.mem_singleton.1 hr
      have hold := h.ordered last (List.mem_append_right _ (List.mem_singleton_self _))
      dsimp only
      omega
  sorted := by
    obtain ⟨hout, -, hlast⟩ := List.pairwise_append.1 h.sorted
    refine List.pairwise_append.2 ⟨hout, List.pairwise_singleton _ _, fun r hr r' hr' => ?_⟩
    obtain rfl := List.mem_singleton.1 hr'
    exact hlast r hr last (List.mem_singleton_self _)
  covered := by
    have hold := h.ordered last (List.mem_append_right _ (List.mem_singleton_self _))
    have hnew : (last.1, min (i + 1 + CONTEXT) script.length) ∈
        out ++ [(last.1, min (i + 1 + CONTEXT) script.length)] :=
      List.mem_append_right _ (List.mem_singleton_self _)
    intro j e hj he hkind
    by_cases hji : j = i
    · exact ⟨_, hnew, by dsimp only; omega⟩
    · obtain ⟨r, hr, hin⟩ := h.covered j e (by omega) he hkind
      rcases List.mem_append.1 hr with hr | hr
      · exact ⟨r, List.mem_append_left _ hr, hin⟩
      · obtain rfl := List.mem_singleton.1 hr
        exact ⟨_, hnew, by dsimp only; omega⟩

theorem Ranges.push (h : Ranges script i out) (hi : i < script.length) :
    Ranges script (i + 1) (pushHunk script.length out i) := by
  rw [pushHunk]
  rcases List.eq_nil_or_concat out with rfl | ⟨init, last, rfl⟩
  · exact h.push_new hi (List.forall_mem_nil _)
  · rw [List.concat_eq_append] at h ⊢
    rw [List.getLast?_concat]
    dsimp only
    rw [List.dropLast_concat]
    split_ifs with hreach
    · exact h.push_last hi
    · refine h.push_new hi ?_
      intro r hr
      have hlast := h.ordered last (List.mem_append_right _ (List.mem_singleton_self _))
      rcases List.mem_append.1 hr with hr | hr
      · have hle := (List.pairwise_append.1 h.sorted).2.2 r hr last (List.mem_singleton_self _)
        omega
      · obtain rfl := List.mem_singleton.1 hr
        omega

/-- A line that stays needs no range. -/
theorem Ranges.skip (h : Ranges script i out) {e : Kind × Text} (he : script[i]? = some e)
    (hkind : e.1 = .same) : Ranges script (i + 1) out where
  ordered := fun r hr => by
    have hold := h.ordered r hr
    omega
  sorted := h.sorted
  covered := by
    intro j e' hj he' hkind'
    by_cases hji : j = i
    · subst hji
      rw [he, Option.some_inj] at he'
      exact absurd (he' ▸ hkind) hkind'
    · exact h.covered j e' (by omega) he' hkind'

theorem hunks_ranges (script : List (Kind × Text)) : Ranges script script.length (hunks script) := by
  have hrun : ∀ k, k ≤ script.length → Ranges script k ((script.zipIdx.take k).foldl
      (fun out e => if e.1.1 = .same then out else pushHunk script.length out e.2) []) := by
    intro k
    induction k with
    | zero =>
      exact fun _ => ⟨List.forall_mem_nil _, List.Pairwise.nil, fun j _ hj => absurd hj (Nat.not_lt_zero j)⟩
    | succ k ih =>
      intro hk
      have ih := ih (by omega)
      have hget : script.zipIdx[k]? = some (script[k], k) := by
        rw [List.getElem?_zipIdx, List.getElem?_eq_getElem hk, Option.map_some, Nat.zero_add]
      rw [List.take_add_one, hget, Option.toList_some, List.foldl_concat]
      dsimp only
      split_ifs with hkind
      · exact ih.skip (List.getElem?_eq_getElem hk) hkind
      · exact ih.push hk
  have hall := hrun script.length le_rfl
  rwa [List.take_of_length_le (by rw [List.length_zipIdx])] at hall

/-- Nothing changes between the ranges. -/
theorem Ranges.covers {es : List (Entry UnifiedFormat.Line)} (h : Ranges script script.length out)
    (hkinds : es.map Entry.kind = script.map Prod.fst) : Patch.Covers es 0 out := by
  have hlen : es.length = script.length := by
    have := congrArg List.length hkinds
    rwa [List.length_map, List.length_map] at this
  have hsame : ∀ (j : Nat) (e : Entry UnifiedFormat.Line), es[j]? = some e → e.kind ≠ .same → ∃ r ∈ out, r.1 ≤ j ∧ j < r.2 := by
    intro j e he hkind
    obtain ⟨hj, rfl⟩ := List.getElem?_eq_some_iff.1 he
    have hscript : script[j]? = some script[j] := List.getElem?_eq_getElem _
    refine h.covered j _ (hlen ▸ hj) hscript ?_
    have hk := congrArg (fun ks => ks[j]?) hkinds
    rw [List.getElem?_map, List.getElem?_map, List.getElem?_eq_getElem hj, hscript] at hk
    rwa [← Option.some_inj.1 hk]
  have hrun : ∀ (rs : List (Nat × Nat)) (p : Nat), (∀ r ∈ rs, p ≤ r.1 ∧ r.1 ≤ r.2) →
      rs.Pairwise (fun r r' => r.2 ≤ r'.1) →
      (∀ (j : Nat) (e : Entry UnifiedFormat.Line), p ≤ j → es[j]? = some e → e.kind ≠ .same → ∃ r ∈ rs, r.1 ≤ j ∧ j < r.2) →
      Patch.Covers es p rs := by
    intro rs
    induction rs with
    | nil =>
      intro p _ _ hcov e he
      obtain ⟨j, hj⟩ := List.mem_iff_getElem?.1 he
      rw [List.getElem?_drop] at hj
      by_contra hkind
      obtain ⟨r, hr, -⟩ := hcov (p + j) e (Nat.le_add_right _ _) hj hkind
      cases hr
    | cons r rs ih =>
      intro p hle hsorted hcov
      obtain ⟨⟨hp, hr⟩, hrest⟩ := List.forall_mem_cons.1 hle
      obtain ⟨hbehind, hsorted⟩ := List.pairwise_cons.1 hsorted
      refine ⟨hp, hr, ?_, ih r.2 (fun r' hr' => ⟨hbehind r' hr', (hrest r' hr').2⟩) hsorted ?_⟩
      · intro e he
        obtain ⟨j, hj⟩ := List.mem_iff_getElem?.1 he
        rw [Patch.slice, List.getElem?_drop, List.getElem?_take] at hj
        split_ifs at hj with hlt
        by_contra hkind
        obtain ⟨r', hr', hin⟩ := hcov (p + j) e (Nat.le_add_right _ _) hj hkind
        rcases List.mem_cons.1 hr' with rfl | hr'
        · omega
        · have := hbehind r' hr'
          omega
      · intro j e hj he hkind
        obtain ⟨r', hr', hin⟩ := hcov j e (by omega) he hkind
        rcases List.mem_cons.1 hr' with rfl | hr'
        · omega
        · exact ⟨r', hr', hin⟩
  exact hrun out 0 (fun r hr => ⟨Nat.zero_le _, (h.ordered r hr).1⟩) h.sorted
    fun j e _ he hkind => hsame j e he hkind

/-! ## Where the documents end -/

/-- Lines of which all but the last are ended by a newline, and the last when `newline` says so. -/
def endLines : List Text → Bool → List UnifiedFormat.Line
  | [], _ => []
  | l :: ls, newline => (l, !ls.isEmpty || newline) :: endLines ls newline

/-- A list of pieces less a last empty one. -/
def dropEmpty (parts : List Text) : List Text := if parts.getLast? = some [] then parts.dropLast else parts

/-- The pieces of a document as its lines. -/
theorem lines_eq (t : Text) : UnifiedFormat.lines t = endLines (splitTerminator t) (endsWithNewline t) := by
  have hrun : ∀ parts : List Text, parts ≠ [] → (∀ l ∈ parts, '\n' ∉ l) →
      UnifiedFormat.lines (['\n'].intercalate parts) =
        endLines (dropEmpty parts) (endsWithNewline (['\n'].intercalate parts)) := by
    intro parts
    induction parts with
    | nil => exact fun h => absurd rfl h
    | cons l parts ih =>
      intro _ hnewline
      obtain ⟨hl, hparts⟩ := List.forall_mem_cons.1 hnewline
      cases parts with
      | nil =>
        rw [List.intercalate_singleton]
        by_cases hempty : l = []
        · subst hempty
          rfl
        · have hend : endsWithNewline l = false :=
            decide_eq_false fun h => hl (List.mem_of_getLast? h)
          have hkeep : dropEmpty [l] = [l] := if_neg (by simpa using hempty)
          rw [UnifiedFormat.lines_last hl hempty, hend, hkeep]
          rfl
      | cons l' parts =>
        have ih := ih (List.cons_ne_nil _ _) hparts
        have htext : ['\n'].intercalate (l :: l' :: parts) =
            l ++ '\n' :: ['\n'].intercalate (l' :: parts) := by
          rw [List.intercalate_cons_cons, List.append_assoc, List.singleton_append]
        have hdrop : dropEmpty (l :: l' :: parts) = l :: dropEmpty (l' :: parts) := by
          rw [dropEmpty, dropEmpty, List.getLast?_cons_cons]
          split_ifs <;> rfl
        rw [htext, UnifiedFormat.lines_line hl, ih, hdrop, endLines]
        generalize ['\n'].intercalate (l' :: parts) = rest at ih ⊢
        by_cases hrest : rest = []
        · subst hrest
          cases hlast : dropEmpty (l' :: parts) with
          | nil => simp [endLines, endsWithNewline]
          | cons k ks =>
            rw [hlast] at ih
            cases ih
        · have hend : endsWithNewline (l ++ '\n' :: rest) = endsWithNewline rest := by
            obtain ⟨c, cs, rfl⟩ := List.exists_cons_of_ne_nil hrest
            rw [endsWithNewline, List.getLast?_append, List.getLast?_cons_cons, endsWithNewline]
            simp
          have hmore : dropEmpty (l' :: parts) ≠ [] := by
            intro hnil
            rw [hnil] at ih
            have := UnifiedFormat.text_lines rest
            rw [ih] at this
            exact hrest this.symm
          rw [hend]
          simp [hmore]
  have hparts := hrun (t.splitOn '\n') (List.splitOn_ne_nil '\n' t)
    fun l hl => Merge3.not_mem_of_mem_splitOn hl
  rwa [List.intercalate_splitOn] at hparts

/-- A line of the script, with whether a newline ends it in the old and in the new document. -/
structure Row where
  kind : Kind
  line : Text
  held : Bool
  made : Bool

def rows (oldNewline newNewline : Bool) : List (Kind × Text) → List Row
  | [] => []
  | e :: script =>
    ⟨e.1, e.2, !(oldTexts script).isEmpty || oldNewline, !(newTexts script).isEmpty || newNewline⟩ ::
      rows oldNewline newNewline script

/-- The marker behind a line says that a newline is missing in one of the documents it belongs to. -/
def Row.shown (r : Row) : Bool := (r.kind = .add || r.held) && (r.kind = .del || r.made)

def Row.entry (r : Row) : Entry UnifiedFormat.Line := ⟨r.kind, (r.line, r.held), (r.line, r.shown)⟩

variable {oldNewline newNewline : Bool}

theorem olds_rows (script : List (Kind × Text)) :
    Patch.olds ((rows oldNewline newNewline script).map Row.entry) = endLines (oldTexts script) oldNewline := by
  induction script with
  | nil => rfl
  | cons e script ih =>
    rw [rows, List.map_cons, oldTexts]
    by_cases hkind : e.1 = .add
    · rw [if_pos hkind]
      exact (Patch.olds_add hkind).trans ih
    · rw [if_neg hkind, endLines, ← ih]
      exact Patch.olds_of_ne hkind

/-- The new document's lines. -/
def made : List Row → List UnifiedFormat.Line
  | [] => []
  | r :: rs => if r.kind = .del then made rs else (r.line, r.made) :: made rs

theorem made_rows (script : List (Kind × Text)) :
    made (rows oldNewline newNewline script) = endLines (newTexts script) newNewline := by
  induction script with
  | nil => rfl
  | cons e script ih =>
    rw [rows, made, ih, newTexts]
    dsimp only
    split_ifs
    · rfl
    · rw [endLines]

/-- A line that stays is ended in both documents or in none. -/
def Row.Agrees (r : Row) : Prop := r.kind = .same → r.held = r.made

theorem Row.entry_fits {r : Row} (h : r.Agrees) : r.entry.Fits := by
  intro hkind
  obtain ⟨kind, line, held, made⟩ := r
  cases kind with
  | same =>
    have heq : held = made := h rfl
    simp [Row.entry, Row.shown, heq]
  | del => simp [Row.entry, Row.shown]
  | add => exact absurd rfl hkind

theorem news_of_agrees {rs : List Row} (h : ∀ r ∈ rs, r.Agrees) : Patch.news (rs.map Row.entry) = made rs := by
  induction rs with
  | nil => rfl
  | cons r rs ih =>
    obtain ⟨hr, hrs⟩ := List.forall_mem_cons.1 h
    rw [List.map_cons, Patch.news, made, ih hrs]
    obtain ⟨kind, line, held, made'⟩ := r
    cases kind with
    | same =>
      have heq : held = made' := hr rfl
      simp [Row.entry, heq]
    | del => simp [Row.entry]
    | add => simp [Row.entry, Row.shown]

/-! ### Counting newlines -/

def open_ (ls : List UnifiedFormat.Line) : Nat := ls.countP fun l => !l.2

theorem count_newline {ls : List UnifiedFormat.Line} (h : ∀ l ∈ ls, '\n' ∉ l.1) :
    (UnifiedFormat.text ls).count '\n' + open_ ls = ls.length := by
  induction ls with
  | nil => rfl
  | cons l ls ih =>
    obtain ⟨hl, hls⟩ := List.forall_mem_cons.1 h
    have ih := ih hls
    obtain ⟨t, ended⟩ := l
    have ht : t.count '\n' = 0 := List.count_eq_zero.2 hl
    rw [open_] at ih ⊢
    rw [UnifiedFormat.text_cons, List.count_append, List.countP_cons, List.length_cons, UnifiedFormat.lineText]
    cases ended with
    | true =>
      simp [ht]
      omega
    | false =>
      simp [ht]
      omega

/-- A script makes the same texts, however its lines are ended. -/
theorem map_fst_news (rs : List Row) :
    (Patch.news (rs.map Row.entry)).map Prod.fst = (made rs).map Prod.fst := by
  induction rs with
  | nil => rfl
  | cons r rs ih =>
    obtain ⟨kind, line, held, made'⟩ := r
    rw [List.map_cons, Patch.news, made]
    cases kind <;> simp [Row.entry, ih]

theorem mem_made {rs : List Row} {l : Text} (h : l ∈ (made rs).map Prod.fst) : ∃ r ∈ rs, l = r.line := by
  induction rs with
  | nil => cases h
  | cons r rs ih =>
    rw [made] at h
    split_ifs at h
    · obtain ⟨r', hr', heq⟩ := ih h
      exact ⟨r', List.mem_cons_of_mem _ hr', heq⟩
    · rcases List.mem_cons.1 h with rfl | h
      · exact ⟨r, List.mem_cons_self .., rfl⟩
      · obtain ⟨r', hr', heq⟩ := ih h
        exact ⟨r', List.mem_cons_of_mem _ hr', heq⟩

/-- Lines that stay and that no newline ends, in the old and in the new document. -/
def heldOpen (rs : List Row) : Nat := rs.countP fun r => r.kind = .same && !r.held

def madeOpen (rs : List Row) : Nat := rs.countP fun r => r.kind = .same && !r.made

theorem open_news (rs : List Row) :
    open_ (Patch.news (rs.map Row.entry)) + madeOpen rs = open_ (made rs) + heldOpen rs := by
  induction rs with
  | nil => rfl
  | cons r rs ih =>
    obtain ⟨kind, line, held, made'⟩ := r
    rw [open_, open_, madeOpen, heldOpen] at ih ⊢
    rw [List.map_cons, Patch.news, made, List.countP_cons, List.countP_cons]
    cases kind with
    | same =>
      cases held <;> cases made' <;> simp [Row.entry] <;> omega
    | del => simpa [Row.entry] using ih
    | add =>
      cases made' <;> simp [Row.entry, Row.shown] <;> omega

theorem rows_same {script : List (Kind × Text)} (h : oldTexts script = [] ∨ newTexts script = []) :
    ∀ r ∈ rows oldNewline newNewline script, r.kind ≠ .same := by
  induction script with
  | nil => exact List.forall_mem_nil _
  | cons e script ih =>
    rw [oldTexts, newTexts] at h
    rw [rows]
    by_cases hadd : e.1 = .add
    · rw [if_pos hadd, if_neg (by rw [hadd]; decide)] at h
      have hkind : e.1 ≠ .same := by rw [hadd]; decide
      refine List.forall_mem_cons.2 ⟨hkind, ih (.inl ?_)⟩
      simpa using h
    · rw [if_neg hadd] at h
      by_cases hdel : e.1 = .del
      · rw [if_pos hdel] at h
        have hkind : e.1 ≠ .same := by rw [hdel]; decide
        refine List.forall_mem_cons.2 ⟨hkind, ih (.inr ?_)⟩
        simpa using h
      · rw [if_neg hdel] at h
        simp at h

/-- The last lines that stay agree as soon as as many of them are open in both. -/
theorem agrees_of_open {script : List (Kind × Text)}
    (h : heldOpen (rows oldNewline newNewline script) = madeOpen (rows oldNewline newNewline script)) :
    ∀ r ∈ rows oldNewline newNewline script, r.Agrees := by
  induction script with
  | nil => exact List.forall_mem_nil _
  | cons e script ih =>
    rw [rows] at h ⊢
    rw [heldOpen, madeOpen, List.countP_cons, List.countP_cons, ← heldOpen, ← madeOpen] at h
    by_cases hsame : e.1 = .same
    · by_cases hlast : oldTexts script = [] ∨ newTexts script = []
      · -- No line behind stays, so this one is the last that does.
        have hnone := @rows_same oldNewline newNewline script hlast
        have hzero : heldOpen (rows oldNewline newNewline script) = 0 ∧
            madeOpen (rows oldNewline newNewline script) = 0 :=
          ⟨List.countP_eq_zero.2 fun r hr => by simp [hnone r hr],
            List.countP_eq_zero.2 fun r hr => by simp [hnone r hr]⟩
        rw [hzero.1, hzero.2, hsame] at h
        refine List.forall_mem_cons.2 ⟨fun _ => ?_, fun r hr hkind => absurd hkind (hnone r hr)⟩
        dsimp only at h ⊢
        generalize (!(oldTexts script).isEmpty || oldNewline) = held at h ⊢
        generalize (!(newTexts script).isEmpty || newNewline) = made at h ⊢
        cases held <;> cases made <;> simp at h ⊢
      · push Not at hlast
        have hheld : (!(oldTexts script).isEmpty || oldNewline) = true := by simp [hlast.1]
        have hmade : (!(newTexts script).isEmpty || newNewline) = true := by simp [hlast.2]
        rw [hheld, hmade] at h ⊢
        exact List.forall_mem_cons.2 ⟨fun _ => rfl, ih (by simpa using h)⟩
    · refine List.forall_mem_cons.2 ⟨fun hkind => absurd hkind hsame, ih ?_⟩
      simpa [hsame] using h

/-! ## What is written -/

theorem rows_map_kind (script : List (Kind × Text)) :
    ((rows oldNewline newNewline script).map Row.entry).map Entry.kind = script.map Prod.fst := by
  induction script with
  | nil => rfl
  | cons e script ih => rw [rows, List.map_cons, List.map_cons, ih, List.map_cons, Row.entry]

theorem drop_rows (script : List (Kind × Text)) (n : Nat) :
    (rows oldNewline newNewline script).drop n = rows oldNewline newNewline (script.drop n) := by
  induction script generalizing n with
  | nil => rw [List.drop_nil, rows, List.drop_nil]
  | cons e script ih =>
    cases n with
    | zero => rfl
    | succ n => rw [rows, List.drop_succ_cons, ih, List.drop_succ_cons]

/-- A document's lines in a stretch are counted by their kinds. -/
theorem length_olds {es : List (Entry UnifiedFormat.Line)} {range : List (Kind × Text)}
    (h : es.map Entry.kind = range.map Prod.fst) :
    (Patch.olds es).length = count range .del ∧ (Patch.news es).length = count range .add := by
  induction es generalizing range with
  | nil =>
    obtain rfl := List.map_eq_nil_iff.1 h.symm
    exact ⟨rfl, rfl⟩
  | cons e es ih =>
    cases range with
    | nil => cases h
    | cons k range =>
      obtain ⟨hk, hrest⟩ := List.cons.inj h
      obtain ⟨hold, hnew⟩ := ih hrest
      rw [count] at hold hnew ⊢
      rw [count, Patch.olds, Patch.news, hk]
      cases hkind : k.1 <;> simp [hkind, hold, hnew]

/-- The lines of a stretch as the format has them. -/
def written (rs : List Row) : Text :=
  ((rs.map fun r => r.entry.row).flatMap UnifiedFormat.rowLines).flatMap fun l => l ++ ['\n']

theorem written_cons (r : Row) (rs : List Row) : written (r :: rs) =
    (UnifiedFormat.sign r.kind :: r.line) ++ '\n' ::
      ((if !r.shown then "\\ No newline at end of file\n".toList else []) ++ written rs) := by
  rw [written, List.map_cons, List.flatMap_cons, List.flatMap_append, ← written, UnifiedFormat.rowLines]
  have hmarker : "\\ No newline at end of file\n".toList = UnifiedFormat.marker ++ ['\n'] := by decide
  by_cases hshown : r.shown = true
  · simp [Entry.row, Row.entry, hshown]
  · simp [Entry.row, Row.entry, hshown, hmarker]

/-- The marker is written behind the lines that are not shown as ended. -/
theorem incomplete_eq {script pre tail : List (Kind × Text)} {e : Kind × Text} (h : script = pre ++ e :: tail) :
    incomplete ⟨(oldTexts script).length, (newTexts script).length, oldNewline, newNewline⟩
        (if e.1 = .add then none else some (oldTexts pre).length)
        (if e.1 = .del then none else some (newTexts pre).length) =
      !(⟨e.1, e.2, !(oldTexts tail).isEmpty || oldNewline, !(newTexts tail).isEmpty || newNewline⟩ :
        Row).shown := by
  have hlast : ∀ ls : List Text, decide (ls = []) = ls.isEmpty := by
    intro ls
    cases ls <;> rfl
  rw [h, incomplete, Row.shown, oldTexts_append, newTexts_append, oldTexts, newTexts, List.length_append,
    List.length_append]
  cases e.1 <;> simp [hlast]

theorem writeLines_take {script pre tail : List (Kind × Text)} (h : script = pre ++ tail) (n : Nat) :
    writeLines ⟨(oldTexts script).length, (newTexts script).length, oldNewline, newNewline⟩ (tail.take n)
        (oldTexts pre).length (newTexts pre).length =
      written ((rows oldNewline newNewline tail).take n) := by
  induction n generalizing pre tail with
  | zero => rfl
  | succ n ih =>
    cases tail with
    | nil => rfl
    | cons e tail =>
      obtain ⟨kind, line⟩ := e
      have ih := @ih (pre ++ [(kind, line)]) tail (by rw [h, List.append_assoc, List.singleton_append])
      have hmarker := @incomplete_eq oldNewline newNewline script pre tail (kind, line) h
      rw [oldTexts_append, newTexts_append, List.length_append, List.length_append] at ih
      rw [rows, List.take_succ_cons, List.take_succ_cons, written_cons, ← hmarker, ← ih, writeLines]
      cases kind <;> rfl

theorem length_texts (script : List (Kind × Text)) :
    (oldTexts script).length = count script .del ∧ (newTexts script).length = count script .add := by
  induction script with
  | nil => exact ⟨rfl, rfl⟩
  | cons e script ih =>
    rw [count] at ih ⊢
    rw [count] at ih ⊢
    rw [oldTexts, newTexts]
    cases hkind : e.1 <;> simp [hkind, ih]

theorem header_eq (oldStart oldLen newStart newLen : Nat) :
    "@@ -".toList ++ Nat.toDigits 10 oldStart ++ ",".toList ++ Nat.toDigits 10 oldLen ++ " +".toList ++
        Nat.toDigits 10 newStart ++ ",".toList ++ Nat.toDigits 10 newLen ++ " @@\n".toList =
      UnifiedFormat.headerText (oldStart, oldLen) (newStart, newLen) ++ ['\n'] := by
  have hopen : "@@ -".toList = ['@', '@', ' ', '-'] := by decide
  have hcomma : ",".toList = [','] := by decide
  have hplus : " +".toList = [' ', '+'] := by decide
  have hclose : " @@\n".toList = [' ', '@', '@', '\n'] := by decide
  rw [hopen, hcomma, hplus, hclose, UnifiedFormat.headerText]
  simp only [List.append_assoc, List.cons_append, List.nil_append]

theorem writeHunk_eq (script : List (Kind × Text)) {r : Nat × Nat} (hr : r.1 ≤ r.2) :
    writeHunk script r.1 r.2 ⟨(oldTexts script).length, (newTexts script).length, oldNewline, newNewline⟩ =
      (UnifiedFormat.hunkLines (Patch.hunkAt ((rows oldNewline newNewline script).map Row.entry) r)).flatMap
        fun l => l ++ ['\n'] := by
  obtain ⟨s, e⟩ := r
  dsimp only at hr ⊢
  have hkinds := @rows_map_kind oldNewline newNewline script
  have hbefore := @length_olds ((((rows oldNewline newNewline script).map Row.entry)).take s) (script.take s)
    (by rw [List.map_take, hkinds, List.map_take])
  have hrange := @length_olds (Patch.slice ((rows oldNewline newNewline script).map Row.entry) (s, e))
    ((script.take e).drop s) (by rw [Patch.slice, List.map_drop, List.map_take, hkinds, List.map_drop,
      List.map_take])
  have hlines := @writeLines_take oldNewline newNewline script (script.take s) (script.drop s)
    (List.take_append_drop s script).symm (e - s)
  have hslice : Patch.slice ((rows oldNewline newNewline script).map Row.entry) (s, e) =
      ((rows oldNewline newNewline (script.drop s)).take (e - s)).map Row.entry := by
    rw [Patch.slice, List.drop_take, ← List.map_drop, drop_rows, List.map_take]
  rw [(length_texts (script.take s)).1, (length_texts (script.take s)).2] at hlines
  have hwrite : writeHunk script s e
      ⟨(oldTexts script).length, (newTexts script).length, oldNewline, newNewline⟩ =
      UnifiedFormat.headerText
        (first (count (script.take s) .del) (count ((script.take e).drop s) .del),
          count ((script.take e).drop s) .del)
        (first (count (script.take s) .add) (count ((script.take e).drop s) .add),
          count ((script.take e).drop s) .add) ++ ['\n'] ++
      written ((rows oldNewline newNewline (script.drop s)).take (e - s)) := by
    rw [← hlines, ← List.drop_take]
    exact congrArg (· ++ _) (header_eq _ _ _ _)
  rw [hwrite, UnifiedFormat.hunkLines, Patch.hunkAt, Patch.hunkOf]
  dsimp only
  rw [Patch.oldLen_map_row, Patch.newLen_map_row, hbefore.1, hbefore.2, hrange.1, hrange.2,
    List.flatMap_cons, hslice, List.map_map]
  rfl

/-! ## The diff as a patch -/

theorem mem_rows {script : List (Kind × Text)} {r : Row} (h : r ∈ rows oldNewline newNewline script) :
    ∃ pre e post, script = pre ++ e :: post ∧ r = ⟨e.1, e.2, !(oldTexts post).isEmpty || oldNewline,
      !(newTexts post).isEmpty || newNewline⟩ := by
  induction script with
  | nil => cases h
  | cons e script ih =>
    rw [rows] at h
    rcases List.mem_cons.1 h with rfl | h
    · exact ⟨[], e, script, rfl, rfl⟩
    · obtain ⟨pre, e', post, rfl, rfl⟩ := ih h
      exact ⟨e :: pre, e', post, rfl, rfl⟩

theorem rows_mem (pre : List (Kind × Text)) (e : Kind × Text) (post : List (Kind × Text)) :
    (⟨e.1, e.2, !(oldTexts post).isEmpty || oldNewline, !(newTexts post).isEmpty || newNewline⟩ : Row) ∈
      rows oldNewline newNewline (pre ++ e :: post) := by
  induction pre with
  | nil => exact List.mem_cons_self ..
  | cons e' pre ih => exact List.mem_cons_of_mem _ ih

/-- A script's lines are lines of one of the documents. -/
theorem mem_texts {script : List (Kind × Text)} {e : Kind × Text} (h : e ∈ script) :
    e.2 ∈ oldTexts script ∨ e.2 ∈ newTexts script := by
  obtain ⟨pre, post, rfl⟩ := List.append_of_mem h
  rw [oldTexts_append, newTexts_append, oldTexts, newTexts]
  by_cases hadd : e.1 = .add
  · have hdel : e.1 ≠ .del := by rw [hadd]; decide
    rw [if_neg hdel]
    exact .inr (List.mem_append_right _ (List.mem_cons_self ..))
  · rw [if_neg hadd]
    exact .inl (List.mem_append_right _ (List.mem_cons_self ..))

theorem newline_not_mem_splitTerminator {t l : Text} (h : l ∈ splitTerminator t) : '\n' ∉ l := by
  have hparts : l ∈ t.splitOn '\n' := by
    rw [splitTerminator] at h
    split_ifs at h
    · exact (List.dropLast_sublist _).subset h
    · exact h
  exact Merge3.not_mem_of_mem_splitOn hparts

/-- With a script of the documents' lines, the hunks written make the new document of the old one exactly when
the lines that stay are ended alike. -/
theorem applyTo_hunks {old new : Text} {script : List (Kind × Text)} (hold : oldTexts script = splitTerminator old)
    (hnew : newTexts script = splitTerminator new) :
    UnifiedFormat.applyTo ((hunks script).flatMap fun r => writeHunk script r.1 r.2
        ⟨(splitTerminator old).length, (splitTerminator new).length, endsWithNewline old, endsWithNewline new⟩) old =
      some new ↔ ∀ r ∈ rows (endsWithNewline old) (endsWithNewline new) script, r.Agrees := by
  generalize hrows : rows (endsWithNewline old) (endsWithNewline new) script = rs
  have hlinesOld : UnifiedFormat.lines old = Patch.olds (rs.map Row.entry) := by
    rw [lines_eq, ← hold, ← olds_rows, hrows]
  have hlinesNew : UnifiedFormat.lines new = made rs := by
    rw [lines_eq, ← hnew, ← made_rows, hrows]
  have hranges := hunks_ranges script
  have htext : ((hunks script).flatMap fun r => writeHunk script r.1 r.2
      ⟨(splitTerminator old).length, (splitTerminator new).length, endsWithNewline old, endsWithNewline new⟩) =
      (((hunks script).map (Patch.hunkAt (rs.map Row.entry))).flatMap UnifiedFormat.hunkLines).flatMap
        fun l => l ++ ['\n'] := by
    rw [← hold, ← hnew, ← hrows, List.flatMap_map, List.flatMap_assoc]
    refine List.flatMap_congr fun r hr => ?_
    exact writeHunk_eq script (hranges.ordered r hr).1
  have hline : ∀ r ∈ rs, '\n' ∉ r.line := by
    intro r hr
    rw [← hrows] at hr
    obtain ⟨pre, e, post, hscript, rfl⟩ := mem_rows hr
    rcases mem_texts (hscript ▸ List.mem_append_right pre (List.mem_cons_self ..) : e ∈ script) with hmem | hmem
    · exact newline_not_mem_splitTerminator (hold ▸ hmem)
    · exact newline_not_mem_splitTerminator (hnew ▸ hmem)
  have hread : UnifiedFormat.read ((hunks script).flatMap fun r => writeHunk script r.1 r.2
      ⟨(splitTerminator old).length, (splitTerminator new).length, endsWithNewline old, endsWithNewline new⟩) =
      some ((hunks script).map (Patch.hunkAt (rs.map Row.entry))) := by
    rw [htext]
    refine UnifiedFormat.read_hunkLines fun k hk row hrow => ?_
    obtain ⟨r, -, rfl⟩ := List.mem_map.1 hk
    obtain ⟨e, he, rfl⟩ := List.mem_map.1 hrow
    obtain ⟨r', hr', rfl⟩ := List.mem_map.1 (List.mem_of_mem_take (List.mem_of_mem_drop he))
    exact hline r' hr'
  have hcovers : Patch.Covers (rs.map Row.entry) 0 (hunks script) :=
    hranges.covers (by rw [← hrows, rows_map_kind])
  obtain ⟨hfits, hfound⟩ := Patch.applyHunks_ranges hcovers
  rw [List.drop_zero, List.take_zero] at hfits hfound
  have happly : UnifiedFormat.applyTo ((hunks script).flatMap fun r => writeHunk script r.1 r.2
      ⟨(splitTerminator old).length, (splitTerminator new).length, endsWithNewline old, endsWithNewline new⟩) old =
      (Patch.applyHunks (Patch.olds (rs.map Row.entry)) 0 0
        ((hunks script).map (Patch.hunkAt (rs.map Row.entry)))).map UnifiedFormat.text := by
    rw [UnifiedFormat.applyTo, hread, Option.bind_some, hlinesOld]
    rfl
  rw [happly]
  constructor
  · intro hsome
    obtain ⟨out, hout, hnewText⟩ := Option.map_eq_some_iff.1 hsome
    have hall := hfits (hfound out hout)
    rw [Patch.olds_nil, Patch.news_nil, List.length_nil, hout, Option.some_inj] at hall
    have hfst := map_fst_news rs
    have hmade : ∀ l ∈ (made rs).map Prod.fst, '\n' ∉ l := by
      intro l hl
      obtain ⟨r, hr, rfl⟩ := mem_made hl
      exact hline r hr
    have hcountMade := count_newline fun l hl => hmade l.1 (List.mem_map_of_mem hl)
    have hcountNews := @count_newline (Patch.news (rs.map Row.entry))
      fun l hl => hmade l.1 (hfst ▸ List.mem_map_of_mem hl)
    rw [← hlinesNew, UnifiedFormat.text_lines, hlinesNew, ← List.length_map Prod.fst] at hcountMade
    rw [← hall, hnewText, hall, ← List.length_map Prod.fst, hfst] at hcountNews
    have hopen := open_news rs
    rw [← hrows] at hopen hcountMade hcountNews ⊢
    exact agrees_of_open (by omega)
  · intro hagrees
    have hentries : ∀ r ∈ hunks script, ∀ e ∈ Patch.slice (rs.map Row.entry) r, e.Fits := by
      intro r _ e he
      obtain ⟨r', hr', rfl⟩ := List.mem_map.1 (List.mem_of_mem_take (List.mem_of_mem_drop he))
      exact Row.entry_fits (hagrees r' hr')
    have hout := hfits hentries
    rw [Patch.olds_nil, Patch.news_nil, List.length_nil] at hout
    rw [hout, Option.map_some, news_of_agrees hagrees, ← hlinesNew, UnifiedFormat.text_lines]

/-! ## The last line -/

theorem markLast_texts (script : List (Kind × Text)) :
    oldTexts (markLast script) = oldTexts script ∧ newTexts (markLast script) = newTexts script := by
  rw [markLast]
  split_ifs with hall
  · rcases List.eq_nil_or_concat script with rfl | ⟨init, last, rfl⟩
    · exact ⟨rfl, rfl⟩
    · rw [List.concat_eq_append] at hall ⊢
      obtain ⟨kind, line⟩ := last
      have hkind : kind = .same := by
        simpa using List.all_eq_true.1 hall (kind, line) (List.mem_append_right _ (List.mem_singleton_self _))
      subst hkind
      rw [List.getLast?_concat]
      dsimp only
      rw [List.dropLast_concat, oldTexts_append, newTexts_append, oldTexts_append, newTexts_append]
      exact ⟨rfl, rfl⟩
  · exact ⟨rfl, rfl⟩

/-- Once the last line is shown as removed and added, no line that stays ends a document. -/
theorem markLast_agrees {script : List (Kind × Text)} (hall : (script.all fun e => e.1 = .same) = true) :
    ∀ r ∈ rows oldNewline newNewline (markLast script), r.Agrees := by
  intro r hr hkind
  rw [markLast, if_pos hall] at hr
  rcases List.eq_nil_or_concat script with rfl | ⟨init, last, rfl⟩
  · cases hr
  · rw [List.concat_eq_append, List.getLast?_concat] at hr
    dsimp only at hr
    rw [List.dropLast_concat] at hr
    obtain ⟨pre, e, post, hscript, rfl⟩ := mem_rows hr
    have hbehind : ∃ mid, post = mid ++ [(.del, last.2), (.add, last.2)] := by
      rcases List.append_eq_append_iff.1 hscript with ⟨as, rfl, has⟩ | ⟨bs, rfl, hbs⟩
      · rcases as with _ | ⟨x, _ | ⟨y, as⟩⟩
        · obtain ⟨rfl, -⟩ := List.cons.inj has
          cases hkind
        · obtain ⟨-, hrest⟩ := List.cons.inj has
          obtain ⟨rfl, -⟩ := List.cons.inj hrest
          cases hkind
        · obtain ⟨-, hrest⟩ := List.cons.inj has
          obtain ⟨-, hrest⟩ := List.cons.inj hrest
          exact absurd hrest.symm (by simp)
      · cases bs with
        | nil =>
          obtain ⟨rfl, -⟩ := List.cons.inj hbs
          cases hkind
        | cons b bs => exact ⟨bs, (List.cons.inj hbs).2⟩
    obtain ⟨mid, rfl⟩ := hbehind
    have hmore : ∀ (ls : List Text) (l : Text), (ls ++ [l]).isEmpty = false := by
      intro ls l
      cases ls <;> rfl
    simp [oldTexts_append, newTexts_append, oldTexts, newTexts, hmore]

theorem editScript_self (a : List Text) : editScript a a = a.map fun l => (.same, l) := by
  have hcommon : common (a.drop a.length).reverse (a.drop a.length).reverse = 0 := by
    rw [List.drop_length]
    rfl
  rw [editScript, common_self, hcommon, Nat.sub_zero, List.take_length, List.drop_length]
  exact List.append_nil _ |>.trans (List.append_nil _)

/-- The two documents have the same lines, or no line that the script keeps ends one of them without a newline
and not the other. -/
def EndsAlike (old new : Text) : Prop :=
  splitTerminator old = splitTerminator new ∨
    ∀ pre line post, editScript (splitTerminator old) (splitTerminator new) = pre ++ (.same, line) :: post →
      (oldTexts post = [] ∧ endsWithNewline old = false ↔ newTexts post = [] ∧ endsWithNewline new = false)

end UnifiedDiff

open UnifiedDiff in
/-- The diff of two documents makes the new one of the old one when the script keeps no line that ends one of
them without a newline and not the other, and only then. -/
theorem applyPatch_unifiedDiff_iff (path old new : Text) (hne : old ≠ new) :
    applyPatch path (unifiedDiff path old new) old = some new ↔ EndsAlike old new := by
  generalize hscript : editScript (splitTerminator old) (splitTerminator new) = script
  obtain ⟨hold, hnew⟩ := editScript_texts (splitTerminator old) (splitTerminator new)
  obtain ⟨hmarkOld, hmarkNew⟩ := markLast_texts script
  rw [hscript] at hold hnew
  have happly := applyTo_hunks (hmarkOld.trans hold) (hmarkNew.trans hnew)
  have hpatch : applyPatch path (unifiedDiff path old new) old =
      UnifiedFormat.applyTo ((hunks (markLast script)).flatMap fun r => writeHunk (markLast script) r.1 r.2
        ⟨(splitTerminator old).length, (splitTerminator new).length, endsWithNewline old,
          endsWithNewline new⟩) old := by
    rw [unifiedDiff, if_neg hne, applyPatch, if_pos (List.isPrefixOf_iff_prefix.2 (List.prefix_append _ _)),
      List.drop_left, hscript]
  rw [hpatch, happly, EndsAlike, hscript]
  by_cases hall : (script.all fun e => e.1 = .same) = true
  · have hsame : ∀ s : List (Patch.Kind × Text), (s.all fun e => e.1 = .same) = true → oldTexts s = newTexts s := by
      intro s
      induction s with
      | nil => exact fun _ => rfl
      | cons e s ih =>
        intro h
        rw [List.all_cons, Bool.and_eq_true, decide_eq_true_eq] at h
        rw [oldTexts, newTexts, ih h.2, h.1]
        rfl
    refine iff_of_true (markLast_agrees hall) (.inl ?_)
    rw [← hold, ← hnew, hsame script hall]
  · have hdiffer : splitTerminator old ≠ splitTerminator new := by
      intro heq
      rw [heq, editScript_self] at hscript
      refine hall ?_
      rw [← hscript]
      simp
    rw [markLast, if_neg hall, or_iff_right hdiffer]
    constructor
    · rintro hagrees pre line post rfl
      have hrow := hagrees _ (rows_mem pre (.same, line) post) rfl
      dsimp only at hrow
      cases hpostOld : oldTexts post <;> cases hpostNew : newTexts post <;>
        cases hendOld : endsWithNewline old <;> cases hendNew : endsWithNewline new <;>
        simp [hpostOld, hpostNew, hendOld, hendNew] at hrow ⊢
    · intro hends r hr hkind
      obtain ⟨pre, e, post, rfl, rfl⟩ := mem_rows hr
      obtain ⟨kind, line⟩ := e
      obtain rfl : kind = .same := hkind
      have hiff := hends pre line post rfl
      dsimp only
      cases hpostOld : oldTexts post <;> cases hpostNew : newTexts post <;>
        cases hendOld : endsWithNewline old <;> cases hendNew : endsWithNewline new <;>
        simp [hpostOld, hpostNew, hendOld, hendNew] at hiff ⊢

theorem applyPatch_unifiedDiff_appended : applyPatch "todo.txt".toList
    (unifiedDiff "todo.txt".toList "a\n".toList "a\nb\n".toList) "a\n".toList = some "a\nb\n".toList := by
  refine (applyPatch_unifiedDiff_iff _ _ _ (by decide)).2 (.inr ?_)
  intro pre line post _
  have hend : UnifiedDiff.endsWithNewline "a\n".toList = true ∧
    UnifiedDiff.endsWithNewline "a\nb\n".toList = true := by decide
  rw [hend.1, hend.2]
  simp

/-- A line is appended to a document that does not end in a newline. -/
theorem not_applyPatch_unifiedDiff : ¬ ∀ path old new : Text, old ≠ new →
    applyPatch path (unifiedDiff path old new) old = some new := by
  intro h
  have happended := h "todo.txt".toList "a".toList "a\nb\n".toList (by decide)
  revert happended
  decide

end Txtodo
