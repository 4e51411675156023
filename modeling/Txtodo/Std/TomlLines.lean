import Mathlib.Data.List.Basic
import Mathlib.Tactic.Common

/-!
# The lines of a TOML document

A line of a TOML document starts at the top level, inside a value that goes on (a multi-line string, an
array, an inline table) or behind the first table header. A scan of the characters before it tells which.
With it, an edit of one key's top-level lines is a relation between the lines before and after: such lines
are dropped, one new line is put in at the top level, and nothing else changes.
-/

namespace Toml

/-- What the next character stands in. -/
inductive Mode
  | plain
  | comment
  /-- One or two quotes, which may open a multi-line string. -/
  | opened (q : Char) (two : Bool)
  | single (q : Char) (escaped : Bool)
  /-- `run` quotes stand right before; three close the string, and it may end in two more. -/
  | multi (q : Char) (run : Nat) (escaped : Bool)
  deriving DecidableEq

/-- The state of a scan. -/
structure State where
  mode : Mode
  depth : Nat
  table : Bool
  deriving DecidableEq

namespace State

/-- The start of a document. -/
def start : State := ⟨.plain, 0, false⟩

/-- What comes next is neither in a value that goes on nor in a table. -/
def atTop (st : State) : Bool := decide (st.mode = .plain) && st.depth == 0 && !st.table

/-- A character outside comments and strings. The character 39 quotes a literal string. -/
def plainChar (st : State) (c : Char) : State :=
  if c = '"' ∨ c = Char.ofNat 39 then { st with mode := .opened c false }
  else if c = '#' then { st with mode := .comment }
  else if c = '[' ∨ c = '{' then { st with mode := .plain, depth := st.depth + 1 }
  else if c = ']' ∨ c = '}' then { st with mode := .plain, depth := st.depth - 1 }
  else { st with mode := .plain }

/-- A character inside a string on one line. Only a basic string has escapes. -/
def singleChar (st : State) (q : Char) (escaped : Bool) (c : Char) : State :=
  if c = '\n' then { st with mode := .plain }
  else if escaped then { st with mode := .single q false }
  else if c = q then { st with mode := .plain }
  else { st with mode := .single q (q = '"' && c = '\\') }

def multiChar (st : State) (q : Char) (run : Nat) (escaped : Bool) (c : Char) : State :=
  if escaped then { st with mode := .multi q 0 false }
  else if 3 ≤ run ∧ (c ≠ q ∨ run = 5) then st.plainChar c
  else if c = q then { st with mode := .multi q (run + 1) false }
  else { st with mode := .multi q 0 (q = '"' && c = '\\') }

def char (st : State) (c : Char) : State :=
  match st.mode with
  | .plain => st.plainChar c
  | .comment => if c = '\n' then { st with mode := .plain } else st
  | .opened q false => if c = q then { st with mode := .opened q true } else st.singleChar q false c
  | .opened q true => if c = q then { st with mode := .multi q 0 false } else st.plainChar c
  | .single q escaped => st.singleChar q escaped c
  | .multi q run escaped => st.multiChar q run escaped c

/-- One line and its newline. A header at the top level opens a table, and no line behind it is at the top
level again. -/
def line (header : List Char → Bool) (st : State) (l : List Char) : State :=
  { (l ++ ['\n']).foldl char st with table := st.table || (st.atTop && header l) }

/-- The state behind some lines. -/
def scan (header : List Char → Bool) (st : State) (ls : List (List Char)) : State := ls.foldl (line header) st

end State

open State

section
variable (header name : List Char → Bool)

/-- The lines without those that set the key at the top level. -/
def outside (st : State) : List (List Char) → List (List Char)
  | [] => []
  | l :: ls => if st.atTop && name l then outside (st.line header l) ls else l :: outside (st.line header l) ls

/-- Every line that looks as if it set the key starts at the top level. -/
def NamesAtTop (st : State) : List (List Char) → Prop
  | [] => True
  | l :: ls => (name l = true → st.atTop = true) ∧ NamesAtTop (st.line header l) ls

instance NamesAtTop.decidable : ∀ (st : State) (ls : List (List Char)), Decidable (NamesAtTop header name st ls)
  | _, [] => .isTrue trivial
  | st, l :: ls =>
    have := NamesAtTop.decidable (st.line header l) ls
    inferInstanceAs (Decidable (_ ∧ _))

/-- Lines from `st` on may lose every line that looks as if it set the key, and get the line `new` in front:
those lines start at the top level, and so does `new`. Or one of them reads as `new`, only such lines stand
before it, and it may stand anywhere, since it comes back as it was. -/
def MayReplace (st : State) (new : Option (List Char)) (ls : List (List Char)) : Prop :=
  NamesAtTop header name st ls ∧ (new = none ∨ st.atTop = true) ∨
    ∃ pre l post, new = some l ∧ ls = pre ++ l :: post ∧ (∀ k ∈ pre, name k = true) ∧
      NamesAtTop header name st pre ∧ NamesAtTop header name (st.scan header (pre ++ [l])) post

/-- An edit of the key: `Edited new st ls out` when the lines `out` are the lines `ls`, scanned from `st`,
without some that set the key at the top level and with the line `new` put in at most once, at the top
level. -/
inductive Edited : Option (List Char) → State → List (List Char) → List (List Char) → Prop
  | nil {new st} : Edited new st [] []
  | keep {new st l ls out} (h : Edited new (st.line header l) ls out) : Edited new st (l :: ls) (l :: out)
  | drop {new st l ls out} (htop : st.atTop = true) (hname : name l = true)
      (h : Edited new (st.line header l) ls out) : Edited new st (l :: ls) out
  | put {st l ls out} (htop : st.atTop = true) (h : Edited none st ls out) : Edited (some l) st ls (l :: out)

end

variable {header name : List Char → Bool} {new : Option (List Char)} {st : State}
  {l : List Char} {ls out pre held rest : List (List Char)}

@[simp] theorem scan_nil : st.scan header [] = st := rfl

@[simp] theorem scan_cons : st.scan header (l :: ls) = (st.line header l).scan header ls := rfl

namespace Edited

/-! ## Making an edit -/

theorem refl (ls : List (List Char)) : Edited header name new st ls ls := by
  induction ls generalizing st with
  | nil => exact .nil
  | cons l ls ih => exact .keep ih

theorem keep_append (h : Edited header name new (st.scan header pre) ls out) :
    Edited header name new st (pre ++ ls) (pre ++ out) := by
  induction pre generalizing st with
  | nil => exact h
  | cons p pre ih => exact .keep (ih h)

/-- Lines that set the key at the top level are filtered out. -/
theorem filter_append (hheld : NamesAtTop header name st held)
    (h : Edited header name new (st.scan header held) ls out) :
    Edited header name new st (held ++ ls) (held.filter (fun l => !name l) ++ out) := by
  induction held generalizing st with
  | nil => exact h
  | cons l held ih =>
    obtain ⟨hl, hheld⟩ := hheld
    cases hname : name l with
    | true =>
      rw [List.filter_cons_of_neg (by simp [hname])]
      exact .drop (hl hname) hname (ih hheld h)
    | false =>
      rw [List.filter_cons_of_pos (by simp [hname])]
      exact .keep (ih hheld h)

/-! ## What an edit leaves -/

/-- Every line outside the key's is there after the edit, in order. -/
theorem outside_sublist (h : Edited header name new st ls out) : (outside header name st ls).Sublist out := by
  induction h with
  | nil => exact List.Sublist.refl _
  | keep h ih =>
    rw [outside]
    split
    · exact ih.cons _
    · exact ih.cons_cons _
  | drop htop hname h ih =>
    rw [outside, if_pos (by rw [htop, hname]; rfl)]
    exact ih
  | put htop h ih => exact ih.cons _

section Inversion
variable (hnew : ∀ l ∈ new, name l = true)
include hnew

/-- A line that does not set the key is kept where it stands. -/
theorem of_keep (hl : name l = false) (h : Edited header name new st (l :: ls) (l :: out)) :
    Edited header name new (st.line header l) ls out := by
  cases h with
  | keep h => exact h
  | drop htop hname h => rw [hl] at hname; cases hname
  | put htop h =>
    have hname := hnew l rfl
    rw [hl] at hname
    cases hname

theorem of_keep_append (hpre : ∀ l ∈ pre, name l = false)
    (h : Edited header name new st (pre ++ ls) (pre ++ out)) :
    Edited header name new (st.scan header pre) ls out := by
  induction pre generalizing st with
  | nil => exact h
  | cons p pre ih =>
    obtain ⟨hp, hpre⟩ := List.forall_mem_cons.1 hpre
    exact ih hpre (h.of_keep hnew hp)

/-- Lines that an edit filters out start at the top level, when a line of another kind follows. -/
theorem namesAtTop_of_filter (hrest : ∀ l ∈ rest.head?, name l = false)
    (h : Edited header name new st (held ++ rest) (held.filter (fun l => !name l) ++ rest)) :
    NamesAtTop header name st held := by
  induction held generalizing st with
  | nil => trivial
  | cons l held ih =>
    cases hname : name l with
    | false =>
      rw [List.filter_cons_of_pos (by simp [hname])] at h
      refine ⟨fun hl => ?_, ih (h.of_keep hnew hname)⟩
      rw [hname] at hl
      cases hl
    | true =>
      rw [List.filter_cons_of_neg (by simp [hname]), List.cons_append] at h
      generalize hout : held.filter (fun l => !name l) ++ rest = out at h
      have hhead : ∀ k ∈ out.head?, name k = false := by
        intro k hk
        rw [← hout, List.head?_append, Option.mem_def, Option.or_eq_some_iff] at hk
        rcases hk with hk | ⟨-, hk⟩
        · have hmem := List.mem_of_mem_head? hk
          simpa using (List.mem_filter.1 hmem).2
        · exact hrest k hk
      cases h with
      | keep h =>
        have hl := hhead l rfl
        rw [hname] at hl
        cases hl
      | drop htop hname h =>
        subst hout
        exact ⟨fun _ => htop, ih h⟩
      | put htop h =>
        have hl := hhead _ rfl
        rw [hnew _ rfl] at hl
        cases hl

end Inversion

/-- A new line in front stands at the top level, or it is a line of before. -/
theorem mayReplace_of_cons {new : List Char} (hnew : name new = true) (hrest : ∀ l ∈ rest.head?, name l = false)
    (h : Edited header name (some new) st (held ++ rest) (new :: (held.filter (fun l => !name l) ++ rest))) :
    MayReplace header name st (some new) held := by
  have hnames : ∀ l ∈ some new, name l = true := by
    rintro l ⟨⟩
    exact hnew
  induction held generalizing st with
  | nil =>
    generalize hls : [] ++ rest = ls at h
    cases h with
    | keep h =>
      have hname := hrest new (by rw [← List.nil_append rest, hls]; rfl)
      rw [hnew] at hname
      cases hname
    | drop htop hname h =>
      have hname' := hrest _ (by rw [← List.nil_append rest, hls]; rfl)
      rw [hname] at hname'
      cases hname'
    | put htop h => exact .inl ⟨trivial, .inr htop⟩
  | cons l held ih =>
    generalize hout : (l :: held).filter (fun l => !name l) ++ rest = out at h
    cases h with
    | keep h =>
      subst hout
      rw [List.filter_cons_of_neg (by simp [hnew])] at h
      exact .inr ⟨[], new, held, rfl, rfl, by simp, trivial, h.namesAtTop_of_filter hnames hrest⟩
    | drop htop hname h =>
      subst hout
      rw [List.filter_cons_of_neg (by simp [hname])] at h
      rcases ih h with ⟨hheld, -⟩ | ⟨pre, k, post, hk, rfl, hpre, hpreTop, hpost⟩
      · exact .inl ⟨⟨fun _ => htop, hheld⟩, .inr htop⟩
      · refine .inr ⟨l :: pre, k, post, hk, rfl, ?_, ⟨fun _ => htop, hpreTop⟩, hpost⟩
        exact List.forall_mem_cons.2 ⟨hname, hpre⟩
    | put htop h =>
      subst hout
      exact .inl ⟨h.namesAtTop_of_filter (by simp) hrest, .inr htop⟩

/-- The lines that look as if they set the key are replaced by a new line: an edit of the key, exactly when
they stand at the top level. -/
theorem replace_iff (hnew : ∀ l ∈ new, name l = true) (hpre : ∀ l ∈ pre, name l = false)
    (hrest : ∀ l ∈ rest.head?, name l = false) :
    Edited header name new st (pre ++ (held ++ rest))
        (pre ++ (new.toList ++ (held.filter (fun l => !name l) ++ rest))) ↔
      MayReplace header name (st.scan header pre) new held := by
  constructor
  · intro h
    have h := h.of_keep_append hnew hpre
    cases new with
    | none => exact .inl ⟨h.namesAtTop_of_filter hnew hrest, .inl rfl⟩
    | some new => exact mayReplace_of_cons (hnew new rfl) hrest h
  · rintro (⟨hheld, hplace⟩ | ⟨front, l, post, rfl, rfl, hfront, hfrontTop, hpost⟩)
    · refine keep_append ?_
      cases new with
      | none => exact filter_append hheld (refl rest)
      | some new => exact .put (hplace.resolve_left (Option.some_ne_none _)) (filter_append hheld (refl rest))
    · have hl := hnew l rfl
      have hnone : front.filter (fun k => !name k) = [] := List.filter_eq_nil_iff.2 (by simpa using hfront)
      have hpost : NamesAtTop header name (((st.scan header pre).scan header front).line header l) post := by
        rw [State.scan, List.foldl_append] at hpost
        exact hpost
      have hkept : Edited header name (some l) ((st.scan header pre).scan header front) (l :: (post ++ rest))
          (l :: (post.filter (fun k => !name k) ++ rest)) := .keep (filter_append hpost (refl rest))
      have hedit := filter_append hfrontTop hkept
      rw [hnone] at hedit
      rw [List.filter_append, hnone, List.filter_cons_of_neg (by simp [hl]), List.append_assoc, List.cons_append]
      exact keep_append hedit

end Edited

end Toml
