import Txtodo.Std.Patch

/-!
# The unified format

How a unified diff is read: a hunk starts with its place and length in both files, its lines with a sign that
says what becomes of them. A line that starts with a backslash says that no newline ends the line before it.
-/

namespace UnifiedFormat

open Patch

/-- A line of a file, and whether a newline ends it. -/
abbrev Line := List Char × Bool

/-- The lines of a file. -/
def lines : List Char → List Line
  | [] => []
  | c :: t =>
    if c = '\n' then ([], true) :: lines t
    else
      match lines t with
      | [] => [([c], false)]
      | l :: ls => (c :: l.1, l.2) :: ls

def lineText (l : Line) : List Char := if l.2 then l.1 ++ ['\n'] else l.1

/-- The text of a file with these lines. -/
def text (ls : List Line) : List Char := ls.flatMap lineText

@[simp] theorem text_nil : text [] = [] := rfl

theorem text_cons (l : Line) (ls : List Line) : text (l :: ls) = lineText l ++ text ls := by
  rw [text, List.flatMap_cons, text]

theorem text_append (xs ys : List Line) : text (xs ++ ys) = text xs ++ text ys := by
  rw [text, List.flatMap_append, text, text]

theorem text_lines (t : List Char) : text (lines t) = t := by
  induction t with
  | nil => rfl
  | cons c t ih =>
    rw [lines]
    by_cases hc : c = '\n'
    · rw [if_pos hc, text_cons, ih, hc]
      rfl
    · rw [if_neg hc]
      cases hls : lines t with
      | nil =>
        rw [hls, text_nil] at ih
        rw [← ih]
        rfl
      | cons l ls =>
        rw [hls, text_cons] at ih
        rw [← ih, text_cons, lineText, lineText]
        dsimp only
        split_ifs <;> rfl

/-- A line's characters hold no newline, and all lines but the last are ended. -/
theorem lines_line {l : List Char} (h : '\n' ∉ l) (t : List Char) : lines (l ++ '\n' :: t) = (l, true) :: lines t := by
  induction l with
  | nil => rw [List.nil_append, lines, if_pos rfl]
  | cons c l ih =>
    have hc : c ≠ '\n' := fun heq => h (heq ▸ List.mem_cons_self ..)
    rw [List.cons_append, lines, if_neg hc, ih fun hmem => h (List.mem_cons_of_mem _ hmem)]

theorem lines_last {l : List Char} (h : '\n' ∉ l) (hne : l ≠ []) : lines l = [(l, false)] := by
  induction l with
  | nil => exact absurd rfl hne
  | cons c l ih =>
    have hc : c ≠ '\n' := fun heq => h (heq ▸ List.mem_cons_self ..)
    rw [lines, if_neg hc]
    by_cases hl : l = []
    · rw [hl]
      rfl
    · rw [ih (fun hmem => h (List.mem_cons_of_mem _ hmem)) hl]

/-- Text written line by line is read back. -/
theorem lines_flatMap {ls : List (List Char)} (h : ∀ l ∈ ls, '\n' ∉ l) :
    lines (ls.flatMap fun l => l ++ ['\n']) = ls.map fun l => (l, true) := by
  induction ls with
  | nil => rfl
  | cons l ls ih =>
    obtain ⟨hl, hls⟩ := List.forall_mem_cons.1 h
    rw [List.flatMap_cons, List.append_assoc, List.singleton_append, lines_line hl, ih hls, List.map_cons]

/-- Lines as a text has them: only the last may lack its newline, and then it is not empty. -/
structure Ended (ls : List Line) : Prop where
  plain : ∀ l ∈ ls, '\n' ∉ l.1
  last : ∀ l ∈ ls, l.2 = false → l.1 ≠ []
  ended : ls.Pairwise fun l _ => l.2 = true

theorem Ended.sublist {ks ls : List Line} (h : Ended ls) (hks : ks.Sublist ls) : Ended ks where
  plain l hl := h.plain l (hks.subset hl)
  last l hl := h.last l (hks.subset hl)
  ended := h.ended.sublist hks

theorem ended_lines (t : List Char) : Ended (lines t) := by
  induction t with
  | nil => exact ⟨by simp [lines], by simp [lines], .nil⟩
  | cons c t ih =>
    rw [lines]
    by_cases hc : c = '\n'
    · rw [if_pos hc]
      exact ⟨List.forall_mem_cons.2 ⟨List.not_mem_nil, ih.plain⟩, List.forall_mem_cons.2 ⟨nofun, ih.last⟩,
        List.pairwise_cons.2 ⟨fun _ _ => rfl, ih.ended⟩⟩
    · rw [if_neg hc]
      cases hls : lines t with
      | nil => exact ⟨by simp [Ne.symm hc], by simp, List.pairwise_singleton ..⟩
      | cons l ls =>
        rw [hls] at ih
        obtain ⟨hplain, hplains⟩ := List.forall_mem_cons.1 ih.plain
        obtain ⟨hended, hends⟩ := List.pairwise_cons.1 ih.ended
        refine ⟨List.forall_mem_cons.2 ⟨?_, hplains⟩, List.forall_mem_cons.2 ⟨fun _ => by simp, ?_⟩,
          List.pairwise_cons.2 ⟨hended, hends⟩⟩
        · exact List.not_mem_cons_of_ne_of_not_mem (Ne.symm hc) hplain
        · exact (List.forall_mem_cons.1 ih.last).2

/-- Such lines are read back from their text. -/
theorem lines_text {ls : List Line} (h : Ended ls) : lines (text ls) = ls := by
  induction ls with
  | nil => rfl
  | cons l ls ih =>
    have hplain := h.plain l (List.mem_cons_self ..)
    obtain ⟨body, ended⟩ := l
    rw [text_cons, lineText]
    cases ended with
    | true =>
      rw [if_pos rfl, List.append_assoc, List.singleton_append, lines_line hplain,
        ih (h.sublist (List.sublist_cons_self ..))]
    | false =>
      have hlast : ls = [] := by
        refine List.eq_nil_iff_forall_not_mem.2 fun k hk => ?_
        have hended := (List.pairwise_cons.1 h.ended).1 k hk
        cases hended
      rw [hlast, text_nil, if_neg (by simp), List.append_nil,
        lines_last hplain (h.last _ (List.mem_cons_self ..) rfl)]

/-! ## Reading a patch -/

/-- The sign in front of a line. -/
def sign : Kind → Char
  | .same => ' '
  | .del => '-'
  | .add => '+'

def kindOf (c : Char) : Option Kind :=
  if c = ' ' then some .same else if c = '-' then some .del else if c = '+' then some .add else none

@[simp] theorem kindOf_sign (kind : Kind) : kindOf (sign kind) = some kind := by
  cases kind <;> rfl

/-- The lines of a patch, with whether a newline ends the line each of them shows. -/
def attach : List (List Char) → List Line × Bool
  | [] => ([], true)
  | l :: ls =>
    if l.head? = some '\\' then ((attach ls).1, false) else ((l, (attach ls).2) :: (attach ls).1, true)

/-- The number at the start, and what follows it. -/
def readNumber (t : List Char) : Option (Nat × List Char) :=
  let digits := t.takeWhile Char.isDigit
  if digits = [] then none else some (Nat.ofDigitChars 10 digits 0, t.dropWhile Char.isDigit)

/-- A start and a length; a length that is not given is 1. -/
def readSpan (t : List Char) : Option (Nat × Nat × List Char) :=
  (readNumber t).bind fun start =>
    if start.2.head? = some ',' then
      (readNumber start.2.tail).map fun len => (start.1, len.1, len.2)
    else some (start.1, 1, start.2)

/-- What follows `lead`. -/
def expect (lead t : List Char) : Option (List Char) :=
  if lead.isPrefixOf t then some (t.drop lead.length) else none

/-- The places and lengths of a hunk, the old file's first. -/
def readHeader (t : List Char) : Option ((Nat × Nat) × (Nat × Nat)) :=
  (expect ['@', '@', ' ', '-'] t).bind fun t =>
    (readSpan t).bind fun old =>
      (expect [' ', '+'] old.2.2).bind fun t =>
        (readSpan t).bind fun new =>
          (expect [' ', '@', '@'] new.2.2).map fun _ => ((old.1, old.2.1), (new.1, new.2.1))

/-- The stretch that takes `o` lines of the old file and makes `n` of the new one. -/
def readBody : List Line → Nat → Nat → Option (List (Kind × Line) × List Line)
  | [], o, n => if o = 0 ∧ n = 0 then some ([], []) else none
  | l :: ls, o, n =>
    if o = 0 ∧ n = 0 then some ([], l :: ls)
    else
      match l.1.head?.bind kindOf with
      | none => none
      | some kind =>
        let row := (kind, (l.1.tail, l.2))
        if oldLen [row] ≤ o ∧ newLen [row] ≤ n then
          (readBody ls (o - oldLen [row]) (n - newLen [row])).map fun r => (row :: r.1, r.2)
        else none

/-- At most `fuel` hunks. -/
def readHunks : Nat → List Line → Option (List (Hunk Line))
  | _, [] => some []
  | 0, _ :: _ => none
  | fuel + 1, header :: ls =>
    (readHeader header.1).bind fun at_ =>
      (readBody ls at_.1.2 at_.2.2).bind fun r =>
        (readHunks fuel r.2).map fun hs => ⟨at_.1.1, at_.2.1, r.1⟩ :: hs

/-- The hunks of a patch. -/
def read (patch : List Char) : Option (List (Hunk Line)) :=
  let ls := (attach ((lines patch).map Prod.fst)).1
  readHunks ls.length ls

/-- What a patch makes of a file. -/
def applyTo (patch old : List Char) : Option (List Char) :=
  (read patch).bind fun hunks => (Patch.apply (lines old) hunks).map text

/-! ## What is written is read back -/

/-- Says that no newline ends the line before. -/
def marker : List Char := "\\ No newline at end of file".toList

def headerText (old new : Nat × Nat) : List Char :=
  ['@', '@', ' ', '-'] ++ (Nat.toDigits 10 old.1 ++ ',' :: (Nat.toDigits 10 old.2 ++
    ([' ', '+'] ++ (Nat.toDigits 10 new.1 ++ ',' :: (Nat.toDigits 10 new.2 ++ [' ', '@', '@'])))))

def rowLines (row : Kind × Line) : List (List Char) :=
  (sign row.1 :: row.2.1) :: if row.2.2 then [] else [marker]

def hunkLines (h : Hunk Line) : List (List Char) :=
  headerText (h.oldStart, oldLen h.body) (h.newStart, newLen h.body) :: h.body.flatMap rowLines

theorem attach_line {l : List Char} {ls : List (List Char)} (hl : l.head? ≠ some '\\')
    (hls : (attach ls).2 = true) : attach (l :: ls) = ((l, true) :: (attach ls).1, true) := by
  rw [attach, if_neg hl, hls]

theorem attach_rowLines (row : Kind × Line) {ls : List (List Char)} (hls : (attach ls).2 = true) :
    attach (rowLines row ++ ls) = ((sign row.1 :: row.2.1, row.2.2) :: (attach ls).1, true) := by
  obtain ⟨kind, l, ended⟩ := row
  have hsign : (sign kind :: l).head? ≠ some '\\' := by
    cases kind <;> simp [sign]
  cases ended with
  | true => exact attach_line hsign hls
  | false =>
    have hmarker : attach (marker :: ls) = ((attach ls).1, false) := rfl
    rw [rowLines]
    dsimp only
    rw [if_neg Bool.false_ne_true, List.cons_append, List.singleton_append, attach, if_neg hsign, hmarker]

/-- A hunk's lines once the markers are read. -/
def hunkRows (h : Hunk Line) : List Line :=
  (headerText (h.oldStart, oldLen h.body) (h.newStart, newLen h.body), true) ::
    h.body.map fun row => (sign row.1 :: row.2.1, row.2.2)

theorem attach_body (body : List (Kind × Line)) {ls : List (List Char)} (hls : (attach ls).2 = true) :
    attach (body.flatMap rowLines ++ ls) =
      ((body.map fun row => (sign row.1 :: row.2.1, row.2.2)) ++ (attach ls).1, true) := by
  induction body with
  | nil => rw [List.flatMap_nil, List.nil_append, List.map_nil, List.nil_append, ← hls]
  | cons row body ih =>
    rw [List.flatMap_cons, List.append_assoc, attach_rowLines row (by rw [ih]), ih, List.map_cons,
      List.cons_append]

theorem attach_hunks (hs : List (Hunk Line)) :
    attach (hs.flatMap hunkLines) = (hs.flatMap hunkRows, true) := by
  induction hs with
  | nil => rfl
  | cons h hs ih =>
    have hbody := attach_body h.body (show (attach (hs.flatMap hunkLines)).2 = true by rw [ih])
    rw [List.flatMap_cons, hunkLines, List.cons_append, attach_line (by simp [headerText]) (by rw [hbody]),
      hbody, ih, List.flatMap_cons, hunkRows, List.cons_append]

@[simp] theorem expect_append (lead t : List Char) : expect lead (lead ++ t) = some t := by
  rw [expect, if_pos (List.isPrefixOf_iff_prefix.2 (List.prefix_append lead t)), List.drop_left]

theorem readNumber_toDigits (n : Nat) {c : Char} (t : List Char) (hc : c.isDigit = false) :
    readNumber (Nat.toDigits 10 n ++ c :: t) = some (n, c :: t) := by
  have hdigits : ∀ d ∈ Nat.toDigits 10 n, d.isDigit = true := fun d hd =>
    Nat.isDigit_of_mem_toDigits (by decide) (by decide) hd
  have htake : (Nat.toDigits 10 n ++ c :: t).takeWhile Char.isDigit = Nat.toDigits 10 n := by
    rw [List.takeWhile_append_of_pos hdigits, List.takeWhile_cons_of_neg (by simp [hc]), List.append_nil]
  have hdrop : (Nat.toDigits 10 n ++ c :: t).dropWhile Char.isDigit = c :: t := by
    rw [List.dropWhile_append_of_pos hdigits, List.dropWhile_cons_of_neg (by simp [hc])]
  rw [readNumber, htake, hdrop, if_neg Nat.toDigits_ne_nil, Nat.ofDigitChars_ten_toDigits]

theorem readSpan_toDigits (start len : Nat) {c : Char} (t : List Char) (hc : c.isDigit = false) :
    readSpan (Nat.toDigits 10 start ++ ',' :: (Nat.toDigits 10 len ++ c :: t)) = some (start, len, c :: t) := by
  rw [readSpan, readNumber_toDigits start _ (by decide), Option.bind_some]
  have hcomma : (start, ',' :: (Nat.toDigits 10 len ++ c :: t)).2.head? = some ',' := rfl
  rw [if_pos hcomma, List.tail_cons, readNumber_toDigits len t hc, Option.map_some]

theorem readHeader_headerText (old new : Nat × Nat) : readHeader (headerText old new) = some (old, new) := by
  have hblank : ' '.isDigit = false := by decide
  have hold := readSpan_toDigits old.1 old.2 ('+' :: (Nat.toDigits 10 new.1 ++
    ',' :: (Nat.toDigits 10 new.2 ++ [' ', '@', '@']))) hblank
  have hnew := readSpan_toDigits new.1 new.2 ['@', '@'] hblank
  have hplus : expect [' ', '+'] (' ' :: '+' :: (Nat.toDigits 10 new.1 ++
      ',' :: (Nat.toDigits 10 new.2 ++ [' ', '@', '@']))) =
      some (Nat.toDigits 10 new.1 ++ ',' :: (Nat.toDigits 10 new.2 ++ [' ', '@', '@'])) :=
    expect_append [' ', '+'] _
  rw [readHeader, headerText, expect_append, Option.bind_some, List.cons_append, List.singleton_append, hold,
    Option.bind_some, hplus, Option.bind_some, hnew, Option.bind_some]
  rfl

theorem readBody_map (body : List (Kind × Line)) (ls : List Line) :
    readBody ((body.map fun row => (sign row.1 :: row.2.1, row.2.2)) ++ ls) (oldLen body) (newLen body) =
      some (body, ls) := by
  induction body with
  | nil => cases ls <;> rfl
  | cons row body ih =>
    obtain ⟨kind, l⟩ := row
    rw [List.map_cons, List.cons_append]
    generalize (body.map fun row => (sign row.1 :: row.2.1, row.2.2)) ++ ls = rows at ih ⊢
    cases kind <;> simp [readBody, sign, kindOf, oldLen, newLen, ih]

theorem readHunks_rows (hs : List (Hunk Line)) {fuel : Nat} (hfuel : hs.length ≤ fuel) :
    readHunks fuel (hs.flatMap hunkRows) = some hs := by
  induction hs generalizing fuel with
  | nil => cases fuel <;> rfl
  | cons h hs ih =>
    cases fuel with
    | zero => cases hfuel
    | succ fuel =>
      rw [List.flatMap_cons, hunkRows, List.cons_append, readHunks, readHeader_headerText, Option.bind_some]
      dsimp only
      rw [readBody_map, Option.bind_some, ih (Nat.le_of_succ_le_succ hfuel), Option.map_some]

theorem newline_not_mem_toDigits (n : Nat) : '\n' ∉ Nat.toDigits 10 n := by
  intro h
  have hdigit : '\n'.isDigit = true := Nat.isDigit_of_mem_toDigits (by decide) (by decide) h
  cases hdigit

theorem newline_not_mem_hunkLines {h : Hunk Line} (hbody : ∀ row ∈ h.body, '\n' ∉ row.2.1) {l : List Char}
    (hl : l ∈ hunkLines h) : '\n' ∉ l := by
  rcases List.mem_cons.1 hl with rfl | hl
  · simp [headerText, newline_not_mem_toDigits]
  · obtain ⟨row, hrow, hl⟩ := List.mem_flatMap.1 hl
    rcases List.mem_cons.1 hl with rfl | hl
    · have hsign : '\n' ≠ sign row.1 := by cases row.1 <;> decide
      exact fun hmem => (List.mem_cons.1 hmem).elim hsign (hbody row hrow)
    · split_ifs at hl
      · cases hl
      · obtain rfl := List.mem_singleton.1 hl
        decide

/-- A patch written hunk by hunk is read as these hunks. -/
theorem read_hunkLines {hs : List (Hunk Line)} (h : ∀ k ∈ hs, ∀ row ∈ k.body, '\n' ∉ row.2.1) :
    read ((hs.flatMap hunkLines).flatMap fun l => l ++ ['\n']) = some hs := by
  have hline : ∀ l ∈ hs.flatMap hunkLines, '\n' ∉ l := by
    intro l hl
    obtain ⟨k, hk, hl⟩ := List.mem_flatMap.1 hl
    exact newline_not_mem_hunkLines (h k hk) hl
  have hlen : hs.length ≤ (hs.flatMap hunkRows).length := by
    clear h hline
    induction hs with
    | nil => exact le_rfl
    | cons h hs ih =>
      rw [List.flatMap_cons, List.length_append, hunkRows, List.length_cons, List.length_cons]
      omega
  rw [read, lines_flatMap hline, List.map_map]
  have hfst : ((hs.flatMap hunkLines).map (Prod.fst ∘ fun l => (l, true))) = hs.flatMap hunkLines :=
    List.map_id'' (fun _ => rfl) _
  rw [hfst, attach_hunks]
  exact readHunks_rows hs hlen

end UnifiedFormat
