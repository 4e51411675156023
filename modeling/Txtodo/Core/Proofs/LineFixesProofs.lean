import Txtodo.Core.LineFixes
import Txtodo.Core.Proofs.TagWordProofs
import Txtodo.Core.Proofs.WordFrontProofs
import Mathlib

/-!
# Fixing a line keeps what was written

A case fix changes one letter's case in front of the description and is not made twice. A date put into a
line is read back with everything else unless the date moves a word across the end of the prefix.
-/

namespace Txtodo.LineFixes

open Grammar

/-! ## Case slips -/

/-- A small letter's capital has the small letter again, and is none. -/
theorem toUpper_spec {c : Char} (h : c.isLower = true) :
    c.toUpper.toLower = c.toLower ∧ c.toUpper.isLower = false := by
  have hrange : 97 ≤ c.toNat ∧ c.toNat ≤ 122 := by
    simpa [Char.isLower, UInt32.le_iff_toNat_le] using h
  obtain ⟨n, rfl⟩ : ∃ n : Fin 26, c = Char.ofNat (97 + n) :=
    ⟨⟨c.toNat - 97, by omega⟩, by rw [Nat.add_sub_cancel' hrange.1, Char.ofNat_toNat]⟩
  have hall : ∀ n : Fin 26, (Char.ofNat (97 + n)).toUpper.toLower = (Char.ofNat (97 + n)).toLower ∧
      (Char.ofNat (97 + n)).toUpper.isLower = false := by decide
  exact hall n

section Slot
variable {out pre rest : Text} {p q : Char}

theorem pastDate_cases (out : Text) (n : Nat) : pastDate out n = n ∨ pastDate out n = n + 11 := by
  unfold pastDate
  split_ifs
  · exact .inr rfl
  · exact .inl rfl

/-- A date that lies in front is seen whatever follows. -/
theorem pastDate_append {n : Nat} (h : n + 11 ≤ pre.length) (s t : Text) :
    pastDate (pre ++ s) n = pastDate (pre ++ t) n := by
  have hdate : ∀ s : Text, ((pre ++ s).drop n).take 10 = (pre.drop n).take 10 := by
    intro s
    rw [List.drop_append_of_le_length (by omega), List.take_append_of_le_length]
    rw [List.length_drop]
    omega
  have hspace : ∀ s : Text, ((pre ++ s).drop (n + 10)).head? = (pre.drop (n + 10)).head? := by
    intro s
    rw [List.drop_append_of_le_length (by omega), List.head?_append_of_ne_nil]
    rw [ne_eq, List.drop_eq_nil_iff]
    omega
  rw [pastDate, pastDate, hdate, hdate, hspace, hspace]

/-- No date starts with a bracket. -/
theorem pastDate_bracket (pre s : Text) : pastDate (pre ++ '(' :: s) pre.length = pre.length := by
  have hdate : Date.parse (('(' :: s).take 10) = none := by
    rw [Option.eq_none_iff_forall_ne_some]
    intro d hd
    have hhead := congrArg List.head? (parse_some_iff.1 hd)
    rw [List.take_succ_cons, List.head?_cons, Date.display, List.head?_cons, Option.some_inj] at hhead
    have hdigit : (digit (d.year / 1000)).isDigit = true :=
      isDigit_iff.2 ⟨⟨_, Nat.mod_lt (d.year / 1000) (by omega)⟩, digit_congr (Nat.mod_mod _ 10).symm⟩
    rw [← hhead] at hdigit
    cases hdigit
  rw [pastDate, List.drop_left, hdate]
  rfl

/-- Where a priority may stand does not depend on what stands there behind its bracket. -/
theorem prioritySlot_bracket {s t : Text} (h : prioritySlot (pre ++ '(' :: s) = pre.length) :
    prioritySlot (pre ++ '(' :: t) = pre.length := by
  unfold prioritySlot at h ⊢
  by_cases hmark : "x ".toList <+: pre ++ '(' :: s
  · rw [if_pos hmark] at h
    have hfirst := pastDate_cases (pre ++ '(' :: s) 2
    have hsecond := pastDate_cases (pre ++ '(' :: s) (pastDate (pre ++ '(' :: s) 2)
    have hpre : "x ".toList <+: pre :=
      List.prefix_of_prefix_length_le hmark (List.prefix_append _ _) (by simp; omega)
    rw [if_pos (hpre.trans (List.prefix_append _ _))]
    rcases hfirst with hfirst | hfirst
    · -- No date follows the mark, so the slot does.
      rw [hfirst, hfirst] at h
      have hbracket := pastDate_bracket pre t
      rw [← h] at hbracket ⊢
      rw [hbracket, hbracket]
    · have hlong : 2 + 11 ≤ pre.length := by
        rw [hfirst] at h hsecond
        omega
      have hsame : pastDate (pre ++ '(' :: t) 2 = 2 + 11 := (pastDate_append hlong _ _).trans hfirst
      rw [hfirst] at h hsecond
      rw [hsame]
      rcases hsecond with hsecond | hsecond
      · have hbracket := pastDate_bracket pre t
        rw [hsecond] at h
        rw [← h] at hbracket ⊢
        exact hbracket
      · have hlong : 2 + 11 + 11 ≤ pre.length := by omega
        exact (pastDate_append hlong _ _).trans h
  · rw [if_neg hmark] at h
    obtain rfl : pre = [] := List.length_eq_zero_iff.1 h.symm
    rw [if_neg (by simp)]
    rfl

end Slot

section Case
variable {line out : Text}

/-- The line with its mark put right. -/
def marked (line : Text) : Text := if "X ".toList <+: line then replaceRange line 0 1 ['x'] else line

/-- A line whose priority is a small letter, and the line with its capital. -/
inductive Slipped : Text → Text → Prop where
  | letter {pre rest : Text} {p : Char} (hslot : prioritySlot (pre ++ '(' :: p :: rest) = pre.length)
      (hp : p.isLower = true) : Slipped (pre ++ '(' :: p :: rest) (pre ++ '(' :: p.toUpper :: rest)

/-- The line with its priority in a capital. -/
def capital (out : Text) : Text :=
  match out.drop (prioritySlot out) with
  | '(' :: p :: ')' :: ' ' :: _ =>
    if p.isLower then replaceRange out (prioritySlot out + 1) (prioritySlot out + 2) [p.toUpper] else out
  | _ => out

theorem fixCase_eq (line : Text) : fixCase line = capital (marked line) := rfl

/-- The fix of a priority leaves the line or makes its letter a capital. -/
theorem capital_cases (out : Text) : capital out = out ∨ Slipped out (capital out) := by
  unfold capital
  split
  · next p rest heq =>
    split_ifs with hp
    · have hlen : prioritySlot out ≤ out.length := by
        by_contra hlong
        rw [List.drop_of_length_le (by omega)] at heq
        cases heq
      obtain ⟨pre, hpre⟩ : ∃ pre, pre = out.take (prioritySlot out) := ⟨_, rfl⟩
      have hsplit : out = pre ++ '(' :: p :: ')' :: ' ' :: rest := by
        rw [hpre, ← heq, List.take_append_drop]
      have hslot : prioritySlot out = pre.length := by
        rw [hpre, List.length_take, Nat.min_eq_left hlen]
      have hreplaced : replaceRange out (prioritySlot out + 1) (prioritySlot out + 2) [p.toUpper] =
          pre ++ '(' :: p.toUpper :: ')' :: ' ' :: rest := by
        rw [hslot, hsplit, replaceRange, List.take_length_add_append, List.drop_length_add_append]
        simp
      rw [hreplaced]
      rw [hsplit] at hslot ⊢
      exact .inr (.letter hslot hp)
    · exact .inl rfl
  · exact .inl rfl

theorem marked_toLower (line : Text) : (marked line).map Char.toLower = line.map Char.toLower := by
  unfold marked
  split_ifs with h
  · obtain ⟨rest, rfl⟩ := h
    rfl
  · rfl

/-- A capital mark is put right once. -/
theorem marked_of_not_prefix (h : ¬"X ".toList <+: line) : marked line = line := if_neg h

theorem not_prefix_marked (line : Text) : ¬"X ".toList <+: marked line := by
  unfold marked
  split_ifs with h
  · obtain ⟨rest, rfl⟩ := h
    simp [replaceRange]
  · exact h

theorem Slipped.toLower (h : Slipped line out) : out.map Char.toLower = line.map Char.toLower := by
  cases h with
  | letter hslot hp => simp [(toUpper_spec hp).1]

theorem Slipped.not_prefix (h : Slipped line out) (hline : ¬"X ".toList <+: line) :
    ¬"X ".toList <+: out := by
  cases h with
  | @letter pre rest p hslot hp =>
    intro hout
    obtain hnil | hlong : pre = [] ∨ 2 ≤ pre.length := by
      unfold prioritySlot at hslot
      split_ifs at hslot
      · have hfirst := pastDate_cases (pre ++ '(' :: p :: rest) 2
        have hsecond := pastDate_cases (pre ++ '(' :: p :: rest) (pastDate (pre ++ '(' :: p :: rest) 2)
        exact .inr (by omega)
      · exact .inl (List.length_eq_zero_iff.1 hslot.symm)
    · rw [hnil] at hout
      simp at hout
    · have hpre := List.prefix_of_prefix_length_le hout (List.prefix_append _ _) hlong
      exact hline (hpre.trans (List.prefix_append _ _))

/-- A capital is no slip. -/
theorem Slipped.not_again (h : Slipped line out) (again : Text) : ¬Slipped out again := by
  cases h with
  | @letter pre rest p hslot hp =>
    have hsame : prioritySlot (pre ++ '(' :: p.toUpper :: rest) = pre.length := prioritySlot_bracket hslot
    generalize hout : pre ++ '(' :: p.toUpper :: rest = out at hsame
    intro hagain
    cases hagain with
    | letter hslot' hp' =>
      have hletter := (List.append_inj hout (hsame.symm.trans hslot')).2
      rw [List.cons.injEq, List.cons.injEq] at hletter
      rw [← hletter.2.1, (toUpper_spec hp).2] at hp'
      cases hp'

theorem capital_capital (out : Text) : capital (capital out) = capital out := by
  rcases capital_cases out with hsame | hslip
  · rw [hsame, hsame]
  · exact (capital_cases (capital out)).resolve_right (hslip.not_again _)

/-- Fixing the case changes the case of ASCII letters alone, and nothing the second time. -/
theorem fixCase_spec (line : Text) :
    eqIgnoreAsciiCase (fixCase line) line = true ∧ fixCase (fixCase line) = fixCase line := by
  have hplain : ¬"X ".toList <+: capital (marked line) := by
    rcases capital_cases (marked line) with hsame | hslip
    · rw [hsame]
      exact not_prefix_marked line
    · exact hslip.not_prefix (not_prefix_marked line)
  have hlower : (capital (marked line)).map Char.toLower = line.map Char.toLower := by
    rcases capital_cases (marked line) with hsame | hslip
    · rw [hsame, marked_toLower]
    · rw [hslip.toLower, marked_toLower]
  refine ⟨decide_eq_true hlower, ?_⟩
  rw [fixCase_eq line, fixCase_eq, marked_of_not_prefix hplain, capital_capital]

end Case

/-! ## Reading by words -/

/-- The words of a description. -/
def texts (t : Task) : List Text := t.words.map (·.2)

theorem texts_eq (t : Task) : texts t = splitWords t.description := by
  rw [texts, Task.words, List.map_map, ← words_chunksFrom 0]
  rfl

section Read
variable {raw : Text} {pre : Prefix} {place : Place} {w : Text} {ws : List Text}

theorem taskOf_draftOf (h : raw ≠ []) : ∃ t, taskOf raw = some t ∧ draftOf raw = ⟨Prefix.of t, t.description⟩ := by
  obtain ⟨t, -, ht, -⟩ := taskOf_spec h
  refine ⟨t, ht, ?_⟩
  rw [draftOf, ht]

/-- What a line that starts with a word is read as. -/
theorem taskOf_words (hhead : raw.head?.any isWs = false) (hne : raw ≠ [])
    (hread : readWords .start Prefix.empty (splitWords raw) = (pre, ws)) :
    ∃ t, taskOf raw = some t ∧ Prefix.of t = pre ∧ texts t = ws := by
  obtain ⟨t, ht, hdraft⟩ := taskOf_draftOf hne
  rw [readWords_splitWords hhead, hdraft, Prod.mk.injEq] at hread
  exact ⟨t, ht, hread.1, by rw [texts_eq, hread.2]⟩

theorem isPriorityWord_eq (w : Text) : isPriorityWord w = (priorityOf w).isSome := by
  rw [Bool.eq_iff_iff, isPriorityWord_iff, Option.isSome_iff_exists]
  exact exists_congr fun p => priorityOf_some_iff.symm

/-- A word is a priority, a date or neither. -/
theorem word_cases (w : Text) : (∃ p, w = letterWord p) ∨ (∃ d : Date, w = d.display) ∨
    priorityOf w = none ∧ Date.parse w = none := by
  cases hpriority : priorityOf w with
  | some p => exact .inl ⟨p, priorityOf_some_iff.1 hpriority⟩
  | none =>
    cases hdate : Date.parse w with
    | some d => exact .inr (.inl ⟨d, parse_some_iff.1 hdate⟩)
    | none => exact .inr (.inr ⟨rfl, rfl⟩)

theorem readWords_stop (h : place.take pre (ws.headD []) = none) : readWords place pre ws = (pre, ws) :=
  (WordPath.stop h).readWords_eq

theorem readWords_take {place' : Place} {pre' : Prefix} (h : place.take pre w = some (place', pre')) :
    readWords place pre (w :: ws) = readWords place' pre' ws := by
  rw [readWords, h]

theorem readWords_length (place : Place) (pre : Prefix) (ws : List Text) :
    (readWords place pre ws).2.length ≤ ws.length := by
  induction ws generalizing place pre with
  | nil => exact le_rfl
  | cons w ws ih =>
    rw [readWords]
    split
    · exact (ih _ _).trans (Nat.le_succ _)
    · exact le_rfl

/-- The places behind a completion or a creation date. -/
def dated : Place → Bool
  | .completion _ | .creation _ | .ended => true
  | _ => false

/-- Behind a date the mark and the completion date are kept. -/
theorem take_dated {place' : Place} {pre' : Prefix} (h : place.take pre w = some (place', pre'))
    (hplace : dated place = true) :
    dated place' = true ∧ pre'.completed = pre.completed ∧ pre'.completionDate = pre.completionDate := by
  cases place with
  | start => cases hplace
  | openPriority => cases hplace
  | mark => cases hplace
  | markPriority => cases hplace
  | completion seen =>
    rcases Option.or_eq_some_iff.1 h with h | ⟨-, h⟩
    · obtain ⟨d, -, heq⟩ := Option.map_eq_some_iff.1 h
      cases heq
      exact ⟨rfl, rfl, rfl⟩
    · cases seen with
      | true => cases h
      | false =>
        obtain ⟨p, -, heq⟩ := Option.map_eq_some_iff.1 h
        cases heq
        exact ⟨rfl, rfl, rfl⟩
  | creation seen =>
    cases seen with
    | true => cases h
    | false =>
      obtain ⟨p, -, heq⟩ := Option.map_eq_some_iff.1 h
      cases heq
      exact ⟨rfl, rfl, rfl⟩
  | ended => cases h

theorem readWords_dated (place : Place) (hplace : dated place = true) (pre : Prefix) (ws : List Text) :
    (readWords place pre ws).1.completed = pre.completed ∧
      (readWords place pre ws).1.completionDate = pre.completionDate := by
  induction ws generalizing place pre with
  | nil => exact ⟨rfl, rfl⟩
  | cons w ws ih =>
    rw [readWords]
    split
    · next place' pre' htake =>
      obtain ⟨hplace', hdone, hdate⟩ := take_dated htake hplace
      obtain ⟨ihdone, ihdate⟩ := ih place' hplace' pre'
      exact ⟨ihdone.trans hdone, ihdate.trans hdate⟩
    · exact ⟨rfl, rfl⟩

end Read

/-! ## Lines typed done -/

/-- The words kept from `t` to `t'`: all of them, and the priority as it is or as its tag. -/
def KeepsWords (t t' : Task) : Prop :=
  t'.priority = t.priority ∧ texts t' = texts t ∨
    ∃ p, t.priority = some p ∧ t'.priority = none ∧
      texts t' = setFirst (hasKey "pri".toList) (priWord p) (texts t)

/-- A line typed done is dated: read as done on a date, not dated again, its words kept. -/
structure DatedDone (line : Text) (today : Date) : Prop where
  done : isCompleted (dateDone line today) = true
  date : (taskOf (dateDone line today)).any (·.completionDate.isSome) = true
  again : dateDone (dateDone line today) today = dateDone line today
  words : ∀ t t', taskOf line = some t → taskOf (dateDone line today) = some t' → KeepsWords t t'

/-- What stands behind `x ` on the line read as `t` does not start with another mark, nor with two
priorities. -/
def OneFront (rest : Text) (t : Task) : Prop :=
  firstWord rest ≠ ['x'] ∧
    (isPriorityWord (firstWord rest) = true → isPriorityWord (firstWord t.description) = false)

/-- The prefix that is the mark alone. -/
def markOnly : Prefix := ⟨true, none, none, none⟩

section Done
variable {rest : Text} {t t' : Task} {ws : List Text} {today : Date}

theorem dateDone_of_date {line : Text} (h : (taskOf line).any (·.completionDate.isSome) = true) (today : Date) :
    dateDone line today = line := by
  unfold dateDone
  split
  · rfl
  · exact if_pos h

theorem datedDone_of (h : taskOf (dateDone ('x' :: ' ' :: rest) today) = some t')
    (hline : taskOf ('x' :: ' ' :: rest) = some t) (hdone : t'.completed = true)
    (hdate : t'.completionDate.isSome = true) (hwords : KeepsWords t t') :
    DatedDone ('x' :: ' ' :: rest) today := by
  have hany : (taskOf (dateDone ('x' :: ' ' :: rest) today)).any (·.completionDate.isSome) = true := by
    rw [h]
    exact hdate
  refine ⟨?_, hany, dateDone_of_date hany today, ?_⟩
  · rw [isCompleted, h]
    exact hdone
  · intro u u' hu hu'
    rw [hline] at hu
    rw [h] at hu'
    cases hu
    cases hu'
    exact hwords

/-- What may follow the mark: no prefix, a priority alone, or a date. -/
theorem readWords_mark (ws : List Text) :
    (Place.mark.take markOnly (ws.headD []) = none ∧ readWords .mark markOnly ws = (markOnly, ws)) ∨
      (∃ p vs, ws = letterWord p :: vs ∧ Date.parse (vs.headD []) = none ∧
        readWords .mark markOnly ws = ({ markOnly with priority := some p }, vs)) ∨
      (readWords .mark markOnly ws).1.completed = true ∧
        (readWords .mark markOnly ws).1.completionDate.isSome = true := by
  cases ws with
  | nil => exact .inl ⟨rfl, rfl⟩
  | cons w vs =>
    rcases word_cases w with ⟨p, rfl⟩ | ⟨d, rfl⟩ | ⟨hpriority, hdate⟩
    · rw [readWords_take (take_mark_letter _ p)]
      cases hdate : Date.parse (vs.headD []) with
      | none =>
        have hstop : Place.markPriority.take { markOnly with priority := some p } (vs.headD []) = none := by
          rw [Place.take, hdate]
          rfl
        exact .inr (.inl ⟨p, vs, rfl, hdate, readWords_stop hstop⟩)
      | some d =>
        cases vs with
        | nil => cases hdate
        | cons v vs =>
          obtain rfl := parse_some_iff.1 hdate
          rw [readWords_take (take_markPriority_date _ d)]
          obtain ⟨hdone, hcompletion⟩ := readWords_dated (.completion true) rfl
            { { markOnly with priority := some p } with completionDate := some d } vs
          exact .inr (.inr ⟨hdone, by rw [hcompletion]; rfl⟩)
    · rw [readWords_take (take_mark_date _ d)]
      obtain ⟨hdone, hcompletion⟩ := readWords_dated (.completion false) rfl
        { markOnly with completionDate := some d } vs
      exact .inr (.inr ⟨hdone, by rw [hcompletion]; rfl⟩)
    · have hstop : Place.mark.take markOnly ((w :: vs).headD []) = none := by
        rw [List.headD_cons, Place.take, hpriority, hdate]
        rfl
      exact .inl ⟨hstop, readWords_stop hstop⟩

/-- How a line typed done is read. -/
theorem taskOf_done (rest : Text) : ∃ t, taskOf ('x' :: ' ' :: rest) = some t ∧
    Prefix.of t = (readWords .mark markOnly (splitWords rest)).1 ∧
    texts t = (readWords .mark markOnly (splitWords rest)).2 := by
  refine taskOf_words rfl (by simp) ?_
  have hwords : splitWords ('x' :: ' ' :: rest) = ['x'] :: splitWords rest :=
    splitWords_append_cons ['x'] rest rfl
  have hmark : Place.start.take Prefix.empty ['x'] = some (.mark, markOnly) := rfl
  rw [hwords, readWords_take hmark]

/-- The prefix of a line done today. -/
def doneToday (today : Date) : Prefix := ⟨true, some today, none, none⟩

/-- How a line dated today is read, `vs` being the words put behind the date. -/
theorem taskOf_today (today : Date) (description : Text) : ∃ t,
    taskOf (emitPrefix (doneToday today) (!description.isEmpty) ++ description) = some t ∧
      Prefix.of t = (readWords (.completion false) (doneToday today) (splitWords description)).1 ∧
      texts t = (readWords (.completion false) (doneToday today) (splitWords description)).2 := by
  have hemit : emitPrefix (doneToday today) false = 'x' :: ' ' :: today.display := by
    rw [emitPrefix_false]
    simp [Prefix.words, doneToday, joined_cons]
  have hmark : Place.start.take Prefix.empty ['x'] = some (.mark, markOnly) := rfl
  have hfront : splitWords ('x' :: ' ' :: today.display) = [['x'], today.display] := by
    rw [show 'x' :: ' ' :: today.display = ['x'] ++ ' ' :: today.display from rfl,
      splitWords_append_cons _ _ rfl, splitWords_run (Chips.display_isRun today)]
    rfl
  have hwords : splitWords (emitPrefix (doneToday today) (!description.isEmpty) ++ description) =
      ['x'] :: today.display :: splitWords description := by
    rw [emitPrefix_eq, hemit]
    cases description with
    | nil => simpa [splitWords_nil] using hfront
    | cons c description =>
      rw [if_pos (by rfl), List.append_assoc, List.singleton_append, splitWords_append_cons _ _ rfl, hfront]
      rfl
  refine taskOf_words ?_ ?_ ?_
  · rw [emitPrefix_eq, hemit]
    split_ifs <;> rfl
  · rw [emitPrefix_eq, hemit]
    split_ifs <;> simp
  · rw [hwords, readWords_take hmark, readWords_take (take_mark_date _ today)]
    rfl

/-- A line whose rest is open and undated is dated today. -/
theorem dateDone_open (hdate : (taskOf ('x' :: ' ' :: rest)).any (·.completionDate.isSome) = false)
    (hopen : (draftOf rest).pre.completed = false) (hcreation : (draftOf rest).pre.creationDate = none)
    (today : Date) : dateDone ('x' :: ' ' :: rest) today =
      emitPrefix (doneToday today) (!((draftOf rest).complete today).description.isEmpty) ++
        ((draftOf rest).complete today).description := by
  have hpre : ((draftOf rest).complete today).pre = doneToday today := by
    rw [Draft.complete, hopen, if_neg Bool.false_ne_true, hcreation]
    split
    · exact Draft.setTag_pre _ _ _
    · rfl
  have hdirty : ((draftOf rest).applyOp (.complete today)).pre ≠ (draftOf rest).pre := by
    rw [Draft.applyOp, hpre]
    intro heq
    rw [← heq] at hopen
    cases hopen
  have happly : apply (OwnedLine.ofText rest .lf) ⟨[.complete today]⟩ = _ :=
    apply_rewritten (OwnedLine.ofText_raw _ _) hdirty fun _ => by rw [Draft.applyOp, hpre]; rfl
  have hstrip : stripPrefix "x ".toList ('x' :: ' ' :: rest) = some rest := if_pos ⟨rest, rfl⟩
  rw [dateDone, hstrip]
  dsimp only
  rw [hdate, if_neg Bool.false_ne_true]
  rw [show Edit.new.complete today = ⟨[.complete today]⟩ from rfl, happly, OwnedLine.ofText_raw]
  rw [Draft.applyOp, hpre]
  rfl

theorem priWord_ne_display (p : Priority) (d : Date) : priWord p ≠ d.display := by
  intro h
  have hlen := congrArg List.length h
  simp [priWord, Date.display] at hlen

/-- The words of a completed description. -/
theorem words_complete {d : Draft} (hopen : d.pre.completed = false) (today : Date) :
    splitWords (d.complete today).description = match d.pre.priority with
      | some p => setFirst (hasKey "pri".toList) (priWord p) (splitWords d.description)
      | none => splitWords d.description := by
  rw [Draft.complete, hopen, if_neg Bool.false_ne_true]
  cases d.pre.priority with
  | none => rfl
  | some p => exact words_setTag _ (priWord_isRun p)

/-- A word that is no prefix behind the mark is none behind the completion date. -/
theorem take_completion_of_mark {pre pre' : Prefix} {w : Text} (h : Place.mark.take pre w = none) :
    (Place.completion false).take pre' w = none := by
  rw [Place.take, Option.or_eq_none_iff, Option.map_eq_none_iff, Option.map_eq_none_iff] at h
  rw [Place.take, h.1, h.2]
  rfl

/-- How the line is read once its rest, open and undated, was completed. -/
theorem taskOf_dateDone (hdate : (taskOf ('x' :: ' ' :: rest)).any (·.completionDate.isSome) = false)
    (hopen : (draftOf rest).pre.completed = false) (hcreation : (draftOf rest).pre.creationDate = none)
    (today : Date) : ∃ t, taskOf (dateDone ('x' :: ' ' :: rest) today) = some t ∧
      Prefix.of t = (readWords (.completion false) (doneToday today)
        (splitWords ((draftOf rest).complete today).description)).1 ∧
      texts t = (readWords (.completion false) (doneToday today)
        (splitWords ((draftOf rest).complete today).description)).2 := by
  rw [dateDone_open hdate hopen hcreation]
  exact taskOf_today today _

theorem firstWord_of_head (h : rest.head?.any isWs = true) : firstWord rest = [] := by
  cases rest with
  | nil => rfl
  | cons c rest => exact List.takeWhile_cons_of_neg (by simpa using h)

/-- With nothing to take for a prefix in front, the description stays as it is. -/
theorem datedDone_plain (ht : taskOf ('x' :: ' ' :: rest) = some t) (hpre : Prefix.of t = markOnly)
    (htexts : texts t = splitWords rest)
    (hstop : Place.mark.take markOnly ((splitWords rest).headD []) = none)
    (hrest : (draftOf rest).pre = Prefix.empty)
    (hwords : splitWords (draftOf rest).description = splitWords rest) (today : Date) :
    DatedDone ('x' :: ' ' :: rest) today := by
  have hdate : (taskOf ('x' :: ' ' :: rest)).any (·.completionDate.isSome) = false := by
    rw [ht, Option.any_some, show t.completionDate = none from congrArg Prefix.completionDate hpre]
    rfl
  have hopen : (draftOf rest).pre.completed = false := by rw [hrest]; rfl
  obtain ⟨t', ht', hpre', htexts'⟩ := taskOf_dateDone hdate hopen (by rw [hrest]; rfl) today
  have hsame : splitWords ((draftOf rest).complete today).description = splitWords rest := by
    rw [words_complete hopen, hrest]
    exact hwords
  rw [hsame, readWords_stop (take_completion_of_mark hstop)] at hpre' htexts'
  refine datedDone_of ht' ht (congrArg Prefix.completed hpre') ?_ (.inl ⟨?_, ?_⟩)
  · rw [show t'.completionDate = some today from congrArg Prefix.completionDate hpre']
    rfl
  · exact (congrArg Prefix.priority hpre').trans (congrArg Prefix.priority hpre).symm
  · rw [htexts', htexts]

theorem readWords_mark_completed (ws : List Text) : (readWords .mark markOnly ws).1.completed = true := by
  rcases readWords_mark ws with ⟨-, hread⟩ | ⟨p, vs, -, -, hread⟩ | ⟨hdone, -⟩
  · rw [hread]
    rfl
  · rw [hread]
    rfl
  · exact hdone

theorem splitWords_of_firstWord {w : Text} (hw : w ≠ []) (h : firstWord rest = w) :
    rest.head?.any isWs = false ∧ ∃ vs, splitWords rest = w :: vs := by
  have hhead : rest.head?.any isWs = false := by
    by_contra htrue
    rw [Bool.not_eq_false] at htrue
    exact hw (h.symm.trans (firstWord_of_head htrue))
  have hfirst := headD_splitWords hhead
  refine ⟨hhead, ?_⟩
  cases hws : splitWords rest with
  | nil =>
    rw [hws, h] at hfirst
    exact absurd hfirst.symm hw
  | cons v vs =>
    rw [hws, h, List.headD_cons] at hfirst
    exact ⟨vs, by rw [hfirst]⟩

/-- A second mark is taken for the line's own, and lost. -/
theorem not_datedDone_marked (ht : taskOf ('x' :: ' ' :: rest) = some t) (hpre : Prefix.of t = markOnly)
    (htexts : texts t = splitWords rest) (hmark : firstWord rest = ['x']) (today : Date) :
    ¬DatedDone ('x' :: ' ' :: rest) today := by
  obtain ⟨hhead, vs, hws⟩ := splitWords_of_firstWord (by simp) hmark
  have htake : Place.start.take Prefix.empty ['x'] = some (.mark, markOnly) := rfl
  have hread := readWords_splitWords hhead
  rw [hws, readWords_take htake] at hread
  have hcompleted := readWords_mark_completed vs
  rw [hread] at hcompleted
  have hnone : t.completionDate = none := congrArg Prefix.completionDate hpre
  have hsame : dateDone ('x' :: ' ' :: rest) today = rest := by
    have hstrip : stripPrefix "x ".toList ('x' :: ' ' :: rest) = some rest := if_pos ⟨rest, rfl⟩
    have happly : apply (OwnedLine.ofText rest .lf) ⟨[.complete today]⟩ = OwnedLine.ofText rest .lf :=
      apply_of_same (OwnedLine.ofText_raw _ _) (if_pos hcompleted)
    rw [dateDone, hstrip]
    dsimp only
    rw [ht, Option.any_some, hnone]
    rw [show Edit.new.complete today = ⟨[.complete today]⟩ from rfl, happly, OwnedLine.ofText_raw]
    rfl
  have hne : rest ≠ [] := by
    rintro rfl
    cases hmark
  obtain ⟨t', ht', hdraft⟩ := taskOf_draftOf hne
  intro h
  have hshort : (texts t').length ≤ vs.length := by
    have hlength := readWords_length .mark markOnly vs
    rw [hread, hdraft] at hlength
    rwa [texts_eq]
  rcases h.words t t' ht (by rw [hsame, ht']) with ⟨-, hkept⟩ | ⟨p, hp, -⟩
  · rw [hkept, htexts, hws, List.length_cons] at hshort
    omega
  · rw [show t.priority = none from congrArg Prefix.priority hpre] at hp
    cases hp

/-- Behind two spaces a priority stays one. -/
theorem datedDone_indented {p : Priority} (ht : taskOf ('x' :: ' ' :: rest) = some t)
    (hpre : Prefix.of t = { markOnly with priority := some p }) (htexts : texts t = ws)
    (hws : splitWords rest = letterWord p :: ws) (hhead : rest.head?.any isWs = true) (today : Date) :
    DatedDone ('x' :: ' ' :: rest) today := by
  have hdate : (taskOf ('x' :: ' ' :: rest)).any (·.completionDate.isSome) = false := by
    rw [ht, Option.any_some, show t.completionDate = none from congrArg Prefix.completionDate hpre]
    rfl
  have hdraft := draftOf_indented hhead
  have hopen : (draftOf rest).pre.completed = false := by rw [hdraft]; rfl
  obtain ⟨t', ht', hpre', htexts'⟩ := taskOf_dateDone hdate hopen (by rw [hdraft]; rfl) today
  have hread : readWords (.completion false) (doneToday today)
      (splitWords ((draftOf rest).complete today).description) =
        ({ doneToday today with priority := some p }, ws) := by
    rw [words_complete hopen, hdraft]
    dsimp only [Prefix.empty]
    rw [hws, readWords_take (take_completion_letter _ p)]
    exact readWords_stop rfl
  rw [hread] at hpre' htexts'
  refine datedDone_of ht' ht (congrArg Prefix.completed hpre') ?_ (.inl ⟨?_, ?_⟩)
  · rw [show t'.completionDate = some today from congrArg Prefix.completionDate hpre']
    rfl
  · exact (congrArg Prefix.priority hpre').trans (congrArg Prefix.priority hpre).symm
  · rw [htexts', htexts]

theorem not_priority_of_hasKey {w : Text} (h : hasKey "pri".toList w = true) : isPriorityWord w = false := by
  obtain ⟨v, -, rfl⟩ := eq_of_hasKey h
  rfl

/-- Behind one space a priority becomes the tag, and the word behind it may be taken for one. -/
theorem datedDone_letter_iff {p : Priority} (ht : taskOf ('x' :: ' ' :: rest) = some t)
    (hpre : Prefix.of t = { markOnly with priority := some p }) (htexts : texts t = ws)
    (hws : splitWords rest = letterWord p :: ws) (hdate : Date.parse (ws.headD []) = none)
    (hhead : rest.head?.any isWs = false) (today : Date) :
    DatedDone ('x' :: ' ' :: rest) today ↔ isPriorityWord (ws.headD []) = false := by
  have hundated : (taskOf ('x' :: ' ' :: rest)).any (·.completionDate.isSome) = false := by
    rw [ht, Option.any_some, show t.completionDate = none from congrArg Prefix.completionDate hpre]
    rfl
  have hpriority : t.priority = some p := congrArg Prefix.priority hpre
  have hstop : Place.openPriority.take { Prefix.empty with priority := some p } (ws.headD []) = none := by
    rw [Place.take, hdate]
    rfl
  have hread := readWords_splitWords hhead
  rw [hws, readWords_take (take_start_letter _ p), readWords_stop hstop, Prod.mk.injEq] at hread
  have hopen : (draftOf rest).pre.completed = false := by rw [← hread.1]; rfl
  obtain ⟨t', ht', hpre', htexts'⟩ := taskOf_dateDone hundated hopen (by rw [← hread.1]; rfl) today
  rw [words_complete hopen, ← hread.1, ← hread.2] at hpre' htexts'
  dsimp only [Prefix.empty] at hpre' htexts'
  -- The tag is kept when no word in front of it is taken.
  have hkept : (Place.completion false).take (doneToday today)
      ((setFirst (hasKey "pri".toList) (priWord p) ws).headD []) = none → DatedDone ('x' :: ' ' :: rest) today := by
    intro hstop
    rw [readWords_stop hstop] at hpre' htexts'
    refine datedDone_of ht' ht (congrArg Prefix.completed hpre') ?_ (.inr ⟨p, hpriority, ?_, ?_⟩)
    · rw [show t'.completionDate = some today from congrArg Prefix.completionDate hpre']
      rfl
    · exact congrArg Prefix.priority hpre'
    · rw [htexts', htexts]
  have htag : (Place.completion false).take (doneToday today) (priWord p) = none := by
    have hnone : Date.parse (priWord p) = none :=
      Option.eq_none_iff_forall_ne_some.2 fun d hd => priWord_ne_display p d (parse_some_iff.1 hd)
    rw [Place.take, hnone]
    rfl
  cases ws with
  | nil => exact iff_of_true (hkept htag) rfl
  | cons w vs =>
    rw [List.headD_cons] at hdate ⊢
    cases hkey : hasKey "pri".toList w with
    | true =>
      refine iff_of_true (hkept ?_) (not_priority_of_hasKey hkey)
      rw [setFirst, if_pos hkey]
      exact htag
    | false =>
      have hset : setFirst (hasKey "pri".toList) (priWord p) (w :: vs) =
          w :: setFirst (hasKey "pri".toList) (priWord p) vs := by
        rw [setFirst, hkey, if_neg Bool.false_ne_true]
      rw [hset] at hpre' htexts' hkept
      cases hword : priorityOf w with
      | none =>
        refine iff_of_true (hkept ?_) (by rw [isPriorityWord_eq, hword]; rfl)
        rw [List.headD_cons, Place.take, hdate, hword]
        rfl
      | some q =>
        obtain rfl := priorityOf_some_iff.1 hword
        refine iff_of_false (fun h => ?_) (by rw [isPriorityWord_eq, hword]; simp)
        rw [readWords_take (take_completion_letter _ q), readWords_stop rfl] at hpre' htexts'
        rcases h.words t t' ht ht' with ⟨-, hsame⟩ | ⟨-, -, hnone, -⟩
        · rw [htexts', htexts] at hsame
          exact setFirst_ne_cons (hasKey_priWord p) hkey hsame
        · rw [show t'.priority = some q from congrArg Prefix.priority hpre'] at hnone
          cases hnone

/-- A line typed done is dated as it should be exactly when it has its date, or what stands behind `x `
starts neither with another mark nor with two priorities. -/
theorem datedDone_iff (ht : taskOf ('x' :: ' ' :: rest) = some t) (today : Date) :
    DatedDone ('x' :: ' ' :: rest) today ↔ (t.completionDate = none → OneFront rest t) := by
  obtain ⟨u, hu, hpre, htexts⟩ := taskOf_done rest
  obtain rfl : u = t := Option.some.inj (hu.symm.trans ht)
  rcases readWords_mark (splitWords rest) with ⟨hstop, hread⟩ | ⟨p, vs, hws, hdate, hread⟩ | ⟨hdone, hdate⟩
  · rw [hread] at hpre htexts
    have hnone : u.completionDate = none := congrArg Prefix.completionDate hpre
    cases hhead : rest.head?.any isWs with
    | true =>
      have hdraft := draftOf_indented hhead
      refine iff_of_true (datedDone_plain ht hpre htexts hstop ?_ ?_ today) fun _ => ?_
      · rw [hdraft]
      · rw [hdraft]
      · rw [OneFront, firstWord_of_head hhead]
        exact ⟨by simp, fun h => by cases h⟩
    | false =>
      by_cases hmark : firstWord rest = ['x']
      · exact iff_of_false (not_datedDone_marked ht hpre htexts hmark today) fun h => (h hnone).1 hmark
      · rw [headD_splitWords hhead] at hstop
        obtain ⟨hpriority, hdate⟩ := Option.or_eq_none_iff.1 hstop
        rw [Option.map_eq_none_iff] at hpriority hdate
        have hstart : Place.start.take Prefix.empty ((splitWords rest).headD []) = none := by
          rw [headD_splitWords hhead, Place.take, if_neg hmark, hpriority, hdate]
          rfl
        have hwords := readWords_splitWords hhead
        rw [readWords_stop hstart, Prod.mk.injEq] at hwords
        rw [← headD_splitWords hhead] at hstop
        refine iff_of_true (datedDone_plain ht hpre htexts hstop hwords.1.symm hwords.2.symm today) fun _ => ?_
        refine ⟨hmark, fun h => ?_⟩
        rw [isPriorityWord_eq, hpriority] at h
        cases h
  · rw [hread] at hpre htexts
    have hnone : u.completionDate = none := congrArg Prefix.completionDate hpre
    have hfirst : firstWord u.description = vs.headD [] := by
      obtain ⟨v, hv, hdraft⟩ := taskOf_draftOf (List.cons_ne_nil 'x' (' ' :: rest))
      obtain rfl : v = u := Option.some.inj (hv.symm.trans hu)
      have hline : ('x' :: ' ' :: rest).head?.any isWs = false := rfl
      have hhead := description_head hline
      rw [hdraft] at hhead
      rw [← headD_splitWords hhead, ← texts_eq, htexts]
    cases hhead : rest.head?.any isWs with
    | true =>
      refine iff_of_true (datedDone_indented ht hpre htexts hws hhead today) fun _ => ?_
      rw [OneFront, firstWord_of_head hhead]
      exact ⟨by simp, fun h => by cases h⟩
    | false =>
      have hletter : firstWord rest = letterWord p := by
        rw [← headD_splitWords hhead, hws, List.headD_cons]
      have hpriority : isPriorityWord (letterWord p) = true := by
        rw [isPriorityWord_eq, priorityOf_letterWord]
        rfl
      rw [datedDone_letter_iff ht hpre htexts hws hdate hhead today, OneFront, hletter, hfirst]
      constructor
      · exact fun h _ => ⟨by simp [letterWord], fun _ => h⟩
      · exact fun h => (h hnone).2 hpriority
  · rw [← hpre] at hdone hdate
    have hany : (taskOf ('x' :: ' ' :: rest)).any (·.completionDate.isSome) = true := by
      rw [ht]
      exact hdate
    refine iff_of_true ?_ fun hnone => ?_
    · refine datedDone_of ?_ ht hdone hdate (.inl ⟨rfl, rfl⟩)
      rw [dateDone_of_date hany, ht]
    · rw [show (Prefix.of u).completionDate = u.completionDate from rfl, hnone] at hdate
      cases hdate

end Done

/-! ## New lines -/

section Stamp
variable {line : Text} {t : Task} {today : Date}

/-- A line is read as the task its draft holds. -/
theorem taskOf_iff (h : line ≠ []) : taskOf line = some t ↔ draftOf line = ⟨Prefix.of t, t.description⟩ := by
  obtain ⟨u, hu, hdraft⟩ := taskOf_draftOf h
  rw [hu, hdraft, Option.some_inj]
  constructor
  · rintro rfl
    rfl
  · intro heq
    obtain ⟨completed, completion, creation, priority, description⟩ := u
    obtain ⟨completed', completion', creation', priority', description'⟩ := t
    cases heq
    rfl

theorem apart_separated {w sep body : Text} (hsep : ∀ c ∈ sep, isWs c = true) (hne : sep ≠ [])
    (hbody : body.head?.any isWs = false) : Apart (w ++ (sep ++ [])) body := by
  refine .inr (.inr ⟨?_, hbody⟩)
  rw [List.append_nil, List.getLast?_append_of_ne_nil _ hne, List.getLast?_eq_getLast_of_ne_nil hne,
    Option.any_some]
  exact hsep _ (List.getLast_mem hne)

theorem dropWhile_head (r : Text) : (r.dropWhile isWs).head?.any isWs = false := by
  have hhead := List.head?_dropWhile_not isWs r
  cases hrest : (r.dropWhile isWs).head? with
  | none => rfl
  | some c =>
    rw [hrest] at hhead
    simpa using hhead

theorem letterWord_isRun (p : Priority) : IsRun (letterWord p) := by
  have hp : IsPriority (letterWord p) p := rfl
  exact hp.word.isRun

/-- The separators behind a word and a space, and what follows them. -/
theorem spaced_eq (r : Text) : ' ' :: r = (' ' :: r.takeWhile isWs) ++ r.dropWhile isWs := by
  rw [List.cons_append, List.takeWhile_append_dropWhile]

theorem takeWhile_separators (r : Text) : ∀ c ∈ ' ' :: r.takeWhile isWs, isWs c = true :=
  List.forall_mem_cons.2 ⟨rfl, fun _ hc => List.mem_takeWhile_imp hc⟩

/-- A date behind a priority is read as the creation date. -/
theorem draftOf_letter_date (p : Priority) (d : Date) (r : Text) :
    draftOf (letterWord p ++ ' ' :: (d.display ++ ' ' :: r)) =
      ⟨⟨false, none, some d, some p⟩, r.dropWhile isWs⟩ := by
  have hpath : Path .start Prefix.empty
      (letterWord p ++ ([' '] ++ (d.display ++ ((' ' :: r.takeWhile isWs) ++ [])))) .ended
      ⟨false, none, some d, some p⟩ :=
    .word (letterWord_isRun p) (take_start_letter _ p) (List.forall_mem_singleton.2 rfl) (by simp)
      (.word (Chips.display_isRun d) (take_open_date _ d) (takeWhile_separators r) (by simp) (.nil _ _))
  have happart : Apart (letterWord p ++ ([' '] ++ (d.display ++ ((' ' :: r.takeWhile isWs) ++ []))))
      (r.dropWhile isWs) := by
    rw [← List.append_assoc, ← List.append_assoc]
    exact apart_separated (takeWhile_separators r) (by simp) (dropWhile_head r)
  have hread := (draftOf_append_iff hpath).2 ⟨happart, rfl⟩
  rw [spaced_eq r]
  simpa using hread

/-- Behind a priority stands the description, when it starts with no date. -/
theorem draftOf_letter (p : Priority) {r : Text} (hnone : Date.parse (firstWord (r.dropWhile isWs)) = none) :
    draftOf (letterWord p ++ ' ' :: r) = ⟨⟨false, none, none, some p⟩, r.dropWhile isWs⟩ := by
  have hpath : Path .start Prefix.empty (letterWord p ++ ((' ' :: r.takeWhile isWs) ++ [])) .openPriority
      ⟨false, none, none, some p⟩ :=
    .word (letterWord_isRun p) (take_start_letter _ p) (takeWhile_separators r) (by simp) (.nil _ _)
  have hstop : Place.openPriority.take ⟨false, none, none, some p⟩ (firstWord (r.dropWhile isWs)) = none := by
    rw [Place.take, hnone]
    rfl
  have hread := (draftOf_append_iff hpath).2
    ⟨apart_separated (takeWhile_separators r) (by simp) (dropWhile_head r), hstop⟩
  rw [spaced_eq r]
  simpa using hread

/-- Else it is dated. -/
theorem draftOf_letter_dated (p : Priority) {r : Text} {d : Date}
    (hdate : Date.parse (firstWord (r.dropWhile isWs)) = some d) :
    (draftOf (letterWord p ++ ' ' :: r)).pre.creationDate = some d := by
  have hbody : splitWords r = splitWords (r.dropWhile isWs) := by
    have hsep : ∀ c ∈ r.takeWhile isWs, isWs c = true := fun c hc => List.mem_takeWhile_imp hc
    rw [← splitWords_separated hsep (r.dropWhile isWs), List.takeWhile_append_dropWhile]
  have hhead : (letterWord p ++ ' ' :: r).head?.any isWs = false := rfl
  have hread := readWords_splitWords hhead
  rw [splitWords_append_cons _ _ rfl, splitWords_run (letterWord_isRun p), List.singleton_append, hbody,
    readWords_take (take_start_letter _ p)] at hread
  rw [← headD_splitWords (dropWhile_head r)] at hdate
  cases hws : splitWords (r.dropWhile isWs) with
  | nil =>
    rw [hws] at hdate
    cases hdate
  | cons w ws =>
    rw [hws, List.headD_cons] at hdate
    obtain rfl := parse_some_iff.1 hdate
    rw [hws, readWords_take (take_open_date _ d), readWords_stop rfl, Prod.mk.injEq] at hread
    rw [← hread.1]

/-- A date put in front of a line is read as its creation date when the line starts with no separator. -/
theorem draftOf_dated_iff (d : Date) (hne : line ≠ []) :
    draftOf (d.display ++ ' ' :: line) = ⟨⟨false, none, some d, none⟩, line⟩ ↔
      line.head?.any isWs = false := by
  have hpath : Path .start Prefix.empty (d.display ++ ([' '] ++ [])) .ended ⟨false, none, some d, none⟩ :=
    .word (Chips.display_isRun d) (take_start_date _ d) (List.forall_mem_singleton.2 rfl) (by simp) (.nil _ _)
  have hsame : d.display ++ ' ' :: line = d.display ++ ([' '] ++ []) ++ line := by simp
  rw [hsame, draftOf_append_iff hpath]
  constructor
  · rintro ⟨hnil | hnil | ⟨-, hhead⟩, -⟩
    · simp at hnil
    · exact absurd hnil hne
    · exact hhead
  · exact fun hhead => ⟨apart_separated (List.forall_mem_singleton.2 rfl) (by simp) hhead, rfl⟩

theorem readWords_openPriority (pre : Prefix) (ws : List Text) :
    (readWords .openPriority pre ws).1.priority = pre.priority := by
  cases ws with
  | nil => rfl
  | cons w ws =>
    rw [readWords, Place.take]
    cases Date.parse w with
    | none => rfl
    | some d =>
      have hstop : readWords .ended { pre with creationDate := some d } ws = _ := readWords_stop rfl
      exact congrArg (fun r : Prefix × List Text => r.1.priority) hstop

theorem exists_letter_of_ahead (h : priorityAhead line = true) :
    ∃ p r, line = letterWord p ++ ' ' :: r := by
  unfold priorityAhead at h
  split at h
  · next letter r => exact ⟨⟨letter, h⟩, r, rfl⟩
  · cases h

/-- A new line is read back with its date exactly when it starts with no separator and a priority in front
has a space behind it. -/
theorem stamped_iff (ht : taskOf line = some t) (hopen : t.completed = false) (hdate : t.creationDate = none)
    (today : Date) : taskOf (stampCreated line today) = some { t with creationDate := some today } ↔
      line.head?.any isWs = false ∧ (isPriorityWord (firstWord line) = true → priorityAhead line = true) := by
  have hne : line ≠ [] := by
    rintro rfl
    cases ht
  have hdraft := (taskOf_iff hne).1 ht
  have hstamp : stampCreated line today = line.take (if priorityAhead line then 4 else 0) ++
      today.display ++ [' '] ++ line.drop (if priorityAhead line then 4 else 0) := by
    rw [stampCreated, ht, Option.any_some, hopen, hdate]
    rfl
  cases hahead : priorityAhead line with
  | true =>
    obtain ⟨p, r, rfl⟩ := exists_letter_of_ahead hahead
    refine iff_of_true ?_ ⟨rfl, fun _ => rfl⟩
    have hout : stampCreated (letterWord p ++ ' ' :: r) today =
        letterWord p ++ ' ' :: (today.display ++ ' ' :: r) := by
      rw [hstamp, hahead]
      simp [letterWord]
    have hnone : Date.parse (firstWord (r.dropWhile isWs)) = none := by
      rw [Option.eq_none_iff_forall_ne_some]
      intro d hd
      have hcreation := draftOf_letter_dated p hd
      rw [hdraft] at hcreation
      rw [show t.creationDate = some d from hcreation] at hdate
      cases hdate
    have hread := draftOf_letter p hnone
    rw [hdraft, Draft.mk.injEq] at hread
    rw [hout, taskOf_iff (by simp [letterWord]), draftOf_letter_date, Draft.mk.injEq]
    exact ⟨congrArg (fun pre : Prefix => { pre with creationDate := some today }) hread.1.symm, hread.2.symm⟩
  | false =>
    have hout : stampCreated line today = today.display ++ ' ' :: line := by
      rw [hstamp, hahead]
      simp
    rw [hout, taskOf_iff (by simp)]
    cases hhead : line.head?.any isWs with
    | true =>
      refine iff_of_false (fun heq => ?_) fun h => by cases h.1
      -- All of the line is description, so a date in front of it would take its separator.
      have hindented := draftOf_indented hhead
      rw [hdraft, Draft.mk.injEq] at hindented
      have hpre : Prefix.of { t with creationDate := some today } = ⟨false, none, some today, none⟩ :=
        congrArg (fun pre : Prefix => { pre with creationDate := some today }) hindented.1
      rw [hpre, hindented.2] at heq
      rw [(draftOf_dated_iff today hne).1 heq] at hhead
      cases hhead
    | false =>
      rw [(draftOf_dated_iff today hne).2 hhead, Draft.mk.injEq]
      have hread := readWords_splitWords hhead
      rw [hdraft] at hread
      rcases word_cases (firstWord line) with ⟨p, hp⟩ | ⟨d, hd⟩ | ⟨hpriority, hnone⟩
      · obtain ⟨-, vs, hws⟩ := splitWords_of_firstWord (by simp [letterWord]) hp
        rw [hws, readWords_take (take_start_letter _ p)] at hread
        have hpriority := readWords_openPriority { Prefix.empty with priority := some p } vs
        rw [hread] at hpriority
        have hword : isPriorityWord (firstWord line) = true := by
          rw [hp, isPriorityWord_eq, priorityOf_letterWord]
          rfl
        refine iff_of_false (fun h => ?_) fun h => absurd (h.2 hword) Bool.false_ne_true
        have hother := congrArg Prefix.priority h.1
        cases hother.trans hpriority
      · obtain ⟨-, vs, hws⟩ := splitWords_of_firstWord (display_ne_nil d) hd
        rw [hws, readWords_take (take_start_date _ d), readWords_stop rfl, Prod.mk.injEq] at hread
        rw [show t.creationDate = some d from congrArg Prefix.creationDate hread.1.symm] at hdate
        cases hdate
      · have hmark : firstWord line ≠ ['x'] := by
          intro hx
          obtain ⟨-, vs, hws⟩ := splitWords_of_firstWord (by simp) hx
          have htake : Place.start.take Prefix.empty ['x'] = some (.mark, markOnly) := rfl
          have hcompleted := readWords_mark_completed vs
          rw [hws, readWords_take htake] at hread
          rw [hread] at hcompleted
          rw [show t.completed = true from hcompleted] at hopen
          cases hopen
        have hstop : Place.start.take Prefix.empty (firstWord line) = none := by
          rw [Place.take, if_neg hmark, hpriority, hnone]
          rfl
        have hplain := (draftOf_append_iff (Path.nil .start Prefix.empty)).2 ⟨.inl rfl, hstop⟩
        rw [List.nil_append, hdraft, Draft.mk.injEq] at hplain
        refine iff_of_true ⟨?_, hplain.2.symm⟩ ⟨rfl, fun h => ?_⟩
        · exact congrArg (fun pre : Prefix => { pre with creationDate := some today }) hplain.1.symm
        · rw [isPriorityWord_eq, hpriority] at h
          cases h

end Stamp

/-! ## What was written is kept -/

/-- What the fixes are to keep of a line: all but the case of letters, the words of one typed done, and
the task of a new one. -/
structure KeepsWritten (line : Text) (today : Date) : Prop where
  case : eqIgnoreAsciiCase (fixCase line) line = true
  caseAgain : fixCase (fixCase line) = fixCase line
  done : ∀ rest, line = 'x' :: ' ' :: rest → DatedDone line today
  created : ∀ t, taskOf line = some t → t.completed = false → t.creationDate = none →
    taskOf (stampCreated line today) = some { t with creationDate := some today }

/-- A line typed done without a date has one prefix behind its mark; a new one starts with no separator, and
a priority in front of it has a space behind it. -/
structure Keepable (line : Text) : Prop where
  done : ∀ rest t, line = 'x' :: ' ' :: rest → taskOf line = some t → t.completionDate = none →
    OneFront rest t
  created : ∀ t, taskOf line = some t → t.completed = false → t.creationDate = none →
    line.head?.any isWs = false ∧ (isPriorityWord (firstWord line) = true → priorityAhead line = true)

/-- The fixes keep what was written on exactly these lines. -/
theorem keepsWritten_iff (line : Text) (today : Date) : KeepsWritten line today ↔ Keepable line := by
  constructor
  · intro h
    refine ⟨?_, fun t ht hopen hdate => (stamped_iff ht hopen hdate today).1 (h.created t ht hopen hdate)⟩
    rintro rest t rfl ht
    exact (datedDone_iff ht today).1 (h.done rest rfl)
  · intro h
    obtain ⟨hcase, hagain⟩ := fixCase_spec line
    refine ⟨hcase, hagain, ?_, fun t ht hopen hdate =>
      (stamped_iff ht hopen hdate today).2 (h.created t ht hopen hdate)⟩
    rintro rest rfl
    obtain ⟨t, ht, -⟩ := taskOf_done rest
    exact (datedDone_iff ht today).2 (h.done rest t rfl ht)

/-- A second mark is lost, a second priority taken for the line's own, a priority alone and the separator in
front of a new line moved. -/
theorem not_keepsWritten :
    ('\n' ∉ "x x call".toList ∧ '\r' ∉ "x x call".toList ∧
      ¬KeepsWritten "x x call".toList ⟨2026, 9, 11, by decide⟩) ∧
    ('\n' ∉ "x (A) (B) call".toList ∧ '\r' ∉ "x (A) (B) call".toList ∧
      ¬KeepsWritten "x (A) (B) call".toList ⟨2026, 9, 11, by decide⟩) ∧
    ('\n' ∉ "(A)".toList ∧ '\r' ∉ "(A)".toList ∧
      ¬KeepsWritten "(A)".toList ⟨2026, 9, 11, by decide⟩) ∧
    ('\n' ∉ " call".toList ∧ '\r' ∉ " call".toList ∧
      ¬KeepsWritten " call".toList ⟨2026, 9, 11, by decide⟩) := by
  have hdone : ∀ rest t, taskOf ('x' :: ' ' :: rest) = some t → t.completionDate = none →
      ¬OneFront rest t → ¬KeepsWritten ('x' :: ' ' :: rest) ⟨2026, 9, 11, by decide⟩ :=
    fun rest t ht hnone hfront h => hfront ((datedDone_iff ht _).1 (h.done rest rfl) hnone)
  have hcreated : ∀ line t, taskOf line = some t → t.completed = false → t.creationDate = none →
      ¬(line.head?.any isWs = false ∧ (isPriorityWord (firstWord line) = true → priorityAhead line = true)) →
        ¬KeepsWritten line ⟨2026, 9, 11, by decide⟩ :=
    fun line t ht hopen hdate hfront h =>
      hfront ((stamped_iff ht hopen hdate _).1 (h.created t ht hopen hdate))
  refine ⟨⟨by decide, by decide, ?_⟩, ⟨by decide, by decide, ?_⟩, ⟨by decide, by decide, ?_⟩,
    by decide, by decide, ?_⟩
  · exact hdone "x call".toList ⟨true, none, none, none, "x call".toList⟩ (by decide +kernel) rfl
      fun h => h.1 rfl
  · exact hdone "(A) (B) call".toList ⟨true, none, none, some ⟨'A', by decide⟩, "(B) call".toList⟩
      (by decide +kernel) rfl fun h => absurd (h.2 rfl) (by decide)
  · exact hcreated "(A)".toList ⟨false, none, none, some ⟨'A', by decide⟩, []⟩ (by decide +kernel) rfl rfl
      (by decide)
  · exact hcreated " call".toList ⟨false, none, none, none, " call".toList⟩ (by decide +kernel) rfl rfl
      (by decide)

end Txtodo.LineFixes
