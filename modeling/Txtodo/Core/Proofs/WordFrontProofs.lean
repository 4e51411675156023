import Txtodo.Core.Proofs.PutGetProofs
import Txtodo.Core.Proofs.WordPathProofs
import Txtodo.Core.Proofs.WordSplitProofs

/-!
# Reading any line by its words

However its words are separated, a line that starts with a word is read as its words are.
-/

namespace Txtodo

open Grammar

/-! ## One word taken -/

section Taken
variable (pre : Prefix) (p : Priority) (d : Date)

theorem priorityOf_letterWord : priorityOf (letterWord p) = some p := priorityOf_some_iff.mpr rfl

theorem parse_display_date : Date.parse d.display = some d := parse_some_iff.mpr rfl

theorem take_start_letter : Place.start.take pre (letterWord p) =
    some (.openPriority, { pre with priority := some p }) := by
  simp [Place.take, priorityOf_letterWord, show letterWord p ≠ ['x'] by simp [letterWord]]

theorem take_start_date : Place.start.take pre d.display =
    some (.ended, { pre with creationDate := some d }) := by
  simp [Place.take, priorityOf_display, parse_display_date, display_ne_mark]

theorem take_open_date : Place.openPriority.take pre d.display =
    some (.ended, { pre with creationDate := some d }) := by
  simp [Place.take, parse_display_date]

theorem take_mark_letter : Place.mark.take pre (letterWord p) =
    some (.markPriority, { pre with priority := some p }) := by
  simp [Place.take, priorityOf_letterWord]

theorem take_mark_date : Place.mark.take pre d.display =
    some (.completion false, { pre with completionDate := some d }) := by
  simp [Place.take, priorityOf_display, parse_display_date]

theorem take_markPriority_date : Place.markPriority.take pre d.display =
    some (.completion true, { pre with completionDate := some d }) := by
  simp [Place.take, parse_display_date]

theorem take_completion_date (seen : Bool) : (Place.completion seen).take pre d.display =
    some (.creation seen, { pre with creationDate := some d }) := by
  simp [Place.take, parse_display_date]

theorem take_completion_letter : (Place.completion false).take pre (letterWord p) =
    some (.ended, { pre with priority := some p }) := by
  have hnone : Date.parse (letterWord p) = none := by
    rw [Option.eq_none_iff_forall_ne_some]
    intro d hd
    have hsame := priorityOf_display d
    rw [← parse_some_iff.mp hd, priorityOf_letterWord] at hsame
    cases hsame
  simp [Place.take, hnone, priorityOf_letterWord]

theorem take_creation_letter : (Place.creation false).take pre (letterWord p) =
    some (.ended, { pre with priority := some p }) := by
  simp [Place.take, priorityOf_letterWord]

end Taken

/-! ## Words -/

section Words
variable {place q q' : Place} {pre r r' : Prefix} {vs ws ds ds' : List Text} {s raw : Text}

/-- The words of a prefix are read as it, whatever is read after them. -/
theorem Front.reads (h : Front vs q pre) (hrest : WordPath q pre ws q' r ds) :
    WordPath .start Prefix.empty (vs ++ ws) q' r ds := by
  have hmark : Place.start.take Prefix.empty ['x'] = some (.mark, ⟨true, none, none, none⟩) := rfl
  cases h with
  | start => exact hrest
  | priority p => exact .take (take_start_letter _ p) hrest
  | creation e => exact .take (take_start_date _ e) hrest
  | priorityCreation p e => exact .take (take_start_letter _ p) (.take (take_open_date _ e) hrest)
  | mark => exact .take hmark hrest
  | markPriority p => exact .take hmark (.take (take_mark_letter _ p) hrest)
  | completion d => exact .take hmark (.take (take_mark_date _ d) hrest)
  | dates d e =>
    exact .take hmark (.take (take_mark_date _ d) (.take (take_completion_date _ e false) hrest))
  | completionPriority d p =>
    exact .take hmark (.take (take_mark_date _ d) (.take (take_completion_letter _ p) hrest))
  | datesPriority d e p =>
    exact .take hmark (.take (take_mark_date _ d)
      (.take (take_completion_date _ e false) (.take (take_creation_letter _ p) hrest)))
  | priorityCompletion p d =>
    exact .take hmark (.take (take_mark_letter _ p) (.take (take_markPriority_date _ d) hrest))
  | priorityDates p d e =>
    exact .take hmark (.take (take_mark_letter _ p)
      (.take (take_markPriority_date _ d) (.take (take_completion_date _ e true) hrest)))

/-- Words are read in one way. -/
theorem WordPath.det (h : WordPath place pre ws q r ds) (h' : WordPath place pre ws q' r' ds') :
    q = q' ∧ r = r' ∧ ds = ds' := by
  induction h with
  | stop hstop =>
    cases h' with
    | stop => exact ⟨rfl, rfl, rfl⟩
    | take htake =>
      rw [List.headD_cons] at hstop
      rw [hstop] at htake
      cases htake
  | take htake _ ih =>
    cases h' with
    | stop hstop =>
      rw [List.headD_cons] at hstop
      rw [hstop] at htake
      cases htake
    | take htake' hrest' =>
      rw [htake] at htake'
      cases htake'
      exact ih hrest'

/-- A prefix of text is read word by word. -/
theorem Path.wordPath (h : Path place pre s q r) (hstop : q.take r (ds.headD []) = none) :
    WordPath place pre (splitWords s ++ ds) q r ds := by
  induction h with
  | nil => exact .stop hstop
  | @word place place' q pre pre' r w sep s hw htake hsep hne h ih =>
    have hsplit : splitWords (w ++ (sep ++ s)) = w :: splitWords s := by
      cases sep with
      | nil =>
        obtain rfl : s = [] := not_not.1 fun hs => hne hs rfl
        rw [List.append_nil, List.append_nil, splitWords_run hw, splitWords_nil]
      | cons c sep =>
        have hc := hsep c (List.mem_cons_self ..)
        have hrest := splitWords_separated (fun x hx => hsep x (List.mem_cons_of_mem _ hx)) s
        rw [List.cons_append, splitWords_append_cons _ _ hc, splitWords_run hw, hrest]
        rfl
    rw [hsplit]
    exact .take htake (ih hstop)

/-- Between a text's first word and what follows it is a boundary. -/
theorem firstWord_boundary (s : Text) : Boundary (firstWord s) (s.dropWhile fun c => !isWs c) := by
  cases hrest : s.dropWhile fun c => !isWs c with
  | nil => exact .inr (.inl rfl)
  | cons c rest =>
    have hhead := List.head?_dropWhile_not (fun c => !isWs c) s
    rw [hrest] at hhead
    exact .inr (.inr (.inr (by simpa using hhead)))

/-- A text that starts with no separator starts with its first word. -/
theorem headD_splitWords (h : s.head?.any isWs = false) : (splitWords s).headD [] = firstWord s := by
  cases s with
  | nil => rfl
  | cons c s =>
    have hrun : IsRun (firstWord (c :: s)) := by
      refine ⟨?_, fun d hd => by simpa using List.mem_takeWhile_imp hd⟩
      have hc : isWs c = false := by simpa using h
      rw [firstWord, List.takeWhile_cons_of_pos (by simp [hc])]
      exact List.cons_ne_nil _ _
    have hcut : splitWords (c :: s) = splitWords (firstWord (c :: s)) ++
        splitWords ((c :: s).dropWhile fun c => !isWs c) := by
      rw [← splitWords_append (firstWord_boundary _), firstWord, List.takeWhile_append_dropWhile]
    rw [hcut, splitWords_run hrun]
    rfl

/-- Nor does the description of such a line start with a separator. -/
theorem description_head (h : raw.head?.any isWs = false) :
    (draftOf raw).description.head?.any isWs = false := by
  obtain ⟨q, front, hread⟩ := draftOf_readAs raw
  rcases hread.apart with hnil | hnil | ⟨-, hhead⟩
  · have htext := hread.text
    rw [hnil, List.nil_append] at htext
    rwa [← htext]
  · rw [hnil]
    rfl
  · exact hhead

/-- A line that starts with a word is read as its words are. -/
theorem draftOf_words (h : raw.head?.any isWs = false) :
    WordPath .start Prefix.empty (splitWords raw) (placeAfter (raw.take (descriptionStart raw)))
      (draftOf raw).pre (splitWords (draftOf raw).description) := by
  obtain ⟨q, front, hread⟩ := draftOf_readAs raw
  have hplace : placeAfter (raw.take (descriptionStart raw)) = q := by
    rw [hread.take_descriptionStart, hread.path.placeAfter]
  have hstop : q.take (draftOf raw).pre ((splitWords (draftOf raw).description).headD []) = none := by
    rw [headD_splitWords (description_head h)]
    exact hread.stop
  have hpath := hread.path.wordPath hstop
  rw [hplace]
  rwa [← splitWords_append (Apart.boundary hread.apart), ← hread.text] at hpath

/-- A line that starts with a separator is all description. -/
theorem draftOf_indented (h : raw.head?.any isWs = true) : draftOf raw = ⟨Prefix.empty, raw⟩ := by
  obtain ⟨q, front, hread⟩ := draftOf_readAs raw
  have hfront : front = [] := by
    cases hf : front with
    | nil => rfl
    | cons c rest =>
      have hhead := hread.path.head
      have htext := hread.text
      rw [hf] at hhead htext
      rw [htext] at h
      rw [List.cons_append, List.head?_cons] at h
      rw [List.head?_cons] at hhead
      rw [hhead] at h
      cases h
  have hpath := hread.path
  have htext := hread.text
  rw [hfront] at hpath htext
  obtain ⟨-, hpre⟩ := hpath.det (.nil _ _)
  exact congrArg₂ Draft.mk hpre htext.symm

/-- The prefix at the front of some words, as far as they are taken, and the words left. -/
def readWords (place : Place) (pre : Prefix) : List Text → Prefix × List Text
  | [] => (pre, [])
  | w :: ws =>
    match place.take pre w with
    | some (place', pre') => readWords place' pre' ws
    | none => (pre, w :: ws)

theorem WordPath.readWords_eq (h : WordPath place pre ws q r ds) : readWords place pre ws = (r, ds) := by
  induction h with
  | @stop place pre ws hstop =>
    cases ws with
    | nil => rfl
    | cons w ws =>
      rw [List.headD_cons] at hstop
      rw [readWords, hstop]
  | take htake hrest ih =>
    rw [readWords, htake]
    exact ih

/-- The prefix of a line that starts with a word, and the words of its description. -/
theorem readWords_splitWords (h : raw.head?.any isWs = false) :
    readWords .start Prefix.empty (splitWords raw) =
      ((draftOf raw).pre, splitWords (draftOf raw).description) :=
  (draftOf_words h).readWords_eq

/-- The words of a prefix lead to one place and prefix. -/
theorem Front.det {q₁ q₂ : Place} {p₁ p₂ : Prefix} (h₁ : Front vs q₁ p₁) (h₂ : Front vs q₂ p₂) :
    q₁ = q₂ ∧ p₁ = p₂ := by
  have hend (q : Place) (p : Prefix) : WordPath q p [] q p [] := .stop (Place.take_nil q p)
  obtain ⟨hq, hp, -⟩ := (h₁.reads (hend _ _)).det (h₂.reads (hend _ _))
  exact ⟨hq, hp⟩

/-- The words of any line are those of its prefix and its description's. -/
theorem exists_front (raw : Text) : ∃ vs q, splitWords raw = vs ++ splitWords (draftOf raw).description ∧
    Front vs q (draftOf raw).pre ∧ (raw.head?.any isWs = true ∨
      q = placeAfter (raw.take (descriptionStart raw)) ∧
        q.take (draftOf raw).pre ((splitWords (draftOf raw).description).headD []) = none) := by
  cases h : raw.head?.any isWs with
  | true =>
    rw [draftOf_indented h]
    exact ⟨[], .start, rfl, .start, .inl rfl⟩
  | false =>
    obtain ⟨vs, hwords, hfront, hstop⟩ := (draftOf_words h).front_from .start
    exact ⟨vs, _, hwords, hfront, .inr ⟨rfl, hstop⟩⟩

/-- The words of an open prefix are those it is written with. -/
theorem Front.words (h : Front vs q pre) (hopen : pre.completed = false) :
    vs = pre.words ∧ q = pre.place ∧ pre.completionDate = none := by
  cases h <;> first | exact ⟨rfl, rfl, rfl⟩ | cases hopen

theorem Prefix.front (hopen : pre.completed = false) (hdate : pre.completionDate = none) :
    Front pre.words pre.place pre := by
  obtain ⟨completed, completionDate, creationDate, priority⟩ := pre
  obtain rfl : completed = false := hopen
  obtain rfl : completionDate = none := hdate
  cases creationDate with
  | none =>
    cases priority with
    | none => exact .start
    | some p => exact .priority p
  | some e =>
    cases priority with
    | none => exact .creation e
    | some p => exact .priorityCreation p e

/-- A done line's first word is the mark. -/
theorem Front.mark_head (h : Front vs q pre) (hdone : pre.completed = true) : vs.head? = some ['x'] := by
  cases h <;> first | rfl | cases hdone

theorem Front.eq_empty (h : Front [] q pre) : pre = Prefix.empty := by
  cases h
  rfl

theorem Prefix.words_open (hopen : pre.completed = false) : pre.words =
    (pre.priority.map letterWord).toList ++ (pre.creationDate.map Date.display).toList := by
  rw [Prefix.words, hopen, if_neg Bool.false_ne_true]
  rfl

end Words

end Txtodo
