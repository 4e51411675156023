import Txtodo.Core.Proofs.CompletionProofs
import Txtodo.Core.Reading

/-!
# The lenient parser reads word by word

In lenient mode the parser takes words as long as the place it stands at takes them. What it then leaves
is the description.
-/

namespace Txtodo

open Grammar

/-! ## On chunks -/

/-- The word the chunks start with, empty at the end and in front of a separator. -/
def wordOf : List Chunk → Text
  | c :: _ => if c.isWs then [] else c.text
  | [] => []

/-- The words taken from the front of the chunks, each with the separator after it. -/
inductive ChunkPath : Place → Prefix → List Chunk → Place → Prefix → List Chunk → Prop where
  | stop {place : Place} {pre : Prefix} {cs : List Chunk} (h : place.take pre (wordOf cs) = none) :
      ChunkPath place pre cs place pre cs
  | take {place place' q : Place} {pre pre' pre'' : Prefix} {cs ds : List Chunk}
      (h : place.take pre (wordOf cs) = some (place', pre'))
      (hrest : ChunkPath place' pre' cs.tail.tail q pre'' ds) : ChunkPath place pre cs q pre'' ds

section Run
variable (raw : Text) (cs : List Chunk) (quirks : Quirks)

theorem separator_lenient : ∃ quirks', separator.run ⟨raw, cs, .lenient, quirks⟩ =
    .ok (!cs.tail.isEmpty, ⟨raw, cs.tail, .lenient, quirks'⟩) := by
  cases cs with
  | nil => exact ⟨quirks, rfl⟩
  | cons c cs =>
    by_cases htext : c.text = [' ']
    · have hsep : separator.run ⟨raw, c :: cs, .lenient, quirks⟩ = (do
          modify Parser.advance
          if cs.isEmpty then
            lenientOrAt Quirks.TRAILING_WS "description" "trailing whitespace" c.start
            return false
          return true : ParseM Bool).run ⟨raw, c :: cs, .lenient, quirks⟩ := by
        rw [separator, StateT.run_bind, StateT.run_get, pure_bind]
        simp only [htext, ne_eq, not_true_eq_false, if_false]
      rw [hsep]
      cases cs with
      | nil => exact ⟨_, rfl⟩
      | cons d cs => exact ⟨_, rfl⟩
    · have hsep : separator.run ⟨raw, c :: cs, .lenient, quirks⟩ = (do
          lenientOr Quirks.TABS "SP" "words are separated by exactly one space"
          modify Parser.advance
          if cs.isEmpty then
            lenientOrAt Quirks.TRAILING_WS "description" "trailing whitespace" c.start
            return false
          return true : ParseM Bool).run ⟨raw, c :: cs, .lenient, quirks⟩ := by
        rw [separator, StateT.run_bind, StateT.run_get, pure_bind]
        simp only [htext, ne_eq, not_false_eq_true, if_true]
      rw [hsep]
      cases cs with
      | nil => exact ⟨_, rfl⟩
      | cons d cs => exact ⟨_, rfl⟩

theorem word_run : (Parser.mk raw cs .lenient quirks).word = none ∧ wordOf cs = [] ∨
    (Parser.mk raw cs .lenient quirks).word = some (wordOf cs) := by
  cases cs with
  | nil => exact .inl ⟨rfl, rfl⟩
  | cons c cs =>
    cases hws : c.isWs with
    | true => exact .inl ⟨by simp [Parser.word, hws], by simp [wordOf, hws]⟩
    | false => exact .inr (by simp [Parser.word, wordOf, hws])

theorem takeDate_lenient : takeDate.run ⟨raw, cs, .lenient, quirks⟩ =
    .ok (Date.parse (wordOf cs),
      ⟨raw, if (Date.parse (wordOf cs)).isSome then cs.tail else cs, .lenient, quirks⟩) := by
  rw [takeDate, StateT.run_bind, StateT.run_get, pure_bind]
  rcases word_run raw cs quirks with ⟨hword, hnil⟩ | hword
  · rw [hword, hnil]
    rfl
  · simp only [hword]
    cases hdate : Date.parse (wordOf cs) with
    | none => simp; rfl
    | some d => rfl

theorem takePriority_none (t : Task) (h : priorityOf (wordOf cs) = none) :
    (takePriority t).run ⟨raw, cs, .lenient, quirks⟩ =
      .ok ((t, false), ⟨raw, cs, .lenient, quirks⟩) := by
  rw [takePriority, StateT.run_bind, StateT.run_get, pure_bind]
  rcases word_run raw cs quirks with ⟨hword, -⟩ | hword
  · rw [hword]
    rfl
  · rw [hword]
    split
    · rename_i letter hletter
      rw [Option.some_inj.1 hletter] at h
      rw [show Priority.new letter = none from h]
      rfl
    · rfl

theorem priorityOf_eq_some {w : Text} {p : Priority} (h : priorityOf w = some p) :
    w = ['(', p.letter, ')'] := by
  obtain ⟨q, hq⟩ := isPriorityWord_iff.1 (show isPriorityWord w = true from by
    unfold priorityOf at h
    split at h
    · exact congrArg Option.isSome h
    · cases h)
  rw [hq] at h ⊢
  have hnew : Priority.new q.letter = some q := dif_pos q.upper
  rw [Option.some_inj.1 (hnew.symm.trans h)]

theorem takePriority_some (t : Task) {p : Priority} (h : priorityOf (wordOf cs) = some p) :
    ∃ quirks', (takePriority t).run ⟨raw, cs, .lenient, quirks⟩ =
      .ok (({ t with priority := some p }, true), ⟨raw, cs.tail.tail, .lenient, quirks'⟩) := by
  have hw := priorityOf_eq_some h
  obtain ⟨quirks', hsep⟩ := separator_lenient raw cs.tail quirks
  refine ⟨quirks', ?_⟩
  rcases word_run raw cs quirks with ⟨-, hnil⟩ | hword
  · rw [hnil] at h
    cases h
  · have hnew : Priority.new p.letter = some p := dif_pos p.upper
    rw [takePriority, StateT.run_bind, StateT.run_get, pure_bind]
    simp only [hword, hw, hnew]
    exact (run_bind_ok rfl).trans (run_bind_ok hsep)

theorem takeOptionalDate_none (t : Task) (h : Date.parse (wordOf cs) = none) :
    (takeOptionalDate t).run ⟨raw, cs, .lenient, quirks⟩ = .ok (t, ⟨raw, cs, .lenient, quirks⟩) := by
  have hdate := takeDate_lenient raw cs quirks
  rw [h] at hdate
  exact run_bind_ok hdate

theorem takeOptionalDate_some (t : Task) {d : Date} (h : Date.parse (wordOf cs) = some d) :
    ∃ quirks', (takeOptionalDate t).run ⟨raw, cs, .lenient, quirks⟩ =
      .ok ({ t with creationDate := some d }, ⟨raw, cs.tail.tail, .lenient, quirks'⟩) := by
  have hdate := takeDate_lenient raw cs quirks
  rw [h] at hdate
  obtain ⟨quirks', hsep⟩ := separator_lenient raw cs.tail quirks
  exact ⟨quirks', (run_bind_ok hdate).trans (run_bind_ok hsep)⟩

/-- The result of taking words from the front of `cs`, its task the prefix read. -/
def Follows (raw : Text) (r : Except ParseError (Task × Parser)) (place : Place) (pre : Prefix)
    (cs : List Chunk) : Prop :=
  ∃ t q ds quirks, r = .ok (t, ⟨raw, ds, .lenient, quirks⟩) ∧
    ChunkPath place pre cs q (Prefix.of t) ds

variable {raw cs quirks}

theorem takePriorityLenient_follows (raw : Text) (quirks quirk : Quirks) {t : Task}
    {place next : Place} (hplace : place.take (Prefix.of t) (wordOf cs) = (priorityOf (wordOf cs)).map fun p =>
      (next, Prefix.of { t with priority := some p })) :
    priorityOf (wordOf cs) = none ∧ place.take (Prefix.of t) (wordOf cs) = none ∧
        (takePriorityLenient t quirk).run ⟨raw, cs, .lenient, quirks⟩ =
          .ok (t, ⟨raw, cs, .lenient, quirks⟩) ∨
      ∃ p quirks', place.take (Prefix.of t) (wordOf cs) =
          some (next, Prefix.of { t with priority := some p }) ∧
        (takePriorityLenient t quirk).run ⟨raw, cs, .lenient, quirks⟩ =
          .ok ({ t with priority := some p }, ⟨raw, cs.tail.tail, .lenient, quirks'⟩) := by
  cases hpriority : priorityOf (wordOf cs) with
  | none =>
    rw [hpriority] at hplace
    have hrun := takePriority_none raw cs quirks t hpriority
    exact .inl ⟨rfl, hplace, (takePriorityLenient_run_eq raw quirks t quirk).trans (run_bind_ok hrun)⟩
  | some p =>
    rw [hpriority] at hplace
    obtain ⟨quirks', hrun⟩ := takePriority_some raw cs quirks t hpriority
    exact .inr ⟨p, _, hplace, (takePriorityLenient_run_eq raw quirks t quirk).trans (run_bind_ok hrun)⟩

theorem Follows.stop {place : Place} {t : Task} {quirks' : Quirks}
    (h : place.take (Prefix.of t) (wordOf cs) = none) :
    Follows raw (.ok (t, ⟨raw, cs, .lenient, quirks'⟩)) place (Prefix.of t) cs :=
  ⟨t, place, cs, quirks', rfl, .stop h⟩

theorem Follows.take {r : Except ParseError (Task × Parser)} {place place' : Place} {pre pre' : Prefix}
    (h : place.take pre (wordOf cs) = some (place', pre')) (hr : Follows raw r place' pre' cs.tail.tail) :
    Follows raw r place pre cs := by
  obtain ⟨t, q, ds, quirks, hrun, hpath⟩ := hr
  exact ⟨t, q, ds, quirks, hrun, .take h hpath⟩

/-- After the dates comes a priority, unless there is one. -/
theorem lastPriority_follows (raw : Text) (quirks : Quirks) (t : Task) (place : Place) (cs : List Chunk)
    (hplace : place.take (Prefix.of t) (wordOf cs) = if t.priority.isSome then none
      else (priorityOf (wordOf cs)).map fun p => (.ended, Prefix.of { t with priority := some p })) :
    Follows raw ((if t.priority.isNone then takePriorityLenient t Quirks.PRIORITY_AFTER_DATE
      else pure t : ParseM Task).run ⟨raw, cs, .lenient, quirks⟩) place (Prefix.of t) cs := by
  cases hpriority : t.priority with
  | some p =>
    rw [hpriority] at hplace
    exact .stop hplace
  | none =>
    rw [hpriority] at hplace
    rw [Option.isNone_none, if_pos rfl]
    rcases takePriorityLenient_follows raw quirks Quirks.PRIORITY_AFTER_DATE hplace with
      ⟨-, hstop, hrun⟩ | ⟨p, quirks', htake, hrun⟩
    · rw [hrun]
      exact .stop hstop
    · rw [hrun]
      exact .take htake (.stop rfl)

/-- After the completion date: a creation date and a priority. -/
theorem dates_follow (raw : Text) (quirks : Quirks) (t : Task) (cs : List Chunk) :
    Follows raw ((takeOptionalDate t >>= fun t => if t.priority.isNone then
        takePriorityLenient t Quirks.PRIORITY_AFTER_DATE else pure t).run ⟨raw, cs, .lenient, quirks⟩)
      (.completion t.priority.isSome) (Prefix.of t) cs := by
  cases hdate : Date.parse (wordOf cs) with
  | none =>
    rw [run_bind_ok (takeOptionalDate_none raw cs quirks t hdate)]
    refine lastPriority_follows raw quirks t _ cs ?_
    simp only [Place.take, hdate, Option.map_none, Option.none_or]
    rfl
  | some d =>
    have htake : Place.take (.completion t.priority.isSome) (Prefix.of t) (wordOf cs) =
        some (.creation t.priority.isSome, Prefix.of { t with creationDate := some d }) := by
      simp only [Place.take, hdate, Option.map_some, Option.some_or]
      rfl
    obtain ⟨quirks₁, hfirst⟩ := takeOptionalDate_some raw cs quirks t hdate
    rw [run_bind_ok hfirst]
    exact .take htake (lastPriority_follows raw quirks₁ { t with creationDate := some d } _ _ rfl)

/-- A completion date and what comes after it. -/
theorem completion_follows (raw : Text) (quirks : Quirks) (t : Task) (place : Place) (cs : List Chunk)
    (hplace : place.take (Prefix.of t) (wordOf cs) = (Date.parse (wordOf cs)).map fun d =>
      (.completion t.priority.isSome, Prefix.of { t with completionDate := some d }))
    (k : Option Date → ParseM Task)
    (hnone : k none = do
      lenientOr Quirks.NO_COMPLETION_DATE "completed" "expected the completion date after x"
      return t)
    (hsome : ∀ d, k (some d) = separator >>= fun more =>
      if more then takeOptionalDate { t with completionDate := some d } >>= fun t =>
        if t.priority.isNone then takePriorityLenient t Quirks.PRIORITY_AFTER_DATE else pure t
      else pure { t with completionDate := some d } >>= fun t =>
        if t.priority.isNone then takePriorityLenient t Quirks.PRIORITY_AFTER_DATE else pure t) :
    Follows raw ((takeDate >>= k).run ⟨raw, cs, .lenient, quirks⟩) place (Prefix.of t) cs := by
  have hrun := takeDate_lenient raw cs quirks
  cases hdate : Date.parse (wordOf cs) with
  | none =>
    rw [hdate] at hplace hrun
    rw [run_bind_ok hrun, hnone]
    exact .stop hplace
  | some d =>
    rw [hdate] at hplace hrun
    obtain ⟨quirks₁, hsep⟩ := separator_lenient raw cs.tail quirks
    have hlast := dates_follow raw quirks₁ { t with completionDate := some d } cs.tail.tail
    rw [run_bind_ok hrun, hsome d]
    refine .take hplace ?_
    have hnext := run_bind_ok (f := fun more =>
      if more then takeOptionalDate { t with completionDate := some d } >>= fun t =>
        if t.priority.isNone then takePriorityLenient t Quirks.PRIORITY_AFTER_DATE else pure t
      else pure { t with completionDate := some d } >>= fun t =>
        if t.priority.isNone then takePriorityLenient t Quirks.PRIORITY_AFTER_DATE else pure t) hsep
    refine Eq.subst (motive := fun r => Follows raw r _ _ _) hnext.symm ?_
    cases hmore : cs.tail.tail with
    | nil =>
      rw [hmore] at hlast
      exact hlast
    | cons c rest =>
      rw [hmore] at hlast
      exact hlast

/-- After the mark: `cs` are the chunks from its separator on. -/
theorem completedPrefix_follows {t : Task} (ht : t.priority = none) (cs : List Chunk) (raw : Text)
    (quirks : Quirks) :
    Follows raw ((completedPrefix t).run ⟨raw, cs, .lenient, quirks⟩) .mark (Prefix.of t) cs.tail := by
  obtain ⟨quirks₁, hsep⟩ := separator_lenient raw cs quirks
  rw [completedPrefix, run_bind_ok hsep]
  cases hmore : cs.tail with
  | nil => exact .stop rfl
  | cons c rest =>
    have hmark : Place.take .mark (Prefix.of t) (wordOf (c :: rest)) =
        ((priorityOf (wordOf (c :: rest))).map fun p =>
          (.markPriority, Prefix.of { t with priority := some p })).or
        ((Date.parse (wordOf (c :: rest))).map fun d =>
          (.completion false, Prefix.of { t with completionDate := some d })) := rfl
    cases hpriority : priorityOf (wordOf (c :: rest)) with
    | none =>
      rw [hpriority, Option.map_none, Option.none_or] at hmark
      have hnone := (takePriorityLenient_run_eq raw quirks₁ t Quirks.PRIORITY_AFTER_X).trans
        (run_bind_ok (takePriority_none raw (c :: rest) quirks₁ t hpriority))
      have hseen : t.priority.isSome = false := by rw [ht]; rfl
      rw [if_neg (by simp), run_bind_ok hnone]
      exact completion_follows raw quirks₁ t .mark (c :: rest) (by rw [hmark, hseen]) _ rfl fun d => rfl
    | some p =>
      rw [hpriority, Option.map_some, Option.some_or] at hmark
      obtain ⟨quirks₂, hsome⟩ := takePriority_some raw (c :: rest) quirks₁ t hpriority
      have htaken := (takePriorityLenient_run_eq raw quirks₁ t Quirks.PRIORITY_AFTER_X).trans
        (run_bind_ok hsome)
      rw [if_neg (by simp)]
      refine .take hmark ?_
      rw [run_bind_ok htaken]
      exact completion_follows raw _ { t with priority := some p } .markPriority rest.tail rfl _ rfl
        fun d => rfl

theorem optionalDate_follows (raw : Text) (quirks : Quirks) (t : Task) (place : Place) (cs : List Chunk)
    (hplace : place.take (Prefix.of t) (wordOf cs) = (Date.parse (wordOf cs)).map fun d =>
      (.ended, Prefix.of { t with creationDate := some d })) :
    Follows raw ((takeOptionalDate t).run ⟨raw, cs, .lenient, quirks⟩) place (Prefix.of t) cs := by
  cases hdate : Date.parse (wordOf cs) with
  | none =>
    rw [hdate] at hplace
    rw [takeOptionalDate_none raw cs quirks t hdate]
    exact .stop hplace
  | some d =>
    rw [hdate] at hplace
    obtain ⟨quirks₁, hrun⟩ := takeOptionalDate_some raw cs quirks t hdate
    rw [hrun]
    exact .take hplace (.stop rfl)

/-- An open line: a priority, then a creation date. -/
theorem incompletePrefix_follows (raw : Text) (cs : List Chunk) (quirks : Quirks)
    (hmark : wordOf cs ≠ ['x']) :
    Follows raw ((incompletePrefix Task.empty).run ⟨raw, cs, .lenient, quirks⟩) .start Prefix.empty cs := by
  have hstart : Place.take .start Prefix.empty (wordOf cs) =
      ((priorityOf (wordOf cs)).map fun p =>
        (.openPriority, Prefix.of { Task.empty with priority := some p })).or
      ((Date.parse (wordOf cs)).map fun d =>
        (.ended, Prefix.of { Task.empty with creationDate := some d })) := by
    simp only [Place.take, if_neg hmark]
    rfl
  cases hpriority : priorityOf (wordOf cs) with
  | none =>
    rw [hpriority, Option.map_none, Option.none_or] at hstart
    rw [incompletePrefix, run_bind_ok (takePriority_none raw cs quirks Task.empty hpriority)]
    exact optionalDate_follows raw quirks Task.empty .start cs hstart
  | some p =>
    rw [hpriority, Option.map_some, Option.some_or] at hstart
    obtain ⟨quirks₁, hrun⟩ := takePriority_some raw cs quirks Task.empty hpriority
    rw [incompletePrefix, run_bind_ok hrun]
    exact .take hstart (optionalDate_follows raw quirks₁ _ .openPriority _ rfl)

theorem startsCompleted_wordOf (raw : Text) (cs : List Chunk) (quirks : Quirks) :
    Parser.startsCompleted ⟨raw, cs, .lenient, quirks⟩ = true ↔ wordOf cs = ['x'] := by
  rcases word_run raw cs quirks with ⟨hword, hnil⟩ | hword
  · simp [Parser.startsCompleted, hword, hnil]
  · simp [Parser.startsCompleted, hword]

theorem taskPrefix_follows (raw : Text) (cs : List Chunk) (quirks : Quirks) :
    Follows raw ((taskPrefix ⟨raw, cs, .lenient, quirks⟩).run ⟨raw, cs, .lenient, quirks⟩)
      .start Prefix.empty cs := by
  unfold taskPrefix
  by_cases hmark : wordOf cs = ['x']
  · rw [if_pos ((startsCompleted_wordOf raw cs quirks).2 hmark)]
    have htake : Place.take .start Prefix.empty (wordOf cs) =
        some (.mark, Prefix.of { Task.empty with completed := true }) := by
      rw [hmark]
      rfl
    exact .take htake (completedPrefix_follows rfl cs.tail raw quirks)
  · rw [if_neg fun h => hmark ((startsCompleted_wordOf raw cs quirks).1 h)]
    exact incompletePrefix_follows raw cs quirks hmark

end Run

/-- A line's draft is the prefix taken and the text left. -/
theorem draftOf_chunkPath (raw : Text) : ∃ q ds,
    ChunkPath .start Prefix.empty (chunks raw) q (draftOf raw).pre ds ∧
      (draftOf raw).description = textOf ds := by
  by_cases hne : raw = []
  · subst hne
    exact ⟨.start, [], .stop rfl, rfl⟩
  obtain ⟨t, q, ds, quirks, hrun, hpath⟩ := taskPrefix_follows raw (chunks raw) Quirks.NONE
  obtain ⟨p', hdescription⟩ := Txtodo.description_run (p := ⟨raw, ds, .lenient, quirks⟩) rfl
  have hparse : parseTask.run ⟨raw, chunks raw, .lenient, Quirks.NONE⟩ =
      .ok ({ t with description := textOf ds }, p') := by
    rw [parseTask_run_eq, run_bind_ok hrun, run_bind_ok hdescription]
    rfl
  have hdraft : draftOf raw = ⟨Prefix.of t, textOf ds⟩ := by
    rw [draftOf, taskOf_of_run hne hparse]
    rfl
  rw [hdraft]
  exact ⟨q, ds, hpath, rfl⟩

/-! ## On text -/

/-- A text read as prefix words, from a place and a prefix to another. -/
inductive Path : Place → Prefix → Text → Place → Prefix → Prop where
  | nil (place : Place) (pre : Prefix) : Path place pre [] place pre
  | word {place place' q : Place} {pre pre' pre'' : Prefix} {w sep s : Text} (hw : IsRun w)
      (htake : place.take pre w = some (place', pre')) (hsep : ∀ c ∈ sep, isWs c = true)
      (hne : s ≠ [] → sep ≠ []) (h : Path place' pre' s q pre'') :
      Path place pre (w ++ (sep ++ s)) q pre''

/-- Between a text and what follows it stands the text's own last separator. -/
def Apart (s d : Text) : Prop :=
  s = [] ∨ d = [] ∨ s.getLast?.any isWs = true ∧ d.head?.any isWs = false

/-- The text after its first word and the separator after that. -/
def afterWord (s : Text) : Text := (s.dropWhile fun c => !isWs c).dropWhile isWs

theorem firstWord_append {w r : Text} (hw : ∀ c ∈ w, isWs c = false)
    (hr : r = [] ∨ r.head?.any isWs = true) : firstWord (w ++ r) = w := by
  rw [firstWord, List.takeWhile_append_of_pos fun c hc => by rw [hw c hc]; rfl]
  cases r with
  | nil => simp
  | cons c r =>
    have hc : isWs c = true := by simpa using hr
    rw [List.takeWhile_cons_of_neg (by simp [hc]), List.append_nil]

theorem afterWord_append {w sep r : Text} (hw : ∀ c ∈ w, isWs c = false)
    (hsep : ∀ c ∈ sep, isWs c = true) (hne : r ≠ [] → sep ≠ []) (hr : r.head?.any isWs = false) :
    afterWord (w ++ (sep ++ r)) = r := by
  have hrest : (sep ++ r).dropWhile (fun c => !isWs c) = sep ++ r := by
    cases sep with
    | nil =>
      cases r with
      | nil => rfl
      | cons c r => exact absurd rfl (hne (by simp))
    | cons c sep =>
      exact List.dropWhile_cons_of_neg (by simp [hsep c (List.mem_cons_self ..)])
  rw [afterWord, List.dropWhile_append_of_pos (fun c hc => by rw [hw c hc]; rfl), hrest,
    List.dropWhile_append_of_pos hsep]
  cases r with
  | nil => rfl
  | cons c r => exact List.dropWhile_cons_of_neg (by simpa using hr)

section Path
variable {place q q' : Place} {pre pre' r r' : Prefix} {s s' d d' : Text}

/-- A path's text starts with a word. -/
theorem Path.head (h : Path place pre s q r) : s.head?.any isWs = false := by
  cases h with
  | nil => rfl
  | word hw =>
    obtain ⟨c, w, rfl⟩ := List.exists_cons_of_ne_nil hw.1
    exact hw.2 c (List.mem_cons_self ..)

theorem Place.take_nil (place : Place) (pre : Prefix) : place.take pre [] = none := by
  cases place with
  | completion seen => cases seen <;> rfl
  | creation seen => cases seen <;> rfl
  | start => rfl
  | openPriority => rfl
  | mark => rfl
  | markPriority => rfl
  | ended => rfl

/-- What follows the first word of a path in front of `d`. -/
theorem Path.split {w sep : Text} (hw : IsRun w) (hsep : ∀ c ∈ sep, isWs c = true)
    (hne : s ≠ [] → sep ≠ []) (h : Path place pre s q r) (hd : Apart (w ++ (sep ++ s)) d) :
    firstWord (w ++ (sep ++ s) ++ d) = w ∧ afterWord (w ++ (sep ++ s) ++ d) = s ++ d ∧ Apart s d := by
  have hwne : w ++ (sep ++ s) ≠ [] := by
    intro h
    exact hw.1 (List.append_eq_nil_iff.1 h).1
  have hgap : s ++ d ≠ [] → sep ≠ [] := by
    intro hsd hnil
    subst hnil
    have hs : s = [] := not_not.1 fun h => hne h rfl
    subst hs
    rcases hd with h | rfl | ⟨hlast, -⟩
    · exact hwne h
    · exact hsd rfl
    · rw [List.append_nil, List.append_nil, List.getLast?_eq_getLast_of_ne_nil hw.1, Option.any_some,
        hw.2 _ (List.getLast_mem hw.1)] at hlast
      cases hlast
  have hdhead : s = [] → d.head?.any isWs = false := by
    intro hs
    rcases hd with h | rfl | ⟨-, hhead⟩
    · exact absurd h hwne
    · rfl
    · exact hhead
  have hhead : (s ++ d).head?.any isWs = false := by
    by_cases hs : s = []
    · rw [hs]
      exact hdhead hs
    · rw [List.head?_append_of_ne_nil _ hs]
      exact h.head
  have hassoc : w ++ (sep ++ s) ++ d = w ++ (sep ++ (s ++ d)) := by
    rw [List.append_assoc, List.append_assoc]
  rw [hassoc]
  refine ⟨firstWord_append hw.2 ?_, afterWord_append hw.2 hsep hgap hhead, ?_⟩
  · by_cases hsd : s ++ d = []
    · cases sep with
      | nil => exact .inl hsd
      | cons c sep => exact .inr (hsep c (List.mem_cons_self ..))
    · obtain ⟨c, sep', hcons⟩ := List.exists_cons_of_ne_nil (hgap hsd)
      rw [hcons] at hsep ⊢
      exact .inr (hsep c (List.mem_cons_self ..))
  · by_cases hs : s = []
    · exact .inl hs
    · rcases hd with h | rfl | ⟨hlast, hhead⟩
      · exact absurd h hwne
      · exact .inr (.inl rfl)
      · rw [List.getLast?_append_of_ne_nil _ (by simp [hs]), List.getLast?_append_of_ne_nil _ hs] at hlast
        exact .inr (.inr ⟨hlast, hhead⟩)

/-- The same text is read as prefix words in one way. -/
theorem Path.det (h : Path place pre s q r) (h' : Path place pre s q' r') : q = q' ∧ r = r' := by
  generalize hs : s = s' at h'
  induction h generalizing s' with
  | nil place pre =>
    cases h' with
    | nil => exact ⟨rfl, rfl⟩
    | word hw => exact absurd (List.append_eq_nil_iff.1 hs.symm).1 hw.1
  | @word place place₁ q pre pre₁ r w sep s hw htake hsep hne h ih =>
    cases h' with
    | nil => exact absurd (List.append_eq_nil_iff.1 hs).1 hw.1
    | @word _ place₂ _ _ pre₂ _ w' sep' s' hw' htake' hsep' hne' h' =>
      obtain ⟨hfirst, hafter, -⟩ := Path.split (d := []) hw hsep hne h (.inr (.inl rfl))
      obtain ⟨hfirst', hafter', -⟩ := Path.split (d := []) hw' hsep' hne' h' (.inr (.inl rfl))
      rw [hs, hfirst'] at hfirst
      rw [hs, hafter', List.append_nil, List.append_nil] at hafter
      subst hfirst
      obtain ⟨rfl, rfl⟩ := Prod.mk.inj (Option.some_inj.1 (htake.symm.trans htake'))
      exact ih _ hafter.symm h'

/-- A text has one prefix that leaves off at a word its place does not take. -/
theorem Path.unique (h : Path place pre s q r) (h' : Path place pre s' q' r') (heq : s ++ d = s' ++ d')
    (hd : Apart s d) (hd' : Apart s' d') (hstop : q.take r (firstWord d) = none)
    (hstop' : q'.take r' (firstWord d') = none) : q = q' ∧ r = r' ∧ d = d' := by
  induction h generalizing s' with
  | nil place pre =>
    cases h' with
    | nil => exact ⟨rfl, rfl, heq⟩
    | word hw htake hsep hne h =>
      obtain ⟨hfirst, -, -⟩ := Path.split hw hsep hne h hd'
      rw [List.nil_append] at heq
      rw [heq, hfirst, htake] at hstop
      cases hstop
  | @word place place₁ q pre pre₁ r w sep s hw htake hsep hne h ih =>
    obtain ⟨hfirst, hafter, happ⟩ := Path.split hw hsep hne h hd
    cases h' with
    | nil =>
      rw [List.nil_append] at heq
      rw [← heq, hfirst, htake] at hstop'
      cases hstop'
    | word hw' htake' hsep' hne' h' =>
      obtain ⟨hfirst', hafter', happ'⟩ := Path.split hw' hsep' hne' h' hd'
      rw [heq, hfirst'] at hfirst
      rw [heq, hafter'] at hafter
      subst hfirst
      obtain ⟨rfl, rfl⟩ := Prod.mk.inj (Option.some_inj.1 (htake.symm.trans htake'))
      exact ih h' hafter.symm happ happ' hstop

end Path

/-! ## Lines and drafts -/

theorem Alternating.next {c : Chunk} {cs : List Chunk} (h : Alternating (c :: cs)) :
    textOf cs = [] ∨ (textOf cs).head?.any isWs = !c.isWs := by
  cases cs with
  | nil => exact .inl rfl
  | cons d ds =>
    have hd := h.uniform d (by simp)
    have hne : c.isWs ≠ d.isWs := (List.isChain_cons_cons.1 h.alternate).1
    refine .inr ?_
    rw [textOf_cons, List.head?_append_of_ne_nil _ hd.nonempty, hd.head]
    cases hc : c.isWs with
    | true => cases hd : d.isWs <;> simp_all
    | false => cases hd : d.isWs <;> simp_all

theorem wordOf_eq {cs : List Chunk} (h : Alternating cs) : wordOf cs = firstWord (textOf cs) := by
  cases cs with
  | nil => rfl
  | cons c cs =>
    have huni := h.uniform c (List.mem_cons_self ..)
    rw [wordOf, textOf_cons]
    cases hc : c.isWs with
    | true =>
      obtain ⟨x, text, htext⟩ := List.exists_cons_of_ne_nil huni.nonempty
      have hx : isWs x = true := (huni.same x (by rw [htext]; simp)).trans hc
      rw [htext, firstWord, List.cons_append, List.takeWhile_cons_of_neg (by simp [hx])]
      rfl
    | false =>
      have hnext := h.next
      rw [hc] at hnext
      exact (firstWord_append (fun x hx => (huni.same x hx).trans hc) hnext).symm

/-- The words taken from chunks are a path through their text. -/
theorem ChunkPath.path {place q : Place} {pre r : Prefix} {cs ds : List Chunk}
    (h : ChunkPath place pre cs q r ds) (halt : Alternating cs) :
    ∃ s, textOf cs = s ++ textOf ds ∧ Path place pre s q r ∧ Apart s (textOf ds) ∧
      q.take r (firstWord (textOf ds)) = none := by
  induction h with
  | stop h =>
    rw [wordOf_eq halt] at h
    exact ⟨[], rfl, .nil _ _, .inl rfl, h⟩
  | @take place place' q pre pre' pre'' cs ds htake hrest ih =>
    cases cs with
    | nil =>
      rw [show wordOf [] = [] from rfl, Place.take_nil] at htake
      cases htake
    | cons c cs =>
      cases hc : c.isWs with
      | true =>
        rw [wordOf, hc, if_pos rfl, Place.take_nil] at htake
        cases htake
      | false =>
        rw [wordOf, hc, if_neg Bool.false_ne_true] at htake
        have huni := halt.uniform c (List.mem_cons_self ..)
        have hw : IsRun c.text := ⟨huni.nonempty, fun x hx => (huni.same x hx).trans hc⟩
        have hcs : Alternating cs := (show Alternating ([c] ++ cs) from halt).of_append.2
        cases cs with
        | nil =>
          obtain ⟨s, hs, hpath, happ, hstop⟩ := ih hcs
          obtain ⟨hnil, hds⟩ := List.append_eq_nil_iff.1 (show [] = s ++ textOf ds from hs).symm
          refine ⟨c.text ++ ([] ++ s), ?_, .word hw htake (by simp) (fun h => absurd hnil h) hpath, ?_,
            hstop⟩
          · rw [hds, hnil]
            simp
          · exact .inr (.inl hds)
        | cons d cs =>
          have hd := hcs.uniform d (List.mem_cons_self ..)
          have hwsd : d.isWs = true := by
            have hne : c.isWs ≠ d.isWs := (List.isChain_cons_cons.1 halt.alternate).1
            rw [hc] at hne
            simpa using hne.symm
          have hsep : ∀ x ∈ d.text, isWs x = true := fun x hx => (hd.same x hx).trans hwsd
          obtain ⟨s, hs, hpath, happ, hstop⟩ := ih (show Alternating ([d] ++ cs) from hcs).of_append.2
          have hrest : textOf cs = s ++ textOf ds := hs
          have hnext := hcs.next
          rw [hrest, hwsd] at hnext
          refine ⟨c.text ++ (d.text ++ s), ?_, .word hw htake hsep (fun _ => hd.nonempty) hpath, ?_, hstop⟩
          · rw [textOf_cons, textOf_cons, hrest]
            simp only [List.append_assoc]
          · rcases happ with rfl | hnil | ⟨hlast, hhead⟩
            · rcases hnext with hnil | hhead
              · exact .inr (.inl hnil)
              · refine .inr (.inr ⟨?_, hhead⟩)
                rw [List.append_nil, List.getLast?_append_of_ne_nil _ hd.nonempty, hd.getLast, hwsd]
            · exact .inr (.inl hnil)
            · have hne : s ≠ [] := by
                rintro rfl
                cases hlast
              refine .inr (.inr ⟨?_, hhead⟩)
              rwa [List.getLast?_append_of_ne_nil _ (by simp [hne]), List.getLast?_append_of_ne_nil _ hne]

/-- How a line is read: the prefix up to a place, the rest its description. -/
structure ReadAs (raw : Text) (q : Place) (front : Text) (d : Draft) : Prop where
  text : raw = front ++ d.description
  path : Path .start Prefix.empty front q d.pre
  apart : Apart front d.description
  stop : q.take d.pre (firstWord d.description) = none

/-- Every line is read as its draft. -/
theorem draftOf_readAs (raw : Text) : ∃ q front, ReadAs raw q front (draftOf raw) := by
  obtain ⟨q, ds, hchunks, hdescription⟩ := draftOf_chunkPath raw
  obtain ⟨front, htext, hpath, happ, hstop⟩ := hchunks.path (alternating_chunksFrom 0 raw)
  rw [← hdescription] at htext happ hstop
  exact ⟨q, front, (textOf_chunksFrom 0 raw).symm.trans htext, hpath, happ, hstop⟩

/-- Text behind a prefix is its description when it stands apart and its first word is not taken. -/
theorem draftOf_append_iff {front d : Text} {q : Place} {pre : Prefix}
    (h : Path .start Prefix.empty front q pre) :
    draftOf (front ++ d) = ⟨pre, d⟩ ↔ Apart front d ∧ q.take pre (firstWord d) = none := by
  obtain ⟨q', front', hread⟩ := draftOf_readAs (front ++ d)
  constructor
  · intro heq
    rw [heq] at hread
    have hfront : front = front' := List.append_cancel_right hread.text
    subst hfront
    obtain ⟨rfl, -⟩ := h.det hread.path
    exact ⟨hread.apart, hread.stop⟩
  · rintro ⟨happ, hstop⟩
    obtain ⟨-, hpre, hd⟩ := h.unique hread.path hread.text happ hread.apart hstop hread.stop
    show (⟨(draftOf (front ++ d)).pre, (draftOf (front ++ d)).description⟩ : Draft) = ⟨pre, d⟩
    rw [← hpre, ← hd]

section Path
variable {place q : Place} {pre r : Prefix} {s : Text}

/-- More separator may follow the last word. -/
theorem Path.pad (h : Path place pre s q r) (hne : s ≠ []) {sep : Text}
    (hsep : ∀ c ∈ sep, isWs c = true) : Path place pre (s ++ sep) q r := by
  induction h with
  | nil => exact absurd rfl hne
  | @word place place' q pre pre' r w gap s hw htake hgap hs h ih =>
    by_cases hnil : s = []
    · subst hnil
      have hall : ∀ c ∈ gap ++ sep, isWs c = true := List.forall_mem_append.2 ⟨hgap, hsep⟩
      have hpath := Path.word hw htake hall (fun hnil => absurd rfl hnil) h
      rw [List.append_nil] at hpath ⊢
      rwa [List.append_assoc]
    · rw [List.append_assoc, List.append_assoc]
      exact .word hw htake hgap (fun _ => hs hnil) (ih hnil)

theorem trimEndWs_append_ws {s sep : Text} (hsep : ∀ c ∈ sep, isWs c = true) :
    trimEndWs (s ++ sep) = trimEndWs s := by
  rw [trimEndWs, List.reverse_append, List.dropWhile_append_of_pos fun c hc =>
    hsep c (List.mem_reverse.1 hc)]
  rfl

theorem trimEndWs_of_last {s : Text} (h : s.getLast?.any isWs = false) : trimEndWs s = s := by
  rw [trimEndWs]
  cases hs : s.reverse with
  | nil => rw [List.dropWhile_nil, ← hs, List.reverse_reverse]
  | cons c rest =>
    rw [List.dropWhile_cons_of_neg, ← hs, List.reverse_reverse]
    rw [List.getLast?_eq_head?_reverse, hs] at h
    simpa using h

theorem trimEndWs_append {s t : Text} (h : trimEndWs t ≠ []) : trimEndWs (s ++ t) = s ++ trimEndWs t := by
  have hne : t.reverse.dropWhile isWs ≠ [] := fun hnil => h (by rw [trimEndWs, hnil]; rfl)
  rw [trimEndWs, List.reverse_append, List.dropWhile_append, if_neg (by simpa using hne),
    List.reverse_append, List.reverse_reverse]
  rfl

/-- The last separator may be left off. -/
theorem Path.trim (h : Path place pre s q r) : Path place pre (trimEndWs s) q r ∧
    (s ≠ [] → trimEndWs s ≠ []) := by
  induction h with
  | nil place pre => exact ⟨.nil place pre, fun h => absurd rfl h⟩
  | @word place place' q pre pre' r w sep s hw htake hsep hs h ih =>
    have hlast : w.getLast?.any isWs = false := by
      rw [List.getLast?_eq_getLast_of_ne_nil hw.1, Option.any_some]
      exact hw.2 _ (List.getLast_mem hw.1)
    by_cases hnil : s = []
    · subst hnil
      rw [List.append_nil, trimEndWs_append_ws hsep, trimEndWs_of_last hlast]
      refine ⟨?_, fun _ => hw.1⟩
      have hpath : Path place pre (w ++ ([] ++ [])) q r :=
        .word hw htake (by simp) (fun hnil => absurd rfl hnil) h
      rwa [List.append_nil, List.append_nil] at hpath
    · have hne := ih.2 hnil
      have htrim : trimEndWs (w ++ (sep ++ s)) = w ++ (sep ++ trimEndWs s) := by
        rw [← List.append_assoc, trimEndWs_append hne, List.append_assoc]
      rw [htrim]
      refine ⟨.word hw htake hsep (fun _ => hs hnil) ih.1, fun _ hempty => hw.1 ?_⟩
      exact (List.append_eq_nil_iff.1 hempty).1

/-- The place after a path is found by taking its words. -/
theorem Path.foldl_take (h : Path place pre s q r) (start : Nat) :
    (((chunksFrom start s).filter (!·.isWs)).map (·.text)).foldl
      (fun r w => (r.1.take r.2 w).getD r) (place, pre) = (q, r) := by
  induction h generalizing start with
  | nil => rfl
  | @word place place' q pre pre' r w sep s hw htake hsep hs h ih =>
    cases sep with
    | nil =>
      have hnil : s = [] := not_not.1 fun h => hs h rfl
      subst hnil
      obtain ⟨next, hnext⟩ := chunksFrom_run hw [] (by simp) start
      have hrest := ih next
      rw [List.append_nil, List.append_nil] at *
      rw [hnext, List.filter_cons_of_pos rfl, List.map_cons, List.foldl_cons, htake]
      exact hrest
    | cons c sep =>
      have hc : isWs c = true := hsep c (List.mem_cons_self ..)
      obtain ⟨next, hnext⟩ := chunksFrom_run hw (c :: sep ++ s) (by simpa using hc) start
      have hhead : ∀ x ∈ s.head?, isWs x = !true := by
        have hs := h.head
        intro x hx
        rw [Option.mem_def.1 hx] at hs
        exact hs
      obtain ⟨after, hafter⟩ := chunksFrom_uniform (by simp) hsep s hhead next
      rw [hnext, hafter, List.filter_cons_of_pos rfl, List.filter_cons_of_neg (by simp), List.map_cons,
        List.foldl_cons, htake]
      exact ih after

theorem Path.placeAfter (h : Path .start Prefix.empty s q r) : placeAfter s = q :=
  congrArg Prod.fst (h.foldl_take 0)

end Path

end Txtodo
