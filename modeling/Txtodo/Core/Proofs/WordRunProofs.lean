import Txtodo.Core.Proofs.WordReadingProofs
import Txtodo.Core.Proofs.ParseProofs

/-!
# The parser on words

A line of words with one space between them is scanned into these words; the parser, in either mode, is
run on them.
-/

namespace Txtodo.Grammar

/-! ## Chunks of words -/

/-- Chunks that are the words `ws`, one space between them. -/
inductive Spaced : List Chunk → List Text → Prop where
  | nil : Spaced [] []
  | last (start : Nat) {w : Text} (hw : w ≠ []) : Spaced [⟨start, w, false⟩] [w]
  | cons (start space : Nat) {w v : Text} {cs : List Chunk} {ws : List Text} (hw : w ≠ [])
      (h : Spaced cs (v :: ws)) :
      Spaced (⟨start, w, false⟩ :: ⟨space, [' '], true⟩ :: cs) (w :: v :: ws)

theorem chunksFrom_cons_isWs (start : Nat) (c : Char) (s : Text) :
    ∃ k ks, chunksFrom start (c :: s) = k :: ks ∧ k.isWs = isWs c := by
  rw [chunksFrom]
  split
  · exact ⟨_, _, rfl, rfl⟩
  · split_ifs with hsame
    · exact ⟨_, _, rfl, hsame⟩
    · exact ⟨_, _, rfl, rfl⟩

/-- Characters of one class, in front of one of the other or of nothing, are a chunk. -/
theorem chunksFrom_uniform {s : Text} {ws : Bool} (hne : s ≠ []) (hall : ∀ c ∈ s, isWs c = ws)
    (rest : Text) (hrest : ∀ c ∈ rest.head?, isWs c = !ws) (start : Nat) :
    ∃ next, chunksFrom start (s ++ rest) = ⟨start, s, ws⟩ :: chunksFrom next rest := by
  induction s generalizing start with
  | nil => exact absurd rfl hne
  | cons c s ih =>
    have hc : isWs c = ws := hall c (List.mem_cons_self ..)
    cases s with
    | nil =>
      refine ⟨start + (Utf8.encodeChar c).length, ?_⟩
      rw [List.singleton_append, chunksFrom, hc]
      cases rest with
      | nil => rfl
      | cons d rest =>
        obtain ⟨k, ks, hk, hsame⟩ :=
          chunksFrom_cons_isWs (start + (Utf8.encodeChar c).length) d rest
        rw [hk]
        dsimp only
        rw [hsame, hrest d rfl, if_neg (by cases ws <;> decide)]
    | cons d s =>
      obtain ⟨next, hnext⟩ := ih (by simp) (fun x hx => hall x (List.mem_cons_of_mem _ hx))
        (start + (Utf8.encodeChar c).length)
      refine ⟨next, ?_⟩
      rw [List.cons_append, chunksFrom, hnext, hc]
      exact if_pos rfl

/-- A word in front of a space or of nothing is a chunk. -/
theorem chunksFrom_run {w : Text} (hw : IsRun w) (rest : Text)
    (hrest : ∀ c ∈ rest.head?, isWs c = true) (start : Nat) :
    ∃ next, chunksFrom start (w ++ rest) = ⟨start, w, false⟩ :: chunksFrom next rest :=
  chunksFrom_uniform hw.1 hw.2 rest hrest start

/-- The scanner finds the words. -/
theorem Spaced.chunksFrom {ws : List Text} (hws : ∀ w ∈ ws, IsRun w) (start : Nat) :
    Spaced (chunksFrom start (joined ws)) ws := by
  induction ws generalizing start with
  | nil => exact .nil
  | cons w ws ih =>
    obtain ⟨hw, hws⟩ := List.forall_mem_cons.1 hws
    obtain ⟨next, hnext⟩ := chunksFrom_run hw (spaced ws) (spaced_head ws) start
    rw [joined_cons, hnext]
    cases ws with
    | nil => exact .last start hw.1
    | cons v ws =>
      obtain ⟨hv, -⟩ := List.forall_mem_cons.1 hws
      obtain ⟨c, v', rfl⟩ := List.exists_cons_of_ne_nil hv.1
      have hc : isWs c = false := hv.2 c (List.mem_cons_self ..)
      obtain ⟨k, ks, hk, hsame⟩ := chunksFrom_cons_isWs (next + (Utf8.encodeChar ' ').length) c
        (v' ++ spaced ws)
      have hspace : Txtodo.chunksFrom next (spaced ((c :: v') :: ws)) =
          ⟨next, [' '], true⟩ :: Txtodo.chunksFrom (next + (Utf8.encodeChar ' ').length)
            (joined ((c :: v') :: ws)) := by
        rw [spaced_cons, joined_cons, List.cons_append, Txtodo.chunksFrom, hk]
        dsimp only
        rw [hsame, hc]
        rfl
      rw [hspace]
      exact .cons start next hw.1 (ih hws _)

/-- The words are those of the chunks. -/
theorem Spaced.words {cs : List Chunk} {ws : List Text} (h : Spaced cs ws) :
    (cs.filter fun c => !c.isWs).map (·.text) = ws := by
  induction h with
  | nil => rfl
  | last => rfl
  | cons start space hw h ih => exact congrArg (_ :: ·) ih

theorem Spaced.textOf {cs : List Chunk} {ws : List Text} (h : Spaced cs ws) :
    textOf cs = joined ws := by
  induction h with
  | nil => rfl
  | last start hw => simp [joined_cons]
  | cons start space hw h ih => rw [textOf_cons, textOf_cons, ih, joined_cons]; rfl

/-- A line is joined from one list of words only. -/
theorem joined_injective {ws vs : List Text} (hws : ∀ w ∈ ws, IsRun w) (hvs : ∀ v ∈ vs, IsRun v)
    (h : joined ws = joined vs) : ws = vs := by
  have hw := (Spaced.chunksFrom hws 0).words
  rw [h, (Spaced.chunksFrom hvs 0).words] at hw
  exact hw.symm

/-! ## Running the parser -/

theorem run_bind_ok {α β : Type} {m : ParseM α} {f : α → ParseM β} {p p' : Parser} {a : α}
    (h : m.run p = .ok (a, p')) : (m >>= f).run p = (f a).run p' := by
  rw [StateT.run_bind, h]
  rfl

theorem run_bind_error {α β : Type} {m : ParseM α} {f : α → ParseM β} {p : Parser} {e : ParseError}
    (h : m.run p = .error e) : (m >>= f).run p = .error e := by
  rw [StateT.run_bind, h]
  rfl

/-- The chunks after a word: nothing, or a space and the words `ws`. -/
inductive After : List Chunk → List Text → Prop where
  | nil : After [] []
  | space (space : Nat) {cs : List Chunk} {v : Text} {ws : List Text} (h : Spaced cs (v :: ws)) :
      After (⟨space, [' '], true⟩ :: cs) (v :: ws)

theorem Spaced.word {cs : List Chunk} {w : Text} {ws : List Text} (h : Spaced cs (w :: ws)) :
    ∃ start rest, cs = ⟨start, w, false⟩ :: rest ∧ After rest ws := by
  cases h with
  | last start => exact ⟨start, [], rfl, .nil⟩
  | cons start space _ h => exact ⟨start, _, rfl, .space space h⟩

section Run
variable (raw : Text) (mode : Mode) (quirks : Quirks) {w : Text} {cs rest : List Chunk} {ws : List Text}
  {start : Nat}

theorem separator_run (h : After rest ws) :
    ∃ cs, separator.run ⟨raw, rest, mode, quirks⟩ =
      .ok (!ws.isEmpty, ⟨raw, cs, mode, quirks⟩) ∧ Spaced cs ws := by
  cases h with
  | nil => exact ⟨[], rfl, .nil⟩
  | space space h =>
    obtain ⟨start, rest, rfl, hrest⟩ := h.word
    exact ⟨_, rfl, h⟩

theorem takeDate_run_date {date : Date} (h : IsDate w date) :
    takeDate.run ⟨raw, ⟨start, w, false⟩ :: rest, mode, quirks⟩ =
      .ok (some date, ⟨raw, rest, mode, quirks⟩) := by
  have hparse := parse_date_iff.2 h
  rw [takeDate, StateT.run_bind, StateT.run_get, pure_bind]
  simp only [Parser.word, Bool.false_eq_true, if_false]
  rw [hparse]
  rfl

theorem takeDate_run_other (h : ∀ date, ¬IsDate w date)
    (hshape : ¬∃ year month day, DateShape w year month day) :
    takeDate.run ⟨raw, ⟨start, w, false⟩ :: rest, mode, quirks⟩ =
      .ok (none, ⟨raw, ⟨start, w, false⟩ :: rest, mode, quirks⟩) := by
  have hparse : Date.parse w = none :=
    Option.eq_none_iff_forall_ne_some.2 fun date hdate => h date (parse_date_iff.1 hdate)
  have hshape : hasDateShape w = false :=
    Bool.eq_false_iff.2 fun htrue => hshape (hasDateShape_iff.1 htrue)
  rw [takeDate, StateT.run_bind, StateT.run_get, pure_bind]
  simp only [Parser.word, Bool.false_eq_true, if_false]
  rw [hparse]
  simp only [hshape, Bool.false_eq_true, and_false, if_false]
  rfl

theorem takePriority_run_priority {t : Task} {priority : Priority} (h : IsPriority w priority)
    (hrest : After rest ws) :
    ∃ cs, (takePriority t).run ⟨raw, ⟨start, w, false⟩ :: rest, mode, quirks⟩ =
      .ok (({ t with priority := some priority }, true), ⟨raw, cs, mode, quirks⟩) ∧
        Spaced cs ws := by
  obtain ⟨cs, hrun, hcs⟩ := separator_run raw mode quirks hrest
  refine ⟨cs, ?_, hcs⟩
  have hnew : Priority.new priority.letter = some priority := dif_pos priority.upper
  rw [IsPriority] at h
  subst h
  rw [takePriority, StateT.run_bind, StateT.run_get, pure_bind]
  simp only [Parser.word, Bool.false_eq_true, if_false, hnew]
  exact (run_bind_ok rfl).trans (run_bind_ok hrun)

theorem takePriority_run_other {t : Task} (h : ∀ priority, ¬IsPriority w priority) :
    (takePriority t).run ⟨raw, ⟨start, w, false⟩ :: rest, mode, quirks⟩ =
      .ok ((t, false), ⟨raw, ⟨start, w, false⟩ :: rest, mode, quirks⟩) := by
  rw [takePriority, StateT.run_bind, StateT.run_get, pure_bind]
  simp only [Parser.word, Bool.false_eq_true, if_false]
  split
  · split
    · rename_i letter hw _ priority hnew
      obtain rfl : w = _ := Option.some_inj.1 hw
      have hletter : priority.letter = letter := by
        unfold Priority.new at hnew
        split_ifs at hnew
        rw [← Option.some_inj.1 hnew]
      exact absurd (by rw [IsPriority, hletter]) (h priority)
    · rfl
  · rfl

/-- Words with one space between them pass the separator checks. -/
theorem checkSeparators_run (first : Bool) (at_ : Nat) (h : Spaced cs ws) (p : Parser) :
    (checkSeparators at_ first cs).run p = .ok ((), p) := by
  induction h generalizing first with
  | nil => rfl
  | last start hw => rfl
  | cons start space hw h ih =>
    obtain ⟨start', rest, rfl, hrest⟩ := h.word
    exact ih false

theorem description_run (h : Spaced cs ws) :
    description.run ⟨raw, cs, mode, quirks⟩ = .ok (joined ws, ⟨raw, cs, mode, quirks⟩) := by
  rw [Txtodo.description, StateT.run_bind, StateT.run_get, pure_bind,
    run_bind_ok (checkSeparators_run _ _ h _), ← h.textOf]
  rfl

theorem takeOptionalDate_run {t : Task} (ht : t.creationDate = none) {creation : Option Date}
    {vs : List Text} (hcs : Spaced cs ws) (h : CreationRead ws creation vs) :
    ∃ cs', (takeOptionalDate t).run ⟨raw, cs, mode, quirks⟩ =
      .ok ({ t with creationDate := creation }, ⟨raw, cs', mode, quirks⟩) ∧ Spaced cs' vs := by
  have hsame : { t with creationDate := none } = t := by rw [← ht]
  cases h with
  | nil =>
    cases hcs
    rw [hsame]
    exact ⟨[], rfl, .nil⟩
  | date h =>
    obtain ⟨start, rest, rfl, hrest⟩ := hcs.word
    obtain ⟨cs', hsep, hcs'⟩ := separator_run raw mode quirks hrest
    refine ⟨cs', ?_, hcs'⟩
    rw [takeOptionalDate, run_bind_ok (takeDate_run_date raw mode quirks h)]
    dsimp only
    rw [run_bind_ok hsep]
    rfl
  | other h hshape =>
    rw [hsame]
    refine ⟨cs, ?_, hcs⟩
    obtain ⟨start, rest, rfl, hrest⟩ := hcs.word
    rw [takeOptionalDate, run_bind_ok (takeDate_run_other raw mode quirks h hshape)]
    rfl

/-- The prefix of a task. -/
def taskPrefix (p : Parser) : ParseM Task :=
  if p.startsCompleted then do
    modify Parser.advance
    completedPrefix { Task.empty with completed := true }
  else incompletePrefix Task.empty

theorem parseTask_run_eq (p : Parser) : parseTask.run p = (taskPrefix p >>= fun t =>
    description >>= fun d => pure { t with description := d }).run p := by
  rw [parseTask, StateT.run_bind, StateT.run_get, pure_bind, taskPrefix]
  dsimp only
  split_ifs
  · rw [bind_assoc]
  · rfl

theorem takePriority_run {t : Task} (ht : t.priority = none) {priority : Option Priority}
    {us : List Text} (hcs : Spaced cs ws) (h : PriorityRead ws priority us) :
    ∃ cs', (takePriority t).run ⟨raw, cs, mode, quirks⟩ =
      .ok (({ t with priority := priority }, priority.isSome), ⟨raw, cs', mode, quirks⟩) ∧
        Spaced cs' us := by
  have hsame : { t with priority := none } = t := by rw [← ht]
  cases h with
  | nil =>
    cases hcs
    rw [hsame]
    exact ⟨[], rfl, .nil⟩
  | priority h =>
    obtain ⟨start, rest, rfl, hrest⟩ := hcs.word
    exact takePriority_run_priority raw mode quirks h hrest
  | other h =>
    rw [hsame]
    obtain ⟨start, rest, rfl, -⟩ := hcs.word
    exact ⟨_, takePriority_run_other raw mode quirks h, hcs⟩

/-- An open line: an optional priority, an optional creation date. -/
theorem incompletePrefix_run {priority : Option Priority} {creation : Option Date}
    {us vs : List Text} (hcs : Spaced cs ws) (h : PriorityRead ws priority us)
    (hread : CreationRead us creation vs) :
    ∃ cs', (incompletePrefix Task.empty).run ⟨raw, cs, mode, quirks⟩ =
      .ok (⟨false, none, creation, priority, []⟩, ⟨raw, cs', mode, quirks⟩) ∧ Spaced cs' vs := by
  obtain ⟨cs₁, hrun, hcs₁⟩ := takePriority_run raw mode quirks (t := Task.empty) rfl hcs h
  obtain ⟨cs₂, hdate, hcs₂⟩ := takeOptionalDate_run raw mode quirks
    (t := { Task.empty with priority := priority }) rfl hcs₁ hread
  exact ⟨cs₂, (run_bind_ok hrun).trans hdate, hcs₂⟩

/-- What is left after the prefix is the description. -/
theorem parseTask_run_of_fields {t : Task} {vs : List Text} {p : Parser} {quirks' : Quirks}
    (hcs : Spaced cs vs) (h : (taskPrefix p).run p = .ok (t, ⟨raw, cs, mode, quirks'⟩)) :
    parseTask.run p = .ok ({ t with description := joined vs }, ⟨raw, cs, mode, quirks'⟩) := by
  rw [parseTask_run_eq, run_bind_ok h, run_bind_ok (description_run raw mode quirks' hcs)]
  rfl

/-! ### Lenient mode -/

theorem startsCompleted_lenient (hcs : Spaced cs ws) :
    Parser.startsCompleted ⟨raw, cs, .lenient, quirks⟩ = true ↔ ws.head? = some ['x'] := by
  cases hcs <;> simp [Parser.startsCompleted, Parser.word]

theorem takePriorityLenient_run_eq (t : Task) (quirk : Quirks) :
    (takePriorityLenient t quirk).run ⟨raw, cs, .lenient, quirks⟩ =
      (takePriority t >>= fun r => if r.2 then insertQuirk quirk >>= fun _ => pure r.1
        else pure r.1).run ⟨raw, cs, .lenient, quirks⟩ := by
  rw [takePriorityLenient, StateT.run_bind, StateT.run_get, pure_bind]

theorem takePriorityLenient_run_lenient {t : Task} (ht : t.priority = none) (quirk : Quirks)
    {priority : Option Priority} {us : List Text} (hcs : Spaced cs ws)
    (h : PriorityRead ws priority us) :
    ∃ cs', (takePriorityLenient t quirk).run ⟨raw, cs, .lenient, quirks⟩ =
      .ok ({ t with priority := priority },
        ⟨raw, cs', .lenient, if priority.isSome then quirks.insert quirk else quirks⟩) ∧
          Spaced cs' us := by
  obtain ⟨cs', hrun, hcs'⟩ := takePriority_run raw .lenient quirks ht hcs h
  have hfirst := (takePriorityLenient_run_eq raw quirks t quirk).trans (run_bind_ok hrun)
  cases priority with
  | none => exact ⟨cs', hfirst, hcs'⟩
  | some priority => exact ⟨cs', hfirst, hcs'⟩

/-- After `x`: the completion date, an optional creation date, and a priority after the dates. -/
theorem completedPrefix_run_lenient {t : Task} (htc : t.creationDate = none) (htp : t.priority = none)
    {completion : Date} {creation : Option Date} {priority : Option Priority} {us vs ds : List Text}
    (space : Nat) (h : IsDate w completion) (hrest : After rest us) (hread : CreationRead us creation vs)
    (hpriority : PriorityRead vs priority ds) :
    ∃ cs', (completedPrefix t).run
      ⟨raw, ⟨space, [' '], true⟩ :: ⟨start, w, false⟩ :: rest, .lenient, quirks⟩ =
        .ok ({ t with completionDate := some completion, creationDate := creation, priority := priority },
          ⟨raw, cs', .lenient,
            if priority.isSome then quirks.insert Quirks.PRIORITY_AFTER_DATE else quirks⟩) ∧
          Spaced cs' ds := by
  obtain ⟨cs₁, hsep, hcs₁⟩ := separator_run raw .lenient quirks hrest
  obtain ⟨cs₂, hcreation, hcs₂⟩ := takeOptionalDate_run raw .lenient quirks
    (t := { t with completionDate := some completion }) htc hcs₁ hread
  obtain ⟨cs₃, hlast, hcs₃⟩ := takePriorityLenient_run_lenient raw quirks
    (t := { t with completionDate := some completion, creationDate := creation }) htp
    Quirks.PRIORITY_AFTER_DATE hcs₂ hpriority
  refine ⟨cs₃, ?_, hcs₃⟩
  have hspace : separator.run
      ⟨raw, ⟨space, [' '], true⟩ :: ⟨start, w, false⟩ :: rest, .lenient, quirks⟩ =
        .ok (true, ⟨raw, ⟨start, w, false⟩ :: rest, .lenient, quirks⟩) := rfl
  have hnone : (takePriorityLenient t Quirks.PRIORITY_AFTER_X).run
      ⟨raw, ⟨start, w, false⟩ :: rest, .lenient, quirks⟩ =
        .ok (t, ⟨raw, ⟨start, w, false⟩ :: rest, .lenient, quirks⟩) :=
    (takePriorityLenient_run_eq raw quirks _ _).trans (run_bind_ok
      (takePriority_run_other raw .lenient quirks fun priority hp => hp.not_date _ h))
  rw [completedPrefix, run_bind_ok hspace]
  simp only [Bool.not_true, Bool.false_eq_true, if_false]
  rw [run_bind_ok hnone, run_bind_ok (takeDate_run_date raw .lenient quirks h)]
  dsimp only
  rw [run_bind_ok hsep]
  obtain ⟨completed, completionDate, creationDate, tp, description⟩ := t
  dsimp only at htc htp
  subst htc htp
  cases us with
  | nil =>
    cases hread
    cases hcs₁
    cases hcreation
    exact hlast
  | cons u us => exact (run_bind_ok hcreation).trans hlast

theorem taskPrefix_run_completed {completion : Date} {creation : Option Date}
    {priority : Option Priority} {us vs ds : List Text} (hcs : Spaced cs (['x'] :: w :: us))
    (h : IsDate w completion) (hread : CreationRead us creation vs)
    (hpriority : PriorityRead vs priority ds) :
    ∃ cs', (taskPrefix ⟨raw, cs, .lenient, quirks⟩).run ⟨raw, cs, .lenient, quirks⟩ =
      .ok (⟨true, some completion, creation, priority, []⟩, ⟨raw, cs', .lenient,
        if priority.isSome then quirks.insert Quirks.PRIORITY_AFTER_DATE else quirks⟩) ∧
          Spaced cs' ds := by
  have hmark := (startsCompleted_lenient raw quirks hcs).2 rfl
  unfold taskPrefix
  rw [if_pos hmark]
  cases hcs with
  | cons start space _ hcs =>
    obtain ⟨start', rest, rfl, hrest⟩ := hcs.word
    obtain ⟨cs', hrun, hcs'⟩ := completedPrefix_run_lenient raw quirks
      (t := { Task.empty with completed := true }) rfl rfl space h hrest hread hpriority
    exact ⟨cs', (run_bind_ok rfl).trans hrun, hcs'⟩

end Run

end Txtodo.Grammar
