import Txtodo.Core.Proofs.WordRunProofs

/-!
# The strict parser and the grammar

The strict parser reads a line as its words with one space between them, as the grammar does; it is run
on the words and compared with the derivations word by word.
-/

namespace Txtodo.Grammar

/-! ## The strict parser on words -/

section Run
variable (raw : Text) (quirks : Quirks) {w : Text} {cs rest : List Chunk} {ws : List Text} {start : Nat}

theorem takeDate_run_impossible (h : ∀ date, ¬IsDate w date)
    (hshape : ∃ year month day, DateShape w year month day) :
    ∃ e, takeDate.run ⟨raw, ⟨start, w, false⟩ :: rest, .strict, quirks⟩ = .error e := by
  have hparse : Date.parse w = none :=
    Option.eq_none_iff_forall_ne_some.2 fun date hdate => h date (parse_date_iff.1 hdate)
  refine ⟨⟨"date".toList, start, "not a calendar date".toList⟩, ?_⟩
  rw [takeDate, StateT.run_bind, StateT.run_get, pure_bind]
  simp only [Parser.word, Bool.false_eq_true, if_false]
  rw [hparse]
  simp only [hasDateShape_iff.2 hshape, and_self, if_true]
  rfl

theorem takeOptionalDate_run_impossible (t : Task) (hcs : Spaced cs ws) (h : ImpossibleHead ws) :
    ∃ e, (takeOptionalDate t).run ⟨raw, cs, .strict, quirks⟩ = .error e := by
  obtain ⟨w, hw, hnone, hshape⟩ := h
  cases ws with
  | nil => cases hw
  | cons v ws =>
    cases hw
    obtain ⟨start, rest, rfl, -⟩ := hcs.word
    obtain ⟨e, hrun⟩ := takeDate_run_impossible raw quirks hnone hshape
    exact ⟨e, run_bind_error hrun⟩

theorem startsCompleted_iff (hcs : Spaced cs ws) :
    Parser.startsCompleted ⟨raw, cs, .strict, quirks⟩ = true ↔
      ∃ w vs date, ws = ['x'] :: w :: vs ∧ IsDate w date := by
  cases hcs with
  | nil => simp [Parser.startsCompleted, Parser.word]
  | last start hw => simp [Parser.startsCompleted, Parser.word]
  | cons start space hw h =>
    obtain ⟨start', rest, rfl, -⟩ := h.word
    simp [Parser.startsCompleted, Parser.word, Option.isSome_iff_exists, parse_date_iff]

theorem takePriorityLenient_run (t : Task) (quirk : Quirks) :
    (takePriorityLenient t quirk).run ⟨raw, cs, .strict, quirks⟩ =
      .ok (t, ⟨raw, cs, .strict, quirks⟩) := rfl

/-- After the completion date comes an optional creation date. -/
theorem completedPrefix_run (t : Task) {completion : Date} (space : Nat) (h : IsDate w completion)
    (hrest : After rest ws) :
    ∃ cs, Spaced cs ws ∧ (completedPrefix t).run
      ⟨raw, ⟨space, [' '], true⟩ :: ⟨start, w, false⟩ :: rest, .strict, quirks⟩ =
        (takeOptionalDate { t with completionDate := some completion } >>= fun t =>
          if t.priority.isNone then takePriorityLenient t Quirks.PRIORITY_AFTER_DATE
          else pure t).run ⟨raw, cs, .strict, quirks⟩ := by
  obtain ⟨cs, hsep, hcs⟩ := separator_run raw .strict quirks hrest
  have hspace : separator.run
      ⟨raw, ⟨space, [' '], true⟩ :: ⟨start, w, false⟩ :: rest, .strict, quirks⟩ =
        .ok (true, ⟨raw, ⟨start, w, false⟩ :: rest, .strict, quirks⟩) := rfl
  refine ⟨cs, hcs, ?_⟩
  rw [completedPrefix, run_bind_ok hspace]
  simp only [Bool.not_true, Bool.false_eq_true, if_false]
  rw [run_bind_ok (takePriorityLenient_run raw quirks _ _), run_bind_ok (takeDate_run_date raw .strict quirks h)]
  dsimp only
  rw [run_bind_ok hsep]
  cases ws with
  | nil =>
    cases hcs
    rfl
  | cons v ws => rfl

/-- However the line starts, an optional creation date comes next, and nothing after it. -/
theorem taskPrefix_run {t : Task} {us : List Text} (hcs : Spaced cs ws) (h : StartsAs ws t us) :
    ∃ cs' last, Spaced cs' us ∧
      (∀ t cs, StateT.run (last t) ⟨raw, cs, .strict, quirks⟩ =
        .ok (t, ⟨raw, cs, .strict, quirks⟩)) ∧
      (taskPrefix ⟨raw, cs, .strict, quirks⟩).run ⟨raw, cs, .strict, quirks⟩ =
        (takeOptionalDate t >>= last).run ⟨raw, cs', .strict, quirks⟩ := by
  have hmark := startsCompleted_iff raw quirks hcs
  unfold taskPrefix
  cases h with
  | @completed w ws completion h =>
    rw [if_pos (hmark.2 ⟨_, _, _, rfl, h⟩)]
    cases hcs with
    | cons start space _ hcs =>
      obtain ⟨start', rest, rfl, hrest⟩ := hcs.word
      obtain ⟨cs', hcs', hrun⟩ := completedPrefix_run raw quirks
        { Task.empty with completed := true } space h hrest
      refine ⟨cs', _, hcs', ?_, (run_bind_ok rfl).trans hrun⟩
      intro t cs
      split_ifs <;> rfl
  | @priority w us priority h =>
    have hno : ¬Parser.startsCompleted ⟨raw, cs, .strict, quirks⟩ = true := by
      rw [hmark]
      rintro ⟨v, vs, date, hw, -⟩
      obtain ⟨rfl, -⟩ := List.cons.inj hw
      cases h
    rw [if_neg hno]
    obtain ⟨start, rest, rfl, hrest⟩ := hcs.word
    obtain ⟨cs', hrun, hcs'⟩ := takePriority_run_priority raw .strict quirks
      (t := Task.empty) h hrest
    refine ⟨cs', pure, hcs', fun _ _ => rfl, ?_⟩
    rw [bind_pure]
    exact run_bind_ok hrun
  | other hx hpriority =>
    have hno : ¬Parser.startsCompleted ⟨raw, cs, .strict, quirks⟩ = true := by
      rw [hmark]
      rintro ⟨v, vs, date, hw, hdate⟩
      exact hx _ _ _ hw hdate
    rw [if_neg hno]
    refine ⟨cs, pure, hcs, fun _ _ => rfl, ?_⟩
    rw [bind_pure]
    cases ws with
    | nil =>
      cases hcs
      rfl
    | cons v ws =>
      obtain ⟨start, rest, rfl, -⟩ := hcs.word
      exact run_bind_ok (takePriority_run_other raw .strict quirks fun priority => hpriority _ _ priority rfl)

/-- The words read as a task: how they start, the creation date's place, the description. -/
theorem parseTask_run {t : Task} {us vs : List Text} {creation : Option Date} (hcs : Spaced cs ws)
    (h : StartsAs ws t us) (hread : CreationRead us creation vs) :
    ∃ cs', parseTask.run ⟨raw, cs, .strict, quirks⟩ =
      .ok ({ t with creationDate := creation, description := joined vs }, ⟨raw, cs', .strict, quirks⟩) := by
  obtain ⟨cs₁, last, hcs₁, hlast, hpre⟩ := taskPrefix_run raw quirks hcs h
  obtain ⟨cs₂, hdate, hcs₂⟩ := takeOptionalDate_run raw .strict quirks
    h.creationDate hcs₁ hread
  have hfields := hpre.trans ((run_bind_ok hdate).trans (hlast _ cs₂))
  exact ⟨cs₂, parseTask_run_of_fields raw .strict hcs₂ hfields⟩

theorem parseTask_run_impossible {t : Task} {us : List Text} (hcs : Spaced cs ws)
    (h : StartsAs ws t us) (himpossible : ImpossibleHead us) :
    ∃ e, parseTask.run ⟨raw, cs, .strict, quirks⟩ = .error e := by
  obtain ⟨cs₁, last, hcs₁, -, hpre⟩ := taskPrefix_run raw quirks hcs h
  obtain ⟨e, herr⟩ := takeOptionalDate_run_impossible raw quirks t hcs₁
    himpossible
  refine ⟨e, ?_⟩
  rw [parseTask_run_eq]
  exact run_bind_error (hpre.trans (run_bind_error herr))

end Run

/-! ## What strict mode accepts -/

/-- Every separator is one space with something after it. -/
def SingleSpaces : List Chunk → Prop
  | [] => True
  | c :: cs => (c.isWs = true → c.text = [' '] ∧ cs ≠ []) ∧ SingleSpaces cs

/-- In strict mode `m` returns past single spaces only. -/
def Accepts {α : Type} (m : ParseM α) (p : Parser) : Prop :=
  p.mode = .strict → ∀ a p', m.run p = .ok (a, p') →
    p'.mode = .strict ∧ (SingleSpaces p'.chunks → SingleSpaces p.chunks)

/-- Strict mode fails where lenient mode records. -/
theorem lenientOrAt_error {β : Type} {p : Parser} (hp : p.mode = .strict) (quirk : Quirks)
    (rule message : String) (byte : Nat) (f : Unit → ParseM β) :
    (lenientOrAt quirk rule message byte >>= f).run p =
      .error ⟨rule.toList, byte, message.toList⟩ := by
  refine run_bind_error ?_
  rw [lenientOrAt, StateT.run_bind, StateT.run_get, pure_bind]
  simp only [hp]
  rfl

namespace Accepts

variable {α β : Type} {p : Parser}

theorem of_pure (a : α) : Accepts (pure a) p := by
  intro hp b p' hrun
  cases hrun
  exact ⟨hp, id⟩

theorem of_bind {m : ParseM α} {f : α → ParseM β} (hm : Accepts m p)
    (hf : ∀ a p', p'.mode = .strict → Accepts (f a) p') : Accepts (m >>= f) p := by
  intro hp b p'' hrun
  cases hfirst : m.run p with
  | error e =>
    rw [run_bind_error hfirst] at hrun
    cases hrun
  | ok r =>
    rw [run_bind_ok hfirst] at hrun
    obtain ⟨hp', hback⟩ := hm hp r.1 r.2 hfirst
    obtain ⟨hp'', hback'⟩ := hf r.1 r.2 hp' hp' b p'' hrun
    exact ⟨hp'', fun h => hback (hback' h)⟩

theorem of_get {f : Parser → ParseM β} (hf : Accepts (f p) p) : Accepts (get >>= f) p := hf

theorem of_advance {f : Unit → ParseM β} {c : Chunk} {cs : List Chunk} (hc : p.chunks = c :: cs)
    (hword : c.isWs = false) (hf : Accepts (f ()) p.advance) :
    Accepts (modify Parser.advance >>= f) p := by
  intro hp b p' hrun
  obtain ⟨hp', hback⟩ := hf hp b p' hrun
  refine ⟨hp', fun h => ?_⟩
  have hcs : p.advance.chunks = cs := by rw [Parser.advance, hc]; rfl
  rw [hc, ← hcs]
  exact ⟨fun hws => absurd (hword.symm.trans hws) Bool.false_ne_true, hback h⟩

theorem lenientOrAt (quirk : Quirks) (rule message : String) (byte : Nat) {f : Unit → ParseM β} :
    Accepts (Txtodo.lenientOrAt quirk rule message byte >>= f) p := by
  intro hp b p' hrun
  cases (lenientOrAt_error hp quirk rule message byte f).symm.trans hrun

theorem lenientOr (quirk : Quirks) (rule message : String) {f : Unit → ParseM β} :
    Accepts (Txtodo.lenientOr quirk rule message >>= f) p :=
  lenientOrAt quirk rule message p.pos (f := f) (p := p)

theorem separator : Accepts separator p := by
  refine of_get ?_
  split
  · exact of_pure _
  · rename_i c rest hchunks
    by_cases htext : c.text = [' ']
    · rw [if_neg (by simpa using htext)]
      intro hp b p' hrun
      cases rest with
      | nil =>
        have herr := lenientOrAt_error (p := p.advance) hp Quirks.TRAILING_WS "description"
          "trailing whitespace" c.start fun _ => pure false
        cases herr.symm.trans hrun
      | cons d rest =>
        cases hrun
        have hnext : p.advance.chunks = d :: rest := by rw [Parser.advance, hchunks]; rfl
        refine ⟨hp, fun h => ?_⟩
        rw [hchunks]
        rw [hnext] at h
        exact ⟨fun _ => ⟨htext, by simp⟩, h⟩
    · rw [if_pos htext]
      exact lenientOr _ _ _

/-- A word is the current chunk. -/
theorem word_chunk {w : Text} (h : p.word = some w) :
    ∃ c cs, p.chunks = c :: cs ∧ c.isWs = false ∧ c.text = w := by
  unfold Parser.word at h
  split at h
  · rename_i c cs hchunks
    split_ifs at h with hws
    exact ⟨c, cs, hchunks, Bool.eq_false_iff.2 hws, Option.some_inj.1 h⟩
  · cases h

theorem takePriority (t : Task) : Accepts (takePriority t) p := by
  refine of_get ?_
  split
  · rename_i letter hword
    obtain ⟨c, cs, hchunks, hws, -⟩ := word_chunk hword
    split
    · exact of_advance hchunks hws (of_bind separator fun _ _ _ => of_pure _)
    · exact of_pure _
  · exact of_pure _

theorem takeDate : Accepts takeDate p := by
  refine of_get ?_
  split
  · exact of_pure _
  · rename_i w hword
    obtain ⟨c, cs, hchunks, hws, -⟩ := word_chunk hword
    split
    · exact of_advance hchunks hws (of_pure _)
    · split_ifs
      · intro _ _ _ hrun
        cases hrun
      · exact of_pure _

theorem takeOptionalDate (t : Task) : Accepts (takeOptionalDate t) p := by
  refine of_bind takeDate fun date p' _ => ?_
  cases date with
  | none => exact of_pure _
  | some date => exact of_bind separator fun _ _ _ => of_pure _

theorem takePriorityLenient (t : Task) (quirk : Quirks) : Accepts (takePriorityLenient t quirk) p := by
  intro hp b p' hrun
  rw [Txtodo.takePriorityLenient, StateT.run_bind, StateT.run_get, pure_bind] at hrun
  simp only [hp] at hrun
  cases hrun
  exact ⟨hp, id⟩

theorem completedPrefix (t : Task) : Accepts (completedPrefix t) p := by
  refine of_bind separator fun more p₁ _ => ?_
  split_ifs
  · exact lenientOr _ _ _
  · refine of_bind (takePriorityLenient _ _) fun t p₂ _ => of_bind takeDate fun date p₃ _ => ?_
    cases date with
    | none => exact lenientOr _ _ _
    | some date =>
      have hlast : ∀ (t : Task) p, Accepts (
          if t.priority.isNone then Txtodo.takePriorityLenient t Quirks.PRIORITY_AFTER_DATE
          else pure t) p := by
        intro t p
        split_ifs
        · exact takePriorityLenient _ _
        · exact of_pure _
      refine of_bind separator fun more p₄ _ => ?_
      split_ifs
      · exact of_bind (takeOptionalDate _) fun t p₅ _ => hlast t p₅
      · exact of_bind (of_pure _) fun t p₅ _ => hlast t p₅

theorem incompletePrefix (t : Task) : Accepts (incompletePrefix t) p :=
  of_bind (takePriority t) fun _ _ _ => takeOptionalDate _

theorem taskPrefix : Accepts (taskPrefix p) p := by
  unfold Grammar.taskPrefix
  split_ifs with hmark
  · unfold Parser.startsCompleted at hmark
    rw [Bool.and_eq_true, decide_eq_true_eq] at hmark
    obtain ⟨c, cs, hchunks, hws, -⟩ := word_chunk hmark.1
    exact of_advance hchunks hws (completedPrefix _)
  · exact incompletePrefix _

end Accepts

/-- The separator checks let single spaces pass, none of them at the start of the line. -/
theorem singleSpaces_of_checkSeparators {at_ : Nat} {first : Bool} {cs : List Chunk} {p p' : Parser}
    (hp : p.mode = .strict) {u : Unit} (h : (checkSeparators at_ first cs).run p = .ok (u, p')) :
    SingleSpaces cs ∧ (first = true → at_ = 0 → ∀ c ∈ cs.head?, c.isWs = false) := by
  induction cs generalizing first p with
  | nil => exact ⟨trivial, fun _ _ c hc => by cases hc⟩
  | cons c cs ih =>
    rw [checkSeparators] at h
    by_cases hws : c.isWs = true
    · rw [if_pos hws] at h
      by_cases hstart : (first && decide (at_ = 0)) = true
      · rw [if_pos hstart] at h
        cases (lenientOrAt_error hp _ _ _ _ _).symm.trans h
      · rw [if_neg hstart] at h
        rw [Bool.not_eq_true] at hstart
        rw [hstart, Bool.false_and, Bool.not_false, if_pos rfl] at h
        by_cases hlast : cs.isEmpty = true
        · rw [if_pos hlast] at h
          cases (lenientOrAt_error hp _ _ _ _ _).symm.trans h
        · rw [if_neg hlast] at h
          by_cases htext : c.text = [' ']
          · rw [if_neg (by simpa using htext)] at h
            obtain ⟨hrest, -⟩ := ih hp h
            refine ⟨⟨fun _ => ⟨htext, fun hnil => hlast (by rw [hnil]; rfl)⟩, hrest⟩, ?_⟩
            intro hfirst hzero
            rw [hfirst, hzero] at hstart
            cases hstart
          · rw [if_pos htext] at h
            cases (lenientOrAt_error hp _ _ _ _ _).symm.trans h
    · rw [if_neg hws] at h
      obtain ⟨hrest, -⟩ := ih hp h
      refine ⟨⟨fun h => absurd h hws, hrest⟩, fun _ _ d hd => ?_⟩
      cases hd
      exact Bool.eq_false_iff.2 hws

/-- Alternating chunks with single spaces are words, after a space where the first is one. -/
theorem Spaced.of_singleSpaces {cs : List Chunk} (halt : Alternating cs) (h : SingleSpaces cs) :
    ((∀ c ∈ cs.head?, c.isWs = false) → ∃ ws, Spaced cs ws) ∧
      ((∃ c ∈ cs.head?, c.isWs = true) → ∃ space rest ws, cs = ⟨space, [' '], true⟩ :: rest ∧
        rest ≠ [] ∧ Spaced rest ws) := by
  induction cs with
  | nil => exact ⟨fun _ => ⟨[], .nil⟩, fun ⟨_, hc, _⟩ => by cases hc⟩
  | cons c cs ih =>
    obtain ⟨hsep, hcs⟩ := h
    have halt' : Alternating cs := (show Alternating ([c] ++ cs) from halt).of_append.2
    have hnext : ∀ d ∈ cs.head?, c.isWs ≠ d.isWs := by
      intro d hd
      cases cs with
      | nil => cases hd
      | cons e cs =>
        cases hd
        exact (List.isChain_cons_cons.1 halt.alternate).1
    obtain ⟨hword, hspace⟩ := ih halt' hcs
    constructor
    · intro hhead
      have hc := hhead c rfl
      have htext := (halt.uniform c (List.mem_cons_self ..)).nonempty
      obtain ⟨start, text, ws⟩ := c
      dsimp only at hc
      subst hc
      cases cs with
      | nil => exact ⟨[text], .last start htext⟩
      | cons d cs =>
        have hd : d.isWs = true := by
          have := hnext d rfl
          revert this
          cases d.isWs <;> simp
        obtain ⟨space, rest, ws, heq, hne, hrest⟩ := hspace ⟨d, rfl, hd⟩
        obtain ⟨rfl, rfl⟩ := List.cons.inj heq
        cases hrest with
        | nil => exact absurd rfl hne
        | last s hw => exact ⟨_, .cons start space htext (.last s hw)⟩
        | cons s s' hw h => exact ⟨_, .cons start space htext (.cons s s' hw h)⟩
    · rintro ⟨d, hd, hws⟩
      cases hd
      obtain ⟨htext, hne⟩ := hsep hws
      obtain ⟨ws, hspaced⟩ := hword fun d hd => by
        have := hnext d hd
        rw [hws] at this
        revert this
        cases d.isWs <;> simp
      obtain ⟨start, text, isWs⟩ := c
      dsimp only at htext hws
      subst htext hws
      exact ⟨start, cs, ws, rfl, hne, hspaced⟩

theorem run_bind_eq_ok {α β : Type} {m : ParseM α} {f : α → ParseM β} {p p'' : Parser} {b : β}
    (h : (m >>= f).run p = .ok (b, p'')) :
    ∃ a p', m.run p = .ok (a, p') ∧ (f a).run p' = .ok (b, p'') := by
  cases hfirst : m.run p with
  | error e =>
    rw [run_bind_error hfirst] at h
    cases h
  | ok r =>
    rw [run_bind_ok hfirst] at h
    exact ⟨r.1, r.2, rfl, h⟩

theorem chunksFrom_start {start : Nat} {s : Text} {c : Chunk} {cs : List Chunk}
    (h : chunksFrom start s = c :: cs) : c.start = start := by
  cases s with
  | nil => cases h
  | cons x s =>
    rw [chunksFrom] at h
    split at h
    · cases h
      rfl
    · split_ifs at h
      · cases h
        rfl
      · cases h
        rfl

/-- The strict parser returns on words with one space between them only. -/
theorem spaced_of_parseTask {raw : Text} {quirks : Quirks} {t : Task} {p' : Parser}
    (h : parseTask.run ⟨raw, chunks raw, .strict, quirks⟩ = .ok (t, p')) :
    ∃ ws, Spaced (chunks raw) ws := by
  rw [parseTask_run_eq] at h
  obtain ⟨t₁, p₁, hpre, h⟩ := run_bind_eq_ok h
  obtain ⟨d, p₂, hdescription, -⟩ := run_bind_eq_ok h
  obtain ⟨hmode, hback⟩ := Accepts.taskPrefix rfl _ _ hpre
  obtain ⟨u, p₃, hcheck, -⟩ := run_bind_eq_ok
    (m := checkSeparators p₁.pos true p₁.chunks) (f := fun _ => pure p₁.rest) hdescription
  obtain ⟨hsingle, hhead⟩ := singleSpaces_of_checkSeparators hmode hcheck
  refine (Spaced.of_singleSpaces (alternating_chunksFrom 0 raw) (hback hsingle)).1 fun c hc => ?_
  -- a line that starts with a separator is not read past it
  obtain ⟨cs, hchunks⟩ : ∃ cs, chunks raw = c :: cs := by
    cases hcs : chunks raw with
    | nil =>
      rw [show chunksFrom 0 raw = [] from hcs] at hc
      cases hc
    | cons e cs =>
      rw [show chunksFrom 0 raw = e :: cs from hcs] at hc
      cases hc
      exact ⟨cs, rfl⟩
  cases hws : c.isWs with
  | false => rfl
  | true =>
    have hstart : c.start = 0 := chunksFrom_start hchunks
    obtain ⟨start, text, ws⟩ := c
    dsimp only at hws hstart
    subst hws hstart
    rw [hchunks] at hpre
    cases hpre
    exact hhead rfl rfl _ rfl

/-! ## The parser and the grammar -/

section Line
variable {raw : Text} {l : Line} {t : Task}

/-- The line a task was read on. -/
def lineOf (raw : Text) (t : Task) (quirks : Quirks) : Line :=
  ⟨raw, .task t, if (t.tagWithSchemes "ref".toList DEFAULT_SCHEMES).any (!isValidSlug ·) then
    quirks.insert Quirks.INVALID_REF else quirks, .lf⟩

theorem parseLine_of_run {mode : Mode} {p : Parser} (hne : raw ≠ [])
    (h : parseTask.run ⟨raw, chunks raw, mode, Quirks.NONE⟩ = .ok (t, p)) :
    parseLine raw mode = .ok (lineOf raw t p.quirks) := by
  have hempty : ¬raw.isEmpty = true := fun hnil => hne (List.isEmpty_iff.1 hnil)
  rw [parseLine, parseLineWithSchemes, if_neg hempty, h]
  rfl

theorem parseLine_strict_ok (hne : raw ≠ []) (h : parseLine raw .strict = .ok l) :
    ∃ t p, parseTask.run ⟨raw, chunks raw, .strict, Quirks.NONE⟩ = .ok (t, p) ∧
      l = lineOf raw t p.quirks := by
  cases hrun : parseTask.run ⟨raw, chunks raw, .strict, Quirks.NONE⟩ with
  | error e =>
    have hempty : ¬raw.isEmpty = true := fun hnil => hne (List.isEmpty_iff.1 hnil)
    rw [parseLine, parseLineWithSchemes, if_neg hempty, hrun] at h
    cases h
  | ok r =>
    rw [parseLine_of_run hne hrun] at h
    cases h
    exact ⟨r.1, r.2, rfl, rfl⟩

/-- The words of a line of the grammar's characters and tabs. -/
theorem Spaced.many {ws : List Text} (hraw : ∀ c ∈ raw, IsNonSp c ∨ c = ' ' ∨ c = '\t')
    (h : Spaced (chunks raw) ws) : ∀ w ∈ ws, Many IsNonSp w := by
  intro w hw
  rw [← h.words] at hw
  obtain ⟨c, hc, rfl⟩ := List.mem_map.1 hw
  obtain ⟨hmem, hword⟩ := List.mem_filter.1 hc
  have huni := (alternating_chunksFrom 0 raw).uniform c hmem
  refine ⟨huni.nonempty, fun x hx => ?_⟩
  have hx' : x ∈ raw := by
    rw [← textOf_chunksFrom 0 raw]
    exact List.mem_flatMap.2 ⟨c, hmem, hx⟩
  have hnot : isWs x = false := by
    rw [huni.same x hx]
    simpa using hword
  rcases hraw x hx' with h | rfl | rfl
  · exact h
  · cases hnot
  · cases hnot

theorem Spaced.isRun {ws : List Text} (h : Spaced (chunks raw) ws) : ∀ w ∈ ws, IsRun w := by
  intro w hw
  rw [← h.words] at hw
  obtain ⟨c, hc, rfl⟩ := List.mem_map.1 hw
  obtain ⟨hmem, hword⟩ := List.mem_filter.1 hc
  have huni := (alternating_chunksFrom 0 raw).uniform c hmem
  refine ⟨huni.nonempty, fun x hx => ?_⟩
  rw [huni.same x hx]
  simpa using hword

/-- A task the strict parser reads, by its words. -/
theorem strict_read (hne : raw ≠ []) (h : parseLine raw .strict = .ok l) :
    ∃ ws t₀ us vs creation, (∀ w ∈ ws, IsRun w) ∧ raw = joined ws ∧ StartsAs ws t₀ us ∧
      CreationRead us creation vs ∧
      l = lineOf raw { t₀ with creationDate := creation, description := joined vs } Quirks.NONE := by
  obtain ⟨t, p, hrun, rfl⟩ := parseLine_strict_ok hne h
  obtain ⟨ws, hspaced⟩ := spaced_of_parseTask hrun
  have hraw : raw = joined ws := (textOf_chunksFrom 0 raw).symm.trans hspaced.textOf
  obtain ⟨t₀, us, hstart⟩ := exists_startsAs ws
  rcases impossibleHead_or_read us with himpossible | ⟨creation, vs, hread⟩
  · obtain ⟨e, herr⟩ := parseTask_run_impossible _ _ hspaced hstart himpossible
    cases herr.symm.trans hrun
  obtain ⟨cs, hok⟩ := parseTask_run _ _ hspaced hstart hread
  cases hok.symm.trans hrun
  exact ⟨ws, t₀, us, vs, creation, hspaced.isRun, hraw, hstart, hread, rfl⟩

/-- A line the strict parser reads is derived by the grammar, the longest prefix read, and holds no
impossible date. -/
theorem longest_of_run {p : Parser} (hne : raw ≠ [])
    (hraw : ∀ c ∈ raw, IsNonSp c ∨ c = ' ' ∨ c = '\t')
    (h : parseTask.run ⟨raw, chunks raw, .strict, Quirks.NONE⟩ = .ok (t, p)) :
    (∀ kind, Longest raw kind ↔ kind = .task t) ∧ ¬ImpossibleDate raw := by
  obtain ⟨ws, hspaced⟩ := spaced_of_parseTask h
  have hmany := hspaced.many hraw
  have hrun : ∀ w ∈ ws, IsRun w := fun w hw => (hmany w hw).isRun
  have hjoined : raw = joined ws := (textOf_chunksFrom 0 raw).symm.trans hspaced.textOf
  have hws : ws ≠ [] := by
    rintro rfl
    exact hne hjoined
  have hwords : ∀ {t'}, Derives raw (.task t') → WordDerives ws t' := by
    intro t' hderives
    obtain ⟨ws', hmany', hjoined', hderives⟩ := derives_task_iff.1 hderives
    obtain rfl := joined_injective hrun (fun w hw => (hmany' w hw).isRun)
      (hjoined.symm.trans hjoined')
    exact hderives
  obtain ⟨t₀, us, hstart⟩ := exists_startsAs ws
  rcases impossibleHead_or_read us with himpossible | ⟨creation, vs, hread⟩
  · obtain ⟨e, herr⟩ := parseTask_run_impossible _ _ hspaced hstart himpossible
    cases herr.symm.trans h
  obtain ⟨p', hok⟩ := parseTask_run _ _ hspaced hstart hread
  cases hok.symm.trans h
  have hderives : Derives raw (.task { t₀ with creationDate := creation, description := joined vs }) :=
    derives_task_iff.2 ⟨ws, hmany, hjoined, hstart.wordDerives hws hread⟩
  refine ⟨fun kind => ⟨fun hlongest => ?_, ?_⟩, ?_⟩
  · cases kind with
    | blank =>
      cases hlongest.derives
      exact absurd rfl hne
    | task t' =>
      have hunique := hstart.unique (fun w hw => (hrun w hw).1) hread (hwords hlongest.derives)
        (hlongest.least t' _ rfl hderives)
      rw [hunique]
  · rintro rfl
    refine ⟨hderives, fun t t' ht hderives' => ?_⟩
    cases ht
    exact hstart.least hread (hwords hderives')
  · rw [hjoined]
    exact fun himpossible => hread.not_impossible (hstart.impossibleHead hrun himpossible)

/-- A line the grammar derives is read, unless it holds an impossible date. -/
theorem run_of_derives (hderives : Derives raw (.task t)) (hdates : ¬ImpossibleDate raw) :
    ∃ t' p, parseTask.run ⟨raw, chunks raw, .strict, Quirks.NONE⟩ = .ok (t', p) := by
  obtain ⟨ws, hmany, rfl, -⟩ := derives_task_iff.1 hderives
  have hspaced : Spaced (chunks (joined ws)) ws := Spaced.chunksFrom (fun w hw => (hmany w hw).isRun) 0
  obtain ⟨t₀, us, hstart⟩ := exists_startsAs ws
  rcases impossibleHead_or_read us with himpossible | ⟨creation, vs, hread⟩
  · exact absurd (hstart.impossibleDate himpossible) hdates
  · obtain ⟨cs, hok⟩ := parseTask_run _ _ hspaced hstart hread
    exact ⟨_, _, hok⟩

theorem not_impossibleDate_nil : ¬ImpossibleDate [] := by
  rintro ⟨before, w, after, heq, -, ⟨year, month, day, hshape⟩, -⟩
  have hnil := (List.append_eq_nil_iff.1 (List.append_eq_nil_iff.1 heq.symm).2).1
  rw [hnil] at hshape
  cases hshape.length

theorem longest_nil_iff {kind : LineKind} : Longest [] kind ↔ kind = .blank := by
  constructor
  · intro h
    cases kind with
    | blank => rfl
    | task t =>
      obtain ⟨ws, hmany, hnil, hderives⟩ := derives_task_iff.1 h.derives
      cases ws with
      | nil =>
        cases hderives with
        | description hne => exact absurd rfl hne
      | cons w ws =>
        exact absurd (List.append_eq_nil_iff.1 hnil.symm).1 (hmany w (List.mem_cons_self ..)).1
  · rintro rfl
    exact ⟨.blank, fun t t' h => by cases h⟩

end Line

/-- The strict parser accepts what the grammar derives, and reads the longest prefix. -/
def StrictIsGrammar (raw : Text) : Prop :=
  ((∃ l, parseLine raw .strict = .ok l) ↔ ∃ kind, Derives raw kind) ∧
    ∀ l, parseLine raw .strict = .ok l → ∀ kind, Longest raw kind ↔ kind = l.kind

/-- Of a line without control characters the strict parser accepts what the grammar derives, but for
impossible dates where a creation date may stand, and reads the longest prefix. -/
theorem strict_parses_grammar (raw : Text)
    (hraw : ∀ c ∈ raw, IsNonSp c ∨ c = ' ' ∨ c = '\t') :
    ((∃ l, parseLine raw .strict = .ok l) ↔ (∃ kind, Derives raw kind) ∧ ¬ImpossibleDate raw) ∧
      ∀ l, parseLine raw .strict = .ok l → ∀ kind, Longest raw kind ↔ kind = l.kind := by
  by_cases hne : raw = []
  · subst hne
    refine ⟨iff_of_true ⟨_, rfl⟩ ⟨⟨_, .blank⟩, not_impossibleDate_nil⟩, fun l hl kind => ?_⟩
    cases hl
    exact longest_nil_iff
  · have hsound : ∀ l, parseLine raw .strict = .ok l →
        (∀ kind, Longest raw kind ↔ kind = l.kind) ∧ ¬ImpossibleDate raw := by
      intro l hl
      obtain ⟨t, p, hrun, rfl⟩ := parseLine_strict_ok hne hl
      exact longest_of_run hne hraw hrun
    refine ⟨⟨fun ⟨l, hl⟩ => ⟨⟨l.kind, (((hsound l hl).1 _).2 rfl).derives⟩, (hsound l hl).2⟩, ?_⟩,
      fun l hl => (hsound l hl).1⟩
    rintro ⟨⟨kind, hderives⟩, hdates⟩
    cases kind with
    | blank =>
      cases hderives
      exact absurd rfl hne
    | task t =>
      obtain ⟨t', p, hrun⟩ := run_of_derives hderives hdates
      exact ⟨_, parseLine_of_run hne hrun⟩

/-- A completed line with a priority after its dates, which the grammar reads as description. -/
theorem strict_parses_completed :
    ((∃ l, parseLine "x 2026-09-12 2026-09-11 (A) call".toList .strict = .ok l) ↔
      (∃ kind, Derives "x 2026-09-12 2026-09-11 (A) call".toList kind) ∧
        ¬ImpossibleDate "x 2026-09-12 2026-09-11 (A) call".toList) ∧
      ∀ l, parseLine "x 2026-09-12 2026-09-11 (A) call".toList .strict = .ok l →
        ∀ kind, Longest "x 2026-09-12 2026-09-11 (A) call".toList kind ↔ kind = l.kind :=
  strict_parses_grammar _ (List.forall_iff_forall_mem.1 (by decide))

/-- A month 13 at the start of a line is refused, though its word is a description; a control character is
accepted, though no rule derives it. -/
theorem strict_departs_from_grammar :
    ('\n' ∉ "2026-13-01".toList ∧ ¬StrictIsGrammar "2026-13-01".toList) ∧
      ('\n' ∉ ['\x07'] ∧ ¬StrictIsGrammar ['\x07']) := by
  refine ⟨⟨by decide, fun h => ?_⟩, by decide, fun h => ?_⟩
  · have hderives : ∃ kind, Derives "2026-13-01".toList kind :=
      ⟨_, .incomplete (.description (.word (.plain
        ⟨by decide, List.forall_iff_forall_mem.1 (by decide)⟩)))⟩
    obtain ⟨l, hl⟩ := h.1.2 hderives
    cases hl
  · obtain ⟨kind, hderives⟩ := h.1.1 ⟨_, rfl⟩
    rcases hderives.alphabet '\x07' (by simp) with hnon | hspace
    · revert hnon
      decide
    · cases hspace

end Txtodo.Grammar
