import Txtodo.Core.Proofs.CompletionProofs

/-!
# Formatting and parsing on the strict grammar

A line the strict parser accepts is its prefix emitted in front of its description, and in most cases the
lenient parser reads the same.
-/

namespace Txtodo

open Grammar

section Strict
variable {ws us vs : List Text} {t : Task} {creation : Option Date}

/-- The words of a line are those of its prefix, then the description's. -/
theorem Grammar.StartsAs.words (h : StartsAs ws t us) (hread : CreationRead us creation vs) :
    ws = Prefix.words (Prefix.of { t with creationDate := creation }) ++ vs := by
  cases h with
  | completed hdate =>
    rw [isDate_iff.1 hdate, hread.words]
    rfl
  | priority hpriority => exact words_of_reads (.priority hpriority) hread
  | other hmark hpriority =>
    cases ws with
    | nil => exact words_of_reads .nil hread
    | cons w ws => exact words_of_reads (.other fun p => hpriority w ws p rfl) hread

/-- A completed line, read leniently. -/
theorem lenient_completed {w : Text} {completion : Date} (hus : ∀ u ∈ us, IsRun u)
    (h : IsDate w completion) (hread : CreationRead us creation vs) :
    ∃ priority ds, PriorityRead vs priority ds ∧
      parseLine (joined (['x'] :: w :: us)) .lenient = .ok (lineOf (joined (['x'] :: w :: us))
        ⟨true, some completion, creation, priority, joined ds⟩
        (if priority.isSome then Quirks.NONE.insert Quirks.PRIORITY_AFTER_DATE else Quirks.NONE)) := by
  obtain ⟨priority, ds, hpriority⟩ := exists_priorityRead vs
  refine ⟨priority, ds, hpriority, ?_⟩
  have hws : ∀ v ∈ ['x'] :: w :: us, IsRun v := by
    refine List.forall_mem_cons.2 ⟨⟨by simp, List.forall_mem_singleton.2 rfl⟩, ?_⟩
    exact List.forall_mem_cons.2 ⟨h.word.isRun, hus⟩
  obtain ⟨cs, hrun, hcs⟩ := taskPrefix_run_completed (joined (['x'] :: w :: us)) Quirks.NONE
    (Spaced.chunksFrom hws 0) h hread hpriority
  exact parseLine_of_run (joined_ne_nil hws (by simp)) (parseTask_run_of_fields _ .lenient hcs hrun)

/-- An open line, read leniently. -/
theorem lenient_open {priority : Option Priority} (hws : ∀ w ∈ ws, IsRun w) (hne : ws ≠ [])
    (hmark : ws.head? ≠ some ['x']) (h : PriorityRead ws priority us)
    (hread : CreationRead us creation vs) :
    parseLine (joined ws) .lenient =
      .ok (lineOf (joined ws) ⟨false, none, creation, priority, joined vs⟩ Quirks.NONE) := by
  have hspaced : Spaced (chunks (joined ws)) ws := Spaced.chunksFrom hws 0
  have hstart : ¬Parser.startsCompleted ⟨joined ws, chunks (joined ws), .lenient, Quirks.NONE⟩ = true :=
    fun htrue => hmark ((startsCompleted_lenient _ _ hspaced).1 htrue)
  obtain ⟨cs, hrun, hcs⟩ := incompletePrefix_run (joined ws) .lenient Quirks.NONE hspaced h hread
  have hpre : taskPrefix ⟨joined ws, chunks (joined ws), .lenient, Quirks.NONE⟩ =
      incompletePrefix Task.empty := if_neg hstart
  exact parseLine_of_run (joined_ne_nil hws hne) (parseTask_run_of_fields (joined ws) .lenient hcs
    ((congrArg (fun m => StateT.run m _) hpre).trans hrun))

end Strict

theorem lineOf_quirks (raw : Text) (t : Task) :
    (lineOf raw t Quirks.NONE).quirks = Quirks.NONE ∨
      (lineOf raw t Quirks.NONE).quirks = Quirks.INVALID_REF := by
  unfold lineOf
  dsimp only
  split_ifs
  · exact .inr rfl
  · exact .inl rfl

theorem lineOf_kind {raw : Text} {t t' : Task} {quirks quirks' : Quirks}
    (h : lineOf raw t quirks = lineOf raw t' quirks') : t = t' :=
  LineKind.task.inj (congrArg Line.kind h)

/-- A task line the strict parser accepts is its prefix emitted in front of its description; the lenient
parser reads the same line unless it starts with an `x` that is no mark, or a completed task's description
starts with a priority. -/
theorem strict_inverse {raw : Text} {l : Line} {t : Task} (h : parseLine raw .strict = .ok l)
    (hkind : l.kind = .task t) :
    emitPrefix (Prefix.of t) (!t.description.isEmpty) ++ t.description = raw ∧
      (l.quirks = Quirks.NONE ∨ l.quirks = Quirks.INVALID_REF) ∧
      (parseLine raw .lenient = .ok l ↔ (firstWord raw = ['x'] → t.completed = true) ∧
        (t.completed = true → isPriorityWord (firstWord t.description) = false)) := by
  by_cases hne : raw = []
  · subst hne
    cases h
    cases hkind
  obtain ⟨ws, t₀, us, vs, creation, hws, rfl, hstart, hread, rfl⟩ := strict_read hne h
  obtain rfl := LineKind.task.inj hkind
  have hvs : ∀ w ∈ vs, IsRun w := fun w hw => hws w ((hread.suffix.trans hstart.suffix).subset hw)
  refine ⟨?_, lineOf_quirks _ _, ?_⟩
  · have hwords := hstart.words hread
    rw [hwords]
    exact emitPrefix_joined _ fun w hw => (hvs w hw).1
  · dsimp only
    rw [firstWord_joined hws, firstWord_joined hvs]
    cases hstart with
    | @completed w us completion hdate =>
      have hus : ∀ u ∈ us, IsRun u := fun u hu =>
        hws u (List.mem_cons_of_mem _ (List.mem_cons_of_mem _ hu))
      obtain ⟨priority, ds, hpriority, hlenient⟩ := lenient_completed hus hdate hread
      rw [hlenient, Except.ok.injEq]
      constructor
      · intro heq
        have hnone : priority = none := congrArg Task.priority (lineOf_kind heq)
        exact ⟨fun _ => rfl, fun _ => hpriority.none_iff.1 hnone⟩
      · rintro ⟨-, hfirst⟩
        obtain rfl := hpriority.none_iff.2 (hfirst rfl)
        have hsame : ds = vs := by
          cases hpriority with
          | nil => rfl
          | other => rfl
        rw [hsame]
        rfl
    | @priority w us p hp =>
      have hmark : (w :: us).head? ≠ some ['x'] := fun hx => by
        rw [Option.some_inj.1 hx] at hp
        exact mark_not_priority p hp
      rw [lenient_open hws (by simp) hmark (.priority hp) hread]
      refine iff_of_true rfl ⟨fun hx => absurd (congrArg some hx) hmark, fun hcompleted => ?_⟩
      cases hcompleted
    | @other ws hmark hpriority =>
      cases ws with
      | nil => exact absurd rfl hne
      | cons w ws =>
        by_cases hx : w = ['x']
        · subst hx
          refine iff_of_false (fun heq => ?_) fun hcondition => ?_
          · have hmarked := (draftOf_marked (List.forall_mem_cons.1 hws).2).1
            rw [draftOf, taskOf, heq] at hmarked
            cases hmarked
          · cases hcondition.1 rfl
        · have hhead : (w :: ws).head? ≠ some ['x'] := fun h => hx (Option.some_inj.1 h)
          rw [lenient_open hws (by simp) hhead (.other fun p => hpriority w ws p rfl) hread]
          refine iff_of_true rfl ⟨fun h => absurd h hx, fun hcompleted => ?_⟩
          cases hcompleted

/-- A completed task with both dates. -/
theorem strict_inverse_completed :
    ∃ l t, parseLine "x 2026-09-12 2026-09-01 call @mum".toList .strict = .ok l ∧ l.kind = .task t ∧
      emitPrefix (Prefix.of t) (!t.description.isEmpty) ++ t.description =
        "x 2026-09-12 2026-09-01 call @mum".toList ∧
      (l.quirks = Quirks.NONE ∨ l.quirks = Quirks.INVALID_REF) ∧
      (parseLine "x 2026-09-12 2026-09-01 call @mum".toList .lenient = .ok l ↔
        (firstWord "x 2026-09-12 2026-09-01 call @mum".toList = ['x'] → t.completed = true) ∧
          (t.completed = true → isPriorityWord (firstWord t.description) = false)) :=
  ⟨_, _, rfl, rfl, strict_inverse rfl rfl⟩

/-- A priority after the dates is description to the strict parser and a priority to the lenient one. -/
theorem modes_differ_on_priority :
    ∃ l t l' t', parseLine "x 2026-09-12 (A) call".toList .strict = .ok l ∧ l.kind = .task t ∧
      t.completed = true ∧ parseLine "x 2026-09-12 (A) call".toList .lenient = .ok l' ∧
      l'.kind = .task t' ∧ t.priority = none ∧ t'.priority = some ⟨'A', by decide⟩ ∧
      t'.description ≠ t.description ∧ l'.quirks = Quirks.PRIORITY_AFTER_DATE :=
  ⟨_, _, _, _, rfl, rfl, rfl, rfl, rfl, rfl, rfl, by decide, rfl⟩

end Txtodo
