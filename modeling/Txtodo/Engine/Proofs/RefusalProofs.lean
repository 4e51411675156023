import Txtodo.Engine.Proofs.PlacingProofs

/-!
# Proofs: an op that does not apply leaves no trace

Every refusal leaves the document as it was, but for the two that come after the history was written.
-/

namespace Txtodo

namespace DocState

variable {s : DocState} {task : TaskId}

theorem setHistory_ne {h : TextHistory} (hne : s.textHistory task ≠ some h) :
    s.setHistory task (some h) ≠ s := fun heq =>
  hne (by rw [← congrArg (fun t => DocState.textHistory t task) heq, textHistory_setHistory])

/-- A late insert is refused, and another history is left behind. -/
theorem LateInsert.insert {after : Option TaskId} {line : Text} {at_ : Hlc}
    (h : s.LateInsert task after line at_) :
    ∃ s' e, s.insert task after line at_ = s'.fails e ∧ s' ≠ s := by
  obtain ⟨hfull, hmode, hplace, hspot, description, hd, hbreak, hne⟩ := h
  obtain ⟨current, hcurrent, hline⟩ := Option.bind_eq_some_iff.1 hd
  obtain ⟨kept, hkeep, hdescription⟩ := Option.bind_eq_some_iff.1 hline
  cases hslot : s.slotAfter after at_ with
  | error e => simp [hslot, Except.isOk, Except.toBool] at hspot
  | ok spot =>
    cases hheld : noLineBreak
        ((s.historyOr task description).reset description at_ applyTextEdits).2 with
    | ok u =>
      rw [hheld] at hbreak
      cases hbreak
    | error e =>
      refine ⟨_, .unsupported "line break".toList, ?_, setHistory_ne hne⟩
      simp only [DocState.insert, if_neg (not_lt.2 hfull), if_neg hmode, if_pos hplace, reinsert,
        hslot, hcurrent, mergedLine, hkeep, hdescription, Edit.setDescription, hheld]
      rfl

/-- A late clear is refused, and another history is left behind. -/
theorem LateClear.setField {at_ : Hlc} (h : s.LateClear task at_) :
    ∃ s' e, s.setField task .priority (.priority none) at_ = s'.fails e ∧ s' ≠ s := by
  obtain ⟨hstale, line, description, hline, hdone, hwith, hne⟩ := h
  obtain ⟨slot, hslot, hslotLine⟩ := Option.bind_eq_some_iff.1 hline
  obtain ⟨h₁, hh₁⟩ := clearPriInDescription_state s task description
  have hmode : ∀ held, (s.clearPriInDescription task description).1.withDescription task line held =
      s.withDescription task line held := fun held => by rw [hh₁]; rfl
  cases hw : s.withDescription task line (s.clearPriInDescription task description).2 with
  | ok newLine => simp [hw, Except.isOk, Except.toBool] at hwith
  | error e =>
    refine ⟨(s.clearPriInDescription task description).1, e, ?_, fun heq => hne (by rw [heq])⟩
    simp [DocState.setField, hslot, hslotLine, hstale, hdone, clearDonePriority, hmode, hw]

/-- An op that does not apply leaves the document as it was, but for the two late refusals. -/
theorem applyKind_refused (op : Op) :
    ((∃ e, (s.applyKind op).result = .error e) → (s.applyKind op).state = s) ∨ s.LateRefusal op := by
  have hfails : ∀ {P : DocState → Prop} {out : Outcome}, FailsOr s P out →
      (∃ e, out.result = .error e) → out.state = s := by
    rintro P out (⟨e, rfl⟩ | ⟨s', rfl, -⟩) ⟨e', he'⟩
    · rfl
    · cases he'
  obtain ⟨id, at_, file, kind⟩ := op
  cases kind with
  | insert task after line =>
    rcases insert_outcome task after line at_ with hor | ⟨h, e, hlate, -⟩
    · exact .inl (hfails hor)
    · exact .inr hlate
  | setField task field value =>
    by_cases hdeleted : field = .deleted
    · subst hdeleted
      exact .inl (hfails (setDeleted_outcome task value at_))
    · rcases setField_outcome s task hdeleted value at_ with hor |
        ⟨rfl, rfl, hstale, line, description, e, hline, hdone, hwith, hout⟩
      · exact .inl (hfails hor)
      · by_cases hsame : (s.clearPriInDescription task description).1.textHistory task =
            s.textHistory task
        · left
          rintro -
          obtain ⟨h, hh⟩ := clearPriInDescription_state s task description
          have hstate : (s.clearPriInDescription task description).1 = s := by
            rw [hh] at hsame ⊢
            rw [textHistory_setHistory] at hsame
            rw [hsame, setHistory_self]
          show (s.setField task .priority (.priority none) at_).state = s
          rw [hout, hstate]
          rfl
        · exact .inr ⟨hstale, line, description, hline, hdone, hwith, hsame⟩
  | editText task edits => exact .inl (hfails (editText_outcome task edits at_))
  | move task after toFile =>
    by_cases hfile : toFile = s.path
    · subst hfile
      exact .inl (hfails (moveTask_here task after at_))
    · exact .inl (hfails (moveTask_away task after at_ hfile))
  | notesEdit file edits => exact .inl fun _ => rfl
  | blankInsert after => exact .inl (hfails (blankInsert_outcome after at_))
  | blankRemove after => exact .inl (hfails (blankRemove_outcome after at_))
  | removeTag task key => exact .inl (hfails (removeTag_outcome task key at_))

theorem LateRefusal.applyKind {op : Op} (h : s.LateRefusal op) :
    ∃ s' e, s.applyKind op = s'.fails e ∧ s' ≠ s := by
  obtain ⟨id, at_, file, kind⟩ := op
  unfold LateRefusal at h
  split at h
  · next hkind =>
    obtain rfl : kind = _ := hkind
    exact LateInsert.insert h
  · next hkind =>
    obtain rfl : kind = _ := hkind
    exact LateClear.setField h
  · exact h.elim

/-- A refused op leaves the document as it was exactly when its refusal is not a late one. -/
theorem apply_refused_iff (s : DocState) (op : Op) :
    ((∃ e, (s.apply op).result = .error e) → (s.apply op).state = s) ↔ ¬s.LateRefusal op := by
  constructor
  · intro h hlate
    obtain ⟨s', e, hout, hne⟩ := hlate.applyKind
    have happly : s.apply op = s'.fails e := by
      unfold DocState.apply
      rw [hout]
      rfl
    rw [happly] at h
    exact hne (h ⟨e, rfl⟩)
  · rintro hlate ⟨e, he⟩
    rcases applyKind_refused (s := s) op with hkind | h
    · unfold DocState.apply at he ⊢
      dsimp only at he ⊢
      split at he
      · next hres => exact hkind ⟨_, hres⟩
      · cases he
    · exact absurd h hlate

/-- A run without late refusals is the run of the ops that applied. -/
theorem applyAll_applied (s : DocState) (ops : List Op)
    (h : ∀ step ∈ s.steps ops, ¬step.1.LateRefusal step.2) :
    s.applyAll ops = s.applyAll (s.applied ops) := by
  induction ops generalizing s with
  | nil => rfl
  | cons op ops ih =>
    have htail := ih (s.apply op).state fun step hstep => h step (List.mem_cons_of_mem _ hstep)
    show (s.apply op).state.applyAll ops = _
    rw [applied]
    split_ifs with hok
    · exact htail
    · cases hres : (s.apply op).result with
      | ok u => simp [hres, Except.isOk, Except.toBool] at hok
      | error e =>
        have hsame := (apply_refused_iff s op).2 (h (s, op) (List.mem_cons_self ..)) ⟨e, hres⟩
        rw [htail, hsame]

/-- In every run, a step that is refused leaves no trace exactly when its refusal is not a late one;
so a run without late refusals is the run of the ops that applied. -/
theorem refusals_leave_no_trace (s : DocState) (ops : List Op) :
    (∀ step ∈ s.steps ops,
      ((∃ e, (step.1.apply step.2).result = .error e) → (step.1.apply step.2).state = step.1) ↔
        ¬step.1.LateRefusal step.2) ∧
    ((∀ step ∈ s.steps ops, ¬step.1.LateRefusal step.2) →
      s.applyAll ops = s.applyAll (s.applied ops)) :=
  ⟨fun step _ => apply_refused_iff step.1 step.2, applyAll_applied s ops⟩

/-- An insert again of a line with a carriage return, and a cleared priority on a done line with one:
both are refused, and both leave a history the task did not have. -/
theorem late_refusals_leave_a_history :
    let task : TaskId := ⟨1, by decide⟩
    let file (text : Text) : File := ⟨[.ofText text .lf], false, .lf, true⟩
    let open_ := ofEntries ⟨['f']⟩ (file ['a']) .sidecar [.task task (.ofText ['a'] .lf)]
    let done := ofEntries ⟨['f']⟩ (file "x b\rc".toList) .sidecar
      [.task task (.ofText "x b\rc".toList .lf)]
    let insert : Op := ⟨⟨1⟩, ⟨1, 0, ⟨1⟩⟩, ⟨['f']⟩, .insert task none "b\rc".toList⟩
    let clear : Op := ⟨⟨1⟩, ⟨1, 0, ⟨1⟩⟩, ⟨['f']⟩, .setField task .priority (.priority none)⟩
    (fromFile ⟨['f']⟩ (file ['a']) [some task] .sidecar = .ok open_ ∧
      (open_.apply insert).result.isOk = false ∧
      (open_.apply insert).state.textHistory task ≠ open_.textHistory task) ∧
    (fromFile ⟨['f']⟩ (file "x b\rc".toList) [some task] .sidecar = .ok done ∧
      (done.apply clear).result.isOk = false ∧
      (done.apply clear).state.textHistory task ≠ done.textHistory task) := by
  intro task file open_ done insert clear
  exact ⟨⟨rfl, by decide, by decide⟩, rfl, by decide, by decide⟩

end DocState

end Txtodo
