import Txtodo.Core.Proofs.ReadingProofs

/-!
# Editing a line and reading it back

An edit writes the draft it made: a prefix and the description behind it. The text is read back as the same
draft when no word of the description is taken for prefix.
-/

namespace Txtodo

open Grammar

/-! ## What an edit writes -/

/-- The place a prefix leaves off at when it is written. -/
def Prefix.place (p : Prefix) : Place :=
  match p.completed, p.completionDate, p.creationDate, p.priority with
  | true, none, _, _ => .mark
  | true, some _, none, _ => .completion false
  | true, some _, some _, _ => .creation false
  | false, _, some _, _ => .ended
  | false, _, none, some _ => .openPriority
  | false, _, none, none => .start

namespace Edit

/-- Whether the prefix is written anew. -/
def rewrites (edit : Edit) (raw : Text) : Bool :=
  (edit.ops.foldl Draft.applyOp (draftOf raw)).pre ≠ (draftOf raw).pre

/-- The draft of the line `raw` after the edit, a priority on a done line moved to its tag. -/
def draft (edit : Edit) (raw : Text) : Draft :=
  (edit.ops.foldl Draft.applyOp (draftOf raw)).movePriority (edit.rewrites raw)

/-- The text in front of the description, kept from the line or written anew. -/
def front (edit : Edit) (raw : Text) : Text :=
  let description := (edit.draft raw).description
  let kept := raw.take (descriptionStart raw)
  if edit.rewrites raw then emitPrefix (edit.draft raw).pre (!description.isEmpty)
  else if description.isEmpty then trimEndWs kept
  else if !kept.isEmpty && !kept.getLast?.any isWs then kept ++ [' ']
  else kept

/-- The place the prefix of the edited line leaves off at: that of its fields where it is written anew,
else that of the line. -/
def place (edit : Edit) (raw : Text) : Place :=
  if edit.rewrites raw then (edit.draft raw).pre.place
  else placeAfter (raw.take (descriptionStart raw))

/-- Behind a prefix the description does not start with a separator, nor with a word that may still come
in that prefix. -/
def ReadsBack (edit : Edit) (raw : Text) : Prop :=
  (edit.place raw = .start ∨ (edit.draft raw).description.head?.any isWs = false) ∧
    (edit.place raw).take (edit.draft raw).pre (firstWord (edit.draft raw).description) = none

end Edit

theorem join_eq (pre description : Text) : join pre description =
    (if description.isEmpty then trimEndWs pre
      else if !pre.isEmpty && !pre.getLast?.any isWs then pre ++ [' '] else pre) ++ description := by
  unfold join
  split_ifs with h
  · rw [List.isEmpty_iff.1 h, List.append_nil]
  · rfl
  · rfl

/-- The text an edit leaves. -/
theorem apply_raw {line : OwnedLine} {raw : Text} (hraw : line.raw = some raw) (edit : Edit) :
    (apply line edit).raw = some (
      if edit.rewrites raw = false ∧ (edit.draft raw).description = (draftOf raw).description then raw
      else edit.front raw ++ (edit.draft raw).description) := by
  have hdescription : ∀ draft : Draft, (if draft.description ≠ (draftOf raw).description then
      draft.description else raw.drop (descriptionStart raw)) = draft.description := by
    intro draft
    rw [drop_descriptionStart]
    split_ifs with h
    · rfl
    · exact (not_not.1 h).symm
  have hrewrites : (decide ((edit.ops.foldl Draft.applyOp (draftOf raw)).pre ≠ (draftOf raw).pre)) =
      edit.rewrites raw := rfl
  rw [apply, hraw]
  dsimp only
  rw [hrewrites, Draft.write, show (edit.ops.foldl Draft.applyOp (draftOf raw)).movePriority
    (edit.rewrites raw) = edit.draft raw from rfl]
  cases hdirty : edit.rewrites raw with
  | true =>
    simp only [Bool.not_true, Bool.false_and, Bool.false_eq_true, if_false, Bool.true_eq_false,
      false_and, OwnedLine.ofText_raw, Draft.emit, if_true, decide_eq_true_eq, Edit.front, hdirty]
    rw [hdescription]
  | false =>
    by_cases hsame : (edit.draft raw).description = (draftOf raw).description
    · simp only [hsame, Bool.not_false, Bool.true_and, decide_true, if_true, and_self, hraw]
    · simp only [hsame, Bool.not_false, Bool.true_and, decide_false, Bool.false_eq_true, if_false,
        and_false, OwnedLine.ofText_raw, Draft.emit, decide_eq_true_eq, Edit.front, hdirty]
      rw [hdescription, join_eq]

/-! ## Prefixes that can be written -/

/-- A date may be missing only where lenient reading leaves it out. -/
structure Prefix.Regular (p : Prefix) : Prop where
  opened : p.completed = false → p.completionDate = none
  dates : p.completed = true → p.completionDate = none → p.creationDate = none

/-- What the prefix read up to a place holds. -/
def Place.Holds : Place → Prefix → Prop
  | .start, p => p = Prefix.empty
  | .openPriority, p => p.completed = false ∧ p.completionDate = none ∧ p.creationDate = none
  | .mark, p => p.completed = true ∧ p.completionDate = none ∧ p.creationDate = none
  | .markPriority, p => p.completed = true ∧ p.completionDate = none ∧ p.creationDate = none
  | .completion _, p => p.completed = true ∧ p.completionDate.isSome = true
  | .creation _, p => p.completed = true ∧ p.completionDate.isSome = true
  | .ended, p => p.Regular

theorem Place.Holds.regular {place : Place} {p : Prefix} (h : place.Holds p) : p.Regular := by
  cases place with
  | start =>
    rw [show p = Prefix.empty from h]
    exact ⟨fun _ => rfl, fun h => by cases h⟩
  | openPriority =>
    obtain ⟨hopen, hcompletion, hcreation⟩ := h
    exact ⟨fun _ => hcompletion, fun _ _ => hcreation⟩
  | mark =>
    obtain ⟨hdone, hcompletion, hcreation⟩ := h
    exact ⟨fun _ => hcompletion, fun _ _ => hcreation⟩
  | markPriority =>
    obtain ⟨hdone, hcompletion, hcreation⟩ := h
    exact ⟨fun _ => hcompletion, fun _ _ => hcreation⟩
  | completion seen =>
    obtain ⟨hdone, hcompletion⟩ := h
    refine ⟨fun hopen => ?_, fun _ hnone => ?_⟩
    · rw [hdone] at hopen
      cases hopen
    · rw [hnone] at hcompletion
      cases hcompletion
  | creation seen =>
    obtain ⟨hdone, hcompletion⟩ := h
    refine ⟨fun hopen => ?_, fun _ hnone => ?_⟩
    · rw [hdone] at hopen
      cases hopen
    · rw [hnone] at hcompletion
      cases hcompletion
  | ended => exact h

theorem Place.Holds.take {place place' : Place} {p p' : Prefix} {w : Text} (h : place.Holds p)
    (htake : place.take p w = some (place', p')) : place'.Holds p' := by
  cases place with
  | start =>
    obtain rfl : p = Prefix.empty := h
    by_cases hx : w = ['x']
    · rw [Place.take, if_pos hx] at htake
      cases htake
      exact ⟨rfl, rfl, rfl⟩
    · rw [Place.take, if_neg hx, Option.or_eq_some_iff] at htake
      rcases htake with htake | ⟨-, htake⟩
      · obtain ⟨pri, -, heq⟩ := Option.map_eq_some_iff.1 htake
        cases heq
        exact ⟨rfl, rfl, rfl⟩
      · obtain ⟨d, -, heq⟩ := Option.map_eq_some_iff.1 htake
        cases heq
        exact ⟨fun _ => rfl, fun h => by cases h⟩
  | openPriority =>
    obtain ⟨hopen, hcompletion, -⟩ := h
    obtain ⟨d, -, heq⟩ := Option.map_eq_some_iff.1 htake
    cases heq
    refine ⟨fun _ => hcompletion, fun hdone => ?_⟩
    rw [show p.completed = true from hdone] at hopen
    cases hopen
  | mark =>
    obtain ⟨hdone, hcompletion, hcreation⟩ := h
    rw [Place.take, Option.or_eq_some_iff] at htake
    rcases htake with htake | ⟨-, htake⟩
    · obtain ⟨pri, -, heq⟩ := Option.map_eq_some_iff.1 htake
      cases heq
      exact ⟨hdone, hcompletion, hcreation⟩
    · obtain ⟨d, -, heq⟩ := Option.map_eq_some_iff.1 htake
      cases heq
      exact ⟨hdone, rfl⟩
  | markPriority =>
    obtain ⟨d, -, heq⟩ := Option.map_eq_some_iff.1 htake
    cases heq
    exact ⟨h.1, rfl⟩
  | completion seen =>
    rw [Place.take, Option.or_eq_some_iff] at htake
    rcases htake with htake | ⟨-, htake⟩
    · obtain ⟨d, -, heq⟩ := Option.map_eq_some_iff.1 htake
      cases heq
      exact h
    · cases seen with
      | true => cases htake
      | false =>
        obtain ⟨pri, -, heq⟩ := Option.map_eq_some_iff.1 htake
        cases heq
        exact ⟨h.regular.opened, h.regular.dates⟩
  | creation seen =>
    cases seen with
    | true => cases htake
    | false =>
      obtain ⟨pri, -, heq⟩ := Option.map_eq_some_iff.1 htake
      cases heq
      exact ⟨h.regular.opened, h.regular.dates⟩
  | ended => cases htake

theorem Path.holds {place q : Place} {p r : Prefix} {s : Text} (h : Path place p s q r)
    (hp : place.Holds p) : q.Holds r := by
  induction h with
  | nil => exact hp
  | word hw htake hsep hne h ih => exact ih (hp.take htake)

/-- Every line is read as a prefix that can be written. -/
theorem draftOf_regular (raw : Text) : (draftOf raw).pre.Regular := by
  obtain ⟨q, front, hread⟩ := draftOf_readAs raw
  exact (hread.path.holds rfl).regular

theorem uncomplete_completionDate {d : Draft} (h : d.pre.completed = true) :
    d.uncomplete.pre.completionDate = none := by
  rw [Draft.uncomplete, h]
  simp only [Bool.not_true, Bool.false_eq_true, if_false]
  split
  · rename_i p hrestored
    exact congrArg Prefix.completionDate
      (removeTag_spec ⟨⟨false, none, d.pre.creationDate, some p⟩, d.description⟩ "pri".toList).1
  · rfl

/-- An operation leaves a prefix that can be written. -/
theorem Draft.applyOp_regular {d : Draft} (h : d.pre.Regular) (op : EditOp) :
    (d.applyOp op).pre.Regular := by
  cases op with
  | setPriority p => exact ⟨h.opened, h.dates⟩
  | clearPriority => exact ⟨h.opened, h.dates⟩
  | setDescription text => exact h
  | setTag key value =>
    rw [Draft.applyOp, Draft.setTag_pre]
    exact h
  | removeTag key =>
    rw [Draft.applyOp, (removeTag_spec d key).1]
    exact h
  | append text => exact h
  | prepend text => exact h
  | complete today =>
    rw [Draft.applyOp, Draft.complete]
    split
    · exact h
    · have hdone : Prefix.Regular ⟨true, some today, d.pre.creationDate, none⟩ :=
        ⟨fun hopen => (by cases hopen), fun _ hnone => (by cases hnone)⟩
      split
      · rw [Draft.setTag_pre]
        exact hdone
      · exact hdone
  | uncomplete =>
    rw [Draft.applyOp]
    cases hdone : d.pre.completed with
    | false =>
      rw [Draft.uncomplete, hdone]
      exact h
    | true =>
      have hopen := (uncomplete_spec hdone).1
      refine ⟨fun _ => uncomplete_completionDate hdone, fun hdone => ?_⟩
      rw [hopen] at hdone
      cases hdone

theorem applyOps_regular (ops : List EditOp) {d : Draft} (h : d.pre.Regular) :
    (ops.foldl Draft.applyOp d).pre.Regular := by
  induction ops generalizing d with
  | nil => exact h
  | cons op ops ih => exact ih (Draft.applyOp_regular h op)

/-! ## A written prefix is read as itself -/

/-- Words that are taken one by one, a space between them. -/
theorem Path.joined {place q : Place} {p r : Prefix} {ws : List Text} (hws : ∀ w ∈ ws, IsRun w)
    (h : ws.foldlM (fun (r : Place × Prefix) w => r.1.take r.2 w) (place, p) = some (q, r)) :
    Path place p (joined ws) q r := by
  induction ws generalizing place p with
  | nil =>
    cases h
    exact .nil _ _
  | cons w ws ih =>
    obtain ⟨⟨place', p'⟩, htake, hrest⟩ := Option.bind_eq_some_iff.1 h
    have hpath := ih (fun v hv => hws v (List.mem_cons_of_mem _ hv)) hrest
    cases ws with
    | nil =>
      have hlast : Path place p (w ++ ([] ++ [])) q r :=
        .word (hws w (List.mem_cons_self ..)) htake (by simp) (by simp) hpath
      exact hlast
    | cons v ws =>
      have hnext : Path place p (w ++ ([' '] ++ Grammar.joined (v :: ws))) q r :=
        .word (hws w (List.mem_cons_self ..)) htake (List.forall_mem_singleton.2 rfl) (by simp) hpath
      exact hnext

theorem parse_date_display (d : Date) : Date.parse d.display = some d :=
  parse_date_iff.2 (isDate_iff.2 rfl)

theorem priorityOf_display (d : Date) : priorityOf d.display = none := by
  unfold priorityOf
  split
  · rename_i heq
    simp [Date.display] at heq
  · rfl

theorem display_ne_mark (d : Date) : d.display ≠ ['x'] := by
  simp [Date.display]

theorem priorityOf_letter (p : Priority) : priorityOf ['(', p.letter, ')'] = some p := dif_pos p.upper

/-- The words of a prefix are read as that prefix, a priority behind the mark left out. -/
theorem words_taken {p : Prefix} (h : p.Regular) (hpriority : p.completed = true → p.priority = none) :
    p.words.foldlM (fun (r : Place × Prefix) w => r.1.take r.2 w) (.start, Prefix.empty) =
      some (p.place, p) := by
  have hdate : ∀ d : Date, Date.parse d.display = some d ∧ priorityOf d.display = none ∧
      d.display ≠ ['x'] :=
    fun d => ⟨parse_date_display d, priorityOf_display d, display_ne_mark d⟩
  obtain ⟨completed, completion, creation, priority⟩ := p
  cases completed with
  | true =>
    obtain rfl : priority = none := hpriority rfl
    cases completion with
    | none =>
      obtain rfl : creation = none := h.dates rfl rfl
      rfl
    | some d =>
      cases creation with
      | none => simp [Prefix.words, Prefix.place, Prefix.empty, Place.take, hdate]
      | some e => simp [Prefix.words, Prefix.place, Prefix.empty, Place.take, hdate]
  | false =>
    obtain rfl : completion = none := h.opened rfl
    cases priority with
    | none =>
      cases creation with
      | none => rfl
      | some e => simp [Prefix.words, Prefix.place, Prefix.empty, Place.take, hdate]
    | some pri =>
      cases creation with
      | none => simp [Prefix.words, Prefix.place, Prefix.empty, Place.take, priorityOf_letter]
      | some e => simp [Prefix.words, Prefix.place, Prefix.empty, Place.take, hdate, priorityOf_letter]

theorem Draft.movePriority_false (d : Draft) : d.movePriority false = d := by
  unfold Draft.movePriority
  split <;> rfl

theorem Draft.movePriority_regular {d : Draft} (h : d.pre.Regular) (prefixDirty : Bool) :
    (d.movePriority prefixDirty).pre.Regular := by
  unfold Draft.movePriority
  split
  · split_ifs
    · rw [Draft.setTag_pre]
      exact ⟨h.opened, h.dates⟩
    · exact h
  · exact h

/-- A done line that is written anew has no priority in its prefix. -/
theorem Draft.movePriority_done {d : Draft} (h : (d.movePriority true).pre.completed = true) :
    (d.movePriority true).pre.priority = none := by
  unfold Draft.movePriority at h ⊢
  cases hpriority : d.pre.priority with
  | none => exact hpriority
  | some p =>
    rw [hpriority] at h
    dsimp only at h ⊢
    rw [Bool.true_and] at h ⊢
    cases hdone : d.pre.completed with
    | true => rw [if_pos rfl, Draft.setTag_pre]
    | false =>
      rw [hdone, if_neg Bool.false_ne_true, hdone] at h
      cases h

theorem ReadAs.take_descriptionStart {raw front : Text} {q : Place} (h : ReadAs raw q front (draftOf raw)) :
    raw.take (descriptionStart raw) = front := by
  have hsplit := List.take_append_drop (descriptionStart raw) raw
  rw [drop_descriptionStart] at hsplit
  exact List.append_cancel_right (hsplit.trans h.text)

theorem Edit.draft_pre {edit : Edit} {raw : Text} (h : edit.rewrites raw = false) :
    (edit.draft raw).pre = (draftOf raw).pre := by
  rw [Edit.draft, h, Draft.movePriority_false]
  exact not_not.1 (of_decide_eq_false h)

/-- A prefix that is kept is read as before. -/
theorem Edit.kept_path {edit : Edit} {raw front : Text} {q : Place} (h : edit.rewrites raw = false)
    (hread : ReadAs raw q front (draftOf raw)) :
    Path .start Prefix.empty (edit.front raw) q (edit.draft raw).pre ∧
      ((edit.draft raw).description ≠ [] → edit.front raw ≠ [] →
        (edit.front raw).getLast?.any isWs = true) := by
  rw [Edit.front, h, if_neg Bool.false_ne_true, hread.take_descriptionStart, draft_pre h]
  split_ifs with hempty hgap
  · exact ⟨hread.path.trim.1, fun hne => absurd (List.isEmpty_iff.1 hempty) hne⟩
  · rw [Bool.and_eq_true, Bool.not_eq_true', List.isEmpty_eq_false_iff] at hgap
    exact ⟨hread.path.pad hgap.1 (List.forall_mem_singleton.2 rfl), fun _ _ => by simp; rfl⟩
  · refine ⟨hread.path, fun _ hne => ?_⟩
    by_contra hlast
    exact hgap (by simp [hne, hlast])

theorem Edit.place_kept {edit : Edit} {raw front : Text} {q : Place} (h : edit.rewrites raw = false)
    (hread : ReadAs raw q front (draftOf raw)) : edit.place raw = q := by
  rw [Edit.place, h, if_neg Bool.false_ne_true, hread.take_descriptionStart, hread.path.placeAfter]

theorem Place.take_ne_start {place : Place} {p p' : Prefix} {w : Text} :
    place.take p w ≠ some (.start, p') := by
  intro h
  cases place with
  | start =>
    rw [Place.take] at h
    split_ifs at h
    · cases h
    · rcases Option.or_eq_some_iff.1 h with h | ⟨-, h⟩
      · simp at h
      · simp at h
  | openPriority => simp [Place.take] at h
  | mark => simp [Place.take, Option.or_eq_some_iff] at h
  | markPriority => simp [Place.take] at h
  | completion seen => cases seen <;> simp [Place.take] at h
  | creation seen => cases seen <;> simp [Place.take] at h
  | ended => simp [Place.take] at h

/-- No word leads back to the start. -/
theorem Path.ne_start {place q : Place} {p r : Prefix} {s : Text} (h : Path place p s q r)
    (hplace : place ≠ .start) : q ≠ .start := by
  induction h with
  | nil => exact hplace
  | word hw htake hsep hne h ih =>
    refine ih ?_
    rintro rfl
    exact Place.take_ne_start htake

theorem Path.eq_nil_iff {q : Place} {p r : Prefix} {s : Text} (h : Path .start p s q r) :
    s = [] ↔ q = .start := by
  cases h with
  | nil => simp
  | word hw htake hsep hne h =>
    refine ⟨fun hnil => absurd (List.append_eq_nil_iff.1 hnil).1 hw.1, fun hq => absurd hq ?_⟩
    refine h.ne_start ?_
    rintro rfl
    exact Place.take_ne_start htake

/-- What an edit writes in front of the description is read as the prefix of its draft. -/
theorem Edit.front_path (edit : Edit) (raw : Text) :
    Path .start Prefix.empty (edit.front raw) (edit.place raw) (edit.draft raw).pre ∧
      ((edit.draft raw).description ≠ [] → edit.front raw ≠ [] →
        (edit.front raw).getLast?.any isWs = true) := by
  have hregular := applyOps_regular edit.ops (draftOf_regular raw)
  cases hdirty : edit.rewrites raw with
  | true =>
    have hdone : (edit.draft raw).pre.completed = true → (edit.draft raw).pre.priority = none := by
      rw [Edit.draft, hdirty]
      exact Draft.movePriority_done
    have htaken := words_taken (Draft.movePriority_regular hregular (edit.rewrites raw)) hdone
    have hpath : Path .start Prefix.empty (joined (edit.draft raw).pre.words) (edit.place raw)
        (edit.draft raw).pre := by
      rw [Edit.place, hdirty, if_pos rfl]
      exact Path.joined (words_isRun _) htaken
    have hfront : edit.front raw =
        emitPrefix (edit.draft raw).pre (!(edit.draft raw).description.isEmpty) := by
      rw [Edit.front, hdirty, if_pos rfl]
    rw [hfront, emitPrefix_eq, emitPrefix_false]
    split_ifs with hpad
    · rw [Bool.and_eq_true, Bool.not_eq_true', List.isEmpty_eq_false_iff] at hpad
      exact ⟨hpath.pad hpad.1 (List.forall_mem_singleton.2 rfl), fun _ _ => by simp; rfl⟩
    · refine ⟨hpath, fun hdescription hne => absurd ?_ hpad⟩
      simp [hdescription, hne]
  | false =>
    obtain ⟨q, front, hread⟩ := draftOf_readAs raw
    rw [Edit.place_kept hdirty hread]
    exact Edit.kept_path hdirty hread

/-! ## Put and get -/

/-- An edit that changes nothing reads back. -/
theorem Edit.readsBack_of_same {edit : Edit} {raw : Text} (h : edit.rewrites raw = false)
    (hsame : (edit.draft raw).description = (draftOf raw).description) : edit.ReadsBack raw := by
  obtain ⟨q, front, hread⟩ := draftOf_readAs raw
  rw [Edit.ReadsBack, Edit.place_kept h hread, Edit.draft_pre h, hsame]
  refine ⟨?_, hread.stop⟩
  rcases hread.apart with hfront | hdescription | ⟨-, hhead⟩
  · exact .inl (hread.path.eq_nil_iff.1 hfront)
  · rw [hdescription]
    exact .inr rfl
  · exact .inr hhead

/-- The text an edit leaves is read as the edit's draft exactly when its description starts with nothing
that is read as prefix. -/
theorem put_get_iff {line : OwnedLine} {raw : Text} (hraw : line.raw = some raw) (edit : Edit) :
    (apply line edit).raw.map draftOf = some (edit.draft raw) ↔ edit.ReadsBack raw := by
  obtain ⟨hpath, hlast⟩ := edit.front_path raw
  have happart : Apart (edit.front raw) (edit.draft raw).description ↔
      edit.place raw = .start ∨ (edit.draft raw).description.head?.any isWs = false := by
    rw [← hpath.eq_nil_iff]
    constructor
    · rintro (hnil | hnil | ⟨-, hhead⟩)
      · exact .inl hnil
      · rw [hnil]
        exact .inr rfl
      · exact .inr hhead
    · rintro (hnil | hhead)
      · exact .inl hnil
      · by_cases hdescription : (edit.draft raw).description = []
        · exact .inr (.inl hdescription)
        · by_cases hfront : edit.front raw = []
          · exact .inl hfront
          · exact .inr (.inr ⟨hlast hdescription hfront, hhead⟩)
  rw [apply_raw hraw, Option.map_some, Option.some_inj]
  split_ifs with hsame
  · have hdraft : draftOf raw = ⟨(edit.draft raw).pre, (edit.draft raw).description⟩ := by
      rw [Edit.draft_pre hsame.1, hsame.2]
    exact ⟨fun _ => Edit.readsBack_of_same hsame.1 hsame.2, fun _ => hdraft⟩
  · rw [Edit.ReadsBack, ← happart]
    exact draftOf_append_iff hpath

/-- A tag and another priority on a line with a tab. -/
theorem put_get_tabbed : (apply (OwnedLine.ofText "(A)\tcall @mum".toList .lf)
    ⟨[.setTag "due".toList "2026-09-12".toList, .setPriority ⟨'B', by decide⟩]⟩).raw.map draftOf =
      some (Edit.draft ⟨[.setTag "due".toList "2026-09-12".toList, .setPriority ⟨'B', by decide⟩]⟩
        "(A)\tcall @mum".toList) := by
  refine (put_get_iff (OwnedLine.ofText_raw _ _) _).2 ?_
  unfold Edit.ReadsBack
  decide +kernel

/-- A description set to text that starts with `x` completes the task, and the space in front of one that
stands behind a priority is lost. -/
theorem put_get_fails :
    (∃ edit, Edit.new.setDescription "x ray results".toList = .ok edit ∧
      ¬(apply (OwnedLine.ofText "call @mum".toList .lf) edit).raw.map draftOf =
        some (edit.draft "call @mum".toList)) ∧
    ∃ edit, Edit.new.setDescription " call".toList = .ok edit ∧
      ¬(apply (OwnedLine.ofText "(A) call @mum".toList .lf) edit).raw.map draftOf =
        some (edit.draft "(A) call @mum".toList) := by
  refine ⟨⟨⟨[.setDescription "x ray results".toList]⟩, rfl, ?_⟩,
    ⟨[.setDescription " call".toList]⟩, rfl, ?_⟩
  · decide +kernel
  · decide +kernel

end Txtodo
