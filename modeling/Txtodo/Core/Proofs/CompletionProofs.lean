import Txtodo.Core.Proofs.StrictProofs
import Txtodo.Core.Edit

/-!
# Completing and reopening a line

Completing moves the priority into a `pri:` tag and puts a date in front; reopening undoes it on the line
as it is read back. Both are followed on the words of the line.
-/

namespace Txtodo

open Grammar

/-! ## The draft of a line of words -/

section Draft
variable {ws us vs ds : List Text} {priority : Option Priority} {creation : Option Date}

theorem joined_ne_nil (hws : ∀ w ∈ ws, IsRun w) (hne : ws ≠ []) : joined ws ≠ [] := by
  cases ws with
  | nil => exact absurd rfl hne
  | cons w ws => exact fun h => (hws w (List.mem_cons_self ..)).1 (List.append_eq_nil_iff.1 h).1

theorem draftOf_open (hws : ∀ w ∈ ws, IsRun w) (hmark : ws.head? ≠ some ['x'])
    (h : PriorityRead ws priority us) (hread : CreationRead us creation vs) :
    draftOf (joined ws) = ⟨⟨false, none, creation, priority⟩, joined vs⟩ := by
  by_cases hne : ws = []
  · subst hne
    cases h
    cases hread
    rfl
  have hspaced : Spaced (chunks (joined ws)) ws := Spaced.chunksFrom hws 0
  have hstart : ¬Parser.startsCompleted ⟨joined ws, chunks (joined ws), .lenient, Quirks.NONE⟩ = true :=
    fun htrue => hmark ((startsCompleted_lenient _ _ hspaced).1 htrue)
  obtain ⟨cs, hrun, hcs⟩ := incompletePrefix_run (joined ws) .lenient Quirks.NONE hspaced h hread
  have hpre : taskPrefix ⟨joined ws, chunks (joined ws), .lenient, Quirks.NONE⟩ =
      incompletePrefix Task.empty := if_neg hstart
  have hparse := parseTask_run_of_fields (joined ws) .lenient hcs
    ((congrArg (fun m => StateT.run m _) hpre).trans hrun)
  rw [draftOf, taskOf_of_run (joined_ne_nil hws hne) hparse]
  rfl

theorem draftOf_completed {w : Text} {completion : Date} (hus : ∀ u ∈ us, IsRun u)
    (h : IsDate w completion) (hread : CreationRead us creation vs)
    (hpriority : PriorityRead vs priority ds) :
    draftOf (joined (['x'] :: w :: us)) =
      ⟨⟨true, some completion, creation, priority⟩, joined ds⟩ := by
  have hws : ∀ v ∈ ['x'] :: w :: us, IsRun v := by
    refine List.forall_mem_cons.2 ⟨⟨by simp, List.forall_mem_singleton.2 rfl⟩, ?_⟩
    exact List.forall_mem_cons.2 ⟨h.word.isRun, hus⟩
  have hspaced := Spaced.chunksFrom hws 0
  obtain ⟨cs, hrun, hcs⟩ := taskPrefix_run_completed (joined (['x'] :: w :: us)) Quirks.NONE
    hspaced h hread hpriority
  have hparse := parseTask_run_of_fields _ .lenient hcs hrun
  rw [draftOf, taskOf_of_run (joined_ne_nil hws (by simp)) hparse]
  rfl

end Draft

/-! ## Emitting words -/

section Emit

theorem joined_append {us : List Text} (hus : us ≠ []) (vs : List Text) :
    joined (us ++ vs) = joined us ++ spaced vs := by
  cases us with
  | nil => exact absurd rfl hus
  | cons u us => simp [joined_cons, spaced]

theorem joined_isEmpty {ws : List Text} (hws : ∀ w ∈ ws, w ≠ []) : (joined ws).isEmpty = ws.isEmpty := by
  cases ws with
  | nil => rfl
  | cons w ws =>
    obtain ⟨c, w', hw⟩ := List.exists_cons_of_ne_nil (hws w (List.mem_cons_self ..))
    rw [hw]
    rfl

/-- The words of an emitted prefix. -/
def Prefix.words (p : Prefix) : List Text :=
  (if p.completed then ['x'] :: (p.completionDate.map Date.display).toList
    else (p.priority.map fun pri => ['(', pri.letter, ')']).toList) ++
    (p.creationDate.map Date.display).toList

theorem pushDate_joined (ws : List Text) (hws : ∀ w ∈ ws, w ≠ []) (date : Option Date) :
    pushDate (joined ws) date = joined (ws ++ (date.map Date.display).toList) := by
  cases date with
  | none => simp [pushDate]
  | some d =>
    rw [pushDate, joined_isEmpty hws]
    cases ws with
    | nil => rfl
    | cons w ws =>
      rw [joined_append (by simp)]
      simp [spaced]

theorem display_ne_nil (d : Date) : d.display ≠ [] := by
  simp [Date.display]

theorem Prefix.words_ne_nil (p : Prefix) : ∀ w ∈ p.words, w ≠ [] := by
  intro w hw
  rcases List.mem_append.1 hw with hw | hw
  · split_ifs at hw
    · rcases List.mem_cons.1 hw with rfl | hw
      · simp
      · obtain ⟨d, -, rfl⟩ := Option.map_eq_some_iff.1 (Option.mem_toList.1 hw)
        exact display_ne_nil d
    · obtain ⟨pri, -, rfl⟩ := Option.map_eq_some_iff.1 (Option.mem_toList.1 hw)
      simp
  · obtain ⟨d, -, rfl⟩ := Option.map_eq_some_iff.1 (Option.mem_toList.1 hw)
    exact display_ne_nil d

theorem emitPrefix_false (p : Prefix) : emitPrefix p false = joined p.words := by
  obtain ⟨completed, completion, creation, priority⟩ := p
  rw [emitPrefix, Bool.and_false, if_neg Bool.false_ne_true]
  cases completed with
  | true =>
    have hx := pushDate_joined [['x']] (by simp) completion
    have hne : ∀ w ∈ ['x'] :: (completion.map Date.display).toList, w ≠ [] := fun w hw =>
      Prefix.words_ne_nil ⟨true, completion, creation, priority⟩ w (List.mem_append_left _ hw)
    exact (congrArg (pushDate · creation) hx).trans (pushDate_joined _ hne creation)
  | false =>
    cases priority with
    | none => exact pushDate_joined [] (by simp) creation
    | some pri => exact pushDate_joined [['(', pri.letter, ')']] (by simp) creation

theorem emitPrefix_eq (p : Prefix) (hasDescription : Bool) : emitPrefix p hasDescription =
    if !(emitPrefix p false).isEmpty && hasDescription then emitPrefix p false ++ [' ']
    else emitPrefix p false := by
  simp [emitPrefix]

/-- A prefix is emitted in front of the words of a description as words. -/
theorem emitPrefix_joined (p : Prefix) {ws : List Text} (hws : ∀ w ∈ ws, w ≠ []) :
    emitPrefix p (!(joined ws).isEmpty) ++ joined ws = joined (p.words ++ ws) := by
  rw [emitPrefix_eq, emitPrefix_false, joined_isEmpty p.words_ne_nil, joined_isEmpty hws]
  cases ws with
  | nil => simp
  | cons w ws =>
    cases hp : p.words with
    | nil => simp
    | cons v vs =>
      rw [joined_append (by simp)]
      simp

end Emit

/-! ## Tags of words -/

/-- Whether a word is a tag named `key`. -/
def hasKey (key w : Text) : Bool :=
  match classifyWord w DEFAULT_SCHEMES with
  | .tag colon => w.take colon = key
  | .idTag => key = "id".toList
  | _ => false

section Tags
variable {key w : Text} {cs : List Chunk} {ws : List Text}

theorem findTagIn_cons (key : Text) (pos : Nat) (c : Chunk) (rest : List Chunk) :
    Draft.findTagIn key pos (c :: rest) =
      if c.isWs = false ∧ hasKey key c.text = true then some (pos, pos + c.text.length)
      else Draft.findTagIn key (pos + c.text.length) rest := by
  rw [Draft.findTagIn, hasKey]
  cases c.isWs with
  | true => simp
  | false =>
    cases classifyWord c.text DEFAULT_SCHEMES with
    | tag colon => simp
    | idTag => simp
    | url => simp
    | project => simp
    | context => simp
    | text => simp

/-- A task without a tag has no word that is one. -/
theorem hasKey_of_tag {t : Task} (h : t.tag key = none) (hspaced : Spaced (chunks t.description) ws) :
    ∀ w ∈ ws, hasKey key w = false := by
  intro w hw
  have hword : (classifyWord w DEFAULT_SCHEMES, w) ∈ t.words := by
    rw [← hspaced.words] at hw
    obtain ⟨c, hc, rfl⟩ := List.mem_map.1 hw
    exact List.mem_map.2 ⟨c, hc, rfl⟩
  have hnone : ∀ x ∈ t.tags, x.1 ≠ key := by
    rw [Task.tag, Option.map_eq_none_iff, List.find?_eq_none] at h
    exact fun x hx heq => h x hx (decide_eq_true heq)
  rw [hasKey]
  cases hkind : classifyWord w DEFAULT_SCHEMES with
  | tag colon =>
    rw [hkind] at hword
    exact decide_eq_false (hnone _ (List.mem_filterMap.2 ⟨_, hword, rfl⟩))
  | idTag =>
    rw [hkind] at hword
    exact decide_eq_false fun heq => hnone _ (List.mem_filterMap.2 ⟨_, hword, rfl⟩) heq.symm
  | url => rfl
  | project => rfl
  | context => rfl
  | text => rfl

theorem Grammar.Spaced.findTagIn_none (h : Spaced cs ws) (hno : ∀ w ∈ ws, hasKey key w = false)
    (pos : Nat) : Draft.findTagIn key pos cs = none := by
  induction h generalizing pos with
  | nil => rfl
  | last start hw => rw [findTagIn_cons, if_neg (by simp [hno])]; rfl
  | cons start space hw h ih =>
    rw [findTagIn_cons, if_neg (by simp [hno]), findTagIn_cons, if_neg (by simp)]
    exact ih (fun v hv => hno v (List.mem_cons_of_mem _ hv)) _

/-- Words, each in front of a space. -/
def lead (ws : List Text) : Text := ws.flatMap (· ++ [' '])

theorem joined_middle (before after : List Text) (w : Text) :
    joined (before ++ w :: after) = lead before ++ (w ++ spaced after) := by
  induction before with
  | nil => rfl
  | cons v before ih =>
    have hlead : lead (v :: before) = v ++ ' ' :: lead before := by simp [lead]
    rw [hlead, List.append_assoc, List.cons_append (a := ' '), ← ih, List.cons_append, joined_cons]
    cases before <;> rfl

theorem lead_eq (hne : ws ≠ []) : lead ws = joined ws ++ [' '] := by
  obtain ⟨us, u, rfl⟩ := (List.eq_nil_or_concat' ws).resolve_left hne
  rw [joined_middle]
  simp [lead]

/-- The first tag is found where it stands. -/
theorem Grammar.Spaced.findTagIn_first {before after : List Text} (h : Spaced cs (before ++ w :: after))
    (hno : ∀ v ∈ before, hasKey key v = false) (hw : hasKey key w = true) (pos : Nat) :
    Draft.findTagIn key pos cs =
      some (pos + (lead before).length, pos + (lead before).length + w.length) := by
  induction before generalizing cs pos with
  | nil =>
    obtain ⟨start, rest, rfl, -⟩ := h.word
    rw [findTagIn_cons, if_pos ⟨rfl, hw⟩]
    rfl
  | cons v before ih =>
    rw [List.cons_append] at h
    obtain ⟨start, rest, rfl, hrest⟩ := h.word
    have hv := hno v (List.mem_cons_self ..)
    have hlen : (lead (v :: before)).length = v.length + (1 + (lead before).length) := by
      simp only [lead, List.flatMap_cons, List.length_append, List.length_singleton, Nat.add_assoc]
    rw [findTagIn_cons, if_neg (by simp [hv])]
    generalize hus : before ++ w :: after = us at hrest
    cases hrest with
    | nil => simp at hus
    | space space hcs =>
      rw [← hus] at hcs
      rw [findTagIn_cons, if_neg (by simp), ih hcs (fun u hu => hno u (List.mem_cons_of_mem _ hu)), hlen]
      simp only [List.length_singleton, Nat.add_assoc]

end Tags

/-! ## The draft completed and reopened -/

/-- The tag a priority becomes. -/
def priWord (p : Priority) : Text := "pri".toList ++ [':'] ++ [p.letter]

def priTag (p : Option Priority) : List Text := (p.map priWord).toList

theorem hasKey_priWord (p : Priority) : hasKey "pri".toList (priWord p) = true := rfl

theorem priWord_isRun (p : Priority) : IsRun (priWord p) := by
  have hp : IsPriority ['(', p.letter, ')'] p := rfl
  have hletter : isWs p.letter = false := hp.word.isRun.2 _ (by simp)
  refine ⟨by simp [priWord], ?_⟩
  refine List.forall_mem_append.2 ⟨List.forall_iff_forall_mem.1 (by decide), ?_⟩
  exact List.forall_mem_singleton.2 hletter

theorem priTag_isRun (p : Option Priority) : ∀ w ∈ priTag p, IsRun w := by
  intro w hw
  obtain ⟨q, -, rfl⟩ := Option.map_eq_some_iff.1 (Option.mem_toList.1 hw)
  exact priWord_isRun q

section Complete
variable {ws vs : List Text} {pre : Prefix}

theorem append_joined (hws : ∀ w ∈ ws, IsRun w) {w : Text} (hw : IsRun w) :
    (⟨pre, joined ws⟩ : Draft).append w = ⟨pre, joined (ws ++ [w])⟩ := by
  rw [Draft.append, joined_isEmpty fun w hw => (hws w hw).1]
  cases ws with
  | nil => simp [joined_cons]
  | cons v ws =>
    rw [joined_append (by simp)]
    have hne : w.isEmpty = false := by simpa using hw.1
    simp [hne, joined_cons]

theorem findTag_none (hws : ∀ w ∈ ws, IsRun w) (hpri : ∀ w ∈ ws, hasKey "pri".toList w = false) :
    (⟨pre, joined ws⟩ : Draft).findTag "pri".toList = none :=
  (Spaced.chunksFrom hws 0).findTagIn_none hpri 0

theorem findTag_first {before after : List Text} {w : Text} (pre : Prefix)
    (hws : ∀ v ∈ before ++ w :: after, IsRun v) (hno : ∀ v ∈ before, hasKey "pri".toList v = false)
    (hw : hasKey "pri".toList w = true) :
    (⟨pre, joined (before ++ w :: after)⟩ : Draft).findTag "pri".toList =
      some ((lead before).length, (lead before).length + w.length) := by
  have hfound := (Spaced.chunksFrom hws 0).findTagIn_first hno hw 0
  rwa [Nat.zero_add] at hfound

/-- The priority becomes the last word. -/
theorem complete_joined (hws : ∀ w ∈ ws, IsRun w) (hpri : ∀ w ∈ ws, hasKey "pri".toList w = false)
    (creation : Option Date) (priority : Option Priority) (today : Date) :
    (⟨⟨false, none, creation, priority⟩, joined ws⟩ : Draft).complete today =
      ⟨⟨true, some today, creation, none⟩, joined (ws ++ priTag priority)⟩ := by
  cases priority with
  | none => simp [Draft.complete, priTag]
  | some p =>
    have hset : (⟨⟨true, some today, creation, none⟩, joined ws⟩ : Draft).setTag "pri".toList [p.letter] =
        ⟨⟨true, some today, creation, none⟩, joined (ws ++ [priWord p])⟩ := by
      rw [Draft.setTag, findTag_none hws hpri]
      exact append_joined hws (priWord_isRun p)
    exact hset

/-- The first tag goes, with the space before it or after it. -/
theorem removeTag_first {before after : List Text} {w : Text}
    (hws : ∀ v ∈ before ++ w :: after, IsRun v) (hno : ∀ v ∈ before, hasKey "pri".toList v = false)
    (hw : hasKey "pri".toList w = true) :
    (⟨pre, joined (before ++ w :: after)⟩ : Draft).removeTag "pri".toList =
      ⟨pre, joined (before ++ after)⟩ := by
  have hrest : (lead before ++ (w ++ spaced after)).drop ((lead before).length + w.length) =
      spaced after := by
    rw [← List.append_assoc, ← List.length_append, List.drop_left]
  rw [Draft.removeTag, findTag_first pre hws hno hw]
  dsimp only
  rw [joined_middle]
  by_cases hne : before = []
  · subst hne
    have hend : (lead [] ++ (w ++ spaced after))[(lead []).length + w.length]? = (spaced after)[0]? := by
      have hfirst := congrArg (·[0]?) hrest
      rwa [List.getElem?_drop, Nat.add_zero] at hfirst
    rw [if_neg (by simp [lead]), hend]
    cases after with
    | nil =>
      rw [if_neg (by simp), replaceRange, hrest]
      rfl
    | cons v after =>
      have hspace : (spaced (v :: after))[0]? = some ' ' := rfl
      rw [if_pos hspace, replaceRange, ← List.drop_drop, hrest]
      rfl
  · rw [lead_eq hne] at hrest ⊢
    rw [if_pos ⟨by simp, by simp⟩, replaceRange, hrest, joined_append hne]
    simp

/-- The letter of the first tag. -/
theorem first_letter {before after : List Text} {w : Text} :
    (((joined (before ++ w :: after)).take ((lead before).length + w.length)).drop
      ((lead before).length + 4)).head? = (w.drop 4).head? := by
  rw [joined_middle, ← List.append_assoc, ← List.length_append, List.take_left, List.drop_append,
    List.drop_of_length_le (Nat.le_add_right ..), Nat.add_sub_cancel_left]
  rfl

theorem uncomplete_tagged {before after : List Text} {w : Text}
    (hws : ∀ v ∈ before ++ w :: after, IsRun v) (hno : ∀ v ∈ before, hasKey "pri".toList v = false)
    (hw : hasKey "pri".toList w = true) (completion : Date) (creation : Option Date)
    (read : Option Priority) :
    (⟨⟨true, some completion, creation, read⟩, joined (before ++ w :: after)⟩ : Draft).uncomplete =
      match (w.drop 4).head?.bind Priority.new with
      | some p => ⟨⟨false, none, creation, some p⟩, joined (before ++ after)⟩
      | none => ⟨⟨false, none, creation, read⟩, joined (before ++ w :: after)⟩ := by
  rw [Draft.uncomplete, findTag_first _ hws hno hw]
  dsimp only [Bool.not_true, Option.bind_some]
  rw [first_letter]
  cases (w.drop 4).head?.bind Priority.new with
  | none => rfl
  | some p => exact removeTag_first hws hno hw

theorem uncomplete_untagged (hws : ∀ w ∈ ws, IsRun w) (hpri : ∀ w ∈ ws, hasKey "pri".toList w = false)
    (completion : Date) (creation : Option Date) (read : Option Priority) :
    (⟨⟨true, some completion, creation, read⟩, joined ws⟩ : Draft).uncomplete =
      ⟨⟨false, none, creation, read⟩, joined ws⟩ := by
  rw [Draft.uncomplete, findTag_none hws hpri]
  rfl

/-- The priority is the tag's where one was appended, else what is read in front of the description. -/
theorem uncomplete_joined (hws : ∀ w ∈ ws, IsRun w) (hpri : ∀ w ∈ ws, hasKey "pri".toList w = false)
    (completion : Date) (creation : Option Date) (priority read : Option Priority) :
    (⟨⟨true, some completion, creation, read⟩, joined (ws ++ priTag priority)⟩ : Draft).uncomplete =
      ⟨⟨false, none, creation, priority.or read⟩, joined ws⟩ := by
  cases priority with
  | none =>
    rw [priTag, Option.map_none, Option.toList_none, List.append_nil]
    exact uncomplete_untagged hws hpri completion creation read
  | some p =>
    have hall : ∀ w ∈ ws ++ [priWord p], IsRun w :=
      List.forall_mem_append.2 ⟨hws, List.forall_mem_singleton.2 (priWord_isRun p)⟩
    have hnew : Priority.new p.letter = some p := dif_pos p.upper
    have hopened := uncomplete_tagged hall hpri (hasKey_priWord p) completion creation read
    have hletter : ((priWord p).drop 4).head?.bind Priority.new = some p := hnew
    rw [hletter, List.append_nil] at hopened
    exact hopened

end Complete

/-! ## The line completed and reopened -/

section Apply
variable {line : OwnedLine} {raw : Text} {op : EditOp}

theorem drop_descriptionStart (raw : Text) : raw.drop (descriptionStart raw) = (draftOf raw).description := by
  by_cases hne : raw = []
  · subst hne
    rfl
  obtain ⟨t, cs, ht, ⟨pre, hpre⟩, hdescription⟩ := taskOf_spec hne
  have hraw : raw = textOf pre ++ t.description := by
    rw [hdescription, ← textOf_append, hpre]
    exact (textOf_chunksFrom 0 raw).symm
  rw [descriptionStart, draftOf, ht]
  dsimp only
  nth_rewrite 1 [hraw]
  rw [hraw, List.length_append, Nat.add_sub_cancel, List.drop_left]

/-- An edit that changes nothing leaves the line. -/
theorem apply_of_same (hraw : line.raw = some raw) (h : (draftOf raw).applyOp op = draftOf raw) :
    apply line ⟨[op]⟩ = line := by
  have hmove : (draftOf raw).movePriority false = draftOf raw := by
    unfold Draft.movePriority
    cases (draftOf raw).pre.priority <;> rfl
  rw [apply, hraw]
  simp [h, Draft.write, hmove]

/-- An edit of the prefix emits it anew, in front of the description. -/
theorem apply_rewritten (hraw : line.raw = some raw)
    (hdirty : ((draftOf raw).applyOp op).pre ≠ (draftOf raw).pre)
    (hplace : ((draftOf raw).applyOp op).pre.completed = true →
      ((draftOf raw).applyOp op).pre.priority = none) :
    apply line ⟨[op]⟩ = OwnedLine.ofText
      (emitPrefix ((draftOf raw).applyOp op).pre (!((draftOf raw).applyOp op).description.isEmpty) ++
        ((draftOf raw).applyOp op).description) line.ending := by
  generalize hdraft : (draftOf raw).applyOp op = draft at hdirty hplace ⊢
  have hmove : draft.movePriority true = draft := by
    unfold Draft.movePriority
    cases hpriority : draft.pre.priority with
    | none => rfl
    | some p =>
      have hopen : draft.pre.completed = false :=
        Bool.eq_false_iff.2 fun h => by
          rw [hplace h] at hpriority
          cases hpriority
      simp [hopen]
  have hdescription : (if draft.description ≠ (draftOf raw).description then draft.description
      else raw.drop (descriptionStart raw)) = draft.description := by
    rw [drop_descriptionStart]
    split_ifs with h
    · rfl
    · exact (not_not.1 h).symm
  rw [apply, hraw]
  dsimp only
  rw [List.foldl_cons, List.foldl_nil, hdraft, Draft.write, decide_eq_true hdirty, hmove]
  simp only [Bool.not_true, Bool.false_and, Bool.false_eq_true, if_false, Draft.emit, if_true,
    decide_eq_true_eq]
  rw [hdescription]

theorem apply_joined {pre : Prefix} {ws : List Text} (hws : ∀ w ∈ ws, IsRun w)
    (hraw : line.raw = some raw) (hdraft : (draftOf raw).applyOp op = ⟨pre, joined ws⟩)
    (hdirty : pre ≠ (draftOf raw).pre) (hplace : pre.completed = true → pre.priority = none) :
    apply line ⟨[op]⟩ = OwnedLine.ofText (joined (pre.words ++ ws)) line.ending := by
  rw [apply_rewritten hraw (by rwa [hdraft]) (by rwa [hdraft]), hdraft,
    emitPrefix_joined pre fun w hw => (hws w hw).1]

end Apply

/-! ## What reopening gives back -/

section Reopen
variable {ws us vs ds : List Text} {priority read : Option Priority} {creation : Option Date}

theorem priWord_not_priority (p q : Priority) : ¬IsPriority (priWord p) q := fun h => by
  cases h.length

theorem priWord_not_shape (p : Priority) : ¬∃ year month day, DateShape (priWord p) year month day := by
  rintro ⟨year, month, day, h⟩
  cases h.length

theorem Grammar.CreationRead.words (h : CreationRead us creation vs) :
    us = (creation.map Date.display).toList ++ vs := by
  cases h with
  | nil => rfl
  | date hdate => rw [isDate_iff.1 hdate]; rfl
  | other => rfl

/-- The words of an open line. -/
theorem words_of_reads (h : PriorityRead ws priority us) (hread : CreationRead us creation vs) :
    ws = Prefix.words ⟨false, none, creation, priority⟩ ++ vs := by
  have hus := hread.words
  have hws : ws = (priority.map fun pri => ['(', pri.letter, ')']).toList ++ us := by
    cases h with
    | nil => rfl
    | priority hpriority => rw [show _ = _ from hpriority]; rfl
    | other => rfl
  rw [hws, hus, ← List.append_assoc]
  rfl

theorem Grammar.CreationRead.append_priTag (h : CreationRead us creation vs) (priority : Option Priority) :
    CreationRead ((creation.map Date.display).toList ++ (vs ++ priTag priority)) creation
      (vs ++ priTag priority) := by
  cases h with
  | nil =>
    cases priority with
    | none => exact .nil
    | some p =>
      exact .other (fun date hdate => priWord_not_shape p ⟨_, _, _, hdate⟩) (priWord_not_shape p)
  | date h => exact .date (isDate_iff.2 rfl)
  | other h hshape => exact .other h hshape

theorem Grammar.PriorityRead.append_priTag (h : PriorityRead vs read ds) (priority : Option Priority) :
    PriorityRead (vs ++ priTag priority) read (ds ++ priTag priority) := by
  cases h with
  | nil =>
    cases priority with
    | none => exact .nil
    | some p => exact .other (priWord_not_priority p)
  | priority h => exact .priority h
  | other h => exact .other h

/-- Completed, read back and reopened, a line has its words but for a priority read in front of the
description. -/
theorem reopen_words (hws : ∀ w ∈ ws, IsRun w) (hmark : ws.head? ≠ some ['x'])
    (h : PriorityRead ws priority us) (hread : CreationRead us creation vs)
    (hpri : ∀ w ∈ vs, hasKey "pri".toList w = false) (hagain : PriorityRead vs read ds)
    (ending : LineEnding) (today : Date) :
    apply (apply (OwnedLine.ofText (joined ws) ending) (Edit.new.complete today)) Edit.new.uncomplete =
      OwnedLine.ofText (joined (Prefix.words ⟨false, none, creation, priority.or read⟩ ++ ds)) ending := by
  have hvs : ∀ w ∈ vs, IsRun w := by
    rw [words_of_reads h hread] at hws
    exact (List.forall_mem_append.1 hws).2
  have hds : ∀ w ∈ ds, w ∈ vs := fun w hw => hagain.suffix.subset hw
  have hdraft := draftOf_open hws hmark h hread
  have htagged : ∀ w ∈ vs ++ priTag priority, IsRun w :=
    List.forall_mem_append.2 ⟨hvs, priTag_isRun priority⟩
  have hdone : apply (OwnedLine.ofText (joined ws) ending) (Edit.new.complete today) =
      OwnedLine.ofText (joined (Prefix.words ⟨true, some today, creation, none⟩ ++
        (vs ++ priTag priority))) ending := by
    refine apply_joined htagged (OwnedLine.ofText_raw _ _) ?_ ?_ fun _ => rfl
    · rw [hdraft]
      exact complete_joined hvs hpri creation priority today
    · rw [hdraft]
      exact fun heq => Bool.noConfusion (congrArg Prefix.completed heq)
  have hdates : ∀ w ∈ (creation.map Date.display).toList ++ (vs ++ priTag priority), IsRun w := by
    refine List.forall_mem_append.2 ⟨fun w hw => ?_, htagged⟩
    obtain ⟨d, -, rfl⟩ := Option.map_eq_some_iff.1 (Option.mem_toList.1 hw)
    exact (isDate_iff.2 rfl).word.isRun
  have hback : draftOf (joined (Prefix.words ⟨true, some today, creation, none⟩ ++
      (vs ++ priTag priority))) = ⟨⟨true, some today, creation, read⟩, joined (ds ++ priTag priority)⟩ :=
    draftOf_completed hdates (isDate_iff.2 rfl) (hread.append_priTag priority)
      (hagain.append_priTag priority)
  rw [hdone]
  refine apply_joined (fun w hw => hvs w (hds w hw)) (OwnedLine.ofText_raw _ _) ?_ ?_ fun h => by cases h
  · rw [hback]
    exact uncomplete_joined (fun w hw => hvs w (hds w hw)) (fun w hw => hpri w (hds w hw)) today creation
      priority read
  · rw [hback]
    exact fun heq => Bool.noConfusion (congrArg Prefix.completed heq)

theorem words_isRun (p : Prefix) : ∀ w ∈ p.words, IsRun w := by
  intro w hw
  have hdate : ∀ (d : Option Date), w ∈ (d.map Date.display).toList → IsRun w := by
    intro d hd
    obtain ⟨d, -, rfl⟩ := Option.map_eq_some_iff.1 (Option.mem_toList.1 hd)
    exact (isDate_iff.2 rfl).word.isRun
  rcases List.mem_append.1 hw with hw | hw
  · split_ifs at hw
    · rcases List.mem_cons.1 hw with rfl | hw
      · exact ⟨by simp, List.forall_mem_singleton.2 rfl⟩
      · exact hdate _ hw
    · obtain ⟨pri, -, rfl⟩ := Option.map_eq_some_iff.1 (Option.mem_toList.1 hw)
      exact (show IsPriority _ pri from rfl).word.isRun
  · exact hdate _ hw

/-- The words come back when no priority is read in front of the description. -/
theorem words_back_iff (h : PriorityRead ws priority us) (hread : CreationRead us creation vs)
    (hagain : PriorityRead vs read ds) :
    Prefix.words ⟨false, none, creation, priority.or read⟩ ++ ds = ws ↔ read = none := by
  have hws := words_of_reads h hread
  constructor
  · intro heq
    cases hagain with
    | nil => rfl
    | other => rfl
    | @priority w ds p hp =>
      rw [hws] at heq
      cases priority with
      | some q =>
        have hlen := congrArg List.length heq
        simp [Prefix.words] at hlen
      | none =>
        cases creation with
        | some date =>
          -- the priority would stand before the date
          have hhead := (List.cons.inj heq).1
          cases congrArg List.length hhead
        | none =>
          have hno : ∀ q, ¬IsPriority w q := by
            cases hread with
            | other =>
              cases h with
              | other h => exact h
          exact absurd hp (hno p)
  · rintro rfl
    cases hagain with
    | nil => rw [hws, Option.or_none]
    | other => rw [hws, Option.or_none]

end Reopen

/-! ## A line with a completion mark -/

/-- What `m` returns, if it does, is as `Q` says. -/
def Returns {α : Type} (m : ParseM α) (Q : α → Prop) : Prop := ∀ p a p', m.run p = .ok (a, p') → Q a

namespace Returns

variable {α β : Type} {m : ParseM α} {f : α → ParseM β} {R : α → Prop} {Q : β → Prop}

theorem of_pure {a : β} (h : Q a) : Returns (pure a) Q := by
  intro p b p' hrun
  cases hrun
  exact h

theorem of_bind (hm : Returns m R) (hf : ∀ a, R a → Returns (f a) Q) : Returns (m >>= f) Q := by
  intro p b p'' hrun
  obtain ⟨a, p', hfirst, hlast⟩ := run_bind_eq_ok hrun
  exact hf a (hm p a p' hfirst) p' b p'' hlast

theorem trivial (m : ParseM α) : Returns m fun _ => True := fun _ _ _ _ => .intro

theorem after {f : α → ParseM β} (hf : ∀ a, Returns (f a) Q) : Returns (m >>= f) Q :=
  of_bind (trivial m) fun a _ => hf a

theorem takePriority (t : Task) : Returns (takePriority t) fun r => r.1.completed = t.completed := by
  refine after fun p => ?_
  split
  · split
    · exact after fun _ => after fun _ => of_pure rfl
    · exact of_pure rfl
  · exact of_pure rfl

theorem takePriorityLenient (t : Task) (quirk : Quirks) :
    Returns (takePriorityLenient t quirk) fun t' => t'.completed = t.completed := by
  refine after fun p => ?_
  cases p.mode with
  | strict => exact of_pure rfl
  | lenient =>
    refine of_bind (takePriority t) fun r hr => ?_
    dsimp only
    split_ifs
    · exact after fun _ => of_pure hr
    · exact of_pure hr

theorem takeOptionalDate (t : Task) :
    Returns (takeOptionalDate t) fun t' => t'.completed = t.completed := by
  refine after fun d => ?_
  cases d with
  | none => exact of_pure rfl
  | some d => exact after fun _ => of_pure rfl

theorem completedPrefix (t : Task) :
    Returns (completedPrefix t) fun t' => t'.completed = t.completed := by
  refine after fun more => ?_
  split_ifs
  · exact after fun _ => of_pure rfl
  · refine of_bind (takePriorityLenient t _) fun t₁ ht₁ => after fun d => ?_
    cases d with
    | none => exact after fun _ => of_pure ht₁
    | some d =>
      have hlast : ∀ t₂ : Task, t₂.completed = t.completed → Returns (
          if t₂.priority.isNone then Txtodo.takePriorityLenient t₂ Quirks.PRIORITY_AFTER_DATE
          else pure t₂) fun t' => t'.completed = t.completed := by
        intro t₂ ht₂
        split_ifs
        · exact fun p a p' hrun => (takePriorityLenient t₂ _ p a p' hrun).trans ht₂
        · exact of_pure ht₂
      refine after fun more => ?_
      split_ifs
      · exact of_bind (takeOptionalDate _) fun t₂ ht₂ => hlast t₂ (ht₂.trans ht₁)
      · exact of_bind (of_pure (Q := fun t' => t'.completed = t.completed) ht₁) hlast

end Returns

theorem textOf_length_le {cs ds : List Chunk} (h : cs <:+ ds) : (textOf cs).length ≤ (textOf ds).length := by
  obtain ⟨pre, rfl⟩ := h
  rw [textOf_append, List.length_append]
  omega

/-- A first word `x` is read as the mark, and not as description. -/
theorem draftOf_marked {us : List Text} (hus : ∀ u ∈ us, IsRun u) :
    (draftOf (joined (['x'] :: us))).pre.completed = true ∧
      (draftOf (joined (['x'] :: us))).description.length < (joined (['x'] :: us)).length := by
  have hws : ∀ w ∈ ['x'] :: us, IsRun w :=
    List.forall_mem_cons.2 ⟨⟨by simp, List.forall_mem_singleton.2 rfl⟩, hus⟩
  set raw := joined (['x'] :: us) with hraw
  have hspaced : Spaced (chunks raw) (['x'] :: us) := Spaced.chunksFrom hws 0
  have hmark := (startsCompleted_lenient raw Quirks.NONE hspaced).2 rfl
  have hpre : taskPrefix ⟨raw, chunks raw, .lenient, Quirks.NONE⟩ =
      (modify Parser.advance >>= fun _ => completedPrefix { Task.empty with completed := true }) :=
    if_pos hmark
  set p : Parser := ⟨raw, chunks raw, .lenient, Quirks.NONE⟩ with hp
  obtain ⟨t, p₁, hrun, hmode, hsuf⟩ :=
    Reads.completedPrefix { Task.empty with completed := true } p.advance rfl
  obtain ⟨p₂, hdescription⟩ := Txtodo.description_run hmode
  have hfields : (taskPrefix p).run p = .ok (t, p₁) := by
    rw [hpre]
    exact hrun
  have hparse : parseTask.run p = .ok ({ t with description := p₁.rest }, p₂) := by
    rw [parseTask_run_eq, run_bind_ok hfields, run_bind_ok hdescription]
    rfl
  have hdraft : draftOf raw = ⟨Prefix.of { t with description := p₁.rest }, p₁.rest⟩ := by
    rw [draftOf, taskOf_of_run (joined_ne_nil hws (by simp)) hparse]
  rw [hdraft]
  refine ⟨Returns.completedPrefix _ _ _ _ hrun, ?_⟩
  obtain ⟨start, rest, hchunks, -⟩ := hspaced.word
  have hrest : p.advance.chunks = rest := by
    rw [hp, Parser.advance, hchunks]
    rfl
  have hlen : raw.length = (textOf rest).length + 1 := by
    rw [← textOf_chunksFrom 0 raw, show chunksFrom 0 raw = _ from hchunks, textOf_cons,
      List.length_append]
    exact Nat.add_comm _ _
  rw [hrest] at hsuf
  have hle := textOf_length_le hsuf
  show (textOf p₁.chunks).length < raw.length
  omega

section Shrink
variable {key : Text} {d : Draft}

theorem findTagIn_le {pos lo hi : Nat} {cs : List Chunk}
    (h : Draft.findTagIn key pos cs = some (lo, hi)) : lo ≤ hi := by
  induction cs generalizing pos with
  | nil => cases h
  | cons c cs ih =>
    rw [findTagIn_cons] at h
    split_ifs at h
    · cases h
      exact Nat.le_add_right _ _
    · exact ih h

theorem replaceRange_length_le {t : Text} {lo hi : Nat} (h : lo ≤ hi) :
    (replaceRange t lo hi []).length ≤ t.length := by
  rw [replaceRange, List.append_nil, List.length_append, List.length_take, List.length_drop]
  omega

theorem removeTag_spec (d : Draft) (key : Text) : (d.removeTag key).pre = d.pre ∧
    (d.removeTag key).description.length ≤ d.description.length := by
  rw [Draft.removeTag]
  cases hfound : d.findTag key with
  | none => exact ⟨rfl, le_rfl⟩
  | some range =>
    have hle : range.1 ≤ range.2 := findTagIn_le hfound
    dsimp only
    split_ifs
    · exact ⟨rfl, replaceRange_length_le (by omega)⟩
    · exact ⟨rfl, replaceRange_length_le (by omega)⟩
    · exact ⟨rfl, replaceRange_length_le hle⟩

theorem uncomplete_spec (h : d.pre.completed = true) : d.uncomplete.pre.completed = false ∧
    d.uncomplete.description.length ≤ d.description.length := by
  rw [Draft.uncomplete, h]
  simp only [Bool.not_true, Bool.false_eq_true, if_false]
  split
  · rename_i p hrestored
    obtain ⟨hpre, hlen⟩ := removeTag_spec
      ⟨⟨false, none, d.pre.creationDate, some p⟩, d.description⟩ "pri".toList
    exact ⟨congrArg Prefix.completed hpre, hlen⟩
  · exact ⟨rfl, le_rfl⟩

end Shrink

theorem digit_ne_x (n : Nat) : digit n ≠ 'x' := by
  have hdigit : (digit n).isDigit = true :=
    isDigit_iff.2 ⟨⟨n % 10, Nat.mod_lt n (by omega)⟩, digit_congr (Nat.mod_mod n 10).symm⟩
  intro h
  rw [h] at hdigit
  cases hdigit

/-- An open prefix does not start with the mark. -/
theorem emitPrefix_open {p : Prefix} (h : p.completed = false) (hasDescription : Bool) :
    emitPrefix p hasDescription = [] ∨
      ∃ c s, emitPrefix p hasDescription = c :: s ∧ c ≠ 'x' := by
  obtain ⟨completed, completion, creation, priority⟩ := p
  obtain rfl : completed = false := h
  rw [emitPrefix_eq, emitPrefix_false]
  cases priority with
  | some p =>
    refine .inr ⟨'(', ?_⟩
    split_ifs
    · exact ⟨_, rfl, by decide⟩
    · exact ⟨_, rfl, by decide⟩
  | none =>
    cases creation with
    | none => exact .inl rfl
    | some date =>
      refine .inr ⟨digit (date.year / 1000), ?_⟩
      split_ifs
      · exact ⟨_, rfl, digit_ne_x _⟩
      · exact ⟨_, rfl, digit_ne_x _⟩

/-- Completing and reopening takes the mark off a line that starts with `x`. -/
theorem reopen_marked {us : List Text} (hus : ∀ u ∈ us, IsRun u) (ending : LineEnding) (today : Date) :
    apply (apply (OwnedLine.ofText (joined (['x'] :: us)) ending) (Edit.new.complete today))
      Edit.new.uncomplete ≠ OwnedLine.ofText (joined (['x'] :: us)) ending := by
  obtain ⟨hcompleted, hshort⟩ := draftOf_marked hus
  set raw := joined (['x'] :: us) with hraw
  obtain ⟨hopen, hlen⟩ := uncomplete_spec hcompleted
  have hsame : apply (OwnedLine.ofText raw ending) (Edit.new.complete today) =
      OwnedLine.ofText raw ending :=
    apply_of_same (OwnedLine.ofText_raw _ _) (if_pos hcompleted)
  have hreopened : apply (OwnedLine.ofText raw ending) Edit.new.uncomplete = OwnedLine.ofText
      (emitPrefix (draftOf raw).uncomplete.pre (!(draftOf raw).uncomplete.description.isEmpty) ++
        (draftOf raw).uncomplete.description) ending := by
    refine apply_rewritten (OwnedLine.ofText_raw _ _) ?_ fun h => ?_
    · intro heq
      have hcontra := hopen.symm.trans (congrArg Prefix.completed heq)
      rw [hcompleted] at hcontra
      cases hcontra
    · cases hopen.symm.trans h
  rw [hsame, hreopened]
  intro heq
  have htext := congrArg OwnedLine.raw heq
  rw [OwnedLine.ofText_raw, OwnedLine.ofText_raw, Option.some_inj] at htext
  rcases emitPrefix_open hopen (!(draftOf raw).uncomplete.description.isEmpty) with hnil | ⟨c, s, hcons, hc⟩
  · rw [hnil, List.nil_append] at htext
    rw [htext] at hlen
    omega
  · rw [hcons, hraw, joined_cons] at htext
    exact hc (List.cons.inj htext).1

/-! ## The lines that are given back -/

/-- The text in front of the first separator. -/
def firstWord (s : Text) : Text := s.takeWhile fun c => !isWs c

theorem firstWord_joined {ws : List Text} (hws : ∀ w ∈ ws, IsRun w) :
    firstWord (joined ws) = ws.headD [] := by
  cases ws with
  | nil => rfl
  | cons w ws =>
    have hw := hws w (List.mem_cons_self ..)
    rw [firstWord, joined_cons, List.takeWhile_append_of_pos fun c hc => by rw [hw.2 c hc]; rfl]
    cases ws with
    | nil => simp
    | cons v ws => rw [spaced_cons, List.takeWhile_cons_of_neg (by decide), List.append_nil]; rfl

theorem isPriorityWord_iff {w : Text} : isPriorityWord w = true ↔ ∃ p, IsPriority w p := by
  constructor
  · intro h
    unfold isPriorityWord at h
    split at h
    · rename_i letter
      obtain ⟨p, hp⟩ := Option.isSome_iff_exists.1 h
      refine ⟨p, ?_⟩
      unfold Priority.new at hp
      split_ifs at hp
      rw [IsPriority, ← Option.some_inj.1 hp]
    · cases h
  · rintro ⟨p, rfl⟩
    have hnew : Priority.new p.letter = some p := dif_pos p.upper
    exact congrArg Option.isSome hnew

theorem Grammar.PriorityRead.none_iff {vs ds : List Text} {read : Option Priority}
    (h : PriorityRead vs read ds) : read = none ↔ isPriorityWord (vs.headD []) = false := by
  rw [← Bool.not_eq_true, isPriorityWord_iff]
  cases h with
  | nil => simp [IsPriority]
  | priority h => exact iff_of_false (by simp) (not_not.2 ⟨_, h⟩)
  | other h =>
    refine iff_of_true rfl ?_
    rintro ⟨p, hp⟩
    exact h p hp

/-- An open line the strict parser accepts, as it reads it. -/
theorem strict_reads {raw : Text} {l : Line} (h : parseLine raw .strict = .ok l)
    (hopen : ∀ t, l.kind = .task t → t.completed = false) :
    ∃ ws us vs priority creation, (∀ w ∈ ws, IsRun w) ∧ raw = joined ws ∧
      PriorityRead ws priority us ∧ CreationRead us creation vs ∧
      (∀ t, l.kind = .task t → t.description = joined vs) ∧ (l.kind = .blank → vs = []) := by
  by_cases hne : raw = []
  · subst hne
    cases h
    exact ⟨[], [], [], none, none, by simp, rfl, .nil, .nil, fun t ht => (by cases ht), fun _ => rfl⟩
  obtain ⟨ws, t₀, us, vs, creation, hws, hraw, hstart, hread, rfl⟩ := strict_read hne h
  have hdescription : ∀ t, (lineOf raw { t₀ with creationDate := creation, description := joined vs }
      Quirks.NONE).kind = .task t → t.description = joined vs := by
    intro t ht
    cases ht
    rfl
  cases hstart with
  | completed => exact absurd (hopen _ rfl) (by simp)
  | priority hpriority =>
    exact ⟨_, us, vs, _, creation, hws, hraw, .priority hpriority, hread, hdescription,
      fun hblank => by cases hblank⟩
  | other _ hpriority =>
    have hnone : PriorityRead ws none ws := by
      cases ws with
      | nil => exact .nil
      | cons w ws => exact .other fun p => hpriority w ws p rfl
    exact ⟨ws, ws, vs, none, creation, hws, hraw, hnone, hread, hdescription,
      fun hblank => by cases hblank⟩

/-- Completing the line, reading the result and reopening it gives the line back. -/
def Reopens (line : OwnedLine) (today : Date) : Prop :=
  apply (apply line (Edit.new.complete today)) Edit.new.uncomplete = line

/-- An open line without a `pri:` tag is given back unless it starts with the word `x` or its description
with a priority, which are read as its prefix. -/
theorem reopens_iff {raw : Text} {l : Line} (hline : parseLine raw .strict = .ok l)
    (hopen : ∀ t, l.kind = .task t → t.completed = false ∧ t.tag "pri".toList = none)
    (ending : LineEnding) (today : Date) :
    Reopens (OwnedLine.ofText raw ending) today ↔ firstWord raw ≠ ['x'] ∧
      ∀ t, l.kind = .task t → isPriorityWord (firstWord t.description) = false := by
  obtain ⟨ws, us, vs, priority, creation, hws, rfl, hread, hcreation, hdescription, hblank⟩ :=
    strict_reads hline fun t ht => (hopen t ht).1
  have hvs : ∀ w ∈ vs, IsRun w := fun w hw =>
    hws w ((hcreation.suffix.trans hread.suffix).subset hw)
  rw [firstWord_joined hws]
  by_cases hmark : ws.headD [] = ['x']
  · refine iff_of_false ?_ fun h => h.1 hmark
    obtain ⟨us, rfl⟩ : ∃ us, ws = ['x'] :: us := by
      cases ws with
      | nil => cases hmark
      | cons w ws => exact ⟨ws, congrArg (· :: ws) hmark⟩
    exact reopen_marked (List.forall_mem_cons.1 hws).2 ending today
  have hpri : ∀ w ∈ vs, hasKey "pri".toList w = false := by
    cases hkind : l.kind with
    | blank =>
      rw [hblank hkind]
      exact fun w hw => by cases hw
    | task t =>
      refine hasKey_of_tag (hopen t hkind).2 ?_
      rw [hdescription t hkind]
      exact Spaced.chunksFrom hvs 0
  have hcondition : (∀ t, l.kind = .task t → isPriorityWord (firstWord t.description) = false) ↔
      isPriorityWord (vs.headD []) = false := by
    cases hkind : l.kind with
    | blank =>
      rw [hblank hkind]
      exact iff_of_true (fun t ht => (by cases ht)) rfl
    | task t =>
      have hfirst : firstWord t.description = vs.headD [] := by
        rw [hdescription t hkind, firstWord_joined hvs]
      constructor
      · intro h
        rw [← hfirst]
        exact h t rfl
      · intro h t' ht'
        cases ht'
        rwa [hfirst]
  obtain ⟨read, ds, hagain⟩ := exists_priorityRead vs
  have hhead : ws.head? ≠ some ['x'] := by
    intro h
    rw [List.headD_eq_head?_getD, h] at hmark
    exact hmark rfl
  have hwords := words_of_reads hread hcreation
  have hback : ∀ w ∈ Prefix.words ⟨false, none, creation, priority.or read⟩ ++ ds, IsRun w :=
    List.forall_mem_append.2 ⟨words_isRun _, fun w hw => hvs w (hagain.suffix.subset hw)⟩
  rw [Reopens, reopen_words hws hhead hread hcreation hpri hagain ending today, hcondition,
    ← hagain.none_iff, ← words_back_iff hread hcreation hagain]
  constructor
  · intro heq
    have htext := congrArg OwnedLine.raw heq
    rw [OwnedLine.ofText_raw, OwnedLine.ofText_raw, Option.some_inj] at htext
    exact ⟨hmark, joined_injective hback hws htext⟩
  · rintro ⟨-, heq⟩
    rw [heq]

/-- A line with a priority and a creation date. -/
theorem reopens_prioritised : Reopens (OwnedLine.ofText "(A) 2026-09-01 call @mum".toList .lf)
      ⟨2026, 9, 12, by decide⟩ ↔ firstWord "(A) 2026-09-01 call @mum".toList ≠ ['x'] ∧
    ∀ t, (Line.mk "(A) 2026-09-01 call @mum".toList (.task ⟨false, none, some ⟨2026, 9, 1, by decide⟩,
      some ⟨'A', by decide⟩, "call @mum".toList⟩) Quirks.NONE .lf).kind = .task t →
        isPriorityWord (firstWord t.description) = false :=
  reopens_iff (by decide +kernel) (fun t ht => by cases ht; exact ⟨rfl, by decide +kernel⟩) .lf _

/-- A second priority is dropped, one after the creation date moves in front of it, and a first word `x` is
taken off. -/
theorem reopen_loses :
    (∃ l t, parseLine "(A) (B) call".toList .strict = .ok l ∧ l.kind = .task t ∧ t.completed = false ∧
      t.tag "pri".toList = none ∧
        (apply (apply (OwnedLine.ofText "(A) (B) call".toList .lf) (Edit.new.complete
          ⟨2026, 9, 12, by decide⟩)) Edit.new.uncomplete).raw = some "(A) call".toList) ∧
    (∃ l t, parseLine "2026-09-01 (B) call".toList .strict = .ok l ∧ l.kind = .task t ∧
      t.completed = false ∧ t.tag "pri".toList = none ∧
        ¬Reopens (OwnedLine.ofText "2026-09-01 (B) call".toList .lf) ⟨2026, 9, 12, by decide⟩) ∧
    ∃ l t, parseLine "x marks".toList .strict = .ok l ∧ l.kind = .task t ∧ t.completed = false ∧
      t.tag "pri".toList = none ∧
        ¬Reopens (OwnedLine.ofText "x marks".toList .lf) ⟨2026, 9, 12, by decide⟩ := by
  refine ⟨⟨_, _, rfl, rfl, rfl, ?_, ?_⟩, ⟨_, _, rfl, rfl, rfl, ?_, ?_⟩, _, _, rfl, rfl, rfl, ?_, ?_⟩
  · decide +kernel
  · decide +kernel
  · decide +kernel
  · unfold Reopens
    decide +kernel
  · decide +kernel
  · unfold Reopens
    decide +kernel

end Txtodo
