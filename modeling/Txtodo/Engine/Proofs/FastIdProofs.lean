import Txtodo.Core.Proofs.PutGetProofs
import Txtodo.Core.Proofs.TagWordProofs
import Txtodo.Core.Proofs.UlidProofs
import Txtodo.Engine.Reconcile

/-!
# Stamping an id

The first `id:` word with a value decides a line's id. The scan also splits at form feeds and
carriage returns, the parser does not: a word only the scan sees stands in front of the tag the edit
writes.
-/

namespace Txtodo

/-! ## The scan -/

theorem idValue_nil : idValue [] = none := rfl

theorem isAsciiWhitespace_of_isWs {c : Char} (h : isWs c = true) : isAsciiWhitespace c = true := by
  rw [isWs, Bool.or_eq_true, decide_eq_true_eq, decide_eq_true_eq] at h
  rcases h with rfl | rfl <;> rfl

theorem idValue_append_cons (pre rest : Text) {c : Char} (hc : isWs c = true) :
    idValue (pre ++ c :: rest) = (idValue pre).or (idValue rest) := by
  rw [idValue, List.splitOnP_append_cons _ _ (isAsciiWhitespace_of_isWs hc), List.filterMap_append,
    List.find?_append]
  rfl

/-- Across a boundary, the scan reads one side after the other. -/
theorem idValue_append {pre rest : Text} (h : Boundary pre rest) :
    idValue (pre ++ rest) = (idValue pre).or (idValue rest) := by
  rcases h with rfl | rfl | hpre | hrest
  · rw [List.nil_append, idValue_nil, Option.none_or]
  · rw [List.append_nil, idValue_nil, Option.or_none]
  · rcases List.eq_nil_or_concat' pre with rfl | ⟨pre, c, rfl⟩
    · rw [List.nil_append, idValue_nil, Option.none_or]
    · rw [List.getLast?_concat, Option.any_some] at hpre
      rw [List.append_assoc, List.singleton_append, idValue_append_cons _ _ hpre,
        idValue_append_cons _ _ hpre, idValue_nil, Option.or_none]
  · cases rest with
    | nil => rw [List.append_nil, idValue_nil, Option.or_none]
    | cons c rest =>
      rw [List.head?_cons, Option.any_some] at hrest
      have hnil := idValue_append_cons [] rest hrest
      rw [List.nil_append, idValue_nil, Option.none_or] at hnil
      rw [idValue_append_cons _ _ hrest, hnil]

/-- The tag word of an id. -/
def idWord (id : TaskId) : Text := "id".toList ++ [':'] ++ id.ulid.display

theorem idValue_idWord (id : TaskId) : idValue (idWord id) = some id.ulid.display := by
  have hplain : ∀ c ∈ idWord id, isAsciiWhitespace c = false := by
    intro c hc
    rcases List.mem_append.1 hc with hc | hc
    · have hall : ("id".toList ++ [':']).any isAsciiWhitespace = false := rfl
      exact Bool.not_eq_true _ ▸ List.any_eq_false.1 hall c hc
    · have halnum := (Ulid.mem_display hc).1
      by_contra hws
      rw [Bool.not_eq_false] at hws
      simp only [isAsciiWhitespace, Bool.or_eq_true, decide_eq_true_eq] at hws
      rcases hws with (((rfl | rfl) | rfl) | rfl) | rfl <;> exact absurd halnum (by decide)
  have hne : id.ulid.display.isEmpty = false := by
    have hlen := Ulid.length_display id.ulid
    cases hd : id.ulid.display with
    | nil => rw [hd] at hlen; exact absurd hlen (by decide)
    | cons c cs => rfl
  have hstrip : stripPrefix "id:".toList (idWord id) = some id.ulid.display := by
    rw [stripPrefix, if_pos ⟨id.ulid.display, rfl⟩]
    rfl
  rw [idValue, List.splitOnP_eq_singleton hplain, List.filterMap_cons_some hstrip,
    List.filterMap_nil, List.find?_cons_of_pos (by rw [hne]; rfl)]

/-! ## The tag -/

/-- The part of a description in front of its first `id:` tag, all of it without one. -/
def beforeTagIn (description : Text) : Text :=
  match (⟨Prefix.empty, description⟩ : Draft).findTag "id".toList with
  | some (lo, _) => description.take lo
  | none => description

/-- The part is cut off at a word boundary. -/
theorem beforeTagIn_boundary (description : Text) :
    ∃ rest, description = beforeTagIn description ++ rest ∧
      Boundary (beforeTagIn description) rest := by
  rw [beforeTagIn]
  split
  · next lo hi hfind =>
    obtain ⟨before, c, after, hcs, -, hlo, -⟩ := findTagIn_some hfind
    have halt := alternating_chunksFrom 0 description
    have htext := textOf_chunksFrom 0 description
    rw [show chunksFrom 0 description = before ++ c :: after from hcs] at halt htext
    rw [textOf_append] at htext
    have htake : description.take lo = textOf before := by
      rw [hlo, Nat.zero_add, ← htext, List.take_left]
    rw [htake]
    exact ⟨textOf (c :: after), htext.symm, halt.boundary⟩
  · exact ⟨[], (List.append_nil _).symm, .inr (.inl rfl)⟩

/-- Setting the tag puts the scan's word right behind that part. -/
theorem idValue_setTag (d : Draft) (id : TaskId) :
    idValue (d.setTag "id".toList id.ulid.display).description =
      (idValue (beforeTagIn d.description)).or (some id.ulid.display) := by
  have hsame : d.findTag "id".toList =
      (⟨Prefix.empty, d.description⟩ : Draft).findTag "id".toList := rfl
  have hword := idValue_idWord id
  cases hfind : (⟨Prefix.empty, d.description⟩ : Draft).findTag "id".toList with
  | some range =>
    obtain ⟨lo, hi⟩ := range
    have hset : (d.setTag "id".toList id.ulid.display).description =
        replaceRange d.description lo hi (idWord id) := by
      rw [Draft.setTag, hsame, hfind]
      rfl
    have hbefore : beforeTagIn d.description = d.description.take lo := by
      rw [beforeTagIn, hfind]
    obtain ⟨before, c, after, hcs, hws, hlo, hhi⟩ := findTagIn_some hfind
    have halt := alternating_chunksFrom 0 d.description
    have htext := textOf_chunksFrom 0 d.description
    rw [show chunksFrom 0 d.description = before ++ c :: after from hcs] at halt htext
    rw [textOf_append, textOf_cons] at htext
    have htake : d.description.take lo = textOf before := by
      rw [hlo, Nat.zero_add, ← htext, List.take_left]
    have hdrop : d.description.drop hi = textOf after := by
      rw [hhi, hlo, Nat.zero_add, ← htext, ← List.drop_drop, List.drop_left, List.drop_left]
    have hpre := (halt.around_word hws (idWord id ++ textOf after)).1
    have hpost := (halt.around_word hws (idWord id)).2
    rw [hset, hbefore, replaceRange, htake, hdrop, List.append_assoc, idValue_append hpre,
      idValue_append hpost, hword, Option.some_or]
  | none =>
    have hset : (d.setTag "id".toList id.ulid.display).description =
        (d.append (idWord id)).description := by
      rw [Draft.setTag, hsame, hfind]
      rfl
    have hbefore : beforeTagIn d.description = d.description := by
      rw [beforeTagIn, hfind]
    rw [hset, hbefore, Draft.append]
    cases hd : d.description with
    | nil =>
      rw [idValue_nil, Option.none_or, ← hword]
      rfl
    | cons c cs =>
      have hgap : c :: cs ++ (if (!(c :: cs).isEmpty && !(idWord id).isEmpty) = true then [' ']
          else []) ++ idWord id = c :: cs ++ ' ' :: idWord id := by
        rw [if_pos (by rfl), List.append_assoc, List.singleton_append]
      rw [show ((_ : Draft).description) = _ from hgap, idValue_append_cons _ _ (by rfl), hword]

/-! ## The line -/

/-- The part of a line in front of its first `id:` tag, all of it without one. -/
def beforeTag (raw : Text) : Text :=
  raw.take (descriptionStart raw) ++ beforeTagIn (draftOf raw).description

/-- The scan finds a value in front of the tag the parser sees. -/
def shadowed (raw : Text) : Bool := (idValue (beforeTag raw)).isSome

/-- A line is its prefix and its description. -/
theorem split_line {raw : Text} (h : raw ≠ []) :
    raw = raw.take (descriptionStart raw) ++ (draftOf raw).description ∧
      Boundary (raw.take (descriptionStart raw)) (draftOf raw).description := by
  obtain ⟨t, cs, htask, ⟨before, hsplit⟩, hdesc⟩ := taskOf_spec h
  have halt := alternating_chunksFrom 0 raw
  have htext := textOf_chunksFrom 0 raw
  rw [show chunksFrom 0 raw = before ++ cs from hsplit.symm] at halt htext
  rw [textOf_append] at htext
  have hdraft : (draftOf raw).description = textOf cs := by
    rw [draftOf, htask]
    exact hdesc
  have hstart : descriptionStart raw = (textOf before).length := by
    rw [descriptionStart, htask]
    simp only []
    rw [hdesc, ← htext, List.length_append, Nat.add_sub_cancel]
  rw [hdraft, hstart]
  have htake : raw.take (textOf before).length = textOf before := by
    rw [← htext, List.take_left]
  rw [htake]
  exact ⟨htext.symm, halt.boundary⟩

/-- Joining a description puts it behind a boundary. -/
theorem idValue_join (pre : Text) {description : Text} (h : description ≠ []) :
    idValue (join pre description) = (idValue pre).or (idValue description) := by
  have hne : description.isEmpty = false := by
    cases description with
    | nil => exact absurd rfl h
    | cons c cs => rfl
  rw [join, hne, if_neg Bool.false_ne_true]
  split_ifs with hgap
  · rw [List.append_assoc, List.singleton_append, idValue_append_cons _ _ (by rfl)]
  · apply idValue_append
    rw [Bool.and_eq_true, Bool.not_eq_true', Bool.not_eq_true'] at hgap
    by_cases hpre : pre = []
    · exact .inl hpre
    · refine .inr (.inr (.inl ?_))
      by_contra hlast
      rw [Bool.not_eq_true] at hlast
      exact hgap ⟨List.isEmpty_eq_false_iff.2 hpre, hlast⟩

theorem task_eq (line : OwnedLine) : line.task = line.raw.bind taskOf := by
  rw [OwnedLine.task, OwnedLine.parse]
  cases line.raw with
  | none => rfl
  | some raw =>
    rw [Option.bind_some, taskOf, Option.bind_eq_bind, Option.bind_some]
    cases parseLine raw .lenient with
    | error e => rfl
    | ok l =>
      obtain ⟨raw', kind, quirks, ending⟩ := l
      cases kind <;> rfl

theorem isTask_iff (line : OwnedLine) : isTask line = true ↔ ∃ raw, line.raw = some raw ∧ raw ≠ [] := by
  rw [isTask, task_eq]
  cases line.raw with
  | none => simp
  | some raw =>
    rw [Option.bind_some]
    constructor
    · intro h
      refine ⟨raw, rfl, ?_⟩
      rintro rfl
      rw [taskOf_nil] at h
      exact absurd h (by decide)
    · rintro ⟨_, ⟨⟩, hne⟩
      obtain ⟨t, _, htask, -⟩ := taskOf_spec hne
      rw [htask]
      rfl

theorem setTag_ne_nil (d : Draft) (id : TaskId) :
    (d.setTag "id".toList id.ulid.display).description ≠ [] := by
  intro hnil
  have hvalue := idValue_setTag d id
  rw [hnil, idValue_nil] at hvalue
  cases hb : idValue (beforeTagIn d.description) <;> rw [hb] at hvalue <;> exact absurd hvalue (by simp)

theorem Boundary.front {pre mid rest : Text} (h : Boundary pre (mid ++ rest)) :
    Boundary pre mid := by
  by_cases hmid : mid = []
  · exact .inr (.inl hmid)
  · rcases h with hpre | hnil | hlast | hhead
    · exact .inl hpre
    · exact .inr (.inl (List.append_eq_nil_iff.1 hnil).1)
    · exact .inr (.inr (.inl hlast))
    · rw [List.head?_append_of_ne_nil _ hmid] at hhead
      exact .inr (.inr (.inr hhead))

theorem idValue_beforeTag {raw : Text} (h : raw ≠ []) :
    idValue (beforeTag raw) = (idValue (raw.take (descriptionStart raw))).or
      (idValue (beforeTagIn (draftOf raw).description)) := by
  obtain ⟨rest, hrest, -⟩ := beforeTagIn_boundary (draftOf raw).description
  have hbound := (split_line h).2
  rw [hrest] at hbound
  exact idValue_append hbound.front

/-- What the scan finds in front of the tag it finds in the line. -/
theorem idValue_of_shadowed {raw : Text} (h : shadowed raw = true) :
    idValue raw = idValue (beforeTag raw) := by
  by_cases hne : raw = []
  · subst hne
    exact absurd h (by decide)
  · obtain ⟨hsplit, hbound⟩ := split_line hne
    obtain ⟨rest, hrest, hbefore⟩ := beforeTagIn_boundary (draftOf raw).description
    obtain ⟨value, hvalue⟩ := Option.isSome_iff_exists.1 h
    have hline : idValue raw = (idValue (raw.take (descriptionStart raw))).or
        (idValue (draftOf raw).description) := by
      conv_lhs => rw [hsplit]
      exact idValue_append hbound
    rw [idValue_beforeTag hne] at hvalue ⊢
    rw [hline]
    conv_lhs => rw [hrest, idValue_append hbefore]
    rw [← Option.or_assoc, hvalue, Option.some_or]

theorem setTag_id_ok (id : TaskId) :
    Edit.new.setTag "id".toList id.ulid.display =
      .ok ⟨[.setTag "id".toList id.ulid.display]⟩ := by
  have hne : id.ulid.display.isEmpty = false := by
    rw [List.isEmpty_eq_false_iff]
    intro hnil
    have hlen := Ulid.length_display id.ulid
    rw [hnil] at hlen
    exact absurd hlen (by decide)
  have hplain : id.ulid.display.any isAsciiWhitespace = false := by
    rw [List.any_eq_false]
    intro c hc
    have halnum := (Ulid.mem_display hc).1
    intro hws
    simp only [isAsciiWhitespace, Bool.or_eq_true, decide_eq_true_eq] at hws
    rcases hws with (((rfl | rfl) | rfl) | rfl) | rfl <;> exact absurd halnum (by decide)
  have hvalid : validTag "id".toList id.ulid.display = .ok () := by
    rw [validTag]
    simp only [hne, hplain]
    rfl
  rw [Edit.setTag, hvalid]
  rfl

theorem apply_setTag {line : OwnedLine} {raw : Text} (hraw : line.raw = some raw)
    (key value : Text) :
    apply line ⟨[.setTag key value]⟩ =
      Draft.write line raw (draftOf raw) ((draftOf raw).setTag key value) false := by
  have hpre := Draft.setTag_pre (draftOf raw) key value
  rw [apply, hraw]
  simp only [List.foldl_cons, List.foldl_nil, Draft.applyOp]
  congr 1
  exact decide_eq_false (not_not_intro hpre)

theorem stampId_eq {line : OwnedLine} {raw : Text} (hraw : line.raw = some raw) (id : TaskId) :
    stampId line id = Draft.write line raw (draftOf raw)
      ((draftOf raw).setTag "id".toList id.ulid.display) false := by
  delta stampId
  rw [setTag_id_ok]
  exact apply_setTag hraw _ _

/-- The text a stamped line has, and what the scan finds in it. -/
theorem stampId_raw {line : OwnedLine} {raw : Text} (hraw : line.raw = some raw) (hne : raw ≠ [])
    (id : TaskId) :
    ∃ text, (stampId line id).raw = some text ∧ text ≠ [] ∧
      idValue text = (idValue (beforeTag raw)).or (some id.ulid.display) := by
  obtain ⟨hsplit, hbound⟩ := split_line hne
  have htag := idValue_setTag (draftOf raw) id
  have hnil := setTag_ne_nil (draftOf raw) id
  rw [idValue_beforeTag hne, Option.or_assoc, ← htag, stampId_eq hraw, Draft.write,
    Draft.movePriority_false]
  generalize (draftOf raw).setTag "id".toList id.ulid.display = draft at hnil ⊢
  by_cases hsame : draft.description = (draftOf raw).description
  · refine ⟨raw, ?_, hne, ?_⟩
    · rw [if_pos (by simp [hsame])]
      exact hraw
    · conv_lhs => rw [hsplit]
      rw [hsame]
      exact idValue_append hbound
  · refine ⟨join (raw.take (descriptionStart raw)) draft.description, ?_, ?_, idValue_join _ hnil⟩
    · rw [if_neg (by simp [hsame]), OwnedLine.ofText_raw, Draft.emit, if_neg Bool.false_ne_true,
        if_pos (by simp [hsame])]
    · have hempty : draft.description.isEmpty = false := List.isEmpty_eq_false_iff.2 hnil
      rw [join, hempty, if_neg Bool.false_ne_true]
      split_ifs
      · simp
      · intro hboth
        exact hnil (List.append_eq_nil_iff.1 hboth).2

/-- A line that gets an id has it, unless a word only the scan sees is in front. -/
theorem fastIdOf_stampId {line : OwnedLine} {raw : Text} (hraw : line.raw = some raw)
    (h : needsId line = true) (id : TaskId) :
    isTask (stampId line id) = true ∧
      fastIdOf (stampId line id) = if shadowed raw then none else some id := by
  rw [needsId, Bool.and_eq_true, isTask_iff] at h
  obtain ⟨hnone, _, hraw', hne⟩ := h
  rw [hraw] at hraw'
  cases hraw'
  obtain ⟨text, htext, hne', hvalue⟩ := stampId_raw hraw hne id
  refine ⟨(isTask_iff _).2 ⟨text, htext, hne'⟩, ?_⟩
  rw [fastIdOf, htext, Option.bind_some, hvalue]
  by_cases hshadow : shadowed raw = true
  · rw [if_pos hshadow]
    rw [Option.isNone_iff_eq_none, fastIdOf, hraw, Option.bind_some,
      idValue_of_shadowed hshadow] at hnone
    obtain ⟨value, hfound⟩ := Option.isSome_iff_exists.1 hshadow
    rw [hfound] at hnone ⊢
    exact hnone
  · rw [if_neg hshadow]
    rw [shadowed, Bool.not_eq_true, Option.isSome_eq_false_iff, Option.isNone_iff_eq_none] at hshadow
    rw [hshadow, Option.none_or, Option.bind_some, Ulid.parse_display]
    rfl

end Txtodo
