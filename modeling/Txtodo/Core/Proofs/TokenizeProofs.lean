import Txtodo.Core.Proofs.PutGetProofs
import Txtodo.Core.Tokenize

/-!
# The highlighter and the parser

Tokenizer and lenient parser walk the words of a line side by side. Both take the same words for prefix,
save in three kinds of lines.
-/

namespace Txtodo

open Grammar

/-! ## What a line is tokenized to -/

/-- Whether a span of the kind is part of the prefix. -/
def TokenKind.isPrefix : TokenKind → Bool
  | .completionMarker => true
  | .completionDate => true
  | .creationDate => true
  | .priority => true
  | _ => false

/-- The words of the prefix's field of that kind. -/
def Prefix.fieldWords (p : Prefix) : TokenKind → List Text
  | .completionMarker => if p.completed then [['x']] else []
  | .completionDate => (p.completionDate.map Date.display).toList
  | .creationDate => (p.creationDate.map Date.display).toList
  | .priority => (p.priority.map fun pri => ['(', pri.letter, ')']).toList
  | _ => []

/-- The spans of a line part into those of the prefix the parser reads, each word under its field, and those
of the description. -/
def Agrees (raw : Text) : Prop :=
  ∃ front back, tokenize raw = front ++ back ∧
    back.flatMap (·.text) = (draftOf raw).description ∧
    (∀ s ∈ back, s.kind.isPrefix = false) ∧
    (∀ s ∈ front, s.kind.isPrefix = true ∨ s.kind = .whitespace) ∧
    ∀ kind, kind.isPrefix = true →
      (front.filter (·.kind = kind)).map (·.text) = (draftOf raw).pre.fieldWords kind

/-- The words of a line. -/
def wordsOf (raw : Text) : List Text := ((chunks raw).filter (!·.isWs)).map (·.text)

/-- Whether a word is a date. -/
def isDateWord (w : Text) : Bool := (Date.parse w).isSome

/-- A priority behind the date of an open line, or a second date behind the priority of a done one. -/
def LooseOrder (ws : List Text) : Prop :=
  (∃ d p rest, ws = d :: p :: rest ∧ isDateWord d = true ∧ isPriorityWord p = true) ∨
    ∃ d p e rest, ws = ['x'] :: d :: p :: e :: rest ∧
      isDateWord d = true ∧ isPriorityWord p = true ∧ isDateWord e = true

/-- The tokenizer takes more for prefix than the parser: a date or a priority behind leading space, or a
prefix in loose order. -/
def Misread (raw : Text) : Prop :=
  if raw.head?.any isWs then
    ∃ w rest, wordsOf raw = w :: rest ∧ (isDateWord w = true ∨ isPriorityWord w = true)
  else LooseOrder (wordsOf raw)

/-! ## The tokenizer chunk by chunk -/

section Tokens
variable (schemes : List Text)

/-- The spans of the chunks from `index` on. -/
def tokensFrom (p : Tokenizer.Prefix) (index : Nat) : List Chunk → List Span
  | [] => []
  | c :: cs =>
    let t := Tokenizer.pushChunk ⟨schemes, [], p⟩ c index
    t.spans ++ tokensFrom t.pre (index + 1) cs

theorem pushWord_eq (spans : List Span) (word : Text) (start : Nat) :
    pushWord spans word start schemes = spans ++ pushWord [] word start schemes := by
  unfold pushWord
  split <;> rfl

theorem pushChunk_eq (spans : List Span) (p : Tokenizer.Prefix) (c : Chunk) (index : Nat) :
    Tokenizer.pushChunk ⟨schemes, spans, p⟩ c index =
      ⟨schemes, spans ++ (Tokenizer.pushChunk ⟨schemes, [], p⟩ c index).spans,
        (Tokenizer.pushChunk ⟨schemes, [], p⟩ c index).pre⟩ := by
  unfold Tokenizer.pushChunk
  split_ifs
  · rfl
  · rw [pushWord_eq]
  · dsimp only
    split
    · rfl
    · rw [pushWord_eq]

theorem foldl_pushChunk (cs : List Chunk) (spans : List Span) (p : Tokenizer.Prefix) (index : Nat) :
    ((cs.zipIdx index).foldl (fun t chunk => Tokenizer.pushChunk t chunk.1 chunk.2)
      ⟨schemes, spans, p⟩).spans = spans ++ tokensFrom schemes p index cs := by
  induction cs generalizing spans p index with
  | nil => simp [tokensFrom]
  | cons c cs ih =>
    rw [List.zipIdx_cons, List.foldl_cons, pushChunk_eq, ih, tokensFrom, List.append_assoc]

theorem tokenizeWithSchemes_eq (raw : Text) : tokenizeWithSchemes raw schemes =
    tokensFrom schemes Tokenizer.Prefix.default 0 (chunks raw) :=
  (foldl_pushChunk schemes (chunks raw) [] Tokenizer.Prefix.default 0).trans (List.nil_append _)

variable {schemes} {p p' : Tokenizer.Prefix} {c : Chunk} {cs : List Chunk} {index : Nat}

theorem tokensFrom_separator (h : c.isWs = true) : tokensFrom schemes p index (c :: cs) =
    ⟨.whitespace, c.start, c.text⟩ :: tokensFrom schemes p (index + 1) cs := by
  simp [tokensFrom, Tokenizer.pushChunk, h]

theorem tokensFrom_taken (schemes : List Text) (cs : List Chunk) {kind : TokenKind}
    (hws : c.isWs = false) (hdone : p.done = false)
    (h : p.classifyPrefix c.text index = (some kind, p')) : tokensFrom schemes p index (c :: cs) =
      ⟨kind, c.start, c.text⟩ :: tokensFrom schemes p' (index + 1) cs := by
  simp [tokensFrom, Tokenizer.pushChunk, hws, hdone, h]

theorem tokensFrom_word (schemes : List Text) (cs : List Chunk) (index : Nat) (hws : c.isWs = false)
    (h : p.done = true ∨ (p.classifyPrefix c.text index).1 = none) :
    ∃ p', p'.done = true ∧ tokensFrom schemes p index (c :: cs) =
      pushWord [] c.text c.start schemes ++ tokensFrom schemes p' (index + 1) cs := by
  cases hdone : p.done with
  | true => exact ⟨p, hdone, by simp [tokensFrom, Tokenizer.pushChunk, hws, hdone]⟩
  | false =>
    have hnone : (p.classifyPrefix c.text index).1 = none := by simpa [hdone] using h
    obtain ⟨p', hp'⟩ : ∃ p', p.classifyPrefix c.text index = (none, p') :=
      ⟨_, Prod.ext hnone rfl⟩
    exact ⟨{ p' with done := true }, rfl, by simp [tokensFrom, Tokenizer.pushChunk, hws, hdone, hp']⟩

theorem pushWord_text (word : Text) (start : Nat) :
    (pushWord [] word start schemes).flatMap (·.text) = word := by
  unfold pushWord
  split <;> simp

theorem pushWord_kind {s : Span} {word : Text} {start : Nat} (h : s ∈ pushWord [] word start schemes) :
    s.kind.isPrefix = false := by
  unfold pushWord at h
  split at h
  · rw [List.mem_singleton.1 h]
    rfl
  · rw [List.mem_singleton.1 h]
    rfl
  · rw [List.mem_singleton.1 h]
    rfl
  · rw [List.mem_singleton.1 h]
    rfl
  · rw [List.mem_singleton.1 h]
    rfl
  · rcases List.mem_cons.1 h with rfl | h
    · rfl
    · rw [List.mem_singleton.1 h]
      rfl

/-- The spans cover the line. -/
theorem tokensFrom_text (p : Tokenizer.Prefix) (index : Nat) (cs : List Chunk) :
    (tokensFrom schemes p index cs).flatMap (·.text) = textOf cs := by
  induction cs generalizing p index with
  | nil => rfl
  | cons c cs ih =>
    rw [tokensFrom, List.flatMap_append, ih, textOf_cons]
    congr 1
    unfold Tokenizer.pushChunk
    split_ifs
    · simp
    · exact pushWord_text c.text c.start
    · dsimp only
      split
      · simp
      · exact pushWord_text c.text c.start

theorem tokensFrom_done (h : p.done = true) (index : Nat) (cs : List Chunk) :
    ∀ s ∈ tokensFrom schemes p index cs, s.kind.isPrefix = false := by
  induction cs generalizing p index with
  | nil => simp [tokensFrom]
  | cons c cs ih =>
    cases hws : c.isWs with
    | true =>
      rw [tokensFrom_separator hws]
      exact List.forall_mem_cons.2 ⟨rfl, ih h _⟩
    | false =>
      obtain ⟨p', hdone, heq⟩ := tokensFrom_word schemes cs index hws (.inl h)
      rw [heq]
      exact List.forall_mem_append.2 ⟨fun s hs => pushWord_kind hs, ih hdone _⟩

/-- Whether the next word is classified as prefix. -/
def marksNext (p : Tokenizer.Prefix) (index : Nat) : List Chunk → Bool
  | [] => false
  | c :: cs => if c.isWs then marksNext p (index + 1) cs else (p.classifyPrefix c.text index).1.isSome

theorem classifyDate_isPrefix {kind : TokenKind} (h : p.classifyDate = (some kind, p')) :
    kind.isPrefix = true := by
  unfold Tokenizer.Prefix.classifyDate at h
  by_cases hmax : (if p.seenX then 2 else 1) ≤ p.dates
  · rw [if_pos hmax] at h
    cases h
  · rw [if_neg hmax] at h
    obtain ⟨hkind, -⟩ := Prod.mk.inj h
    rw [← Option.some_inj.1 hkind]
    split_ifs <;> rfl

theorem classifyPrefix_isPrefix {kind : TokenKind} {w : Text}
    (h : p.classifyPrefix w index = (some kind, p')) : kind.isPrefix = true := by
  unfold Tokenizer.Prefix.classifyPrefix at h
  split_ifs at h
  · cases h
    rfl
  · exact classifyDate_isPrefix h
  · cases h
    rfl
  · cases h

theorem tokensFrom_marked_iff (schemes : List Text) (hdone : p.done = false) (index : Nat) (cs : List Chunk) :
    (∀ s ∈ tokensFrom schemes p index cs, s.kind.isPrefix = false) ↔ marksNext p index cs = false := by
  induction cs generalizing index with
  | nil => simp [tokensFrom, marksNext]
  | cons c cs ih =>
    cases hws : c.isWs with
    | true =>
      rw [tokensFrom_separator hws, marksNext, if_pos hws, ← ih, List.forall_mem_cons]
      exact and_iff_right rfl
    | false =>
      rw [marksNext, if_neg (by simp [hws])]
      cases hkind : (p.classifyPrefix c.text index).1 with
      | none =>
        obtain ⟨p', hdone', heq⟩ := tokensFrom_word schemes cs index hws (.inr hkind)
        rw [heq]
        exact ⟨fun _ => rfl, fun _ =>
          List.forall_mem_append.2 ⟨fun s hs => pushWord_kind hs, tokensFrom_done hdone' _ _⟩⟩
      | some kind =>
        have hclass : p.classifyPrefix c.text index = (some kind, (p.classifyPrefix c.text index).2) :=
          Prod.ext hkind rfl
        rw [tokensFrom_taken schemes cs hws hdone hclass, List.forall_mem_cons,
          classifyPrefix_isPrefix hclass]
        simp

end Tokens

/-! ## Side by side -/

/-- The word of a priority. -/
def Priority.word (a : Priority) : Text := ['(', a.letter, ')']

/-- How far both have read: the parser's place and prefix, the tokenizer's state and the words it marked. -/
inductive Reached : Place → Tokenizer.Prefix → List (TokenKind × Text) → Prefix → Prop where
  | start : Reached .start ⟨false, false, 0, false⟩ [] ⟨false, none, none, none⟩
  | openPriority (a : Priority) : Reached .openPriority ⟨false, false, 0, true⟩ [(.priority, a.word)]
      ⟨false, none, none, some a⟩
  | openDate (d : Date) : Reached .ended ⟨false, false, 1, false⟩ [(.creationDate, d.display)]
      ⟨false, none, some d, none⟩
  | openBoth (a : Priority) (d : Date) : Reached .ended ⟨false, false, 1, true⟩
      [(.priority, a.word), (.creationDate, d.display)] ⟨false, none, some d, some a⟩
  | mark : Reached .mark ⟨false, true, 0, false⟩ [(.completionMarker, ['x'])] ⟨true, none, none, none⟩
  | markPriority (a : Priority) : Reached .markPriority ⟨false, true, 0, true⟩
      [(.completionMarker, ['x']), (.priority, a.word)] ⟨true, none, none, some a⟩
  | completion (d : Date) : Reached (.completion false) ⟨false, true, 1, false⟩
      [(.completionMarker, ['x']), (.completionDate, d.display)] ⟨true, some d, none, none⟩
  | priorityCompletion (a : Priority) (d : Date) : Reached (.completion true) ⟨false, true, 1, true⟩
      [(.completionMarker, ['x']), (.priority, a.word), (.completionDate, d.display)]
      ⟨true, some d, none, some a⟩
  | creation (d e : Date) : Reached (.creation false) ⟨false, true, 2, false⟩
      [(.completionMarker, ['x']), (.completionDate, d.display), (.creationDate, e.display)]
      ⟨true, some d, some e, none⟩
  | priorityCreation (a : Priority) (d e : Date) : Reached (.creation true) ⟨false, true, 2, true⟩
      [(.completionMarker, ['x']), (.priority, a.word), (.completionDate, d.display),
        (.creationDate, e.display)] ⟨true, some d, some e, some a⟩
  | completionPriority (d : Date) (a : Priority) : Reached .ended ⟨false, true, 1, true⟩
      [(.completionMarker, ['x']), (.completionDate, d.display), (.priority, a.word)]
      ⟨true, some d, none, some a⟩
  | creationPriority (d e : Date) (a : Priority) : Reached .ended ⟨false, true, 2, true⟩
      [(.completionMarker, ['x']), (.completionDate, d.display), (.creationDate, e.display),
        (.priority, a.word)] ⟨true, some d, some e, some a⟩

/-- What a word is to the prefix. -/
inductive WordClass : Text → Prop where
  | date (d : Date) : WordClass d.display
  | priority (a : Priority) : WordClass a.word
  | other {w : Text} (hdate : Date.parse w = none) (hpriority : priorityOf w = none) : WordClass w

theorem parse_word (a : Priority) : Date.parse a.word = none := by
  rw [Option.eq_none_iff_forall_ne_some]
  intro d hd
  have hlen := congrArg List.length (isDate_iff.1 (parse_date_iff.1 hd))
  simp [Priority.word, Date.display] at hlen

theorem wordClass (w : Text) : WordClass w := by
  cases hdate : Date.parse w with
  | some d =>
    obtain rfl := isDate_iff.1 (parse_date_iff.1 hdate)
    exact .date d
  | none =>
    cases hpriority : priorityOf w with
    | some a =>
      obtain rfl := priorityOf_eq_some hpriority
      exact .priority a
    | none => exact .other hdate hpriority

theorem isPriorityWord_eq (w : Text) : isPriorityWord w = (priorityOf w).isSome := by
  cases hpriority : priorityOf w with
  | some p =>
    rw [Option.isSome_some, priorityOf_eq_some hpriority]
    exact isPriorityWord_iff.2 ⟨p, rfl⟩
  | none =>
    rw [Option.isSome_none, Bool.eq_false_iff]
    intro h
    obtain ⟨p, rfl⟩ := isPriorityWord_iff.1 h
    rw [priorityOf_letter] at hpriority
    cases hpriority

section Classify
variable (st : Tokenizer.Prefix) (index : Nat)

theorem classify_date (d : Date) : st.classifyPrefix d.display index = st.classifyDate := by
  rw [Tokenizer.Prefix.classifyPrefix, if_neg fun h => display_ne_mark d h.2, parse_date_display,
    Option.isSome_some, if_pos rfl]

theorem classify_priority (a : Priority) : st.classifyPrefix a.word index =
    if st.seenPriority then (none, st) else (some .priority, { st with seenPriority := true }) := by
  have hword : isPriorityWord a.word = true := by
    rw [isPriorityWord_eq, Priority.word, priorityOf_letter]
    rfl
  rw [Tokenizer.Prefix.classifyPrefix, if_neg (by simp [Priority.word]), parse_word, if_neg (by simp),
    hword]
  cases st.seenPriority <;> rfl

theorem classify_other {w : Text} (hmark : index ≠ 0 ∨ w ≠ ['x']) (hdate : Date.parse w = none)
    (hpriority : priorityOf w = none) : st.classifyPrefix w index = (none, st) := by
  rw [Tokenizer.Prefix.classifyPrefix, if_neg (by tauto), hdate, if_neg (by simp), isPriorityWord_eq,
    hpriority, if_neg (by simp)]

end Classify

section Take
variable (place : Place) (p : Prefix)

theorem Place.take_date (d : Date) : place.take p d.display = match place with
    | .start => some (.ended, { p with creationDate := some d })
    | .openPriority => some (.ended, { p with creationDate := some d })
    | .mark => some (.completion false, { p with completionDate := some d })
    | .markPriority => some (.completion true, { p with completionDate := some d })
    | .completion seen => some (.creation seen, { p with creationDate := some d })
    | .creation _ => none
    | .ended => none := by
  have hdate : Date.parse d.display = some d ∧ priorityOf d.display = none ∧ d.display ≠ ['x'] :=
    ⟨parse_date_display d, priorityOf_display d, display_ne_mark d⟩
  cases place with
  | creation seen => cases seen <;> simp [Place.take, hdate]
  | _ => simp [Place.take, hdate]

theorem Place.take_priority (a : Priority) : place.take p a.word = match place with
    | .start => some (.openPriority, { p with priority := some a })
    | .mark => some (.markPriority, { p with priority := some a })
    | .completion false => some (.ended, { p with priority := some a })
    | .creation false => some (.ended, { p with priority := some a })
    | _ => none := by
  have hpriority : Date.parse a.word = none ∧ priorityOf a.word = some a ∧ a.word ≠ ['x'] :=
    ⟨parse_word a, priorityOf_letter a, by simp [Priority.word]⟩
  cases place with
  | completion seen => cases seen <;> simp [Place.take, hpriority]
  | creation seen => cases seen <;> simp [Place.take, hpriority]
  | _ => simp [Place.take, hpriority]

theorem Place.take_other {w : Text} (hmark : place ≠ .start ∨ w ≠ ['x']) (hdate : Date.parse w = none)
    (hpriority : priorityOf w = none) : place.take p w = none := by
  cases place with
  | completion seen => cases seen <;> simp [Place.take, hdate, hpriority]
  | creation seen => cases seen <;> simp [Place.take, hpriority]
  | start =>
    have hx : w ≠ ['x'] := hmark.resolve_left fun h => h rfl
    simp [Place.take, hdate, hpriority, hx]
  | _ => simp [Place.take, hdate, hpriority]

end Take

/-- What the parser takes, the tokenizer marks. -/
theorem Reached.take {place place' : Place} {st : Tokenizer.Prefix} {marks : List (TokenKind × Text)}
    {p p' : Prefix} {w : Text} {index : Nat} (h : Reached place st marks p)
    (hindex : index = 0 ↔ place = .start) (htake : place.take p w = some (place', p')) :
    ∃ kind st', st.classifyPrefix w index = (some kind, st') ∧
      Reached place' st' (marks ++ [(kind, w)]) p' := by
  cases wordClass w with
  | date d =>
    rw [classify_date]
    rw [Place.take_date] at htake
    cases h with
    | start =>
      cases htake
      exact ⟨_, _, rfl, .openDate d⟩
    | openPriority a =>
      cases htake
      exact ⟨_, _, rfl, .openBoth a d⟩
    | mark =>
      cases htake
      exact ⟨_, _, rfl, .completion d⟩
    | markPriority a =>
      cases htake
      exact ⟨_, _, rfl, .priorityCompletion a d⟩
    | completion e =>
      cases htake
      exact ⟨_, _, rfl, .creation e d⟩
    | priorityCompletion a e =>
      cases htake
      exact ⟨_, _, rfl, .priorityCreation a e d⟩
    | _ => cases htake
  | priority a =>
    rw [classify_priority]
    rw [Place.take_priority] at htake
    cases h with
    | start =>
      cases htake
      exact ⟨_, _, rfl, .openPriority a⟩
    | mark =>
      cases htake
      exact ⟨_, _, rfl, .markPriority a⟩
    | completion d =>
      cases htake
      exact ⟨_, _, rfl, .completionPriority d a⟩
    | creation d e =>
      cases htake
      exact ⟨_, _, rfl, .creationPriority d e a⟩
    | _ => cases htake
  | other hdate hpriority =>
    by_cases hmark : place ≠ .start ∨ w ≠ ['x']
    · rw [Place.take_other place p hmark hdate hpriority] at htake
      cases htake
    · obtain ⟨rfl, rfl⟩ : place = .start ∧ w = ['x'] := by tauto
      obtain rfl := hindex.2 rfl
      cases h with
      | start =>
        cases htake
        exact ⟨_, _, rfl, .mark⟩

theorem isDateWord_display (d : Date) : isDateWord d.display = true := by
  rw [isDateWord, parse_date_display]
  rfl

theorem isDateWord_word (a : Priority) : isDateWord a.word = false := by
  rw [isDateWord, parse_word]
  rfl

theorem isPriorityWord_word (a : Priority) : isPriorityWord a.word = true := by
  rw [isPriorityWord_eq, Priority.word, priorityOf_letter]
  rfl

theorem isPriorityWord_display (d : Date) : isPriorityWord d.display = false := by
  rw [isPriorityWord_eq, priorityOf_display]
  rfl

theorem loose_done {ws : List Text} : LooseOrder (['x'] :: ws) ↔
    ∃ d p e rest, ws = d :: p :: e :: rest ∧
      isDateWord d = true ∧ isPriorityWord p = true ∧ isDateWord e = true := by
  have hx : isDateWord ['x'] = false := by decide
  constructor
  · rintro (⟨d, p, rest, heq, hdate, -⟩ | ⟨d, p, e, rest, heq, h⟩)
    · rw [← (List.cons.inj heq).1, hx] at hdate
      cases hdate
    · exact ⟨d, p, e, rest, (List.cons.inj heq).2, h⟩
  · rintro ⟨d, p, e, rest, rfl, h⟩
    exact .inr ⟨d, p, e, rest, rfl, h⟩

theorem loose_open {w : Text} {ws : List Text} (hw : w ≠ ['x']) : LooseOrder (w :: ws) ↔
    isDateWord w = true ∧ ∃ p rest, ws = p :: rest ∧ isPriorityWord p = true := by
  constructor
  · rintro (⟨d, p, rest, heq, hdate, hp⟩ | ⟨d, p, e, rest, heq, -⟩)
    · obtain ⟨rfl, rfl⟩ := List.cons.inj heq
      exact ⟨hdate, p, rest, rfl, hp⟩
    · exact absurd (List.cons.inj heq).1 hw
  · rintro ⟨hdate, p, rest, rfl, hp⟩
    exact .inl ⟨w, p, rest, rfl, hdate, hp⟩

/-- Where the parser stops, the tokenizer goes on only with a word in loose order. -/
theorem Reached.stop_iff {place : Place} {st : Tokenizer.Prefix} {marks : List (TokenKind × Text)}
    {p : Prefix} {w : Text} {index : Nat} (h : Reached place st marks p)
    (hindex : index = 0 ↔ place = .start) (hstop : place.take p w = none) (rest : List Text) :
    (st.classifyPrefix w index).1.isSome = true ↔ LooseOrder (marks.map (·.2) ++ w :: rest) := by
  have hword : ∀ a : Priority, a.word ≠ ['x'] := fun a => by simp [Priority.word]
  cases wordClass w with
  | date d =>
    rw [classify_date]
    rw [Place.take_date] at hstop
    cases h with
    | openDate e =>
      simp [Tokenizer.Prefix.classifyDate, loose_open (display_ne_mark e), isPriorityWord_display]
    | openBoth a e => simp [Tokenizer.Prefix.classifyDate, loose_open (hword a), isDateWord_word]
    | creation e f => simp [Tokenizer.Prefix.classifyDate, loose_done, isPriorityWord_display]
    | priorityCreation a e f => simp [Tokenizer.Prefix.classifyDate, loose_done, isDateWord_word]
    | completionPriority e a =>
      simp [Tokenizer.Prefix.classifyDate, loose_done, isPriorityWord_word, isDateWord_display]
    | creationPriority e f a => simp [Tokenizer.Prefix.classifyDate, loose_done, isPriorityWord_display]
    | _ => cases hstop
  | priority a =>
    rw [classify_priority]
    rw [Place.take_priority] at hstop
    cases h with
    | openPriority b => simp [loose_open (hword b), isDateWord_word]
    | openDate e => simp [loose_open (display_ne_mark e), isPriorityWord_word, isDateWord_display]
    | openBoth b e => simp [loose_open (hword b), isDateWord_word]
    | markPriority b => simp [loose_done, isDateWord_word]
    | priorityCompletion b e => simp [loose_done, isDateWord_word]
    | priorityCreation b e f => simp [loose_done, isDateWord_word]
    | completionPriority e b => simp [loose_done, isDateWord_word]
    | creationPriority e f b => simp [loose_done, isPriorityWord_display]
    | _ => cases hstop
  | other hdate hpriority =>
    have hmark : index ≠ 0 ∨ w ≠ ['x'] := by
      by_contra hmark
      obtain ⟨hzero, rfl⟩ : index = 0 ∧ w = ['x'] := by tauto
      rw [hindex.1 hzero] at hstop
      cases hstop
    have hnot : isDateWord w = false ∧ isPriorityWord w = false := by
      rw [isDateWord, isPriorityWord_eq, hdate, hpriority]
      exact ⟨rfl, rfl⟩
    rw [classify_other st index hmark hdate hpriority]
    cases h with
    | start =>
      have hx : w ≠ ['x'] := hmark.resolve_left fun hne => hne (hindex.2 rfl)
      simp [loose_open hx, hnot]
    | openPriority b => simp [loose_open (hword b), isDateWord_word]
    | openDate e => simp [loose_open (display_ne_mark e), hnot]
    | openBoth b e => simp [loose_open (hword b), isDateWord_word]
    | mark => simp [loose_done, hnot]
    | markPriority b => simp [loose_done, isDateWord_word]
    | completion e => simp [loose_done, hnot]
    | priorityCompletion b e => simp [loose_done, isDateWord_word]
    | creation e f => simp [loose_done, isPriorityWord_display]
    | priorityCreation b e f => simp [loose_done, isDateWord_word]
    | completionPriority e b => simp [loose_done, hnot]
    | creationPriority e f b => simp [loose_done, isPriorityWord_display]

/-- A line that ends with its prefix is not in loose order. -/
theorem Reached.not_loose {place : Place} {st : Tokenizer.Prefix} {marks : List (TokenKind × Text)}
    {p : Prefix} (h : Reached place st marks p) : ¬LooseOrder (marks.map (·.2)) := by
  have hword : ∀ a : Priority, a.word ≠ ['x'] := fun a => by simp [Priority.word]
  cases h with
  | start => simp [LooseOrder]
  | openPriority b => simp [loose_open (hword b)]
  | openDate e => simp [loose_open (display_ne_mark e)]
  | openBoth b e => simp [loose_open (hword b), isDateWord_word]
  | _ => simp [loose_done, isDateWord_word, isPriorityWord_display]

/-- The words marked are those of the prefix's fields. -/
theorem Reached.fieldWords {place : Place} {st : Tokenizer.Prefix} {marks : List (TokenKind × Text)}
    {p : Prefix} (h : Reached place st marks p) {kind : TokenKind} (hkind : kind.isPrefix = true) :
    (marks.filter (·.1 = kind)).map (·.2) = p.fieldWords kind := by
  cases kind with
  | completionMarker => cases h <;> rfl
  | completionDate => cases h <;> rfl
  | creationDate => cases h <;> rfl
  | priority => cases h <;> rfl
  | _ => cases hkind

theorem Reached.not_done {place : Place} {st : Tokenizer.Prefix} {marks : List (TokenKind × Text)}
    {p : Prefix} (h : Reached place st marks p) : st.done = false := by
  cases h <;> rfl

/-- The words among chunks. -/
def chunkWords (cs : List Chunk) : List Text := (cs.filter (!·.isWs)).map (·.text)

/-- The kinds and words of the prefix spans. -/
def marksOf (spans : List Span) : List (TokenKind × Text) :=
  (spans.filter (·.kind.isPrefix)).map fun s => (s.kind, s.text)

/-- Both have read the prefix up to `ds`, the tokenizer's spans for it in `front`. -/
structure Walked (schemes : List Text) (st : Tokenizer.Prefix) (index : Nat)
    (marks : List (TokenKind × Text)) (cs : List Chunk) (q : Place) (r : Prefix) (ds : List Chunk)
    (st' : Tokenizer.Prefix) (index' : Nat) (front : List Span) : Prop where
  reached : Reached q st' (marks ++ marksOf front) r
  placed : index' = 0 ↔ q = .start
  tokens : tokensFrom schemes st index cs = front ++ tokensFrom schemes st' index' ds
  spans : ∀ s ∈ front, s.kind.isPrefix = true ∨ s.kind = .whitespace
  words : chunkWords cs = (marksOf front).map (·.2) ++ chunkWords ds
  next : ∀ c ∈ ds.head?, c.isWs = false
  stop : q.take r (wordOf ds) = none

/-- One word more in front, with the separator after it. -/
theorem Walked.word {schemes : List Text} {st st₁ st' : Tokenizer.Prefix} {index index₁ index' : Nat}
    {marks : List (TokenKind × Text)} {cs cs₁ ds : List Chunk} {q : Place} {r : Prefix} {front : List Span}
    {kind : TokenKind} {start : Nat} {w : Text} {sep : List Span}
    (h : Walked schemes st₁ index₁ (marks ++ [(kind, w)]) cs₁ q r ds st' index' front)
    (hkind : kind.isPrefix = true) (hsep : ∀ s ∈ sep, s.kind = .whitespace)
    (htokens : tokensFrom schemes st index cs =
      ⟨kind, start, w⟩ :: (sep ++ tokensFrom schemes st₁ index₁ cs₁))
    (hwords : chunkWords cs = w :: chunkWords cs₁) :
    Walked schemes st index marks cs q r ds st' index' (⟨kind, start, w⟩ :: (sep ++ front)) := by
  have hmarks : marksOf (⟨kind, start, w⟩ :: (sep ++ front)) = (kind, w) :: marksOf front := by
    have hnone : sep.filter (·.kind.isPrefix) = [] := List.filter_eq_nil_iff.2 fun s hs => by
      rw [hsep s hs]
      decide
    simp only [marksOf, List.filter_cons, hkind, if_true, List.filter_append, hnone, List.nil_append,
      List.map_cons]
  refine ⟨?_, h.placed, ?_, ?_, ?_, h.next, h.stop⟩
  · rw [hmarks, List.append_cons]
    exact h.reached
  · rw [htokens, h.tokens, List.cons_append, List.append_assoc]
  · exact List.forall_mem_cons.2 ⟨.inl hkind,
      List.forall_mem_append.2 ⟨fun s hs => .inr (hsep s hs), h.spans⟩⟩
  · rw [hwords, hmarks, h.words]
    rfl

/-- The tokenizer follows the parser through a prefix. -/
theorem ChunkPath.walked (schemes : List Text) {place q : Place} {p r : Prefix} {cs ds : List Chunk}
    (h : ChunkPath place p cs q r ds) (halt : Alternating cs) (hhead : ∀ c ∈ cs.head?, c.isWs = false)
    {st : Tokenizer.Prefix} {marks : List (TokenKind × Text)} {index : Nat}
    (hreach : Reached place st marks p) (hindex : index = 0 ↔ place = .start) :
    ∃ st' index' front, Walked schemes st index marks cs q r ds st' index' front := by
  induction h generalizing st marks index with
  | @stop place p cs h =>
    have hsame : Reached place st (marks ++ marksOf []) p := by
      rwa [show marksOf [] = [] from rfl, List.append_nil]
    exact ⟨st, index, [], hsame, hindex, rfl, List.forall_mem_nil _, rfl, hhead, h⟩
  | @take place place' q p p' r cs ds htake hrest ih =>
    cases cs with
    | nil =>
      rw [show wordOf [] = [] from rfl, Place.take_nil] at htake
      cases htake
    | cons c cs =>
      have hc : c.isWs = false := hhead c rfl
      rw [wordOf, hc, if_neg Bool.false_ne_true] at htake
      obtain ⟨kind, st₁, hclass, hreach₁⟩ := hreach.take hindex htake
      have hkind := classifyPrefix_isPrefix hclass
      have htaken := tokensFrom_taken schemes cs hc hreach.not_done hclass
      have hplace : ∀ n, n + 1 = 0 ↔ place' = .start := by
        intro n
        refine ⟨fun h => by omega, ?_⟩
        rintro rfl
        exact absurd htake Place.take_ne_start
      have hcs : Alternating cs := (show Alternating ([c] ++ cs) from halt).of_append.2
      cases cs with
      | nil =>
        have hnone : ∀ e ∈ ([] : List Chunk).head?, e.isWs = false := fun e he =>
          absurd he (Option.not_mem_none e)
        obtain ⟨st', index', front, hwalk⟩ := ih hcs hnone hreach₁ (hplace index)
        exact ⟨st', index', _, hwalk.word hkind (List.forall_mem_nil _) htaken
          (by simp [chunkWords, hc])⟩
      | cons d cs =>
        have hd : d.isWs = true := by
          have hne : c.isWs ≠ d.isWs := (List.isChain_cons_cons.1 halt.alternate).1
          rw [hc] at hne
          simpa using hne.symm
        have hnext : ∀ e ∈ cs.head?, e.isWs = false := by
          intro e he
          obtain ⟨rest, rfl⟩ := List.head?_eq_some_iff.1 he
          have hne : d.isWs ≠ e.isWs := (List.isChain_cons_cons.1 hcs.alternate).1
          rw [hd] at hne
          simpa using hne.symm
        obtain ⟨st', index', front, hwalk⟩ := ih (show Alternating ([d] ++ cs) from hcs).of_append.2 hnext
          hreach₁ (hplace (index + 1))
        rw [tokensFrom_separator hd] at htaken
        exact ⟨st', index', _, hwalk.word hkind (List.forall_mem_singleton.2 rfl) htaken
          (by simp [chunkWords, hc, hd])⟩

/-- Behind a prefix both have read, they agree when the tokenizer marks nothing more. -/
theorem Reached.agrees_iff {raw : Text} {q : Place} {st : Tokenizer.Prefix} {index : Nat}
    {front : List Span} {ds : List Chunk} (h : Reached q st (marksOf front) (draftOf raw).pre)
    (htokens : tokenize raw = front ++ tokensFrom DEFAULT_SCHEMES st index ds)
    (hspans : ∀ s ∈ front, s.kind.isPrefix = true ∨ s.kind = .whitespace)
    (hdescription : (draftOf raw).description = textOf ds) :
    Agrees raw ↔ marksNext st index ds = false := by
  have hfields : ∀ kind : TokenKind, kind.isPrefix = true →
      (front.filter (·.kind = kind)).map (·.text) = (draftOf raw).pre.fieldWords kind := by
    intro kind hkind
    rw [← h.fieldWords hkind, marksOf, List.filter_map, List.map_map, List.filter_filter]
    congr 1
    refine List.filter_congr fun s hs => ?_
    by_cases hs : s.kind = kind
    · simp [hs, hkind]
    · simp [hs]
  rw [← tokensFrom_marked_iff DEFAULT_SCHEMES h.not_done index ds]
  constructor
  · rintro ⟨front', back, heq, -, hback, -, hfields'⟩ s hs
    by_contra hkind
    rw [Bool.not_eq_false] at hkind
    have hall : ((tokenize raw).filter (·.kind = s.kind)).map (·.text) =
        (draftOf raw).pre.fieldWords s.kind := by
      have hnone : back.filter (·.kind = s.kind) = [] := List.filter_eq_nil_iff.2 fun t ht hst => by
        rw [← of_decide_eq_true hst, hback t ht] at hkind
        cases hkind
      rw [heq, List.filter_append, hnone, List.append_nil]
      exact hfields' s.kind hkind
    rw [htokens, List.filter_append, List.map_append, hfields s.kind hkind] at hall
    have hnone := List.map_eq_nil_iff.1 (List.append_right_eq_self.1 hall)
    have hmem : s ∈ (tokensFrom DEFAULT_SCHEMES st index ds).filter (·.kind = s.kind) :=
      List.mem_filter.2 ⟨hs, by simp⟩
    rw [hnone] at hmem
    cases hmem
  · intro hback
    exact ⟨front, _, htokens, (tokensFrom_text st index ds).trans hdescription.symm, hback, hspans,
      hfields⟩

/-- Behind leading space a date or a priority is marked. -/
theorem classify_behind (w : Text) : (Tokenizer.Prefix.default.classifyPrefix w (0 + 1)).1.isSome =
    (isDateWord w || isPriorityWord w) := by
  cases wordClass w with
  | date d =>
    rw [classify_date, isDateWord_display]
    rfl
  | priority a =>
    rw [classify_priority, isDateWord_word, isPriorityWord_word]
    rfl
  | other hdate hpriority =>
    rw [classify_other _ _ (.inl (by omega)) hdate hpriority, isDateWord, isPriorityWord_eq, hdate,
      hpriority]
    rfl

theorem ChunkPath.of_stop {place q : Place} {p r : Prefix} {cs ds : List Chunk}
    (h : ChunkPath place p cs q r ds) (hstop : place.take p (wordOf cs) = none) :
    q = place ∧ r = p ∧ ds = cs := by
  cases h with
  | stop => exact ⟨rfl, rfl, rfl⟩
  | take htake =>
    rw [hstop] at htake
    cases htake

theorem head_isWs {raw : Text} {c : Chunk} (h : c ∈ (chunks raw).head?) :
    raw.head?.any isWs = c.isWs := by
  obtain ⟨cs, hchunks⟩ := List.head?_eq_some_iff.1 h
  have huni := (alternating_chunksFrom 0 raw).uniform c (by
    rw [show chunksFrom 0 raw = _ from hchunks]
    exact List.mem_cons_self ..)
  have htext := textOf_chunksFrom 0 raw
  rw [show chunksFrom 0 raw = _ from hchunks, textOf_cons] at htext
  rw [← htext, List.head?_append_of_ne_nil _ huni.nonempty, huni.head]

/-- The tokenizer and the lenient parser agree on a line exactly when it has no word the tokenizer alone
takes for prefix. -/
theorem tokenize_agrees_iff (raw : Text) : Agrees raw ↔ ¬Misread raw := by
  obtain ⟨q, ds, hpath, hdescription⟩ := draftOf_chunkPath raw
  have halt : Alternating (chunks raw) := alternating_chunksFrom 0 raw
  have htokens : tokenize raw =
      tokensFrom DEFAULT_SCHEMES Tokenizer.Prefix.default 0 (chunks raw) := tokenizeWithSchemes_eq _ raw
  cases hlead : raw.head?.any isWs with
  | true =>
    obtain ⟨c, cs, hchunks, hws⟩ : ∃ c cs, chunks raw = c :: cs ∧ c.isWs = true := by
      cases hraw : chunks raw with
      | nil =>
        have htext := textOf_chunksFrom 0 raw
        rw [show chunksFrom 0 raw = [] from hraw] at htext
        rw [← htext] at hlead
        cases hlead
      | cons c cs =>
        have hc : c ∈ (chunks raw).head? := by
          rw [hraw]
          rfl
        exact ⟨c, cs, rfl, by rw [← head_isWs hc, hlead]⟩
    rw [hchunks] at hpath htokens halt
    have hnone : Place.take .start Prefix.empty (wordOf (c :: cs)) = none := by
      rw [wordOf, hws, if_pos rfl, Place.take_nil]
    obtain ⟨rfl, hpre, rfl⟩ := hpath.of_stop hnone
    have hreach : Reached .start Tokenizer.Prefix.default (marksOf []) (draftOf raw).pre := by
      rw [hpre]
      exact .start
    have hwords : wordsOf raw = chunkWords cs := by
      rw [wordsOf, hchunks, List.filter_cons_of_neg (by simp [hws])]
      rfl
    have hspans : tokenize raw = [] ++ tokensFrom DEFAULT_SCHEMES Tokenizer.Prefix.default 0 (c :: cs) :=
      htokens
    rw [hreach.agrees_iff hspans (List.forall_mem_nil _) hdescription, marksNext, if_pos hws, Misread, hlead, if_pos rfl,
      hwords]
    cases cs with
    | nil => simp [marksNext, chunkWords]
    | cons w cs =>
      have hw : w.isWs = false := by
        have hne : c.isWs ≠ w.isWs := (List.isChain_cons_cons.1 halt.alternate).1
        rw [hws] at hne
        simpa using hne.symm
      rw [marksNext, hw, if_neg Bool.false_ne_true,
        show chunkWords (w :: cs) = w.text :: chunkWords cs from by simp [chunkWords, hw],
        classify_behind]
      simp
  | false =>
    have hhead : ∀ c ∈ (chunks raw).head?, c.isWs = false := by
      intro c hc
      rw [← head_isWs hc, hlead]
    have hzero : 0 = 0 ↔ Place.start = .start := by simp
    obtain ⟨st', index', front, hwalk⟩ := hpath.walked DEFAULT_SCHEMES halt hhead .start hzero
    have hreach : Reached q st' (marksOf front) (draftOf raw).pre := hwalk.reached
    rw [hreach.agrees_iff (htokens.trans hwalk.tokens) hwalk.spans hdescription, Misread, hlead,
      if_neg Bool.false_ne_true, show wordsOf raw = _ from hwalk.words]
    cases ds with
    | nil =>
      rw [show chunkWords [] = [] from rfl, List.append_nil]
      exact ⟨fun _ => hreach.not_loose, fun _ => rfl⟩
    | cons c ds =>
      have hc : c.isWs = false := hwalk.next c rfl
      have hstop := hwalk.stop
      rw [wordOf, hc, if_neg Bool.false_ne_true] at hstop
      have hwords : chunkWords (c :: ds) = c.text :: chunkWords ds := by simp [chunkWords, hc]
      rw [hwords, ← hreach.stop_iff hwalk.placed hstop, marksNext, hc, if_neg Bool.false_ne_true,
        Bool.not_eq_true]

/-- Leading space, an open line with a date and then a priority, a done one with a date behind its
priority. -/
theorem tokenize_disagrees :
    ¬Agrees " 2026-09-11 call".toList ∧ ¬Agrees "2026-09-11 (A) call".toList ∧
      ¬Agrees "x 2026-09-11 (A) 2026-09-01 call".toList := by
  refine ⟨?_, ?_, ?_⟩
  · rw [tokenize_agrees_iff, not_not, Misread, if_pos (by decide)]
    exact ⟨"2026-09-11".toList, ["call".toList], by decide +kernel, .inl (by decide +kernel)⟩
  · rw [tokenize_agrees_iff, not_not, Misread, if_neg (by decide)]
    exact .inl ⟨"2026-09-11".toList, "(A)".toList, ["call".toList], by decide +kernel,
      by decide +kernel, by decide +kernel⟩
  · rw [tokenize_agrees_iff, not_not, Misread, if_neg (by decide)]
    exact .inr ⟨"2026-09-11".toList, "(A)".toList, "2026-09-01".toList, ["call".toList],
      by decide +kernel, by decide +kernel, by decide +kernel, by decide +kernel⟩

end Txtodo
