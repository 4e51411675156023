import Txtodo.Core.Proofs.WordSplitProofs
import Txtodo.Core.Proofs.CompletionProofs
import Txtodo.Mcp.Proofs.RowProofs
import Mathlib

/-!
# When the row agrees with the core parser

The row of a line the strict parser accepts is compared with the lenient parse, field by field.
-/

namespace Txtodo.Mcp

open Grammar

/-! ## The row from its front and the text behind it -/

/-- The row of a front and the text left of the line. -/
def finish (front : TaskRow) (rest : Text) : TaskRow :=
  let row := (splitWhitespace rest).foldl classifyWord front
  if row.priority.isNone then
    { row with priority := (row.kv.find? (·.1 = "pri".toList)).bind (·.2.head?) }
  else row

theorem parseRow_eq (lineNo : Nat) (raw : Text) : parseRow lineNo raw =
    finish (parsePrefix { TaskRow.default with line := lineNo, raw := raw } raw).1
      (parsePrefix { TaskRow.default with line := lineNo, raw := raw } raw).2 := rfl

/-- A row with nothing but its front. -/
structure TaskRow.Bare (front : TaskRow) : Prop where
  id : front.id = none
  due : front.due = none
  projects : front.projects = []
  contexts : front.contexts = []
  kv : front.kv = []

/-- The first letter of the first `pri:` tag among `ws`. -/
def letterOf (ws : List Text) : Option Char := (values "pri".toList ws).head?.bind (·.head?)

section Finish
variable {front : TaskRow} (rest : Text)

theorem finish_front (front : TaskRow) : (finish front rest).done = front.done ∧
    (finish front rest).completed = front.completed ∧ (finish front rest).created = front.created := by
  obtain ⟨hdone, hcompleted, hcreated, -⟩ := foldl_front front (splitWhitespace rest)
  unfold finish
  dsimp only
  split <;> exact ⟨hdone, hcompleted, hcreated⟩

theorem finish_priority (h : front.Bare) : (finish front rest).priority =
    front.priority.or (letterOf (splitWhitespace rest)) := by
  obtain ⟨-, -, -, hpriority⟩ := foldl_front front (splitWhitespace rest)
  have hpri := foldl_pri front (splitWhitespace rest)
  rw [h.kv, List.find?_nil, Option.map_none, Option.none_or] at hpri
  unfold finish
  dsimp only
  rw [hpriority]
  cases hfront : front.priority with
  | some p =>
    rw [if_neg (by simp), hpriority, hfront]
    rfl
  | none =>
    rw [letterOf, ← hpri]
    cases ((splitWhitespace rest).foldl classifyWord front).kv.find? (·.1 = "pri".toList) <;> rfl

theorem finish_words (h : front.Bare) :
    (finish front rest).projects = (splitWhitespace rest).filterMap projectOf ∧
      (finish front rest).contexts = (splitWhitespace rest).filterMap contextOf ∧
      (finish front rest).id = (values "id".toList (splitWhitespace rest)).head? ∧
      (finish front rest).due = (values "due".toList (splitWhitespace rest)).getLast? := by
  have hprojects := foldl_projects front (splitWhitespace rest)
  have hcontexts := foldl_contexts front (splitWhitespace rest)
  have hid := foldl_id front (splitWhitespace rest)
  have hdue := foldl_due front (splitWhitespace rest)
  rw [h.projects, List.nil_append] at hprojects
  rw [h.contexts, List.nil_append] at hcontexts
  rw [h.id, Option.none_or] at hid
  rw [h.due, Option.or_none] at hdue
  unfold finish
  dsimp only
  split <;> exact ⟨hprojects, hcontexts, hid, hdue⟩

end Finish

/-! ## What the core reads off words -/

theorem projectOf_cons (w : Text) : projectOf ('+' :: w) = if w = [] then none else some w := by
  cases w with
  | nil => rfl
  | cons c w => simp [projectOf, stripPrefix, Option.filter]

theorem contextOf_cons (w : Text) : contextOf ('@' :: w) = if w = [] then none else some w := by
  cases w with
  | nil => rfl
  | cons c w => simp [contextOf, stripPrefix, Option.filter]

theorem projectOf_none {c : Char} (h : c ≠ '+') (w : Text) : projectOf (c :: w) = none := by
  have hp : ¬['+'] <+: c :: w := fun hp => h (List.cons_prefix_cons.mp hp).1.symm
  rw [projectOf, stripPrefix, if_neg hp]
  rfl

theorem contextOf_none {c : Char} (h : c ≠ '@') (w : Text) : contextOf (c :: w) = none := by
  have hp : ¬['@'] <+: c :: w := fun hp => h (List.cons_prefix_cons.mp hp).1.symm
  rw [contextOf, stripPrefix, if_neg hp]
  rfl

section Sigil
variable {c : Char} {w : Text}

/-- A word that starts with a sigil is no URL. -/
theorem isUrl_sigil (h : c = '+' ∨ c = '@') (w : Text) : isUrl (c :: w) DEFAULT_SCHEMES = false := by
  have hheads : ∀ s ∈ DEFAULT_SCHEMES, (s.map Char.toLower).head?.all fun d =>
      d ≠ '+' && d ≠ '@' := by decide
  have hsome : ∀ s ∈ DEFAULT_SCHEMES, (s.map Char.toLower).head?.isSome := by decide
  have hlower : c.toLower = '+' ∨ c.toLower = '@' := by
    rcases h with rfl | rfl
    · exact .inl (by decide)
    · exact .inr (by decide)
  unfold isUrl
  split
  · rfl
  · rename_i colon _
    rw [Bool.and_eq_false_imp]
    refine fun _ => List.any_eq_false.mpr fun s hs heq => ?_
    obtain ⟨d, hd⟩ := Option.isSome_iff_exists.mp (hsome s hs)
    have hne := hheads s hs
    rw [hd] at hne
    rw [eqIgnoreAsciiCase, decide_eq_true_eq] at heq
    rw [heq] at hd
    cases colon with
    | zero => cases hd
    | succ n =>
      obtain rfl : c.toLower = d := by simpa using hd
      rcases hlower with h | h <;> rw [h] at hne <;> exact absurd hne (by decide)

/-- How the core classifies a word that starts with a sigil. -/
theorem classifyWord_sigil (h : c = '+' ∨ c = '@') (hw : w ≠ []) :
    Txtodo.classifyWord (c :: w) DEFAULT_SCHEMES = if c = '+' then .project else .context := by
  have hid : stripPrefix "id:".toList (c :: w) = none := by
    rw [stripPrefix, if_neg]
    intro hp
    have hc : 'i' = c := (List.cons_prefix_cons.mp hp).1
    rcases h with rfl | rfl <;> exact absurd hc (by decide)
  have hlen : decide (1 < (c :: w).length) = true := by
    have := List.length_pos_iff.mpr hw
    simpa using this
  rw [Txtodo.classifyWord, isUrl_sigil h, if_neg Bool.false_ne_true, hid, if_neg (by simp), hlen]
  rcases h with rfl | rfl
  · rfl
  · rfl

end Sigil

/-- A project starts with a plus, a context with an at sign, and each has a name. -/
theorem head_of_classify {w : Text} :
    (Txtodo.classifyWord w DEFAULT_SCHEMES = .project → w.head? = some '+' ∧ 1 < w.length) ∧
      (Txtodo.classifyWord w DEFAULT_SCHEMES = .context → w.head? = some '@' ∧ 1 < w.length) := by
  rw [Txtodo.classifyWord]
  split_ifs with hurl hid hplus hat
  · exact ⟨fun h => (by cases h), fun h => (by cases h)⟩
  · exact ⟨fun h => (by cases h), fun h => (by cases h)⟩
  · rw [Bool.and_eq_true, decide_eq_true_eq, decide_eq_true_eq] at hplus
    exact ⟨fun _ => hplus.symm, fun h => (by cases h)⟩
  · rw [Bool.and_eq_true, decide_eq_true_eq, decide_eq_true_eq] at hat
    exact ⟨fun h => (by cases h), fun _ => hat.symm⟩
  · split <;> exact ⟨fun h => (by cases h), fun h => (by cases h)⟩

/-- The core's project of a word is the row's. -/
theorem projectOf_eq (w : Text) : projectOf w =
    if Txtodo.classifyWord w DEFAULT_SCHEMES = .project then some (w.drop 1) else none := by
  split_ifs with h
  · obtain ⟨hhead, hlen⟩ := head_of_classify.1 h
    obtain ⟨rest, rfl⟩ := List.head?_eq_some_iff.mp hhead
    have hrest : rest ≠ [] := by
      rintro rfl
      exact absurd hlen (by decide)
    rw [projectOf_cons, if_neg hrest]
    rfl
  · cases w with
    | nil => rfl
    | cons c rest =>
      by_cases hc : c = '+'
      · subst hc
        have hrest : rest = [] := by
          by_contra hne
          exact h ((classifyWord_sigil (.inl rfl) hne).trans (if_pos rfl))
        rw [projectOf_cons, if_pos hrest]
      · exact projectOf_none hc rest

/-- The core's context of a word is the row's. -/
theorem contextOf_eq (w : Text) : contextOf w =
    if Txtodo.classifyWord w DEFAULT_SCHEMES = .context then some (w.drop 1) else none := by
  split_ifs with h
  · obtain ⟨hhead, hlen⟩ := head_of_classify.2 h
    obtain ⟨rest, rfl⟩ := List.head?_eq_some_iff.mp hhead
    have hrest : rest ≠ [] := by
      rintro rfl
      exact absurd hlen (by decide)
    rw [contextOf_cons, if_neg hrest]
    rfl
  · cases w with
    | nil => rfl
    | cons c rest =>
      by_cases hc : c = '@'
      · subst hc
        have hrest : rest = [] := by
          by_contra hne
          exact h ((classifyWord_sigil (.inr rfl) hne).trans (if_neg (by decide)))
        rw [contextOf_cons, if_pos hrest]
      · exact contextOf_none hc rest

/-- What the core reads off words of one kind. -/
theorem words_filter (t : Task) (kind : WordKind) :
    (t.words.filter (·.1 = kind)).map (·.2.drop 1) = (splitWords t.description).filterMap fun w =>
      if Txtodo.classifyWord w DEFAULT_SCHEMES = kind then some (w.drop 1) else none := by
  rw [← words_chunksFrom 0, Task.words, chunks]
  induction (chunksFrom 0 t.description).filter (!·.isWs) with
  | nil => rfl
  | cons c cs ih =>
    rw [List.map_cons, List.filter_cons, List.map_cons, List.filterMap_cons, ← ih]
    by_cases h : Txtodo.classifyWord c.text DEFAULT_SCHEMES = kind
    · simp [h]
    · simp [h]

theorem projects_eq (t : Task) : t.projects = (splitWords t.description).filterMap projectOf := by
  rw [Task.projects, words_filter, funext projectOf_eq]

theorem contexts_eq (t : Task) : t.contexts = (splitWords t.description).filterMap contextOf := by
  rw [Task.contexts, words_filter, funext contextOf_eq]

/-- A word split at its colon. -/
theorem splitKeyValue_some {w k v : Text} (h : splitKeyValue w = some (k, v)) :
    v ≠ [] ∧ w = k ++ ':' :: v := by
  unfold splitKeyValue at h
  split at h
  · rename_i colon hcolon
    dsimp only at h
    split at h
    · rename_i hparts
      obtain ⟨rfl, rfl⟩ := Prod.mk.inj (Option.some.inj h)
      obtain ⟨hlt, hat, -⟩ := List.idxOf?_eq_some_iff.mp hcolon
      refine ⟨fun hnil => ?_, ?_⟩
      · rw [hnil] at hparts
        simp at hparts
      · rw [← hat, ← List.drop_eq_getElem_cons hlt, List.take_append_drop]
    · cases h
  · cases h

/-- A word of an ordinary key is the row's too, and has the same value. -/
theorem valueOf_eq {key : Text} (h : OrdinaryKey key) (w : Text) :
    valueOf key w = if hasKey key w then some (w.drop (key.length + 1)) else none := by
  rw [h.hasKey_eq]
  cases hw : isTagWord key w with
  | true =>
    obtain ⟨v, hv, rfl⟩ := isTagWord_iff.mp hw
    have hsplit : splitKeyValue (key ++ ':' :: v) = some (key, v) := by
      rw [splitKeyValue, h.idxOf? v]
      simp [h.ne_nil, hv]
    obtain ⟨c, rest, rfl⟩ := List.exists_cons_of_ne_nil h.ne_nil
    have hplus : c ≠ '+' := fun hc => h.project (by rw [hc]; rfl)
    have hat : c ≠ '@' := fun hc => h.context (by rw [hc]; rfl)
    rw [valueOf, List.cons_append, projectOf_none hplus, contextOf_none hat, ← List.cons_append, hsplit]
    simp
  | false =>
    rw [if_neg Bool.false_ne_true, valueOf]
    split
    · rfl
    · cases hsplit : splitKeyValue w with
      | none => rfl
      | some kv =>
        obtain ⟨k, v⟩ := kv
        obtain ⟨hv, rfl⟩ := splitKeyValue_some hsplit
        have hne : k ≠ key := by
          rintro rfl
          exact Bool.eq_false_iff.mp hw (isTagWord_iff.mpr ⟨v, hv, rfl⟩)
        simp [Option.filter, hne]

/-- The first value of an ordinary key is the core's tag. -/
theorem tag_eq_values {key : Text} (h : OrdinaryKey key) (t : Task) :
    t.tag key = (values key (splitWords t.description)).head? := by
  rw [Task.tag_eq, values]
  induction splitWords t.description with
  | nil => rfl
  | cons w ws ih =>
    rw [List.find?_cons, List.filterMap_cons, valueOf_eq h]
    cases hasKey key w with
    | true => rfl
    | false => exact ih

/-! ## The front of a line -/

section Front
variable (e : Date) (p : Priority) (s : Text)

theorem isDigit_digit (n : Nat) : (digit n).isDigit = true := by
  have hall : ∀ k < 10, (Char.ofNat ('0'.toNat + k)).isDigit = true := by decide
  exact hall _ (Nat.mod_lt n (by decide))

/-- A date and a space are taken. -/
theorem takeDate_display : takeDate (e.display ++ ' ' :: s) = some (e.display, s) := by
  have hlen : dateLen (e.display ++ ' ' :: s) = 11 := by
    simp [dateLen, Date.display, isDigit_digit, show ('-' : Char).isDigit = false from rfl]
  rw [takeDate, hlen]
  rfl

/-- A date that ends the line is not. -/
theorem takeDate_display_end : takeDate e.display = none := by
  have hlen : dateLen e.display = 0 := by
    simp [dateLen, Date.display, isDigit_digit, show ('-' : Char).isDigit = false from rfl]
  rw [takeDate, hlen]
  rfl

theorem takeDate_bracket : takeDate ('(' :: s) = none := rfl

theorem takeDate_letter : takeDate (letterWord p ++ s) = none := rfl

theorem takePriority_letter : takePriority (letterWord p ++ ' ' :: s) = some (p.letter, s) := rfl

theorem takePriority_letter_end : takePriority (letterWord p) = none := rfl

theorem digit_ne_bracket (n : Nat) : digit n ≠ '(' := by
  have hall : ∀ k < 10, Char.ofNat ('0'.toNat + k) ≠ '(' := by decide
  exact hall _ (Nat.mod_lt n (by decide))

theorem takePriority_display : takePriority (e.display ++ s) = none := by
  unfold takePriority
  split
  · rename_i heq
    exact absurd (List.cons.inj heq).1 (digit_ne_bracket _)
  · rfl

theorem takePriority_display_end : takePriority e.display = none := by
  have h := takePriority_display e []
  rwa [List.append_nil] at h

theorem stripPrefix_mark : stripPrefix "x ".toList ('x' :: ' ' :: s) = some s := rfl

/-- Only a mark in front of a space is stripped. -/
theorem stripPrefix_other {w : Text} (hw : IsRun w) (hx : w ≠ ['x']) :
    stripPrefix "x ".toList (w ++ s) = none := by
  rw [stripPrefix, if_neg]
  intro hp
  obtain ⟨c, w', rfl⟩ := List.exists_cons_of_ne_nil hw.1
  have hmark : ['x', ' '] <+: c :: (w' ++ s) := hp
  obtain ⟨hc, hspace⟩ := List.cons_prefix_cons.mp hmark
  cases w' with
  | nil => exact hx (by rw [← hc])
  | cons d w' =>
    have hd : ' ' = d := (List.cons_prefix_cons.mp hspace).1
    exact absurd (hw.2 d (by simp)) (by rw [← hd]; decide)

end Front

/-! ## Agreement -/

/-- Two lists of words say the same of every field but the priority. -/
structure ReadAlike (pieces words : List Text) : Prop where
  projects : pieces.filterMap projectOf = words.filterMap projectOf
  contexts : pieces.filterMap contextOf = words.filterMap contextOf
  id : (values "id".toList pieces).head? = (values "id".toList words).head?
  due : (values "due".toList pieces).getLast? = (values "due".toList words).head?

/-- Lists that are the same or empty in the one flattening are the same in both when their sums are. -/
theorem eq_of_flatMap_eq {α β : Type} {f g : α → List β} {l : List α}
    (hfg : ∀ a ∈ l, f a = g a ∨ f a = []) (h : l.flatMap g = l.flatMap f) : ∀ a ∈ l, f a = g a := by
  induction l with
  | nil => exact fun a ha => absurd ha List.not_mem_nil
  | cons a l ih =>
    have hrest : ∀ b ∈ l, f b = g b ∨ f b = [] := fun b hb => hfg b (List.mem_cons_of_mem _ hb)
    have hsub : (l.flatMap f).length ≤ (l.flatMap g).length := by
      rw [List.length_flatMap, List.length_flatMap]
      refine List.sum_le_sum fun b hb => ?_
      rcases hrest b hb with heq | hnil
      · rw [heq]
      · rw [hnil]
        exact Nat.zero_le _
    rw [List.flatMap_cons, List.flatMap_cons] at h
    have ha : f a = g a := by
      rcases hfg a (List.mem_cons_self ..) with heq | hnil
      · exact heq
      · rw [hnil, List.nil_append] at h
        have hlength := congrArg List.length h
        rw [List.length_append] at hlength
        rw [hnil, List.length_eq_zero_iff.1 (by omega : (g a).length = 0)]
    rw [ha, List.append_cancel_left_eq] at h
    exact List.forall_mem_cons.2 ⟨ha, ih hrest h⟩

theorem isWhitespace_of_isWs (c : Char) (h : isWs c = true) : isWhitespace c = true := by
  rcases (by simpa [isWs] using h : c = ' ' ∨ c = '\t') with rfl | rfl <;> decide

/-- The row cuts each word of the core at the Unicode spaces in it. -/
theorem splitWhitespace_eq_flatMap (s : Text) :
    splitWhitespace s = (splitWords s).flatMap splitWhitespace := by
  have hskip : ∀ l : List Text, (l.filter (!·.isEmpty)).flatMap splitWhitespace =
      l.flatMap splitWhitespace := by
    intro l
    induction l with
    | nil => rfl
    | cons w l ih =>
      cases w with
      | nil => exact ih
      | cons c w => exact congrArg (splitWhitespace (c :: w) ++ ·) ih
  rw [splitWords, hskip]
  conv_lhs => rw [splitWhitespace, Split.splitOnP_flatMap isWhitespace_of_isWs, List.filter_flatMap]
  rfl

/-- A Unicode space stands in the word. -/
def Broken (w : Text) : Prop := ∃ c ∈ w, isWhitespace c = true

theorem splitWhitespace_whole {w : Text} (hne : w ≠ []) (h : ¬Broken w) : splitWhitespace w = [w] := by
  have hplain : ∀ c ∈ w, isWhitespace c = false := fun c hc =>
    Bool.eq_false_iff.2 fun hspace => h ⟨c, hc, hspace⟩
  rw [splitWhitespace, List.splitOnP_eq_singleton hplain]
  cases w with
  | nil => exact absurd rfl hne
  | cons c w => rfl

theorem not_broken_of_mem {s w : Text} (h : w ∈ splitWhitespace s) : ¬Broken w := by
  rintro ⟨c, hc, hspace⟩
  rw [Split.plain_of_mem (List.mem_of_mem_filter h) c hc] at hspace
  cases hspace

/-- No word with a Unicode space in it is read, nor is a piece of it. -/
def CutAlike (read : Text → Option Text) (words : List Text) : Prop :=
  ∀ w ∈ words, Broken w → read w = none ∧ ∀ piece ∈ splitWhitespace w, read piece = none

/-- Both cuts read the same exactly when no word is cut that is read or has a piece that is. -/
theorem filterMap_splitWhitespace_iff {read : Text → Option Text}
    (hread : ∀ w v, read w = some v → (Broken v ↔ Broken w)) (s : Text) :
    (splitWhitespace s).filterMap read = (splitWords s).filterMap read ↔ CutAlike read (splitWords s) := by
  have hwhole : ∀ w ∈ splitWords s, ¬Broken w → splitWhitespace w = [w] := by
    intro w hw h
    refine splitWhitespace_whole ?_ h
    rintro rfl
    simpa using (List.mem_filter.1 hw).2
  have hone : ∀ w, [w].filterMap read = (read w).toList := fun w => by
    cases hw : read w <;> simp [hw]
  rw [splitWhitespace_eq_flatMap, List.filterMap_flatMap, List.filterMap_eq_flatMap_toList]
  constructor
  · intro heq
    have hunread : ∀ w ∈ splitWords s, Broken w → read w = none := by
      intro w hw hbroken
      cases hv : read w with
      | none => rfl
      | some v =>
        have hmem : v ∈ (splitWords s).flatMap fun w => (read w).toList :=
          List.mem_flatMap.2 ⟨w, hw, by simp [hv]⟩
        rw [← heq] at hmem
        obtain ⟨w', -, hpieces⟩ := List.mem_flatMap.1 hmem
        obtain ⟨piece, hpiece, hv'⟩ := List.mem_filterMap.1 hpieces
        exact absurd ((hread piece v hv').1 ((hread w v hv).2 hbroken)) (not_broken_of_mem hpiece)
    have hsame := eq_of_flatMap_eq (fun w hw => by
      by_cases hbroken : Broken w
      · exact .inr (by rw [hunread w hw hbroken]; rfl)
      · exact .inl (by rw [hwhole w hw hbroken, hone])) heq
    intro w hw hbroken
    have hpieces := hsame w hw
    rw [hunread w hw hbroken] at hpieces
    exact ⟨hunread w hw hbroken, List.filterMap_eq_nil_iff.1 hpieces.symm⟩
  · intro h
    refine List.flatMap_congr fun w hw => ?_
    by_cases hbroken : Broken w
    · obtain ⟨hword, hpieces⟩ := h w hw hbroken
      rw [hword, List.filterMap_eq_nil_iff.2 hpieces]
      rfl
    · rw [hwhole w hw hbroken, hone]

theorem broken_cons {c : Char} (hc : isWhitespace c = false) (w : Text) : Broken (c :: w) ↔ Broken w := by
  simp [Broken, hc]

/-- A word without its sigil is broken when the word is. -/
theorem broken_of_strip {c : Char} (hc : isWhitespace c = false) {w v : Text}
    (h : stripPrefix [c] w = some v) : Broken v ↔ Broken w := by
  unfold stripPrefix at h
  split_ifs at h with hprefix
  obtain ⟨rest, rfl⟩ := hprefix
  obtain rfl : rest = v := Option.some.inj h
  exact (broken_cons hc rest).symm

/-- No Unicode space changes a project or a context, nor the first `id:`, and the last `due:` is the first. -/
structure WordsLegible (text : Text) : Prop where
  projects : CutAlike projectOf (splitWords text)
  contexts : CutAlike contextOf (splitWords text)
  id : (values "id".toList (splitWhitespace text)).head? = (values "id".toList (splitWords text)).head?
  due : (values "due".toList (splitWhitespace text)).getLast? =
    (values "due".toList (splitWords text)).head?

theorem readAlike_iff (text : Text) :
    ReadAlike (splitWhitespace text) (splitWords text) ↔ WordsLegible text := by
  have hprojects := filterMap_splitWhitespace_iff (fun w v h =>
    broken_of_strip (by decide) (Option.filter_eq_some_iff.1 (h : projectOf w = some v)).1) text
  have hcontexts := filterMap_splitWhitespace_iff (fun w v h =>
    broken_of_strip (by decide) (Option.filter_eq_some_iff.1 (h : contextOf w = some v)).1) text
  exact ⟨fun h => ⟨hprojects.1 h.projects, hcontexts.1 h.contexts, h.id, h.due⟩,
    fun h => ⟨hprojects.2 h.projects, hcontexts.2 h.contexts, h.id, h.due⟩⟩

/-- The row gives what the core reads; a `pri:` tag stands in for a priority that is not in front. -/
structure Agrees (row : TaskRow) (t : Task) : Prop where
  done : row.done = t.completed
  completed : row.completed = t.completionDate.map Date.display
  created : row.created = t.creationDate.map Date.display
  priority : row.priority =
    (t.priority.map (·.letter)).or ((t.tag "pri".toList).bind (·.head?))
  projects : row.projects = t.projects
  contexts : row.contexts = t.contexts
  id : row.id = t.tag "id".toList
  due : row.due = t.tag "due".toList

/-- When the row of `raw` gives what the core reads of it, as `t`. -/
structure Legible (raw : Text) (t : Task) : Prop where
  /-- Something follows the prefix. -/
  described : t.description ≠ []
  /-- No priority stands between the mark and the completion date. -/
  completion : t.completionDate.isSome → takePriority (raw.drop 2) = none
  /-- Nothing the core leaves in the description looks like a creation date. -/
  undated : t.creationDate = none → takeDate t.description = none
  /-- What looks like a priority there is the one the `pri:` tag gives, and no date follows it. -/
  bracket : t.creationDate = none → t.priority = none → ∀ c rest,
    takePriority t.description = some (c, rest) →
      letterOf (splitWords t.description) = some c ∧ takeDate rest = none
  /-- Otherwise the `pri:` tag is the same to both. -/
  letter : t.priority = none → t.creationDate.isSome ∨ takePriority t.description = none →
    letterOf (splitWhitespace t.description) = letterOf (splitWords t.description)
  /-- A priority after both dates is repeated by the `pri:` tag. -/
  trailing : t.completed = true → t.creationDate.isSome → ∀ p, t.priority = some p →
    letterOf (splitWhitespace t.description) = some p.letter
  words : WordsLegible t.description

theorem ordinaryKey_due : OrdinaryKey "due".toList := ⟨by decide, by decide, by decide, by decide⟩

/-- A row agrees exactly when its front does and its words say the same. -/
theorem agrees_finish_iff {front : TaskRow} (h : front.Bare) (rest : Text) (t : Task) :
    Agrees (finish front rest) t ↔ (front.done = t.completed ∧
      front.completed = t.completionDate.map Date.display ∧
      front.created = t.creationDate.map Date.display) ∧
      front.priority.or (letterOf (splitWhitespace rest)) =
        (t.priority.map (·.letter)).or (letterOf (splitWords t.description)) ∧
      ReadAlike (splitWhitespace rest) (splitWords t.description) := by
  obtain ⟨hdone, hcompleted, hcreated⟩ := finish_front rest front
  have hpriority := finish_priority rest h
  obtain ⟨hprojects, hcontexts, hid, hdue⟩ := finish_words rest h
  have hletter : (t.tag "pri".toList).bind (·.head?) = letterOf (splitWords t.description) := by
    rw [tag_eq_values ordinaryKey_pri, letterOf]
  constructor
  · intro hag
    refine ⟨⟨hdone ▸ hag.done, hcompleted ▸ hag.completed, hcreated ▸ hag.created⟩, ?_, ?_⟩
    · rw [← hpriority, ← hletter]
      exact hag.priority
    · refine ⟨?_, ?_, ?_, ?_⟩
      · rw [← hprojects, ← projects_eq]
        exact hag.projects
      · rw [← hcontexts, ← contexts_eq]
        exact hag.contexts
      · rw [← hid, ← tag_eq_values ordinaryKey_id]
        exact hag.id
      · rw [← hdue, ← tag_eq_values ordinaryKey_due]
        exact hag.due
  · rintro ⟨⟨hd, hc, hr⟩, hp, hw⟩
    refine ⟨hdone.trans hd, hcompleted.trans hc, hcreated.trans hr, ?_, ?_, ?_, ?_, ?_⟩
    · rw [hpriority, hletter]
      exact hp
    · rw [hprojects, projects_eq]
      exact hw.projects
    · rw [hcontexts, contexts_eq]
      exact hw.contexts
    · rw [hid, tag_eq_values ordinaryKey_id]
      exact hw.id
    · rw [hdue, tag_eq_values ordinaryKey_due]
      exact hw.due

/-! ## Words that say nothing -/

/-- A word that is no project, no context and none of the tags the row reads. -/
structure Silent (w : Text) : Prop where
  project : projectOf w = none
  context : contextOf w = none
  tag : ∀ key ∈ ["id".toList, "due".toList, "pri".toList], valueOf key w = none

/-- A word that starts with a bracket is silent. -/
theorem silent_bracket {c : Char} (h : c = '(' ∨ c = ')') (w : Text) : Silent (c :: w) := by
  refine ⟨projectOf_none ?_ w, contextOf_none ?_ w, fun key hkey => ?_⟩
  · rcases h with rfl | rfl <;> decide
  · rcases h with rfl | rfl <;> decide
  · have hordinary : OrdinaryKey key ∧ key.head? ≠ some '(' ∧ key.head? ≠ some ')' := by
      rcases List.mem_cons.mp hkey with rfl | hkey
      · exact ⟨ordinaryKey_id, by decide, by decide⟩
      · rcases List.mem_cons.mp hkey with rfl | hkey
        · exact ⟨ordinaryKey_due, by decide, by decide⟩
        · rw [List.mem_singleton.mp hkey]
          exact ⟨ordinaryKey_pri, by decide, by decide⟩
    rw [valueOf_eq hordinary.1, hordinary.1.hasKey_eq, if_neg]
    intro hw
    obtain ⟨v, -, heq⟩ := isTagWord_iff.mp hw
    obtain ⟨d, rest, rfl⟩ := List.exists_cons_of_ne_nil hordinary.1.ne_nil
    obtain rfl : c = d := (List.cons.inj heq).1
    rcases h with rfl | rfl
    · exact hordinary.2.1 rfl
    · exact hordinary.2.2 rfl

section SilentWords
variable {us : List Text} (ws vs : List Text)

theorem values_silent (h : ∀ w ∈ us, Silent w) (key : Text)
    (hkey : key ∈ ["id".toList, "due".toList, "pri".toList]) :
    values key (us ++ ws) = values key ws := by
  rw [values, List.filterMap_append, List.filterMap_eq_nil_iff.mpr fun w hw => (h w hw).tag key hkey]
  rfl

theorem letterOf_silent (h : ∀ w ∈ us, Silent w) : letterOf (us ++ ws) = letterOf ws := by
  rw [letterOf, values_silent ws h _ (by simp), letterOf]

theorem readAlike_silent (h : ∀ w ∈ us, Silent w) : ReadAlike (us ++ ws) vs ↔ ReadAlike ws vs := by
  have hprojects : (us ++ ws).filterMap projectOf = ws.filterMap projectOf := by
    rw [List.filterMap_append, List.filterMap_eq_nil_iff.mpr fun w hw => (h w hw).project]
    rfl
  have hcontexts : (us ++ ws).filterMap contextOf = ws.filterMap contextOf := by
    rw [List.filterMap_append, List.filterMap_eq_nil_iff.mpr fun w hw => (h w hw).context]
    rfl
  have hid := values_silent ws h "id".toList (by simp)
  have hdue := values_silent ws h "due".toList (by simp)
  constructor
  · rintro ⟨h₁, h₂, h₃, h₄⟩
    exact ⟨hprojects ▸ h₁, hcontexts ▸ h₂, hid ▸ h₃, hdue ▸ h₄⟩
  · rintro ⟨h₁, h₂, h₃, h₄⟩
    exact ⟨hprojects.trans h₁, hcontexts.trans h₂, by rw [hid, h₃], by rw [hdue, h₄]⟩

end SilentWords

theorem splitWhitespace_append_cons (pre rest : Text) {c : Char} (hc : isWhitespace c = true) :
    splitWhitespace (pre ++ c :: rest) = splitWhitespace pre ++ splitWhitespace rest := by
  rw [splitWhitespace, List.splitOnP_append_cons _ _ hc, List.filter_append]
  rfl

/-- What stands in brackets in front of a text is silent. -/
theorem splitWhitespace_bracket (c : Char) (rest : Text) : ∃ us, (∀ w ∈ us, Silent w) ∧
    splitWhitespace ('(' :: c :: ')' :: ' ' :: rest) = us ++ splitWhitespace rest := by
  refine ⟨splitWhitespace ['(', c, ')'], fun w hw => ?_, splitWhitespace_append_cons ['(', c, ')'] rest rfl⟩
  cases hc : isWhitespace c with
  | true =>
    have hsplit : splitWhitespace ['(', c, ')'] = [['('], [')']] :=
      splitWhitespace_append_cons ['('] [')'] hc
    rw [hsplit] at hw
    rcases List.mem_cons.mp hw with rfl | hw
    · exact silent_bracket (.inl rfl) _
    · rw [List.mem_singleton.mp hw]
      exact silent_bracket (.inr rfl) _
  | false =>
    have hplain : ∀ d ∈ ['(', c, ')'], isWhitespace d = false := by
      simp [hc, show isWhitespace '(' = false from rfl, show isWhitespace ')' = false from rfl]
    rw [splitWhitespace, List.splitOnP_eq_singleton hplain] at hw
    rw [List.mem_singleton.mp (List.mem_filter.mp hw).1]
    exact silent_bracket (.inl rfl) _

theorem takePriority_some {s rest : Text} {c : Char} (h : takePriority s = some (c, rest)) :
    s = '(' :: c :: ')' :: ' ' :: rest := by
  unfold takePriority at h
  split at h
  · cases h
    rfl
  · cases h

/-! ## The tail of a front -/

/-- The priority and the creation date of a row, and the rest. -/
def readTail (row : TaskRow) (rest : Text) : TaskRow × Text :=
  let (row, rest) := match takePriority rest with
    | some (p, rest) => ({ row with priority := some p }, rest)
    | none => (row, rest)
  match takeDate rest with
  | some (date, rest) => ({ row with created := some date }, rest)
  | none => (row, rest)

section Tail
variable {row front : TaskRow} {raw rest : Text} {t : Task}

theorem parsePrefix_open (h : stripPrefix "x ".toList raw = none) :
    parsePrefix row raw = readTail row raw := by
  rw [parsePrefix, h]
  rfl

theorem parsePrefix_mark (h : takeDate rest = none) :
    parsePrefix row ('x' :: ' ' :: rest) = readTail { row with done := true } rest := by
  rw [parsePrefix, stripPrefix_mark]
  dsimp only
  rw [h]
  rfl

theorem parsePrefix_dated {date after : Text} (h : takeDate after = some (date, rest)) :
    parsePrefix row ('x' :: ' ' :: after) =
      readTail { row with done := true, completed := some date } rest := by
  rw [parsePrefix, stripPrefix_mark]
  dsimp only
  rw [h]
  rfl

theorem readTail_priority {p : Char} (h : takePriority raw = some (p, rest))
    (hdate : takeDate rest = none) : readTail row raw = ({ row with priority := some p }, rest) := by
  rw [readTail, h]
  dsimp only
  rw [hdate]

theorem readTail_created {date : Text} (h : takePriority raw = none)
    (hdate : takeDate raw = some (date, rest)) :
    readTail row raw = ({ row with created := some date }, rest) := by
  rw [readTail, h]
  dsimp only
  rw [hdate]

theorem readTail_both {p : Char} {date s : Text} (h : takePriority raw = some (p, s))
    (hdate : takeDate s = some (date, rest)) :
    readTail row raw = ({ row with priority := some p, created := some date }, rest) := by
  rw [readTail, h]
  dsimp only
  rw [hdate]

theorem readTail_none (h : takePriority raw = none) (hdate : takeDate raw = none) :
    readTail row raw = (row, raw) := by
  rw [readTail, h]
  dsimp only
  rw [hdate]

/-- The tail leaves the completion date as it is. -/
theorem readTail_completed (row : TaskRow) (rest : Text) :
    (readTail row rest).1.completed = row.completed := by
  rcases htake : takePriority rest with _ | ⟨p, rest'⟩
  · rcases hdate : takeDate rest with _ | ⟨date, after⟩
    · rw [readTail_none htake hdate]
    · rw [readTail_created htake hdate]
  · rcases hdate : takeDate rest' with _ | ⟨date, after⟩
    · rw [readTail_priority htake hdate]
    · rw [readTail_both htake hdate]

/-- A row with another completion date disagrees. -/
theorem not_agrees_completed {row : TaskRow} {rest after : Text} {t : Task}
    (h : row.completed ≠ t.completionDate.map Date.display) :
    ¬Agrees (finish (readTail row rest).1 after) t := by
  intro hag
  obtain ⟨-, hcompleted, -⟩ := finish_front after (readTail row rest).1
  exact h ((readTail_completed row rest).symm.trans (hcompleted.symm.trans hag.completed))

end Tail

section Groups
variable {front : TaskRow} {raw : Text} {t : Task}

theorem TaskRow.Bare.withPriority (h : front.Bare) (p : Char) :
    TaskRow.Bare { front with priority := some p } := ⟨h.id, h.due, h.projects, h.contexts, h.kv⟩

theorem TaskRow.Bare.withCreated (h : front.Bare) (date : Text) :
    TaskRow.Bare { front with created := some date } := ⟨h.id, h.due, h.projects, h.contexts, h.kv⟩

/-- A row whose front the core shares, with nothing of it left to read. -/
theorem agrees_whole_iff (h : front.Bare) (hdone : front.done = t.completed)
    (hcompleted : front.completed = t.completionDate.map Date.display)
    (hcreated : front.created = t.creationDate.map Date.display)
    (hpriority : front.priority = t.priority.map (·.letter)) :
    Agrees (finish front t.description) t ↔
      (t.priority = none → letterOf (splitWhitespace t.description) =
        letterOf (splitWords t.description)) ∧
      ReadAlike (splitWhitespace t.description) (splitWords t.description) := by
  rw [agrees_finish_iff h, hpriority]
  refine (and_iff_right ⟨hdone, hcompleted, hcreated⟩).trans (and_congr_left fun _ => ?_)
  cases t.priority with
  | some p => exact iff_of_true rfl fun hnone => by cases hnone
  | none => exact ⟨fun heq _ => heq, fun heq => heq rfl⟩

/-- A row that reads a creation date the core does not disagrees. -/
theorem not_agrees_created (h : front.Bare) (date : Text) {rest : Text} (hcreated : front.created = some date)
    (ht : t.creationDate = none) : ¬Agrees (finish front rest) t := by
  rw [agrees_finish_iff h, hcreated, ht]
  rintro ⟨⟨-, -, heq⟩, -⟩
  cases heq

/-- The front of a task with neither priority nor creation date. -/
theorem agrees_tail_iff (h : front.Bare) (hdone : front.done = t.completed)
    (hcompleted : front.completed = t.completionDate.map Date.display) (hnone : front.created = none)
    (hpri : front.priority = none) (hcreation : t.creationDate = none) (hpriority : t.priority = none)
    (hdescribed : t.description ≠ [])
    (hmark : t.completionDate.isSome → takePriority (raw.drop 2) = none) :
    Agrees (finish (readTail front t.description).1 (readTail front t.description).2) t ↔
      Legible raw t := by
  rcases htake : takePriority t.description with _ | ⟨c, rest⟩
  · rcases hdate : takeDate t.description with _ | ⟨date, rest⟩
    · rw [readTail_none htake hdate]
      dsimp only
      rw [agrees_whole_iff h hdone hcompleted (by rw [hnone, hcreation]; rfl)
        (by rw [hpri, hpriority]; rfl)]
      constructor
      · rintro ⟨hletter, hwords⟩
        refine ⟨hdescribed, hmark, fun _ => hdate, fun _ _ c rest hsome => ?_, fun hp _ => hletter hp,
          fun _ hsome => ?_, (readAlike_iff _).1 hwords⟩
        · rw [htake] at hsome
          cases hsome
        · rw [hcreation] at hsome
          cases hsome
      · exact fun hl => ⟨fun hp => hl.letter hp (.inr htake), (readAlike_iff _).2 hl.words⟩
    · rw [readTail_created htake hdate]
      refine iff_of_false (not_agrees_created (h.withCreated date) date rfl hcreation)
        fun hl => ?_
      have hnodate := hl.undated hcreation
      rw [hdate] at hnodate
      cases hnodate
  · have hdescription := takePriority_some htake
    obtain ⟨us, hus, hpieces⟩ := splitWhitespace_bracket c rest
    rw [← hdescription] at hpieces
    rcases hdate : takeDate rest with _ | ⟨date, after⟩
    · rw [readTail_priority htake hdate]
      dsimp only
      rw [agrees_finish_iff (h.withPriority c), hpriority]
      constructor
      · rintro ⟨-, hletter, hwords⟩
        refine ⟨hdescribed, hmark, fun _ => ?_, fun _ _ c' rest' hsome => ?_, fun _ hor => ?_,
          fun _ hsome => ?_, ?_⟩
        · rw [hdescription]
          exact takeDate_bracket _
        · rw [htake] at hsome
          cases hsome
          exact ⟨hletter.symm, hdate⟩
        · rw [hcreation, htake] at hor
          rcases hor with hor | hor <;> cases hor
        · rw [hcreation] at hsome
          cases hsome
        · rw [← readAlike_iff, hpieces]
          exact (readAlike_silent _ _ hus).mpr hwords
      · intro hl
        refine ⟨⟨hdone, hcompleted, by rw [hnone, hcreation]; rfl⟩, ?_, ?_⟩
        · exact ((hl.bracket hcreation hpriority c rest htake).1).symm
        · have hwords := (readAlike_iff _).2 hl.words
          rw [hpieces] at hwords
          exact (readAlike_silent _ _ hus).mp hwords
    · rw [readTail_both htake hdate]
      refine iff_of_false (not_agrees_created ((h.withPriority c).withCreated date) date rfl hcreation) fun hl => ?_
      have hnodate := (hl.bracket hcreation hpriority c rest htake).2
      rw [hdate] at hnodate
      cases hnodate

/-- The front of a task with a priority and no creation date. -/
theorem agrees_letter_iff (h : front.Bare) (hdone : front.done = t.completed)
    (hcompleted : front.completed = t.completionDate.map Date.display) (hnone : front.created = none)
    {p : Priority} (hcreation : t.creationDate = none) (hpriority : t.priority = some p)
    (hdescribed : t.description ≠ [])
    (hmark : t.completionDate.isSome → takePriority (raw.drop 2) = none) :
    Agrees (finish (readTail front (letterWord p ++ ' ' :: t.description)).1
      (readTail front (letterWord p ++ ' ' :: t.description)).2) t ↔ Legible raw t := by
  have htake := takePriority_letter p t.description
  rcases hdate : takeDate t.description with _ | ⟨date, rest⟩
  · rw [readTail_priority htake hdate]
    dsimp only
    rw [agrees_whole_iff (h.withPriority p.letter) hdone hcompleted
      (by rw [hcreation]; exact hnone) (by rw [hpriority]; rfl)]
    constructor
    · rintro ⟨-, hwords⟩
      refine ⟨hdescribed, hmark, fun _ => hdate, fun _ hp => ?_, fun hp => ?_, fun _ hsome => ?_,
        (readAlike_iff _).1 hwords⟩
      · rw [hpriority] at hp
        cases hp
      · rw [hpriority] at hp
        cases hp
      · rw [hcreation] at hsome
        cases hsome
    · exact fun hl => ⟨fun hp => absurd hp (by rw [hpriority]; simp), (readAlike_iff _).2 hl.words⟩
  · rw [readTail_both htake hdate]
    refine iff_of_false (not_agrees_created ((h.withPriority p.letter).withCreated date) date
      rfl hcreation) fun hl => ?_
    have hnodate := hl.undated hcreation
    rw [hdate] at hnodate
    cases hnodate

/-- The front of a task whose creation date is the last of it. -/
theorem agrees_created_iff (h : front.Bare) (hdone : front.done = t.completed)
    (hcompleted : front.completed = t.completionDate.map Date.display)
    (hcreated : front.created = t.creationDate.map Date.display)
    (hpri : front.priority = t.priority.map (·.letter)) (hsome : t.creationDate.isSome)
    (hopen : t.completed = true → t.priority = none) (hdescribed : t.description ≠ [])
    (hmark : t.completionDate.isSome → takePriority (raw.drop 2) = none) :
    Agrees (finish front t.description) t ↔ Legible raw t := by
  rw [agrees_whole_iff h hdone hcompleted hcreated hpri]
  constructor
  · rintro ⟨hletter, hwords⟩
    refine ⟨hdescribed, hmark, fun hnone => ?_, fun hnone => ?_, fun hp _ => hletter hp,
      fun hc _ p hp => ?_, (readAlike_iff _).1 hwords⟩
    · rw [hnone] at hsome
      cases hsome
    · rw [hnone] at hsome
      cases hsome
    · rw [hopen hc] at hp
      cases hp
  · exact fun hl => ⟨fun hp => hl.letter hp (.inl hsome), (readAlike_iff _).2 hl.words⟩

/-- The front of a task whose priority follows both dates. -/
theorem agrees_trailing_iff (h : front.Bare) (hdone : front.done = t.completed)
    (hcompleted : front.completed = t.completionDate.map Date.display)
    (hcreated : front.created = t.creationDate.map Date.display) (hpri : front.priority = none)
    {p : Priority} (hpriority : t.priority = some p) (hsome : t.creationDate.isSome)
    (hc : t.completed = true) (hdescribed : t.description ≠ [])
    (hmark : t.completionDate.isSome → takePriority (raw.drop 2) = none) :
    Agrees (finish front (letterWord p ++ ' ' :: t.description)) t ↔ Legible raw t := by
  obtain ⟨us, hus, hpieces⟩ := splitWhitespace_bracket p.letter t.description
  rw [agrees_finish_iff h, hpri, hpriority, letterWord, List.cons_append, List.cons_append,
    List.cons_append, List.nil_append, hpieces, letterOf_silent _ hus, readAlike_silent _ _ hus]
  constructor
  · rintro ⟨-, hletter, hwords⟩
    refine ⟨hdescribed, hmark, fun hnone => ?_, fun hnone => ?_, fun hp => ?_, fun _ _ q hq => ?_,
      (readAlike_iff _).1 hwords⟩
    · rw [hnone] at hsome
      cases hsome
    · rw [hnone] at hsome
      cases hsome
    · rw [hpriority] at hp
      cases hp
    · rw [hpriority] at hq
      cases hq
      exact hletter
  · exact fun hl => ⟨⟨hdone, hcompleted, hcreated⟩, hl.trailing hc hsome p hpriority, (readAlike_iff _).2 hl.words⟩

end Groups

/-! ## Every line -/

/-- The row of a line agrees with the task on it; that of a blank holds nothing. -/
def AgreesWith (row : TaskRow) (task : Option Task) : Prop :=
  match task with
  | some t => Agrees row t
  | none => row = { TaskRow.default with line := row.line, raw := row.raw }

section Line
variable {vs ds : List Text} {q : Place} {pre : Prefix}

/-- The task a draft is of. -/
def taskWith (pre : Prefix) (description : Text) : Task :=
  ⟨pre.completed, pre.completionDate, pre.creationDate, pre.priority, description⟩

/-- The row a line begins with. -/
def rowAt (lineNo : Nat) (raw : Text) : TaskRow := { TaskRow.default with line := lineNo, raw := raw }

theorem bare_rowAt (lineNo : Nat) (raw : Text) : (rowAt lineNo raw).Bare := ⟨rfl, rfl, rfl, rfl, rfl⟩

theorem bare_done (lineNo : Nat) (raw : Text) :
    TaskRow.Bare { rowAt lineNo raw with done := true } := ⟨rfl, rfl, rfl, rfl, rfl⟩

theorem bare_dated (lineNo : Nat) (raw date : Text) :
    TaskRow.Bare { rowAt lineNo raw with done := true, completed := some date } :=
  ⟨rfl, rfl, rfl, rfl, rfl⟩

theorem parseRow_of {lineNo : Nat} {raw : Text} {read : TaskRow × Text}
    (h : parsePrefix (rowAt lineNo raw) raw = read) :
    parseRow lineNo raw = finish read.1 read.2 := by
  rw [parseRow_eq, ← h]
  rfl

/-- A prefix with something behind it. -/
theorem joined_front (hds : ds ≠ []) (w : Text) :
    joined (w :: ds) = w ++ ' ' :: joined ds := by
  obtain ⟨d, ds, rfl⟩ := List.exists_cons_of_ne_nil hds
  rfl

theorem joined_mark (hds : ds ≠ []) : joined (['x'] :: ds) = 'x' :: ' ' :: joined ds :=
  joined_front hds ['x']

/-- The row of a line whose prefix has something behind it. -/
theorem agrees_front_iff (lineNo : Nat) (hfront : Front vs q pre) (hds : ds ≠ [])
    (hruns : ∀ w ∈ ds, IsRun w) (hstop : q.take pre (ds.headD []) = none) :
    Agrees (parseRow lineNo (joined (vs ++ ds))) (taskWith pre (joined ds)) ↔
      Legible (joined (vs ++ ds)) (taskWith pre (joined ds)) := by
  have hdescribed : (taskWith pre (joined ds)).description ≠ [] := joined_ne_nil hruns hds
  have hne : ∀ w, w :: ds ≠ [] := fun w => List.cons_ne_nil w ds
  have hcons : ∀ v w ws, joined (v :: w :: ws) = v ++ ' ' :: joined (w :: ws) := fun _ _ _ => rfl
  cases hfront with
  | start =>
    have hmark : stripPrefix "x ".toList (joined ds) = none := by
      obtain ⟨w, rest, rfl⟩ := List.exists_cons_of_ne_nil hds
      refine stripPrefix_other (spaced rest) (hruns w (by simp)) fun hw => ?_
      rw [Place.take, if_pos (show (w :: rest).headD [] = ['x'] from hw)] at hstop
      cases hstop
    rw [List.nil_append, parseRow_of (parsePrefix_open hmark)]
    exact agrees_tail_iff (t := taskWith Prefix.empty (joined ds)) (bare_rowAt lineNo _) rfl rfl rfl rfl rfl
      rfl hdescribed (fun h => by cases h)
  | priority p =>
    rw [List.singleton_append, joined_front hds, parseRow_of (parsePrefix_open rfl)]
    exact agrees_letter_iff (t := taskWith ⟨false, none, none, some p⟩ (joined ds)) (bare_rowAt lineNo _) rfl
      rfl rfl rfl rfl hdescribed (fun h => by cases h)
  | creation e =>
    have hopen : stripPrefix "x ".toList (e.display ++ ' ' :: joined ds) = none :=
      stripPrefix_other _ (Chips.display_isRun e) (display_ne_mark e)
    rw [List.singleton_append, joined_front hds, parseRow_of (parsePrefix_open hopen),
      readTail_created (takePriority_display e _) (takeDate_display e _)]
    exact agrees_created_iff (t := taskWith ⟨false, none, some e, none⟩ (joined ds))
      ((bare_rowAt lineNo _).withCreated _) rfl rfl rfl rfl rfl (fun h => by cases h) hdescribed
      (fun h => by cases h)
  | priorityCreation p e =>
    rw [List.cons_append, List.singleton_append, hcons, joined_front hds,
      parseRow_of (parsePrefix_open rfl),
      readTail_both (takePriority_letter p _) (takeDate_display e _)]
    exact agrees_created_iff (t := taskWith ⟨false, none, some e, some p⟩ (joined ds))
      (((bare_rowAt lineNo _).withPriority _).withCreated _) rfl rfl rfl rfl rfl (fun h => by cases h)
      hdescribed (fun h => by cases h)
  | mark =>
    rw [List.singleton_append, joined_mark hds]
    rcases hdate : takeDate (joined ds) with _ | ⟨date, rest⟩
    · rw [parseRow_of (parsePrefix_mark hdate)]
      exact agrees_tail_iff (t := taskWith ⟨true, none, none, none⟩ (joined ds)) (bare_done lineNo _) rfl rfl
        rfl rfl rfl rfl hdescribed (fun h => by cases h)
    · rw [parseRow_of (parsePrefix_dated hdate)]
      refine iff_of_false (not_agrees_completed fun h => by cases h) fun hl => ?_
      have hnone : takeDate (joined ds) = none := hl.undated rfl
      rw [hnone] at hdate
      cases hdate
  | markPriority p =>
    rw [List.cons_append, List.singleton_append, joined_mark (hne _), joined_front hds,
      parseRow_of (parsePrefix_mark (takeDate_letter p _))]
    exact agrees_letter_iff (t := taskWith ⟨true, none, none, some p⟩ (joined ds)) (bare_done lineNo _) rfl
      rfl rfl rfl rfl hdescribed (fun h => by cases h)
  | completion d =>
    rw [List.cons_append, List.singleton_append, joined_mark (hne _), joined_front hds,
      parseRow_of (parsePrefix_dated (takeDate_display d _))]
    exact agrees_tail_iff (t := taskWith ⟨true, some d, none, none⟩ (joined ds)) (bare_dated lineNo _ _) rfl
      rfl rfl rfl rfl rfl hdescribed fun _ => takePriority_display d _
  | dates d e =>
    rw [List.cons_append, List.cons_append, List.singleton_append, joined_mark (List.cons_ne_nil _ _),
      hcons, joined_front hds, parseRow_of (parsePrefix_dated (takeDate_display d _)),
      readTail_created (takePriority_display e _) (takeDate_display e _)]
    exact agrees_created_iff (t := taskWith ⟨true, some d, some e, none⟩ (joined ds))
      ((bare_dated lineNo _ _).withCreated _) rfl rfl rfl rfl rfl (fun _ => rfl) hdescribed
      fun _ => takePriority_display d _
  | completionPriority d p =>
    rw [List.cons_append, List.cons_append, List.singleton_append, joined_mark (List.cons_ne_nil _ _),
      hcons, joined_front hds, parseRow_of (parsePrefix_dated (takeDate_display d _))]
    exact agrees_letter_iff (t := taskWith ⟨true, some d, none, some p⟩ (joined ds)) (bare_dated lineNo _ _)
      rfl rfl rfl rfl rfl hdescribed fun _ => takePriority_display d _
  | datesPriority d e p =>
    rw [List.cons_append, List.cons_append, List.cons_append, List.singleton_append,
      joined_mark (List.cons_ne_nil _ _), hcons, hcons, joined_front hds,
      parseRow_of (parsePrefix_dated (takeDate_display d _)),
      readTail_created (takePriority_display e _) (takeDate_display e _)]
    exact agrees_trailing_iff (t := taskWith ⟨true, some d, some e, some p⟩ (joined ds))
      ((bare_dated lineNo _ _).withCreated _) rfl rfl rfl rfl rfl rfl rfl hdescribed
      fun _ => takePriority_display d _
  | priorityCompletion p d =>
    rw [List.cons_append, List.cons_append, List.singleton_append, joined_mark (List.cons_ne_nil _ _),
      hcons, joined_front hds, parseRow_of (parsePrefix_mark (takeDate_letter p _))]
    exact iff_of_false (not_agrees_completed fun h => by cases h) fun hl => by cases hl.completion rfl
  | priorityDates p d e =>
    rw [List.cons_append, List.cons_append, List.cons_append, List.singleton_append,
      joined_mark (List.cons_ne_nil _ _), hcons, hcons, joined_front hds,
      parseRow_of (parsePrefix_mark (takeDate_letter p _))]
    exact iff_of_false (not_agrees_completed fun h => by cases h) fun hl => by cases hl.completion rfl

/-- No `pri:` tag stands in brackets. -/
theorem letterOf_letter (p : Priority) : letterOf (splitWhitespace (letterWord p)) = none := by
  have hplain : ∀ c ∈ letterWord p, isWhitespace c = false := by
    have hletter : isWhitespace p.letter = false := by
      have hupper := p.upper
      simp only [Char.isUpper, decide_eq_true_eq, UInt32.le_iff_toNat_le, ge_iff_le] at hupper
      have hA : 'A'.val.toNat = 65 := rfl
      have hZ : 'Z'.val.toNat = 90 := rfl
      have hval : p.letter.toNat = p.letter.val.toNat := rfl
      simp [isWhitespace]
      omega
    simp [letterWord, hletter, show isWhitespace '(' = false from rfl,
      show isWhitespace ')' = false from rfl]
  have hpieces : ∀ w ∈ splitWhitespace (letterWord p), Silent w := fun w hw => by
    rw [splitWhitespace, List.splitOnP_eq_singleton hplain] at hw
    rw [List.mem_singleton.mp (List.mem_filter.mp hw).1]
    exact silent_bracket (.inl rfl) _
  have hnone := letterOf_silent [] hpieces
  rwa [List.append_nil] at hnone

/-- A prefix with nothing behind it is not all read. -/
theorem not_agrees_front (lineNo : Nat) (hfront : Front vs q pre) (hvs : vs ≠ []) :
    ¬Agrees (parseRow lineNo (joined vs)) (taskWith pre []) := by
  have htwo : ∀ v w : Text, joined [v, w] = v ++ ' ' :: w := fun v w => by simp [joined]
  have hmark : ∀ v : Text, joined [['x'], v] = 'x' :: ' ' :: v := htwo ['x']
  have hmark₂ : ∀ v w : Text, joined [['x'], v, w] = 'x' :: ' ' :: (v ++ ' ' :: w) := fun v w =>
    congrArg (fun s => 'x' :: ' ' :: s) (htwo v w)
  have hmark₃ : ∀ u v w : Text, joined [['x'], u, v, w] = 'x' :: ' ' :: (u ++ ' ' :: (v ++ ' ' :: w)) :=
    fun u v w => congrArg (fun s => 'x' :: ' ' :: (u ++ ' ' :: s)) (htwo v w)
  cases hfront with
  | start => exact absurd rfl hvs
  | priority p =>
    rw [show joined [letterWord p] = letterWord p from List.append_nil _,
      parseRow_of (parsePrefix_open rfl), readTail_none (takePriority_letter_end p) rfl,
      agrees_finish_iff (bare_rowAt lineNo _), letterOf_letter]
    rintro ⟨-, h, -⟩
    cases h
  | creation e =>
    have hopen : stripPrefix "x ".toList e.display = none := by
      have h := stripPrefix_other [] (Chips.display_isRun e) (display_ne_mark e)
      rwa [List.append_nil] at h
    rw [show joined [e.display] = e.display from List.append_nil _, parseRow_of (parsePrefix_open hopen),
      readTail_none (takePriority_display_end e) (takeDate_display_end e),
      agrees_finish_iff (bare_rowAt lineNo _)]
    rintro ⟨⟨-, -, h⟩, -⟩
    cases h
  | priorityCreation p e =>
    rw [htwo, parseRow_of (parsePrefix_open rfl),
      readTail_priority (takePriority_letter p _) (takeDate_display_end e),
      agrees_finish_iff ((bare_rowAt lineNo _).withPriority _)]
    rintro ⟨⟨-, -, h⟩, -⟩
    cases h
  | mark =>
    rw [parseRow_of (parsePrefix_open rfl), readTail_none rfl rfl,
      agrees_finish_iff (bare_rowAt lineNo _)]
    rintro ⟨⟨h, -⟩, -⟩
    cases h
  | markPriority p =>
    rw [hmark, parseRow_of (parsePrefix_mark rfl), readTail_none (takePriority_letter_end p) rfl,
      agrees_finish_iff (bare_done lineNo _), letterOf_letter]
    rintro ⟨-, h, -⟩
    cases h
  | completion d =>
    rw [hmark, parseRow_of (parsePrefix_mark (takeDate_display_end d))]
    exact not_agrees_completed fun h => by cases h
  | dates d e =>
    rw [hmark₂, parseRow_of (parsePrefix_dated (takeDate_display d _)),
      readTail_none (takePriority_display_end e) (takeDate_display_end e),
      agrees_finish_iff (bare_dated lineNo _ _)]
    rintro ⟨⟨-, -, h⟩, -⟩
    cases h
  | completionPriority d p =>
    rw [hmark₂, parseRow_of (parsePrefix_dated (takeDate_display d _)),
      readTail_none (takePriority_letter_end p) rfl, agrees_finish_iff (bare_dated lineNo _ _),
      letterOf_letter]
    rintro ⟨-, h, -⟩
    cases h
  | datesPriority d e p =>
    rw [hmark₃, parseRow_of (parsePrefix_dated (takeDate_display d _)),
      readTail_created (takePriority_display e _) (takeDate_display e _),
      agrees_finish_iff ((bare_dated lineNo _ _).withCreated _), letterOf_letter]
    rintro ⟨-, h, -⟩
    cases h
  | priorityCompletion p d =>
    rw [hmark₂, parseRow_of (parsePrefix_mark (takeDate_letter p _))]
    exact not_agrees_completed fun h => by cases h
  | priorityDates p d e =>
    rw [hmark₃, parseRow_of (parsePrefix_mark (takeDate_letter p _))]
    exact not_agrees_completed fun h => by cases h

end Line

/-- The task on `raw`, if there is one, is legible. -/
def LegibleLine (raw : Text) : Prop := ∀ t, taskOf raw = some t → Legible raw t

/-- The row of a line the strict parser accepts gives what the core reads of it exactly when the line is
legible. -/
theorem row_agrees_iff {raw : Text} {l : Line} (h : parseLine raw .strict = .ok l) (lineNo : Nat) :
    AgreesWith (parseRow lineNo raw) (taskOf raw) ↔ LegibleLine raw := by
  by_cases hne : raw = []
  · subst hne
    exact iff_of_true rfl fun t ht => by cases ht
  obtain ⟨ws, -, -, -, -, hws, rfl, -, -, -⟩ := strict_read hne h
  obtain ⟨t, -, ht, -, -⟩ := taskOf_spec hne
  obtain ⟨vs, q, ds, hwords, hfront, hstop, hdescription⟩ := draftOf_front hws
  have htask : t = taskWith (draftOf (joined ws)).pre (draftOf (joined ws)).description := by
    rw [draftOf, ht]
    rfl
  have hall : LegibleLine (joined ws) ↔ Legible (joined ws) t := by
    rw [LegibleLine, ht]
    exact ⟨fun hl => hl t rfl, fun hl t' ht' => Option.some.inj ht' ▸ hl⟩
  rw [hall, ht, AgreesWith, htask, hdescription]
  clear hall htask ht
  generalize (draftOf (joined ws)).pre = pre at hfront hstop
  subst hwords
  by_cases hds : ds = []
  · subst hds
    refine iff_of_false ?_ fun hl => hl.described rfl
    rw [List.append_nil] at hne ⊢
    exact not_agrees_front lineNo hfront fun hvs => hne (by rw [hvs]; rfl)
  · exact agrees_front_iff lineNo hfront hds (fun w hw => hws w (List.mem_append_right _ hw)) hstop

theorem row_agrees_iff_plain :
    AgreesWith (parseRow 1 "(A) call +mum due:friday".toList)
        (taskOf "(A) call +mum due:friday".toList) ↔
      LegibleLine "(A) call +mum due:friday".toList :=
  row_agrees_iff (l := lineOf "(A) call +mum due:friday".toList
    ⟨false, none, none, some ⟨'A', rfl⟩, "call +mum due:friday".toList⟩ Quirks.NONE) rfl 1

/-- Of two `due:` tags the row keeps the last, the core the first. -/
theorem row_disagrees :
    parseLine "call due:a due:b".toList .strict = .ok (lineOf "call due:a due:b".toList
        ⟨false, none, none, none, "call due:a due:b".toList⟩ Quirks.NONE) ∧
      ¬AgreesWith (parseRow 1 "call due:a due:b".toList) (taskOf "call due:a due:b".toList) := by
  refine ⟨rfl, fun h => ?_⟩
  have htask : taskOf "call due:a due:b".toList =
      some ⟨false, none, none, none, "call due:a due:b".toList⟩ := rfl
  rw [htask] at h
  exact absurd h.due (by decide)

end Txtodo.Mcp
