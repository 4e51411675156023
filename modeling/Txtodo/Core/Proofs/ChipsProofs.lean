import Txtodo.Core.Chips
import Txtodo.Core.Proofs.CompletionProofs

/-!
# The complete chip and the edit

The chip and `Edit` are both followed on the words of a line the strict parser accepts; they agree where
the words they write are the same.
-/

namespace Txtodo.Chips

open Grammar

/-! ## The chip's text functions on words -/

section Text
variable {ws us vs : List Text} {w : Text}

theorem join_eq_joined (ws : List Text) : join ws = joined ws := by
  induction ws with
  | nil => rfl
  | cons w ws ih =>
    cases ws with
    | nil => simp [join, joined_cons]
    | cons v ws =>
      rw [join, List.intercalate_cons_cons, joined_cons, spaced_cons, ← ih, List.append_assoc]
      rfl

theorem splitOn_joined (hws : ∀ w ∈ ws, IsRun w) (hne : ws ≠ []) : (joined ws).splitOn ' ' = ws := by
  rw [← join_eq_joined, join]
  refine List.splitOn_intercalate ' ' (fun w hw hmem => ?_) hne
  cases (hws w hw).2 ' ' hmem

theorem isDate_eq (s : Text) : isDate s = hasDateShape (s.take 10) := by
  unfold isDate
  split
  · simp only [List.take_succ_cons, List.take_zero, hasDateShape, List.all_cons, List.all_nil,
      Bool.and_true]
    ac_rfl
  · next hshort =>
    symm
    unfold hasDateShape
    split
    · next y1 y2 y3 y4 s1 m1 m2 s2 d1 d2 htake =>
      exfalso
      refine hshort y1 y2 y3 y4 s1 m1 m2 s2 d1 d2 (s.drop 10) ?_
      conv_lhs => rw [← List.take_append_drop 10 s, htake]
      rfl
    · rfl

theorem isRun_of_shape (h : hasDateShape w = true) : w.length = 10 ∧ ∀ c ∈ w, isWs c = false := by
  obtain ⟨year, month, day, hshape⟩ := hasDateShape_iff.1 h
  exact ⟨hshape.length, hshape.word.isRun.2⟩

/-- A date at the start of words is in the first of them. -/
theorem shape_of_take (hshape : hasDateShape ((joined (w :: ws)).take 10) = true) : 10 ≤ w.length := by
  obtain ⟨hten, hrun⟩ := isRun_of_shape hshape
  by_contra hshort
  rw [joined_cons, List.take_append, List.take_of_length_le (by omega)] at hten hrun
  cases ws with
  | nil =>
    rw [spaced_nil, List.take_nil, List.append_nil] at hten
    omega
  | cons v ws =>
    obtain ⟨k, hk⟩ : ∃ k, 10 - w.length = k + 1 := ⟨10 - w.length - 1, by omega⟩
    rw [spaced_cons, hk, List.take_succ_cons] at hrun
    cases hrun ' ' (List.mem_append_right _ (List.mem_cons_self ..))

/-- The chip takes a date off the words where the first has the shape of one. -/
theorem splitDate_joined (hw : IsRun w) (ws : List Text) : splitDate (joined (w :: ws)) =
    if hasDateShape w = true then some (w, joined ws) else none := by
  rw [splitDate, isDate_eq]
  by_cases hlength : w.length = 10
  · have hsplit : (joined (w :: ws)).take 10 = w ∧ (joined (w :: ws)).drop 10 = spaced ws := by
      rw [joined_cons, ← hlength]
      exact ⟨List.take_left, List.drop_left⟩
    rw [hsplit.1, hsplit.2]
    cases hasDateShape w with
    | false => rfl
    | true => cases ws <;> rfl
  · have hnot : hasDateShape w = false := by
      rw [← Bool.not_eq_true]
      exact fun h => hlength (isRun_of_shape h).1
    rw [hnot, if_neg Bool.false_ne_true]
    cases hshape : hasDateShape ((joined (w :: ws)).take 10) with
    | false => rfl
    | true =>
      -- the word goes on after the date
      have hlong := shape_of_take hshape
      obtain ⟨c, r, hc⟩ : ∃ c r, w.drop 10 = c :: r :=
        List.exists_cons_of_ne_nil fun h => hlength (by
          have := List.drop_eq_nil_iff.1 h
          omega)
      have hspace : c ≠ ' ' := by
        rintro rfl
        cases hw.2 ' ' (List.mem_of_mem_drop (hc ▸ List.mem_cons_self ..))
      rw [joined_cons, List.drop_append_of_le_length hlong, hc]
      simp [hspace]

/-- The words left once the chip took the marked line's dates off. -/
theorem splitDate_words (hws : ∀ w ∈ ws, IsRun w) :
    (splitDate (joined ws) = none ∨ ∃ w us, ws = w :: us ∧ hasDateShape w = true ∧
      splitDate (joined ws) = some (w, joined us)) := by
  cases ws with
  | nil => exact .inl rfl
  | cons w us =>
    rw [splitDate_joined (hws w (List.mem_cons_self ..))]
    by_cases h : hasDateShape w = true
    · exact .inr ⟨w, us, rfl, h, if_pos h⟩
    · exact .inl (if_neg h)

/-- Words joined in the middle of others. -/
theorem joined_joined (hne : us ≠ []) (ws vs : List Text) :
    joined (ws ++ joined us :: vs) = joined (ws ++ (us ++ vs)) := by
  obtain ⟨u, us, rfl⟩ := List.exists_cons_of_ne_nil hne
  have hmiddle : joined (joined (u :: us) :: vs) = joined (u :: us ++ vs) := by
    rw [joined_cons, joined_append (by simp)]
  cases ws with
  | nil => exact hmiddle
  | cons w ws =>
    have hspaced : spaced (joined (u :: us) :: vs) = spaced (u :: us ++ vs) := by
      rw [spaced_cons, hmiddle]
      rfl
    rw [joined_append (by simp), joined_append (by simp), hspaced]

theorem append_joined_parts (parts : List Text) (hws : ∀ w ∈ ws, IsRun w) (vs : List Text) :
    joined ((if (joined ws).isEmpty then parts else parts ++ [joined ws]) ++ vs) =
      joined (parts ++ (ws ++ vs)) := by
  rw [joined_isEmpty fun w hw => (hws w hw).1]
  cases ws with
  | nil => simp
  | cons w ws =>
    rw [List.isEmpty_cons, if_neg Bool.false_ne_true, List.append_assoc, List.singleton_append]
    exact joined_joined (by simp) parts vs

/-- The tag the chip writes for a letter. -/
def letterTag (letter : Option Char) : List Text := (letter.map fun p => "pri:".toList ++ [p]).toList

/-- The chip completes a line by its words. -/
theorem toggle_open {raw : Text} (today : Text) (hus : ∀ u ∈ us, IsRun u) (letter : Option Char)
    (hcompleted : splitCompleted raw = none)
    (hstrip : stripPriority raw = letter.map fun l => (l, joined us))
    (hraw : letter = none → raw = joined us) :
    toggleCompleteText raw today = joined (['x'] :: today :: (us ++ letterTag letter)) := by
  have hparts : ∀ letter : Option Char,
      join ((if (splitDate (joined us)).elim (joined us).isEmpty (·.2.isEmpty) then
          [['x'], today] ++ ((splitDate (joined us)).map (·.1)).toList
        else [['x'], today] ++ ((splitDate (joined us)).map (·.1)).toList ++
          [(splitDate (joined us)).elim (joined us) (·.2)]) ++ letterTag letter) =
        joined (['x'] :: today :: (us ++ letterTag letter)) := by
    intro letter
    rw [join_eq_joined]
    rcases splitDate_words hus with h | ⟨w, vs, rfl, -, h⟩
    · rw [h]
      exact append_joined_parts [['x'], today] hus _
    · rw [h]
      exact append_joined_parts [['x'], today, w] (List.forall_mem_cons.1 hus).2 _
  rw [← hparts, toggleCompleteText, hcompleted, hstrip]
  cases letter with
  | none =>
    dsimp only [Option.map_none]
    rw [hraw rfl]
    cases splitDate (joined us) <;> rfl
  | some l =>
    dsimp only [Option.map_some]
    cases splitDate (joined us) <;> rfl

/-- The words of a priority the chip writes. -/
def letterWord (letter : Option Char) : List Text := (letter.map fun p => ['(', p, ')']).toList

theorem keepWords_sublist (priority : Option Char) (ws : List Text) :
    (keepWords priority ws).2.Sublist ws := by
  induction ws generalizing priority with
  | nil => exact List.Sublist.refl _
  | cons w ws ih =>
    cases priority with
    | some p => exact (ih (some p)).cons_cons w
    | none =>
      rw [keepWords]
      cases priTag w with
      | some p => exact (ih (some p)).cons w
      | none => exact (ih none).cons_cons w

/-- The chip reopens a line by its words. -/
theorem toggle_completed {raw : Text} (today : Text) (hvs : ∀ v ∈ vs, IsRun v)
    {created : Option Text} (hcompleted : splitCompleted raw = some (created, joined vs)) :
    toggleCompleteText raw today =
      joined (letterWord (keepWords none vs).1 ++ created.toList ++ (keepWords none vs).2) := by
  have hwords : (if (joined vs).isEmpty then [] else (joined vs).splitOn ' ') = vs := by
    rw [joined_isEmpty fun v hv => (hvs v hv).1]
    cases vs with
    | nil => rfl
    | cons v vs => exact splitOn_joined hvs (by simp)
  rw [toggleCompleteText, hcompleted]
  dsimp only
  rw [reopen]
  dsimp only
  rw [hwords, join_eq_joined, join_eq_joined]
  have hkept : ∀ w ∈ (keepWords none vs).2, IsRun w :=
    fun w hw => hvs w ((keepWords_sublist none vs).subset hw)
  have hjoin := append_joined_parts (letterWord (keepWords none vs).1 ++ created.toList) hkept []
  rw [List.append_nil, List.append_nil, joined_isEmpty fun w hw => (hkept w hw).1] at hjoin
  exact hjoin

/-! ## What the chip takes off a line -/

/-- A priority at the start with a word stuck to it. -/
def Glued (raw : Text) : Prop :=
  ∃ letter c rest, raw = '(' :: letter :: ')' :: c :: rest ∧ letter.isUpper = true ∧ c ≠ ' '

theorem stripPriority_priority {p : Priority} (hw : IsPriority w p) (us : List Text) :
    stripPriority (joined (w :: us)) = some (p.letter, joined us) := by
  obtain rfl : w = ['(', p.letter, ')'] := hw
  rw [joined_cons]
  show (if p.letter.isUpper = true then _ else none) = _
  rw [if_pos p.upper]
  cases us <;> rfl

/-- What the chip strips is a priority of its own or one with a word stuck to it. -/
theorem stripPriority_some {raw rest : Text} {letter : Char} (h : stripPriority raw = some (letter, rest)) :
    letter.isUpper = true ∧ (firstWord raw = ['(', letter, ')'] ∨
      ∃ c r, raw = '(' :: letter :: ')' :: c :: r ∧ c ≠ ' ' ∧ rest = c :: r) := by
  unfold stripPriority at h
  split at h
  · next l r =>
    split_ifs at h with hupper
    obtain ⟨rfl, rfl⟩ := Prod.mk.inj (Option.some.inj h)
    have hword : ∀ s : Text, (∀ c ∈ s.head?, isWs c = true) →
        firstWord ('(' :: l :: ')' :: s) = ['(', l, ')'] := by
      intro s hs
      have hl : isWs l = false := by
        rw [← Bool.not_eq_true]
        intro hws
        unfold isWs at hws
        rcases Bool.or_eq_true_iff.1 hws with h | h
        · rw [of_decide_eq_true h] at hupper
          cases hupper
        · rw [of_decide_eq_true h] at hupper
          cases hupper
      have hend : s.takeWhile (fun c => !isWs c) = [] := by
        cases s with
        | nil => rfl
        | cons c s => rw [List.takeWhile_cons_of_neg (by simp [hs c rfl])]
      rw [firstWord, List.takeWhile_cons_of_pos (by decide), List.takeWhile_cons_of_pos (by simp [hl]),
        List.takeWhile_cons_of_pos (by decide), hend]
    refine ⟨hupper, ?_⟩
    cases r with
    | nil => exact .inl (hword [] (by simp))
    | cons c r =>
      by_cases hc : c = ' '
      · subst hc
        exact .inl (hword _ (by simp [isWs]))
      · refine .inr ⟨c, r, rfl, hc, ?_⟩
        split
        · next heq => exact absurd (List.cons.inj heq).1 hc
        · rfl
  · cases h

theorem stripPriority_none {raw : Text} (hglued : ¬Glued raw)
    (hnone : ∀ p, ¬IsPriority (firstWord raw) p) : stripPriority raw = none := by
  cases h : stripPriority raw with
  | none => rfl
  | some found =>
    obtain ⟨letter, rest⟩ := found
    obtain ⟨hupper, hfirst | ⟨c, r, rfl, hc, -⟩⟩ := stripPriority_some h
    · exact absurd hfirst (hnone ⟨letter, hupper⟩)
    · exact absurd ⟨letter, c, r, rfl, hupper, hc⟩ hglued

/-- What the chip reads as completed starts with the mark. -/
theorem splitCompleted_none {raw : Text} (h : firstWord raw ≠ ['x']) : splitCompleted raw = none := by
  unfold splitCompleted
  split
  · exact absurd rfl h
  · rfl

theorem splitCompleted_eq (hw : hasDateShape w = true) (hrun : IsRun w) (us : List Text) :
    splitCompleted (joined (['x'] :: w :: us)) =
      (splitDate (joined us)).elim (some (none, joined us)) fun r => some (some r.1, r.2) := by
  have hsplit := splitDate_joined hrun us
  rw [if_pos hw] at hsplit
  show splitCompleted ('x' :: ' ' :: joined (w :: us)) = _
  rw [splitCompleted, hsplit]
  dsimp only
  cases splitDate (joined us) <;> rfl

/-- The chip's reading of a completed line. -/
theorem splitCompleted_read {completion : Date} {creation : Option Date} (hw : IsDate w completion)
    (hus : ∀ u ∈ us, IsRun u) (hread : CreationRead us creation vs) :
    splitCompleted (joined (['x'] :: w :: us)) = some (creation.map Date.display, joined vs) := by
  rw [splitCompleted_eq (hasDateShape_iff.2 ⟨_, _, _, hw⟩) hw.word.isRun]
  cases hread with
  | nil => rfl
  | @date v vs date h =>
    rw [splitDate_joined h.word.isRun, if_pos (hasDateShape_iff.2 ⟨_, _, _, h⟩), isDate_iff.1 h]
    rfl
  | @other v vs h hshape =>
    rw [splitDate_joined (hus v (List.mem_cons_self ..)), if_neg fun hv => hshape (hasDateShape_iff.1 hv)]
    rfl

/-- A line the chip takes for completed has two words more than it keeps. -/
theorem splitCompleted_some (hws : ∀ w ∈ ws, IsRun w) {created : Option Text} {description : Text}
    (h : splitCompleted (joined ws) = some (created, description)) :
    ∃ x w ds, ws = x :: w :: (created.toList ++ ds) ∧ description = joined ds := by
  have hmark : ws.headD [] = ['x'] := by
    rw [← firstWord_joined hws]
    by_contra hne
    rw [splitCompleted_none hne] at h
    cases h
  cases ws with
  | nil => cases hmark
  | cons x us =>
    obtain rfl : x = ['x'] := hmark
    cases us with
    | nil => cases h
    | cons w us =>
      have hw : IsRun w := hws w (by simp)
      have hus : ∀ u ∈ us, IsRun u := fun u hu => hws u (by simp [hu])
      by_cases hshape : hasDateShape w = true
      · rw [splitCompleted_eq hshape hw] at h
        rcases splitDate_words hus with hnone | ⟨v, vs, rfl, -, hsome⟩
        · rw [hnone] at h
          obtain ⟨rfl, rfl⟩ := Prod.mk.inj (Option.some.inj h)
          exact ⟨_, w, us, rfl, rfl⟩
        · rw [hsome] at h
          obtain ⟨rfl, rfl⟩ := Prod.mk.inj (Option.some.inj h)
          exact ⟨_, w, vs, rfl, rfl⟩
      · have hsplit := splitDate_joined hw us
        rw [if_neg hshape] at hsplit
        replace h : splitCompleted ('x' :: ' ' :: joined (w :: us)) = some (created, description) := h
        rw [splitCompleted, hsplit] at h
        cases h

end Text

/-! ## `pri:` words -/

section Pri
variable {ws vs : List Text} {w : Text}

theorem tagSplit_of_classify {colon : Nat} (h : classifyWord w DEFAULT_SCHEMES = .tag colon) :
    tagSplit w = some colon := by
  unfold classifyWord at h
  split_ifs at h
  split at h
  · next found =>
    obtain rfl := WordKind.tag.inj h
    exact found
  · cases h

/-- A tag's key and value. -/
theorem tag_parts {colon : Nat} (h : classifyWord w DEFAULT_SCHEMES = .tag colon) :
    (w.take colon).length = colon ∧ w.take colon ++ ':' :: w.drop (colon + 1) = w ∧
      w.drop (colon + 1) ≠ [] := by
  have hsplit := tagSplit_of_classify h
  rw [tagSplit, Option.filter_eq_some_iff] at hsplit
  obtain ⟨hidx, hbounds⟩ := hsplit
  rw [Bool.and_eq_true, decide_eq_true_eq, decide_eq_true_eq] at hbounds
  have hlt : colon < w.length := by omega
  have hcolon : w[colon]? = some ':' := by
    obtain ⟨hlt', hat, -⟩ := List.idxOf?_eq_some_iff.1 hidx
    rw [List.getElem?_eq_getElem hlt', hat]
  refine ⟨List.length_take_of_le hlt.le, ?_, ?_⟩
  · have hdrop : w.drop colon = ':' :: w.drop (colon + 1) := by
      rw [List.getElem?_eq_getElem hlt] at hcolon
      rw [List.drop_eq_getElem_cons hlt, Option.some.inj hcolon]
    rw [← hdrop, List.take_append_drop]
  · intro hnil
    have := List.drop_eq_nil_iff.1 hnil
    omega

theorem hasKey_pri (h : hasKey "pri".toList w = true) :
    w = "pri:".toList ++ w.drop 4 ∧ w.drop 4 ≠ [] ∧ classifyWord w DEFAULT_SCHEMES = .tag 3 := by
  unfold hasKey at h
  split at h
  · next colon hkind =>
    obtain ⟨hlength, hparts, hvalue⟩ := tag_parts hkind
    have hkey := of_decide_eq_true h
    rw [hkey] at hlength hparts
    obtain rfl : 3 = colon := hlength
    exact ⟨hparts.symm, hvalue, hkind⟩
  · cases h
  · cases h

/-- The tag a word is. -/
def tagOf (w : Text) : Option (Text × Text) :=
  match classifyWord w DEFAULT_SCHEMES with
  | .tag colon => some (w.take colon, w.drop (colon + 1))
  | .idTag => some ("id".toList, w.drop 3)
  | _ => none

theorem tagOf_pri (h : hasKey "pri".toList w = true) : tagOf w = some ("pri".toList, w.drop 4) := by
  obtain ⟨hw, -, hkind⟩ := hasKey_pri h
  rw [tagOf, hkind]
  dsimp only
  have hkey : w.take 3 = "pri".toList := by
    rw [hw]
    rfl
  rw [hkey]

theorem tagOf_other (h : hasKey "pri".toList w = false) : ∀ tag ∈ tagOf w, tag.1 ≠ "pri".toList := by
  unfold hasKey at h
  unfold tagOf
  intro tag htag
  split at h
  · next colon hkind =>
    rw [hkind] at htag
    cases htag
    exact of_decide_eq_false h
  · next hkind =>
    rw [hkind] at htag
    cases htag
    exact show "id".toList ≠ "pri".toList by decide
  · next hother hother' =>
    split at htag
    · next hkind => exact absurd hkind (hother _)
    · next hkind => exact absurd hkind hother'
    · cases htag

/-- The tags of a description of words. -/
theorem tags_joined {t : Task} (hvs : ∀ v ∈ vs, IsRun v) (ht : t.description = joined vs) :
    t.tags = vs.filterMap tagOf := by
  have hspaced : Spaced (chunks (joined vs)) vs := Spaced.chunksFrom hvs 0
  have hwords := congrArg (List.filterMap tagOf) hspaced.words
  rw [List.filterMap_map] at hwords
  rw [← hwords, Task.tags, Task.words, List.filterMap_map, ht]
  refine List.filterMap_congr fun c _ => ?_
  rw [Function.comp_apply, Function.comp_apply, tagOf]
  cases classifyWord c.text DEFAULT_SCHEMES <;> rfl

/-- The value of the first `pri:` tag of a description of words. -/
theorem tag_joined {t : Task} (hvs : ∀ v ∈ vs, IsRun v) (ht : t.description = joined vs) :
    t.tag "pri".toList = (vs.find? (hasKey "pri".toList)).map (List.drop 4) := by
  rw [Task.tag, tags_joined hvs ht]
  clear ht hvs
  induction vs with
  | nil => rfl
  | cons v vs ih =>
    cases hv : hasKey "pri".toList v with
    | true =>
      rw [List.filterMap_cons, tagOf_pri hv, List.find?_cons, List.find?_cons, hv]
      rfl
    | false =>
      rw [List.find?_cons, hv, ← ih, List.filterMap_cons]
      cases htag : tagOf v with
      | none => rfl
      | some tag =>
        have hne : decide (tag.1 = "pri".toList) = false :=
          decide_eq_false (tagOf_other hv tag htag)
        dsimp only
        rw [List.find?_cons, hne]

/-- The chip's tag is a tag. -/
theorem priTag_some {p : Char} (h : priTag w = some p) : ∃ q : Priority, q.letter = p ∧ w = priWord q := by
  unfold priTag at h
  split at h
  · next letter =>
    split_ifs at h with hupper
    obtain rfl := Option.some.inj h
    exact ⟨⟨letter, hupper⟩, rfl, rfl⟩
  · cases h

theorem priTag_priWord (q : Priority) : priTag (priWord q) = some q.letter := if_pos q.upper

/-- The chip keeps all words when none is its tag. -/
theorem keepWords_none (h : ∀ w ∈ ws, priTag w = none) : keepWords none ws = (none, ws) := by
  induction ws with
  | nil => rfl
  | cons w ws ih =>
    rw [keepWords, h w (List.mem_cons_self ..)]
    dsimp only
    rw [ih fun v hv => h v (List.mem_cons_of_mem _ hv)]

theorem keepWords_some (p : Char) (ws : List Text) : keepWords (some p) ws = (some p, ws) := by
  induction ws with
  | nil => rfl
  | cons w ws ih => rw [keepWords, ih]

/-- The chip takes the first of its tags off. -/
theorem keepWords_first {before after : List Text} {p : Char} (hno : ∀ v ∈ before, priTag v = none)
    (hw : priTag w = some p) : keepWords none (before ++ w :: after) = (some p, before ++ after) := by
  induction before with
  | nil =>
    rw [List.nil_append, keepWords, hw]
    exact keepWords_some p after
  | cons v before ih =>
    rw [List.cons_append, keepWords, hno v (List.mem_cons_self ..)]
    dsimp only
    rw [ih fun u hu => hno u (List.mem_cons_of_mem _ hu)]
    rfl

/-- Words have a first that passes, or none does. -/
theorem exists_first (P : Text → Bool) (ws : List Text) : (∀ w ∈ ws, P w = false) ∨
    ∃ before w after, ws = before ++ w :: after ∧ (∀ v ∈ before, P v = false) ∧ P w = true := by
  induction ws with
  | nil => exact .inl (by simp)
  | cons w ws ih =>
    cases hw : P w with
    | true => exact .inr ⟨[], w, ws, rfl, by simp, hw⟩
    | false =>
      rcases ih with h | ⟨before, v, after, rfl, hno, hv⟩
      · exact .inl (List.forall_mem_cons.2 ⟨hw, h⟩)
      · exact .inr ⟨w :: before, v, after, rfl, List.forall_mem_cons.2 ⟨hw, hno⟩, hv⟩

/-- What the chip keeps of a reopened line's words. -/
theorem keepWords_spec (ws : List Text) :
    ((∀ w ∈ ws, priTag w = none) ∧ keepWords none ws = (none, ws)) ∨
      ∃ before q after, ws = before ++ priWord q :: after ∧ (∀ v ∈ before, priTag v = none) ∧
        keepWords none ws = (some q.letter, before ++ after) := by
  rcases exists_first (fun w => (priTag w).isSome) ws with h | ⟨before, w, after, rfl, hno, hw⟩
  · have hnone : ∀ w ∈ ws, priTag w = none := fun w hw => by simpa using h w hw
    exact .inl ⟨hnone, keepWords_none hnone⟩
  · obtain ⟨p, hp⟩ := Option.isSome_iff_exists.1 hw
    obtain ⟨q, rfl, rfl⟩ := priTag_some hp
    have hnone : ∀ v ∈ before, priTag v = none := fun v hv => by simpa using hno v hv
    exact .inr ⟨before, q, after, rfl, hnone, keepWords_first hnone hp⟩

theorem letterTag_eq (p : Option Priority) : letterTag (p.map Priority.letter) = Txtodo.priTag p := by
  cases p <;> rfl

theorem letterWord_isRun (q : Priority) : ∀ w ∈ letterWord (some q.letter), IsRun w := by
  have hq : IsPriority ['(', q.letter, ')'] q := rfl
  exact List.forall_mem_singleton.2 hq.word.isRun

/-- Reopened by the chip, a line has no more words than its dates and its description. -/
theorem reopened_words (hws : ∀ w ∈ ws, IsRun w) :
    (∀ w ∈ letterWord (keepWords none ws).1 ++ (keepWords none ws).2, IsRun w) ∧
      (letterWord (keepWords none ws).1 ++ (keepWords none ws).2).length = ws.length := by
  rcases keepWords_spec ws with ⟨-, h⟩ | ⟨before, q, after, rfl, -, h⟩
  · rw [h]
    exact ⟨hws, rfl⟩
  · rw [h]
    refine ⟨List.forall_mem_append.2 ⟨letterWord_isRun q, fun w hw => hws w ?_⟩, ?_⟩
    · rcases List.mem_append.1 hw with hw | hw
      · exact List.mem_append_left _ hw
      · exact List.mem_append_right _ (List.mem_cons_of_mem _ hw)
    · simp [letterWord]
      omega

end Pri

/-! ## Open lines -/

section Open
variable {ws us vs : List Text} {priority : Option Priority} {creation : Option Date}

theorem display_isRun (d : Date) : IsRun d.display := (isDate_iff.2 rfl).word.isRun

/-- Completing by the edit appends the priority unless a `pri:` tag is there to take it. -/
theorem complete_open (hws : ∀ w ∈ ws, IsRun w) (hmark : ws.head? ≠ some ['x'])
    (h : PriorityRead ws priority us) (hread : CreationRead us creation vs)
    (hpri : priority = none ∨ ∀ w ∈ vs, hasKey "pri".toList w = false) (ending : LineEnding)
    (today : Date) :
    (apply (OwnedLine.ofText (joined ws) ending) (Edit.new.complete today)).raw =
      some (joined (['x'] :: today.display :: (us ++ Txtodo.priTag priority))) := by
  have hvs : ∀ w ∈ vs, IsRun w := fun w hw => hws w ((hread.suffix.trans h.suffix).subset hw)
  have hdraft := draftOf_open hws hmark h hread
  have hdone : apply (OwnedLine.ofText (joined ws) ending) (Edit.new.complete today) =
      OwnedLine.ofText (joined (Prefix.words ⟨true, some today, creation, none⟩ ++
        (vs ++ Txtodo.priTag priority))) ending := by
    refine apply_joined (List.forall_mem_append.2 ⟨hvs, priTag_isRun priority⟩)
      (OwnedLine.ofText_raw _ _) ?_ ?_ fun _ => rfl
    · rw [hdraft]
      rcases hpri with rfl | hpri
      · rw [Txtodo.priTag, Option.map_none, Option.toList_none, List.append_nil]
        rfl
      · exact complete_joined hvs hpri creation priority today
    · rw [hdraft]
      exact fun heq => Bool.noConfusion (congrArg Prefix.completed heq)
  rw [hdone, OwnedLine.ofText_raw, hread.words]
  refine congrArg (fun words => some (joined words)) ?_
  show _ = ['x'] :: today.display :: _
  simp [Prefix.words]

/-- Completing by the edit puts the priority in the place of the first `pri:` tag. -/
theorem complete_tagged {before after : List Text} {w : Text} {p : Priority}
    (hws : ∀ w ∈ ws, IsRun w) (hmark : ws.head? ≠ some ['x']) (h : PriorityRead ws (some p) us)
    (hread : CreationRead us creation (before ++ w :: after))
    (hno : ∀ v ∈ before, hasKey "pri".toList v = false) (hw : hasKey "pri".toList w = true)
    (ending : LineEnding) (today : Date) :
    (apply (OwnedLine.ofText (joined ws) ending) (Edit.new.complete today)).raw =
      some (joined (Prefix.words ⟨true, some today, creation, none⟩ ++
        (before ++ priWord p :: after))) := by
  have hvs : ∀ v ∈ before ++ w :: after, IsRun v :=
    fun v hv => hws v ((hread.suffix.trans h.suffix).subset hv)
  have hdraft := draftOf_open hws hmark h hread
  have hnew : ∀ v ∈ before ++ priWord p :: after, IsRun v := by
    intro v hv
    rcases List.mem_append.1 hv with hv | hv
    · exact hvs v (List.mem_append_left _ hv)
    · rcases List.mem_cons.1 hv with rfl | hv
      · exact priWord_isRun p
      · exact hvs v (List.mem_append_right _ (List.mem_cons_of_mem _ hv))
  have hset : (⟨⟨true, some today, creation, none⟩, joined (before ++ w :: after)⟩ : Draft).setTag
      "pri".toList [p.letter] =
        ⟨⟨true, some today, creation, none⟩, joined (before ++ priWord p :: after)⟩ := by
    have hrest : (lead before ++ (w ++ spaced after)).drop ((lead before).length + w.length) =
        spaced after := by
      rw [← List.append_assoc, ← List.length_append, List.drop_left]
    rw [Draft.setTag, findTag_first _ hvs hno hw]
    dsimp only
    rw [joined_middle, joined_middle, replaceRange, hrest, List.take_left, List.append_assoc]
    rfl
  have hdone : apply (OwnedLine.ofText (joined ws) ending) (Edit.new.complete today) =
      OwnedLine.ofText (joined (Prefix.words ⟨true, some today, creation, none⟩ ++
        (before ++ priWord p :: after))) ending := by
    refine apply_joined hnew (OwnedLine.ofText_raw _ _) ?_ ?_ fun _ => rfl
    · rw [hdraft]
      exact hset
    · rw [hdraft]
      exact fun heq => Bool.noConfusion (congrArg Prefix.completed heq)
  rw [hdone, OwnedLine.ofText_raw]

/-- The chip and the edit complete a line alike. -/
def CompletesAlike (raw : Text) (ending : LineEnding) (today : Date) : Prop :=
  (apply (OwnedLine.ofText raw ending) (Edit.new.complete today)).raw =
    some (toggleCompleteText raw today.display)

theorem joined_ne {as bs : List Text} (has : ∀ w ∈ as, IsRun w) (hbs : ∀ w ∈ bs, IsRun w)
    (h : as.length ≠ bs.length) : some (joined as) ≠ some (joined bs) := fun heq =>
  h (congrArg List.length (joined_injective has hbs (Option.some.inj heq)))

theorem completed_isRun (today : Date) {as : List Text} (has : ∀ w ∈ as, IsRun w) :
    ∀ w ∈ ['x'] :: today.display :: as, IsRun w :=
  List.forall_mem_cons.2 ⟨⟨by simp, List.forall_mem_singleton.2 rfl⟩,
    List.forall_mem_cons.2 ⟨display_isRun today, has⟩⟩

/-- The chip completes an open line by its words, or reopens it: neither is what a line that starts with
the mark stays. -/
theorem not_alike_marked (hws : ∀ w ∈ ['x'] :: ws, IsRun w) (ending : LineEnding) (today : Date) :
    ¬CompletesAlike (joined (['x'] :: ws)) ending today := by
  have hsame : apply (OwnedLine.ofText (joined (['x'] :: ws)) ending) (Edit.new.complete today) =
      OwnedLine.ofText (joined (['x'] :: ws)) ending :=
    apply_of_same (OwnedLine.ofText_raw _ _)
      (if_pos (draftOf_marked (List.forall_mem_cons.1 hws).2).1)
  rw [CompletesAlike, hsame, OwnedLine.ofText_raw]
  cases hsplit : splitCompleted (joined (['x'] :: ws)) with
  | none =>
    have hstrip : stripPriority (joined (['x'] :: ws)) = none := rfl
    rw [toggle_open _ hws none hsplit hstrip fun _ => rfl]
    refine joined_ne hws (completed_isRun today ?_) (by simp [letterTag])
    simpa [letterTag] using hws
  | some found =>
    obtain ⟨created, description⟩ := found
    obtain ⟨x, w, ds, heq, rfl⟩ := splitCompleted_some hws hsplit
    have hmem : ∀ v ∈ created.toList ++ ds, IsRun v := fun v hv => hws v (by rw [heq]; simp [hv])
    obtain ⟨hcreated, hds⟩ := List.forall_mem_append.1 hmem
    obtain ⟨hrun, hlength⟩ := reopened_words hds
    obtain ⟨hletter, hkept⟩ := List.forall_mem_append.1 hrun
    rw [toggle_completed _ hds hsplit]
    refine joined_ne hws (List.forall_mem_append.2
      ⟨List.forall_mem_append.2 ⟨hletter, hcreated⟩, hkept⟩) ?_
    rw [heq]
    simp only [List.length_append, List.length_cons] at hlength ⊢
    omega

/-- A priority with a word stuck to it is in the first word. -/
theorem Glued.head (hws : ∀ w ∈ ws, IsRun w) (hglued : Glued (joined ws)) :
    ∃ letter c w vs, ws = ('(' :: letter :: ')' :: c :: w) :: vs ∧ c ≠ ' ' ∧
      letter.isUpper = true ∧ stripPriority (joined ws) = some (letter, joined ((c :: w) :: vs)) := by
  obtain ⟨letter, c, r, heq, hupper, hc⟩ := hglued
  have hletter : letter ≠ ' ' := by
    rintro rfl
    cases hupper
  obtain ⟨w, vs, rfl⟩ : ∃ w vs, ws = w :: vs := List.exists_cons_of_ne_nil fun hnil => by
    rw [hnil] at heq
    cases heq
  have hsplit : w ++ spaced vs = ['(', letter, ')', c] ++ r := (joined_cons w vs).symm.trans heq
  obtain ⟨w', rfl, rfl⟩ : ∃ w', w = ['(', letter, ')', c] ++ w' ∧ r = w' ++ spaced vs := by
    rcases List.append_eq_append_iff.1 hsplit with ⟨a, ha, hspaced⟩ | ⟨a, ha, hr⟩
    · -- a word that ended before `c` would have a space after it
      cases a with
      | nil => exact ⟨[], by simpa using ha.symm, by simpa using hspaced.symm⟩
      | cons space a =>
        obtain rfl : space = ' ' := by
          cases vs with
          | nil => cases hspaced
          | cons v vs => exact (List.cons.inj hspaced).1.symm
        have hmem : ' ' ∈ ['(', letter, ')', c] := ha ▸ List.mem_append_right _ (List.mem_cons_self ..)
        simp [hletter.symm, Ne.symm hc] at hmem
    · exact ⟨a, ha, hr⟩
  refine ⟨letter, c, w', vs, rfl, hc, hupper, ?_⟩
  · rw [heq, joined_cons, stripPriority, if_pos hupper]
    · rfl
    · exact fun rest hspace => hc (List.cons.inj hspace).1

/-- The letter of a priority with a word stuck to it becomes a tag of the chip's. -/
theorem not_alike_glued (hws : ∀ w ∈ ws, IsRun w) (h : PriorityRead ws priority us)
    (hread : CreationRead us creation vs) (hglued : Glued (joined ws)) (ending : LineEnding)
    (today : Date) : ¬CompletesAlike (joined ws) ending today := by
  obtain ⟨letter, c, w, ts, rfl, hc, hupper, hstrip⟩ := hglued.head hws
  obtain ⟨hw, hts⟩ := List.forall_mem_cons.1 hws
  have hrun : IsRun (c :: w) :=
    ⟨by simp, fun d hd => hw.2 d (by simp at hd ⊢; tauto)⟩
  obtain ⟨rfl, rfl⟩ : priority = none ∧ us = ('(' :: letter :: ')' :: c :: w) :: ts := by
    cases h with
    | priority h => exact absurd h.length (by simp)
    | other h => exact ⟨rfl, rfl⟩
  have hcompleted : splitCompleted (joined (('(' :: letter :: ')' :: c :: w) :: ts)) = none :=
    splitCompleted_none (by simp [firstWord_joined hws])
  rw [CompletesAlike, complete_open hws (by simp) h hread (.inl rfl),
    toggle_open _ (List.forall_mem_cons.2 ⟨hrun, hts⟩) (some letter) hcompleted hstrip
      fun hnone => by cases hnone]
  refine joined_ne (completed_isRun today ?_) (completed_isRun today ?_) (by simp [letterTag, Txtodo.priTag])
  · simpa [Txtodo.priTag] using hws
  · exact List.forall_mem_append.2 ⟨List.forall_mem_cons.2 ⟨hrun, hts⟩,
      List.forall_mem_singleton.2 (priWord_isRun ⟨letter, hupper⟩)⟩

/-- An open line neither marked nor glued, completed by the chip. -/
theorem toggle_read (hws : ∀ w ∈ ws, IsRun w) (hmark : ws.head? ≠ some ['x'])
    (hglued : ¬Glued (joined ws)) (h : PriorityRead ws priority us) (today : Text) :
    toggleCompleteText (joined ws) today =
      joined (['x'] :: today :: (us ++ Txtodo.priTag priority)) := by
  have hhead : ws.headD [] ≠ ['x'] := by
    intro heq
    cases ws with
    | nil => cases heq
    | cons w ws => exact hmark (congrArg some heq)
  have hcompleted : splitCompleted (joined ws) = none :=
    splitCompleted_none (by rwa [firstWord_joined hws])
  have hus : ∀ u ∈ us, IsRun u := fun u hu => hws u (h.suffix.subset hu)
  rw [← letterTag_eq]
  refine toggle_open today hus _ hcompleted ?_ ?_
  · cases h with
    | nil => rfl
    | priority h => exact stripPriority_priority h us
    | other h =>
      refine stripPriority_none hglued fun p hp => h p ?_
      rwa [firstWord_joined hws] at hp
  · cases h with
    | nil => exact fun _ => rfl
    | priority h => exact fun hnone => by cases hnone
    | other h => exact fun _ => rfl

/-- An open line is completed alike unless the chip reads its head otherwise or a `pri:` tag is there to
take the priority. -/
theorem completesAlike_iff (hws : ∀ w ∈ ws, IsRun w) (h : PriorityRead ws priority us)
    (hread : CreationRead us creation vs) (ending : LineEnding) (today : Date) :
    CompletesAlike (joined ws) ending today ↔ ws.head? ≠ some ['x'] ∧ ¬Glued (joined ws) ∧
      (priority = none ∨ ∀ w ∈ vs, hasKey "pri".toList w = false) := by
  by_cases hmark : ws.head? = some ['x']
  · refine iff_of_false ?_ fun hall => hall.1 hmark
    obtain ⟨us, rfl⟩ := List.head?_eq_some_iff.1 hmark
    exact not_alike_marked hws ending today
  by_cases hglued : Glued (joined ws)
  · exact iff_of_false (not_alike_glued hws h hread hglued ending today) fun hall => hall.2.1 hglued
  have hread' := toggle_read hws hmark hglued h today.display
  rw [CompletesAlike, hread']
  by_cases hpri : priority = none ∨ ∀ w ∈ vs, hasKey "pri".toList w = false
  · exact iff_of_true (complete_open hws hmark h hread hpri ending today) ⟨hmark, hglued, hpri⟩
  refine iff_of_false ?_ fun hall => hpri hall.2.2
  rw [not_or] at hpri
  obtain ⟨p, rfl⟩ := Option.ne_none_iff_exists'.1 hpri.1
  have hvs : ∀ v ∈ vs, IsRun v := fun v hv => hws v ((hread.suffix.trans h.suffix).subset hv)
  rcases exists_first (hasKey "pri".toList) vs with hno | ⟨before, w, after, rfl, hno, hw⟩
  · exact absurd hno hpri.2
  have hus : ∀ u ∈ us, IsRun u := fun u hu => hws u (h.suffix.subset hu)
  rw [complete_tagged hws hmark h hread hno hw ending today]
  refine joined_ne (List.forall_mem_append.2 ⟨words_isRun _, ?_⟩)
    (completed_isRun today (List.forall_mem_append.2 ⟨hus, priTag_isRun _⟩)) ?_
  · intro v hv
    rcases List.mem_append.1 hv with hv | hv
    · exact hvs v (List.mem_append_left _ hv)
    · rcases List.mem_cons.1 hv with rfl | hv
      · exact priWord_isRun p
      · exact hvs v (List.mem_append_right _ (List.mem_cons_of_mem _ hv))
  · -- the chip's line has the tag and the priority
    rw [hread.words]
    simp [Prefix.words, Txtodo.priTag]

end Open

/-! ## Completed lines -/

section Completed
variable {ws us vs ds : List Text} {w : Text} {read : Option Priority} {creation : Option Date}

/-- The priority the edit takes off the first `pri:` tag. -/
def restored (ws : List Text) : Option Priority :=
  (ws.find? (hasKey "pri".toList)).bind fun w => (w.drop 4).head?.bind Priority.new

theorem restored_none (h : ∀ w ∈ ws, hasKey "pri".toList w = false) : restored ws = none := by
  have hnone : ws.find? (hasKey "pri".toList) = none :=
    List.find?_eq_none.2 fun w hw => by rw [h w hw]; exact Bool.false_ne_true
  rw [restored, hnone]
  rfl

theorem find_first {before : List Text} (after : List Text) (hno : ∀ v ∈ before, hasKey "pri".toList v = false)
    (hw : hasKey "pri".toList w = true) :
    (before ++ w :: after).find? (hasKey "pri".toList) = some w := by
  have hnone : before.find? (hasKey "pri".toList) = none :=
    List.find?_eq_none.2 fun v hv => by rw [hno v hv]; exact Bool.false_ne_true
  rw [List.find?_append, hnone, Option.none_or, List.find?_cons, hw]

/-- The words of a line reopened with `priority` in front. -/
def reopenedAs (priority : Option Priority) (creation : Option Date) (kept : List Text) : List Text :=
  Prefix.words ⟨false, none, creation, priority⟩ ++ kept

/-- What reopening by the edit leaves of the words: all of them, or all but the first `pri:` tag. -/
inductive Restores : List Text → Option Priority → List Text → Prop where
  | untouched {ws : List Text} (h : restored ws = none) : Restores ws none ws
  | tagged {before after : List Text} {w : Text} {p : Priority}
      (hno : ∀ v ∈ before, hasKey "pri".toList v = false) (hw : hasKey "pri".toList w = true)
      (hletter : (w.drop 4).head?.bind Priority.new = some p) :
      Restores (before ++ w :: after) (some p) (before ++ after)

theorem exists_restores (ws : List Text) : ∃ priority kept, Restores ws priority kept := by
  cases h : restored ws with
  | none => exact ⟨_, _, .untouched h⟩
  | some p =>
    rcases exists_first (hasKey "pri".toList) ws with hno | ⟨before, w, after, rfl, hno, hw⟩
    · rw [restored_none hno] at h
      cases h
    · rw [restored, find_first _ hno hw] at h
      exact ⟨_, _, .tagged hno hw h⟩

theorem Restores.uncomplete {priority : Option Priority} {kept : List Text} (h : Restores ws priority kept)
    (hws : ∀ w ∈ ws, IsRun w) (completion : Date) (creation : Option Date) (read : Option Priority) :
    (⟨⟨true, some completion, creation, read⟩, joined ws⟩ : Draft).uncomplete =
      ⟨⟨false, none, creation, priority.or read⟩, joined kept⟩ := by
  cases h with
  | untouched h =>
    rcases exists_first (hasKey "pri".toList) ws with hno | ⟨before, w, after, rfl, hno, hw⟩
    · exact uncomplete_untagged hws hno completion creation read
    · rw [restored, find_first _ hno hw] at h
      have hletter : (w.drop 4).head?.bind Priority.new = none := h
      rw [uncomplete_tagged hws hno hw, hletter]
      rfl
  | tagged hno hw hletter =>
    rw [uncomplete_tagged hws hno hw, hletter]
    rfl

theorem Restores.subset {priority : Option Priority} {kept : List Text} (h : Restores ws priority kept) :
    kept ⊆ ws := by
  cases h with
  | untouched => exact List.Subset.refl _
  | tagged =>
    intro v hv
    rcases List.mem_append.1 hv with hv | hv
    · exact List.mem_append_left _ hv
    · exact List.mem_append_right _ (List.mem_cons_of_mem _ hv)

/-- The edit reopens a completed line by its words. -/
theorem uncomplete_read {priority : Option Priority} {kept : List Text} {completion : Date}
    (hw : IsDate w completion) (hus : ∀ u ∈ us, IsRun u) (hread : CreationRead us creation vs)
    (hagain : PriorityRead vs read ds) (h : Restores ds priority kept) (ending : LineEnding) :
    (apply (OwnedLine.ofText (joined (['x'] :: w :: us)) ending) Edit.new.uncomplete).raw =
      some (joined (reopenedAs (priority.or read) creation kept)) := by
  have hds : ∀ v ∈ ds, IsRun v := fun v hv => hus v ((hagain.suffix.trans hread.suffix).subset hv)
  have hdraft := draftOf_completed hus hw hread hagain
  have hopened : apply (OwnedLine.ofText (joined (['x'] :: w :: us)) ending) Edit.new.uncomplete =
      OwnedLine.ofText (joined (reopenedAs (priority.or read) creation kept)) ending := by
    refine apply_joined (fun v hv => hds v (h.subset hv)) (OwnedLine.ofText_raw _ _) ?_ ?_
      fun hcompleted => by cases hcompleted
    · rw [hdraft]
      exact h.uncomplete hds completion creation read
    · rw [hdraft]
      exact fun heq => Bool.noConfusion (congrArg Prefix.completed heq)
  rw [hopened, OwnedLine.ofText_raw]

/-- The chip and the edit reopen a line alike. -/
def ReopensAlike (raw : Text) (ending : LineEnding) (today : Date) : Prop :=
  (apply (OwnedLine.ofText raw ending) Edit.new.uncomplete).raw =
    some (toggleCompleteText raw today.display)

/-- The words of a line reopened by the chip. -/
theorem toggle_words {completion : Date} (hw : IsDate w completion) (hus : ∀ u ∈ us, IsRun u)
    (hread : CreationRead us creation vs) (today : Text) :
    toggleCompleteText (joined (['x'] :: w :: us)) today =
      joined (letterWord (keepWords none vs).1 ++ (creation.map Date.display).toList ++
        (keepWords none vs).2) :=
  toggle_completed today (fun v hv => hus v (hread.suffix.subset hv)) (splitCompleted_read hw hus hread)

theorem reopenedAs_isRun (priority : Option Priority) (creation : Option Date) {kept : List Text}
    (hkept : ∀ w ∈ kept, IsRun w) : ∀ w ∈ reopenedAs priority creation kept, IsRun w :=
  List.forall_mem_append.2 ⟨words_isRun _, hkept⟩

/-- Alike is the same words. -/
theorem reopensAlike_iff_words {priority letter : Option Priority} {kept rest : List Text}
    {completion : Date} (hw : IsDate w completion) (hus : ∀ u ∈ us, IsRun u)
    (hread : CreationRead us creation vs) (hagain : PriorityRead vs read ds)
    (h : Restores ds priority kept) (hkeep : keepWords none vs = (letter.map Priority.letter, rest))
    (ending : LineEnding) (today : Date) :
    ReopensAlike (joined (['x'] :: w :: us)) ending today ↔
      reopenedAs (priority.or read) creation kept = reopenedAs letter creation rest := by
  have hvs : ∀ v ∈ vs, IsRun v := fun v hv => hus v (hread.suffix.subset hv)
  have hkept : ∀ v ∈ kept, IsRun v := fun v hv => hvs v (hagain.suffix.subset (h.subset hv))
  have hrest : ∀ v ∈ rest, IsRun v := fun v hv =>
    hvs v ((keepWords_sublist none vs).subset (by rwa [hkeep]))
  have hwords : letterWord (keepWords none vs).1 ++ (creation.map Date.display).toList ++
      (keepWords none vs).2 = reopenedAs letter creation rest := by
    rw [hkeep]
    cases letter <;> rfl
  rw [ReopensAlike, uncomplete_read hw hus hread hagain h, toggle_words hw hus hread, hwords,
    Option.some_inj]
  exact ⟨joined_injective (reopenedAs_isRun _ _ hkept) (reopenedAs_isRun _ _ hrest), congrArg joined⟩

theorem hasKey_priority {p : Priority} (h : IsPriority w p) : hasKey "pri".toList w = false := by
  rw [← Bool.not_eq_true]
  intro hkey
  rw [show w = _ from h] at hkey
  exact absurd (List.cons.inj (hasKey_pri hkey).1).1 (by decide)

/-- A `pri:` word stands in a line's dates and its description. -/
theorem count_reopenedAs (hw : hasKey "pri".toList w = true) (priority : Option Priority)
    (creation : Option Date) (kept : List Text) :
    (reopenedAs priority creation kept).count w =
      (creation.map Date.display).toList.count w + kept.count w := by
  have hletter : w ∉ (priority.map fun p => ['(', p.letter, ')']).toList := by
    intro hmem
    obtain ⟨p, -, rfl⟩ := Option.map_eq_some_iff.1 (Option.mem_toList.1 hmem)
    rw [hasKey_priority (p := p) rfl] at hw
    cases hw
  show (((priority.map fun p => ['(', p.letter, ')']).toList ++ _) ++ kept).count w = _
  rw [List.count_append, List.count_append, List.count_eq_zero.2 hletter, Nat.zero_add]

theorem length_reopenedAs (priority : Option Priority) (creation : Option Date) (kept : List Text) :
    (reopenedAs priority creation kept).length =
      priority.toList.length + (creation.map Date.display).toList.length + kept.length := by
  cases priority with
  | none => simp [reopenedAs, Prefix.words]
  | some p =>
    simp [reopenedAs, Prefix.words]
    omega

/-- The words the chip keeps. -/
inductive Keeps : List Text → Option Priority → List Text → Prop where
  | all {ws : List Text} (h : ∀ p, priWord p ∉ ws) : Keeps ws none ws
  | tagged {before after : List Text} (p : Priority) (hno : ∀ v ∈ before, priTag v = none) :
      Keeps (before ++ priWord p :: after) (some p) (before ++ after)

theorem keeps_keepWords (ws : List Text) : ∃ letter rest, Keeps ws letter rest ∧
    keepWords none ws = (letter.map Priority.letter, rest) := by
  rcases keepWords_spec ws with ⟨hnone, h⟩ | ⟨before, q, after, rfl, hno, h⟩
  · refine ⟨none, ws, .all fun p hmem => ?_, h⟩
    cases (priTag_priWord p).symm.trans (hnone _ hmem)
  · exact ⟨some q, _, .tagged q hno, h⟩

theorem letter_injective {p q : Option Priority} (h : p.map Priority.letter = q.map Priority.letter) :
    p = q := by
  refine Option.map_injective (fun p q hletter => ?_) h
  obtain ⟨p, _⟩ := p
  obtain rfl : p = q.letter := hletter
  rfl

theorem Keeps.length {letter : Option Priority} {rest : List Text} (h : Keeps ws letter rest) :
    letter.toList.length + rest.length = ws.length := by
  cases h with
  | all => simp
  | tagged p => simp; omega

theorem Keeps.count {letter : Option Priority} {rest : List Text} (h : Keeps ws letter rest)
    (hw : ∀ p, w ≠ priWord p) : rest.count w = ws.count w := by
  cases h with
  | all => rfl
  | tagged p =>
    rw [List.count_append, List.count_append, List.count_cons_of_ne (hw p).symm]

theorem count_middle (before after : List Text) (w : Text) :
    (before ++ w :: after).count w = (before ++ after).count w + 1 := by
  rw [List.count_append, List.count_append, List.count_cons_self, Nat.add_assoc]

theorem count_of_read (h : PriorityRead vs read ds) (hw : hasKey "pri".toList w = true) :
    vs.count w = ds.count w := by
  cases h with
  | nil => rfl
  | other => rfl
  | priority hp =>
    refine List.count_cons_of_ne ?_
    rintro rfl
    rw [hasKey_priority hp] at hw
    cases hw

theorem find_of_read (h : PriorityRead vs read ds) :
    vs.find? (hasKey "pri".toList) = ds.find? (hasKey "pri".toList) := by
  cases h with
  | nil => rfl
  | other => rfl
  | priority hp => rw [List.find?_cons, hasKey_priority hp]

theorem restored_of_read (h : PriorityRead vs read ds) : restored vs = restored ds := by
  rw [restored, find_of_read h, restored]

theorem restored_exact {p : Priority} (h : ws.find? (hasKey "pri".toList) = some (priWord p)) :
    restored ws = some p := by
  have hnew : Priority.new p.letter = some p := dif_pos p.upper
  rw [restored, h]
  exact hnew

/-- The words of a completed line that both reopen alike. -/
def KeepsAlike (vs : List Text) (creation : Option Date) : Prop :=
  if isPriorityWord (vs.headD []) = true then
    creation = none ∧ restored vs = none ∧ ∀ p, priWord p ∉ vs
  else
    (∃ p, vs.find? (hasKey "pri".toList) = some (priWord p)) ∨
      restored vs = none ∧ ∀ p, priWord p ∉ vs

theorem KeepsAlike.untagged (h : KeepsAlike vs creation)
    (hfirst : ∀ p, vs.find? (hasKey "pri".toList) ≠ some (priWord p)) :
    restored vs = none ∧ ∀ p, priWord p ∉ vs := by
  unfold KeepsAlike at h
  split_ifs at h
  · exact h.2
  · exact h.resolve_left fun ⟨p, hp⟩ => hfirst p hp

/-- The edit leaves the first `pri:` tag alone. -/
theorem reopened_untouched (hagain : PriorityRead vs read ds) (hnone : restored ds = none)
    {letter : Option Priority} {rest : List Text} (hkeep : Keeps vs letter rest) :
    reopenedAs read creation ds = reopenedAs letter creation rest ↔ KeepsAlike vs creation := by
  have hvs : restored vs = none := (restored_of_read hagain).trans hnone
  cases hkeep with
  | tagged p =>
    -- the chip's line has a tag less
    refine iff_of_false (fun heq => ?_) fun hall => ?_
    · have hcount := congrArg (List.count (priWord p)) heq
      rw [count_reopenedAs (hasKey_priWord p), count_reopenedAs (hasKey_priWord p),
        ← count_of_read hagain (hasKey_priWord p), count_middle] at hcount
      omega
    · refine (hall.untagged fun q hq => ?_).2 p (by simp)
      cases hvs.symm.trans (restored_exact hq)
  | all hno =>
    unfold KeepsAlike
    cases hagain with
    | nil => exact iff_of_true rfl (.inr ⟨hvs, hno⟩)
    | other h =>
      rw [List.headD_cons, if_neg fun hword => (isPriorityWord_iff.1 hword).elim h]
      exact iff_of_true rfl (.inr ⟨hvs, hno⟩)
    | @priority w _ p hp =>
      rw [List.headD_cons, if_pos (isPriorityWord_iff.2 ⟨p, hp⟩)]
      obtain rfl : w = ['(', p.letter, ')'] := hp
      cases creation with
      | none => exact iff_of_true rfl ⟨rfl, hvs, hno⟩
      | some date =>
        refine iff_of_false (fun heq => ?_) fun hall => by cases hall.1
        cases congrArg List.length (List.cons.inj heq).1

/-- The edit takes the first `pri:` tag. -/
theorem reopened_tagged {before after : List Text} {p : Priority}
    (hagain : PriorityRead vs read (before ++ w :: after))
    (hno : ∀ v ∈ before, hasKey "pri".toList v = false) (hw : hasKey "pri".toList w = true)
    (hletter : (w.drop 4).head?.bind Priority.new = some p) {letter : Option Priority}
    {rest : List Text} (hkeep : Keeps vs letter rest)
    (hwords : keepWords none vs = (letter.map Priority.letter, rest)) :
    reopenedAs (some p) creation (before ++ after) = reopenedAs letter creation rest ↔
      KeepsAlike vs creation := by
  have hrestored : restored vs = some p := by
    rw [restored_of_read hagain, restored, find_first _ hno hw]
    exact hletter
  by_cases hexact : ∃ q, w = priWord q
  · obtain ⟨q, rfl⟩ := hexact
    have hfirst := find_first after hno hw
    obtain rfl : q = p :=
      Option.some.inj ((restored_exact hfirst).symm.trans ((restored_of_read hagain).symm.trans hrestored))
    have hnot : ∀ v ∈ before, priTag v = none := by
      intro v hv
      cases htag : priTag v with
      | none => rfl
      | some c =>
        obtain ⟨r, -, rfl⟩ := priTag_some htag
        cases (hno _ hv).symm.trans (hasKey_priWord r)
    have hsame (hvs : vs = before ++ priWord q :: after) :
        reopenedAs (some q) creation (before ++ after) = reopenedAs letter creation rest := by
      rw [hvs, keepWords_first hnot (priTag_priWord q)] at hwords
      obtain ⟨hletter, rfl⟩ := Prod.mk.inj hwords
      rw [← letter_injective (p := some q) hletter]
    generalize hds : before ++ priWord q :: after = ds at hagain
    unfold KeepsAlike
    cases hagain with
    | nil => exact absurd hds (by simp)
    | other h =>
      rw [List.headD_cons, if_neg fun hword => (isPriorityWord_iff.1 hword).elim h]
      exact iff_of_true (hsame hds.symm) (.inl ⟨q, hds ▸ hfirst⟩)
    | @priority v _ r hp =>
      rw [List.headD_cons, if_pos (isPriorityWord_iff.2 ⟨r, hp⟩)]
      -- the chip keeps the priority in front, and the edit does not
      refine iff_of_false (fun heq => ?_) fun hall => by cases hall.2.1.symm.trans hrestored
      have hlength := congrArg List.length heq
      have hkept := hkeep.length
      rw [length_reopenedAs, length_reopenedAs, List.length_append] at hlength
      rw [← hds, List.length_cons, List.length_append, List.length_cons] at hkept
      have hone : (some q).toList.length = 1 := rfl
      omega
  · refine iff_of_false (fun heq => ?_) fun hall => ?_
    · have hcount := congrArg (List.count w) heq
      rw [count_reopenedAs hw, count_reopenedAs hw, hkeep.count fun q hq => hexact ⟨q, hq⟩,
        count_of_read hagain hw, count_middle] at hcount
      omega
    · have hnone := (hall.untagged fun q hq => hexact ⟨q, ?_⟩).1
      · cases hnone.symm.trans hrestored
      · rw [find_of_read hagain, find_first _ hno hw] at hq
        exact Option.some.inj hq

/-- A completed line is reopened alike by its words. -/
theorem reopensAlike_iff {completion : Date} (hw : IsDate w completion) (hus : ∀ u ∈ us, IsRun u)
    (hread : CreationRead us creation vs) (ending : LineEnding) (today : Date) :
    ReopensAlike (joined (['x'] :: w :: us)) ending today ↔ KeepsAlike vs creation := by
  obtain ⟨read, ds, hagain⟩ := exists_priorityRead vs
  obtain ⟨priority, kept, h⟩ := exists_restores ds
  obtain ⟨letter, rest, hkeep, hwords⟩ := keeps_keepWords vs
  rw [reopensAlike_iff_words hw hus hread hagain h hwords]
  cases h with
  | untouched hnone => exact reopened_untouched hagain hnone hkeep
  | tagged hno hw hletter => exact reopened_tagged hagain hno hw hletter hkeep hwords

end Completed

/-! ## The condition on the task -/

section Agree
variable {raw : Text} {l : Line}

/-- No `pri:` tag of the task can be taken for a priority. -/
def Unprioritised (t : Task) : Prop :=
  (∀ v, t.tag "pri".toList = some v → v.head?.bind Priority.new = none) ∧
    ∀ p : Priority, ("pri".toList, [p.letter]) ∉ t.tags

/-- The condition under which chip and edit agree on the line of a task. -/
def Alike (raw : Text) (t : Task) : Prop :=
  if t.completed = true then
    if isPriorityWord (firstWord t.description) = true then t.creationDate = none ∧ Unprioritised t
    else (∃ p : Priority, t.tag "pri".toList = some [p.letter]) ∨ Unprioritised t
  else
    firstWord raw ≠ ['x'] ∧ ¬Glued raw ∧ (t.priority = none ∨ t.tag "pri".toList = none)

/-- The edit the chip stands for. -/
def toggleEdit (l : Line) (today : Date) : Edit :=
  match l.kind with
  | .task t => if t.completed then Edit.new.uncomplete else Edit.new.complete today
  | .blank => Edit.new.complete today

section Words
variable {vs : List Text} {t : Task}

theorem unprioritised_iff (hvs : ∀ v ∈ vs, IsRun v) (ht : t.description = joined vs) :
    Unprioritised t ↔ restored vs = none ∧ ∀ p, priWord p ∉ vs := by
  refine and_congr ?_ (forall_congr' fun p => not_congr ?_)
  · rw [tag_joined hvs ht, restored]
    cases vs.find? (hasKey "pri".toList) with
    | none => simp
    | some w => simp
  · rw [tags_joined hvs ht, List.mem_filterMap]
    constructor
    · rintro ⟨w, hw, htag⟩
      cases hkey : hasKey "pri".toList w with
      | false => exact absurd rfl (tagOf_other hkey _ htag)
      | true =>
        rw [tagOf_pri hkey] at htag
        have hvalue := (Prod.mk.inj (Option.some.inj htag)).2
        have hword := (hasKey_pri hkey).1
        rw [hvalue] at hword
        rwa [hword] at hw
    · exact fun hp => ⟨_, hp, tagOf_pri (hasKey_priWord p)⟩

theorem exact_tag_iff (hvs : ∀ v ∈ vs, IsRun v) (ht : t.description = joined vs) (p : Priority) :
    t.tag "pri".toList = some [p.letter] ↔ vs.find? (hasKey "pri".toList) = some (priWord p) := by
  rw [tag_joined hvs ht]
  constructor
  · intro h
    obtain ⟨w, hw, hvalue⟩ := Option.map_eq_some_iff.1 h
    have hword := (hasKey_pri (List.find?_some hw)).1
    rw [hvalue] at hword
    rw [hw, hword]
    rfl
  · intro h
    rw [h]
    rfl

theorem untagged_iff (hvs : ∀ v ∈ vs, IsRun v) (ht : t.description = joined vs) :
    t.tag "pri".toList = none ↔ ∀ w ∈ vs, hasKey "pri".toList w = false := by
  rw [tag_joined hvs ht, Option.map_eq_none_iff, List.find?_eq_none]
  exact forall₂_congr fun w _ => Bool.not_eq_true _ ▸ Iff.rfl

theorem keepsAlike_iff (hvs : ∀ v ∈ vs, IsRun v) (ht : t.description = joined vs) :
    KeepsAlike vs t.creationDate ↔
      if isPriorityWord (firstWord t.description) = true then t.creationDate = none ∧ Unprioritised t
      else (∃ p : Priority, t.tag "pri".toList = some [p.letter]) ∨ Unprioritised t := by
  rw [KeepsAlike, ht, firstWord_joined hvs, unprioritised_iff hvs ht,
    exists_congr fun p => exact_tag_iff hvs ht p]

end Words

theorem completesAlike_task {ws us vs : List Text} {t : Task} {creation : Option Date}
    (hws : ∀ w ∈ ws, IsRun w) (h : PriorityRead ws t.priority us) (hread : CreationRead us creation vs)
    (hopen : t.completed = false) (ht : t.description = joined vs) (ending : LineEnding) (today : Date) :
    CompletesAlike (joined ws) ending today ↔ Alike (joined ws) t := by
  have hvs : ∀ v ∈ vs, IsRun v := fun v hv => hws v ((hread.suffix.trans h.suffix).subset hv)
  have hhead : ws.headD [] = ['x'] ↔ ws.head? = some ['x'] := by
    cases ws with
    | nil => simp
    | cons w ws => simp
  rw [completesAlike_iff hws h hread, Alike, if_neg (by simp [hopen]), firstWord_joined hws]
  exact and_congr (not_congr hhead.symm)
    (and_congr Iff.rfl (or_congr Iff.rfl (untagged_iff hvs ht).symm))

/-- The chip writes what the edit writes exactly on the lines whose head and `pri:` tags both read alike. -/
theorem toggle_agrees_iff (hline : parseLine raw .strict = .ok l) (ending : LineEnding) (today : Date) :
    (apply (OwnedLine.ofText raw ending) (toggleEdit l today)).raw =
        some (toggleCompleteText raw today.display) ↔
      ∀ t, l.kind = .task t → Alike raw t := by
  by_cases hne : raw = []
  · subst hne
    cases hline
    refine iff_of_true ?_ fun t ht => by cases ht
    have hglued : ¬Glued (joined []) := by
      rintro ⟨_, _, _, h, _⟩
      cases h
    exact (completesAlike_iff (by simp) .nil .nil ending today).2 ⟨by simp, hglued, .inl rfl⟩
  obtain ⟨ws, t₀, us, vs, creation, hws, rfl, hstart, hread, rfl⟩ := strict_read hne hline
  have htask : ∀ P : Task → Prop, (∀ t, (lineOf (joined ws) { t₀ with
      creationDate := creation, description := joined vs } Quirks.NONE).kind = .task t → P t) ↔
        P { t₀ with creationDate := creation, description := joined vs } :=
    fun P => ⟨fun h => h _ rfl, fun h t ht => by cases ht; exact h⟩
  rw [htask]
  cases hstart with
  | completed hdate =>
    have hus : ∀ u ∈ us, IsRun u := fun u hu => hws u (by simp [hu])
    have hvs : ∀ v ∈ vs, IsRun v := fun v hv => hus v (hread.suffix.subset hv)
    rw [Alike, if_pos rfl, ← keepsAlike_iff hvs rfl]
    exact reopensAlike_iff hdate hus hread ending today
  | priority hpriority =>
    exact completesAlike_task hws (.priority hpriority) hread rfl rfl ending today
  | other _ hpriority =>
    have hnone : PriorityRead ws none ws := by
      cases ws with
      | nil => exact .nil
      | cons w ws => exact .other fun p => hpriority w ws p rfl
    exact completesAlike_task hws hnone hread rfl rfl ending today

/-- A completed line with a creation date and the tag its priority became. -/
theorem toggle_agrees_reopened :
    (apply (OwnedLine.ofText "x 2026-09-12 2026-09-01 call pri:A".toList .lf) (toggleEdit (Line.mk
        "x 2026-09-12 2026-09-01 call pri:A".toList (.task ⟨true, some ⟨2026, 9, 12, by decide⟩,
          some ⟨2026, 9, 1, by decide⟩, none, "call pri:A".toList⟩) Quirks.NONE .lf)
        ⟨2026, 9, 12, by decide⟩)).raw =
      some (toggleCompleteText "x 2026-09-12 2026-09-01 call pri:A".toList
        (Date.display ⟨2026, 9, 12, by decide⟩)) ↔
    ∀ t, (Line.mk "x 2026-09-12 2026-09-01 call pri:A".toList (.task ⟨true,
        some ⟨2026, 9, 12, by decide⟩, some ⟨2026, 9, 1, by decide⟩, none, "call pri:A".toList⟩)
        Quirks.NONE .lf).kind = .task t →
      Alike "x 2026-09-12 2026-09-01 call pri:A".toList t :=
  toggle_agrees_iff (by decide +kernel) .lf _

/-- The chip and the edit write different texts on a line the strict parser reads. -/
def ToggledApart (raw : List Char) (today : Date) : Prop :=
  ∃ l, parseLine raw .strict = .ok l ∧
    (apply (OwnedLine.ofText raw .lf) (toggleEdit l today)).raw ≠
      some (toggleCompleteText raw today.display)

/-- A `pri:` tag stays beside the priority's, a word `x` is marked again, a letter is taken off a word,
and a tag's first letter is no priority to the chip. -/
theorem toggle_disagrees :
    ToggledApart "(A) call pri:B".toList ⟨2026, 9, 12, by decide⟩ ∧
      ToggledApart "x marks".toList ⟨2026, 9, 12, by decide⟩ ∧
      ToggledApart "(A)call".toList ⟨2026, 9, 12, by decide⟩ ∧
      ToggledApart "x 2026-09-12 call pri:Abc".toList ⟨2026, 9, 12, by decide⟩ := by
  refine ⟨?_, ?_, ?_, ?_⟩
  · exact ⟨_, rfl, by decide +kernel⟩
  · exact ⟨_, rfl, by decide +kernel⟩
  · exact ⟨_, rfl, by decide +kernel⟩
  · exact ⟨_, rfl, by decide +kernel⟩

end Agree

end Txtodo.Chips
