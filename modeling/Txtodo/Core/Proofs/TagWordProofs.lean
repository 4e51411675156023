import Txtodo.Core.Proofs.WordSplitProofs

/-!
# Where a tag stands

The tag found in a description is its first word that is one, between separators. Removing the tag takes
that word out with one space beside it; setting it replaces the word, or adds one behind the others.
-/

namespace Txtodo

open Grammar

section Find
variable {key d pre w post : Text}

/-- The scan of chunks for a tag finds the first that is one. -/
theorem findTagIn_cases (key : Text) (pos : Nat) (cs : List Chunk) :
    Draft.findTagIn key pos cs = none ∧ (∀ c ∈ cs, c.isWs = false → hasKey key c.text = false) ∨
      ∃ before c after, cs = before ++ c :: after ∧ c.isWs = false ∧ hasKey key c.text = true ∧
        (∀ b ∈ before, b.isWs = false → hasKey key b.text = false) ∧
        Draft.findTagIn key pos cs =
          some (pos + (textOf before).length, pos + (textOf before).length + c.text.length) := by
  induction cs generalizing pos with
  | nil => exact .inl ⟨rfl, by simp⟩
  | cons c cs ih =>
    rw [findTagIn_cons]
    by_cases hc : c.isWs = false ∧ hasKey key c.text = true
    · rw [if_pos hc]
      exact .inr ⟨[], c, cs, rfl, hc.1, hc.2, by simp, rfl⟩
    · rw [if_neg hc]
      have hno : c.isWs = false → hasKey key c.text = false := fun hws =>
        Bool.eq_false_iff.2 fun htag => hc ⟨hws, htag⟩
      rcases ih (pos + c.text.length) with ⟨hnone, hall⟩ | ⟨before, k, after, rfl, hws, htag, hbefore, hsome⟩
      · exact .inl ⟨hnone, List.forall_mem_cons.2 ⟨hno, hall⟩⟩
      · refine .inr ⟨c :: before, k, after, rfl, hws, htag, List.forall_mem_cons.2 ⟨hno, hbefore⟩, ?_⟩
        rw [hsome, textOf_cons, List.length_append]
        simp only [Nat.add_assoc]

/-- A tag found is a word of the description. -/
theorem findTagIn_some {pos lo hi : Nat} {cs : List Chunk} (h : Draft.findTagIn key pos cs = some (lo, hi)) :
    ∃ before c after, cs = before ++ c :: after ∧ c.isWs = false ∧
      lo = pos + (textOf before).length ∧ hi = lo + c.text.length := by
  rcases findTagIn_cases key pos cs with ⟨hnone, -⟩ | ⟨before, c, after, hcs, hws, -, -, hsome⟩
  · rw [hnone] at h
    cases h
  · rw [hsome] at h
    obtain ⟨rfl, rfl⟩ := Prod.mk.inj (Option.some.inj h)
    exact ⟨before, c, after, hcs, hws, rfl, rfl⟩

/-- The first word of the text `d` that is a tag named `key` is `w`, between `pre` and `post`. -/
structure TagAt (key d pre w post : Text) : Prop where
  text : d = pre ++ (w ++ post)
  stands : Split.Stands isWs pre w post
  nonempty : w ≠ []
  tag : hasKey key w = true
  first : ∀ v ∈ splitWords pre, hasKey key v = false

theorem mem_splitWords_textOf {cs : List Chunk} (h : Alternating cs) {v : Text} :
    v ∈ splitWords (textOf cs) ↔ ∃ c ∈ cs, c.isWs = false ∧ c.text = v := by
  rw [← h.words, List.mem_map]
  simp only [List.mem_filter, Bool.not_eq_true', and_assoc]

/-- The words of a text in which a word stands in the place of another. -/
theorem splitWords_stands (h : Split.Stands isWs pre w post) {v : Text} (hv : IsRun v) :
    splitWords (pre ++ (v ++ post)) = splitWords pre ++ v :: splitWords post := by
  have hleft : Boundary pre (v ++ post) := by
    by_cases hpre : pre = []
    · exact .inl hpre
    · have hlast := List.getLast?_eq_some_getLast hpre
      have hws := Split.closed_iff.1 h.left _ hlast
      exact .inr (.inr (.inl (by rw [hlast, Option.any_some, hws])))
  have hright : Boundary v post := by
    cases hpost : post with
    | nil => exact .inr (.inl rfl)
    | cons c post =>
      have hc := h.right c (by rw [hpost]; rfl)
      exact .inr (.inr (.inr (by rw [List.head?_cons, Option.any_some, hc])))
  rw [splitWords_append hleft, splitWords_append hright, splitWords_run hv]
  rfl

/-- A tag is found where the first word that is one stands. -/
theorem findTag_cases (draft : Draft) (key : Text) :
    draft.findTag key = none ∧ (∀ w ∈ splitWords draft.description, hasKey key w = false) ∨
      ∃ pre w post, TagAt key draft.description pre w post ∧
        draft.findTag key = some (pre.length, pre.length + w.length) := by
  have halt := alternating_chunksFrom 0 draft.description
  have htext := textOf_chunksFrom 0 draft.description
  rw [Draft.findTag]
  rw [show chunksFrom 0 draft.description = chunks draft.description from rfl] at halt htext
  rcases findTagIn_cases key 0 (chunks draft.description) with
    ⟨hnone, hall⟩ | ⟨before, c, after, hcs, hws, htag, hfirst, hsome⟩
  · refine .inl ⟨hnone, fun w hw => ?_⟩
    rw [← htext, mem_splitWords_textOf halt] at hw
    obtain ⟨c, hc, hws, rfl⟩ := hw
    exact hall c hc hws
  · rw [hcs] at halt htext
    have hc := halt.uniform c (by simp)
    have hplain : ∀ x ∈ c.text, isWs x = false := fun x hx => (hc.same x hx).trans hws
    refine .inr ⟨textOf before, c.text, textOf after, ⟨?_, ⟨?_, hplain, ?_⟩, hc.nonempty, htag, ?_⟩, ?_⟩
    · rw [← htext, textOf_append, textOf_cons]
    · refine Split.closed_iff.2 fun x hx => ?_
      rcases (halt.around_word hws ['w']).1 with hnil | hnil | hlast | hhead
      · rw [hnil] at hx
        cases hx
      · cases hnil
      · rwa [Option.mem_def.1 hx, Option.any_some] at hlast
      · cases hhead
    · intro x hx
      rcases (halt.around_word hws ['w']).2 with hnil | hnil | hlast | hhead
      · cases hnil
      · rw [hnil] at hx
        cases hx
      · cases hlast
      · rwa [Option.mem_def.1 hx, Option.any_some] at hhead
    · intro v hv
      rw [mem_splitWords_textOf halt.of_append.1] at hv
      obtain ⟨b, hb, hws, rfl⟩ := hv
      exact hfirst b hb hws
    · rw [hsome, Nat.zero_add]

theorem TagAt.isRun (h : TagAt key d pre w post) : IsRun w := ⟨h.nonempty, h.stands.plain⟩

theorem TagAt.words (h : TagAt key d pre w post) : splitWords d = splitWords pre ++ w :: splitWords post := by
  rw [h.text, splitWords_stands h.stands h.isRun]

/-- The tag goes with the space before it, or the one after it where none stands before. -/
theorem TagAt.removeTag {draft : Draft} (h : TagAt key draft.description pre w post)
    (hsome : draft.findTag key = some (pre.length, pre.length + w.length)) :
    (draft.removeTag key).description =
      if pre.getLast? = some ' ' then pre.dropLast ++ post
      else if post.head? = some ' ' then pre ++ post.tail else pre ++ post := by
  have hbefore : (0 < pre.length ∧ draft.description[pre.length - 1]? = some ' ') ↔
      pre.getLast? = some ' ' := by
    rw [h.text, List.getLast?_eq_getElem?]
    by_cases hpre : pre = []
    · simp [hpre]
    · have hpos := List.length_pos_iff.2 hpre
      rw [List.getElem?_append_left (by omega)]
      exact and_iff_right hpos
  have hdrop : draft.description.drop (pre.length + w.length) = post := by
    rw [h.text, ← List.drop_drop, List.drop_left, List.drop_left]
  have hafter : draft.description[pre.length + w.length]? = some ' ' ↔ post.head? = some ' ' := by
    rw [← hdrop, List.head?_drop]
  rw [Draft.removeTag, hsome]
  dsimp only
  simp only [hbefore, hafter]
  split_ifs with hpre hpost
  · dsimp only
    rw [replaceRange, hdrop, h.text, List.append_nil, List.take_append_of_le_length (Nat.sub_le ..),
      ← List.dropLast_eq_take]
  · dsimp only
    rw [replaceRange, ← List.drop_drop, hdrop, h.text, List.append_nil, List.take_left, List.drop_one]
  · dsimp only
    rw [replaceRange, hdrop, h.text, List.append_nil, List.take_left]

/-- What is left is part of what stood on both sides. -/
theorem TagAt.removeTag_sublist {draft : Draft} (h : TagAt key draft.description pre w post)
    (hsome : draft.findTag key = some (pre.length, pre.length + w.length)) :
    (draft.removeTag key).description.Sublist (pre ++ post) := by
  rw [h.removeTag hsome]
  split_ifs
  · exact (List.dropLast_sublist pre).append_right post
  · exact (List.tail_sublist post).append_left pre
  · exact List.Sublist.refl _

end Find

/-! ## Setting a tag -/

/-- The first word that is a tag becomes `w`, which is added where there is none. -/
def setFirst (p : Text → Bool) (w : Text) : List Text → List Text
  | [] => [w]
  | v :: vs => if p v then w :: vs else v :: setFirst p w vs

section Set
variable {p : Text → Bool} {w v : Text} {us vs : List Text}

theorem setFirst_none (h : ∀ u ∈ us, p u = false) : setFirst p w us = us ++ [w] := by
  induction us with
  | nil => rfl
  | cons u us ih =>
    rw [List.forall_mem_cons] at h
    rw [setFirst, h.1, if_neg Bool.false_ne_true, ih h.2]
    rfl

theorem setFirst_some (h : ∀ u ∈ us, p u = false) (hv : p v = true) :
    setFirst p w (us ++ v :: vs) = us ++ w :: vs := by
  induction us with
  | nil => rw [List.nil_append, setFirst, if_pos hv]; rfl
  | cons u us ih =>
    rw [List.forall_mem_cons] at h
    rw [List.cons_append, setFirst, h.1, if_neg Bool.false_ne_true, ih h.2]
    rfl

/-- A tag is no word less in front. -/
theorem setFirst_ne_cons (hw : p w = true) (hv : p v = false) : setFirst p w vs ≠ v :: vs := by
  induction vs generalizing v with
  | nil =>
    intro h
    rw [(List.cons.inj h).1, hv] at hw
    cases hw
  | cons u vs ih =>
    rw [setFirst]
    split_ifs with hu
    · intro h
      have hlen := congrArg List.length h
      rw [List.length_cons, List.length_cons, List.length_cons] at hlen
      omega
    · intro h
      obtain ⟨rfl, hrest⟩ := List.cons.inj h
      exact ih hv hrest

/-- The words of a description once a tag is set. -/
theorem words_setTag (draft : Draft) {key value : Text} (hword : IsRun (key ++ [':'] ++ value)) :
    splitWords (draft.setTag key value).description =
      setFirst (hasKey key) (key ++ [':'] ++ value) (splitWords draft.description) := by
  rcases findTag_cases draft key with ⟨hnone, hall⟩ | ⟨pre, w, post, hat, hsome⟩
  · rw [Draft.setTag, hnone, setFirst_none hall]
    dsimp only [Draft.append]
    cases hd : draft.description with
    | nil => rw [splitWords_nil, List.nil_append, ← splitWords_run hword]; rfl
    | cons c d =>
      have hne : (key ++ [':'] ++ value).isEmpty = false := List.isEmpty_eq_false_iff.2 hword.1
      rw [hne, List.isEmpty_cons, Bool.not_false, Bool.and_self, if_pos rfl, List.append_assoc,
        List.singleton_append, splitWords_append_cons _ _ (show isWs ' ' = true from rfl),
        splitWords_run hword]
  · rw [Draft.setTag, hsome, hat.words, setFirst_some hat.first hat.tag]
    dsimp only
    rw [← splitWords_stands hat.stands hword, replaceRange, hat.text, List.take_left, ← List.drop_drop, List.drop_left,
      List.drop_left, List.append_assoc]

end Set

end Txtodo
