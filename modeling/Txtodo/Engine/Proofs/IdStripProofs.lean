import Txtodo.Core.Proofs.PutGetProofs
import Txtodo.Core.Proofs.TagWordProofs
import Txtodo.Engine.IdStrip
import Txtodo.Engine.Proofs.IdScanProofs
import Mathlib

/-!
# Two ways to strip an id

The cut and the edit both take the own word out with one space beside it. They part where the parser sees
another tag in front of the own word, and where the word is all of the description behind a prefix.
-/

namespace Txtodo

open Grammar

/-- The own `id:` word of a line: the first between ASCII whitespace, `pre` in front of it and `post`
behind. -/
structure OwnId (raw pre w post : Text) : Prop where
  text : raw = pre ++ (w ++ post)
  stands : Split.Stands isAsciiWhitespace pre w post
  word : isIdWord w = true
  first : (pre.splitOnP isAsciiWhitespace).any isIdWord = false

/-- What stands around a word that is cut without parsing: a space or nothing before it and a space behind,
or a space before it at the end of a line in which no prefix token ends there. -/
def PlainCut (pre post : Text) : Prop :=
  (pre = [] ∨ pre.getLast? = some ' ') ∧ post.head? = some ' ' ∨
    pre.getLast? = some ' ' ∧ post = [] ∧ afterPrefixToken pre.dropLast = false

/-- The line cut: the space behind the word goes with it, or the one before. -/
def cutText (pre post : Text) : Text := if post = [] then pre.dropLast else pre ++ post.tail

section Own
variable {raw pre w post : Text} {line : OwnedLine}

theorem strip_id_any (w : Text) : (stripPrefix "id:".toList w).any (!·.isEmpty) = isIdWord w := by
  rw [Bool.eq_iff_iff, isTagWord_iff, stripPrefix]
  split_ifs with hprefix
  · obtain ⟨v, rfl⟩ := hprefix
    rw [List.drop_left, Option.any_some, Bool.not_eq_true', List.isEmpty_eq_false_iff]
    constructor
    · exact fun hv => ⟨v, hv, rfl⟩
    · rintro ⟨u, hu, heq⟩
      obtain rfl : v = u := List.append_cancel_left heq
      exact hu
  · refine iff_of_false (by simp) ?_
    rintro ⟨v, -, rfl⟩
    exact hprefix ⟨v, rfl⟩

theorem ownIdWordIn_stands (h : Split.Stands isAsciiWhitespace pre w post) (hw : isIdWord w = true)
    (hfirst : (pre.splitOnP isAsciiWhitespace).any isIdWord = false) (pos : Nat) :
    ownIdWordIn pos ((pre ++ (w ++ post)).splitOnP isAsciiWhitespace) =
      some (pos + pre.length, pos + pre.length + w.length) := by
  have hleft := h.left
  induction hleft generalizing pos with
  | nil =>
    obtain ⟨vs, hvs⟩ := Split.exists_split_cons h.plain h.right
    rw [List.nil_append, hvs, ownIdWordIn, strip_id_any, if_pos hw]
    rfl
  | @more v rest c hv hc hrest ih =>
    rw [List.splitOnP_append_cons_of_forall_mem hv c hc, List.any_cons, Bool.or_eq_false_iff] at hfirst
    rw [List.append_assoc, List.cons_append, List.splitOnP_append_cons_of_forall_mem hv c hc, ownIdWordIn,
      strip_id_any, hfirst.1, if_neg Bool.false_ne_true, ih ⟨hrest, h.plain, h.right⟩ hfirst.2]
    simp only [List.length_append, List.length_cons, Option.some.injEq, Prod.mk.injEq]
    omega

theorem OwnId.span (h : OwnId raw pre w post) : ownIdWord raw = some (pre.length, pre.length + w.length) := by
  rw [ownIdWord, h.text, ownIdWordIn_stands h.stands h.word h.first, Nat.zero_add]

/-- A line with an id has the word it is read from. -/
theorem exists_ownId {id : TaskId} (h : fastIdOf line = some id) :
    ∃ raw pre w post, line.raw = some raw ∧ OwnId raw pre w post := by
  rw [fastIdOf] at h
  obtain ⟨raw, hraw, h⟩ := Option.bind_eq_some_iff.1 h
  obtain ⟨value, hvalue, -⟩ := Option.bind_eq_some_iff.1 h
  rw [idValue_eq] at hvalue
  obtain ⟨w, hw, -⟩ := Option.map_eq_some_iff.1 hvalue
  obtain ⟨pre, post, htext, hstands, hfirst⟩ := Split.exists_stands (p := isIdWord) rfl hw
  exact ⟨raw, pre, w, post, hraw, htext, hstands, List.find?_some hw, hfirst⟩

theorem OwnId.unique {pre' w' post' : Text} (h : OwnId raw pre w post) (h' : OwnId raw pre' w' post') :
    pre = pre' ∧ w = w' ∧ post = post' :=
  h.stands.unique h'.stands h.word h'.word h.first h'.first (h.text.symm.trans h'.text)

/-- What the cut decides by: the characters beside the word. -/
theorem OwnId.beside (h : OwnId raw pre w post) :
    (if pre.length = 0 then none else raw[pre.length - 1]?) = pre.getLast? ∧
      raw[pre.length + w.length]? = post.head? := by
  have hdrop : raw.drop (pre.length + w.length) = post := by
    rw [h.text, ← List.drop_drop, List.drop_left, List.drop_left]
  refine ⟨?_, by rw [← hdrop, List.head?_drop]⟩
  by_cases hpre : pre = []
  · simp [hpre]
  · have hpos := List.length_pos_iff.2 hpre
    rw [if_neg (by omega), h.text, List.getElem?_append_left (by omega), List.getLast?_eq_getElem?]

theorem withoutOwnId_eq {id : TaskId} (hraw : line.raw = some raw) (hid : fastIdOf line = some id)
    (h : OwnId raw pre w post) : withoutOwnId line =
      match ownIdCut raw pre.length (pre.length + w.length) with
      | none => (stripOwnId line).map fun stripped => stripped.2.bytes
      | some (lo, hi) => some (Utf8.encode (raw.take lo) ++ Utf8.encode (raw.drop hi)) := by
  rw [withoutOwnId, hid, hraw]
  change (ownIdWord raw).bind _ = _
  rw [h.span]
  rfl

/-- Where the cut is plain it leaves the line cut. -/
theorem OwnId.cut (h : OwnId raw pre w post) (hplain : PlainCut pre post) :
    ∃ lo hi, ownIdCut raw pre.length (pre.length + w.length) = some (lo, hi) ∧
      raw.take lo ++ raw.drop hi = cutText pre post := by
  have htake : raw.take pre.length = pre := by rw [h.text, List.take_left]
  have hinit : raw.take (pre.length - 1) = pre.dropLast := by
    rw [h.text, List.take_append_of_le_length (Nat.sub_le ..), List.dropLast_eq_take]
  have hdrop : raw.drop (pre.length + w.length) = post := by
    rw [h.text, ← List.drop_drop, List.drop_left, List.drop_left]
  rw [ownIdCut, h.beside.1, h.beside.2]
  rcases hplain with ⟨hpre, hpost⟩ | ⟨hpre, rfl, htoken⟩
  · refine ⟨pre.length, pre.length + w.length + 1, ?_, ?_⟩
    · rcases hpre with rfl | hpre
      · rw [hpost]
        rfl
      · rw [hpre, hpost]
        rfl
    · have hne : post ≠ [] := by
        rintro rfl
        cases hpost
      rw [htake, ← List.drop_drop, hdrop, List.drop_one, cutText, if_neg hne]
  · refine ⟨pre.length - 1, pre.length + w.length, ?_, ?_⟩
    · rw [hpre, hinit, htoken]
      rfl
    · rw [hinit, hdrop, cutText, if_pos rfl, List.append_nil]

/-- Elsewhere the line is parsed. -/
theorem OwnId.no_cut (h : OwnId raw pre w post) (hplain : ¬PlainCut pre post) :
    ownIdCut raw pre.length (pre.length + w.length) = none := by
  have hinit : raw.take (pre.length - 1) = pre.dropLast := by
    rw [h.text, List.take_append_of_le_length (Nat.sub_le ..), List.dropLast_eq_take]
  rw [ownIdCut, h.beside.1, h.beside.2, hinit]
  split
  · next hpre hpost => exact absurd (.inl ⟨.inl (List.getLast?_eq_none_iff.1 hpre), hpost⟩) hplain
  · next hpre hpost => exact absurd (.inl ⟨.inr hpre, hpost⟩) hplain
  · next hpre hpost =>
    rw [List.head?_eq_none_iff] at hpost
    cases htoken : afterPrefixToken pre.dropLast with
    | true => rfl
    | false => exact absurd (.inr ⟨hpre, hpost, htoken⟩) hplain
  · rfl

end Own

/-! ## Prefix tokens -/

section Token
variable {head last w s : Text} {place q : Place} {pre r : Prefix}

/-- A word of a prefix. -/
inductive PrefixWord : Text → Prop where
  | mark : PrefixWord ['x']
  | priority (p : Priority) : PrefixWord (letterWord p)
  | date (d : Date) : PrefixWord d.display

theorem Place.take_prefixWord {x : Place × Prefix} (h : place.take pre w = some x) : PrefixWord w := by
  rcases Place.take_cases h with rfl | hp | hd
  · exact .mark
  · obtain ⟨p, hp⟩ := Option.isSome_iff_exists.1 hp
    rw [priorityOf_some_iff.1 hp]
    exact .priority p
  · obtain ⟨d, hd⟩ := Option.isSome_iff_exists.1 hd
    rw [parse_some_iff.1 hd]
    exact .date d

theorem digit_ascii (n : Nat) : (digit n).toNat < 0x80 ∧ isAsciiWhitespace (digit n) = false := by
  have hall : ∀ d : Fin 10, (digit d.val).toNat < 0x80 ∧ isAsciiWhitespace (digit d.val) = false := by decide
  rw [digit_congr (Nat.mod_mod n 10).symm]
  exact hall ⟨n % 10, Nat.mod_lt n (by omega)⟩

theorem letter_cases (p : Priority) : ∃ n : Fin 26, p.letter = Char.ofNat (65 + n) := by
  have hrange : 65 ≤ p.letter.toNat ∧ p.letter.toNat ≤ 90 := by
    simpa [Char.isUpper, UInt32.le_iff_toNat_le] using p.upper
  exact ⟨⟨p.letter.toNat - 65, by omega⟩, by rw [Nat.add_sub_cancel' hrange.1, Char.ofNat_toNat]⟩

theorem PrefixWord.plain (h : PrefixWord w) : ∀ c ∈ w, isAsciiWhitespace c = false := by
  cases h with
  | mark =>
    intro c hc
    rw [List.mem_singleton.1 hc]
    rfl
  | priority p =>
    obtain ⟨n, hn⟩ := letter_cases p
    have hall : ∀ n : Fin 26, isAsciiWhitespace (Char.ofNat (65 + n)) = false := by decide
    have hbrackets : isAsciiWhitespace '(' = false ∧ isAsciiWhitespace ')' = false := by decide
    rw [letterWord, hn]
    simp [hall n, hbrackets]
  | date d =>
    have hdash : isAsciiWhitespace '-' = false := by decide
    simp [Date.display, digit_ascii, hdash]

/-- A line that ends with a word of a prefix ends with a prefix token. -/
theorem PrefixWord.token (hw : PrefixWord w) (h : (head.splitOnP isAsciiWhitespace).getLast? = some w) :
    afterPrefixToken head = true := by
  rw [afterPrefixToken, h]
  cases hw with
  | mark => rfl
  | priority p =>
    obtain ⟨n, hn⟩ := letter_cases p
    have hall : ∀ n : Fin 26, (Utf8.encode ['(', Char.ofNat (65 + n), ')'])[1]?.any
        (fun p => 65 ≤ p && p ≤ 90) = true ∧ Utf8.encode ['(', Char.ofNat (65 + n), ')'] =
          [40, UInt8.ofNat (65 + n), 41] := by decide
    rw [letterWord, hn]
    dsimp only
    rw [(hall n).1, (hall n).2]
    simp
  | date d =>
    have hascii : ∀ c ∈ d.display, c.toNat < 0x80 := by
      simp [Date.display, digit_ascii]
    dsimp only
    rw [Utf8.encode_of_ascii hascii]
    simp [Date.display]

theorem getLast?_splitOnP (a b : Text) {c : Char} (hc : isAsciiWhitespace c = true) :
    ((a ++ c :: b).splitOnP isAsciiWhitespace).getLast? = (b.splitOnP isAsciiWhitespace).getLast? := by
  rw [List.splitOnP_append_cons _ _ hc, List.getLast?_append_of_ne_nil _ (List.splitOnP_ne_nil _ _)]

theorem afterPrefixToken_append (a b : Text) {c : Char} (hc : isAsciiWhitespace c = true) :
    afterPrefixToken (a ++ c :: b) = afterPrefixToken b := by
  rw [afterPrefixToken, afterPrefixToken, getLast?_splitOnP a b hc]

/-- In front of the space that ends a prefix a prefix token ends. -/
theorem Path.prefixToken (h : Path place pre s q r) (hlast : s.getLast? = some ' ') :
    afterPrefixToken s.dropLast = true := by
  induction h with
  | nil => cases hlast
  | @word place place' q pre pre' r w sep s hw htake hsep hne h ih =>
    have hword := Place.take_prefixWord htake
    rcases List.eq_nil_or_concat' sep with rfl | ⟨sep, c, rfl⟩
    · obtain rfl : s = [] := not_not.1 fun hs => hne hs rfl
      rw [List.append_nil, List.append_nil] at hlast
      have hws := hw.2 ' ' (List.mem_of_getLast? hlast)
      cases hws
    · have hc : isAsciiWhitespace c = true := isAsciiWhitespace_of_isWs (hsep c (by simp))
      by_cases hs : s = []
      · subst hs
        have hdrop : (w ++ (sep ++ [c] ++ [])).dropLast = w ++ sep := by
          rw [List.append_nil, ← List.append_assoc, List.dropLast_concat]
        rw [hdrop]
        rcases List.eq_nil_or_concat' sep with rfl | ⟨sep, c', rfl⟩
        · refine hword.token ?_
          rw [List.append_nil, List.splitOnP_eq_singleton hword.plain]
          rfl
        · have hc' : isAsciiWhitespace c' = true := isAsciiWhitespace_of_isWs (hsep c' (by simp))
          rw [← List.append_assoc, afterPrefixToken_append _ _ hc']
          rfl
      · have hdrop : (w ++ (sep ++ [c] ++ s)).dropLast = w ++ sep ++ c :: s.dropLast := by
          rw [List.dropLast_append_of_ne_nil (by simp), List.dropLast_append_of_ne_nil hs]
          simp
        rw [hdrop, afterPrefixToken_append _ _ hc]
        refine ih ?_
        rwa [List.getLast?_append_of_ne_nil _ (by simp), List.getLast?_append_of_ne_nil _ hs] at hlast

end Token

/-! ## The edited line -/

section Edit
variable {raw front pre w post : Text} {line : OwnedLine} {q : Place}

/-- A line whose tag is removed is its prefix and what is left of the description, or the prefix without its
last separator where nothing is left. -/
theorem apply_removeTag_raw (hraw : line.raw = some raw) (hread : ReadAs raw q front (draftOf raw))
    {key : Text} (hat : TagAt key (draftOf raw).description pre w post)
    (hsome : (draftOf raw).findTag key = some (pre.length, pre.length + w.length)) :
    (apply line ⟨[.removeTag key]⟩).raw = some (
      if ((draftOf raw).removeTag key).description = [] then trimEndWs front
      else front ++ ((draftOf raw).removeTag key).description) := by
  have hpre : ((draftOf raw).removeTag key).pre = (draftOf raw).pre := (removeTag_spec _ _).1
  have hrewrites : (⟨[.removeTag key]⟩ : Edit).rewrites raw = false := decide_eq_false (not_not.2 hpre)
  have hdraft : (⟨[.removeTag key]⟩ : Edit).draft raw = (draftOf raw).removeTag key := by
    rw [Edit.draft, hrewrites, Draft.movePriority_false]
    rfl
  have hne : (draftOf raw).description ≠ [] := by
    rw [hat.text]
    intro hnil
    exact hat.nonempty (List.append_eq_nil_iff.1 (List.append_eq_nil_iff.1 hnil).2).1
  have hchanged : ((draftOf raw).removeTag key).description ≠ (draftOf raw).description := by
    intro hsame
    have hlen := (hat.removeTag_sublist hsome).length_le
    have hpos := List.length_pos_iff.2 hat.nonempty
    rw [hsame, hat.text] at hlen
    simp only [List.length_append] at hlen
    omega
  have hgap : front = [] ∨ front.getLast?.any isWs = true := by
    rcases hread.apart with hnil | hnil | ⟨hlast, -⟩
    · exact .inl hnil
    · exact absurd hnil hne
    · exact .inr hlast
  rw [apply_raw hraw, hdraft, if_neg fun h => hchanged h.2, Edit.front, hrewrites, hdraft,
    hread.take_descriptionStart, if_neg Bool.false_ne_true]
  congr 1
  by_cases hnil : ((draftOf raw).removeTag key).description = []
  · rw [if_pos hnil, hnil, List.append_nil, if_pos (by rfl)]
  · have hempty : ((draftOf raw).removeTag key).description.isEmpty = false := by simpa using hnil
    rw [if_neg hnil, hempty, if_neg Bool.false_ne_true, if_neg]
    rcases hgap with rfl | hlast
    · simp
    · simp [hlast]

theorem removeTag_id_ok : Edit.new.removeTag "id".toList = .ok ⟨[.removeTag "id".toList]⟩ := rfl

/-- The line stripped by the edit. -/
theorem stripOwnId_eq {id : TaskId} (hid : fastIdOf line = some id) :
    stripOwnId line = some (id, apply line ⟨[.removeTag "id".toList]⟩) := by
  rw [stripOwnId, hid, removeTag_id_ok]
  rfl

/-- The parser's first tag, seen from the start of the line. -/
structure TagInLine (raw front dpre u dpost : Text) : Prop where
  tag : TagAt "id".toList (draftOf raw).description dpre u dpost
  found : (draftOf raw).findTag "id".toList = some (dpre.length, dpre.length + u.length)
  stands : Split.Stands isWs (front ++ dpre) u dpost
  first : ((front ++ dpre).splitOnP isWs).any isIdWord = false
  gap : front = [] ∨ front.getLast?.any isWs = true

theorem any_splitOnP_iff (s : Text) :
    (s.splitOnP isWs).any isIdWord = false ↔ ∀ v ∈ splitWords s, isIdWord v = false := by
  simp only [splitWords, List.mem_filter, Bool.not_eq_true', List.isEmpty_eq_false_iff, and_imp,
    List.any_eq_false, Bool.not_eq_true]
  refine ⟨fun h v hv _ => h v hv, fun h v hv => ?_⟩
  by_cases hnil : v = []
  · rw [hnil]
    rfl
  · exact h v hv hnil

/-- A word cut without parsing stands between spaces and tabs too. -/
theorem OwnId.standsWs (h : OwnId raw pre w post) (hplain : PlainCut pre post) :
    Split.Stands isWs pre w post := by
  refine ⟨Split.closed_iff.2 fun c hc => ?_, fun c hc => ?_, fun c hc => ?_⟩
  · rcases hplain with ⟨rfl | hpre, -⟩ | ⟨hpre, -⟩
    · cases hc
    · obtain rfl : ' ' = c := Option.some.inj (hpre.symm.trans hc)
      rfl
    · obtain rfl : ' ' = c := Option.some.inj (hpre.symm.trans hc)
      rfl
  · by_contra hws
    rw [Bool.not_eq_false] at hws
    have hplain := h.stands.plain c hc
    rw [isAsciiWhitespace_of_isWs hws] at hplain
    cases hplain
  · rcases hplain with ⟨-, hpost⟩ | ⟨-, rfl, -⟩
    · obtain rfl : ' ' = c := Option.some.inj (hpost.symm.trans hc)
      rfl
    · cases hc

/-- A line with a word that is cut without parsing has a tag. -/
theorem exists_tagInLine (hread : ReadAs raw q front (draftOf raw)) (h : OwnId raw pre w post)
    (hplain : PlainCut pre post) : ∃ dpre u dpost, TagInLine raw front dpre u dpost := by
  have hwords : splitWords raw = splitWords front ++ splitWords (draftOf raw).description := by
    conv_lhs => rw [hread.text, splitWords_append hread.apart.boundary]
  have hfront : ∀ v ∈ splitWords front, isIdWord v = false :=
    hread.path.forall_words Place.take_not_idWord
  have hkey : ∀ v, hasKey "id".toList v = isIdWord v := ordinaryKey_id.hasKey_eq
  rcases findTag_cases (draftOf raw) "id".toList with ⟨-, hall⟩ | ⟨dpre, u, dpost, htag, hfound⟩
  · have hrun : IsRun w := by
      refine ⟨?_, (h.standsWs hplain).plain⟩
      rintro rfl
      cases h.word
    have hmem : w ∈ splitWords raw := by
      rw [h.text, splitWords_stands (h.standsWs hplain) hrun]
      exact List.mem_append_right _ (List.mem_cons_self ..)
    have hno : isIdWord w = false := by
      rw [hwords] at hmem
      rcases List.mem_append.1 hmem with hmem | hmem
      · exact hfront w hmem
      · rw [← hkey]
        exact hall w hmem
    rw [h.word] at hno
    cases hno
  · have hne : (draftOf raw).description ≠ [] := by
      rw [htag.text]
      intro hnil
      exact htag.nonempty (List.append_eq_nil_iff.1 (List.append_eq_nil_iff.1 hnil).2).1
    have hgap : front = [] ∨ front.getLast?.any isWs = true := by
      rcases hread.apart with hnil | hnil | ⟨hlast, -⟩
      · exact .inl hnil
      · exact absurd hnil hne
      · exact .inr hlast
    have hboundary : Boundary front dpre := by
      rcases hgap with hnil | hlast
      · exact .inl hnil
      · exact .inr (.inr (.inl hlast))
    refine ⟨dpre, u, dpost, htag, hfound, ⟨?_, htag.stands.plain, htag.stands.right⟩, ?_, hgap⟩
    · refine Split.closed_iff.2 fun c hc => ?_
      by_cases hnil : dpre = []
      · rw [hnil, List.append_nil] at hc
        rcases hgap with rfl | hlast
        · cases hc
        · rwa [Option.mem_def.1 hc, Option.any_some] at hlast
      · rw [List.getLast?_append_of_ne_nil _ hnil] at hc
        exact Split.closed_iff.1 htag.stands.left c hc
    · rw [any_splitOnP_iff, splitWords_append hboundary]
      intro v hv
      rcases List.mem_append.1 hv with hv | hv
      · exact hfront v hv
      · rw [← hkey]
        exact htag.first v hv

/-- The text the edit leaves, `front` being the prefix. -/
def editText (raw front : Text) : Text :=
  if ((draftOf raw).removeTag "id".toList).description = [] then trimEndWs front
  else front ++ ((draftOf raw).removeTag "id".toList).description

theorem trimEndWs_length_le (s : Text) : (trimEndWs s).length ≤ s.length := by
  rw [trimEndWs, List.length_reverse]
  exact (List.length_dropWhile_le _ _).trans (List.length_reverse ..).le

theorem trimEndWs_ne {s : Text} (h : s.getLast? = some ' ') : trimEndWs s ≠ s := by
  intro hsame
  obtain ⟨a, rfl⟩ := List.getLast?_eq_some_iff.1 h
  have hlen := trimEndWs_length_le a
  rw [← trimEndWs_append_ws (s := a) (List.forall_mem_singleton.2 (rfl : isWs ' ' = true)), hsame] at hlen
  simp at hlen

/-- Where the own word is the parser's tag, the cut and the edit leave the same unless the word and a space
are all of a description behind a prefix. -/
theorem TagInLine.cut_eq_iff {dpre dpost : Text} (h : TagInLine raw front dpre w dpost)
    (hread : ReadAs raw q front (draftOf raw)) (hplain : PlainCut (front ++ dpre) dpost) :
    cutText (front ++ dpre) dpost = editText raw front ↔
      ¬(front ++ dpre ≠ [] ∧ dpost = [' '] ∧ (draftOf raw).description = w ++ [' ']) := by
  have hremoved := h.tag.removeTag h.found
  by_cases hdpre : dpre = []
  · subst hdpre
    rw [List.append_nil] at hplain ⊢
    have hdescription : (draftOf raw).description = w ++ dpost := h.tag.text
    rcases hplain with ⟨hfront, hpost⟩ | ⟨hfront, rfl, htoken⟩
    · obtain ⟨t, rfl⟩ : ∃ t, dpost = ' ' :: t := ⟨_, (List.cons_head?_tail hpost).symm⟩
      rw [if_neg (by simp), if_pos hpost, List.nil_append, List.tail_cons] at hremoved
      rw [cutText, if_neg (List.cons_ne_nil _ _), List.tail_cons, editText, hremoved, hdescription]
      by_cases ht : t = []
      · subst ht
        rw [if_pos rfl, List.append_nil]
        rcases hfront with rfl | hfront
        · exact iff_of_true rfl fun hne => hne.1 rfl
        · refine iff_of_false (fun heq => trimEndWs_ne hfront heq.symm) (not_not.2 ⟨?_, rfl, rfl⟩)
          rintro rfl
          cases hfront
      · rw [if_neg ht]
        exact iff_of_true rfl fun hne => ht (List.cons.inj hne.2.1).2
    · rw [hread.path.prefixToken hfront] at htoken
      cases htoken
  · have hlast : dpre.getLast? = some ' ' := by
      have hpre : (front ++ dpre).getLast? = dpre.getLast? := List.getLast?_append_of_ne_nil _ hdpre
      rw [← hpre]
      rcases hplain with ⟨hnil | hlast, -⟩ | ⟨hlast, -⟩
      · exact absurd (List.append_eq_nil_iff.1 hnil).2 hdpre
      · exact hlast
      · exact hlast
    obtain ⟨a, rfl⟩ := List.getLast?_eq_some_iff.1 hlast
    rw [if_pos hlast, List.dropLast_concat] at hremoved
    refine iff_of_true ?_ fun hne => ?_
    · rw [editText, hremoved]
      rcases hplain with ⟨-, hpost⟩ | ⟨-, rfl, -⟩
      · obtain ⟨t, rfl⟩ : ∃ t, dpost = ' ' :: t := ⟨_, (List.cons_head?_tail hpost).symm⟩
        rw [cutText, if_neg (List.cons_ne_nil _ _), if_neg (by simp)]
        simp
      · rw [cutText, if_pos rfl, List.append_nil, ← List.append_assoc, List.dropLast_concat]
        split_ifs with ha
        · -- A description starts with a space only where it is the line.
          have hfront : front = [] := by
            rcases hread.apart with hnil | hnil | ⟨-, hhead⟩
            · exact hnil
            · exact absurd (List.append_eq_nil_iff.1 (h.tag.text.symm.trans hnil)).1 hdpre
            · rw [h.tag.text, ha] at hhead
              cases hhead
          rw [ha, hfront]
          rfl
        · rfl
    · have hlen := congrArg List.length (h.tag.text.symm.trans hne.2.2)
      rw [hne.2.1] at hlen
      simp only [List.length_append, List.length_singleton] at hlen
      omega

/-- Whitespace that separates words for the scan and not for the parser. -/
def odd (c : Char) : Bool := isAsciiWhitespace c && !isWs c

theorem countP_odd_eq_zero {s : Text} (h : ∀ c ∈ s, isAsciiWhitespace c = false) : s.countP odd = 0 := by
  rw [List.countP_eq_zero]
  intro c hc
  rw [odd, h c hc, Bool.false_and]
  exact Bool.false_ne_true

/-- The cut leaves every such character. -/
theorem OwnId.countP_cut (h : OwnId raw pre w post) (hplain : PlainCut pre post) :
    (cutText pre post).countP odd = raw.countP odd := by
  have hw := countP_odd_eq_zero h.stands.plain
  rw [h.text, List.countP_append, List.countP_append, hw, Nat.zero_add, cutText]
  rcases hplain with ⟨-, hpost⟩ | ⟨hpre, rfl, -⟩
  · obtain ⟨t, rfl⟩ : ∃ t, post = ' ' :: t := ⟨_, (List.cons_head?_tail hpost).symm⟩
    rw [if_neg (List.cons_ne_nil _ _), List.tail_cons, List.countP_append, List.countP_cons_of_neg (by decide)]
  · obtain ⟨a, rfl⟩ := List.getLast?_eq_some_iff.1 hpre
    rw [if_pos rfl, List.dropLast_concat, List.countP_append, List.countP_singleton]
    rfl

/-- The edit leaves none of those in the tag. -/
theorem TagInLine.countP_edit {dpre u dpost : Text} (h : TagInLine raw front dpre u dpost)
    (hread : ReadAs raw q front (draftOf raw)) :
    (editText raw front).countP odd + u.countP odd ≤ raw.countP odd := by
  have hsub : ((draftOf raw).removeTag "id".toList).description.countP odd ≤ (dpre ++ dpost).countP odd :=
    (h.tag.removeTag_sublist h.found).countP_le
  have htrim : (trimEndWs front).countP odd ≤ front.countP odd := by
    rw [trimEndWs, List.countP_reverse]
    exact (List.dropWhile_sublist _).countP_le.trans List.countP_reverse.le
  have hraw : raw.countP odd = front.countP odd + (dpre.countP odd + (u.countP odd + dpost.countP odd)) := by
    conv_lhs => rw [hread.text, h.tag.text]
    rw [List.countP_append, List.countP_append, List.countP_append]
  rw [List.countP_append] at hsub
  rw [editText]
  split_ifs
  · omega
  · rw [List.countP_append]
    omega

/-- A tag the parser sees in front of the own word holds such a character. -/
theorem TagInLine.odd_of_shadow {dpre u dpost : Text} (h : TagInLine raw front dpre u dpost)
    (hread : ReadAs raw q front (draftOf raw)) (hown : OwnId raw pre w post) (hplain : PlainCut pre post)
    (hshadow : ∃ v ∈ splitWords pre, isIdWord v = true) : 0 < u.countP odd := by
  obtain ⟨v, hv, hid⟩ := hshadow
  obtain ⟨hmem, -⟩ := List.mem_filter.1 hv
  obtain ⟨x, hx⟩ := Option.isSome_iff_exists.1 (List.find?_isSome.2 ⟨v, hmem, hid⟩)
  obtain ⟨a, b, rfl, hstands, hfirst⟩ := Split.exists_stands rfl hx
  have hxid : isIdWord x = true := List.find?_some hx
  have hne : x ≠ [] := by
    rintro rfl
    cases hxid
  have hlast : (a ++ (x ++ b)).getLast? = some ' ' := by
    rcases hplain with ⟨hnil | hlast, -⟩ | ⟨hlast, -⟩
    · exact absurd (List.append_eq_nil_iff.1 (List.append_eq_nil_iff.1 hnil).2).1 hne
    · exact hlast
    · exact hlast
  have hb : b ≠ [] := by
    rintro rfl
    rw [List.append_nil, List.getLast?_append_of_ne_nil _ hne] at hlast
    have hspace := hstands.plain ' ' (List.mem_of_getLast? hlast)
    cases hspace
  have hfull : Split.Stands isWs a x (b ++ (w ++ post)) := by
    refine ⟨hstands.left, hstands.plain, ?_⟩
    rw [List.head?_append_of_ne_nil _ hb]
    exact hstands.right
  have htag : isIdWord u = true := by
    rw [isIdWord, ← ordinaryKey_id.hasKey_eq]
    exact h.tag.tag
  have htext : front ++ dpre ++ (u ++ dpost) = a ++ (x ++ (b ++ (w ++ post))) := by
    rw [List.append_assoc, ← h.tag.text, ← hread.text, hown.text]
    simp only [List.append_assoc]
  obtain ⟨-, rfl, -⟩ := h.stands.unique hfull htag hxid h.first hfirst htext
  by_contra hzero
  have hplain : ∀ c ∈ u, isAsciiWhitespace c = false := by
    intro c hc
    have hodd := List.countP_eq_zero.1 (Nat.eq_zero_of_not_pos hzero) c hc
    rw [odd, hstands.plain c hc, Bool.not_false, Bool.and_true, Bool.not_eq_true] at hodd
    exact hodd
  have hmem : u ∈ (a ++ (u ++ b)).splitOnP isAsciiWhitespace := by
    refine Split.Stands.mem ⟨?_, hplain, fun c hc => isAsciiWhitespace_of_isWs (hstands.right c hc)⟩
    exact Split.closed_iff.2 fun c hc => isAsciiWhitespace_of_isWs (Split.closed_iff.1 hstands.left c hc)
  exact Bool.false_ne_true (hown.first.symm.trans (List.any_eq_true.2 ⟨u, hmem, hxid⟩))

end Edit

/-! ## The cut and the edit -/

/-- The two ways to strip a line give the same bytes, or nothing. -/
def StripsAlike (line : OwnedLine) : Prop :=
  withoutOwnId line = (stripOwnId line).map fun stripped => stripped.2.bytes

/-- No word in front of the own one is an `id:` tag to the parser, and the own word and a space are not all
of a description behind a prefix. -/
def CutsAlike (raw pre w post : Text) : Prop :=
  (∀ v ∈ splitWords pre, isIdWord v = false) ∧
    ¬(pre ≠ [] ∧ post = [' '] ∧ (draftOf raw).description = w ++ [' '])

section Strip
variable {raw pre w post : Text} {line : OwnedLine}

/-- Where the cut is plain, it leaves what the edit leaves. -/
theorem stripsAlike_plain {id : TaskId} (hraw : line.raw = some raw) (hid : fastIdOf line = some id)
    (hown : OwnId raw pre w post) (hplain : PlainCut pre post) :
    StripsAlike line ↔ CutsAlike raw pre w post := by
  obtain ⟨q, front, hread⟩ := draftOf_readAs raw
  obtain ⟨dpre, u, dpost, htag⟩ := exists_tagInLine hread hown hplain
  obtain ⟨lo, hi, hcut, htext⟩ := hown.cut hplain
  have hbytes : (apply line ⟨[.removeTag "id".toList]⟩).bytes = Utf8.encode (editText raw front) :=
    (Utf8.encode_of_decode (apply_removeTag_raw hraw hread htag.tag htag.found)).symm
  have hsame : StripsAlike line ↔ cutText pre post = editText raw front := by
    rw [StripsAlike, withoutOwnId_eq hraw hid hown, hcut, stripOwnId_eq hid]
    dsimp only [Option.map_some]
    rw [← Utf8.encode_append, htext, hbytes, Option.some_inj, Utf8.encode_injective.eq_iff]
  rw [hsame, CutsAlike]
  by_cases hshadow : ∀ v ∈ splitWords pre, isIdWord v = false
  · have hid : isIdWord u = true := by
      rw [isIdWord, ← ordinaryKey_id.hasKey_eq]
      exact htag.tag.tag
    have hline : pre ++ (w ++ post) = front ++ dpre ++ (u ++ dpost) := by
      rw [List.append_assoc, ← htag.tag.text, ← hread.text, hown.text]
    obtain ⟨rfl, rfl, rfl⟩ := (hown.standsWs hplain).unique htag.stands hown.word hid
      ((any_splitOnP_iff pre).2 hshadow) htag.first hline
    rw [htag.cut_eq_iff hread hplain]
    exact (and_iff_right hshadow).symm
  · refine iff_of_false (fun heq => ?_) fun h => hshadow h.1
    have hword : ∃ v ∈ splitWords pre, isIdWord v = true := by simpa using hshadow
    have hodd := htag.odd_of_shadow hread hown hplain hword
    have hcount := htag.countP_edit hread
    rw [← heq, hown.countP_cut hplain] at hcount
    omega

/-- Neither way strips a line the other leaves. -/
theorem withoutOwnId_isSome (line : OwnedLine) : (withoutOwnId line).isSome = (stripOwnId line).isSome := by
  cases hid : fastIdOf line with
  | none =>
    rw [withoutOwnId, stripOwnId, hid]
    rfl
  | some id =>
    obtain ⟨raw, pre, w, post, hraw, hown⟩ := exists_ownId hid
    rw [withoutOwnId_eq hraw hid hown, stripOwnId_eq hid]
    cases ownIdCut raw pre.length (pre.length + w.length) with
    | none => rfl
    | some cut => rfl

/-- The two ways to strip a line's id agree exactly where the cut is not plain, or cuts alike. -/
theorem stripsAlike_iff (line : OwnedLine) : StripsAlike line ↔
    ∀ raw pre w post, line.raw = some raw → (fastIdOf line).isSome = true → OwnId raw pre w post →
      PlainCut pre post → CutsAlike raw pre w post := by
  cases hid : fastIdOf line with
  | none =>
    refine iff_of_true ?_ fun raw pre w post _ hsome => by cases hsome
    rw [StripsAlike, withoutOwnId, stripOwnId, hid]
    rfl
  | some id =>
    obtain ⟨raw, pre, w, post, hraw, hown⟩ := exists_ownId hid
    by_cases hplain : PlainCut pre post
    · rw [stripsAlike_plain hraw hid hown hplain]
      constructor
      · intro h raw' pre' w' post' hraw' _ hown' _
        obtain rfl : raw = raw' := Option.some.inj (hraw.symm.trans hraw')
        obtain ⟨rfl, rfl, rfl⟩ := hown.unique hown'
        exact h
      · exact fun h => h raw pre w post hraw rfl hown hplain
    · refine iff_of_true ?_ fun raw' pre' w' post' hraw' _ hown' hplain' => ?_
      · rw [StripsAlike, withoutOwnId_eq hraw hid hown, hown.no_cut hplain]
      · obtain rfl : raw = raw' := Option.some.inj (hraw.symm.trans hraw')
        obtain ⟨rfl, -, rfl⟩ := hown.unique hown'
        exact absurd hplain' hplain

/-- Behind a prefix the cut leaves a space the edit trims, and a form feed right behind `id:` hides a tag from
the scan. -/
theorem not_stripsAlike :
    ¬StripsAlike (OwnedLine.ofText "(A) id:01ARZ3NDEKTSV4RRFFQ69G5FAV ".toList .lf) ∧
      ¬StripsAlike (OwnedLine.ofText "id:\x0ccall id:01ARZ3NDEKTSV4RRFFQ69G5FAV".toList .lf) := by
  unfold StripsAlike
  exact ⟨by decide +kernel, by decide +kernel⟩

end Strip

end Txtodo
