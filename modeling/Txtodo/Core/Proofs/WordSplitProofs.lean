import Txtodo.Core.Proofs.ChipsProofs
import Txtodo.Core.Proofs.WordPathProofs
import Txtodo.Model.TagText
import Txtodo.Std.Split

/-!
# The words of a text

The scanner's words are the pieces between spaces and tabs. The words of a prefix hold no colon, and a word
is the core's tag of an ordinary key when it is the key, a colon and a value.
-/

namespace Txtodo

open Grammar

/-- The words between spaces and tabs. -/
def splitWords (s : Text) : List Text := (s.splitOnP isWs).filter (!·.isEmpty)

section Words
variable {s pre rest w : Text}

theorem Apart.boundary {s d : Text} (h : Apart s d) : Boundary s d := by
  rcases h with h | h | ⟨h, -⟩
  · exact .inl h
  · exact .inr (.inl h)
  · exact .inr (.inr (.inl h))

theorem splitWords_nil : splitWords [] = [] := rfl

theorem splitWords_append_cons (pre rest : Text) {c : Char} (hc : isWs c = true) :
    splitWords (pre ++ c :: rest) = splitWords pre ++ splitWords rest := by
  rw [splitWords, List.splitOnP_append_cons _ _ hc, List.filter_append]
  rfl

theorem splitWords_cons (rest : Text) {c : Char} (hc : isWs c = true) : splitWords (c :: rest) = splitWords rest :=
  splitWords_append_cons [] rest hc

/-- A cut between words cuts no word. -/
theorem splitWords_append (h : Boundary pre rest) : splitWords (pre ++ rest) = splitWords pre ++ splitWords rest := by
  rcases h with rfl | rfl | hpre | hrest
  · rfl
  · rw [List.append_nil, splitWords_nil, List.append_nil]
  · rcases List.eq_nil_or_concat' pre with rfl | ⟨pre, c, rfl⟩
    · rfl
    · rw [List.getLast?_concat, Option.any_some] at hpre
      rw [List.append_assoc, List.singleton_append, splitWords_append_cons _ _ hpre,
        splitWords_append_cons _ _ hpre, splitWords_nil, List.append_nil]
  · cases rest with
    | nil => rw [List.append_nil, splitWords_nil, List.append_nil]
    | cons c rest =>
      rw [List.head?_cons, Option.any_some] at hrest
      rw [splitWords_append_cons _ _ hrest, splitWords_cons _ hrest]

theorem splitWords_run (h : IsRun w) : splitWords w = [w] := by
  rw [splitWords, List.splitOnP_eq_singleton h.2, List.filter_cons_of_pos, List.filter_nil]
  rw [List.isEmpty_eq_false_iff.2 h.1]
  rfl

theorem splitWords_separated (h : ∀ c ∈ s, isWs c = true) (rest : Text) : splitWords (s ++ rest) = splitWords rest := by
  induction s with
  | nil => rfl
  | cons c s ih =>
    rw [List.cons_append, splitWords_cons _ (h c (List.mem_cons_self ..))]
    exact ih fun c hc => h c (List.mem_cons_of_mem _ hc)

theorem Alternating.words {cs : List Chunk} (h : Alternating cs) :
    (cs.filter (!·.isWs)).map (·.text) = splitWords (textOf cs) := by
  induction cs with
  | nil => rfl
  | cons c cs ih =>
    have hc := h.uniform c (List.mem_cons_self ..)
    have hrest := ih (@Alternating.of_append [c] cs h).2
    have hcut : Boundary c.text (textOf cs) := by
      have hboundary := @Alternating.boundary [c] cs h
      rwa [textOf_cons, textOf_nil, List.append_nil] at hboundary
    rw [textOf_cons, splitWords_append hcut, ← hrest]
    cases hws : c.isWs with
    | true =>
      have hnone := splitWords_separated (fun x hx => (hc.same x hx).trans hws) []
      rw [List.append_nil, splitWords_nil] at hnone
      rw [List.filter_cons_of_neg (by simp [hws]), hnone, List.nil_append]
    | false =>
      rw [List.filter_cons_of_pos (by simp [hws]),
        splitWords_run ⟨hc.nonempty, fun x hx => (hc.same x hx).trans hws⟩]
      rfl

/-- The scanner finds the words. -/
theorem words_chunksFrom (start : Nat) (s : Text) :
    ((chunksFrom start s).filter (!·.isWs)).map (·.text) = splitWords s := by
  rw [(alternating_chunksFrom start s).words, textOf_chunksFrom]

theorem Task.tags_eq (t : Task) : t.tags = (splitWords t.description).filterMap Chips.tagOf := by
  rw [← words_chunksFrom 0, List.filterMap_map, Task.tags, Task.words, List.filterMap_map]
  refine List.filterMap_congr fun c _ => ?_
  rw [Function.comp_apply, Function.comp_apply, Chips.tagOf]
  cases classifyWord c.text DEFAULT_SCHEMES <;> rfl

end Words

/-! ## Words of a prefix -/

section Taken
variable {place q : Place} {pre r : Prefix} {s w : Text}

theorem Place.take_cases {x : Place × Prefix} (h : place.take pre w = some x) :
    w = ['x'] ∨ (priorityOf w).isSome = true ∨ (Date.parse w).isSome = true := by
  have hmap : ∀ {α : Type} {o : Option α} {f : α → Place × Prefix}, o.map f = some x → o.isSome = true := by
    intro α o f hsome
    obtain ⟨a, ha, -⟩ := Option.map_eq_some_iff.1 hsome
    rw [ha]
    rfl
  cases place with
  | start =>
    rw [Place.take] at h
    split_ifs at h with hx
    · exact .inl hx
    · rcases Option.or_eq_some_iff.1 h with h | ⟨-, h⟩
      · exact .inr (.inl (hmap h))
      · exact .inr (.inr (hmap h))
  | openPriority => exact .inr (.inr (hmap h))
  | mark =>
    rcases Option.or_eq_some_iff.1 h with h | ⟨-, h⟩
    · exact .inr (.inl (hmap h))
    · exact .inr (.inr (hmap h))
  | markPriority => exact .inr (.inr (hmap h))
  | completion seen =>
    rcases Option.or_eq_some_iff.1 h with h | ⟨-, h⟩
    · exact .inr (.inr (hmap h))
    · cases seen with
      | true => cases h
      | false => exact .inr (.inl (hmap h))
  | creation seen =>
    cases seen with
    | true => cases h
    | false => exact .inr (.inl (hmap h))
  | ended => cases h

theorem isLower_digit (n : Nat) : (digit n).isLower = false := by
  have hall : ∀ d : Fin 10, (digit d.val).isLower = false := by decide
  rw [digit_congr (Nat.mod_mod n 10).symm]
  exact hall ⟨n % 10, Nat.mod_lt n (by omega)⟩

/-- No word of a prefix starts with a small letter but the mark, which is that letter alone. -/
theorem Place.take_plain {x : Place × Prefix} (h : place.take pre w = some x) :
    w = ['x'] ∨ w.head?.any Char.isLower = false := by
  rcases Place.take_cases h with hx | hp | hd
  · exact .inl hx
  · obtain ⟨p, hp⟩ := Option.isSome_iff_exists.1 hp
    rw [priorityOf_eq_some hp]
    exact .inr rfl
  · obtain ⟨d, hd⟩ := Option.isSome_iff_exists.1 hd
    rw [parse_some_iff.1 hd]
    refine .inr ?_
    rw [Date.display, List.head?_cons, Option.any_some]
    exact isLower_digit _

/-- What holds of the words a path takes holds of its words. -/
theorem Path.forall_words {P : Text → Prop} (h : Path place pre s q r)
    (hP : ∀ place pre w x, Place.take place pre w = some x → P w) : ∀ w ∈ splitWords s, P w := by
  induction h with
  | nil => simp [splitWords_nil]
  | @word place place' q pre pre' r w sep s hw htake hsep hne h ih =>
    have hsplit : splitWords (w ++ (sep ++ s)) = w :: splitWords s := by
      cases sep with
      | nil =>
        obtain rfl : s = [] := not_not.1 fun hs => hne hs rfl
        rw [List.append_nil, List.append_nil, splitWords_run hw, splitWords_nil]
      | cons c sep =>
        have hc := hsep c (List.mem_cons_self ..)
        rw [List.cons_append, splitWords_append_cons _ _ hc, splitWords_run hw]
        have hrest := splitWords_separated (fun x hx => hsep x (List.mem_cons_of_mem _ hx)) s
        rw [hrest]
        rfl
    rw [hsplit]
    intro v hv
    rcases List.mem_cons.1 hv with rfl | hv
    · exact hP _ _ _ _ htake
    · exact ih v hv

end Taken

/-! ## Tags of an ordinary key -/

/-- A key the core reads tags of whatever their value: it can name a tag, is no URL scheme and starts like
no project and no context. -/
structure OrdinaryKey (key : Text) : Prop where
  valid : validTagKey key = true
  scheme : DEFAULT_SCHEMES.any (eqIgnoreAsciiCase · key) = false
  project : key.head? ≠ some '+'
  context : key.head? ≠ some '@'

section Key
variable {key w v : Text}

theorem isTagWord_iff : isTagWord key w = true ↔ ∃ v, v ≠ [] ∧ w = key ++ ':' :: v := by
  rw [isTagWord, Bool.and_eq_true, decide_eq_true_iff, decide_eq_true_iff]
  constructor
  · rintro ⟨⟨v, rfl⟩, hlen⟩
    refine ⟨v, ?_, by simp⟩
    rintro rfl
    simp at hlen
  · rintro ⟨v, hv, rfl⟩
    have hpos := List.length_pos_iff.2 hv
    refine ⟨⟨v, by simp⟩, ?_⟩
    rw [List.length_append, List.length_cons]
    omega

theorem OrdinaryKey.ne_nil (h : OrdinaryKey key) : key ≠ [] := by
  rintro rfl
  exact absurd h.valid (by decide)

theorem OrdinaryKey.noColon (h : OrdinaryKey key) : ':' ∉ key := by
  intro hmem
  have hvalid := h.valid
  rw [validTagKey, Bool.and_eq_true, List.all_eq_true] at hvalid
  exact absurd (hvalid.2 ':' hmem) (by decide)

theorem OrdinaryKey.idxOf? (h : OrdinaryKey key) (v : Text) :
    (key ++ ':' :: v).idxOf? ':' = some key.length := by
  rw [List.idxOf?_eq_some_iff]
  refine ⟨by simp, by simp, ?_⟩
  intro i hi
  rw [List.getElem_append_left hi]
  simpa using fun heq : key[i] = ':' => h.noColon (heq ▸ List.getElem_mem hi)

/-- The core takes the key, a colon and a value for a tag of the key. -/
theorem OrdinaryKey.hasKey_tag (h : OrdinaryKey key) (hv : v ≠ []) : hasKey key (key ++ ':' :: v) = true := by
  have hidx := h.idxOf? v
  have htake : (key ++ ':' :: v).take key.length = key := List.take_left
  have hurl : isUrl (key ++ ':' :: v) DEFAULT_SCHEMES = false := by
    rw [isUrl, hidx]
    dsimp only
    rw [htake, h.scheme, Bool.and_false]
  have hhead : ∀ c, key.head? ≠ some c → (key ++ ':' :: v).head? ≠ some c := by
    intro c hc
    rwa [List.head?_append_of_ne_nil _ h.ne_nil]
  have hsplit : tagSplit (key ++ ':' :: v) = some key.length := by
    have hpos := List.length_pos_iff.2 h.ne_nil
    have hvalue := List.length_pos_iff.2 hv
    rw [tagSplit, hidx, Option.filter_some, if_pos]
    rw [Bool.and_eq_true, decide_eq_true_iff, decide_eq_true_iff, List.length_append, List.length_cons]
    omega
  rw [hasKey, classifyWord, hurl, if_neg Bool.false_ne_true]
  by_cases hid : ((stripPrefix "id:".toList (key ++ ':' :: v)).bind Ulid.parse).isSome = true
  · rw [if_pos hid]
    dsimp only
    rw [decide_eq_true_iff]
    obtain ⟨u, hu⟩ := Option.isSome_iff_exists.1 hid
    obtain ⟨rest, hrest, -⟩ := Option.bind_eq_some_iff.1 hu
    unfold stripPrefix at hrest
    split_ifs at hrest with hprefix
    obtain ⟨tail, htail⟩ := hprefix
    have hlen : key.length = 2 := by
      have hfound := h.idxOf? v
      rw [← htail] at hfound
      have hcolon : ("id:".toList ++ tail).idxOf? ':' = some 2 := rfl
      exact Option.some.inj (hfound.symm.trans hcolon)
    rw [← htake, ← htail, hlen]
    rfl
  · rw [if_neg hid, decide_eq_false (hhead '+' h.project), Bool.and_false, if_neg Bool.false_ne_true,
      decide_eq_false (hhead '@' h.context), Bool.and_false, if_neg Bool.false_ne_true, hsplit]
    dsimp only
    rw [htake, decide_eq_true_iff]

/-- A word the core reads as a tag is its key, a colon and a value. -/
theorem eq_of_hasKey (h : hasKey key w = true) : ∃ v, v ≠ [] ∧ w = key ++ ':' :: v := by
  unfold hasKey at h
  split at h
  · next colon hkind =>
    obtain ⟨-, hparts, hvalue⟩ := Chips.tag_parts hkind
    rw [of_decide_eq_true h] at hparts
    exact ⟨_, hvalue, hparts.symm⟩
  · next hkind =>
    unfold classifyWord at hkind
    split_ifs at hkind with hurl hid
    · obtain ⟨u, hu⟩ := Option.isSome_iff_exists.1 hid
      obtain ⟨rest, hrest, hparse⟩ := Option.bind_eq_some_iff.1 hu
      unfold stripPrefix at hrest
      split_ifs at hrest with hprefix
      obtain ⟨tail, rfl⟩ := hprefix
      obtain rfl : tail = rest := Option.some.inj hrest
      rw [of_decide_eq_true h]
      refine ⟨tail, ?_, rfl⟩
      rintro rfl
      cases hparse
    · split at hkind <;> cases hkind
  · cases h

/-- The core and the word test agree on an ordinary key. -/
theorem OrdinaryKey.hasKey_eq (h : OrdinaryKey key) (w : Text) : hasKey key w = isTagWord key w := by
  rw [Bool.eq_iff_iff, isTagWord_iff]
  constructor
  · exact eq_of_hasKey
  · rintro ⟨v, hv, rfl⟩
    exact h.hasKey_tag hv

theorem tagOf_of_hasKey (h : hasKey key w = true) : Chips.tagOf w = some (key, w.drop (key.length + 1)) := by
  unfold hasKey at h
  split at h
  · next colon hkind =>
    obtain ⟨hlength, -, -⟩ := Chips.tag_parts hkind
    rw [of_decide_eq_true h] at hlength
    rw [Chips.tagOf, hkind]
    dsimp only
    rw [of_decide_eq_true h, hlength]
  · next hkind =>
    rw [Chips.tagOf, hkind, of_decide_eq_true h]
    rfl
  · cases h

theorem tagOf_of_not_hasKey (h : hasKey key w = false) : ∀ tag ∈ Chips.tagOf w, tag.1 ≠ key := by
  unfold hasKey at h
  intro tag htag
  split at h
  · next colon hkind =>
    rw [Chips.tagOf, hkind] at htag
    cases htag
    exact of_decide_eq_false h
  · next hkind =>
    rw [Chips.tagOf, hkind] at htag
    cases htag
    exact fun heq => of_decide_eq_false h heq.symm
  · next hother hother' =>
    unfold Chips.tagOf at htag
    split at htag
    · next hkind => exact absurd hkind (hother _)
    · next hkind => exact absurd hkind hother'
    · cases htag

/-- The value of a task's tag is that of the first word that is one. -/
theorem Task.tag_eq (t : Task) (key : Text) : t.tag key =
    ((splitWords t.description).find? (hasKey key)).map (List.drop (key.length + 1)) := by
  rw [Task.tag, Task.tags_eq]
  induction splitWords t.description with
  | nil => rfl
  | cons w ws ih =>
    cases hw : hasKey key w with
    | true =>
      rw [List.filterMap_cons, tagOf_of_hasKey hw, List.find?_cons, List.find?_cons, hw,
        decide_eq_true rfl]
      rfl
    | false =>
      rw [List.find?_cons, hw, ← ih, List.filterMap_cons]
      cases htag : Chips.tagOf w with
      | none => rfl
      | some tag =>
        have hne : decide (tag.1 = key) = false := decide_eq_false (tagOf_of_not_hasKey hw tag htag)
        dsimp only
        rw [List.find?_cons, hne]

/-- Empty pieces are no tags. -/
theorem find?_splitWords (s key : Text) :
    (splitWords s).find? (isTagWord key) = (s.splitOnP isWs).find? (isTagWord key) := by
  rw [splitWords, List.find?_filter]
  congr 1
  funext w
  cases w with
  | nil => simp [isTagWord]
  | cons c w => simp

theorem ordinaryKey_id : OrdinaryKey "id".toList := ⟨by decide, by decide, by decide, by decide⟩

theorem ordinaryKey_pri : OrdinaryKey "pri".toList := ⟨by decide, by decide, by decide, by decide⟩

end Key

end Txtodo
