import Txtodo.Core.Proofs.WordSplitProofs
import Txtodo.Engine.Proofs.FastIdProofs

/-!
# The scan and the parser

The scan cuts a line at every ASCII whitespace character, the parser at spaces and tabs only. They find the
same `id:` word unless a form feed, a carriage return or a line feed stands in the first word that is or
holds one.
-/

namespace Txtodo

open Grammar

/-- Whether a word is `id:` and a value. -/
abbrev isIdWord (w : Text) : Bool := isTagWord "id".toList w

section Scan
variable {raw : Text}

theorem find?_strip_id (l : List Text) :
    (l.filterMap (stripPrefix "id:".toList)).find? (!·.isEmpty) = (l.find? isIdWord).map (List.drop 3) := by
  induction l with
  | nil => rfl
  | cons w l ih =>
    rw [List.find?_cons, List.filterMap_cons]
    cases hw : isIdWord w with
    | true =>
      obtain ⟨v, hv, rfl⟩ := isTagWord_iff.1 hw
      have hstrip : stripPrefix "id:".toList ("id".toList ++ ':' :: v) = some v := if_pos ⟨v, rfl⟩
      rw [hstrip]
      dsimp only
      rw [List.find?_cons, List.isEmpty_eq_false_iff.2 hv]
      rfl
    | false =>
      cases hstrip : stripPrefix "id:".toList w with
      | none => exact ih
      | some v =>
        have hnil : v = [] := by
          by_contra hv
          unfold stripPrefix at hstrip
          split_ifs at hstrip with hprefix
          obtain ⟨v', rfl⟩ := hprefix
          obtain rfl : v' = v := Option.some.inj hstrip
          exact Bool.false_ne_true (hw.symm.trans (isTagWord_iff.2 ⟨v', hv, rfl⟩))
        rw [hnil]
        exact ih

/-- The scan's value is that of the first `id:` word between ASCII whitespace. -/
theorem idValue_eq (raw : Text) :
    idValue raw = ((raw.splitOnP isAsciiWhitespace).find? isIdWord).map (List.drop 3) :=
  find?_strip_id _

/-- No word of a prefix is an `id:` word. -/
theorem Place.take_not_idWord (place : Place) (pre : Prefix) (w : Text) (x : Place × Prefix)
    (h : place.take pre w = some x) : isIdWord w = false := by
  rw [← Bool.not_eq_true]
  intro hw
  obtain ⟨v, -, rfl⟩ := isTagWord_iff.1 hw
  rcases Place.take_plain h with hx | hlower
  · cases hx
  · cases hlower

/-- The parser's value is that of the first `id:` word between spaces and tabs. -/
theorem taskOf_id (raw : Text) : (taskOf raw).bind (·.tag "id".toList) =
    ((raw.splitOnP isWs).find? isIdWord).map (List.drop 3) := by
  by_cases hne : raw = []
  · subst hne
    rfl
  obtain ⟨t, -, htask, -⟩ := taskOf_spec hne
  have hdraft : (draftOf raw).description = t.description := by
    rw [draftOf, htask]
  obtain ⟨q, front, hread⟩ := draftOf_readAs raw
  have hfront : (splitWords front).find? isIdWord = none := by
    rw [List.find?_eq_none]
    intro w hw
    rw [hread.path.forall_words Place.take_not_idWord w hw]
    exact Bool.false_ne_true
  have hkey : hasKey "id".toList = isTagWord "id".toList := funext ordinaryKey_id.hasKey_eq
  rw [htask, Option.bind_some, Task.tag_eq, hkey, ← find?_splitWords raw]
  conv_rhs => rw [hread.text, splitWords_append hread.apart.boundary, List.find?_append, hfront, Option.none_or]
  rw [hdraft]
  rfl

/-- The first word between spaces and tabs that is an `id:` word, or holds one between other whitespace,
holds no other whitespace; or it is none, and the one it holds first is the line's first `id:` word. -/
def ScansAlike (raw : Text) : Prop :=
  ∀ w, (raw.splitOnP isWs).find? (fun w => isIdWord w || (w.splitOnP isAsciiWhitespace).any isIdWord) =
      some w →
    (∀ c ∈ w, isAsciiWhitespace c = false) ∨
      isIdWord w = false ∧
        (w.splitOnP isAsciiWhitespace).find? isIdWord = (raw.splitOnP isWs).find? isIdWord

theorem idWord_eq_iff {o o' : Option Text} (ho : ∀ w ∈ o, isIdWord w = true)
    (ho' : ∀ w ∈ o', isIdWord w = true) : o.map (List.drop 3) = o'.map (List.drop 3) ↔ o = o' := by
  refine ⟨fun h => ?_, fun h => by rw [h]⟩
  cases o with
  | none =>
    cases o' with
    | none => rfl
    | some w => cases h
  | some w =>
    cases o' with
    | none => cases h
    | some w' =>
      obtain ⟨v, -, rfl⟩ := isTagWord_iff.1 (ho w rfl)
      obtain ⟨v', -, rfl⟩ := isTagWord_iff.1 (ho' w' rfl)
      obtain rfl : v = v' := Option.some.inj h
      rfl

/-- The scan and the parser find the same `id:` word with a value, and the same id, exactly when no form
feed, carriage return or line feed stands in the first word that is or holds one, or the one it holds is the
line's first. -/
theorem scan_agrees_iff (raw : Text) (ending : LineEnding) :
    idValue raw = (taskOf raw).bind (·.tag "id".toList) ∧
        fastIdOf (OwnedLine.ofText raw ending) = idOf (OwnedLine.ofText raw ending) ↔
      ScansAlike raw := by
  have hids : idValue raw = (taskOf raw).bind (·.tag "id".toList) →
      fastIdOf (OwnedLine.ofText raw ending) = idOf (OwnedLine.ofText raw ending) := by
    intro heq
    rw [fastIdOf, OwnedLine.ofText_raw, Option.bind_some, heq, idOf, task_eq, OwnedLine.ofText_raw,
      Option.bind_some]
    cases taskOf raw with
    | none => rfl
    | some t => exact (Option.map_bind ..).symm
  have hcut := Split.splitOnP_flatMap (fun c => isAsciiWhitespace_of_isWs (c := c)) raw
  rw [and_iff_left_of_imp hids, idValue_eq, taskOf_id,
    idWord_eq_iff (fun w hw => List.find?_some hw) fun w hw => List.find?_some hw, hcut,
    Split.find?_flatMap_iff]
  rfl

/-- A form feed hides an id from the parser. -/
theorem scan_disagrees :
    fastIdOf (OwnedLine.ofText "buy\x0cid:01ARZ3NDEKTSV4RRFFQ69G5FAV".toList .lf) ≠
      idOf (OwnedLine.ofText "buy\x0cid:01ARZ3NDEKTSV4RRFFQ69G5FAV".toList .lf) := by
  decide +kernel

end Scan

end Txtodo
