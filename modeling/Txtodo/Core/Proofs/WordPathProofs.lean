import Txtodo.Core.Proofs.PutGetProofs

/-!
# Reading a prefix on words

The prefix of a line of words is taken word by word, and what it consists of is listed.
-/

namespace Txtodo

open Grammar

/-- The words taken from the front of `ws`. -/
inductive WordPath : Place → Prefix → List Text → Place → Prefix → List Text → Prop where
  | stop {place : Place} {pre : Prefix} {ws : List Text} (h : place.take pre (ws.headD []) = none) :
      WordPath place pre ws place pre ws
  | take {place place' q : Place} {pre pre' r : Prefix} {w : Text} {ws ds : List Text}
      (h : place.take pre w = some (place', pre')) (hrest : WordPath place' pre' ws q r ds) :
      WordPath place pre (w :: ws) q r ds

section Spaced
variable {place q : Place} {pre r : Prefix} {cs ds : List Chunk} {ws : List Text}

theorem wordOf_spaced (h : Spaced cs ws) : wordOf cs = ws.headD [] := by
  cases h with
  | nil => rfl
  | last => rfl
  | cons => rfl

/-- Chunks of words are read word by word. -/
theorem ChunkPath.words (h : ChunkPath place pre cs q r ds) (hcs : Spaced cs ws) :
    ∃ vs, Spaced ds vs ∧ WordPath place pre ws q r vs := by
  induction h generalizing ws with
  | stop h =>
    rw [wordOf_spaced hcs] at h
    exact ⟨ws, hcs, .stop h⟩
  | take h hrest ih =>
    cases hcs with
    | nil =>
      rw [show wordOf [] = [] from rfl, Place.take_nil] at h
      cases h
    | last start hw =>
      obtain ⟨vs, hvs, hpath⟩ := ih .nil
      exact ⟨vs, hvs, .take h hpath⟩
    | cons start space hw hcs =>
      obtain ⟨vs, hvs, hpath⟩ := ih hcs
      exact ⟨vs, hvs, .take h hpath⟩

/-- The draft of a line of words. -/
theorem draftOf_wordPath (hws : ∀ w ∈ ws, IsRun w) : ∃ q ds,
    WordPath .start Prefix.empty ws q (draftOf (joined ws)).pre ds ∧
      (draftOf (joined ws)).description = joined ds := by
  obtain ⟨q, cs, hpath, hdescription⟩ := draftOf_chunkPath (joined ws)
  obtain ⟨ds, hds, hwords⟩ := hpath.words (Spaced.chunksFrom hws 0)
  exact ⟨q, ds, hwords, hdescription.trans hds.textOf⟩

end Spaced

/-! ## What a prefix consists of -/

/-- The word of a priority. -/
def letterWord (p : Priority) : Text := ['(', p.letter, ')']

theorem priorityOf_some_iff {w : Text} {p : Priority} : priorityOf w = some p ↔ w = letterWord p := by
  constructor
  · exact priorityOf_eq_some
  · rintro rfl
    exact priorityOf_letter p

theorem parse_some_iff {w : Text} {d : Date} : Date.parse w = some d ↔ w = d.display := by
  rw [parse_date_iff, isDate_iff]

/-- The words of a prefix, the place they lead to and what they say. -/
inductive Front : List Text → Place → Prefix → Prop where
  | start : Front [] .start Prefix.empty
  | priority (p : Priority) : Front [letterWord p] .openPriority ⟨false, none, none, some p⟩
  | creation (e : Date) : Front [e.display] .ended ⟨false, none, some e, none⟩
  | priorityCreation (p : Priority) (e : Date) :
      Front [letterWord p, e.display] .ended ⟨false, none, some e, some p⟩
  | mark : Front [['x']] .mark ⟨true, none, none, none⟩
  | markPriority (p : Priority) : Front [['x'], letterWord p] .markPriority ⟨true, none, none, some p⟩
  | completion (d : Date) : Front [['x'], d.display] (.completion false) ⟨true, some d, none, none⟩
  | dates (d e : Date) :
      Front [['x'], d.display, e.display] (.creation false) ⟨true, some d, some e, none⟩
  | completionPriority (d : Date) (p : Priority) :
      Front [['x'], d.display, letterWord p] .ended ⟨true, some d, none, some p⟩
  | datesPriority (d e : Date) (p : Priority) :
      Front [['x'], d.display, e.display, letterWord p] .ended ⟨true, some d, some e, some p⟩
  | priorityCompletion (p : Priority) (d : Date) :
      Front [['x'], letterWord p, d.display] (.completion true) ⟨true, some d, none, some p⟩
  | priorityDates (p : Priority) (d e : Date) :
      Front [['x'], letterWord p, d.display, e.display] (.creation true) ⟨true, some d, some e, some p⟩

section Front
variable {vs ws ds : List Text} {place q : Place} {pre r pre' : Prefix} {w : Text}

theorem Front.take {place' : Place} (h : Front vs place pre) (htake : place.take pre w = some (place', pre')) :
    Front (vs ++ [w]) place' pre' := by
  cases h with
  | start =>
    by_cases hx : w = ['x']
    · rw [Place.take, if_pos hx] at htake
      cases htake
      rw [hx]
      exact .mark
    · rw [Place.take, if_neg hx, Option.or_eq_some_iff] at htake
      rcases htake with htake | ⟨-, htake⟩
      · obtain ⟨p, hp, heq⟩ := Option.map_eq_some_iff.1 htake
        cases heq
        rw [priorityOf_some_iff.1 hp]
        exact .priority p
      · obtain ⟨e, he, heq⟩ := Option.map_eq_some_iff.1 htake
        cases heq
        rw [parse_some_iff.1 he]
        exact .creation e
  | priority p =>
    obtain ⟨e, he, heq⟩ := Option.map_eq_some_iff.1 htake
    cases heq
    rw [parse_some_iff.1 he]
    exact .priorityCreation p e
  | creation e => cases htake
  | priorityCreation p e => cases htake
  | mark =>
    rw [Place.take, Option.or_eq_some_iff] at htake
    rcases htake with htake | ⟨-, htake⟩
    · obtain ⟨p, hp, heq⟩ := Option.map_eq_some_iff.1 htake
      cases heq
      rw [priorityOf_some_iff.1 hp]
      exact .markPriority p
    · obtain ⟨d, hd, heq⟩ := Option.map_eq_some_iff.1 htake
      cases heq
      rw [parse_some_iff.1 hd]
      exact .completion d
  | markPriority p =>
    obtain ⟨d, hd, heq⟩ := Option.map_eq_some_iff.1 htake
    cases heq
    rw [parse_some_iff.1 hd]
    exact .priorityCompletion p d
  | completion d =>
    rw [Place.take, Option.or_eq_some_iff] at htake
    rcases htake with htake | ⟨-, htake⟩
    · obtain ⟨e, he, heq⟩ := Option.map_eq_some_iff.1 htake
      cases heq
      rw [parse_some_iff.1 he]
      exact .dates d e
    · obtain ⟨p, hp, heq⟩ := Option.map_eq_some_iff.1 htake
      cases heq
      rw [priorityOf_some_iff.1 hp]
      exact .completionPriority d p
  | dates d e =>
    obtain ⟨p, hp, heq⟩ := Option.map_eq_some_iff.1 htake
    cases heq
    rw [priorityOf_some_iff.1 hp]
    exact .datesPriority d e p
  | completionPriority d p => cases htake
  | datesPriority d e p => cases htake
  | priorityCompletion p d =>
    rw [Place.take, Option.or_eq_some_iff] at htake
    rcases htake with htake | ⟨-, htake⟩
    · obtain ⟨e, he, heq⟩ := Option.map_eq_some_iff.1 htake
      cases heq
      rw [parse_some_iff.1 he]
      exact .priorityDates p d e
    · cases htake
  | priorityDates p d e => cases htake

theorem WordPath.front_from (h : WordPath place pre ws q r ds) (hfront : Front vs place pre) :
    ∃ us, vs ++ ws = us ++ ds ∧ Front us q r ∧ q.take r (ds.headD []) = none := by
  induction h generalizing vs with
  | stop h => exact ⟨vs, rfl, hfront, h⟩
  | @take place place' q pre pre' r w ws ds htake hrest ih =>
    obtain ⟨us, hwords, hus, hstop⟩ := ih (hfront.take htake)
    refine ⟨us, ?_, hus, hstop⟩
    rw [← hwords, List.append_assoc]
    rfl

/-- A line of words is the words of its prefix and its description's. -/
theorem draftOf_front (hws : ∀ w ∈ ws, IsRun w) : ∃ vs q ds, ws = vs ++ ds ∧
    Front vs q (draftOf (joined ws)).pre ∧ q.take (draftOf (joined ws)).pre (ds.headD []) = none ∧
      (draftOf (joined ws)).description = joined ds := by
  obtain ⟨q, ds, hpath, hdescription⟩ := draftOf_wordPath hws
  obtain ⟨vs, hwords, hfront, hstop⟩ := hpath.front_from .start
  exact ⟨vs, q, ds, hwords, hfront, hstop, hdescription⟩

end Front

end Txtodo
