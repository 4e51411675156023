import Txtodo.Engine.TextHistory
import Txtodo.Std.KeySorted
import Mathlib.Data.List.Perm.Subperm

/-!
# Proofs: text histories

The held text is always the replay of the kept edits, which stand in stamp order and are the changes
newer than every reset so far; so arrivals end with the same text in every order.
-/

namespace Txtodo

namespace TextHistory

open KeySorted

variable {apply : ApplyEdits} {max : Nat}

/-! ## One operation -/

theorem trimEdits_of_le (apply : ApplyEdits) (base : Text) {edits : List (Hlc × Change)}
    (h : edits.length ≤ max) : trimEdits apply max base edits = (base, edits) := by
  cases edits with
  | nil => rfl
  | cons e rest => exact if_neg (by simpa using h)

/-- Nothing is folded into the base while the bound holds. -/
theorem trim_of_le {h : TextHistory} (hlen : h.edits.length ≤ max) : h.trim apply max = h := by
  simp [trim, trimEdits_of_le apply h.base hlen]

theorem replayStep_of_ok {text next : Text} {e : Hlc × Change}
    (h : e.2.on text apply = .ok next) : replayStep apply text e = next := by
  simp [replayStep, h]

/-- The replay of one more edit at the end. -/
theorem replay_concat (h : TextHistory) (e : Hlc × Change) :
    ({ h with edits := h.edits ++ [e] } : TextHistory).replay apply =
      replayStep apply (h.replay apply) e := by
  simp [replay]

/-- The kept edits once `e` is slotted in by stamp. -/
def slotIn (edits : List (Hlc × Change)) (e : Hlc × Change) : List (Hlc × Change) :=
  edits.insertIdx (edits.takeWhile fun x => x.1 ≤ e.1).length e

theorem mem_slotIn {edits : List (Hlc × Change)} {e x : Hlc × Change} :
    x ∈ slotIn edits e ↔ x = e ∨ x ∈ edits :=
  KeySorted.mem_slotIn

/-- An edit newer than every kept one goes at the end. -/
theorem slotIn_of_newest {edits : List (Hlc × Change)} {e : Hlc × Change}
    (h : ∀ x ∈ edits, x.1 ≤ e.1) : slotIn edits e = edits ++ [e] := by
  have htake : edits.takeWhile (fun x => decide (x.1 ≤ e.1)) = edits :=
    List.takeWhile_eq_self_iff.2 (by simpa using h)
  rw [slotIn, insertIdx_takeWhile, htake]
  simpa using h

/-- What a change does to a history below its bound whose text is its replay: nothing when the text
was set whole later; else it is slotted in by stamp and the text is the new replay. A change that is
the newest and does not fit is refused. -/
theorem record_of_replay {h : TextHistory} (hsort : Sorted Prod.fst h.edits) {at_ : Hlc}
    (c : Change) (hlen : h.edits.length < max)
    {h' : TextHistory} {text : Text}
    (hrec : h.record (h.replay apply) at_ c (apply, max) = (h', .ok text)) :
    (at_ < h.since ∧ h' = h ∧ text = h.replay apply) ∨
    (h.since ≤ at_ ∧ h' = { h with edits := slotIn h.edits (at_, c) } ∧
      text = h'.replay apply) := by
  have htrim : ∀ edits : List (Hlc × Change), edits.length = h.edits.length + 1 →
      ({ h with edits := edits } : TextHistory).trim apply max = { h with edits := edits } :=
    fun edits he => trim_of_le (by simp only [he]; omega)
  by_cases hfloor : at_ < h.since
  · simp only [record, if_pos hfloor, Prod.mk.injEq, Except.ok.injEq] at hrec
    exact .inl ⟨hfloor, hrec.1.symm, hrec.2.symm⟩
  · right
    refine ⟨not_lt.1 hfloor, ?_⟩
    simp only [record, if_neg hfloor] at hrec
    by_cases hlate : (h.edits.getLast?.any fun e => decide (at_ < e.1)) = true
    · rw [if_pos hlate] at hrec
      simp only [Prod.mk.injEq, Except.ok.injEq] at hrec
      obtain ⟨rfl, rfl⟩ := hrec
      have hslot := htrim (slotIn h.edits (at_, c))
        (List.length_insertIdx_of_le_length (List.takeWhile_prefix _).length_le _)
      rw [slotIn] at hslot
      rw [hslot]
      exact ⟨rfl, rfl⟩
    · rw [if_neg hlate] at hrec
      have hnewest : ∀ e ∈ h.edits, e.1 ≤ at_ := by
        intro e he
        obtain ⟨m, hm⟩ := List.getLast?_isSome.2 (List.ne_nil_of_mem he) |> Option.isSome_iff_exists.1
        have hml : ¬at_ < m.1 := by simpa [hm] using hlate
        exact (hsort.le_getLast hm he).trans (not_lt.1 hml)
      cases hon : c.on (h.replay apply) apply with
      | error e => simp [hon] at hrec
      | ok next =>
        simp only [hon, Prod.mk.injEq, Except.ok.injEq] at hrec
        obtain ⟨rfl, rfl⟩ := hrec
        rw [htrim _ (by simp), slotIn_of_newest hnewest]
        exact ⟨rfl, by rw [replay_concat, replayStep_of_ok hon]⟩

/-- A change that fits every text is never refused. -/
theorem record_ok (apply : ApplyEdits) (max : Nat) {c : Change}
    (hfits : ∀ text, ∃ next, c.on text apply = .ok next)
    (h : TextHistory) (current : Text) (at_ : Hlc) :
    ∃ h' text, h.record current at_ c (apply, max) = (h', .ok text) := by
  obtain ⟨next, hnext⟩ := hfits current
  simp only [record, hnext]
  split_ifs
  · exact ⟨_, _, rfl⟩
  · exact ⟨_, _, rfl⟩
  · exact ⟨_, _, rfl⟩

theorem record_of_setPri {h h' : TextHistory} {current text : Text} {at_ : Hlc} {letter : Char}
    (hset : h.setPri current at_ letter (apply, max) = (h', text)) :
    h.record current at_ (.pri letter) (apply, max) = (h', .ok text) := by
  obtain ⟨h₁, text₁, hrec⟩ := record_ok apply max (c := .pri letter)
    (fun t => ⟨_, rfl⟩) h current at_
  simp only [setPri, hrec, Prod.mk.injEq] at hset
  rw [hrec, hset.1, hset.2]

theorem record_of_removeTag {h h' : TextHistory} {current text : Text} {at_ : Hlc} {key : Text}
    (hset : h.removeTag current at_ key (apply, max) = (h', text)) :
    h.record current at_ (.removeTag key) (apply, max) = (h', .ok text) := by
  obtain ⟨h₁, text₁, hrec⟩ := record_ok apply max (c := .removeTag key)
    (fun t => ⟨_, rfl⟩) h current at_
  simp only [removeTag, hrec, Prod.mk.injEq] at hset
  rw [hrec, hset.1, hset.2]

/-! ## Arrivals -/

/-- What a history holds once the arrivals in `P` came, in some order: the text set whole last, the
changes newer than every reset in stamp order, and their replay. -/
structure Holds (apply : ApplyEdits) (start : Text) (P : List (Hlc × Arrival)) (h : TextHistory)
    (text : Text) : Prop where
  floor : ∀ r ∈ P.filterMap Arrival.asReset, r.1 ≤ h.since
  base : (P.filterMap Arrival.asReset = [] ∧ h.since = ⊥ ∧ h.base = start) ∨
    (h.since, h.base) ∈ P.filterMap Arrival.asReset
  sorted : Sorted Prod.fst h.edits
  kept : ∀ e, e ∈ h.edits ↔
    e ∈ P.filterMap Arrival.asChange ∧ ∀ r ∈ P.filterMap Arrival.asReset, r.1 < e.1
  text : text = h.replay apply

/-- A history that starts at `start` holds it before anything came. -/
theorem holds_new (apply : ApplyEdits) (start : Text) : Holds apply start [] (new start) start where
  floor := by simp
  base := .inl ⟨rfl, rfl, rfl⟩
  sorted := List.Pairwise.nil
  kept := by simp [new]
  text := rfl

theorem mem_asReset {P : List (Hlc × Arrival)} {r : Hlc × Text} :
    r ∈ P.filterMap Arrival.asReset ↔ (r.1, Arrival.reset r.2) ∈ P := by
  simp only [List.mem_filterMap, Arrival.asReset]
  constructor
  · rintro ⟨⟨t, _ | text⟩, hmem, heq⟩
    · simp at heq
    · simp only [Option.some.injEq] at heq
      exact heq ▸ hmem
  · exact fun h => ⟨_, h, rfl⟩

theorem mem_asChange {P : List (Hlc × Arrival)} {e : Hlc × Change} :
    e ∈ P.filterMap Arrival.asChange ↔ (e.1, Arrival.change e.2) ∈ P := by
  simp only [List.mem_filterMap, Arrival.asChange]
  constructor
  · rintro ⟨⟨t, c | _⟩, hmem, heq⟩
    · simp only [Option.some.injEq] at heq
      exact heq ▸ hmem
    · simp at heq
  · exact fun h => ⟨_, h, rfl⟩

theorem Holds.length_le {start : Text} {P : List (Hlc × Arrival)} {h : TextHistory} {text : Text}
    (hh : Holds apply start P h text) : h.edits.length ≤ P.length := by
  have hsub : h.edits ⊆ P.filterMap Arrival.asChange := fun e he => ((hh.kept e).1 he).1
  exact (List.subperm_of_subset hh.sorted.nodup hsub).length_le.trans (List.length_filterMap_le _ _)

section Step

variable {start : Text} {P : List (Hlc × Arrival)} {h h' : TextHistory} {held text : Text}

/-- Recording a change with a new stamp. -/
theorem Holds.record (hh : Holds apply start P h held) {at_ : Hlc} {c : Change}
    (hnew : at_ ∉ P.map Prod.fst) (hlen : P.length < max)
    (hrec : h.record held at_ c (apply, max) = (h', .ok text)) :
    Holds apply start (P ++ [(at_, .change c)]) h' text := by
  have hreset : (P ++ [(at_, Arrival.change c)]).filterMap Arrival.asReset =
      P.filterMap Arrival.asReset := by simp [Arrival.asReset]
  have hchange : (P ++ [(at_, Arrival.change c)]).filterMap Arrival.asChange =
      P.filterMap Arrival.asChange ++ [(at_, c)] := by simp [Arrival.asChange]
  have hfresh : ∀ r ∈ P.filterMap Arrival.asReset, r.1 ≠ at_ := fun r hr heq =>
    hnew (heq ▸ List.mem_map_of_mem (mem_asReset.1 hr))
  have hfresh' : ∀ e ∈ h.edits, e.1 ≠ at_ := fun e he heq =>
    hnew (heq ▸ List.mem_map_of_mem (mem_asChange.1 ((hh.kept e).1 he).1))
  rw [hh.text] at hrec
  rcases record_of_replay hh.sorted c (hh.length_le.trans_lt hlen) hrec with
    ⟨hold, rfl, rfl⟩ | ⟨hfloor, rfl, rfl⟩
  · -- a reset newer than the change came already
    refine ⟨hreset ▸ hh.floor, hreset ▸ hh.base, hh.sorted, fun e => ?_, rfl⟩
    rw [hreset, hchange, hh.kept, List.mem_append, List.mem_singleton]
    refine ⟨fun ⟨hc, hr⟩ => ⟨.inl hc, hr⟩, ?_⟩
    rintro ⟨hc | rfl, hr⟩
    · exact ⟨hc, hr⟩
    · rcases hh.base with ⟨-, hbot, -⟩ | hbase
      · simp [hbot] at hold
      · exact absurd ((hr _ hbase).trans hold) (lt_irrefl _)
  · refine ⟨hreset ▸ hh.floor, hreset ▸ hh.base, hh.sorted.slotIn hfresh', fun e => ?_, rfl⟩
    rw [hreset, hchange, mem_slotIn, hh.kept, List.mem_append, List.mem_singleton]
    have habove : ∀ r ∈ P.filterMap Arrival.asReset, r.1 < at_ := fun r hr =>
      lt_of_le_of_ne ((hh.floor r hr).trans hfloor) (hfresh r hr)
    constructor
    · rintro (rfl | ⟨hc, hr⟩)
      · exact ⟨.inr rfl, habove⟩
      · exact ⟨.inl hc, hr⟩
    · rintro ⟨hc | rfl, hr⟩
      · exact .inr ⟨hc, hr⟩
      · exact .inl rfl

/-- Setting the text whole. -/
theorem Holds.reset (hh : Holds apply start P h held) {at_ : Hlc} {whole : Text}
    (hreset : h.reset whole at_ apply = (h', text)) :
    Holds apply start (P ++ [(at_, .reset whole)]) h' text := by
  have hresets : (P ++ [(at_, Arrival.reset whole)]).filterMap Arrival.asReset =
      P.filterMap Arrival.asReset ++ [(at_, whole)] := by simp [Arrival.asReset]
  have hchange : (P ++ [(at_, Arrival.reset whole)]).filterMap Arrival.asChange =
      P.filterMap Arrival.asChange := by simp [Arrival.asChange]
  by_cases hfloor : h.since ≤ at_
  · simp only [TextHistory.reset, if_pos hfloor, Prod.mk.injEq] at hreset
    obtain ⟨rfl, rfl⟩ := hreset
    have hle : ∀ r ∈ P.filterMap Arrival.asReset, r.1 ≤ at_ := fun r hr =>
      (hh.floor r hr).trans hfloor
    refine ⟨?_, .inr ?_, hh.sorted.filter _, fun e => ?_, rfl⟩
    · intro r hr
      rw [hresets, List.mem_append, List.mem_singleton] at hr
      rcases hr with hr | rfl
      exacts [hle r hr, le_rfl]
    · simp [hresets]
    · rw [hresets, hchange, List.mem_filter, hh.kept]
      simp only [List.mem_append, List.mem_singleton, decide_eq_true_eq]
      constructor
      · rintro ⟨⟨hc, hr⟩, hlt⟩
        exact ⟨hc, fun r => by rintro (hm | rfl); exacts [hr r hm, hlt]⟩
      · rintro ⟨hc, hr⟩
        exact ⟨⟨hc, fun r hm => hr r (.inl hm)⟩, hr _ (.inr rfl)⟩
  · -- a newer reset came already, and the changes above it are above this one
    simp only [TextHistory.reset, if_neg hfloor, Prod.mk.injEq] at hreset
    obtain ⟨rfl, rfl⟩ := hreset
    have hlt : at_ < h.since := not_le.1 hfloor
    have hbase : (h.since, h.base) ∈ P.filterMap Arrival.asReset := by
      rcases hh.base with ⟨-, hbot, -⟩ | hbase
      · simp [hbot] at hlt
      · exact hbase
    refine ⟨?_, .inr ?_, hh.sorted, fun e => ?_, rfl⟩
    · intro r hr
      rw [hresets, List.mem_append, List.mem_singleton] at hr
      rcases hr with hr | rfl
      exacts [hh.floor r hr, hlt.le]
    · simp [hresets, hbase]
    · rw [hresets, hchange, hh.kept]
      simp only [List.mem_append, List.mem_singleton]
      constructor
      · rintro ⟨hc, hr⟩
        exact ⟨hc, fun r => by rintro (hm | rfl); exacts [hr r hm, hlt.trans (hr _ hbase)]⟩
      · rintro ⟨hc, hr⟩
        exact ⟨hc, fun r hm => hr r (.inl hm)⟩

/-- One arrival with a new stamp. -/
theorem Holds.receive (hh : Holds apply start P h held) {a : Hlc × Arrival}
    (hnew : a.1 ∉ P.map Prod.fst) (hlen : P.length < max)
    (hrec : receive (apply, max) (h, held) a = some (h', text)) :
    Holds apply start (P ++ [a]) h' text := by
  obtain ⟨at_, (edits | letter | key) | whole⟩ := a
  · simp only [TextHistory.receive, TextHistory.apply] at hrec
    split at hrec
    · next hr =>
      simp only [Option.some.injEq, Prod.mk.injEq] at hrec
      obtain ⟨rfl, rfl⟩ := hrec
      exact hh.record hnew hlen hr
    · simp at hrec
  · exact hh.record hnew hlen (record_of_setPri (Option.some.inj hrec))
  · exact hh.record hnew hlen (record_of_removeTag (Option.some.inj hrec))
  · exact hh.reset (Option.some.inj hrec)

end Step

/-- Arrivals with distinct stamps, at most `max` of them, none refused. -/
theorem holds_receiveAll {start : Text} (as : List (Hlc × Arrival)) (hd : (as.map Prod.fst).Nodup)
    (hmax : as.length ≤ max) {h : TextHistory} {text : Text}
    (hrun : receiveAll (apply, max) start as = some (h, text)) : Holds apply start as h text := by
  suffices hgen : ∀ rest P h₀ held, Holds apply start P h₀ held → P ++ rest = as →
      rest.foldlM (receive (apply, max)) (h₀, held) = some (h, text) →
      Holds apply start as h text from
    hgen as [] _ _ (holds_new apply start) rfl hrun
  intro rest
  induction rest with
  | nil =>
    rintro P h₀ held hP rfl hrun
    simp only [List.foldlM_nil, Option.pure_def, Option.some.injEq, Prod.mk.injEq] at hrun
    obtain ⟨rfl, rfl⟩ := hrun
    simpa using hP
  | cons a rest ih =>
    intro P h₀ held hP hsplit hrun
    rw [List.foldlM_cons, Option.bind_eq_bind, Option.bind_eq_some_iff] at hrun
    obtain ⟨⟨h₁, text₁⟩, hstep, hrun⟩ := hrun
    have hlen : P.length < max := by
      have := congrArg List.length hsplit
      simp only [List.length_append, List.length_cons] at this
      omega
    have hnew : a.1 ∉ P.map Prod.fst := by
      rw [← hsplit, List.map_append, List.map_cons, List.nodup_append] at hd
      exact fun hmem => hd.2.2 _ hmem _ (List.mem_cons_self ..) rfl
    exact ih (P ++ [a]) h₁ text₁ (hP.receive hnew hlen hstep) (by simpa using hsplit) hrun

/-- The newest reset is the one every other is older than. -/
theorem newestReset_eq {P : List (Hlc × Arrival)} {r : Hlc × Text} (hd : (P.map Prod.fst).Nodup)
    (hmem : r ∈ P.filterMap Arrival.asReset) (hmax : ∀ r' ∈ P.filterMap Arrival.asReset, r'.1 ≤ r.1) :
    newestReset P = some r := by
  cases hnew : newestReset P with
  | none => simp [Iter.maxByKey_eq_none.1 hnew] at hmem
  | some m =>
    have hm := Iter.maxByKey_mem hnew
    have heq : m.1 = r.1 := le_antisymm (hmax m hm) (Iter.le_maxByKey hnew hmem)
    have := List.inj_on_of_nodup_map hd (mem_asReset.1 hm) (mem_asReset.1 hmem) heq
    simp only [Prod.mk.injEq, Arrival.reset.injEq] at this
    rw [Prod.ext this.1 this.2]

/-- A stamp above the newest reset is above every reset. -/
theorem newestReset_all_iff {P : List (Hlc × Arrival)} {at_ : Hlc} :
    ((newestReset P).all fun r => r.1 < at_) = true ↔
      ∀ r ∈ P.filterMap Arrival.asReset, r.1 < at_ := by
  cases hnew : newestReset P with
  | none => simp [Iter.maxByKey_eq_none.1 hnew]
  | some m =>
    simp only [Option.all_some, decide_eq_true_eq]
    exact ⟨fun hlt r hr => (Iter.le_maxByKey hnew hr).trans_lt hlt,
      fun hall => hall m (Iter.maxByKey_mem hnew)⟩

theorem changes_stamps_sublist (P : List (Hlc × Arrival)) :
    ((P.filterMap Arrival.asChange).map Prod.fst).Sublist (P.map Prod.fst) := by
  induction P with
  | nil => exact .slnil
  | cons a P ih =>
    obtain ⟨at_, c | text⟩ := a
    · simpa [Arrival.asChange] using ih
    · rw [List.filterMap_cons_none rfl]
      exact ih.cons at_

/-- What a history holds is the settled text of what came. -/
theorem Holds.settled {start : Text} {P : List (Hlc × Arrival)} {h : TextHistory} {text : Text}
    (hh : Holds apply start P h text) (hd : (P.map Prod.fst).Nodup) :
    text = settledText apply start P := by
  have hchanges : ((P.filterMap Arrival.asChange).map Prod.fst).Nodup :=
    hd.sublist (changes_stamps_sublist P)
  have hbase : h.base = (newestReset P).elim start fun r => r.2 := by
    rcases hh.base with ⟨hnil, -, hb⟩ | hmem
    · simp [newestReset, hnil, Iter.maxByKey, hb]
    · rw [newestReset_eq hd hmem hh.floor]; rfl
  have hedits : h.edits = ((P.filterMap Arrival.asChange).filter fun e =>
      (newestReset P).all fun r => r.1 < e.1).insertionSort fun a b => a.1 ≤ b.1 := by
    refine hh.sorted.eq_of_mem_iff (sorted_insertionSort ?_) fun e => ?_
    · exact hchanges.sublist (List.filter_sublist.map _)
    · rw [hh.kept, List.mem_insertionSort, List.mem_filter, newestReset_all_iff]
  rw [hh.text, replay, settledText, hedits, hbase]

/-- The settled text does not depend on the order. -/
theorem settledText_perm {start : Text} {as bs : List (Hlc × Arrival)} (hp : bs.Perm as)
    (hd : (as.map Prod.fst).Nodup) :
    settledText apply start bs = settledText apply start as := by
  have hnewest : newestReset bs = newestReset as := by
    cases hnew : newestReset as with
    | none =>
      have hnil := Iter.maxByKey_eq_none.1 hnew
      have hperm := hp.filterMap Arrival.asReset
      rw [hnil, List.perm_nil] at hperm
      exact Iter.maxByKey_eq_none.2 hperm
    | some m =>
      have hperm := hp.filterMap Arrival.asReset
      refine newestReset_eq ((hp.map _).nodup_iff.2 hd) (hperm.mem_iff.2 (Iter.maxByKey_mem hnew)) ?_
      exact fun r hr => Iter.le_maxByKey hnew (hperm.mem_iff.1 hr)
  have hsorted : ∀ l : List (Hlc × Arrival), (l.map Prod.fst).Nodup →
      Sorted Prod.fst (((l.filterMap Arrival.asChange).filter fun e =>
        (newestReset as).all fun r => r.1 < e.1).insertionSort fun a b => a.1 ≤ b.1) := fun l hl =>
    sorted_insertionSort ((hl.sublist (changes_stamps_sublist l)).sublist
      (List.filter_sublist.map _))
  have hedits := (hsorted bs ((hp.map _).nodup_iff.2 hd)).eq_of_mem_iff (hsorted as hd) fun e => by
    simp [List.mem_insertionSort, (hp.filterMap Arrival.asChange).mem_iff]
  simp only [settledText, hnewest, hedits]

/-- Any two orders of arrivals with distinct stamps, at most `max` of them, none refused, end with
the same text: the newest reset's with every newer change in stamp order. -/
theorem arrivals_converge (apply : ApplyEdits) (max : Nat) (start : Text)
    (as : List (Hlc × Arrival)) (hd : (as.map Prod.fst).Nodup) (hmax : as.length ≤ max)
    {bs cs : List (Hlc × Arrival)} (hbs : bs.Perm as) (hcs : cs.Perm as)
    {hb hc : TextHistory} {textB textC : Text}
    (hrunB : receiveAll (apply, max) start bs = some (hb, textB))
    (hrunC : receiveAll (apply, max) start cs = some (hc, textC)) :
    textB = settledText apply start as ∧ textC = settledText apply start as := by
  have hend : ∀ {ds : List (Hlc × Arrival)} {h : TextHistory} {text : Text}, ds.Perm as →
      receiveAll (apply, max) start ds = some (h, text) → text = settledText apply start as := by
    intro ds h text hp hrun
    have hdd : (ds.map Prod.fst).Nodup := (hp.map _).nodup_iff.2 hd
    have hlen : ds.length ≤ max := hp.length_eq.le.trans hmax
    rw [(holds_receiveAll ds hdd hlen hrun).settled hdd, settledText_perm hp hd]
  exact ⟨hend hbs hrunB, hend hcs hrunC⟩

/-- A splice and a newer completion's `pri:`, in both orders. -/
theorem arrivals_converge_splice_pri :
    let splice : Hlc × Arrival := (⟨1, 0, ⟨1⟩⟩, .change (.splice [.insert 0 ['b']]))
    let pri : Hlc × Arrival := (⟨2, 0, ⟨2⟩⟩, .change (.pri 'A'))
    "ba pri:A".toList = settledText applyTextEdits ['a'] [splice, pri] ∧
      "ba pri:A".toList = settledText applyTextEdits ['a'] [splice, pri] :=
  arrivals_converge applyTextEdits 64 ['a'] _ (by decide) (by decide) (.refl _) (.swap _ _ _)
    rfl rfl

end TextHistory

end Txtodo
