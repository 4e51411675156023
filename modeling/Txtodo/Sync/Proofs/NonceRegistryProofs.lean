import Txtodo.Sync.NonceRegistry

/-!
# A nonce is good for one attempt

What a run of calls can accept: a nonce issued once is consumed once, in its window. A witnessed nonce is
accepted again only when its record was dropped and the offer's own time is not past.
-/

namespace Txtodo

open NonceRegistry

variable {r : NonceRegistry} {n m : Nonce} {nowMs issuedAtMs t : Nat}

namespace NonceEvent

/-- An issue of `n` that went well. -/
def issues (n : Nonce) (e : NonceEvent) : Bool := e.call = .issue n && e.result = .ok ()

/-- An attempt on `n`, issued here, that went well. -/
def consumes (n : Nonce) (e : NonceEvent) : Bool := e.call = .consume n && e.result = .ok ()

/-- An attempt on `n`, received in an offer, that went well. -/
def witnesses (n : Nonce) (e : NonceEvent) : Bool :=
  match e.call with
  | .witness m _ => m = n && e.result = .ok ()
  | _ => false

end NonceEvent

/-- Each nonce is issued at most once. -/
def IssuedOnce (events : List NonceEvent) : Prop := ∀ n, events.countP (NonceEvent.issues n) ≤ 1

/-- A nonce is good for one attempt, in its window. -/
structure SingleUse (events : List NonceEvent) : Prop where
  consumes : ∀ n, events.countP (NonceEvent.consumes n) ≤ 1
  witnesses : ∀ n, events.countP (NonceEvent.witnesses n) ≤ 1
  consumed_in_window : ∀ n t, ⟨.consume n, t, .ok ()⟩ ∈ events →
    ∃ issuedAt, ⟨.issue n, issuedAt, .ok ()⟩ ∈ events ∧ t ≤ issuedAt + PAIRING_WINDOW_MS
  witnessed_in_window : ∀ n issuedAtMs t, ⟨.witness n issuedAtMs, t, .ok ()⟩ ∈ events →
    t ≤ issuedAtMs + PAIRING_WINDOW_MS

/-- The registry still holds a record of `n` at `nowMs`. -/
def NonceRegistry.Remembers (r : NonceRegistry) (n : Nonce) (nowMs : Nat) : Prop :=
  ∃ consumedAt, r.consumed.find? n = some consumedAt ∧ nowMs ≤ consumedAt + CONSUMED_RETENTION_MS

/-! ## One call -/

theorem find?_prune_open :
    (r.prune nowMs).open.find? n = (r.open.find? n).filter fun t => nowMs - t ≤ PAIRING_WINDOW_MS :=
  OrdMap.find?_filter _

theorem find?_prune_consumed :
    (r.prune nowMs).consumed.find? n = (r.consumed.find? n).filter fun t => nowMs - t ≤ CONSUMED_RETENTION_MS :=
  OrdMap.find?_filter _

theorem isSome_prune_consumed : ((r.prune nowMs).consumed.find? n).isSome = true ↔ r.Remembers n nowMs := by
  rw [find?_prune_consumed, Option.isSome_iff_exists]
  refine exists_congr fun t => ?_
  rw [Option.filter_eq_some_iff, decide_eq_true_eq, Nat.sub_le_iff_le_add, Nat.add_comm]

theorem find?_open_issue :
    (r.issue n nowMs).2.open.find? m = some t → r.open.find? m = some t ∨
      ((r.issue n nowMs).1 = .ok () ∧ m = n ∧ t = nowMs) := by
  have hprune : ((r.prune nowMs).open.find? m = some t) → r.open.find? m = some t := fun h => by
    rw [find?_prune_open] at h
    exact (Option.filter_eq_some_iff.1 h).1
  unfold issue
  dsimp only
  split_ifs with hlive
  · exact fun h => .inl (hprune h)
  · intro h
    rw [OrdMap.find?_insert] at h
    split_ifs at h with hm
    · exact .inr ⟨rfl, hm, (Option.some.inj h).symm⟩
    · exact .inl (hprune h)

theorem find?_open_consume (h : (r.consume n nowMs).2.open.find? m = some t) : r.open.find? m = some t := by
  unfold NonceRegistry.consume at h
  split_ifs at h with hused
  · exact h
  · cases hopen : r.open.find? n with
    | none =>
      rw [hopen] at h
      exact h
    | some issuedAt =>
      rw [hopen] at h
      have herase : (r.open.erase n).find? m = some t := by
        dsimp only at h
        split_ifs at h <;> exact h
      rw [OrdMap.find?_erase] at herase
      split_ifs at herase
      exact herase

theorem find?_open_witness (h : (r.witness n issuedAtMs nowMs).2.open.find? m = some t) :
    r.open.find? m = some t := by
  have hprune : (r.prune nowMs).open.find? m = some t := by
    unfold witness at h
    dsimp only at h
    split_ifs at h <;> exact h
  rw [find?_prune_open] at hprune
  exact (Option.filter_eq_some_iff.1 hprune).1

/-- An attempt that goes well takes a nonce that was open, in its window. -/
theorem consume_ok (h : (r.consume n nowMs).1 = .ok ()) :
    (∃ issuedAt, r.open.find? n = some issuedAt ∧ nowMs ≤ issuedAt + PAIRING_WINDOW_MS) ∧
      (r.consume n nowMs).2.open.find? n = none := by
  unfold NonceRegistry.consume at h ⊢
  split_ifs at h ⊢ with hused
  cases hopen : r.open.find? n with
  | none =>
    rw [hopen] at h
    cases h
  | some issuedAt =>
    rw [hopen] at h
    dsimp only at h ⊢
    split_ifs at h ⊢ with hlate
    refine ⟨⟨issuedAt, rfl, by omega⟩, ?_⟩
    rw [OrdMap.find?_erase, if_pos rfl]

theorem witness_ok_iff : (r.witness n issuedAtMs nowMs).1 = .ok () ↔
    ¬r.Remembers n nowMs ∧ nowMs ≤ issuedAtMs + PAIRING_WINDOW_MS := by
  rw [← isSome_prune_consumed]
  unfold witness
  dsimp only
  split_ifs with hused hlate
  · exact ⟨fun h => (nomatch h), fun h => absurd hused h.1⟩
  · exact ⟨fun h => (nomatch h), fun h => by omega⟩
  · exact ⟨fun _ => ⟨hused, by omega⟩, fun _ => rfl⟩

/-- A nonce open after a call was open before, or has just been issued. -/
theorem find?_open_call {call : NonceCall} (h : (r.call nowMs call).2.open.find? m = some t) :
    r.open.find? m = some t ∨ ((r.call nowMs call).1 = .ok () ∧ call = .issue m ∧ t = nowMs) := by
  cases call with
  | issue n =>
    rcases find?_open_issue h with hopen | ⟨hok, rfl, ht⟩
    · exact .inl hopen
    · exact .inr ⟨hok, rfl, ht⟩
  | consume n => exact .inl (find?_open_consume h)
  | witness n issuedAtMs => exact .inl (find?_open_witness h)

/-- A record outlives a call, or is past its retention, or is made anew. -/
theorem find?_consumed_call (nowMs : Nat) (call : NonceCall) (h : r.consumed.find? n = some t) :
    (∃ consumedAt, (r.call nowMs call).2.consumed.find? n = some consumedAt ∧ (consumedAt = t ∨ consumedAt = nowMs)) ∨
      t + CONSUMED_RETENTION_MS < nowMs := by
  rcases le_or_gt nowMs (t + CONSUMED_RETENTION_MS) with hle | hgt
  · left
    have hpruned : (r.prune nowMs).consumed.find? n = some t := by
      rw [find?_prune_consumed, h, Option.filter_some, if_pos (by rw [decide_eq_true_eq]; omega)]
    have hinsert : ∀ (consumed : OrdMap Nonce Nat) (m : Nonce), consumed.find? n = some t →
        ∃ consumedAt, (consumed.insert m nowMs).find? n = some consumedAt ∧ (consumedAt = t ∨ consumedAt = nowMs) := by
      intro consumed m hsome
      rw [OrdMap.find?_insert]
      split_ifs
      · exact ⟨nowMs, rfl, .inr rfl⟩
      · exact ⟨t, hsome, .inl rfl⟩
    cases call with
    | issue m =>
      unfold NonceRegistry.call issue
      dsimp only
      split_ifs <;> exact ⟨t, hpruned, .inl rfl⟩
    | consume m =>
      unfold NonceRegistry.call NonceRegistry.consume
      dsimp only
      split_ifs with hused
      · exact ⟨t, h, .inl rfl⟩
      · cases r.open.find? m with
        | none => exact ⟨t, h, .inl rfl⟩
        | some issuedAt =>
          dsimp only
          split_ifs <;> exact hinsert _ m h
    | witness m issuedAtMs =>
      unfold NonceRegistry.call witness
      dsimp only
      split_ifs
      · exact ⟨t, hpruned, .inl rfl⟩
      all_goals exact hinsert _ m hpruned
  · exact .inr hgt

/-- An offer that goes well leaves its record. -/
theorem find?_consumed_witness (h : (r.witness n issuedAtMs nowMs).1 = .ok ()) :
    (r.witness n issuedAtMs nowMs).2.consumed.find? n = some nowMs := by
  unfold witness at h ⊢
  dsimp only at h ⊢
  split_ifs at h ⊢
  rw [OrdMap.find?_insert, if_pos rfl]

/-! ## Runs -/

section Run
variable {calls : List (NonceCall × Nat)} {c : NonceCall × Nat}

theorem after_concat (r : NonceRegistry) (calls : List (NonceCall × Nat)) (c : NonceCall × Nat) :
    r.after (calls ++ [c]) = ((r.after calls).call c.2 c.1).2 :=
  List.foldl_concat _ _ _ _

theorem events_append (r : NonceRegistry) (calls more : List (NonceCall × Nat)) :
    r.events (calls ++ more) = r.events calls ++ (r.after calls).events more := by
  induction calls generalizing r with
  | nil => rfl
  | cons c calls ih => exact congrArg (_ :: ·) (ih _)

theorem events_concat (r : NonceRegistry) (calls : List (NonceCall × Nat)) (c : NonceCall × Nat) :
    r.events (calls ++ [c]) = r.events calls ++ [⟨c.1, c.2, ((r.after calls).call c.2 c.1).1⟩] :=
  events_append r calls [c]

theorem IssuedOnce.of_append {events more : List NonceEvent} (h : IssuedOnce (events ++ more)) :
    IssuedOnce events := fun n => by
  have := h n
  rw [List.countP_append] at this
  omega

theorem countP_eq_zero_of_not_mem {events : List NonceEvent} (h : ∀ t, ⟨.consume n, t, .ok ()⟩ ∉ events) :
    events.countP (NonceEvent.consumes n) = 0 := by
  rw [List.countP_eq_zero]
  rintro ⟨call, t, result⟩ he hconsumes
  rw [NonceEvent.consumes, Bool.and_eq_true, decide_eq_true_eq, decide_eq_true_eq] at hconsumes
  obtain ⟨rfl, rfl⟩ := hconsumes
  exact h t he

/-- An issued nonce is counted. -/
theorem countP_issues_pos {events : List NonceEvent} (h : ⟨.issue n, t, .ok ()⟩ ∈ events) :
    0 < events.countP (NonceEvent.issues n) := List.countP_pos_iff.2 ⟨_, h, by simp [NonceEvent.issues]⟩

/-- What the open nonces say of the calls so far: each was issued at its time, and one consumed is open no
more. -/
structure OpenIssued (r : NonceRegistry) (events : List NonceEvent) : Prop where
  issued : ∀ n t, r.open.find? n = some t → ⟨.issue n, t, .ok ()⟩ ∈ events
  closed : ∀ n t, ⟨.consume n, t, .ok ()⟩ ∈ events → r.open.find? n = none ∧ ∃ t, ⟨.issue n, t, .ok ()⟩ ∈ events

theorem OpenIssued.step {events : List NonceEvent} (h : OpenIssued r events)
    (honce : IssuedOnce (events ++ [⟨c.1, c.2, (r.call c.2 c.1).1⟩])) :
    OpenIssued (r.call c.2 c.1).2 (events ++ [⟨c.1, c.2, (r.call c.2 c.1).1⟩]) := by
  refine ⟨fun n t hopen => ?_, fun n t hmem => ?_⟩
  · rcases find?_open_call hopen with hopen | ⟨hok, hcall, rfl⟩
    · exact List.mem_append_left _ (h.issued n t hopen)
    · rw [hok, hcall]
      exact List.mem_append_right _ (List.mem_singleton_self _)
  · rcases List.mem_append.1 hmem with hmem | hmem
    · obtain ⟨hclosed, issuedAt, hissued⟩ := h.closed n t hmem
      refine ⟨?_, issuedAt, List.mem_append_left _ hissued⟩
      -- it would have to be issued once more
      by_contra hopen
      obtain ⟨t', hopen⟩ := Option.ne_none_iff_exists'.1 hopen
      rcases find?_open_call hopen with hopen | ⟨hok, hcall, rfl⟩
      · rw [hclosed] at hopen
        cases hopen
      · have hcount := honce n
        have hbefore := countP_issues_pos hissued
        rw [List.countP_append, hok, hcall] at hcount
        have hnew := countP_issues_pos (List.mem_singleton_self (⟨.issue n, c.2, .ok ()⟩ : NonceEvent))
        omega
    · have hevent := List.mem_singleton.1 hmem
      obtain ⟨call, now⟩ := c
      injection hevent with hcall ht hok
      subst hcall
      subst ht
      obtain ⟨⟨issuedAt, hopen, -⟩, hclosed⟩ := consume_ok hok.symm
      exact ⟨hclosed, issuedAt, List.mem_append_left _ (h.issued n issuedAt hopen)⟩

theorem openIssued_after (calls : List (NonceCall × Nat)) (h : IssuedOnce (new.events calls)) :
    OpenIssued (new.after calls) (new.events calls) := by
  induction calls using List.reverseRecOn with
  | nil => exact ⟨fun n t hopen => (nomatch hopen), fun n t hmem => (nomatch hmem)⟩
  | append_singleton calls c ih =>
    rw [events_concat] at h ⊢
    rw [after_concat]
    exact (ih h.of_append).step h

/-- A nonce issued once is consumed once and in its window, and a witnessed one in the window of its offer. -/
theorem consumed_once (calls : List (NonceCall × Nat)) (h : IssuedOnce (new.events calls)) :
    (∀ n, (new.events calls).countP (NonceEvent.consumes n) ≤ 1) ∧
      (∀ n t, ⟨.consume n, t, .ok ()⟩ ∈ new.events calls →
        ∃ issuedAt, ⟨.issue n, issuedAt, .ok ()⟩ ∈ new.events calls ∧ t ≤ issuedAt + PAIRING_WINDOW_MS) ∧
      ∀ n issuedAtMs t, ⟨.witness n issuedAtMs, t, .ok ()⟩ ∈ new.events calls →
        t ≤ issuedAtMs + PAIRING_WINDOW_MS := by
  induction calls using List.reverseRecOn with
  | nil => exact ⟨fun n => Nat.zero_le _, fun n t hmem => (nomatch hmem), fun n i t hmem => (nomatch hmem)⟩
  | append_singleton calls c ih =>
    rw [events_concat] at h ⊢
    obtain ⟨honce, hwindow, hoffer⟩ := ih h.of_append
    have hopen := openIssued_after calls h.of_append
    refine ⟨fun n => ?_, fun n t hmem => ?_, fun n issuedAtMs t hmem => ?_⟩
    · rw [List.countP_append, List.countP_singleton]
      split_ifs with hnew
      · rw [NonceEvent.consumes, Bool.and_eq_true, decide_eq_true_eq, decide_eq_true_eq] at hnew
        obtain ⟨hcall, hok⟩ := hnew
        dsimp only at hcall hok
        rw [hcall] at hok
        obtain ⟨⟨issuedAt, hsome, -⟩, -⟩ := consume_ok hok
        rw [countP_eq_zero_of_not_mem fun t hmem => ?_]
        rw [(hopen.closed n t hmem).1] at hsome
        cases hsome
      · exact honce n
    · rcases List.mem_append.1 hmem with hmem | hmem
      · obtain ⟨issuedAt, hissued, hle⟩ := hwindow n t hmem
        exact ⟨issuedAt, List.mem_append_left _ hissued, hle⟩
      · obtain ⟨call, now⟩ := c
        injection List.mem_singleton.1 hmem with hcall ht hok
        subst hcall
        subst ht
        obtain ⟨⟨issuedAt, hsome, hle⟩, -⟩ := consume_ok hok.symm
        exact ⟨issuedAt, List.mem_append_left _ (hopen.issued n issuedAt hsome), hle⟩
    · rcases List.mem_append.1 hmem with hmem | hmem
      · exact hoffer n issuedAtMs t hmem
      · obtain ⟨call, now⟩ := c
        injection List.mem_singleton.1 hmem with hcall ht hok
        subst hcall
        subst ht
        exact (witness_ok_iff.1 hok.symm).2

/-- A nonce has been witnessed. -/
def Witnessed (events : List NonceEvent) (n : Nonce) : Prop := 0 < events.countP (NonceEvent.witnesses n)

/-- Every offer of a nonce witnessed before finds the record of it, or is past its window. -/
def RepeatsRefused (calls : List (NonceCall × Nat)) : Prop :=
  ∀ before n issuedAtMs nowMs later, calls = before ++ (.witness n issuedAtMs, nowMs) :: later →
    Witnessed (new.events before) n →
    (new.after before).Remembers n nowMs ∨ issuedAtMs + PAIRING_WINDOW_MS < nowMs

theorem witnesses_iff {e : NonceEvent} : e.witnesses n = true ↔
    ∃ issuedAtMs, e.call = .witness n issuedAtMs ∧ e.result = .ok () := by
  obtain ⟨call, t, result⟩ := e
  cases call <;> simp [NonceEvent.witnesses]

theorem witnessed_once_iff (calls : List (NonceCall × Nat)) :
    (∀ n, (new.events calls).countP (NonceEvent.witnesses n) ≤ 1) ↔ RepeatsRefused calls := by
  constructor
  · rintro h before n issuedAtMs nowMs later rfl hbefore
    by_contra hgood
    rw [not_or, not_lt] at hgood
    have hok : ((new.after before).call nowMs (.witness n issuedAtMs)).1 = .ok () := witness_ok_iff.2 hgood
    have hcount := h n
    rw [events_append, List.countP_append, events, List.countP_cons_of_pos (witnesses_iff.2 ⟨_, rfl, hok⟩)] at hcount
    unfold Witnessed at hbefore
    omega
  · intro h
    induction calls using List.reverseRecOn with
    | nil => exact fun n => Nat.zero_le _
    | append_singleton calls c ih =>
      intro n
      have hbefore : RepeatsRefused calls := fun before n issuedAtMs nowMs later heq =>
        h before n issuedAtMs nowMs (later ++ [c]) (by rw [heq, List.append_assoc, List.cons_append])
      have hcount := ih hbefore n
      rw [events_concat, List.countP_append, List.countP_singleton]
      split_ifs with hnew
      · obtain ⟨issuedAtMs, hcall, hok⟩ := witnesses_iff.1 hnew
        obtain ⟨call, now⟩ := c
        subst hcall
        obtain ⟨hforgot, hle⟩ := witness_ok_iff.1 hok
        have hfirst : ¬Witnessed (new.events calls) n := fun hbefore => by
          rcases h calls n issuedAtMs now [] rfl hbefore with hremembers | hlate
          · exact hforgot hremembers
          · omega
        unfold Witnessed at hfirst
        omega
      · exact hcount

/-- The events are those of the calls. -/
theorem mem_calls_of_event {e : NonceEvent} (h : e ∈ r.events calls) : (e.call, e.nowMs) ∈ calls := by
  induction calls generalizing r with
  | nil => cases h
  | cons c calls ih =>
    rcases List.mem_cons.1 h with rfl | h
    · exact List.mem_cons_self
    · exact List.mem_cons_of_mem _ (ih h)

/-- The calls come in the order of their times. -/
def Ordered (calls : List (NonceCall × Nat)) : Prop := calls.Pairwise fun c d => c.2 ≤ d.2

/-- A witnessed nonce keeps its record until its retention passes. -/
theorem keeps_record (calls : List (NonceCall × Nat)) (nowMs : Nat) (hordered : Ordered calls)
    (hnow : ∀ c ∈ calls, c.2 ≤ nowMs) (h : ⟨.witness n issuedAtMs, t, .ok ()⟩ ∈ new.events calls) :
    (∃ consumedAt, (new.after calls).consumed.find? n = some consumedAt ∧ t ≤ consumedAt) ∨
      t + CONSUMED_RETENTION_MS < nowMs := by
  induction calls using List.reverseRecOn generalizing nowMs with
  | nil => cases h
  | append_singleton calls c ih =>
    obtain ⟨hordered, -, hlast⟩ := List.pairwise_append.1 hordered
    have hc : c.2 ≤ nowMs := hnow c (List.mem_append_right _ (List.mem_singleton_self c))
    rw [after_concat]
    rw [events_concat] at h
    rcases List.mem_append.1 h with h | h
    · have hbefore := fun d hd => hlast d hd c (List.mem_singleton_self c)
      rcases ih c.2 hordered hbefore h with ⟨consumedAt, hsome, hle⟩ | hpast
      · rcases find?_consumed_call c.2 c.1 hsome with ⟨consumedAt', hsome', heq⟩ | hpast
        · refine .inl ⟨consumedAt', hsome', ?_⟩
          rcases heq with rfl | rfl
          · exact hle
          · exact hbefore _ (mem_calls_of_event h)
        · exact .inr (by omega)
      · exact .inr (by omega)
    · obtain ⟨call, now⟩ := c
      injection List.mem_singleton.1 h with hcall ht hok
      subst hcall
      subst ht
      exact .inl ⟨t, find?_consumed_witness hok.symm, le_rfl⟩

/-- A nonce offered again is not dated more than the retention, less the window, after the offer before. -/
def OffersDated (calls : List (NonceCall × Nat)) : Prop :=
  ∀ n issuedAtMs t before issuedAtMs' t' later, calls = before ++ (.witness n issuedAtMs', t') :: later →
    (.witness n issuedAtMs, t) ∈ before → issuedAtMs' + PAIRING_WINDOW_MS ≤ t + CONSUMED_RETENTION_MS

/-- Offers that are not dated far ahead are refused the second time. -/
theorem repeats_refused_of_dated (calls : List (NonceCall × Nat)) (hordered : Ordered calls)
    (h : OffersDated calls) : RepeatsRefused calls := by
  rintro before n issuedAtMs nowMs later rfl hbefore
  obtain ⟨⟨call, t, result⟩, hmem, hwitness⟩ := List.countP_pos_iff.1 hbefore
  obtain ⟨issuedAtMs', rfl, rfl⟩ := witnesses_iff.1 hwitness
  obtain ⟨hordered, -, hlast⟩ := List.pairwise_append.1 hordered
  have hdated := h n issuedAtMs' t before issuedAtMs nowMs later rfl (mem_calls_of_event hmem)
  have hnow := fun d hd => hlast d hd _ List.mem_cons_self
  rcases keeps_record before nowMs hordered hnow hmem with ⟨consumedAt, hsome, hle⟩ | hpast
  · rcases le_or_gt nowMs (consumedAt + CONSUMED_RETENTION_MS) with hkept | hdropped
    · exact .inl ⟨consumedAt, hsome, hkept⟩
    · exact .inr (by omega)
  · exact .inr (by omega)

end Run

/-- **A pairing nonce is good for one attempt** exactly when no offer of a witnessed nonce comes after its
record was dropped and with a time of its own that is not past the window. -/
theorem single_use_iff (calls : List (NonceCall × Nat)) (h : IssuedOnce (new.events calls)) :
    SingleUse (new.events calls) ↔ RepeatsRefused calls := by
  obtain ⟨honce, hwindow, hoffer⟩ := consumed_once calls h
  rw [← witnessed_once_iff]
  exact ⟨fun hsingle => hsingle.witnesses, fun hwitnesses => ⟨honce, hwitnesses, hwindow, hoffer⟩⟩

/-- A registry accepts an offer dated in the future, and again once it has dropped the record. -/
theorem not_single_use_of_future :
    ¬∀ calls : List (NonceCall × Nat), Ordered calls → IssuedOnce (new.events calls) →
      SingleUse (new.events calls) := by
  intro h
  have hevents : new.events [(.witness 7 960001, 0), (.witness 7 960001, 960001)] =
      [⟨.witness 7 960001, 0, .ok ()⟩, ⟨.witness 7 960001, 960001, .ok ()⟩] := by decide
  have hsingle := h [(.witness 7 960001, 0), (.witness 7 960001, 960001)] (by unfold Ordered; decide)
    (fun n => by rw [hevents]; exact Nat.zero_le _)
  have htwice := hsingle.witnesses 7
  rw [hevents] at htwice
  revert htwice
  decide

/-- A nonce issued and consumed, then one offered twice in its window. -/
theorem single_use_issued :
    SingleUse (new.events [(.issue 1, 0), (.consume 1, 5), (.witness 2 10, 20), (.witness 2 10, 30)]) := by
  have hevents : new.events [(.issue 1, 0), (.consume 1, 5), (.witness 2 10, 20), (.witness 2 10, 30)] =
      [⟨.issue 1, 0, .ok ()⟩, ⟨.consume 1, 5, .ok ()⟩, ⟨.witness 2 10, 20, .ok ()⟩,
        ⟨.witness 2 10, 30, .error .alreadyConsumed⟩] := by decide
  refine (single_use_iff _ fun n => ?_).2 (repeats_refused_of_dated _ (by unfold Ordered; decide) ?_)
  · rw [hevents]
    by_cases hn : 1 = n <;> simp [NonceEvent.issues, hn]
  · rintro n issuedAtMs t before issuedAtMs' t' later heq hmem
    have hlater : (.witness n issuedAtMs', t') ∈ [(NonceCall.issue 1, 0), (.consume 1, 5), (.witness 2 10, 20),
        (.witness 2 10, 30)] := by rw [heq]; exact List.mem_append_right _ List.mem_cons_self
    have hissued : issuedAtMs' = 10 := by simp at hlater; omega
    unfold PAIRING_WINDOW_MS CONSUMED_RETENTION_MS PAIRING_WINDOW_MS
    omega

end Txtodo
