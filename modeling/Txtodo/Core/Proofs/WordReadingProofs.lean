import Txtodo.Core.Proofs.GrammarProofs

/-!
# Reading words

How the strict parser reads a line's words: the completion mark or a priority, a creation date, the
description. What it reads is the derivation with the longest prefix.
-/

namespace Txtodo.Grammar

/-- A word as the scanner sees it. -/
def IsRun (w : Text) : Prop := w ≠ [] ∧ ∀ c ∈ w, isWs c = false

theorem IsNonSp.isWs {c : Char} (h : IsNonSp c) : isWs c = false := by
  unfold IsNonSp at h
  unfold Txtodo.isWs
  rw [Bool.or_eq_false_iff, decide_eq_false_iff_not, decide_eq_false_iff_not]
  constructor
  · rintro rfl
    revert h
    decide
  · rintro rfl
    revert h
    decide

theorem Many.isRun {w : Text} (h : Many IsNonSp w) : IsRun w :=
  ⟨h.1, fun c hc => (h.2 c hc).isWs⟩

theorem spaced_head (ws : List Text) : ∀ c ∈ (spaced ws).head?, isWs c = true := by
  cases ws with
  | nil => simp
  | cons w ws =>
    rintro c hc
    cases hc
    rfl

theorem DateShape.length {s : Text} {year month day : Nat} (h : DateShape s year month day) :
    s.length = 10 := by
  obtain ⟨_, _, _, _, _, _, _, _, rfl, -⟩ := dateShape_iff.1 h
  rfl

theorem IsPriority.length {s : Text} {priority : Priority} (h : IsPriority s priority) :
    s.length = 3 := by
  rw [IsPriority] at h
  rw [h]
  rfl

theorem IsPriority.not_date {s : Text} {priority : Priority} (h : IsPriority s priority)
    (date : Date) : ¬IsDate s date := fun hdate => by
  have hlen := hdate.length
  rw [h.length] at hlen
  cases hlen

theorem mark_not_date (date : Date) : ¬IsDate ['x'] date := fun h => by cases h.length

theorem mark_not_priority (priority : Priority) : ¬IsPriority ['x'] priority := fun h => by
  cases h.length

theorem joined_length_le {vs ws : List Text} (h : vs <:+ ws) :
    (joined vs).length ≤ (joined ws).length := by
  induction ws with
  | nil => rw [List.suffix_nil.1 h]
  | cons w ws ih =>
    rcases List.suffix_cons_iff.1 h with rfl | hsuf
    · exact le_rfl
    · refine (ih hsuf).trans ?_
      rw [joined_cons, List.length_append]
      cases ws with
      | nil => simp
      | cons v ws => rw [spaced_cons, List.length_cons]; omega

theorem joined_length_lt {w : Text} (hw : w ≠ []) (ws : List Text) :
    (joined ws).length < (joined (w :: ws)).length := by
  have hpos := List.length_pos_of_ne_nil hw
  rw [joined_cons, List.length_append]
  cases ws with
  | nil => simpa using hpos
  | cons v ws => rw [spaced_cons, List.length_cons]; omega

theorem IsDate.unique {w : Text} {date date' : Date} (h : IsDate w date) (h' : IsDate w date') :
    date = date' :=
  Option.some_inj.1 ((parse_date_iff.2 h).symm.trans (parse_date_iff.2 h'))

theorem IsPriority.unique {w : Text} {priority priority' : Priority} (h : IsPriority w priority)
    (h' : IsPriority w priority') : priority = priority' := by
  rw [IsPriority] at h h'
  rw [h] at h'
  cases priority
  cases priority'
  simpa using h'

/-! ## What is read -/

section Read
variable {ws : List Text}

/-- What the creation date's place holds: `ws` before it is read, `vs` after. -/
inductive CreationRead : List Text → Option Date → List Text → Prop where
  | nil : CreationRead [] none []
  | date {w : Text} {ws : List Text} {date : Date} (h : IsDate w date) :
      CreationRead (w :: ws) (some date) ws
  | other {w : Text} {ws : List Text} (h : ∀ date, ¬IsDate w date)
      (hshape : ¬∃ year month day, DateShape w year month day) : CreationRead (w :: ws) none (w :: ws)

/-- What a priority's place holds: `ws` before it is read, `us` after. -/
inductive PriorityRead : List Text → Option Priority → List Text → Prop where
  | nil : PriorityRead [] none []
  | priority {w : Text} {ws : List Text} {priority : Priority} (h : IsPriority w priority) :
      PriorityRead (w :: ws) (some priority) ws
  | other {w : Text} {ws : List Text} (h : ∀ priority, ¬IsPriority w priority) :
      PriorityRead (w :: ws) none (w :: ws)

theorem exists_priorityRead (ws : List Text) : ∃ priority us, PriorityRead ws priority us := by
  cases ws with
  | nil => exact ⟨_, _, .nil⟩
  | cons w ws =>
    by_cases h : ∃ priority, IsPriority w priority
    · obtain ⟨priority, h⟩ := h
      exact ⟨_, _, .priority h⟩
    · exact ⟨_, _, .other fun priority hp => h ⟨priority, hp⟩⟩

/-- A word of the shape of a date that is none comes first. -/
def ImpossibleHead (ws : List Text) : Prop :=
  ∃ w ∈ ws.head?, (∀ date, ¬IsDate w date) ∧ ∃ year month day, DateShape w year month day

theorem impossibleHead_or_read (ws : List Text) :
    ImpossibleHead ws ∨ ∃ creation vs, CreationRead ws creation vs := by
  cases ws with
  | nil => exact .inr ⟨_, _, .nil⟩
  | cons w ws =>
    by_cases hdate : ∃ date, IsDate w date
    · obtain ⟨date, hdate⟩ := hdate
      exact .inr ⟨_, _, .date hdate⟩
    · have hnone : ∀ date, ¬IsDate w date := fun date h => hdate ⟨date, h⟩
      by_cases hshape : ∃ year month day, DateShape w year month day
      · exact .inl ⟨w, rfl, hnone, hshape⟩
      · exact .inr ⟨_, _, .other hnone hshape⟩

theorem CreationRead.not_impossible {creation : Option Date} {vs : List Text}
    (h : CreationRead ws creation vs) : ¬ImpossibleHead ws := by
  rintro ⟨w, hw, hnone, hshape⟩
  cases h with
  | nil => cases hw
  | date h =>
    cases hw
    exact hnone _ h
  | other h hshape' =>
    cases hw
    exact hshape' hshape

/-- What the line starts with, the task so far and the words left: the completion mark and its date, a
priority, or neither. -/
inductive StartsAs : List Text → Task → List Text → Prop where
  | completed {w : Text} {ws : List Text} {completion : Date} (h : IsDate w completion) :
      StartsAs (['x'] :: w :: ws) ⟨true, some completion, none, none, []⟩ ws
  | priority {w : Text} {ws : List Text} {priority : Priority} (h : IsPriority w priority) :
      StartsAs (w :: ws) ⟨false, none, none, some priority, []⟩ ws
  | other {ws : List Text} (hmark : ∀ w vs date, ws = ['x'] :: w :: vs → ¬IsDate w date)
      (hpriority : ∀ w vs priority, ws = w :: vs → ¬IsPriority w priority) :
      StartsAs ws ⟨false, none, none, none, []⟩ ws

theorem StartsAs.creationDate {t : Task} {us : List Text} (h : StartsAs ws t us) :
    t.creationDate = none := by
  cases h <;> rfl

theorem exists_startsAs (ws : List Text) : ∃ t us, StartsAs ws t us := by
  by_cases hmark : ∃ w vs date, ws = ['x'] :: w :: vs ∧ IsDate w date
  · obtain ⟨w, vs, date, rfl, h⟩ := hmark
    exact ⟨_, _, .completed h⟩
  by_cases hpriority : ∃ w vs priority, ws = w :: vs ∧ IsPriority w priority
  · obtain ⟨w, vs, priority, rfl, h⟩ := hpriority
    exact ⟨_, _, .priority h⟩
  · exact ⟨_, _, .other (fun w vs date hw h => hmark ⟨w, vs, date, hw, h⟩)
      fun w vs priority hw h => hpriority ⟨w, vs, priority, hw, h⟩⟩

end Read

/-! ## Reading and deriving -/

section Words
variable {ws us vs : List Text} {t t' : Task} {creation : Option Date}

theorem CreationRead.suffix (h : CreationRead us creation vs) : vs <:+ us := by
  cases h with
  | nil => exact List.suffix_rfl
  | date h => exact List.suffix_cons _ _
  | other h hshape => exact List.suffix_rfl

theorem PriorityRead.suffix {read : Option Priority} (h : PriorityRead vs read us) : us <:+ vs := by
  cases h with
  | nil => exact List.suffix_rfl
  | priority h => exact List.suffix_cons _ _
  | other h => exact List.suffix_rfl

theorem CreationRead.of_date {w : Text} {date : Date} (h : CreationRead (w :: us) creation vs)
    (hdate : IsDate w date) : vs = us := by
  cases h with
  | date h => rfl
  | other h hshape => exact absurd hdate (h date)

theorem StartsAs.suffix (h : StartsAs ws t us) : us <:+ ws := by
  cases h with
  | completed h => exact (List.suffix_cons _ _).trans (List.suffix_cons _ _)
  | priority h => exact List.suffix_cons _ _
  | other hmark hpriority => exact List.suffix_rfl

/-- What the parser reads is a derivation. -/
theorem StartsAs.wordDerives (hne : ws ≠ []) (h : StartsAs ws t us)
    (hread : CreationRead us creation vs) :
    WordDerives ws { t with creationDate := creation, description := joined vs } := by
  cases h with
  | completed h =>
    cases hread with
    | nil => exact .completed h
    | date hdate => exact .completedCreated h hdate
    | other => exact .completed h
  | priority h =>
    cases hread with
    | nil => exact .priority h
    | date hdate => exact .priorityCreated h hdate
    | other => exact .priority h
  | other =>
    cases hread with
    | nil => exact absurd rfl hne
    | date hdate => exact .created hdate
    | other => exact .description hne

/-- No derivation leaves less to the description. -/
theorem StartsAs.least (h : StartsAs ws t us) (hread : CreationRead us creation vs)
    (h' : WordDerives ws t') : (joined vs).length ≤ t'.description.length := by
  have hsuf := hread.suffix.trans h.suffix
  cases h' with
  | completed h' =>
    cases h with
    | completed => exact joined_length_le hread.suffix
    | priority h => exact absurd h (mark_not_priority _)
    | other hmark => exact absurd h' (hmark _ _ _ rfl)
  | completedCreated h' hcreation =>
    cases h with
    | completed => rw [hread.of_date hcreation]
    | priority h => exact absurd h (mark_not_priority _)
    | other hmark => exact absurd h' (hmark _ _ _ rfl)
  | priority h' =>
    cases h with
    | completed => exact absurd h' (mark_not_priority _)
    | priority => exact joined_length_le hread.suffix
    | other _ hpriority => exact absurd h' (hpriority _ _ _ rfl)
  | priorityCreated h' hcreation =>
    cases h with
    | completed => exact absurd h' (mark_not_priority _)
    | priority => rw [hread.of_date hcreation]
    | other _ hpriority => exact absurd h' (hpriority _ _ _ rfl)
  | created h' =>
    cases h with
    | completed => exact absurd h' (mark_not_date _)
    | priority h => exact absurd h' (h.not_date _)
    | other => rw [hread.of_date h']
  | description => exact joined_length_le hsuf

/-- A derivation that leaves as little to the description is the one the parser reads. -/
theorem StartsAs.unique (hws : ∀ w ∈ ws, w ≠ []) (h : StartsAs ws t us)
    (hread : CreationRead us creation vs) (h' : WordDerives ws t')
    (hle : t'.description.length ≤ (joined vs).length) :
    t' = { t with creationDate := creation, description := joined vs } := by
  have hshort : ∀ {w : Text} {ws : List Text}, w ≠ [] → ∀ {vs : List Text}, vs <:+ ws →
      ¬(joined (w :: ws)).length ≤ (joined vs).length := fun hw _ hsuf hle =>
    absurd ((joined_length_lt hw _).trans_le hle) (not_lt.2 (joined_length_le hsuf))
  cases h' with
  | completed h' =>
    cases h with
    | completed h =>
      obtain rfl := h.unique h'
      cases hread with
      | nil => rfl
      | date hdate => exact absurd hle (hshort hdate.word.1 List.suffix_rfl)
      | other => rfl
    | priority h => exact absurd h (mark_not_priority _)
    | other hmark => exact absurd h' (hmark _ _ _ rfl)
  | completedCreated h' hcreation =>
    cases h with
    | completed h =>
      obtain rfl := h.unique h'
      cases hread with
      | date hdate => rw [hdate.unique hcreation]
      | other hnone => exact absurd hcreation (hnone _)
    | priority h => exact absurd h (mark_not_priority _)
    | other hmark => exact absurd h' (hmark _ _ _ rfl)
  | priority h' =>
    cases h with
    | completed => exact absurd h' (mark_not_priority _)
    | priority h =>
      obtain rfl := h.unique h'
      cases hread with
      | nil => rfl
      | date hdate => exact absurd hle (hshort hdate.word.1 List.suffix_rfl)
      | other => rfl
    | other _ hpriority => exact absurd h' (hpriority _ _ _ rfl)
  | priorityCreated h' hcreation =>
    cases h with
    | completed => exact absurd h' (mark_not_priority _)
    | priority h =>
      obtain rfl := h.unique h'
      cases hread with
      | date hdate => rw [hdate.unique hcreation]
      | other hnone => exact absurd hcreation (hnone _)
    | other _ hpriority => exact absurd h' (hpriority _ _ _ rfl)
  | created h' =>
    cases h with
    | completed => exact absurd h' (mark_not_date _)
    | priority h => exact absurd h' (h.not_date _)
    | other =>
      cases hread with
      | date hdate => rw [hdate.unique h']
      | other hnone => exact absurd h' (hnone _)
  | description hne =>
    cases h with
    | completed =>
      exact absurd hle (hshort (by simp) (hread.suffix.trans (List.suffix_cons _ _)))
    | priority => exact absurd hle (hshort (hws _ (List.mem_cons_self ..)) hread.suffix)
    | other =>
      cases hread with
      | nil => rfl
      | date hdate => exact absurd hle (hshort hdate.word.1 List.suffix_rfl)
      | other => rfl

/-- A run in front of a space is the only one there. -/
theorem append_injective {w w' r r' : Text} (hw : IsRun w) (hw' : IsRun w')
    (hr : ∀ c ∈ r.head?, isWs c = true) (hr' : ∀ c ∈ r'.head?, isWs c = true)
    (h : w ++ r = w' ++ r') : w = w' ∧ r = r' := by
  have htake : ∀ {w r : Text}, IsRun w → (∀ c ∈ r.head?, isWs c = true) →
      (w ++ r).takeWhile (fun c => !isWs c) = w := by
    intro w r hw hr
    rw [List.takeWhile_append_of_pos fun c hc => by rw [hw.2 c hc]; rfl]
    cases r with
    | nil => simp
    | cons c r => rw [List.takeWhile_cons_of_neg (by simp [hr c rfl]), List.append_nil]
  have heq : w = w' := by rw [← htake hw hr, h, htake hw' hr']
  subst heq
  exact ⟨rfl, List.append_cancel_left h⟩

theorem StartsAs.impossibleDate (h : StartsAs ws t us) (himpossible : ImpossibleHead us) :
    ImpossibleDate (joined ws) := by
  obtain ⟨w, hw, hnone, hshape⟩ := himpossible
  have hafter : ∀ vs, spaced vs = [] ∨ (spaced vs).head? = some ' ' := by
    intro vs
    cases vs with
    | nil => exact .inl rfl
    | cons v vs => exact .inr rfl
  cases us with
  | nil => cases hw
  | cons v us =>
    cases hw
    cases h with
    | completed h =>
      refine ⟨_, w, spaced us, ?_, .completion h, hshape, hnone, hafter us⟩
      simp [joined_cons]
    | priority h =>
      refine ⟨_, w, spaced us, ?_, .priority h, hshape, hnone, hafter us⟩
      simp [joined_cons]
    | other => exact ⟨[], w, spaced us, rfl, .start, hshape, hnone, hafter us⟩

/-- The first word of a line of words. -/
theorem joined_split {w r : Text} (hws : ∀ v ∈ ws, IsRun v) (hw : IsRun w)
    (hr : ∀ c ∈ r.head?, isWs c = true) (h : joined ws = w ++ r) :
    ∃ vs, ws = w :: vs ∧ r = spaced vs := by
  cases ws with
  | nil => exact absurd (List.append_eq_nil_iff.1 h.symm).1 hw.1
  | cons v vs =>
    obtain ⟨rfl, rfl⟩ :=
      append_injective (hws v (List.mem_cons_self ..)) hw (spaced_head vs) hr h
    exact ⟨vs, rfl, rfl⟩

theorem spaced_eq_cons {r : Text} (h : ' ' :: r = spaced ws) : joined ws = r := by
  cases ws with
  | nil => cases h
  | cons w ws =>
    rw [spaced_cons] at h
    exact (List.cons.inj h).2.symm

theorem StartsAs.impossibleHead (h : StartsAs ws t us) (hws : ∀ w ∈ ws, IsRun w)
    (himpossible : ImpossibleDate (joined ws)) : ImpossibleHead us := by
  obtain ⟨before, w, after, heq, hbefore, hshape, hnone, hafter⟩ := himpossible
  have hrun : IsRun w := by
    obtain ⟨year, month, day, hdate⟩ := hshape
    exact hdate.word.isRun
  have hspace : ∀ c ∈ after.head?, isWs c = true := by
    rcases hafter with rfl | hafter
    · intro c hc
      cases hc
    · intro c hc
      rw [hafter] at hc
      cases hc
      rfl
  have hcut : ∀ {r : Text}, ∀ c ∈ (' ' :: r).head?, isWs c = true := by
    intro r c hc
    cases hc
    rfl
  cases hbefore with
  | start =>
    obtain ⟨vs, rfl, -⟩ := joined_split hws hrun hspace heq
    obtain ⟨year, month, day, hdate⟩ := hshape
    cases h with
    | completed => cases hdate.length
    | priority h =>
      have hlen := hdate.length
      rw [h.length] at hlen
      cases hlen
    | other => exact ⟨w, rfl, hnone, year, month, day, hdate⟩
  | priority hpriority =>
    rw [List.append_assoc] at heq
    obtain ⟨vs, rfl, hrest⟩ := joined_split hws hpriority.word.isRun hcut heq
    have hvs : ∀ v ∈ vs, IsRun v := fun v hv => hws v (List.mem_cons_of_mem _ hv)
    obtain ⟨vs, rfl, -⟩ := joined_split hvs hrun hspace (spaced_eq_cons hrest)
    cases h with
    | completed => exact absurd hpriority (mark_not_priority _)
    | priority => exact ⟨w, rfl, hnone, hshape⟩
    | other _ hother => exact absurd hpriority (hother _ _ _ rfl)
  | @completion s completion hcompletion =>
    have hmark : IsRun ['x'] := ⟨by simp, List.forall_mem_singleton.2 (by decide)⟩
    have heq : joined ws = ['x'] ++ ' ' :: (s ++ ' ' :: (w ++ after)) := by
      rw [heq, List.cons_append, List.cons_append, List.append_assoc]
      rfl
    obtain ⟨vs, rfl, hrest⟩ := joined_split hws hmark hcut heq
    have hvs : ∀ v ∈ vs, IsRun v := fun v hv => hws v (List.mem_cons_of_mem _ hv)
    obtain ⟨us, rfl, hlast⟩ := joined_split hvs hcompletion.word.isRun hcut (spaced_eq_cons hrest)
    have hus : ∀ v ∈ us, IsRun v := fun v hv => hvs v (List.mem_cons_of_mem _ hv)
    obtain ⟨vs, rfl, -⟩ := joined_split hus hrun hspace (spaced_eq_cons hlast)
    cases h with
    | completed => exact ⟨w, rfl, hnone, hshape⟩
    | priority h => exact absurd h (mark_not_priority _)
    | other hother => exact absurd hcompletion (hother _ _ _ rfl)

end Words

end Txtodo.Grammar
