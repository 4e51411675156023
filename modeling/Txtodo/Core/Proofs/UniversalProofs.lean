import Txtodo.Core.Universal

/-!
# Rows in the promised order

Grouping keeps every row under its heading. The order inside a group is packed into one number, so it is the
promised one exactly while no part of the number outgrows the room left for it.
-/

/-!
## Counting days

The day count of a date grows with the date: within a year that starts in March by month and day, and from one
such year to the next by its length.
-/

namespace Txtodo

/-- One date before another in the calendar. -/
def Date.Before (a b : Date) : Prop :=
  a.year < b.year ∨ a.year = b.year ∧ (a.month < b.month ∨ a.month = b.month ∧ a.day < b.day)

namespace Universal

variable {a b d : Date}

/-- The year that starts in March. -/
def marchYear (d : Date) : Int := if d.month ≤ 2 then d.year - 1 else d.year

/-- The day in the year that starts in March. -/
def marchDay (d : Date) : Int := (153 * (((d.month : Int) + 9) % 12) + 2) / 5 + d.day - 1

/-- The days before a year that starts in March. -/
def yearStart (y : Int) : Int := 365 * y + y / 4 - y / 100 + y / 400

theorem daysFromCivil_eq (d : Date) : daysFromCivil d = yearStart (marchYear d) + marchDay d - 719468 := by
  unfold daysFromCivil yearStart marchYear marchDay
  dsimp only
  split_ifs <;> omega

theorem yearStart_lt {y z : Int} (h : y < z) : yearStart (y + 1) ≤ yearStart z := by
  unfold yearStart
  omega

/-- The months' lengths, that of February by the rule of leap years. -/
theorem valid_cases (d : Date) : 1 ≤ d.day ∧
    ((d.month ∈ [1, 3, 5, 7, 8, 10, 12] ∧ d.day ≤ 31) ∨ (d.month ∈ [4, 6, 9, 11] ∧ d.day ≤ 30) ∨
      (d.month = 2 ∧ d.day ≤ 29 ∧ (d.day = 29 → d.year % 4 = 0 ∧ (d.year % 100 ≠ 0 ∨ d.year % 400 = 0)))) := by
  obtain ⟨year, month, day, hvalid⟩ := d
  dsimp only
  simp only [not_or, not_lt] at hvalid
  obtain ⟨-, hpos, hle, hday, hlen⟩ := hvalid
  refine ⟨Nat.pos_of_ne_zero hday, ?_⟩
  unfold daysInMonth at hlen
  dsimp only at hlen
  split_ifs at hlen with hlong hshort hleap
  · exact .inl ⟨hlong, hlen⟩
  · exact .inr (.inl ⟨hshort, hlen⟩)
  · simp only [List.mem_cons, List.not_mem_nil, or_false, not_or] at hlong hshort
    exact .inr (.inr ⟨by omega, hlen, fun _ => hleap⟩)
  · simp only [List.mem_cons, List.not_mem_nil, or_false, not_or] at hlong hshort
    exact .inr (.inr ⟨by omega, by omega, fun h => by omega⟩)

/-- A day of a year comes before the next year. -/
theorem marchDay_bounds (d : Date) :
    0 ≤ marchDay d ∧ yearStart (marchYear d) + marchDay d < yearStart (marchYear d + 1) := by
  obtain ⟨hday, hcases⟩ := valid_cases d
  unfold marchDay yearStart marchYear
  simp only [List.mem_cons, List.not_mem_nil, or_false] at hcases
  rcases hcases with ⟨hmonth, hlen⟩ | ⟨hmonth, hlen⟩ | ⟨hmonth, hlen, hleap⟩
  · split_ifs <;> omega
  · split_ifs <;> omega
  · rw [if_pos (by omega), hmonth]
    omega

/-- The month in the year that starts in March. -/
def marchMonth (d : Date) : Int := ((d.month : Int) + 9) % 12

/-- A month but February ends where the next one starts. -/
theorem month_end (h : marchMonth d < 11) :
    (153 * marchMonth d + 2) / 5 + d.day ≤ (153 * (marchMonth d + 1) + 2) / 5 := by
  obtain ⟨-, hcases⟩ := valid_cases d
  unfold marchMonth at h ⊢
  simp only [List.mem_cons, List.not_mem_nil, or_false] at hcases
  rcases hcases with ⟨hmonth, hlen⟩ | ⟨hmonth, hlen⟩ | ⟨hmonth, -, -⟩
  · omega
  · omega
  · omega

theorem month_bounds (d : Date) : 1 ≤ d.month ∧ d.month ≤ 12 ∧ 1 ≤ d.day := by
  obtain ⟨hday, hcases⟩ := valid_cases d
  simp only [List.mem_cons, List.not_mem_nil, or_false] at hcases
  omega

/-- Within a year the days go on from month to month. -/
theorem marchDay_lt (hyear : marchYear a = marchYear b) (h : a.Before b) : marchDay a < marchDay b := by
  have ha := month_bounds a
  have hb := month_bounds b
  have hmonth : marchMonth a < marchMonth b ∨ marchMonth a = marchMonth b ∧ a.day < b.day := by
    unfold Date.Before at h
    unfold marchYear at hyear
    unfold marchMonth
    split_ifs at hyear <;> omega
  change (153 * marchMonth a + 2) / 5 + a.day - 1 < (153 * marchMonth b + 2) / 5 + b.day - 1
  rcases hmonth with hlt | ⟨heq, hday⟩
  · have hend := month_end (d := a) (by unfold marchMonth at *; omega)
    omega
  · rw [heq]
    omega

theorem marchYear_le (h : a.Before b) : marchYear a ≤ marchYear b := by
  have ha := month_bounds a
  have hb := month_bounds b
  unfold Date.Before at h
  unfold marchYear
  split_ifs <;> omega

/-- A later date has more days before it. -/
theorem daysFromCivil_lt (h : a.Before b) : daysFromCivil a < daysFromCivil b := by
  rw [daysFromCivil_eq, daysFromCivil_eq]
  rcases (marchYear_le h).lt_or_eq with hlt | heq
  · have hend := (marchDay_bounds a).2
    have hstart := yearStart_lt hlt
    have hday := (marchDay_bounds b).1
    omega
  · have hday := marchDay_lt heq h
    rw [heq]
    omega

theorem before_trichotomy (a b : Date) : a.Before b ∨ a = b ∨ b.Before a := by
  obtain ⟨y, m, d, hv⟩ := a
  obtain ⟨y', m', d', hv'⟩ := b
  unfold Date.Before
  rw [Date.mk.injEq]
  dsimp only
  omega

/-- The day count orders dates as the calendar does. -/
theorem daysFromCivil_lt_iff : daysFromCivil a < daysFromCivil b ↔ a.Before b := by
  refine ⟨fun h => ?_, daysFromCivil_lt⟩
  rcases before_trichotomy a b with hlt | rfl | hgt
  · exact hlt
  · exact absurd h (lt_irrefl _)
  · exact absurd (daysFromCivil_lt hgt) (not_lt.2 h.le)

theorem daysFromCivil_inj : daysFromCivil a = daysFromCivil b ↔ a = b := by
  refine ⟨fun h => ?_, fun h => congrArg _ h⟩
  rcases before_trichotomy a b with hlt | heq | hgt
  · exact absurd h (daysFromCivil_lt hlt).ne
  · exact heq
  · exact absurd h (daysFromCivil_lt hgt).ne'

end Universal

end Txtodo

namespace Txtodo.Universal

/-- The date a row is due, if it is a real one. -/
def RowFacts.realDue (row : RowFacts) : Option Date := row.due.bind Date.parse

/-- `none` comes last. -/
def NoneLast {α : Type*} (before : α → α → Prop) : Option α → Option α → Prop
  | some a, some b => before a b
  | some _, none => True
  | none, _ => False

/-- One letter before another. -/
def LetterBefore (p q : Char) : Prop := p.toNat < q.toNat

/-- A row before another: open before done, then by due date, then by priority. -/
def Precedes (u v : RowFacts) : Prop :=
  (u.done = false ∧ v.done = true) ∨
    u.done = v.done ∧ (NoneLast Date.Before u.realDue v.realDue ∨
      u.realDue = v.realDue ∧ NoneLast LetterBefore u.priority v.priority)

/-- Rows the order does not tell apart. -/
def SameKey (u v : RowFacts) : Prop := u.done = v.done ∧ u.realDue = v.realDue ∧ u.priority = v.priority

/-- A place before another in a group, equal rows in the order they came in. -/
def Promised (rows : List RowFacts) (i j : Nat) : Prop :=
  ∃ u v, rows[i]? = some u ∧ rows[j]? = some v ∧ (Precedes u v ∨ SameKey u v ∧ i < j)

/-- What is promised of grouped rows. -/
structure Grouped (rows : List RowFacts) (groupBy : GroupBy) (today : Text) (groups : List (Text × List Nat)) :
    Prop where
  partition : (groups.map (·.2)).flatten.Perm (List.range rows.length)
  headings : (groups.map (·.1)).Nodup
  heading : ∀ g ∈ groups, ∀ i ∈ g.2, ∃ row, rows[i]? = some row ∧ groupName row groupBy today = g.1
  order : ∀ g ∈ groups, g.2.Pairwise (Promised rows)

/-- Days from today to a row's date. -/
def days (today : Text) (row : RowFacts) : Option Int := row.due.bind (daysBetween today)

/-- What a row's date counts. -/
def dayWeight (today : Text) (row : RowFacts) : Int := (days today row).elim 5000 (· + 1000)

/-- What a row's priority counts. -/
def letterWeight (row : RowFacts) : Int := row.priority.elim 9 fun p => (p.toNat : Int) - 64

/-- A difference that keeps two rows in order, the one to come first given first or not. -/
def Clear (first : Prop) (n : Int) : Prop := 0 < n ∨ n = 0 ∧ first

/-- The parts of the packed number leave each other room where `u` is to come before `v`. -/
structure Room (today : Text) (u v : RowFacts) (first : Prop) : Prop where
  done : u.done = false → v.done = true →
    Clear first (1000000 + 10 * (dayWeight today v - dayWeight today u) + (letterWeight v - letterWeight u))
  dated : u.done = v.done → ∀ d ∈ days today u, days today v = none →
    Clear first (10 * (4000 - d) + (letterWeight v - letterWeight u))
  days : u.done = v.done → ∀ d ∈ days today u, ∀ d' ∈ days today v, d < d' →
    Clear first (10 * (d' - d) + (letterWeight v - letterWeight u))
  letters : u.done = v.done → Universal.days today u = Universal.days today v → ∀ p ∈ u.priority,
    v.priority = none → Clear first ('I'.toNat - p.toNat)

section Order
variable {u v : RowFacts} {α : Type*} {before : α → α → Prop} {today : Text} {t : Date} {first : Prop}

theorem noneLast_asymm (h : ∀ a b, before a b → ¬before b a) (a b : Option α) (hab : NoneLast before a b) :
    ¬NoneLast before b a := by
  cases a with
  | none => exact hab.elim
  | some a =>
    cases b with
    | none => exact fun hba => hba
    | some b => exact h a b hab

theorem noneLast_trichotomy (h : ∀ a b, before a b ∨ a = b ∨ before b a) (a b : Option α) :
    NoneLast before a b ∨ a = b ∨ NoneLast before b a := by
  cases a with
  | none =>
    cases b with
    | none => exact .inr (.inl rfl)
    | some b => exact .inr (.inr trivial)
  | some a =>
    cases b with
    | none => exact .inl trivial
    | some b => exact (h a b).imp_right fun h => h.imp_left (congrArg some)

theorem before_asymm (a b : Date) (h : a.Before b) : ¬b.Before a := fun h' =>
  lt_asymm (daysFromCivil_lt h) (daysFromCivil_lt h')

theorem letterBefore_asymm (p q : Char) (h : LetterBefore p q) : ¬LetterBefore q p := Nat.lt_asymm h

theorem letterBefore_trichotomy (p q : Char) : LetterBefore p q ∨ p = q ∨ LetterBefore q p := by
  rcases Nat.lt_trichotomy p.toNat q.toNat with h | h | h
  · exact .inl h
  · exact .inr (.inl (Char.toNat_inj.1 h))
  · exact .inr (.inr h)

theorem precedes_asymm (h : Precedes u v) : ¬Precedes v u := by
  rintro (⟨hv, hu⟩ | ⟨hdone, h'⟩)
  · rcases h with ⟨hu', -⟩ | ⟨hdone, -⟩
    · rw [hu] at hu'
      cases hu'
    · rw [hu, hv] at hdone
      cases hdone
  · rcases h with ⟨hu, hv⟩ | ⟨-, h⟩
    · rw [hu, hv] at hdone
      cases hdone
    · rcases h with h | ⟨hdue, h⟩
      · rcases h' with h' | ⟨hdue, -⟩
        · exact noneLast_asymm before_asymm _ _ h h'
        · rw [hdue] at h
          exact noneLast_asymm before_asymm _ _ h h
      · rcases h' with h' | ⟨-, h'⟩
        · rw [hdue] at h'
          exact noneLast_asymm before_asymm _ _ h' h'
        · exact noneLast_asymm letterBefore_asymm _ _ h h'

theorem precedes_trichotomy (u v : RowFacts) : Precedes u v ∨ SameKey u v ∨ Precedes v u := by
  by_cases hdone : u.done = v.done
  · rcases noneLast_trichotomy before_trichotomy u.realDue v.realDue with h | hdue | h
    · exact .inl (.inr ⟨hdone, .inl h⟩)
    · rcases noneLast_trichotomy letterBefore_trichotomy u.priority v.priority with h | hpri | h
      · exact .inl (.inr ⟨hdone, .inr ⟨hdue, h⟩⟩)
      · exact .inr (.inl ⟨hdone, hdue, hpri⟩)
      · exact .inr (.inr (.inr ⟨hdone.symm, .inr ⟨hdue.symm, h⟩⟩))
    · exact .inr (.inr (.inr ⟨hdone.symm, .inl h⟩))
  · cases hu : u.done with
    | false =>
      rw [hu] at hdone
      exact .inl (.inl ⟨hu, Bool.eq_true_of_not_eq_false (Ne.symm hdone)⟩)
    | true =>
      rw [hu] at hdone
      exact .inr (.inr (.inl ⟨Bool.eq_false_of_not_eq_true (Ne.symm hdone), hu⟩))

theorem SameKey.symm (h : SameKey u v) : SameKey v u := ⟨h.1.symm, h.2.1.symm, h.2.2.symm⟩

theorem not_precedes_of_sameKey (h : SameKey u v) : ¬Precedes u v := fun hprecedes => by
  have hback : Precedes v u := by
    obtain ⟨hdone, hdue, hpri⟩ := h
    unfold Precedes at hprecedes ⊢
    rw [hdone, hdue, hpri] at hprecedes
    rw [hdone, hdue, hpri]
    exact hprecedes
  exact precedes_asymm hprecedes hback

/-! ## The packed number -/

/-- A row's days are those of its real date. -/
theorem days_eq (htoday : Date.parse today = some t) (row : RowFacts) :
    days today row = row.realDue.map fun d => daysFromCivil d - daysFromCivil t := by
  unfold days RowFacts.realDue
  cases row.due with
  | none => rfl
  | some due =>
    rw [Option.bind_some, Option.bind_some, daysBetween, htoday]
    cases Date.parse due <;> rfl

theorem rowRank_eq (row : RowFacts) (today : Text) :
    rowRank row today = (if row.done then 1000000 else 0) + 10 * dayWeight today row + letterWeight row := by
  unfold rowRank dayWeight letterWeight days
  dsimp only
  omega

theorem rowRank_sameKey (htoday : Date.parse today = some t) (h : SameKey u v) :
    rowRank u today = rowRank v today := by
  obtain ⟨hdone, hdue, hpri⟩ := h
  have hdays : days today u = days today v := by rw [days_eq htoday, days_eq htoday, hdue]
  rw [rowRank_eq, rowRank_eq, dayWeight, dayWeight, letterWeight, letterWeight, hdone, hdays, hpri]

theorem rank_diff (hdone : u.done = v.done) (today : Text) : rowRank v today - rowRank u today =
    10 * (dayWeight today v - dayWeight today u) + (letterWeight v - letterWeight u) := by
  rw [rowRank_eq, rowRank_eq, hdone]
  omega

theorem clear_iff {n : Int} (h : rowRank v today - rowRank u today = n) :
    (rowRank u today < rowRank v today ∨ rowRank u today = rowRank v today ∧ first) ↔ Clear first n := by
  unfold Clear
  exact or_congr (by omega) (and_congr_left fun _ => by omega)

theorem diff_done (hu : u.done = false) (hv : v.done = true) : rowRank v today - rowRank u today =
    1000000 + 10 * (dayWeight today v - dayWeight today u) + (letterWeight v - letterWeight u) := by
  rw [rowRank_eq, rowRank_eq, hu, hv, if_pos rfl, if_neg Bool.false_ne_true]
  omega

theorem diff_dated (hdone : u.done = v.done) {d : Int} (hd : days today u = some d) (hnone : days today v = none) :
    rowRank v today - rowRank u today = 10 * (4000 - d) + (letterWeight v - letterWeight u) := by
  rw [rank_diff hdone, dayWeight, dayWeight, hd, hnone, Option.elim_none, Option.elim_some]
  omega

theorem diff_days (hdone : u.done = v.done) {d d' : Int} (hd : days today u = some d) (hd' : days today v = some d') :
    rowRank v today - rowRank u today = 10 * (d' - d) + (letterWeight v - letterWeight u) := by
  rw [rank_diff hdone, dayWeight, dayWeight, hd, hd', Option.elim_some, Option.elim_some]
  omega

theorem diff_letters (hdone : u.done = v.done) (hdays : days today u = days today v) :
    rowRank v today - rowRank u today = letterWeight v - letterWeight u := by
  rw [rank_diff hdone, dayWeight, dayWeight, hdays]
  omega

theorem letterWeight_diff {p : Char} (hp : u.priority = some p) (hnone : v.priority = none) :
    letterWeight v - letterWeight u = 'I'.toNat - p.toNat := by
  rw [letterWeight, letterWeight, hp, hnone, Option.elim_none, Option.elim_some]
  change 9 - ((p.toNat : Int) - 64) = 73 - p.toNat
  omega

/-- The packed numbers decide as the order does exactly when their parts leave room. -/
theorem ranked_iff_room (htoday : Date.parse today = some t) :
    (Precedes u v → rowRank u today < rowRank v today ∨ rowRank u today = rowRank v today ∧ first) ↔
      Room today u v first := by
  have hu := days_eq htoday u
  have hv := days_eq htoday v
  constructor
  · intro h
    refine ⟨fun hopen hdone => ?_, fun hdone d hd hnone => ?_, fun hdone d hd d' hd' hlt => ?_,
      fun hdone hdays p hp hnone => ?_⟩
    · exact (clear_iff (diff_done hopen hdone)).1 (h (.inl ⟨hopen, hdone⟩))
    · refine (clear_iff (diff_dated hdone hd hnone)).1 (h (.inr ⟨hdone, .inl ?_⟩))
      rw [hd, eq_comm, Option.map_eq_some_iff] at hu
      rw [hnone, eq_comm, Option.map_eq_none_iff] at hv
      obtain ⟨a, ha, -⟩ := hu
      rw [ha, hv]
      trivial
    · refine (clear_iff (diff_days hdone hd hd')).1 (h (.inr ⟨hdone, .inl ?_⟩))
      rw [hd, eq_comm, Option.map_eq_some_iff] at hu
      rw [hd', eq_comm, Option.map_eq_some_iff] at hv
      obtain ⟨a, ha, rfl⟩ := hu
      obtain ⟨b, hb, rfl⟩ := hv
      rw [ha, hb]
      exact daysFromCivil_lt_iff.1 (by omega)
    · have hdue : u.realDue = v.realDue := by
        rw [hu, hv] at hdays
        refine Option.map_injective (fun a b hab => daysFromCivil_inj.1 ?_) hdays
        omega
      rw [← letterWeight_diff hp hnone]
      refine (clear_iff (diff_letters hdone hdays)).1 (h (.inr ⟨hdone, .inr ⟨hdue, ?_⟩⟩))
      rw [hp, hnone]
      trivial
  · rintro h (⟨hopen, hdone⟩ | ⟨hdone, hdue | ⟨hdue, hpri⟩⟩)
    · exact (clear_iff (diff_done hopen hdone)).2 (h.done hopen hdone)
    · cases ha : u.realDue with
      | none =>
        rw [ha] at hdue
        exact hdue.elim
      | some a =>
        rw [ha] at hdue hu
        cases hb : v.realDue with
        | none =>
          rw [hb] at hv
          exact (clear_iff (diff_dated hdone hu hv)).2 (h.dated hdone _ hu hv)
        | some b =>
          rw [hb] at hdue hv
          have hlt : daysFromCivil a - daysFromCivil t < daysFromCivil b - daysFromCivil t := by
            have := daysFromCivil_lt hdue
            omega
          exact (clear_iff (diff_days hdone hu hv)).2 (h.days hdone _ hu _ hv hlt)
    · have hdays : days today u = days today v := by rw [hu, hv, hdue]
      cases hp : u.priority with
      | none =>
        rw [hp] at hpri
        exact hpri.elim
      | some p =>
        cases hq : v.priority with
        | none =>
          rw [clear_iff (diff_letters hdone hdays), letterWeight_diff hp hq]
          exact h.letters hdone hdays p hp hq
        | some q =>
          rw [hp, hq] at hpri
          have hdiff := diff_letters hdone hdays
          rw [letterWeight, letterWeight, hp, hq, Option.elim_some, Option.elim_some] at hdiff
          have hlt : p.toNat < q.toNat := hpri
          exact .inl (by omega)

end Order

section Group
variable {rows : List RowFacts} {groupBy : GroupBy} {today : Text} {t : Date} {members : List Nat}

/-- A place's packed number. -/
def rankAt (rows : List RowFacts) (today : Text) (i : Nat) : Int := rows[i]?.elim 0 fun row => rowRank row today

theorem promised_asymm (i j : Nat) (h : Promised rows i j) : ¬Promised rows j i := by
  rintro ⟨v', u', hv', hu', h'⟩
  obtain ⟨u, v, hu, hv, h⟩ := h
  obtain rfl := Option.some.inj (hu.symm.trans hu')
  obtain rfl := Option.some.inj (hv.symm.trans hv')
  rcases h with h | ⟨hsame, hlt⟩
  · rcases h' with h' | ⟨hsame, -⟩
    · exact precedes_asymm h h'
    · exact not_precedes_of_sameKey hsame.symm h
  · rcases h' with h' | ⟨-, hlt'⟩
    · exact not_precedes_of_sameKey hsame.symm h'
    · omega

theorem promised_total {i j : Nat} (hi : i < rows.length) (hj : j < rows.length) (hne : i ≠ j) :
    Promised rows i j ∨ Promised rows j i := by
  have hu := List.getElem?_eq_getElem hi
  have hv := List.getElem?_eq_getElem hj
  rcases precedes_trichotomy rows[i] rows[j] with h | h | h
  · exact .inl ⟨_, _, hu, hv, .inl h⟩
  · rcases Nat.lt_or_gt_of_ne hne with hlt | hgt
    · exact .inl ⟨_, _, hu, hv, .inr ⟨h, hlt⟩⟩
    · exact .inr ⟨_, _, hv, hu, .inr ⟨h.symm, hgt⟩⟩
  · exact .inr ⟨_, _, hv, hu, .inl h⟩

/-- Two places are ranked as promised exactly when their rows leave each other room. -/
theorem promised_ranked_iff (htoday : Date.parse today = some t) {i j : Nat} {u v : RowFacts} (hu : rows[i]? = some u)
    (hv : rows[j]? = some v) : (Promised rows i j → Grouping.Before (rankAt rows today) i j) ↔ Room today u v (i < j) := by
  rw [← ranked_iff_room htoday, Grouping.Before, rankAt, rankAt, hu, hv, Option.elim_some, Option.elim_some]
  constructor
  · intro h hprecedes
    exact h ⟨u, v, hu, hv, .inl hprecedes⟩
  · rintro h ⟨u', v', hu', hv', hprecedes | ⟨hsame, hlt⟩⟩
    · obtain rfl := Option.some.inj (hu.symm.trans hu')
      obtain rfl := Option.some.inj (hv.symm.trans hv')
      exact h hprecedes
    · obtain rfl := Option.some.inj (hu.symm.trans hu')
      obtain rfl := Option.some.inj (hv.symm.trans hv')
      exact .inr ⟨rowRank_sameKey htoday hsame, hlt⟩

/-- A group's rows are in the promised order exactly when they leave each other room. -/
theorem pairwise_promised_iff (htoday : Date.parse today = some t) (hincreasing : members.Pairwise (· < ·))
    (hplaces : ∀ i ∈ members, i < rows.length) :
    (members.insertionSort fun i j => rankAt rows today i ≤ rankAt rows today j).Pairwise (Promised rows) ↔
      ∀ i ∈ members, ∀ j ∈ members, ∀ u v, rows[i]? = some u → rows[j]? = some v → Room today u v (i < j) := by
  have hmem : ∀ i, i ∈ (members.insertionSort fun i j => rankAt rows today i ≤ rankAt rows today j) ↔ i ∈ members :=
    fun i => List.mem_insertionSort _
  rw [Grouping.pairwise_iff (Grouping.pairwise_insertionSort (rankAt rows today) hincreasing)
    (fun i j h => h.asymm) promised_asymm fun i hi j hj hne =>
      promised_total (hplaces i ((hmem i).1 hi)) (hplaces j ((hmem j).1 hj)) hne]
  constructor
  · intro h i hi j hj u v hu hv
    exact (promised_ranked_iff htoday hu hv).1 (h i ((hmem i).2 hi) j ((hmem j).2 hj))
  · intro h i hi j hj
    have hi := (hmem i).1 hi
    have hj := (hmem j).1 hj
    have hu := List.getElem?_eq_getElem (hplaces i hi)
    have hv := List.getElem?_eq_getElem (hplaces j hj)
    exact (promised_ranked_iff htoday hu hv).2 (h i hi j hj _ _ hu hv)

/-- The groups before their rows are put in order. -/
def collected (rows : List RowFacts) (groupBy : GroupBy) (today : Text) : List (Text × List Nat) :=
  Grouping.collect (rows.map fun row => groupName row groupBy today)

theorem groups_collected (rows : List RowFacts) (groupBy : GroupBy) (today : Text) :
    Grouping.Groups (rows.map fun row => groupName row groupBy today) (collected rows groupBy today) :=
  Grouping.groups_collect _

/-- The groups of `group` are those collected, in another order, each with its rows in order. -/
theorem group_perm (toLowercase : Text → Text) (rows : List RowFacts) (groupBy : GroupBy) (today : Text)
    (workspaces : List Text) : ((group toLowercase rows groupBy today workspaces)).Perm
      ((collected rows groupBy today).map fun g =>
        (g.1, g.2.insertionSort fun i j => rankAt rows today i ≤ rankAt rows today j)) :=
  (List.perm_insertionSort _ _).map _

theorem getElem?_of_mem_collected {g : Text × List Nat} (hg : g ∈ collected rows groupBy today) {i : Nat}
    (hi : i ∈ g.2) : ∃ row, rows[i]? = some row ∧ groupName row groupBy today = g.1 := by
  have hname := (groups_collected rows groupBy today).keys g.1 g.2 hg i hi
  rw [List.getElem?_map] at hname
  exact Option.map_eq_some_iff.1 hname

/-- Two rows under one heading are in one group. -/
theorem mem_collected {i j : Nat} {u v : RowFacts} (hu : rows[i]? = some u) (hv : rows[j]? = some v)
    (hname : groupName u groupBy today = groupName v groupBy today) :
    ∃ g ∈ collected rows groupBy today, i ∈ g.2 ∧ j ∈ g.2 := by
  have hgroups := groups_collected rows groupBy today
  have hplace : ∀ i row, rows[i]? = some row →
      ∃ g ∈ collected rows groupBy today, i ∈ g.2 ∧ g.1 = groupName row groupBy today := by
    intro i row hrow
    have hi : i ∈ List.range (rows.map fun row => groupName row groupBy today).length := by
      rw [List.mem_range, List.length_map]
      exact (List.getElem?_eq_some_iff.1 hrow).1
    obtain ⟨members, hmembers, hi⟩ := List.mem_flatten.1 (hgroups.perm.mem_iff.2 hi)
    obtain ⟨g, hg, rfl⟩ := List.mem_map.1 hmembers
    obtain ⟨row', hrow', hname⟩ := getElem?_of_mem_collected hg hi
    obtain rfl := Option.some.inj (hrow.symm.trans hrow')
    exact ⟨g, hg, hi, hname.symm⟩
  obtain ⟨g, hg, hi, hgu⟩ := hplace i u hu
  obtain ⟨g', hg', hj, hgv⟩ := hplace j v hv
  have hsame : g = g' := List.inj_on_of_nodup_map hgroups.nodup hg hg' (by rw [hgu, hgv, hname])
  exact ⟨g, hg, hi, hsame ▸ hj⟩

theorem flatten_map_perm (f : Text × List Nat → List Nat) (hf : ∀ g, (f g).Perm g.2)
    (groups : List (Text × List Nat)) : (groups.map f).flatten.Perm (groups.map (·.2)).flatten := by
  induction groups with
  | nil => exact List.Perm.refl _
  | cons g groups ih =>
    rw [List.map_cons, List.map_cons, List.flatten_cons, List.flatten_cons]
    exact (hf g).append ih

end Group

/-- **Grouped rows keep the promise** exactly when, of every two rows under one heading, the parts of the packed
number leave each other room. -/
theorem grouped_iff (toLowercase : Text → Text) (rows : List RowFacts) (groupBy : GroupBy) (today : Text)
    (workspaces : List Text) (htoday : (Date.parse today).isSome = true) :
    Grouped rows groupBy today (group toLowercase rows groupBy today workspaces) ↔
      ∀ (i j : Nat) u v, rows[i]? = some u → rows[j]? = some v → groupName u groupBy today = groupName v groupBy today →
        Room today u v (i < j) := by
  obtain ⟨t, ht⟩ := Option.isSome_iff_exists.1 htoday
  have hgroups := groups_collected rows groupBy today
  have hperm := group_perm toLowercase rows groupBy today workspaces
  have horder : ∀ g ∈ collected rows groupBy today,
      ((g.2.insertionSort fun i j => rankAt rows today i ≤ rankAt rows today j).Pairwise (Promised rows) ↔
        ∀ i ∈ g.2, ∀ j ∈ g.2, ∀ u v, rows[i]? = some u → rows[j]? = some v → Room today u v (i < j)) := fun g hg =>
    pairwise_promised_iff ht (hgroups.increasing g.1 g.2 hg) fun i hi => by
      obtain ⟨row, hrow, -⟩ := getElem?_of_mem_collected hg hi
      exact (List.getElem?_eq_some_iff.1 hrow).1
  constructor
  · intro h i j u v hu hv hname
    obtain ⟨g, hg, hi, hj⟩ := mem_collected hu hv hname
    refine (horder g hg).1 ?_ i hi j hj u v hu hv
    exact h.order _ (hperm.mem_iff.2 (List.mem_map_of_mem hg))
  · intro h
    refine ⟨?_, ?_, fun g hg i hi => ?_, fun g hg => ?_⟩
    · refine ((hperm.map _).flatten).trans ?_
      rw [List.map_map]
      refine (flatten_map_perm _ (fun g => List.perm_insertionSort _ g.2) _).trans ?_
      have hpartition := hgroups.perm
      rwa [List.length_map] at hpartition
    · refine (hperm.map (·.1)).nodup_iff.2 ?_
      rw [List.map_map]
      exact hgroups.nodup
    · obtain ⟨g', hg', rfl⟩ := List.mem_map.1 (hperm.mem_iff.1 hg)
      exact getElem?_of_mem_collected hg' ((List.mem_insertionSort _).1 hi)
    · obtain ⟨g', hg', rfl⟩ := List.mem_map.1 (hperm.mem_iff.1 hg)
      refine (horder g' hg').2 fun i hi j hj u v hu hv => h i j u v hu hv ?_
      obtain ⟨u', hu', hnameU⟩ := getElem?_of_mem_collected hg' hi
      obtain ⟨v', hv', hnameV⟩ := getElem?_of_mem_collected hg' hj
      obtain rfl := Option.some.inj (hu.symm.trans hu')
      obtain rfl := Option.some.inj (hv.symm.trans hv')
      rw [hnameU, hnameV]

/-- Two open rows without a date, the first with the later letter. -/
theorem grouped_two : Grouped [⟨false, some 'B', none, none, none, []⟩, ⟨false, some 'A', none, none, none, []⟩] .project
    "2026-09-25".toList (group id [⟨false, some 'B', none, none, none, []⟩, ⟨false, some 'A', none, none, none, []⟩]
      .project "2026-09-25".toList []) := by
  refine (grouped_iff id _ .project "2026-09-25".toList [] (by decide)).2 fun i j u v hu hv _ => ?_
  have hplain : ∀ row ∈ [RowFacts.mk false (some 'B') none none none [], ⟨false, some 'A', none, none, none, []⟩],
      row.done = false ∧ row.due = none ∧ row.priority ≠ none := by decide
  obtain ⟨-, hdueU, -⟩ := hplain u (List.mem_of_getElem? hu)
  obtain ⟨hdoneV, -, hpriV⟩ := hplain v (List.mem_of_getElem? hv)
  have hdays : days "2026-09-25".toList u = none := by rw [days, hdueU, Option.bind_none]
  refine ⟨fun _ hdone => ?_, fun _ d hd => ?_, fun _ d hd => ?_, fun _ _ p _ hnone => absurd hnone hpriV⟩
  · rw [hdoneV] at hdone
    cases hdone
  · rw [hdays] at hd
    cases hd
  · rw [hdays] at hd
    cases hd

/-- A row of priority `J` goes behind one without a priority. -/
theorem not_grouped : ¬∀ (rows : List RowFacts) (groupBy : GroupBy) (today : Text) (workspaces : List Text),
    (Date.parse today).isSome = true → (∀ row ∈ rows, ∀ p ∈ row.priority, p.isUpper = true) →
    Grouped rows groupBy today (group id rows groupBy today workspaces) := by
  intro h
  have hgroup : group id [⟨false, none, none, none, none, []⟩, ⟨false, some 'J', none, none, none, []⟩] .project
      "2026-09-25".toList [] = [("No project".toList, [0, 1])] := by decide
  have hupper : ∀ row ∈ [RowFacts.mk false none none none none [], ⟨false, some 'J', none, none, none, []⟩],
      ∀ p ∈ row.priority, p.isUpper = true := by
    intro row hrow p hp
    rcases List.mem_cons.1 hrow with rfl | hrow
    · cases hp
    · obtain rfl := List.mem_singleton.1 hrow
      obtain rfl := Option.some.inj hp
      decide
  have hgrouped := h _ .project "2026-09-25".toList [] (by decide) hupper
  rw [hgroup] at hgrouped
  have hpair := hgrouped.order _ (List.mem_singleton_self _)
  obtain ⟨u, v, hu, hv, hfirst⟩ := (List.pairwise_cons.1 hpair).1 1 (List.mem_singleton_self _)
  obtain rfl := Option.some.inj hu
  obtain rfl := Option.some.inj hv
  rcases hfirst with (⟨-, hdone⟩ | ⟨-, hdue | ⟨-, hpri⟩⟩) | ⟨⟨-, -, hpri⟩, -⟩
  · cases hdone
  · exact hdue
  · exact hpri
  · cases hpri

end Txtodo.Universal
