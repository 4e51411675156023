import Txtodo.Core.Grammar
import Txtodo.Core.Parse

/-!
# The grammar on words

A derivation reads a line as its words with one space between them.
-/

namespace Txtodo.Grammar

/-! ## Words -/

/-- Words, each after a space. -/
def spaced (ws : List Text) : Text := ws.flatMap (' ' :: ·)

/-- Words with a space between them. -/
def joined : List Text → Text
  | [] => []
  | w :: ws => w ++ spaced ws

@[simp] theorem spaced_nil : spaced [] = [] := rfl

@[simp] theorem spaced_cons (w : Text) (ws : List Text) : spaced (w :: ws) = ' ' :: joined (w :: ws) :=
  rfl

@[simp] theorem joined_nil : joined [] = [] := rfl

theorem joined_cons (w : Text) (ws : List Text) : joined (w :: ws) = w ++ spaced ws := rfl

theorem IsKeyChar.isNonSp {c : Char} (h : IsKeyChar c) : IsNonSp c := by
  unfold IsKeyChar at h
  unfold IsNonSp
  omega

/-- Each kind of word is a plain one as well. -/
theorem word_iff {s : Text} : Word s ↔ Many IsNonSp s := by
  constructor
  · intro h
    cases h with
    | project h => exact ⟨by simp, List.forall_mem_cons.2 ⟨.inl (by decide), h.2⟩⟩
    | context h => exact ⟨by simp, List.forall_mem_cons.2 ⟨.inl (by decide), h.2⟩⟩
    | tag hkey hvalue =>
      refine ⟨by simp, List.forall_mem_append.2 ⟨fun c hc => (hkey.2 c hc).isNonSp, ?_⟩⟩
      exact List.forall_mem_cons.2 ⟨.inl (by decide), hvalue.2⟩
    | plain h => exact h
  · exact .plain

theorem description_iff {s : Text} : Description s ↔
    ∃ ws, ws ≠ [] ∧ (∀ w ∈ ws, Many IsNonSp w) ∧ s = joined ws := by
  constructor
  · intro h
    induction h with
    | word h => exact ⟨[_], by simp, by simpa using word_iff.1 h, by simp [joined_cons]⟩
    | more h hs ih =>
      obtain ⟨ws, hne, hws, rfl⟩ := ih
      refine ⟨_ :: ws, by simp, List.forall_mem_cons.2 ⟨word_iff.1 h, hws⟩, ?_⟩
      cases ws with
      | nil => exact absurd rfl hne
      | cons w ws => rfl
  · rintro ⟨ws, hne, hws, rfl⟩
    induction ws with
    | nil => exact absurd rfl hne
    | cons w ws ih =>
      obtain ⟨hw, hws⟩ := List.forall_mem_cons.1 hws
      cases ws with
      | nil => simpa [joined_cons] using Description.word (word_iff.2 hw)
      | cons v ws => exact .more (word_iff.2 hw) (ih (by simp) hws)

theorem optionalDescription_iff {s d : Text} : OptionalDescription s d ↔
    ∃ ws, (∀ w ∈ ws, Many IsNonSp w) ∧ s = spaced ws ∧ d = joined ws := by
  constructor
  · intro h
    cases h with
    | none => exact ⟨[], by simp, rfl, rfl⟩
    | some h =>
      obtain ⟨ws, hne, hws, rfl⟩ := description_iff.1 h
      cases ws with
      | nil => exact absurd rfl hne
      | cons w ws => exact ⟨w :: ws, hws, rfl, rfl⟩
  · rintro ⟨ws, hws, rfl, rfl⟩
    cases ws with
    | nil => exact .none
    | cons w ws => exact .some (description_iff.2 ⟨w :: ws, by simp, hws, rfl⟩)

theorem digit_isNonSp (d : Fin 10) : IsNonSp (digit d.val) := by
  revert d
  decide

theorem Digits.isNonSp {n value : Nat} {s : Text} (h : Digits n s value) :
    ∀ c ∈ s, IsNonSp c := by
  obtain ⟨ds, -, rfl, -⟩ := h
  intro c hc
  obtain ⟨d, -, rfl⟩ := List.mem_map.1 hc
  exact digit_isNonSp d

theorem DateShape.word {s : Text} {year month day : Nat} (h : DateShape s year month day) :
    Many IsNonSp s := by
  obtain ⟨y, m, d, rfl, hy, hm, hd⟩ := h
  refine ⟨by simp, List.forall_mem_append.2 ⟨hy.isNonSp, List.forall_mem_cons.2 ⟨.inl (by decide), ?_⟩⟩⟩
  exact List.forall_mem_append.2 ⟨hm.isNonSp, List.forall_mem_cons.2 ⟨.inl (by decide), hd.isNonSp⟩⟩

theorem IsPriority.word {s : Text} {priority : Priority} (h : IsPriority s priority) :
    Many IsNonSp s := by
  have hletter : 65 ≤ priority.letter.val ∧ priority.letter.val ≤ 90 := of_decide_eq_true priority.upper
  rw [IsPriority] at h
  subst h
  refine ⟨by simp, ?_⟩
  rintro c hc
  simp only [List.mem_cons, List.not_mem_nil, or_false] at hc
  rcases hc with rfl | rfl | rfl
  · exact .inl (by decide)
  · exact .inl ⟨le_trans (by decide) hletter.1, le_trans hletter.2 (by decide)⟩
  · exact .inl (by decide)

/-! ## Derivations on words -/

/-- The derivations of a task, the line as its words. -/
inductive WordDerives : List Text → Task → Prop where
  | completed {w : Text} {ws : List Text} {completion : Date} (h : IsDate w completion) :
      WordDerives (['x'] :: w :: ws) ⟨true, some completion, none, none, joined ws⟩
  | completedCreated {w v : Text} {ws : List Text} {completion creation : Date}
      (h : IsDate w completion) (hcreation : IsDate v creation) :
      WordDerives (['x'] :: w :: v :: ws) ⟨true, some completion, some creation, none, joined ws⟩
  | priority {w : Text} {ws : List Text} {priority : Priority} (h : IsPriority w priority) :
      WordDerives (w :: ws) ⟨false, none, none, some priority, joined ws⟩
  | priorityCreated {w v : Text} {ws : List Text} {priority : Priority} {creation : Date}
      (h : IsPriority w priority) (hcreation : IsDate v creation) :
      WordDerives (w :: v :: ws) ⟨false, none, some creation, some priority, joined ws⟩
  | created {w : Text} {ws : List Text} {creation : Date} (h : IsDate w creation) :
      WordDerives (w :: ws) ⟨false, none, some creation, none, joined ws⟩
  | description {ws : List Text} (h : ws ≠ []) : WordDerives ws ⟨false, none, none, none, joined ws⟩

/-- The line grammar, word by word. -/
theorem derives_task_iff {s : Text} {t : Task} : Derives s (.task t) ↔
    ∃ ws, (∀ w ∈ ws, Many IsNonSp w) ∧ s = joined ws ∧ WordDerives ws t := by
  have hx : Many IsNonSp ['x'] := ⟨by simp, List.forall_mem_singleton.2 (by decide)⟩
  constructor
  · intro h
    cases h with
    | completed h =>
      obtain ⟨hcompletion, hcreation, hdescription⟩ := h
      obtain ⟨ws, hws, rfl, rfl⟩ := optionalDescription_iff.1 hdescription
      cases hcreation with
      | none => exact ⟨_ :: _ :: ws, by simpa [hx, hcompletion.word] using hws, rfl, .completed hcompletion⟩
      | some hcreation =>
        refine ⟨_ :: _ :: _ :: ws, ?_, ?_, .completedCreated hcompletion hcreation⟩
        · simpa [hx, hcompletion.word, hcreation.word] using hws
        · rfl
    | incomplete h =>
      cases h with
      | priority hpriority hcreation hdescription =>
        obtain ⟨ws, hws, rfl, rfl⟩ := optionalDescription_iff.1 hdescription
        cases hcreation with
        | none => exact ⟨_ :: ws, by simpa [hpriority.word] using hws, rfl, .priority hpriority⟩
        | some hcreation =>
          refine ⟨_ :: _ :: ws, ?_, rfl, .priorityCreated hpriority hcreation⟩
          simpa [hpriority.word, hcreation.word] using hws
      | date hcreation hdescription =>
        obtain ⟨ws, hws, rfl, rfl⟩ := optionalDescription_iff.1 hdescription
        exact ⟨_ :: ws, by simpa [hcreation.word] using hws, rfl, .created hcreation⟩
      | description h =>
        obtain ⟨ws, hne, hws, rfl⟩ := description_iff.1 h
        exact ⟨ws, hws, rfl, .description hne⟩
  · rintro ⟨ws, hws, rfl, h⟩
    have hrest : ∀ {vs : List Text}, (∀ w ∈ vs, w ∈ ws) → OptionalDescription (spaced vs) (joined vs) :=
      fun hsub => optionalDescription_iff.2 ⟨_, fun w hw => hws w (hsub w hw), rfl, rfl⟩
    cases h with
    | completed h => exact .completed (.intro h .none (hrest (by simp +contextual)))
    | completedCreated h hcreation =>
      exact .completed (.intro h (.some hcreation) (hrest (by simp +contextual)))
    | priority h => exact .incomplete (.priority h .none (hrest (by simp +contextual)))
    | priorityCreated h hcreation =>
      exact .incomplete (.priority h (.some hcreation) (hrest (by simp +contextual)))
    | created h => exact .incomplete (.date h (hrest (by simp +contextual)))
    | description h => exact .incomplete (.description (description_iff.2 ⟨ws, h, hws, rfl⟩))

/-- The characters of a line the grammar derives. -/
theorem Derives.alphabet {s : Text} {kind : LineKind} (h : Derives s kind) :
    ∀ c ∈ s, IsNonSp c ∨ c = ' ' := by
  have hjoined : ∀ ws : List Text, (∀ w ∈ ws, Many IsNonSp w) →
      ∀ c ∈ joined ws, IsNonSp c ∨ c = ' ' := by
    intro ws
    induction ws with
    | nil => exact fun _ c hc => by cases hc
    | cons w ws ih =>
      intro hws c hc
      obtain ⟨hw, hws⟩ := List.forall_mem_cons.1 hws
      rcases List.mem_append.1 hc with hc | hc
      · exact .inl (hw.2 c hc)
      · cases ws with
        | nil => cases hc
        | cons v ws =>
          rcases List.mem_cons.1 hc with rfl | hc
          · exact .inr rfl
          · exact ih hws c hc
  cases kind with
  | blank =>
    cases h
    exact fun c hc => by cases hc
  | task t =>
    obtain ⟨ws, hws, rfl, -⟩ := derives_task_iff.1 h
    exact hjoined ws hws

/-! ## Dates -/

theorem isDigit_iff {c : Char} : c.isDigit = true ↔ ∃ d : Fin 10, c = digit d.val := by
  constructor
  · intro h
    rw [Char.isDigit, Bool.and_eq_true, decide_eq_true_eq, decide_eq_true_eq] at h
    have hlow : 48 ≤ c.toNat := h.1
    have hhigh : c.toNat ≤ 57 := h.2
    refine ⟨⟨c.toNat - 48, by omega⟩, ?_⟩
    have hcode : '0'.toNat + (c.toNat - 48) % 10 = c.toNat := by
      have hzero : '0'.toNat = 48 := rfl
      omega
    rw [digit, hcode, Char.ofNat_toNat]
  · rintro ⟨d, rfl⟩
    revert d
    decide

theorem digit_value (d : Fin 10) : (digit d.val).toNat - '0'.toNat = d.val := by
  revert d
  decide

/-- Reading digits is spelling them back. -/
theorem foldlM_digits_iff {s : Text} {start value : Nat} :
    s.foldlM (fun n d => if d.isDigit then some (n * 10 + (d.toNat - '0'.toNat)) else none) start =
        some value ↔
      ∃ ds : List (Fin 10), s = ds.map (fun d => digit d.val) ∧
        value = ds.foldl (fun value d => value * 10 + d.val) start := by
  induction s generalizing start with
  | nil =>
    rw [List.foldlM_nil]
    constructor
    · intro h
      exact ⟨[], rfl, (Option.some_inj.1 h).symm⟩
    · rintro ⟨ds, hs, rfl⟩
      rw [List.map_eq_nil_iff.1 hs.symm]
      rfl
  | cons c s ih =>
    rw [List.foldlM_cons]
    constructor
    · intro h
      split_ifs at h with hc
      · obtain ⟨d, rfl⟩ := isDigit_iff.1 hc
        obtain ⟨ds, rfl, hvalue⟩ := ih.1 h
        rw [digit_value] at hvalue
        exact ⟨d :: ds, rfl, hvalue⟩
      · cases h
    · rintro ⟨ds, hs, hvalue⟩
      cases ds with
      | nil => cases hs
      | cons d ds =>
        obtain ⟨rfl, rfl⟩ := List.cons.inj hs
        rw [if_pos (isDigit_iff.2 ⟨d, rfl⟩), digit_value]
        exact ih.2 ⟨ds, rfl, hvalue⟩

theorem digits_iff {n value : Nat} {s : Text} :
    Digits n s value ↔ s.length = n ∧ asciiNumber s = some value := by
  unfold asciiNumber
  rw [foldlM_digits_iff]
  constructor
  · rintro ⟨ds, hlen, rfl, hvalue⟩
    exact ⟨by rw [List.length_map, hlen], ds, rfl, hvalue⟩
  · rintro ⟨hlen, ds, rfl, hvalue⟩
    exact ⟨ds, by rw [← hlen, List.length_map], rfl, hvalue⟩

/-- Digits are read whenever all characters are digits. -/
theorem asciiNumber_isSome (s : Text) : (∃ value, asciiNumber s = some value) ↔
    s.all (·.isDigit) = true := by
  unfold asciiNumber
  constructor
  · rintro ⟨value, h⟩
    obtain ⟨ds, rfl, -⟩ := foldlM_digits_iff.1 h
    exact List.all_eq_true.2 fun c hc => by
      obtain ⟨d, -, rfl⟩ := List.mem_map.1 hc
      exact isDigit_iff.2 ⟨d, rfl⟩
  · intro h
    suffices hds : ∃ ds : List (Fin 10), s = ds.map fun d => digit d.val by
      obtain ⟨ds, hs⟩ := hds
      exact ⟨_, foldlM_digits_iff.2 ⟨ds, hs, rfl⟩⟩
    induction s with
    | nil => exact ⟨[], rfl⟩
    | cons c s ih =>
      rw [List.all_cons, Bool.and_eq_true] at h
      obtain ⟨d, rfl⟩ := isDigit_iff.1 h.1
      obtain ⟨ds, rfl⟩ := ih h.2
      exact ⟨d :: ds, rfl⟩

/-- The ten characters of a date. -/
theorem dateShape_iff {s : Text} {year month day : Nat} : DateShape s year month day ↔
    ∃ y1 y2 y3 y4 m1 m2 d1 d2 : Char, s = [y1, y2, y3, y4, '-', m1, m2, '-', d1, d2] ∧
      asciiNumber [y1, y2, y3, y4] = some year ∧ asciiNumber [m1, m2] = some month ∧
      asciiNumber [d1, d2] = some day := by
  constructor
  · rintro ⟨y, m, d, rfl, hy, hm, hd⟩
    obtain ⟨hylen, hy⟩ := digits_iff.1 hy
    obtain ⟨hmlen, hm⟩ := digits_iff.1 hm
    obtain ⟨hdlen, hd⟩ := digits_iff.1 hd
    obtain ⟨m1, m2, rfl⟩ := List.length_eq_two.1 hmlen
    obtain ⟨d1, d2, rfl⟩ := List.length_eq_two.1 hdlen
    obtain ⟨y1, y', rfl⟩ := List.exists_cons_of_length_eq_add_one hylen
    obtain ⟨y2, y3, y4, rfl⟩ := List.length_eq_three.1 (Nat.succ.inj hylen)
    exact ⟨y1, y2, y3, y4, m1, m2, d1, d2, rfl, hy, hm, hd⟩
  · rintro ⟨y1, y2, y3, y4, m1, m2, d1, d2, rfl, hy, hm, hd⟩
    exact ⟨[y1, y2, y3, y4], [m1, m2], [d1, d2], rfl, digits_iff.2 ⟨rfl, hy⟩,
      digits_iff.2 ⟨rfl, hm⟩, digits_iff.2 ⟨rfl, hd⟩⟩

theorem Date.new_eq_some {year month day : Nat} {date : Date} :
    Date.new year month day = some date ↔
      date.year = year ∧ date.month = month ∧ date.day = day := by
  unfold Date.new
  split_ifs with h
  · refine iff_of_false (by simp) ?_
    rintro ⟨rfl, rfl, rfl⟩
    exact date.valid h
  · constructor
    · intro heq
      cases heq
      exact ⟨rfl, rfl, rfl⟩
    · rintro ⟨rfl, rfl, rfl⟩
      rfl

theorem parse_date_iff {s : Text} {date : Date} : Date.parse s = some date ↔ IsDate s date := by
  rw [IsDate, dateShape_iff]
  constructor
  · intro h
    unfold Date.parse at h
    split at h
    · split_ifs at h with hdash
      obtain ⟨rfl, rfl⟩ := hdash
      obtain ⟨year, hyear, h⟩ := Option.bind_eq_some_iff.1 h
      obtain ⟨month, hmonth, h⟩ := Option.bind_eq_some_iff.1 h
      obtain ⟨day, hday, h⟩ := Option.bind_eq_some_iff.1 h
      obtain ⟨rfl, rfl, rfl⟩ := Date.new_eq_some.1 h
      exact ⟨_, _, _, _, _, _, _, _, rfl, hyear, hmonth, hday⟩
    · cases h
  · rintro ⟨y1, y2, y3, y4, m1, m2, d1, d2, rfl, hy, hm, hd⟩
    unfold Date.parse
    dsimp only
    rw [if_pos ⟨rfl, rfl⟩, hy, hm, hd]
    exact Date.new_eq_some.2 ⟨rfl, rfl, rfl⟩

theorem hasDateShape_iff {s : Text} :
    hasDateShape s = true ↔ ∃ year month day, DateShape s year month day := by
  simp only [dateShape_iff]
  constructor
  · intro h
    unfold hasDateShape at h
    split at h
    · rw [Bool.and_eq_true, Bool.and_eq_true, decide_eq_true_eq, decide_eq_true_eq] at h
      obtain ⟨⟨rfl, rfl⟩, hall⟩ := h
      rename_i y1 y2 y3 y4 m1 m2 d1 d2
      have hsplit : ([y1, y2, y3, y4].all (·.isDigit) && ([m1, m2].all (·.isDigit) &&
          [d1, d2].all (·.isDigit))) = true := by
        rw [← List.all_append, ← List.all_append]
        exact hall
      rw [Bool.and_eq_true, Bool.and_eq_true] at hsplit
      obtain ⟨year, hyear⟩ := (asciiNumber_isSome _).2 hsplit.1
      obtain ⟨month, hmonth⟩ := (asciiNumber_isSome _).2 hsplit.2.1
      obtain ⟨day, hday⟩ := (asciiNumber_isSome _).2 hsplit.2.2
      exact ⟨year, month, day, _, _, _, _, _, _, _, _, rfl, hyear, hmonth, hday⟩
    · cases h
  · rintro ⟨year, month, day, y1, y2, y3, y4, m1, m2, d1, d2, rfl, hy, hm, hd⟩
    have hy := (asciiNumber_isSome _).1 ⟨_, hy⟩
    have hm := (asciiNumber_isSome _).1 ⟨_, hm⟩
    have hd := (asciiNumber_isSome _).1 ⟨_, hd⟩
    simp only [List.all_cons, List.all_nil, Bool.and_true, Bool.and_eq_true] at hy hm hd
    simp [hasDateShape, hy, hm, hd]

theorem digit_congr {a b : Nat} (h : a % 10 = b % 10) : digit a = digit b := by
  rw [digit, digit, h]

theorem Digits.two {s : Text} {value : Nat} (h : Digits 2 s value) :
    s = [digit (value / 10), digit value] := by
  obtain ⟨ds, hlen, rfl, rfl⟩ := h
  obtain ⟨a, b, rfl⟩ := List.length_eq_two.1 hlen
  simp only [List.map_cons, List.map_nil, List.foldl_cons, List.foldl_nil]
  rw [digit_congr (show (a.val : Nat) % 10 = ((0 * 10 + a.val) * 10 + b.val) / 10 % 10 by omega),
    digit_congr (show (b.val : Nat) % 10 = ((0 * 10 + a.val) * 10 + b.val) % 10 by omega)]

theorem Digits.four {s : Text} {value : Nat} (h : Digits 4 s value) :
    s = [digit (value / 1000), digit (value / 100), digit (value / 10), digit value] := by
  obtain ⟨ds, hlen, rfl, rfl⟩ := h
  obtain ⟨a, ds, rfl⟩ := List.exists_cons_of_length_eq_add_one hlen
  obtain ⟨b, c, d, rfl⟩ := List.length_eq_three.1 (Nat.succ.inj hlen)
  simp only [List.map_cons, List.map_nil, List.foldl_cons, List.foldl_nil]
  generalize hvalue : (((0 * 10 + a.val) * 10 + b.val) * 10 + c.val) * 10 + d.val = value
  rw [digit_congr (show a.val % 10 = value / 1000 % 10 by omega),
    digit_congr (show b.val % 10 = value / 100 % 10 by omega),
    digit_congr (show c.val % 10 = value / 10 % 10 by omega),
    digit_congr (show d.val % 10 = value % 10 by omega)]

theorem digits_two {value : Nat} (h : value < 100) : Digits 2 [digit (value / 10), digit value] value := by
  refine ⟨[⟨value / 10, by omega⟩, ⟨value % 10, by omega⟩], rfl, ?_, ?_⟩
  · rw [List.map_cons, List.map_cons, List.map_nil, digit_congr (Nat.mod_mod value 10).symm]
  · simp only [List.foldl_cons, List.foldl_nil]
    omega

theorem digits_four {value : Nat} (h : value < 10000) :
    Digits 4 [digit (value / 1000), digit (value / 100), digit (value / 10), digit value] value := by
  refine ⟨[⟨value / 1000, by omega⟩, ⟨value / 100 % 10, by omega⟩, ⟨value / 10 % 10, by omega⟩,
    ⟨value % 10, by omega⟩], rfl, ?_, ?_⟩
  · rw [List.map_cons, List.map_cons, List.map_cons, List.map_cons, List.map_nil,
      digit_congr (Nat.mod_mod (value / 100) 10).symm, digit_congr (Nat.mod_mod (value / 10) 10).symm,
      digit_congr (Nat.mod_mod value 10).symm]
  · simp only [List.foldl_cons, List.foldl_nil]
    omega

theorem daysInMonth_le (year month : Nat) : daysInMonth year month ≤ 31 := by
  unfold daysInMonth
  dsimp only
  split_ifs <;> omega

/-- A date is spelt in one way. -/
theorem isDate_iff {w : Text} {date : Date} : IsDate w date ↔ w = date.display := by
  constructor
  · rintro ⟨y, m, d, rfl, hy, hm, hd⟩
    rw [hy.four, hm.two, hd.two]
    rfl
  · rintro rfl
    have hvalid := date.valid
    have hdays := daysInMonth_le date.year date.month
    exact ⟨_, _, _, rfl, digits_four (by omega), digits_two (by omega), digits_two (by omega)⟩

end Txtodo.Grammar
