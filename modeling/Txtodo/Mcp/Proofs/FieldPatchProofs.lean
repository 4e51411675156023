import Txtodo.Core.Proofs.WordFrontProofs
import Txtodo.Mcp.FieldPatch
import Txtodo.Mcp.Proofs.RowAgreesProofs

/-!
# When a patch changes only the patched fields

The patched line is followed as a list of words: what `setPriority` drops and puts in front, what `setKv`
replaces, and what the core reads as the prefix of the words that come out.
-/

namespace Txtodo.Mcp

open Grammar

/-! ## The first word of a kind -/

/-- The first word of a kind replaced or removed; a new one goes to the end. -/
def placeFirst (p : Text → Bool) (value : Option Text) (ws : List Text) : List Text :=
  match ws.findIdx? p, value with
  | some i, some v => ws.set i v
  | some i, none => ws.eraseIdx i
  | none, some v => ws ++ [v]
  | none, none => ws

section PlaceFirst
variable {p q : Text → Bool} {value : Option Text} {n w : Text} {us ws : List Text}

theorem placeFirst_nil : placeFirst p value [] = value.toList := by
  cases value <;> rfl

theorem placeFirst_pos (h : p w = true) : placeFirst p value (w :: ws) = value.toList ++ ws := by
  unfold placeFirst
  rw [List.findIdx?_cons, if_pos h]
  cases value <;> rfl

theorem placeFirst_neg (h : p w = false) : placeFirst p value (w :: ws) = w :: placeFirst p value ws := by
  unfold placeFirst
  rw [List.findIdx?_cons, h, if_neg Bool.false_ne_true]
  cases ws.findIdx? p <;> cases value <;> rfl

theorem placeFirst_append (h : ∀ w ∈ us, p w = false) :
    placeFirst p value (us ++ ws) = us ++ placeFirst p value ws := by
  induction us with
  | nil => rfl
  | cons u us ih =>
    rw [List.cons_append, placeFirst_neg (h u (List.mem_cons_self ..)),
      ih fun w hw => h w (List.mem_cons_of_mem _ hw)]
    rfl

/-- The words of a wider kind, when the first of the kind is replaced. -/
theorem filter_placeFirst (hp : ∀ w, p w = true → q w = true) (hn : q n = true) :
    (placeFirst p (some n) ws).filter q = placeFirst p (some n) (ws.filter q) := by
  induction ws with
  | nil => simp [placeFirst_nil, hn]
  | cons w ws ih =>
    cases hw : p w with
    | true =>
      rw [placeFirst_pos hw, List.filter_cons_of_pos (hp w hw), placeFirst_pos hw, List.filter_append]
      simp [hn]
    | false =>
      rw [placeFirst_neg hw]
      cases hq : q w with
      | true => rw [List.filter_cons_of_pos hq, List.filter_cons_of_pos hq, placeFirst_neg hw, ih]
      | false =>
        rw [List.filter_cons_of_neg (by simp [hq]), List.filter_cons_of_neg (by simp [hq]), ih]

/-- The words of the kind itself. -/
theorem filter_placeFirst_self (hn : ∀ n ∈ value, p n = true) :
    (placeFirst p value ws).filter p = value.toList ++ (ws.filter p).tail := by
  have hvalue : value.toList.filter p = value.toList :=
    List.filter_eq_self.mpr fun n h => hn n (Option.mem_toList.mp h)
  induction ws with
  | nil => rw [placeFirst_nil, hvalue, List.filter_nil, List.tail_nil, List.append_nil]
  | cons w ws ih =>
    cases hw : p w with
    | true => rw [placeFirst_pos hw, List.filter_append, hvalue, List.filter_cons_of_pos hw, List.tail_cons]
    | false =>
      have hneg : ¬p w = true := by simp [hw]
      rw [placeFirst_neg hw, List.filter_cons_of_neg hneg, List.filter_cons_of_neg hneg, ih]

theorem find?_placeFirst (hn : p n = true) : (placeFirst p (some n) ws).find? p = some n := by
  induction ws with
  | nil => simp [placeFirst_nil, hn]
  | cons w ws ih =>
    cases hw : p w with
    | true => simp [placeFirst_pos hw, hn]
    | false => rw [placeFirst_neg hw, List.find?_cons, hw, ih]

/-- Words of another kind are found and read as before. -/
theorem filterMap_placeFirst {α : Type} {f : Text → Option α} (hp : ∀ w, p w = true → f w = none)
    (hn : ∀ n ∈ value, p n = true) : (placeFirst p value ws).filterMap f = ws.filterMap f := by
  have hvalue : value.toList.filterMap f = [] :=
    List.filterMap_eq_nil_iff.mpr fun n h => hp n (hn n (Option.mem_toList.mp h))
  induction ws with
  | nil => rw [placeFirst_nil, hvalue, List.filterMap_nil]
  | cons w ws ih =>
    cases hw : p w with
    | true =>
      rw [placeFirst_pos hw, List.filterMap_append, hvalue, List.nil_append, List.filterMap_cons, hp w hw]
    | false => rw [placeFirst_neg hw, List.filterMap_cons, List.filterMap_cons, ih]

end PlaceFirst

/-! ## The due date among the words -/

/-- The start of a `due:` word. -/
abbrev startsDue (w : Text) : Bool := "due:".toList.isPrefixOf w

/-- A `due:` word the core reads as a tag. -/
abbrev isDueTag (w : Text) : Bool := isTagWord "due".toList w

/-- The word that gives a due date; none when the date is cleared. -/
def dueWord (d : Text) : Option Text := if d.isEmpty then none else some ("due:".toList ++ d)

/-- What `setKv` makes of the words. -/
def codeWords (due : Option Text) (ws : List Text) : List Text :=
  match due with
  | none => ws
  | some d => placeFirst startsDue (dueWord d) ws

/-- The words with the due date the patch gives: the first tag replaced or a new one at the end, no tag left
when it is cleared. -/
def wantedWords (due : Option Text) (ws : List Text) : List Text :=
  match due with
  | none => ws
  | some d => if d.isEmpty then ws.filter (!isDueTag ·) else placeFirst isDueTag (dueWord d) ws

/-- When `setKv` finds the tag the core reads: the first `due:` word has a value, and it is the only tag
when it is cleared. -/
structure DueFound (due : Option Text) (ws : List Text) : Prop where
  first : due.isSome → ws.find? startsDue ≠ some "due:".toList
  single : due = some [] → (ws.filter isDueTag).length ≤ 1

theorem isDueTag_iff {w : Text} : isDueTag w = true ↔ startsDue w = true ∧ w ≠ "due:".toList := by
  rw [isTagWord_iff, List.isPrefixOf_iff_prefix]
  constructor
  · rintro ⟨v, hv, rfl⟩
    refine ⟨⟨v, rfl⟩, fun h => ?_⟩
    have hcut : "due:".toList ++ v = "due:".toList ++ [] := h
    exact hv (List.append_cancel_left hcut)
  · rintro ⟨⟨v, rfl⟩, hne⟩
    refine ⟨v, ?_, rfl⟩
    rintro rfl
    exact hne (List.append_nil _)

theorem startsDue_head {w : Text} (h : startsDue w = true) : w.head? = some 'd' := by
  obtain ⟨v, rfl⟩ := List.isPrefixOf_iff_prefix.mp h
  rfl

theorem startsDue_of_isDueTag (w : Text) (h : isDueTag w = true) : startsDue w = true := (isDueTag_iff.mp h).1

theorem isDueTag_false {w : Text} (h : startsDue w = false) : isDueTag w = false := by
  by_contra hw
  rw [Bool.not_eq_false] at hw
  rw [startsDue_of_isDueTag w hw] at h
  cases h

section Due
variable {due : Option Text} {d : Text} {us ws : List Text}

theorem dueWord_cons {c : Char} {d : Text} : dueWord (c :: d) = some ("due:".toList ++ c :: d) := rfl

theorem isDueTag_dueWord {n : Text} (h : n ∈ dueWord d) : isDueTag n = true := by
  cases d with
  | nil => cases h
  | cons c d =>
    cases h
    exact isTagWord_iff.mpr ⟨c :: d, List.cons_ne_nil _ _, rfl⟩

theorem startsDue_dueWord {n : Text} (h : n ∈ dueWord d) : startsDue n = true :=
  startsDue_of_isDueTag n (isDueTag_dueWord h)

theorem codeWords_append (h : ∀ w ∈ us, startsDue w = false) :
    codeWords due (us ++ ws) = us ++ codeWords due ws := by
  cases due with
  | none => rfl
  | some d => exact placeFirst_append h

/-- A date is put where it is wanted when the first `due:` word is a tag. -/
theorem placeFirst_found {n : Text} (h : ws.find? startsDue ≠ some "due:".toList) :
    placeFirst startsDue (some n) ws = placeFirst isDueTag (some n) ws := by
  induction ws with
  | nil => rfl
  | cons w ws ih =>
    cases hw : startsDue w with
    | true =>
      rw [List.find?_cons, hw] at h
      have htag : isDueTag w = true := isDueTag_iff.mpr ⟨hw, fun hbare => h (congrArg some hbare)⟩
      rw [placeFirst_pos hw, placeFirst_pos htag]
    | false =>
      rw [List.find?_cons, hw] at h
      rw [placeFirst_neg hw, placeFirst_neg (isDueTag_false hw), ih h]

/-- The only tag is removed when the first `due:` word is it. -/
theorem placeFirst_cleared (h : ws.find? startsDue ≠ some "due:".toList)
    (hsingle : (ws.filter isDueTag).length ≤ 1) :
    placeFirst startsDue none ws = ws.filter (!isDueTag ·) := by
  induction ws with
  | nil => rfl
  | cons w ws ih =>
    cases hw : startsDue w with
    | true =>
      rw [List.find?_cons, hw] at h
      have htag : isDueTag w = true := isDueTag_iff.mpr ⟨hw, fun hbare => h (congrArg some hbare)⟩
      rw [List.filter_cons_of_pos htag, List.length_cons] at hsingle
      have hnone : ws.filter isDueTag = [] := List.length_eq_zero_iff.mp (by omega)
      rw [placeFirst_pos hw, List.filter_cons_of_neg (by simp [htag]), List.filter_eq_self.mpr]
      · rfl
      · intro v hv
        simpa using List.filter_eq_nil_iff.mp hnone v hv
    | false =>
      have htag := isDueTag_false hw
      rw [List.find?_cons, hw] at h
      rw [List.filter_cons_of_neg (by simp [htag])] at hsingle
      rw [placeFirst_neg hw, List.filter_cons_of_pos (by simp [htag]), ih h hsingle]

theorem DueFound.codeWords (h : DueFound due ws) : codeWords due ws = wantedWords due ws := by
  cases due with
  | none => rfl
  | some d =>
    cases d with
    | nil => exact placeFirst_cleared (h.first rfl) (h.single rfl)
    | cons c d => exact placeFirst_found (h.first rfl)

/-- Of words that all start a `due:` word, the first was the tag. -/
theorem dueFound_of_eq (h : (dueWord d).toList ++ ws.tail = wantedWords (some d) ws) :
    ws.head? ≠ some "due:".toList ∧ (d = [] → (ws.filter isDueTag).length ≤ 1) := by
  cases ws with
  | nil => exact ⟨fun h => (by cases h), fun _ => Nat.zero_le 1⟩
  | cons w ws =>
    cases htag : isDueTag w with
    | true =>
      refine ⟨fun hbare => (isDueTag_iff.mp htag).2 (Option.some.inj hbare), ?_⟩
      rintro rfl
      have hrest : ws = ws.filter (!isDueTag ·) := by
        rwa [wantedWords, List.isEmpty_nil, if_pos rfl, List.filter_cons_of_neg (by simp [htag])] at h
      have hnone : ws.filter isDueTag = [] := by
        rw [hrest, List.filter_filter, List.filter_eq_nil_iff]
        simp
      rw [List.filter_cons_of_pos htag, hnone]
      exact Nat.le_refl 1
    | false =>
      exfalso
      cases d with
      | nil =>
        have hrest : ws = w :: ws.filter (!isDueTag ·) := by
          rwa [wantedWords, List.isEmpty_nil, if_pos rfl, List.filter_cons_of_pos (by simp [htag])] at h
        have hall : ws.filter (!isDueTag ·) = ws := by
          rw [List.filter_eq_self]
          intro v hv
          rw [hrest] at hv
          rcases List.mem_cons.mp hv with rfl | hv
          · simp [htag]
          · exact (List.mem_filter.mp hv).2
        rw [hall] at hrest
        exact absurd (congrArg List.length hrest) (by simp)
      | cons c d =>
        have hset : ("due:".toList ++ c :: d) :: ws = placeFirst isDueTag (dueWord (c :: d)) (w :: ws) := h
        rw [placeFirst_neg htag] at hset
        have hword := isDueTag_dueWord (Option.mem_def.mpr (dueWord_cons (c := c) (d := d)))
        rw [(List.cons.inj hset).1, htag] at hword
        cases hword

/-- The `due:` words alone tell whether the tag was found. -/
theorem dueFound_of_filter
    (h : (codeWords due ws).filter startsDue = (wantedWords due ws).filter startsDue) :
    DueFound due ws := by
  cases due with
  | none => exact ⟨fun h => (by cases h), fun h => (by cases h)⟩
  | some d =>
    have hsub : ws.filter isDueTag = (ws.filter startsDue).filter isDueTag := by
      rw [List.filter_filter]
      refine List.filter_congr fun w _ => ?_
      cases hw : isDueTag w with
      | true => rw [startsDue_of_isDueTag w hw, Bool.and_true]
      | false => rfl
    have hwanted : (wantedWords (some d) ws).filter startsDue = wantedWords (some d) (ws.filter startsDue) := by
      cases d with
      | nil =>
        simp only [wantedWords, List.isEmpty_nil, if_true, List.filter_filter, Bool.and_comm]
      | cons c d => exact filter_placeFirst startsDue_of_isDueTag (startsDue_dueWord (d := c :: d) rfl)
    rw [codeWords, filter_placeFirst_self fun n => startsDue_dueWord, hwanted] at h
    obtain ⟨hfirst, hsingle⟩ := dueFound_of_eq h
    rw [List.head?_filter] at hfirst
    refine ⟨fun _ => hfirst, fun hd => ?_⟩
    rw [hsub]
    exact hsingle (Option.some.inj hd)

end Due

/-- An ASCII letter in capitals. -/
theorem isUpper_toUpper {c : Char} (h : c.isAlpha = true) : c.toUpper.isUpper = true := by
  unfold Char.toUpper
  split
  · next hlower =>
    simp only [Char.isUpper, ge_iff_le, Bool.decide_and, Bool.and_eq_true, decide_eq_true_eq,
      UInt32.le_iff_toNat_le, UInt32.toNat_add] at hlower ⊢
    simp at hlower ⊢
    omega
  · next hlower =>
    simp only [Char.isAlpha, Char.isUpper, Char.isLower, ge_iff_le, Bool.decide_and, Bool.and_eq_true,
      Bool.or_eq_true, decide_eq_true_eq] at h ⊢
    exact h.resolve_right hlower

/-! ## The patched line as words -/

section Words
variable {raw s : Text} {ps ws : List Text} {pr due : Option Text}

theorem splitWords_pieces (h : ∀ w ∈ ps, ∀ c ∈ w, isWs c = false) :
    splitWords ([' '].intercalate ps) = ps.filter (!·.isEmpty) := by
  induction ps with
  | nil => rfl
  | cons w ps ih =>
    have hword : splitWords w = [w].filter (!·.isEmpty) := by
      cases w with
      | nil => rfl
      | cons c w => exact splitWords_run ⟨List.cons_ne_nil _ _, h _ (List.mem_cons_self ..)⟩
    cases ps with
    | nil => rw [List.intercalate_singleton, hword]
    | cons v ps =>
      rw [List.intercalate_cons_cons, List.append_assoc, List.singleton_append,
        splitWords_append_cons _ _ (show isWs ' ' = true from rfl), hword,
        ih fun w hw => h w (List.mem_cons_of_mem _ hw), ← List.filter_append]
      rfl

theorem splitWords_joined (h : ∀ w ∈ ws, IsRun w) : splitWords (joined ws) = ws := by
  rw [← Chips.join_eq_joined, Chips.join, splitWords_pieces fun w hw => (h w hw).2, List.filter_eq_self]
  intro w hw
  simpa using (h w hw).1

/-- A letter gives a priority, an empty text clears it. -/
def LetterOrNone (pr : Option Text) : Prop :=
  ∀ p, pr = some p → p = [] ∨ ∃ c : Char, c.isAlpha = true ∧ p = [c]

/-- The line with the priority the patch gives. -/
def prioritised (raw : Text) (pr : Option Text) : Text :=
  match pr with
  | some p => setPriority raw (p.head?.map Char.toUpper)
  | none => raw

/-- The line with the due date the patch gives. -/
def dated (raw : Text) (due : Option Text) : Text := [' '].intercalate (codeWords due (raw.splitOn ' '))

/-- The line with the text the patch appends. -/
def appended (raw : Text) (text : Option Text) : Text :=
  match text with
  | some a => append raw a
  | none => raw

theorem setKv_eq (s key : Text) (value : Option Text) : setKv s key value =
    [' '].intercalate (placeFirst ((key ++ [':']).isPrefixOf ·) (value.map (key ++ [':'] ++ ·))
      (s.splitOn ' ')) := by
  unfold setKv placeFirst
  dsimp only
  cases (s.splitOn ' ').findIdx? ((key ++ [':']).isPrefixOf ·) <;> cases value <;> rfl

theorem applyPatch_eq {patch : FieldPatch} (h : patch.replace = none) (raw : Text) :
    applyPatch raw patch = appended (dated (prioritised raw patch.priority) patch.due) patch.append := by
  have hdated : dated (prioritised raw patch.priority) patch.due = match patch.due with
      | some d => setKv (prioritised raw patch.priority) "due".toList (if d.isEmpty then none else some d)
      | none => prioritised raw patch.priority := by
    cases patch.due with
    | none => exact List.intercalate_splitOn ' '
    | some d =>
      dsimp only
      rw [setKv_eq]
      cases d <;> rfl
  rw [hdated, applyPatch, h]
  rfl

/-- The word the patch puts in front. -/
def letters (pr : Option Text) : List Text :=
  match pr with
  | some (c :: _) => [['(', c.toUpper, ')']]
  | _ => []

theorem takePriority_eq_some {c : Char} {rest : Text} (h : takePriority raw = some (c, rest)) :
    raw = '(' :: c :: ')' :: ' ' :: rest := by
  unfold takePriority at h
  split at h
  · cases h
    rfl
  · cases h

theorem prefixLens_none (h : takePriority raw = none) : (prefixLens raw).1 = 0 := by
  unfold takePriority at h
  unfold prefixLens
  split at h
  · cases h
  · rfl

/-- What `setPriority` drops of the words, and what it leaves. -/
structure Dropped (raw : Text) (pr : Option Text) (drop body : List Text) : Prop where
  pieces : (prioritised raw pr).splitOn ' ' = letters pr ++ if raw = [] then [[]] else body
  words : splitWords raw = drop ++ body
  left : raw ≠ [] → body ≠ []
  plain : ∀ w ∈ drop, startsDue w = false
  shape : drop = [] ∧ (pr = none ∨ takePriority raw = none) ∨
    pr.isSome ∧ (takePriority raw).isSome ∧ ((∃ c, drop = [['(', c, ')']]) ∨ drop = [['('], [')']])

theorem splitOn_joined (h : ∀ w ∈ ws, IsRun w) (hraw : raw = joined ws) :
    raw.splitOn ' ' = if raw = [] then [[]] else ws := by
  cases ws with
  | nil => rw [hraw]; rfl
  | cons w ws =>
    have hne := joined_ne_nil h (List.cons_ne_nil w ws)
    rw [hraw, if_neg hne, Chips.splitOn_joined h (List.cons_ne_nil w ws)]

theorem splitOn_cons_space {w : Text} (hw : ' ' ∉ w) (s : Text) :
    (w ++ ' ' :: s).splitOn ' ' = w :: s.splitOn ' ' := by
  refine List.splitOnP_append_cons_of_forall_mem (fun c hc => ?_) ' ' (by simp) s
  simpa using fun heq : c = ' ' => hw (heq ▸ hc)

/-- The words of a line behind the first. -/
theorem joined_behind {w : Text} (hw : ' ' ∉ w) (h : ∀ v ∈ ws, IsRun v)
    (hraw : joined ws = w ++ ' ' :: s) : ∃ vs, ws = w :: vs ∧ vs ≠ [] ∧ s = joined vs := by
  have hne : ws ≠ [] := by
    rintro rfl
    cases w <;> cases hraw
  have hsplit := Chips.splitOn_joined h hne
  rw [hraw, splitOn_cons_space hw] at hsplit
  refine ⟨s.splitOn ' ', hsplit.symm, List.splitOn_ne_nil ' ' s, ?_⟩
  rw [← Chips.join_eq_joined, Chips.join, List.intercalate_splitOn]

/-- The words put in front of the rest of the line. -/
theorem splitOn_letters (hpr : LetterOrNone pr) :
    (prioritised raw pr).splitOn ' ' =
      letters pr ++ (if pr.isSome then raw.drop (prefixLens raw).1 else raw).splitOn ' ' := by
  cases pr with
  | none => rfl
  | some p =>
    rcases hpr p rfl with rfl | ⟨c, hc, rfl⟩
    · rfl
    · have hletter : IsPriority ['(', c.toUpper, ')'] ⟨c.toUpper, isUpper_toUpper hc⟩ := rfl
      have hspace : ' ' ∉ ['(', c.toUpper, ')'] := fun hmem =>
        Bool.false_ne_true (hletter.word.isRun.2 ' ' hmem).symm
      exact splitOn_cons_space hspace _

theorem exists_dropped (hpr : LetterOrNone pr)
    (h : ∀ w ∈ ws, IsRun w) (hraw : raw = joined ws) : ∃ drop body, Dropped raw pr drop body ∧
      ws = drop ++ body := by
  have hwords : splitWords raw = ws := by rw [hraw, splitWords_joined h]
  have hpieces : (prioritised raw pr).splitOn ' ' =
      letters pr ++ (if pr.isSome then raw.drop (prefixLens raw).1 else raw).splitOn ' ' := splitOn_letters hpr
  -- Nothing is dropped where no bracket is read.
  have hnone (hno : pr = none ∨ takePriority raw = none) : Dropped raw pr [] ws := by
    refine ⟨?_, hwords, ?_, by simp, .inl ⟨rfl, hno⟩⟩
    · rw [hpieces, ← splitOn_joined h hraw]
      congr 2
      rcases hno with rfl | hno
      · rfl
      · rw [prefixLens_none hno, List.drop_zero, ite_self]
    · rintro hne rfl
      exact hne hraw
  cases hsome : pr.isSome with
  | false => exact ⟨[], ws, hnone (.inl (Option.not_isSome_iff_eq_none.mp (by simp [hsome]))), rfl⟩
  | true =>
    cases htake : takePriority raw with
    | none => exact ⟨[], ws, hnone (.inr htake), rfl⟩
    | some found =>
      obtain ⟨c, rest⟩ := found
      have hbracket := takePriority_eq_some htake
      have hbody : (if pr.isSome then raw.drop (prefixLens raw).1 else raw) = rest := by
        rw [hsome, hbracket]
        rfl
      have hne : raw ≠ [] := by
        rw [hbracket]
        exact List.cons_ne_nil _ _
      rw [hbody] at hpieces
      by_cases hc : c = ' '
      · subst hc
        obtain ⟨vs, rfl, -, hrest⟩ := joined_behind (w := ['(']) (s := ')' :: ' ' :: rest)
          (by decide) h (hraw.symm.trans hbracket)
        obtain ⟨us, rfl, hus, rfl⟩ := joined_behind (w := [')']) (s := rest)
          (by decide) (fun v hv => h v (List.mem_cons_of_mem _ hv)) hrest.symm
        have hruns : ∀ v ∈ us, IsRun v := fun v hv =>
          h v (List.mem_cons_of_mem _ (List.mem_cons_of_mem _ hv))
        refine ⟨[['('], [')']], us, ⟨?_, hwords, fun _ => hus, by decide, ?_⟩, rfl⟩
        · rw [hpieces, if_neg hne, Chips.splitOn_joined hruns hus]
        · exact .inr ⟨hsome, by rw [htake]; rfl, .inr rfl⟩
      · obtain ⟨vs, rfl, hvs, rfl⟩ := joined_behind (w := ['(', c, ')']) (s := rest)
          (by simpa using Ne.symm hc) h (hraw.symm.trans hbracket)
        have hruns : ∀ v ∈ vs, IsRun v := fun v hv => h v (List.mem_cons_of_mem _ hv)
        refine ⟨[['(', c, ')']], vs, ⟨?_, hwords, fun _ => hvs, ?_, ?_⟩, rfl⟩
        · rw [hpieces, if_neg hne, Chips.splitOn_joined hruns hvs]
        · intro w hw
          rw [List.mem_singleton.mp hw]
          rfl
        · exact .inr ⟨hsome, by rw [htake]; rfl, .inl ⟨c, rfl⟩⟩

end Words

/-! ## The words of the patched line -/

/-- Whether `append` puts no space in front of the text. -/
def glued (text : Option Text) : Bool := text.any fun a => a.head?.any (SENTENCE_DELIMITERS.contains ·)

/-- The line in front of the appended text is empty or ends with a space. -/
def Loose (raw : Text) (pr due : Option Text) (body : List Text) : Prop :=
  if raw = [] then codeWords due [] = [] else letters pr ++ codeWords due body = []

section Result
variable {raw a : Text} {pr due text : Option Text} {drop body ps : List Text}

theorem mem_placeFirst {p : Text → Bool} {value : Option Text} {w : Text} {ws : List Text}
    (h : w ∈ placeFirst p value ws) : w ∈ value ∨ w ∈ ws := by
  induction ws with
  | nil =>
    rw [placeFirst_nil] at h
    exact .inl (Option.mem_toList.mp h)
  | cons v ws ih =>
    cases hv : p v with
    | true =>
      rw [placeFirst_pos hv] at h
      rcases List.mem_append.mp h with h | h
      · exact .inl (Option.mem_toList.mp h)
      · exact .inr (List.mem_cons_of_mem _ h)
    | false =>
      rw [placeFirst_neg hv] at h
      rcases List.mem_cons.mp h with rfl | h
      · exact .inr (List.mem_cons_self ..)
      · exact (ih h).imp_right (List.mem_cons_of_mem _)

theorem isRun_dueWord {d w : Text} (hd : d = [] ∨ IsRun d) (h : w ∈ dueWord d) : IsRun w := by
  cases d with
  | nil => cases h
  | cons c d =>
    cases h
    have hrun := hd.resolve_left (List.cons_ne_nil _ _)
    refine ⟨List.cons_ne_nil _ _, fun x hx => ?_⟩
    rcases List.mem_append.mp hx with hx | hx
    · have hall : ("due:".toList.all fun x => !isWs x) = true := by decide
      simpa using List.all_eq_true.1 hall x hx
    · exact hrun.2 x hx

/-- `setKv` leaves words words. -/
theorem isRun_codeWords (hdue : ∀ d, due = some d → d = [] ∨ IsRun d) {w : Text}
    (h : w ∈ codeWords due ps) : w ∈ ps ∨ IsRun w := by
  cases due with
  | none => exact .inl h
  | some d => exact (mem_placeFirst h).symm.imp_right (isRun_dueWord (hdue d rfl))

theorem isRun_letters (hpr : LetterOrNone pr) {w : Text}
    (h : w ∈ letters pr) : IsRun w := by
  cases pr with
  | none => cases h
  | some p =>
    rcases hpr p rfl with rfl | ⟨c, hc, rfl⟩
    · cases h
    · rw [List.mem_singleton.mp h]
      have hletter : IsPriority ['(', c.toUpper, ')'] ⟨c.toUpper, isUpper_toUpper hc⟩ := rfl
      exact hletter.word.isRun

theorem startsDue_letters {w : Text} (h : w ∈ letters pr) : startsDue w = false := by
  unfold letters at h
  split at h
  · rw [List.mem_singleton.mp h]
    rfl
  · cases h

/-- What `setKv` makes of the pieces. -/
theorem codeWords_pieces : codeWords due (letters pr ++ if raw = [] then [[]] else body) =
    letters pr ++ if raw = [] then [] :: codeWords due [] else codeWords due body := by
  rw [codeWords_append fun w => startsDue_letters]
  split
  · rw [show ([[]] : List Text) = [[]] ++ [] from rfl, codeWords_append (by decide)]
    rfl
  · rfl

/-- The pieces of the line in front of the appended text. -/
def pieces (raw : Text) (pr due : Option Text) (body : List Text) : List Text :=
  letters pr ++ if raw = [] then [] :: codeWords due [] else codeWords due body

theorem dated_eq (h : Dropped raw pr drop body) :
    dated (prioritised raw pr) due = [' '].intercalate (pieces raw pr due body) := by
  rw [dated, h.pieces, codeWords_pieces]
  rfl

theorem intercalate_concat (ps : List Text) (w : Text) : ∃ before, [' '].intercalate (ps ++ [w]) = before ++ w ∧
    (before = [] ∨ before.getLast? = some ' ') := by
  induction ps with
  | nil => exact ⟨[], List.intercalate_singleton, .inl rfl⟩
  | cons v ps ih =>
    obtain ⟨before, heq, hlast⟩ := ih
    refine ⟨v ++ [' '] ++ before, ?_, .inr ?_⟩
    · rw [List.cons_append, List.intercalate_cons_of_ne_nil (by simp), heq, List.append_assoc,
        List.append_assoc, List.append_assoc]
    · rcases hlast with rfl | hlast
      · simp
      · rw [List.getLast?_append, hlast]
        rfl

/-- A text put straight behind a word. -/
theorem splitWords_glued {w : Text} (hw : IsRun w) (ha : a.head?.any isWs = false) (hne : a ≠ []) :
    ∃ t ts, splitWords a = t :: ts ∧ splitWords (w ++ a) = (w ++ t) :: ts := by
  have hcut : a = firstWord a ++ a.dropWhile fun c => !isWs c := List.takeWhile_append_dropWhile.symm
  have hbound := firstWord_boundary a
  have hplain : ∀ c ∈ firstWord a, isWs c = false := fun c hc => by simpa using List.mem_takeWhile_imp hc
  have hfirst : firstWord a ≠ [] := by
    obtain ⟨c, a, rfl⟩ := List.exists_cons_of_ne_nil hne
    have hc : isWs c = false := by simpa using ha
    rw [firstWord, List.takeWhile_cons_of_pos (by simp [hc])]
    exact List.cons_ne_nil _ _
  generalize firstWord a = t at hcut hbound hplain hfirst
  generalize (a.dropWhile fun c => !isWs c) = rest at hcut hbound
  have hlong : IsRun (w ++ t) := by
    refine ⟨fun hnil => hw.1 (List.append_eq_nil_iff.mp hnil).1, fun c hc => ?_⟩
    rcases List.mem_append.mp hc with hc | hc
    · exact hw.2 c hc
    · exact hplain c hc
  have hrest : rest = [] ∨ (rest.head?.any isWs : Prop) := by
    rcases hbound with h | h | h | h
    · exact absurd h hfirst
    · exact .inl h
    · rw [List.getLast?_eq_getLast_of_ne_nil hfirst, Option.any_some, hplain _ (List.getLast_mem hfirst)] at h
      cases h
    · exact .inr h
  have hboundary (u : Text) : Boundary u rest := .inr (hrest.imp_right .inr)
  refine ⟨t, splitWords rest, ?_, ?_⟩
  · rw [hcut, splitWords_append (hboundary t), splitWords_run ⟨hfirst, hplain⟩]
    rfl
  · rw [hcut, ← List.append_assoc, splitWords_append (hboundary (w ++ t)), splitWords_run hlong]
    rfl

theorem append_eq (s a : Text) : append s a = s ++ ((if glued (some a) then [] else [' ']) ++ a) := by
  rw [append, glued, Option.any_some, List.append_assoc]

theorem splitWords_appended {s : Text} (h : glued text = false ∨ ∀ a, Boundary s a) :
    splitWords (appended s text) = splitWords s ++ splitWords (text.getD []) := by
  cases text with
  | none => exact (List.append_nil _).symm
  | some a =>
    rw [appended, append_eq, Option.getD_some]
    cases hglued : glued (some a) with
    | false => exact splitWords_append_cons _ _ (by decide)
    | true => exact splitWords_append (h.resolve_left (by simp [hglued]) a)

theorem head_appended {s : Text} (h : (appended s text).head?.any isWs = true) :
    s = [] ∨ s.head?.any isWs = true := by
  cases s with
  | nil => exact .inl rfl
  | cons c s => cases text <;> exact .inr h

theorem head_intercalate {w : Text} (hw : IsRun w) (ps : List Text) :
    ([' '].intercalate (w :: ps)).head?.any isWs = false := by
  obtain ⟨c, w, rfl⟩ := List.exists_cons_of_ne_nil hw.1
  have hc := hw.2 c (List.mem_cons_self ..)
  cases ps with
  | nil => simpa using hc
  | cons v ps => simpa [List.intercalate_cons_cons] using hc

/-! ### With the line cut -/

section Cut
variable (hdrop : Dropped raw pr drop body) (hbody : ∀ w ∈ body, IsRun w)
  (hpr : LetterOrNone pr)
  (hdue : ∀ d, due = some d → d = [] ∨ IsRun d)

include hdrop in
theorem body_nil (h : raw = []) : body = [] := by
  have hwords := hdrop.words
  rw [h, splitWords_nil] at hwords
  exact (List.append_eq_nil_iff.mp hwords.symm).2

include hbody hpr hdue in
theorem isRun_of_mem {w : Text} (h : w ∈ letters pr ++ codeWords due body) : IsRun w := by
  rcases List.mem_append.mp h with h | h
  · exact isRun_letters hpr h
  · rcases isRun_codeWords hdue h with h | h
    · exact hbody w h
    · exact h

include hdrop hbody hpr hdue in
/-- The words of the line in front of the appended text. -/
theorem splitWords_dated : splitWords (dated (prioritised raw pr) due) = letters pr ++ codeWords due body := by
  have hrun : ∀ w ∈ letters pr ++ codeWords due body, IsRun w := fun w => isRun_of_mem hbody hpr hdue
  have hfilter : (letters pr ++ codeWords due body).filter (!·.isEmpty) = letters pr ++ codeWords due body := by
    rw [List.filter_eq_self]
    intro w hw
    simpa using (hrun w hw).1
  rw [dated_eq hdrop]
  by_cases hraw : raw = []
  · obtain rfl := body_nil hdrop hraw
    have hpieces : pieces raw pr due [] = letters pr ++ [] :: codeWords due [] := by rw [pieces, if_pos hraw]
    rw [hpieces, splitWords_pieces]
    · rw [← hfilter, List.filter_append, List.filter_append]
      rfl
    · intro w hw
      rcases List.mem_append.mp hw with hw | hw
      · exact (hrun w (List.mem_append_left _ hw)).2
      · rcases List.mem_cons.mp hw with rfl | hw
        · simp
        · exact (hrun w (List.mem_append_right _ hw)).2
  · rw [pieces, if_neg hraw, splitWords_pieces fun w hw => (hrun w hw).2, hfilter]

include hdrop in
/-- Behind a loose line the text stands by itself. -/
theorem boundary_of_loose (h : Loose raw pr due body) (a : Text) :
    Boundary (dated (prioritised raw pr) due) a := by
  rw [dated_eq hdrop]
  unfold Loose at h
  by_cases hraw : raw = []
  · rw [if_pos hraw] at h
    have hpieces : pieces raw pr due body = letters pr ++ [[]] := by rw [pieces, if_pos hraw, h]
    obtain ⟨before, heq, hlast⟩ := intercalate_concat (letters pr) []
    rw [hpieces, heq, List.append_nil]
    rcases hlast with rfl | hlast
    · exact .inl rfl
    · refine .inr (.inr (.inl ?_))
      rw [hlast]
      rfl
  · rw [if_neg hraw] at h
    rw [pieces, if_neg hraw, h]
    exact .inl rfl

include hdrop hbody hpr hdue in
/-- A line that is not loose ends with a word. -/
theorem exists_last (h : ¬Loose raw pr due body) : ∃ before last,
    dated (prioritised raw pr) due = before ++ last ∧ IsRun last ∧
      (before = [] ∨ before.getLast? = some ' ') := by
  rw [dated_eq hdrop]
  unfold Loose at h
  obtain ⟨init, last, hpieces, hlast⟩ : ∃ init last, pieces raw pr due body = init ++ [last] ∧ IsRun last := by
    by_cases hraw : raw = []
    · rw [if_pos hraw] at h
      obtain rfl := body_nil hdrop hraw
      refine ⟨letters pr ++ [] :: (codeWords due []).dropLast, (codeWords due []).getLast h, ?_, ?_⟩
      · rw [pieces, if_pos hraw, List.append_assoc, List.cons_append, List.dropLast_concat_getLast]
      · exact isRun_of_mem hbody hpr hdue (List.mem_append_right _ (List.getLast_mem h))
    · rw [if_neg hraw] at h
      rw [pieces, if_neg hraw, ← List.dropLast_concat_getLast h]
      exact ⟨_, _, rfl, isRun_of_mem hbody hpr hdue (List.getLast_mem h)⟩
  obtain ⟨before, heq, hbefore⟩ := intercalate_concat init last
  exact ⟨before, last, hpieces ▸ heq, hlast, hbefore⟩

include hdrop hbody hpr hdue in
/-- Only a blank line comes out with a space in front. -/
theorem head_dated (h : (dated (prioritised raw pr) due).head?.any isWs = true) :
    raw = [] ∧ letters pr = [] := by
  rw [dated_eq hdrop, pieces] at h
  by_cases hraw : raw = []
  · refine ⟨hraw, ?_⟩
    by_contra hne
    obtain ⟨l, ls, hls⟩ := List.exists_cons_of_ne_nil hne
    have hl : IsRun l := isRun_letters hpr (hls ▸ List.mem_cons_self ..)
    rw [hls, List.cons_append, head_intercalate hl] at h
    cases h
  · exfalso
    rw [if_neg hraw] at h
    have hrun : ∀ w ∈ letters pr ++ codeWords due body, IsRun w := fun w => isRun_of_mem hbody hpr hdue
    cases hwords : letters pr ++ codeWords due body with
    | nil =>
      rw [hwords] at h
      cases h
    | cons w ws =>
      rw [hwords, head_intercalate (hrun w (hwords ▸ List.mem_cons_self ..))] at h
      cases h

end Cut

end Result

/-! ## The prefix -/

/-- The priority the patch gives. -/
def wantedPriority (pr : Option Text) (p : Option Priority) : Option Priority :=
  match pr with
  | none => p
  | some [] => none
  | some (c :: _) => Priority.new c.toUpper

/-- The prefix with the priority the patch gives. -/
def wantedPrefix (pr : Option Text) (pre : Prefix) : Prefix :=
  { pre with priority := wantedPriority pr pre.priority }

/-- Where the prefix the patch gives leaves off; that of a done line is not written anew. -/
def wantedPlace (raw : Text) (pre wanted : Prefix) : Place :=
  if pre.completed then placeAfter (raw.take (descriptionStart raw)) else wanted.place

/-- When `setPriority` replaces what the core reads: on an open line it drops a bracket exactly when there is
a priority, and a done line has none and gets none. -/
def LetterFound (raw : Text) (pr : Option Text) (pre : Prefix) : Prop :=
  ∀ p, pr = some p →
    if pre.completed then p = [] ∧ pre.priority = none
    else (takePriority raw).isSome = pre.priority.isSome

section Prefix
variable {raw : Text} {pr due : Option Text} {vs ds us drop body : List Text} {q q' : Place}
  {pre wanted : Prefix} {w : Text}

theorem startsDue_front (h : Front vs q pre) : ∀ w ∈ vs, startsDue w = false := by
  have hdate (d : Date) : startsDue d.display = false := by
    by_contra h
    rw [Bool.not_eq_false] at h
    have hdigit := isDigit_digit (d.year / 1000)
    rw [Option.some.inj (startsDue_head h)] at hdigit
    exact absurd hdigit (by decide)
  have hletter (p : Priority) : startsDue (letterWord p) = false := rfl
  have hmark : startsDue ['x'] = false := rfl
  cases h <;> simp [hdate, hletter, hmark]

/-- The word put in front is the priority the patch gives. -/
theorem letters_eq (hpr : LetterOrNone pr)
    (hsome : pr.isSome = true) (p : Option Priority) :
    letters pr = ((wantedPriority pr p).map letterWord).toList := by
  obtain ⟨t, rfl⟩ := Option.isSome_iff_exists.mp hsome
  rcases hpr t rfl with rfl | ⟨c, hc, rfl⟩
  · rfl
  · rw [wantedPriority, Priority.new, dif_pos (isUpper_toUpper hc)]
    rfl

section Align
variable (hdrop : Dropped raw pr drop body) (hfront : Front vs q pre) (hwords : drop ++ body = vs ++ ds)

include hdrop in
theorem drop_none (hnone : pr = none ∨ takePriority raw = none) : drop = [] := by
  rcases hdrop.shape with ⟨hnil, -⟩ | ⟨hsome, htake, -⟩
  · exact hnil
  · rcases hnone with h | h
    · rw [h] at hsome
      cases hsome
    · rw [h] at htake
      cases htake

include hdrop hfront hwords in
theorem drop_done (hdone : pre.completed = true) : drop = [] := by
  have hhead := hfront.mark_head hdone
  obtain ⟨ws, rfl⟩ := List.head?_eq_some_iff.mp hhead
  rcases hdrop.shape with ⟨hnil, -⟩ | ⟨-, -, ⟨c, hshape⟩ | hshape⟩
  · exact hnil
  · rw [hshape] at hwords
    exact absurd (List.cons.inj hwords).1 (by simp)
  · rw [hshape] at hwords
    exact absurd (List.cons.inj hwords).1 (by simp)

include hdrop hfront hwords in
/-- What is dropped of an open line is the priority, when there is one exactly where a bracket is read. -/
theorem drop_open (hopen : pre.completed = false) (hsome : pr.isSome = true)
    (hfound : (takePriority raw).isSome = pre.priority.isSome) :
    drop = (pre.priority.map letterWord).toList := by
  obtain ⟨rfl, -, -⟩ := hfront.words hopen
  rw [Prefix.words_open hopen] at hwords
  cases hp : pre.priority with
  | none =>
    rw [hp] at hfound
    exact drop_none hdrop (.inr (Option.not_isSome_iff_eq_none.mp (by simp [hfound])))
  | some p =>
    rw [hp] at hwords hfound
    rcases hdrop.shape with ⟨-, hno⟩ | ⟨-, -, ⟨c, hshape⟩ | hshape⟩
    · rcases hno with hno | hno
      · rw [hno] at hsome
        cases hsome
      · rw [hno] at hfound
        cases hfound
    · rw [hshape] at hwords ⊢
      exact congrArg (fun w => [w]) (List.cons.inj hwords).1
    · rw [hshape] at hwords
      exact absurd (List.cons.inj hwords).1 (by simp [letterWord])

include hdrop hfront hwords in
/-- With the priority where the patch replaces it, the words are those of the wanted prefix in front of the
description's. -/
theorem exists_wanted (hpr : LetterOrNone pr)
    (hplace : q = placeAfter (raw.take (descriptionStart raw))) (hletter : LetterFound raw pr pre) :
    ∃ us, Front us (wantedPlace raw pre (wantedPrefix pr pre)) (wantedPrefix pr pre) ∧
      letters pr ++ body = us ++ ds := by
  cases hdone : pre.completed with
  | true =>
    have hnil := drop_done hdrop hfront hwords hdone
    rw [hnil, List.nil_append] at hwords
    have hkept : wantedPrefix pr pre = pre ∧ letters pr = [] := by
      cases pr with
      | none => exact ⟨rfl, rfl⟩
      | some p =>
        have h := hletter p rfl
        rw [hdone, if_pos rfl] at h
        obtain ⟨rfl, hnone⟩ := h
        refine ⟨?_, rfl⟩
        rw [wantedPrefix, wantedPriority, ← hnone]
    rw [hkept.1, hkept.2, wantedPlace, hdone, if_pos rfl, ← hplace]
    exact ⟨vs, hfront, hwords⟩
  | false =>
    obtain ⟨hvs, hq, hdate⟩ := hfront.words hdone
    have hopen : (wantedPrefix pr pre).completed = false := hdone
    rw [wantedPlace, hdone, if_neg Bool.false_ne_true]
    refine ⟨(wantedPrefix pr pre).words, Prefix.front hopen hdate, ?_⟩
    cases hsome : pr.isSome with
    | false =>
      obtain rfl : pr = none := Option.not_isSome_iff_eq_none.mp (by simp [hsome])
      rw [drop_none hdrop (.inl rfl), hvs] at hwords
      exact hwords
    | true =>
      obtain ⟨p, hp⟩ := Option.isSome_iff_exists.mp hsome
      have hfound := hletter p hp
      rw [hdone, if_neg Bool.false_ne_true] at hfound
      rw [drop_open hdrop hfront hwords hdone hsome hfound, hvs, Prefix.words_open hdone, List.append_assoc] at hwords
      rw [Prefix.words_open hopen, letters_eq hpr hsome pre.priority, List.append_assoc,
        List.append_cancel_left hwords]
      rfl

include hdrop hfront hwords in
/-- The words as wanted tell that the priority was replaced. -/
theorem letterFound_of_words (hpr : LetterOrNone pr)
    (hus : Front us q' (wantedPrefix pr pre)) (h : letters pr ++ codeWords due body = us ++ codeWords due ds) :
    LetterFound raw pr pre := by
  intro p hp
  have hcode : drop ++ codeWords due body = vs ++ codeWords due ds := by
    rw [← codeWords_append hdrop.plain, hwords, codeWords_append (startsDue_front hfront)]
  have hsome : pr.isSome = true := by rw [hp]; rfl
  cases hdone : pre.completed with
  | true =>
    rw [if_pos rfl]
    rw [drop_done hdrop hfront hwords hdone, List.nil_append] at hcode
    rw [hcode] at h
    have hnil : p = [] := by
      refine (hpr p hp).resolve_right ?_
      rintro ⟨c, -, rfl⟩
      obtain ⟨ws, rfl⟩ := List.head?_eq_some_iff.mp (hus.mark_head hdone)
      rw [hp] at h
      exact absurd (List.cons.inj h).1 (by simp)
    refine ⟨hnil, ?_⟩
    rw [hp, hnil] at h
    obtain rfl : vs = us := List.append_cancel_right h
    have hsame := congrArg Prefix.priority (hfront.det hus).2
    rw [hp, hnil] at hsame
    exact hsame
  | false =>
    rw [if_neg Bool.false_ne_true]
    have hopen : (wantedPrefix pr pre).completed = false := hdone
    obtain ⟨hvs, -, -⟩ := hfront.words hdone
    obtain ⟨hus, -, -⟩ := hus.words hopen
    rw [hus, Prefix.words_open hopen, letters_eq hpr hsome pre.priority, List.append_assoc] at h
    rw [List.append_cancel_left h, hvs, Prefix.words_open hdone, List.append_assoc] at hcode
    have hdropped : drop = (pre.priority.map letterWord).toList := List.append_cancel_right hcode
    rcases hdrop.shape with ⟨hnil, hno⟩ | ⟨-, htake, hshape⟩
    · rw [hnil] at hdropped
      rcases hno with hno | hno
      · rw [hno] at hsome
        cases hsome
      · rw [hno]
        cases hpriority : pre.priority with
        | none => rfl
        | some p =>
          rw [hpriority] at hdropped
          cases hdropped
    · rw [htake]
      cases hpriority : pre.priority with
      | none =>
        rw [hpriority] at hdropped
        rcases hshape with ⟨c, hshape⟩ | hshape <;> rw [hshape] at hdropped <;> cases hdropped
      | some p => rfl

end Align

end Prefix

/-! ## When only the patched fields change -/

/-- A patch of a priority (a letter, or none to clear it), a due date (a word, or empty to clear it) and a
plain text to append. -/
structure PlainPatch (patch : FieldPatch) : Prop where
  priority : LetterOrNone patch.priority
  due : ∀ d, patch.due = some d → d = [] ∨ IsRun d
  append : ∀ a, patch.append = some a → ∀ w ∈ splitWords a,
    Txtodo.classifyWord w DEFAULT_SCHEMES = .text ∨ Txtodo.classifyWord w DEFAULT_SCHEMES = .url
  replace : patch.replace = none

/-- The task the lenient parser reads of a line; of a blank one nothing. -/
def readTask (raw : Text) : Task := taskWith (draftOf raw).pre (draftOf raw).description

/-- The task `t'` is `t` with the patched fields changed and nothing else. -/
structure Patched (patch : FieldPatch) (t t' : Task) : Prop where
  completed : t'.completed = t.completed
  completionDate : t'.completionDate = t.completionDate
  creationDate : t'.creationDate = t.creationDate
  priority : t'.priority = wantedPriority patch.priority t.priority
  due : t'.tag "due".toList = match patch.due with
    | none => t.tag "due".toList
    | some d => if d.isEmpty then none else some d
  tags : ∀ key, key ≠ "due".toList → t'.tag key = t.tag key
  projects : t'.projects = t.projects
  contexts : t'.contexts = t.contexts
  words : splitWords t'.description =
    wantedWords patch.due (splitWords t.description) ++ splitWords (patch.append.getD [])

/-- When a patch changes only the patched fields of `raw`. -/
structure Patchable (raw : Text) (patch : FieldPatch) : Prop where
  letter : LetterFound raw patch.priority (draftOf raw).pre
  due : DueFound patch.due (splitWords (draftOf raw).description)
  /-- A text that opens with a sentence delimiter has no word in front of it. -/
  glue : glued patch.append = true → wantedWords patch.due (splitWords (draftOf raw).description) = [] ∧
    (wantedPrefix patch.priority (draftOf raw).pre = Prefix.empty ∨ raw = [])
  /-- The first word of the new description is not read on as prefix. -/
  stop : wantedPrefix patch.priority (draftOf raw).pre = Prefix.empty ∧
      wantedWords patch.due (splitWords (draftOf raw).description) = [] ∨
    (wantedPlace raw (draftOf raw).pre (wantedPrefix patch.priority (draftOf raw).pre)).take
      (wantedPrefix patch.priority (draftOf raw).pre)
      ((wantedWords patch.due (splitWords (draftOf raw).description) ++
        splitWords (patch.append.getD [])).headD []) = none

section Plain
variable {key : Text} {ws ts : List Text} {due : Option Text}

/-- A word has one key. -/
theorem hasKey_unique {key' w : Text} (h : hasKey key w = true) (h' : hasKey key' w = true) : key = key' := by
  unfold hasKey at h h'
  split at h
  · next colon hkind =>
    rw [hkind] at h'
    exact (of_decide_eq_true h).symm.trans (of_decide_eq_true h')
  · next hkind =>
    rw [hkind] at h'
    exact (of_decide_eq_true h).trans (of_decide_eq_true h').symm
  · cases h

/-- Plain words hold no tag. -/
theorem hasKey_plain {w : Text} (h : Txtodo.classifyWord w DEFAULT_SCHEMES = .text ∨
    Txtodo.classifyWord w DEFAULT_SCHEMES = .url) : hasKey key w = false := by
  rcases h with h | h <;> rw [hasKey, h]

theorem find?_plain (h : ∀ w ∈ ts, Txtodo.classifyWord w DEFAULT_SCHEMES = .text ∨
    Txtodo.classifyWord w DEFAULT_SCHEMES = .url) : (ws ++ ts).find? (hasKey key) = ws.find? (hasKey key) := by
  have hnone : ts.find? (hasKey key) = none := by
    rw [List.find?_eq_none]
    intro w hw
    simp [hasKey_plain (h w hw)]
  rw [List.find?_append, hnone, Option.or_none]

/-- Plain words hold no project and no context. -/
theorem filterMap_plain (h : ∀ w ∈ ts, Txtodo.classifyWord w DEFAULT_SCHEMES = .text ∨
    Txtodo.classifyWord w DEFAULT_SCHEMES = .url) : ts.filterMap projectOf = [] ∧ ts.filterMap contextOf = [] := by
  constructor <;> rw [List.filterMap_eq_nil_iff] <;> intro w hw
  · rw [projectOf_eq, if_neg]
    rcases h w hw with h | h <;> rw [h] <;> simp
  · rw [contextOf_eq, if_neg]
    rcases h w hw with h | h <;> rw [h] <;> simp

/-- What does not see due tags reads the wanted words as the old ones. -/
theorem filterMap_wantedWords {α : Type} {f : Text → Option α} (hf : ∀ w, isDueTag w = true → f w = none) :
    (wantedWords due ws).filterMap f = ws.filterMap f := by
  unfold wantedWords
  split
  · rfl
  · next d =>
    split
    · rw [List.filterMap_filter]
      refine List.filterMap_congr fun w _ => ?_
      cases hw : isDueTag w with
      | true => simp [hf w hw]
      | false => simp
    · exact filterMap_placeFirst hf fun n => isDueTag_dueWord

theorem find?_eq_filterMap (p : Text → Bool) (ws : List Text) :
    ws.find? p = (ws.filterMap (Option.guard p)).head? := by
  rw [List.filterMap_eq_filter, List.head?_filter]

/-- A key of its own reads the wanted words as the old ones. -/
theorem find?_wantedWords (hkey : key ≠ "due".toList) :
    (wantedWords due ws).find? (hasKey key) = ws.find? (hasKey key) := by
  rw [find?_eq_filterMap, find?_eq_filterMap, filterMap_wantedWords]
  intro w hw
  have hnone : hasKey key w = false := by
    by_contra h
    rw [Bool.not_eq_false] at h
    exact hkey (hasKey_unique h ((ordinaryKey_due.hasKey_eq w).trans hw))
  simp [Option.guard, hnone]

/-- The due date of the wanted words. -/
theorem find?_due : (wantedWords due ws).find? isDueTag = match due with
    | none => ws.find? isDueTag
    | some d => dueWord d := by
  cases due with
  | none => rfl
  | some d =>
    cases d with
    | nil =>
      rw [wantedWords, List.isEmpty_nil, if_pos rfl]
      dsimp only [dueWord]
      rw [List.isEmpty_nil, if_pos rfl, List.find?_eq_none]
      intro w hw
      simpa using (List.mem_filter.mp hw).2
    | cons c d => exact find?_placeFirst (isDueTag_dueWord (d := c :: d) rfl)

end Plain

section Main
variable {raw : Text} {patch : FieldPatch} {l : Line}

/-- The other fields follow from the prefix and the words. -/
theorem patched_iff_words (hplain : PlainPatch patch) (t t' : Task) : Patched patch t t' ↔
    (t'.completed = t.completed ∧ t'.completionDate = t.completionDate ∧ t'.creationDate = t.creationDate ∧
      t'.priority = wantedPriority patch.priority t.priority) ∧
    splitWords t'.description =
      wantedWords patch.due (splitWords t.description) ++ splitWords (patch.append.getD []) := by
  refine ⟨fun h => ⟨⟨h.completed, h.completionDate, h.creationDate, h.priority⟩, h.words⟩, ?_⟩
  rintro ⟨⟨hcompleted, hcompletion, hcreation, hpriority⟩, hwords⟩
  have htext : ∀ w ∈ splitWords (patch.append.getD []), Txtodo.classifyWord w DEFAULT_SCHEMES = .text ∨
      Txtodo.classifyWord w DEFAULT_SCHEMES = .url := by
    cases hsome : patch.append with
    | none => simp [splitWords_nil]
    | some a => exact hplain.append a hsome
  obtain ⟨hprojects, hcontexts⟩ := filterMap_plain htext
  refine ⟨hcompleted, hcompletion, hcreation, hpriority, ?_, fun key hkey => ?_, ?_, ?_, hwords⟩
  · have hkey : hasKey "due".toList = isDueTag := funext fun w => ordinaryKey_due.hasKey_eq w
    rw [Task.tag_eq, hwords, find?_plain htext, hkey, find?_due, Task.tag_eq, hkey]
    cases patch.due with
    | none => rfl
    | some d => cases d <;> rfl
  · rw [Task.tag_eq, hwords, find?_plain htext, find?_wantedWords hkey, Task.tag_eq]
  · have hnone : ∀ w, isDueTag w = true → projectOf w = none := by
      intro w hw
      obtain ⟨v, -, rfl⟩ := isTagWord_iff.mp hw
      exact projectOf_none (by decide) _
    rw [projects_eq, projects_eq, hwords, List.filterMap_append, hprojects, List.append_nil,
      filterMap_wantedWords hnone]
  · have hnone : ∀ w, isDueTag w = true → contextOf w = none := by
      intro w hw
      obtain ⟨v, -, rfl⟩ := isTagWord_iff.mp hw
      exact contextOf_none (by decide) _
    rw [contexts_eq, contexts_eq, hwords, List.filterMap_append, hcontexts, List.append_nil,
      filterMap_wantedWords hnone]

/-- The first word of a text that opens with a delimiter is no prefix word. -/
theorem take_none_of_head {q : Place} {pre : Prefix} {w : Text} {c : Char} (hhead : w.head? = some c)
    (hc : c ≠ 'x' ∧ c ≠ '(' ∧ c.isDigit = false) : q.take pre w = none := by
  rw [Option.eq_none_iff_forall_ne_some]
  intro x hx
  rcases Place.take_cases hx with rfl | h | h
  · exact hc.1 (Option.some.inj hhead).symm
  · obtain ⟨p, hp⟩ := Option.isSome_iff_exists.mp h
    rw [priorityOf_some_iff.mp hp] at hhead
    exact hc.2.1 (Option.some.inj hhead).symm
  · obtain ⟨d, hd⟩ := Option.isSome_iff_exists.mp h
    rw [parse_some_iff.mp hd] at hhead
    have hdigit := isDigit_digit (d.year / 1000)
    rw [Option.some.inj hhead, hc.2.2] at hdigit
    cases hdigit

theorem strict_words (h : parseLine raw .strict = .ok l) : ∃ ws, (∀ w ∈ ws, IsRun w) ∧ raw = joined ws := by
  by_cases hraw : raw = []
  · exact ⟨[], by simp, hraw⟩
  · obtain ⟨ws, -, -, -, -, hws, hjoined, -⟩ := strict_read hraw h
    exact ⟨ws, hws, hjoined⟩

/-- A line that starts with no separator and has no word is empty. -/
theorem eq_nil_of_splitWords {s : Text} (h : splitWords s = []) (hhead : s.head?.any isWs = false) : s = [] := by
  cases s with
  | nil => rfl
  | cons c s =>
    have hfirst := headD_splitWords hhead
    have hc : isWs c = false := by simpa using hhead
    rw [h, firstWord, List.takeWhile_cons_of_pos (by simp [hc])] at hfirst
    cases hfirst

theorem glued_eq {text : Option Text} (h : glued text = true) : ∃ c a, text = some (c :: a) ∧
    isWs c = false ∧ c ≠ 'x' ∧ c ≠ '(' ∧ c.isDigit = false := by
  unfold glued at h
  obtain ⟨a, rfl, ha⟩ := (Option.any_eq_true _ _).mp h
  cases a with
  | nil => cases ha
  | cons c a =>
    have hmem : c ∈ SENTENCE_DELIMITERS := by simpa using ha
    have hall : (SENTENCE_DELIMITERS.all fun c => !isWs c && c != 'x' && c != '(' && !c.isDigit) = true := by
      decide
    have hc := List.all_eq_true.1 hall c hmem
    simp only [Bool.and_eq_true, Bool.not_eq_true', bne_iff_ne] at hc
    exact ⟨c, a, rfl, hc.1.1.1, hc.1.1.2, hc.1.2, hc.2⟩

/-- A line laid out: what `setPriority` leaves of its words, and which of them are its prefix. -/
structure Laid (raw : Text) (patch : FieldPatch) (drop body vs : List Text) (q : Place) : Prop where
  dropped : Dropped raw patch.priority drop body
  runs : ∀ w ∈ body, IsRun w
  front : Front vs q (draftOf raw).pre
  words : drop ++ body = vs ++ splitWords (draftOf raw).description
  place : q = placeAfter (raw.take (descriptionStart raw))

theorem exists_laid (hplain : PlainPatch patch) (h : parseLine raw .strict = .ok l) :
    ∃ drop body vs q, Laid raw patch drop body vs q := by
  obtain ⟨ws, hws, hraw⟩ := strict_words h
  obtain ⟨drop, body, hdrop, rfl⟩ := exists_dropped hplain.priority hws hraw
  obtain ⟨vs, q, hwords, hfront, hplace⟩ := exists_front raw
  have hhead : raw.head?.any isWs = false := by
    cases hw : drop ++ body with
    | nil => rw [hraw, hw]; rfl
    | cons w ws =>
      rw [hraw, ← Chips.join_eq_joined, Chips.join, hw]
      exact head_intercalate (hws w (hw ▸ List.mem_cons_self ..)) ws
  refine ⟨drop, body, vs, q, hdrop, fun w hw => hws w (List.mem_append_right _ hw), hfront, ?_, ?_⟩
  · rw [← hdrop.words, hwords]
  · rcases hplace with hsep | ⟨hplace, -⟩
    · rw [hhead] at hsep
      cases hsep
    · exact hplace

section Laid
variable {drop body vs : List Text} {q : Place}

theorem Laid.blank (h : Laid raw patch drop body vs q) (hraw : raw = []) :
    body = [] ∧ splitWords (draftOf raw).description = [] := by
  have hwords := h.dropped.words.trans h.words
  rw [hraw, splitWords_nil] at hwords
  rw [hraw]
  exact ⟨body_nil h.dropped hraw, (List.append_eq_nil_iff.mp hwords.symm).2⟩

theorem front_nil {us : List Text} (h : Front us q Prefix.empty) : us = [] := by
  cases h
  rfl

/-- Under the condition the patched fields change and nothing else. -/
theorem Laid.reads (h : Laid raw patch drop body vs q) (hplain : PlainPatch patch) (hp : Patchable raw patch) :
    (draftOf (applyPatch raw patch)).pre = wantedPrefix patch.priority (draftOf raw).pre ∧
      splitWords (draftOf (applyPatch raw patch)).description =
        wantedWords patch.due (splitWords (draftOf raw).description) ++ splitWords (patch.append.getD []) := by
  obtain ⟨us, hus, hwords⟩ := exists_wanted h.dropped h.front h.words hplain.priority h.place hp.letter
  have hcode : letters patch.priority ++ codeWords patch.due body =
      us ++ wantedWords patch.due (splitWords (draftOf raw).description) := by
    rw [← codeWords_append fun w => startsDue_letters, hwords, codeWords_append (startsDue_front hus),
      hp.due.codeWords]
  have hdated := splitWords_dated h.dropped h.runs hplain.priority hplain.due
  have hloose : glued patch.append = false ∨
      ∀ a, Boundary (dated (prioritised raw patch.priority) patch.due) a := by
    cases hg : glued patch.append with
    | false => exact .inl rfl
    | true =>
      refine .inr (boundary_of_loose h.dropped ?_)
      obtain ⟨hnil, hor⟩ := hp.glue hg
      unfold Loose
      by_cases hraw : raw = []
      · rw [if_pos hraw]
        have hdue := hp.due.codeWords
        rwa [hnil, (h.blank hraw).2] at hdue
      · rw [if_neg hraw, hcode, hnil, List.append_nil]
        rw [hor.resolve_right hraw] at hus
        exact front_nil hus
  rw [applyPatch_eq hplain.replace]
  have hresult := (splitWords_appended hloose).trans (congrArg (· ++ splitWords (patch.append.getD []))
    (hdated.trans hcode))
  rw [List.append_assoc] at hresult
  generalize hline : dated (prioritised raw patch.priority) patch.due = line at hresult hdated ⊢
  rw [hcode] at hdated
  cases hhead : (appended line patch.append).head?.any isWs with
  | true =>
    have husnil : us = [] := by
      rcases head_appended hhead with hnil | hsep
      · rw [hnil, splitWords_nil] at hdated
        exact (List.append_eq_nil_iff.mp hdated.symm).1
      · rw [← hline] at hsep
        obtain ⟨hraw, hletters⟩ := head_dated h.dropped h.runs hplain.priority hplain.due hsep
        rw [hletters, (h.blank hraw).1, (h.blank hraw).2, List.append_nil, List.append_nil] at hwords
        exact hwords.symm
    rw [husnil] at hus hresult
    rw [draftOf_indented hhead, Front.eq_empty hus]
    exact ⟨rfl, hresult⟩
  | false =>
    have hstop : (wantedPlace raw (draftOf raw).pre (wantedPrefix patch.priority (draftOf raw).pre)).take
        (wantedPrefix patch.priority (draftOf raw).pre)
        ((wantedWords patch.due (splitWords (draftOf raw).description) ++
          splitWords (patch.append.getD [])).headD []) = none := by
      rcases hp.stop with ⟨hempty, hnil⟩ | hstop
      · rw [hempty] at hus
        rw [front_nil hus, hnil] at hdated
        rw [hnil, List.nil_append]
        -- Nothing is left of the line but the text, which then opens with a delimiter.
        cases hg : glued patch.append with
        | true =>
          obtain ⟨c, a, ha, hc, hplainHead⟩ := glued_eq hg
          rw [ha, Option.getD_some, headD_splitWords (by simpa using hc)]
          refine take_none_of_head (c := c) ?_ hplainHead
          rw [firstWord, List.takeWhile_cons_of_pos (by simp [hc])]
          rfl
        | false =>
          cases ha : patch.append with
          | none => exact Place.take_nil _ _
          | some a =>
            exfalso
            have hlinehead : line.head?.any isWs = false := by
              cases line with
              | nil => rfl
              | cons c line => rwa [ha] at hhead
            have hlinenil := eq_nil_of_splitWords hdated hlinehead
            rw [ha] at hg
            rw [hlinenil, ha, appended, append_eq, hg] at hhead
            cases hhead
      · exact hstop
    have hpath := hus.reads (.stop hstop)
    rw [← hresult] at hpath
    obtain ⟨-, hpre, hdescription⟩ := (draftOf_words hhead).det hpath
    exact ⟨hpre, hdescription⟩

/-- When the patched fields change and nothing else, the condition holds. -/
theorem Laid.patchable (h : Laid raw patch drop body vs q) (hplain : PlainPatch patch)
    (hpre : (draftOf (applyPatch raw patch)).pre = wantedPrefix patch.priority (draftOf raw).pre)
    (hread : splitWords (draftOf (applyPatch raw patch)).description =
      wantedWords patch.due (splitWords (draftOf raw).description) ++ splitWords (patch.append.getD [])) :
    Patchable raw patch := by
  obtain ⟨us, q', hresult, hus, hstop⟩ := exists_front (applyPatch raw patch)
  rw [hpre] at hus hstop
  rw [hread] at hresult hstop
  rw [applyPatch_eq hplain.replace] at hresult hstop
  have hdated := splitWords_dated h.dropped h.runs hplain.priority hplain.due
  -- Glued to a word, the text's first word is none of the description's last words.
  have hloose : glued patch.append = true → Loose raw patch.priority patch.due body := by
    intro hg
    by_contra htight
    obtain ⟨before, last, heq, hlast, hbefore⟩ :=
      exists_last h.dropped h.runs hplain.priority hplain.due htight
    obtain ⟨c, a, ha, hc, -⟩ := glued_eq hg
    obtain ⟨t, ts, hwords, hglued⟩ := splitWords_glued hlast (a := c :: a) (by simpa using hc)
      (List.cons_ne_nil _ _)
    have hbound : Boundary before (last ++ c :: a) := by
      rcases hbefore with hnil | hspace
      · exact .inl hnil
      · refine .inr (.inr (.inl ?_))
        rw [hspace]
        rfl
    rw [ha] at hg
    rw [heq, ha, appended, append_eq, hg, if_pos rfl, List.nil_append, List.append_assoc,
      splitWords_append hbound, hglued, Option.getD_some, hwords, ← List.append_assoc,
      List.append_cons _ (last ++ t), List.append_cons _ t] at hresult
    have hsame := (List.append_inj' (List.append_cancel_right hresult) rfl).2
    have hword : last ++ t = t := (List.cons.inj hsame).1
    exact hlast.1 (List.append_left_eq_self.mp hword)
  have hresult' : letters patch.priority ++ codeWords patch.due body =
      us ++ wantedWords patch.due (splitWords (draftOf raw).description) := by
    have htext : glued patch.append = false ∨
        ∀ a, Boundary (dated (prioritised raw patch.priority) patch.due) a := by
      cases hg : glued patch.append with
      | false => exact .inl rfl
      | true => exact .inr (boundary_of_loose h.dropped (hloose hg))
    rw [splitWords_appended htext, hdated, ← List.append_assoc] at hresult
    exact List.append_cancel_right hresult
  have hcode : drop ++ codeWords patch.due body =
      vs ++ codeWords patch.due (splitWords (draftOf raw).description) := by
    rw [← codeWords_append h.dropped.plain, h.words, codeWords_append (startsDue_front h.front)]
  have hdue : DueFound patch.due (splitWords (draftOf raw).description) := by
    have hplainWords {us ws : List Text} (hus : ∀ w ∈ us, startsDue w = false) :
        (us ++ ws).filter startsDue = ws.filter startsDue := by
      rw [List.filter_append, List.filter_eq_nil_iff.mpr fun w hw => by simp [hus w hw], List.nil_append]
    have hleft := congrArg (List.filter startsDue) hcode
    have hright := congrArg (List.filter startsDue) hresult'
    rw [hplainWords h.dropped.plain, hplainWords (startsDue_front h.front)] at hleft
    rw [hplainWords fun w => startsDue_letters, hplainWords (startsDue_front hus)] at hright
    exact dueFound_of_filter (hleft.symm.trans hright)
  have hletter : LetterFound raw patch.priority (draftOf raw).pre := by
    rw [← hdue.codeWords] at hresult'
    exact letterFound_of_words h.dropped h.front h.words hplain.priority hus hresult'
  obtain ⟨us', hus', hwords⟩ := exists_wanted h.dropped h.front h.words hplain.priority h.place hletter
  obtain rfl : us' = us := by
    have hsame : letters patch.priority ++ codeWords patch.due body =
        us' ++ wantedWords patch.due (splitWords (draftOf raw).description) := by
      rw [← codeWords_append fun w => startsDue_letters, hwords, codeWords_append (startsDue_front hus'),
        hdue.codeWords]
    exact List.append_cancel_right (hsame.symm.trans hresult')
  refine ⟨hletter, hdue, fun hg => ?_, ?_⟩
  · have hl := hloose hg
    unfold Loose at hl
    by_cases hraw : raw = []
    · rw [if_pos hraw] at hl
      refine ⟨?_, .inr hraw⟩
      rw [← hdue.codeWords, (h.blank hraw).2]
      exact hl
    · rw [if_neg hraw, hresult'] at hl
      obtain ⟨hnil, hwanted⟩ := List.append_eq_nil_iff.mp hl
      rw [hnil] at hus
      exact ⟨hwanted, .inl (Front.eq_empty hus)⟩
  · rcases hstop with hsep | ⟨-, hstop⟩
    · rcases head_appended hsep with hnil | hsep
      · rw [hnil, splitWords_nil, hresult'] at hdated
        obtain ⟨hnil, hwanted⟩ := List.append_eq_nil_iff.mp hdated.symm
        rw [hnil] at hus
        exact .inl ⟨Front.eq_empty hus, hwanted⟩
      · obtain ⟨hraw, hletters⟩ := head_dated h.dropped h.runs hplain.priority hplain.due hsep
        rw [hletters, (h.blank hraw).1, (h.blank hraw).2, List.append_nil, List.append_nil] at hwords
        rw [← hwords] at hus
        rw [(h.blank hraw).2]
        cases hd : patch.due with
        | none => exact .inl ⟨Front.eq_empty hus, rfl⟩
        | some d =>
          cases d with
          | nil => exact .inl ⟨Front.eq_empty hus, rfl⟩
          | cons c d => exact .inr (take_none_of_head (c := 'd') rfl (by decide))
    · right
      rwa [(hus'.det hus).1]

end Laid

theorem pre_eq {p r : Prefix} (hcompleted : p.completed = r.completed)
    (hcompletion : p.completionDate = r.completionDate) (hcreation : p.creationDate = r.creationDate)
    (hpriority : p.priority = r.priority) : p = r := by
  cases p
  cases r
  cases hcompleted
  cases hcompletion
  cases hcreation
  cases hpriority
  rfl

/-- A patch of a line the strict parser accepts changes the patched fields and nothing else exactly when the
line is patchable. -/
theorem patched_iff (h : parseLine raw .strict = .ok l) (hplain : PlainPatch patch) :
    Patched patch (readTask raw) (readTask (applyPatch raw patch)) ↔ Patchable raw patch := by
  obtain ⟨drop, body, vs, q, hlaid⟩ := exists_laid hplain h
  rw [patched_iff_words hplain]
  constructor
  · rintro ⟨⟨hcompleted, hcompletion, hcreation, hpriority⟩, hwords⟩
    exact hlaid.patchable hplain (pre_eq hcompleted hcompletion hcreation hpriority) hwords
  · intro hp
    obtain ⟨hpre, hwords⟩ := hlaid.reads hplain hp
    refine ⟨?_, hwords⟩
    simp only [readTask, taskWith, hpre]
    exact ⟨rfl, rfl, rfl, rfl⟩

theorem patched_iff_two_fields :
    Patched ⟨some "b".toList, some "friday".toList, some "at noon".toList, none⟩
        (readTask "(A) call +mum due:monday".toList)
        (readTask (applyPatch "(A) call +mum due:monday".toList
          ⟨some "b".toList, some "friday".toList, some "at noon".toList, none⟩)) ↔
      Patchable "(A) call +mum due:monday".toList
        ⟨some "b".toList, some "friday".toList, some "at noon".toList, none⟩ := by
  refine patched_iff (l := lineOf "(A) call +mum due:monday".toList
    ⟨false, none, none, some ⟨'A', rfl⟩, "call +mum due:monday".toList⟩ Quirks.NONE) rfl
    ⟨?_, ?_, ?_, rfl⟩
  · intro p hp
    obtain rfl := Option.some.inj hp
    exact .inr ⟨'b', rfl, rfl⟩
  · intro d hd
    obtain rfl := Option.some.inj hd
    exact .inr ⟨by decide, by simp; decide⟩
  · intro a ha
    obtain rfl := Option.some.inj ha
    decide

/-- A priority given to a done line goes in front of its mark, and the line is open. -/
theorem patch_reopens :
    (parseLine "x 2026-09-12 call".toList .strict).toOption.isSome = true ∧
      PlainPatch ⟨some "A".toList, none, none, none⟩ ∧
      ¬Patched ⟨some "A".toList, none, none, none⟩ (readTask "x 2026-09-12 call".toList)
        (readTask (applyPatch "x 2026-09-12 call".toList ⟨some "A".toList, none, none, none⟩)) := by
  refine ⟨rfl, ⟨?_, fun d hd => (by cases hd), fun a ha => (by cases ha), rfl⟩, fun h => ?_⟩
  · intro p hp
    obtain rfl := Option.some.inj hp
    exact .inr ⟨'A', rfl, rfl⟩
  · exact absurd h.completed (by decide)

end Main

end Txtodo.Mcp
