import Txtodo.Core.Proofs.WordSplitProofs
import Txtodo.Engine.TextHistory

/-!
# Tag helpers and the core editor

Removing a tag by name finds the core's tag. Setting a `pri:` tag looks between spaces only, so it agrees
with the core where no tab stands in the first word that is or holds one.
-/

namespace Txtodo

open Grammar

/-! ## Finding a tag -/

section Find
variable {key pre w post d : Text} {pos : Nat}

theorem findTagWord_nil (key : Text) (pos : Nat) : findTagWord key pos [[]] = none := by
  rw [findTagWord, if_neg (by simp [isTagWord]), findTagWord]

theorem findTagWord_cons (key : Text) (pos : Nat) (rest : Text) {c : Char} (hc : isWs c = true) :
    findTagWord key pos ((c :: rest).splitOnP isWs) = findTagWord key (pos + 1) (rest.splitOnP isWs) := by
  rw [← List.nil_append (c :: rest), List.splitOnP_append_cons_of_forall_mem (by simp) c hc, findTagWord,
    if_neg (by simp [isTagWord])]
  rfl

theorem findTagWord_separated {seps : Text} (h : ∀ c ∈ seps, isWs c = true) (key : Text) (pos : Nat)
    (rest : Text) : findTagWord key pos ((seps ++ rest).splitOnP isWs) =
      findTagWord key (pos + seps.length) (rest.splitOnP isWs) := by
  induction seps generalizing pos with
  | nil => rfl
  | cons c seps ih =>
    rw [List.cons_append, findTagWord_cons _ _ _ (h c (List.mem_cons_self ..)),
      ih fun c hc => h c (List.mem_cons_of_mem _ hc), List.length_cons, Nat.add_assoc,
      Nat.add_comm 1]

/-- A word in front of a separator or of nothing is looked at first. -/
theorem findTagWord_word (hw : ∀ c ∈ w, isWs c = false) {rest : Text}
    (hrest : ∀ c ∈ rest.head?, isWs c = true) (key : Text) (pos : Nat) :
    findTagWord key pos ((w ++ rest).splitOnP isWs) =
      if isTagWord key w then some (pos, pos + w.length)
      else findTagWord key (pos + w.length) (rest.splitOnP isWs) := by
  cases rest with
  | nil =>
    rw [List.append_nil, List.splitOnP_eq_singleton hw, List.splitOnP_nil, findTagWord_nil, findTagWord,
      findTagWord]
  | cons c rest =>
    have hc := hrest c rfl
    rw [List.splitOnP_append_cons_of_forall_mem hw c hc, findTagWord, findTagWord_cons _ _ _ hc]

/-- The core looks at the same words. -/
theorem findTagIn_eq (hkey : OrdinaryKey key) {cs : List Chunk} (h : Alternating cs) (pos : Nat) :
    Draft.findTagIn key pos cs = findTagWord key pos ((textOf cs).splitOnP isWs) := by
  induction cs generalizing pos with
  | nil =>
    rw [textOf_nil, List.splitOnP_nil, findTagWord_nil]
    rfl
  | cons c cs ih =>
    have hc := h.uniform c (List.mem_cons_self ..)
    have hcs := (@Alternating.of_append [c] cs h).2
    rw [findTagIn_cons, textOf_cons, hkey.hasKey_eq]
    cases hws : c.isWs with
    | true =>
      rw [if_neg (by simp), findTagWord_separated fun x hx => (hc.same x hx).trans hws]
      exact ih hcs _
    | false =>
      have hnext : ∀ x ∈ (textOf cs).head?, isWs x = true := by
        cases cs with
        | nil => simp
        | cons d cs =>
          have hd := h.uniform d (by simp)
          have hne : c.isWs ≠ d.isWs := (List.isChain_cons_cons.1 h.alternate).1
          intro x hx
          rw [textOf_cons, List.head?_append_of_ne_nil _ hd.nonempty] at hx
          rw [hd.same x (List.mem_of_head? hx)]
          rw [hws] at hne
          exact (Bool.eq_true_of_not_eq_false fun hfalse => hne hfalse.symm)
      rw [findTagWord_word (fun x hx => (hc.same x hx).trans hws) hnext, ih hcs]
      simp

/-- Both find the same tag. -/
theorem findTag_eq (hkey : OrdinaryKey key) (p : Prefix) (d : Text) :
    (⟨p, d⟩ : Draft).findTag key = findTag d key := by
  have htext := textOf_chunksFrom 0 d
  rw [Draft.findTag, chunks, findTagIn_eq hkey (alternating_chunksFrom 0 d), htext, findTag,
    if_pos hkey.valid]
  rfl

theorem removeTag_eq (hkey : OrdinaryKey key) (p : Prefix) (d : Text) :
    ((⟨p, d⟩ : Draft).removeTag key).description = removeTag d key := by
  rw [Draft.removeTag, findTag_eq hkey, removeTag]
  cases findTag d key with
  | none => rfl
  | some range =>
    dsimp only
    split_ifs
    · rw [replaceRange, List.append_nil]
    · rw [replaceRange, List.append_nil]
    · rw [replaceRange, List.append_nil]

end Find

/-! ## Setting `pri:` -/

section Pri
variable {d pre w post : Text} {letter : Char}

/-- The tag word of a letter. -/
def priTagWord (letter : Char) : Text := "pri:".toList ++ [letter]

theorem isPri_eq (w : Text) : isPri w = isTagWord "pri".toList w := Bool.and_comm _ _

theorem isPri_nil : isPri [] = false := rfl

theorem splitOn_space (d : Text) : d.splitOn ' ' = d.splitOnP (· == ' ') := List.splitOn_eq_splitOnP

theorem replaceFirstPri_none {ws : List Text} (tag : Text) (h : ws.find? isPri = none) :
    replaceFirstPri tag ws = none := by
  induction ws with
  | nil => rfl
  | cons w ws ih =>
    rw [List.find?_cons] at h
    rw [replaceFirstPri]
    cases hw : isPri w with
    | true =>
      rw [hw] at h
      cases h
    | false =>
      rw [hw] at h
      rw [if_neg Bool.false_ne_true, ih h]
      rfl

/-- The first `pri:` word between spaces is replaced where it stands. -/
theorem replaceFirstPri_stands (tag : Text) (h : Split.Stands (· == ' ') pre w post) (hw : isPri w = true)
    (hfirst : (pre.splitOnP (· == ' ')).any isPri = false) :
    ∃ words, replaceFirstPri tag ((pre ++ (w ++ post)).splitOnP (· == ' ')) = some words ∧ words ≠ [] ∧
      [' '].intercalate words = pre ++ (tag ++ post) := by
  have hleft := h.left
  induction hleft with
  | nil =>
    cases post with
    | nil =>
      refine ⟨[tag], ?_, by simp, by simp⟩
      rw [List.append_nil, List.nil_append, List.splitOnP_eq_singleton h.plain, replaceFirstPri, if_pos hw]
    | cons c post =>
      obtain rfl : c = ' ' := beq_iff_eq.1 (h.right c rfl)
      refine ⟨tag :: post.splitOnP (· == ' '), ?_, by simp, ?_⟩
      · rw [List.nil_append, List.splitOnP_append_cons_of_forall_mem h.plain ' ' rfl, replaceFirstPri,
          if_pos hw]
      · rw [List.intercalate_cons_of_ne_nil (List.splitOnP_ne_nil _ _), ← splitOn_space,
          List.intercalate_splitOn]
        simp
  | @more v rest c hv hc hrest ih =>
    obtain rfl : c = ' ' := beq_iff_eq.1 hc
    rw [List.splitOnP_append_cons_of_forall_mem hv ' ' rfl, List.any_cons, Bool.or_eq_false_iff] at hfirst
    obtain ⟨words, hwords, hne, htext⟩ := ih ⟨hrest, h.plain, h.right⟩ hfirst.2
    refine ⟨v :: words, ?_, by simp, ?_⟩
    · rw [List.append_assoc, List.cons_append, List.splitOnP_append_cons_of_forall_mem hv ' ' rfl,
        replaceFirstPri, hfirst.1, if_neg Bool.false_ne_true, hwords]
      rfl
    · rw [List.intercalate_cons_of_ne_nil hne, htext]
      simp

theorem setPri_stands (letter : Char) (add : Bool) (h : Split.Stands (· == ' ') pre w post)
    (hw : isPri w = true) (hfirst : (pre.splitOnP (· == ' ')).any isPri = false) :
    setPri (pre ++ (w ++ post)) letter add = pre ++ (priTagWord letter ++ post) := by
  obtain ⟨words, hwords, -, htext⟩ := replaceFirstPri_stands (priTagWord letter) h hw hfirst
  rw [setPri, splitOn_space]
  rw [priTagWord] at hwords
  rw [hwords]
  exact htext

theorem setPri_none {add : Bool} (h : (d.splitOnP (· == ' ')).find? isPri = none) :
    setPri d letter add =
      if !add then d else if d.isEmpty then priTagWord letter else d ++ [' '] ++ priTagWord letter := by
  rw [setPri, splitOn_space, replaceFirstPri_none _ h]
  rfl

theorem hasPri_eq (d : Text) : hasPri d = ((d.splitOnP (· == ' ')).find? isPri).isSome := by
  rw [hasPri, splitOn_space, List.isSome_find?]

/-! ## The core's tag -/

theorem findTagWord_stands {key : Text} (h : Split.Stands isWs pre w post) (hw : isTagWord key w = true)
    (hfirst : (pre.splitOnP isWs).any (isTagWord key) = false) (pos : Nat) :
    findTagWord key pos ((pre ++ (w ++ post)).splitOnP isWs) =
      some (pos + pre.length, pos + pre.length + w.length) := by
  have hleft := h.left
  induction hleft generalizing pos with
  | nil => rw [List.nil_append, findTagWord_word h.plain h.right, if_pos hw]; rfl
  | @more v rest c hv hc hrest ih =>
    rw [List.splitOnP_append_cons_of_forall_mem hv c hc, List.any_cons, Bool.or_eq_false_iff] at hfirst
    rw [List.append_assoc, findTagWord_word hv (by simpa using hc), hfirst.1, if_neg Bool.false_ne_true,
      List.cons_append, findTagWord_cons _ _ _ hc, ih ⟨hrest, h.plain, h.right⟩ hfirst.2]
    simp only [List.length_append, List.length_cons, Option.some.injEq, Prod.mk.injEq]
    omega

theorem findTagWord_none {key : Text} {ws : List Text} (h : ws.find? (isTagWord key) = none) (pos : Nat) :
    findTagWord key pos ws = none := by
  induction ws generalizing pos with
  | nil => rfl
  | cons w ws ih =>
    rw [List.find?_cons] at h
    rw [findTagWord]
    cases hw : isTagWord key w with
    | true =>
      rw [hw] at h
      cases h
    | false =>
      rw [hw] at h
      rw [if_neg Bool.false_ne_true, ih h]

theorem findTag_pri (d : Text) : findTag d "pri".toList = findTagWord "pri".toList 0 (d.splitOnP isWs) :=
  if_pos ordinaryKey_pri.valid

theorem isPri_fun : isPri = isTagWord "pri".toList := funext isPri_eq

/-- The core replaces the first `pri:` word between spaces and tabs where it stands. -/
theorem setTag_stands (p : Prefix) (letter : Char) (h : Split.Stands isWs pre w post) (hw : isPri w = true)
    (hfirst : (pre.splitOnP isWs).any isPri = false) :
    ((⟨p, pre ++ (w ++ post)⟩ : Draft).findTag "pri".toList).isSome = true ∧
      ((⟨p, pre ++ (w ++ post)⟩ : Draft).setTag "pri".toList [letter]).description =
        pre ++ (priTagWord letter ++ post) := by
  rw [isPri_fun] at hw hfirst
  have hfind : (⟨p, pre ++ (w ++ post)⟩ : Draft).findTag "pri".toList =
      some (pre.length, pre.length + w.length) := by
    rw [findTag_eq ordinaryKey_pri, findTag_pri, findTagWord_stands h hw hfirst, Nat.zero_add]
  refine ⟨by rw [hfind]; rfl, ?_⟩
  rw [Draft.setTag, hfind]
  dsimp only
  rw [replaceRange, List.take_left, ← List.drop_drop, List.drop_left, List.drop_left, List.append_assoc]
  rfl

theorem setTag_none (p : Prefix) (letter : Char) (h : (d.splitOnP isWs).find? isPri = none) :
    (⟨p, d⟩ : Draft).findTag "pri".toList = none ∧
      ((⟨p, d⟩ : Draft).setTag "pri".toList [letter]).description =
        if d.isEmpty then priTagWord letter else d ++ [' '] ++ priTagWord letter := by
  rw [isPri_fun] at h
  have hfind : (⟨p, d⟩ : Draft).findTag "pri".toList = none := by
    rw [findTag_eq ordinaryKey_pri, findTag_pri, findTagWord_none h]
  refine ⟨hfind, ?_⟩
  rw [Draft.setTag, hfind]
  dsimp only [Draft.append]
  cases d with
  | nil => rfl
  | cons c d => rfl

/-! ## Agreement -/

/-- What an edit does to a description. -/
def Edit.onDescription (edit : Edit) (d : Text) : Text :=
  (edit.ops.foldl Draft.applyOp ⟨Prefix.empty, d⟩).description

/-- The tag helpers do to a description what the core editor does, `setTag` being its edit that sets the
letter's tag. -/
structure HelpersAgree (d : Text) (letter : Char) (setTag : Edit) : Prop where
  remove : ∀ key edit, Edit.new.removeTag key = .ok edit →
    DEFAULT_SCHEMES.any (eqIgnoreAsciiCase · key) = false → key.head? ≠ some '+' → key.head? ≠ some '@' →
      removeTag d key = edit.onDescription d
  add : setPri d letter true = setTag.onDescription d
  swap : setPri d letter false =
    if ((⟨Prefix.empty, d⟩ : Draft).findTag "pri".toList).isSome then setTag.onDescription d else d
  has : hasPri d = ((⟨Prefix.empty, d⟩ : Draft).findTag "pri".toList).isSome

/-- The first word between spaces that is a `pri:` tag, or holds one, holds no tab; or the first tag
between spaces and the first between spaces and tabs are the letter's own. -/
def SetsAlike (d : Text) (letter : Char) : Prop :=
  ∀ u, (d.splitOn ' ').find? (fun u => isPri u || (u.splitOnP isWs).any isPri) = some u →
    '\t' ∉ u ∨ (d.splitOn ' ').find? isPri = some (priTagWord letter) ∧
      (d.splitOnP isWs).find? isPri = some (priTagWord letter)

theorem isWs_of_space (c : Char) (h : (c == ' ') = true) : isWs c = true := by
  rw [beq_iff_eq.1 h]
  rfl

theorem any_isPri_words {s : Text} : (s.splitOnP isWs).any isPri =
    (s.splitOnP (· == ' ')).any fun u => (u.splitOnP isWs).any isPri := by
  rw [Split.splitOnP_flatMap isWs_of_space, List.any_flatMap]

theorem le_length_of_isPri (h : isPri w = true) : 5 ≤ w.length := by
  rw [isPri, Bool.and_eq_true, decide_eq_true_iff] at h
  exact h.1

theorem head_of_isPri (h : isPri w = true) : ∃ v, w = 'p' :: v := by
  rw [isPri, Bool.and_eq_true, decide_eq_true_iff, decide_eq_true_iff] at h
  obtain ⟨v, rfl⟩ := h.2
  exact ⟨_, rfl⟩

/-- Words that do not start at one place are replaced alike only when neither changes. -/
theorem replaced_apart {t pre' post' : Text} (hw : Split.Stands (· == ' ') pre w post)
    (ht : Split.Stands isWs pre' t post') (hpri : isPri w = true) (hpri' : isPri t = true)
    (hd : pre ++ (w ++ post) = pre' ++ (t ++ post')) (hne : pre.length ≠ pre'.length)
    (heq : pre ++ (priTagWord letter ++ post) = pre' ++ (priTagWord letter ++ post')) :
    w = priTagWord letter ∧ t = priTagWord letter := by
  have hlen := congrArg List.length hd
  have hlen' := congrArg List.length heq
  simp only [List.length_append] at hlen hlen'
  obtain ⟨v, hv⟩ := head_of_isPri hpri
  obtain ⟨v', hv'⟩ := head_of_isPri hpri'
  rcases List.append_eq_append_iff.1 hd with ⟨m, rfl, hrest⟩ | ⟨m, rfl, hrest⟩
  · rcases List.append_eq_append_iff.1 hrest with ⟨k, rfl, rfl⟩ | ⟨k, rfl, hk⟩
    · -- the word between spaces comes first
      have hgap : ∃ e ∈ k.head?, (e == ' ') = true := by
        cases k with
        | nil => exact absurd (hw.right 'p' (by rw [hv']; rfl)) (by decide)
        | cons c k => exact ⟨c, rfl, hw.right c rfl⟩
      have hboth : pre ++ (priTagWord letter ++ (k ++ (t ++ post'))) =
          pre ++ (w ++ (k ++ (priTagWord letter ++ post'))) := by
        rw [heq]
        simp
      exact Split.replaced_eq (le_length_of_isPri hpri) hw.plain hgap hboth
    · -- it would hold the other one, and a space after it
      exfalso
      rw [List.length_append] at hlen hne
      rcases List.append_eq_append_iff.1 hk with ⟨j, rfl, hj⟩ | ⟨j, rfl, hj⟩
      · simp only [List.length_append] at hlen hlen' hne
        omega
      · cases j with
        | nil =>
          simp only [List.append_nil, List.nil_append] at *
          simp only [List.length_append] at hlen hlen' hne
          omega
        | cons c j =>
          have hc := isWs_of_space c (hw.right c (by rw [hj]; rfl))
          rw [ht.plain c (by simp)] at hc
          cases hc
  · rcases List.append_eq_append_iff.1 hrest with ⟨k, rfl, rfl⟩ | ⟨k, rfl, hk⟩
    · -- the word between spaces and tabs comes first
      have hgap : ∃ e ∈ k.head?, isWs e = true := by
        cases k with
        | nil => exact absurd (ht.right 'p' (by rw [hv]; rfl)) (by decide)
        | cons c k => exact ⟨c, rfl, ht.right c rfl⟩
      have hboth : pre' ++ (priTagWord letter ++ (k ++ (w ++ post))) =
          pre' ++ (t ++ (k ++ (priTagWord letter ++ post))) := by
        rw [← heq]
        simp
      have hsame : t = priTagWord letter ∧ w = priTagWord letter :=
        Split.replaced_eq (le_length_of_isPri hpri') ht.plain hgap hboth
      exact hsame.symm
    · -- it would hold the space in front of the other one
      exfalso
      rcases List.eq_nil_or_concat' m with rfl | ⟨m, c, rfl⟩
      · exact hne (by rw [List.append_nil])
      · have hc := Split.closed_iff.1 hw.left c (by rw [← List.append_assoc, List.getLast?_concat]; rfl)
        have hplain := ht.plain c (by simp)
        rw [isWs_of_space c hc] at hplain
        cases hplain

/-- Whether a word between spaces is a `pri:` tag or holds one. -/
def holdsPri (u : Text) : Bool := isPri u || (u.splitOnP isWs).any isPri

theorem holdsPri_nil : holdsPri [] = false := rfl

/-- Without a tab in it, a word between spaces is what it holds. -/
theorem isPri_of_holdsPri {u : Text} (h : holdsPri u = true) (hu : ∀ c ∈ u, isWs c = false) :
    isPri u = true := by
  rw [holdsPri, List.splitOnP_eq_singleton hu] at h
  simpa using h

theorem any_holdsPri_false {s : Text} (h : (s.splitOnP (· == ' ')).any holdsPri = false) :
    (s.splitOnP (· == ' ')).any isPri = false ∧ (s.splitOnP isWs).any isPri = false := by
  rw [any_isPri_words]
  simp only [List.any_eq_false, holdsPri, Bool.or_eq_true, not_or] at h ⊢
  exact ⟨fun u hu => (h u hu).1, fun u hu => (h u hu).2⟩

theorem any_holdsPri_of_false {s : Text} (h : (s.splitOnP (· == ' ')).any isPri = false)
    (h' : (s.splitOnP isWs).any isPri = false) : (s.splitOnP (· == ' ')).any holdsPri = false := by
  rw [any_isPri_words] at h'
  simp only [List.any_eq_false, holdsPri, Bool.or_eq_true, not_or] at h h' ⊢
  exact fun u hu => ⟨h u hu, h' u hu⟩

/-- Where no tab stands in the word that is or holds the first tag, both find that word. -/
theorem stands_both {u : Text} (h : (d.splitOn ' ').find? holdsPri = some u) (htab : '\t' ∉ u) :
    ∃ pre post, d = pre ++ (u ++ post) ∧ Split.Stands (· == ' ') pre u post ∧ Split.Stands isWs pre u post ∧
      isPri u = true ∧ (pre.splitOnP (· == ' ')).any isPri = false ∧
        (pre.splitOnP isWs).any isPri = false := by
  rw [splitOn_space] at h
  obtain ⟨pre, post, hd, hstands, hfirst⟩ := Split.exists_stands holdsPri_nil h
  obtain ⟨hspace, hword⟩ := any_holdsPri_false hfirst
  have hu : ∀ c ∈ u, isWs c = false := by
    intro c hc
    have hspace : ¬c = ' ' := by simpa using hstands.plain c hc
    have htab : ¬c = '\t' := fun heq => htab (heq ▸ hc)
    rw [isWs, decide_eq_false hspace, decide_eq_false htab]
    rfl
  have hleft : Split.Closed isWs pre :=
    Split.closed_iff.2 fun c hc => isWs_of_space c (Split.closed_iff.1 hstands.left c hc)
  exact ⟨pre, post, hd, hstands, ⟨hleft, hu, fun c hc => isWs_of_space c (hstands.right c hc)⟩,
    isPri_of_holdsPri (List.find?_some h) hu, hspace, hword⟩

/-- Setting the tag, in both ways, and looking for it. -/
def SetsAgree (d : Text) (letter : Char) : Prop :=
  let draft : Draft := ⟨Prefix.empty, d⟩
  let set := (draft.setTag "pri".toList [letter]).description
  let found := (draft.findTag "pri".toList).isSome
  setPri d letter true = set ∧ setPri d letter false = (if found then set else d) ∧ hasPri d = found

theorem setsAgree_of_stands {u : Text} (hspace : Split.Stands (· == ' ') pre u post)
    (hword : Split.Stands isWs pre u post) (hu : isPri u = true)
    (hfirst : (pre.splitOnP (· == ' ')).any isPri = false) (hfirst' : (pre.splitOnP isWs).any isPri = false) :
    SetsAgree (pre ++ (u ++ post)) letter := by
  obtain ⟨hfound, hset⟩ := setTag_stands Prefix.empty letter hword hu hfirst'
  dsimp only [SetsAgree]
  rw [hset, hfound, setPri_stands letter true hspace hu hfirst, setPri_stands letter false hspace hu hfirst,
    if_pos rfl, hasPri_eq, hspace.find? hu hfirst]
  exact ⟨rfl, rfl, rfl⟩

theorem any_of_find?_none {p : Text → Bool} {ws : List Text} (h : ws.find? p = none) : ws.any p = false := by
  rw [← List.isSome_find?, h]
  rfl

theorem find?_none_of_any {p : Text → Bool} {ws : List Text} (h : ws.any p = false) : ws.find? p = none := by
  rwa [← List.isSome_find?, Option.isSome_eq_false_iff, Option.isNone_iff_eq_none] at h

theorem hasPri_false (h : (d.splitOnP (· == ' ')).find? isPri = none) : hasPri d = false := by
  rw [hasPri_eq, h]
  rfl

/-- A tag found is written alike when both tags are the letter's own already. -/
theorem setsAgree_of_own (h : (d.splitOnP (· == ' ')).find? isPri = some (priTagWord letter))
    (h' : (d.splitOnP isWs).find? isPri = some (priTagWord letter)) : SetsAgree d letter := by
  obtain ⟨pre, post, rfl, hstands, hfirst⟩ := Split.exists_stands isPri_nil h
  obtain ⟨pre', post', hd, hstands', hfirst'⟩ := Split.exists_stands isPri_nil h'
  have hset := setTag_stands Prefix.empty letter hstands' (List.find?_some h') hfirst'
  rw [← hd] at hset
  have hpri := List.find?_some h
  dsimp only [SetsAgree]
  rw [hset.2, hset.1, setPri_stands letter true hstands hpri hfirst,
    setPri_stands letter false hstands hpri hfirst, if_pos rfl, hasPri_eq, h]
  exact ⟨rfl, rfl, rfl⟩

/-- A tab in the word that is or holds the first tag keeps the two apart unless both change nothing. -/
theorem setsAgree_iff {u : Text} (hu : (d.splitOn ' ').find? holdsPri = some u) (htab : '\t' ∈ u) :
    SetsAgree d letter ↔ (d.splitOn ' ').find? isPri = some (priTagWord letter) ∧
      (d.splitOnP isWs).find? isPri = some (priTagWord letter) := by
  rw [splitOn_space] at hu ⊢
  refine ⟨fun hagree => ?_, fun ⟨h, h'⟩ => setsAgree_of_own h h'⟩
  obtain ⟨hadd, -, hhas⟩ := hagree
  cases hS : (d.splitOnP (· == ' ')).find? isPri with
  | none =>
    exfalso
    rw [hasPri_false hS] at hhas
    cases hW : (d.splitOnP isWs).find? isPri with
    | none =>
      have hnone := any_holdsPri_of_false (any_of_find?_none hS) (any_of_find?_none hW)
      rw [← List.isSome_find?, hu] at hnone
      cases hnone
    | some t =>
      obtain ⟨pre', post', hd, hstands', hfirst'⟩ := Split.exists_stands isPri_nil hW
      have hset := setTag_stands Prefix.empty letter hstands' (List.find?_some hW) hfirst'
      rw [← hd, ← hhas] at hset
      cases hset.1
  | some w =>
    cases hW : (d.splitOnP isWs).find? isPri with
    | none =>
      rw [hasPri_eq, hS, (setTag_none Prefix.empty letter hW).1] at hhas
      cases hhas
    | some t =>
      obtain ⟨pre, post, hd, hstands, hfirst⟩ := Split.exists_stands isPri_nil hS
      obtain ⟨pre', post', hd', hstands', hfirst'⟩ := Split.exists_stands isPri_nil hW
      have hw := List.find?_some hS
      have ht := List.find?_some hW
      have hset := (setTag_stands Prefix.empty letter hstands' ht hfirst').2
      rw [← hd', ← hadd, hd, setPri_stands letter true hstands hw hfirst] at hset
      by_cases hlen : pre.length = pre'.length
      · -- at one place they are the same word, which holds no tab
        exfalso
        rw [hd] at hd'
        obtain ⟨rfl, hrest⟩ := List.append_inj hd' hlen
        have hpost := List.append_cancel_left (List.append_cancel_left hset)
        rw [hpost] at hrest
        obtain rfl : w = t := List.append_cancel_right hrest
        have hfound := hstands.find? (p := holdsPri) (by rw [holdsPri, hw]; rfl)
          (any_holdsPri_of_false hfirst hfirst')
        rw [← hd, hu] at hfound
        obtain rfl := Option.some.inj hfound
        cases hstands'.plain '\t' htab
      · obtain ⟨rfl, rfl⟩ := replaced_apart hstands hstands' hw ht (hd ▸ hd') hlen hset
        exact ⟨rfl, rfl⟩

/-- Without a tag, both write it behind the description. -/
theorem setsAgree_of_none (hS : (d.splitOnP (· == ' ')).find? isPri = none)
    (hW : (d.splitOnP isWs).find? isPri = none) : SetsAgree d letter := by
  obtain ⟨hfind, hset⟩ := setTag_none Prefix.empty letter hW
  dsimp only [SetsAgree]
  rw [hset, hfind, setPri_none hS, setPri_none hS, hasPri_false hS]
  exact ⟨rfl, rfl, rfl⟩

theorem setsAgree_iff_setsAlike (d : Text) (letter : Char) : SetsAgree d letter ↔ SetsAlike d letter := by
  cases hu : (d.splitOn ' ').find? holdsPri with
  | none =>
    refine iff_of_true ?_ fun v hv => ?_
    · rw [splitOn_space] at hu
      obtain ⟨hS, hW⟩ := any_holdsPri_false (any_of_find?_none hu)
      exact setsAgree_of_none (find?_none_of_any hS) (find?_none_of_any hW)
    · cases hu.symm.trans hv
  | some u =>
    by_cases htab : '\t' ∈ u
    · rw [setsAgree_iff hu htab]
      refine ⟨fun h v hv => .inr h, fun h => (h u hu).resolve_left fun hno => hno htab⟩
    · refine iff_of_true ?_ fun v hv => ?_
      · obtain ⟨pre, post, rfl, hspace, hword, hpri, hfirst, hfirst'⟩ := stands_both hu htab
        exact setsAgree_of_stands hspace hword hpri hfirst hfirst'
      · obtain rfl : v = u := Option.some.inj (hv.symm.trans hu)
        exact .inl htab

theorem setTag_ops {key value : Text} {edit : Edit} (h : Edit.new.setTag key value = .ok edit) :
    edit = ⟨[.setTag key value]⟩ := by
  unfold Edit.setTag at h
  cases hvalid : validTag key value with
  | error e =>
    rw [hvalid] at h
    cases h
  | ok u =>
    rw [hvalid] at h
    cases h
    rfl

/-- A key the core takes can name a tag. -/
theorem validTagKey_of_removeTag {key : Text} {edit : Edit} (h : Edit.new.removeTag key = .ok edit) :
    validTagKey key = true ∧ edit = ⟨[.removeTag key]⟩ := by
  unfold Edit.removeTag at h
  cases hvalid : validTag key ['v'] with
  | error e =>
    rw [hvalid] at h
    cases h
  | ok u =>
    rw [hvalid] at h
    cases h
    refine ⟨?_, rfl⟩
    unfold validTag at hvalid
    simp only [Bool.and_eq_true, Bool.not_eq_true', decide_eq_true_iff] at hvalid
    split_ifs at hvalid with hok
    obtain ⟨⟨⟨hne, hplain⟩, -⟩, hcolon⟩ := hok
    rw [validTagKey, hne]
    rw [Bool.not_false, Bool.true_and, List.all_eq_true]
    intro c hc
    have hc' := List.any_eq_false.1 hplain c hc
    have hne : c ≠ ':' := fun heq => hcolon (heq ▸ hc)
    simp only [isAsciiWhitespace, Bool.or_eq_true, decide_eq_true_iff, not_or] at hc'
    simp [hc', hne]

/-- The helpers and the core editor agree exactly when no tab stands in the word that is or holds the first
`pri:` tag, or the tags both find are the letter's own. -/
theorem helpers_agree_iff {setTag : Edit} (hset : Edit.new.setTag "pri".toList [letter] = .ok setTag)
    (d : Text) : HelpersAgree d letter setTag ↔ SetsAlike d letter := by
  obtain rfl := setTag_ops hset
  rw [← setsAgree_iff_setsAlike]
  constructor
  · rintro ⟨-, hadd, hswap, hhas⟩
    exact ⟨hadd, hswap, hhas⟩
  · rintro ⟨hadd, hswap, hhas⟩
    refine ⟨fun key edit hedit hscheme hproject hcontext => ?_, hadd, hswap, hhas⟩
    obtain ⟨hvalid, rfl⟩ := validTagKey_of_removeTag hedit
    exact (removeTag_eq ⟨hvalid, hscheme, hproject, hcontext⟩ Prefix.empty d).symm

theorem helpers_agree_spaced : HelpersAgree "call mum pri:B".toList 'A' ⟨[.setTag "pri".toList ['A']]⟩ :=
  (helpers_agree_iff rfl _).2 fun u hu => by
    obtain rfl : "pri:B".toList = u := Option.some.inj hu
    exact .inl (by decide)

/-- The core replaces a tag behind a tab, the helper adds another. -/
theorem helpers_disagree :
    setPri "call\tpri:B".toList 'A' true ≠
      (Edit.onDescription ⟨[.setTag "pri".toList ['A']]⟩ "call\tpri:B".toList) := by
  decide +kernel

end Pri

end Txtodo
