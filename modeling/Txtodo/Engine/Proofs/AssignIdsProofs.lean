import Txtodo.Core.Proofs.MyersProofs
import Txtodo.Engine.Proofs.FastIdProofs
import Mathlib.Data.List.Nodup
import Mathlib.Data.List.Perm.Basic

/-!
# Where ids come from

The ids of a reconciled file are those its lines kept, those recovered from old lines by content and
those minted.
-/

namespace Txtodo

/-- The ids `lines` carry. -/
def carriedIds (lines : List OwnedLine) : List TaskId := lines.filterMap fastIdOf

/-- The number of id-less task lines with this text. -/
def wanting (lines : List OwnedLine) (text : Text) : Nat :=
  lines.countP fun line => needsId line && line.raw = some text

/-- No id recovered for a line of `new` is still carried by another line of it. -/
def RecoversUnclaimed (old new : File) : Prop :=
  ∀ text, ∀ id ∈ (idsByText old.lines text).take (wanting new.lines text),
    id ∉ carriedIds new.lines

/-- No id-less task line of `new` has an `id:` word only the scan sees in front of where the tag
goes. -/
def NoShadow (new : File) : Prop :=
  ∀ line ∈ new.lines, needsId line = true → ∀ raw, line.raw = some raw → shadowed raw = false

section Queues
variable {old : List OwnedLine} {text text' : Text} {id : TaskId}

theorem idsByText_sublist (old : List OwnedLine) (text : Text) :
    (idsByText old text).Sublist (carriedIds old) := by
  induction old with
  | nil => exact .slnil
  | cons line old ih =>
    rw [idsByText, carriedIds, List.filterMap_cons, List.filterMap_cons]
    split_ifs with htext
    · cases fastIdOf line with
      | none => exact ih
      | some id => exact ih.cons_cons id
    · cases fastIdOf line with
      | none => exact ih
      | some id => exact ih.cons id

theorem mem_idsByText :
    id ∈ idsByText old text ↔
      ∃ line ∈ old, textWithoutId line = some text ∧ fastIdOf line = some id := by
  rw [idsByText, List.mem_filterMap]
  refine exists_congr fun line => and_congr_right fun _ => ?_
  split_ifs with htext
  · exact (and_iff_right htext).symm
  · exact iff_of_false (by simp) fun h => htext h.1

/-- An element of a list without duplicates comes from one element. -/
theorem eq_of_nodup_filterMap {α β : Type} {f : α → Option β} {l : List α} {x y : α} {b : β}
    (h : (l.filterMap f).Nodup) (hx : x ∈ l) (hy : y ∈ l) (hfx : f x = some b)
    (hfy : f y = some b) : x = y := by
  induction l with
  | nil => cases hx
  | cons z l ih =>
    have hhead : ∀ w ∈ l, f z = some b → f w = some b → False := by
      intro w hw hz hfw
      rw [List.filterMap_cons_some hz, List.nodup_cons] at h
      exact h.1 (List.mem_filterMap.2 ⟨w, hw, hfw⟩)
    have htail : (l.filterMap f).Nodup := h.sublist ((List.sublist_cons_self z l).filterMap f)
    rcases List.mem_cons.1 hx with hxz | hx
    · rcases List.mem_cons.1 hy with hyz | hy
      · rw [hxz, hyz]
      · exact (hhead y hy (hxz ▸ hfx) hfy).elim
    · rcases List.mem_cons.1 hy with hyz | hy
      · exact (hhead x hx (hyz ▸ hfy) hfx).elim
      · exact ih htail hx hy

/-- With distinct ids, an id is queued for one text only. -/
theorem idsByText_unique (hold : (carriedIds old).Nodup) (h : id ∈ idsByText old text)
    (h' : id ∈ idsByText old text') : text = text' := by
  obtain ⟨line, hmem, htext, hid⟩ := mem_idsByText.1 h
  obtain ⟨line', hmem', htext', hid'⟩ := mem_idsByText.1 h'
  have hsame := eq_of_nodup_filterMap hold hmem hmem' hid hid'
  subst hsame
  exact Option.some_inj.1 (htext.symm.trans htext')

end Queues

theorem wanting_concat (lines : List OwnedLine) (line : OwnedLine) (text : Text) :
    wanting (lines ++ [line]) text =
      wanting lines text + if needsId line && line.raw = some text then 1 else 0 := by
  rw [wanting, List.countP_append, List.countP_singleton]
  rfl

/-- What is known after the lines `seen`: the ids recovered so far are the first of each queue. -/
structure Assigned.Spec (old : List OwnedLine) (mint : Nat → TaskId) (seen : List OwnedLine)
    (a : Assigned) (recovered : List TaskId) : Prop where
  ids : (carriedIds a.lines).Perm
    (carriedIds seen ++ recovered ++ (List.range a.minted).map mint)
  queues : ∀ text, a.byText text = (idsByText old text).drop (wanting seen text)
  members : ∀ id, id ∈ recovered ↔
    ∃ text, id ∈ (idsByText old text).take (wanting seen text)
  distinct : recovered.Nodup
  covered : ∀ line ∈ a.lines, isTask line = true → (fastIdOf line).isSome
  calls : a.minted ≤ seen.length

section Visit
variable {old seen : List OwnedLine} {mint : Nat → TaskId} {a : Assigned} {line : OwnedLine}
  {recovered : List TaskId}

theorem carriedIds_concat (lines : List OwnedLine) (line : OwnedLine) :
    carriedIds (lines ++ [line]) = carriedIds lines ++ (fastIdOf line).toList := by
  rw [carriedIds, List.filterMap_append]
  cases h : fastIdOf line with
  | none => rw [List.filterMap_cons_none h]; rfl
  | some id => rw [List.filterMap_cons_some h]; rfl

theorem wanting_other (h : ¬(needsId line = true ∧ line.raw = some text)) :
    wanting (seen ++ [line]) text = wanting seen text := by
  rw [wanting_concat, if_neg (by simpa using h), Nat.add_zero]

theorem wanting_same (h : needsId line = true) (hraw : line.raw = some text) :
    wanting (seen ++ [line]) text = wanting seen text + 1 := by
  rw [wanting_concat, if_pos (by simp [h, hraw])]

namespace Assigned.Spec

theorem covered_concat {lines : List OwnedLine} {out : OwnedLine}
    (h : ∀ l ∈ lines, isTask l = true → (fastIdOf l).isSome)
    (hout : isTask out = true → (fastIdOf out).isSome) :
    ∀ l ∈ lines ++ [out], isTask l = true → (fastIdOf l).isSome := by
  intro l hl
  rcases List.mem_append.1 hl with hl | hl
  · exact h l hl
  · rw [List.mem_singleton.1 hl]
    exact hout

/-- A line that needs no id stays. -/
theorem keep (h : Spec old mint seen a recovered) (hneed : needsId line = false) :
    Spec old mint (seen ++ [line]) { a with lines := a.lines ++ [line] } recovered where
  ids := by
    rw [List.perm_iff_count]
    intro id
    have hcount := h.ids.count_eq id
    rw [carriedIds_concat, carriedIds_concat]
    simp only [List.count_append] at hcount ⊢
    omega
  queues := by
    intro text
    rw [wanting_other (by simp [hneed])]
    exact h.queues text
  members := by
    intro id
    rw [h.members]
    refine exists_congr fun text => ?_
    rw [wanting_other (by simp [hneed])]
  distinct := h.distinct
  covered := by
    apply covered_concat h.covered
    intro htask
    rw [needsId, htask, Bool.and_true, Option.isNone_eq_false_iff] at hneed
    exact hneed
  calls := by
    rw [List.length_append]
    exact Nat.le_add_right_of_le h.calls

/-- A line whose text has an id queued recovers it. -/
theorem recover (h : Spec old mint seen a recovered) (hold : (carriedIds old).Nodup)
    {text : Text} {id : TaskId} {queue : List TaskId} {out : OwnedLine}
    (hneed : needsId line = true) (hraw : line.raw = some text)
    (hqueue : a.byText text = id :: queue) (hout : fastIdOf out = some id) :
    Spec old mint (seen ++ [line])
      ⟨a.lines ++ [out], Function.update a.byText text queue, a.minted, a.reused + 1⟩
      (recovered ++ [id]) where
  ids := by
    have hnone : fastIdOf line = none := by
      rw [needsId, Bool.and_eq_true, Option.isNone_iff_eq_none] at hneed
      exact hneed.1
    rw [List.perm_iff_count]
    intro id'
    have hcount := h.ids.count_eq id'
    rw [carriedIds_concat, carriedIds_concat, hnone, hout]
    simp only [List.count_append, Option.toList_none, Option.toList_some, List.count_nil] at hcount ⊢
    omega
  queues := by
    intro text'
    simp only []
    by_cases htext : text' = text
    · subst htext
      rw [Function.update_self, wanting_same hneed hraw, ← List.drop_drop, ← h.queues, hqueue]
      rfl
    · rw [Function.update_of_ne htext, wanting_other (by
        rintro ⟨-, hraw'⟩
        exact htext (Option.some_inj.1 (hraw'.symm.trans hraw)))]
      exact h.queues text'
  members := by
    have hfirst : (idsByText old text)[wanting seen text]? = some id := by
      rw [← List.head?_drop, ← h.queues, hqueue]
      rfl
    intro id'
    rw [List.mem_append, List.mem_singleton, h.members]
    constructor
    · rintro (⟨text', hin⟩ | rfl)
      · refine ⟨text', ?_⟩
        rw [wanting_concat]
        exact List.take_subset_take_left _ (Nat.le_add_right _ _) hin
      · refine ⟨text, ?_⟩
        rw [wanting_same hneed hraw, List.take_add_one, hfirst]
        exact List.mem_append_right _ (List.mem_singleton_self _)
    · rintro ⟨text', hin⟩
      by_cases htext : text' = text
      · subst htext
        rw [wanting_same hneed hraw, List.take_add_one, hfirst, List.mem_append] at hin
        rcases hin with hin | hin
        · exact .inl ⟨text', hin⟩
        · exact .inr (List.mem_singleton.1 hin)
      · rw [wanting_other (by
          rintro ⟨-, hraw'⟩
          exact htext (Option.some_inj.1 (hraw'.symm.trans hraw)))] at hin
        exact .inl ⟨text', hin⟩
  distinct := by
    rw [List.nodup_append]
    refine ⟨h.distinct, List.nodup_singleton id, ?_⟩
    rintro id' hin _ hid rfl
    rw [List.mem_singleton] at hid
    subst hid
    obtain ⟨text', hin⟩ := (h.members _).1 hin
    have hdrop : id' ∈ (idsByText old text).drop (wanting seen text) := by
      rw [← h.queues, hqueue]
      exact List.mem_cons_self ..
    have htext := idsByText_unique hold (List.mem_of_mem_take hin) (List.mem_of_mem_drop hdrop)
    subst htext
    exact List.disjoint_take_drop (hold.sublist (idsByText_sublist old text')) le_rfl hin hdrop
  covered := by
    apply covered_concat h.covered
    intro _
    rw [hout]
    rfl
  calls := by
    rw [List.length_append]
    exact Nat.le_add_right_of_le h.calls

/-- A line whose text has no id queued gets a new one. -/
theorem minted (h : Spec old mint seen a recovered) {text : Text} {out : OwnedLine}
    (hneed : needsId line = true) (hraw : line.raw = some text) (hqueue : a.byText text = [])
    (hout : fastIdOf out = some (mint a.minted)) :
    Spec old mint (seen ++ [line])
      { a with lines := a.lines ++ [out], minted := a.minted + 1 } recovered where
  ids := by
    have hnone : fastIdOf line = none := by
      rw [needsId, Bool.and_eq_true, Option.isNone_iff_eq_none] at hneed
      exact hneed.1
    rw [List.perm_iff_count]
    intro id'
    have hcount := h.ids.count_eq id'
    rw [carriedIds_concat, carriedIds_concat, hnone, hout, List.range_succ, List.map_append]
    simp only [List.count_append, Option.toList_none, Option.toList_some, List.count_nil,
      List.map_cons, List.map_nil] at hcount ⊢
    omega
  queues := by
    intro text'
    by_cases htext : text' = text
    · subst htext
      rw [wanting_same hneed hraw, ← List.drop_drop, ← h.queues, hqueue]
      rfl
    · rw [wanting_other (by
        rintro ⟨-, hraw'⟩
        exact htext (Option.some_inj.1 (hraw'.symm.trans hraw)))]
      exact h.queues text'
  members := by
    intro id'
    rw [h.members]
    refine exists_congr fun text' => ?_
    by_cases htext : text' = text
    · subst htext
      have hlen : (idsByText old text').length ≤ wanting seen text' := by
        rw [← List.drop_eq_nil_iff, ← h.queues, hqueue]
      rw [wanting_same hneed hraw, List.take_of_length_le hlen,
        List.take_of_length_le (Nat.le_succ_of_le hlen)]
    · rw [wanting_other (by
        rintro ⟨-, hraw'⟩
        exact htext (Option.some_inj.1 (hraw'.symm.trans hraw)))]
  distinct := h.distinct
  covered := by
    apply covered_concat h.covered
    intro _
    rw [hout]
    rfl
  calls := by
    rw [List.length_append]
    exact Nat.add_le_add_right h.calls 1

/-- One line: the step of the loop. -/
theorem visit (h : Spec old mint seen a recovered) (hold : (carriedIds old).Nodup)
    (hshadow : needsId line = true → ∀ raw, line.raw = some raw → shadowed raw = false) :
    ∃ recovered', Spec old mint (seen ++ [line]) (a.visit mint line) recovered' := by
  cases hneed : needsId line with
  | false =>
    have hvisit : a.visit mint line = { a with lines := a.lines ++ [line] } := by
      rw [Assigned.visit, hneed, if_neg Bool.false_ne_true]
    rw [hvisit]
    exact ⟨recovered, h.keep hneed⟩
  | true =>
    obtain ⟨text, hraw, -⟩ := (isTask_iff line).1 (Bool.and_eq_true _ _ ▸ hneed).2
    have hout : ∀ id, fastIdOf (stampId line id) = some id := by
      intro id
      rw [(fastIdOf_stampId hraw hneed id).2, hshadow hneed text hraw, if_neg Bool.false_ne_true]
    cases hqueue : a.byText text with
    | nil =>
      have hvisit : a.visit mint line =
          { a with lines := a.lines ++ [stampId line (mint a.minted)], minted := a.minted + 1 } := by
        rw [Assigned.visit, hneed, if_pos rfl, hraw, Option.map_some, hqueue]
      rw [hvisit]
      exact ⟨recovered, h.minted hneed hraw hqueue (hout _)⟩
    | cons id queue =>
      have hvisit : a.visit mint line =
          ⟨a.lines ++ [stampId line id], Function.update a.byText text queue, a.minted,
            a.reused + 1⟩ := by
        rw [Assigned.visit, hneed, if_pos rfl, hraw, Option.map_some, hqueue]
        rfl
      rw [hvisit]
      exact ⟨recovered ++ [id], h.recover hold hneed hraw hqueue (hout id)⟩

/-- The loop over the lines. -/
theorem foldl (hold : (carriedIds old).Nodup) {lines : List OwnedLine}
    (h : Spec old mint seen a recovered)
    (hshadow : ∀ line ∈ lines, needsId line = true → ∀ raw, line.raw = some raw →
      shadowed raw = false) :
    ∃ recovered', Spec old mint (seen ++ lines) (lines.foldl (Assigned.visit mint) a) recovered' := by
  induction lines generalizing seen a recovered with
  | nil => exact ⟨recovered, by rwa [List.append_nil]⟩
  | cons line lines ih =>
    obtain ⟨recovered', hstep⟩ := h.visit hold (hshadow line (List.mem_cons_self ..))
    have hrest := ih hstep fun l hl => hshadow l (List.mem_cons_of_mem _ hl)
    rwa [List.append_assoc, List.singleton_append] at hrest

theorem start (old : List OwnedLine) (mint : Nat → TaskId) :
    Spec old mint [] ⟨[], idsByText old, 0, 0⟩ [] where
  ids := .refl _
  queues := fun _ => rfl
  members := by
    intro id
    refine iff_of_false (List.not_mem_nil) ?_
    rintro ⟨text, hin⟩
    exact List.not_mem_nil hin
  distinct := .nil
  covered := fun l hl => absurd hl List.not_mem_nil
  calls := le_rfl

end Assigned.Spec

end Visit

section Uncovered
variable {mint : Nat → TaskId} {a : Assigned} {line : OwnedLine}

theorem visit_lines (a : Assigned) (mint : Nat → TaskId) (line : OwnedLine) :
    ∃ out, (a.visit mint line).lines = a.lines ++ [out] ∧
      (needsId line = true → ∃ id, out = stampId line id) := by
  rw [Assigned.visit]
  split_ifs with hneed
  · split
    · exact ⟨_, rfl, fun _ => ⟨_, rfl⟩⟩
    · exact ⟨_, rfl, fun _ => ⟨_, rfl⟩⟩
  · exact ⟨line, rfl, fun h => absurd h hneed⟩

theorem lines_foldl_visit (lines : List OwnedLine) (a : Assigned) :
    a.lines <+: (lines.foldl (Assigned.visit mint) a).lines := by
  induction lines generalizing a with
  | nil => exact List.prefix_rfl
  | cons line lines ih =>
    obtain ⟨out, hout, -⟩ := visit_lines a mint line
    exact ((List.prefix_append a.lines [out]).trans (hout ▸ List.prefix_rfl)).trans (ih _)

/-- A shadowed line is in the result as a task without an id. -/
theorem shadowed_uncovered (mint : Nat → TaskId) (a : Assigned) {lines : List OwnedLine} (hin : line ∈ lines) {raw : Text}
    (hneed : needsId line = true) (hraw : line.raw = some raw) (hshadow : shadowed raw = true) :
    ∃ out ∈ (lines.foldl (Assigned.visit mint) a).lines,
      isTask out = true ∧ fastIdOf out = none := by
  induction lines generalizing a with
  | nil => cases hin
  | cons first lines ih =>
    rcases List.mem_cons.1 hin with rfl | hin
    · obtain ⟨out, hlines, hstamp⟩ := visit_lines a mint line
      obtain ⟨id, rfl⟩ := hstamp hneed
      obtain ⟨htask, hid⟩ := fastIdOf_stampId hraw hneed id
      rw [hshadow, if_pos rfl] at hid
      refine ⟨stampId line id, ?_, htask, hid⟩
      apply (lines_foldl_visit lines _).subset
      rw [hlines]
      exact List.mem_append_right _ (List.mem_singleton_self _)
    · exact ih _ hin

end Uncovered

theorem diffLines_returns (a b : File) : ∃ diffs, diffLines a b = some diffs := by
  obtain ⟨steps, hmyers, -⟩ := myers_spec (a.lines.map keyOf) (b.lines.map keyOf)
  exact ⟨_, congrArg (Option.map _) hmyers⟩

/-- In tagged mode every task line of the reconciled file has an id and no two lines have the same
one, exactly when no id-less line hides an `id:` word from the parser and no recovered id is still
carried elsewhere. -/
theorem tagged_ids_identify (old new : File) (path : FilePath) (mint : Nat → TaskId)
    (hold : (carriedIds old.lines).Nodup) (hnew : (carriedIds new.lines).Nodup)
    (hmint : ((List.range new.lines.length).map mint).Nodup)
    (hfresh : ∀ n < new.lines.length,
      mint n ∉ carriedIds old.lines ∧ mint n ∉ carriedIds new.lines) :
    ∃ r, reconcile old new path mint = some r ∧
      (((∀ entry ∈ r.file.lines.zip r.ids, isTask entry.1 = true → entry.2.isSome) ∧
          r.ids.reduceOption.Nodup) ↔
        NoShadow new ∧ RecoversUnclaimed old new) := by
  obtain ⟨diffs, hdiffs⟩ := diffLines_returns old (assignIds old new mint).1
  obtain ⟨lines, hlines⟩ : ∃ lines,
      (new.lines.foldl (Assigned.visit mint) ⟨[], idsByText old.lines, 0, 0⟩).lines = lines :=
    ⟨_, rfl⟩
  refine ⟨_, congrArg (Option.map _) hdiffs, ?_⟩
  simp only []
  have hzip : (∀ entry ∈ lines.zip (lines.map fastIdOf), isTask entry.1 = true → entry.2.isSome) ↔
      ∀ line ∈ lines, isTask line = true → (fastIdOf line).isSome := by
    rw [← List.map_prod_left_eq_zip, List.forall_mem_map]
  have hids : (lines.map fastIdOf).reduceOption = carriedIds lines := List.filterMap_map
  rw [hlines, hzip, hids]
  by_cases hshadow : NoShadow new
  · obtain ⟨recovered, hspec⟩ := (Assigned.Spec.start old.lines mint).foldl hold hshadow
    rw [List.nil_append] at hspec
    have hfresh_rec : ∀ id ∈ recovered, ∀ n < new.lines.length, id ≠ mint n := by
      rintro id hid n hn rfl
      obtain ⟨text, hin⟩ := (hspec.members _).1 hid
      exact (hfresh n hn).1 ((idsByText_sublist _ _).subset (List.mem_of_mem_take hin))
    have hcovered := hspec.covered
    have hperm := hspec.ids
    rw [hlines] at hcovered hperm
    rw [and_iff_right hcovered, and_iff_right hshadow, hperm.nodup_iff, List.nodup_append,
      List.nodup_append]
    constructor
    · rintro ⟨⟨-, -, hdisj⟩, -⟩ text id hin hcarried
      exact hdisj id hcarried id ((hspec.members id).2 ⟨text, hin⟩) rfl
    · intro hunclaimed
      have hcalls := hspec.calls
      refine ⟨⟨hnew, hspec.distinct, ?_⟩, ?_, ?_⟩
      · rintro id hcarried _ hrec rfl
        obtain ⟨text, hin⟩ := (hspec.members _).1 hrec
        exact hunclaimed text id hin hcarried
      · exact hmint.sublist ((List.range_sublist.2 hcalls).map mint)
      · rintro id hid _ hnew_id rfl
        obtain ⟨n, hn, rfl⟩ := List.mem_map.1 hnew_id
        have hlt := lt_of_lt_of_le (List.mem_range.1 hn) hcalls
        rcases List.mem_append.1 hid with hid | hid
        · exact (hfresh n hlt).2 hid
        · exact hfresh_rec _ hid n hlt rfl
  · refine iff_of_false ?_ fun h => hshadow h.1
    rintro ⟨hcovered, -⟩
    simp only [NoShadow] at hshadow
    push Not at hshadow
    obtain ⟨line, hin, hneed, raw, hraw, hshadow⟩ := hshadow
    rw [ne_eq, Bool.not_eq_false] at hshadow
    obtain ⟨out, hout, htask, hid⟩ := shadowed_uncovered mint
      ⟨[], idsByText old.lines, 0, 0⟩ hin hneed hraw hshadow
    rw [hlines] at hout
    have hsome := hcovered out hout htask
    rw [hid] at hsome
    exact absurd hsome (by decide)

/-- A file of one-word lines. -/
def fileOf (texts : List String) : File :=
  ⟨texts.map fun t => OwnedLine.ofText t.toList .lf, false, .lf, true⟩

/-- The id of bits `n`. -/
def idOfBits (n : Nat) : TaskId := ⟨⟨n % 2 ^ 128, Nat.mod_lt _ (by decide)⟩⟩

/-- Ids from 100 on. -/
def mintFrom100 (n : Nat) : TaskId := idOfBits (100 + n)

/-- A line whose tag was stripped gets it back, a new one an id of its own. -/
theorem tagged_ids_identify_stripped :
    ∃ r, reconcile (fileOf ["a id:0000000000000000000000000A"]) (fileOf ["a", "b"]) ⟨['f']⟩
        mintFrom100 = some r ∧
      (((∀ entry ∈ r.file.lines.zip r.ids, isTask entry.1 = true → entry.2.isSome) ∧
          r.ids.reduceOption.Nodup) ↔
        NoShadow (fileOf ["a", "b"]) ∧
          RecoversUnclaimed (fileOf ["a id:0000000000000000000000000A"]) (fileOf ["a", "b"])) :=
  tagged_ids_identify _ _ _ _ (by decide +kernel) (by decide +kernel) (by decide +kernel)
    (by decide +kernel)

/-- The old id of `a` is still there, and a second `a` recovers it. -/
theorem kept_id_recovered_again :
    (carriedIds (fileOf ["a id:0000000000000000000000000A"]).lines).Nodup ∧
      (carriedIds (fileOf ["a id:0000000000000000000000000A", "a"]).lines).Nodup ∧
      (reconcile (fileOf ["a id:0000000000000000000000000A"])
          (fileOf ["a id:0000000000000000000000000A", "a"]) ⟨['f']⟩ mintFrom100).map (·.ids) =
        some [some (idOfBits 10), some (idOfBits 10)] := by
  decide +kernel

end Txtodo
