import Txtodo.Cli.ArchivePlan
import Txtodo.Cli.Proofs.CompletePlanProofs

/-!
# A plan of moves gives the archived file

The edits give every line of the old file its new text and leave the order; the moves then send the done lines
behind the others, one after the other.
-/

namespace Txtodo.Cli

theorem idText_eq {line : OwnedLine} {id : Ulid} (h : line.task.bind Task.id = some id) :
    idText line = id.display := by
  rw [idText, h]
  rfl

namespace ArchivePlan

/-- Every line of a file has an id and no id repeats. -/
structure Ids (f : File) (ids : List Ulid) : Prop where
  lines : f.lines.map idOf = ids.map some
  distinct : ids.Nodup

theorem idsOf_eq_some {f : File} {ids : List Ulid} : idsOf f = some ids ↔ Ids f ids := by
  unfold idsOf
  constructor
  · intro h
    obtain ⟨ids', hids, h⟩ := Option.bind_eq_some_iff.1 h
    split at h
    · rename_i hnodup
      obtain rfl := Option.some_inj.1 h
      exact ⟨mapM_eq_some.1 hids, hnodup⟩
    · cases h
  · intro h
    rw [mapM_eq_some.2 h.lines]
    exact if_pos h.distinct

/-- What the line with `id` reads in a file with ids `ids`. -/
def textOf (f : File) (ids : List Ulid) (id : Ulid) : List UInt8 := ((ids.idxOf? id).map (lineAt f)).getD []

section Ids
variable {f : File} {ids : List Ulid} {i : Nat} {id : Ulid}

theorem Ids.length (h : Ids f ids) : f.lines.length = ids.length := by
  have := congrArg List.length h.lines
  rwa [List.length_map, List.length_map] at this

theorem Ids.line (h : Ids f ids) (hi : ids[i]? = some id) :
    ∃ line, f.lines[i]? = some line ∧ idOf line = some id := by
  have hget : (f.lines.map idOf)[i]? = some (some id) := by rw [h.lines, List.getElem?_map, hi]; rfl
  rw [List.getElem?_map, Option.map_eq_some_iff] at hget
  exact hget

theorem Ids.idxOf (h : Ids f ids) (hi : ids[i]? = some id) : ids.idxOf? id = some i := by
  obtain ⟨hlt, rfl⟩ := List.getElem?_eq_some_iff.1 hi
  rw [List.idxOf?_eq_some_iff]
  refine ⟨hlt, rfl, fun j hj heq => ?_⟩
  exact absurd ((h.distinct.getElem_inj_iff).1 heq) (Nat.ne_of_lt hj)

theorem Ids.textOf_eq (h : Ids f ids) (hi : ids[i]? = some id) : textOf f ids id = lineAt f i := by
  rw [textOf, h.idxOf hi]
  rfl

theorem Ids.map_textOf (h : Ids f ids) : ids.map (textOf f ids) = linesOf f := by
  rw [← map_lineAt, h.length]
  apply List.ext_getElem?
  intro i
  rw [List.getElem?_map, List.getElem?_map]
  cases hi : ids[i]? with
  | none => rw [List.getElem?_eq_none (by rw [List.length_range]; exact List.getElem?_eq_none_iff.1 hi)]; rfl
  | some id =>
    rw [Option.map_some, h.textOf_eq hi, List.getElem?_range (List.getElem?_eq_some_iff.1 hi).1]
    rfl

/-- The line with an id of the file. -/
theorem Ids.of_mem (h : Ids f ids) (hid : id ∈ ids) : ∃ i line, ids.idxOf? id = some i ∧
    f.lines[i]? = some line ∧ idOf line = some id ∧ textOf f ids id = line.bytes := by
  obtain ⟨i, hi⟩ := List.mem_iff_getElem?.1 hid
  obtain ⟨line, hline, hidOf⟩ := h.line hi
  exact ⟨i, line, h.idxOf hi, hline, hidOf, by rw [h.textOf_eq hi, lineAt_eq hline]⟩

theorem task_of_idOf {line : OwnedLine} (h : idOf line = some id) : line.task.isSome := by
  obtain ⟨t, ht, -⟩ := Option.bind_eq_some_iff.1 h
  rw [ht]
  rfl

theorem raw_of_idOf {line : OwnedLine} (h : idOf line = some id) :
    ∃ raw, line.raw = some raw ∧ Utf8.encode raw = line.bytes := by
  obtain ⟨t, ht, -⟩ := Option.bind_eq_some_iff.1 h
  rw [task_eq] at ht
  obtain ⟨raw, hraw, -⟩ := Option.bind_eq_some_iff.1 ht
  exact ⟨raw, hraw, Utf8.encode_of_decode hraw⟩

theorem Ids.textOf_ne_nil (h : Ids f ids) (hid : id ∈ ids) : textOf f ids id ≠ [] := by
  obtain ⟨i, line, -, -, hidOf, htext⟩ := h.of_mem hid
  rw [htext]
  exact bytes_ne_nil (task_of_idOf hidOf)

end Ids

section Runs
variable {old new : File} {oldIds newIds pre ids : List Ulid} {muts : List Pb.Mutation}

theorem taskRef_eq (hold : Ids old oldIds) {i : Nat} {id : Ulid} (hi : oldIds[i]? = some id)
    (hfit : old.lines.length ≤ U32_MAX) : taskRef old i = ⟨i + 1, id.display⟩ := by
  obtain ⟨line, hline, hid⟩ := hold.line hi
  have hlt : i < old.lines.length := (List.getElem?_eq_some_iff.1 hline).1
  rw [taskRef, hline, Nat.min_eq_left (by omega), Option.map_some, Option.getD_some, idText_eq hid]

/-- The edits of the lines behind `pre` bring the text of each up to date. -/
theorem edits_replay (hold : Ids old oldIds) (hnew : Ids new newIds) (hsub : ∀ id ∈ oldIds, id ∈ newIds)
    (hfit : old.lines.length ≤ U32_MAX) (hids : oldIds = pre ++ ids)
    (h : edits old new newIds pre.length ids = some muts) :
    muts.foldlM checkedStep (pre.map (textOf new newIds) ++ (linesOf old).drop pre.length) =
      some (oldIds.map (textOf new newIds)) := by
  induction ids generalizing pre muts with
  | nil =>
    obtain rfl := Option.some_inj.1 h
    rw [List.append_nil] at hids
    have hdrop : (linesOf old).drop pre.length = [] :=
      List.drop_eq_nil_of_le (by rw [linesOf, List.length_map, hold.length, hids])
    rw [hdrop, List.append_nil, hids]
    rfl
  | cons id ids ih =>
    have hget : oldIds[pre.length]? = some id := by
      rw [hids, List.getElem?_append_right (Nat.le_refl _), Nat.sub_self, List.getElem?_cons_zero]
    obtain ⟨before, hbefore, hid⟩ := hold.line hget
    obtain ⟨at_, line, hat, hline, hid', htext⟩ := hnew.of_mem (hsub id (List.mem_of_getElem? hget))
    have hids' : oldIds = (pre ++ [id]) ++ ids := by rw [hids, List.append_assoc, List.singleton_append]
    have hlength : (pre ++ [id]).length = pre.length + 1 := List.length_append
    have hnext : (pre ++ [id]).map (textOf new newIds) ++ (linesOf old).drop (pre ++ [id]).length =
        pre.map (textOf new newIds) ++ line.bytes :: (linesOf old).drop (pre.length + 1) := by
      rw [hlength, List.map_append, List.map_singleton, htext, List.append_assoc, List.singleton_append]
    rw [edits, hat, Option.bind_eq_bind, Option.bind_some, hline, Option.bind_eq_bind, Option.bind_some, hbefore,
      Option.bind_eq_bind, Option.bind_some] at h
    rw [drop_linesOf hbefore]
    split at h
    · obtain ⟨raw, hraw, hencode⟩ := raw_of_idOf hid'
      rw [hraw, Option.bind_eq_bind, Option.bind_some] at h
      obtain ⟨rest, hrest, h⟩ := Option.bind_eq_some_iff.1 h
      obtain rfl := Option.some_inj.1 h
      have href : taskRef old pre.length = ⟨(pre.map (textOf new newIds)).length + 1, id.display⟩ := by
        rw [taskRef_eq hold hget hfit, List.length_map]
      rw [List.foldlM_cons, href, checkedStep_edit (task_of_idOf hid) (idText_eq hid).symm, hencode,
        Option.bind_eq_bind, Option.bind_some, ← hnext]
      exact ih hids' (hlength ▸ hrest)
    · rename_i hsame
      rw [not_not.1 hsame] at hnext
      rw [← hnext]
      exact ih hids' (hlength ▸ h)

/-- The moves of the done lines behind `pre`. -/
theorem moves_replay (hold : Ids old oldIds) (hnew : Ids new newIds) (hsub : ∀ id ∈ oldIds, id ∈ newIds)
    {done : List Ulid} {k : Nat} (hids : oldIds = pre ++ ids) (hk : k = pre.countP (· ∈ done))
    (h : moves old done pre.length k ids = some muts) :
    muts.foldlM checkedStep
        ((pre.filter (· ∉ done) ++ ids ++ pre.filter (· ∈ done)).map (textOf new newIds)) =
      some ((archived done oldIds).map (textOf new newIds)) := by
  have hblank : ∀ l ∈ oldIds.map (textOf new newIds), l ≠ [] := by
    intro l hl
    obtain ⟨id, hmem, rfl⟩ := List.mem_map.1 hl
    exact hnew.textOf_ne_nil (hsub id hmem)
  induction ids generalizing pre muts k with
  | nil =>
    obtain rfl := Option.some_inj.1 h
    rw [List.append_nil] at hids
    rw [List.append_nil, hids, archived]
    rfl
  | cons id ids ih =>
    have hget : oldIds[pre.length]? = some id := by
      rw [hids, List.getElem?_append_right (Nat.le_refl _), Nat.sub_self, List.getElem?_cons_zero]
    have hids' : oldIds = (pre ++ [id]) ++ ids := by rw [hids, List.append_assoc, List.singleton_append]
    have hlength : (pre ++ [id]).length = pre.length + 1 := List.length_append
    rw [moves] at h
    split at h
    · rename_i hdone
      dsimp only at h
      split at h
      · cases h
      obtain ⟨rest, hrest, rfl⟩ := Option.map_eq_some_iff.1 h
      obtain ⟨before, hbefore, hid⟩ := hold.line hget
      obtain ⟨at_, line, -, -, hid', htext⟩ := hnew.of_mem (hsub id (List.mem_of_getElem? hget))
      have hcount : pre.length = (pre.filter (· ∉ done)).length + k := by
        rw [hk, ← List.countP_eq_length_filter, Nat.add_comm]
        simpa using List.length_eq_countP_add_countP (· ∈ done) (l := pre)
      have href : ({ taskRef old pre.length with lineNumber := pre.length - k + 1 } : Pb.TaskRef) =
          ⟨((pre.filter (· ∉ done)).map (textOf new newIds)).length + 1, idText line⟩ := by
        rw [taskRef, hbefore, Option.map_some, Option.getD_some, idText_eq hid, idText_eq hid', List.length_map,
          hcount, Nat.add_sub_cancel]
      have hmem : ∀ {l : List Ulid}, (∀ id ∈ l, id ∈ oldIds) → ∀ t ∈ l.map (textOf new newIds), t ≠ [] := by
        intro l hl t ht
        obtain ⟨id', hid', rfl⟩ := List.mem_map.1 ht
        exact hblank _ (List.mem_map_of_mem (hl id' hid'))
      have hpre : ∀ {p : Ulid → Bool}, ∀ id ∈ pre.filter p, id ∈ oldIds := fun id hid =>
        hids ▸ List.mem_append_left _ (List.mem_of_mem_filter hid)
      have hrest' : ∀ id ∈ ids, id ∈ oldIds := fun id hid =>
        hids ▸ List.mem_append_right _ (List.mem_cons_of_mem _ hid)
      have hnow : (pre.filter (· ∉ done) ++ id :: ids ++ pre.filter (· ∈ done)).map (textOf new newIds) =
          (pre.filter (· ∉ done)).map (textOf new newIds) ++
            line.bytes :: (ids ++ pre.filter (· ∈ done)).map (textOf new newIds) := by
        rw [← htext]
        simp
      have hnext : (pre.filter (· ∉ done)).map (textOf new newIds) ++
            (ids ++ pre.filter (· ∈ done)).map (textOf new newIds) ++ [line.bytes] =
          ((pre ++ [id]).filter (· ∉ done) ++ ids ++ (pre ++ [id]).filter (· ∈ done)).map (textOf new newIds) := by
        rw [← htext]
        simp [hdone]
      rw [List.foldlM_cons, href, hnow, checkedStep_moveToEnd (task_of_idOf hid') rfl (hmem hpre)
        (hmem fun id hid => (List.mem_append.1 hid).elim (hrest' id) (hpre id)), Option.bind_eq_bind,
        Option.bind_some, hnext]
      refine ih hids' ?_ (hlength ▸ hrest)
      simp [hk, hdone]
    · rename_i hdone
      have hnow : pre.filter (· ∉ done) ++ id :: ids ++ pre.filter (· ∈ done) =
          (pre ++ [id]).filter (· ∉ done) ++ ids ++ (pre ++ [id]).filter (· ∈ done) := by
        simp [hdone]
      rw [hnow]
      refine ih hids' ?_ (hlength ▸ h)
      simp [hk, hdone]

end Runs

/-- How many lines read otherwise in `new`. -/
def changed (old new : File) (oldIds newIds : List Ulid) : Nat :=
  oldIds.zipIdx.countP fun p => textOf new newIds p.1 ≠ lineAt old p.2

/-- How many mutations it takes to archive `old`: one for each line that changed and one for each done one. -/
def needed (old new : File) (oldIds newIds : List Ulid) : Nat :=
  changed old new oldIds newIds + oldIds.countP (· ∈ doneOf new newIds)

section Total
variable {old new : File} {oldIds newIds pre ids : List Ulid}

theorem edits_total (hold : Ids old oldIds) (hnew : Ids new newIds) (hsub : ∀ id ∈ oldIds, id ∈ newIds)
    (hids : oldIds = pre ++ ids) : ∃ muts, edits old new newIds pre.length ids = some muts ∧
      muts.length = (ids.zipIdx pre.length).countP fun p => textOf new newIds p.1 ≠ lineAt old p.2 := by
  induction ids generalizing pre with
  | nil => exact ⟨[], rfl, rfl⟩
  | cons id ids ih =>
    have hget : oldIds[pre.length]? = some id := by
      rw [hids, List.getElem?_append_right (Nat.le_refl _), Nat.sub_self, List.getElem?_cons_zero]
    obtain ⟨before, hbefore, hid⟩ := hold.line hget
    obtain ⟨at_, line, hat, hline, hid', htext⟩ := hnew.of_mem (hsub id (List.mem_of_getElem? hget))
    have hids' : oldIds = (pre ++ [id]) ++ ids := by rw [hids, List.append_assoc, List.singleton_append]
    have hlength : (pre ++ [id]).length = pre.length + 1 := List.length_append
    obtain ⟨rest, hrest, hcount⟩ := ih hids'
    rw [hlength] at hrest hcount
    rw [edits, hat, Option.bind_eq_bind, Option.bind_some, hline, Option.bind_eq_bind, Option.bind_some, hbefore,
      Option.bind_eq_bind, Option.bind_some, List.zipIdx_cons, List.countP_cons, htext, lineAt_eq hbefore, ← hcount]
    obtain ⟨raw, hraw, -⟩ := raw_of_idOf hid'
    rw [hraw, hrest]
    by_cases hsame : line.bytes = before.bytes
    · rw [if_neg (not_not.2 hsame)]
      exact ⟨rest, rfl, by simp [hsame]⟩
    · rw [if_pos hsame]
      exact ⟨_, rfl, by simp [hsame]⟩

theorem moves_total {done : List Ulid} {i k : Nat} (hfit : i + ids.length ≤ U32_MAX) :
    ∃ muts, moves old done i k ids = some muts ∧ muts.length = ids.countP (· ∈ done) := by
  induction ids generalizing i k with
  | nil => exact ⟨[], rfl, rfl⟩
  | cons id ids ih =>
    rw [List.length_cons] at hfit
    rw [moves, List.countP_cons]
    split
    · rename_i hdone
      obtain ⟨rest, hrest, hcount⟩ := @ih (i + 1) (k + 1) (by omega)
      dsimp only
      rw [if_neg (by omega), hrest]
      exact ⟨_, rfl, by simp [hcount, hdone]⟩
    · rename_i hdone
      obtain ⟨rest, hrest, hcount⟩ := @ih (i + 1) k (by omega)
      exact ⟨rest, hrest, by simp [hcount, hdone]⟩

end Total

theorem archived_perm (done ids : List Ulid) : (archived done ids).Perm ids := by
  have hnot : (fun id => decide (id ∉ done)) = fun id => !decide (id ∈ done) := by
    funext id
    simp
  rw [archived, hnot]
  exact List.perm_append_comm.trans (List.filter_append_perm (fun id => decide (id ∈ done)) ids)

/-- `new` is `old` with its done lines at the bottom in their old order. -/
structure Archives (old new : File) (oldIds newIds : List Ulid) : Prop where
  before : Ids old oldIds
  after : Ids new newIds
  order : archived (doneOf new newIds) oldIds = newIds
  few : needed old new oldIds newIds ≤ MAX_BATCH

theorem Archives.sub {old new : File} {oldIds newIds : List Ulid} (h : Archives old new oldIds newIds) :
    ∀ id ∈ oldIds, id ∈ newIds := fun _ hid => h.order ▸ (archived_perm _ _).mem_iff.2 hid

/-- What a plan is made of. -/
theorem plan_eq_some {old new : File} {muts : List Pb.Mutation} : plan old new = some muts ↔
    ∃ oldIds newIds es ms, Ids old oldIds ∧ Ids new newIds ∧ archived (doneOf new newIds) oldIds = newIds ∧
      oldIds ≠ newIds ∧ edits old new newIds 0 oldIds = some es ∧
      moves old (doneOf new newIds) 0 0 oldIds = some ms ∧ (es ++ ms).length ≤ MAX_BATCH ∧ es ++ ms = muts := by
  unfold plan
  constructor
  · intro h
    obtain ⟨oldIds, hold, h⟩ := Option.bind_eq_some_iff.1 h
    obtain ⟨newIds, hnew, h⟩ := Option.bind_eq_some_iff.1 h
    dsimp only at h
    split at h
    · cases h
    rename_i hshape
    obtain ⟨horder, hmoved⟩ := not_or.1 hshape
    obtain ⟨es, hes, h⟩ := Option.bind_eq_some_iff.1 h
    obtain ⟨ms, hms, h⟩ := Option.bind_eq_some_iff.1 h
    split at h
    · rename_i hfew
      exact ⟨oldIds, newIds, es, ms, idsOf_eq_some.1 hold, idsOf_eq_some.1 hnew, not_not.1 horder, hmoved, hes, hms,
        hfew, Option.some_inj.1 h⟩
    · cases h
  · rintro ⟨oldIds, newIds, es, ms, hold, hnew, horder, hmoved, hes, hms, hfew, rfl⟩
    rw [idsOf_eq_some.2 hold, idsOf_eq_some.2 hnew, Option.bind_eq_bind, Option.bind_some, Option.bind_eq_bind,
      Option.bind_some, if_neg (not_or.2 ⟨not_not.2 horder, hmoved⟩), hes, Option.bind_some, hms, Option.bind_some,
      if_pos hfew]

theorem plan_isSome_iff {old new : File} (hfit : old.lines.length ≤ U32_MAX) :
    (plan old new).isSome ↔ ∃ oldIds newIds, Archives old new oldIds newIds ∧ oldIds ≠ newIds := by
  rw [Option.isSome_iff_exists]
  constructor
  · rintro ⟨muts, h⟩
    obtain ⟨oldIds, newIds, es, ms, hold, hnew, horder, hmoved, hes, hms, hfew, -⟩ := plan_eq_some.1 h
    have hsub : ∀ id ∈ oldIds, id ∈ newIds := fun _ hid => horder ▸ (archived_perm _ _).mem_iff.2 hid
    obtain ⟨es', hes', hesLength⟩ := @edits_total _ _ _ _ [] _ hold hnew hsub rfl
    obtain ⟨ms', hms', hmsLength⟩ := @moves_total old oldIds (doneOf new newIds) 0 0
      (by rw [Nat.zero_add, ← hold.length]; exact hfit)
    obtain rfl := Option.some_inj.1 (hes.symm.trans hes')
    obtain rfl := Option.some_inj.1 (hms.symm.trans hms')
    rw [List.length_append, hesLength, hmsLength] at hfew
    exact ⟨oldIds, newIds, ⟨hold, hnew, horder, hfew⟩, hmoved⟩
  · rintro ⟨oldIds, newIds, h, hmoved⟩
    obtain ⟨es, hes, hesLength⟩ := @edits_total _ _ _ _ [] _ h.before h.after h.sub rfl
    obtain ⟨ms, hms, hmsLength⟩ := @moves_total old oldIds (doneOf new newIds) 0 0
      (by rw [Nat.zero_add, ← h.before.length]; exact hfit)
    have hfew : (es ++ ms).length ≤ MAX_BATCH := by
      rw [List.length_append, hesLength, hmsLength]
      exact h.few
    exact ⟨es ++ ms, plan_eq_some.2
      ⟨oldIds, newIds, es, ms, h.before, h.after, h.order, hmoved, hes, hms, hfew, rfl⟩⟩

/-- The planned edits and moves, applied in order, find every line and give the new file. -/
theorem plan_replays {old new : File} (hfit : old.lines.length ≤ U32_MAX) {muts : List Pb.Mutation}
    (h : plan old new = some muts) : checkedReplay old muts = some (linesOf new) := by
  obtain ⟨oldIds, newIds, es, ms, hold, hnew, horder, -, hes, hms, -, rfl⟩ := plan_eq_some.1 h
  have hsub : ∀ id ∈ oldIds, id ∈ newIds := fun _ hid => horder ▸ (archived_perm _ _).mem_iff.2 hid
  have hedits : es.foldlM checkedStep (linesOf old) = some (oldIds.map (textOf new newIds)) :=
    @edits_replay _ _ _ _ [] _ _ hold hnew hsub hfit rfl hes
  have hmoves : ms.foldlM checkedStep (oldIds.map (textOf new newIds)) =
      some ((archived (doneOf new newIds) oldIds).map (textOf new newIds)) := by
    have hrun := @moves_replay _ _ _ _ [] _ _ hold hnew hsub _ 0 rfl rfl hms
    rwa [List.filter_nil, List.nil_append, List.filter_nil, List.append_nil] at hrun
  rw [checkedReplay, List.foldlM_append, hedits, Option.bind_eq_bind, Option.bind_some, hmoves, horder,
    hnew.map_textOf]

end ArchivePlan

/-- What either plan sends finds every line it names and writes exactly the new file, and an archived file has a
plan unless it was in that order already. -/
theorem plans_write (old new : File) :
    (∀ muts, CompletePlan.plan old new = some muts → checkedReplay old muts = some (linesOf new) ∧
      ∀ k < muts.length, CompletePlan.FindsText old muts k) ∧
    (old.lines.length ≤ U32_MAX →
      (∀ muts, ArchivePlan.plan old new = some muts → checkedReplay old muts = some (linesOf new)) ∧
      ((ArchivePlan.plan old new).isSome ↔
        ∃ oldIds newIds, ArchivePlan.Archives old new oldIds newIds ∧ oldIds ≠ newIds)) :=
  ⟨fun _ => CompletePlan.plan_replays, fun hfit =>
    ⟨fun _ => ArchivePlan.plan_replays hfit, ArchivePlan.plan_isSome_iff hfit⟩⟩

/-- A file of task lines. -/
def plainFile (lines : List String) : File := ⟨lines.map fun l => .ofText l.toList .lf, false, .lf, true⟩

/-- A file whose done line is at the bottom already has no plan. -/
theorem not_planned_in_order :
    let f := plainFile ["a id:00000000000000000000000001", "x b id:00000000000000000000000002"]
    (∃ oldIds newIds, ArchivePlan.Archives f f oldIds newIds) ∧ ArchivePlan.plan f f = none := by
  intro f
  have hids : ArchivePlan.idsOf f = some [⟨1, by decide⟩, ⟨2, by decide⟩] := by decide +kernel
  have h := ArchivePlan.idsOf_eq_some.1 hids
  exact ⟨⟨_, _, h, h, by decide +kernel, by decide +kernel⟩, by decide +kernel⟩

/-- Completing the first of two lines is one completion, and with ids an edit and a move too. -/
theorem plans_write_first_done :
    let old := plainFile ["a id:00000000000000000000000001", "b id:00000000000000000000000002"]
    let new := plainFile ["b id:00000000000000000000000002", "x 2026-09-23 a id:00000000000000000000000001"]
    (∃ muts, CompletePlan.plan old new = some muts ∧ checkedReplay old muts = some (linesOf new) ∧
      ∀ k < muts.length, CompletePlan.FindsText old muts k) ∧
    ∃ muts, ArchivePlan.plan old new = some muts ∧ checkedReplay old muts = some (linesOf new) := by
  intro old new
  have hcomplete : (CompletePlan.plan old new).isSome := by decide +kernel
  have harchive : (ArchivePlan.plan old new).isSome := by decide +kernel
  obtain ⟨ms, hms⟩ := Option.isSome_iff_exists.1 hcomplete
  obtain ⟨ms', hms'⟩ := Option.isSome_iff_exists.1 harchive
  have h := plans_write old new
  exact ⟨⟨ms, hms, h.1 ms hms⟩, ms', hms', (h.2 (by decide)).1 ms' hms'⟩

end Txtodo.Cli
