import Txtodo.Engine.ReconcileSidecar
import Txtodo.Std.Columns
import Txtodo.Std.Iter
import Mathlib.Data.List.Perm.Basic
import Mathlib.Data.List.Permutation

/-!
# Sidecar identity

Each line of a file reconciled without tags gets one identity: the exact pairs and the assignment share
out the old tasks and the new lines, and the ids written from them are each on one line.
-/

namespace Txtodo

/-- The tasks of a file's task lines, in order. -/
def Side.tasks (side : Side) : List TaskId := side.order.map (·.1)

/-- The op that deletes a task. -/
def OpKind.deletion (task : TaskId) : OpKind := .setField task .deleted (.bool true)

/-! ## The solver -/

/-- The total cost of giving each row its column. -/
def totalCost (cost : Nat → Nat → Int) (columns : List Nat) : Int :=
  columns.zipIdx.foldl (fun total x => total + cost x.2 x.1) 0

/-- The solver gives every row of a square matrix a column of its own, at the least total cost. -/
structure Identity.Solves (k : Identity) : Prop where
  perm : ∀ n cost, (k.kuhnMunkresMin n cost).Perm (List.range n)
  least : ∀ n cost columns, columns.Perm (List.range n) →
    totalCost cost (k.kuhnMunkresMin n cost) ≤ totalCost cost columns

/-! ## Assignment -/

/-- The old tasks from row `first` on, each with its row and its column. -/
def columnRows (columns : List Nat) (first : Nat) (old : List (TaskId × (Task × Nat))) :
    List (TaskId × Nat × Nat) :=
  (old.zipIdx first).filterMap fun (o, row) => columns[row]?.map fun col => (o.1, row, col)

section Assign
variable {k : Identity} {old : List (TaskId × (Task × Nat))} {new : List (Task × Nat)}
  {maxTaskCount first : Nat} {columns : List Nat}

theorem columnRows_cons {o : TaskId × (Task × Nat)} (h : first < columns.length) :
    columnRows columns first (o :: old) =
      (o.1, first, columns[first]) :: columnRows columns (first + 1) old := by
  have hcol : columns[first]? = some columns[first] := List.getElem?_eq_getElem h
  unfold columnRows
  rw [List.zipIdx_cons, List.filterMap_cons_some]
  show Option.map _ columns[first]? = _
  rw [hcol]
  rfl

theorem columnRows_tasks (h : first + old.length ≤ columns.length) :
    (columnRows columns first old).map (·.1) = old.map (·.1) := by
  induction old generalizing first with
  | nil => rfl
  | cons o old ih =>
    rw [List.length_cons] at h
    rw [columnRows_cons (by omega), List.map_cons, List.map_cons, ih (by omega)]

theorem columnRows_columns (h : first + old.length ≤ columns.length) :
    (columnRows columns first old).map (·.2.2) = (columns.drop first).take old.length := by
  induction old generalizing first with
  | nil => simp [columnRows]
  | cons o old ih =>
    rw [List.length_cons] at h
    have hlt : first < columns.length := by omega
    rw [columnRows_cons hlt, List.map_cons, ih (by omega), List.drop_eq_getElem_cons hlt,
      List.length_cons, List.take_succ_cons]

variable (old new maxTaskCount)

/-- What the assignment is made of: the old tasks, each with a column of its own, by whether it was
accepted. -/
theorem assign_split (hk : k.Solves) : ∃ (rows : List (TaskId × Nat × Nat)) (p : _ → Bool),
    rows.map (·.1) = old.map (·.1) ∧ (rows.map (·.2.2)).Nodup ∧
      (∀ r, p r = true → r.2.2 < new.length) ∧
      (assign k old new maxTaskCount).matched = (rows.filter p).map (fun r => (r.1, r.2.2)) ∧
      (assign k old new maxTaskCount).deleted = (rows.filter fun r => !p r).map (·.1) := by
  have hle : ∀ cost,
      0 + old.length ≤ (k.kuhnMunkresMin (max old.length new.length) cost).length := by
    intro cost
    rw [(hk.perm _ cost).length_eq, List.length_range]
    omega
  refine ⟨columnRows (k.kuhnMunkresMin (max old.length new.length) ?cost) 0 old, ?accepted,
    columnRows_tasks (hle _), ?distinct, ?bound, ?matched, ?deleted⟩
  case matched =>
    unfold assign
    rfl
  case deleted =>
    unfold assign
    rfl
  case distinct =>
    rw [columnRows_columns (hle _)]
    exact ((hk.perm _ _).nodup_iff.2 List.nodup_range).sublist
      ((List.take_sublist _ _).trans (List.drop_sublist _ _))
  case bound =>
    intro r hr
    exact of_decide_eq_true (Bool.and_eq_true_iff.1 hr).1

/-- The matched tasks and the deleted ones are the old tasks. -/
theorem assign_tasks (hk : k.Solves) :
    ((assign k old new maxTaskCount).matched.map (·.1) ++
      (assign k old new maxTaskCount).deleted).Perm (old.map (·.1)) := by
  obtain ⟨rows, p, htasks, -, -, hmatched, hdeleted⟩ := assign_split old new maxTaskCount hk
  rw [hmatched, hdeleted, ← htasks, List.map_map]
  have hsplit := (List.filter_append_perm p rows).map (·.1)
  rwa [List.map_append] at hsplit

/-- The matched lines and the inserted ones are the new lines. -/
theorem assign_lines (hk : k.Solves) :
    ((assign k old new maxTaskCount).matched.map (·.2) ++
      (assign k old new maxTaskCount).inserted).Perm (List.range new.length) := by
  obtain ⟨rows, p, -, hnodup, hlt, hmatched, -⟩ := assign_split old new maxTaskCount hk
  have hinserted : (assign k old new maxTaskCount).inserted =
      (List.range new.length).filter fun i =>
        i ∉ (assign k old new maxTaskCount).matched.map (·.2) := rfl
  have hmap : (assign k old new maxTaskCount).matched.map (·.2) = (rows.filter p).map (·.2.2) := by
    rw [hmatched, List.map_map]
    rfl
  rw [hinserted, hmap]
  refine Columns.perm_range_of_picked (hnodup.sublist (List.filter_sublist.map _)) fun i hi => ?_
  obtain ⟨r, hr, rfl⟩ := List.mem_map.1 hi
  exact hlt r (List.mem_filter.1 hr).2

end Assign

/-! ## Exact pairs -/

/-- After the old tasks `seen`: each is paired or left over, and so is each new line. -/
structure Split.Spec (order : List (TaskId × Nat)) (newRows : List Nat)
    (seen : List ((TaskId × Nat) × Nat)) (split : Split) : Prop where
  tasks : (split.trivial.map (·.1) ++
    split.remainingOld.filterMap fun tli => order[tli]?.map (·.1)).Perm (seen.map (·.1.1))
  lines : (split.trivial.map (·.2) ++ split.remainingNew).Perm (List.range newRows.length)

section Split
variable {order : List (TaskId × Nat)} {newRows : List Nat} {old new : File} {split : Split}
  {seen : List ((TaskId × Nat) × Nat)}

theorem Split.Spec.visit (h : Split.Spec order newRows seen split) {x : (TaskId × Nat) × Nat}
    (hx : x ∈ order.zipIdx) :
    Split.Spec order newRows (seen ++ [x]) (Split.visit old new newRows split x) := by
  unfold Split.visit
  dsimp only
  split
  case h_1 i hfound =>
    have hi : i ∈ split.remainingNew := List.mem_of_find?_eq_some hfound
    constructor
    · rw [List.map_append, List.map_append, List.append_assoc, List.map_singleton,
        List.map_singleton]
      refine (List.perm_append_comm_assoc _ _ _).trans ?_
      exact List.perm_append_comm.trans (h.tasks.append_right _)
    · rw [List.map_append, List.append_assoc]
      exact ((List.perm_cons_erase hi).symm.append_left _).trans h.lines
  case h_2 hnone =>
    refine ⟨?_, h.lines⟩
    have hlook : order[x.2]? = some x.1 := List.mem_zipIdx_iff_getElem?.1 hx
    rw [List.filterMap_append, List.map_append, ← List.append_assoc]
    refine List.Perm.append h.tasks ?_
    simp [hlook]

theorem splitExactMatches_spec (order : List (TaskId × Nat)) (newRows : List Nat) (old new : File) :
    Split.Spec order newRows order.zipIdx (splitExactMatches order newRows old new) := by
  have hfold : ∀ (rest seen : List ((TaskId × Nat) × Nat)) (split : Split),
      seen ++ rest = order.zipIdx → Split.Spec order newRows seen split →
        Split.Spec order newRows order.zipIdx (rest.foldl (Split.visit old new newRows) split) := by
    intro rest
    induction rest with
    | nil =>
      intro seen split hall h
      rw [List.append_nil] at hall
      exact hall ▸ h
    | cons x rest ih =>
      intro seen split hall h
      have hx : x ∈ order.zipIdx := hall ▸ List.mem_append_right _ (List.mem_cons_self ..)
      refine ih (seen ++ [x]) _ ?_ (h.visit hx)
      rw [List.append_assoc]
      exact hall
  exact hfold _ [] _ rfl ⟨by simp, by simp⟩

end Split

/-! ## Matching -/

theorem mem_taskRows {file : File} {raw : Nat} :
    raw ∈ taskRows file ↔ ∃ line, file.lines[raw]? = some line ∧ isTask line = true := by
  unfold taskRows
  rw [List.mem_map]
  constructor
  · rintro ⟨x, hx, rfl⟩
    obtain ⟨hmem, htask⟩ := List.mem_filter.1 hx
    exact ⟨x.1, List.mem_zipIdx_iff_getElem?.1 hmem, htask⟩
  · rintro ⟨line, hline, htask⟩
    exact ⟨(line, raw), List.mem_filter.2 ⟨List.mem_zipIdx_iff_getElem?.2 hline, htask⟩, rfl⟩

theorem nodup_taskRows (file : File) : (taskRows file).Nodup := by
  have hall : (file.lines.zipIdx.map (·.2)).Nodup := by
    rw [List.zipIdx_map_snd]
    exact List.nodup_range'
  exact hall.sublist (List.filter_sublist.map _)

theorem Side.mem_order {side : Side} {task : TaskId} {raw : Nat} :
    (task, raw) ∈ side.order ↔
      ∃ line, side.file.lines[raw]? = some line ∧ isTask line = true ∧
        side.idAt raw = some task := by
  unfold Side.order
  rw [List.mem_filterMap]
  constructor
  · rintro ⟨⟨line, row⟩, hmem, hsome⟩
    have hline := List.mem_zipIdx_iff_getElem?.1 hmem
    dsimp only at hline hsome
    split_ifs at hsome with htask
    obtain ⟨t, ht, heq⟩ := Option.map_eq_some_iff.1 hsome
    cases heq
    exact ⟨line, hline, htask, ht⟩
  · rintro ⟨line, hline, htask, hid⟩
    refine ⟨(line, raw), List.mem_zipIdx_iff_getElem?.2 hline, ?_⟩
    dsimp only
    rw [if_pos htask, hid]
    rfl

/-- A task row has a task to match. -/
theorem fingerprintOf_isSome {file : File} {raw : Nat} (tli : Nat) {line : OwnedLine}
    (hline : file.lines[raw]? = some line) (htask : isTask line = true) :
    ∃ task, fingerprintOf file raw tli = some (task, tli) := by
  obtain ⟨task, hsome⟩ := Option.isSome_iff_exists.1 htask
  refine ⟨task, ?_⟩
  unfold fingerprintOf lineAt
  rw [hline, Option.bind_some, hsome]
  rfl

/-- Old tasks and new task lines are shared out: each is matched, or deleted or inserted. -/
structure Matching.Shares (old : Side) (new : File) (m : Matching) : Prop where
  tasks : (m.matched.map (·.1) ++ m.deleted).Perm old.tasks
  lines : (m.matched.map (·.2) ++ m.inserted).Perm (List.range (taskRows new).length)

section Resolve
variable {k : Identity} {old : Side} {new : File} {mint : Nat → TaskId}

/-- The old tasks the solver gets are those left over. -/
theorem reducedOld_tasks (old : Side) (tlis : List Nat) :
    (tlis.filterMap fun tli => old.order[tli]?.bind fun x =>
      (fingerprintOf old.file x.2 tli).map fun f => (x.1, f)).map (·.1) =
        tlis.filterMap fun tli => old.order[tli]?.map (·.1) := by
  rw [List.map_filterMap]
  refine List.filterMap_congr fun tli _ => ?_
  cases hx : old.order[tli]? with
  | none => rfl
  | some x =>
    obtain ⟨line, hline, htask, -⟩ := Side.mem_order.1 (List.mem_of_getElem? hx)
    obtain ⟨task, hf⟩ := fingerprintOf_isSome tli hline htask
    rw [Option.bind_some, hf]
    rfl

/-- The solver gets every new line left over. -/
theorem reducedNew_length {tlis : List Nat} (h : ∀ tli ∈ tlis, tli < (taskRows new).length) :
    (tlis.filterMap fun tli => (taskRows new)[tli]?.bind fun raw =>
      fingerprintOf new raw tli).length = tlis.length := by
  refine List.filterMap_length_eq_length.2 fun tli hmem => ?_
  have hlt := h tli hmem
  obtain ⟨line, hline, htask⟩ := mem_taskRows.1 (List.getElem_mem hlt)
  obtain ⟨task, hf⟩ := fingerprintOf_isSome tli hline htask
  rw [List.getElem?_eq_getElem hlt, Option.bind_some, hf]
  rfl

section Picked
variable {matched : List (TaskId × Nat)} {left : List Nat}

/-- Reading the columns of matched pairs as task lines keeps the tasks. -/
theorem picked_tasks (h : ∀ m ∈ matched, m.2 < left.length) :
    (matched.filterMap fun m => left[m.2]?.map fun tli => (m.1, tli)).map (·.1) =
      matched.map (·.1) := by
  rw [List.map_filterMap, ← List.filterMap_eq_map]
  refine List.filterMap_congr fun m hm => ?_
  rw [List.getElem?_eq_getElem (h m hm)]
  rfl

theorem picked_lines (matched : List (TaskId × Nat)) (left : List Nat) :
    (matched.filterMap fun m => left[m.2]?.map fun tli => (m.1, tli)).map (·.2) =
      (matched.map (·.2)).filterMap (left[·]?) := by
  rw [List.map_filterMap, List.filterMap_map]
  refine List.filterMap_congr fun m _ => ?_
  rw [Option.map_map]
  exact Option.map_id' ..

end Picked

theorem resolveMatches_shares (hk : k.Solves) (old : Side) (new : File) (mint : Nat → TaskId) :
    (resolveMatches k old new mint).Shares old new := by
  unfold resolveMatches
  dsimp only
  have hsplit := splitExactMatches_spec old.order (taskRows new) old.file new
  generalize splitExactMatches old.order (taskRows new) old.file new = split at hsplit ⊢
  have hleft : ∀ tli ∈ split.remainingNew, tli < (taskRows new).length := fun tli htli =>
    List.mem_range.1 (hsplit.lines.subset (List.mem_append_right _ htli))
  have hold := reducedOld_tasks old split.remainingOld
  have hnew := reducedNew_length hleft
  generalize (split.remainingOld.filterMap fun tli => old.order[tli]?.bind fun x =>
    (fingerprintOf old.file x.2 tli).map fun f => (x.1, f)) = reducedOld at hold ⊢
  generalize (split.remainingNew.filterMap fun tli => (taskRows new)[tli]?.bind fun raw =>
    fingerprintOf new raw tli) = reducedNew at hnew ⊢
  have htasks := assign_tasks reducedOld reducedNew
    (max old.order.length (taskRows new).length) hk
  have hlines := assign_lines reducedOld reducedNew
    (max old.order.length (taskRows new).length) hk
  generalize assign k reducedOld reducedNew (max old.order.length (taskRows new).length) = solved
    at htasks hlines ⊢
  rw [hnew] at hlines
  rw [hold] at htasks
  have hpicked : ∀ m ∈ solved.matched, m.2 < split.remainingNew.length := fun m hm =>
    List.mem_range.1 (hlines.subset (List.mem_append_left _ (List.mem_map_of_mem hm)))
  constructor
  · dsimp only
    rw [List.map_append, picked_tasks hpicked, List.append_assoc]
    refine (htasks.append_left _).trans (hsplit.tasks.trans (.of_eq ?_))
    exact Columns.map_zipIdx_item (·.1) old.order
  · dsimp only
    rw [List.map_append, picked_lines, List.append_assoc, ← List.filterMap_append]
    refine List.Perm.trans (List.Perm.append_left _ ?_) hsplit.lines
    have hall := hlines.filterMap (split.remainingNew[·]?)
    rwa [Columns.filterMap_range] at hall

end Resolve

/-! ## The ids written -/

/-- Where `newIdsOf` writes which id. -/
def idPlaces (rows : List Nat) (length : Nat) (matched : List (TaskId × Nat)) (inserted : List Nat)
    (mint : Nat → TaskId) : List (Nat × Option TaskId) :=
  matched.map (fun m => (rows[m.2]?.getD length, some m.1)) ++
    inserted.zipIdx.map fun x => (rows[x.1]?.getD length, some (mint x.2))

section Places
variable {rows inserted : List Nat} {length : Nat} {matched : List (TaskId × Nat)}
  {mint : Nat → TaskId}

theorem newIdsOf_eq : newIdsOf rows length matched inserted mint =
    Columns.setAll (List.replicate length none) (idPlaces rows length matched inserted mint) := by
  unfold newIdsOf Columns.setAll idPlaces
  rw [List.foldl_append, List.foldl_map, List.foldl_map]

/-- The places are the task rows. -/
theorem idPlaces_rows (length : Nat) (mint : Nat → TaskId)
    (h : (matched.map (·.2) ++ inserted).Perm (List.range rows.length)) :
    ((idPlaces rows length matched inserted mint).map (·.1)).Perm rows := by
  have hplaces : (idPlaces rows length matched inserted mint).map (·.1) =
      (matched.map (·.2) ++ inserted).map fun tli => rows[tli]?.getD length := by
    rw [idPlaces, List.map_append, List.map_map, List.map_map, List.map_append, List.map_map]
    exact congrArg₂ _ rfl (Columns.map_zipIdx_item (fun tli => rows[tli]?.getD length) inserted)
  have hrows : (List.range rows.length).map (fun tli => rows[tli]?.getD length) = rows := by
    refine Eq.trans ?_ (Columns.filterMap_range rows)
    rw [← List.filterMap_eq_map]
    refine List.filterMap_congr fun tli htli => ?_
    rw [Function.comp_apply, List.getElem?_eq_getElem (List.mem_range.1 htli), Option.getD_some]
  rw [hplaces]
  exact (h.map _).trans (.of_eq hrows)

/-- The ids are the matched tasks and those minted. -/
theorem idPlaces_ids (rows inserted : List Nat) (length : Nat) (matched : List (TaskId × Nat))
    (mint : Nat → TaskId) : (idPlaces rows length matched inserted mint).map (·.2) =
    (matched.map (·.1) ++ (List.range inserted.length).map mint).map some := by
  rw [idPlaces, List.map_append, List.map_map, List.map_map, List.map_append, List.map_map,
    List.map_map]
  exact congrArg₂ _ rfl (Columns.map_zipIdx_number (fun n => some (mint n)) inserted)

end Places

/-- The matched and inserted task-line indices are those of `rows`, the task rows of a file of `length`
lines. -/
structure RowsShared (rows : List Nat) (length : Nat) (matched : List (TaskId × Nat))
    (inserted : List Nat) : Prop where
  lines : (matched.map (·.2) ++ inserted).Perm (List.range rows.length)
  nodup : rows.Nodup
  bound : ∀ row ∈ rows, row < length

namespace RowsShared
variable {rows inserted : List Nat} {matched : List (TaskId × Nat)} {length raw raw' : Nat}
  {task : TaskId}

/-- A row holds an id when the id is written there. -/
theorem getElem?_eq_some_iff (h : RowsShared rows length matched inserted) (mint : Nat → TaskId) :
    (newIdsOf rows length matched inserted mint)[raw]? = some (some task) ↔
      (raw, some task) ∈ idPlaces rows length matched inserted mint := by
  have hrows := idPlaces_rows length mint h.lines
  have hbase : (List.replicate length (none : Option TaskId)).length = length :=
    List.length_replicate
  rw [newIdsOf_eq]
  constructor
  · intro hget
    by_cases hraw : raw ∈ (idPlaces rows length matched inserted mint).map (·.1)
    · obtain ⟨⟨row, id⟩, hmem, rfl⟩ := List.mem_map.1 hraw
      have hrow : row < length := h.bound row (hrows.subset hraw)
      rw [Columns.getElem?_setAll_of_mem (hrows.nodup_iff.2 h.nodup) hmem (by rwa [hbase])] at hget
      rwa [Option.some_inj.1 hget] at hmem
    · rw [Columns.getElem?_setAll_of_not_mem _ hraw] at hget
      have hnone := List.eq_of_mem_replicate (List.mem_of_getElem? hget)
      cases hnone
  · intro hmem
    have hrow : raw < length := h.bound raw (hrows.subset (List.mem_map_of_mem hmem))
    exact Columns.getElem?_setAll_of_mem (hrows.nodup_iff.2 h.nodup) hmem (by rwa [hbase])

/-- A row holds an id when it is a task row. -/
theorem covers (h : RowsShared rows length matched inserted) (mint : Nat → TaskId) :
    raw ∈ rows ↔ ∃ task, (newIdsOf rows length matched inserted mint)[raw]? = some (some task) := by
  have hrows := idPlaces_rows length mint h.lines
  rw [← hrows.mem_iff]
  constructor
  · intro hraw
    obtain ⟨⟨row, id⟩, hmem, rfl⟩ := List.mem_map.1 hraw
    have hid : id ∈ (idPlaces rows length matched inserted mint).map (·.2) :=
      List.mem_map_of_mem hmem
    rw [idPlaces_ids] at hid
    obtain ⟨task, -, rfl⟩ := List.mem_map.1 hid
    exact ⟨task, (h.getElem?_eq_some_iff mint).2 hmem⟩
  · rintro ⟨task, hget⟩
    exact List.mem_map.2 ⟨_, (h.getElem?_eq_some_iff mint).1 hget, rfl⟩

/-- A matched task is on a row, and so is a minted id. -/
theorem holds_iff (h : RowsShared rows length matched inserted) (mint : Nat → TaskId) :
    (∃ raw : Nat, (newIdsOf rows length matched inserted mint)[raw]? = some (some task)) ↔
      task ∈ matched.map (·.1) ++ (List.range inserted.length).map mint := by
  have hids := idPlaces_ids rows inserted length matched mint
  rw [← List.mem_map_of_injective (Option.some_injective TaskId), ← hids, List.mem_map]
  constructor
  · rintro ⟨raw, hget⟩
    exact ⟨_, (h.getElem?_eq_some_iff mint).1 hget, rfl⟩
  · rintro ⟨⟨raw, id⟩, hmem, heq⟩
    dsimp only at heq
    subst heq
    exact ⟨raw, (h.getElem?_eq_some_iff mint).2 hmem⟩

/-- Distinct tasks are on distinct rows, a row each. -/
theorem distinct (h : RowsShared rows length matched inserted) {mint : Nat → TaskId}
    (hids : (matched.map (·.1) ++ (List.range inserted.length).map mint).Nodup)
    (hraw : (newIdsOf rows length matched inserted mint)[raw]? = some (some task))
    (hraw' : (newIdsOf rows length matched inserted mint)[raw']? = some (some task)) :
    raw = raw' := by
  have hplaces : ((idPlaces rows length matched inserted mint).map (·.2)).Nodup := by
    rw [idPlaces_ids]
    exact hids.map (Option.some_injective _)
  have hmem := (h.getElem?_eq_some_iff mint).1 hraw
  have hmem' := (h.getElem?_eq_some_iff mint).1 hraw'
  have hpair := List.inj_on_of_nodup_map hplaces hmem hmem' rfl
  exact congrArg Prod.fst hpair

end RowsShared

/-! ## Deletions -/

theorem OpKind.eq_of_setFieldOf {task : TaskId} {field : Field} {value : FieldValue} {op : OpKind}
    (h : OpKind.setFieldOf task field value = some op) : op = .setField task field value := by
  unfold OpKind.setFieldOf at h
  split at h
  all_goals first | exact (Option.some_inj.1 h).symm | cases h

/-- No op of a changed line deletes. -/
theorem deletion_not_mem_changeOps (task' : TaskId) (old new : OwnedLine) (task : TaskId) :
    OpKind.deletion task' ∉ changeOps old new task := by
  have hfields : ∀ (wanted : Task) (fields : List Field), Field.deleted ∉ fields →
      ∀ acc : List OpKind × OwnedLine, OpKind.deletion task' ∉ acc.1 →
        OpKind.deletion task' ∉ (fields.foldl (changeField old new wanted task) acc).1 := by
    intro wanted fields
    induction fields with
    | nil => exact fun _ acc hacc => hacc
    | cons field fields ih =>
      intro hfields acc hacc
      rw [List.mem_cons, not_or] at hfields
      refine ih hfields.2 _ ?_
      unfold changeField
      split
      · exact hacc
      split_ifs
      · split
        · rename_i hop _
          rw [List.mem_append, List.mem_singleton, not_or, OpKind.eq_of_setFieldOf hop]
          refine ⟨hacc, fun heq => hfields.1 ?_⟩
          injection heq
        · exact hacc
      · exact hacc
  unfold changeOps
  split
  · rw [List.mem_append, not_or]
    refine ⟨hfields _ _ (by decide) _ List.not_mem_nil, ?_⟩
    unfold changeDescription
    split
    · exact List.not_mem_nil
    split_ifs
    · simp [OpKind.deletion]
    · split <;> simp [OpKind.deletion]
    · exact List.not_mem_nil
  · exact List.not_mem_nil

section Passes
variable {diffs : List LineDiff} {task : TaskId}

theorem deletion_not_mem_changePass (old : File) (oldIds : List (Option TaskId)) (file : File) :
    OpKind.deletion task ∉ changePass diffs old oldIds file := by
  unfold changePass
  rw [List.mem_flatMap]
  rintro ⟨diff, -, hmem⟩
  split at hmem
  · split at hmem
    · exact deletion_not_mem_changeOps _ _ _ _ hmem
    · cases hmem
  · cases hmem

theorem deletion_not_mem_taskPass (file : File) (newIds : List (Option TaskId)) (path : FilePath) :
    OpKind.deletion task ∉ taskPass diffs file newIds path := by
  unfold taskPass
  rw [List.mem_filterMap]
  rintro ⟨diff, -, hsome⟩
  split at hsome
  · split at hsome <;> cases hsome
  · split at hsome <;> cases hsome
  · cases hsome

theorem deletion_not_mem_blankPass (newIds : List (Option TaskId)) :
    OpKind.deletion task ∉ blankPass diffs newIds := by
  unfold blankPass
  rw [List.mem_filterMap]
  rintro ⟨diff, -, hsome⟩
  split at hsome
  · split_ifs at hsome
    cases hsome
  · cases hsome

end Passes

section Deleted
variable {side : Side} {raw : Nat} {task : TaskId}

theorem deleteOp_task (h : side.idAt raw = some task) :
    deleteOp side.ids raw = .deletion task := by
  have hid : side.ids[raw]? = some (some task) := Option.join_eq_some_iff.1 h
  unfold deleteOp
  rw [hid]
  rfl

theorem deleteOp_blank (h : side.idAt raw = none) (task : TaskId) :
    deleteOp side.ids raw ≠ .deletion task := by
  unfold deleteOp
  split
  · rename_i hid
    rw [Side.idAt, hid] at h
    cases h
  · intro heq
    cases heq

/-- The first pass has one op a deleted row. -/
theorem deletePass_perm (rows : List Nat) {rest : List LineDiff}
    (hrest : ∀ diff ∈ rest, ∀ row, diff ≠ .delete row) (oldIds : List (Option TaskId)) :
    (deletePass (rows.map .delete ++ rest) oldIds).Perm (rows.map (deleteOp oldIds)) := by
  unfold deletePass
  refine ((List.reverse_perm _).filterMap _).trans (.of_eq ?_)
  rw [List.filterMap_append, List.filterMap_map]
  refine (congrArg₂ (· ++ ·) ?_ (List.filterMap_eq_nil_iff.2 ?_)).trans (List.append_nil _)
  · exact congrFun List.filterMap_eq_map rows
  · intro diff hdiff
    split
    · exact absurd rfl (hrest _ hdiff _)
    · rfl

/-- A task of the order is found where it stands. -/
theorem rowOf_known {order : List (TaskId × Nat)} {task : TaskId} (h : task ∈ order.map Prod.fst) :
    ∃ r, rowOf order task = some r ∧ order[r.1]? = some (task, r.2) := by
  obtain ⟨x, hx, rfl⟩ := List.mem_map.1 h
  obtain ⟨i, hi⟩ := List.mem_iff_getElem?.1 hx
  have hsome : (order.zipIdx.reverse.find? fun y => y.1.1 = x.1).isSome := by
    refine List.find?_isSome.2 ⟨(x, i), ?_, by simp⟩
    exact List.mem_reverse.2 (List.mem_zipIdx_iff_getElem?.2 hi)
  obtain ⟨y, hy⟩ := Option.isSome_iff_exists.1 hsome
  have hget : order[y.2]? = some y.1 :=
    List.mem_zipIdx_iff_getElem?.1 (List.mem_reverse.1 (List.mem_of_find?_eq_some hy))
  have htask : y.1.1 = x.1 := by simpa using List.find?_some hy
  refine ⟨(y.2, y.1.2), ?_, by rw [hget, ← htask]⟩
  unfold rowOf
  rw [hy]
  rfl

/-- The row of an old task holds its id. -/
theorem rowOf_idAt (h : task ∈ side.tasks) :
    ∃ r, rowOf side.order task = some r ∧ side.idAt r.2 = some task := by
  obtain ⟨r, hr, hget⟩ := rowOf_known h
  obtain ⟨line, -, -, hid⟩ := Side.mem_order.1 (List.mem_of_getElem? hget)
  exact ⟨r, hr, hid⟩

end Deleted

section Count
variable {k : Identity} {old : Side} {new : File} {m : Matching} {task : TaskId}

theorem excessBlanks_idAt {a b : Side} {raw : Nat} (h : raw ∈ excessBlanks a b) :
    a.idAt raw = none := by
  unfold excessBlanks at h
  obtain ⟨anchor, -, hraw⟩ := List.mem_flatMap.1 h
  have hslot := (List.mem_filter.1 (List.mem_of_mem_drop hraw)).2
  rw [Bool.and_eq_true] at hslot
  exact Option.isNone_iff_eq_none.1 hslot.1

/-- A task is deleted as often as the matching leaves it out. -/
theorem count_deletePass (newSide : Side) (hdeleted : ∀ t ∈ m.deleted, t ∈ old.tasks) :
    (deletePass (sidecarDiffs old newSide m) old.ids).count (.deletion task) =
      m.deleted.count task := by
  unfold sidecarDiffs
  dsimp only
  rw [List.append_assoc, List.append_assoc]
  refine ((deletePass_perm _ ?_ _).count_eq _).trans ?_
  · intro diff hdiff row heq
    subst heq
    simp [List.mem_append] at hdiff
  rw [((List.perm_insertionSort _ _).map _).count_eq, List.map_append, List.count_append]
  have hblanks : ((excessBlanks old newSide).map (deleteOp old.ids)).count (.deletion task) = 0 := by
    refine List.count_eq_zero.2 fun hmem => ?_
    obtain ⟨raw, hraw, heq⟩ := List.mem_map.1 hmem
    exact deleteOp_blank (excessBlanks_idAt hraw) task heq
  have htasks : (m.deleted.filterMap fun t => (rowOf old.order t).map (·.2)).map
      (deleteOp old.ids) = m.deleted.map OpKind.deletion := by
    rw [List.map_filterMap, ← List.filterMap_eq_map]
    refine List.filterMap_congr fun t ht => ?_
    obtain ⟨r, hr, hid⟩ := rowOf_idAt (hdeleted t ht)
    rw [hr, Option.map_some, Option.map_some, deleteOp_task hid]
    rfl
  rw [hblanks, Nat.add_zero, htasks]
  refine List.count_map_of_injective _ _ (fun a b hab => ?_) _
  injection hab

end Count

/-- What a sidecar reconcile owes: every task line of the new file has one id of its own, and every
old task is on one line or deleted by one op. -/
structure Reconciled.Identifies (old : Side) (new : File) (r : Reconciled) : Prop where
  length : r.ids.length = new.lines.length
  task : ∀ (raw : Nat) (line : OwnedLine), new.lines[raw]? = some line →
    (isTask line = true ↔ ∃ id, r.ids[raw]? = some (some id))
  distinct : ∀ (raw raw' : Nat) (id : TaskId), r.ids[raw]? = some (some id) →
    r.ids[raw']? = some (some id) → raw = raw'
  settled : ∀ task ∈ old.tasks,
    ((∃! raw : Nat, r.ids[raw]? = some (some task)) ∧ r.ops.count (.deletion task) = 0) ∨
      ((∀ raw : Nat, r.ids[raw]? ≠ some (some task)) ∧ r.ops.count (.deletion task) = 1)

section Identifies
variable {k : Identity} {old : Side} {new : File} {mint : Nat → TaskId}

theorem resolveMatches_rows (hk : k.Solves) (old : Side) (new : File) (mint : Nat → TaskId) :
    RowsShared (taskRows new) new.lines.length (resolveMatches k old new mint).matched
      (resolveMatches k old new mint).inserted := by
  refine ⟨(resolveMatches_shares hk old new mint).lines, nodup_taskRows new, fun row hrow => ?_⟩
  obtain ⟨line, hline, -⟩ := mem_taskRows.1 hrow
  exact (List.getElem?_eq_some_iff.1 hline).1

/-- No more ids are minted than the file has lines. -/
theorem resolveMatches_inserted_le (hk : k.Solves) (old : Side) (new : File) (mint : Nat → TaskId) :
    (resolveMatches k old new mint).inserted.length ≤ new.lines.length := by
  have hshared := (resolveMatches_shares hk old new mint).lines.length_eq
  have hrows : (taskRows new).length ≤ new.lines.length := by
    rw [taskRows, List.length_map]
    exact (List.length_filter_le _ _).trans_eq List.length_zipIdx
  rw [List.length_append, List.length_range] at hshared
  omega

/-- Fresh ids are none of the matched ones. -/
theorem resolveMatches_ids_nodup (new : File) (hk : k.Solves) (hold : old.tasks.Nodup)
    (hmint : ((List.range new.lines.length).map mint).Nodup)
    (hfresh : ∀ n < new.lines.length, mint n ∉ old.tasks) :
    ((resolveMatches k old new mint).matched.map (·.1) ++
      (List.range (resolveMatches k old new mint).inserted.length).map mint).Nodup := by
  have htasks := (resolveMatches_shares hk old new mint).tasks
  have hmatched := (List.nodup_append.1 (htasks.nodup_iff.2 hold)).1
  have hle := resolveMatches_inserted_le hk old new mint
  refine List.nodup_append.2 ⟨hmatched, hmint.sublist ((List.range_sublist.2 hle).map _), ?_⟩
  rintro task hmem _ hminted rfl
  obtain ⟨n, hn, rfl⟩ := List.mem_map.1 hminted
  exact hfresh n ((List.mem_range.1 hn).trans_le hle) (htasks.subset (List.mem_append_left _ hmem))

/-- The ops delete a task as often as the matching does. -/
theorem count_deletion (hk : k.Solves) (old : Side) (new : File) (path : FilePath)
    (mint : Nat → TaskId) (task : TaskId) :
    (reconcileSidecar k old new path mint).ops.count (.deletion task) =
      (resolveMatches k old new mint).deleted.count task := by
  have hsub : ∀ t ∈ (resolveMatches k old new mint).deleted, t ∈ old.tasks := fun t ht =>
    (resolveMatches_shares hk old new mint).tasks.subset (List.mem_append_right _ ht)
  unfold reconcileSidecar
  dsimp only
  rw [List.count_append, List.count_append, List.count_append, count_deletePass _ hsub,
    List.count_eq_zero.2 (deletion_not_mem_changePass _ _ _),
    List.count_eq_zero.2 (deletion_not_mem_taskPass _ _ _),
    List.count_eq_zero.2 (deletion_not_mem_blankPass _)]
  rfl

end Identifies

/-- Whatever the solver prefers, each new task line gets one id and no old task is lost or doubled. -/
theorem reconcileSidecar_identifies (k : Identity) (hk : k.Solves) (old : Side)
    (hold : old.tasks.Nodup) (new : File) (path : FilePath) (mint : Nat → TaskId)
    (hmint : ((List.range new.lines.length).map mint).Nodup)
    (hfresh : ∀ n < new.lines.length, mint n ∉ old.tasks) :
    (reconcileSidecar k old new path mint).Identifies old new := by
  have hrows := resolveMatches_rows hk old new mint
  have hids := resolveMatches_ids_nodup new hk hold hmint hfresh
  have htasks := (resolveMatches_shares hk old new mint).tasks
  have hnodup := htasks.nodup_iff.2 hold
  have hunique : ∀ (raw raw' : Nat) (id : TaskId),
      (resolveMatches k old new mint).newIds[raw]? = some (some id) →
        (resolveMatches k old new mint).newIds[raw']? = some (some id) → raw = raw' :=
    fun raw raw' id hraw hraw' => hrows.distinct hids hraw hraw'
  refine ⟨?length, ?task, hunique, ?settled⟩
  case length =>
    exact (congrArg List.length newIdsOf_eq).trans
      ((Columns.length_setAll _).trans List.length_replicate)
  case task =>
    intro raw line hline
    refine Iff.trans ?_ (hrows.covers mint)
    rw [mem_taskRows, hline]
    exact ⟨fun htask => ⟨line, rfl, htask⟩, fun ⟨_, heq, htask⟩ => Option.some_inj.1 heq ▸ htask⟩
  case settled =>
    intro task htask
    rw [count_deletion hk]
    rcases List.mem_append.1 (htasks.mem_iff.2 htask) with hmatched | hdeleted
    · left
      obtain ⟨raw, hraw⟩ := (hrows.holds_iff mint).2 (List.mem_append_left _ hmatched)
      refine ⟨⟨raw, hraw, fun raw' hraw' => hunique raw' raw task hraw' hraw⟩, ?_⟩
      exact List.count_eq_zero.2 fun hdeleted =>
        (List.nodup_append.1 hnodup).2.2 task hmatched task hdeleted rfl
    · right
      refine ⟨fun raw hraw => ?_, ?_⟩
      · rcases List.mem_append.1 ((hrows.holds_iff mint).1 ⟨raw, hraw⟩) with hmatched | hminted
        · exact (List.nodup_append.1 hnodup).2.2 task hmatched task hdeleted rfl
        · obtain ⟨n, hn, rfl⟩ := List.mem_map.1 hminted
          have hle := resolveMatches_inserted_le hk old new mint
          exact hfresh n ((List.mem_range.1 hn).trans_le hle) htask
      · exact List.count_eq_one_of_mem (List.nodup_append.1 hnodup).2.1 hdeleted

namespace SidecarSample

/-- Tries every assignment; a rewritten description at the other end of two lines costs `6.75`. -/
def identity : Identity where
  pairCost _ _ _ := 6750000
  kuhnMunkresMin n cost :=
    (Iter.minByKey (totalCost cost) (List.range n).permutations).getD (List.range n)

theorem identity_solves : identity.Solves := by
  have hfound : ∀ n cost, ∃ columns,
      Iter.minByKey (totalCost cost) (List.range n).permutations = some columns ∧
        identity.kuhnMunkresMin n cost = columns := by
    intro n cost
    have hmem : List.range n ∈ (List.range n).permutations := List.mem_permutations.2 (.refl _)
    cases hmin : Iter.minByKey (totalCost cost) (List.range n).permutations with
    | none =>
      rw [Iter.minByKey_eq_none.1 hmin] at hmem
      cases hmem
    | some columns =>
      refine ⟨columns, rfl, ?_⟩
      unfold identity
      dsimp only
      rw [hmin]
      rfl
  constructor
  · intro n cost
    obtain ⟨columns, hmin, hsolved⟩ := hfound n cost
    rw [hsolved]
    exact List.mem_permutations.1 (Iter.minByKey_mem hmin)
  · intro n cost columns hperm
    obtain ⟨least, hmin, hsolved⟩ := hfound n cost
    rw [hsolved]
    exact Iter.minByKey_le hmin (List.mem_permutations.2 hperm)

def file (lines : List Text) : File :=
  ⟨lines.map fun line => OwnedLine.ofText line .lf, false, .lf, true⟩

theorem task_bound (n : Nat) : n % 16 < 2 ^ 128 := by omega

def task (n : Nat) : TaskId := ⟨⟨n % 16, task_bound n⟩⟩

def old : Side := ⟨file ["a".toList, "b".toList], [some (task 1), some (task 2)]⟩

def new : File := file ["b".toList, "c".toList]

/-- One line moved up, the other deleted and a new one inserted. -/
theorem moved_and_rewritten :
    (reconcileSidecar identity old new ⟨"todo.txt".toList⟩ fun n => task (n + 3)).Identifies
      old new := by
  refine reconcileSidecar_identifies identity identity_solves old ?_ new _ _ ?_ ?_
  · decide +kernel
  · decide +kernel
  · decide +kernel

end SidecarSample

end Txtodo
