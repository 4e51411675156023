import Txtodo.Store.OriginLog
import Mathlib.Data.List.Nodup
import Txtodo.Std.Paging

/-!
# The table of ops

`ops.rs` with `number_ops` of `heads.rs`: the rows of the log in the order they were written, no op twice
and no number of a device twice. A row's `seq` is its place. The numbers stay far below what the database
can hold.
-/

namespace Txtodo

/-- One row: an op and its number in its device's run. -/
structure OpRow where
  op : Op
  originSeq : Nat
  deriving DecidableEq

namespace OpRow

def id (row : OpRow) : OpId := row.op.id

/-- What names the row to a peer. -/
def number (row : OpRow) : DeviceId × Nat := (row.op.hlc.device, row.originSeq)

end OpRow

/-- Why ops are not appended. -/
inductive AppendError where
  | emptyBatch
  | batchTooLarge (len : Nat)
  /-- An op or a number is there already. -/
  | notUnique
  deriving DecidableEq

/-- The rows in `seq` order. -/
structure OpTable where
  rows : List OpRow
  unique : (rows.map OpRow.id).Nodup
  numbered : (rows.map OpRow.number).Nodup

namespace OpTable

def empty : OpTable := ⟨[], List.nodup_nil, List.nodup_nil⟩

/-- The ops in `seq` order. -/
def ops (t : OpTable) : List Op := t.rows.map (·.op)

/-- The ids of the ops in `seq` order. -/
def ids (t : OpTable) : List OpId := t.rows.map OpRow.id

/-- `Store::total_ops`. -/
def totalOps (t : OpTable) : Nat := t.rows.length

/-- `Store::ops_page`: the rows past `since`, at most `limit` of them. -/
def opsPage (t : OpTable) (since limit : Nat) : List OpRow :=
  (t.rows.drop since).take (min limit MAX_OPS_PER_READ)

/-- A device's highest number. -/
def headOf (rows : List OpRow) (device : DeviceId) : Nat :=
  ((rows.filter fun row => row.op.hlc.device = device).map (·.originSeq)).max?.getD 0

/-- `number_ops` with no numbers given: the next number of each op's device, in order. -/
def numberOps (rows : List OpRow) : (DeviceId → Option Nat) → List Op → List OpRow
  | _, [] => []
  | next, op :: ops =>
    let n := (next op.hlc.device).getD (headOf rows op.hlc.device + 1)
    ⟨op, n⟩ ::
      numberOps rows (fun device => if device = op.hlc.device then some (n + 1) else next device) ops

/-- `Store::append`: all rows land or none. -/
def append (t : OpTable) (ops : List Op) : Except AppendError OpTable :=
  if ops = [] then .error .emptyBatch
  else if MAX_APPEND_BATCH < ops.length then .error (.batchTooLarge ops.length)
  else
    let rows := t.rows ++ numberOps t.rows (fun _ => none) ops
    if h : (rows.map OpRow.id).Nodup ∧ (rows.map OpRow.number).Nodup then .ok ⟨rows, h.1, h.2⟩
    else .error .notUnique

/-! ## Appends -/

theorem ops_numberOps (rows : List OpRow) (next : DeviceId → Option Nat) (ops : List Op) :
    (numberOps rows next ops).map (·.op) = ops := by
  induction ops generalizing next with
  | nil => rfl
  | cons op ops ih => rw [numberOps, List.map_cons, ih]

/-- The numbers given to a device's ops begin with its next one. -/
theorem next_le_of_mem_numberOps {rows : List OpRow} {next : DeviceId → Option Nat} {ops : List Op}
    {row : OpRow} (h : row ∈ numberOps rows next ops) :
    (next row.op.hlc.device).getD (headOf rows row.op.hlc.device + 1) ≤ row.originSeq := by
  induction ops generalizing next with
  | nil => cases h
  | cons op ops ih =>
    rcases List.mem_cons.1 h with rfl | h
    · exact le_rfl
    · have hrest := ih h
      split_ifs at hrest with hdevice
      · rw [hdevice]
        exact (Nat.le_succ _).trans hrest
      · exact hrest

theorem nodup_numberOps (rows : List OpRow) (next : DeviceId → Option Nat) (ops : List Op) :
    ((numberOps rows next ops).map OpRow.number).Nodup := by
  induction ops generalizing next with
  | nil => exact List.nodup_nil
  | cons op ops ih =>
    rw [numberOps, List.map_cons]
    refine List.nodup_cons.2 ⟨?_, ih _⟩
    intro hmem
    obtain ⟨row, hrow, heq⟩ := List.mem_map.1 hmem
    obtain ⟨hdevice, hnumber⟩ := Prod.mk.inj heq
    have hle := next_le_of_mem_numberOps hrow
    dsimp only at hdevice hnumber hle
    rw [hdevice, if_pos rfl, Option.getD_some, hnumber] at hle
    exact Nat.not_succ_le_self _ hle

theorem originSeq_le_headOf {rows : List OpRow} {row : OpRow} (h : row ∈ rows) :
    row.originSeq ≤ headOf rows row.op.hlc.device := by
  have hmem : row.originSeq ∈
      ((rows.filter fun r => r.op.hlc.device = row.op.hlc.device).map (·.originSeq)) :=
    List.mem_map_of_mem (List.mem_filter.2 ⟨h, decide_eq_true rfl⟩)
  exact List.le_max?_getD_of_mem hmem

/-- Ops that are not there yet land, each under a number of its own. -/
theorem append_ok {t : OpTable} {ops : List Op} (hne : ops ≠ []) (hlen : ops.length ≤ MAX_APPEND_BATCH)
    (hnodup : (ops.map (·.id)).Nodup) (hnew : ∀ op ∈ ops, op.id ∉ t.ids) :
    ∃ t', t.append ops = .ok t' ∧ t'.ops = t.ops ++ ops := by
  have hids : (numberOps t.rows (fun _ => none) ops).map OpRow.id = ops.map (·.id) := by
    have h := congrArg (List.map fun op : Op => op.id) (ops_numberOps t.rows (fun _ => none) ops)
    rw [List.map_map] at h
    exact h
  have hunique : ((t.rows ++ numberOps t.rows (fun _ => none) ops).map OpRow.id).Nodup := by
    rw [List.map_append, hids]
    refine List.Nodup.append t.unique hnodup ?_
    intro id hold hadded
    obtain ⟨op, hop, rfl⟩ := List.mem_map.1 hadded
    exact hnew op hop hold
  have hnumbered : ((t.rows ++ numberOps t.rows (fun _ => none) ops).map OpRow.number).Nodup := by
    rw [List.map_append]
    refine List.Nodup.append t.numbered (nodup_numberOps _ _ _) ?_
    intro number hold hadded
    obtain ⟨row, hrow, rfl⟩ := List.mem_map.1 hold
    obtain ⟨added, hmem, heq⟩ := List.mem_map.1 hadded
    obtain ⟨hdevice, hnumber⟩ := Prod.mk.inj heq
    have hhead := originSeq_le_headOf hrow
    have hnext := next_le_of_mem_numberOps hmem
    rw [Option.getD_none, hdevice, hnumber] at hnext
    omega
  refine ⟨⟨t.rows ++ numberOps t.rows (fun _ => none) ops, hunique, hnumbered⟩, ?_, ?_⟩
  · rw [append, if_neg hne, if_neg (Nat.not_lt.2 hlen)]
    exact dif_pos ⟨hunique, hnumbered⟩
  · show List.map _ _ = _
    rw [List.map_append, ops_numberOps]
    rfl

/-- An op that is there already is refused. -/
theorem append_stored {t : OpTable} {ops : List Op} {op : Op} (hmem : op ∈ ops) (hold : op.id ∈ t.ids) :
    ∃ e, t.append ops = .error e := by
  unfold append
  split_ifs with hnil hlen
  · exact ⟨_, rfl⟩
  · exact ⟨_, rfl⟩
  · have hdup : ¬((t.rows ++ numberOps t.rows (fun _ => none) ops).map OpRow.id).Nodup := by
      rw [List.map_append]
      intro hnodup
      have hnew : op.id ∈ (numberOps t.rows (fun _ => none) ops).map OpRow.id := by
        rw [← ops_numberOps t.rows (fun _ => none) ops] at hmem
        obtain ⟨row, hrow, rfl⟩ := List.mem_map.1 hmem
        exact List.mem_map_of_mem hrow
      exact (List.nodup_append.1 hnodup).2.2 _ hold _ hnew rfl
    refine ⟨.notUnique, ?_⟩
    dsimp only
    rw [dif_neg fun h => hdup h.1]

end OpTable

end Txtodo

/-!
## One document's log

The reads of `ops.rs` and `commit.rs` that a document's history is made from. Every op is read with its
`seq`, its place in the table from 1 on.
-/

namespace Txtodo

/-- An op with its place in the log. -/
structure Stored where
  seq : Nat
  op : Op
  deriving DecidableEq

namespace OpTable

/-- The rows with their numbers, in `seq` order. -/
def stored (t : OpTable) : List Stored := t.ops.mapIdx fun i op => ⟨i + 1, op⟩

/-- A document's rows in `seq` order. -/
def ofFile (t : OpTable) (file : FilePath) : List Stored := t.stored.filter fun s => s.op.file = file

/-- `Store::for_file`: a document's ops past `since`, oldest first. -/
def forFile (t : OpTable) (file : FilePath) (since : Nat) : List Stored :=
  ((t.ofFile file).filter fun s => since < s.seq).take MAX_OPS_PER_READ

/-- `Store::newest`: a document's newest `limit` ops, newest first. -/
def newest (t : OpTable) (file : FilePath) (limit : Nat) : List Stored :=
  (t.ofFile file).reverse.take (min limit MAX_OPS_PER_READ)

variable {t : OpTable} {file : FilePath}

theorem sorted_stored (t : OpTable) : KeySorted.Sorted Stored.seq t.stored := by
  unfold stored KeySorted.Sorted
  rw [List.pairwise_iff_getElem]
  intro i j hi hj hlt
  rw [List.getElem_mapIdx, List.getElem_mapIdx]
  exact Nat.succ_lt_succ hlt

theorem sorted_ofFile (t : OpTable) (file : FilePath) : KeySorted.Sorted Stored.seq (t.ofFile file) :=
  t.sorted_stored.sublist List.filter_sublist

theorem mem_ofFile {s : Stored} : s ∈ t.ofFile file ↔ s ∈ t.stored ∧ s.op.file = file := by
  rw [ofFile, List.mem_filter, decide_eq_true_iff]

theorem seq_pos {s : Stored} (h : s ∈ t.stored) : 0 < s.seq := by
  rw [stored, List.mem_mapIdx] at h
  obtain ⟨i, hi, rfl⟩ := h
  exact Nat.succ_pos i

/-- A row is known by its number. -/
theorem eq_of_seq_eq {s s' : Stored} (h : s ∈ t.stored) (h' : s' ∈ t.stored) (hseq : s.seq = s'.seq) :
    s = s' := by
  rw [stored, List.mem_mapIdx] at h h'
  obtain ⟨i, hi, rfl⟩ := h
  obtain ⟨j, hj, rfl⟩ := h'
  obtain rfl : i = j := Nat.succ.inj hseq
  rfl

/-- A row is among the newest ones when fewer rows of its document come after it. -/
theorem mem_newest {s : Stored} {limit : Nat} (h : s ∈ t.ofFile file) :
    s ∈ t.newest file limit ↔
      ((t.ofFile file).filter fun later => s.seq < later.seq).length < min limit MAX_OPS_PER_READ := by
  obtain ⟨pre, post, hsplit⟩ := List.append_of_mem h
  have hsorted := t.sorted_ofFile file
  rw [hsplit] at hsorted
  have hafter : ∀ later ∈ post, s.seq < later.seq :=
    (List.pairwise_cons.1 (List.pairwise_append.1 hsorted).2.1).1
  rw [newest, hsplit, Paging.filter_gt_of_up hsorted, List.reverse_append, List.reverse_cons,
    List.append_assoc, List.take_append, List.length_reverse, List.mem_append]
  constructor
  · rintro (hmem | hmem)
    · exact absurd (hafter s (List.mem_reverse.1 (List.mem_of_mem_take hmem))) (lt_irrefl _)
    · by_contra hle
      rw [Nat.sub_eq_zero_of_le (not_lt.1 hle), List.take_zero] at hmem
      cases hmem
  · intro hlt
    obtain ⟨n, hn⟩ : ∃ n, min limit MAX_OPS_PER_READ - post.length = n + 1 :=
      Nat.exists_eq_add_one_of_ne_zero (by omega)
    rw [hn]
    exact .inr List.mem_cons_self

end OpTable

end Txtodo
