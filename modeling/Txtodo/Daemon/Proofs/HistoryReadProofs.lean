import Txtodo.Daemon.History

/-!
# Proofs: reading history

A checkout by time reads the ops in front of the first newer one. The pages of a request list the ops that
each document's newest read holds, so they are the whole history while no op lies deeper than one read.
-/

namespace Txtodo

/-! ## Checkout by time -/

section Checkout

variable {t : OpTable} {path : FilePath} {atWallMs : Nat}

/-- The op is old enough. -/
def oldEnough (atWallMs : Nat) (s : Stored) : Bool := s.op.hlc.wallMs ≤ atWallMs

theorem scanOps_eq (best : Option Nat) (ops : List Stored) :
    scanOps atWallMs best ops =
      (((ops.takeWhile (oldEnough atWallMs)).getLast?.map (·.seq)).or best,
        !ops.all (oldEnough atWallMs)) := by
  induction ops generalizing best with
  | nil => rfl
  | cons s ops ih =>
    unfold scanOps
    by_cases h : s.op.hlc.wallMs ≤ atWallMs
    · have hold : oldEnough atWallMs s = true := decide_eq_true h
      rw [if_pos h, ih, List.takeWhile_cons_of_pos hold, List.all_cons, hold, Bool.true_and,
        List.getLast?_cons]
      cases (ops.takeWhile (oldEnough atWallMs)).getLast? <;> rfl
    · have hnew : oldEnough atWallMs s = false := decide_eq_false h
      rw [if_neg h, List.takeWhile_cons_of_neg (by simp [hnew]), List.all_cons, hnew]
      rfl

/-- One read past the end of `pre`. -/
theorem forFile_of_split {since : Nat} {pre rest : List Stored} (hlog : t.ofFile path = pre ++ rest)
    (hpre : ∀ s ∈ pre, s.seq ≤ since) (hrest : ∀ s ∈ rest, since < s.seq) :
    t.forFile path since = rest.take MAX_OPS_PER_READ := by
  have hold : pre.filter (fun s => decide (since < s.seq)) = [] :=
    List.filter_eq_nil_iff.2 fun s hs => by simpa using hpre s hs
  have hnew : rest.filter (fun s => decide (since < s.seq)) = rest :=
    List.filter_eq_self.2 fun s hs => by simpa using hrest s hs
  rw [OpTable.forFile, hlog, List.filter_append, hold, hnew, List.nil_append]

/-- The reads from a place on give the last op in front of the first newer one. -/
theorem scanPages_eq {pages since : Nat} {best : Option Nat} {pre rest : List Stored}
    (hlog : t.ofFile path = pre ++ rest) (hpre : ∀ s ∈ pre, s.seq ≤ since)
    (hrest : ∀ s ∈ rest, since < s.seq) :
    scanPages t path atWallMs pages since best =
      (((rest.take (pages * MAX_OPS_PER_READ)).takeWhile (oldEnough atWallMs)).getLast?.map
        (·.seq)).or best := by
  induction pages generalizing since best pre rest with
  | zero => rw [scanPages, Nat.zero_mul, List.take_zero]; rfl
  | succ pages ih =>
    have hcut : rest.take ((pages + 1) * MAX_OPS_PER_READ) =
        rest.take MAX_OPS_PER_READ ++ (rest.drop MAX_OPS_PER_READ).take (pages * MAX_OPS_PER_READ) := by
      rw [Nat.succ_mul, Nat.add_comm, List.take_add]
    rw [scanPages, forFile_of_split hlog hpre hrest, hcut]
    by_cases hnil : rest.take MAX_OPS_PER_READ = []
    · have hempty : rest = [] := (List.take_eq_nil_iff.1 hnil).resolve_left (by decide)
      subst hempty
      rw [List.take_nil, List.drop_nil, List.take_nil]
      rfl
    obtain ⟨front, last, hpage⟩ : ∃ front last, rest.take MAX_OPS_PER_READ = front ++ [last] :=
      ⟨_, _, (List.dropLast_append_getLast hnil).symm⟩
    have hlast : (rest.take MAX_OPS_PER_READ).getLast? = some last := by
      rw [hpage, List.getLast?_concat]
    rw [hlast, scanOps_eq]
    by_cases hall : (rest.take MAX_OPS_PER_READ).all (oldEnough atWallMs) = true
    · have hwhole : (rest.take MAX_OPS_PER_READ).takeWhile (oldEnough atWallMs) =
          rest.take MAX_OPS_PER_READ := List.takeWhile_eq_self_iff.2 (List.all_eq_true.1 hall)
      rw [hall, hwhole, hlast, List.takeWhile_append_of_pos (List.all_eq_true.1 hall),
        List.getLast?_append, hlast]
      simp only [Bool.not_true, Option.map_some, Option.some_or]
      by_cases hshort : (rest.take MAX_OPS_PER_READ).length < MAX_OPS_PER_READ
      · have hend : rest.drop MAX_OPS_PER_READ = [] := by
          rw [List.length_take] at hshort
          exact List.drop_eq_nil_of_le (by omega)
        rw [if_pos hshort, hend, List.take_nil]
        rfl
      · have hsplit : t.ofFile path = (pre ++ front ++ [last]) ++ rest.drop MAX_OPS_PER_READ := by
          rw [hlog, List.append_assoc pre, ← hpage, List.append_assoc, List.take_append_drop]
        obtain ⟨hbefore, hafter⟩ := Paging.bounds_of_up (hsplit ▸ t.sorted_ofFile path)
        rw [if_neg hshort, ih hsplit hbefore hafter]
        cases (((rest.drop MAX_OPS_PER_READ).take (pages * MAX_OPS_PER_READ)).takeWhile
          (oldEnough atWallMs)).getLast? <;> rfl
    · have hstop : (rest.take MAX_OPS_PER_READ).all (oldEnough atWallMs) = false :=
        Bool.eq_false_iff.2 hall
      rw [hstop, Paging.takeWhile_append_of_stop hstop]
      rfl

theorem newestAtWall_eq (t : OpTable) (path : FilePath) (atWallMs : Nat) :
    newestAtWall t path atWallMs = ((t.ofFile path).filter (oldEnough atWallMs)).getLast?.map (·.seq) :=
  Paging.max?_of_up ((t.sorted_ofFile path).sublist List.filter_sublist)

/-- A checkout by time ends at the newest op that is old enough exactly when no such op was logged after a
newer one. -/
theorem seqAtWall_eq_newestAtWall_iff
    (hcap : (t.ofFile path).length ≤ MAX_REPLAY_PAGES * MAX_OPS_PER_READ) :
    seqAtWall t path atWallMs = newestAtWall t path atWallMs ↔
      ∀ s ∈ t.ofFile path, ∀ later ∈ t.ofFile path, s.seq < later.seq →
        later.op.hlc.wallMs ≤ atWallMs → s.op.hlc.wallMs ≤ atWallMs := by
  have hscan : seqAtWall t path atWallMs =
      ((t.ofFile path).takeWhile (oldEnough atWallMs)).getLast?.map (·.seq) := by
    rw [seqAtWall, scanPages_eq (List.nil_append _).symm (List.forall_mem_nil _)
      (fun s hs => OpTable.seq_pos (OpTable.mem_ofFile.1 hs).1), List.take_of_length_le hcap, Option.or_none]
  rw [hscan, newestAtWall_eq, Paging.getLast?_takeWhile_iff (t.sorted_ofFile path)]
  simp only [oldEnough, decide_eq_true_iff]

/-- A log where a peer's op of an earlier time arrives after this device's own. -/
def lateArrival (path : FilePath) : OpTable where
  rows := [⟨⟨⟨1⟩, ⟨2000, 0, ⟨1⟩⟩, path, .blankInsert none⟩, 1⟩,
    ⟨⟨⟨2⟩, ⟨1000, 0, ⟨2⟩⟩, path, .blankInsert none⟩, 1⟩]
  unique := by simp [OpRow.id]
  numbered := by simp [OpRow.number]

theorem seqAtWall_late_arrival :
    seqAtWall (lateArrival ⟨"todo.txt".toList⟩) ⟨"todo.txt".toList⟩ 2000 =
      newestAtWall (lateArrival ⟨"todo.txt".toList⟩) ⟨"todo.txt".toList⟩ 2000 :=
  (seqAtWall_eq_newestAtWall_iff (by decide)).2 (by decide)

/-- The peer's op is old enough, and the checkout finds none. -/
theorem seqAtWall_misses :
    seqAtWall (lateArrival ⟨"todo.txt".toList⟩) ⟨"todo.txt".toList⟩ 1500 = none ∧
      newestAtWall (lateArrival ⟨"todo.txt".toList⟩) ⟨"todo.txt".toList⟩ 1500 = some 2 := by
  decide

end Checkout

/-! ## Pages of history -/

namespace HistoryRequest

variable {r : HistoryRequest} {t : OpTable} {ws : WorkspacePaths} {rows rows' : List Stored}

theorem mem_newestFirst {s : Stored} : s ∈ newestFirst rows ↔ s ∈ rows :=
  (List.mergeSort_perm _ _).mem_iff

/-- Rows of the log, each once, go down. -/
theorem down_newestFirst (hnodup : rows.Nodup) (hlog : ∀ s ∈ rows, s ∈ t.stored) :
    (newestFirst rows).Pairwise fun s s' => s'.seq < s.seq := by
  have hle : (newestFirst rows).Pairwise fun s s' => decide (s'.seq ≤ s.seq) = true :=
    List.pairwise_mergeSort (fun a b c hab hbc => by simp at hab hbc ⊢; omega)
      (fun a b => by simp; omega) rows
  have hne : (newestFirst rows).Pairwise (· ≠ ·) := (List.mergeSort_perm _ _).nodup_iff.2 hnodup
  refine (hle.and hne).imp_of_mem fun {s s'} hs hs' h => ?_
  refine lt_of_le_of_ne (of_decide_eq_true h.1) fun hseq => h.2 ?_
  exact (OpTable.eq_of_seq_eq (hlog s' (mem_newestFirst.1 hs')) (hlog s (mem_newestFirst.1 hs)) hseq).symm

/-- The order leaves no choice. -/
theorem newestFirst_eq {l : List Stored} (hnodup : rows.Nodup) (hlog : ∀ s ∈ rows, s ∈ t.stored)
    (hdown : l.Pairwise fun s s' => s'.seq < s.seq) (hmem : ∀ s, s ∈ rows ↔ s ∈ l) :
    newestFirst rows = l := by
  have hsorted : ∀ {l : List Stored}, l.Pairwise (fun s s' => s'.seq < s.seq) →
      KeySorted.Sorted (fun s : Stored => OrderDual.toDual s.seq) l := fun h => h
  refine (hsorted (down_newestFirst hnodup hlog)).eq_of_mem_iff (hsorted hdown) fun s => ?_
  rw [mem_newestFirst, hmem]

theorem nodup_paths (r : HistoryRequest) (ws : WorkspacePaths) : (r.paths ws).Nodup := by
  unfold paths
  cases r.path with
  | none => exact ws.nodup
  | some path => exact List.nodup_singleton path

/-- Reads of different documents share no row. -/
theorem nodup_flatMap_read {read : FilePath → List Stored} (hread : ∀ path, (read path).Nodup)
    (hfile : ∀ path, ∀ s ∈ read path, s ∈ t.ofFile path) : ((r.paths ws).flatMap read).Nodup := by
  refine List.nodup_flatMap.2 ⟨fun path _ => hread path, ?_⟩
  refine (r.nodup_paths ws).imp fun {path path'} hne => ?_
  intro s hs hs'
  refine hne ?_
  rw [← (OpTable.mem_ofFile.1 (hfile path s hs)).2, (OpTable.mem_ofFile.1 (hfile path' s hs')).2]

/-- The rows the reads of the newest ops show. -/
def visible (r : HistoryRequest) (t : OpTable) (ws : WorkspacePaths) : List Stored :=
  newestFirst (((r.paths ws).flatMap fun path => t.newest path MAX_OPS_PER_READ).filter r.passes)

theorem nodup_newest (t : OpTable) (path : FilePath) (limit : Nat) : (t.newest path limit).Nodup :=
  (List.nodup_reverse.2 (t.sorted_ofFile path).nodup).sublist (List.take_sublist _ _)

theorem ofFile_of_mem_newest {path : FilePath} {limit : Nat} {s : Stored} (h : s ∈ t.newest path limit) :
    s ∈ t.ofFile path :=
  List.mem_reverse.1 (List.mem_of_mem_take h)

theorem stored_of_mem_flatMap {read : FilePath → List Stored} {s : Stored}
    (hfile : ∀ path, ∀ s ∈ read path, s ∈ t.ofFile path) (h : s ∈ (r.paths ws).flatMap read) :
    s ∈ t.stored := by
  obtain ⟨path, -, hs⟩ := List.mem_flatMap.1 h
  exact (OpTable.mem_ofFile.1 (hfile path s hs)).1

theorem down_visible (r : HistoryRequest) (t : OpTable) (ws : WorkspacePaths) :
    (r.visible t ws).Pairwise fun s s' => s'.seq < s.seq := by
  refine down_newestFirst (t := t) ?_ ?_
  · exact (nodup_flatMap_read (fun path => nodup_newest t path _)
      fun path s hs => ofFile_of_mem_newest hs).filter _
  · intro s hs
    exact stored_of_mem_flatMap (fun path s hs => ofFile_of_mem_newest hs) (List.mem_of_mem_filter hs)

/-- An answer is cut from the visible rows below the number asked for. -/
theorem pageBelow_eq (r : HistoryRequest) (t : OpTable) (ws : WorkspacePaths) (beforeSeq : Int) :
    r.pageBelow t ws beforeSeq =
      ((r.visible t ws).filter fun s => beforeSeq = 0 ∨ (s.seq : Int) < beforeSeq).take r.pageSize := by
  have hfile : ∀ path, ∀ s ∈ (t.newest path MAX_OPS_PER_READ).filter
      (fun s => decide (beforeSeq = 0 ∨ (s.seq : Int) < beforeSeq)), s ∈ t.ofFile path :=
    fun path s hs => ofFile_of_mem_newest (List.mem_of_mem_filter hs)
  have hrows : newestFirst ((((r.paths ws).flatMap fun path => (t.newest path MAX_OPS_PER_READ).filter
      fun s => decide (beforeSeq = 0 ∨ (s.seq : Int) < beforeSeq))).filter r.passes) =
        (r.visible t ws).filter fun s => beforeSeq = 0 ∨ (s.seq : Int) < beforeSeq := by
    refine newestFirst_eq (t := t) ?_ ?_ ((r.down_visible t ws).filter _) fun s => ?_
    · exact (nodup_flatMap_read (fun path => (nodup_newest t path _).filter _) hfile).filter _
    · intro s hs
      exact stored_of_mem_flatMap hfile (List.mem_of_mem_filter hs)
    · rw [List.mem_filter, List.mem_filter, visible, mem_newestFirst, List.mem_filter]
      simp only [List.mem_flatMap, List.mem_filter]
      tauto
  exact congrArg (List.take r.pageSize) hrows

theorem pageSize_pos (r : HistoryRequest) : 0 < r.pageSize := by
  unfold pageSize
  split_ifs with h
  · decide
  · exact lt_min (Nat.pos_of_ne_zero h) (by decide)

/-- Asking page after page ends, with the visible rows listed. -/
theorem walk_visible (r : HistoryRequest) (t : OpTable) (ws : WorkspacePaths) :
    Paging.Walk (r.pageBelow t ws) (fun s => (s.seq : Int)) 0 (r.visible t ws) := by
  have hlog : ∀ s ∈ r.visible t ws, s ∈ t.stored := by
    intro s hs
    rw [visible, mem_newestFirst] at hs
    exact stored_of_mem_flatMap (fun path s hs => ofFile_of_mem_newest hs) (List.mem_of_mem_filter hs)
  refine Paging.walk_of_down [] (r.visible t ws) r.pageSize_pos ?_ ?_ (List.nil_append _).symm ?_
  · exact (r.down_visible t ws).imp fun h => Int.ofNat_lt.2 h
  · intro s hs
    have hpos := OpTable.seq_pos (hlog s hs)
    rw [pageBelow_eq]
    congr 1
    refine List.filter_congr fun s' _ => ?_
    rw [decide_eq_decide, or_iff_right (by omega)]
  · rw [pageBelow_eq, List.filter_eq_self.2 fun s _ => decide_eq_true (.inl rfl)]

/-- Asking page after page lists the whole history exactly when no op that passes has a full read of later
ops of its document over it. -/
theorem walk_wholeHistory_iff (r : HistoryRequest) (t : OpTable) (ws : WorkspacePaths) :
    Paging.Walk (r.pageBelow t ws) (fun s => (s.seq : Int)) 0 (r.wholeHistory t ws) ↔
      ∀ path ∈ r.paths ws, ∀ s ∈ t.ofFile path, r.passes s = true →
        ((t.ofFile path).filter fun later => s.seq < later.seq).length < MAX_OPS_PER_READ := by
  constructor
  · intro hwalk path hpath s hs hpass
    have hwhole : s ∈ r.wholeHistory t ws := by
      rw [wholeHistory, mem_newestFirst, List.mem_filter, List.mem_flatMap]
      exact ⟨⟨path, hpath, hs⟩, hpass⟩
    rw [hwalk.unique (r.walk_visible t ws), visible, mem_newestFirst, List.mem_filter,
      List.mem_flatMap] at hwhole
    obtain ⟨⟨path', -, hs'⟩, -⟩ := hwhole
    obtain rfl : path' = path := by
      rw [← (OpTable.mem_ofFile.1 hs).2, (OpTable.mem_ofFile.1 (ofFile_of_mem_newest hs')).2]
    rwa [OpTable.mem_newest hs, min_self] at hs'
  · intro hroom
    have heq : r.wholeHistory t ws = r.visible t ws := by
      refine newestFirst_eq (t := t) ?_ ?_ (r.down_visible t ws) fun s => ?_
      · exact (nodup_flatMap_read (fun path => (t.sorted_ofFile path).nodup) fun _ _ h => h).filter _
      · intro s hs
        exact stored_of_mem_flatMap (fun _ _ h => h) (List.mem_of_mem_filter hs)
      · rw [visible, mem_newestFirst]
        simp only [List.mem_filter, List.mem_flatMap]
        constructor
        · rintro ⟨⟨path, hpath, hs⟩, hpass⟩
          refine ⟨⟨path, hpath, (OpTable.mem_newest hs).2 ?_⟩, hpass⟩
          rw [min_self]
          exact hroom path hpath s hs hpass
        · rintro ⟨⟨path, hpath, hs⟩, hpass⟩
          exact ⟨⟨path, hpath, ofFile_of_mem_newest hs⟩, hpass⟩
    rw [heq]
    exact r.walk_visible t ws

/-- A document's log of `n` ops of one device. -/
def longLog (path : FilePath) (n : Nat) : OpTable where
  rows := (List.range n).map fun i => ⟨⟨⟨i⟩, ⟨i, 0, ⟨1⟩⟩, path, .blankInsert none⟩, i + 1⟩
  unique := by
    rw [List.map_map]
    exact List.nodup_range.map fun i j h => congrArg OpId.ulid h
  numbered := by
    rw [List.map_map]
    exact List.nodup_range.map fun i j h => Nat.succ.inj (Prod.mk.inj h).2

theorem length_ofFile_longLog (path : FilePath) (n : Nat) : ((longLog path n).ofFile path).length = n := by
  have hfile : ∀ s ∈ (longLog path n).stored, decide (s.op.file = path) = true := by
    intro s hs
    rw [OpTable.stored, List.mem_mapIdx] at hs
    obtain ⟨i, hi, rfl⟩ := hs
    simp [OpTable.ops, longLog]
  rw [OpTable.ofFile, List.filter_eq_self.2 hfile, OpTable.stored, List.length_mapIdx, OpTable.ops,
    List.length_map, longLog, List.length_map, List.length_range]

/-- The first op of a log one op longer than a read is on no page. -/
theorem walk_misses_the_oldest :
    ¬Paging.Walk
      ((⟨none, none, 0, 0⟩ : HistoryRequest).pageBelow
        (longLog ⟨"todo.txt".toList⟩ (MAX_OPS_PER_READ + 1)) ⟨[⟨"todo.txt".toList⟩], List.nodup_singleton _⟩)
      (fun s => (s.seq : Int)) 0
      ((⟨none, none, 0, 0⟩ : HistoryRequest).wholeHistory
        (longLog ⟨"todo.txt".toList⟩ (MAX_OPS_PER_READ + 1)) ⟨[⟨"todo.txt".toList⟩], List.nodup_singleton _⟩) := by
  intro hwalk
  have hlength := congrArg List.length (hwalk.unique (walk_visible _ _ _))
  have hall : ∀ l : List Stored, l.filter (⟨none, none, 0, 0⟩ : HistoryRequest).passes = l :=
    fun l => List.filter_eq_self.2 fun _ _ => rfl
  rw [wholeHistory, visible, newestFirst, newestFirst, List.length_mergeSort, List.length_mergeSort,
    hall, hall, paths, List.flatMap_singleton, List.flatMap_singleton, length_ofFile_longLog,
    OpTable.newest, List.length_take] at hlength
  omega

end HistoryRequest

end Txtodo
