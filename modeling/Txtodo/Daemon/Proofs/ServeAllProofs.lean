import Txtodo.Daemon.Proofs.ServeWindowProofs

/-!
# The merge serves every owed op once

A batch holds the ops its ranges name, and the ranges start the owed runs. What a batch leaves of each is owed to
the next one, so the batches until nothing is owed hold every op once.
-/

namespace Txtodo

variable {log : OpLog} {head : DeviceId → Nat} {window : UInt64} {owed ranges : List OriginRange} {m m' : Merge}
  {device : DeviceId} {o r : OriginRange} {run : Run}

/-- How many ops of `device` the ranges name. -/
def heldOf (ranges : List OriginRange) (device : DeviceId) : Nat :=
  ((ranges.filter (·.device = device)).map OriginRange.width).sum

theorem heldOf_append (ranges ranges' : List OriginRange) (device : DeviceId) :
    heldOf (ranges ++ ranges') device = heldOf ranges device + heldOf ranges' device := by
  rw [heldOf, List.filter_append, List.map_append, List.sum_append]
  rfl

theorem heldOf_eq_zero (h : ∀ r ∈ ranges, r.device ≠ device) : heldOf ranges device = 0 := by
  have hnone : ranges.filter (·.device = device) = [] :=
    List.filter_eq_nil_iff.2 fun q hq hqd => h q hq (of_decide_eq_true hqd)
  rw [heldOf, hnone]
  rfl

theorem heldOf_singleton (r : OriginRange) : heldOf [r] device = if r.device = device then r.width else 0 := by
  by_cases h : r.device = device <;> simp [heldOf, h]

/-- No op of `ops` is later than one behind it. -/
def Ascending (ops : List Op) : Prop := ops.Pairwise fun a b => a.hlc ≤ b.hlc

/-- In HLC order, no op of a run's rest is earlier than its first. -/
theorem Ascending.head_le {x : Op} {l : List Op} (h : Ascending l) (hx : l.head? = some x) :
    ∀ op ∈ l, x.hlc ≤ op.hlc := by
  obtain ⟨rest, rfl⟩ := List.head?_eq_some_iff.1 hx
  obtain ⟨hfirst, -⟩ := List.pairwise_cons.1 h
  exact List.forall_mem_cons.2 ⟨le_rfl, hfirst⟩

namespace Merge

/-- A batch being merged: its ops are those its ranges name, and each run goes on behind its range. -/
structure Merging (log : OpLog) (owed : List OriginRange) (m : Merge) : Prop extends m.Counted owed where
  runs : m.runs.map (·.range) = owed
  reads : ∀ run ∈ m.runs, run.Reads log (heldOf m.ranges run.range.device)
  within : ∀ r ∈ m.ranges, ∀ o ∈ owed, o.device = r.device → r.last.toNat ≤ o.last.toNat
  ops : m.ops = m.ranges.flatMap log.opsIn

theorem Merging.new (hin : ∀ o ∈ owed, o.Inside head) : (new owed).Merging log owed where
  toCounted := .new owed
  runs := runs_new owed
  reads := by
    intro run hrun
    obtain ⟨o, ho, rfl⟩ := List.mem_map.1 hrun
    exact .new o (hin o ho)
  within := fun _ h => absurd h List.not_mem_nil
  ops := rfl

/-- The next op of a run and the ranges once the batch holds it. -/
theorem Merging.extended (h : m.Merging log owed) (hdense : log.Dense head)
    (howed : (owed.map OriginRange.device).Nodup) (hin : ∀ o ∈ owed, o.Inside head) (ho : o ∈ owed)
    (hmore : o.first.toNat + heldOf m.ranges o.device ≤ o.last.toNat) {ranges' : List OriginRange}
    (hextend : extend m.ranges o.device (o.first + (rangesLen m.ranges o.device).value) = some ranges') :
    (∀ d, heldOf ranges' d = heldOf m.ranges d + if o.device = d then 1 else 0) ∧
      (∀ r ∈ ranges', ∀ q ∈ owed, q.device = r.device → r.last.toNat ≤ q.last.toNat) ∧
      ranges'.flatMap log.opsIn = m.ranges.flatMap log.opsIn ++
        log.between o.device (o.first.toNat + heldOf m.ranges o.device)
          (o.first.toNat + heldOf m.ranges o.device + 1) := by
  obtain ⟨hpositive, hforwards, hheld⟩ := hin o ho
  have hword := hdense.head_lt o.device
  have hsame : ∀ q ∈ owed, q.device = o.device → q = o := fun q hq hqd => List.inj_on_of_nodup_map howed hq ho hqd
  rcases h.toCounted.extended howed ho (by omega) hextend with
    ⟨before, r, seq, hbefore, hothers, hdevice, hfirst, hseq, rfl⟩ | ⟨hnew, rfl⟩
  · -- the last range goes on by one number
    have hle := UInt64.le_iff_toNat_le.1 (h.forwards r (hbefore ▸ List.mem_append_right _ List.mem_cons_self))
    have hheldOf : heldOf m.ranges o.device = r.last.toNat + 1 - o.first.toNat := by
      rw [hbefore, heldOf_append, heldOf_eq_zero hothers, heldOf_singleton, if_pos hdevice, Nat.zero_add,
        OriginRange.width, hfirst]
    have hwidth : OriginRange.width { r with last := seq } = r.width + 1 := by
      show seq.toNat + 1 - r.first.toNat = r.last.toNat + 1 - r.first.toNat + 1
      omega
    rw [hfirst] at hle
    have hnext : o.first.toNat + heldOf m.ranges o.device = r.last.toNat + 1 := by omega
    refine ⟨fun d => ?_, fun q hq q' hq' hqd => ?_, ?_⟩
    · rw [hbefore, heldOf_append, heldOf_append, heldOf_singleton, heldOf_singleton, hwidth, hdevice]
      by_cases hd : o.device = d
      · rw [if_pos hd, if_pos hd, if_pos hd, Nat.add_assoc]
      · rw [if_neg hd, if_neg hd, if_neg hd]
    · rcases List.mem_append.1 hq with hq | hq
      · exact h.within q (hbefore ▸ List.mem_append_left _ hq) q' hq' hqd
      · obtain rfl := List.mem_singleton.1 hq
        rw [hsame q' hq' (hqd.trans hdevice)]
        show seq.toNat ≤ o.last.toNat
        omega
    · have hgrown : log.opsIn { r with last := seq } =
          log.opsIn r ++ log.between o.device (r.last.toNat + 1) (r.last.toNat + 1 + 1) := by
        rw [hdense.opsIn_eq, hdense.opsIn_eq]
        show log.between r.device r.first.toNat (seq.toNat + 1) = _
        rw [hseq, hdevice, OpLog.between_append (by rw [hfirst]; omega) (Nat.le_succ _)]
      rw [hnext, hbefore, List.flatMap_append, List.flatMap_append, List.flatMap_singleton, List.flatMap_singleton,
        hgrown, List.append_assoc]
  · -- a new range of one number
    have hzero : heldOf m.ranges o.device = 0 := heldOf_eq_zero hnew
    have hwidth : OriginRange.width ⟨o.device, o.first, o.first⟩ = 1 := by
      show o.first.toNat + 1 - o.first.toNat = 1
      omega
    refine ⟨fun d => ?_, fun q hq q' hq' hqd => ?_, ?_⟩
    · rw [heldOf_append, heldOf_singleton, hwidth]
    · rcases List.mem_append.1 hq with hq | hq
      · exact h.within q hq q' hq' hqd
      · obtain rfl := List.mem_singleton.1 hq
        rw [hsame q' hq' hqd]
        exact hforwards
    · rw [hzero, Nat.add_zero, List.flatMap_append, List.flatMap_singleton, hdense.opsIn_eq]

/-- Which run the next op is taken from, and the runs behind it. -/
theorem Merging.taken (h : m.Merging log owed) (hdense : log.Dense head) (hin : ∀ o ∈ owed, o.Inside head)
    (hpos : 0 < window.toNat) (hwindow : window.toNat ≤ MAX_OPS_PER_READ) :
    ∃ runs, (readFronts window log m.runs).value = .ok runs ∧ runs.map (·.range) = owed ∧
      ∀ run ∈ runs, run.range ∈ owed ∧ run.Reads log (heldOf m.ranges run.range.device) ∧
        (run.range.first.toNat + heldOf m.ranges run.range.device ≤ run.range.last.toNat → run.buf ≠ []) := by
  have hin' : ∀ run ∈ m.runs, run.range.Inside head := fun run hrun =>
    hin _ (h.runs ▸ List.mem_map_of_mem (f := fun run : Run => run.range) hrun)
  obtain ⟨runs, hread, hranges, hall⟩ :=
    readFronts_reads (t := fun r => heldOf m.ranges r.device) hdense hpos hwindow hin' h.reads
  rw [h.runs] at hranges
  exact ⟨runs, hread, hranges, fun run hrun =>
    ⟨hranges ▸ List.mem_map_of_mem (f := fun run : Run => run.range) hrun, hall run hrun⟩⟩

/-- A turn keeps the batch what its ranges name. -/
theorem Merging.step (h : m.Merging log owed) (hdense : log.Dense head)
    (howed : (owed.map OriginRange.device).Nodup) (hin : ∀ o ∈ owed, o.Inside head) (hpos : 0 < window.toNat)
    (hwindow : window.toNat ≤ MAX_OPS_PER_READ) (hstep : (Merge.step window log m).value = .inl m') :
    m'.Merging log owed := by
  obtain ⟨hlength, -⟩ := length_ops_of_step hstep
  obtain ⟨runs, i, run, ranges', hroom, hread, hlowest, hextend, rfl⟩ := step_go hstep
  obtain ⟨hi, hbuf⟩ := lowest_some hlowest
  obtain ⟨runs', hread', hranges, hall⟩ := h.taken hdense hin hpos hwindow
  obtain rfl := Except.ok.inj (hread.symm.trans hread')
  obtain ⟨ho, hreads, -⟩ := hall run (List.mem_of_getElem? hi)
  obtain ⟨hmore, htake⟩ := hreads.front hdense (hin _ ho) hbuf
  obtain ⟨hheldOf, hwithin, hops⟩ := h.extended hdense howed hin ho hmore hextend
  have hsigned : run.range.first.toNat < 2 ^ 63 := by
    have hword := hdense.head_lt run.range.device
    have hinside := hin _ ho
    exact lt_of_le_of_lt (hinside.forwards.trans hinside.held) hword
  obtain ⟨-, -, hextended⟩ := h.toCounted.next_op howed ho hsigned hroom
  obtain ⟨hdevices, hforwards, hstarts, hcount⟩ := hextended ranges' hextend
  refine ⟨⟨hdevices, hforwards, hstarts, hcount.trans hlength.symm, hlength ▸ hroom⟩, ?_, ?_, hwithin, ?_⟩
  · have hget : owed[i]? = some run.range := by rw [← hranges, List.getElem?_map, hi]; rfl
    obtain ⟨hlt, hrange⟩ := List.getElem?_eq_some_iff.1 hget
    rw [List.map_set, hranges]
    show owed.set i run.range = owed
    rw [← hrange, List.set_getElem_self]
  · intro run' hrun'
    obtain ⟨j, hj⟩ := List.mem_iff_getElem?.1 hrun'
    have hlt : i < runs.length := (List.getElem?_eq_some_iff.1 hi).1
    show run'.Reads log (heldOf ranges' run'.range.device)
    rw [hheldOf]
    by_cases hij : i = j
    · subst hij
      rw [List.getElem?_set_self hlt, Option.some_inj] at hj
      subst hj
      show Run.Reads log (_ + if run.range.device = run.range.device then 1 else 0) _
      rw [if_pos rfl]
      exact hreads.tail (hin _ ho) hbuf
    · rw [List.getElem?_set_ne hij] at hj
      -- no two owed runs are of one device
      have hne : run.range.device ≠ run'.range.device := by
        intro heq
        have hnodup : (runs.map fun run => run.range.device).Nodup := by
          rw [← hranges, List.map_map] at howed
          exact howed
        refine hij ((List.getElem?_inj (by rwa [List.length_map]) hnodup).1 ?_)
        rw [List.getElem?_map, List.getElem?_map, hi, hj, Option.map_some, Option.map_some, heq]
      rw [if_neg hne, Nat.add_zero]
      exact (hall run' (List.mem_of_getElem? hj)).2.1
  · show m.ops ++ run.buf.take 1 = ranges'.flatMap log.opsIn
    rw [hops, h.ops, htake]

/-! ## The order of a batch -/

/-- The batch is in HLC order, and none of its ops is later than one still owed. -/
structure InOrder (log : OpLog) (owed : List OriginRange) (m : Merge) : Prop where
  ops : Ascending m.ops
  rest : ∀ op ∈ m.ops, ∀ o ∈ owed, ∀ op' ∈
    log.between o.device (o.first.toNat + heldOf m.ranges o.device) (o.last.toNat + 1), op.hlc ≤ op'.hlc

theorem InOrder.new (log : OpLog) (owed : List OriginRange) : InOrder log owed (new owed) :=
  ⟨List.Pairwise.nil, fun _ h => absurd h List.not_mem_nil⟩

/-- The lowest front op is no later than any op still owed, so the batch stays in order. -/
theorem InOrder.step (horder : InOrder log owed m) (h : m.Merging log owed) (hdense : log.Dense head)
    (howed : (owed.map OriginRange.device).Nodup) (hin : ∀ o ∈ owed, o.Inside head) (hpos : 0 < window.toNat)
    (hwindow : window.toNat ≤ MAX_OPS_PER_READ) (hsorted : ∀ o ∈ owed, Ascending (log.opsIn o))
    (hstep : (Merge.step window log m).value = .inl m') : InOrder log owed m' := by
  obtain ⟨runs, i, run, ranges', hroom, hread, hlowest, hextend, rfl⟩ := step_go hstep
  obtain ⟨hi, hbuf⟩ := lowest_some hlowest
  obtain ⟨x, hx, hleast⟩ := lowest_least hlowest
  obtain ⟨runs', hread', hranges, hall⟩ := h.taken hdense hin hpos hwindow
  obtain rfl := Except.ok.inj (hread.symm.trans hread')
  obtain ⟨ho, hreads, -⟩ := hall run (List.mem_of_getElem? hi)
  obtain ⟨hmore, htake⟩ := hreads.front hdense (hin _ ho) hbuf
  obtain ⟨hheldOf, -, -⟩ := h.extended hdense howed hin ho hmore hextend
  have htake' : run.buf.take 1 = [x] := by
    obtain ⟨rest, hrest⟩ := List.head?_eq_some_iff.1 hx
    rw [hrest]
    rfl
  have hrest : ∀ q ∈ owed, Ascending (log.between q.device (q.first.toNat + heldOf m.ranges q.device)
      (q.last.toNat + 1)) := by
    intro q hq
    have hsplit : log.opsIn q = log.between q.device q.first.toNat (q.first.toNat + heldOf m.ranges q.device) ++
        log.between q.device (q.first.toNat + heldOf m.ranges q.device) (q.last.toNat + 1) ∨
        log.between q.device (q.first.toNat + heldOf m.ranges q.device) (q.last.toNat + 1) = [] := by
      by_cases hle : q.first.toNat + heldOf m.ranges q.device ≤ q.last.toNat + 1
      · exact .inl (by rw [hdense.opsIn_eq, OpLog.between_append (Nat.le_add_right _ _) hle])
      · exact .inr (OpLog.between_eq_nil (by omega))
    rcases hsplit with hsplit | hnil
    · have hwhole := hsorted q hq
      rw [hsplit] at hwhole
      exact (List.pairwise_append.1 hwhole).2.1
    · rw [hnil]
      exact List.Pairwise.nil
  -- the front op of each run is the first of its rest
  have hxleast : ∀ q ∈ owed, ∀ op' ∈
      log.between q.device (q.first.toNat + heldOf m.ranges q.device) (q.last.toNat + 1), x.hlc ≤ op'.hlc := by
    intro q hq op' hop'
    rw [← hranges] at hq
    obtain ⟨run', hrun', rfl⟩ := List.mem_map.1 hq
    obtain ⟨hq', hreads', hnonempty⟩ := hall run' hrun'
    have hleft : run'.range.first.toNat + heldOf m.ranges run'.range.device ≤ run'.range.last.toNat := by
      by_contra hnone
      rw [OpLog.between_eq_nil (by omega)] at hop'
      exact absurd hop' List.not_mem_nil
    obtain ⟨y, rest, hy⟩ := List.exists_cons_of_ne_nil (hnonempty hleft)
    have hy' : run'.buf.head? = some y := by rw [hy]; rfl
    have hhead : (log.between run'.range.device (run'.range.first.toNat + heldOf m.ranges run'.range.device)
        (run'.range.last.toNat + 1)).head? = some y := by
      rw [← hreads'.rest, hy]
      rfl
    exact (hleast run' hrun' y hy').trans ((hrest _ hq').head_le hhead op' hop')
  refine ⟨?_, fun op hop q hq op' hop' => ?_⟩
  · show Ascending (m.ops ++ run.buf.take 1)
    rw [htake']
    refine List.pairwise_append.2 ⟨horder.ops, List.pairwise_singleton _ _, fun op hop y hy => ?_⟩
    rw [List.mem_singleton] at hy
    subst hy
    refine horder.rest op hop run.range ho y ?_
    rw [← hreads.rest]
    exact List.mem_append_left _ (List.mem_of_mem_head? hx)
  · change op ∈ m.ops ++ run.buf.take 1 at hop
    change op' ∈ log.between q.device (q.first.toNat + heldOf ranges' q.device) (q.last.toNat + 1) at hop'
    have hop'' : op' ∈ log.between q.device (q.first.toNat + heldOf m.ranges q.device) (q.last.toNat + 1) := by
      rw [hheldOf] at hop'
      by_cases hq' : run.range.device = q.device
      · rw [if_pos hq', ← Nat.add_assoc, ← OpLog.tail_between (by have := (hin q hq).positive; omega)] at hop'
        exact List.mem_of_mem_tail hop'
      · rwa [if_neg hq', Nat.add_zero] at hop'
    rw [htake', List.mem_append, List.mem_singleton] at hop
    rcases hop with hop | rfl
    · exact horder.rest op hop q hq op' hop''
    · exact hxleast q hq op' hop''

end Merge

/-! ## One batch -/

/-- A batch for owed runs: its ops are those its ranges name, each range starts an owed run, no origin comes twice,
and it holds an op while anything is owed. -/
structure MergedBatch (log : OpLog) (owed : List OriginRange) (ops : List Op) (ranges : List OriginRange) : Prop where
  holds : ops = ranges.flatMap log.opsIn
  devices : (ranges.map OriginRange.device).Nodup
  forwards : ∀ r ∈ ranges, r.first ≤ r.last
  starts : ∀ r ∈ ranges, ∃ o ∈ owed, o.device = r.device ∧ o.first = r.first ∧ r.last ≤ o.last
  count : (ranges.map OriginRange.width).sum = ops.length
  nonempty : owed ≠ [] → ops ≠ []
  room : ops.length ≤ MAX_OPS_PER_BATCH
  ascending : (∀ o ∈ owed, Ascending (log.opsIn o)) → Ascending ops

theorem Merge.Merging.batch (h : m.Merging log owed) (hnonempty : owed ≠ [] → m.ops ≠ [])
    (horder : (∀ o ∈ owed, Ascending (log.opsIn o)) → Merge.InOrder log owed m) :
    MergedBatch log owed m.ops m.ranges where
  holds := h.ops
  devices := h.devices
  forwards := h.forwards
  starts := by
    intro r hr
    obtain ⟨o, ho, hdevice, hfirst⟩ := h.starts r hr
    exact ⟨o, ho, hdevice, hfirst, UInt64.le_iff_toNat_le.2 (h.within r hr o ho hdevice)⟩
  count := h.count
  nonempty := hnonempty
  room := h.room
  ascending := fun hsorted => (horder hsorted).ops

/-- A turn that stops leaves the batch as it is, and stops at once only when nothing is owed. -/
theorem Merge.Merging.stop (h : m.Merging log owed) (hdense : log.Dense head) (hin : ∀ o ∈ owed, o.Inside head)
    (hpos : 0 < window.toNat) (hwindow : window.toNat ≤ MAX_OPS_PER_READ)
    {result : Except StoreError (List Op × List OriginRange)}
    (hstep : (Merge.step window log m).value = .inr result) :
    result = .ok (m.ops, m.ranges) ∧ (owed ≠ [] → m.ops ≠ []) := by
  have hmax : MAX_OPS_PER_BATCH = 1000 := rfl
  obtain ⟨runs, hread, hranges, hall⟩ := h.taken hdense hin hpos hwindow
  rcases Merge.step_stop hstep with ⟨hfull, hresult⟩ | ⟨e, herror⟩ | ⟨runs', hread', hresult, hend⟩
  · refine ⟨hresult, fun _ hnil => ?_⟩
    rw [hnil, List.length_nil] at hfull
    omega
  · rw [hread] at herror
    cases herror
  · obtain rfl := Except.ok.inj (hread.symm.trans hread')
    refine ⟨hresult, fun howed hnil => ?_⟩
    -- with no op there is no range, so nothing can come back and every run is read out
    have hnone : m.ranges = [] := by
      have hcount := h.count
      rw [hnil, List.length_nil] at hcount
      by_contra hne
      obtain ⟨r, rest, hr⟩ := List.exists_cons_of_ne_nil hne
      have hwidth := OriginRange.width_pos (h.forwards r (hr ▸ List.mem_cons_self))
      rw [hr, List.map_cons, List.sum_cons] at hcount
      omega
    rcases hend with hend | ⟨i, run, -, hextend⟩
    · obtain ⟨o, rest, ho⟩ := List.exists_cons_of_ne_nil howed
      have ho' : o ∈ runs.map (·.range) := hranges ▸ ho ▸ List.mem_cons_self
      obtain ⟨run, hrun, rfl⟩ := List.mem_map.1 ho'
      obtain ⟨hmem, -, hmore⟩ := hall run hrun
      refine hmore ?_ (lowest_none hend run hrun)
      rw [hnone]
      exact (hin _ hmem).forwards
    · rw [hnone] at hextend
      cases hextend

/-- The merge builds a batch for every runs inside the heads. -/
theorem mergeBy_batch (hdense : log.Dense head) (howed : (owed.map OriginRange.device).Nodup)
    (hin : ∀ o ∈ owed, o.Inside head) (hpos : 0 < window.toNat) (hwindow : window.toNat ≤ MAX_OPS_PER_READ) :
    ∃ ops ranges fits, mergeBy window log owed = some ⟨.ok (ops, ranges), fits⟩ ∧ MergedBatch log owed ops ranges := by
  obtain ⟨batch, hbatch⟩ := mergeBy_ends window log owed
  have hspec : ∃ ops ranges, batch.value = .ok (ops, ranges) ∧ MergedBatch log owed ops ranges := by
    refine Loop.result_of_invariant
      (P := fun m : Checked Merge => m.value.Merging log owed ∧
        ((∀ o ∈ owed, Ascending (log.opsIn o)) → m.value.InOrder log owed))
      (Q := fun batch => ∃ ops ranges, batch.value = .ok (ops, ranges) ∧ MergedBatch log owed ops ranges)
      ?_ ?_ ⟨.new hin, fun _ => .new log owed⟩ hbatch
    · rintro m m' ⟨hm, horder⟩ hturn
      obtain ⟨hstep, -⟩ := Merge.turn_go hturn
      exact ⟨hm.step hdense howed hin hpos hwindow hstep, fun hsorted =>
        (horder hsorted).step hm hdense howed hin hpos hwindow hsorted hstep⟩
    · rintro m batch ⟨hm, horder⟩ hturn
      obtain ⟨hvalue, hnonempty⟩ := hm.stop hdense hin hpos hwindow (Merge.turn_stop hturn).2
      exact ⟨m.value.ops, m.value.ranges, hvalue, hm.batch hnonempty horder⟩
  obtain ⟨ops, ranges, hvalue, hspec⟩ := hspec
  exact ⟨ops, ranges, batch.fits, by rw [hbatch, ← hvalue], hspec⟩

/-! ## What a batch leaves -/

theorem trimmed_of_ne (h : ∀ c ∈ ranges, c.device ≠ o.device) : trimmed ranges o = o := by
  induction ranges with
  | nil => rfl
  | cons c ranges ih =>
    obtain ⟨hc, hrest⟩ := List.forall_mem_cons.1 h
    have hkeep : (consumeRun c o).value = o := by
      rw [consumeRun, if_neg fun hboth => hc hboth.1.symm]
      rfl
    rw [trimmed, List.foldl_cons, hkeep]
    exact ih hrest

/-- A run whose start is covered goes on behind what covers it. -/
theorem trimmed_of_mem (hnodup : (ranges.map OriginRange.device).Nodup) (hr : r ∈ ranges)
    (hdevice : r.device = o.device) (hle : o.first ≤ r.last) :
    trimmed ranges o = { o with first := r.last + 1 } := by
  induction ranges generalizing o with
  | nil => exact absurd hr List.not_mem_nil
  | cons c ranges ih =>
    rw [List.map_cons, List.nodup_cons] at hnodup
    rw [trimmed, List.foldl_cons]
    rcases List.mem_cons.1 hr with rfl | hr
    · have hcut : (consumeRun r o).value = { o with first := r.last + 1 } := by
        rw [consumeRun, if_pos ⟨hdevice.symm, hle⟩]
        rfl
      rw [hcut]
      refine trimmed_of_ne fun c hc hcd => hnodup.1 ?_
      have hcd' : c.device = r.device := hcd.trans hdevice.symm
      exact hcd' ▸ List.mem_map_of_mem hc
    · have hne : o.device ≠ c.device := fun heq =>
        hnodup.1 (heq ▸ hdevice ▸ List.mem_map_of_mem (f := OriginRange.device) hr)
      have hkeep : (consumeRun c o).value = o := by
        rw [consumeRun, if_neg fun hboth => hne hboth.1]
        rfl
      rw [hkeep]
      exact ih hnodup.2 hr hdevice hle

/-- A device has one run or none. -/
theorem filter_device {runs : List OriginRange} (h : (runs.map OriginRange.device).Nodup) (device : DeviceId) :
    ((∀ r ∈ runs, r.device ≠ device) ∧ runs.filter (·.device = device) = []) ∨
      ∃ r ∈ runs, r.device = device ∧ runs.filter (·.device = device) = [r] := by
  induction runs with
  | nil => exact .inl ⟨List.forall_mem_nil _, rfl⟩
  | cons r runs ih =>
    rw [List.map_cons, List.nodup_cons] at h
    by_cases hr : r.device = device
    · have hothers : runs.filter (·.device = device) = [] :=
        List.filter_eq_nil_iff.2 fun q hq hqd =>
          h.1 (hr.trans (of_decide_eq_true hqd).symm ▸ List.mem_map_of_mem (f := OriginRange.device) hq)
      exact .inr ⟨r, List.mem_cons_self, hr, by rw [List.filter_cons_of_pos (by simpa using hr), hothers]⟩
    · rw [List.filter_cons_of_neg (by simpa using hr)]
      rcases ih h.2 with ⟨hne, hnone⟩ | ⟨q, hq, hqd, hone⟩
      · exact .inl ⟨List.forall_mem_cons.2 ⟨hr, hne⟩, hnone⟩
      · exact .inr ⟨q, List.mem_cons_of_mem _ hq, hqd, hone⟩

variable {ops : List Op}

/-- The runs a batch leaves are still inside the heads, one of each device. -/
theorem MergedBatch.rest (h : MergedBatch log owed ops ranges) (hdense : log.Dense head)
    (howed : (owed.map OriginRange.device).Nodup) (hin : ∀ o ∈ owed, o.Inside head) :
    ((consume owed ranges).value.map OriginRange.device).Nodup ∧ ∀ o ∈ (consume owed ranges).value, o.Inside head ∧
      ∃ q ∈ owed, q.device = o.device ∧ q.first.toNat ≤ o.first.toNat ∧ q.last = o.last := by
  rw [value_consume]
  constructor
  · have hdevices : (owed.map (trimmed ranges)).map OriginRange.device = owed.map OriginRange.device := by
      rw [List.map_map]
      exact List.map_congr_left fun o _ => trimmed_device
    exact (hdevices ▸ howed).sublist (List.filter_sublist.map _)
  · intro o' ho'
    obtain ⟨hmem, hle⟩ := List.mem_filter.1 ho'
    obtain ⟨o, ho, rfl⟩ := List.mem_map.1 hmem
    obtain ⟨hpositive, hforwards, hheld⟩ := hin o ho
    have hword := hdense.head_lt o.device
    rw [decide_eq_true_eq] at hle
    rcases filter_device h.devices o.device with ⟨hne, -⟩ | ⟨r, hr, hdevice, -⟩
    · rw [trimmed_of_ne hne]
      exact ⟨hin o ho, o, ho, rfl, le_rfl, rfl⟩
    · obtain ⟨q, hq, hqdevice, hfirst, hlast⟩ := h.starts r hr
      obtain rfl := List.inj_on_of_nodup_map howed hq ho (hqdevice.trans hdevice)
      have hforward := UInt64.le_iff_toNat_le.1 (h.forwards r hr)
      have hlast' := UInt64.le_iff_toNat_le.1 hlast
      have hsucc : (r.last + 1).toNat = r.last.toNat + 1 := UInt64.toNat_succ (UInt64.ne_MAX.2 (by omega))
      have hcut := trimmed_of_mem h.devices hr hdevice (hfirst ▸ h.forwards r hr)
      rw [hcut] at hle ⊢
      have hle' := UInt64.le_iff_toNat_le.1 hle
      have hstart : q.first.toNat = r.first.toNat := by rw [hfirst]
      refine ⟨⟨?_, hle', hheld⟩, q, ho, rfl, ?_, rfl⟩
      · show 1 ≤ (r.last + 1).toNat
        omega
      · show q.first.toNat ≤ (r.last + 1).toNat
        omega

/-- A device's ops in a batch and in the runs it leaves are those owed, in their order. -/
theorem MergedBatch.covers (h : MergedBatch log owed ops ranges) (hdense : log.Dense head)
    (howed : (owed.map OriginRange.device).Nodup) (hin : ∀ o ∈ owed, o.Inside head) (device : DeviceId) :
    (ranges.filter (·.device = device)).flatMap log.opsIn ++
        ((consume owed ranges).value.filter (·.device = device)).flatMap log.opsIn =
      (owed.filter (·.device = device)).flatMap log.opsIn := by
  have hcommute : ((owed.map (trimmed ranges)).filter fun w => w.first ≤ w.last).filter (·.device = device) =
      ((owed.filter (·.device = device)).map (trimmed ranges)).filter fun w => w.first ≤ w.last := by
    have hdevice : ((fun r : OriginRange => decide (r.device = device)) ∘ trimmed ranges) =
        fun r => decide (r.device = device) := by
      funext r
      simp
    rw [List.filter_comm, List.filter_map, hdevice]
  rw [value_consume, hcommute]
  rcases filter_device howed device with ⟨hne, hnone⟩ | ⟨o, ho, rfl, hone⟩
  · have hranges : ranges.filter (·.device = device) = [] := List.filter_eq_nil_iff.2 fun r hr hrd => by
      obtain ⟨q, hq, hqdevice, -⟩ := h.starts r hr
      exact hne q hq (hqdevice.trans (of_decide_eq_true hrd))
    rw [hnone, hranges]
    rfl
  · obtain ⟨hpositive, hforwards, hheld⟩ := hin o ho
    have hword := hdense.head_lt o.device
    rw [hone, List.map_singleton]
    rcases filter_device h.devices o.device with ⟨hne, hnone⟩ | ⟨r, hr, hdevice, hone'⟩
    · rw [trimmed_of_ne hne, hnone, List.filter_cons_of_pos (by simpa using UInt64.le_iff_toNat_le.2 hforwards)]
      rfl
    · obtain ⟨q, hq, hqdevice, hfirst, hlast⟩ := h.starts r hr
      obtain rfl := List.inj_on_of_nodup_map howed hq ho (hqdevice.trans hdevice)
      have hforward := UInt64.le_iff_toNat_le.1 (h.forwards r hr)
      have hlast' := UInt64.le_iff_toNat_le.1 hlast
      have hsucc : (r.last + 1).toNat = r.last.toNat + 1 := UInt64.toNat_succ (UInt64.ne_MAX.2 (by omega))
      rw [trimmed_of_mem h.devices hr hdevice (hfirst ▸ h.forwards r hr), hone']
      by_cases hmore : r.last + 1 ≤ q.last
      · have hmore' := UInt64.le_iff_toNat_le.1 hmore
        rw [List.filter_cons_of_pos (by simpa using hmore)]
        show log.opsIn r ++ [] ++ (log.opsIn _ ++ []) = log.opsIn q ++ []
        rw [List.append_nil, List.append_nil, List.append_nil, hdense.opsIn_eq, hdense.opsIn_eq, hdense.opsIn_eq]
        show log.between r.device r.first.toNat (r.last.toNat + 1) ++
          log.between q.device (r.last + 1).toNat (q.last.toNat + 1) = _
        rw [hsucc, hdevice, ← hfirst, OpLog.between_append (by rw [hfirst]; omega) (by omega)]
      · have hend : r.last.toNat = q.last.toNat := by
          rw [UInt64.le_iff_toNat_le] at hmore
          omega
        rw [List.filter_cons_of_neg (by simpa using hmore)]
        show log.opsIn r ++ [] ++ [] = log.opsIn q ++ []
        rw [List.append_nil, List.append_nil, List.append_nil, hdense.opsIn_eq, hdense.opsIn_eq, hdevice, ← hfirst,
          hend]

/-- Two lists of runs with the same ops of each device hold the same ops. -/
theorem flatMap_perm {runs runs' : List OriginRange} {f : OriginRange → List Op}
    (h : ∀ device, (runs.filter (·.device = device)).flatMap f = (runs'.filter (·.device = device)).flatMap f) :
    (runs.flatMap f).Perm (runs'.flatMap f) := by
  induction hn : runs.length + runs'.length using Nat.strong_induction_on generalizing runs runs' with
  | _ n ih =>
    by_cases hnil : runs ++ runs' = []
    · obtain ⟨rfl, rfl⟩ := List.append_eq_nil_iff.1 hnil
      exact .refl _
    · obtain ⟨r, hr⟩ := List.exists_mem_of_ne_nil _ hnil
      have hsplit : ∀ l : List OriginRange, (l.flatMap f).Perm ((l.filter (·.device = r.device)).flatMap f ++
          (l.filter fun q => !decide (q.device = r.device)).flatMap f) := by
        intro l
        rw [← List.flatMap_append]
        exact (List.filter_append_perm _ l).symm.flatMap_right f
      have hlength : ∀ l : List OriginRange, (l.filter fun q => !decide (q.device = r.device)).length ≤ l.length :=
        fun l => List.length_filter_le _ l
      have hfewer : ∀ l : List OriginRange, r ∈ l →
          (l.filter fun q => !decide (q.device = r.device)).length < l.length := fun l hl =>
        List.length_filter_lt_length_iff_exists.2 ⟨r, hl, by simp⟩
      have hless : (runs.filter fun q => !decide (q.device = r.device)).length +
          (runs'.filter fun q => !decide (q.device = r.device)).length < n := by
        have h₁ := hlength runs
        have h₂ := hlength runs'
        rcases List.mem_append.1 hr with hr | hr
        · have := hfewer runs hr
          omega
        · have := hfewer runs' hr
          omega
      have hothers : ∀ device, ((runs.filter fun q => !decide (q.device = r.device)).filter
          (·.device = device)).flatMap f = ((runs'.filter fun q => !decide (q.device = r.device)).filter
          (·.device = device)).flatMap f := by
        intro device
        rw [List.filter_comm, List.filter_comm (l := runs')]
        by_cases hd : device = r.device
        · subst hd
          have hnone : ∀ l : List OriginRange, (l.filter (·.device = r.device)).filter
              (fun q => !decide (q.device = r.device)) = [] := fun l =>
            List.filter_eq_nil_iff.2 fun q hq => by
              have := (List.mem_filter.1 hq).2
              simpa using this
          rw [hnone, hnone]
        · have hall : ∀ l : List OriginRange, (l.filter (·.device = device)).filter
              (fun q => !decide (q.device = r.device)) = l.filter (·.device = device) := fun l =>
            List.filter_eq_self.2 fun q hq => by
              have hqd := of_decide_eq_true (List.mem_filter.1 hq).2
              simpa [hqd] using hd
          rw [hall, hall, h device]
      have hperm := ih _ hless hothers rfl
      refine (hsplit runs).trans (.trans ?_ (hsplit runs').symm)
      rw [h r.device]
      exact hperm.append_left _

/-! ## What a batch noted as sent leaves -/

variable {sent remote : Heads}

theorem get_raise_of_ne (sent : Heads) {device : DeviceId} (h : ∀ r ∈ ranges, r.device ≠ device) :
    (raise sent ranges).get device = sent.get device := by
  induction ranges generalizing sent with
  | nil => rfl
  | cons r ranges ih =>
    obtain ⟨hr, hrest⟩ := List.forall_mem_cons.1 h
    rw [raise, List.foldl_cons]
    exact (ih _ hrest).trans ((Heads.get_insert ..).trans (if_neg (Ne.symm hr)))

theorem get_raise_of_mem {r : OriginRange} (hnodup : (ranges.map OriginRange.device).Nodup) (hr : r ∈ ranges) :
    (raise sent ranges).get r.device = max (sent.get r.device) r.last := by
  induction ranges generalizing sent with
  | nil => exact absurd hr List.not_mem_nil
  | cons c ranges ih =>
    rw [List.map_cons, List.nodup_cons] at hnodup
    rw [raise, List.foldl_cons]
    rcases List.mem_cons.1 hr with rfl | hr
    · have hothers : ∀ q ∈ ranges, q.device ≠ r.device := fun q hq hqd =>
        hnodup.1 (hqd ▸ List.mem_map_of_mem hq)
      exact (get_raise_of_ne _ hothers).trans ((Heads.get_insert ..).trans (if_pos rfl))
    · have hne : r.device ≠ c.device := fun heq =>
        hnodup.1 (heq ▸ List.mem_map_of_mem (f := OriginRange.device) hr)
      refine (ih hnodup.2 hr).trans ?_
      rw [Heads.get_insert, if_neg hne]

theorem filter_map_filter {α β : Type} {l : List α} {p p' : α → Bool} {f g : α → β} {q : β → Bool}
    (h : ∀ a, (p' a = true → p a = true ∧ g a = f a ∧ q (g a) = true) ∧
      (¬p' a = true → p a = true → ¬q (g a) = true)) : ((l.filter p).map g).filter q = (l.filter p').map f := by
  induction l with
  | nil => rfl
  | cons a l ih =>
    obtain ⟨hkeep, hdrop⟩ := h a
    by_cases hp' : p' a = true
    · obtain ⟨hp, heq, hq⟩ := hkeep hp'
      rw [List.filter_cons_of_pos hp, List.map_cons, List.filter_cons_of_pos hq, List.filter_cons_of_pos hp',
        List.map_cons, ih, heq]
    · rw [List.filter_cons_of_neg hp']
      by_cases hp : p a = true
      · rw [List.filter_cons_of_pos hp, List.map_cons, List.filter_cons_of_neg (hdrop hp' hp), ih]
      · rw [List.filter_cons_of_neg hp, ih]

/-- Once a batch is noted as sent, what the peer lacks is what the batch left. -/
theorem want_raise (hfew : remote.items.length ≤ MAX_WANT_RANGES)
    (h : MergedBatch log (want sent remote).value ops ranges) (hlast : ∀ r ∈ ranges, r.last ≠ UInt64.MAX) :
    (want (raise sent ranges) remote).value = (consume (want sent remote).value ranges).value := by
  have hwant : ∀ held : Heads, (want held remote).value =
      (remote.items.filter fun e => held.get e.1 < e.2).map (wantedRun held) := by
    intro held
    rw [want_eq]
    refine List.take_of_length_le ?_
    rw [List.length_map]
    exact (List.length_filter_le _ _).trans hfew
  have heach : ∀ e : DeviceId × UInt64,
      ((raise sent ranges).get e.1 < e.2 → sent.get e.1 < e.2 ∧
        trimmed ranges (wantedRun sent e) = wantedRun (raise sent ranges) e ∧
        (trimmed ranges (wantedRun sent e)).first ≤ (trimmed ranges (wantedRun sent e)).last) ∧
      (¬(raise sent ranges).get e.1 < e.2 → sent.get e.1 < e.2 →
        ¬(trimmed ranges (wantedRun sent e)).first ≤ (trimmed ranges (wantedRun sent e)).last) := by
    intro e
    have hnext : ∀ {n : UInt64}, n < e.2 → n + 1 ≤ e.2 := by
      intro n hn
      rw [UInt64.le_iff_toNat_le, UInt64.toNat_succ (UInt64.ne_MAX_of_lt hn)]
      exact UInt64.lt_iff_toNat_lt.1 hn
    rcases filter_device h.devices e.1 with ⟨hne, -⟩ | ⟨r, hr, hdevice, -⟩
    · have hsame := get_raise_of_ne sent hne
      have hkeep : trimmed ranges (wantedRun sent e) = wantedRun sent e := trimmed_of_ne hne
      have hrun : wantedRun (raise sent ranges) e = wantedRun sent e := by rw [wantedRun, hsame]; rfl
      rw [hsame, hkeep, hrun]
      exact ⟨fun hlt => ⟨hlt, rfl, hnext hlt⟩, fun hnot hlt => absurd hlt hnot⟩
    · obtain ⟨q, hq, hqdevice, hfirst, hle⟩ := h.starts r hr
      obtain ⟨-, hstart, -⟩ := mem_want hq
      have hforwards := UInt64.le_iff_toNat_le.1 (h.forwards r hr)
      have hpast : sent.get e.1 < r.last := by
        rw [UInt64.lt_iff_toNat_lt, ← hdevice, ← hqdevice]
        rw [hfirst] at hstart
        omega
      have hget : (raise sent ranges).get e.1 = r.last := by
        rw [← hdevice, get_raise_of_mem h.devices hr, hdevice]
        exact max_eq_right hpast.le
      have hcut : trimmed ranges (wantedRun sent e) = ⟨e.1, r.last + 1, e.2⟩ := by
        refine trimmed_of_mem h.devices hr hdevice ?_
        show sent.get e.1 + 1 ≤ r.last
        rw [UInt64.le_iff_toNat_le, UInt64.toNat_succ (UInt64.ne_MAX_of_lt hpast)]
        exact UInt64.lt_iff_toNat_lt.1 hpast
      have hrun : wantedRun (raise sent ranges) e = ⟨e.1, r.last + 1, e.2⟩ := by rw [wantedRun, hget]
      rw [hget, hcut, hrun]
      refine ⟨fun hlt => ⟨hpast.trans hlt, rfl, hnext hlt⟩, fun hnot _ hmore => hnot ?_⟩
      have hmore' := UInt64.le_iff_toNat_le.1 hmore
      rw [UInt64.toNat_succ (hlast r hr)] at hmore'
      exact UInt64.lt_iff_toNat_lt.2 hmore'
  rw [value_consume, hwant sent, hwant, List.map_map]
  refine (filter_map_filter fun e => ?_).symm
  simpa only [decide_eq_true_eq, Function.comp_apply] using heach e
/-! ## Until nothing is owed -/

/-- The batches served until nothing is owed: each holds what its ranges name, at least one op and at most as many
as fit, and together they hold every owed op once, each device's in the order of their numbers. -/
structure ServesAll (log : OpLog) (owed : List OriginRange) (batches : List (List Op × List OriginRange)) : Prop where
  each : ∀ b ∈ batches, b.1 = b.2.flatMap log.opsIn ∧ (b.2.map OriginRange.device).Nodup ∧
    (∀ r ∈ b.2, r.first ≤ r.last) ∧ (b.2.map OriginRange.width).sum = b.1.length ∧ b.1 ≠ [] ∧
    b.1.length ≤ MAX_OPS_PER_BATCH
  byDevice : ∀ device, ((batches.flatMap (·.2)).filter (·.device = device)).flatMap log.opsIn =
    (owed.filter (·.device = device)).flatMap log.opsIn
  once : (batches.flatMap (·.1)).Perm (owed.flatMap log.opsIn)
  ascending : (∀ o ∈ owed, Ascending (log.opsIn o)) → ∀ b ∈ batches, Ascending b.1

/-- Whatever the window, the merged server serves every owed op once. -/
theorem serveAll_servesAll (log : OpLog) (head : DeviceId → Nat) (hdense : log.Dense head) (owed : List OriginRange)
    (howed : (owed.map OriginRange.device).Nodup) (hin : ∀ o ∈ owed, o.Inside head) (window : UInt64)
    (hpos : 0 < window.toNat) (hwindow : window.toNat ≤ MAX_OPS_PER_READ) :
    ∃ batches, (∀ n, (owed.flatMap log.opsIn).length < n → serveAll window log n owed = some batches) ∧
      ServesAll log owed batches := by
  induction hn : (owed.flatMap log.opsIn).length using Nat.strong_induction_on generalizing owed with
  | _ total ih =>
    obtain ⟨ops, ranges, fits, hmerge, hbatch⟩ := mergeBy_batch hdense howed hin hpos hwindow
    by_cases hnil : ops = []
    · have hnone : owed = [] := by
        by_contra hne
        exact hbatch.nonempty hne hnil
      subst hnone
      refine ⟨[], fun n hlt => ?_, List.forall_mem_nil _, fun _ => rfl, .refl _, fun _ => List.forall_mem_nil _⟩
      obtain ⟨n, rfl⟩ := Nat.exists_eq_succ_of_ne_zero (Nat.ne_of_gt (Nat.lt_of_le_of_lt (Nat.zero_le _) hlt))
      rw [serveAll, hmerge, hnil]
      rfl
    · obtain ⟨hnodup, hrest⟩ := hbatch.rest hdense howed hin
      have hcovers := hbatch.covers hdense howed hin
      have hperm : (ops ++ (consume owed ranges).value.flatMap log.opsIn).Perm (owed.flatMap log.opsIn) := by
        rw [hbatch.holds, ← List.flatMap_append]
        refine flatMap_perm fun device => ?_
        rw [List.filter_append, List.flatMap_append]
        exact hcovers device
      have hlength := hperm.length_eq
      rw [List.length_append] at hlength
      have hsome := List.length_pos_iff.2 hnil
      obtain ⟨batches, hserve, hall⟩ := ih _ (by omega) _ hnodup (fun o ho => (hrest o ho).1) rfl
      refine ⟨(ops, ranges) :: batches, fun n hlt => ?_, ?_, fun device => ?_, ?_, fun hsorted => ?_⟩
      · obtain ⟨n, rfl⟩ := Nat.exists_eq_succ_of_ne_zero (Nat.ne_of_gt (Nat.lt_of_le_of_lt (Nat.zero_le _) hlt))
        rw [serveAll, hmerge]
        show (if ops.isEmpty then _ else _) = _
        rw [if_neg (by simpa using hnil), hserve n (by omega)]
        rfl
      · exact List.forall_mem_cons.2
          ⟨⟨hbatch.holds, hbatch.devices, hbatch.forwards, hbatch.count, hnil, hbatch.room⟩, hall.each⟩
      · rw [List.flatMap_cons, List.filter_append, List.flatMap_append, hall.byDevice, hcovers]
      · rw [List.flatMap_cons]
        exact (hall.once.append_left ops).trans hperm
      · refine List.forall_mem_cons.2 ⟨hbatch.ascending hsorted, hall.ascending fun o ho => ?_⟩
        obtain ⟨hinside, q, hq, hdevice, hfirst, hlast⟩ := hrest o ho
        -- what is left of a run is the end of what was owed
        have hsplit : log.opsIn q = log.between q.device q.first.toNat o.first.toNat ++ log.opsIn o := by
          have hforwards := hinside.forwards
          rw [hdense.opsIn_eq, hdense.opsIn_eq, ← hdevice, ← hlast,
            OpLog.between_append hfirst (by rw [hlast]; omega)]
        have hwhole := hsorted q hq
        rw [hsplit] at hwhole
        exact (List.pairwise_append.1 hwhole).2.1

namespace ServeSample

/-- The blank a device inserts at `wall`. -/
def blankAt (device : DeviceId) (wall : Nat) : Op := ⟨⟨wall⟩, ⟨wall, 0, device⟩, ⟨"todo.txt".toList⟩, .blankInsert none⟩

/-- A device's op number `n + 1`, made at `wall`. -/
def rowAt (device : DeviceId) (n wall : Nat) : LogRow :=
  ⟨device, Int.ofNat n + 1, blankAt device wall, Int.lt_add_one_of_le (Int.natCast_nonneg n)⟩

def rows : List LogRow := [rowAt ⟨1⟩ 0 10, rowAt ⟨2⟩ 0 20, rowAt ⟨1⟩ 1 30]

theorem rows_numbered : rows.Pairwise fun a b => a.device = b.device → a.originSeq < b.originSeq := by decide

/-- Two ops of one device with another device's between them. -/
def interleaved : OpLog := ⟨rows, rows_numbered⟩

def headOf (device : DeviceId) : Nat := if device = ⟨1⟩ then 2 else if device = ⟨2⟩ then 1 else 0

theorem interleaved_dense : interleaved.Dense headOf where
  numbers device := by
    by_cases h₁ : device = ⟨1⟩
    · subst h₁
      decide
    · by_cases h₂ : device = ⟨2⟩
      · subst h₂
        decide
      · have hnone : interleaved.rows.filter (·.device = device) = [] := List.filter_eq_nil_iff.2 fun row hrow => by
          have hrow' : row.device = ⟨1⟩ ∨ row.device = ⟨2⟩ := by
            simp only [interleaved, rows, List.mem_cons, List.not_mem_nil, or_false] at hrow
            rcases hrow with rfl | rfl | rfl <;> simp [rowAt]
          rcases hrow' with hrow' | hrow' <;> simp [hrow', Ne.symm h₁, Ne.symm h₂]
        rw [hnone, headOf, if_neg h₁, if_neg h₂]
        rfl
  word device := by
    rw [headOf]
    split_ifs <;> decide

/-- The first device's second op comes back in a batch of its own. -/
theorem serveAll_interleaved :
    let owed : List OriginRange := [⟨⟨1⟩, 1, 2⟩, ⟨⟨2⟩, 1, 1⟩]
    (∃ batches, (∀ n, (owed.flatMap interleaved.opsIn).length < n →
      serveAll READ_WINDOW interleaved n owed = some batches) ∧ ServesAll interleaved owed batches) := by
  intro owed
  have hin : ∀ o ∈ owed, o.Inside headOf :=
    List.forall_mem_cons.2 ⟨⟨by decide, by decide, by decide⟩,
      List.forall_mem_singleton.2 ⟨by decide, by decide, by decide⟩⟩
  exact serveAll_servesAll interleaved headOf interleaved_dense owed (by decide) hin READ_WINDOW (by decide) (by decide)

end ServeSample

end Txtodo
