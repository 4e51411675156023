import Txtodo.Daemon.ServeMerged
import Txtodo.Sync.Proofs.HeadsProofs
import Mathlib.Algebra.Order.BigOperators.Group.List
import Mathlib.Algebra.Order.Ring.Nat

/-!
# Serving merged runs

The merge ends, each turn adding one op, and its arithmetic stays in range for runs that do not reach
the last numbers there are.
-/

namespace Txtodo

variable {log : OpLog} {run run' : Run} {runs runs' : List Run} {i n : Nat} {m m' : Merge}
  {r : OriginRange} {ranges : List OriginRange} {device : DeviceId} {first last window : UInt64}

/-! ## The lowest front -/

theorem lowest_go_least {best : Option (Nat × Hlc)} {k : Nat} {stamp : Hlc}
    (hgo : lowest.go best i runs = some (k, stamp)) : (∀ b, best = some b → stamp ≤ b.2) ∧
      (∀ run ∈ runs, ∀ op, run.buf.head? = some op → stamp ≤ op.hlc) ∧
      (best = some (k, stamp) ∨
        ∃ j run op, k = i + j ∧ runs[j]? = some run ∧ run.buf.head? = some op ∧ op.hlc = stamp) := by
  induction runs generalizing best i with
  | nil =>
    rw [lowest.go] at hgo
    refine ⟨fun b hb => ?_, List.forall_mem_nil _, .inl hgo⟩
    rw [hgo, Option.some_inj] at hb
    rw [← hb]
  | cons run runs ih =>
    have hlater : ∀ {P : Prop}, (P ∨ ∃ j run' op, k = i + 1 + j ∧ runs[j]? = some run' ∧
        run'.buf.head? = some op ∧ op.hlc = stamp) → P ∨ ∃ j run' op, k = i + j ∧
          (run :: runs)[j]? = some run' ∧ run'.buf.head? = some op ∧ op.hlc = stamp := by
      rintro P (h | ⟨j, run', op, rfl, hj, hop, hstamp⟩)
      · exact .inl h
      · exact .inr ⟨j + 1, run', op, by omega, by simpa using hj, hop, hstamp⟩
    rw [lowest.go] at hgo
    cases hhead : run.buf.head? with
    | none =>
      simp only [hhead] at hgo
      obtain ⟨hbest, hall, hfrom⟩ := ih hgo
      refine ⟨hbest, List.forall_mem_cons.2 ⟨fun op hop => ?_, hall⟩, hlater hfrom⟩
      rw [hhead] at hop
      cases hop
    | some op =>
      simp only [hhead] at hgo
      split at hgo
      · rename_i hlower
        obtain ⟨hbest, hall, hfrom⟩ := ih hgo
        have hop : stamp ≤ op.hlc := hbest _ rfl
        refine ⟨fun b hb => ?_, List.forall_mem_cons.2 ⟨fun op' hop' => ?_, hall⟩, ?_⟩
        · rw [hb, Option.all_some, decide_eq_true_eq] at hlower
          exact hop.trans hlower.le
        · rw [hhead, Option.some_inj] at hop'
          rwa [← hop']
        · rcases hfrom with hfrom | hfrom
          · obtain ⟨rfl, rfl⟩ := Prod.mk.inj (Option.some_inj.1 hfrom)
            exact .inr ⟨0, run, op, rfl, rfl, hhead, rfl⟩
          · exact hlater (.inr hfrom)
      · rename_i hnot
        obtain ⟨hbest, hall, hfrom⟩ := ih hgo
        refine ⟨hbest, List.forall_mem_cons.2 ⟨fun op' hop' => ?_, hall⟩, hlater hfrom⟩
        rw [hhead, Option.some_inj] at hop'
        rw [← hop']
        cases hb : best with
        | none =>
          rw [hb] at hnot
          exact absurd rfl hnot
        | some b =>
          rw [hb, Option.all_some, decide_eq_true_eq, not_lt] at hnot
          exact (hbest b hb).trans hnot

theorem lowest_go_none {best : Option (Nat × Hlc)} (hgo : lowest.go best i runs = none) :
    best = none ∧ ∀ run ∈ runs, run.buf = [] := by
  induction runs generalizing best i with
  | nil => exact ⟨hgo, List.forall_mem_nil _⟩
  | cons run runs ih =>
    rw [lowest.go] at hgo
    cases hhead : run.buf.head? with
    | none =>
      simp only [hhead] at hgo
      obtain ⟨hbest, hall⟩ := ih hgo
      exact ⟨hbest, List.forall_mem_cons.2 ⟨List.head?_eq_none_iff.1 hhead, hall⟩⟩
    | some op =>
      simp only [hhead] at hgo
      split at hgo
      · cases (ih hgo).1
      · rename_i hnot
        rw [(ih hgo).1] at hnot
        exact absurd rfl hnot

/-- The lowest run's front op is no later than any other's. -/
theorem lowest_least (h : (lowest runs).bind (fun i => runs[i]?.map (i, ·)) = some (i, run)) :
    ∃ op, run.buf.head? = some op ∧ ∀ run' ∈ runs, ∀ op', run'.buf.head? = some op' → op.hlc ≤ op'.hlc := by
  obtain ⟨k, hk, hget⟩ := Option.bind_eq_some_iff.1 h
  obtain ⟨run', hrun', hpair⟩ := Option.map_eq_some_iff.1 hget
  obtain ⟨rfl, rfl⟩ := Prod.mk.inj hpair
  obtain ⟨⟨k', stamp⟩, hgo, rfl⟩ := Option.map_eq_some_iff.1 hk
  obtain ⟨-, hall, hfrom⟩ := lowest_go_least hgo
  rcases hfrom with hnone | ⟨j, front, op, hj, hfront, hop, rfl⟩
  · cases hnone
  · obtain rfl : k' = j := by omega
    obtain rfl := Option.some.inj (hrun'.symm.trans hfront)
    exact ⟨op, hop, hall⟩

/-- With no lowest run, every run is read out. -/
theorem lowest_none (h : (lowest runs).bind (fun i => runs[i]?.map (i, ·)) = none) : ∀ run ∈ runs, run.buf = [] := by
  cases hgo : lowest.go none 0 runs with
  | none => exact (lowest_go_none hgo).2
  | some best =>
    obtain ⟨k, stamp⟩ := best
    obtain ⟨-, -, hfrom⟩ := lowest_go_least hgo
    rcases hfrom with hnone | ⟨j, front, op, hj, hfront, -, -⟩
    · cases hnone
    · obtain rfl : k = j := by omega
      rw [lowest, hgo, Option.map_some, Option.bind_some, hfront] at h
      cases h

/-- The lowest run has an op in front. -/
theorem lowest_some (h : (lowest runs).bind (fun i => runs[i]?.map (i, ·)) = some (i, run)) :
    runs[i]? = some run ∧ run.buf ≠ [] := by
  obtain ⟨k, -, hget⟩ := Option.bind_eq_some_iff.1 h
  obtain ⟨run', hrun', hpair⟩ := Option.map_eq_some_iff.1 hget
  obtain ⟨rfl, rfl⟩ := Prod.mk.inj hpair
  obtain ⟨op, hop, -⟩ := lowest_least h
  refine ⟨hrun', fun hnil => ?_⟩
  rw [hnil] at hop
  cases hop

namespace Merge

/-! ## A turn -/

/-- What one turn can do when it goes on. -/
theorem step_go (h : (step window log m).value = .inl m') :
    ∃ runs i run ranges', m.ops.length < MAX_OPS_PER_BATCH ∧
      (readFronts window log m.runs).value = .ok runs ∧
      (lowest runs).bind (fun i => runs[i]?.map (i, ·)) = some (i, run) ∧
      extend m.ranges run.range.device (run.range.first + (rangesLen m.ranges run.range.device).value) =
        some ranges' ∧
      m' = ⟨runs.set i { run with buf := run.buf.tail }, m.ops ++ run.buf.take 1, ranges'⟩ := by
  rw [step] at h
  split at h
  · cases h
  next hroom =>
    simp only [Checked.value_bind] at h
    cases hread : (readFronts window log m.runs).value with
    | error e =>
      simp only [hread] at h
      cases h
    | ok runs =>
      simp only [hread] at h
      cases hlowest : (lowest runs).bind fun i => runs[i]?.map (i, ·) with
      | none =>
        simp only [hlowest] at h
        cases h
      | some front =>
        obtain ⟨i, run⟩ := front
        simp only [hlowest, Checked.value_bind, Checked.value_add] at h
        cases hextend : extend m.ranges run.range.device
            (run.range.first + (rangesLen m.ranges run.range.device).value) with
        | none =>
          simp only [hextend] at h
          cases h
        | some ranges' =>
          simp only [hextend] at h
          exact ⟨runs, i, run, ranges', not_le.1 hroom, rfl, hlowest, hextend, (Sum.inl.inj h).symm⟩

/-- Why a turn stops. -/
theorem step_stop {result : Except StoreError (List Op × List OriginRange)}
    (h : (step window log m).value = .inr result) :
    (MAX_OPS_PER_BATCH ≤ m.ops.length ∧ result = .ok (m.ops, m.ranges)) ∨
    (∃ e, (readFronts window log m.runs).value = .error e) ∨
    ∃ runs, (readFronts window log m.runs).value = .ok runs ∧ result = .ok (m.ops, m.ranges) ∧
      ((lowest runs).bind (fun i => runs[i]?.map (i, ·)) = none ∨ ∃ i run,
        (lowest runs).bind (fun i => runs[i]?.map (i, ·)) = some (i, run) ∧
        extend m.ranges run.range.device (run.range.first + (rangesLen m.ranges run.range.device).value) = none) := by
  rw [step] at h
  split at h
  · exact .inl ⟨‹_›, (Sum.inr.inj h).symm⟩
  · simp only [Checked.value_bind] at h
    cases hread : (readFronts window log m.runs).value with
    | error e => exact .inr (.inl ⟨e, rfl⟩)
    | ok runs =>
      refine .inr (.inr ⟨runs, rfl, ?_⟩)
      simp only [hread] at h
      cases hlowest : (lowest runs).bind fun i => runs[i]?.map (i, ·) with
      | none =>
        simp only [hlowest] at h
        exact ⟨(Sum.inr.inj h).symm, .inl rfl⟩
      | some front =>
        obtain ⟨i, run⟩ := front
        simp only [hlowest, Checked.value_bind, Checked.value_add] at h
        cases hextend : extend m.ranges run.range.device
            (run.range.first + (rangesLen m.ranges run.range.device).value) with
        | none =>
          simp only [hextend] at h
          exact ⟨(Sum.inr.inj h).symm, .inr ⟨i, run, rfl, hextend⟩⟩
        | some ranges' =>
          simp only [hextend] at h
          cases h

theorem length_ops_of_step (h : (step window log m).value = .inl m') :
    m'.ops.length = m.ops.length + 1 ∧ m.ops.length < MAX_OPS_PER_BATCH := by
  obtain ⟨_, _, run, _, hroom, -, hlowest, -, rfl⟩ := step_go h
  refine ⟨?_, hroom⟩
  have hbuf := (lowest_some hlowest).2
  have hone : (run.buf.take 1).length = 1 := by
    have := List.length_pos_iff.2 hbuf
    rw [List.length_take]
    omega
  rw [List.length_append, hone]

theorem turn_go {m m' : Checked Merge} (h : turn window log m = .inl m') :
    (step window log m.value).value = .inl m'.value ∧ m'.fits = (m.fits && (step window log m.value).fits) := by
  rw [turn] at h
  simp only [Checked.value_bind, Checked.fits_bind] at h
  cases hstep : (step window log m.value).value with
  | inl next =>
    rw [hstep] at h
    obtain rfl := Sum.inl.inj h
    exact ⟨rfl, rfl⟩
  | inr result =>
    rw [hstep] at h
    cases h

theorem turn_stop {m : Checked Merge} {result : Checked (Except StoreError (List Op × List OriginRange))}
    (h : turn window log m = .inr result) : result.fits = (m.fits && (step window log m.value).fits) ∧
      (step window log m.value).value = .inr result.value := by
  rw [turn] at h
  simp only [Checked.value_bind, Checked.fits_bind] at h
  cases hstep : (step window log m.value).value with
  | inl next =>
    rw [hstep] at h
    cases h
  | inr result =>
    rw [hstep] at h
    obtain rfl := Sum.inr.inj h
    exact ⟨rfl, rfl⟩

theorem turn_adds {m m' : Checked Merge} (h : turn window log m = .inl m') :
    MAX_OPS_PER_BATCH - m'.value.ops.length < MAX_OPS_PER_BATCH - m.value.ops.length := by
  obtain ⟨hlength, hroom⟩ := length_ops_of_step (turn_go h).1
  omega

end Merge

/-! ## Reading a window -/

/-- A run whose reads in one batch stay in range: it ends a window before the last number there is, or
starts so low that a batch's turns do not read that far. -/
def OriginRange.Serveable (r : OriginRange) : Prop :=
  r.last.toNat + READ_WINDOW.toNat < 2 ^ 64 ∨
    r.first.toNat + READ_WINDOW.toNat * MAX_OPS_PER_BATCH < 2 ^ 64

/-- A run after `n` turns: read no further than a window a turn, and what it buffers comes from
numbers the log can hold. -/
structure Run.ReadBy (n : Nat) (run : Run) : Prop where
  past : run.range.first.toNat ≤ run.next.toNat
  windows : run.next.toNat ≤ run.range.first.toNat + READ_WINDOW.toNat * n
  signed : run.buf ≠ [] → run.range.first.toNat < 2 ^ 63

theorem toInt_neg {n : UInt64} (h : 2 ^ 63 ≤ n.toNat) : n.toInt64.toInt < 0 := by
  have hn := n.toNat_lt
  have hbits : n.toBitVec.toNat = n.toNat := rfl
  have hint : n.toInt64.toInt = n.toBitVec.toInt := rfl
  rw [hint, BitVec.toInt_eq_toNat_cond, hbits, if_neg (by omega)]
  omega

/-- A read of a window fits, and gives nothing past the numbers the log can hold. -/
theorem opsFor_window (log : OpLog) (device : DeviceId)
    (hwidth : last.toNat < first.toNat + READ_WINDOW.toNat) :
    (log.opsFor device first last).fits = true ∧
      ∀ ops, (log.opsFor device first last).value = .ok ops → ops ≠ [] → first.toNat < 2 ^ 63 := by
  rw [OpLog.opsFor]
  by_cases hrun : first = 0 ∨ last < first
  · rw [if_pos hrun]
    exact ⟨rfl, fun ops hops => nomatch hops⟩
  · rw [if_neg hrun]
    have hle := not_lt.1 (not_or.1 hrun).2
    have hspan : (last - first).toNat = last.toNat - first.toNat := UInt64.toNat_sub_of_le _ _ hle
    have hwindow : READ_WINDOW.toNat = 128 := rfl
    have hsum : (Checked.add (Checked.sub last first).value 1).fits = true := by
      rw [Checked.fits_add, Checked.value_sub, hspan, UInt64.toNat_one]
      omega
    rw [Checked.fits_bind, Checked.fits_bind, Checked.value_bind, Checked.value_bind, hsum,
      Checked.fits_sub.2 hle]
    by_cases hwide : UInt64.ofNat MAX_OPS_PER_READ < (Checked.add (Checked.sub last first).value 1).value
    · rw [if_pos hwide]
      exact ⟨rfl, fun ops hops => nomatch hops⟩
    · rw [if_neg hwide]
      refine ⟨rfl, fun ops hops hne => ?_⟩
      obtain rfl := Except.ok.inj hops
      by_contra hlarge
      have hle' := UInt64.le_iff_toNat_le.1 hle
      have hneg := toInt_neg (n := last) (by omega)
      refine hne (List.map_eq_nil_iff.2 (List.filter_eq_nil_iff.2 fun row _ hrow => ?_))
      have hpos := row.positive
      simp only [decide_eq_true_eq] at hrow
      omega

/-- One read of a run fits and leaves it at most a window further. -/
theorem Run.front_fits (log : OpLog) (hserve : run.range.Serveable) (hread : run.ReadBy n)
    (hn : n < MAX_OPS_PER_BATCH) : (run.front READ_WINDOW log).fits = true ∧
      ∀ run', (run.front READ_WINDOW log).value = .ok run' → run'.range = run.range ∧ run'.ReadBy (n + 1) := by
  have hwindow : READ_WINDOW.toNat = 128 := rfl
  have hmax : MAX_OPS_PER_BATCH = 1000 := rfl
  have hpast := hread.past
  have hwindows := hread.windows
  rw [OriginRange.Serveable, hwindow, hmax] at hserve
  rw [hwindow] at hwindows
  rw [Run.front]
  by_cases h : run.buf.isEmpty ∧ run.next ≤ run.range.last
  · rw [if_pos h]
    have hle := UInt64.le_iff_toNat_le.1 h.2
    have hroom : run.next.toNat + 128 < 2 ^ 64 := by
      rcases hserve with hend | hstart <;> omega
    have hnext : (run.next + READ_WINDOW).toNat = run.next.toNat + 128 := by
      rw [UInt64.toNat_add, hwindow]
      omega
    have hone : (1 : UInt64) ≤ run.next + READ_WINDOW := by
      rw [UInt64.le_iff_toNat_le, hnext, UInt64.toNat_one]
      omega
    obtain ⟨last, hlast⟩ : ∃ last, last = min (run.next + READ_WINDOW - 1) run.range.last := ⟨_, rfl⟩
    have hlast' : last.toNat = min (run.next.toNat + 127) run.range.last.toNat := by
      rw [hlast, UInt64.toNat_min, UInt64.toNat_sub_of_le _ _ hone, hnext]
      rfl
    have hsucc : last ≠ UInt64.MAX := by
      rw [UInt64.ne_MAX]
      omega
    have hshort : last.toNat < run.next.toNat + READ_WINDOW.toNat := by
      rw [hwindow]
      omega
    obtain ⟨hfits, hsigned⟩ := opsFor_window log run.range.device hshort
    have hsum : (Checked.add run.next READ_WINDOW).fits = true := Checked.fits_add.2 hroom
    have hdiff : (Checked.sub (Checked.add run.next READ_WINDOW).value 1).fits = true :=
      Checked.fits_sub.2 hone
    have hend : (Checked.add last 1).fits = true := Checked.fits_add.2 (UInt64.ne_MAX.1 hsucc)
    have hmin : min (Checked.sub (Checked.add run.next READ_WINDOW).value 1).value run.range.last = last :=
      hlast.symm
    simp only [Checked.fits_bind, Checked.value_bind, hsum, hdiff, hmin, hfits, Bool.true_and]
    cases hops : (log.opsFor run.range.device run.next last).value with
    | error e => exact ⟨rfl, fun run' hrun' => nomatch hrun'⟩
    | ok buf =>
      have hnext' : (last + 1).toNat = last.toNat + 1 := UInt64.toNat_succ hsucc
      refine ⟨by simp only [Checked.fits_bind, hend]; rfl, fun run' hrun' => ?_⟩
      obtain rfl := Except.ok.inj hrun'
      refine ⟨rfl, ?_, ?_, fun hbuf => ?_⟩
      · change run.range.first.toNat ≤ (last + 1).toNat
        omega
      · change (last + 1).toNat ≤ run.range.first.toNat + READ_WINDOW.toNat * (n + 1)
        rw [hwindow]
        omega
      · have hsigned' := hsigned buf hops hbuf
        change run.range.first.toNat < 2 ^ 63
        omega
  · rw [if_neg h]
    refine ⟨rfl, ?_⟩
    rintro run' hrun'
    obtain rfl := Except.ok.inj hrun'
    exact ⟨rfl, hpast, by rw [hwindow]; omega, hread.signed⟩

/-- One pass over the runs fits and leaves each at most a window further. -/
theorem readFronts_fits (log : OpLog) (hserve : ∀ run ∈ runs, run.range.Serveable)
    (hread : ∀ run ∈ runs, run.ReadBy n) (hn : n < MAX_OPS_PER_BATCH) :
    (readFronts READ_WINDOW log runs).fits = true ∧ ∀ runs', (readFronts READ_WINDOW log runs).value = .ok runs' →
      runs'.map (·.range) = runs.map (·.range) ∧ ∀ run ∈ runs', run.ReadBy (n + 1) := by
  induction runs with
  | nil =>
    refine ⟨rfl, fun runs' hruns' => ?_⟩
    obtain rfl := Except.ok.inj hruns'
    exact ⟨rfl, fun _ h => absurd h List.not_mem_nil⟩
  | cons run runs ih =>
    obtain ⟨hfits, hfront⟩ := Run.front_fits log (hserve run List.mem_cons_self)
      (hread run List.mem_cons_self) hn
    obtain ⟨hrest, hfronts⟩ := ih (fun r hr => hserve r (List.mem_cons_of_mem _ hr))
      fun r hr => hread r (List.mem_cons_of_mem _ hr)
    simp only [readFronts, Checked.fits_bind, Checked.value_bind, hfits, Bool.true_and]
    cases hone : (run.front READ_WINDOW log).value with
    | error e => exact ⟨rfl, fun runs' hruns' => nomatch hruns'⟩
    | ok run' =>
      simp only [Checked.fits_bind, Checked.value_bind, hrest, Bool.true_and]
      cases hall : (readFronts READ_WINDOW log runs).value with
      | error e => exact ⟨rfl, fun runs' hruns' => nomatch hruns'⟩
      | ok runs' =>
        refine ⟨rfl, fun _ hruns' => ?_⟩
        obtain rfl := Except.ok.inj hruns'
        obtain ⟨hrange, hread'⟩ := hfront run' hone
        obtain ⟨hranges, hreads⟩ := hfronts runs' hall
        exact ⟨by simp [hrange, hranges], List.forall_mem_cons.2 ⟨hread', hreads⟩⟩

/-! ## Counting what a batch holds -/

theorem sum_widths_fits (hle : ∀ r ∈ ranges, r.first ≤ r.last) {sum : UInt64}
    (htotal : sum.toNat + (ranges.map OriginRange.width).sum < 2 ^ 64) :
    let total := ranges.foldlM (fun sum r => do
      let span ← Checked.sub r.last r.first
      let width ← Checked.add span 1
      Checked.add sum width) sum
    total.fits = true ∧ total.value.toNat = sum.toNat + (ranges.map OriginRange.width).sum := by
  induction ranges generalizing sum with
  | nil => exact ⟨rfl, rfl⟩
  | cons r ranges ih =>
    rw [List.map_cons, List.sum_cons] at htotal
    obtain ⟨hspan, hwidth, hvalue⟩ := OriginRange.toNat_width (hle r List.mem_cons_self) (by omega)
    have hsum : (sum + (r.last - r.first + 1)).toNat = sum.toNat + r.width := by
      rw [UInt64.toNat_add, hvalue]
      omega
    have hroom : (sum + (r.last - r.first + 1)).toNat + (ranges.map OriginRange.width).sum < 2 ^ 64 := by
      omega
    obtain ⟨hfits, htotal'⟩ := ih (fun q hq => hle q (List.mem_cons_of_mem _ hq)) hroom
    have hadd : (Checked.add sum (r.last - r.first + 1)).fits = true := by
      rw [Checked.fits_add, hvalue]
      omega
    simp only [List.foldlM_cons, Checked.fits_bind, Checked.value_bind, Checked.value_sub,
      Checked.value_add, hspan, hwidth, hadd, Bool.true_and, List.map_cons, List.sum_cons]
    exact ⟨hfits, htotal'.trans (by omega)⟩

/-- The length counted for a device is the total width of its runs. -/
theorem rangesLen_fits (hle : ∀ r ∈ ranges, r.first ≤ r.last)
    (htotal : (ranges.map OriginRange.width).sum < 2 ^ 64) (device : DeviceId) :
    (rangesLen ranges device).fits = true ∧ (rangesLen ranges device).value.toNat =
      ((ranges.filter (·.device = device)).map OriginRange.width).sum := by
  have hfiltered : ((ranges.filter (·.device = device)).map OriginRange.width).sum ≤
      (ranges.map OriginRange.width).sum :=
    List.Sublist.sum_le_sum (List.filter_sublist.map _) fun _ _ => Nat.zero_le _
  have hroom : (0 : UInt64).toNat +
      ((ranges.filter (·.device = device)).map OriginRange.width).sum < 2 ^ 64 := by
    rw [UInt64.toNat_zero]
    omega
  obtain ⟨hfits, hvalue⟩ := sum_widths_fits (fun r hr => hle r (List.mem_of_mem_filter hr)) hroom
  exact ⟨hfits, hvalue.trans (Nat.zero_add _)⟩

theorem extend_some {seq : UInt64} {ranges' : List OriginRange}
    (h : extend ranges device seq = some ranges') :
    (∃ before r, ranges = before ++ [r] ∧ r.device = device ∧ ranges' = before ++ [{ r with last := seq }]) ∨
      (∀ r ∈ ranges, r.device ≠ device) ∧ ranges' = ranges ++ [⟨device, seq, seq⟩] := by
  rw [extend] at h
  cases hlast : ranges.getLast?.filter (·.device = device) with
  | some r =>
    rw [hlast] at h
    obtain ⟨hr, hdevice⟩ := Option.filter_eq_some_iff.1 hlast
    obtain ⟨before, rfl⟩ := List.getLast?_eq_some_iff.1 hr
    refine .inl ⟨before, r, rfl, by simpa using hdevice, ?_⟩
    simpa using h.symm
  | none =>
    rw [hlast] at h
    simp only at h
    split at h
    · cases h
    next hany => exact .inr ⟨by simpa using hany, (Option.some.inj h).symm⟩

namespace Merge

/-- A batch being merged from `owed` runs: each of its runs starts where its origin's owed run does,
no origin twice, and as many numbers as it holds ops. -/
structure Counted (owed : List OriginRange) (m : Merge) : Prop where
  devices : (m.ranges.map OriginRange.device).Nodup
  forwards : ∀ r ∈ m.ranges, r.first ≤ r.last
  starts : ∀ r ∈ m.ranges, ∃ o ∈ owed, o.device = r.device ∧ o.first = r.first
  count : (m.ranges.map OriginRange.width).sum = m.ops.length
  room : m.ops.length ≤ MAX_OPS_PER_BATCH

/-- A batch whose runs are read no further than its turns allow. -/
structure Fitting (owed : List OriginRange) (m : Merge) : Prop extends m.Counted owed where
  runs : m.runs.map (·.range) = owed
  readBy : ∀ run ∈ m.runs, run.ReadBy m.ops.length

variable {owed : List OriginRange}

theorem Counted.new (owed : List OriginRange) : (new owed).Counted owed where
  devices := List.nodup_nil
  forwards := fun _ h => absurd h List.not_mem_nil
  starts := fun _ h => absurd h List.not_mem_nil
  count := rfl
  room := Nat.zero_le _

theorem runs_new (owed : List OriginRange) : (new owed).runs.map (·.range) = owed := by
  simp [Merge.new, Run.new, Function.comp_def]

theorem Fitting.new (owed : List OriginRange) : (new owed).Fitting owed where
  toCounted := .new owed
  runs := runs_new owed
  readBy := by
    intro run hrun
    obtain ⟨o, -, rfl⟩ := List.mem_map.1 hrun
    exact ⟨le_rfl, Nat.le_add_right _ _, fun h => absurd rfl h⟩

/-- How many ops of `device` the batch holds. -/
theorem Counted.held (h : m.Counted owed) (device : DeviceId) :
    (rangesLen m.ranges device).fits = true ∧ (rangesLen m.ranges device).value.toNat =
        ((m.ranges.filter (·.device = device)).map OriginRange.width).sum ∧
      (rangesLen m.ranges device).value.toNat ≤ m.ops.length := by
  have hmax : MAX_OPS_PER_BATCH = 1000 := rfl
  have hcount := h.count
  have hroom := h.room
  obtain ⟨hfits, hheld⟩ := rangesLen_fits h.forwards (by omega) device
  refine ⟨hfits, hheld, ?_⟩
  rw [hheld, ← hcount]
  exact List.Sublist.sum_le_sum (List.filter_sublist.map _) fun _ _ => Nat.zero_le _

/-- The next op of a run joins the batch's last run, or starts a run of a device the batch does not
hold yet. -/
theorem Counted.extended (h : m.Counted owed) (howed : (owed.map OriginRange.device).Nodup)
    {o : OriginRange} (ho : o ∈ owed) (hsigned : o.first.toNat < 2 ^ 63) {ranges' : List OriginRange}
    (hextend : extend m.ranges o.device (o.first + (rangesLen m.ranges o.device).value) = some ranges') :
    (∃ before r seq, m.ranges = before ++ [r] ∧ (∀ q ∈ before, q.device ≠ o.device) ∧ r.device = o.device ∧
        r.first = o.first ∧ seq.toNat = r.last.toNat + 1 ∧ ranges' = before ++ [{ r with last := seq }]) ∨
      (∀ r ∈ m.ranges, r.device ≠ o.device) ∧ ranges' = m.ranges ++ [⟨o.device, o.first, o.first⟩] := by
  have hmax : MAX_OPS_PER_BATCH = 1000 := rfl
  have hroom := h.room
  obtain ⟨-, hheld, hsmall⟩ := h.held o.device
  obtain ⟨held, hheld'⟩ : ∃ held, held = (rangesLen m.ranges o.device).value := ⟨_, rfl⟩
  rw [← hheld'] at hheld hsmall hextend
  have hseq : (o.first + held).toNat = o.first.toNat + held.toNat := by
    rw [UInt64.toNat_add]
    omega
  rcases extend_some hextend with ⟨before, r, hbefore, hdevice, rfl⟩ | ⟨hnew, rfl⟩
  · -- the batch's last run is this device's: the op is the next number after it
    have hdevices := h.devices
    have hforwards := h.forwards
    have hstarts := h.starts
    rw [hbefore] at hdevices hforwards hstarts hheld
    have hr : r ∈ before ++ [r] := by simp
    have hle := UInt64.le_iff_toNat_le.1 (hforwards r hr)
    have hfirst : o.first = r.first := by
      obtain ⟨o', ho', hdevice', hfirst'⟩ := hstarts r hr
      rw [← hfirst', List.inj_on_of_nodup_map howed ho ho' (hdevice'.trans hdevice).symm]
    rw [List.map_append, List.nodup_append] at hdevices
    have hne : ∀ q ∈ before, q.device ≠ o.device := fun q hq hqd =>
      hdevices.2.2 _ (List.mem_map_of_mem hq) r.device (by simp) (hqd.trans hdevice.symm)
    have hothers : before.filter (·.device = o.device) = [] :=
      List.filter_eq_nil_iff.2 fun q hq hqd => hne q hq (of_decide_eq_true hqd)
    have hwidth : held.toNat = r.width := by
      rw [hheld, List.filter_append, hothers]
      simp [hdevice]
    refine .inl ⟨before, r, o.first + held, hbefore, hne, hdevice, hfirst.symm, ?_, rfl⟩
    rw [hseq, hwidth, hfirst, OriginRange.width]
    omega
  · -- the device is new to the batch: its op is the first of its owed run
    have hnone : m.ranges.filter (·.device = o.device) = [] :=
      List.filter_eq_nil_iff.2 fun q hq hqd => hnew q hq (of_decide_eq_true hqd)
    have hzero : held.toNat = 0 := by
      rw [hheld, hnone]
      rfl
    have hfirst : o.first + held = o.first := by
      rw [← UInt64.toNat_inj]
      omega
    rw [hfirst]
    exact .inr ⟨hnew, rfl⟩

/-- The number the next op of a run gets, and the batch's runs once they hold it. -/
theorem Counted.next_op (h : m.Counted owed) (howed : (owed.map OriginRange.device).Nodup)
    {o : OriginRange} (ho : o ∈ owed) (hsigned : o.first.toNat < 2 ^ 63)
    (hroom : m.ops.length < MAX_OPS_PER_BATCH) :
    (rangesLen m.ranges o.device).fits = true ∧
      (Checked.add o.first (rangesLen m.ranges o.device).value).fits = true ∧
      ∀ ranges', extend m.ranges o.device (o.first + (rangesLen m.ranges o.device).value) = some ranges' →
        (ranges'.map OriginRange.device).Nodup ∧ (∀ r ∈ ranges', r.first ≤ r.last) ∧
        (∀ r ∈ ranges', ∃ o ∈ owed, o.device = r.device ∧ o.first = r.first) ∧
        (ranges'.map OriginRange.width).sum = m.ops.length + 1 := by
  have hmax : MAX_OPS_PER_BATCH = 1000 := rfl
  have hcount := h.count
  obtain ⟨hfits, -, hsmall⟩ := h.held o.device
  refine ⟨hfits, Checked.fits_add.2 (by omega), fun ranges' hextend => ?_⟩
  rcases h.extended howed ho hsigned hextend with ⟨before, r, seq, hbefore, -, hdevice, -, hseq, rfl⟩ | ⟨hnew, rfl⟩
  · have hdevices := h.devices
    have hforwards := h.forwards
    have hstarts := h.starts
    rw [hbefore] at hdevices hforwards hstarts hcount
    have hr : r ∈ before ++ [r] := by simp
    have hle := UInt64.le_iff_toNat_le.1 (hforwards r hr)
    refine ⟨by simpa using hdevices, ?_, ?_, ?_⟩
    · intro q hq
      rcases List.mem_append.1 hq with hq | hq
      · exact hforwards q (List.mem_append_left _ hq)
      · obtain rfl := List.mem_singleton.1 hq
        rw [UInt64.le_iff_toNat_le]
        simp only
        omega
    · intro q hq
      rcases List.mem_append.1 hq with hq | hq
      · exact hstarts q (List.mem_append_left _ hq)
      · obtain rfl := List.mem_singleton.1 hq
        exact hstarts r hr
    · have hgrown : OriginRange.width { r with last := seq } = r.width + 1 := by
        change seq.toNat + 1 - r.first.toNat = r.last.toNat + 1 - r.first.toNat + 1
        omega
      rw [← hcount]
      simp [hgrown]
      omega
  · refine ⟨?_, ?_, ?_, ?_⟩
    · rw [List.map_append, List.nodup_append]
      refine ⟨h.devices, by simp, ?_⟩
      intro d hd d' hd' heq
      obtain ⟨q, hq, rfl⟩ := List.mem_map.1 hd
      have hd'' : d' = o.device := by simpa using hd'
      exact hnew q hq (heq.trans hd'')
    · intro q hq
      rcases List.mem_append.1 hq with hq | hq
      · exact h.forwards q hq
      · obtain rfl := List.mem_singleton.1 hq
        exact le_rfl
    · intro q hq
      rcases List.mem_append.1 hq with hq | hq
      · exact h.starts q hq
      · obtain rfl := List.mem_singleton.1 hq
        exact ⟨o, ho, rfl, rfl⟩
    · have hone : OriginRange.width ⟨o.device, o.first, o.first⟩ = 1 := by
        change o.first.toNat + 1 - o.first.toNat = 1
        omega
      rw [List.map_append, List.sum_append, hcount]
      simp [hone]

/-- A run that gives up its front op has read no further. -/
theorem readBy_tail (h : run.ReadBy n) (hbuf : run.buf ≠ []) :
    Run.ReadBy n { run with buf := run.buf.tail } :=
  ⟨h.past, h.windows, fun _ => h.signed hbuf⟩

theorem Fitting.step (log : OpLog) (h : m.Fitting owed) (howed : (owed.map OriginRange.device).Nodup)
    (hserve : ∀ o ∈ owed, o.Serveable) :
    (step READ_WINDOW log m).fits = true ∧ ∀ m', (step READ_WINDOW log m).value = .inl m' → m'.Fitting owed := by
  have hserve' : ∀ run ∈ m.runs, run.range.Serveable := fun run hrun =>
    hserve _ (h.runs ▸ List.mem_map_of_mem hrun)
  constructor
  · rw [Merge.step]
    split
    · rfl
    next hfull =>
      have hroom := not_le.1 hfull
      obtain ⟨hfits, hfronts⟩ := readFronts_fits log hserve' h.readBy hroom
      simp only [Checked.fits_bind, hfits, Bool.true_and]
      cases hread : (readFronts READ_WINDOW log m.runs).value with
      | error e => rfl
      | ok runs =>
        obtain ⟨hranges, hreadBy⟩ := hfronts runs hread
        simp only
        cases hlowest : (lowest runs).bind fun i => runs[i]?.map (i, ·) with
        | none => rfl
        | some front =>
          obtain ⟨i, run⟩ := front
          obtain ⟨hi, hbuf⟩ := lowest_some hlowest
          have hrun : run ∈ runs := List.mem_of_getElem? hi
          have ho : run.range ∈ owed := h.runs ▸ hranges ▸ List.mem_map_of_mem hrun
          obtain ⟨hlen, hadd, -⟩ := h.next_op howed ho ((hreadBy run hrun).signed hbuf) hroom
          simp only [Checked.fits_bind, hlen, hadd, Bool.true_and]
          cases extend m.ranges run.range.device
            (Checked.add run.range.first (rangesLen m.ranges run.range.device).value).value <;> rfl
  · intro m' hstep
    have hlength := (length_ops_of_step hstep).1
    obtain ⟨runs, i, run, ranges', hroom, hread, hlowest, hextend, rfl⟩ := step_go hstep
    obtain ⟨hi, hbuf⟩ := lowest_some hlowest
    obtain ⟨hranges, hreadBy⟩ := (readFronts_fits log hserve' h.readBy hroom).2 runs hread
    have hrun : run ∈ runs := List.mem_of_getElem? hi
    have ho : run.range ∈ owed := h.runs ▸ hranges ▸ List.mem_map_of_mem hrun
    obtain ⟨-, -, hextended⟩ := h.next_op howed ho ((hreadBy run hrun).signed hbuf) hroom
    obtain ⟨hdevices, hforwards, hstarts, hcount⟩ := hextended ranges' hextend
    refine ⟨⟨hdevices, hforwards, hstarts, hcount.trans hlength.symm, hlength ▸ hroom⟩, ?_, ?_⟩
    · rw [← h.runs, ← hranges]
      refine List.ext_getElem? fun j => ?_
      rw [List.getElem?_map, List.getElem?_map]
      by_cases hj : i = j
      · subst hj
        rw [List.getElem?_set_self (List.getElem?_eq_some_iff.1 hi).1, hi]
        rfl
      · rw [List.getElem?_set_ne hj]
    · intro run' hrun'
      rw [hlength]
      rcases List.mem_or_eq_of_mem_set hrun' with hold | rfl
      · exact hreadBy run' hold
      · exact readBy_tail (hreadBy run hrun) hbuf

end Merge

/-- The merge ends for every log and runs: each turn that goes on adds an op. -/
theorem mergeBy_ends (window : UInt64) (log : OpLog) (owed : List OriginRange) :
    ∃ batch, mergeBy window log owed = some batch :=
  Loop.exists_result_of_measure (fun m => MAX_OPS_PER_BATCH - m.value.ops.length)
    (fun _ _ => Merge.turn_adds) (Nat.lt_succ_of_le (Nat.sub_le _ _))

/-- The arithmetic of a merge of runs that can be served stays in range. -/
theorem merge_fits {owed : List OriginRange} (howed : (owed.map OriginRange.device).Nodup)
    (hserve : ∀ o ∈ owed, o.Serveable) {batch : Checked (Except StoreError (List Op × List OriginRange))}
    (hbatch : merge log owed = some batch) : batch.fits = true := by
  refine Loop.result_of_invariant (P := fun m : Checked Merge => m.fits = true ∧ m.value.Fitting owed)
    (Q := fun batch => batch.fits = true) ?_ ?_ ⟨rfl, .new owed⟩ hbatch
  · rintro m m' ⟨hfits, hm⟩ hturn
    obtain ⟨hstep, hfits'⟩ := Merge.turn_go hturn
    obtain ⟨hgood, hkept⟩ := hm.step log howed hserve
    exact ⟨by rw [hfits', hfits, hgood]; rfl, hkept _ hstep⟩
  · rintro m batch ⟨hfits, hm⟩ hturn
    rw [(Merge.turn_stop hturn).1, hfits, (hm.step log howed hserve).1]
    rfl

end Txtodo
