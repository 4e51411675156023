import Txtodo.Daemon.ServeMerged
import Txtodo.Daemon.Proofs.ServeMergedProofs

/-!
# Runs read a window at a time

In a dense log a run's buffer holds its next ops, up to where it was read, whatever the window.
-/

namespace Txtodo

/-! ## A numbered list -/

/-- The entries numbered `a` to `b` of a list numbered from `s`. -/
theorem filter_numbered {α : Type} (num : α → Int) {l : List α} {s : Nat}
    (h : l.map num = (List.range' s l.length).map Int.ofNat) (a b : Nat) :
    l.filter (fun x => (a : Int) ≤ num x ∧ num x ≤ (b : Int)) = (l.take (b + 1 - s)).drop (a - s) := by
  induction l generalizing s with
  | nil => simp
  | cons x l ih =>
    rw [List.length_cons, List.range'_succ, List.map_cons, List.map_cons] at h
    obtain ⟨hx, hl⟩ := List.cons.inj h
    have hx' : num x = s := hx
    rw [List.filter_cons, hx', ih hl]
    by_cases hb : s ≤ b
    · have htake : b + 1 - s = b + 1 - (s + 1) + 1 := by omega
      rw [htake, List.take_succ_cons]
      by_cases ha : a ≤ s
      · have hdrop : a - s = 0 := by omega
        have hdrop' : a - (s + 1) = 0 := by omega
        rw [if_pos (by simp only [decide_eq_true_eq]; omega), hdrop, hdrop', List.drop_zero, List.drop_zero]
      · have hdrop : a - s = a - (s + 1) + 1 := by omega
        rw [if_neg (by simp only [decide_eq_true_eq]; omega), hdrop, List.drop_succ_cons]
    · have htake : b + 1 - s = 0 := by omega
      have htake' : b + 1 - (s + 1) = 0 := by omega
      rw [if_neg (by simp only [decide_eq_true_eq]; omega), htake, htake', List.take_zero, List.take_zero,
        List.drop_nil, List.drop_nil]

theorem toInt_toInt64 {n : UInt64} (h : n.toNat < 2 ^ 63) : n.toInt64.toInt = n.toNat := by
  have hbits : n.toBitVec.toNat = n.toNat := rfl
  have hint : n.toInt64.toInt = n.toBitVec.toInt := rfl
  rw [hint, BitVec.toInt_eq_toNat_cond, hbits, if_pos (by omega)]

namespace OpLog

variable {log : OpLog} {head : DeviceId → Nat} {device : DeviceId} {a b c : Nat}

/-- A device's ops numbered from `a` up to but not including `b`. -/
def between (log : OpLog) (device : DeviceId) (a b : Nat) : List Op := ((log.opsOf device).take (b - 1)).drop (a - 1)

theorem between_append (hab : a ≤ b) (hbc : b ≤ c) :
    log.between device a b ++ log.between device b c = log.between device a c := by
  have htake : (log.opsOf device).take (b - 1) = ((log.opsOf device).take (c - 1)).take (b - 1) := by
    rw [List.take_take, Nat.min_eq_left (by omega)]
  rw [between, between, between, htake, List.drop_take]
  have hdrop : ((log.opsOf device).take (c - 1)).drop (b - 1) =
      (((log.opsOf device).take (c - 1)).drop (a - 1)).drop (b - 1 - (a - 1)) := by
    rw [List.drop_drop]
    congr 1
    omega
  rw [hdrop, List.take_append_drop]

theorem between_eq_nil (h : b ≤ a) : log.between device a b = [] := by
  rw [between, List.drop_eq_nil_of_le]
  rw [List.length_take]
  omega

theorem tail_between (ha : 1 ≤ a) : (log.between device a b).tail = log.between device (a + 1) b := by
  rw [between, between, List.tail_drop]
  congr 1
  omega

theorem Dense.head_lt (h : log.Dense head) (device : DeviceId) : head device < 2 ^ 63 :=
  Nat.lt_succ_of_le (h.word device)

theorem Dense.length_opsOf (h : log.Dense head) (device : DeviceId) : (log.opsOf device).length = head device := by
  have hlength := congrArg List.length (h.numbers device)
  simpa [OpLog.opsOf] using hlength

theorem Dense.length_between (h : log.Dense head) (device : DeviceId) (hb : b ≤ head device + 1) (ha : 1 ≤ a) :
    (log.between device a b).length = b - a := by
  rw [OpLog.between, List.length_drop, List.length_take, h.length_opsOf]
  omega

theorem Dense.take_between (h : log.Dense head) (ha : 1 ≤ a) (hab : a < b) (hb : b ≤ head device + 1) :
    (log.between device a b).take 1 = log.between device a (a + 1) := by
  have hone : (log.between device a (a + 1)).length = 1 := by
    rw [h.length_between _ (by omega) ha]
    omega
  rw [← between_append (Nat.le_succ a) hab, List.take_left' hone]

theorem Dense.filter_rows (h : log.Dense head) (device : DeviceId) (a b : Nat) :
    (log.rows.filter fun row => row.device = device ∧ (a : Int) ≤ row.originSeq ∧ row.originSeq ≤ (b : Int)).map (·.op) =
      log.between device a (b + 1) := by
  have hand : (fun row : LogRow => decide (row.device = device ∧ (a : Int) ≤ row.originSeq ∧ row.originSeq ≤ (b : Int))) =
      fun row => decide ((a : Int) ≤ row.originSeq ∧ row.originSeq ≤ (b : Int)) && decide (row.device = device) := by
    funext row
    by_cases hdevice : row.device = device <;> simp [hdevice]
  have hnumbers := h.numbers device
  have hlength : head device = (log.rows.filter (·.device = device)).length := by
    have := congrArg List.length hnumbers
    simpa using this.symm
  rw [hlength] at hnumbers
  have hnumbered := filter_numbered LogRow.originSeq hnumbers a b
  rw [hand, ← List.filter_filter, hnumbered, OpLog.between, OpLog.opsOf, List.map_drop, List.map_take]

theorem Dense.opsIn_eq (h : log.Dense head) (r : OriginRange) :
    log.opsIn r = log.between r.device r.first.toNat (r.last.toNat + 1) := h.filter_rows ..

/-- A read inside the heads gives the ops it asks for. -/
theorem Dense.opsFor_eq (h : log.Dense head) (device : DeviceId) {first last : UInt64} (hfirst : 1 ≤ first.toNat)
    (hle : first.toNat ≤ last.toNat) (hlast : last.toNat ≤ head device)
    (hwidth : last.toNat + 1 - first.toNat ≤ MAX_OPS_PER_READ) :
    (log.opsFor device first last).value = .ok (log.between device first.toNat (last.toNat + 1)) := by
  have hword := h.head_lt device
  have hmax : MAX_OPS_PER_READ = 10000 := rfl
  have hle' : first ≤ last := UInt64.le_iff_toNat_le.2 hle
  have hrun : ¬(first = 0 ∨ last < first) := by
    rw [not_or, not_lt, ← UInt64.toNat_inj, UInt64.toNat_zero]
    exact ⟨by omega, hle'⟩
  have hspan : (last - first).toNat = last.toNat - first.toNat := UInt64.toNat_sub_of_le _ _ hle'
  have hsum : (last - first + 1).toNat = last.toNat - first.toNat + 1 := by
    rw [UInt64.toNat_add, hspan, UInt64.toNat_one]
    omega
  have hnarrow : ¬UInt64.ofNat MAX_OPS_PER_READ < (Checked.add (Checked.sub last first).value 1).value := by
    have hofNat : (UInt64.ofNat MAX_OPS_PER_READ).toNat = 10000 := rfl
    rw [Checked.value_add, Checked.value_sub, UInt64.lt_iff_toNat_lt, hsum, hofNat]
    omega
  rw [OpLog.opsFor, if_neg hrun, Checked.value_bind, Checked.value_bind, if_neg hnarrow, toInt_toInt64 (by omega), toInt_toInt64 (by omega)]
  exact congrArg Except.ok (h.filter_rows ..)

end OpLog

/-! ## Reading a run -/

/-- A run that gave `t` ops: its buffer holds the ones behind them, up to the next number to read. -/
structure Run.Reads (log : OpLog) (t : Nat) (run : Run) : Prop where
  next : run.next.toNat = run.range.first.toNat + t + run.buf.length
  inside : run.next.toNat ≤ run.range.last.toNat + 1
  buf : run.buf = log.between run.range.device (run.range.first.toNat + t) run.next.toNat

/-- A run of the log's numbers. -/
structure OriginRange.Inside (head : DeviceId → Nat) (r : OriginRange) : Prop where
  positive : 1 ≤ r.first.toNat
  forwards : r.first.toNat ≤ r.last.toNat
  held : r.last.toNat ≤ head r.device

variable {log : OpLog} {head : DeviceId → Nat} {window : UInt64} {run : Run} {runs : List Run} {t : Nat}

theorem Run.Reads.new (r : OriginRange) (h : r.Inside head) : (Run.new r).Reads log 0 where
  next := rfl
  inside := Nat.le_succ_of_le h.forwards
  buf := (OpLog.between_eq_nil (Nat.le_refl _)).symm

/-- A run gives up its front op. -/
theorem Run.Reads.tail (h : run.Reads log t) (hin : run.range.Inside head) (hbuf : run.buf ≠ []) :
    Run.Reads log (t + 1) { run with buf := run.buf.tail } where
  next := by
    have hnext := h.next
    have := List.length_pos_iff.2 hbuf
    rw [List.length_tail]
    show run.next.toNat = run.range.first.toNat + (t + 1) + _
    omega
  inside := h.inside
  buf := by
    have hpos := hin.positive
    show run.buf.tail = _
    rw [h.buf, OpLog.tail_between (by omega)]
    rfl

/-- What is left of a run that was read: its buffer, and what is behind it. -/
theorem Run.Reads.rest (h : run.Reads log t) :
    run.buf ++ log.between run.range.device run.next.toNat (run.range.last.toNat + 1) =
      log.between run.range.device (run.range.first.toNat + t) (run.range.last.toNat + 1) := by
  have hnext := h.next
  have hinside := h.inside
  conv_lhs => rw [h.buf]
  exact OpLog.between_append (by omega) (by omega)

/-- A run with an op in its buffer has one left, the next by number. -/
theorem Run.Reads.front (h : run.Reads log t) (hdense : log.Dense head) (hin : run.range.Inside head)
    (hbuf : run.buf ≠ []) : run.range.first.toNat + t ≤ run.range.last.toNat ∧
      run.buf.take 1 = log.between run.range.device (run.range.first.toNat + t) (run.range.first.toNat + t + 1) := by
  have hnext := h.next
  have hinside := h.inside
  have hlength := List.length_pos_iff.2 hbuf
  have hpositive := hin.positive
  have hheld := hin.held
  refine ⟨by omega, ?_⟩
  conv_lhs => rw [h.buf]
  exact hdense.take_between (by omega) (by omega) (by omega)

/-- Reading gives the next ops of a run, none only when it has no more. -/
theorem Run.front_reads (hdense : log.Dense head) (hpos : 0 < window.toNat) (hwindow : window.toNat ≤ MAX_OPS_PER_READ)
    (hin : run.range.Inside head) (h : run.Reads log t) : ∃ run', (run.front window log).value = .ok run' ∧
      run'.range = run.range ∧ run'.Reads log t ∧
      (run.range.first.toNat + t ≤ run.range.last.toNat → run'.buf ≠ []) := by
  have hmax : MAX_OPS_PER_READ = 10000 := rfl
  have hword := hdense.head_lt run.range.device
  have hnext := h.next
  have hinside := h.inside
  obtain ⟨hpositive, hforwards, hheld⟩ := hin
  rw [Run.front]
  by_cases hread : run.buf.isEmpty ∧ run.next ≤ run.range.last
  · have hempty : run.buf.length = 0 := by
      rw [List.isEmpty_iff.1 hread.1]
      rfl
    have hle := UInt64.le_iff_toNat_le.1 hread.2
    obtain ⟨last, hlast⟩ : ∃ last, last = min (run.next + window - 1) run.range.last := ⟨_, rfl⟩
    have hadd : (run.next + window).toNat = run.next.toNat + window.toNat := by
      rw [UInt64.toNat_add]
      omega
    have hone : (1 : UInt64) ≤ run.next + window := by
      rw [UInt64.le_iff_toNat_le, hadd, UInt64.toNat_one]
      omega
    have hlast' : last.toNat = min (run.next.toNat + window.toNat - 1) run.range.last.toNat := by
      rw [hlast, UInt64.toNat_min, UInt64.toNat_sub_of_le _ _ hone, hadd, UInt64.toNat_one]
    have hsucc : (last + 1).toNat = last.toNat + 1 := UInt64.toNat_succ (UInt64.ne_MAX.2 (by omega))
    have hfront : 1 ≤ run.next.toNat ∧ run.next.toNat ≤ last.toNat := ⟨by omega, by omega⟩
    have hops := hdense.opsFor_eq run.range.device hfront.1 hfront.2 (by omega) (by omega)
    have hlength := hdense.length_between run.range.device (a := run.next.toNat) (b := last.toNat + 1)
      (by omega) (by omega)
    rw [if_pos hread]
    simp only [Checked.value_bind, Checked.value_add, Checked.value_sub]
    rw [← hlast, hops]
    refine ⟨_, rfl, rfl, ⟨?_, ?_, ?_⟩, fun _ hnil => ?_⟩
    · show (last + 1).toNat = run.range.first.toNat + t + (log.between _ _ _).length
      rw [hlength, hsucc]
      omega
    · show (last + 1).toNat ≤ run.range.last.toNat + 1
      omega
    · show log.between _ _ _ = log.between _ (run.range.first.toNat + t) (last + 1).toNat
      rw [hsucc]
      congr 1
      omega
    · have hnil' : (log.between run.range.device run.next.toNat (last.toNat + 1)).length = 0 :=
        congrArg List.length hnil
      omega
  · rw [if_neg hread]
    refine ⟨run, rfl, rfl, h, fun hmore hnil => hread ⟨List.isEmpty_iff.2 hnil, ?_⟩⟩
    have hzero : run.buf.length = 0 := congrArg List.length hnil
    rw [UInt64.le_iff_toNat_le]
    omega

/-- One pass over the runs; `t` says what each gave. -/
theorem readFronts_reads (hdense : log.Dense head) (hpos : 0 < window.toNat) (hwindow : window.toNat ≤ MAX_OPS_PER_READ)
    {t : OriginRange → Nat} (hin : ∀ run ∈ runs, run.range.Inside head)
    (h : ∀ run ∈ runs, run.Reads log (t run.range)) : ∃ runs', (readFronts window log runs).value = .ok runs' ∧
      runs'.map (·.range) = runs.map (·.range) ∧ ∀ run ∈ runs', run.Reads log (t run.range) ∧
        (run.range.first.toNat + t run.range ≤ run.range.last.toNat → run.buf ≠ []) := by
  induction runs with
  | nil => exact ⟨[], rfl, rfl, List.forall_mem_nil _⟩
  | cons run runs ih =>
    obtain ⟨run', hfront, hrange, hreads, hmore⟩ :=
      Run.front_reads hdense hpos hwindow (hin run List.mem_cons_self) (h run List.mem_cons_self)
    obtain ⟨runs', hrest, hranges, hall⟩ := ih (fun r hr => hin r (List.mem_cons_of_mem _ hr))
      fun r hr => h r (List.mem_cons_of_mem _ hr)
    refine ⟨run' :: runs', ?_, by rw [List.map_cons, List.map_cons, hrange, hranges], ?_⟩
    · simp only [readFronts, Checked.value_bind, hfront, hrest]
      rfl
    · refine List.forall_mem_cons.2 ⟨?_, hall⟩
      rw [hrange]
      exact ⟨hreads, hmore⟩

end Txtodo
