import Txtodo.Sync.Heads
import Mathlib.Data.List.Nodup

/-!
# Facts about heads and runs

What each function of `want.rs` and the trimming of wanted runs compute, and when their sums stay in
64 bits.
-/

namespace Txtodo

variable {heads heads' held remote : Heads} {r c w : OriginRange} {ranges committed : List OriginRange}

/-! ## The numbers of a run -/

namespace OriginRange

/-- How many numbers a run has. -/
def width (r : OriginRange) : Nat := r.last.toNat + 1 - r.first.toNat

/-- The numbers of a run, each with its device. -/
def seqs (r : OriginRange) : List (DeviceId × Nat) :=
  (List.range' r.first.toNat r.width).map (r.device, ·)

@[simp] theorem length_seqs : r.seqs.length = r.width := by simp [seqs]

theorem mem_seqs (hle : r.first ≤ r.last) {e : DeviceId × Nat} :
    e ∈ r.seqs ↔ e.1 = r.device ∧ r.first.toNat ≤ e.2 ∧ e.2 ≤ r.last.toNat := by
  obtain ⟨device, seq⟩ := e
  have hle' := UInt64.le_iff_toNat_le.1 hle
  simp only [seqs, width, List.mem_map, List.mem_range'_1, Prod.mk.injEq]
  constructor
  · rintro ⟨m, hm, rfl, rfl⟩
    exact ⟨rfl, by omega, by omega⟩
  · rintro ⟨rfl, hseq⟩
    exact ⟨seq, by omega, rfl, rfl⟩

theorem width_pos (hle : r.first ≤ r.last) : 0 < r.width := by
  have hle' := UInt64.le_iff_toNat_le.1 hle
  rw [width]
  omega

/-- Only the run of every number there is has a width that does not fit a word. -/
theorem width_lt (hspan : ¬(r.first = 0 ∧ r.last = UInt64.MAX)) : r.width < 2 ^ 64 := by
  by_contra hfull
  have hwidth : r.width = r.last.toNat + 1 - r.first.toNat := rfl
  have hlast := r.last.toNat_lt
  refine hspan ⟨UInt64.toNat_inj.1 ?_, UInt64.toNat_inj.1 ?_⟩
  · rw [UInt64.toNat_zero]
    omega
  · rw [UInt64.toNat_MAX]
    omega

/-- The width as the code computes it. -/
theorem toNat_width (hle : r.first ≤ r.last) (hwidth : r.width < 2 ^ 64) :
    (Checked.sub r.last r.first).fits = true ∧
      (Checked.add (r.last - r.first) 1).fits = true ∧ (r.last - r.first + 1).toNat = r.width := by
  have hle' := UInt64.le_iff_toNat_le.1 hle
  have hspan : (r.last - r.first).toNat = r.last.toNat - r.first.toNat := UInt64.toNat_sub_of_le _ _ hle
  have hwidth' : r.width = r.last.toNat + 1 - r.first.toNat := rfl
  have hsum : (r.last - r.first).toNat + 1 < 2 ^ 64 := by omega
  refine ⟨Checked.fits_sub.2 hle, Checked.fits_add.2 hsum, ?_⟩
  rw [UInt64.toNat_succ (UInt64.ne_MAX.2 hsum), hspan, hwidth']
  omega

end OriginRange

/-! ## `want` -/

/-- The run a device's entry in the peer's heads is wanted by. -/
def wantedRun (held : Heads) (e : DeviceId × UInt64) : OriginRange := ⟨e.1, held.get e.1 + 1, e.2⟩

theorem want_go (entries : List (DeviceId × UInt64)) (hlen : ranges.length ≤ MAX_WANT_RANGES) :
    want.go held ranges entries =
      ⟨(ranges ++ (entries.filter fun e => held.get e.1 < e.2).map (wantedRun held)).take
        MAX_WANT_RANGES, true⟩ := by
  induction entries generalizing ranges with
  | nil => simp [want.go, List.take_of_length_le hlen, pure]
  | cons e entries ih =>
    obtain ⟨device, theirHead⟩ := e
    simp only [want.go]
    split
    next hfull =>
      rw [List.take_append_of_le_length hfull.ge, List.take_of_length_le hlen]
      rfl
    next hroom =>
      split
      next hlt =>
        have hfits : (Checked.add (held.get device) 1).fits = true := by
          rw [Checked.fits_add]
          exact UInt64.ne_MAX.1 (UInt64.ne_MAX_of_lt hlt)
        apply Checked.ext
        · rw [Checked.value_bind, ih (by simp; omega), List.filter_cons_of_pos (by simpa using hlt)]
          simp [wantedRun]
        · rw [Checked.fits_bind, ih (by simp; omega), hfits]
          rfl
      next hle => rw [ih hlen, List.filter_cons_of_neg (by simpa using hle)]

theorem want_eq : want held remote =
    ⟨((remote.items.filter fun e => held.get e.1 < e.2).map (wantedRun held)).take MAX_WANT_RANGES,
      true⟩ := by
  rw [want, want_go _ (Nat.zero_le _), List.nil_append]

/-- Every wanted run is that of an entry past what is held. -/
theorem exists_of_mem_want (hr : r ∈ (want held remote).value) :
    ∃ e ∈ remote.items, held.get e.1 < e.2 ∧ r = wantedRun held e := by
  rw [want_eq] at hr
  obtain ⟨e, he, rfl⟩ := List.mem_map.1 (List.mem_of_mem_take hr)
  obtain ⟨hmem, hlt⟩ := List.mem_filter.1 he
  exact ⟨e, hmem, of_decide_eq_true hlt, rfl⟩

/-- Nothing is wanted exactly when no entry is past what is held. -/
theorem want_isEmpty : (want held remote).value.isEmpty =
    !remote.items.any fun e => held.get e.1 < e.2 := by
  rw [Bool.eq_iff_iff, List.isEmpty_iff, want_eq, List.take_eq_nil_iff, List.map_eq_nil_iff,
    List.filter_eq_nil_iff]
  simp [MAX_WANT_RANGES]

/-- Each wanted run starts right after the head and is not empty. -/
theorem mem_want (hr : r ∈ (want held remote).value) :
    (r.device, r.last) ∈ remote.items ∧ r.first.toNat = (held.get r.device).toNat + 1 ∧
      r.first ≤ r.last := by
  obtain ⟨⟨device, last⟩, hmem, hlt, rfl⟩ := exists_of_mem_want hr
  refine ⟨hmem, UInt64.toNat_succ (UInt64.ne_MAX_of_lt hlt), ?_⟩
  rw [UInt64.le_iff_toNat_le, wantedRun, UInt64.toNat_succ (UInt64.ne_MAX_of_lt hlt)]
  exact UInt64.lt_iff_toNat_lt.1 hlt

/-- Wanted runs name distinct devices. -/
theorem want_nodup : ((want held remote).value.map OriginRange.device).Nodup := by
  rw [want_eq, ← List.map_take, List.map_map]
  have hkeys : ((remote.items.filter fun e => held.get e.1 < e.2).map Prod.fst).Nodup :=
    remote.keys_nodup.sublist (List.filter_sublist.map Prod.fst)
  exact hkeys.sublist ((List.take_sublist _ _).map Prod.fst)

/-! ## `advance` -/

theorem advance_fits : (advance heads r).fits = true ↔ heads.get r.device ≠ UInt64.MAX := by
  rw [advance, Checked.fits_bind, Bool.and_eq_true, Checked.fits_add, UInt64.ne_MAX, UInt64.toNat_one]
  split <;> simp

/-- A run is taken exactly when it starts no later than right after the head and ends past it. -/
theorem advance_eq_ok : (advance heads r).value = .ok heads' ↔
    r.first.toNat ≤ (heads.get r.device).toNat + 1 ∧ heads.get r.device < r.last ∧
      heads' = heads.insert r.device r.last := by
  rw [advance, Checked.value_bind, Checked.value_add]
  by_cases hlt : heads.get r.device < r.last
  · have hnext : heads.get r.device + 1 < r.first ↔
        ¬r.first.toNat ≤ (heads.get r.device).toNat + 1 := by
      rw [UInt64.lt_iff_toNat_lt, UInt64.toNat_succ (UInt64.ne_MAX_of_lt hlt), not_le]
    have hle : ¬r.last ≤ heads.get r.device := not_le.2 hlt
    simp only [hnext, hle, or_false]
    split
    next h => simp [h]
    next h => simp [not_not.1 h, hlt, eq_comm]
  · simp [not_lt.1 hlt, hlt]

theorem advanceAll_cons_ok : (advanceAll heads (r :: ranges)).value = .ok heads' ↔
    ∃ next, (advance heads r).value = .ok next ∧ (advanceAll next ranges).value = .ok heads' := by
  rw [advanceAll, Checked.value_bind]
  cases (advance heads r).value with
  | error gap => simp
  | ok next => simp

/-- Heads advanced past a run hold what they held and the run. -/
theorem le_get_advance (h : (advance heads r).value = .ok heads') (device : DeviceId) (seq : UInt64) :
    seq ≤ heads'.get device ↔
      seq ≤ heads.get device ∨ r.device = device ∧ r.first ≤ seq ∧ seq ≤ r.last := by
  obtain ⟨hfirst, hlast, rfl⟩ := advance_eq_ok.1 h
  rw [Heads.get_insert]
  split
  next hd =>
    subst hd
    simp only [UInt64.le_iff_toNat_le, UInt64.lt_iff_toNat_lt] at *
    simp only [true_and]
    omega
  next hd => simp [Ne.symm hd]

/-- Heads advanced past run after run hold what they held and the runs, with no hole. -/
theorem le_get_advanceAll (h : (advanceAll heads ranges).value = .ok heads') (device : DeviceId)
    (seq : UInt64) :
    seq ≤ heads'.get device ↔
      seq ≤ heads.get device ∨ ∃ r ∈ ranges, r.device = device ∧ r.first ≤ seq ∧ seq ≤ r.last := by
  induction ranges generalizing heads with
  | nil =>
    cases h
    simp
  | cons r ranges ih =>
    obtain ⟨next, hnext, hrest⟩ := advanceAll_cons_ok.1 h
    rw [ih hrest, le_get_advance hnext, List.exists_mem_cons_iff, or_assoc]

theorem get_le_advanceAll (h : (advanceAll heads ranges).value = .ok heads') (device : DeviceId) :
    heads.get device ≤ heads'.get device :=
  (le_get_advanceAll h device _).2 (.inl le_rfl)

/-- Runs of distinct devices, each from the start to past the head, raise the heads to their ends. -/
theorem advanceAll_raises (hnodup : (ranges.map OriginRange.device).Nodup)
    (hfirst : ∀ r ∈ ranges, r.first.toNat ≤ 1) (hpast : ∀ r ∈ ranges, heads.get r.device < r.last) :
    (advanceAll heads ranges).value =
      .ok (ranges.foldl (fun heads r => heads.insert r.device r.last) heads) := by
  induction ranges generalizing heads with
  | nil => rfl
  | cons r ranges ih =>
    obtain ⟨hnew, hnodup'⟩ := List.nodup_cons.1 hnodup
    refine advanceAll_cons_ok.2 ⟨heads.insert r.device r.last, advance_eq_ok.2 ⟨?_, ?_, rfl⟩, ?_⟩
    · have := hfirst r List.mem_cons_self
      omega
    · exact hpast r List.mem_cons_self
    · refine ih hnodup' (fun q hq => hfirst q (List.mem_cons_of_mem _ hq)) fun q hq => ?_
      have hne : q.device ≠ r.device := fun heq => hnew (heq ▸ List.mem_map_of_mem hq)
      rw [Heads.get_insert, if_neg hne]
      exact hpast q (List.mem_cons_of_mem _ hq)

/-! ## `consume` -/

/-- A wanted run without what a list of runs covers of its start. -/
def trimmed (committed : List OriginRange) (w : OriginRange) : OriginRange :=
  committed.foldl (fun w c => (consumeRun c w).value) w

@[simp] theorem consumeRun_device : (consumeRun c w).value.device = w.device := by
  rw [consumeRun]
  split <;> rfl

@[simp] theorem consumeRun_last : (consumeRun c w).value.last = w.last := by
  rw [consumeRun]
  split <;> rfl

@[simp] theorem trimmed_device : (trimmed committed w).device = w.device := by
  induction committed generalizing w with
  | nil => rfl
  | cons c committed ih => exact ih.trans consumeRun_device

theorem value_consume (wanted committed : List OriginRange) :
    (consume wanted committed).value =
      (wanted.map (trimmed committed)).filter fun w => w.first ≤ w.last := by
  have hfold : ∀ wanted : List OriginRange,
      committed.foldl (fun wanted c => wanted.map fun w => (consumeRun c w).value) wanted =
        wanted.map (trimmed committed) := by
    induction committed with
    | nil =>
      intro wanted
      exact (List.map_id' wanted).symm
    | cons c committed ih =>
      intro wanted
      rw [List.foldl_cons, ih, List.map_map]
      rfl
  simp only [consume, Checked.value_bind, Checked.value_pure, Checked.value_foldlM,
    Checked.value_mapM, hfold]

theorem consumeRun_fits : (consumeRun c w).fits = true ↔
    (w.device = c.device → w.first ≤ c.last → c.last ≠ UInt64.MAX) := by
  rw [consumeRun]
  split
  next h => simp [Checked.fits_add, UInt64.ne_MAX, h]
  next h =>
    rw [Checked.fits_pure]
    tauto

/-- Trimming stays in range unless a run ending at the last number meets a wanted run of its
device: every such run reaches past the wanted run's start. -/
theorem consume_fits {wanted : List OriginRange} : (consume wanted committed).fits = true ↔
    ∀ c ∈ committed, c.last = UInt64.MAX → ∀ w ∈ wanted, w.device ≠ c.device := by
  simp only [consume, Checked.fits_bind, Checked.fits_pure, Bool.and_true]
  induction committed generalizing wanted with
  | nil => simp
  | cons c committed ih =>
    have hone : (wanted.mapM (consumeRun c)).fits = true ↔
        (c.last = UInt64.MAX → ∀ w ∈ wanted, w.device ≠ c.device) := by
      simp only [Checked.fits_mapM, List.all_eq_true, consumeRun_fits]
      constructor
      · intro h hmax w hw hd
        exact h w hw hd (hmax ▸ UInt64.le_MAX _) hmax
      · intro h w hw hd _ hmax
        exact h hmax w hw hd
    rw [List.foldlM_cons, Checked.fits_bind, Bool.and_eq_true, ih, hone, List.forall_mem_cons]
    simp

/-- A wanted run that starts right after the head, trimmed by what the heads are advanced past,
starts right after the new head. -/
theorem trimmed_follows (h : (advanceAll heads ranges).value = .ok heads')
    (hclear : ∀ c ∈ ranges, c.last = UInt64.MAX → w.device ≠ c.device)
    (hw : w.first.toNat = (heads.get w.device).toNat + 1) :
    (trimmed ranges w).first.toNat = (heads'.get w.device).toNat + 1 := by
  induction ranges generalizing heads w with
  | nil =>
    cases h
    exact hw
  | cons c ranges ih =>
    obtain ⟨next, hnext, hrest⟩ := advanceAll_cons_ok.1 h
    obtain ⟨-, hpast, rfl⟩ := advance_eq_ok.1 hnext
    have hstep : (consumeRun c w).value.first.toNat =
        (Heads.get (heads.insert c.device c.last) w.device).toNat + 1 := by
      rw [Heads.get_insert, consumeRun]
      by_cases hd : w.device = c.device
      · have hreach : w.first ≤ c.last := by
          rw [UInt64.le_iff_toNat_le, hw, hd]
          exact UInt64.lt_iff_toNat_lt.1 hpast
        rw [if_pos ⟨hd, hreach⟩, if_pos hd]
        exact UInt64.toNat_succ fun hmax => hclear c List.mem_cons_self hmax hd
      · rw [if_neg fun hc => hd hc.1, if_neg hd]
        exact hw
    have hrec := @ih (heads.insert c.device c.last) (consumeRun c w).value hrest
    rw [consumeRun_device] at hrec
    exact hrec (fun q hq => hclear q (List.mem_cons_of_mem _ hq)) hstep

end Txtodo
