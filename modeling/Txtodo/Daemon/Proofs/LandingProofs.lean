import Txtodo.Daemon.Landing
import Txtodo.Sync.Proofs.SessionProofs

/-!
# What landing a batch leaves

A batch the session took is cut to the ops that landed. The cut runs are exactly those ops; the
session commits them when each run that has an op landed has one landed past the head it follows.
-/

namespace Txtodo

variable {Key : Type} {workspace : WorkspaceId} {heads heads' : Heads} {r : OriginRange}
  {ranges : List OriginRange} {left : UInt64} {n : Nat}

namespace OriginRange

/-- The start of a run, `n` numbers long at most. -/
def cut (r : OriginRange) (n : Nat) : OriginRange :=
  { r with last := .ofNat (r.first.toNat + min r.width n - 1) }

theorem toNat_cut_last (hle : r.first ≤ r.last) :
    (r.cut n).last.toNat = r.first.toNat + min r.width n - 1 := by
  have hle' := UInt64.le_iff_toNat_le.1 hle
  have hlast := r.last.toNat_lt
  have hwidth : r.width = r.last.toNat + 1 - r.first.toNat := rfl
  exact UInt64.toNat_ofNat'.trans (Nat.mod_eq_of_lt (by omega))

/-- A run cut no shorter than it is stays whole. -/
theorem cut_whole (hle : r.first ≤ r.last) (hn : r.width ≤ n) : r.cut n = r := by
  have hle' := UInt64.le_iff_toNat_le.1 hle
  have hlast : (r.cut n).last = r.last := by
    rw [← UInt64.toNat_inj, toNat_cut_last hle, min_eq_left hn, width]
    omega
  obtain ⟨device, first, last⟩ := r
  simp only [cut, mk.injEq, true_and] at hlast ⊢
  exact hlast

theorem seqs_cut (hle : r.first ≤ r.last) (hn : 0 < n) : (r.cut n).seqs = r.seqs.take n := by
  have hwidth : (r.cut n).width = min r.width n := by
    have hpos := width_pos hle
    have hfirst : (r.cut n).first = r.first := rfl
    rw [width, toNat_cut_last hle, hfirst]
    omega
  rw [seqs, hwidth, seqs, ← List.map_take]
  rcases le_total r.width n with hle' | hle'
  · rw [List.take_range'_of_length_le hle', min_eq_left hle']
    rfl
  · rw [List.take_range'_of_length_ge hle', min_eq_right hle']
    rfl

end OriginRange

/-- The first `landed` numbers of a batch's runs, in order. -/
def landedSeqs (ranges : List OriginRange) (landed : Nat) : List (DeviceId × Nat) :=
  (ranges.flatMap OriginRange.seqs).take landed

/-- Each run with an op among the `left` that land has one past the head it follows, and none of
them covers every number there is. -/
def LandsPast : Heads → List OriginRange → Nat → Prop
  | _, [], _ => True
  | heads, r :: ranges, left => left = 0 ∨
    (heads.get r.device).toNat + 1 < r.first.toNat + left ∧ ¬(r.first = 0 ∧ r.last = UInt64.MAX) ∧
      LandsPast (heads.insert r.device r.last) ranges (left - r.width)

/-! ## The cut runs -/

@[simp] theorem landedRanges_zero : (landedRanges ranges 0).value = [] := by
  cases ranges <;> rfl

/-- What is left for the runs after one, as the code computes it. -/
theorem left_sub_take (hle : r.first ≤ r.last) (hwidth : r.width < 2 ^ 64) :
    left - min (r.last - r.first + 1) left = .ofNat (left.toNat - r.width) := by
  have hleft := left.toNat_lt
  have htake : (min (r.last - r.first + 1) left).toNat = min r.width left.toNat := by
    rw [UInt64.toNat_min, (OriginRange.toNat_width hle hwidth).2.2]
  rw [← UInt64.toNat_inj, UInt64.toNat_sub_of_le _ _ (min_le_right _ _), htake, UInt64.toNat_ofNat',
    Nat.mod_eq_of_lt] <;> omega

/-- One run of the cut: what it takes, and what is left for the runs after it. -/
theorem landedRanges_cons (hle : r.first ≤ r.last) (hspan : ¬(r.first = 0 ∧ r.last = UInt64.MAX))
    (hleft : left ≠ 0) : (landedRanges (r :: ranges) left).value =
      r.cut left.toNat :: (landedRanges ranges (.ofNat (left.toNat - r.width))).value := by
  have hle' := UInt64.le_iff_toNat_le.1 hle
  have hlast := r.last.toNat_lt
  have hleft' := UInt64.toNat_pos hleft
  have hwidth := OriginRange.width_lt hspan
  have hwidth' : r.width = r.last.toNat + 1 - r.first.toNat := rfl
  have htake : (min (r.last - r.first + 1) left).toNat = min r.width left.toNat := by
    rw [UInt64.toNat_min, (OriginRange.toNat_width hle hwidth).2.2]
  have hend : r.first + min (r.last - r.first + 1) left - 1 = (r.cut left.toNat).last := by
    rw [← UInt64.toNat_inj, OriginRange.toNat_cut_last hle, UInt64.toNat_sub, UInt64.toNat_add,
      htake, UInt64.toNat_one]
    omega
  rw [landedRanges, if_neg hleft]
  simp only [Checked.value_bind, Checked.value_sub, Checked.value_add, Checked.value_pure, hend,
    left_sub_take hle hwidth]
  rfl

theorem landedSeqs_cons :
    landedSeqs (r :: ranges) n = r.seqs.take n ++ landedSeqs ranges (n - r.width) := by
  rw [landedSeqs, List.flatMap_cons, List.take_append, OriginRange.length_seqs]
  rfl

/-- The head of the list cut as `LandsPast` allows, with what is left for the rest. -/
theorem landedRanges_past (hle : r.first ≤ r.last) (hpast : LandsPast heads (r :: ranges) left.toNat) :
    left = 0 ∨ left ≠ 0 ∧ (heads.get r.device).toNat + 1 < r.first.toNat + left.toNat ∧
      LandsPast (heads.insert r.device r.last) ranges (left.toNat - r.width) ∧
      (landedRanges (r :: ranges) left).value =
        r.cut left.toNat :: (landedRanges ranges (.ofNat (left.toNat - r.width))).value := by
  rcases hpast with hzero | ⟨hhead, hspan, hrest⟩
  · exact .inl (UInt64.toNat_inj.1 hzero)
  · by_cases hleft : left = 0
    · exact .inl hleft
    · exact .inr ⟨hleft, hhead, hrest, landedRanges_cons hle hspan hleft⟩

theorem toNat_ofNat_left (width : Nat) :
    (UInt64.ofNat (left.toNat - width)).toNat = left.toNat - width := by
  have hleft := left.toNat_lt
  exact UInt64.toNat_ofNat'.trans (Nat.mod_eq_of_lt (by omega))

/-- Each cut run is the start of a run of the batch. -/
theorem mem_landedRanges (hle : ∀ r ∈ ranges, r.first ≤ r.last)
    (hpast : LandsPast heads ranges left.toNat) {q : OriginRange}
    (hq : q ∈ (landedRanges ranges left).value) :
    q.first ≤ q.last ∧ ∃ r ∈ ranges, r.device = q.device ∧ r.first ≤ q.first ∧ q.last ≤ r.last := by
  induction ranges generalizing heads left with
  | nil => exact absurd hq List.not_mem_nil
  | cons r ranges ih =>
    have hr := hle r List.mem_cons_self
    rcases landedRanges_past hr hpast with rfl | ⟨hleft, -, hrest, heq⟩
    · rw [landedRanges_zero] at hq
      exact absurd hq List.not_mem_nil
    · rw [heq, List.mem_cons] at hq
      rcases hq with rfl | hq
      · have hle' := UInt64.le_iff_toNat_le.1 hr
        have hpos := UInt64.toNat_pos hleft
        have hlast := OriginRange.toNat_cut_last hr (n := left.toNat)
        have hwidth : r.width = r.last.toNat + 1 - r.first.toNat := rfl
        refine ⟨UInt64.le_iff_toNat_le.2 ?_, r, List.mem_cons_self, rfl, le_rfl,
          UInt64.le_iff_toNat_le.2 ?_⟩
        · rw [hlast]
          change r.first.toNat ≤ _
          omega
        · rw [hlast]
          omega
      · rw [← toNat_ofNat_left] at hrest
        obtain ⟨hforward, q', hq', hstart⟩ := ih (fun q hq => hle q (List.mem_cons_of_mem _ hq)) hrest hq
        exact ⟨hforward, q', List.mem_cons_of_mem _ hq', hstart⟩

/-- The cut runs are the numbers that landed. -/
theorem seqs_landedRanges (hle : ∀ r ∈ ranges, r.first ≤ r.last)
    (hpast : LandsPast heads ranges left.toNat) :
    (landedRanges ranges left).value.flatMap OriginRange.seqs = landedSeqs ranges left.toNat := by
  induction ranges generalizing heads left with
  | nil => exact List.take_nil.symm
  | cons r ranges ih =>
    have hr := hle r List.mem_cons_self
    rcases landedRanges_past hr hpast with rfl | ⟨hleft, -, hrest, heq⟩
    · rw [landedRanges_zero]
      rfl
    · have hpos := UInt64.toNat_pos hleft
      rw [← toNat_ofNat_left] at hrest
      rw [heq, List.flatMap_cons, OriginRange.seqs_cut hr hpos, landedSeqs_cons,
        ih (fun q hq => hle q (List.mem_cons_of_mem _ hq)) hrest, toNat_ofNat_left]

/-- Heads take the cut runs when they take the whole batch and each cut reaches past its head. -/
theorem advanceAll_landedRanges (hle : ∀ r ∈ ranges, r.first ≤ r.last)
    (hadvance : (advanceAll heads ranges).value = .ok heads')
    (hpast : LandsPast heads ranges left.toNat) :
    ∃ landed, (advanceAll heads (landedRanges ranges left).value).value = .ok landed := by
  induction ranges generalizing heads left with
  | nil => exact ⟨heads, rfl⟩
  | cons r ranges ih =>
    have hr := hle r List.mem_cons_self
    obtain ⟨next, hnext, hadvance'⟩ := advanceAll_cons_ok.1 hadvance
    obtain ⟨hfirst, hlast, rfl⟩ := advance_eq_ok.1 hnext
    rcases landedRanges_past hr hpast with rfl | ⟨hleft, hhead, hrest, heq⟩
    · exact ⟨heads, by rw [landedRanges_zero]; rfl⟩
    · rw [heq]
      by_cases hwhole : r.width ≤ left.toNat
      · rw [← toNat_ofNat_left] at hrest
        obtain ⟨landed, hlanded⟩ := ih (fun q hq => hle q (List.mem_cons_of_mem _ hq)) hadvance' hrest
        rw [OriginRange.cut_whole hr hwhole]
        exact ⟨landed, advanceAll_cons_ok.2 ⟨_, hnext, hlanded⟩⟩
      · have hnone : left.toNat - r.width = 0 := by omega
        have hpast' : heads.get r.device < (r.cut left.toNat).last := by
          rw [UInt64.lt_iff_toNat_lt, OriginRange.toNat_cut_last hr]
          omega
        have hcut : (advance heads (r.cut left.toNat)).value =
            .ok (heads.insert r.device (r.cut left.toNat).last) :=
          advance_eq_ok.2 ⟨hfirst, hpast', rfl⟩
        have hnil : (landedRanges ranges (.ofNat 0)).value = [] := landedRanges_zero
        rw [hnone, hnil]
        exact ⟨_, advanceAll_cons_ok.2 ⟨_, hcut, rfl⟩⟩

theorem LandsPast.zero : LandsPast heads ranges 0 := by
  cases ranges with
  | nil => trivial
  | cons r ranges => exact .inl rfl

theorem not_mem_take_seqs (hr : r.first = 0) (hlast : r.last = UInt64.MAX) :
    ∀ e ∈ r.seqs.take left.toNat, e.2 < UInt64.MAX.toNat := by
  intro e he
  have hleft := left.toNat_lt
  rw [OriginRange.seqs, ← List.map_take, List.mem_map] at he
  obtain ⟨m, hm, rfl⟩ := he
  have hwidth : left.toNat ≤ r.width := by
    rw [OriginRange.width, hr, hlast, UInt64.toNat_MAX, UInt64.toNat_zero]
    omega
  rw [List.take_range'_of_length_ge hwidth, hr, List.mem_range'_1, UInt64.toNat_zero] at hm
  rw [UInt64.toNat_MAX]
  omega

/-- A run of every number there is has a width that wraps to 0 and is taken whole. -/
theorem landedRanges_span (hfirst : r.first = 0) (hlast : r.last = UInt64.MAX) (hleft : left ≠ 0)
    (ranges : List OriginRange) : ∃ rest, (landedRanges (r :: ranges) left).value = r :: rest := by
  obtain ⟨device, first, last⟩ := r
  obtain rfl : first = 0 := hfirst
  obtain rfl : last = UInt64.MAX := hlast
  have htake : min (UInt64.MAX - 0 + 1) left = 0 := min_eq_left (UInt64.le_iff_toNat_le.2 (Nat.zero_le _))
  rw [landedRanges, if_neg hleft]
  simp only [Checked.value_bind, Checked.value_sub, Checked.value_add, Checked.value_pure, htake]
  exact ⟨_, rfl⟩

/-- A cut that does not reach past its heads is refused, or jumps to the last number though that did
not land. -/
theorem not_advanceAll_landedRanges (hle : ∀ r ∈ ranges, r.first ≤ r.last)
    (hadvance : (advanceAll heads ranges).value = .ok heads')
    (hpast : ¬LandsPast heads ranges left.toNat) {landed : Heads}
    (hlanded : (advanceAll heads (landedRanges ranges left).value).value = .ok landed) :
    ∃ device, heads.get device < UInt64.MAX ∧ landed.get device = UInt64.MAX ∧
      (device, UInt64.MAX.toNat) ∉ landedSeqs ranges left.toNat := by
  induction ranges generalizing heads left with
  | nil => exact absurd trivial hpast
  | cons r ranges ih =>
    have hr := hle r List.mem_cons_self
    have hr' := UInt64.le_iff_toNat_le.1 hr
    obtain ⟨next, hnext, hadvance'⟩ := advanceAll_cons_ok.1 hadvance
    obtain ⟨hfirst, hlast, rfl⟩ := advance_eq_ok.1 hnext
    have hlast' := UInt64.lt_iff_toNat_lt.1 hlast
    have hwidth : r.width = r.last.toNat + 1 - r.first.toNat := rfl
    have hleft : left ≠ 0 := fun hzero => hpast (hzero ▸ .inl rfl)
    by_cases hspan : r.first = 0 ∧ r.last = UInt64.MAX
    · -- the width of the run wraps to 0: it is taken whole and nothing of `left` is spent
      obtain ⟨rest, hrest⟩ := landedRanges_span hspan.1 hspan.2 hleft ranges
      rw [hrest] at hlanded
      obtain ⟨next, hnext', hlanded'⟩ := advanceAll_cons_ok.1 hlanded
      obtain ⟨-, -, rfl⟩ := advance_eq_ok.1 hnext'
      have hmax := get_le_advanceAll hlanded' r.device
      rw [Heads.get_insert, if_pos rfl, hspan.2] at hmax
      refine ⟨r.device, hspan.2 ▸ hlast, le_antisymm (UInt64.le_MAX _) hmax, ?_⟩
      have hshort : left.toNat - r.width = 0 := by
        have hless := left.toNat_lt
        rw [hwidth, hspan.1, hspan.2, UInt64.toNat_MAX, UInt64.toNat_zero]
        omega
      rw [landedSeqs_cons, hshort, List.mem_append, not_or]
      exact ⟨fun hmem => (not_mem_take_seqs hspan.1 hspan.2 _ hmem).false, by simp [landedSeqs]⟩
    · rw [landedRanges_cons hr hspan hleft] at hlanded
      obtain ⟨next, hcut, hlanded'⟩ := advanceAll_cons_ok.1 hlanded
      obtain ⟨-, hcutlast, rfl⟩ := advance_eq_ok.1 hcut
      rw [UInt64.lt_iff_toNat_lt, OriginRange.toNat_cut_last hr] at hcutlast
      have hcutlast' : (heads.get r.device).toNat < r.first.toNat + min r.width left.toNat - 1 := hcutlast
      have hrest : ¬LandsPast (heads.insert r.device r.last) ranges (left.toNat - r.width) :=
        fun hrest => hpast (.inr ⟨by omega, hspan, hrest⟩)
      have hwhole : r.width ≤ left.toNat := by
        by_contra hshort
        have hnone : left.toNat - r.width = 0 := by omega
        rw [hnone] at hrest
        exact hrest .zero
      rw [OriginRange.cut_whole hr hwhole] at hlanded'
      rw [← toNat_ofNat_left] at hrest
      obtain ⟨device, hbelow, hmax, hnot⟩ :=
        ih (fun q hq => hle q (List.mem_cons_of_mem _ hq)) hadvance' hrest hlanded'
      have hone : (advanceAll heads [r]).value = .ok (heads.insert r.device r.last) :=
        advanceAll_cons_ok.2 ⟨_, hnext, rfl⟩
      have hbelow' : heads.get device < UInt64.MAX := (get_le_advanceAll hone device).trans_lt hbelow
      refine ⟨device, hbelow', hmax, ?_⟩
      rw [landedSeqs_cons, List.mem_append, not_or, ← toNat_ofNat_left]
      refine ⟨fun hmem => ?_, hnot⟩
      obtain ⟨hd, -, hle'⟩ := (OriginRange.mem_seqs hr).1 (List.mem_of_mem_take hmem)
      rw [Heads.get_insert, if_pos hd] at hbelow
      exact absurd (UInt64.lt_iff_toNat_lt.1 hbelow) (not_lt.2 hle')

/-! ## The session after a batch -/

namespace WorkspaceSession

variable {s : WorkspaceSession} {msg : Message} {keys : DeviceKeys Key} {store : StoreHeads}
  {landed : UInt64} {ops : List Op} {signatures : List Signature} {initial : Heads}
  {reported : List OriginRange}

/-- A batch that leaves its session ready for the next: out of `Importing`, its heads raised to
exactly what landed, that acked, and any batch that follows them taken. -/
structure BatchSettles (workspace : WorkspaceId) (heads : Heads) (ranges : List OriginRange)
    (landed : Nat) (h : Handled) : Prop where
  out : h.session.state = .idle ∨ h.session.state = .wanting
  grown : ∀ device, heads.get device ≤ h.session.heads.get device
  reached : ∀ e ∈ landedSeqs ranges landed, e.2 ≤ (h.session.heads.get e.1).toNat
  furthest : ∀ device, h.session.heads.get device = heads.get device ∨
    (device, (h.session.heads.get device).toNat) ∈ landedSeqs ranges landed
  acked : ∃ committed, h.sent = some (.ack workspace committed) ∧
    committed.flatMap OriginRange.seqs = landedSeqs ranges landed
  next : ∀ (Key : Type) (keys : DeviceKeys Key) ops signatures ranges heads',
    verifyBatch ops signatures keys = .ok () →
      (advanceAll h.session.heads ranges).value = .ok heads' →
        (h.session.onOps workspace (.ops workspace ops signatures ranges) keys).value.1 = .ok ops

theorem covered_landedRanges (hle : ∀ r ∈ ranges, r.first ≤ r.last)
    (hpast : LandsPast heads ranges left.toNat) {q : OriginRange}
    (hq : q ∈ (landedRanges ranges left).value) : covered ranges q = true := by
  obtain ⟨-, r, hr, hdevice, hfirst, hlast⟩ := mem_landedRanges hle hpast hq
  rw [covered, List.any_eq_true]
  exact ⟨r, hr, by simp [hdevice, hfirst, hlast]⟩

/-- A number is among those of some runs when one of them reaches over it. -/
theorem mem_flatMap_seqs (hle : ∀ r ∈ ranges, r.first ≤ r.last) {device : DeviceId} {seq : UInt64} :
    (device, seq.toNat) ∈ ranges.flatMap OriginRange.seqs ↔
      ∃ r ∈ ranges, r.device = device ∧ r.first ≤ seq ∧ seq ≤ r.last := by
  rw [List.mem_flatMap]
  refine exists_congr fun r => and_congr_right fun hr => ?_
  rw [OriginRange.mem_seqs (hle r hr), UInt64.le_iff_toNat_le, UInt64.le_iff_toNat_le, eq_comm]

/-- The batch in flight is cut to what landed and committed. -/
theorem commitAndAck_settles (hstate : s.state = .importing) (hgreeted : s.greeted = true)
    (hinflight : s.inflight = ranges) (hle : ∀ r ∈ ranges, r.first ≤ r.last)
    (hadvance : (advanceAll s.heads ranges).value = .ok heads')
    (hgate : followsStoreHeads store ranges = true) (hpast : LandsPast s.heads ranges landed.toNat) :
    BatchSettles workspace s.heads ranges landed.toNat
      ⟨(s.commitAndAck workspace ranges store landed).value.2,
        (s.commitAndAck workspace ranges store landed).value.1, true⟩ := by
  obtain ⟨grown, hgrown⟩ := advanceAll_landedRanges hle hadvance hpast
  have hcovered : ∀ q ∈ (landedRanges ranges landed).value, covered s.inflight q = true := by
    intro q hq
    rw [hinflight]
    exact covered_landedRanges hle hpast hq
  have hcommit : (s.commitAndAck workspace ranges store landed).value =
      (some (.ack workspace (landedRanges ranges landed).value),
        { s with heads := grown,
                 wanted := (consume s.wanted (landedRanges ranges landed).value).value,
                 inflight := [],
                 state := settled (consume s.wanted (landedRanges ranges landed).value).value }) := by
    rw [commitAndAck, if_neg (not_not.2 hgate)]
    simp only [Checked.value_bind, committed_ok hstate hcovered hgrown]
    rfl
  have hseqs := seqs_landedRanges hle hpast
  have hforward : ∀ q ∈ (landedRanges ranges landed).value, q.first ≤ q.last :=
    fun q hq => (mem_landedRanges hle hpast hq).1
  have hholds : ∀ device seq, seq ≤ grown.get device ↔ seq ≤ s.heads.get device ∨
      (device, seq.toNat) ∈ landedSeqs ranges landed.toNat := by
    intro device seq
    rw [le_get_advanceAll hgrown, ← hseqs, mem_flatMap_seqs hforward]
  rw [hcommit]
  refine ⟨settled_eq _, fun device => (hholds device _).2 (.inl le_rfl), ?_, ?_, ?_, ?_⟩
  · rintro ⟨device, seq⟩ he
    rw [← hseqs, List.mem_flatMap] at he
    obtain ⟨q, hq, hmem⟩ := he
    obtain ⟨hd, -, hlast⟩ := (OriginRange.mem_seqs (hforward q hq)).1 hmem
    have hreached := (le_get_advanceAll hgrown q.device q.last).2 (.inr ⟨q, hq, rfl, hforward q hq, le_rfl⟩)
    obtain rfl : device = q.device := hd
    exact hlast.trans (UInt64.le_iff_toNat_le.1 hreached)
  · intro device
    rcases (hholds device _).1 le_rfl with hheld | hlanded
    · exact .inl (le_antisymm hheld ((hholds device _).2 (.inl le_rfl)))
    · exact .inr hlanded
  · exact ⟨_, rfl, hseqs⟩
  · intro Key keys ops signatures ranges' heads'' hverify hadvance'
    refine congrArg Prod.fst (onOps_ok ?_ hverify hadvance')
    rw [takesOps]
    rcases settled_eq (consume s.wanted (landedRanges ranges landed).value).value with h | h
    · simp [h, hgreeted]
    · simp [h]

/-- A batch in flight that settles passed the gate, and its cut reaches past the heads. -/
theorem settles_only_if (hstate : s.state = .importing) (hle : ∀ r ∈ ranges, r.first ≤ r.last)
    (hadvance : (advanceAll s.heads ranges).value = .ok heads')
    (hsettles : BatchSettles workspace s.heads ranges landed.toNat
      ⟨(s.commitAndAck workspace ranges store landed).value.2,
        (s.commitAndAck workspace ranges store landed).value.1, true⟩) :
    followsStoreHeads store ranges = true ∧ LandsPast s.heads ranges landed.toNat := by
  have hnot : (s.commitAndAck workspace ranges store landed).value.2 ≠ s := by
    intro hsame
    have hout := hsettles.out
    simp [hsame, hstate] at hout
  have hgate : followsStoreHeads store ranges = true := by
    by_contra hrefused
    refine hnot ?_
    rw [commitAndAck, if_pos hrefused]
    rfl
  refine ⟨hgate, ?_⟩
  by_contra hpast
  have hcommit : (s.commitAndAck workspace ranges store landed).value.2 =
      (s.committed workspace (landedRanges ranges landed).value).value.2 := by
    rw [commitAndAck, if_neg (not_not.2 hgate)]
    rfl
  obtain ⟨e, h⟩ | ⟨grown, -, -, hgrown, h⟩ :=
    s.committed_cases workspace (landedRanges ranges landed).value
  · exact hnot (hcommit.trans (congrArg Prod.snd h))
  · obtain ⟨device, hbelow, hmax, hmissing⟩ := not_advanceAll_landedRanges hle hadvance hpast hgrown
    have hheads : (s.commitAndAck workspace ranges store landed).value.2.heads = grown := by
      rw [hcommit, h]
    have hfurthest := hsettles.furthest device
    rw [hheads, hmax] at hfurthest
    rcases hfurthest with hold | hlanded
    · exact hbelow.ne hold.symm
    · exact hmissing hlanded

theorem forwards_of_checkCaps (h : (Message.ops workspace ops signatures ranges).checkCaps = .ok ()) :
    ∀ r ∈ ranges, r.first ≤ r.last := by
  have hranges : rangesOk "ops ranges" ranges = .ok () := by
    simp only [Message.checkCaps] at h
    cases hcap : cap "ops" ops.length MAX_OPS_PER_BATCH with
    | error e => simp [hcap, bind, Except.bind] at h
    | ok _ =>
      by_cases hlen : ops.length = signatures.length
      · rw [hcap] at h
        simpa [hlen, bind, Except.bind, pure, Except.pure] using h
      · simp [hcap, hlen, bind, Except.bind] at h
  intro r hr
  unfold rangesOk at hranges
  cases hcap : cap "ops ranges" ranges.length MAX_WANT_RANGES with
  | error e => simp [hcap, bind, Except.bind] at hranges
  | ok _ =>
    cases hfind : ranges.find? fun r => r.last < r.first with
    | some r => simp [hcap, hfind, bind, Except.bind] at hranges
    | none => simpa using List.find?_eq_none.1 hfind r hr

/-- A batch a session takes leaves it ready for the next exactly when the store's heads let it
commit and each run with an op landed has one landed past the head it follows. -/
theorem handleOps_settles
    (run : SessionRun workspace initial (fun _ (_ : SessionCall Key) => True) s reported)
    (hcaps : (Message.ops workspace ops signatures ranges).checkCaps = .ok ())
    (htaken : ((s.catchUp store.heads).value.onOps workspace (.ops workspace ops signatures ranges)
      keys).value.1 = .ok ops) :
    BatchSettles workspace (s.catchUp store.heads).value.heads ranges landed.toNat
        (s.handleOps workspace (.ops workspace ops signatures ranges) ranges keys store landed).value ↔
      followsStoreHeads store ranges = true ∧
        LandsPast (s.catchUp store.heads).value.heads ranges landed.toNat := by
  have hle := forwards_of_checkCaps hcaps
  obtain ⟨caught, hcaught⟩ : ∃ caught, caught = (s.catchUp store.heads).value := ⟨_, rfl⟩
  have hrun : SessionRun workspace initial (fun _ (_ : SessionCall Key) => True) caught
      (reported ++ SessionCall.reported workspace s (.catchUp store.heads : SessionCall Key)) := by
    rw [hcaught]
    have happly : ((SessionCall.catchUp store.heads : SessionCall Key).apply workspace s).value.2 =
        (s.catchUp store.heads).value := rfl
    exact happly ▸ .call run trivial
  rw [← hcaught] at htaken ⊢
  obtain ⟨e, h⟩ | ⟨ops', signatures', ranges', heads', htakes, hmsg, -, hadvance, h⟩ :=
    caught.onOps_cases workspace (.ops workspace ops signatures ranges) keys
  · rw [h] at htaken
    cases htaken
  · obtain ⟨-, rfl, rfl, rfl⟩ := Message.ops.inj hmsg
    have hgreeted : caught.greeted = true := by
      rcases Bool.or_eq_true_iff.1 htakes with hwanting | hpushed
      · exact hrun.greeted (.inl (by simpa using hwanting))
      · exact (Bool.and_eq_true_iff.1 hpushed).2
    obtain ⟨batch, hbatch⟩ : ∃ batch : WorkspaceSession,
        batch = { caught with inflight := ranges, state := .importing } := ⟨_, rfl⟩
    have hhandled : (s.handleOps workspace (.ops workspace ops signatures ranges) ranges keys store
        landed).value = ⟨(batch.commitAndAck workspace ranges store landed).value.2,
          (batch.commitAndAck workspace ranges store landed).value.1, true⟩ := by
      rw [handleOps, hbatch]
      simp only [Checked.value_bind, ← hcaught, h]
      rfl
    have hheads : batch.heads = caught.heads := by rw [hbatch]
    rw [← hheads] at hadvance ⊢
    rw [hhandled]
    constructor
    · exact fun hsettles => settles_only_if (by rw [hbatch]) hle hadvance hsettles
    · rintro ⟨hgate, hpast⟩
      exact commitAndAck_settles (by rw [hbatch]) (by rw [hbatch]; exact hgreeted) (by rw [hbatch]) hle
        hadvance hgate hpast

end WorkspaceSession

namespace SessionSample

open WorkspaceSession

/-- A batch of one op. -/
def oneOp : List Op := [⟨⟨0⟩, ⟨0, 0, peer⟩, ⟨"todo.txt".toList⟩, .blankInsert none⟩]

def oneSignature : List Signature := [⟨[]⟩]

/-- A store that holds nothing, its heads read as `head`. -/
def emptyStore (head : Option UInt64) : StoreHeads := ⟨.empty, fun _ => head⟩

/-- The batch that brings it. -/
def oneOpBatch : Message := .ops shared oneOp oneSignature (wholeRun 1)

/-- Three ops in one batch. -/
def threeOpBatch : Message :=
  .ops shared (oneOp ++ oneOp ++ oneOp) (oneSignature ++ oneSignature ++ oneSignature) (wholeRun 3)

/-- A store that holds the first of them. -/
def oneHeld : StoreHeads := ⟨.insert peer 1 .empty, fun _ => some 1⟩

/-- Three ops wanted and sent; the store got the first elsewhere, and only the second lands. -/
theorem handleOps_settles_overlap :
    BatchSettles shared ((wanting 3).catchUp oneHeld.heads).value.heads (wholeRun 3) (2 : UInt64).toNat
      ((wanting 3).handleOps shared threeOpBatch (wholeRun 3) anyKey oneHeld 2).value := by
  have run := wanting_run 3 (fun _ _ => True) trivial fun _ => trivial
  have htaken : (((wanting 3).catchUp oneHeld.heads).value.onOps shared threeOpBatch
      anyKey).value.1 = .ok (oneOp ++ oneOp ++ oneOp) := rfl
  have hpast : LandsPast ((wanting 3).catchUp oneHeld.heads).value.heads (wholeRun 3)
      (2 : UInt64).toNat := .inr ⟨by decide, by decide, trivial⟩
  exact (handleOps_settles run rfl htaken).2 ⟨by decide, hpast⟩

/-- The store's head cannot be read: nothing commits, the session is left importing, and the same
batch sent again is refused for that. -/
theorem unread_head_wedges :
    SessionRun shared .empty (fun _ (_ : SessionCall Unit) => True) (wanting 1) [] ∧
      ∃ h : Handled,
        h = ((wanting 1).handleOps shared oneOpBatch (wholeRun 1) anyKey (emptyStore none) 1).value ∧
        h.session.state = .importing ∧ h.sent = none ∧
        ¬BatchSettles shared .empty (wholeRun 1) 1 h ∧
        (h.session.onOps shared oneOpBatch anyKey).value.1 = .error (.unexpected .importing "Ops") := by
  refine ⟨wanting_run 1 (fun _ _ => True) trivial fun _ => trivial, _, rfl, rfl, rfl, fun hsettles => ?_, rfl⟩
  rcases hsettles.out with hidle | hwanting
  · cases hidle
  · cases hwanting

end SessionSample

end Txtodo
