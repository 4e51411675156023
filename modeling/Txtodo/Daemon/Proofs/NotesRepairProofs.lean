import Txtodo.Daemon.NotesRepair
import Txtodo.Daemon.Proofs.HistoryReadProofs
import Txtodo.Engine.Proofs.TextEditProofs
import Txtodo.Engine.Proofs.TextHistoryProofs

/-!
# Proofs: repairing a notes log

A replay takes the log's ops as an import takes them, wherever the batches are cut. A repair that is the
newest edit of the log leaves the waiting edits below it, where they fit no better than before.
-/

namespace Txtodo

/-! ## The replay of the whole log -/

section Replay
variable {log : OpTable} {path : FilePath} {q : NotesQueue}

/-- A document's ops in the order of the log. -/
def OpTable.opsOf (log : OpTable) (path : FilePath) : List Op := (log.ofFile path).map (·.op)

theorem NotesQueue.apply_append (q : NotesQueue) (ops more : List Op) :
    q.apply (ops ++ more) = NotesQueue.apply (q.apply ops) more :=
  Waiting.takeAll_append q ops more

/-- A read of a whole log takes the ops left of it. -/
theorem replayNotesFrom_eq {target pages since : Nat} {pre rest : List Stored}
    (hlog : log.ofFile path = pre ++ rest) (hpre : ∀ s ∈ pre, s.seq ≤ since)
    (hrest : ∀ s ∈ rest, since < s.seq) (htarget : ∀ s ∈ rest, s.seq ≤ target)
    (h : (replayNotesFrom log path target pages since q).complete = true) :
    (replayNotesFrom log path target pages since q).queue = q.apply (rest.map (·.op)) := by
  induction pages generalizing since q pre rest with
  | zero => cases h
  | succ pages ih =>
    unfold replayNotesFrom at h ⊢
    rw [forFile_of_split hlog hpre hrest] at h ⊢
    by_cases hnil : rest.take MAX_OPS_PER_READ = []
    · have hempty : rest = [] := (List.take_eq_nil_iff.1 hnil).resolve_left (by decide)
      subst hempty
      rfl
    obtain ⟨front, last, hpage⟩ : ∃ front last, rest.take MAX_OPS_PER_READ = front ++ [last] :=
      ⟨_, _, (List.dropLast_append_getLast hnil).symm⟩
    have hlast : (rest.take MAX_OPS_PER_READ).getLast? = some last := by
      rw [hpage, List.getLast?_concat]
    have hall : (rest.take MAX_OPS_PER_READ).takeWhile (fun s => decide (s.seq ≤ target)) =
        rest.take MAX_OPS_PER_READ :=
      List.takeWhile_eq_self_iff.2 fun s hs => decide_eq_true (htarget s (List.mem_of_mem_take hs))
    have hsplit : log.ofFile path = (pre ++ front ++ [last]) ++ rest.drop MAX_OPS_PER_READ := by
      rw [hlog, List.append_assoc pre, ← hpage, List.append_assoc, List.take_append_drop]
    obtain ⟨hbefore, hafter⟩ := Paging.bounds_of_up (hsplit ▸ log.sorted_ofFile path)
    dsimp only at h ⊢
    rw [hlast] at h ⊢
    dsimp only at h ⊢
    rw [hall] at h ⊢
    have hparts : q.apply (rest.map (·.op)) =
        NotesQueue.apply (q.apply ((rest.take MAX_OPS_PER_READ).map (·.op)))
          ((rest.drop MAX_OPS_PER_READ).map (·.op)) := by
      rw [← NotesQueue.apply_append, ← List.map_append, List.take_append_drop]
    rw [hparts]
    split at h
    · next hend =>
      rw [if_pos hend]
      have hempty : rest.drop MAX_OPS_PER_READ = [] := by
        rcases Bool.or_eq_true_iff.1 hend with hreached | hshort
        · refine List.eq_nil_iff_forall_not_mem.2 fun s hs => ?_
          have hlt := hafter s hs
          have hle := htarget s (List.mem_of_mem_drop hs)
          have hge := of_decide_eq_true hreached
          omega
        · have hlen := of_decide_eq_true hshort
          rw [List.length_take] at hlen
          exact List.drop_eq_nil_of_le (by omega)
      rw [hempty]
      rfl
    · next hend =>
      rw [if_neg hend]
      exact ih hsplit hbefore hafter (fun s hs => htarget s (List.mem_of_mem_drop hs)) h

theorem seq_le_totalOps {s : Stored} (h : s ∈ log.ofFile path) : s.seq ≤ log.totalOps := by
  have hmem := (OpTable.mem_ofFile.1 h).1
  rw [OpTable.stored, List.mem_mapIdx] at hmem
  obtain ⟨i, hi, rfl⟩ := hmem
  rw [OpTable.ops, List.length_map] at hi
  exact hi

/-- A replay that read the whole log took its ops in order. -/
theorem replayLeniently_eq (h : (replayLeniently log path none).complete = true) :
    (replayLeniently log path none).queue = (NotesQueue.empty path).apply (log.opsOf path) :=
  replayNotesFrom_eq (List.nil_append _).symm (List.forall_mem_nil _)
    (fun _ hs => OpTable.seq_pos (OpTable.mem_ofFile.1 hs).1) (fun _ hs => seq_le_totalOps hs) h

theorem replayNotesFrom_complete {target pages since : Nat} {pre rest : List Stored}
    (hlog : log.ofFile path = pre ++ rest) (hpre : ∀ s ∈ pre, s.seq ≤ since)
    (hrest : ∀ s ∈ rest, since < s.seq) (hlen : rest.length < pages * MAX_OPS_PER_READ) :
    (replayNotesFrom log path target pages since q).complete = true := by
  induction pages generalizing since q pre rest with
  | zero =>
    rw [Nat.zero_mul] at hlen
    exact absurd hlen (Nat.not_lt_zero _)
  | succ pages ih =>
    unfold replayNotesFrom
    rw [forFile_of_split hlog hpre hrest]
    dsimp only
    cases hlast : (rest.take MAX_OPS_PER_READ).getLast? with
    | none => rfl
    | some last =>
      dsimp only
      split
      · rfl
      · next hmore =>
        have hfull : MAX_OPS_PER_READ ≤ rest.length := by
          rw [Bool.or_eq_true_iff, not_or, decide_eq_true_iff, decide_eq_true_iff, List.length_take] at hmore
          omega
        obtain ⟨front, hpage⟩ := List.getLast?_eq_some_iff.1 hlast
        have hsplit : log.ofFile path = (pre ++ front ++ [last]) ++ rest.drop MAX_OPS_PER_READ := by
          rw [hlog, List.append_assoc pre, ← hpage, List.append_assoc, List.take_append_drop]
        obtain ⟨hbefore, hafter⟩ := Paging.bounds_of_up (hsplit ▸ log.sorted_ofFile path)
        refine ih hsplit hbefore hafter ?_
        rw [List.length_drop]
        rw [Nat.succ_mul] at hlen
        omega

/-- A log shorter than the reads allow is read whole. -/
theorem complete_of_length (h : (log.ofFile path).length < MAX_REPLAY_PAGES * MAX_OPS_PER_READ) :
    (replayLeniently log path none).complete = true :=
  replayNotesFrom_complete (List.nil_append _).symm (List.forall_mem_nil _)
    (fun _ hs => OpTable.seq_pos (OpTable.mem_ofFile.1 hs).1) h

end Replay

/-! ## Histories -/

namespace TextHistory

variable {apply : ApplyEdits} {max : Nat} {base T c : Text} {edits : List (Hlc × Change)}

/-- Folding the oldest edits into the base leaves the rest and the replay. -/
theorem trimEdits_spec (apply : ApplyEdits) (max : Nat) (base : Text) (edits : List (Hlc × Change)) :
    (trimEdits apply max base edits).2 <:+ edits ∧
      (trimEdits apply max base edits).2.foldl (replayStep apply) (trimEdits apply max base edits).1 =
        edits.foldl (replayStep apply) base := by
  induction edits generalizing base with
  | nil => exact ⟨List.suffix_refl _, rfl⟩
  | cons e rest ih =>
    unfold trimEdits
    split
    · exact ⟨(ih _).1.trans (List.suffix_cons e rest), (ih _).2⟩
    · exact ⟨List.suffix_refl _, rfl⟩

/-- Kept edits in stamp order, on a base that was never set whole. -/
structure Ordered (h : TextHistory) : Prop where
  sorted : h.edits.Pairwise fun a b => a.1 ≤ b.1
  since : h.since = ⊥

theorem ordered_new (base : Text) : Ordered (new base) := ⟨List.Pairwise.nil, rfl⟩

theorem Ordered.trim {h : TextHistory} (hh : Ordered h) : Ordered (h.trim apply max) :=
  ⟨hh.sorted.sublist (trimEdits_spec apply max h.base h.edits).1.sublist, hh.since⟩

theorem replay_trim (h : TextHistory) : (h.trim apply max).replay apply = h.replay apply :=
  (trimEdits_spec apply max h.base h.edits).2

/-- The edits no newer than a stamp stand in front. -/
theorem Ordered.le_getLast {h : TextHistory} (hh : Ordered h) {at_ : Hlc}
    (hlate : (h.edits.getLast?.any fun e => decide (at_ < e.1)) = false) : ∀ e ∈ h.edits, e.1 ≤ at_ := by
  intro e he
  obtain ⟨front, last, hsplit⟩ : ∃ front last, h.edits = front ++ [last] :=
    ⟨_, _, (List.dropLast_append_getLast (List.ne_nil_of_mem he)).symm⟩
  rw [hsplit, List.getLast?_concat, Option.any_some, decide_eq_false_iff_not, not_lt] at hlate
  have hsorted := hh.sorted
  rw [hsplit] at he hsorted
  rcases List.mem_append.1 he with he | he
  · exact ((List.pairwise_append.1 hsorted).2.2 e he last (List.mem_singleton_self _)).trans hlate
  · rwa [List.mem_singleton.1 he]

theorem sorted_slotIn {e : Hlc × Change} (h : edits.Pairwise fun a b => a.1 ≤ b.1) :
    (slotIn edits e).Pairwise fun a b => a.1 ≤ b.1 := by
  have hsplit : edits = edits.takeWhile (fun x => decide (x.1 ≤ e.1)) ++
      edits.dropWhile fun x => decide (x.1 ≤ e.1) := List.takeWhile_append_dropWhile.symm
  rw [hsplit] at h
  obtain ⟨hfront, hback, hcross⟩ := List.pairwise_append.1 h
  have hhead : ∀ x ∈ edits.dropWhile (fun x => decide (x.1 ≤ e.1)), e.1 ≤ x.1 := by
    intro x hx
    cases hrest : edits.dropWhile fun x => decide (x.1 ≤ e.1) with
    | nil =>
      rw [hrest] at hx
      cases hx
    | cons y rest =>
      have hy := List.head?_dropWhile_not (fun x : Hlc × Change => decide (x.1 ≤ e.1)) edits
      rw [hrest] at hy hx hback
      have hlt : e.1 < y.1 := by simpa using hy
      rcases List.mem_cons.1 hx with rfl | hx
      · exact hlt.le
      · exact hlt.le.trans ((List.pairwise_cons.1 hback).1 x hx)
  rw [slotIn, KeySorted.insertIdx_takeWhile]
  refine List.pairwise_append.2 ⟨hfront, List.pairwise_cons.2 ⟨hhead, hback⟩, fun x hx y hy => ?_⟩
  have hle : x.1 ≤ e.1 := by simpa using List.mem_takeWhile_imp hx
  rcases List.mem_cons.1 hy with rfl | hy
  · exact hle
  · exact hle.trans (hhead y hy)

/-- A recorded change keeps the order, and the text is the new replay. -/
theorem Ordered.record {h h' : TextHistory} (hh : Ordered h) {at_ : Hlc} {change : Change} {text : Text}
    (hrec : h.record (h.replay apply) at_ change (apply, max) = (h', .ok text)) :
    Ordered h' ∧ h'.replay apply = text := by
  have hfloor : ¬at_ < h.since := by rw [hh.since]; exact not_lt_bot
  simp only [TextHistory.record, if_neg hfloor] at hrec
  by_cases hlate : (h.edits.getLast?.any fun e => decide (at_ < e.1)) = true
  · rw [if_pos hlate] at hrec
    obtain ⟨rfl, htext⟩ := Prod.mk.inj hrec
    refine ⟨Ordered.trim ⟨sorted_slotIn hh.sorted, hh.since⟩, ?_⟩
    rw [replay_trim]
    exact Except.ok.inj htext
  · rw [if_neg hlate] at hrec
    have hle := hh.le_getLast (Bool.not_eq_true _ ▸ hlate)
    cases hon : change.on (h.replay apply) apply with
    | error e =>
      rw [hon] at hrec
      cases (Prod.mk.inj hrec).2
    | ok next =>
      rw [hon] at hrec
      obtain ⟨rfl, htext⟩ := Prod.mk.inj hrec
      refine ⟨Ordered.trim ⟨?_, hh.since⟩, ?_⟩
      · refine List.pairwise_append.2 ⟨hh.sorted, List.pairwise_singleton _ _, fun x hx y hy => ?_⟩
        rw [List.mem_singleton.1 hy]
        exact hle x hx
      · rw [replay_trim, replay_concat, replayStep_of_ok hon]
        exact Except.ok.inj htext

/-- A newest change that fits goes at the end. -/
theorem record_newest (max : Nat) {h : TextHistory} {current next : Text} {at_ : Hlc} {change : Change}
    (hsince : h.since = ⊥) (hlate : (h.edits.getLast?.any fun e => decide (at_ < e.1)) = false)
    (hon : change.on current apply = .ok next) : h.record current at_ change (apply, max) =
      (({ h with edits := h.edits ++ [(at_, change)] } : TextHistory).trim apply max, .ok next) := by
  simp only [TextHistory.record, hsince, if_neg not_lt_bot, hlate, hon]
  rfl

/-- A newest change that is taken fitted. -/
theorem on_of_record {h h' : TextHistory} {current text : Text} {at_ : Hlc} {change : Change}
    {how : ApplyEdits × Nat} (hsince : h.since = ⊥)
    (hlate : (h.edits.getLast?.any fun e => decide (at_ < e.1)) = false)
    (hrec : h.record current at_ change how = (h', .ok text)) : change.on current how.1 = .ok text := by
  simp only [TextHistory.record, hsince, if_neg not_lt_bot, hlate, Bool.false_eq_true, if_false] at hrec
  cases hon : change.on current how.1 with
  | error e =>
    rw [hon] at hrec
    cases (Prod.mk.inj hrec).2
  | ok next =>
    rw [hon] at hrec
    exact (Prod.mk.inj hrec).2

/-! ### Below a newest edit -/

/-- Kept edits under the newest one, `top`: those that give the text `T`, then some that do not fit it. No
edit of the first kind is newer than one of `stamps`. -/
def Stack (apply : ApplyEdits) (T : Text) (top : Hlc × Change) (stamps : Hlc → Prop) (base : Text)
    (edits : List (Hlc × Change)) : Prop :=
  ∃ below slotted, edits = below ++ (slotted ++ [top]) ∧ below.foldl (replayStep apply) base = T ∧
    (∀ v ∈ slotted, ∃ e, v.2.on T apply = .error e) ∧ ∀ e ∈ below, ∀ s, stamps s → e.1 ≤ s

variable {top : Hlc × Change} {stamps : Hlc → Prop}

theorem foldl_misfits {slotted : List (Hlc × Change)} (h : ∀ v ∈ slotted, ∃ e, v.2.on T apply = .error e) :
    slotted.foldl (replayStep apply) T = T := by
  induction slotted with
  | nil => rfl
  | cons v slotted ih =>
    obtain ⟨e, he⟩ := h v List.mem_cons_self
    have hskip : replayStep apply T v = T := by rw [replayStep, he]
    rw [List.foldl_cons, hskip, ih fun w hw => h w (List.mem_cons_of_mem _ hw)]

/-- The text of a stack is the newest edit's on `T`. -/
theorem Stack.replay (h : Stack apply T top stamps base edits) (htop : top.2.on T apply = .ok c) :
    edits.foldl (replayStep apply) base = c := by
  obtain ⟨below, slotted, rfl, hbelow, hslotted, -⟩ := h
  rw [List.foldl_append, List.foldl_append, hbelow, foldl_misfits hslotted, List.foldl_cons, List.foldl_nil,
    replayStep_of_ok htop]

theorem Stack.trim (h : Stack apply T top stamps base edits) (hmax : 1 ≤ max) :
    Stack apply T top stamps (trimEdits apply max base edits).1 (trimEdits apply max base edits).2 := by
  induction edits generalizing base with
  | nil =>
    obtain ⟨below, slotted, heq, -⟩ := h
    exact absurd heq (by simp)
  | cons e rest ih =>
    unfold trimEdits
    split
    · next hlen =>
      refine ih ?_
      obtain ⟨below, slotted, heq, hbelow, hslotted, hstamps⟩ := h
      cases below with
      | cons b below =>
        obtain ⟨rfl, rfl⟩ := List.cons.inj heq
        exact ⟨below, slotted, rfl, hbelow, hslotted, fun x hx => hstamps x (List.mem_cons_of_mem _ hx)⟩
      | nil =>
        cases slotted with
        | nil =>
          obtain ⟨rfl, rfl⟩ := List.cons.inj heq
          exact absurd hlen (by rw [List.length_nil]; omega)
        | cons v slotted =>
          obtain ⟨rfl, rfl⟩ := List.cons.inj heq
          obtain ⟨err, herr⟩ := hslotted e List.mem_cons_self
          have hbase : base = T := hbelow
          have hskip : replayStep apply base e = T := by rw [hbase, replayStep, herr]
          refine ⟨[], slotted, rfl, ?_, fun w hw => hslotted w (List.mem_cons_of_mem _ hw), by simp⟩
          rw [hskip]
          rfl
    · exact h

/-- An edit that does not fit `T`, older than the newest one, is slotted in among those that do not. -/
theorem Stack.slot (h : Stack apply T top stamps base edits) {e : Hlc × Change} (hmem : stamps e.1)
    (hold : e.1 < top.1) (hmisfit : ∃ err, e.2.on T apply = .error err) :
    Stack apply T top stamps base (slotIn edits e) := by
  obtain ⟨below, slotted, rfl, hbelow, hslotted, hstamps⟩ := h
  have hfront : (below ++ (slotted ++ [top])).takeWhile (fun x => decide (x.1 ≤ e.1)) =
      below ++ (slotted ++ [top]).takeWhile fun x => decide (x.1 ≤ e.1) :=
    List.takeWhile_append_of_pos fun x hx => decide_eq_true (hstamps x hx e.1 hmem)
  have hback : (below ++ (slotted ++ [top])).dropWhile (fun x => decide (x.1 ≤ e.1)) =
      (slotted ++ [top]).dropWhile fun x => decide (x.1 ≤ e.1) :=
    List.dropWhile_append_of_pos fun x hx => decide_eq_true (hstamps x hx e.1 hmem)
  obtain ⟨slotted', hslot, hmem'⟩ : ∃ slotted', (slotted ++ [top]).takeWhile (fun x => decide (x.1 ≤ e.1)) ++
      e :: (slotted ++ [top]).dropWhile (fun x => decide (x.1 ≤ e.1)) = slotted' ++ [top] ∧
        ∀ v ∈ slotted', v = e ∨ v ∈ slotted := by
    clear hfront hback hslotted
    induction slotted with
    | nil =>
      refine ⟨[e], ?_, fun v hv => .inl (List.mem_singleton.1 hv)⟩
      have hnew : decide (top.1 ≤ e.1) = false := decide_eq_false (not_le.2 hold)
      rw [List.nil_append, List.takeWhile_cons_of_neg (by simp [hnew]),
        List.dropWhile_cons_of_neg (by simp [hnew])]
      rfl
    | cons v slotted ih =>
      by_cases hv : v.1 ≤ e.1
      · obtain ⟨slotted', hslot, hmem'⟩ := ih
        refine ⟨v :: slotted', ?_, fun w hw => ?_⟩
        · simp only [List.cons_append, List.takeWhile_cons, List.dropWhile_cons, hv, decide_true, if_true, hslot]
        · rcases List.mem_cons.1 hw with rfl | hw
          · exact .inr List.mem_cons_self
          · exact (hmem' w hw).imp_right (List.mem_cons_of_mem _)
      · have hnew : decide (v.1 ≤ e.1) = false := decide_eq_false hv
        refine ⟨e :: v :: slotted, ?_, fun w hw => List.mem_cons.1 hw⟩
        rw [List.cons_append, List.takeWhile_cons_of_neg (by simp [hnew]),
          List.dropWhile_cons_of_neg (by simp [hnew])]
        rfl
  refine ⟨below, slotted', ?_, hbelow, fun v hv => ?_, hstamps⟩
  · rw [slotIn, KeySorted.insertIdx_takeWhile, hfront, hback, List.append_assoc, hslot]
  · rcases hmem' v hv with rfl | hv
    · exact hmisfit
    · exact hslotted v hv

end TextHistory

/-! ## The text of a notes document -/

namespace NotesState

variable {s s' : NotesState} {op : Op} {edits : List TextEdit}

/-- The history an edit is recorded in. -/
def kept (s : NotesState) : TextHistory := s.history.getD (TextHistory.new s.text)

/-- The text is the replay of the kept edits, which are in stamp order. -/
structure Rebuilt (s : NotesState) : Prop where
  ordered : s.kept.Ordered
  text : s.kept.replay applyTextEdits = s.text

theorem rebuilt_of_none (h : s.history = none) : Rebuilt s := by
  have hkept : s.kept = TextHistory.new s.text := by rw [kept, h, Option.getD_none]
  exact ⟨hkept ▸ TextHistory.ordered_new _, by rw [hkept]; rfl⟩

/-- An edit of this document is recorded in its history. -/
theorem apply_edit (hkind : op.kind = .notesEdit s.path edits) (hfile : op.file = s.path) : s.apply op =
    match s.kept.record s.text op.hlc (.splice edits) (applyTextEdits, MAX_EDITS_PER_NOTES) with
    | (_, .error e) => .error (.text e)
    | (history, .ok next) =>
      if MAX_NOTES_BYTES < Utf8.size next then .error (.tooManyBytes (Utf8.size next))
      else .ok { s with text := next, history := some history } := by
  rw [apply, hkind]
  dsimp only
  rw [if_neg (by simp [hfile])]
  rfl

/-- An op that is no edit of this document is refused, whatever the text. -/
theorem apply_other (h : ¬∃ edits, op.kind = .notesEdit s.path edits ∧ op.file = s.path) :
    ∃ e, s.apply op = .error e := by
  unfold apply
  split
  · next file edits hkind =>
    rw [if_pos]
    · exact ⟨_, rfl⟩
    · by_contra hno
      rw [not_or, not_not, not_not] at hno
      exact h ⟨edits, hno.1 ▸ hkind, hno.2⟩
  · exact ⟨_, rfl⟩

/-- What an op that lands has done. -/
theorem apply_ok (h : s.apply op = .ok s') : ∃ edits history, op.kind = .notesEdit s.path edits ∧
    op.file = s.path ∧ s.kept.record s.text op.hlc (.splice edits) (applyTextEdits, MAX_EDITS_PER_NOTES) =
      (history, .ok s'.text) ∧ Utf8.size s'.text ≤ MAX_NOTES_BYTES ∧
        s' = { s with text := s'.text, history := some history } := by
  by_cases hedit : ∃ edits, op.kind = .notesEdit s.path edits ∧ op.file = s.path
  · obtain ⟨edits, hkind, hfile⟩ := hedit
    rw [apply_edit hkind hfile] at h
    split at h
    · cases h
    · next history next hrec =>
      split at h
      · cases h
      · next hsize =>
        cases h
        exact ⟨edits, history, hkind, hfile, hrec, not_lt.1 hsize, rfl⟩
  · obtain ⟨e, he⟩ := apply_other hedit
    rw [he] at h
    cases h

theorem apply_path (h : s.apply op = .ok s') : s'.path = s.path := by
  obtain ⟨edits, history, -, -, -, -, hs'⟩ := apply_ok h
  rw [hs']

theorem Rebuilt.apply (hs : Rebuilt s) (h : s.apply op = .ok s') : Rebuilt s' := by
  obtain ⟨edits, history, -, -, hrec, -, hs'⟩ := apply_ok h
  rw [← hs.text] at hrec
  obtain ⟨hordered, htext⟩ := hs.ordered.record hrec
  have hkept : s'.kept = history := by rw [hs', kept, Option.getD_some]
  exact ⟨hkept ▸ hordered, hkept ▸ htext⟩

end NotesState

/-! ## The repair -/

/-- When a repair stamped `hlc` makes the log render the file's text: the replayed text and the file's are
no more runs of edits apart than an op may carry, no kept edit is newer, and the waiting edits are refused because they do not fit, not for the size, and
are older than the repair or do not fit the file either. -/
structure RepairFits (q : NotesQueue) (text : Text) (hlc : Hlc) : Prop where
  short : EditGraph.latestRuns q.state.text text ≤ MAX_TEXT_EDITS
  newest : ∀ e ∈ q.state.kept.edits, e.1 ≤ hlc
  waiting : ∀ op ∈ q.waiting, (∀ n, q.state.apply op ≠ .error (.tooManyBytes n)) ∧
    (op.hlc < hlc ∨ ∃ e, (NotesState.mk q.state.path text none).apply op = .error e)

/-- An edit of the document at `path`. -/
def IsEdit (path : FilePath) (op : Op) (edits : List TextEdit) : Prop :=
  op.kind = .notesEdit path edits ∧ op.file = path

/-- A document at the file's text `c`, with the repair `top` of the replayed text `T` as its newest edit; the
edits of `waiting` that landed fit `T` no better than before. -/
structure Topped (path : FilePath) (T c : Text) (top : Hlc × Change) (waiting : List Op) (s : NotesState) :
    Prop where
  ofPath : s.path = path
  text : s.text = c
  history : ∃ base edits, s.history = some ⟨base, ⊥, edits⟩ ∧ TextHistory.Stack applyTextEdits T top
    (fun stamp => ∃ op ∈ waiting, (∃ edits, IsEdit path op edits) ∧ op.hlc = stamp) base edits

section Repair
variable {path : FilePath} {T c : Text} {top : Hlc × Change} {waiting : List Op} {s s' : NotesState} {op : Op}
  {q : NotesQueue} {edits : List TextEdit} {hlc : Hlc}

/-- A change is refused only when it is the newest and does not fit. -/
theorem TextHistory.record_error {h h' : TextHistory} {current : Text} {at_ : Hlc} {change : Change}
    {how : ApplyEdits × Nat} {e : TextEditError} (hrec : h.record current at_ change how = (h', .error e)) :
    (h.edits.getLast?.any fun x => decide (at_ < x.1)) = false ∧ change.on current how.1 = .error e := by
  simp only [TextHistory.record] at hrec
  split at hrec
  · cases (Prod.mk.inj hrec).2
  · split at hrec
    · cases (Prod.mk.inj hrec).2
    · next hlate =>
      refine ⟨Bool.not_eq_true _ ▸ hlate, ?_⟩
      cases hon : change.on current how.1 with
      | error e' =>
        rw [hon] at hrec
        exact congrArg Except.error (Except.error.inj (Prod.mk.inj hrec).2)
      | ok next =>
        rw [hon] at hrec
        cases (Prod.mk.inj hrec).2

/-- A waiting edit that lands on the repaired document changes nothing to be seen. -/
theorem Topped.apply (hs : Topped path T c top waiting s) (htop : top.2.on T applyTextEdits = .ok c)
    (hop : op ∈ waiting) (hmisfit : ∀ edits, IsEdit path op edits → ∃ e, applyTextEdits T edits = .error e)
    (hnew : op.hlc < top.1 ∨ ∃ e, (NotesState.mk path c none).apply op = .error e)
    (h : s.apply op = .ok s') : Topped path T c top waiting s' := by
  obtain ⟨base, kept, hhistory, hstack⟩ := hs.history
  obtain ⟨edits, history, hkind, hfile, hrec, hsize, hs'⟩ := NotesState.apply_ok h
  rw [hs.ofPath] at hkind hfile
  have hkept : s.kept = ⟨base, ⊥, kept⟩ := by rw [NotesState.kept, hhistory, Option.getD_some]
  have hlast : kept.getLast? = some top := by
    obtain ⟨below, slotted, rfl, -⟩ := hstack
    rw [← List.append_assoc, List.getLast?_concat]
  simp only [hkept, TextHistory.record, if_neg (not_lt_bot), hlast, Option.any_some] at hrec
  by_cases hold : op.hlc < top.1
  · rw [if_pos (decide_eq_true hold)] at hrec
    obtain ⟨hhist, htext⟩ := Prod.mk.inj hrec
    have hslot := hstack.slot ⟨op, hop, ⟨edits, hkind, hfile⟩, rfl⟩ (e := (op.hlc, .splice edits)) hold
      (hmisfit edits ⟨hkind, hfile⟩)
    refine ⟨by rw [hs', hs.ofPath], ?_, ?_⟩
    · exact (Except.ok.inj htext).symm.trans (hslot.replay htop)
    · rw [hs', ← hhist]
      exact ⟨_, _, rfl, hslot.trim (by decide)⟩
  · exfalso
    obtain ⟨e, he⟩ := hnew.resolve_left hold
    rw [if_neg (by simpa using hold), hs.text] at hrec
    cases hon : (Change.splice edits).on c applyTextEdits with
    | error err =>
      rw [hon] at hrec
      cases (Prod.mk.inj hrec).2
    | ok next =>
      rw [hon] at hrec
      have hnext := Except.ok.inj (Prod.mk.inj hrec).2
      have hlate : ((TextHistory.new c).edits.getLast?.any fun e => decide (op.hlc < e.1)) = false := rfl
      have hrecord := TextHistory.record_newest MAX_EDITS_PER_NOTES (h := TextHistory.new c) rfl hlate hon
      have hfits : ¬MAX_NOTES_BYTES < Utf8.size next := by rw [hnext]; exact not_lt.2 hsize
      rw [NotesState.apply_edit hkind hfile, NotesState.kept, Option.getD_none, hrecord] at he
      dsimp only at he
      rw [if_neg hfits] at he
      cases he

/-- A waiting edit that is not refused for the size is the newest and does not fit. -/
theorem refused_edit {s : NotesState} (hpath : s.path = path) (hrefused : ∃ e, s.apply op = .error e)
    (hsize : ∀ n, s.apply op ≠ .error (.tooManyBytes n)) (hop : IsEdit path op edits) :
    ∃ err, applyTextEdits s.text edits = .error err ∧
      (s.kept.edits.getLast?.any fun x => decide (op.hlc < x.1)) = false := by
  obtain ⟨hkind, hfile⟩ := hop
  rw [← hpath] at hkind hfile
  have happly := NotesState.apply_edit hkind hfile
  obtain ⟨e, he⟩ := hrefused
  rw [happly] at he hsize
  split at he
  · next h' err hrec =>
    obtain ⟨hlate, hmisfit⟩ := TextHistory.record_error hrec
    exact ⟨err, hmisfit, hlate⟩
  · next history next hrec =>
    split at he
    · next hlarge =>
      refine absurd ?_ (hsize (Utf8.size next))
      rw [hrec]
      dsimp only
      rw [if_pos hlarge]
    · cases he

theorem late_of_newest {kept : List (Hlc × Change)} (h : ∀ e ∈ kept, e.1 ≤ hlc) :
    (kept.getLast?.any fun e => decide (hlc < e.1)) = false := by
  cases hlast : kept.getLast? with
  | none => rfl
  | some last => exact decide_eq_false (not_lt.2 (h last (List.mem_of_getLast? hlast)))

/-- A repair of a replayed document that fits is its newest edit. -/
theorem topped_repair (hq : q.state.Rebuilt) (hpath : q.state.path = path)
    (hrefused : ∀ op ∈ q.waiting, ∃ e, q.state.apply op = .error e) (hfits : RepairFits q c hlc)
    (hedits : applyTextEdits q.state.text edits = .ok c) (hsize : Utf8.size c ≤ MAX_NOTES_BYTES)
    (hop : IsEdit path op edits) (hhlc : op.hlc = hlc) : ∃ s, q.state.apply op = .ok s ∧
      Topped path q.state.text c (hlc, .splice edits) q.waiting s := by
  have hlate := late_of_newest hfits.newest
  have hon : (Change.splice edits).on q.state.text applyTextEdits = .ok c := hedits
  have hrecord := TextHistory.record_newest MAX_EDITS_PER_NOTES hq.ordered.since hlate hon
  obtain ⟨hkind, hfile⟩ := hop
  rw [← hpath] at hkind hfile
  have happly : q.state.apply op = .ok { q.state with
      text := c
      history := some (TextHistory.trim
        { q.state.kept with edits := q.state.kept.edits ++ [(hlc, .splice edits)] } applyTextEdits
        MAX_EDITS_PER_NOTES) } := by
    rw [NotesState.apply_edit hkind hfile, hhlc, hrecord]
    dsimp only
    rw [if_neg (not_lt.2 hsize)]
  refine ⟨_, happly, hpath, rfl, _, _, by rw [← hq.ordered.since]; rfl, TextHistory.Stack.trim ?_ (by decide)⟩
  refine ⟨q.state.kept.edits, [], rfl, hq.text, by simp, ?_⟩
  -- A waiting edit is refused on the newest text, so it is no older than any kept one.
  rintro e he stamp ⟨w, hw, ⟨wedits, hwkind, hwfile⟩, rfl⟩
  obtain ⟨err, -, hlatew⟩ := refused_edit hpath (hrefused w hw) (hfits.waiting w hw).1 ⟨hwkind, hwfile⟩
  exact hq.ordered.le_getLast hlatew e he

/-- After a repair that fits, the replay's text is the file's. -/
theorem text_repair (hq : q.state.Rebuilt) (hpath : q.state.path = path)
    (hrefused : ∀ op ∈ q.waiting, ∃ e, q.state.apply op = .error e) (hfits : RepairFits q c hlc)
    (hedits : applyTextEdits q.state.text edits = .ok c) (hsize : Utf8.size c ≤ MAX_NOTES_BYTES)
    (hop : IsEdit path op edits) (hhlc : op.hlc = hlc) : (q.apply [op]).state.text = c := by
  obtain ⟨s, happly, htopped⟩ := topped_repair hq hpath hrefused hfits hedits hsize hop hhlc
  have htake : q.apply [op] = Waiting.take NotesState.apply MAX_WAITING_NOTES_OPS q op := rfl
  rw [htake, Waiting.take_ok happly]
  have hkeeps : Topped path q.state.text c (hlc, .splice edits) q.waiting
      (Waiting.retry NotesState.apply s q.waiting).1 := by
    refine Waiting.retry_state (fun t w hw t' ht happ => ht.apply hedits hw ?_ ?_ happ) htopped
    · intro wedits hedit
      obtain ⟨err, hmisfit, -⟩ := refused_edit hpath (hrefused w hw) (hfits.waiting w hw).1 hedit
      exact ⟨err, hmisfit⟩
    · rw [← hpath]
      exact (hfits.waiting w hw).2
  exact hkeeps.text

/-- Where nothing waits, a newest edit that makes the text another fitted it. -/
theorem edits_of_text (hq : q.state.Rebuilt) (hpath : q.state.path = path) (hwaiting : q.waiting = [])
    (hnewest : ∀ e ∈ q.state.kept.edits, e.1 ≤ hlc) (hop : IsEdit path op edits) (hhlc : op.hlc = hlc)
    (hne : q.state.text ≠ c) (h : (q.apply [op]).state.text = c) :
    applyTextEdits q.state.text edits = .ok c := by
  have htake : q.apply [op] = Waiting.take NotesState.apply MAX_WAITING_NOTES_OPS q op := rfl
  rw [htake] at h
  cases happly : q.state.apply op with
  | error e =>
    obtain ⟨oldest, waiting, -, hrefused⟩ := Waiting.take_error MAX_WAITING_NOTES_OPS happly
    rw [hrefused] at h
    split at h <;> exact absurd h hne
  | ok s =>
    rw [Waiting.take_ok happly, hwaiting, Waiting.retry_refused (List.forall_mem_nil _)] at h
    obtain ⟨hkind, hfile⟩ := hop
    obtain ⟨edits', history, hkind', -, hrec, -, -⟩ := NotesState.apply_ok happly
    rw [hpath, hkind] at hkind'
    cases hkind'
    rw [hhlc] at hrec
    rw [← h]
    exact TextHistory.on_of_record hq.ordered.since (late_of_newest hnewest) hrec

end Repair

/-! ## A repaired log -/

theorem OpTable.ops_append {log log' : OpTable} {ops : List Op} (h : log.append ops = .ok log') :
    log'.ops = log.ops ++ ops := by
  unfold OpTable.append at h
  split at h
  · cases h
  split at h
  · cases h
  dsimp only at h
  split at h
  · cases h
    show List.map _ _ = _
    rw [List.map_append, OpTable.ops_numberOps]
    rfl
  · cases h

theorem OpTable.opsOf_eq (log : OpTable) (path : FilePath) :
    log.opsOf path = log.ops.filter fun op => op.file = path := by
  have hops : log.stored.map (·.op) = log.ops := by
    rw [OpTable.stored, List.mapIdx_eq_zipIdx_map, List.map_map]
    exact List.zipIdx_map_fst 0 log.ops
  rw [OpTable.opsOf, OpTable.ofFile, ← hops, List.filter_map]
  rfl

/-- Nothing of the document is imported twice or out of order by an append. -/
theorem OpTable.opsOf_append {log log' : OpTable} {path : FilePath} {op : Op} (h : log.append [op] = .ok log')
    (hfile : op.file = path) : log'.opsOf path = log.opsOf path ++ [op] := by
  rw [opsOf_eq, opsOf_eq, ops_append h, List.filter_append]
  simp [hfile]

/-- The document's log, replayed, has the text of its file. -/
def NotesActor.Renders (a : NotesActor) : Prop :=
  (replayLeniently a.log a.path none).queue.state.text = a.state.text

/-- A repair that is committed, of a log that is read whole before and after it. -/
structure NotesActor.Repairs (a : NotesActor) (nowMs : Nat) (id : OpId) (a' : NotesActor) : Prop where
  done : a.repairLog nowMs id = .ok a'
  before : (replayLeniently a.log a.path none).complete = true
  after : (replayLeniently a'.log a.path none).complete = true
  size : Utf8.size a.state.text ≤ MAX_NOTES_BYTES

/-- Taking ops with a list of those that landed. -/
def NotesQueue.logged (path : FilePath) (ops : List Op) :
    Waiting.Queue (NotesState × List Op) Op NotesStateError :=
  Waiting.takeAll (Waiting.logged NotesState.apply) MAX_WAITING_NOTES_OPS
    (Waiting.Queue.fresh (NotesState.empty path, [])) ops

section RepairLog
variable {a a' : NotesActor} {nowMs : Nat} {id : OpId} {path : FilePath} {ops : List Op}

theorem rebuilt_replay (path : FilePath) (ops : List Op) :
    ((NotesQueue.empty path).apply ops).state.Rebuilt :=
  Waiting.takeAll_state (fun _ _ _ h => h.apply) (NotesState.rebuilt_of_none rfl) ops

theorem path_replay (path : FilePath) (ops : List Op) :
    ((NotesQueue.empty path).apply ops).state.path = path :=
  Waiting.takeAll_state (P := fun s => s.path = path) (fun _ _ _ h happly =>
    (NotesState.apply_path happly).trans h) rfl ops

theorem refused_replay (path : FilePath) (ops : List Op) : ∀ op ∈ ((NotesQueue.empty path).apply ops).waiting,
    ∃ e, ((NotesQueue.empty path).apply ops).state.apply op = .error e :=
  Waiting.refused_of_mem_waiting _ _

/-- A repair appends the diff to the log, unless the texts are one already. -/
theorem repairLog_cases (h : a.Repairs nowMs id a') :
    ((replayLeniently a.log a.path none).queue.state.text = a.state.text ∧ a'.Renders) ∨
      ∃ edits clock hlc, (replayLeniently a.log a.path none).queue.state.text ≠ a.state.text ∧
        diffText (replayLeniently a.log a.path none).queue.state.text a.state.text = some edits ∧
        a.clock.tick nowMs = (clock, .ok hlc) ∧
        (a'.Renders ↔ ((replayLeniently a.log a.path none).queue.apply
          [a.repairOp edits hlc id]).state.text = a.state.text) := by
  have hdone := h.done
  unfold NotesActor.repairLog at hdone
  simp only [h.before, Bool.not_true, Bool.false_eq_true, if_false] at hdone
  obtain ⟨edits, hdiff⟩ := diffText_isSome (replayLeniently a.log a.path none).queue.state.text
    a.state.text
  by_cases hsame : (replayLeniently a.log a.path none).queue.state.text = a.state.text
  · rw [repairEdits, if_pos hsame] at hdone
    cases hdone
    refine .inl ⟨hsame, ?_⟩
    rw [NotesActor.Renders, NotesState.adoptHistory, if_pos hsame]
    exact hsame
  · rw [repairEdits, if_neg hsame, hdiff] at hdone
    dsimp only at hdone
    split at hdone
    · cases hdone
    next clock hlc htick =>
    split at hdone
    · cases hdone
    next log happend =>
    cases hdone
    refine .inr ⟨edits, clock, hlc, hsame, hdiff, htick, ?_⟩
    have hops : log.opsOf a.path = a.log.opsOf a.path ++ [a.repairOp edits hlc id] :=
      OpTable.opsOf_append happend rfl
    rw [NotesActor.Renders, replayLeniently_eq h.after]
    dsimp only
    rw [hops, NotesQueue.apply_append, ← replayLeniently_eq h.before]

/-- A repair that fits makes the log render the file. -/
theorem renders_of_fits (h : a.Repairs nowMs id a')
    (hfits : (replayLeniently a.log a.path none).queue.state.text ≠ a.state.text → ∀ clock hlc,
      a.clock.tick nowMs = (clock, .ok hlc) →
        RepairFits (replayLeniently a.log a.path none).queue a.state.text hlc) : a'.Renders := by
  rcases repairLog_cases h with ⟨-, hrenders⟩ | ⟨edits, clock, hlc, hne, hdiff, htick, hiff⟩
  · exact hrenders
  have hfit := hfits hne clock hlc htick
  have hreplay := replayLeniently_eq h.before
  have hround := (applyTextEdits_diffText hdiff).2 hfit.short
  rw [hiff]
  rw [hreplay] at hfit hround ⊢
  exact text_repair (rebuilt_replay _ _) (path_replay _ _) (refused_replay _ _) hfit hround h.size
    ⟨rfl, rfl⟩ rfl

/-- Where nothing waits and no kept edit is newer, the runs between the two texts decide. -/
theorem renders_iff_short (h : a.Repairs nowMs id a')
    (hwaiting : (replayLeniently a.log a.path none).queue.waiting = [])
    (hnewest : ∀ clock hlc, a.clock.tick nowMs = (clock, .ok hlc) →
      ∀ e ∈ (replayLeniently a.log a.path none).queue.state.kept.edits, e.1 ≤ hlc) :
    a'.Renders ↔ (replayLeniently a.log a.path none).queue.state.text = a.state.text ∨
      EditGraph.latestRuns (replayLeniently a.log a.path none).queue.state.text a.state.text ≤
        MAX_TEXT_EDITS := by
  rcases repairLog_cases h with ⟨hsame, hrenders⟩ | ⟨edits, clock, hlc, hne, hdiff, htick, hiff⟩
  · exact iff_of_true hrenders (.inl hsame)
  constructor
  · intro hrenders
    refine .inr ((applyTextEdits_diffText hdiff).1 ?_)
    have hreplay := replayLeniently_eq h.before
    have hpath : (replayLeniently a.log a.path none).queue.state.path = a.path := by
      rw [hreplay]
      exact path_replay _ _
    have hrebuilt : (replayLeniently a.log a.path none).queue.state.Rebuilt := by
      rw [hreplay]
      exact rebuilt_replay _ _
    exact edits_of_text hrebuilt hpath hwaiting (hnewest clock hlc htick) ⟨rfl, rfl⟩ rfl hne (hiff.1 hrenders)
  · rintro (hsame | hshort)
    · exact absurd hsame hne
    · refine renders_of_fits h fun _ clock hlc htick => ⟨hshort, hnewest clock hlc htick, ?_⟩
      rw [hwaiting]
      exact List.forall_mem_nil _

/-- An import of a document's log is the replay of it wherever the batches are cut, with every op landed,
waiting or skipped once; the rounds over the waiting ops end; and a repair that fits makes the log render the
file, where nothing waits and nothing is newer exactly when the two texts are no more runs apart than an op
may carry. -/
theorem notes_repair (path : FilePath) :
    (∀ (log : OpTable) (batches : List (List Op)), log.opsOf path = batches.flatten →
      (replayLeniently log path none).complete = true →
        batches.foldl NotesQueue.apply (NotesQueue.empty path) = (replayLeniently log path none).queue) ∧
    (∀ ops : List Op, (NotesQueue.logged path ops).plain = (NotesQueue.empty path).apply ops ∧
      (NotesQueue.logged path ops).items.Perm ops) ∧
    (∀ (s : NotesState) (waiting : List Op) (n : Nat), waiting.length < n →
      loop (Waiting.retryTurn NotesState.apply) n (s, waiting) =
        some (Waiting.retry NotesState.apply s waiting)) ∧
    (∀ (a a' : NotesActor) (nowMs : Nat) (id : OpId), a.Repairs nowMs id a' →
      ((replayLeniently a.log a.path none).queue.state.text ≠ a.state.text → ∀ clock hlc,
        a.clock.tick nowMs = (clock, .ok hlc) →
          RepairFits (replayLeniently a.log a.path none).queue a.state.text hlc) → a'.Renders) ∧
    ∀ (a a' : NotesActor) (nowMs : Nat) (id : OpId), a.Repairs nowMs id a' →
      (replayLeniently a.log a.path none).queue.waiting = [] →
      (∀ clock hlc, a.clock.tick nowMs = (clock, .ok hlc) →
        ∀ e ∈ (replayLeniently a.log a.path none).queue.state.kept.edits, e.1 ≤ hlc) →
      (a'.Renders ↔ (replayLeniently a.log a.path none).queue.state.text = a.state.text ∨
        EditGraph.latestRuns (replayLeniently a.log a.path none).queue.state.text a.state.text ≤
          MAX_TEXT_EDITS) := by
  refine ⟨fun log batches hlog hcomplete => ?_, fun ops => ⟨?_, ?_⟩, fun s waiting n hn => ?_,
    fun a a' nowMs id h hfits => renders_of_fits h hfits,
    fun a a' nowMs id h hwaiting hnewest => renders_iff_short h hwaiting hnewest⟩
  · rw [replayLeniently_eq hcomplete, hlog]
    exact Waiting.takeAll_flatten _ batches
  · exact Waiting.plain_takeAll _ ops
  · exact Waiting.perm_takeAll _ ops
  · exact Waiting.loop_retry hn

end RepairLog

/-! ### A newer edit above the repair -/

/-- A log with a peer's edit, then an older one of another peer. -/
def lateNotes (path : FilePath) : OpTable where
  rows := [⟨⟨⟨1⟩, ⟨100, 0, ⟨2⟩⟩, path, .notesEdit path [.insert 0 ['x']]⟩, 1⟩,
    ⟨⟨⟨2⟩, ⟨50, 0, ⟨3⟩⟩, path, .notesEdit path [.insert 0 ['y']]⟩, 1⟩]
  unique := by simp [OpRow.id]
  numbered := by simp [OpRow.number]

/-- The actor at open, its file edited meanwhile. -/
def lateNotesActor : NotesActor :=
  NotesActor.adoptLoggedClock ⟨⟨"q/notes.md".toList⟩, ⟨1⟩, ⟨Hlc.zero ⟨1⟩, none⟩,
    ⟨⟨"q/notes.md".toList⟩, "xy!".toList, none⟩, [], lateNotes ⟨"q/notes.md".toList⟩⟩

/-- The repair of `a` is committed, and the log renders the file. -/
def NotesActor.MeetsFile (a : NotesActor) (nowMs : Nat) (id : OpId) : Prop :=
  ∃ a', a.Repairs nowMs id a' ∧ a'.Renders

/-- The repair of `a` is committed, and the log does not render the file. -/
def NotesActor.MissesFile (a : NotesActor) (nowMs : Nat) (id : OpId) : Prop :=
  ∃ a', a.Repairs nowMs id a' ∧ ¬a'.Renders

/-- A repair that is committed and read whole after it, with what is to be seen of it. -/
theorem exists_repairs {a : NotesActor} {nowMs : Nat} {id : OpId} {p : NotesActor → Bool}
    (hrun : ((a.repairLog nowMs id).toOption.any fun a' =>
      (replayLeniently a'.log a.path none).complete && p a') = true)
    (hbefore : (replayLeniently a.log a.path none).complete = true)
    (hsize : Utf8.size a.state.text ≤ MAX_NOTES_BYTES) : ∃ a', a.Repairs nowMs id a' ∧ p a' = true := by
  cases hdone : a.repairLog nowMs id with
  | error e =>
    rw [hdone] at hrun
    cases hrun
  | ok a' =>
    rw [hdone] at hrun
    obtain ⟨hafter, hp⟩ := Bool.and_eq_true_iff.1 hrun
    exact ⟨a', ⟨hdone, hbefore, hafter, hsize⟩, hp⟩

/-- At a time past both edits the repair is the newest. -/
theorem late_notes_met : lateNotesActor.MeetsFile 200 ⟨3⟩ := by
  obtain ⟨a', h, -⟩ : ∃ a', lateNotesActor.Repairs 200 ⟨3⟩ a' ∧ true = true :=
    exists_repairs (p := fun _ => true) (by decide) (by decide) (by decide)
  refine ⟨a', h, (notes_repair lateNotesActor.path).2.2.2.1 _ a' 200 ⟨3⟩ h fun _ clock hlc htick => ?_⟩
  have hstamp : lateNotesActor.clock.tick 200 = (⟨⟨200, 0, ⟨1⟩⟩, none⟩, .ok ⟨200, 0, ⟨1⟩⟩) := rfl
  obtain rfl : hlc = ⟨200, 0, ⟨1⟩⟩ := Except.ok.inj (Prod.mk.inj (htick.symm.trans hstamp)).2
  have hnone : (replayLeniently lateNotesActor.log lateNotesActor.path none).queue.waiting = [] := by decide
  exact ⟨(EditGraph.latestRuns_le _ _).trans (by decide), by decide, hnone ▸ List.forall_mem_nil _⟩

/-- The clock at open is past the late edit, not past the newer one, so the repair goes under that. -/
theorem late_notes_missed : lateNotesActor.MissesFile 60 ⟨3⟩ := by
  obtain ⟨a', h, hne⟩ : ∃ a', lateNotesActor.Repairs 60 ⟨3⟩ a' ∧
      (!decide ((replayLeniently a'.log a'.path none).queue.state.text = a'.state.text)) = true :=
    exists_repairs (p := fun a' =>
      !decide ((replayLeniently a'.log a'.path none).queue.state.text = a'.state.text))
      (by decide) (by decide) (by decide)
  refine ⟨a', h, fun hrenders => ?_⟩
  rw [NotesActor.Renders] at hrenders
  simp [hrenders] at hne

end Txtodo
