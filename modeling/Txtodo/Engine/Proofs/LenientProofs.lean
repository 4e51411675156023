import Txtodo.Engine.SyncPark
import Mathlib.Data.List.SplitBy

/-!
# Proofs: applying a batch

Every op of a batch applies once or is returned as failed, and the rounds always end.
-/

namespace Txtodo

variable {σ : Type} [Document σ]

/-! ## One op at a time -/

theorem Logged.apply_ok {s : Logged σ} {op : Op} {doc : σ}
    (h : Document.apply s.doc op = (doc, .ok ())) :
    Document.apply s op = (⟨doc, s.log ++ [op]⟩, .ok ()) := by
  show Logged.apply s op = _
  rw [Logged.apply, h]

theorem Logged.apply_error {s : Logged σ} {op : Op} {doc : σ} {e : StateError}
    (h : Document.apply s.doc op = (doc, .error e)) :
    Document.apply s op = (⟨doc, s.log⟩, .error e) := by
  show Logged.apply s op = _
  rw [Logged.apply, h]

theorem applyEach_ok {s s' : σ} {op : Op} (h : Document.apply s op = (s', .ok ())) (ops : List Op) :
    applyEach s (op :: ops) = applyEach s' ops := by
  rw [applyEach, h]

theorem applyEach_error {s s' : σ} {op : Op} {e : StateError}
    (h : Document.apply s op = (s', .error e)) (ops : List Op) :
    applyEach s (op :: ops) = ((applyEach s' ops).1, (op, e) :: (applyEach s' ops).2) := by
  rw [applyEach, h]

/-- The log does not change what a batch does. -/
theorem applyEach_doc (s : Logged σ) (ops : List Op) :
    applyEach s.doc ops = ((applyEach s ops).1.doc, (applyEach s ops).2) := by
  induction ops generalizing s with
  | nil => rfl
  | cons op ops ih =>
    rcases happly : Document.apply s.doc op with ⟨doc, e | u⟩
    · rw [applyEach_error happly, applyEach_error (Logged.apply_error happly), ih ⟨doc, s.log⟩]
    · rw [applyEach_ok happly, applyEach_ok (Logged.apply_ok happly), ih ⟨doc, s.log ++ [op]⟩]

/-- Each op is logged or failed. -/
theorem applyEach_log (s : Logged σ) (ops : List Op) :
    ((applyEach s ops).1.log ++ (applyEach s ops).2.map Prod.fst).Perm (s.log ++ ops) := by
  induction ops generalizing s with
  | nil => simp [applyEach]
  | cons op ops ih =>
    rcases happly : Document.apply s.doc op with ⟨doc, e | u⟩
    · rw [applyEach_error (Logged.apply_error happly), List.map_cons]
      exact List.perm_middle.trans (((ih ⟨doc, s.log⟩).cons op).trans List.perm_middle.symm)
    · rw [applyEach_ok (Logged.apply_ok happly)]
      exact (ih ⟨doc, s.log ++ [op]⟩).trans (List.Perm.of_eq (by simp))

theorem applyEach_length (s : σ) (ops : List Op) : (applyEach s ops).2.length ≤ ops.length := by
  induction ops generalizing s with
  | nil => exact le_rfl
  | cons op ops ih =>
    rcases happly : Document.apply s op with ⟨s', e | u⟩
    · rw [applyEach_error happly, List.length_cons, List.length_cons]
      exact Nat.succ_le_succ (ih s')
    · rw [applyEach_ok happly]
      exact (ih s').trans (Nat.le_succ _)

/-! ## Rounds -/

theorem lenientRounds_doc (rounds : Nat) (s : Logged σ) (pending : List Op) :
    lenientRounds rounds s.doc pending =
      (lenientRounds rounds s pending).map fun r => (r.1.doc, r.2) := by
  induction rounds generalizing s pending with
  | zero => rfl
  | succ rounds ih =>
    rw [lenientRounds, lenientRounds, applyEach_doc]
    dsimp only
    split_ifs
    · rfl
    · exact ih _ _

theorem lenientRounds_log {rounds : Nat} {s s' : Logged σ} {pending : List Op}
    {failed : List (Op × StateError)} (h : lenientRounds rounds s pending = some (s', failed)) :
    (s'.log ++ failed.map Prod.fst).Perm (s.log ++ pending) := by
  induction rounds generalizing s pending with
  | zero => cases h
  | succ rounds ih =>
    rw [lenientRounds] at h
    dsimp only at h
    split_ifs at h
    · obtain ⟨rfl, rfl⟩ := Prod.mk.inj (Option.some.inj h)
      exact applyEach_log s pending
    · exact (ih h).trans (applyEach_log s pending)

/-- Every round but the last applies something. -/
theorem lenientRounds_isSome {rounds : Nat} (s : σ) {pending : List Op}
    (h : pending.length < rounds) : ∃ r, lenientRounds rounds s pending = some r := by
  induction rounds generalizing s pending with
  | zero => omega
  | succ rounds ih =>
    rw [lenientRounds]
    dsimp only
    split_ifs with hend
    · exact ⟨_, rfl⟩
    · have hlen := applyEach_length s pending
      have hne : (applyEach s pending).2.length ≠ pending.length := fun heq => hend (by simp [heq])
      exact ih _ (by rw [List.length_map]; omega)

/-! ## What a run keeps -/

/-- For the ops `P` describes: an invariant `I`, and what an op that applied leaves, `Q`, which later ops
keep. -/
structure Settles (P : Op → Prop) (I : σ → Prop) (Q : Op → σ → Prop) : Prop where
  step : ∀ s op, P op → I s → I (Document.apply s op).1
  done : ∀ s op s', P op → I s → Document.apply s op = (s', .ok ()) → Q op s'
  keep : ∀ s op op', P op → P op' → I s → Q op' s → Q op' (Document.apply s op).1

section Settles

variable {P : Op → Prop} {I : σ → Prop} {Q : Op → σ → Prop} {s s' : σ}

theorem Settles.applyEach (h : Settles P I Q) {ops : List Op} (hs : I s) (hops : ∀ op ∈ ops, P op) :
    I (applyEach s ops).1 ∧ (∀ op, P op → Q op s → Q op (applyEach s ops).1) ∧
      ∀ op ∈ ops, Q op (applyEach s ops).1 ∨ op ∈ (applyEach s ops).2.map Prod.fst := by
  induction ops generalizing s with
  | nil => exact ⟨hs, fun _ _ hq => hq, fun _ hop => (by cases hop)⟩
  | cons op ops ih =>
    have hop := hops op List.mem_cons_self
    have hnext := h.step s op hop hs
    have hkept := fun op' hop' => h.keep s op op' hop hop' hs
    have hdone := fun s' => h.done s op s' hop hs
    have hrun := fun s hs => @ih s hs fun op' hop' => hops op' (List.mem_cons_of_mem _ hop')
    rcases happly : Document.apply s op with ⟨s₁, e | u⟩
    · rw [happly] at hnext hkept
      obtain ⟨hI, hQ, hrest⟩ := hrun s₁ hnext
      rw [applyEach_error happly]
      refine ⟨hI, fun op' hop' hq => hQ op' hop' (hkept op' hop' hq), fun op' hop' => ?_⟩
      rcases List.mem_cons.1 hop' with rfl | hop'
      · exact .inr List.mem_cons_self
      · exact (hrest op' hop').imp_right fun h => List.mem_cons_of_mem _ h
    · rw [happly] at hnext hkept
      obtain ⟨hI, hQ, hrest⟩ := hrun s₁ hnext
      rw [applyEach_ok happly]
      refine ⟨hI, fun op' hop' hq => hQ op' hop' (hkept op' hop' hq), fun op' hop' => ?_⟩
      rcases List.mem_cons.1 hop' with rfl | hop'
      · exact .inl (hQ op' hop (hdone s₁ happly))
      · exact hrest op' hop'

end Settles

/-! ## Why a run stops -/

/-- An op that fails changes nothing `R` sees. -/
structure Refuses (R : σ → σ → Prop) : Prop where
  refl : ∀ s, R s s
  trans : ∀ s s' s'', R s s' → R s' s'' → R s s''
  fails : ∀ s op s' e, Document.apply s op = (s', .error e) → R s s'

section Refuses

variable {R : σ → σ → Prop} {s s' : σ}

/-- When every op of a pass fails, each fails on the document the pass ends with, as `R` sees it. -/
theorem Refuses.applyEach (h : Refuses R) {ops : List Op}
    (hall : (applyEach s ops).2.length = ops.length) :
    R s (applyEach s ops).1 ∧ ∀ x ∈ (applyEach s ops).2, ∃ s₁ s₂,
      Document.apply s₁ x.1 = (s₂, .error x.2) ∧ R s₁ (applyEach s ops).1 := by
  induction ops generalizing s with
  | nil => exact ⟨h.refl s, fun _ hx => (by cases hx)⟩
  | cons op ops ih =>
    rcases happly : Document.apply s op with ⟨s₁, e | u⟩
    · rw [applyEach_error happly] at hall ⊢
      obtain ⟨hend, hrest⟩ := ih (Nat.succ.inj hall)
      have hwhole := h.trans _ _ _ (h.fails s op s₁ e happly) hend
      refine ⟨hwhole, fun x hx => ?_⟩
      rcases List.mem_cons.1 hx with rfl | hx
      · exact ⟨s, s₁, happly, hwhole⟩
      · exact hrest x hx
    · rw [applyEach_ok happly, List.length_cons] at hall
      have hlen := applyEach_length s₁ ops
      omega

end Refuses

/-! ## Batches -/

theorem flatten_commitGroups (ops : List Op) : (commitGroups ops).flatten = ops :=
  List.flatten_splitBy ..

theorem applyLeniently_doc (s : Logged σ) (ops : List Op) :
    applyLeniently s.doc ops = (applyLeniently s ops).map fun r => (r.1.doc, r.2) := by
  have hfold : ∀ (groups : List (List Op)) (s : Logged σ) (skipped : List (Op × StateError)),
      groups.foldlM lenientGroup (s.doc, skipped) =
        (groups.foldlM lenientGroup (s, skipped)).map fun r => (r.1.doc, r.2) := by
    intro groups
    induction groups with
    | nil => intro s skipped; rfl
    | cons group groups ih =>
      intro s skipped
      rw [List.foldlM_cons, List.foldlM_cons]
      simp only [lenientGroup, lenientRounds_doc]
      cases lenientRounds (group.length + 1) s group with
      | none => rfl
      | some r => exact ih r.1 (skipped ++ r.2)
  exact hfold (commitGroups ops) s []

theorem applyLeniently_log {s s' : Logged σ} {ops : List Op} {failed : List (Op × StateError)}
    (h : applyLeniently s ops = some (s', failed)) :
    (s'.log ++ failed.map Prod.fst).Perm (s.log ++ ops) := by
  have hfold : ∀ (groups : List (List Op)) (s : Logged σ) (skipped : List (Op × StateError)),
      groups.foldlM lenientGroup (s, skipped) = some (s', failed) →
      (s'.log ++ failed.map Prod.fst).Perm (s.log ++ skipped.map Prod.fst ++ groups.flatten) := by
    intro groups
    induction groups with
    | nil =>
      intro s skipped h
      obtain ⟨rfl, rfl⟩ := Prod.mk.inj (Option.some.inj h)
      simp
    | cons group groups ih =>
      intro s skipped h
      rw [List.foldlM_cons, Option.bind_eq_bind, Option.bind_eq_some_iff] at h
      obtain ⟨acc, hgroup, hrest⟩ := h
      obtain ⟨⟨s₁, failed₁⟩, hrounds, hacc⟩ := Option.bind_eq_some_iff.1 hgroup
      obtain rfl := Option.some.inj hacc
      have hlog := lenientRounds_log hrounds
      refine (ih _ _ hrest).trans ?_
      rw [List.map_append, List.flatten_cons, ← List.append_assoc, ← List.append_assoc]
      refine List.Perm.append_right _ ?_
      calc s₁.log ++ skipped.map Prod.fst ++ failed₁.map Prod.fst
          = s₁.log ++ (skipped.map Prod.fst ++ failed₁.map Prod.fst) := List.append_assoc ..
        _ |>.Perm (s₁.log ++ (failed₁.map Prod.fst ++ skipped.map Prod.fst)) :=
          List.perm_append_comm.append_left _
        _ = s₁.log ++ failed₁.map Prod.fst ++ skipped.map Prod.fst := (List.append_assoc ..).symm
        _ |>.Perm (s.log ++ group ++ skipped.map Prod.fst) := hlog.append_right _
        _ = s.log ++ (group ++ skipped.map Prod.fst) := List.append_assoc ..
        _ |>.Perm (s.log ++ (skipped.map Prod.fst ++ group)) := List.perm_append_comm.append_left _
        _ = s.log ++ skipped.map Prod.fst ++ group := (List.append_assoc ..).symm
  have hlog := hfold (commitGroups ops) s [] h
  rwa [flatten_commitGroups, List.map_nil, List.append_nil] at hlog

theorem applyLeniently_isSome (s : σ) (ops : List Op) : ∃ r, applyLeniently s ops = some r := by
  have hfold : ∀ (groups : List (List Op)) (acc : σ × List (Op × StateError)),
      ∃ r, groups.foldlM lenientGroup acc = some r := by
    intro groups
    induction groups with
    | nil => exact fun acc => ⟨acc, rfl⟩
    | cons group groups ih =>
      intro acc
      obtain ⟨r, hr⟩ := lenientRounds_isSome acc.1 (Nat.lt_succ_self group.length)
      obtain ⟨r', hr'⟩ := ih (r.1, acc.2 ++ r.2)
      refine ⟨r', ?_⟩
      rw [List.foldlM_cons, lenientGroup, hr]
      exact hr'
  exact hfold _ _

/-- The failed ops are ops of the batch; the others applied. -/
theorem applyLeniently_failed {s s' : σ} {ops : List Op} {failed : List (Op × StateError)}
    (h : applyLeniently s ops = some (s', failed)) :
    ∃ applied, (applied ++ failed.map Prod.fst).Perm ops := by
  have hdoc := applyLeniently_doc ⟨s, []⟩ ops
  rw [show (Logged.mk s []).doc = s from rfl, h] at hdoc
  obtain ⟨⟨logged, failed'⟩, hlogged, heq⟩ := Option.map_eq_some_iff.1 hdoc.symm
  obtain ⟨-, rfl⟩ := Prod.mk.inj heq
  exact ⟨logged.log, by simpa using applyLeniently_log hlogged⟩

end Txtodo
