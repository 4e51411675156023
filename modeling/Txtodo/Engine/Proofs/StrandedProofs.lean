import Txtodo.Engine.SyncPark
import Txtodo.Engine.Reachable
import Txtodo.Engine.Proofs.ParkingProofs
import Txtodo.Engine.Proofs.PlacedProofs

/-!
# Proofs: no group is stranded

The retries carry, for each stranded group, a number still to be tried; none is left when they end.
-/

namespace Txtodo

section Needs

variable {σ : Type} [Document σ] {s s' : σ} {group group' : List Op}

theorem needsAMissingTask_iff : needsAMissingTask s group = true ↔
    ∃ op ∈ group, ∃ t ∈ named op, (∀ op' ∈ group, insertedTask op' ≠ some t) ∧
      Document.hasPlacement s t = false := by
  simp only [needsAMissingTask, List.any_eq_true, Bool.and_eq_true, decide_eq_true_eq,
    List.mem_filterMap, not_exists, not_and, Bool.not_eq_true']

theorem Parked.AllMiss.not_stranded {p : Parked} {hlc : Hlc} (h : p.AllMiss s) : ¬Stranded s p hlc := by
  rintro ⟨hwhole, hneeds⟩
  rw [h hlc hwhole] at hneeds
  cases hneeds

theorem needsAMissingTask_congr (h : ∀ op, op ∈ group ↔ op ∈ group') :
    needsAMissingTask s group = needsAMissingTask s group' := by
  rw [Bool.eq_iff_iff, needsAMissingTask_iff, needsAMissingTask_iff]
  simp only [h]

end Needs

namespace Parked

variable {p p' : Parked} {n k : Nat} {op : Op} {e : StateError} {h : Hlc}

theorem mem_waiting : op ∈ p.waiting ↔ ∃ n e, (n, op, e) ∈ p.ops.items := by
  rw [waiting, List.mem_map]
  constructor
  · rintro ⟨⟨n, op, e⟩, hmem, rfl⟩
    exact ⟨n, e, hmem⟩
  · rintro ⟨n, e, hmem⟩
    exact ⟨_, hmem, rfl⟩

theorem mem_waitingOf : op ∈ p.waitingOf h ↔ op ∈ p.waiting ∧ op.hlc = h := by
  simp [waitingOf]

/-- A group is every waiting op of its stamp. -/
theorem Indexed.mem_groupOf (hp : p.Indexed) (hmem : (n, op, e) ∈ p.ops.items) :
    k ∈ p.groupOf n ↔ ∃ op' e', (k, op', e') ∈ p.ops.items ∧ op'.hlc = op.hlc := by
  have hstamp := hp.byStamp.mem op.hlc k
  simp only [List.mem_singleton] at hstamp
  rw [groupOf, OrdMap.find?_eq_some.2 hmem]
  dsimp only
  have hget : ((p.byStamp op.hlc).map OrdSet.items).getD []
      = ((p.byStamp op.hlc).getD .empty).items := by
    cases p.byStamp op.hlc <;> rfl
  rw [hget, ← OrdSet.mem_def, hstamp]
  simp only [eq_comm]

theorem groupOf_eq_nil (h : ∀ v, (n, v) ∉ p.ops.items) : p.groupOf n = [] := by
  rw [groupOf, OrdMap.find?_eq_none.2 h]

theorem mem_takeGroup_whole {group : List Nat} (hgroup : group.Nodup)
    (hh : h ∈ (p.takeGroup group).whole) :
    h ∈ p.whole ∧ ∀ o, (p.numbered group).head? = some o → o.2.hlc ≠ h := by
  obtain ⟨-, -, -, hwhole, -⟩ := takeAll_spec (p := p) group hgroup
  rw [takeGroup] at hh
  split at hh
  · next n op hhead =>
    obtain ⟨hh, hne⟩ := OrdSet.mem_erase.1 hh
    refine ⟨hwhole h hh, fun o ho => ?_⟩
    rw [hhead] at ho
    obtain rfl := Option.some.inj ho
    exact hne.symm
  · next hhead => exact ⟨hwhole h hh, fun o ho => by rw [hhead] at ho; cases ho⟩

end Parked

/-! ## What a batch brings -/

section Grows

variable {s s' s'' : Logged DocState}

/-- The document stays sound, and what it gained has a placement through an op that was logged. -/
structure Grows (s s' : Logged DocState) : Prop where
  sound : s'.doc.Sound
  brings : ∃ applied, s'.log = s.log ++ applied ∧ ∀ t, s'.doc.hasPlacement t = true →
    s.doc.hasPlacement t = true ∨ ∃ op ∈ applied, subject op.kind = some t

theorem Grows.refl (hs : s.doc.Sound) : Grows s s := ⟨hs, [], by simp, fun _ h => .inl h⟩

theorem Grows.trans (h : Grows s s') (h' : Grows s' s'') : Grows s s'' := by
  obtain ⟨applied, hlog, hbrings⟩ := h.brings
  obtain ⟨applied', hlog', hbrings'⟩ := h'.brings
  refine ⟨h'.sound, applied ++ applied', by rw [hlog', hlog, List.append_assoc], fun t ht => ?_⟩
  rcases hbrings' t ht with ht | ⟨op, hop, hsub⟩
  · rcases hbrings t ht with ht | ⟨op, hop, hsub⟩
    · exact .inl ht
    · exact .inr ⟨op, List.mem_append_left _ hop, hsub⟩
  · exact .inr ⟨op, List.mem_append_right _ hop, hsub⟩

theorem apply_grows (hs : s.doc.Sound) (op : Op) : Grows s (Document.apply s op).1 := by
  obtain ⟨hok, herr⟩ := DocState.apply_brings hs op
  have hsound := hs.apply op
  rcases hout : Document.apply s.doc op with ⟨doc, e | u⟩
  · obtain ⟨hdoc, hres⟩ := Prod.mk.inj hout
    rw [Logged.apply_error hout]
    refine ⟨hdoc ▸ hsound, [], by simp, fun t ht => ?_⟩
    have hb := herr (by rw [show (s.doc.apply op).result = _ from hres]; simp) t
      (by rw [show (s.doc.apply op).state = _ from hdoc]; exact ht)
    exact .inl (hb.resolve_right (by simp))
  · obtain ⟨hdoc, hres⟩ := Prod.mk.inj hout
    rw [Logged.apply_ok hout]
    refine ⟨hdoc ▸ hsound, [op], rfl, fun t ht => ?_⟩
    have hb := hok hres t (by rw [show (s.doc.apply op).state = _ from hdoc]; exact ht)
    exact hb.imp_right fun hsub => ⟨op, List.mem_singleton.2 rfl, hsub⟩

theorem applyEach_grows (ops : List Op) (hs : s.doc.Sound) : Grows s (applyEach s ops).1 := by
  induction ops generalizing s with
  | nil => exact .refl hs
  | cons op ops ih =>
    have hstep := apply_grows hs op
    rcases hout : Document.apply s op with ⟨s₁, e | u⟩
    · rw [hout] at hstep
      rw [applyEach_error hout]
      exact hstep.trans (ih hstep.sound)
    · rw [hout] at hstep
      rw [applyEach_ok hout]
      exact hstep.trans (ih hstep.sound)

theorem lenientRounds_grows {rounds : Nat} {pending : List Op} {failed : List (Op × StateError)}
    (hs : s.doc.Sound) (h : lenientRounds rounds s pending = some (s', failed)) : Grows s s' := by
  induction rounds generalizing s pending with
  | zero => cases h
  | succ rounds ih =>
    have hstep := applyEach_grows pending hs
    rw [lenientRounds] at h
    dsimp only at h
    split_ifs at h
    · obtain ⟨rfl, rfl⟩ := Prod.mk.inj (Option.some.inj h)
      exact hstep
    · exact hstep.trans (ih hstep.sound h)

theorem applyLeniently_grows {ops : List Op} {failed : List (Op × StateError)}
    (hs : s.doc.Sound) (h : applyLeniently s ops = some (s', failed)) : Grows s s' := by
  have hfold : ∀ (groups : List (List Op)) (s : Logged DocState) (skipped : List (Op × StateError)),
      s.doc.Sound → groups.foldlM lenientGroup (s, skipped) = some (s', failed) → Grows s s' := by
    intro groups
    induction groups with
    | nil =>
      intro s skipped hs h
      obtain ⟨rfl, rfl⟩ := Prod.mk.inj (Option.some.inj h)
      exact .refl hs
    | cons group groups ih =>
      intro s skipped hs h
      rw [List.foldlM_cons, Option.bind_eq_bind, Option.bind_eq_some_iff] at h
      obtain ⟨acc, hgroup, hrest⟩ := h
      obtain ⟨⟨s₁, failed₁⟩, hrounds, hacc⟩ := Option.bind_eq_some_iff.1 hgroup
      obtain rfl := Option.some.inj hacc
      have hstep := lenientRounds_grows hs hrounds
      exact hstep.trans (ih s₁ _ hstep.sound hrest)
  exact hfold (commitGroups ops) s [] hs h

/-- What a batch brings is the subject of an op that landed. -/
theorem applyLeniently_touched {ops : List Op} {failed : List (Op × StateError)}
    (hs : s.doc.Sound) (hids : (ops.map Op.id).Nodup)
    (h : applyLeniently s ops = some (s', failed)) {t : TaskId} (ht : s'.doc.hasPlacement t = true) :
    s.doc.hasPlacement t = true ∨
      t ∈ (landedOf ops failed).filterMap fun op => subject op.kind := by
  obtain ⟨applied, hlog, hbrings⟩ := (applyLeniently_grows hs h).brings
  refine (hbrings t ht).imp_right ?_
  rintro ⟨op, hop, hsub⟩
  have hperm := applyLeniently_log h
  rw [hlog, List.append_assoc, List.perm_append_left_iff] at hperm
  refine List.mem_filterMap.2 ⟨op, List.mem_filter.2 ⟨?_, ?_⟩, hsub⟩
  · exact hperm.mem_iff.1 (List.mem_append_left _ hop)
  · have hnodup := (hperm.map Op.id).nodup_iff.2 hids
    rw [List.map_append] at hnodup
    simp only [Bool.not_eq_true', List.any_eq_false, decide_eq_true_eq]
    intro f hf hid
    exact List.disjoint_of_nodup_append hnodup (List.mem_map_of_mem hop)
      (hid ▸ List.mem_map_of_mem (List.mem_map_of_mem hf))

end Grows

/-! ## Retrying a group -/

section Landing

variable {σ : Type} [Document σ] {s s' : σ} {p p' : Parked} {h : Hlc}

/-- A stranded group was stranded before, or names a task a landing touched. -/
theorem stranded_of_landing {touched : List TaskId} (hp' : p'.Indexed)
    (hwhole : h ∈ p'.whole → h ∈ p.whole) (hsame : ∀ op, op ∈ p'.waitingOf h ↔ op ∈ p.waitingOf h)
    (hbrings : ∀ t, Document.hasPlacement s' t = true →
      Document.hasPlacement s t = true ∨ t ∈ touched)
    (hst : Stranded s' p' h) :
    Stranded s p h ∨
      ∃ k op e, (k, op, e) ∈ p'.ops.items ∧ op.hlc = h ∧ k ∈ p'.naming touched := by
  obtain ⟨hh, hneeds'⟩ := hst
  rw [needsAMissingTask_congr hsame] at hneeds'
  cases hneeds : needsAMissingTask s (p.waitingOf h) with
  | false => exact .inl ⟨hwhole hh, hneeds⟩
  | true =>
    obtain ⟨op, hop, t, hnamed, hinserted, hmissing⟩ := needsAMissingTask_iff.1 hneeds
    have hplace : Document.hasPlacement s' t = true := by
      by_contra hnot
      rw [Bool.not_eq_true] at hnot
      rw [needsAMissingTask_iff.2 ⟨op, hop, t, hnamed, hinserted, hnot⟩] at hneeds'
      cases hneeds'
    have htouched := (hbrings t hplace).resolve_left (by rw [hmissing]; simp)
    obtain ⟨hwaiting, hstamp⟩ := Parked.mem_waitingOf.1 ((hsame op).2 hop)
    obtain ⟨k, e, hmem⟩ := Parked.mem_waiting.1 hwaiting
    exact .inr ⟨k, op, e, hmem, hstamp,
      Parked.mem_naming.2 ⟨t, htouched, (hp'.byTask.mem t k).2 ⟨op, e, hmem, hnamed⟩⟩⟩

end Landing

namespace Session

section PutBack

variable {σ : Type} [Document σ] {x : Session σ} {ops : List (Nat × Op)} {n : Nat} {op : Op}
  {e : StateError}

/-- What waits after the failed ops went back waited before or failed. -/
theorem mem_foldl_putBack (failed : List (Op × StateError))
    (hmem : (n, op, e) ∈ (failed.foldl (putBack ops) x).parked.ops.items) :
    (n, op, e) ∈ x.parked.ops.items ∨ op ∈ failed.map Prod.fst := by
  induction failed generalizing x with
  | nil => exact .inl hmem
  | cons f failed ih =>
    rcases ih hmem with hmem | hop
    · rw [putBack] at hmem
      split at hmem
      · split_ifs at hmem
        · rcases Parked.mem_put.1 hmem with ⟨-, rfl, -⟩ | ⟨-, hmem⟩
          · exact .inr List.mem_cons_self
          · exact .inl hmem
        · exact .inl hmem
      · exact .inl hmem
    · exact .inr (List.mem_cons_of_mem _ hop)

/-- What waits outside the group stays. -/
theorem foldl_putBack_keeps (failed : List (Op × StateError)) (hn : n ∉ ops.map Prod.fst)
    (hmem : (n, op, e) ∈ x.parked.ops.items) :
    (n, op, e) ∈ (failed.foldl (putBack ops) x).parked.ops.items := by
  induction failed generalizing x with
  | nil => exact hmem
  | cons f failed ih =>
    refine ih ?_
    rw [putBack]
    split
    · next n' op' hfind =>
      split_ifs
      · refine Parked.mem_put.2 (.inr ⟨?_, hmem⟩)
        rintro rfl
        exact hn (List.mem_map.2 ⟨_, List.mem_of_find?_eq_some hfind, rfl⟩)
      · exact hmem
    · exact hmem

theorem foldl_putBack_frame (ops : List (Nat × Op)) (failed : List (Op × StateError)) :
    (failed.foldl (putBack ops) x).parked.whole = x.parked.whole ∧
      (failed.foldl (putBack ops) x).state = x.state := by
  induction failed generalizing x with
  | nil => exact ⟨rfl, rfl⟩
  | cons f failed ih =>
    have hstep : (x.putBack ops f).parked.whole = x.parked.whole ∧
        (x.putBack ops f).state = x.state := by
      rw [putBack]
      split
      · split_ifs <;> exact ⟨rfl, rfl⟩
      · exact ⟨rfl, rfl⟩
    exact ⟨ih.1.trans hstep.1, ih.2.trans hstep.2⟩

end PutBack

section Retry

variable {x x' : Session (Logged DocState)} {n : Nat}

/-- A group still stranded after group `n` was tried was stranded before and is not that group, or
names a task it touched. -/
theorem retryGroup_stranded {touched : List TaskId} (hs : x.state.doc.Sound) (hvalid : x.parked.Valid)
    (hids : (x.total.map Op.id).Nodup) (hgroup : x.retryGroup (x.parked.groupOf n) = some (x', touched)) :
    x'.state.doc.Sound ∧ ∀ h, Stranded x'.state x'.parked h →
      (∃ k op e, (k, op, e) ∈ x'.parked.ops.items ∧ op.hlc = h ∧ k ∈ x'.parked.naming touched) ∨
      (Stranded x.state x.parked h ∧ ∀ k op e, (k, op, e) ∈ x.parked.ops.items → op.hlc = h →
        k ∉ x.parked.groupOf n ∧ k ≠ n ∧ (k, op, e) ∈ x'.parked.ops.items) := by
  have hnodup := x.parked.groupOf_nodup n
  obtain ⟨x₁, touched₁, hgroup₁, hkeeps, -⟩ := retryGroup_spec hvalid hids hnodup
  rw [hgroup] at hgroup₁
  obtain ⟨rfl, rfl⟩ := Prod.mk.inj (Option.some.inj hgroup₁)
  -- an op of another stamp is not in the group
  have hother : ∀ {h k op e}, (∀ op' e', (n, op', e') ∈ x.parked.ops.items → op'.hlc ≠ h) →
      (k, op, e) ∈ x.parked.ops.items → op.hlc = h → k ∉ x.parked.groupOf n ∧ k ≠ n := by
    intro h k op e hne hmem hop
    refine ⟨fun hk => ?_, ?_⟩
    · by_cases hn : ∃ v, (n, v) ∈ x.parked.ops.items
      · obtain ⟨⟨op', e'⟩, hn⟩ := hn
        obtain ⟨op₁, e₁, hk, hstamp⟩ := (hvalid.toIndexed.mem_groupOf hn).1 hk
        obtain ⟨rfl, -⟩ := Prod.mk.inj (x.parked.ops.eq_of_mem hk hmem)
        exact hne op' e' hn (hstamp.symm.trans hop)
      · rw [Parked.groupOf_eq_nil (not_exists.1 hn)] at hk
        exact List.not_mem_nil hk
    · rintro rfl
      exact hne op e hmem hop
  cases hneeds : needsAMissingTask x.state
      ((x.parked.numbered (x.parked.groupOf n)).map (·.2)) with
  | true =>
    rw [retryGroup] at hgroup
    simp only [hneeds, if_true, Option.some.injEq, Prod.mk.injEq] at hgroup
    obtain ⟨rfl, rfl⟩ := hgroup
    refine ⟨hs, fun h hst => .inr ⟨hst, fun k op e hmem hop => ?_⟩⟩
    have hne : ∀ op' e', (n, op', e') ∈ x.parked.ops.items → op'.hlc ≠ h := by
      rintro op' e' hn rfl
      have hbare : ∀ o, o ∈ (x.parked.numbered (x.parked.groupOf n)).map (·.2) ↔
          o ∈ x.parked.waitingOf op'.hlc := by
        intro o
        rw [Parked.mem_waitingOf, Parked.mem_waiting, List.mem_map]
        constructor
        · rintro ⟨⟨k, o⟩, ho, rfl⟩
          obtain ⟨hk, e, hmem⟩ := Parked.mem_numbered.1 ho
          obtain ⟨o', e', hmem', hstamp⟩ := (hvalid.toIndexed.mem_groupOf hn).1 hk
          obtain ⟨rfl, -⟩ := Prod.mk.inj (x.parked.ops.eq_of_mem hmem hmem')
          exact ⟨⟨k, e, hmem⟩, hstamp⟩
        · rintro ⟨⟨k, e, hmem⟩, hstamp⟩
          exact ⟨(k, o), Parked.mem_numbered.2
            ⟨(hvalid.toIndexed.mem_groupOf hn).2 ⟨o, e, hmem, hstamp⟩, e, hmem⟩, rfl⟩
      rw [needsAMissingTask_congr hbare, hst.2] at hneeds
      cases hneeds
    exact ⟨(hother hne hmem hop).1, (hother hne hmem hop).2, hmem⟩
  | false =>
    obtain ⟨⟨s, failed⟩, hlenient⟩ := applyLeniently_isSome x.state
      ((x.parked.numbered (x.parked.groupOf n)).map (·.2))
    rw [retryGroup_complete hneeds hlenient] at hgroup
    obtain ⟨rfl, rfl⟩ := Prod.mk.inj (Option.some.inj hgroup)
    set ops := x.parked.numbered (x.parked.groupOf n) with hops
    have hbareids : ((ops.map (·.2)).map Op.id).Nodup := by
      have hall := ((x.parked.takeGroup_waiting hnodup).map Op.id).nodup_iff.1 (waiting_ids hids)
      rw [List.map_append] at hall
      exact hall.of_append_left
    obtain ⟨applied, hfailed⟩ := applyLeniently_failed hlenient
    obtain ⟨hwhole', hstate'⟩ := foldl_putBack_frame ops failed (x := ⟨s, x.parked.takeGroup
      (x.parked.groupOf n), ⟨x.out.skipped, x.out.landed + (landedOf (ops.map (·.2)) failed).length⟩⟩)
    refine ⟨by rw [hstate']; exact (applyLeniently_grows hs hlenient).sound, fun h hst => ?_⟩
    obtain ⟨hwhole, hhead⟩ := Parked.mem_takeGroup_whole hnodup (hwhole' ▸ hst.1)
    have hne : ∀ op' e', (n, op', e') ∈ x.parked.ops.items → op'.hlc ≠ h := by
      intro op' e' hn
      have hself : (n, op') ∈ ops := Parked.mem_numbered.2
        ⟨(hvalid.toIndexed.mem_groupOf hn).2 ⟨op', e', hn, rfl⟩, e', hn⟩
      obtain ⟨⟨k, o⟩, hfirst⟩ : ∃ o, ops.head? = some o :=
        Option.isSome_iff_exists.1 (List.isSome_head?.2 (List.ne_nil_of_mem hself))
      obtain ⟨hk, e, hmem⟩ := Parked.mem_numbered.1 (List.mem_of_head? hfirst)
      obtain ⟨o', e', hmem', hstamp⟩ := (hvalid.toIndexed.mem_groupOf hn).1 hk
      obtain ⟨rfl, -⟩ := Prod.mk.inj (x.parked.ops.eq_of_mem hmem hmem')
      exact fun heq => hhead _ hfirst (hstamp.trans heq)
    have hkeep : ∀ {k op e}, (k, op, e) ∈ x.parked.ops.items → op.hlc = h →
        (k, op, e) ∈ (failed.foldl (putBack ops) ⟨s, x.parked.takeGroup (x.parked.groupOf n),
          ⟨x.out.skipped, x.out.landed + (landedOf (ops.map (·.2)) failed).length⟩⟩).parked.ops.items := by
      intro k op e hmem hop
      have hk := (hother hne hmem hop).1
      refine foldl_putBack_keeps failed (fun hin => ?_) ((Parked.mem_takeGroup hnodup).2 ⟨hmem, hk⟩)
      obtain ⟨⟨k', o⟩, ho, rfl⟩ := List.mem_map.1 hin
      exact hk (Parked.mem_numbered.1 ho).1
    have hsame : ∀ op, op ∈ (failed.foldl (putBack ops) ⟨s, x.parked.takeGroup (x.parked.groupOf n),
          ⟨x.out.skipped, x.out.landed + (landedOf (ops.map (·.2)) failed).length⟩⟩).parked.waitingOf h ↔
        op ∈ x.parked.waitingOf h := by
      intro op
      rw [Parked.mem_waitingOf, Parked.mem_waitingOf, Parked.mem_waiting, Parked.mem_waiting]
      constructor
      · rintro ⟨⟨k, e, hmem⟩, hop⟩
        rcases mem_foldl_putBack failed hmem with hmem | hback
        · exact ⟨⟨k, e, ((Parked.mem_takeGroup hnodup).1 hmem).1⟩, hop⟩
        · have hbare := hfailed.mem_iff.1 (List.mem_append_right _ hback)
          obtain ⟨⟨k', o⟩, ho, rfl⟩ := List.mem_map.1 hbare
          obtain ⟨-, e', hmem'⟩ := Parked.mem_numbered.1 ho
          exact ⟨⟨k', e', hmem'⟩, hop⟩
      · rintro ⟨⟨k, e, hmem⟩, hop⟩
        exact ⟨⟨k, e, hkeep hmem hop⟩, hop⟩
    have hbrings : ∀ t, Document.hasPlacement s t = true → Document.hasPlacement x.state t = true ∨
        t ∈ (landedOf (ops.map (·.2)) failed).filterMap fun op => subject op.kind :=
      fun t ht => applyLeniently_touched hs hbareids hlenient ht
    rw [hstate'] at hst
    rcases stranded_of_landing hkeeps.valid.toIndexed (fun _ => hwhole) hsame hbrings hst with
      hst | hk
    · exact .inr ⟨hst, fun k op e hmem hop =>
        ⟨(hother hne hmem hop).1, (hother hne hmem hop).2, hkeep hmem hop⟩⟩
    · exact .inl hk

/-- Each stranded group has a waiting op whose number is still to be tried, in this round or the
next. -/
def Pending (pos : Nat) (round later : OrdSet Nat) (x : Session (Logged DocState)) : Prop :=
  ∀ h, Stranded x.state x.parked h → ∃ k op e, (k, op, e) ∈ x.parked.ops.items ∧ op.hlc = h ∧
    ((k ∈ round ∧ pos ≤ k) ∨ k ∈ later)

theorem retryRound_pending {steps pos : Nat} {round later later' : OrdSet Nat}
    (hs : x.state.doc.Sound) (hvalid : x.parked.Valid) (hids : (x.total.map Op.id).Nodup)
    (hpending : Pending pos round later x)
    (hrun : retryRound steps pos round later x = some (later', x')) :
    x'.state.doc.Sound ∧ x'.parked.Valid ∧ (x'.total.map Op.id).Nodup ∧
      Pending 0 later' .empty x' := by
  induction steps generalizing pos round later x with
  | zero => cases hrun
  | succ steps ih =>
    rw [retryRound] at hrun
    cases hfirst : (round.filter fun k => decide (pos ≤ k)).first? with
    | none =>
      rw [hfirst] at hrun
      obtain ⟨rfl, rfl⟩ := Prod.mk.inj (Option.some.inj hrun)
      refine ⟨hs, hvalid, hids, fun h hst => ?_⟩
      obtain ⟨k, op, e, hmem, hop, (⟨hk, hle⟩ | hk)⟩ := hpending h hst
      · exact absurd (OrdSet.mem_filter.2 ⟨hk, decide_eq_true hle⟩) (OrdSet.first?_eq_none hfirst)
      · exact ⟨k, op, e, hmem, hop, .inl ⟨hk, Nat.zero_le k⟩⟩
    | some n =>
      rw [hfirst] at hrun
      dsimp only at hrun
      obtain ⟨⟨x₁, touched⟩, hgroup, hrest⟩ := Option.bind_eq_some_iff.1 hrun
      obtain ⟨x₂, touched₂, hgroup₂, hkeeps, -⟩ :=
        retryGroup_spec hvalid hids (x.parked.groupOf_nodup n)
      rw [hgroup] at hgroup₂
      obtain ⟨rfl, rfl⟩ := Prod.mk.inj (Option.some.inj hgroup₂)
      obtain ⟨hs₁, hstranded⟩ := retryGroup_stranded hs hvalid hids hgroup
      refine ih hs₁ hkeeps.valid (hkeeps.ids hids) (fun h hst => ?_) hrest
      rcases hstranded h hst with ⟨k, op, e, hmem, hop, hready⟩ | ⟨hst, hstay⟩
      · refine ⟨k, op, e, hmem, hop, ?_⟩
        by_cases hk : n + 1 ≤ k
        · exact .inl ⟨OrdSet.mem_union.2 (.inl (OrdSet.mem_filter.2 ⟨hready, decide_eq_true hk⟩)), hk⟩
        · exact .inr (OrdSet.mem_union.2
            (.inl (OrdSet.mem_filter.2 ⟨hready, decide_eq_true (not_le.1 hk)⟩)))
      · obtain ⟨k, op, e, hmem, hop, hk⟩ := hpending h hst
        obtain ⟨hnot, hne, hmem'⟩ := hstay k op e hmem hop
        refine ⟨k, op, e, hmem', hop, ?_⟩
        rcases hk with ⟨hk, hle⟩ | hk
        · have hnk := OrdSet.first?_le hfirst (OrdSet.mem_filter.2 ⟨hk, decide_eq_true hle⟩)
          exact .inl ⟨OrdSet.mem_union.2 (.inr (OrdSet.mem_filter.2 ⟨hk, decide_eq_true hnot⟩)),
            Nat.lt_of_le_of_ne hnk hne.symm⟩
        · exact .inr (OrdSet.mem_union.2 (.inr hk))

theorem retryRounds_pending {rounds : Nat} {round : OrdSet Nat} (hs : x.state.doc.Sound)
    (hvalid : x.parked.Valid) (hids : (x.total.map Op.id).Nodup)
    (hpending : Pending 0 round .empty x) (hrun : retryRounds rounds round x = some x') :
    x'.state.doc.Sound ∧ ∀ h, ¬Stranded x'.state x'.parked h := by
  induction rounds generalizing round x with
  | zero => cases hrun
  | succ rounds ih =>
    rw [retryRounds] at hrun
    split_ifs at hrun with hempty
    · obtain rfl := Option.some.inj hrun
      refine ⟨hs, fun h hst => ?_⟩
      obtain ⟨k, op, e, -, -, (⟨hk, -⟩ | hk)⟩ := hpending h hst
      · exact OrdSet.isEmpty_iff.1 hempty k hk
      · exact OrdSet.not_mem_empty hk
    · obtain ⟨⟨later, x₁⟩, hround, hrest⟩ := Option.bind_eq_some_iff.1 hrun
      obtain ⟨hs₁, hvalid₁, hids₁, hpending₁⟩ := retryRound_pending hs hvalid hids hpending hround
      exact ih hs₁ hvalid₁ hids₁ hpending₁ hrest

end Retry

/-! ## Parking a group -/

section Fits

variable {σ : Type} {x : Session σ}

/-- Within the bound a push takes nothing out. -/
theorem push_fits {p : Parked} (op : Op) (e : StateError) (hvalid : p.Valid) (hfits : p.ops.length + 1 ≤ MAX_PARKED_OPS)
    (whole : OrdSet Hlc) (skipped : List (Op × StateError)) :
    (∀ o, o ∈ ({ p with whole := whole }.push op e skipped).1.waiting ↔ o = op ∨ o ∈ p.waiting) ∧
      ({ p with whole := whole }.push op e skipped).1.whole = whole ∧
      ({ p with whole := whole }.push op e skipped).1.ops.length = p.ops.length + 1 := by
  have hnew : ∀ v, (p.next + 1, v) ∉ p.ops.items := fun v hv =>
    absurd (hvalid.fresh _ _ _ hv) (Nat.not_succ_le_self _)
  have hlen := Parked.put_length op e (p := { p with whole := whole, next := p.next + 1 }) hnew
  have hwaiting := Parked.put_waiting op e (p := { p with whole := whole, next := p.next + 1 }) hnew
  have hnot : ¬MAX_PARKED_OPS <
      ({ p with whole := whole, next := p.next + 1 }.put (p.next + 1) op e).ops.length := by
    rw [hlen]
    exact not_lt.2 hfits
  have hpush : { p with whole := whole }.push op e skipped
      = ({ p with whole := whole, next := p.next + 1 }.put (p.next + 1) op e, skipped) := by
    rw [Parked.push]
    exact if_neg hnot
  rw [hpush]
  exact ⟨fun o => hwaiting.mem_iff.trans List.mem_cons, rfl, hlen⟩

theorem foldl_pushWhole_frame (group : List Op) (hvalid : x.parked.Valid)
    (hfits : x.parked.ops.length + group.length ≤ MAX_PARKED_OPS) :
    (∀ o, o ∈ (group.foldl pushWhole x).parked.waiting ↔ o ∈ x.parked.waiting ∨ o ∈ group) ∧
      ∀ h ∈ (group.foldl pushWhole x).parked.whole, h ∈ x.parked.whole ∨ ∃ o ∈ group, o.hlc = h := by
  induction group generalizing x with
  | nil => simp
  | cons op group ih =>
    rw [List.length_cons] at hfits
    obtain ⟨hwaiting, hwhole, hlen⟩ := push_fits op (.unknownTask (firstName op)) hvalid
      (by omega) (x.parked.whole.insert op.hlc) x.out.skipped
    have hvalid' := (pushWhole_queues hvalid op).1
    obtain ⟨hwaiting', hwhole'⟩ := ih hvalid' (by
      rw [show (x.pushWhole op).parked.ops.length = x.parked.ops.length + 1 from hlen]
      omega)
    refine ⟨fun o => ?_, fun h hh => ?_⟩
    · rw [List.foldl_cons, hwaiting', List.mem_cons]
      rw [show o ∈ (x.pushWhole op).parked.waiting ↔ o = op ∨ o ∈ x.parked.waiting from hwaiting o]
      tauto
    · rcases hwhole' h hh with hh | ⟨o, ho, hop⟩
      · rw [show (x.pushWhole op).parked.whole = x.parked.whole.insert op.hlc from hwhole] at hh
        rcases OrdSet.mem_insert.1 hh with rfl | hh
        · exact .inr ⟨op, List.mem_cons_self, rfl⟩
        · exact .inl hh
      · exact .inr ⟨o, List.mem_cons_of_mem _ ho, hop⟩

variable [Document σ]

theorem foldl_requeue_frame (failed : List (Op × StateError)) (hvalid : x.parked.Valid)
    (hfits : x.parked.ops.length + failed.length ≤ MAX_PARKED_OPS) :
    (∀ o ∈ x.parked.waiting, o ∈ (failed.foldl requeue x).parked.waiting) ∧
      (∀ o ∈ (failed.foldl requeue x).parked.waiting,
        o ∈ x.parked.waiting ∨ o ∈ failed.map Prod.fst) ∧
      (failed.foldl requeue x).parked.whole = x.parked.whole := by
  induction failed generalizing x with
  | nil => exact ⟨fun _ h => h, fun _ h => .inl h, rfl⟩
  | cons f failed ih =>
    rw [List.length_cons] at hfits
    rw [List.foldl_cons, requeue]
    split_ifs
    · obtain ⟨hwaiting, hwhole, hlen⟩ := push_fits f.1 f.2 hvalid (by omega)
        x.parked.whole x.out.skipped
      have hlen' : (x.push f.1 f.2).parked.ops.length = x.parked.ops.length + 1 := hlen
      obtain ⟨hkept, hnew, hwhole'⟩ := ih (push_queues hvalid f.1 f.2).1 (by omega)
      refine ⟨fun o ho => hkept o ((hwaiting o).2 (.inr ho)), fun o ho => ?_, hwhole'.trans hwhole⟩
      rcases hnew o ho with ho | ho
      · rcases (hwaiting o).1 ho with rfl | ho
        · exact .inr List.mem_cons_self
        · exact .inl ho
      · exact .inr (List.mem_cons_of_mem _ ho)
    · obtain ⟨hkept, hnew, hwhole'⟩ := ih (x := x.skip f.1 f.2) hvalid
        (show x.parked.ops.length + failed.length ≤ _ by omega)
      exact ⟨hkept, fun o ho => (hnew o ho).imp_right (List.mem_cons_of_mem _), hwhole'⟩

end Fits

section Park

variable {x x' : Session (Logged DocState)} {group : List Op}

/-- A group that parks while it still misses a task strands nothing. -/
theorem parked_stranded (hsame : ∀ op ∈ group, ∀ op' ∈ group, op.hlc = op'.hlc)
    (hvalid : x.parked.Valid) (hfits : x.parked.ops.length + group.length ≤ MAX_PARKED_OPS)
    (hincomplete : ∀ op ∈ group,
      needsAMissingTask x.state (x.parked.waitingOf op.hlc ++ group) = true)
    (hnone : ∀ h, ¬Stranded x.state x.parked h) (h : Hlc) :
    ¬Stranded x.state (group.foldl pushWhole x).parked h := by
  rintro ⟨hh, hneeds⟩
  obtain ⟨hwaiting, hwhole⟩ := foldl_pushWhole_frame group hvalid hfits
  by_cases hop : ∃ op ∈ group, op.hlc = h
  · obtain ⟨op, hop, rfl⟩ := hop
    have hall : ∀ o, o ∈ (group.foldl pushWhole x).parked.waitingOf op.hlc ↔
        o ∈ x.parked.waitingOf op.hlc ++ group := by
      intro o
      rw [Parked.mem_waitingOf, hwaiting, List.mem_append, Parked.mem_waitingOf]
      constructor
      · rintro ⟨ho | ho, hstamp⟩
        · exact .inl ⟨ho, hstamp⟩
        · exact .inr ho
      · rintro (⟨ho, hstamp⟩ | ho)
        · exact ⟨.inl ho, hstamp⟩
        · exact ⟨.inr ho, hsame o ho op hop⟩
    rw [needsAMissingTask_congr hall, hincomplete op hop] at hneeds
    cases hneeds
  · have hother : ∀ o, o ∈ (group.foldl pushWhole x).parked.waitingOf h ↔
        o ∈ x.parked.waitingOf h := by
      intro o
      rw [Parked.mem_waitingOf, hwaiting, Parked.mem_waitingOf]
      constructor
      · rintro ⟨ho, hstamp⟩
        exact ⟨ho.resolve_right fun hin => hop ⟨o, hin, hstamp⟩, hstamp⟩
      · rintro ⟨ho, hstamp⟩
        exact ⟨.inl ho, hstamp⟩
    rw [needsAMissingTask_congr hother] at hneeds
    exact hnone h ⟨(hwhole h hh).resolve_right hop, hneeds⟩

theorem parkGroup_stranded (hsame : ∀ op ∈ group, ∀ op' ∈ group, op.hlc = op'.hlc)
    (hs : x.state.doc.Sound) (hvalid : x.parked.Valid)
    (hids : ((x.total ++ group).map Op.id).Nodup)
    (hfits : x.parked.ops.length + group.length ≤ MAX_PARKED_OPS)
    (hincomplete : x.ParksIncomplete group) (hnone : ∀ h, ¬Stranded x.state x.parked h)
    (hrun : x.parkGroup group = some x') :
    x'.state.doc.Sound ∧ ∀ h, ¬Stranded x'.state x'.parked h := by
  rw [parkGroup] at hrun
  split_ifs at hrun with hparks
  · obtain rfl := Option.some.inj hrun
    obtain ⟨-, hstate, -⟩ :=
      foldl_queues pushWhole id (fun x op h => pushWhole_queues h op) hvalid group
    refine ⟨by rw [hstate]; exact hs, fun h => ?_⟩
    rw [hstate]
    exact parked_stranded hsame hvalid hfits (hincomplete hparks) hnone h
  · obtain ⟨⟨s, failed⟩, hlenient, hrun⟩ := Option.bind_eq_some_iff.1 hrun
    dsimp only at hrun
    obtain ⟨applied, hfailed⟩ := applyLeniently_failed hlenient
    have hgroupids : (group.map Op.id).Nodup := by
      rw [List.map_append] at hids
      exact hids.of_append_right
    have hlen := hfailed.length_eq
    rw [List.length_append, List.length_map] at hlen
    obtain ⟨hvalid₁, hstate₁, htotal₁⟩ := requeue_total hvalid hlenient
    obtain ⟨hkept, hnew, hwhole⟩ := foldl_requeue_frame (x := { x with state := s }) failed hvalid
      (show x.parked.ops.length + failed.length ≤ _ by omega)
    set x₁ := failed.foldl requeue { x with state := s } with hx₁
    have hs₁ : x₁.state.doc.Sound := by
      rw [hstate₁]
      exact (applyLeniently_grows hs hlenient).sound
    -- what of the group waits alone has a stamp that is not parked whole
    have hwaiting : ∀ h ∈ x.parked.whole, ∀ o, o ∈ x₁.parked.waitingOf h ↔ o ∈ x.parked.waitingOf h := by
      intro h hh o
      rw [Parked.mem_waitingOf, Parked.mem_waitingOf]
      constructor
      · rintro ⟨ho, hstamp⟩
        refine ⟨(hnew o ho).resolve_right fun hback => hparks ?_, hstamp⟩
        have hin : o ∈ group := hfailed.mem_iff.1 (List.mem_append_right _ hback)
        obtain ⟨first, hfirst⟩ : ∃ first, group.head? = some first :=
          Option.isSome_iff_exists.1 (List.isSome_head?.2 (List.ne_nil_of_mem hin))
        rw [parks, hfirst, Option.any_some, Parked.waitsWhole,
          hsame first (List.mem_of_head? hfirst) o hin, hstamp, decide_eq_true hh, Bool.true_or]
      · rintro ⟨ho, hstamp⟩
        exact ⟨hkept o ho, hstamp⟩
    have hbrings : ∀ t, Document.hasPlacement x₁.state t = true →
        Document.hasPlacement x.state t = true ∨
          t ∈ (landedOf group failed).filterMap fun op => subject op.kind := by
      intro t ht
      rw [hstate₁] at ht
      exact applyLeniently_touched hs hgroupids hlenient ht
    have hstranded : ∀ h, Stranded x₁.state x₁.parked h → ∃ k op e, (k, op, e) ∈ x₁.parked.ops.items ∧
        op.hlc = h ∧ k ∈ x₁.parked.naming
          ((landedOf group failed).filterMap fun op => subject op.kind) := by
      intro h hst
      have hh : h ∈ x.parked.whole := hwhole ▸ hst.1
      exact (stranded_of_landing hvalid₁.toIndexed (fun _ => hh) (hwaiting h hh) hbrings hst).resolve_left
        (hnone h)
    split_ifs at hrun with htouched
    · obtain rfl := Option.some.inj hrun
      refine ⟨hs₁, fun h hst => ?_⟩
      obtain ⟨k, op, e, -, -, hk⟩ := hstranded h hst
      obtain ⟨t, ht, -⟩ := Parked.mem_naming.1 hk
      rw [List.isEmpty_iff.1 htouched] at ht
      exact List.not_mem_nil ht
    · have hids₁ : (x₁.total.map Op.id).Nodup := (htotal₁.map _).nodup_iff.2 hids
      refine retryRounds_pending hs₁ hvalid₁ hids₁ (fun h hst => ?_) hrun
      obtain ⟨k, op, e, hmem, hop, hk⟩ := hstranded h hst
      exact ⟨k, op, e, hmem, hop, .inl ⟨hk, Nat.zero_le k⟩⟩

theorem allParkIncomplete_plain {groups : List (List Op)} (h : AllParkIncomplete x.plain groups) :
    AllParkIncomplete x groups := by
  induction groups generalizing x with
  | nil => trivial
  | cons group groups ih =>
    refine ⟨h.1, fun x' hx' => ih (h.2 x'.plain ?_)⟩
    rw [plain_parkGroup, hx', Option.map_some]

theorem foldlM_parkGroup_stranded {groups : List (List Op)}
    (hsame : ∀ group ∈ groups, ∀ op ∈ group, ∀ op' ∈ group, op.hlc = op'.hlc)
    (hs : x.state.doc.Sound) (hvalid : x.parked.Valid)
    (hids : ((x.total ++ groups.flatten).map Op.id).Nodup)
    (hfits : (x.total ++ groups.flatten).length ≤ MAX_PARKED_OPS)
    (hincomplete : AllParkIncomplete x groups) (hnone : ∀ h, ¬Stranded x.state x.parked h)
    (hrun : groups.foldlM parkGroup x = some x') :
    x'.state.doc.Sound ∧ ∀ h, ¬Stranded x'.state x'.parked h := by
  induction groups generalizing x with
  | nil =>
    obtain rfl := Option.some.inj hrun
    exact ⟨hs, hnone⟩
  | cons group groups ih =>
    rw [List.flatten_cons, ← List.append_assoc] at hids hfits
    rw [List.foldlM_cons] at hrun
    obtain ⟨x₁, hpark, hrest⟩ := Option.bind_eq_some_iff.1 hrun
    have hgroupids : ((x.total ++ group).map Op.id).Nodup := by
      rw [List.map_append] at hids
      exact hids.of_append_left
    have hgroupfits : x.parked.ops.length + group.length ≤ MAX_PARKED_OPS := by
      have hwaiting : x.parked.waiting.length = x.parked.ops.length := List.length_map ..
      simp only [total, List.length_append] at hfits
      omega
    obtain ⟨y, hpark', hvalid₁, hperm⟩ := parkGroup_spec hvalid group hgroupids
    obtain rfl : x₁ = y := Option.some.inj (hpark.symm.trans hpark')
    obtain ⟨hs₁, hnone₁⟩ := parkGroup_stranded (hsame group List.mem_cons_self) hs hvalid hgroupids
      hgroupfits hincomplete.1 hnone hpark
    have hall := hperm.append_right groups.flatten
    exact ih (fun g hg => hsame g (List.mem_cons_of_mem _ hg)) hs₁ hvalid₁
      ((hall.map _).nodup_iff.2 hids) (hall.length_eq.trans_le hfits) (hincomplete.2 x₁ hpark) hnone₁
      hrest

end Park

end Session

/-- The ops of a commit group have one stamp. -/
theorem commitGroups_hlc {ops group : List Op} (hgroup : group ∈ commitGroups ops) :
    ∀ op ∈ group, ∀ op' ∈ group, op.hlc = op'.hlc := by
  have hchain : group.IsChain fun a b => a.hlc = b.hlc :=
    (List.isChain_of_mem_splitBy hgroup).imp fun _ _ h => of_decide_eq_true h
  have : IsTrans Op fun a b => a.hlc = b.hlc := ⟨fun _ _ _ => Eq.trans⟩
  have : Std.Symm fun a b : Op => a.hlc = b.hlc := ⟨fun _ _ => Eq.symm⟩
  have hpairs := List.isChain_iff_pairwise.1 hchain
  exact List.Pairwise.forall_of_forall (R := fun a b : Op => a.hlc = b.hlc) (fun _ _ => rfl) hpairs

open Session

/-- The document stays sound, the queue valid and what waits was passed in; and no group is
stranded. -/
theorem ParkRun.spec {past : List Op} {state : DocState} {p : Parked} (hrun : ParkRun past state p)
    (hids : (past.map Op.id).Nodup) (hfits : past.length < MAX_PARKED_OPS) :
    state.Sound ∧ p.Valid ∧ (∃ gone, (p.waiting ++ gone).Perm past) ∧ ∀ h, ¬Stranded state p h := by
  induction hrun with
  | start hstart =>
    refine ⟨hstart.sound, Parked.valid_empty, ⟨[], List.Perm.refl _⟩, fun h hst => ?_⟩
    exact OrdSet.not_mem_empty hst.1
  | change hpast hreach hmiss ih =>
    obtain ⟨-, hvalid, hgone, -⟩ := ih hids hfits
    exact ⟨hreach.sound, hvalid, hgone, fun h => hmiss.not_stranded⟩
  | @call past ops state p x hpast hincomplete happly ih =>
    rw [List.length_append] at hfits
    have hpastids : (past.map Op.id).Nodup := by
      rw [List.map_append] at hids
      exact hids.of_append_left
    obtain ⟨hs, hvalid, ⟨gone, hgone⟩, hnone⟩ := ih hpastids (by omega)
    have hall : (p.waiting ++ ops ++ gone).Perm (past ++ ops) := by
      rw [List.append_assoc]
      refine (List.perm_append_comm.append_left _).trans ?_
      rw [← List.append_assoc]
      exact hgone.append_right _
    have hcallids : ((p.waiting ++ ops).map Op.id).Nodup := by
      have h := (hall.map Op.id).nodup_iff.2 hids
      rw [List.map_append] at h
      exact h.of_append_left
    have hlength := hall.length_eq
    simp only [List.length_append] at hlength
    obtain ⟨y, hlogged, hplain, hvalid', hperm⟩ := applyParking_spec state hvalid ops hcallids
    obtain rfl : x = y.plain := Option.some.inj (happly.symm.trans hplain)
    have htotal : total (⟨⟨state, []⟩, p, ⟨[], 0⟩⟩ : Session (Logged DocState)) = p.waiting := by
      simp [total]
    obtain ⟨hs', hnone'⟩ := foldlM_parkGroup_stranded (x := ⟨⟨state, []⟩, p, ⟨[], 0⟩⟩)
      (fun _ hgroup => commitGroups_hlc hgroup) hs hvalid
      (by rwa [htotal, flatten_commitGroups])
      (by
        rw [htotal, flatten_commitGroups, List.length_append]
        omega) (allParkIncomplete_plain hincomplete) hnone hlogged
    refine ⟨hs', hvalid', ⟨y.state.log ++ y.out.skipped.map Prod.fst ++ gone, ?_⟩, hnone'⟩
    refine List.Perm.trans ?_ hall
    rw [← List.append_assoc]
    refine List.Perm.append_right _ (List.Perm.trans ?_ hperm)
    rw [total, ← List.append_assoc]
    exact List.perm_append_comm.append_right _

/-- In every run in which a group that parks, or that waits whole while the document changes by other
means, still misses a task, no group is left waiting whole without one it misses. -/
theorem no_group_is_stranded {past : List Op} {state : DocState} {p : Parked}
    (hrun : ParkRun past state p) (hids : (past.map Op.id).Nodup)
    (hfits : past.length < MAX_PARKED_OPS) : ∀ h, ¬Stranded state p h :=
  (hrun.spec hids hfits).2.2.2

/-- A move after a task that is not here waits, over a local edit, until another stamp brings the task. -/
theorem no_group_is_stranded_move :
    let first : TaskId := ⟨1, by decide⟩
    let second : TaskId := ⟨2, by decide⟩
    let third : TaskId := ⟨3, by decide⟩
    let path : FilePath := ⟨['f']⟩
    let file : File := ⟨[.ofText ['a'] .lf], false, .lf, true⟩
    let state := DocState.ofEntries path file .sidecar [.task first (.ofText ['a'] .lf)]
    let move : Op := ⟨⟨1⟩, ⟨2, 0, ⟨1⟩⟩, path, .move first (some second) path⟩
    let localInsert : Op := ⟨⟨2⟩, ⟨3, 0, ⟨2⟩⟩, path, .insert third none ['c']⟩
    let insert : Op := ⟨⟨3⟩, ⟨1, 0, ⟨3⟩⟩, path, .insert second none ['b']⟩
    ∃ x y : Session DocState, applyParking state [move] .empty = some x ∧ x.parked.waiting = [move] ∧
      applyParking (state.apply localInsert).state [insert] x.parked = some y ∧
      y.parked.waiting = [] ∧ ∀ h, ¬Stranded y.state y.parked h := by
  intro first second third path file state move localInsert insert
  have hruns : (applyParking state [move] .empty).any (fun x =>
      decide (x.parked.waiting = [move]) && (decide (x.parked.whole.items = [move.hlc]) &&
      (needsAMissingTask (state.apply localInsert).state (x.parked.waitingOf move.hlc) &&
      ((applyParking (state.apply localInsert).state [insert] x.parked).any fun y =>
        decide (y.parked.waiting = []))))) = true := by decide
  obtain ⟨x, hx, hruns⟩ := (Option.any_eq_true _ _).1 hruns
  simp only [Bool.and_eq_true, decide_eq_true_eq, Option.any_eq_true] at hruns
  obtain ⟨hwaiting, hwhole, hneeds, y, hy, hdone⟩ := hruns
  have hstart : state.Reachable :=
    .fromFile (show DocState.fromFile path file [some first] .sidecar = .ok state from rfl) (by decide)
  have hparked : ParkRun ([] ++ [move]) x.state x.parked := by
    refine .call (.start hstart) ?_ hx
    rw [show commitGroups [move] = [[move]] by decide]
    exact ⟨fun _ => by decide, fun _ _ => trivial⟩
  have hmiss : x.parked.AllMiss (state.apply localInsert).state := by
    intro h hh
    rw [OrdSet.mem_def, hwhole, List.mem_singleton] at hh
    rw [hh]
    exact hneeds
  have hrun : ParkRun ([] ++ [move] ++ [insert]) y.state y.parked := by
    refine .call (.change hparked (hstart.apply localInsert) hmiss) ?_ hy
    rw [show commitGroups [insert] = [[insert]] by decide]
    refine ⟨fun hparks => ?_, fun _ _ => trivial⟩
    have hnot : Session.parks ⟨(state.apply localInsert).state, x.parked, ⟨[], 0⟩⟩ [insert] = false := by
      have hother : Parked.waitsWhole x.parked insert.hlc = false := by
        rw [Parked.waitsWhole, decide_eq_false_iff_not, OrdSet.mem_def, hwhole]
        decide
      have hneeds' : needsAMissingTask (state.apply localInsert).state [insert] = false := by decide
      rw [Session.parks, List.head?_cons, Option.any_some, hother, Bool.false_or, hneeds']
    rw [hnot] at hparks
    cases hparks
  exact ⟨x, y, hx, hwaiting, hy, hdone, no_group_is_stranded hrun (by decide) (by decide)⟩

/-- The half of a group that brings the task the other half waits for joins it, and neither applies. -/
theorem later_half_is_stranded :
    let first : TaskId := ⟨1, by decide⟩
    let second : TaskId := ⟨2, by decide⟩
    let path : FilePath := ⟨['f']⟩
    let file : File := ⟨[.ofText ['a'] .lf], false, .lf, true⟩
    let state := DocState.ofEntries path file .sidecar [.task first (.ofText ['a'] .lf)]
    let stamp : Hlc := ⟨2, 0, ⟨1⟩⟩
    let move : Op := ⟨⟨1⟩, stamp, path, .move first (some second) path⟩
    let insert : Op := ⟨⟨2⟩, stamp, path, .insert second none ['b']⟩
    DocState.fromFile path file [some first] .sidecar = .ok state ∧
      ∃ x y : Session DocState, applyParking state [move] .empty = some x ∧
        applyParking x.state [insert] x.parked = some y ∧ Stranded y.state y.parked stamp := by
  intro first second path file state stamp move insert
  refine ⟨rfl, ?_⟩
  obtain ⟨x, hx⟩ : ∃ x, applyParking state [move] .empty = some x :=
    Option.isSome_iff_exists.1 (by decide)
  have hboth : ((applyParking state [move] .empty).bind fun x =>
      (applyParking x.state [insert] x.parked).map fun y =>
        decide (stamp ∈ y.parked.whole) &&
          !needsAMissingTask y.state (y.parked.waitingOf stamp)) = some true := by decide
  rw [hx, Option.bind_some, Option.map_eq_some_iff] at hboth
  obtain ⟨y, hy, hstranded⟩ := hboth
  rw [Bool.and_eq_true, decide_eq_true_eq, Bool.not_eq_true'] at hstranded
  exact ⟨x, y, hx, hy, hstranded⟩

/-- A local insert that brings the task a move waits for does not retry it, nor does a later call that
touches no task of it. -/
theorem local_insert_strands :
    let first : TaskId := ⟨1, by decide⟩
    let second : TaskId := ⟨2, by decide⟩
    let path : FilePath := ⟨['f']⟩
    let file : File := ⟨[.ofText ['a'] .lf], false, .lf, true⟩
    let state := DocState.ofEntries path file .sidecar [.task first (.ofText ['a'] .lf)]
    let move : Op := ⟨⟨1⟩, ⟨2, 0, ⟨1⟩⟩, path, .move first (some second) path⟩
    let localInsert : Op := ⟨⟨2⟩, ⟨3, 0, ⟨2⟩⟩, path, .insert second none ['b']⟩
    ∃ x y : Session DocState, applyParking state [move] .empty = some x ∧
      applyParking (x.state.apply localInsert).state [] x.parked = some y ∧
      Stranded y.state y.parked move.hlc := by
  intro first second path file state move localInsert
  have hboth : ((applyParking state [move] .empty).any fun x =>
      (applyParking (x.state.apply localInsert).state [] x.parked).any fun y =>
        decide (move.hlc ∈ y.parked.whole) &&
          !needsAMissingTask y.state (y.parked.waitingOf move.hlc)) = true := by decide
  simp only [Option.any_eq_true, Bool.and_eq_true, decide_eq_true_eq, Bool.not_eq_true'] at hboth
  obtain ⟨x, hx, y, hy, hstranded⟩ := hboth
  exact ⟨x, y, hx, hy, hstranded⟩

end Txtodo
