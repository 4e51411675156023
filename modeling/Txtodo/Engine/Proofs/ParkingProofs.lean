import Txtodo.Engine.Proofs.LenientProofs
import Txtodo.Engine.Proofs.ParkedProofs

/-!
# Proofs: parking

No op of a session is lost or doubled, and the retries end.
-/

namespace Txtodo

namespace Session

/-- The op of an id, found again at its number. -/
theorem find?_id {ops : List (Nat × Op)} (hids : (ops.map fun o => o.2.id).Nodup) {n : Nat} {op : Op}
    (hmem : (n, op) ∈ ops) : (ops.find? fun o => o.2.id = op.id) = some (n, op) := by
  cases hfind : ops.find? fun o => o.2.id = op.id with
  | none => exact absurd (List.find?_eq_none.1 hfind _ hmem) (by simp)
  | some o =>
    have hid : o.2.id = op.id := by simpa using List.find?_some hfind
    exact congrArg some (List.inj_on_of_nodup_map hids (List.mem_of_find?_eq_some hfind) hmem hid)

section PutBack

variable {σ : Type} [Document σ] {x : Session σ} {ops : List (Nat × Op)} {n : Nat}

/-- What waits or is skipped. -/
def queued (x : Session σ) : List Op := x.parked.waiting ++ x.out.skipped.map Prod.fst

theorem putBack_spec (hids : (ops.map fun o => o.2.id).Nodup) (h : x.parked.Indexed)
    {f : Op × StateError} (hmem : (n, f.1) ∈ ops) (hnew : ∀ v, (n, v) ∉ x.parked.ops.items) :
    (x.putBack ops f).parked.Indexed ∧ (x.putBack ops f).state = x.state ∧
      (x.putBack ops f).parked.next = x.parked.next ∧
      (x.putBack ops f).parked.ops.length ≤ x.parked.ops.length + 1 ∧
      (x.putBack ops f).queued.Perm (x.queued ++ [f.1]) ∧
      ∀ n' v, (n', v) ∈ (x.putBack ops f).parked.ops.items → n' = n ∨ (n', v) ∈ x.parked.ops.items := by
  rw [putBack, find?_id hids hmem]
  dsimp only
  split_ifs with hwaits
  · refine ⟨h.put hnew, rfl, rfl, (Parked.put_length f.1 f.2 hnew).le, ?_, fun n' v hv => ?_⟩
    · exact ((Parked.put_waiting f.1 f.2 hnew).append_right _).trans (List.perm_append_singleton _ _).symm
    · rcases Parked.mem_put.1 hv with ⟨heq, -⟩ | ⟨-, hv⟩
      · exact .inl heq
      · exact .inr hv
  · refine ⟨h, rfl, rfl, Nat.le_succ _, ?_, fun n' v hv => .inr hv⟩
    simp [queued, skip]

/-- The failed ops of a group each go back or are skipped. -/
theorem foldl_putBack_spec (hids : (ops.map fun o => o.2.id).Nodup)
    (hnums : (ops.map Prod.fst).Nodup) (failed : List (Op × StateError))
    (hfailed : ∀ f ∈ failed, ∃ n, (n, f.1) ∈ ops ∧ ∀ v, (n, v) ∉ x.parked.ops.items)
    (hnodup : (failed.map fun f => f.1.id).Nodup) (h : x.parked.Indexed) :
    (failed.foldl (putBack ops) x).parked.Indexed ∧
      (failed.foldl (putBack ops) x).state = x.state ∧
      (failed.foldl (putBack ops) x).parked.next = x.parked.next ∧
      (failed.foldl (putBack ops) x).parked.ops.length ≤ x.parked.ops.length + failed.length ∧
      (failed.foldl (putBack ops) x).queued.Perm (x.queued ++ failed.map Prod.fst) ∧
      ∀ n v, (n, v) ∈ (failed.foldl (putBack ops) x).parked.ops.items →
        n ∈ ops.map Prod.fst ∨ (n, v) ∈ x.parked.ops.items := by
  induction failed generalizing x with
  | nil => exact ⟨h, rfl, rfl, le_rfl, by simp, fun _ _ hv => .inr hv⟩
  | cons f failed ih =>
    obtain ⟨n, hmem, hnew⟩ := hfailed f List.mem_cons_self
    obtain ⟨hindexed, hstate, hnext, hlen, hperm, hitems⟩ := putBack_spec hids h hmem hnew
    obtain ⟨hf, hnodup⟩ := List.nodup_cons.1 (List.map_cons ▸ hnodup)
    have hrest : ∀ f' ∈ failed, ∃ n', (n', f'.1) ∈ ops ∧
        ∀ v, (n', v) ∉ (x.putBack ops f).parked.ops.items := by
      intro f' hf'
      obtain ⟨n', hmem', hnew'⟩ := hfailed f' (List.mem_cons_of_mem _ hf')
      refine ⟨n', hmem', fun v hv => ?_⟩
      rcases hitems n' v hv with rfl | hv
      · -- the two failed ops would be one
        have hsame := List.inj_on_of_nodup_map hnums hmem hmem' rfl
        exact hf (List.mem_map.2 ⟨f', hf', by rw [(Prod.mk.inj hsame).2]⟩)
      · exact hnew' v hv
    obtain ⟨hindexed', hstate', hnext', hlen', hperm', hitems'⟩ := ih hrest hnodup hindexed
    rw [List.foldl_cons]
    refine ⟨hindexed', hstate'.trans hstate, hnext'.trans hnext, ?_, ?_, fun n' v hv => ?_⟩
    · rw [List.length_cons]
      omega
    · refine hperm'.trans ((hperm.append_right _).trans ?_)
      rw [List.map_cons, List.append_assoc, List.singleton_append]
    · rcases hitems' n' v hv with hn | hv
      · exact .inl hn
      · rcases hitems n' v hv with rfl | hv
        · exact .inl (List.mem_map.2 ⟨_, hmem, rfl⟩)
        · exact .inr hv

end PutBack

/-! ## Retrying -/

section Retry

variable {σ : Type}

/-- A retry keeps the queue exact and the ops, gives out no number and adds no waiting op. -/
structure Keeps (x x' : Session (Logged σ)) : Prop where
  valid : x'.parked.Valid
  next : x'.parked.next = x.parked.next
  total : x'.total.Perm x.total
  length : x'.parked.ops.length ≤ x.parked.ops.length

variable {x x' x'' : Session (Logged σ)}

theorem Keeps.refl (h : x.parked.Valid) : Keeps x x := ⟨h, rfl, List.Perm.refl _, le_rfl⟩

theorem Keeps.trans (h : Keeps x x') (h' : Keeps x' x'') : Keeps x x'' :=
  ⟨h'.valid, h'.next.trans h.next, h'.total.trans h.total, h'.length.trans h.length⟩

theorem Keeps.ids (h : Keeps x x') (hids : (x.total.map Op.id).Nodup) :
    (x'.total.map Op.id).Nodup := (h.total.map _).nodup_iff.2 hids

theorem total_eq (x : Session (Logged σ)) : x.total = x.state.log ++ x.queued := List.append_assoc ..

theorem waiting_ids (hids : (x.total.map Op.id).Nodup) : (x.parked.waiting.map Op.id).Nodup := by
  rw [total, List.map_append, List.map_append] at hids
  exact hids.of_append_left.of_append_right

variable [Document σ]

/-- A group that is complete: its ops land, wait again or are skipped. -/
theorem retryGroup_complete {x : Session σ} {group : List Nat} {s : σ}
    {failed : List (Op × StateError)}
    (hneeds : needsAMissingTask x.state ((x.parked.numbered group).map (·.2)) = false)
    (hlenient : applyLeniently x.state ((x.parked.numbered group).map (·.2)) = some (s, failed)) :
    x.retryGroup group = some (failed.foldl (putBack (x.parked.numbered group))
        ⟨s, x.parked.takeGroup group, ⟨x.out.skipped,
          x.out.landed + (landedOf ((x.parked.numbered group).map (·.2)) failed).length⟩⟩,
      (landedOf ((x.parked.numbered group).map (·.2)) failed).filterMap fun op => subject op.kind) := by
  rw [retryGroup]
  dsimp only
  rw [hneeds, hlenient]
  rfl

/-- What landed is not among what failed, so less comes back than was taken out. -/
theorem landedOf_length {ops : List Op} {failed : List (Op × StateError)} {applied : List Op}
    (hfailed : (applied ++ failed.map Prod.fst).Perm ops) (hne : landedOf ops failed ≠ []) :
    failed.length < ops.length := by
  have hlen := hfailed.length_eq
  rw [List.length_append, List.length_map] at hlen
  by_contra hge
  have happlied : applied = [] := List.length_eq_zero_iff.1 (by omega)
  rw [happlied, List.nil_append] at hfailed
  refine hne (List.filter_eq_nil_iff.2 fun op hop => ?_)
  obtain ⟨f, hf, heq⟩ := List.mem_map.1 (hfailed.mem_iff.2 hop)
  simp only [Bool.not_eq_true, Bool.not_eq_false', List.any_eq_true, decide_eq_true_eq]
  exact ⟨f, hf, by rw [heq]⟩

/-- A group is tried: it stays where it is, or its ops land, wait again or are skipped. -/
theorem retryGroup_spec (hvalid : x.parked.Valid) (hids : (x.total.map Op.id).Nodup)
    {group : List Nat} (hgroup : group.Nodup) :
    ∃ x' touched, x.retryGroup group = some (x', touched) ∧ Keeps x x' ∧
      (touched ≠ [] → x'.parked.ops.length < x.parked.ops.length) := by
  cases hneeds : needsAMissingTask x.state ((x.parked.numbered group).map (·.2)) with
  | true => exact ⟨x, [], by rw [retryGroup]; simp [hneeds], .refl hvalid, fun h => absurd rfl h⟩
  | false =>
    obtain ⟨⟨s, failed⟩, hlenient⟩ :=
      applyLeniently_isSome x.state ((x.parked.numbered group).map (·.2))
    refine ⟨_, _, retryGroup_complete hneeds hlenient, ?_⟩
    set ops := x.parked.numbered group with hops
    set bare := ops.map (·.2) with hbare
    obtain ⟨applied, hfailed⟩ := applyLeniently_failed hlenient
    have hwaiting := x.parked.takeGroup_waiting hgroup
    have hlength := x.parked.takeGroup_length hgroup
    rw [← hops, ← hbare] at hwaiting hlength
    -- the ops of the group, and so those that failed, have different ids and numbers
    have hbareids : (bare.map Op.id).Nodup := by
      have hall := (hwaiting.map Op.id).nodup_iff.1 (waiting_ids hids)
      rw [List.map_append] at hall
      exact hall.of_append_left
    have hfailedids : (failed.map fun f => f.1.id).Nodup := by
      have hall := (hfailed.map Op.id).nodup_iff.2 hbareids
      rw [List.map_append, List.map_map] at hall
      exact hall.of_append_right
    have hback : ∀ f ∈ failed, ∃ n, (n, f.1) ∈ ops ∧
        ∀ v, (n, v) ∉ (x.parked.takeGroup group).ops.items := by
      intro f hf
      have hmem : f.1 ∈ bare :=
        hfailed.mem_iff.1 (List.mem_append_right _ (List.mem_map_of_mem hf))
      obtain ⟨⟨n, op⟩, hop, heq⟩ := List.mem_map.1 hmem
      refine ⟨n, heq ▸ hop, fun v hv => ?_⟩
      exact ((Parked.mem_takeGroup hgroup).1 hv).2 (Parked.mem_numbered.1 hop).1
    set y : Session (Logged σ) := ⟨s, x.parked.takeGroup group,
      ⟨x.out.skipped, x.out.landed + (landedOf bare failed).length⟩⟩ with hy
    have hyops : y.parked.ops.length = (x.parked.takeGroup group).ops.length := rfl
    have hopids : (ops.map fun o => o.2.id).Nodup := by rwa [hbare, List.map_map] at hbareids
    obtain ⟨hindexed, hstate, hnext, hlen, hperm, hitems⟩ := foldl_putBack_spec (x := y) hopids
      (Parked.numbered_nodup hgroup) failed hback hfailedids (hvalid.toIndexed.takeGroup hgroup)
    have hfewer := hfailed.length_eq
    rw [List.length_append, List.length_map] at hfewer
    refine ⟨⟨⟨hindexed, fun n op e hmem => ?_, ?_⟩, ?_, ?_, ?_⟩, fun htouched => ?_⟩
    · rw [hnext, Parked.takeGroup_next hgroup]
      rcases hitems n (op, e) hmem with hn | hmem
      · obtain ⟨⟨n', op'⟩, hop, rfl⟩ := List.mem_map.1 hn
        obtain ⟨-, e', hmem⟩ := Parked.mem_numbered.1 hop
        exact hvalid.fresh _ _ _ hmem
      · exact hvalid.fresh _ _ _ ((Parked.mem_takeGroup hgroup).1 hmem).1
    · have hbound := hvalid.bound
      omega
    · exact hnext.trans (Parked.takeGroup_next hgroup)
    · have hlog := applyLeniently_log hlenient
      rw [total_eq, total_eq, hstate]
      calc s.log ++ _
          |>.Perm (s.log ++ ((x.parked.takeGroup group).waiting ++ x.out.skipped.map Prod.fst
            ++ failed.map Prod.fst)) := hperm.append_left _
        _ |>.Perm (s.log ++ failed.map Prod.fst
            ++ ((x.parked.takeGroup group).waiting ++ x.out.skipped.map Prod.fst)) := by
          rw [List.append_assoc s.log]
          exact List.perm_append_comm.append_left _
        _ |>.Perm (x.state.log ++ bare
            ++ ((x.parked.takeGroup group).waiting ++ x.out.skipped.map Prod.fst)) :=
          hlog.append_right _
        _ |>.Perm (x.state.log ++ (x.parked.waiting ++ x.out.skipped.map Prod.fst)) := by
          rw [List.append_assoc x.state.log, ← List.append_assoc bare]
          exact (hwaiting.symm.append_right _).append_left _
    · omega
    · have hlanded : landedOf bare failed ≠ [] := by
        rintro heq
        rw [heq] at htouched
        exact htouched rfl
      have hless := landedOf_length hfailed hlanded
      omega

/-- Every step of a round takes a greater number. -/
theorem retryRound_spec (steps : Nat) {pos : Nat} {round : OrdSet Nat} (later : OrdSet Nat)
    (hvalid : x.parked.Valid) (hids : (x.total.map Op.id).Nodup) (hpos : pos ≤ x.parked.next + 1)
    (hsteps : x.parked.next + 2 ≤ steps + pos) (hround : ∀ n ∈ round, n ≤ x.parked.next) :
    ∃ later' x', retryRound steps pos round later x = some (later', x') ∧ Keeps x x' ∧
      ∀ n ∈ later', n ∈ later ∨
        x'.parked.ops.length < x.parked.ops.length ∧ n ≤ x.parked.next := by
  induction steps generalizing pos round later x with
  | zero => omega
  | succ steps ih =>
    rw [retryRound]
    cases hfirst : (round.filter fun k => decide (pos ≤ k)).first? with
    | none => exact ⟨later, x, rfl, .refl hvalid, fun n hn => .inl hn⟩
    | some n =>
      obtain ⟨hn, hle⟩ := OrdSet.mem_filter.1 (OrdSet.first?_mem hfirst)
      have hnext := hround n hn
      have hle : pos ≤ n := of_decide_eq_true hle
      obtain ⟨x₁, touched, hgroup, hkeeps, hless⟩ :=
        retryGroup_spec hvalid hids (x.parked.groupOf_nodup n)
      dsimp only
      rw [hgroup, Option.bind_eq_bind, Option.bind_some]
      dsimp only
      have hready : ∀ k ∈ x₁.parked.naming touched, x₁.parked.ops.length < x.parked.ops.length := by
        intro k hk
        obtain ⟨t, ht, -⟩ := Parked.mem_naming.1 hk
        exact hless (List.ne_nil_of_mem ht)
      have hpos' : n + 1 ≤ x₁.parked.next + 1 := by
        rw [hkeeps.next]
        omega
      have hsteps' : x₁.parked.next + 2 ≤ steps + (n + 1) := by
        rw [hkeeps.next]
        omega
      have hround' : ∀ k ∈ ((x₁.parked.naming touched).filter fun k => n + 1 ≤ k).union
          (round.filter fun k => k ∉ x.parked.groupOf n), k ≤ x₁.parked.next := by
        intro k hk
        rcases OrdSet.mem_union.1 hk with hk | hk
        · exact hkeeps.valid.naming_le (OrdSet.mem_filter.1 hk).1
        · rw [hkeeps.next]
          exact hround k (OrdSet.mem_filter.1 hk).1
      obtain ⟨later', x', hrest, hkeeps', hlater⟩ :=
        ih _ hkeeps.valid (hkeeps.ids hids) hpos' hsteps' hround'
      refine ⟨later', x', hrest, hkeeps.trans hkeeps', fun k hk => ?_⟩
      rcases hlater k hk with hk | hk
      · rcases OrdSet.mem_union.1 hk with hk | hk
        · obtain ⟨hk, -⟩ := OrdSet.mem_filter.1 hk
          exact .inr ⟨hkeeps'.length.trans_lt (hready k hk), hkeeps.next ▸ hkeeps.valid.naming_le hk⟩
        · exact .inl hk
      · exact .inr ⟨hk.1.trans_le hkeeps.length, hkeeps.next ▸ hk.2⟩

/-- Every round but the last leaves fewer ops waiting. -/
theorem retryRounds_spec (rounds : Nat) {round : OrdSet Nat} (hvalid : x.parked.Valid)
    (hids : (x.total.map Op.id).Nodup) (hround : ∀ n ∈ round, n ≤ x.parked.next)
    (hrounds : x.parked.ops.length + 2 ≤ rounds ∨ (0 < rounds ∧ round.isEmpty = true)) :
    ∃ x', retryRounds rounds round x = some x' ∧ Keeps x x' := by
  induction rounds generalizing round x with
  | zero => omega
  | succ rounds ih =>
    rw [retryRounds]
    split_ifs with hempty
    · exact ⟨x, rfl, .refl hvalid⟩
    · obtain ⟨later, x₁, hstep, hkeeps, hlater⟩ := retryRound_spec (x.parked.next + 2) .empty
        hvalid hids (Nat.zero_le _) le_rfl hround
      rw [hstep, Option.bind_eq_bind, Option.bind_some]
      dsimp only
      have hlen : x.parked.ops.length + 2 ≤ rounds + 1 := by
        rcases hrounds with hle | ⟨-, hdone⟩
        · exact hle
        · exact absurd hdone hempty
      have hnext : x₁.parked.ops.length < x.parked.ops.length ∨ later.isEmpty = true := by
        by_cases hdone : later.isEmpty = true
        · exact .inr hdone
        · rw [OrdSet.isEmpty_iff] at hdone
          push Not at hdone
          obtain ⟨n, hn⟩ := hdone
          exact .inl ((hlater n hn).resolve_left OrdSet.not_mem_empty).1
      have hbelow : ∀ n ∈ later, n ≤ x₁.parked.next := fun n hn => by
        rw [hkeeps.next]
        exact ((hlater n hn).resolve_left OrdSet.not_mem_empty).2
      obtain ⟨x', hrest, hkeeps'⟩ := ih hkeeps.valid (hkeeps.ids hids) hbelow (by
        rcases hnext with hless | hdone
        · exact .inl (by omega)
        · exact .inr ⟨by omega, hdone⟩)
      exact ⟨x', hrest, hkeeps.trans hkeeps'⟩

theorem retry_spec (hvalid : x.parked.Valid) (hids : (x.total.map Op.id).Nodup)
    (touched : List TaskId) : ∃ x', x.retry touched = some x' ∧ Keeps x x' :=
  retryRounds_spec _ hvalid hids (fun _ hn => hvalid.naming_le hn) (.inl le_rfl)

end Retry

/-! ## Parking a batch -/

section Park

variable {σ : Type} {x : Session σ} {op : Op} {e : StateError}

/-- Where an op goes that does not apply: it is queued once, and the queue stays valid. -/
def Queues (x x' : Session σ) (ops : List Op) : Prop :=
  x'.parked.Valid ∧ x'.state = x.state ∧ x'.queued.Perm (x.queued ++ ops)

theorem push_queues (h : x.parked.Valid) (op : Op) (e : StateError) : Queues x (x.push op e) [op] := by
  obtain ⟨hvalid, hperm⟩ := Parked.push_spec op e x.out.skipped h.byTask
    h.byStamp (fun k hk => .inr (h.whole k hk)) h.fresh h.bound
  exact ⟨hvalid, rfl, hperm⟩

theorem pushWhole_queues (h : x.parked.Valid) (op : Op) : Queues x (x.pushWhole op) [op] := by
  obtain ⟨hvalid, hperm⟩ := Parked.push_spec op (.unknownTask (firstName op)) x.out.skipped
    (p := { x.parked with whole := x.parked.whole.insert op.hlc }) h.byTask
    h.byStamp (fun k hk => (OrdSet.mem_insert.1 hk).imp Eq.symm (h.whole k)) h.fresh h.bound
  exact ⟨hvalid, rfl, hperm⟩

theorem skip_queues (h : x.parked.Valid) (op : Op) (e : StateError) : Queues x (x.skip op e) [op] := by
  refine ⟨h, rfl, ?_⟩
  rw [queued, queued, skip, List.map_append, ← List.append_assoc]
  exact List.Perm.refl _

/-- One op after another. -/
theorem foldl_queues {α : Type} (f : Session σ → α → Session σ) (opOf : α → Op)
    (hf : ∀ x a, x.parked.Valid → Queues x (f x a) [opOf a]) (h : x.parked.Valid) (as : List α) :
    Queues x (as.foldl f x) (as.map opOf) := by
  induction as generalizing x with
  | nil => exact ⟨h, rfl, by rw [List.map_nil, List.append_nil, List.foldl_nil]⟩
  | cons a as ih =>
    obtain ⟨hvalid, hstate, hperm⟩ := hf x a h
    obtain ⟨hvalid', hstate', hperm'⟩ := ih hvalid
    refine ⟨hvalid', hstate'.trans hstate, hperm'.trans ?_⟩
    rw [List.map_cons, ← List.singleton_append, ← List.append_assoc]
    exact hperm.append_right _

variable [Document σ]

theorem requeue_queues (h : x.parked.Valid) (f : Op × StateError) :
    Queues x (x.requeue f) [f.1] := by
  rw [requeue]
  split_ifs
  exacts [push_queues h f.1 f.2, skip_queues h f.1 f.2]

/-- A group applied, what failed of it waiting or skipped. -/
theorem requeue_total {x : Session (Logged σ)} {group : List Op} {s : Logged σ}
    {failed : List (Op × StateError)} (hvalid : x.parked.Valid)
    (hlenient : applyLeniently x.state group = some (s, failed)) :
    (failed.foldl requeue { x with state := s }).parked.Valid ∧
      (failed.foldl requeue { x with state := s }).state = s ∧
      (failed.foldl requeue { x with state := s }).total.Perm (x.total ++ group) := by
  obtain ⟨hvalid', hstate, hperm⟩ :=
    foldl_queues (x := { x with state := s }) requeue Prod.fst (fun x f h => requeue_queues h f)
      hvalid failed
  set x₁ := failed.foldl requeue { x with state := s } with hx₁
  refine ⟨hvalid', hstate, ?_⟩
  rw [total_eq, total_eq, hstate]
  calc s.log ++ x₁.queued
      |>.Perm (s.log ++ (x.queued ++ failed.map Prod.fst)) := hperm.append_left _
    _ |>.Perm (s.log ++ failed.map Prod.fst ++ x.queued) := by
      rw [List.append_assoc]
      exact List.perm_append_comm.append_left _
    _ |>.Perm (x.state.log ++ group ++ x.queued) := (applyLeniently_log hlenient).append_right _
    _ |>.Perm (x.state.log ++ x.queued ++ group) := by
      rw [List.append_assoc, List.append_assoc]
      exact List.perm_append_comm.append_left _

/-- One group parked, or applied with what failed queued and what waited for it retried. -/
theorem parkGroup_spec {x : Session (Logged σ)} (hvalid : x.parked.Valid) (group : List Op)
    (hids : ((x.total ++ group).map Op.id).Nodup) :
    ∃ x', x.parkGroup group = some x' ∧ x'.parked.Valid ∧ x'.total.Perm (x.total ++ group) := by
  rw [parkGroup]
  split_ifs with hparks
  · obtain ⟨hvalid', hstate, hperm⟩ :=
      foldl_queues pushWhole id (fun x op h => pushWhole_queues h op) hvalid group
    refine ⟨_, rfl, hvalid', ?_⟩
    rw [total_eq, total_eq, hstate, List.append_assoc]
    rw [List.map_id] at hperm
    exact hperm.append_left _
  · obtain ⟨⟨s, failed⟩, hlenient⟩ := applyLeniently_isSome x.state group
    rw [hlenient, Option.bind_eq_bind, Option.bind_some]
    dsimp only
    obtain ⟨hvalid', -, htotal⟩ := requeue_total hvalid hlenient
    split_ifs with htouched
    · exact ⟨_, rfl, hvalid', htotal⟩
    · obtain ⟨x', hretry, hkeeps⟩ := retry_spec hvalid' ((htotal.map _).nodup_iff.2 hids) _
      exact ⟨x', hretry, hkeeps.valid, hkeeps.total.trans htotal⟩

theorem foldlM_parkGroup_spec {x : Session (Logged σ)} (hvalid : x.parked.Valid)
    (groups : List (List Op)) (hids : ((x.total ++ groups.flatten).map Op.id).Nodup) :
    ∃ x', groups.foldlM parkGroup x = some x' ∧ x'.parked.Valid ∧
      x'.total.Perm (x.total ++ groups.flatten) := by
  induction groups generalizing x with
  | nil => exact ⟨x, rfl, hvalid, by rw [List.flatten_nil, List.append_nil]⟩
  | cons group groups ih =>
    rw [List.flatten_cons, ← List.append_assoc] at hids
    have hgroup : ((x.total ++ group).map Op.id).Nodup := by
      rw [List.map_append] at hids
      exact hids.of_append_left
    obtain ⟨x₁, hpark, hvalid₁, hperm₁⟩ := parkGroup_spec hvalid group hgroup
    have hall := hperm₁.append_right groups.flatten
    obtain ⟨x', hrest, hvalid', hperm'⟩ := ih hvalid₁ ((hall.map _).nodup_iff.2 hids)
    refine ⟨x', ?_, hvalid', ?_⟩
    · rw [List.foldlM_cons, hpark, Option.bind_eq_bind, Option.bind_some, hrest]
    · rw [List.flatten_cons, ← List.append_assoc]
      exact hperm'.trans hall

end Park

/-! ## The log changes nothing -/

section Plain

variable {σ : Type}

theorem plain_foldl {α : Type} {f : Session (Logged σ) → α → Session (Logged σ)}
    {g : Session σ → α → Session σ} (h : ∀ x a, (f x a).plain = g x.plain a) (x : Session (Logged σ))
    (as : List α) : (as.foldl f x).plain = as.foldl g x.plain := by
  induction as generalizing x with
  | nil => rfl
  | cons a as ih => rw [List.foldl_cons, List.foldl_cons, ih, h]

variable [Document σ]

theorem plain_putBack (ops : List (Nat × Op)) (x : Session (Logged σ)) (f : Op × StateError) :
    (x.putBack ops f).plain = x.plain.putBack ops f := by
  rw [putBack, putBack]
  have hwaits : waits x.plain.state f.2 = waits x.state f.2 := rfl
  rw [hwaits]
  split
  · split_ifs <;> rfl
  · rfl

theorem plain_retryGroup (x : Session (Logged σ)) (group : List Nat) :
    x.plain.retryGroup group = (x.retryGroup group).map fun r => (r.1.plain, r.2) := by
  have hneeds : needsAMissingTask x.plain.state = needsAMissingTask x.state := rfl
  have hdoc : x.plain.state = x.state.doc := rfl
  rw [retryGroup, retryGroup, hneeds]
  have hparked : x.plain.parked = x.parked := rfl
  rw [hparked]
  dsimp only
  split_ifs
  · rfl
  · rw [hdoc, applyLeniently_doc]
    cases applyLeniently x.state ((x.parked.numbered group).map (·.2)) with
    | none => rfl
    | some r =>
      have hfold := plain_foldl (plain_putBack (σ := σ) (x.parked.numbered group))
        ⟨r.1, x.parked.takeGroup group, ⟨x.out.skipped, x.out.landed
          + (landedOf ((x.parked.numbered group).map (·.2)) r.2).length⟩⟩ r.2
      exact congrArg (fun y => some (y, _)) hfold.symm

theorem plain_retryRound (steps pos : Nat) (round later : OrdSet Nat) (x : Session (Logged σ)) :
    retryRound steps pos round later x.plain =
      (retryRound steps pos round later x).map fun r => (r.1, r.2.plain) := by
  induction steps generalizing pos round later x with
  | zero => rfl
  | succ steps ih =>
    rw [retryRound, retryRound]
    cases (round.filter fun k => decide (pos ≤ k)).first? with
    | none => rfl
    | some n =>
      have hparked : x.plain.parked = x.parked := rfl
      dsimp only
      rw [plain_retryGroup, hparked]
      cases x.retryGroup (x.parked.groupOf n) with
      | none => rfl
      | some r => exact ih _ _ _ r.1

theorem plain_retryRounds (rounds : Nat) (round : OrdSet Nat) (x : Session (Logged σ)) :
    retryRounds rounds round x.plain = (retryRounds rounds round x).map plain := by
  induction rounds generalizing round x with
  | zero => rfl
  | succ rounds ih =>
    have hparked : x.plain.parked = x.parked := rfl
    rw [retryRounds, retryRounds, plain_retryRound, hparked]
    split_ifs
    · rfl
    · cases retryRound (x.parked.next + 2) 0 round .empty x with
      | none => rfl
      | some r => exact ih r.1 r.2

theorem plain_requeue (x : Session (Logged σ)) (f : Op × StateError) :
    (x.requeue f).plain = x.plain.requeue f := by
  have hwaits : waits x.plain.state f.2 = waits x.state f.2 := rfl
  rw [requeue, requeue, hwaits]
  split_ifs <;> rfl

theorem plain_parkGroup (x : Session (Logged σ)) (group : List Op) :
    x.plain.parkGroup group = (x.parkGroup group).map plain := by
  have hparks : x.plain.parks group = x.parks group := rfl
  have hdoc : x.plain.state = x.state.doc := rfl
  rw [parkGroup, parkGroup, hparks]
  split_ifs
  · rw [← plain_foldl (f := pushWhole) (fun _ _ => rfl), Option.map_some]
  · rw [hdoc, applyLeniently_doc]
    cases applyLeniently x.state group with
    | none => rfl
    | some r =>
      have hfold := plain_foldl plain_requeue { x with state := r.1 } r.2
      dsimp only [Option.map_some, Option.bind_eq_bind, Option.bind_some]
      have hstart : ({ x.plain with state := r.1.doc } : Session σ)
        = plain { x with state := r.1 } := rfl
      rw [hstart, ← hfold]
      split_ifs
      · rfl
      · exact plain_retryRounds _ _ _

theorem plain_foldlM_parkGroup (groups : List (List Op)) (x : Session (Logged σ)) :
    groups.foldlM parkGroup x.plain = (groups.foldlM parkGroup x).map plain := by
  induction groups generalizing x with
  | nil => rfl
  | cons group groups ih =>
    rw [List.foldlM_cons, List.foldlM_cons, plain_parkGroup]
    cases x.parkGroup group with
    | none => rfl
    | some x' => exact ih x'

/-- The call ends with each op in one place. -/
theorem applyParking_spec (state : σ) {p : Parked} (hvalid : p.Valid) (ops : List Op)
    (hids : ((p.waiting ++ ops).map Op.id).Nodup) :
    ∃ x : Session (Logged σ), applyParking ⟨state, []⟩ ops p = some x ∧
      applyParking state ops p = some x.plain ∧ x.parked.Valid ∧
      x.total.Perm (p.waiting ++ ops) := by
  have htotal : total (⟨⟨state, []⟩, p, ⟨[], 0⟩⟩ : Session (Logged σ)) = p.waiting := by
    simp [total]
  have hgroups := flatten_commitGroups ops
  obtain ⟨x, hrun, hvalid', hperm⟩ := foldlM_parkGroup_spec
    (x := ⟨⟨state, []⟩, p, ⟨[], 0⟩⟩) hvalid (commitGroups ops) (by rwa [htotal, hgroups])
  rw [htotal, hgroups] at hperm
  refine ⟨x, hrun, ?_, hvalid', hperm⟩
  have hplain := plain_foldlM_parkGroup (commitGroups ops)
    (⟨⟨state, []⟩, p, ⟨[], 0⟩⟩ : Session (Logged σ))
  rw [hrun] at hplain
  exact hplain

end Plain

end Session

theorem Parked.Built.valid {p : Parked} (h : p.Built) : p.Valid := by
  induction h with
  | empty => exact valid_empty
  | @parked p state ops x hp hids hrun ih =>
    obtain ⟨y, -, hplain, hvalid, -⟩ := Session.applyParking_spec state ih ops hids
    rw [hrun, Option.some.injEq] at hplain
    exact hplain ▸ hvalid

open Session

/-- Parking a batch ends, with each op of the queue and the batch in one place: applied, waiting or
skipped; and the queue's indexes stay exact. -/
theorem parking_conserves {p : Parked} (hp : p.Built) (state : DocState) (ops : List Op)
    (hids : ((p.waiting ++ ops).map Op.id).Nodup) :
    ∃ x : Session (Logged DocState), applyParking ⟨state, []⟩ ops p = some x ∧
      applyParking state ops p = some x.plain ∧
      (x.state.log ++ x.parked.waiting ++ x.out.skipped.map Prod.fst).Perm (p.waiting ++ ops) ∧
      ((x.state.log ++ x.parked.waiting ++ x.out.skipped.map Prod.fst).map Op.id).Nodup ∧
      x.parked.Valid := by
  obtain ⟨x, hlogged, hplain, hvalid, hperm⟩ := applyParking_spec state hp.valid ops hids
  exact ⟨x, hlogged, hplain, hperm, (hperm.map Op.id).nodup_iff.2 hids, hvalid⟩

/-- A move of a task that is not here waits; the next call brings the task. -/
theorem parking_conserves_move :
    let task : TaskId := ⟨1, by decide⟩
    let path : FilePath := ⟨['f']⟩
    let state := DocState.ofEntries path ⟨[], false, .lf, true⟩ .sidecar []
    let move : Op := ⟨⟨1⟩, ⟨2, 0, ⟨1⟩⟩, path, .move task none path⟩
    let insert : Op := ⟨⟨2⟩, ⟨1, 0, ⟨1⟩⟩, path, .insert task none ['a']⟩
    ∃ p : Parked, (applyParking state [move] .empty).map Session.parked = some p ∧
      p.waiting = [move] ∧
      ∃ x : Session (Logged DocState), applyParking state [insert] p = some x.plain ∧
        (x.state.log ++ x.parked.waiting ++ x.out.skipped.map Prod.fst).Perm [move, insert] := by
  intro task path state move insert
  obtain ⟨y, hy⟩ : ∃ y, applyParking state [move] .empty = some y :=
    Option.isSome_iff_exists.1 (by decide)
  have hwaiting : (applyParking state [move] .empty).map (·.parked.waiting) = some [move] := by decide
  rw [hy, Option.map_some, Option.some.injEq] at hwaiting
  have hbuilt : y.parked.Built := .parked .empty (by decide) hy
  obtain ⟨x, -, hplain, hperm, -, -⟩ :=
    parking_conserves hbuilt state [insert] (by rw [hwaiting]; decide)
  exact ⟨y.parked, by rw [hy]; rfl, hwaiting, x, hplain, by rwa [hwaiting] at hperm⟩

end Txtodo
