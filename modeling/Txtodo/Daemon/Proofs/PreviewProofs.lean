import Txtodo.Daemon.FileActor
import Txtodo.Daemon.Proofs.ActorClockProofs
import Txtodo.Engine.Proofs.ReplayProofs

/-!
# Proofs: a dry run and the real run

Both plan the batch on the same document, stamped alike or with stamps newer than all it holds; the plans
then differ by a renaming of stamps, which no mutation reads.
-/

namespace Txtodo

namespace DocState

variable {f : Hlc → Hlc} {at_ to_ : Hlc}

/-! ## Stamped alike or newest of all -/

/-- On the documents in `K`, an op stamped `to_` does to the renamed document what the op stamped `at_`
does. -/
structure Renames (K : DocState → Prop) (f : Hlc → Hlc) (at_ to_ : Hlc) : Prop where
  apply : ∀ {s : DocState} (op op' : Op), K s → op.hlc = at_ → op'.hlc = to_ → op'.kind = op.kind →
    (s.restamp f).apply op' = (s.apply op).restamp f
  keeps : ∀ {s : DocState} (op : Op), K s → op.hlc = at_ → K (s.apply op).state

theorem apply_congr (s : DocState) {op op' : Op} (hhlc : op'.hlc = op.hlc) (hkind : op'.kind = op.kind) :
    s.apply op' = s.apply op := by
  have happly : s.applyKind op' = s.applyKind op := by
    unfold applyKind
    rw [hhlc, hkind]
  have hsettled : ∀ s : DocState, s.settled op' = s.settled op := by
    intro s
    unfold settled
    rw [hkind]
  unfold apply
  simp only [happly, hsettled]

theorem restamp_id (s : DocState) : s.restamp id = s :=
  have hany : s.Holds fun _ => True := ⟨fun _ _ => trivial, fun _ _ _ _ => trivial,
    fun _ _ _ _ => trivial, fun _ _ _ => ⟨trivial, fun _ _ => trivial⟩,
    fun _ _ _ => ⟨fun _ _ => trivial, fun _ _ => trivial⟩⟩
  restamp_eq_self (hany.keeps id) (fun _ => rfl) rfl

theorem renames_self (at_ : Hlc) : Renames (fun _ => True) id at_ at_ where
  apply {s} op op' _ hat hto hkind := by
    have hid : (s.apply op).restamp id = s.apply op := by
      rw [Outcome.restamp, restamp_id]
    rw [restamp_id, hid]
    exact s.apply_congr (hto.trans hat.symm) hkind
  keeps _ _ _ := trivial

theorem renames_newest {A : Hlc → Prop} (hf : Newest A f at_ to_) :
    Renames (fun s => s.Keeps A (TextHistory.HeldBy A)) f at_ to_ where
  apply op op' hs hat hto hkind := apply_restamp hf hs op op' hat hto hkind
  keeps op hs hat :=
    have hmem : A op.hlc := hat ▸ hf.mem
    hs.apply op hmem (TextHistory.keepsTexts_heldBy hmem)

/-! ## What a mutation reads -/

theorem lineOf_restamp (f : Hlc → Hlc) (s : DocState) (id : TaskId) :
    (s.restamp f).lineOf id = s.lineOf id := by
  rw [lineOf, lineOf, liveSlot_restamp]
  rfl

theorem lineOfRef_restamp (f : Hlc → Hlc) (s : DocState) (task : TaskRef) (id : TaskId) :
    lineOfRef (s.restamp f) task id = lineOfRef s task id := by
  rw [lineOfRef, lineOfRef, lineOf_restamp]

/-- A mutation's ops do not depend on the document's stamps. -/
theorem mutationOps_restamp {Hash : Type} (f : Hlc → Hlc) (s : DocState) (m : Mutation Hash)
    (mint : TaskId) : mutationOps (s.restamp f) m mint = mutationOps s m mint := by
  have hresolve : ∀ task, resolve (s.restamp f) task = resolve s task := fun _ => rfl
  cases m with
  | add line => rfl
  | arrive line task => rfl
  | move task to_ => rfl
  | delete task leaveBlank => rfl
  | moveToEnd task => rfl
  | moveBefore task before => rfl
  | replace base contents => rfl
  | requireBase base => rfl
  | complete task today =>
    simp only [mutationOps, completeOps, lineOfRef_restamp, hresolve]
    rfl
  | edit task newLine settle =>
    simp only [mutationOps, editOps, lineOfRef_restamp, hresolve]
    rfl
  | reopen task =>
    simp only [mutationOps, reopenOps, lineOfRef_restamp, hresolve]
    rfl

end DocState

/-- Which id is offered does not matter to a mutation that mints none. -/
theorem mutationOps_of_not_mints {Hash : Type} {s : DocState} {m : Mutation Hash}
    (hmints : mintsId s m = false) (x y : TaskId) : mutationOps s m x = mutationOps s m y := by
  cases m with
  | add line =>
    show addOps s line x = addOps s line y
    rw [mintsId] at hmints
    rw [addOps, addOps]
    cases hline : taskLine line with
    | error e => rfl
    | ok owned =>
      rw [hline] at hmints
      have hid : ∀ mint, identified s line owned mint = identified s line owned x := by
        intro mint
        simp only [takesMinted, Bool.or_eq_false_iff, decide_eq_false_iff_not] at hmints
        obtain ⟨hmode, hid⟩ := hmints
        obtain ⟨id, hid⟩ := Option.isSome_iff_exists.1 (Option.isNone_eq_false_iff.1 hid)
        rw [identified, identified, if_neg hmode, if_neg hmode, hid]
      simp only [bind, Except.bind, hid y]
  | _ => rfl

namespace FileActor

open DocState

variable {Hash : Type}

/-! ## Two plans -/

/-- Two plans of a batch: both fail, or they have as many ops and render the same bytes. -/
inductive SamePlan : Except ActorError Planned → Except ActorError Planned → Prop
  | failed (e e' : ActorError) : SamePlan (.error e) (.error e')
  | planned {p q : Planned} (hops : q.ops.length = p.ops.length) (hbytes : q.bytes = p.bytes) :
    SamePlan (.ok p) (.ok q)

variable {K : DocState → Prop} {f : Hlc → Hlc} {at_ to_ : Hlc}

/-- The ops of one mutation, stamped either way. -/
theorem applyStamped_renames (hf : Renames K f at_ to_) (ids ids' : Nat → OpId) (kinds : List OpKind)
    {n n' : Nat} {s : DocState} (hs : K s) :
    (∃ e e', applyStamped at_ ids n s kinds = .error e ∧
        applyStamped to_ ids' n' (s.restamp f) kinds = .error e') ∨
      ∃ next, K next ∧ applyStamped at_ ids n s kinds = .ok next ∧
        applyStamped to_ ids' n' (s.restamp f) kinds = .ok (next.restamp f) := by
  induction kinds generalizing n n' s with
  | nil => exact .inr ⟨s, hs, rfl, rfl⟩
  | cons kind kinds ih =>
    have hstep := hf.apply (stamped s.path kind at_ (ids n))
      (stamped (s.restamp f).path kind to_ (ids' n')) hs rfl rfl rfl
    have hnext := hf.keeps (stamped s.path kind at_ (ids n)) hs rfl
    rw [applyStamped, applyStamped, hstep]
    rcases hout : s.apply (stamped s.path kind at_ (ids n)) with ⟨next, e | u⟩
    · exact .inl ⟨e, e, rfl, rfl⟩
    · rw [hout] at hnext
      exact ih hnext

theorem length_stampAll (path : FilePath) (hlc : Hlc) (ids : Nat → OpId) (n : Nat)
    (kinds : List OpKind) : (stampAll path hlc ids n kinds).length = kinds.length := by
  simp [stampAll]

/-- A plan draws ids one after another. -/
theorem le_planFrom (hlc : Hlc) (ids : Minted) (batch : List (Mutation Hash)) (n : Nat) (s : DocState)
    (ops : List Op) : n ≤ (planFrom hlc ids n s ops batch).1 := by
  induction batch generalizing n s ops with
  | nil => exact le_rfl
  | cons m rest ih =>
    have hdrawn : n ≤ if mintsId s m then n + 1 else n := by
      split_ifs <;> omega
    rw [planFrom]
    cases mutationOps s m (ids.task n) with
    | error e => exact hdrawn
    | ok kinds =>
      dsimp only
      cases applyStamped hlc ids.op ops.length s kinds with
      | error e => exact hdrawn
      | ok next => exact hdrawn.trans (ih _ _ _)

/-- A plan that draws no id is the plan of the batch stamped the other way, on the renamed document. -/
theorem planFrom_renames (hf : Renames K f at_ to_) (ids ids' : Minted) (batch : List (Mutation Hash))
    {n n' : Nat} {s : DocState} {ops ops' : List Op} (hs : K s) (hlen : ops'.length = ops.length)
    (hdrawn : (planFrom at_ ids n s ops batch).1 = n) :
    SamePlan (planFrom at_ ids n s ops batch).2 (planFrom to_ ids' n' (s.restamp f) ops' batch).2 := by
  induction batch generalizing n n' s ops ops' with
  | nil => exact .planned hlen rfl
  | cons m rest ih =>
    have hmints : mintsId s m = false := by
      by_contra hmints
      rw [Bool.not_eq_false] at hmints
      have hle : n + 1 ≤ (planFrom at_ ids n s ops (m :: rest)).1 := by
        rw [planFrom]
        simp only [hmints, if_true]
        cases mutationOps s m (ids.task n) with
        | error e => exact le_rfl
        | ok kinds =>
          dsimp only
          cases applyStamped at_ ids.op ops.length s kinds with
          | error e => exact le_rfl
          | ok next => exact le_planFrom _ _ _ _ _ _
      omega
    have hmints' : mintsId (s.restamp f) m = false := hmints
    have hkinds : mutationOps (s.restamp f) m (ids'.task n') = mutationOps s m (ids.task n) :=
      (mutationOps_restamp f s m _).trans (mutationOps_of_not_mints hmints _ _)
    rw [planFrom] at hdrawn ⊢
    rw [planFrom, hkinds]
    simp only [hmints, hmints', Bool.false_eq_true, if_false] at hdrawn ⊢
    cases hm : mutationOps s m (ids.task n) with
    | error e => exact .failed _ _
    | ok kinds =>
      rw [hm] at hdrawn
      rcases applyStamped_renames hf ids.op ids'.op kinds hs with ⟨e, e', he, he'⟩ | ⟨next, hnext, ho, ho'⟩
      · dsimp only
        rw [he, he']
        exact .failed _ _
      · dsimp only at hdrawn ⊢
        rw [ho] at hdrawn ⊢
        rw [ho']
        refine ih hnext ?_ hdrawn
        rw [List.length_append, List.length_append, length_stampAll, length_stampAll, hlen]

/-! ## The two calls -/

/-- What a preview reported is what the apply did: both failed, or the new bytes and their hash are the
ones reported. -/
inductive Agrees (env : ActorEnv Hash) (a : FileActor Hash) :
    Except ActorError (Preview Hash) → FileActor Hash × Except ActorError (Applied Hash) → Prop
  | failed (e e' : ActorError) (after : FileActor Hash) : Agrees env a (.error e) (after, .error e')
  | applied {p : Preview Hash} {after : FileActor Hash} {r : Applied Hash}
    (hdiff : p.diff = env.unifiedDiff a.state.path a.projection after.projection)
    (hprojection : p.hash = env.hashOf after.projection) (hafter : after.hash = p.hash)
    (hhash : r.hash = p.hash) (happlied : r.applied = p.applied) : Agrees env a (.ok p) (after, .ok r)

variable [DecidableEq Hash] {env : ActorEnv Hash} {a : FileActor Hash} {nowMs : Nat}
  {batch : List (Mutation Hash)}

theorem replaceBatch_eq_none (ids : Minted) (hreplace : batch.any Mutation.isReplace = false) :
    replaceBatch env a nowMs ids batch = none := by
  unfold replaceBatch
  split
  · simp [Mutation.isReplace] at hreplace
  · rw [if_neg (by simp [hreplace])]

omit [DecidableEq Hash] in
/-- Plans under the two stamps agree: the stamps are one, or the document holds only older ones. -/
theorem planBatch_agree {at_ to_ : Hlc} (ids ids' : Minted)
    (hstamps : to_ = at_ ∨ at_ ≠ Hlc.zero ⟨0⟩ ∧ a.state.Holds fun x => x < at_ ∧ x < to_)
    (hdrawn : (a.planBatch batch at_ ids).1 = 0) :
    SamePlan (a.planBatch batch at_ ids).2 (a.planBatch batch to_ ids').2 := by
  rcases hstamps with rfl | ⟨hzero, hold⟩
  · have hplan : SamePlan _ (planFrom to_ ids' 0 (a.state.restamp id) [] batch).2 :=
      planFrom_renames (renames_self to_) ids ids' batch trivial rfl hdrawn
    rwa [restamp_id] at hplan
  · have hf := newest_settle (P := fun x => x < at_ ∧ x < to_) (fun hx => hx.1) (fun hx => hx.2) hzero
    have hplan : SamePlan _
        (planFrom to_ ids' 0 (a.state.restamp (settleStamp at_ to_)) [] batch).2 :=
      planFrom_renames (renames_newest hf) ids ids' batch (hold.keeps Or.inl) rfl hdrawn
    rwa [restamp_settleStamp hold (fun hx => hx.1) hzero] at hplan

/-- A dry run agrees with the real run from the same state at the same wall clock. -/
theorem preview_agrees (ids ids' : Minted) (hreplace : batch.any Mutation.isReplace = false)
    (hdrawn : ∀ hlc, (a.clock.hlc.tick nowMs).2 = .ok hlc → (a.planBatch batch hlc ids).1 = 0)
    (hfloor : ∀ hlc, (a.clock.hlc.tick nowMs).2 = .ok hlc →
      pastFloor hlc a.clock.aheadFloor nowMs = hlc ∨
        a.state.Holds fun x => x < hlc ∧ x < pastFloor hlc a.clock.aheadFloor nowMs) :
    ∃ out, onApply env a nowMs ids' batch = some out ∧
      Agrees env a (onPreview env a nowMs ids batch) out := by
  rw [onPreview, onApply]
  cases checkBatch env a batch with
  | error e => exact ⟨_, rfl, .failed _ _ _⟩
  | ok u =>
    simp only [replaceBatch_eq_none ids' hreplace, hreplace, Bool.false_eq_true, if_false,
      ActorClock.tick]
    rcases Hlc.tick_cases a.clock.hlc nowMs with ⟨e, htick⟩ | ⟨hlc, htick, hlt⟩
    · rw [htick]
      exact ⟨_, rfl, .failed _ _ _⟩
    · have hzero : hlc ≠ Hlc.zero ⟨0⟩ := (lt_of_le_of_lt bot_le hlt).ne'
      have hok : (a.clock.hlc.tick nowMs).2 = .ok hlc := by rw [htick]
      have hplan := planBatch_agree ids ids' ((hfloor hlc hok).imp_right fun h => ⟨hzero, h⟩)
        (hdrawn hlc hok)
      rw [htick]
      dsimp only
      generalize (a.planBatch batch hlc ids).2 = p at hplan ⊢
      generalize (a.planBatch batch (pastFloor hlc a.clock.aheadFloor nowMs) ids').2 = q at hplan ⊢
      cases hplan with
      | failed e e' => exact ⟨_, rfl, .failed _ _ _⟩
      | @planned p q hops hbytes =>
        have hbytes' : env.hashOf q.bytes = env.hashOf p.bytes := congrArg env.hashOf hbytes
        refine ⟨_, rfl, .applied ?_ ?_ ?_ ?_ ?_⟩
        · exact congrArg (env.unifiedDiff a.state.path a.projection) hbytes.symm
        · exact hbytes'.symm
        · exact hbytes'
        · exact hbytes'
        · exact congrArg u32 hops

/-- A document of the one line `text`, tagged with `id`, as its actor holds it; a text is its own hash. -/
def lineActor (text : Text) (id : TaskId) : FileActor (List UInt8) :=
  let file : File := ⟨[.ofText text .lf], false, .lf, true⟩
  { clock := ⟨Hlc.zero ⟨1⟩, none⟩
    state := ofEntries ⟨['f']⟩ file .tagged [.task id (.ofText text .lf)]
    projection := file.toBytes
    hash := file.toBytes
    disk := file.toBytes
    log := []
    parked := .empty }

/-- Texts compared whole; two are told apart by a mark. -/
def lineEnv : ActorEnv (List UInt8) :=
  ⟨id, fun _ old new => if old = new then [] else ['~'], ⟨fun _ _ _ => 0, fun n _ => List.range n⟩, 1⟩

/-- Ids in turn. -/
def countedIds : Minted := ⟨fun n => ⟨⟨(100 + n) % 2 ^ 128, Nat.mod_lt _ (by decide)⟩⟩, fun n => ⟨n⟩⟩

/-- A peer's stamp ahead of the clock is held, and the real run is stamped past it. -/
theorem preview_agrees_past_floor :
    let line : FileActor (List UInt8) := lineActor "a id:00000000000000000000000001".toList ⟨1, by decide⟩
    let a := { line with clock := ⟨Hlc.zero ⟨1⟩, some ⟨10, 0, ⟨3⟩⟩⟩ }
    pastFloor ⟨5, 0, ⟨1⟩⟩ a.clock.aheadFloor 5 = ⟨10, 1, ⟨1⟩⟩ ∧
      ∃ out, onApply lineEnv a 5 countedIds [.delete ⟨1, none⟩ false] = some out ∧
        Agrees lineEnv a (onPreview lineEnv a 5 countedIds [.delete ⟨1, none⟩ false]) out := by
  intro line a
  refine ⟨rfl, preview_agrees _ _ rfl ?_ ?_⟩
  · rintro hlc ⟨⟩
    decide +kernel
  · rintro hlc ⟨⟩
    exact .inr (ofEntries_holds (by decide +kernel))

/-- Replacing the document by its own text is refused dry and done in earnest. -/
theorem replace_is_not_previewed :
    let a := lineActor "a id:00000000000000000000000001".toList ⟨1, by decide⟩
    let batch := [.replace a.hash a.projection]
    (reconcile (parseFile a.projection) (parseFile a.projection) a.state.path countedIds.task).map
        (·.minted) = some 0 ∧
      ∃ out, onApply lineEnv a 5 countedIds batch = some out ∧
        ¬Agrees lineEnv a (onPreview lineEnv a 5 countedIds batch) out := by
  intro a batch
  have hok : (onApply lineEnv a 5 countedIds batch).any (fun out => out.2.isOk) = true := by
    decide +kernel
  have herror : (onPreview lineEnv a 5 countedIds batch).isOk = false := rfl
  obtain ⟨out, hout, hok⟩ := (Option.any_eq_true _ _).1 hok
  refine ⟨by decide +kernel, out, hout, fun h => ?_⟩
  generalize onPreview lineEnv a 5 countedIds batch = p at h herror
  cases h with
  | failed e e' after => cases hok
  | applied => cases herror

end FileActor

end Txtodo
