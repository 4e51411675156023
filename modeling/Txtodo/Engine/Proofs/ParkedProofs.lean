import Txtodo.Engine.SyncPark

/-!
# Proofs: the queue and its indexes

Putting an op into the queue, taking one out and pushing one past the bound keep the indexes exact and
lose no op.
-/

namespace Txtodo

/-! ## Indexes -/

section Index

variable {κ : Type} [DecidableEq κ] {n n' : Nat} {k : κ}

theorem mem_listUnder (m : κ → Option (OrdSet Nat)) (k' : κ) :
    n' ∈ (listUnder n m k' k).getD .empty ↔ (n' = n ∧ k = k') ∨ n' ∈ (m k).getD .empty := by
  by_cases hk : k = k'
  · subst hk
    simp [listUnder]
  · simp [listUnder, hk]

theorem mem_listUnder_foldl (ks : List κ) (m : κ → Option (OrdSet Nat)) :
    n' ∈ (ks.foldl (listUnder n) m k).getD .empty ↔ (n' = n ∧ k ∈ ks) ∨ n' ∈ (m k).getD .empty := by
  induction ks generalizing m with
  | nil => simp
  | cons k' ks ih =>
    rw [List.foldl_cons, ih, mem_listUnder, List.mem_cons]
    tauto

theorem mem_unlistUnder (m : κ → Option (OrdSet Nat)) (k' : κ) :
    n' ∈ (unlistUnder n m k' k).getD .empty ↔ n' ∈ (m k).getD .empty ∧ ¬(n' = n ∧ k = k') := by
  by_cases hk : k = k'
  · subst hk
    rw [unlistUnder, setKey_self]
    cases hm : m k with
    | none => simp
    | some s =>
      rw [Option.map_some, Option.filter_some]
      by_cases hempty : (s.erase n).isEmpty = true
      · have hnone := OrdSet.isEmpty_iff.1 hempty n'
        simp only [OrdSet.mem_erase, not_and, not_not] at hnone
        simp only [hempty, Bool.not_true, Bool.false_eq_true, if_false, Option.getD_none,
          OrdSet.not_mem_empty, false_iff, Option.getD_some, and_true, not_and, not_not]
        exact hnone
      · simp [hempty]
  · simp [unlistUnder, hk]

theorem mem_unlistUnder_foldl (ks : List κ) (m : κ → Option (OrdSet Nat)) :
    n' ∈ (ks.foldl (unlistUnder n) m k).getD .empty ↔
      n' ∈ (m k).getD .empty ∧ ¬(n' = n ∧ k ∈ ks) := by
  induction ks generalizing m with
  | nil => simp
  | cons k' ks ih =>
    rw [List.foldl_cons, ih, mem_unlistUnder, List.mem_cons]
    tauto

/-- No key has an empty set. -/
def NoEmpty (m : κ → Option (OrdSet Nat)) : Prop := ∀ k s, m k = some s → s.isEmpty = false

theorem NoEmpty.listUnder {m : κ → Option (OrdSet Nat)} (h : NoEmpty m) (n : Nat) (k' : κ) :
    NoEmpty (listUnder n m k') := by
  intro k s hs
  by_cases hk : k = k'
  · subst hk
    rw [Txtodo.listUnder, setKey_self, Option.some.injEq] at hs
    rw [← hs, ← Bool.not_eq_true, OrdSet.isEmpty_iff]
    exact fun hall => hall n (OrdSet.mem_insert.2 (.inl rfl))
  · rw [Txtodo.listUnder, setKey_of_ne _ _ hk] at hs
    exact h k s hs

theorem NoEmpty.unlistUnder {m : κ → Option (OrdSet Nat)} (h : NoEmpty m) (n : Nat) (k' : κ) :
    NoEmpty (unlistUnder n m k') := by
  intro k s hs
  by_cases hk : k = k'
  · subst hk
    rw [Txtodo.unlistUnder, setKey_self, Option.filter_eq_some_iff] at hs
    simpa using hs.2
  · rw [Txtodo.unlistUnder, setKey_of_ne _ _ hk] at hs
    exact h k s hs

omit [DecidableEq κ] in
theorem NoEmpty.foldl {f : (κ → Option (OrdSet Nat)) → κ → κ → Option (OrdSet Nat)}
    (hf : ∀ m k, NoEmpty m → NoEmpty (f m k)) {m : κ → Option (OrdSet Nat)} (h : NoEmpty m)
    (ks : List κ) : NoEmpty (ks.foldl f m) := by
  induction ks generalizing m with
  | nil => exact h
  | cons k ks ih => exact ih (hf m k h)

end Index

namespace Parked

section Indexes

variable {κ : Type} [DecidableEq κ] {m : κ → Option (OrdSet Nat)} {keys : Op → List κ}
  {ops : OrdMap Nat (Op × StateError)} {n : Nat} {op : Op} {e : StateError}

theorem Indexes.put (h : Indexes m keys ops) (hnew : ∀ v, (n, v) ∉ ops.items) :
    Indexes ((keys op).foldl (listUnder n) m) keys (ops.insert n (op, e)) where
  mem k n' := by
    rw [mem_listUnder_foldl, h.mem]
    constructor
    · rintro (⟨rfl, hk⟩ | ⟨op', e', hmem, hk⟩)
      · exact ⟨op, e, OrdMap.mem_insert.2 (.inl ⟨rfl, rfl⟩), hk⟩
      · have hne : n' ≠ n := fun heq => hnew _ (heq ▸ hmem)
        exact ⟨op', e', OrdMap.mem_insert.2 (.inr ⟨hne, hmem⟩), hk⟩
    · rintro ⟨op', e', hmem, hk⟩
      rcases OrdMap.mem_insert.1 hmem with ⟨rfl, hv⟩ | ⟨-, hmem⟩
      · obtain ⟨rfl, rfl⟩ := Prod.mk.inj hv
        exact .inl ⟨rfl, hk⟩
      · exact .inr ⟨op', e', hmem, hk⟩
  nonempty := NoEmpty.foldl (fun _ k hm => hm.listUnder n k) h.nonempty _

theorem Indexes.take (h : Indexes m keys ops) (hmem : (n, op, e) ∈ ops.items) :
    Indexes ((keys op).foldl (unlistUnder n) m) keys (ops.erase n) where
  mem k n' := by
    rw [mem_unlistUnder_foldl, h.mem]
    constructor
    · rintro ⟨⟨op', e', hmem', hk⟩, hnot⟩
      have hne : n' ≠ n := by
        rintro rfl
        obtain ⟨rfl, -⟩ := Prod.mk.inj (ops.eq_of_mem hmem' hmem)
        exact hnot ⟨rfl, hk⟩
      exact ⟨op', e', OrdMap.mem_erase.2 ⟨hmem', hne⟩, hk⟩
    · rintro ⟨op', e', hmem', hk⟩
      obtain ⟨hmem', hne⟩ := OrdMap.mem_erase.1 hmem'
      exact ⟨⟨op', e', hmem', hk⟩, fun hboth => hne hboth.1⟩
  nonempty := NoEmpty.foldl (fun _ k hm => hm.unlistUnder n k) h.nonempty _

omit [DecidableEq κ] in
theorem Indexes.isSome_iff (h : Indexes m keys ops) (k : κ) :
    (m k).isSome = true ↔ ∃ n op e, (n, op, e) ∈ ops.items ∧ k ∈ keys op := by
  constructor
  · intro hsome
    obtain ⟨s, hs⟩ := Option.isSome_iff_exists.1 hsome
    have hne := h.nonempty k s hs
    rw [← Bool.not_eq_true, OrdSet.isEmpty_iff] at hne
    push Not at hne
    obtain ⟨n, hn⟩ := hne
    exact ⟨n, (h.mem k n).1 (by rw [hs]; exact hn)⟩
  · rintro ⟨n, hop⟩
    have hn := (h.mem k n).2 hop
    cases hm : m k with
    | some s => rfl
    | none => simp [hm] at hn

end Indexes

variable {p p' : Parked} {n n' : Nat} {op op' : Op} {e e' : StateError}

theorem valid_empty : empty.Valid where
  byTask := ⟨fun k n => by simp [empty], by simp [empty]⟩
  byStamp := ⟨fun k n => by simp [empty], by simp [empty]⟩
  whole := by simp [empty]
  fresh := by simp [empty]
  bound := Nat.zero_le _

/-! ## Putting an op in -/

/-- The op's own stamp may be parked whole before the op waits. -/
theorem indexed_put (htask : Indexes p.byTask named p.ops)
    (hstamp : Indexes p.byStamp (fun op => [op.hlc]) p.ops)
    (hwhole : ∀ h ∈ p.whole, op.hlc = h ∨ ∃ n op e, (n, op, e) ∈ p.ops.items ∧ op.hlc = h)
    (hnew : ∀ v, (n, v) ∉ p.ops.items) : (p.put n op e).Indexed where
  byTask := htask.put hnew
  byStamp := hstamp.put hnew
  whole h hh := by
    rcases hwhole h hh with hop | ⟨n', op', e', hmem, hop⟩
    · exact ⟨n, op, e, OrdMap.mem_insert.2 (.inl ⟨rfl, rfl⟩), hop⟩
    · have hne : n' ≠ n := fun heq => hnew _ (heq ▸ hmem)
      exact ⟨n', op', e', OrdMap.mem_insert.2 (.inr ⟨hne, hmem⟩), hop⟩

theorem Indexed.put (h : p.Indexed) (hnew : ∀ v, (n, v) ∉ p.ops.items) : (p.put n op e).Indexed :=
  indexed_put h.byTask h.byStamp (fun k hk => .inr (h.whole k hk)) hnew

theorem put_waiting (op : Op) (e : StateError) (hnew : ∀ v, (n, v) ∉ p.ops.items) :
    (p.put n op e).waiting.Perm (op :: p.waiting) :=
  (OrdMap.insert_perm hnew).map _

theorem put_length (op : Op) (e : StateError) (hnew : ∀ v, (n, v) ∉ p.ops.items) :
    (p.put n op e).ops.length = p.ops.length + 1 :=
  (OrdMap.insert_perm hnew).length_eq

theorem mem_put : (n', op', e') ∈ (p.put n op e).ops.items ↔
    (n' = n ∧ op' = op ∧ e' = e) ∨ (n' ≠ n ∧ (n', op', e') ∈ p.ops.items) := by
  rw [Parked.put, OrdMap.mem_insert, Prod.mk.injEq]

@[simp] theorem put_next : (p.put n op e).next = p.next := rfl

@[simp] theorem put_whole : (p.put n op e).whole = p.whole := rfl

/-! ## Taking an op out -/

theorem take_eq_some {v : Op × StateError} (h : p.take n = some (p', v)) :
    (n, v) ∈ p.ops.items ∧ p'.ops = p.ops.erase n ∧ p'.next = p.next := by
  obtain ⟨⟨op, e⟩, hfind, heq⟩ := Option.map_eq_some_iff.1 h
  obtain ⟨rfl, rfl⟩ := Prod.mk.inj heq
  exact ⟨OrdMap.find?_eq_some.1 hfind, rfl, rfl⟩

theorem take_isSome (hmem : (n, op, e) ∈ p.ops.items) : ∃ p', p.take n = some (p', op, e) := by
  have hfind := OrdMap.find?_eq_some.2 hmem
  exact ⟨_, by rw [take, hfind]; rfl⟩

theorem take_waiting (h : p.take n = some (p', op, e)) : p.waiting.Perm (op :: p'.waiting) := by
  obtain ⟨hmem, hops, -⟩ := take_eq_some h
  rw [waiting, waiting, hops]
  exact (OrdMap.erase_perm hmem).map _

theorem take_length (h : p.take n = some (p', op, e)) : p'.ops.length + 1 = p.ops.length := by
  have hlen := (take_waiting h).length_eq
  simpa [waiting, OrdMap.length] using hlen.symm

theorem take_whole (h : p.take n = some (p', op, e)) {k : Hlc} (hk : k ∈ p'.whole) : k ∈ p.whole := by
  obtain ⟨⟨op, e⟩, -, heq⟩ := Option.map_eq_some_iff.1 h
  obtain ⟨rfl, -⟩ := Prod.mk.inj heq
  dsimp only at hk
  split_ifs at hk
  · exact (OrdSet.mem_erase.1 hk).1
  · exact hk

/-- A stamp left without a waiting op is no longer parked whole. -/
theorem Indexed.take (h : p.Indexed) (htake : p.take n = some (p', op, e)) : p'.Indexed := by
  obtain ⟨hmem, hops, -⟩ := take_eq_some htake
  have hwhole := fun k hk => h.whole k (take_whole htake hk)
  rw [Parked.take, OrdMap.find?_eq_some.2 hmem] at htake
  obtain ⟨rfl, -⟩ := Prod.mk.inj (Option.some.inj htake)
  have hstamp := h.byStamp.take hmem
  refine ⟨h.byTask.take hmem, hstamp, fun k hk => ?_⟩
  obtain ⟨n', op', e', hmem', hop'⟩ := hwhole k hk
  by_cases hkop : k = op.hlc
  · subst hkop
    have hsome : (p.byStamp op.hlc).isSome = true :=
      (h.byStamp.isSome_iff _).2 ⟨n, op, e, hmem, List.mem_singleton.2 rfl⟩
    have hleft : (unlistUnder n p.byStamp op.hlc op.hlc).isSome = true := by
      rw [← Option.not_isNone, Bool.not_eq_true']
      by_contra hnone
      rw [Bool.not_eq_false] at hnone
      simp [hsome, hnone] at hk
    obtain ⟨n₁, op₁, e₁, hmem₁, hop₁⟩ := (hstamp.isSome_iff _).1 hleft
    exact ⟨n₁, op₁, e₁, hmem₁, (List.mem_singleton.1 hop₁).symm⟩
  · refine ⟨n', op', e', OrdMap.mem_erase.2 ⟨hmem', ?_⟩, hop'⟩
    rintro rfl
    obtain ⟨rfl, -⟩ := Prod.mk.inj (p.ops.eq_of_mem hmem' hmem)
    exact hkop hop'.symm

/-! ## Pushing -/

/-- A pushed op waits; past the bound another op that waited is skipped. -/
theorem push_spec (op : Op) (e : StateError) (skipped : List (Op × StateError))
    (htask : Indexes p.byTask named p.ops) (hstamp : Indexes p.byStamp (fun op => [op.hlc]) p.ops)
    (hwhole : ∀ h ∈ p.whole, op.hlc = h ∨ ∃ n op e, (n, op, e) ∈ p.ops.items ∧ op.hlc = h)
    (hfresh : ∀ n op e, (n, op, e) ∈ p.ops.items → n ≤ p.next)
    (hbound : p.ops.length ≤ MAX_PARKED_OPS) :
    (p.push op e skipped).1.Valid ∧
      ((p.push op e skipped).1.waiting ++ (p.push op e skipped).2.map Prod.fst).Perm
        (p.waiting ++ skipped.map Prod.fst ++ [op]) := by
  set q := { p with next := p.next + 1 }.put (p.next + 1) op e with hq
  have hnew : ∀ v, (p.next + 1, v) ∉ p.ops.items := fun v hv =>
    absurd (hfresh _ _ _ hv) (Nat.not_succ_le_self _)
  have hindexed : q.Indexed := indexed_put htask hstamp hwhole hnew
  have hqfresh : ∀ n op e, (n, op, e) ∈ q.ops.items → n ≤ q.next := by
    intro n op' e' hmem
    rcases mem_put.1 hmem with ⟨rfl, -⟩ | ⟨-, hmem⟩
    · exact le_rfl
    · exact (hfresh n op' e' hmem).trans (Nat.le_succ _)
  have hqlen : q.ops.length = p.ops.length + 1 := put_length op e hnew
  have hqwait : q.waiting.Perm (op :: p.waiting) := put_waiting op e hnew
  have hadd : (q.waiting ++ skipped.map Prod.fst).Perm (p.waiting ++ skipped.map Prod.fst ++ [op]) :=
    (hqwait.append_right _).trans (List.perm_append_singleton _ _).symm
  rw [push, ← hq]
  split_ifs with hover
  · cases hfirst : q.ops.firstKey? with
    | none =>
      exfalso
      rw [OrdMap.firstKey?, Option.map_eq_none_iff, List.head?_eq_none_iff] at hfirst
      rw [OrdMap.length, hfirst] at hover
      exact Nat.not_lt_zero _ hover
    | some n =>
      obtain ⟨⟨op', e'⟩, hmem⟩ := OrdMap.firstKey?_mem hfirst
      obtain ⟨q', htake⟩ := take_isSome hmem
      obtain ⟨-, hops, hnext⟩ := take_eq_some htake
      rw [Option.bind_some, htake]
      refine ⟨{ toIndexed := hindexed.take htake, fresh := ?_, bound := ?_ }, ?_⟩
      · intro n op e hn
        rw [hops] at hn
        rw [hnext]
        exact hqfresh n op e (OrdMap.mem_erase.1 hn).1
      · have hlen := take_length htake
        simp only at hlen ⊢
        omega
      · refine List.Perm.trans ?_ hadd
        rw [List.map_append, ← List.append_assoc]
        refine List.perm_append_comm.trans ?_
        exact ((take_waiting htake).append_right _).symm
  · exact ⟨{ toIndexed := hindexed, fresh := hqfresh, bound := Nat.le_of_not_lt hover }, hadd⟩

/-! ## Taking a group out -/

theorem takeAll_spec (group : List Nat) (hnodup : group.Nodup) :
    (p.Indexed → (p.takeAll group).Indexed) ∧ (p.takeAll group).next = p.next ∧
      (∀ n v, (n, v) ∈ (p.takeAll group).ops.items ↔ (n, v) ∈ p.ops.items ∧ n ∉ group) ∧
      (∀ k ∈ (p.takeAll group).whole, k ∈ p.whole) ∧
      p.waiting.Perm ((group.filterMap fun n => (p.ops.find? n).map (·.1)) ++
        (p.takeAll group).waiting) := by
  induction group generalizing p with
  | nil => simp [takeAll]
  | cons n group ih =>
    obtain ⟨hn, hnodup⟩ := List.nodup_cons.1 hnodup
    cases htake : p.take n with
    | none =>
      have hfind : p.ops.find? n = none := by simpa [take] using htake
      have hrest : p.takeAll (n :: group) = p.takeAll group := by simp [takeAll, htake]
      rw [hrest, List.filterMap_cons_none (by rw [hfind]; rfl)]
      obtain ⟨hindexed, hnext, hmem, hwhole, hperm⟩ := ih (p := p) hnodup
      refine ⟨hindexed, hnext, fun n' v => ?_, hwhole, hperm⟩
      rw [hmem, List.mem_cons, not_or]
      refine ⟨fun h => ⟨h.1, ?_, h.2⟩, fun h => ⟨h.1, h.2.2⟩⟩
      rintro rfl
      exact OrdMap.find?_eq_none.1 hfind v h.1
    | some r =>
      obtain ⟨p', op, e⟩ := r
      obtain ⟨hmem, hops, hnext'⟩ := take_eq_some htake
      have hfind : p.ops.find? n = some (op, e) := OrdMap.find?_eq_some.2 hmem
      have hrest : p.takeAll (n :: group) = p'.takeAll group := by simp [takeAll, htake]
      have hsame : (group.filterMap fun n => (p'.ops.find? n).map Prod.fst)
          = group.filterMap fun n => (p.ops.find? n).map Prod.fst := by
        refine List.filterMap_congr fun n' hn' => ?_
        have hne : n' ≠ n := fun heq => hn (heq ▸ hn')
        congr 1
        refine Option.ext fun v => ?_
        rw [OrdMap.find?_eq_some, OrdMap.find?_eq_some, hops, OrdMap.mem_erase]
        exact and_iff_left hne
      rw [hrest, List.filterMap_cons_some (b := op) (by rw [hfind]; rfl)]
      obtain ⟨hindexed, hnext, hmem', hwhole, hperm⟩ := ih (p := p') hnodup
      refine ⟨fun h => hindexed (h.take htake), hnext.trans hnext', fun n' v => ?_,
        fun k hk => take_whole htake (hwhole k hk), ?_⟩
      · rw [hmem', hops, OrdMap.mem_erase, List.mem_cons, not_or, and_assoc]
      · rw [hsame] at hperm
        exact (take_waiting htake).trans (hperm.cons op)

theorem mem_numbered {group : List Nat} :
    (n, op) ∈ p.numbered group ↔ n ∈ group ∧ ∃ e, (n, op, e) ∈ p.ops.items := by
  simp only [numbered, List.mem_filterMap, Option.map_eq_some_iff, OrdMap.find?_eq_some]
  constructor
  · rintro ⟨n', hn', ⟨op', e⟩, hmem, heq⟩
    obtain ⟨rfl, rfl⟩ := Prod.mk.inj heq
    exact ⟨hn', e, hmem⟩
  · rintro ⟨hn, e, hmem⟩
    exact ⟨n, hn, (op, e), hmem, rfl⟩

theorem numbered_map_snd (p : Parked) (group : List Nat) :
    (p.numbered group).map (·.2) = group.filterMap fun n => (p.ops.find? n).map (·.1) := by
  rw [numbered, List.map_filterMap]
  refine List.filterMap_congr fun n _ => ?_
  cases p.ops.find? n <;> rfl

theorem numbered_nodup {group : List Nat} (hgroup : group.Nodup) :
    ((p.numbered group).map (·.1)).Nodup := by
  have hfst : (p.numbered group).map (·.1)
      = group.filterMap fun n => (p.ops.find? n).map fun _ => n := by
    rw [numbered, List.map_filterMap]
    refine List.filterMap_congr fun n _ => ?_
    cases p.ops.find? n <;> rfl
  rw [hfst]
  refine List.Nodup.filterMap (fun a b n ha hb => ?_) hgroup
  obtain ⟨-, -, rfl⟩ := Option.map_eq_some_iff.1 ha
  obtain ⟨-, -, rfl⟩ := Option.map_eq_some_iff.1 hb
  rfl

theorem takeGroup_ops (p : Parked) (group : List Nat) :
    (p.takeGroup group).ops = (p.takeAll group).ops := by
  rw [takeGroup]
  split <;> rfl

theorem takeGroup_waiting (p : Parked) {group : List Nat} (hgroup : group.Nodup) :
    p.waiting.Perm ((p.numbered group).map (·.2) ++ (p.takeGroup group).waiting) := by
  obtain ⟨-, -, -, -, hperm⟩ := takeAll_spec (p := p) group hgroup
  rw [numbered_map_snd, waiting, waiting, takeGroup_ops]
  exact hperm

theorem takeGroup_length (p : Parked) {group : List Nat} (hgroup : group.Nodup) :
    (p.takeGroup group).ops.length + ((p.numbered group).map (·.2)).length = p.ops.length := by
  have hlen := (p.takeGroup_waiting hgroup).length_eq
  have hall : p.waiting.length = p.ops.length := List.length_map ..
  have hleft : (p.takeGroup group).waiting.length = (p.takeGroup group).ops.length := List.length_map ..
  rw [List.length_append] at hlen
  omega

theorem mem_takeGroup {group : List Nat} (hgroup : group.Nodup) {v : Op × StateError} :
    (n, v) ∈ (p.takeGroup group).ops.items ↔ (n, v) ∈ p.ops.items ∧ n ∉ group := by
  obtain ⟨-, -, hmem, -, -⟩ := takeAll_spec (p := p) group hgroup
  rw [takeGroup_ops]
  exact hmem n v

theorem takeGroup_next {group : List Nat} (hgroup : group.Nodup) :
    (p.takeGroup group).next = p.next := by
  obtain ⟨-, hnext, -, -, -⟩ := takeAll_spec (p := p) group hgroup
  rw [takeGroup]
  split <;> exact hnext

theorem Indexed.takeGroup (h : p.Indexed) {group : List Nat} (hgroup : group.Nodup) :
    (p.takeGroup group).Indexed := by
  obtain ⟨hindexed, -, -, -, -⟩ := takeAll_spec (p := p) group hgroup
  have hall := hindexed h
  rw [Parked.takeGroup]
  split
  · exact ⟨hall.byTask, hall.byStamp, fun k hk => hall.whole k (OrdSet.mem_erase.1 hk).1⟩
  · exact hall

theorem groupOf_nodup (p : Parked) (n : Nat) : (p.groupOf n).Nodup := by
  rw [groupOf]
  split
  · exact List.nodup_nil
  · rename_i op _ _
    cases p.byStamp op.hlc with
    | none => exact List.nodup_nil
    | some s => exact s.nodup

theorem mem_naming {tasks : List TaskId} :
    n ∈ p.naming tasks ↔ ∃ t ∈ tasks, n ∈ (p.byTask t).getD .empty := by
  have hfold : ∀ (tasks : List TaskId) (s : OrdSet Nat),
      n ∈ tasks.foldl (fun s t => ((p.byTask t).getD .empty).union s) s ↔
        (∃ t ∈ tasks, n ∈ (p.byTask t).getD .empty) ∨ n ∈ s := by
    intro tasks
    induction tasks with
    | nil => simp
    | cons t tasks ih =>
      intro s
      rw [List.foldl_cons, ih, OrdSet.mem_union, List.exists_mem_cons_iff]
      exact or_left_comm.trans or_assoc.symm
  rw [naming, hfold]
  simp

/-- What names a task waits. -/
theorem Indexed.waits_of_naming (h : p.Indexed) {tasks : List TaskId} (hn : n ∈ p.naming tasks) :
    ∃ op e, (n, op, e) ∈ p.ops.items ∧ ∃ t ∈ tasks, t ∈ named op := by
  obtain ⟨t, ht, hn⟩ := mem_naming.1 hn
  obtain ⟨op, e, hmem, hnamed⟩ := (h.byTask.mem t n).1 hn
  exact ⟨op, e, hmem, t, ht, hnamed⟩

theorem Valid.naming_le (h : p.Valid) {tasks : List TaskId} (hn : n ∈ p.naming tasks) :
    n ≤ p.next := by
  obtain ⟨op, e, hmem, -⟩ := h.toIndexed.waits_of_naming hn
  exact h.fresh n op e hmem

end Parked

end Txtodo
