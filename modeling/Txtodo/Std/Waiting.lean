import Txtodo.Std.Loop
import Mathlib.Data.List.Perm.Basic

/-!
# Items that wait until they fit

A state takes items one after another; one it refuses waits and is tried again after each later item that
it takes. Past a bound the oldest waiting item is skipped.
-/

namespace Waiting

open Txtodo

variable {σ α ε : Type}

/-- Every item tried once, in order: the state and the items it still refuses. -/
def tryEach (apply : σ → α → Except ε σ) : σ → List α → σ × List α
  | s, [] => (s, [])
  | s, a :: as =>
    match apply s a with
    | .ok s => tryEach apply s as
    | .error _ => ((tryEach apply s as).1, a :: (tryEach apply s as).2)

/-- One round over the waiting items; the rounds end with one that takes none. -/
def retryTurn (apply : σ → α → Except ε σ) (s : σ × List α) : σ × List α ⊕ σ × List α :=
  let next := tryEach apply s.1 s.2
  if next.2.length = s.2.length then .inr next else .inl next

/-- Rounds until one takes none. -/
def retry (apply : σ → α → Except ε σ) (s : σ) (waiting : List α) : σ × List α :=
  (loop (retryTurn apply) (waiting.length + 1) (s, waiting)).getD (s, waiting)

/-- The state, what waits, and what was skipped with the error of the item that pushed it out. -/
structure Queue (σ α ε : Type) where
  state : σ
  waiting : List α
  skipped : List (α × ε)

/-- One item: taken, with the waiting ones tried again, or put to wait. -/
def take (apply : σ → α → Except ε σ) (bound : Nat) (q : Queue σ α ε) (a : α) : Queue σ α ε :=
  match apply q.state a with
  | .ok s =>
    let (s, waiting) := retry apply s q.waiting
    { q with state := s, waiting := waiting }
  | .error e =>
    match q.waiting ++ [a] with
    | oldest :: waiting =>
      if bound < waiting.length + 1 then
        { q with waiting := waiting, skipped := q.skipped ++ [(oldest, e)] }
      else { q with waiting := oldest :: waiting }
    | [] => q

/-- Items in order. -/
def takeAll (apply : σ → α → Except ε σ) (bound : Nat) (q : Queue σ α ε) (as : List α) : Queue σ α ε :=
  as.foldl (take apply bound) q

/-- A state with nothing waiting. -/
def Queue.fresh (s : σ) : Queue σ α ε := ⟨s, [], []⟩

/-! ## Rounds -/

section Rounds
variable {apply : σ → α → Except ε σ} {s : σ} {a : α} {as waiting : List α}

theorem length_tryEach_le (s : σ) (as : List α) : (tryEach apply s as).2.length ≤ as.length := by
  induction as generalizing s with
  | nil => exact le_rfl
  | cons a as ih =>
    unfold tryEach
    split
    · exact (ih _).trans (Nat.le_succ _)
    · exact Nat.succ_le_succ (ih _)

/-- Items that are refused change nothing. -/
theorem tryEach_refused (h : ∀ a ∈ as, ∃ e, apply s a = .error e) : tryEach apply s as = (s, as) := by
  induction as with
  | nil => rfl
  | cons a as ih =>
    obtain ⟨e, he⟩ := h a List.mem_cons_self
    rw [tryEach, he, ih fun b hb => h b (List.mem_cons_of_mem _ hb)]

/-- A round that takes none found every item refused. -/
theorem refused_of_length (h : (tryEach apply s as).2.length = as.length) :
    ∀ a ∈ as, ∃ e, apply s a = .error e := by
  induction as with
  | nil => simp
  | cons a as ih =>
    unfold tryEach at h
    split at h
    · exact absurd (length_tryEach_le _ as) (by rw [h]; exact Nat.not_succ_le_self _)
    · next e he => exact List.forall_mem_cons.2 ⟨⟨e, he⟩, ih (Nat.succ.inj h)⟩

/-- The rounds end, with one result whatever bound is put on them past the number of items. -/
theorem loop_retry {n : Nat} (hn : waiting.length < n) :
    loop (retryTurn apply) n (s, waiting) = some (retry apply s waiting) := by
  have hshorter : ∀ x y : σ × List α, retryTurn apply x = .inl y → y.2.length < x.2.length := by
    intro x y h
    unfold retryTurn at h
    dsimp only at h
    split at h
    · cases h
    · next hne =>
      cases h
      exact lt_of_le_of_ne (length_tryEach_le x.1 x.2) hne
  obtain ⟨r, hr⟩ := Loop.exists_result_of_measure (fun x : σ × List α => x.2.length) hshorter
    (show (s, waiting).2.length < waiting.length + 1 from Nat.lt_succ_self _)
  rw [retry, hr]
  exact Loop.loop_mono hr hn

theorem retry_refused (h : ∀ a ∈ waiting, ∃ e, apply s a = .error e) :
    retry apply s waiting = (s, waiting) := by
  have hstop : retryTurn apply (s, waiting) = .inr (s, waiting) := by
    rw [retryTurn, tryEach_refused h, if_pos rfl]
  rw [retry, Loop.loop_stop hstop]
  rfl

/-- What holds of the state and the items to try is kept by the rounds. -/
theorem retry_keeps {P : σ → List α → Prop}
    (hround : ∀ s as, P s as → P (tryEach apply s as).1 (tryEach apply s as).2) (h : P s waiting) :
    P (retry apply s waiting).1 (retry apply s waiting).2 := by
  refine Loop.result_of_invariant (P := fun x => P x.1 x.2) (Q := fun x => P x.1 x.2) ?_ ?_ h
    (loop_retry (Nat.lt_succ_self _))
  · intro x y hx hturn
    unfold retryTurn at hturn
    dsimp only at hturn
    split at hturn
    · cases hturn
    · cases hturn
      exact hround _ _ hx
  · intro x y hx hturn
    unfold retryTurn at hturn
    dsimp only at hturn
    split at hturn
    · cases hturn
      exact hround _ _ hx
    · cases hturn

/-- What waits after the rounds is refused. -/
theorem refused_of_retry : ∀ a ∈ (retry apply s waiting).2, ∃ e, apply (retry apply s waiting).1 a = .error e := by
  refine Loop.result_of_invariant (P := fun _ => True)
    (Q := fun x : σ × List α => ∀ a ∈ x.2, ∃ e, apply x.1 a = .error e) (fun _ _ _ _ => trivial) ?_ trivial
    (loop_retry (Nat.lt_succ_self _))
  intro x y _ hturn
  unfold retryTurn at hturn
  dsimp only at hturn
  split at hturn
  · next hlen =>
    cases hturn
    have hrefused := refused_of_length hlen
    rw [tryEach_refused hrefused]
    exact hrefused
  · cases hturn

theorem tryEach_subset (s : σ) (as : List α) : (tryEach apply s as).2 ⊆ as := by
  induction as generalizing s with
  | nil => exact List.Subset.refl _
  | cons a as ih =>
    unfold tryEach
    split
    · exact List.Subset.trans (ih _) (List.subset_cons_self a as)
    · exact List.cons_subset_cons a (ih _)

/-- What every item that is taken keeps of the state. -/
theorem tryEach_state {P : σ → Prop} (happly : ∀ s, ∀ a ∈ as, ∀ s', P s → apply s a = .ok s' → P s')
    (h : P s) : P (tryEach apply s as).1 := by
  induction as generalizing s with
  | nil => exact h
  | cons a as ih =>
    have hrest : ∀ s, ∀ b ∈ as, ∀ s', P s → apply s b = .ok s' → P s' := fun s b hb =>
      happly s b (List.mem_cons_of_mem _ hb)
    unfold tryEach
    split
    · next s' hs' => exact ih hrest (happly s a List.mem_cons_self s' h hs')
    · exact ih hrest h

theorem retry_state {P : σ → Prop} (happly : ∀ s, ∀ a ∈ waiting, ∀ s', P s → apply s a = .ok s' → P s')
    (h : P s) : P (retry apply s waiting).1 := by
  refine (retry_keeps (P := fun s as => P s ∧ as ⊆ waiting) (fun s as hs => ⟨?_, ?_⟩)
    ⟨h, List.Subset.refl _⟩).1
  · exact tryEach_state (fun t a ha => happly t a (hs.2 ha)) hs.1
  · exact List.Subset.trans (tryEach_subset s as) hs.2

end Rounds

/-! ## Items in order -/

section Items
variable {apply : σ → α → Except ε σ} {bound : Nat} {q : Queue σ α ε} {a : α}

theorem take_ok {s : σ} (h : apply q.state a = .ok s) : take apply bound q a =
    ⟨(retry apply s q.waiting).1, (retry apply s q.waiting).2, q.skipped⟩ := by
  rw [take, h]

/-- A refused item waits; past the bound the oldest waiting one is skipped. -/
theorem take_error (bound : Nat) {e : ε} (h : apply q.state a = .error e) : ∃ oldest waiting,
    q.waiting ++ [a] = oldest :: waiting ∧ take apply bound q a =
      if bound < waiting.length + 1 then { q with waiting := waiting, skipped := q.skipped ++ [(oldest, e)] }
      else { q with waiting := oldest :: waiting } := by
  obtain ⟨oldest, waiting, hsplit⟩ := List.exists_cons_of_ne_nil (List.append_ne_nil_of_right_ne_nil q.waiting
    (List.cons_ne_nil a []))
  refine ⟨oldest, waiting, hsplit, ?_⟩
  rw [take, h]
  dsimp only
  rw [hsplit]

theorem takeAll_append (q : Queue σ α ε) (as bs : List α) :
    takeAll apply bound q (as ++ bs) = takeAll apply bound (takeAll apply bound q as) bs :=
  List.foldl_append ..

/-- It does not matter where the items are cut into batches. -/
theorem takeAll_flatten (q : Queue σ α ε) (batches : List (List α)) :
    batches.foldl (takeAll apply bound) q = takeAll apply bound q batches.flatten := by
  induction batches generalizing q with
  | nil => rfl
  | cons as batches ih => rw [List.foldl_cons, ih, List.flatten_cons, takeAll_append]

/-- What every item keeps holds in the end. -/
theorem takeAll_keeps {P : Queue σ α ε → Prop} (htake : ∀ q a, P q → P (take apply bound q a)) (h : P q)
    (as : List α) : P (takeAll apply bound q as) := by
  induction as generalizing q with
  | nil => exact h
  | cons a as ih => exact ih (htake q a h)

/-- What every item that is taken keeps of the state holds in the end. -/
theorem takeAll_state {P : σ → Prop} (happly : ∀ s a s', P s → apply s a = .ok s' → P s') (h : P q.state)
    (as : List α) : P (takeAll apply bound q as).state := by
  refine takeAll_keeps (P := fun q => P q.state) (fun q a hq => ?_) h as
  cases hs : apply q.state a with
  | ok s =>
    rw [take_ok hs]
    exact retry_state (fun s a _ => happly s a) (happly _ a s hq hs)
  | error e =>
    obtain ⟨oldest, waiting, -, htake⟩ := take_error bound hs
    rw [htake]
    split <;> exact hq

/-- What waits does not fit. -/
theorem refused_of_mem_waiting (s : σ) (as : List α) :
    ∀ a ∈ (takeAll apply bound (Queue.fresh s) as).waiting,
      ∃ e, apply (takeAll apply bound (Queue.fresh s) as).state a = .error e := by
  refine takeAll_keeps (P := fun q : Queue σ α ε => ∀ a ∈ q.waiting, ∃ e, apply q.state a = .error e)
    (fun q a hq => ?_) (fun a ha => by cases ha) as
  cases h : apply q.state a with
  | ok s =>
    rw [take_ok h]
    exact refused_of_retry
  | error e =>
    obtain ⟨oldest, waiting, hsplit, htake⟩ := take_error bound h
    have hall : ∀ b ∈ oldest :: waiting, ∃ e, apply q.state b = .error e := by
      intro b hb
      rw [← hsplit] at hb
      rcases List.mem_append.1 hb with hb | hb
      · exact hq b hb
      · exact ⟨e, List.mem_singleton.1 hb ▸ h⟩
    rw [htake]
    split
    · exact fun b hb => hall b (List.mem_cons_of_mem _ hb)
    · exact hall

/-! ### Every item once -/

/-- The state with the items it took, in order. -/
def logged (apply : σ → α → Except ε σ) (s : σ × List α) (a : α) : Except ε (σ × List α) :=
  match apply s.1 a with
  | .ok next => .ok (next, s.2 ++ [a])
  | .error e => .error e

theorem tryEach_logged (apply : σ → α → Except ε σ) (s : σ × List α) (as : List α) :
    (tryEach (logged apply) s as).1.1 = (tryEach apply s.1 as).1 ∧
      (tryEach (logged apply) s as).2 = (tryEach apply s.1 as).2 := by
  induction as generalizing s with
  | nil => exact ⟨rfl, rfl⟩
  | cons a as ih =>
    unfold tryEach logged
    cases h : apply s.1 a with
    | ok next => exact ih _
    | error e => exact ⟨(ih s).1, congrArg _ (ih s).2⟩

/-- Tried once, an item is taken or still to be tried. -/
theorem perm_tryEach (s : σ × List α) (as : List α) :
    ((tryEach (logged apply) s as).1.2 ++ (tryEach (logged apply) s as).2).Perm (s.2 ++ as) := by
  induction as generalizing s with
  | nil => exact .refl _
  | cons a as ih =>
    unfold tryEach logged
    cases h : apply s.1 a with
    | ok next =>
      have hrest := ih (next, s.2 ++ [a])
      rwa [List.append_assoc] at hrest
    | error e => exact List.perm_middle.trans (((ih s).cons a).trans List.perm_middle.symm)

theorem loop_logged (apply : σ → α → Except ε σ) (n : Nat) (s : σ × List α) (as : List α) :
    (loop (retryTurn (logged apply)) n (s, as)).map (fun r => (r.1.1, r.2)) =
      loop (retryTurn apply) n (s.1, as) := by
  induction n generalizing s as with
  | zero => rfl
  | succ n ih =>
    obtain ⟨hstate, hleft⟩ := tryEach_logged apply s as
    by_cases hlen : (tryEach apply s.1 as).2.length = as.length
    · have hturn : retryTurn apply (s.1, as) = .inr (tryEach apply s.1 as) := if_pos hlen
      have hlogged : retryTurn (logged apply) (s, as) = .inr (tryEach (logged apply) s as) :=
        if_pos ((congrArg List.length hleft).trans hlen)
      rw [Loop.loop_stop hturn, Loop.loop_stop hlogged, Option.map_some, hstate, hleft]
    · have hturn : retryTurn apply (s.1, as) = .inl (tryEach apply s.1 as) := if_neg hlen
      have hlogged : retryTurn (logged apply) (s, as) = .inl (tryEach (logged apply) s as) :=
        if_neg fun h => hlen ((congrArg List.length hleft).symm.trans h)
      rw [Loop.loop_go hturn, Loop.loop_go hlogged, ih, hstate, hleft]

/-- The log changes nothing else. -/
theorem retry_logged (apply : σ → α → Except ε σ) (s : σ × List α) (as : List α) :
    (retry (logged apply) s as).1.1 = (retry apply s.1 as).1 ∧
      (retry (logged apply) s as).2 = (retry apply s.1 as).2 := by
  have h := loop_logged apply (as.length + 1) s as
  rw [loop_retry (Nat.lt_succ_self _), loop_retry (Nat.lt_succ_self _), Option.map_some] at h
  obtain ⟨hstate, hleft⟩ := Prod.mk.inj (Option.some.inj h)
  exact ⟨hstate, hleft⟩

/-- The queue without its log. -/
def Queue.plain (q : Queue (σ × List α) α ε) : Queue σ α ε := ⟨q.state.1, q.waiting, q.skipped⟩

/-- All items of a queue: taken, waiting and skipped. -/
def Queue.items (q : Queue (σ × List α) α ε) : List α := q.state.2 ++ q.waiting ++ q.skipped.map Prod.fst

theorem plain_take (q : Queue (σ × List α) α ε) (a : α) :
    (take (logged apply) bound q a).plain = take apply bound q.plain a := by
  cases h : apply q.state.1 a with
  | ok s =>
    have hlogged : logged apply q.state a = .ok (s, q.state.2 ++ [a]) := by rw [logged, h]
    have hplain : apply q.plain.state a = .ok s := h
    obtain ⟨hstate, hleft⟩ := retry_logged apply (s, q.state.2 ++ [a]) q.waiting
    rw [take_ok hlogged, take_ok hplain, Queue.plain, hstate, hleft]
    rfl
  | error e =>
    have hlogged : logged apply q.state a = .error e := by rw [logged, h]
    have hplain : apply q.plain.state a = .error e := h
    obtain ⟨oldest, waiting, hsplit, htake⟩ := take_error bound hlogged
    obtain ⟨oldest', waiting', hsplit', htake'⟩ := take_error bound hplain
    obtain ⟨rfl, rfl⟩ := List.cons.inj (hsplit.symm.trans hsplit')
    rw [htake, htake']
    split <;> rfl

theorem plain_takeAll (q : Queue (σ × List α) α ε) (as : List α) :
    (takeAll (logged apply) bound q as).plain = takeAll apply bound q.plain as := by
  induction as generalizing q with
  | nil => rfl
  | cons a as ih =>
    refine (ih _).trans ?_
    rw [plain_take]
    rfl

theorem perm_take (q : Queue (σ × List α) α ε) (a : α) :
    (take (logged apply) bound q a).items.Perm (a :: q.items) := by
  cases h : logged apply q.state a with
  | ok s =>
    obtain ⟨next, rfl⟩ : ∃ next, s = (next, q.state.2 ++ [a]) := by
      unfold logged at h
      split at h
      · next next _ => exact ⟨next, (Except.ok.inj h).symm⟩
      · cases h
    rw [take_ok h, Queue.items, Queue.items, ← List.cons_append]
    refine List.Perm.append_right _ ?_
    have hround : ∀ (s : σ × List α) as, (s.2 ++ as).Perm (a :: (q.state.2 ++ q.waiting)) →
        ((tryEach (logged apply) s as).1.2 ++ (tryEach (logged apply) s as).2).Perm
          (a :: (q.state.2 ++ q.waiting)) := fun s as has => (perm_tryEach s as).trans has
    refine retry_keeps (P := fun (s : σ × List α) as => (s.2 ++ as).Perm (a :: (q.state.2 ++ q.waiting))) hround ?_
    rw [List.append_assoc]
    exact List.perm_middle
  | error e =>
    obtain ⟨oldest, waiting, hsplit, htake⟩ := take_error bound h
    have hwaiting : (oldest :: waiting).Perm (a :: q.waiting) := by
      rw [← hsplit]
      exact List.perm_append_singleton a q.waiting
    have hall : (q.state.2 ++ (oldest :: waiting) ++ q.skipped.map Prod.fst).Perm (a :: q.items) := by
      rw [Queue.items, ← List.cons_append]
      exact ((hwaiting.append_left _).trans List.perm_middle).append_right _
    rw [htake]
    split
    · refine .trans ?_ hall
      rw [Queue.items, List.map_append, ← List.append_assoc]
      refine (List.perm_append_singleton oldest _).trans ?_
      rw [List.append_assoc, List.append_assoc]
      exact List.perm_middle.symm
    · exact hall

/-- Every item ends up taken, waiting or skipped, and as often as it came. -/
theorem perm_takeAll (q : Queue (σ × List α) α ε) (as : List α) :
    (takeAll (logged apply) bound q as).items.Perm (q.items ++ as) := by
  induction as generalizing q with
  | nil => rw [List.append_nil]; exact .refl _
  | cons a as ih =>
    refine (ih _).trans (((perm_take q a).append_right as).trans ?_)
    exact List.perm_middle.symm

end Items

end Waiting
