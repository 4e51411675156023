import Mathlib.Data.List.Basic
import Mathlib.Tactic.Common

/-!
# Edit scripts between two lists

A script is a path through the edit graph of `a` and `b`, from a point `(i, j)` to the far corner:
`i` elements of `a` and `j` of `b` are behind it. A diagonal edge keeps an element, the other two
delete one of `a` or insert one of `b`.
-/

namespace EditGraph

/-- One edge, by the positions it leaves from. -/
inductive Step where
  | keep (i j : Nat)
  | delete (i : Nat)
  | insert (j : Nat)
  deriving DecidableEq

namespace Step

def deletes : Step → Bool
  | delete _ => true
  | _ => false

def inserts : Step → Bool
  | insert _ => true
  | _ => false

end Step

/-- The number of edges that are not diagonal. -/
def cost (steps : List Step) : Nat := steps.countP Step.deletes + steps.countP Step.inserts

section
variable {i j : Nat} {steps : List Step}

@[simp] theorem cost_nil : cost [] = 0 := rfl

@[simp] theorem cost_keep : cost (.keep i j :: steps) = cost steps := rfl

@[simp] theorem cost_delete : cost (.delete i :: steps) = cost steps + 1 := by
  simp only [cost, List.countP_cons, Step.deletes, Step.inserts]
  simp
  omega

@[simp] theorem cost_insert : cost (.insert j :: steps) = cost steps + 1 := by
  simp only [cost, List.countP_cons, Step.deletes, Step.inserts]
  simp
  omega

end

variable {α : Type*}

/-- A diagonal edge leaves `(i, j)`. -/
def Matches (a b : List α) (i j : Nat) : Prop :=
  i < a.length ∧ j < b.length ∧ a[i]? = b[j]?

/-- A path from `(i, j)` to the far corner whose edits all leave from points of `P`. -/
inductive Script (a b : List α) (P : Nat → Nat → Prop) : Nat → Nat → List Step → Prop
  | done : Script a b P a.length b.length []
  | keep {i j steps} : Matches a b i j → Script a b P (i + 1) (j + 1) steps →
      Script a b P i j (.keep i j :: steps)
  | delete {i j steps} : i < a.length → P i j → Script a b P (i + 1) j steps →
      Script a b P i j (.delete i :: steps)
  | insert {i j steps} : j < b.length → P i j → Script a b P i (j + 1) steps →
      Script a b P i j (.insert j :: steps)

/-- A script that takes every diagonal edge it meets. -/
def Greedy (a b : List α) : Nat → Nat → List Step → Prop :=
  Script a b fun i j => ¬Matches a b i j

variable {a b : List α} {i j : Nat} {steps : List Step} {P : Nat → Nat → Prop}

theorem Matches.drop (h : Matches a b i j) :
    ∃ c, a.drop i = c :: a.drop (i + 1) ∧ b.drop j = c :: b.drop (j + 1) := by
  obtain ⟨hi, hj, heq⟩ := h
  rw [List.getElem?_eq_getElem hi, List.getElem?_eq_getElem hj, Option.some_inj] at heq
  refine ⟨a[i], List.drop_eq_getElem_cons hi, ?_⟩
  rw [heq]
  exact List.drop_eq_getElem_cons hj

namespace Script

theorem bounds (h : Script a b P i j steps) : i ≤ a.length ∧ j ≤ b.length := by
  induction h with
  | done => exact ⟨Nat.le_refl _, Nat.le_refl _⟩
  | keep hm => exact ⟨Nat.le_of_lt hm.1, Nat.le_of_lt hm.2.1⟩
  | delete hi _ _ ih => exact ⟨Nat.le_of_lt hi, ih.2⟩
  | insert hj _ _ ih => exact ⟨ih.1, Nat.le_of_lt hj⟩

/-- What is inserted exceeds what is deleted by the difference of the lengths. -/
theorem length_balance (h : Script a b P i j steps) :
    (b.length - j) + steps.countP Step.deletes = (a.length - i) + steps.countP Step.inserts := by
  induction h with
  | done => simp
  | keep hm _ ih =>
    obtain ⟨hi, hj, -⟩ := hm
    rw [List.countP_cons_of_neg (by simp [Step.deletes]),
      List.countP_cons_of_neg (by simp [Step.inserts])]
    omega
  | delete hi _ _ ih =>
    rw [List.countP_cons_of_pos (by simp [Step.deletes]),
      List.countP_cons_of_neg (by simp [Step.inserts])]
    omega
  | insert hj _ _ ih =>
    rw [List.countP_cons_of_neg (by simp [Step.deletes]),
      List.countP_cons_of_pos (by simp [Step.inserts])]
    omega

/-- With nothing to keep or delete, every step inserts. -/
theorem eq_inserts (h : Script [] b P i j steps) :
    steps = (List.range' j (b.length - j)).map Step.insert := by
  generalize ha : ([] : List α) = a at h
  induction h with
  | done => simp
  | keep hm =>
    subst ha
    exact absurd hm.1 (Nat.not_lt_zero _)
  | delete hi =>
    subst ha
    exact absurd hi (Nat.not_lt_zero _)
  | @insert i j steps hj _ _ ih =>
    obtain ⟨k, hk⟩ : ∃ k, b.length - j = k + 1 := ⟨b.length - j - 1, by omega⟩
    rw [ih, hk, List.range'_succ, List.map_cons]
    congr 3
    omega

end Script

/-- Where a greedy script still edits, the two rests differ. -/
theorem Greedy.drop_ne (h : Greedy a b i j steps) (hcost : cost steps ≠ 0) :
    a.drop i ≠ b.drop j := by
  have hstop : ∀ i j, ¬Matches a b i j → (i < a.length ∨ j < b.length) →
      a.drop i ≠ b.drop j := by
    intro i j hm hlt heq
    have hlen := congrArg List.length heq
    rw [List.length_drop, List.length_drop] at hlen
    have hi : i < a.length := by omega
    have hj : j < b.length := by omega
    refine hm ⟨hi, hj, ?_⟩
    rw [← List.head?_drop, ← List.head?_drop, heq]
  induction h with
  | done => exact absurd rfl hcost
  | keep hm _ ih =>
    rw [cost_keep] at hcost
    obtain ⟨c, ha, hb⟩ := hm.drop
    rw [ha, hb]
    intro heq
    exact ih hcost (List.cons_inj_right c |>.1 heq)
  | delete hi hm => exact hstop _ _ hm (.inl hi)
  | insert hj hm => exact hstop _ _ hm (.inr hj)

/-! ## What a script keeps -/

namespace Step

/-- The item of the first list a step names. -/
def old : Step → Option Nat
  | keep i _ => some i
  | delete i => some i
  | insert _ => none

/-- The item of the second list a step names. -/
def new : Step → Option Nat
  | keep _ j => some j
  | delete _ => none
  | insert j => some j

def kept : Step → Option (Nat × Nat)
  | keep i j => some (i, j)
  | _ => none

end Step

/-- The pairs of items that are kept, in order. -/
def pairs (steps : List Step) : List (Nat × Nat) := steps.filterMap Step.kept

/-- The items of the first list the steps name, in order. -/
def olds (steps : List Step) : List Nat := steps.filterMap Step.old

/-- The items of the second list the steps name, in order. -/
def news (steps : List Step) : List Nat := steps.filterMap Step.new

@[simp] theorem pairs_keep : pairs (.keep i j :: steps) = (i, j) :: pairs steps := rfl
@[simp] theorem pairs_delete : pairs (.delete i :: steps) = pairs steps := rfl
@[simp] theorem pairs_insert : pairs (.insert j :: steps) = pairs steps := rfl
@[simp] theorem olds_keep : olds (.keep i j :: steps) = i :: olds steps := rfl
@[simp] theorem olds_delete : olds (.delete i :: steps) = i :: olds steps := rfl
@[simp] theorem olds_insert : olds (.insert j :: steps) = olds steps := rfl
@[simp] theorem news_keep : news (.keep i j :: steps) = j :: news steps := rfl
@[simp] theorem news_delete : news (.delete i :: steps) = news steps := rfl
@[simp] theorem news_insert : news (.insert j :: steps) = j :: news steps := rfl

namespace Script

/-- A script names each item of the first list once, in order. -/
theorem olds_eq (h : Script a b P i j steps) : olds steps = List.range' i (a.length - i) := by
  have hcons : ∀ i, i < a.length → List.range' i (a.length - i) = i :: List.range' (i + 1) (a.length - (i + 1)) := by
    intro i hi
    rw [← List.range'_succ]
    congr 1
    omega
  induction h with
  | done => rw [Nat.sub_self]; rfl
  | keep hm _ ih => rw [olds_keep, ih, hcons _ hm.1]
  | delete hi _ _ ih => rw [olds_delete, ih, hcons _ hi]
  | insert _ _ _ ih => rw [olds_insert, ih]

theorem news_eq (h : Script a b P i j steps) : news steps = List.range' j (b.length - j) := by
  have hcons : ∀ j, j < b.length → List.range' j (b.length - j) = j :: List.range' (j + 1) (b.length - (j + 1)) := by
    intro j hj
    rw [← List.range'_succ]
    congr 1
    omega
  induction h with
  | done => rw [Nat.sub_self]; rfl
  | keep hm _ ih => rw [news_keep, ih, hcons _ hm.2.1]
  | delete _ _ _ ih => rw [news_delete, ih]
  | insert hj _ _ ih => rw [news_insert, ih, hcons _ hj]

/-- Pairs kept match and lie on the path. -/
theorem pairs_match (h : Script a b P i j steps) :
    ∀ p ∈ pairs steps, Matches a b p.1 p.2 ∧ i ≤ p.1 ∧ j ≤ p.2 := by
  induction h with
  | done => exact List.forall_mem_nil _
  | @keep i j steps hm _ ih =>
    rw [pairs_keep]
    refine List.forall_mem_cons.2 ⟨⟨hm, Nat.le_refl _, Nat.le_refl _⟩, fun p hp => ?_⟩
    obtain ⟨hmatch, hi, hj⟩ := ih p hp
    exact ⟨hmatch, by omega, by omega⟩
  | delete _ _ _ ih =>
    intro p hp
    obtain ⟨hmatch, hi, hj⟩ := ih p hp
    exact ⟨hmatch, by omega, hj⟩
  | insert _ _ _ ih =>
    intro p hp
    obtain ⟨hmatch, hi, hj⟩ := ih p hp
    exact ⟨hmatch, hi, by omega⟩

theorem pairs_increasing (h : Script a b P i j steps) :
    (pairs steps).Pairwise fun p q => p.1 < q.1 ∧ p.2 < q.2 := by
  induction h with
  | done => exact List.Pairwise.nil
  | keep _ hrest ih =>
    rw [pairs_keep]
    refine List.pairwise_cons.2 ⟨fun q hq => ?_, ih⟩
    obtain ⟨-, hi, hj⟩ := hrest.pairs_match q hq
    exact ⟨by omega, by omega⟩
  | delete _ _ _ ih => exact ih
  | insert _ _ _ ih => exact ih

/-- What is not kept costs an edit in each list. -/
theorem cost_pairs (h : Script a b P i j steps) :
    cost steps + 2 * (pairs steps).length = (a.length - i) + (b.length - j) := by
  induction h with
  | done => simp [pairs]
  | keep hm _ ih =>
    obtain ⟨hi, hj, -⟩ := hm
    rw [cost_keep, pairs_keep, List.length_cons]
    omega
  | delete hi _ _ ih =>
    rw [cost_delete, pairs_delete]
    omega
  | insert hj _ _ ih =>
    rw [cost_insert, pairs_insert]
    omega

/-- The items kept are a common subsequence. -/
theorem common (h : Script a b P i j steps) :
    ∃ c : List α, c.Sublist (a.drop i) ∧ c.Sublist (b.drop j) ∧ c.length = (pairs steps).length := by
  induction h with
  | done => exact ⟨[], List.nil_sublist _, List.nil_sublist _, rfl⟩
  | keep hm _ ih =>
    obtain ⟨c, hca, hcb, hlen⟩ := ih
    obtain ⟨x, ha, hb⟩ := hm.drop
    refine ⟨x :: c, ha ▸ hca.cons_cons x, hb ▸ hcb.cons_cons x, ?_⟩
    rw [List.length_cons, hlen, pairs_keep, List.length_cons]
  | delete hi _ _ ih =>
    obtain ⟨c, hca, hcb, hlen⟩ := ih
    exact ⟨c, List.drop_eq_getElem_cons hi ▸ hca.cons _, hcb, hlen⟩
  | insert hj _ _ ih =>
    obtain ⟨c, hca, hcb, hlen⟩ := ih
    exact ⟨c, hca, List.drop_eq_getElem_cons hj ▸ hcb.cons _, hlen⟩

end Script

/-- A common subsequence is kept by some script. -/
theorem script_of_common {c : List α} (hca : c.Sublist (a.drop i)) (hcb : c.Sublist (b.drop j))
    (hi : i ≤ a.length) (hj : j ≤ b.length) :
    ∃ steps, Script a b (fun _ _ => True) i j steps ∧ (pairs steps).length = c.length := by
  induction hn : (a.length - i) + (b.length - j) using Nat.strongRecOn generalizing i j c with
  | ind n ih =>
    by_cases hia : i < a.length
    · rw [List.drop_eq_getElem_cons hia] at hca
      rcases List.sublist_cons_iff.1 hca with hca' | ⟨c', rfl, hca'⟩
      · obtain ⟨steps, hsteps, hlen⟩ := ih _ (by omega) hca' hcb hia hj rfl
        exact ⟨_, .delete hia trivial hsteps, hlen⟩
      · by_cases hjb : j < b.length
        · rw [List.drop_eq_getElem_cons hjb] at hcb
          rcases List.sublist_cons_iff.1 hcb with hcb' | ⟨c'', heq, hcb'⟩
          · have hfirst : (a[i] :: c').Sublist (a.drop i) := by
              rw [List.drop_eq_getElem_cons hia]
              exact hca'.cons_cons _
            obtain ⟨steps, hsteps, hlen⟩ := ih _ (by omega) hfirst hcb' hi hjb rfl
            exact ⟨_, .insert hjb trivial hsteps, hlen⟩
          · obtain ⟨hhead, rfl⟩ := List.cons.inj heq
            have hm : Matches a b i j := ⟨hia, hjb, by
              rw [List.getElem?_eq_getElem hia, List.getElem?_eq_getElem hjb, hhead]⟩
            obtain ⟨steps, hsteps, hlen⟩ := ih _ (by omega) hca' hcb' hia hjb rfl
            refine ⟨_, .keep hm hsteps, ?_⟩
            rw [pairs_keep, List.length_cons, List.length_cons, hlen]
        · rw [List.drop_eq_nil_of_le (by omega)] at hcb
          cases hcb
    · rw [List.drop_eq_nil_of_le (by omega)] at hca
      obtain rfl := List.sublist_nil.1 hca
      by_cases hjb : j < b.length
      · obtain ⟨steps, hsteps, hlen⟩ := ih _ (by omega) (List.nil_sublist _) (List.nil_sublist _) hi hjb rfl
        exact ⟨_, .insert hjb trivial hsteps, hlen⟩
      · obtain rfl : i = a.length := by omega
        obtain rfl : j = b.length := by omega
        exact ⟨_, .done, rfl⟩

/-- `n` is the length of a longest common subsequence. -/
def LongestCommon (a b : List α) (n : Nat) : Prop :=
  (∃ c : List α, c.Sublist a ∧ c.Sublist b ∧ c.length = n) ∧
    ∀ c : List α, c.Sublist a → c.Sublist b → c.length ≤ n

/-- A cheapest script keeps as many items as a longest common subsequence has. -/
theorem Script.longest (h : Script a b P 0 0 steps)
    (hleast : ∀ Q other, Script a b Q 0 0 other → cost steps ≤ cost other) :
    LongestCommon a b (pairs steps).length := by
  refine ⟨by simpa using h.common, fun c hca hcb => ?_⟩
  obtain ⟨other, hother, hlen⟩ := @script_of_common _ a b 0 0 c hca hcb (Nat.zero_le _) (Nat.zero_le _)
  have hle := hleast _ other hother
  have hcost := h.cost_pairs
  have hcost' := hother.cost_pairs
  omega

/-!
## The latest of the shortest scripts

Back from the end of both lists: an insertion where a shortest script can end in one, else a deletion
where one can end so, else the two last items are kept.
-/

section Latest

instance [DecidableEq α] (a b : List α) (i j : Nat) : Decidable (Matches a b i j) :=
  inferInstanceAs (Decidable (_ ∧ _ ∧ _))

variable [DecidableEq α]

/-- The fewest edits between the first `i` items of `a` and the first `j` of `b`. -/
def fewest (a b : List α) : Nat → Nat → Nat
  | 0, j => j
  | i + 1, 0 => i + 1
  | i + 1, j + 1 =>
    let edited := min (fewest a b i (j + 1)) (fewest a b (i + 1) j) + 1
    if Matches a b i j then min (fewest a b i j) edited else edited
termination_by i j => i + j

/-- The shortest script between the first `i` items of `a` and the first `j` of `b` that edits as late
as it can, an insertion after a deletion. -/
def latest (a b : List α) : Nat → Nat → List Step
  | 0, 0 => []
  | 0, j + 1 => latest a b 0 j ++ [.insert j]
  | i + 1, 0 => latest a b i 0 ++ [.delete i]
  | i + 1, j + 1 =>
    if fewest a b (i + 1) j < fewest a b (i + 1) (j + 1) then latest a b (i + 1) j ++ [.insert j]
    else if fewest a b i (j + 1) < fewest a b (i + 1) (j + 1) then
      latest a b i (j + 1) ++ [.delete i]
    else latest a b i j ++ [.keep i j]
termination_by i j => i + j

@[simp] theorem fewest_zero_left (a b : List α) (j : Nat) : fewest a b 0 j = j := by
  rw [fewest]

@[simp] theorem fewest_zero_right (a b : List α) (i : Nat) : fewest a b i 0 = i := by
  cases i <;> rw [fewest]

theorem fewest_succ (a b : List α) (i j : Nat) :
    fewest a b (i + 1) (j + 1) =
      if Matches a b i j then
        min (fewest a b i j) (min (fewest a b i (j + 1)) (fewest a b (i + 1) j) + 1)
      else min (fewest a b i (j + 1)) (fewest a b (i + 1) j) + 1 := by
  rw [fewest]

theorem fewest_insert_le (a b : List α) (i j : Nat) :
    fewest a b i (j + 1) ≤ fewest a b i j + 1 := by
  cases i with
  | zero => simp
  | succ i =>
    rw [fewest_succ]
    split_ifs <;> omega

theorem fewest_delete_le (a b : List α) (i j : Nat) :
    fewest a b (i + 1) j ≤ fewest a b i j + 1 := by
  cases j with
  | zero => simp
  | succ j =>
    rw [fewest_succ]
    split_ifs <;> omega

theorem fewest_keep_le (h : Matches a b i j) : fewest a b (i + 1) (j + 1) ≤ fewest a b i j := by
  rw [fewest_succ, if_pos h]
  exact Nat.min_le_left _ _

/-- Where no edit is the last of a shortest script, the last two items match and are kept. -/
theorem fewest_keep (hinsert : ¬fewest a b (i + 1) j < fewest a b (i + 1) (j + 1))
    (hdelete : ¬fewest a b i (j + 1) < fewest a b (i + 1) (j + 1)) :
    Matches a b i j ∧ fewest a b i j = fewest a b (i + 1) (j + 1) := by
  have hsucc := fewest_succ a b i j
  split_ifs at hsucc with hm
  · exact ⟨hm, by omega⟩
  · omega

/-- There are no more edits than items. -/
theorem fewest_le (a b : List α) (i j : Nat) : fewest a b i j ≤ i + j := by
  induction j with
  | zero => simp
  | succ j ih =>
    have := fewest_insert_le a b i j
    omega

theorem latest_insert (h : fewest a b i j < fewest a b i (j + 1)) :
    latest a b i (j + 1) = latest a b i j ++ [.insert j] := by
  cases i with
  | zero => rw [latest]
  | succ i => rw [latest, if_pos h]

theorem latest_delete (hinsert : ∀ l, j = l + 1 → ¬fewest a b (i + 1) l < fewest a b (i + 1) j)
    (h : fewest a b i j < fewest a b (i + 1) j) :
    latest a b (i + 1) j = latest a b i j ++ [.delete i] := by
  cases j with
  | zero => rw [latest]
  | succ j => rw [latest, if_neg (hinsert j rfl), if_pos h]

theorem latest_keep (hinsert : ¬fewest a b (i + 1) j < fewest a b (i + 1) (j + 1))
    (hdelete : ¬fewest a b i (j + 1) < fewest a b (i + 1) (j + 1)) :
    latest a b (i + 1) (j + 1) = latest a b i j ++ [.keep i j] := by
  rw [latest, if_neg hinsert, if_neg hdelete]

/-- What the last step of the latest script is. -/
theorem latest_cases (a b : List α) (i j : Nat) :
    (i = 0 ∧ j = 0) ∨
    (∃ l, j = l + 1 ∧ fewest a b i l + 1 = fewest a b i j ∧
      latest a b i j = latest a b i l ++ [.insert l]) ∨
    (∃ l, i = l + 1 ∧ fewest a b l j + 1 = fewest a b i j ∧
      latest a b i j = latest a b l j ++ [.delete l]) ∨
    (∃ l r, i = l + 1 ∧ j = r + 1 ∧ Matches a b l r ∧ fewest a b l r = fewest a b i j ∧
      latest a b i j = latest a b l r ++ [.keep l r]) := by
  rcases j with _ | j
  · rcases i with _ | i
    · exact .inl ⟨rfl, rfl⟩
    · refine .inr (.inr (.inl ⟨i, rfl, by simp, latest_delete (fun l hl => by omega) (by simp)⟩))
  · by_cases hinsert : fewest a b i j < fewest a b i (j + 1)
    · have := fewest_insert_le a b i j
      exact .inr (.inl ⟨j, rfl, by omega, latest_insert hinsert⟩)
    · rcases i with _ | i
      · simp at hinsert
      · by_cases hdelete : fewest a b i (j + 1) < fewest a b (i + 1) (j + 1)
        · have := fewest_delete_le a b i (j + 1)
          refine .inr (.inr (.inl ⟨i, rfl, by omega, latest_delete (fun l hl => ?_) hdelete⟩))
          obtain rfl : j = l := Nat.succ.inj hl
          exact hinsert
        · obtain ⟨hm, heq⟩ := fewest_keep hinsert hdelete
          exact .inr (.inr (.inr ⟨i, j, rfl, rfl, hm, heq, latest_keep hinsert hdelete⟩))

end Latest

/-! ## Runs of edits -/

inductive Kind where
  | keep
  | delete
  | insert
  deriving DecidableEq

def Step.kind : Step → Kind
  | keep _ _ => .keep
  | delete _ => .delete
  | insert _ => .insert

/-- The edits of `steps` that do not go on with the kind of step before them, `last` before the first. -/
def runsAfter : Kind → List Step → Nat
  | _, [] => 0
  | last, step :: steps =>
    (if step.kind = .keep ∨ step.kind = last then 0 else 1) + runsAfter step.kind steps

/-- The number of maximal runs of deletions or of insertions. -/
def runs (steps : List Step) : Nat := runsAfter .keep steps

theorem runsAfter_le (last : Kind) (steps : List Step) : runsAfter last steps ≤ cost steps := by
  induction steps generalizing last with
  | nil => exact Nat.zero_le _
  | cons step steps ih =>
    have hrest := ih step.kind
    rw [runsAfter]
    cases step with
    | keep i j => simpa [Step.kind] using hrest
    | delete i =>
      rw [cost_delete]
      split_ifs <;> omega
    | insert j =>
      rw [cost_insert]
      split_ifs <;> omega

theorem runs_le (steps : List Step) : runs steps ≤ cost steps := runsAfter_le _ _

theorem cost_append (steps others : List Step) : cost (steps ++ others) = cost steps + cost others := by
  rw [cost, cost, cost, List.countP_append, List.countP_append]
  omega

theorem cost_latest [DecidableEq α] (a b : List α) (i j : Nat) :
    cost (latest a b i j) = fewest a b i j := by
  induction hn : i + j using Nat.strongRecOn generalizing i j with
  | ind n ih =>
    rcases latest_cases a b i j with ⟨rfl, rfl⟩ | ⟨l, rfl, hcost, heq⟩ | ⟨l, rfl, hcost, heq⟩ |
      ⟨l, r, rfl, rfl, -, hcost, heq⟩
    · rw [latest]
      simp
    · rw [heq, cost_append, ih _ (by omega) i l rfl, cost_insert, cost_nil]
      exact hcost
    · rw [heq, cost_append, ih _ (by omega) l j rfl, cost_delete, cost_nil]
      exact hcost
    · rw [heq, cost_append, ih _ (by omega) l r rfl, cost_keep, cost_nil]
      exact hcost

/-- The number of runs of the latest of the shortest scripts between two lists. -/
def latestRuns [DecidableEq α] (a b : List α) : Nat := runs (latest a b a.length b.length)

/-- There are no more runs than edits between the lists. -/
theorem latestRuns_le_fewest [DecidableEq α] (a b : List α) :
    latestRuns a b ≤ fewest a b a.length b.length :=
  Nat.le_trans (runs_le _) (Nat.le_of_eq (cost_latest a b _ _))

theorem latestRuns_le [DecidableEq α] (a b : List α) : latestRuns a b ≤ a.length + b.length :=
  Nat.le_trans (latestRuns_le_fewest a b) (fewest_le a b _ _)

end EditGraph
