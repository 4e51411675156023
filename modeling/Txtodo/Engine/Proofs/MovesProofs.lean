import Txtodo.Engine.Proofs.SidecarProofs
import Txtodo.Std.Patience
import Mathlib.Order.Bounds.Basic

/-!
# As few moves as possible

The chain `lis_indices` finds is a longest increasing one, so the matched lines outside it are as few as can
be; every matched line is unchanged, changed or moved.
-/

namespace Txtodo

open Patience

variable {seq : List Nat}

/-! ## The longest increasing subsequence -/

/-- The value at a position. -/
def valueAt (seq : List Nat) (i : Nat) : Nat := seq.getD i 0

/-- The links as a function. -/
def Piles.link (piles : Piles) (i : Nat) : Option Nat := piles.prev[i]?.join

theorem lisFrom_eq (prev : List (Option Nat)) (n : Nat) (cur : Option Nat) (lis : List Nat) :
    lisFrom prev n cur lis = Patience.back (fun i => prev[i]?.join) n cur lis := by
  induction n generalizing cur lis with
  | zero => rfl
  | succ n ih =>
    cases cur with
    | none => rfl
    | some i => exact ih _ _

/-- One turn of the loop keeps the piles of the positions so far. -/
theorem place_inv {piles : Piles} {n : Nat} {x : Nat} (hx : seq[n]? = some x) (hlen : piles.prev.length = n)
    (h : Inv (valueAt seq) n piles.tails piles.link) :
    (piles.place seq (x, n)).prev.length = n + 1 ∧
      Inv (valueAt seq) (n + 1) (piles.place seq (x, n)).tails (piles.place seq (x, n)).link := by
  have hvalue : x = valueAt seq n := by rw [valueAt, List.getD_eq_getElem?_getD, hx, Option.getD_some]
  subst hvalue
  refine ⟨by rw [Piles.place, List.length_append, hlen, List.length_singleton], h.place (fun i hi => ?_) ?_⟩
  · show ((piles.prev ++ _)[i]?).join = _
    rw [List.getElem?_append_left (hlen ▸ hi)]
    rfl
  · show ((piles.prev ++ _)[n]?).join = _
    rw [← hlen, List.getElem?_append_right le_rfl, Nat.sub_self, List.getElem?_cons_zero, Option.join_some]
    rfl

theorem piles_inv (n : Nat) (hn : n ≤ seq.length) :
    ∃ piles, (seq.take n).zipIdx.foldl (Piles.place seq) ⟨[], []⟩ = piles ∧ piles.prev.length = n ∧
      Inv (valueAt seq) n piles.tails piles.link := by
  induction n with
  | zero => exact ⟨⟨[], []⟩, rfl, rfl, Inv.nil _⟩
  | succ n ih =>
    obtain ⟨piles, hpiles, hlen, hinv⟩ := ih (by omega)
    have hx : seq[n]? = some seq[n] := List.getElem?_eq_getElem hn
    have htake : (seq.take n).length = n := by rw [List.length_take]; omega
    refine ⟨piles.place seq (seq[n], n), ?_, place_inv hx hlen hinv⟩
    rw [List.take_add_one, hx, Option.toList_some, List.zipIdx_append, List.foldl_append, hpiles, htake, Nat.zero_add]
    rfl

theorem lisIndices_spec (seq : List Nat) :
    Chain (valueAt seq) (lisIndices seq) ∧ (∀ i ∈ lisIndices seq, i < seq.length) ∧
      ∀ c, Chain (valueAt seq) c → (∀ i ∈ c, i < seq.length) → c.length ≤ (lisIndices seq).length := by
  obtain ⟨piles, hpiles, -, hinv⟩ := piles_inv seq.length le_rfl
  rw [List.take_length] at hpiles
  have hlis : lisIndices seq = Patience.back piles.link seq.length piles.tails.getLast? [] := by
    rw [lisIndices, hpiles, lisFrom_eq]
    rfl
  rw [hlis]
  exact hinv.longest

/-- The indices found are in order, and so are their values. -/
theorem lisIndices_increasing (seq : List Nat) :
    (lisIndices seq).Pairwise (· < ·) ∧ ((lisIndices seq).map (valueAt seq)).Pairwise (· < ·) := by
  have hchain := (lisIndices_spec seq).1
  exact ⟨hchain.imp And.left, List.pairwise_map.2 (hchain.imp And.right)⟩

/-- No increasing subsequence has more values. -/
theorem lisIndices_longest {sub : List Nat} (hsub : sub.Sublist seq) (hlt : sub.Pairwise (· < ·)) :
    sub.length ≤ (lisIndices seq).length := by
  obtain ⟨is, rfl, his⟩ := List.sublist_eq_map_getElem hsub
  rw [List.pairwise_map] at hlt
  have hvalue : ∀ i : Fin seq.length, valueAt seq i = seq[i] := fun i => by
    rw [valueAt, List.getD_eq_getElem?_getD, List.getElem?_eq_getElem i.isLt, Option.getD_some]
    rfl
  have hchain : Chain (valueAt seq) (is.map Fin.val) := by
    refine List.pairwise_map.2 ((his.and hlt).imp fun {i j} h => ⟨h.1, ?_⟩)
    rw [hvalue, hvalue]
    exact h.2
  have hbound := (lisIndices_spec seq).2.2 _ hchain fun i hi => by
    obtain ⟨k, -, rfl⟩ := List.mem_map.1 hi
    exact k.isLt
  rwa [List.length_map] at hbound ⊢

/-! ## Moves -/

/-- A matching of old tasks to new task lines: every task is there and has one line. -/
structure IsMatching (order : List (TaskId × Nat)) (rows : List Nat) (matched : List (TaskId × Nat)) : Prop where
  known : ∀ m ∈ matched, m.1 ∈ order.map Prod.fst
  row : ∀ m ∈ matched, m.2 < rows.length
  tasks : (matched.map Prod.fst).Nodup
  lines : (matched.map Prod.snd).Nodup

/-- The old task-line index of a task. -/
def oldIndex (order : List (TaskId × Nat)) (task : TaskId) : Nat := ((rowOf order task).getD (0, 0)).1

/-- The old and the new row of a matched pair. -/
def rowPair (order : List (TaskId × Nat)) (rows : List Nat) (m : TaskId × Nat) : Nat × Nat :=
  (((rowOf order m.1).getD (0, 0)).2, rows.getD m.2 0)

/-- Pairs that can all stay: the order of their old lines is that of their new ones. -/
def InOrder (order : List (TaskId × Nat)) (kept : List (TaskId × Nat)) : Prop :=
  ∀ a ∈ kept, ∀ b ∈ kept, oldIndex order a.1 < oldIndex order b.1 → a.2 < b.2

section Classify
variable {order matched : List (TaskId × Nat)} {rows : List Nat} {old new : File}

/-- Where a matched pair stands: old index and row, new index and row. -/
def spot (order : List (TaskId × Nat)) (rows : List Nat) (m : TaskId × Nat) : Nat × Nat × Nat × Nat :=
  (oldIndex order m.1, (rowPair order rows m).1, m.2, (rowPair order rows m).2)

theorem oldIndex_inj (h : IsMatching order rows matched) {a b : TaskId × Nat} (ha : a ∈ matched) (hb : b ∈ matched)
    (hindex : oldIndex order a.1 = oldIndex order b.1) : a = b := by
  obtain ⟨r, hr, htask⟩ := rowOf_known (h.known a ha)
  obtain ⟨s, hs, htask'⟩ := rowOf_known (h.known b hb)
  rw [oldIndex, oldIndex, hr, hs, Option.getD_some, Option.getD_some] at hindex
  rw [hindex, htask'] at htask
  exact List.inj_on_of_nodup_map h.tasks ha hb (congrArg Prod.fst (Option.some.inj htask)).symm

/-- The matched pairs' spots in old order. -/
def ordered (order : List (TaskId × Nat)) (rows : List Nat) (matched : List (TaskId × Nat)) :
    List (Nat × Nat × Nat × Nat) :=
  (matched.map (spot order rows)).insertionSort fun a b => a.1 ≤ b.1

theorem orderedPairs_eq (h : IsMatching order rows matched) :
    orderedPairs order rows matched = (ordered order rows matched).zipIdx.map fun x =>
      ((x.1.2.1, x.1.2.2.2), decide (x.2 ∈ lisIndices ((ordered order rows matched).map fun x => x.2.2.1))) := by
  have hmap : (matched.filterMap fun m => (rowOf order m.1).bind fun r =>
      rows[m.2]?.map fun row => (r.1, r.2, m.2, row)) = matched.map (spot order rows) := by
    rw [← List.filterMap_eq_map]
    refine List.filterMap_congr fun m hm => ?_
    obtain ⟨r, hr, -⟩ := rowOf_known (h.known m hm)
    rw [hr, Option.bind_some, List.getElem?_eq_getElem (h.row m hm), Option.map_some, Function.comp_apply, spot,
      rowPair, oldIndex, hr, Option.getD_some, List.getD_eq_getElem?_getD, List.getElem?_eq_getElem (h.row m hm),
      Option.getD_some]
  rw [orderedPairs, hmap]
  rfl

theorem ordered_perm (order matched : List (TaskId × Nat)) (rows : List Nat) :
    (ordered order rows matched).Perm (matched.map (spot order rows)) := List.perm_insertionSort _ _

theorem spot_inj (h : IsMatching order rows matched) {a b : TaskId × Nat} (ha : a ∈ matched) (hb : b ∈ matched)
    (hspot : spot order rows a = spot order rows b) : a = b := by
  have hindex : (spot order rows a).1 = (spot order rows b).1 := by rw [hspot]
  exact oldIndex_inj h ha hb hindex

theorem matched_nodup (h : IsMatching order rows matched) : matched.Nodup := List.Nodup.of_map _ h.tasks

/-- Old lines come strictly one after the other. -/
theorem ordered_pairwise (h : IsMatching order rows matched) :
    (ordered order rows matched).Pairwise fun a b => a.1 < b.1 := by
  have hsorted : (ordered order rows matched).Pairwise fun a b => a.1 ≤ b.1 :=
    List.pairwise_insertionSort _ _
  have hkeys : ((ordered order rows matched).map Prod.fst).Nodup := by
    refine ((ordered_perm order matched rows).map Prod.fst).nodup_iff.2 ?_
    rw [List.map_map]
    exact List.Nodup.map_on (fun a ha b hb hab => oldIndex_inj h ha hb hab) (matched_nodup h)
  exact (hsorted.and (List.pairwise_map.1 hkeys)).imp fun hab => lt_of_le_of_ne hab.1 hab.2

/-- As many entries are numbered from `l` as it has numbers. -/
theorem length_filter_zipIdx {α : Type*} (xs : List α) {l : List Nat} (hl : l.Nodup) (hlt : ∀ i ∈ l, i < xs.length) :
    (xs.zipIdx.filter fun x => x.2 ∈ l).length = l.length := by
  have hsnd : (xs.zipIdx.filter fun x => x.2 ∈ l).map Prod.snd = (List.range xs.length).filter (· ∈ l) := by
    rw [List.range_eq_range', ← List.zipIdx_map_snd 0 xs, List.filter_map]
    rfl
  have hperm : ((List.range xs.length).filter (· ∈ l)).Perm l := by
    refine (List.perm_ext_iff_of_nodup (List.nodup_range.filter _) hl).2 fun i => ?_
    rw [List.mem_filter, List.mem_range, decide_eq_true_eq]
    exact ⟨And.right, fun hi => ⟨hlt i hi, hi⟩⟩
  rw [← hperm.length_eq, ← hsnd, List.length_map]

/-- The increasing positions found among the spots' new indices. -/
def stay (order : List (TaskId × Nat)) (rows : List Nat) (matched : List (TaskId × Nat)) : List Nat :=
  lisIndices ((ordered order rows matched).map fun x => x.2.2.1)

/-- The spots at these positions. -/
def stayed (order : List (TaskId × Nat)) (rows : List Nat) (matched : List (TaskId × Nat)) :
    List (Nat × Nat × Nat × Nat) :=
  ((ordered order rows matched).zipIdx.filter fun x => x.2 ∈ stay order rows matched).map Prod.fst

theorem stay_spec (order matched : List (TaskId × Nat)) (rows : List Nat) :
    (stay order rows matched).Nodup ∧ ∀ i ∈ stay order rows matched, i < (ordered order rows matched).length := by
  have hlt := (lisIndices_spec ((ordered order rows matched).map fun x => x.2.2.1)).2.1
  rw [List.length_map] at hlt
  exact ⟨(lisIndices_increasing _).1.imp Nat.ne_of_lt, hlt⟩

theorem length_stayed (order matched : List (TaskId × Nat)) (rows : List Nat) :
    (stayed order rows matched).length = (stay order rows matched).length := by
  obtain ⟨hnodup, hlt⟩ := stay_spec order matched rows
  rw [stayed, List.length_map, length_filter_zipIdx _ hnodup hlt]

/-- What does not stay moves. -/
theorem moves_length (h : IsMatching order rows matched) :
    (movesOf (orderedPairs order rows matched)).length + (stayed order rows matched).length = matched.length := by
  have hall : (ordered order rows matched).zipIdx.length = matched.length := by
    rw [List.length_zipIdx, (ordered_perm order matched rows).length_eq, List.length_map]
  have hmoves : (movesOf (orderedPairs order rows matched)).length =
      ((ordered order rows matched).zipIdx.filter fun x => !decide (x.2 ∈ stay order rows matched)).length := by
    rw [movesOf, orderedPairs_eq h, List.length_map, List.filter_map, List.length_map]
    rfl
  rw [hmoves, stayed, List.length_map, Nat.add_comm, ← hall]
  exact (List.length_eq_length_filter_add _).symm

theorem valueAt_ordered {x : Nat × Nat × Nat × Nat} {i : Nat} (hi : (ordered order rows matched)[i]? = some x) :
    valueAt ((ordered order rows matched).map fun x => x.2.2.1) i = x.2.2.1 := by
  rw [valueAt, List.getD_eq_getElem?_getD, List.getElem?_map, hi, Option.map_some, Option.getD_some]

/-- Spots further on have a larger old index. -/
theorem ordered_lt (h : IsMatching order rows matched) {x y : Nat × Nat × Nat × Nat} {i j : Nat}
    (hi : (ordered order rows matched)[i]? = some x) (hj : (ordered order rows matched)[j]? = some y) (hlt : i < j) :
    x.1 < y.1 := by
  obtain ⟨hil, rfl⟩ := List.getElem?_eq_some_iff.1 hi
  obtain ⟨hjl, rfl⟩ := List.getElem?_eq_some_iff.1 hj
  exact List.pairwise_iff_getElem.1 (ordered_pairwise h) i j hil hjl hlt

/-- Two spots that stay are in order. -/
theorem stayed_inOrder {a b : Nat × Nat × Nat × Nat} (h : IsMatching order rows matched)
    (ha : a ∈ stayed order rows matched) (hb : b ∈ stayed order rows matched) (hlt : a.1 < b.1) :
    a.2.2.1 < b.2.2.1 := by
  obtain ⟨⟨x, i⟩, hx, rfl⟩ := List.mem_map.1 ha
  obtain ⟨⟨y, j⟩, hy, rfl⟩ := List.mem_map.1 hb
  obtain ⟨hxi, hi⟩ := List.mem_filter.1 hx
  obtain ⟨hyj, hj⟩ := List.mem_filter.1 hy
  have hgeti := List.mem_zipIdx_iff_getElem?.1 hxi
  have hgetj := List.mem_zipIdx_iff_getElem?.1 hyj
  have hij : i < j := by
    rcases Nat.lt_trichotomy i j with hij | rfl | hji
    · exact hij
    · rw [hgeti] at hgetj
      cases hgetj
      exact absurd hlt (lt_irrefl _)
    · exact absurd hlt (ordered_lt h hgetj hgeti hji).not_gt
  have hchain := (lisIndices_spec ((ordered order rows matched).map fun x => x.2.2.1)).1
  have hvalue := hchain.value_lt (of_decide_eq_true hi) (of_decide_eq_true hj) hij
  rwa [valueAt_ordered hgeti, valueAt_ordered hgetj] at hvalue

/-- As many spots stay as can: those of pairs in order are no more. -/
theorem length_le_of_inOrder (h : IsMatching order rows matched) {kept : List (TaskId × Nat)} (hkept : kept.Nodup)
    (hsub : kept ⊆ matched) (hin : InOrder order kept) : kept.length ≤ (stayed order rows matched).length := by
  have hspots : (kept.map (spot order rows)).Nodup :=
    List.Nodup.map_on (fun a ha b hb hab => spot_inj h (hsub ha) (hsub hb) hab) hkept
  generalize hfound : (ordered order rows matched).filter (fun x => x ∈ kept.map (spot order rows)) = found
  have hmem : kept.map (spot order rows) ⊆ found := by
    intro x hx
    rw [← hfound]
    refine List.mem_filter.2 ⟨?_, decide_eq_true hx⟩
    exact (ordered_perm order matched rows).mem_iff.2 (List.map_subset _ hsub hx)
  have hle := (List.subperm_of_subset hspots hmem).length_le
  have hfrom : found.Sublist (ordered order rows matched) := hfound ▸ List.filter_sublist
  have hlt : (found.map fun x => x.2.2.1).Pairwise (· < ·) := by
    refine List.pairwise_map.2 (((ordered_pairwise h).sublist hfrom).imp_of_mem fun {x y} hx hy hxy => ?_)
    rw [← hfound] at hx hy
    obtain ⟨a, ha, rfl⟩ := List.mem_map.1 (of_decide_eq_true (List.mem_filter.1 hx).2)
    obtain ⟨b, hb, rfl⟩ := List.mem_map.1 (of_decide_eq_true (List.mem_filter.1 hy).2)
    exact hin a ha b hb hxy
  have hlong := lisIndices_longest (hfrom.map fun x => x.2.2.1) hlt
  rw [List.length_map] at hle hlong
  rw [length_stayed]
  exact hle.trans hlong

/-- The pairs that stay. -/
def keptPairs (order : List (TaskId × Nat)) (rows : List Nat) (matched : List (TaskId × Nat)) :
    List (TaskId × Nat) := matched.filter fun m => spot order rows m ∈ stayed order rows matched

theorem stayed_sublist (order matched : List (TaskId × Nat)) (rows : List Nat) :
    (stayed order rows matched).Sublist (ordered order rows matched) := by
  have hfst : (ordered order rows matched).zipIdx.map Prod.fst = ordered order rows matched :=
    List.zipIdx_map_fst 0 _
  rw [stayed]
  conv_rhs => rw [← hfst]
  exact List.filter_sublist.map _

theorem length_keptPairs (h : IsMatching order rows matched) :
    (keptPairs order rows matched).length = (stayed order rows matched).length := by
  have hordered : (ordered order rows matched).Nodup := (ordered_pairwise h).imp fun hab heq => by
    rw [heq] at hab
    exact lt_irrefl _ hab
  have hkept : ((keptPairs order rows matched).map (spot order rows)).Nodup := by
    refine List.Nodup.map_on (fun a ha b hb hab => ?_) ((matched_nodup h).filter _)
    exact spot_inj h (List.mem_filter.1 ha).1 (List.mem_filter.1 hb).1 hab
  have hperm : ((keptPairs order rows matched).map (spot order rows)).Perm (stayed order rows matched) := by
    refine (List.perm_ext_iff_of_nodup hkept (hordered.sublist (stayed_sublist order matched rows))).2 fun x => ?_
    constructor
    · intro hx
      obtain ⟨m, hm, rfl⟩ := List.mem_map.1 hx
      exact of_decide_eq_true (List.mem_filter.1 hm).2
    · intro hx
      have hspot := (ordered_perm order matched rows).mem_iff.1 ((stayed_sublist order matched rows).subset hx)
      obtain ⟨m, hm, rfl⟩ := List.mem_map.1 hspot
      exact List.mem_map_of_mem (List.mem_filter.2 ⟨hm, decide_eq_true hx⟩)
  rw [← hperm.length_eq, List.length_map]

theorem keptPairs_inOrder (h : IsMatching order rows matched) : InOrder order (keptPairs order rows matched) := by
  intro a ha b hb hlt
  exact stayed_inOrder h (of_decide_eq_true (List.mem_filter.1 ha).2) (of_decide_eq_true (List.mem_filter.1 hb).2) hlt

/-- The rows of the pairs in order whose bytes are equal. -/
def unchangedOf (old new : File) (pairs : List ((Nat × Nat) × Bool)) : List (Nat × Nat) :=
  (pairs.filter fun p => p.2 &&
    (lineAt old p.1.1).map OwnedLine.bytes = (lineAt new p.1.2).map OwnedLine.bytes).map (·.1)

/-- Every pair is in one list, once. -/
theorem classes_perm (old new : File) (pairs : List ((Nat × Nat) × Bool)) :
    (unchangedOf old new pairs ++ changesOf old new pairs ++ movesOf pairs).Perm (pairs.map Prod.fst) := by
  let same (p : (Nat × Nat) × Bool) : Bool :=
    (lineAt old p.1.1).map OwnedLine.bytes = (lineAt new p.1.2).map OwnedLine.bytes
  have hunchanged : unchangedOf old new pairs = ((pairs.filter (·.2)).filter same).map Prod.fst := by
    rw [unchangedOf, List.filter_filter]
    exact congrArg _ (List.filter_congr fun p _ => Bool.and_comm _ _)
  have hchanged : changesOf old new pairs = ((pairs.filter (·.2)).filter fun p => !same p).map Prod.fst := by
    rw [changesOf, List.filter_filter]
    refine congrArg _ (List.filter_congr fun p _ => ?_)
    rw [decide_not, Bool.and_comm]
  rw [hunchanged, hchanged, movesOf, ← List.map_append, ← List.map_append]
  exact (((List.filter_append_perm same _).append_right _).trans (List.filter_append_perm (·.2) pairs)).map _

theorem orderedPairs_perm (h : IsMatching order rows matched) :
    ((orderedPairs order rows matched).map Prod.fst).Perm (matched.map (rowPair order rows)) := by
  have hfst : (orderedPairs order rows matched).map Prod.fst =
      (ordered order rows matched).map fun x => (x.2.1, x.2.2.2) := by
    rw [orderedPairs_eq h, List.map_map]
    conv_rhs => rw [← List.zipIdx_map_fst 0 (ordered order rows matched), List.map_map]
    rfl
  rw [hfst]
  refine ((ordered_perm order matched rows).map _).trans (.of_eq ?_)
  rw [List.map_map]
  rfl

end Classify

/-- What the move detector reports of a matching. -/
structure Reports (order : List (TaskId × Nat)) (rows : List Nat) (matched : List (TaskId × Nat)) (old new : File)
    (c : Classified) : Prop where
  /-- The moves are as few as any choice of pairs that stay in order leaves. -/
  least : IsLeast {n | ∃ kept, kept.Nodup ∧ kept ⊆ matched ∧ InOrder order kept ∧ n + kept.length = matched.length}
    c.moves.length
  /-- Every matched pair is unchanged, changed or moved, once. -/
  once : ∃ unchanged, (unchanged ++ c.changes ++ c.moves).Perm (matched.map (rowPair order rows)) ∧
    (∀ p ∈ unchanged, (lineAt old p.1).map OwnedLine.bytes = (lineAt new p.2).map OwnedLine.bytes) ∧
    ∀ p ∈ c.changes, (lineAt old p.1).map OwnedLine.bytes ≠ (lineAt new p.2).map OwnedLine.bytes

/-- **The move detector keeps as many lines in place as possible**: the indices found and their values
increase, no increasing subsequence is longer, and of every matching the fewest possible pairs are moved. -/
theorem moves_least :
    (∀ seq : List Nat, (lisIndices seq).Pairwise (· < ·) ∧ (∀ i ∈ lisIndices seq, i < seq.length) ∧
      ((lisIndices seq).map (valueAt seq)).Pairwise (· < ·) ∧
      ∀ sub : List Nat, sub.Sublist seq → sub.Pairwise (· < ·) → sub.length ≤ (lisIndices seq).length) ∧
    ∀ order rows matched old new, IsMatching order rows matched →
      Reports order rows matched old new (classifyMatched matched order rows old new) := by
  refine ⟨fun seq => ?_, fun order rows matched old new h => ⟨⟨?_, ?_⟩, ?_⟩⟩
  · obtain ⟨hindices, hvalues⟩ := lisIndices_increasing seq
    exact ⟨hindices, (lisIndices_spec seq).2.1, hvalues, fun sub hsub hlt => lisIndices_longest hsub hlt⟩
  · refine ⟨keptPairs order rows matched, (matched_nodup h).filter _, List.filter_subset_self _, keptPairs_inOrder h, ?_⟩
    rw [length_keptPairs h]
    exact moves_length h
  · rintro n ⟨kept, hkept, hsub, hin, hn⟩
    have hmoves := moves_length h
    have hle := length_le_of_inOrder h hkept hsub hin
    show (movesOf (orderedPairs order rows matched)).length ≤ n
    omega
  · refine ⟨unchangedOf old new (orderedPairs order rows matched),
      (classes_perm old new _).trans (orderedPairs_perm h), fun p hp => ?_, fun p hp => ?_⟩
    · obtain ⟨x, hx, rfl⟩ := List.mem_map.1 hp
      exact of_decide_eq_true (Bool.and_eq_true _ _ ▸ (List.mem_filter.1 hx).2).2
    · obtain ⟨x, hx, rfl⟩ := List.mem_map.1 hp
      exact of_decide_eq_true (Bool.and_eq_true _ _ ▸ (List.mem_filter.1 hx).2).2

namespace ThreeLines

def task (n : Fin 4) : TaskId := ⟨⟨n, n.isLt.trans (by decide)⟩⟩

def file (lines : List String) : File := ⟨lines.map fun l => .ofText l.toList .lf, false, .lf, true⟩

def order : List (TaskId × Nat) := [(task 1, 0), (task 2, 1), (task 3, 2)]

def matched : List (TaskId × Nat) := [(task 1, 2), (task 2, 0), (task 3, 1)]

def old : File := file ["a", "b", "c"]

def new : File := file ["b", "c", "a"]

end ThreeLines

open ThreeLines in
/-- Three lines, the first taken to the end: it alone is moved. -/
theorem moves_least_of_three :
    Reports order [0, 1, 2] matched old new (classifyMatched matched order [0, 1, 2] old new) ∧
      (classifyMatched matched order [0, 1, 2] old new).moves = [(0, 2)] :=
  ⟨moves_least.2 _ _ _ _ _ ⟨by decide, by decide, by decide, by decide⟩, by decide⟩

end Txtodo
