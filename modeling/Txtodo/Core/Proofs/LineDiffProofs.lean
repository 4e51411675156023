import Txtodo.Core.Diff
import Txtodo.Core.Proofs.MyersProofs
import Txtodo.Core.LineDiff

/-!
# A line diff is complete and minimal

Each step over the keys becomes one step over the lines, and a deletion paired with an insertion still names
one line of each file. What is paired was never kept, so the lines that stay in place are those of the search.
-/

/-!
## The search stays inside its arrays

A vector of the search holds one entry for each diagonal from `-max` to `max + 1`. No round reads or writes
another one, so the search over vectors is the search over diagonals.
-/

namespace Txtodo

open EditGraph

/-- The vector of a function on diagonals. -/
def table (max : Nat) (w : Diagonals) : List Nat := (List.range (2 * max + 2)).map fun (i : Nat) => w ((i : Int) - max)

section Entries
variable {max d : Nat} {w : Diagonals} {k : Int}

theorem entryAt_table (hlo : -max ≤ k) (hhi : k ≤ max + 1) : entryAt (table max w) (k + max) = some (w k) := by
  obtain ⟨i, hi⟩ := Int.eq_ofNat_of_zero_le (show 0 ≤ k + max by omega)
  have hlt : i < 2 * max + 2 := by omega
  have hk : k = i - max := by omega
  rw [entryAt, if_neg (by omega), hi, Int.toNat_natCast, table, List.getElem?_map, List.getElem?_range hlt, hk]
  rfl

theorem setAt_table (x : Nat) (hlo : -max ≤ k) (hhi : k ≤ max + 1) :
    setAt (table max w) (k + max) x = some (table max (Function.update w k x)) := by
  obtain ⟨i, hi⟩ := Int.eq_ofNat_of_zero_le (show 0 ≤ k + max by omega)
  have hlt : i < 2 * max + 2 := by omega
  have hk : k = i - max := by omega
  have hlen : (table max w).length = 2 * max + 2 := by rw [table, List.length_map, List.length_range]
  rw [setAt, hi, Int.toNat_natCast, hlen, if_neg (by omega)]
  congr 1
  refine List.ext_getElem? fun j => ?_
  rw [List.getElem?_set, hlen, table, table, List.getElem?_map, List.getElem?_map]
  by_cases hij : i = j
  · subst hij
    rw [if_pos rfl, if_pos hlt, List.getElem?_range hlt, Option.map_some, hk, Function.update_self]
  · rw [if_neg hij]
    by_cases hj : j < 2 * max + 2
    · rw [List.getElem?_range hj, Option.map_some, Option.map_some, Function.update_of_ne (by omega)]
    · rw [List.getElem?_eq_none (by rw [List.length_range]; omega)]
      rfl

theorem stepsDownAt_table (hd : d ≤ max) (hlo : -(d : Int) ≤ k) (hhi : k ≤ d) :
    stepsDownAt (table max w) max d k = some (stepsDown w d k) := by
  rw [stepsDownAt, stepsDown]
  by_cases hfirst : k = -d
  · rw [if_pos hfirst]
    simp [hfirst]
  · rw [if_neg hfirst]
    by_cases hlast : k = d
    · rw [if_pos hlast]
      simp [hlast]
      omega
    · have hl : entryAt (table max w) (k - 1 + max) = some (w (k - 1)) := entryAt_table (by omega) (by omega)
      have hr : entryAt (table max w) (k + 1 + max) = some (w (k + 1)) := entryAt_table (by omega) (by omega)
      have hl' : k + max - 1 = k - 1 + max := by omega
      have hr' : k + max + 1 = k + 1 + max := by omega
      rw [if_neg hlast, hl', hr', hl, hr, Option.bind_some, Option.map_some]
      simp [hfirst, hlast]

theorem replicate_eq_table : List.replicate (2 * max + 2) 0 = table max fun _ => 0 := by
  rw [table, List.map_const', List.length_range]

end Entries

section Search
variable {α : Type} [DecidableEq α] {a b : List α} {max d : Nat} {k : Int}

/-- A round enters a diagonal in the same place while its vector is being filled. -/
theorem filled_beside (h : OnRound d k) : filled a b d k (k - 1) = furthest a b d (k - 1) ∧
    filled a b d k (k + 1) = furthest a b d (k + 1) := by
  obtain ⟨hlo, hhi, hpar⟩ := h
  have hother : ∀ k' : Int, (k' + d) % 2 = 1 → filled a b d k k' = furthest a b d k' := by
    intro k' hk'
    apply if_neg
    rintro ⟨⟨-, -, hpar'⟩, -⟩
    omega
  exact ⟨hother _ (by omega), hother _ (by omega)⟩

theorem reachAt_table (h : OnRound d k) (hd : d ≤ max) :
    reachAt a b (table max (filled a b d k)) max d k = some (reach a b (filled a b d k) d k) := by
  obtain ⟨hdn, hup⟩ := filled_beside (a := a) (b := b) h
  have hdown : stepsDown (filled a b d k) d k = stepsDown (furthest a b d) d k := by
    rw [stepsDown, stepsDown, hdn, hup]
  have hrow := (entry_bounds (a := a) (b := b) h).1
  obtain ⟨hlo, hhi, hpar⟩ := h
  rw [reachAt, stepsDownAt_table hd hlo hhi, Option.bind_some, reach, hdown]
  rw [entry] at hrow
  dsimp only at hrow ⊢
  cases hstep : stepsDown (furthest a b d) d k with
  | true =>
    have hread : entryAt (table max (filled a b d k)) (k + max + 1) = some (furthest a b d (k + 1)) := by
      have hk : k + max + 1 = k + 1 + max := by omega
      rw [hk, entryAt_table (by omega) (by omega), hup]
    rw [hstep] at hrow
    rw [if_pos rfl] at hrow ⊢
    rw [if_pos rfl, hread, Option.bind_some, if_neg (by omega), hup]
  | false =>
    have hfirst : k ≠ -d := fun heq => by simp [stepsDown, heq] at hstep
    have hread : entryAt (table max (filled a b d k)) (k + max - 1) = some (furthest a b d (k - 1)) := by
      have hk : k + max - 1 = k - 1 + max := by omega
      rw [hk, entryAt_table (by omega) (by omega), hdn]
    rw [hstep] at hrow
    rw [if_neg Bool.false_ne_true] at hrow ⊢
    rw [if_neg Bool.false_ne_true, hread, Option.map_some, Option.bind_some, if_neg (by omega), hdn]

/-- A round reads and writes its own diagonals and the ones beside them. -/
theorem sweepAt_table (a b : List α) (rounds : Nat) {d : Nat} {k : Int} (hd : d ≤ max) (hr : rounds ≤ d + 1)
    (hk : k = d + 2 - 2 * rounds) :
    sweepAt a b max d rounds k (table max (filled a b d k)) =
      some ((sweep a b d rounds k (filled a b d k)).map (table max)) := by
  induction rounds generalizing k with
  | zero => rfl
  | succ rounds ih =>
    have hon : OnRound d k := ⟨by omega, by omega, by omega⟩
    have hset := @setAt_table max (filled a b d k) k (tip a b d k) (by omega) (by omega)
    rw [sweepAt, reachAt_table hon hd, reach_filled hon, Option.bind_some, sweep, reach_filled hon]
    rw [filled_next hon] at hset
    dsimp only
    rw [show (reach a b (furthest a b d) d k).1 = tip a b d k from rfl, hset, Option.bind_some,
      filled_next hon]
    split_ifs with hend
    · rfl
    · exact ih (by omega) (by omega)

/-- The walk back reads only entries of the rounds it passes, and stays in the grid. -/
def InGrid (max : Nat) : List Diagonals → Int → Int → Prop
  | [], _, _ => True
  | v :: trace, x, y =>
    trace.length ≤ max ∧ -(trace.length : Int) ≤ x - y ∧ x - y ≤ trace.length ∧
      (0 < trace.length →
        let prevK := if stepsDown v trace.length (x - y) then x - y + 1 else x - y - 1
        prevK ≤ v prevK ∧ InGrid max trace (v prevK) (v prevK - prevK))

theorem backtrackAt_table {trace : List Diagonals} {x y : Int} (h : InGrid max trace x y) (steps : List Step) :
    backtrackAt max (trace.map (table max)) x y steps = some (backtrack trace x y steps) := by
  induction trace generalizing x y steps with
  | nil => rfl
  | cons v trace ih =>
    obtain ⟨hmax, hlo, hhi, hprev⟩ := h
    rw [List.map_cons, backtrackAt, List.length_map]
    dsimp only
    rw [stepsDownAt_table hmax hlo hhi, Option.bind_some]
    by_cases hzero : trace.length = 0
    · rw [if_pos hzero, backtrack]
      dsimp only
      rw [if_pos hzero, if_neg (by omega)]
    · have hpos := Nat.pos_of_ne_zero hzero
      obtain ⟨hrow, hgrid⟩ := hprev hpos
      rw [if_neg hzero]
      cases hdown : stepsDown v trace.length (x - y) with
      | true =>
        rw [hdown, if_pos rfl] at hrow hgrid
        rw [backtrack_insert v trace x y steps hpos hdown]
        simp only [↓reduceIte]
        rw [entryAt_table (by omega) (by omega), Option.bind_some, if_neg (by omega)]
        exact ih hgrid _
      | false =>
        have hfirst : x - y ≠ -(trace.length : Int) := fun heq => by simp [stepsDown, heq] at hdown
        rw [hdown, if_neg Bool.false_ne_true] at hrow hgrid
        rw [backtrack_delete v trace x y steps hpos hdown]
        simp only [Bool.false_eq_true, ↓reduceIte]
        rw [entryAt_table (by omega) (by omega), Option.bind_some, if_neg (by omega)]
        exact ih hgrid _

theorem inGrid_recorded (h : OnRound d k) (hd : d ≤ max) {y : Int} (hy : y = tip a b d k - k) :
    InGrid max (recorded a b (d + 1)) (tip a b d k) y := by
  induction d generalizing k y with
  | zero =>
    obtain rfl := onRound_zero h
    exact ⟨hd, by rw [length_recorded]; omega, by rw [length_recorded]; omega,
      fun hlt => absurd hlt (Nat.lt_irrefl _)⟩
  | succ d ih =>
    have hk : (tip a b (d + 1) k : Int) - y = k := by omega
    have hlen := length_recorded a b (d + 1)
    obtain ⟨hlo, hhi, -⟩ := id h
    refine ⟨by omega, by omega, by omega, fun _ => ?_⟩
    rw [hlen, hk]
    rcases entry_cases (a := a) (b := b) h with ⟨hdown, hon, -⟩ | ⟨hdown, hon, -⟩
    · rw [hdown, if_pos rfl]
      dsimp only
      rw [furthest_succ_on hon]
      exact ⟨tip_row hon, ih hon (by omega) rfl⟩
    · rw [hdown, if_neg Bool.false_ne_true]
      dsimp only
      rw [furthest_succ_on hon]
      exact ⟨tip_row hon, ih hon (by omega) rfl⟩

theorem searchAt_table (a b : List α) (rounds : Nat) {d : Nat} (hmax : max = a.length + b.length)
    (hr : rounds + d = max + 1) (hfirst : ∀ e < d, ∀ k, OnRound e k → ¬Ends a b e k) :
    searchAt a b max rounds d (table max (furthest a b d)) ((recorded a b d).map (table max)) =
      searchFrom a b rounds d (furthest a b d) (recorded a b d) := by
  induction rounds generalizing d with
  | zero => rfl
  | succ rounds ih =>
    have hsweepAt := sweepAt_table a b (d + 1) (by omega : d ≤ max) le_rfl (by omega : -(d : Int) = _)
    have hsweep := sweep_spec a b (d + 1) (le_refl _) (by omega : -(d : Int) = _)
    rw [filled_start] at hsweepAt hsweep
    rw [searchAt, hsweepAt, Option.bind_some, searchFrom]
    rcases hsweep with ⟨hnone, k, hon, hend⟩ | ⟨hsome, hno⟩
    · obtain ⟨hx, hy⟩ := first_end hon hend hfirst
      have hgrid := inGrid_recorded hon (by omega : d ≤ max) hy.symm
      rw [hx] at hgrid
      rw [hnone]
      exact backtrackAt_table hgrid []
    · rw [hsome]
      refine @ih (d + 1) (by omega) ?_
      intro e he k hon
      by_cases hed : e = d
      · subst hed
        exact hno k hon hon.1
      · exact hfirst e (by omega) k hon

/-- No index of the search is out of its arrays. -/
theorem myersAt_eq (a b : List α) : myersAt a b = myers a b := by
  rw [myersAt, replicate_eq_table]
  exact searchAt_table a b _ rfl rfl fun e he => absurd he (Nat.not_lt_zero e)

end Search

end Txtodo

namespace Txtodo

open EditGraph

namespace LineDiff

/-- The line of the old file a step names. -/
def old : LineDiff → Option Nat
  | keep i _ => some i
  | insert _ => none
  | delete i => some i
  | change i _ => some i
  | move i _ => some i

/-- The line of the new file a step names. -/
def new : LineDiff → Option Nat
  | keep _ j => some j
  | insert j => some j
  | delete _ => none
  | change _ j => some j
  | move _ j => some j

/-- The lines that are paired without being moved. -/
def inPlace : LineDiff → Option (Nat × Nat)
  | keep i j => some (i, j)
  | change i j => some (i, j)
  | _ => none

end LineDiff

/-! ## What is picked out of a list that changes in one place -/

section Pick
variable {α β : Type} {f : α → Option β} {l : List α} {i : Nat} {x y : α} {b : β}

theorem filterMap_set_same (h : l[i]? = some x) (hf : f y = f x) : (l.set i y).filterMap f = l.filterMap f := by
  induction l generalizing i with
  | nil => cases h
  | cons a l ih =>
    cases i with
    | zero =>
      obtain rfl := Option.some_inj.1 h
      rw [List.set_cons_zero, List.filterMap_cons, List.filterMap_cons, hf]
    | succ i => rw [List.set_cons_succ, List.filterMap_cons, List.filterMap_cons, ih h]

theorem filterMap_eraseIdx_none (h : l[i]? = some x) (hf : f x = none) :
    (l.eraseIdx i).filterMap f = l.filterMap f := by
  induction l generalizing i with
  | nil => cases h
  | cons a l ih =>
    cases i with
    | zero =>
      obtain rfl := Option.some_inj.1 h
      rw [List.eraseIdx_cons_zero, List.filterMap_cons_none hf]
    | succ i => rw [List.eraseIdx_cons_succ, List.filterMap_cons, List.filterMap_cons, ih h]

theorem filterMap_set_new (h : l[i]? = some x) (hx : f x = none) (hy : f y = some b) :
    ((l.set i y).filterMap f).Perm (b :: l.filterMap f) := by
  induction l generalizing i with
  | nil => cases h
  | cons a l ih =>
    cases i with
    | zero =>
      obtain rfl := Option.some_inj.1 h
      rw [List.set_cons_zero, List.filterMap_cons_some hy, List.filterMap_cons_none hx]
    | succ i =>
      rw [List.set_cons_succ]
      cases ha : f a with
      | none =>
        rw [List.filterMap_cons_none ha, List.filterMap_cons_none ha]
        exact ih h
      | some c =>
        rw [List.filterMap_cons_some ha, List.filterMap_cons_some ha]
        exact ((ih h).cons c).trans (.swap b c _)

theorem filterMap_eraseIdx_some (h : l[i]? = some x) (hf : f x = some b) :
    (b :: (l.eraseIdx i).filterMap f).Perm (l.filterMap f) := by
  induction l generalizing i with
  | nil => cases h
  | cons a l ih =>
    cases i with
    | zero =>
      obtain rfl := Option.some_inj.1 h
      rw [List.eraseIdx_cons_zero, List.filterMap_cons_some hf]
    | succ i =>
      rw [List.eraseIdx_cons_succ]
      cases ha : f a with
      | none =>
        rw [List.filterMap_cons_none ha, List.filterMap_cons_none ha]
        exact ih h
      | some c =>
        rw [List.filterMap_cons_some ha, List.filterMap_cons_some ha]
        exact (List.Perm.swap c b _).trans ((ih h).cons c)

end Pick

/-! ## Pairing moves -/

section Pairing
variable {ka kb : List Key} {out : List LineDiff}

/-- What pairing deletions with insertions leaves as it was. -/
structure Pairs (ka kb : List Key) (out out' : List LineDiff) : Prop where
  olds : out'.filterMap LineDiff.old = out.filterMap LineDiff.old
  news : (out'.filterMap LineDiff.new).Perm (out.filterMap LineDiff.new)
  inPlace : out'.filterMap LineDiff.inPlace = out.filterMap LineDiff.inPlace
  keeps : ∀ i j, .keep i j ∈ out' → .keep i j ∈ out
  changes : ∀ i j, .change i j ∈ out' → .change i j ∈ out
  moves : ∀ i j, .move i j ∈ out' → .move i j ∈ out ∨ ∃ id, ka[i]? = some (.id id) ∧ kb[j]? = some (.id id)

theorem Pairs.refl (ka kb : List Key) (out : List LineDiff) : Pairs ka kb out out :=
  ⟨rfl, .refl _, rfl, fun _ _ h => h, fun _ _ h => h, fun _ _ h => .inl h⟩

theorem Pairs.trans {out' out'' : List LineDiff} (h : Pairs ka kb out out') (h' : Pairs ka kb out' out'') :
    Pairs ka kb out out'' where
  olds := h'.olds.trans h.olds
  news := h'.news.trans h.news
  inPlace := h'.inPlace.trans h.inPlace
  keeps i j hmem := h.keeps i j (h'.keeps i j hmem)
  changes i j hmem := h.changes i j (h'.changes i j hmem)
  moves i j hmem := (h'.moves i j hmem).elim (h.moves i j) .inr

theorem insertedAt_spec {old j new : Nat} (h : insertedAt ka kb out old = some (j, new)) :
    out[j]? = some (.insert new) ∧ ∃ id, ka[old]? = some (.id id) ∧ kb[new]? = some (.id id) := by
  unfold insertedAt at h
  split at h
  · rename_i id hid
    obtain ⟨j', hfind, h⟩ := Option.bind_eq_some_iff.1 h
    obtain ⟨hlt, hfound, -⟩ := List.findIdx?_eq_some_iff_getElem.1 hfind
    have hget : out[j']? = some out[j'] := List.getElem?_eq_getElem hlt
    split at h
    · rename_i new' hnew
      obtain ⟨rfl, rfl⟩ := Prod.mk.inj (Option.some_inj.1 h)
      rw [hget, Option.some_inj] at hnew
      rw [hnew] at hfound hget
      exact ⟨hget, id, hid, by simpa using hfound⟩
    · cases h
  · cases h

/-- One deletion becomes a move, and the insertion is dropped. -/
theorem Pairs.pair {i j old new : Nat} (hdelete : out[i]? = some (.delete old))
    (hinserted : insertedAt ka kb out old = some (j, new)) :
    Pairs ka kb out ((out.set i (.move old new)).eraseIdx j) := by
  obtain ⟨hinsert, hid⟩ := insertedAt_spec hinserted
  have hij : i ≠ j := by
    rintro rfl
    rw [hdelete] at hinsert
    cases hinsert
  have hset : (out.set i (.move old new))[j]? = some (.insert new) := by
    rw [List.getElem?_set_ne hij, hinsert]
  have hmem : ∀ step, step ∈ (out.set i (.move old new)).eraseIdx j → step ∈ out ∨ step = .move old new :=
    fun step h => List.mem_or_eq_of_mem_set (List.mem_of_mem_eraseIdx h)
  constructor
  · rw [filterMap_eraseIdx_none hset rfl]
    exact filterMap_set_same hdelete rfl
  · have hnew : ((out.set i (.move old new)).filterMap LineDiff.new).Perm (new :: out.filterMap LineDiff.new) :=
      filterMap_set_new hdelete rfl rfl
    have herase : (new :: ((out.set i (.move old new)).eraseIdx j).filterMap LineDiff.new).Perm
        ((out.set i (.move old new)).filterMap LineDiff.new) := filterMap_eraseIdx_some hset rfl
    exact (herase.trans hnew).cons_inv
  · rw [filterMap_eraseIdx_none hset rfl]
    exact filterMap_set_same hdelete rfl
  · exact fun i' j' h => (hmem _ h).resolve_right (by simp)
  · exact fun i' j' h => (hmem _ h).resolve_right (by simp)
  · intro i' j' h
    rcases hmem _ h with h | h
    · exact .inl h
    · obtain ⟨rfl, rfl⟩ := LineDiff.move.inj h
      exact .inr hid

theorem pairMovesFrom_pairs (rounds i : Nat) (out : List LineDiff) :
    Pairs ka kb out (pairMovesFrom ka kb rounds i out) := by
  induction rounds generalizing i out with
  | zero => exact .refl ..
  | succ rounds ih =>
    rw [pairMovesFrom]
    split
    · exact .refl ..
    · rename_i old hdelete
      split
      · rename_i j new hinserted
        exact (Pairs.pair hdelete hinserted).trans (ih _ _)
      · exact ih _ _
    · exact ih _ _

end Pairing

/-! ## The steps over the lines -/

section Lines
variable {a b : File}

theorem old_lineDiffOf (step : Step) : (lineDiffOf a b step).old = step.old := by
  cases step with
  | keep i j =>
    rw [lineDiffOf]
    split_ifs <;> rfl
  | delete i => rfl
  | insert j => rfl

theorem new_lineDiffOf (step : Step) : (lineDiffOf a b step).new = step.new := by
  cases step with
  | keep i j =>
    rw [lineDiffOf]
    split_ifs <;> rfl
  | delete i => rfl
  | insert j => rfl

theorem inPlace_lineDiffOf (step : Step) : (lineDiffOf a b step).inPlace = step.kept := by
  cases step with
  | keep i j =>
    rw [lineDiffOf]
    split_ifs <;> rfl
  | delete i => rfl
  | insert j => rfl

/-- No two distinct lines of the files share a hash. -/
def NoCollision (a b : File) : Prop :=
  ∀ l ∈ a.lines ++ b.lines, ∀ l' ∈ a.lines ++ b.lines, fnv1a l.bytes = fnv1a l'.bytes → l.bytes = l'.bytes

/-- The line at `i` of one file and the one at `j` of the other have the same valid id. -/
def SameId (a b : File) (i j : Nat) : Prop :=
  ∃ l l' id, a.lines[i]? = some l ∧ b.lines[j]? = some l' ∧ l.task.bind Task.id = some id ∧
    l'.task.bind Task.id = some id

/-- The line at `i` of one file and the one at `j` of the other have the same bytes. -/
def SameBytes (a b : File) (i j : Nat) : Prop :=
  ∃ l l', a.lines[i]? = some l ∧ b.lines[j]? = some l' ∧ l.bytes = l'.bytes

theorem keyOf_id {l : OwnedLine} {id : Ulid} : keyOf l = .id id ↔ l.task.bind Task.id = some id := by
  rw [keyOf]
  cases l.task.bind Task.id with
  | none => simp
  | some id' => simp

theorem sameId_of_keys {i j : Nat} {id : Ulid} (hi : (a.lines.map keyOf)[i]? = some (.id id))
    (hj : (b.lines.map keyOf)[j]? = some (.id id)) : SameId a b i j := by
  rw [List.getElem?_map, Option.map_eq_some_iff] at hi hj
  obtain ⟨l, hl, hkey⟩ := hi
  obtain ⟨l', hl', hkey'⟩ := hj
  exact ⟨l, l', id, hl, hl', keyOf_id.1 hkey, keyOf_id.1 hkey'⟩

/-- Lines the search keeps have equal bytes or the same id. -/
theorem lineDiffOf_keep (hcoll : NoCollision a b) {i j : Nat}
    (hm : Matches (a.lines.map keyOf) (b.lines.map keyOf) i j) :
    (lineDiffOf a b (.keep i j) = .keep i j ∧ SameBytes a b i j) ∨
      (lineDiffOf a b (.keep i j) = .change i j ∧ SameId a b i j) := by
  obtain ⟨hi, hj, hkeys⟩ := hm
  rw [List.length_map] at hi hj
  have hl : a.lines[i]? = some a.lines[i] := List.getElem?_eq_getElem hi
  have hl' : b.lines[j]? = some b.lines[j] := List.getElem?_eq_getElem hj
  rw [List.getElem?_map, List.getElem?_map, hl, hl', Option.map_some, Option.map_some, Option.some_inj] at hkeys
  rw [lineDiffOf, hl, hl', Option.map_some, Option.map_some]
  by_cases hbytes : a.lines[i].bytes = b.lines[j].bytes
  · rw [if_pos (congrArg some hbytes)]
    exact .inl ⟨rfl, _, _, hl, hl', hbytes⟩
  · rw [if_neg fun h => hbytes (Option.some_inj.1 h)]
    refine .inr ⟨rfl, ?_⟩
    cases hid : a.lines[i].task.bind Task.id with
    | some id =>
      have hkey := keyOf_id.2 hid
      exact ⟨_, _, id, hl, hl', hid, keyOf_id.1 (hkeys.symm.trans hkey)⟩
    | none =>
      -- A content key matches a content key only, and the hashes are those of equal bytes.
      have hkey : keyOf a.lines[i] = .content (fnv1a a.lines[i].bytes) := by rw [keyOf, hid]
      cases hid' : b.lines[j].task.bind Task.id with
      | some id =>
        rw [keyOf_id.2 hid', hkey] at hkeys
        cases hkeys
      | none =>
        have hkey' : keyOf b.lines[j] = .content (fnv1a b.lines[j].bytes) := by rw [keyOf, hid']
        rw [hkey, hkey'] at hkeys
        exact absurd (hcoll _ (List.mem_append_left _ (List.getElem_mem hi)) _
          (List.mem_append_right _ (List.getElem_mem hj)) (Key.content.inj hkeys)) hbytes

end Lines

/-- A line diff that is complete and minimal. -/
structure LineScript (a b : File) (out : List LineDiff) : Prop where
  olds : (out.filterMap LineDiff.old).Perm (List.range a.lines.length)
  news : (out.filterMap LineDiff.new).Perm (List.range b.lines.length)
  keeps : ∀ i j, .keep i j ∈ out → SameBytes a b i j
  changes : ∀ i j, .change i j ∈ out → SameId a b i j
  moves : ∀ i j, .move i j ∈ out → SameId a b i j
  increasing : (out.filterMap LineDiff.inPlace).Pairwise fun p q => p.1 < q.1 ∧ p.2 < q.2
  longest : LongestCommon (a.lines.map keyOf) (b.lines.map keyOf) (out.filterMap LineDiff.inPlace).length

/-- The search reaches the end inside its arrays, and the line diff names each line once and keeps as many
in place as the keys allow. -/
theorem diffLines_script (a b : File) (hcoll : NoCollision a b) :
    (∃ steps, myersAt (a.lines.map keyOf) (b.lines.map keyOf) = some steps ∧
      myers (a.lines.map keyOf) (b.lines.map keyOf) = some steps) ∧
    ∃ out, diffLines a b = some out ∧ LineScript a b out := by
  obtain ⟨steps, hmyers, hscript, hleast⟩ := myers_spec (a.lines.map keyOf) (b.lines.map keyOf)
  have hpaired : Pairs (a.lines.map keyOf) (b.lines.map keyOf) (steps.map (lineDiffOf a b))
      (pairMoves (a.lines.map keyOf) (b.lines.map keyOf) (steps.map (lineDiffOf a b))) :=
    pairMovesFrom_pairs _ _ _
  have hstep : ∀ step ∈ steps.map (lineDiffOf a b), (∀ i j, step = .keep i j → SameBytes a b i j) ∧
      (∀ i j, step = .change i j → SameId a b i j) ∧ ∀ i j, step ≠ .move i j := by
    intro step hmem
    obtain ⟨s, hs, rfl⟩ := List.mem_map.1 hmem
    cases s with
    | keep i j =>
      have hpair : (i, j) ∈ pairs steps := List.mem_filterMap.2 ⟨_, hs, rfl⟩
      have hm : Matches (a.lines.map keyOf) (b.lines.map keyOf) i j := (hscript.pairs_match (i, j) hpair).1
      rcases lineDiffOf_keep hcoll hm with ⟨heq, hsame⟩ | ⟨heq, hsame⟩
      · rw [heq]
        refine ⟨?_, ?_, ?_⟩
        · intro i' j' h
          obtain ⟨rfl, rfl⟩ := LineDiff.keep.inj h
          exact hsame
        · intro i' j' h
          cases h
        · intro i' j' h
          cases h
      · rw [heq]
        refine ⟨?_, ?_, ?_⟩
        · intro i' j' h
          cases h
        · intro i' j' h
          obtain ⟨rfl, rfl⟩ := LineDiff.change.inj h
          exact hsame
        · intro i' j' h
          cases h
    | delete i => exact ⟨by simp [lineDiffOf], by simp [lineDiffOf], by simp [lineDiffOf]⟩
    | insert j => exact ⟨by simp [lineDiffOf], by simp [lineDiffOf], by simp [lineDiffOf]⟩
  have holds : (steps.map (lineDiffOf a b)).filterMap LineDiff.old = List.range a.lines.length := by
    have hcomp : LineDiff.old ∘ lineDiffOf a b = Step.old := funext old_lineDiffOf
    have hrange := hscript.olds_eq
    rw [List.length_map, Nat.sub_zero, ← List.range_eq_range'] at hrange
    rw [List.filterMap_map, hcomp, ← hrange, olds]
  have hnews : (steps.map (lineDiffOf a b)).filterMap LineDiff.new = List.range b.lines.length := by
    have hcomp : LineDiff.new ∘ lineDiffOf a b = Step.new := funext new_lineDiffOf
    have hrange := hscript.news_eq
    rw [List.length_map, Nat.sub_zero, ← List.range_eq_range'] at hrange
    rw [List.filterMap_map, hcomp, ← hrange, news]
  have hplace : (steps.map (lineDiffOf a b)).filterMap LineDiff.inPlace = pairs steps := by
    have hcomp : LineDiff.inPlace ∘ lineDiffOf a b = Step.kept := funext inPlace_lineDiffOf
    rw [List.filterMap_map, hcomp, pairs]
  refine ⟨⟨steps, by rw [myersAt_eq, hmyers], hmyers⟩, _, by rw [diffLines, hmyers]; rfl, ?_⟩
  constructor
  · rw [hpaired.olds, holds]
  · exact hnews ▸ hpaired.news
  · exact fun i j h => (hstep _ (hpaired.keeps i j h)).1 i j rfl
  · exact fun i j h => (hstep _ (hpaired.changes i j h)).2.1 i j rfl
  · intro i j h
    rcases hpaired.moves i j h with h | ⟨id, hi, hj⟩
    · exact absurd rfl ((hstep _ h).2.2 i j)
    · exact sameId_of_keys hi hj
  · rw [hpaired.inPlace, hplace]
    exact hscript.pairs_increasing
  · rw [hpaired.inPlace, hplace]
    exact hscript.longest hleast

/-- Line `b` of the file `a`, `b` is the first line of the file `b`, `c`. -/
theorem diffLines_script_moved_up :
    let line (b : UInt8) : OwnedLine := ⟨[b], .lf, Quirks.NONE⟩
    let a : File := ⟨[line 97, line 98], false, .lf, true⟩
    let b : File := ⟨[line 98, line 99], false, .lf, true⟩
    NoCollision a b ∧ ((∃ steps, myersAt (a.lines.map keyOf) (b.lines.map keyOf) = some steps ∧
      myers (a.lines.map keyOf) (b.lines.map keyOf) = some steps) ∧
      ∃ out, diffLines a b = some out ∧ LineScript a b out) := by
  intro line a b
  have hcoll : NoCollision a b := by
    unfold NoCollision
    decide
  exact ⟨hcoll, diffLines_script a b hcoll⟩

end Txtodo
