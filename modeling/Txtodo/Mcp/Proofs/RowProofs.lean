import Txtodo.Core.Proofs.WordPathProofs
import Txtodo.Core.Proofs.ChipsProofs
import Txtodo.Mcp.Row

/-!
# The row and the core parser

What the row says of a line is read off its prefix and its words, and compared with the lenient parse.
-/

namespace Txtodo.Mcp

open Grammar

/-! ## What a word says -/

/-- The project a word names. -/
def projectOf (w : Text) : Option Text := (stripPrefix ['+'] w).filter (!·.isEmpty)

/-- The context a word names. -/
def contextOf (w : Text) : Option Text := (stripPrefix ['@'] w).filter (!·.isEmpty)

/-- The value a word gives `key`. -/
def valueOf (key w : Text) : Option Text :=
  if (projectOf w).isSome || (contextOf w).isSome then none
  else ((splitKeyValue w).filter (·.1 = key)).map (·.2)

/-- The values of `key`, in order. -/
def values (key : Text) (ws : List Text) : List Text := ws.filterMap (valueOf key)

/-- The pair a word adds to the row's other tags. -/
def pairOf (row : TaskRow) (w : Text) : List (Text × Text) :=
  if (projectOf w).isSome || (contextOf w).isSome then []
  else ((splitKeyValue w).filter fun kv =>
    !(kv.1 = "id".toList && row.id.isNone) && !decide (kv.1 = "due".toList)).toList

section Fold
variable (row : TaskRow) (ws : List Text)

theorem contextOf_project {w p : Text} (h : projectOf w = some p) : contextOf w = none := by
  obtain ⟨hstrip, -⟩ := Option.filter_eq_some_iff.1 h
  unfold stripPrefix at hstrip
  split_ifs at hstrip with hplus
  obtain ⟨rest, rfl⟩ := hplus
  rfl

/-- What one word does to the row. -/
theorem classifyWord_eq (w : Text) : classifyWord row w = { row with
    projects := row.projects ++ (projectOf w).toList
    contexts := row.contexts ++ (contextOf w).toList
    id := row.id.or (valueOf "id".toList w)
    due := (valueOf "due".toList w).or row.due
    kv := row.kv ++ pairOf row w } := by
  unfold classifyWord
  cases hp : projectOf w with
  | some p =>
    have hc := contextOf_project hp
    rw [show Option.filter _ (stripPrefix ['+'] w) = some p from hp]
    simp [valueOf, pairOf, hp, hc]
  | none =>
    rw [show Option.filter _ (stripPrefix ['+'] w) = none from hp]
    dsimp only
    cases hc : contextOf w with
    | some c =>
      rw [show Option.filter _ (stripPrefix ['@'] w) = some c from hc]
      simp [valueOf, pairOf, hp, hc]
    | none =>
      rw [show Option.filter _ (stripPrefix ['@'] w) = none from hc]
      dsimp only
      cases hkv : splitKeyValue w with
      | none => simp [valueOf, pairOf, hp, hc, hkv]
      | some kv =>
        obtain ⟨key, value⟩ := kv
        by_cases hid : key = ['i', 'd']
        · cases hrow : row.id with
          | none => simp [valueOf, pairOf, hp, hc, hkv, hid, hrow, Option.filter]
          | some id => simp [valueOf, pairOf, hp, hc, hkv, hid, hrow, Option.filter]
        · by_cases hdue : key = ['d', 'u', 'e']
          · simp [valueOf, pairOf, hp, hc, hkv, hdue, Option.filter]
          · simp [valueOf, pairOf, hp, hc, hkv, hid, hdue, Option.filter]

theorem filterMap_cons_toList {α β : Type} (f : α → Option β) (a : α) (as : List α) :
    (a :: as).filterMap f = (f a).toList ++ as.filterMap f := by
  cases h : f a <;> simp [h]

theorem values_cons (key w : Text) (ws : List Text) :
    values key (w :: ws) = (valueOf key w).toList ++ values key ws :=
  filterMap_cons_toList _ w ws

/-- The words leave the fields in front of them as they are. -/
theorem foldl_front : (ws.foldl classifyWord row).done = row.done ∧
    (ws.foldl classifyWord row).completed = row.completed ∧
    (ws.foldl classifyWord row).created = row.created ∧
    (ws.foldl classifyWord row).priority = row.priority := by
  induction ws generalizing row with
  | nil => exact ⟨rfl, rfl, rfl, rfl⟩
  | cons w ws ih =>
    have hnext := ih (classifyWord row w)
    rw [classifyWord_eq] at hnext
    rw [List.foldl_cons, classifyWord_eq]
    exact hnext

theorem foldl_projects : (ws.foldl classifyWord row).projects =
    row.projects ++ ws.filterMap projectOf := by
  induction ws generalizing row with
  | nil => simp
  | cons w ws ih => rw [List.foldl_cons, ih, classifyWord_eq, filterMap_cons_toList, List.append_assoc]

theorem foldl_contexts : (ws.foldl classifyWord row).contexts =
    row.contexts ++ ws.filterMap contextOf := by
  induction ws generalizing row with
  | nil => simp
  | cons w ws ih => rw [List.foldl_cons, ih, classifyWord_eq, filterMap_cons_toList, List.append_assoc]

/-- The first `id:` tag is kept. -/
theorem foldl_id : (ws.foldl classifyWord row).id = row.id.or (values "id".toList ws).head? := by
  induction ws generalizing row with
  | nil => simp [values]
  | cons w ws ih =>
    rw [List.foldl_cons, ih, classifyWord_eq, values_cons, Option.or_assoc]
    cases valueOf "id".toList w <;> rfl

/-- The last `due:` tag is kept. -/
theorem foldl_due : (ws.foldl classifyWord row).due = (values "due".toList ws).getLast?.or row.due := by
  induction ws generalizing row with
  | nil => simp [values]
  | cons w ws ih =>
    rw [List.foldl_cons, ih, classifyWord_eq, values_cons, List.getLast?_append, Option.or_assoc]
    cases valueOf "due".toList w <;> rfl

theorem find_pairOf (w : Text) : ((pairOf row w).find? (·.1 = "pri".toList)).map (·.2) =
    valueOf "pri".toList w := by
  unfold pairOf valueOf
  split_ifs
  · rfl
  · cases splitKeyValue w with
    | none => rfl
    | some kv =>
      obtain ⟨key, value⟩ := kv
      by_cases hkey : key = ['p', 'r', 'i']
      · simp [hkey, Option.filter]
      · have hne : decide (key = "pri".toList) = false := decide_eq_false hkey
        simp only [Option.filter, hne]
        split
        · rw [Option.toList_some, List.find?_cons, hne]
          rfl
        · rfl

/-- The first `pri:` tag of the row. -/
theorem foldl_pri : ((ws.foldl classifyWord row).kv.find? (·.1 = "pri".toList)).map (·.2) =
    ((row.kv.find? (·.1 = "pri".toList)).map (·.2)).or (values "pri".toList ws).head? := by
  induction ws generalizing row with
  | nil => simp [values]
  | cons w ws ih =>
    rw [List.foldl_cons, ih, classifyWord_eq, values_cons, List.find?_append, Option.map_or, find_pairOf,
      Option.or_assoc]
    cases valueOf "pri".toList w <;> rfl

end Fold

end Txtodo.Mcp
