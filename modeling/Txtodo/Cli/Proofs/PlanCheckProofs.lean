import Txtodo.Cli.PlanCheck
import Txtodo.Core.Proofs.PutGetProofs
import Txtodo.Engine.Proofs.FastIdProofs

/-!
# What one mutation of a plan does

In a file with no blank line, the tail is the end: a completed or a moved line goes behind all others.
-/

namespace Txtodo.Cli

section Option
variable {α β σ : Type}

theorem mapM_eq_some {f : α → Option β} {l : List α} {r : List β} : l.mapM f = some r ↔ l.map f = r.map some := by
  induction l generalizing r with
  | nil => cases r <;> simp
  | cons a l ih =>
    rw [List.mapM_cons, List.map_cons]
    constructor
    · intro h
      obtain ⟨b, hb, h⟩ := Option.bind_eq_some_iff.1 h
      obtain ⟨bs, hbs, h⟩ := Option.bind_eq_some_iff.1 h
      rw [← Option.some_inj.1 h, List.map_cons, hb, ih.1 hbs]
    · intro h
      cases r with
      | nil => cases h
      | cons b bs =>
        obtain ⟨hb, hbs⟩ := List.cons.inj h
        rw [hb, ih.2 hbs]
        rfl

/-- What every step keeps holds when the steps are through. -/
theorem foldlM_range {f : σ → Nat → Option σ} {P : Nat → σ → Prop} {n : Nat} {s s' : σ} (h0 : P 0 s)
    (hstep : ∀ i < n, ∀ s s', P i s → f s i = some s' → P (i + 1) s')
    (h : (List.range n).foldlM f s = some s') : P n s' := by
  induction n generalizing s' with
  | zero =>
    obtain rfl := Option.some_inj.1 h
    exact h0
  | succ n ih =>
    rw [List.range_succ, List.foldlM_append] at h
    obtain ⟨s'', hfold, h⟩ := Option.bind_eq_some_iff.1 h
    obtain ⟨s₁, hlast, h⟩ := Option.bind_eq_some_iff.1 h
    obtain rfl := Option.some_inj.1 h
    exact hstep n (Nat.lt_succ_self n) s'' s₁
      (ih (fun i hi => hstep i (Nat.lt_succ_of_lt hi)) hfold) hlast

end Option

variable {pre post : Lines} {x : List UInt8}

theorem task_fromBytes (line : OwnedLine) (ending : LineEnding) :
    (OwnedLine.fromBytes line.bytes ending).task = line.task := by
  rw [task_eq, task_eq]
  rfl

theorem idText_fromBytes (line : OwnedLine) (ending : LineEnding) :
    idText (.fromBytes line.bytes ending) = idText line := by
  rw [idText, idText, task_fromBytes]

/-- What an edit makes of a line's bytes does not depend on how the line ends. -/
theorem apply_fromBytes (line : OwnedLine) (ending : LineEnding) (edit : Edit) :
    (apply (.fromBytes line.bytes ending) edit).bytes = (apply line edit).bytes := by
  have hraw : (OwnedLine.fromBytes line.bytes ending).raw = line.raw := rfl
  rw [apply, apply, hraw]
  cases line.raw with
  | none => rfl
  | some raw =>
    dsimp only [Draft.write]
    split <;> rfl

/-- A line with a task is not empty. -/
theorem bytes_ne_nil {line : OwnedLine} (h : line.task.isSome) : line.bytes ≠ [] := by
  intro hnil
  rw [task_eq, OwnedLine.raw, hnil] at h
  cases h

theorem tail_eq {lines : Lines} (h : ∀ l ∈ lines, l ≠ []) : tail lines = lines.length := by
  have hnone : ∀ l ∈ lines.reverse, ¬l.isEmpty := by
    intro l hl
    rw [List.isEmpty_iff]
    exact h l (List.mem_reverse.1 hl)
  have hwhile : lines.reverse.dropWhile List.isEmpty = lines.reverse := by
    cases hrev : lines.reverse with
    | nil => rfl
    | cons l rest => exact List.dropWhile_cons_of_neg (hnone l (hrev ▸ List.mem_cons_self))
  rw [tail, hwhile, List.length_reverse]

theorem getElem?_between : (pre ++ x :: post)[pre.length]? = some x := by
  rw [List.getElem?_append_right (Nat.le_refl _), Nat.sub_self, List.getElem?_cons_zero]

/-- Taking the line between `pre` and `post` out and putting it at the tail. -/
theorem toTail_eq (hpre : ∀ l ∈ pre, l ≠ []) (hpost : ∀ l ∈ post, l ≠ []) :
    toTail (pre ++ x :: post) pre.length = some (pre ++ post ++ [x]) := by
  have herase : (pre ++ x :: post).eraseIdx pre.length = pre ++ post := by
    rw [List.eraseIdx_append_of_length_le (Nat.le_refl _), Nat.sub_self, List.eraseIdx_cons_zero]
  have htail : tail (pre ++ post) = (pre ++ post).length := tail_eq fun l hl => by
    rcases List.mem_append.1 hl with hl | hl
    · exact hpre l hl
    · exact hpost l hl
  rw [toTail, getElem?_between]
  show some ((((pre ++ x :: post).eraseIdx pre.length).insertIdx _ x)) = _
  rw [herase, htail, List.insertIdx_length_self]

/-- A reference to the line behind `pre`. -/
theorem taskIndex_eq (hx : x ≠ []) (id : Text) :
    taskIndex (pre ++ x :: post) ⟨pre.length + 1, id⟩ = some pre.length := by
  have hany : (pre ++ x :: post)[pre.length + 1 - 1]?.any (!·.isEmpty) = true := by
    rw [Nat.add_sub_cancel, getElem?_between]
    simpa using hx
  rw [taskIndex, if_neg (Nat.succ_ne_zero _), if_pos hany]
  rfl

theorem carries_eq {line : OwnedLine} (hx : x = line.bytes) {id : Text} (hid : id = idText line) :
    carries (pre ++ x :: post) ⟨pre.length + 1, id⟩ = true := by
  rw [carries, Nat.add_sub_cancel, getElem?_between, Option.any_some, hx, idText_fromBytes, hid]
  simp

/-- Replacing the line behind `pre`. -/
theorem checkedStep_edit {line : OwnedLine} (hline : line.task.isSome) {id : Text} (hid : id = idText line)
    (newLine : Text) : checkedStep (pre ++ line.bytes :: post) (.edit ⟨pre.length + 1, id⟩ newLine) =
      some (pre ++ Utf8.encode newLine :: post) := by
  have hcarries : (Pb.Mutation.edit ⟨pre.length + 1, id⟩ newLine).tasks.all (carries (pre ++ line.bytes :: post)) := by
    rw [Pb.Mutation.tasks, List.all_cons, carries_eq rfl hid]
    rfl
  rw [checkedStep, if_pos hcarries, replayStep, taskIndex_eq (bytes_ne_nil hline)]
  show some ((pre ++ line.bytes :: post).set pre.length _) = _
  rw [List.set_append_right _ _ (Nat.le_refl _), Nat.sub_self, List.set_cons_zero]

/-- Moving the line behind `pre` to the end. -/
theorem checkedStep_moveToEnd {line : OwnedLine} (hline : line.task.isSome) {id : Text} (hid : id = idText line)
    (hpre : ∀ l ∈ pre, l ≠ []) (hpost : ∀ l ∈ post, l ≠ []) :
    checkedStep (pre ++ line.bytes :: post) (.moveToEnd ⟨pre.length + 1, id⟩) =
      some (pre ++ post ++ [line.bytes]) := by
  have hcarries : (Pb.Mutation.moveToEnd ⟨pre.length + 1, id⟩).tasks.all (carries (pre ++ line.bytes :: post)) := by
    rw [Pb.Mutation.tasks, List.all_cons, carries_eq rfl hid]
    rfl
  rw [checkedStep, if_pos hcarries, replayStep, taskIndex_eq (bytes_ne_nil hline)]
  exact toTail_eq hpre hpost

/-- Completing the line behind `pre` when that changes it. -/
theorem checkedStep_complete {line : OwnedLine} (hline : line.task.isSome) {id : Text} (hid : id = idText line)
    (hpre : ∀ l ∈ pre, l ≠ []) (hpost : ∀ l ∈ post, l ≠ []) {today : Date} {done : List UInt8}
    (hdone : (apply line (Edit.new.complete today)).bytes = done) (hnil : done ≠ []) (hchanged : done ≠ line.bytes) :
    checkedStep (pre ++ line.bytes :: post) (.complete ⟨pre.length + 1, id⟩ today.display) =
      some (pre ++ post ++ [done]) := by
  have hcarries : (Pb.Mutation.complete ⟨pre.length + 1, id⟩ today.display).tasks.all
      (carries (pre ++ line.bytes :: post)) := by
    rw [Pb.Mutation.tasks, List.all_cons, carries_eq rfl hid]
    rfl
  have hcompleted : completed line.bytes today.display = some done := by
    rw [completed, parse_date_display, ← hdone, ← apply_fromBytes line .lf]
    rfl
  have hset : (pre ++ line.bytes :: post).set pre.length done = pre ++ done :: post := by
    rw [List.set_append_right _ _ (Nat.le_refl _), Nat.sub_self, List.set_cons_zero]
  have htail : tail (pre ++ done :: post) = (pre ++ done :: post).length := tail_eq fun l hl => by
    rcases List.mem_append.1 hl with hl | hl
    · exact hpre l hl
    · rcases List.mem_cons.1 hl with rfl | hl
      · exact hnil
      · exact hpost l hl
  rw [checkedStep, if_pos hcarries, replayStep, taskIndex_eq (bytes_ne_nil hline)]
  show ((pre ++ line.bytes :: post)[pre.length]?.bind fun l => _) = _
  rw [getElem?_between, Option.bind_some, hcompleted]
  show (if _ then _ else _) = _
  rw [hset, htail]
  by_cases hlast : post = []
  · subst hlast
    rw [if_neg (by simp)]
    simp
  · rw [if_pos ⟨hchanged, by
      have : 0 < post.length := List.length_pos_iff.2 hlast
      rw [List.length_append, List.length_cons]
      omega⟩]
    exact toTail_eq hpre hpost

end Txtodo.Cli
