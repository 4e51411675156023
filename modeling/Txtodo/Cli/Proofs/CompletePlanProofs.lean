import Txtodo.Cli.CompletePlan
import Txtodo.Cli.Proofs.PlanCheckProofs

/-!
# A plan of completions gives the planned file

After the first lines of the old file, the batch so far gives the open ones among them as they are in the new
file, the lines not looked at yet, then the completed ones.
-/

namespace Txtodo.Cli

/-- The bytes of line `i` of a file. -/
def lineAt (f : File) (i : Nat) : List UInt8 := (linesOf f)[i]?.getD []

theorem lineAt_eq {f : File} {i : Nat} {line : OwnedLine} (h : f.lines[i]? = some line) :
    lineAt f i = line.bytes := by
  rw [lineAt, linesOf, List.getElem?_map, h]
  rfl

theorem map_lineAt (f : File) : (List.range f.lines.length).map (lineAt f) = linesOf f := by
  apply List.ext_getElem?
  intro i
  rw [List.getElem?_map]
  by_cases hi : i < f.lines.length
  · have hget : f.lines[i]? = some f.lines[i] := List.getElem?_eq_getElem hi
    rw [List.getElem?_range hi, Option.map_some, lineAt_eq hget, linesOf, List.getElem?_map, hget]
    rfl
  · rw [List.getElem?_eq_none (by rw [List.length_range]; omega), linesOf, List.getElem?_map,
      List.getElem?_eq_none (by omega)]
    rfl

theorem drop_linesOf {f : File} {i : Nat} {line : OwnedLine} (h : f.lines[i]? = some line) :
    (linesOf f).drop i = line.bytes :: (linesOf f).drop (i + 1) := by
  obtain ⟨hi, rfl⟩ := List.getElem?_eq_some_iff.1 h
  rw [linesOf, ← List.map_drop, List.drop_eq_getElem_cons hi, List.map_cons, List.map_drop]

theorem checkedReplay_concat (old : File) (muts : List Pb.Mutation) (m : Pb.Mutation) :
    checkedReplay old (muts ++ [m]) = (checkedReplay old muts).bind (checkedStep · m) := by
  rw [checkedReplay, List.foldlM_append]
  show (checkedReplay old muts).bind _ = _
  congr 1
  funext lines
  show (checkedStep lines m).bind some = _
  cases checkedStep lines m <;> rfl

/-- No line of a file is blank. -/
def AllTasks (f : File) : Prop := ∀ line ∈ f.lines, line.task.isSome

theorem AllTasks.lineAt_ne_nil {f : File} (h : AllTasks f) {i : Nat} (hi : i < f.lines.length) :
    lineAt f i ≠ [] := by
  rw [lineAt_eq (List.getElem?_eq_getElem hi)]
  exact bytes_ne_nil (h _ (List.getElem_mem hi))

theorem AllTasks.drop_ne_nil {f : File} (h : AllTasks f) (i : Nat) : ∀ l ∈ (linesOf f).drop i, l ≠ [] := by
  intro l hl
  obtain ⟨line, hmem, rfl⟩ := List.mem_map.1 (List.mem_of_mem_drop hl)
  exact bytes_ne_nil (h line hmem)

theorem allTasks_of_mapM {α : Type} {f : OwnedLine → Option α} {file : File} {l : List α}
    (htask : ∀ line a, f line = some a → line.task.isSome) (h : file.lines.mapM f = some l) : AllTasks file := by
  intro line hmem
  have hf : f line ∈ l.map some := mapM_eq_some.1 h ▸ List.mem_map_of_mem hmem
  obtain ⟨a, -, ha⟩ := List.mem_map.1 hf
  exact htask line a ha.symm

namespace CompletePlan

variable {old new : File} {newKeys : List Key}

theorem keysOf_allTasks {f : File} {keys : List Key} (h : keysOf f = some keys) : AllTasks f := by
  obtain ⟨keys', hkeys, -⟩ := Option.bind_eq_some_iff.1 h
  refine allTasks_of_mapM (fun line key hkey => ?_) hkeys
  obtain ⟨t, ht, -⟩ := Option.map_eq_some_iff.1 hkey
  exact ht ▸ rfl

/-- The line mutation `k` names is one `old` has `k` places further down, and its text is still the same. -/
def FindsText (old : File) (muts : List Pb.Mutation) (k : Nat) : Prop :=
  ∃ task today lines text, muts[k]? = some (.complete task today) ∧
    checkedReplay old (muts.take k) = some lines ∧ lines[task.lineNumber - 1]? = some text ∧
    (linesOf old)[task.lineNumber - 1 + k]? = some text

/-- The first `i` lines of `old` are planned. -/
structure Planned (old new : File) (i : Nat) (p : Progress) : Prop where
  count : p.opened.length + p.done.length = i
  outs : p.out.length = p.done.length
  bounded : ∀ at_ ∈ p.opened ++ p.done, at_ < new.lines.length
  replays : checkedReplay old p.out =
    some (p.opened.map (lineAt new) ++ (linesOf old).drop i ++ p.done.map (lineAt new))
  finds : ∀ k < p.out.length, FindsText old p.out k

theorem completionOf_spec {before after : OwnedLine} {today : Date}
    (h : completionOf before after = some today) : (apply before (Edit.new.complete today)).bytes = after.bytes := by
  unfold completionOf at h
  obtain ⟨tb, -, h⟩ := Option.bind_eq_some_iff.1 h
  obtain ⟨ta, -, h⟩ := Option.bind_eq_some_iff.1 h
  split at h
  · cases h
  · obtain ⟨today', -, h⟩ := Option.bind_eq_some_iff.1 h
    split at h
    · rename_i heq
      obtain rfl := Option.some_inj.1 h
      exact heq
    · cases h

/-- An open line stays where it is. -/
theorem Planned.open_line {i at_ : Nat} {p : Progress} (h : Planned old new i p) {before after : OwnedLine}
    (hbefore : old.lines[i]? = some before) (hafter : new.lines[at_]? = some after)
    (hbytes : after.bytes = before.bytes) : Planned old new (i + 1) { p with opened := p.opened ++ [at_] } where
  count := by
    have := h.count
    simp only [List.length_append, List.length_singleton]
    omega
  outs := h.outs
  bounded at' hmem := by
    rw [List.append_assoc, List.mem_append] at hmem
    rcases hmem with hmem | hmem
    · exact h.bounded at' (List.mem_append_left _ hmem)
    · rcases List.mem_append.1 hmem with hmem | hmem
      · rw [List.mem_singleton.1 hmem]
        exact (List.getElem?_eq_some_iff.1 hafter).1
      · exact h.bounded at' (List.mem_append_right _ hmem)
  replays := by
    rw [h.replays, drop_linesOf hbefore, List.map_append, List.map_singleton, lineAt_eq hafter, hbytes]
    simp
  finds := h.finds

/-- A completed line goes behind all others. -/
theorem Planned.done_line {i at_ : Nat} {p : Progress} (h : Planned old new i p) (hold : AllTasks old)
    (hnew : AllTasks new) {before after : OwnedLine} (hbefore : old.lines[i]? = some before)
    (hafter : new.lines[at_]? = some after) (hbytes : after.bytes ≠ before.bytes) {today : Date}
    (htoday : completionOf before after = some today) :
    Planned old new (i + 1) { p with
      done := p.done ++ [at_]
      out := p.out ++ [.complete { taskRef old i with lineNumber := i - p.done.length + 1 } today.display] } := by
  have hcount := h.count
  have hat : at_ < new.lines.length := (List.getElem?_eq_some_iff.1 hafter).1
  have htask : before.task.isSome := hold before (List.mem_of_getElem? hbefore)
  have hopen : ∀ l ∈ p.opened.map (lineAt new), l ≠ [] := by
    intro l hl
    obtain ⟨at', hmem, rfl⟩ := List.mem_map.1 hl
    exact hnew.lineAt_ne_nil (h.bounded at' (List.mem_append_left _ hmem))
  have hrest : ∀ l ∈ (linesOf old).drop (i + 1) ++ p.done.map (lineAt new), l ≠ [] := by
    intro l hl
    rcases List.mem_append.1 hl with hl | hl
    · exact hold.drop_ne_nil (i + 1) l hl
    · obtain ⟨at', hmem, rfl⟩ := List.mem_map.1 hl
      exact hnew.lineAt_ne_nil (h.bounded at' (List.mem_append_right _ hmem))
  have hnumber : i - p.done.length + 1 = (p.opened.map (lineAt new)).length + 1 := by
    rw [List.length_map]
    omega
  have href : ({ taskRef old i with lineNumber := i - p.done.length + 1 } : Pb.TaskRef) =
      ⟨(p.opened.map (lineAt new)).length + 1, idText before⟩ := by
    rw [taskRef, hbefore, hnumber]
    rfl
  have hnow : checkedReplay old p.out = some (p.opened.map (lineAt new) ++
      before.bytes :: ((linesOf old).drop (i + 1) ++ p.done.map (lineAt new))) := by
    rw [h.replays, drop_linesOf hbefore]
    simp
  have hdone : (apply before (Edit.new.complete today)).bytes = lineAt new at_ := by
    rw [completionOf_spec htoday, lineAt_eq hafter]
  constructor
  · simp only [List.length_append, List.length_singleton]
    omega
  · simp only [List.length_append, List.length_singleton, h.outs]
  · intro at' hmem
    rw [← List.append_assoc, List.mem_append, List.mem_singleton] at hmem
    rcases hmem with hmem | rfl
    · exact h.bounded at' hmem
    · exact hat
  · show checkedReplay old (p.out ++ [_]) = _
    rw [checkedReplay_concat, hnow, Option.bind_some, href,
      checkedStep_complete htask rfl hopen hrest hdone (hnew.lineAt_ne_nil hat)
        (by rw [lineAt_eq hafter]; exact hbytes)]
    simp
  · intro k hk
    rw [List.length_append, List.length_singleton] at hk
    rcases Nat.lt_succ_iff_lt_or_eq.1 hk with hk | rfl
    · obtain ⟨task, today', lines, text, hget, hreplay, htext, hsame⟩ := h.finds k hk
      refine ⟨task, today', lines, text, ?_, ?_, htext, hsame⟩
      · rw [List.getElem?_append_left hk, hget]
      · rw [List.take_append_of_le_length (Nat.le_of_lt hk), hreplay]
    · refine ⟨_, _, _, before.bytes, List.getElem?_concat_length, by rw [List.take_left, hnow], ?_, ?_⟩
      · rw [href, Nat.add_sub_cancel, getElem?_between]
      · have hindex : i - p.done.length + 1 - 1 + p.out.length = i := by
          rw [h.outs]
          omega
        show (linesOf old)[i - p.done.length + 1 - 1 + p.out.length]? = _
        rw [hindex, linesOf, List.getElem?_map, hbefore]
        rfl

theorem planLine_planned (hold : AllTasks old) (hnew : AllTasks new) {i : Nat} {p p' : Progress}
    (h : Planned old new i p) (hline : planLine old new newKeys p i = some p') : Planned old new (i + 1) p' := by
  unfold planLine at hline
  obtain ⟨at_, -, hline⟩ := Option.bind_eq_some_iff.1 hline
  obtain ⟨before, hbefore, hline⟩ := Option.bind_eq_some_iff.1 hline
  obtain ⟨after, hafter, hline⟩ := Option.bind_eq_some_iff.1 hline
  split at hline
  · rename_i hbytes
    obtain rfl := Option.some_inj.1 hline
    exact h.open_line hbefore hafter hbytes
  · rename_i hbytes
    obtain ⟨today, htoday, hline⟩ := Option.bind_eq_some_iff.1 hline
    dsimp only at hline
    split at hline
    · cases hline
    · obtain rfl := Option.some_inj.1 hline
      exact h.done_line hold hnew hbefore hafter hbytes htoday

/-- The planned completions, applied in order, find every line and give the new file. -/
theorem plan_replays {muts : List Pb.Mutation} (h : plan old new = some muts) :
    checkedReplay old muts = some (linesOf new) ∧ ∀ k < muts.length, FindsText old muts k := by
  unfold plan at h
  obtain ⟨newKeys, hnewKeys, h⟩ := Option.bind_eq_some_iff.1 h
  obtain ⟨oldKeys, holdKeys, h⟩ := Option.bind_eq_some_iff.1 h
  split at h
  · cases h
  obtain ⟨p, hfold, h⟩ := Option.bind_eq_some_iff.1 h
  split at h
  · cases h
  split at h
  · rename_i hall
    obtain rfl := Option.some_inj.1 h
    have hstart : Planned old new 0 ⟨[], [], []⟩ :=
      ⟨rfl, rfl, List.forall_mem_nil _, by simp [checkedReplay], fun _ hk => absurd hk (Nat.not_lt_zero _)⟩
    have hplanned : Planned old new old.lines.length p := foldlM_range hstart
      (fun i _ p p' => planLine_planned (keysOf_allTasks holdKeys) (keysOf_allTasks hnewKeys)) hfold
    refine ⟨?_, hplanned.finds⟩
    have hdrop : (linesOf old).drop old.lines.length = [] :=
      List.drop_eq_nil_of_le (by rw [linesOf, List.length_map])
    rw [hplanned.replays, hdrop, List.append_nil, ← List.map_append, hall, map_lineAt]
  · cases h

end CompletePlan

end Txtodo.Cli
