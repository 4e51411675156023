import Txtodo.Core.Proofs.MyersProofs
import Txtodo.Engine.TextHistory

/-!
# Applying a diff

The runs `diff_text` returns, applied in order, rebuild the target text. Up to where the newest run
ends the applier has written the target; from there to the next run the two texts agree.
-/

namespace Txtodo

open EditGraph

variable {a b : Text} {i j t : Nat}

/-- The texts agree on `t` characters, from `i` and from `j` on. -/
structure Agree (a b : Text) (i j t : Nat) : Prop where
  source : i + t ≤ a.length
  target : j + t ≤ b.length
  same : (a.drop i).take t = (b.drop j).take t

/-- The runs of a diff, the newest first, up to `(i, j)` where the newest one ends. -/
inductive Runs (a b : Text) : List TextEdit → Nat → Nat → Prop
  | none : Runs a b [] 0 0
  | delete {out i j t} (len : Nat) : Runs a b out i j → Agree a b i j t → a.drop i ≠ b.drop j →
      i + t + len ≤ a.length → Runs a b (.delete (i + t) len :: out) (i + t + len) (j + t)
  | insert {out i j t} (text : Text) : Runs a b out i j → Agree a b i j t → a.drop i ≠ b.drop j →
      text <+: b.drop (j + t) →
      Runs a b (.insert (j + t) text :: out) (i + t) (j + t + text.length)

namespace Agree

theorem zero (hi : i ≤ a.length) (hj : j ≤ b.length) : Agree a b i j 0 := ⟨hi, hj, rfl⟩

theorem succ (h : Agree a b i j t) (hm : Matches a b (i + t) (j + t)) :
    Agree a b i j (t + 1) := by
  obtain ⟨c, ha, hb⟩ := matches_iff.1 hm
  refine ⟨hm.1, hm.2.1, ?_⟩
  rw [List.take_add_one, List.take_add_one, h.same, List.getElem?_drop, List.getElem?_drop, ha, hb]

/-- The target up to the end of the agreement. -/
theorem take_target (h : Agree a b i j t) : b.take j ++ (a.take (i + t)).drop i = b.take (j + t) := by
  rw [List.drop_take, Nat.add_sub_cancel_left, h.same, List.take_add]

theorem drop_ne (_ : Agree a b i j t) (hne : a.drop (i + t) ≠ b.drop (j + t)) :
    a.drop i ≠ b.drop j := by
  intro heq
  apply hne
  rw [← List.drop_drop, ← List.drop_drop, heq]

end Agree

namespace Runs

variable {out : List TextEdit}

theorem bounds (h : Runs a b out i j) : i ≤ a.length ∧ j ≤ b.length := by
  cases h with
  | none => exact ⟨Nat.zero_le _, Nat.zero_le _⟩
  | delete len _ hag _ hle => exact ⟨hle, hag.target⟩
  | insert text _ hag _ hpre =>
    have hle := hpre.length_le
    have htarget := hag.target
    rw [List.length_drop] at hle
    exact ⟨hag.source, by omega⟩

/-- The applier has consumed the source up to the newest run and written the target up to it. -/
theorem applied (h : Runs a b out i j) (rest : List TextEdit) :
    applyTextEditsFrom a 0 0 [] (out.reverse ++ rest) =
      applyTextEditsFrom a out.length i (b.take j) rest := by
  induction h generalizing rest with
  | none => rfl
  | @delete out i j t len h hag _ hle ih =>
    rw [List.reverse_cons, List.append_assoc, ih, List.singleton_append, applyTextEditsFrom,
      if_pos ⟨hle, Nat.le_add_right i t⟩, hag.take_target, List.length_cons]
  | @insert out i j t text h hag _ hpre ih =>
    have hlen : (b.take j).length = j := List.length_take_of_le h.bounds.2
    have hfit : (b.take j).length ≤ j + t ∧ i + (j + t - (b.take j).length) ≤ a.length := by
      have := hag.source
      omega
    have hlast : i + (j + t - (b.take j).length) = i + t := by omega
    have hout : b.take (j + t) ++ text = b.take (j + t + text.length) := by
      rw [List.take_add (i := j + t), ← List.prefix_iff_eq_take.1 hpre]
    rw [List.reverse_cons, List.append_assoc, ih, List.singleton_append, applyTextEditsFrom,
      if_pos hfit, hlast]
    simp only []
    rw [hag.take_target, hout, List.length_cons]

/-- A step deletes: the newest run grows when it ends there, a new run starts otherwise. -/
theorem pushStep_delete (h : Runs a b out i j) (hag : Agree a b i j t) (hlt : i + t < a.length)
    (hne : a.drop (i + t) ≠ b.drop (j + t)) :
    Runs a b (pushStep b out (.delete (i + t))) (i + t + 1) (j + t) := by
  have hnew := Runs.delete 1 h hag (hag.drop_ne hne) hlt
  cases h with
  | none => exact hnew
  | insert text h' hag' hne' hpre => exact hnew
  | @delete out i₀ j₀ t₀ len h' hag' hne' hle =>
    rw [pushStep]
    split_ifs with hjoin
    · have ht : t = 0 := by omega
      subst ht
      exact Runs.delete (len + 1) h' hag' hne' hlt
    · exact hnew

theorem prefix_concat {text l : Text} {c : Char} (h : text <+: l)
    (hc : l[text.length]? = some c) : text ++ [c] <+: l := by
  obtain ⟨rest, rfl⟩ := h
  rw [List.getElem?_append_right le_rfl, Nat.sub_self] at hc
  cases rest with
  | nil => simp at hc
  | cons d rest =>
    rw [List.getElem?_cons_zero, Option.some_inj] at hc
    rw [hc]
    exact ⟨rest, by rw [List.append_assoc, List.singleton_append]⟩

/-- A step inserts: the newest run grows when it ends there, a new run starts otherwise. -/
theorem pushStep_insert (h : Runs a b out i j) (hag : Agree a b i j t) (hlt : j + t < b.length)
    (hne : a.drop (i + t) ≠ b.drop (j + t)) :
    Runs a b (pushStep b out (.insert (j + t))) (i + t) (j + t + 1) := by
  obtain ⟨c, hc⟩ : ∃ c, b[j + t]? = some c := ⟨_, List.getElem?_eq_getElem hlt⟩
  have hnew := Runs.insert [c] h hag (hag.drop_ne hne)
    (prefix_concat List.nil_prefix (by rwa [List.length_nil, List.getElem?_drop]))
  have hlist : (b[j + t]?).toList = [c] := by rw [hc]; rfl
  cases h with
  | none =>
    rw [pushStep, hlist]
    · exact hnew
    · simp
  | delete len h' hag' hne' hle =>
    rw [pushStep, hlist]
    · exact hnew
    · simp
  | @insert out i₀ j₀ t₀ text h' hag' hne' hpre =>
    rw [pushStep, hlist]
    split_ifs with hjoin
    · have ht : t = 0 := by omega
      subst ht
      have hgrown := prefix_concat hpre (by rwa [List.getElem?_drop])
      have hrun := Runs.insert _ h' hag' hne' hgrown
      rwa [List.length_append] at hrun
    · exact hnew

/-- The runs up to `(i, j)`, and the agreement between the newest one and there. -/
def Reach (a b : Text) (out : List TextEdit) (i j : Nat) : Prop :=
  ∃ i₀ j₀ t, Runs a b out i₀ j₀ ∧ Agree a b i₀ j₀ t ∧ i = i₀ + t ∧ j = j₀ + t

theorem reach (h : Runs a b out i j) : Reach a b out i j :=
  ⟨i, j, 0, h, .zero h.bounds.1 h.bounds.2, rfl, rfl⟩

/-- Merging the steps of a greedy script gives runs up to the end of both texts. -/
theorem foldl_pushStep {steps : List Step} (hs : Greedy a b i j steps) (h : Reach a b out i j) :
    Reach a b (steps.foldl (pushStep b) out) a.length b.length := by
  induction hs generalizing out with
  | done => exact h
  | keep hm _ ih =>
    obtain ⟨i₀, j₀, t, hruns, hag, rfl, rfl⟩ := h
    apply ih
    have hkeep : pushStep b out (.keep (i₀ + t) (j₀ + t)) = out := by cases hruns <;> rfl
    rw [hkeep]
    exact ⟨i₀, j₀, t + 1, hruns, hag.succ hm, rfl, rfl⟩
  | @delete i j rest hlt hp hs ih =>
    obtain ⟨i₀, j₀, t, hruns, hag, rfl, rfl⟩ := h
    have hne := Greedy.drop_ne (Script.delete hlt hp hs) (by rw [cost_delete]; omega)
    exact ih (hruns.pushStep_delete hag hlt hne).reach
  | @insert i j rest hlt hp hs ih =>
    obtain ⟨i₀, j₀, t, hruns, hag, rfl, rfl⟩ := h
    have hne := Greedy.drop_ne (Script.insert hlt hp hs) (by rw [cost_insert]; omega)
    exact ih (hruns.pushStep_insert hag hlt hne).reach

/-- The older runs of a list of runs, the two texts differing after them. -/
theorem older {new : List TextEdit} (h : Runs a b (new ++ out) i j) (hnew : new ≠ []) :
    ∃ i₀ j₀, Runs a b out i₀ j₀ ∧ a.drop i₀ ≠ b.drop j₀ := by
  induction new generalizing i j with
  | nil => exact absurd rfl hnew
  | cons e new ih =>
    have hback : ∃ i₀ j₀, Runs a b (new ++ out) i₀ j₀ ∧ a.drop i₀ ≠ b.drop j₀ := by
      cases h with
      | delete len h' hag hne hle => exact ⟨_, _, h', hne⟩
      | insert text h' hag hne hpre => exact ⟨_, _, h', hne⟩
    obtain ⟨i₀, j₀, h', hne⟩ := hback
    by_cases hrest : new = []
    · subst hrest
      exact ⟨i₀, j₀, h', hne⟩
    · exact ih h' hrest

/-- Applying every run, with the rest of the source after it. -/
theorem apply_all (h : Runs a b out i j) :
    applyTextEditsFrom a 0 0 [] out.reverse = .ok (b.take j ++ a.drop i) := by
  have := h.applied []
  rwa [List.append_nil] at this

end Runs

/-- The runs of a diff rebuild the target exactly when none of them is dropped. -/
theorem applyTextEdits_reverse {out : List TextEdit}
    (h : Runs.Reach a b out a.length b.length) :
    applyTextEdits a out.reverse = .ok b ↔ out.reverse.length ≤ MAX_TEXT_EDITS := by
  obtain ⟨i, j, t, hruns, hag, hi, hj⟩ := h
  rw [applyTextEdits]
  by_cases hlen : out.reverse.length ≤ MAX_TEXT_EDITS
  · rw [List.take_of_length_le hlen, hruns.apply_all]
    refine iff_of_true ?_ hlen
    have hrest : a.drop i = b.drop j := by
      have hsame := hag.same
      rwa [List.take_of_length_le (by rw [List.length_drop]; omega),
        List.take_of_length_le (by rw [List.length_drop]; omega)] at hsame
    rw [hrest, List.take_append_drop]
  · refine iff_of_false ?_ hlen
    rw [List.length_reverse] at hlen
    rw [List.take_reverse]
    have hsplit := (List.take_append_drop (out.length - MAX_TEXT_EDITS) out).symm
    rw [hsplit] at hruns
    obtain ⟨i₀, j₀, hruns₀, hne⟩ := hruns.older (by
      intro hnil
      have := congrArg List.length hnil
      rw [List.length_take, List.length_nil] at this
      omega)
    rw [hruns₀.apply_all]
    intro hok
    apply hne
    have heq : b.take j₀ ++ a.drop i₀ = b.take j₀ ++ b.drop j₀ := by
      rw [List.take_append_drop]
      exact Except.ok.inj hok
    exact List.append_cancel_left heq

/-! ## The number of runs -/

/-- Where the newest run ends when the last step before `(i, j)` is of kind `last`. -/
def TopEnds (last : Kind) (i j : Nat) : List TextEdit → Prop
  | [] => last = .keep
  | .delete at_ len :: _ =>
    at_ + len ≤ i ∧ (last = .delete ↔ at_ + len = i) ∧ last ≠ .insert
  | .insert at_ text :: _ =>
    at_ + text.length ≤ j ∧ (last = .insert ↔ at_ + text.length = j) ∧ last ≠ .delete

variable {out : List TextEdit} {last : Kind}

theorem TopEnds.delete (h : TopEnds last i j out) :
    TopEnds .delete (i + 1) j (pushStep b out (.delete i)) ∧
      (pushStep b out (.delete i)).length = out.length + if last = .delete then 0 else 1 := by
  match out, h with
  | [], h =>
    obtain rfl : last = .keep := h
    exact ⟨⟨le_rfl, by simp, by simp⟩, rfl⟩
  | .delete at_ len :: rest, ⟨hle, hiff, hne⟩ =>
    rw [pushStep]
    split_ifs with hjoin hlast hlast
    · exact ⟨⟨by omega, by simp; omega, by simp⟩, rfl⟩
    · exact absurd (hiff.2 hjoin) hlast
    · exact absurd (hiff.1 hlast) hjoin
    · exact ⟨⟨le_rfl, by simp, by simp⟩, rfl⟩
  | .insert at_ text :: rest, ⟨hle, hiff, hne⟩ =>
    rw [if_neg hne]
    exact ⟨⟨le_rfl, by simp, by simp⟩, rfl⟩

theorem TopEnds.insert (h : TopEnds last i j out) (hj : j < b.length) :
    TopEnds .insert i (j + 1) (pushStep b out (.insert j)) ∧
      (pushStep b out (.insert j)).length = out.length + if last = .insert then 0 else 1 := by
  have hlist : ((b[j]?).toList).length = 1 := by rw [List.getElem?_eq_getElem hj]; rfl
  match out, h with
  | [], h =>
    obtain rfl : last = .keep := h
    exact ⟨⟨by rw [hlist], by simp [hlist], by simp⟩, rfl⟩
  | .delete at_ len :: rest, ⟨hle, hiff, hne⟩ =>
    rw [if_neg hne]
    exact ⟨⟨by rw [hlist], by simp [hlist], by simp⟩, rfl⟩
  | .insert at_ text :: rest, ⟨hle, hiff, hne⟩ =>
    rw [pushStep]
    split_ifs with hjoin hlast hlast
    · have hlen : at_ + (text ++ (b[j]?).toList).length = j + 1 := by
        rw [List.length_append, hlist]
        omega
      exact ⟨⟨hlen.le, by simp only [hlen], by simp⟩, rfl⟩
    · exact absurd (hiff.2 hjoin) hlast
    · exact absurd (hiff.1 hlast) hjoin
    · exact ⟨⟨by rw [hlist], by simp [hlist], by simp⟩, rfl⟩

theorem TopEnds.keep (h : TopEnds last i j out) :
    TopEnds .keep (i + 1) (j + 1) out ∧ pushStep b out (.keep i j) = out := by
  match out, h with
  | [], _ => exact ⟨rfl, rfl⟩
  | .delete at_ len :: rest, ⟨hle, _, _⟩ => exact ⟨⟨by omega, by simp; omega, by simp⟩, rfl⟩
  | .insert at_ text :: rest, ⟨hle, _, _⟩ => exact ⟨⟨by omega, by simp; omega, by simp⟩, rfl⟩

/-- Merging the steps of a script gives its runs. -/
theorem length_foldl_pushStep {P : Nat → Nat → Prop} {steps : List Step}
    (hs : Script a b P i j steps) (hout : TopEnds last i j out) :
    (steps.foldl (pushStep b) out).length = out.length + runsAfter last steps := by
  induction hs generalizing out last with
  | done => rfl
  | keep _ _ ih =>
    obtain ⟨hnext, hsame⟩ := hout.keep (b := b)
    rw [List.foldl_cons, hsame, ih hnext, runsAfter, if_pos (.inl rfl), Nat.zero_add]
    rfl
  | delete _ _ _ ih =>
    obtain ⟨hnext, hlen⟩ := hout.delete (b := b)
    rw [List.foldl_cons, ih hnext, hlen, runsAfter, Nat.add_assoc]
    simp [Step.kind, eq_comm]
  | insert hj _ _ ih =>
    obtain ⟨hnext, hlen⟩ := hout.insert hj
    rw [List.foldl_cons, ih hnext, hlen, runsAfter, Nat.add_assoc]
    simp [Step.kind, eq_comm]

/-- The diff of two texts has the runs of the latest of their shortest scripts. -/
theorem length_diffText {edits : List TextEdit} (h : diffText a b = some edits) :
    edits.length = latestRuns a b := by
  obtain ⟨steps, hmyers, hgreedy, -⟩ := myers_spec a b
  rw [diffText, hmyers, Option.map_some, Option.some_inj] at h
  rw [myers_latest, Option.some_inj] at hmyers
  have hstart : TopEnds .keep 0 0 [] := rfl
  rw [← h, List.length_reverse, latestRuns, hmyers, length_foldl_pushStep hgreedy hstart,
    List.length_nil, Nat.zero_add]
  rfl

/-- The diff of two texts is runs up to the end of both. -/
theorem diffText_runs (a b : Text) :
    ∃ out, diffText a b = some out.reverse ∧ Runs.Reach a b out a.length b.length := by
  obtain ⟨steps, hmyers, hgreedy, -⟩ := myers_spec a b
  refine ⟨steps.foldl (pushStep b) [], ?_, Runs.foldl_pushStep hgreedy Runs.none.reach⟩
  rw [diffText, hmyers]
  rfl

theorem diffText_isSome (a b : Text) : ∃ edits, diffText a b = some edits := by
  obtain ⟨out, hdiff, -⟩ := diffText_runs a b
  exact ⟨out.reverse, hdiff⟩

/-- A diff with more runs than one op may carry loses the last of them. -/
theorem applyTextEdits_diffText {edits : List TextEdit} (h : diffText a b = some edits) :
    applyTextEdits a edits = .ok b ↔ latestRuns a b ≤ MAX_TEXT_EDITS := by
  obtain ⟨out, hdiff, hruns⟩ := diffText_runs a b
  obtain rfl : out.reverse = edits := Option.some.inj (hdiff.symm.trans h)
  rw [← length_diffText h]
  exact applyTextEdits_reverse hruns

/-- Texts no more edits apart than one op may carry round trip. -/
theorem applyTextEdits_of_fewest {edits : List TextEdit} (h : diffText a b = some edits)
    (hfewest : fewest a b a.length b.length ≤ MAX_TEXT_EDITS) : applyTextEdits a edits = .ok b :=
  (applyTextEdits_diffText h).2 ((latestRuns_le_fewest a b).trans hfewest)

/-! ## A pair with many runs -/

/-- `n` times `xy`. -/
def alternating (n : Nat) : Text :=
  (List.range (2 * n)).map fun j => if j % 2 = 0 then 'x' else 'y'

theorem length_alternating (n : Nat) : (alternating n).length = 2 * n := by
  rw [alternating, List.length_map, List.length_range]

theorem matches_alternating {n : Nat} :
    Matches (List.replicate n 'x') (alternating n) i j ↔ i < n ∧ j < 2 * n ∧ j % 2 = 0 := by
  rw [Matches, List.length_replicate, length_alternating]
  refine and_congr_right fun hi => and_congr_right fun hj => ?_
  rw [alternating, List.getElem?_replicate, if_pos hi, List.getElem?_map,
    List.getElem?_range hj, Option.map_some, Option.some_inj]
  by_cases hpar : j % 2 = 0
  · simp [hpar]
  · simp [hpar]

/-- Keeping every `x` and inserting every `y` is a script. -/
theorem alternating_script {n r : Nat} (hr : r ≤ n) :
    ∃ steps, Script (List.replicate n 'x') (alternating n) (fun _ _ => True) (n - r) (2 * (n - r))
      steps ∧ cost steps = r := by
  induction r with
  | zero =>
    have hdone := Script.done (a := List.replicate n 'x') (b := alternating n)
      (P := fun _ _ => True)
    rw [List.length_replicate, length_alternating] at hdone
    exact ⟨[], hdone, rfl⟩
  | succ r ih =>
    obtain ⟨steps, hs, hcost⟩ := ih (by omega)
    have hi : n - r = n - (r + 1) + 1 := by omega
    have hj : 2 * (n - r) = 2 * (n - (r + 1)) + 1 + 1 := by omega
    rw [hi] at hs
    rw [← hi, hj] at hs
    rw [hi] at hs
    have hm : Matches (List.replicate n 'x') (alternating n) (n - (r + 1)) (2 * (n - (r + 1))) :=
      matches_alternating.2 ⟨by omega, by omega, by omega⟩
    refine ⟨_, .keep hm (.insert (by rw [length_alternating]; omega) trivial hs), ?_⟩
    rw [cost_keep, cost_insert, hcost]

/-- An insertion at an even position. -/
def insertsEven : Step → Bool
  | .insert j => j % 2 = 0
  | _ => false

/-- Without a deletion every `x` is kept. -/
theorem inserts_odd {n : Nat} {P : Nat → Nat → Prop} {steps : List Step}
    (hs : Script (List.replicate n 'x') (alternating n) P i j steps)
    (hdel : steps.countP Step.deletes = 0) :
    (2 * n - j) / 2 = (n - i) + steps.countP insertsEven := by
  induction hs with
  | done => rw [List.length_replicate, length_alternating, List.countP_nil]; omega
  | @keep i j steps hm _ ih =>
    obtain ⟨hi, hj, hpar⟩ := matches_alternating.1 hm
    rw [List.countP_cons_of_neg (by simp [Step.deletes])] at hdel
    rw [List.countP_cons_of_neg (by simp [insertsEven])]
    have := ih hdel
    omega
  | delete =>
    rw [List.countP_cons_of_pos rfl] at hdel
    omega
  | @insert i j steps hj _ _ ih =>
    rw [length_alternating] at hj
    rw [List.countP_cons_of_neg (by simp [Step.deletes])] at hdel
    have := ih hdel
    rw [List.countP_cons]
    by_cases hpar : j % 2 = 0
    · rw [if_pos (by simp [insertsEven, hpar])]
      omega
    · rw [if_neg (by simp [insertsEven, hpar])]
      omega

/-- Insertions at odd positions never merge. -/
theorem runsAfter_alternating {n : Nat} {P : Nat → Nat → Prop} {steps : List Step}
    (hs : Script (List.replicate n 'x') (alternating n) P i j steps)
    (hdel : steps.countP Step.deletes = 0) (heven : steps.countP insertsEven = 0)
    (hlast : last = .insert → j % 2 = 0) : runsAfter last steps = steps.countP Step.inserts := by
  induction hs generalizing last with
  | done => rfl
  | keep _ _ ih =>
    rw [List.countP_cons_of_neg (by simp [Step.deletes])] at hdel
    rw [List.countP_cons_of_neg (by simp [insertsEven])] at heven
    rw [List.countP_cons_of_neg (by simp [Step.inserts]), runsAfter, if_pos (.inl rfl),
      Nat.zero_add]
    exact ih hdel heven (by simp [Step.kind])
  | delete =>
    rw [List.countP_cons_of_pos rfl] at hdel
    omega
  | @insert i j steps hj _ _ ih =>
    rw [List.countP_cons_of_neg (by simp [Step.deletes])] at hdel
    rw [List.countP_cons] at heven
    have hodd : j % 2 = 1 := by
      by_contra hpar
      rw [if_pos (by simp [insertsEven]; omega)] at heven
      omega
    have hnew : ¬(Step.kind (.insert j) = .keep ∨ Step.kind (.insert j) = last) := by
      rintro (hkeep | rfl)
      · cases hkeep
      · have := hlast rfl
        omega
    rw [List.countP_cons_of_pos rfl, runsAfter, if_neg hnew,
      ih hdel (by omega) (fun _ => by omega), Nat.add_comm]

/-- The diff from `n` times `x` to `n` times `xy` has a run for each `y`. -/
theorem latestRuns_alternating (n : Nat) :
    latestRuns (List.replicate n 'x') (alternating n) = n := by
  obtain ⟨steps, hmyers, hgreedy, hleast⟩ := myers_spec (List.replicate n 'x') (alternating n)
  obtain ⟨other, hother, hcost⟩ := alternating_script (n := n) (r := n) le_rfl
  rw [Nat.sub_self] at hother
  have hle := hleast _ _ hother
  have hbal := Script.length_balance hgreedy
  rw [myers_latest, Option.some_inj] at hmyers
  rw [List.length_replicate, length_alternating] at hbal
  rw [hcost, cost] at hle
  have hdel : steps.countP Step.deletes = 0 := by omega
  have heven := inserts_odd hgreedy hdel
  rw [latestRuns, hmyers, runs, runsAfter_alternating hgreedy hdel (by omega) (by simp)]
  omega

/-- Applying the diff of two texts to the first gives the second, exactly when the latest of the
shortest scripts between them has no more runs than one op may carry. -/
theorem diff_text_round_trip (a b : Text) : ∃ edits, diffText a b = some edits ∧
    (applyTextEdits a edits = .ok b ↔ latestRuns a b ≤ MAX_TEXT_EDITS) := by
  obtain ⟨edits, hdiff⟩ := diffText_isSome a b
  exact ⟨edits, hdiff, applyTextEdits_diffText hdiff⟩

/-- Ten thousand and one runs: the last one is dropped. -/
theorem long_diff_loses_a_run :
    ∃ edits, diffText (List.replicate 10001 'x') (alternating 10001) = some edits ∧
      applyTextEdits (List.replicate 10001 'x') edits ≠ .ok (alternating 10001) := by
  obtain ⟨edits, hdiff⟩ := diffText_isSome (List.replicate 10001 'x') (alternating 10001)
  refine ⟨edits, hdiff, ?_⟩
  rw [ne_eq, applyTextEdits_diffText hdiff, latestRuns_alternating, MAX_TEXT_EDITS]
  omega

end Txtodo
