import Txtodo.Tui.Readline

/-!
# A run of kills yanks back

A kill moves text from one side of the caret into the slot, so that the text before the caret, the slot and
the text after it stay one text. The slot starts out empty unless the first kill of a run cuts nothing.
-/

namespace Txtodo.Readline

open TextInput

section Kills
variable {seg : Segmentation} {letters : Letters} {f : TextInput.Field} {kill : Kill} {op : Op} {ops : List Op}
  {start stop : Nat}

/-- What a kill at the caret is to cut. -/
def killRange (seg : Segmentation) (letters : Letters) (f : TextInput.Field) : Op → Nat × Nat
  | .killSpaceWordBack => (spaceWordBack f.text f.caret, f.caret)
  | .killWordBack => (wordBack seg letters f.text f.caret, f.caret)
  | .killWordForward => (f.caret, wordForward seg letters f.text f.caret)
  | .killLineBack => (lineStart f.text f.caret, f.caret)
  | .killLineForward =>
    let stop := lineEnd f.text f.caret
    (f.caret, if stop = f.caret ∧ f.caret < f.text.length then f.caret + 1 else stop)
  | _ => (f.caret, f.caret)

/-- A kill has something to cut. -/
def Cuts (seg : Segmentation) (letters : Letters) (f : TextInput.Field) (op : Op) : Prop :=
  (killRange seg letters f op).1 < (killRange seg letters f op).2

instance (op : Op) : Decidable (Cuts seg letters f op) := inferInstanceAs (Decidable (_ < _))

/-- The text with what the next kill joins put back at the caret. -/
def whole (s : TextInput.Field × Kill) : Text :=
  s.1.text.take s.1.caret ++ (if s.2.joining then s.2.text else []) ++ s.1.text.drop s.1.caret

/-! ## One kill -/

theorem take_slice (text : Text) (h : start ≤ stop) : text.take start ++ slice text start stop = text.take stop := by
  have hcut := List.take_append_drop start (text.take stop)
  rwa [List.take_take, Nat.min_eq_left h] at hcut

theorem slice_drop (text : Text) (h : start ≤ stop) : slice text start stop ++ text.drop stop = text.drop start := by
  refine List.append_cancel_left (?_ : text.take start ++ _ = text.take start ++ _)
  rw [← List.append_assoc, take_slice text h, List.take_append_drop, List.take_append_drop]

/-- A kill cuts its range, at the caret's one side or the other. -/
theorem apply_kill (h : op.kills = true) : apply seg letters op f kill =
    ((cut f kill (killRange seg letters f op).1 (killRange seg letters f op).2).1,
      { (cut f kill (killRange seg letters f op).1 (killRange seg letters f op).2).2 with joining := true }) := by
  cases op <;> first | rfl | cases h

theorem killRange_caret (op : Op) :
    (killRange seg letters f op).1 = f.caret ∨ (killRange seg letters f op).2 = f.caret := by
  cases op <;> first | exact .inl rfl | exact .inr rfl

/-- The two sides of a caret where something was cut out. -/
theorem sides_cut (text : Text) (h : start ≤ stop) :
    (TextInput.replaceRange text start stop []).take start = text.take start ∧
      (TextInput.replaceRange text start stop []).drop start = text.drop stop := by
  unfold TextInput.replaceRange
  rw [List.append_nil]
  rcases le_or_gt start text.length with hle | hgt
  · have hlen : (text.take start).length = start := List.length_take_of_le hle
    exact ⟨List.take_left' hlen, List.drop_left' hlen⟩
  · have hnil : text.drop stop = [] := List.drop_eq_nil_of_le (by omega)
    rw [hnil, List.append_nil, List.take_of_length_le hgt.le, List.take_of_length_le hgt.le]
    exact ⟨rfl, List.drop_eq_nil_of_le hgt.le⟩

/-- What the next kill joins after a cut. -/
theorem take_text (kill : Kill) (killed : Text) (backward : Bool) :
    (kill.take killed backward).text =
      if backward then killed ++ (if kill.joining then kill.text else [])
      else (if kill.joining then kill.text else []) ++ killed := by
  cases hjoining : kill.joining <;> cases backward <;> simp [Kill.take, hjoining]

/-- A cut at the caret's one side keeps the whole text. -/
theorem whole_cut (hlt : start < stop) (hcaret : start = f.caret ∨ stop = f.caret) :
    whole ((cut f kill start stop).1, { (cut f kill start stop).2 with joining := true }) = whole (f, kill) := by
  obtain ⟨htake, hdrop⟩ := sides_cut f.text hlt.le
  unfold cut
  rw [if_neg (by omega)]
  unfold whole
  dsimp only
  rw [if_pos rfl, htake, hdrop, take_text]
  rcases hcaret with rfl | rfl
  · rw [if_neg (by simpa using hlt), ← slice_drop f.text hlt.le]
    simp only [List.append_assoc]
  · rw [if_pos (by simp), ← take_slice f.text hlt.le]
    simp only [List.append_assoc]

/-- A kill with something to cut keeps the whole text. -/
theorem whole_apply_cuts (hkills : op.kills = true) (h : Cuts seg letters f op) :
    whole (apply seg letters op f kill) = whole (f, kill) := by
  rw [apply_kill hkills]
  exact whole_cut h (killRange_caret op)

/-- A kill with nothing to cut only has the next kill join. -/
theorem apply_not_cuts (hkills : op.kills = true) (h : ¬Cuts seg letters f op) :
    apply seg letters op f kill = (f, { kill with joining := true }) := by
  have hcut : ∀ range : Nat × Nat, ¬range.1 < range.2 → cut f kill range.1 range.2 = (f, kill) := fun range hrange =>
    if_pos (by omega)
  rw [apply_kill hkills, hcut _ h]

theorem joining_apply (hkills : op.kills = true) : (apply seg letters op f kill).2.joining = true := hkills

theorem text_yank (s : TextInput.Field × Kill) (hjoining : s.2.joining = true) :
    (apply seg letters .yank s.1 s.2).1.text = whole s := by
  unfold whole
  rw [if_pos hjoining]
  rfl

/-! ## Runs -/

/-- A kill after a kill keeps the whole text. -/
theorem whole_apply_joining (hkills : op.kills = true) (hjoining : kill.joining = true) :
    whole (apply seg letters op f kill) = whole (f, kill) := by
  by_cases hcuts : Cuts seg letters f op
  · exact whole_apply_cuts hkills hcuts
  · obtain ⟨text, joining⟩ := kill
    obtain rfl : joining = true := hjoining
    rw [apply_not_cuts hkills hcuts]

/-- Kills after a kill keep the whole text. -/
theorem whole_applyAll (seg : Segmentation) (letters : Letters) (f : TextInput.Field) (kill : Kill)
    (hkills : ∀ op ∈ ops, op.kills = true) (hjoining : kill.joining = true) :
    whole (applyAll seg letters ops f kill) = whole (f, kill) ∧
      (applyAll seg letters ops f kill).2.joining = true := by
  induction ops generalizing f kill with
  | nil => exact ⟨rfl, hjoining⟩
  | cons op ops ih =>
    have hop := hkills op List.mem_cons_self
    obtain ⟨hwhole, hjoining'⟩ := ih (apply seg letters op f kill).1 (apply seg letters op f kill).2
      (fun op h => hkills op (List.mem_cons_of_mem _ h)) (joining_apply hop)
    exact ⟨hwhole.trans (whole_apply_joining hop hjoining), hjoining'⟩

end Kills

/-- Some kill of the run has something to cut. -/
def SomeCuts (seg : Segmentation) (letters : Letters) (ops : List Op) (f : TextInput.Field) (kill : Kill) : Prop :=
  ∃ before op after, ops = before ++ op :: after ∧ Cuts seg letters (applyAll seg letters before f kill).1 op

/-- **A yank after a run of kills restores the text** exactly when the slot was empty or the first kill of the run
has something to cut. -/
theorem yank_restores_iff (seg : Segmentation) (letters : Letters) (ops : List Op) (f : TextInput.Field) (kill : Kill)
    (hjoining : kill.joining = false) (hkills : ∀ op ∈ ops, op.kills = true)
    (hcuts : SomeCuts seg letters ops f kill) :
    (applyAll seg letters (ops ++ [.yank]) f kill).1.text = f.text ↔
      kill.text = [] ∨ ∃ op ∈ ops.head?, Cuts seg letters f op := by
  obtain ⟨op, rest, rfl⟩ : ∃ op rest, ops = op :: rest := by
    obtain ⟨before, op, after, rfl, -⟩ := hcuts
    cases before <;> exact ⟨_, _, rfl⟩
  have hop := hkills op List.mem_cons_self
  obtain ⟨hwhole, hjoining'⟩ := whole_applyAll seg letters (apply seg letters op f kill).1
    (apply seg letters op f kill).2
    (fun op h => hkills op (List.mem_cons_of_mem _ h)) (joining_apply hop)
  have hyank : (applyAll seg letters (op :: rest ++ [.yank]) f kill).1.text = whole (apply seg letters op f kill) := by
    unfold applyAll at hwhole hjoining' ⊢
    rw [List.cons_append, List.foldl_cons, List.foldl_concat, text_yank _ hjoining', hwhole]
  have hbefore : whole (f, kill) = f.text := by
    unfold whole
    rw [if_neg (by rw [hjoining]; decide), List.append_nil, List.take_append_drop]
  rw [hyank, List.head?_cons]
  by_cases hcuts : Cuts seg letters f op
  · rw [whole_apply_cuts hop hcuts, hbefore]
    exact ⟨fun _ => .inr ⟨op, rfl, hcuts⟩, fun _ => rfl⟩
  · -- the slot's old text has come in
    rw [apply_not_cuts hop hcuts]
    constructor
    · intro h
      have hlen := congrArg List.length h
      unfold whole at hlen
      rw [if_pos rfl, List.length_append, List.length_append, List.length_take, List.length_drop] at hlen
      exact .inl (List.length_eq_zero_iff.1 (by dsimp only at hlen; omega))
    · rintro (hnil | ⟨op', heq, hcuts'⟩)
      · unfold whole
        rw [if_pos rfl]
        dsimp only
        rw [hnil, List.append_nil, List.take_append_drop]
      · obtain rfl := Option.some.inj heq
        exact absurd hcuts' hcuts

/-- Two kills from both sides of a caret, the first with something to cut. -/
theorem yank_restores_two :
    (applyAll .byChar .ascii [.killLineBack, .killLineForward, .yank] ⟨"ab".toList, 1⟩ ⟨"zz".toList, false⟩).1.text =
      "ab".toList :=
  (yank_restores_iff .byChar .ascii [.killLineBack, .killLineForward] ⟨"ab".toList, 1⟩ ⟨"zz".toList, false⟩ rfl
    (by decide) ⟨[], .killLineBack, [.killLineForward], rfl, by decide⟩).2 (.inr ⟨.killLineBack, rfl, by decide⟩)

/-- A kill at the start of a line has the next one join what the slot held. -/
theorem yank_not_restores :
    ¬∀ (ops : List Op) (f : TextInput.Field) (kill : Kill), f.caret ≤ f.text.length → kill.joining = false →
      (∀ op ∈ ops, op.kills = true) → SomeCuts .byChar .ascii ops f kill →
      (applyAll .byChar .ascii (ops ++ [.yank]) f kill).1.text = f.text := by
  intro h
  have hrestored := h [.killLineBack, .killLineForward] ⟨"ab".toList, 0⟩ ⟨"zz".toList, false⟩ (by decide) rfl
    (by decide) ⟨[.killLineBack], .killLineForward, [], rfl, by decide⟩
  revert hrestored
  decide

end Txtodo.Readline
