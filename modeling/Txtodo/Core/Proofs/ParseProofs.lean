import Txtodo.Core.Edit
import Mathlib.Data.List.Chain

/-!
# The lenient parser

The chunks of a line cover it and alternate. The lenient parser reads every line; the description it
returns is the rest of the line from a chunk boundary on.
-/

namespace Txtodo

/-! ## Chunks -/

/-- A non-empty run of one class of characters. -/
structure Uniform (c : Chunk) : Prop where
  nonempty : c.text ≠ []
  same : ∀ x ∈ c.text, isWs x = c.isWs

/-- Runs that alternate between the two classes. -/
structure Alternating (cs : List Chunk) : Prop where
  uniform : ∀ c ∈ cs, Uniform c
  alternate : cs.IsChain fun c d => c.isWs ≠ d.isWs

/-- The text of some chunks. -/
def textOf (cs : List Chunk) : Text := cs.flatMap (·.text)

@[simp] theorem textOf_nil : textOf [] = [] := rfl

@[simp] theorem textOf_cons (c : Chunk) (cs : List Chunk) :
    textOf (c :: cs) = c.text ++ textOf cs := rfl

@[simp] theorem textOf_append (cs ds : List Chunk) : textOf (cs ++ ds) = textOf cs ++ textOf ds :=
  List.flatMap_append

theorem textOf_chunksFrom (start : Nat) (raw : Text) : textOf (chunksFrom start raw) = raw := by
  induction raw generalizing start with
  | nil => rfl
  | cons c cs ih =>
    have hrest := ih (start + (Utf8.encodeChar c).length)
    rw [chunksFrom]
    split
    · next heq =>
      rw [heq] at hrest
      rw [← hrest]
      rfl
    · next k ks heq =>
      rw [heq] at hrest
      split_ifs
      · rw [← hrest]
        rfl
      · rw [← hrest]
        rfl

theorem alternating_chunksFrom (start : Nat) (raw : Text) : Alternating (chunksFrom start raw) := by
  induction raw generalizing start with
  | nil => exact ⟨by simp [chunksFrom], .nil⟩
  | cons c cs ih =>
    have hrest := ih (start + (Utf8.encodeChar c).length)
    have hone : Uniform ⟨start, [c], isWs c⟩ := ⟨by simp, by simp⟩
    rw [chunksFrom]
    split
    · exact ⟨by simpa using hone, .singleton _⟩
    · next k ks heq =>
      rw [heq] at hrest
      obtain ⟨huni, halt⟩ := hrest
      have hk := huni k (List.mem_cons_self ..)
      split_ifs with hsame
      · refine ⟨?_, ?_⟩
        · intro d hd
          rcases List.mem_cons.1 hd with rfl | hd
          · refine ⟨by simp, ?_⟩
            intro x hx
            rcases List.mem_cons.1 hx with rfl | hx
            · exact hsame.symm
            · exact hk.same x hx
          · exact huni d (List.mem_cons_of_mem _ hd)
        · cases ks with
          | nil => exact .singleton _
          | cons l ks =>
            rw [List.isChain_cons_cons] at halt ⊢
            exact halt
      · refine ⟨?_, ?_⟩
        · intro d hd
          rcases List.mem_cons.1 hd with rfl | hd
          · exact hone
          · exact huni d hd
        · rw [List.isChain_cons_cons]
          exact ⟨fun h => hsame h.symm, halt⟩

/-- `raw` cut where a chunk ends: a separator stands on one side of the cut, or one side is empty. -/
def Boundary (pre rest : Text) : Prop :=
  pre = [] ∨ rest = [] ∨ pre.getLast?.any isWs ∨ rest.head?.any isWs

theorem Uniform.getLast {c : Chunk} (h : Uniform c) : c.text.getLast?.any isWs = c.isWs := by
  rw [List.getLast?_eq_getLast_of_ne_nil h.nonempty, Option.any_some]
  exact h.same _ (List.getLast_mem h.nonempty)

theorem Uniform.head {c : Chunk} (h : Uniform c) : c.text.head?.any isWs = c.isWs := by
  rw [List.head?_eq_some_head h.nonempty, Option.any_some]
  exact h.same _ (List.head_mem h.nonempty)

theorem Alternating.of_append {cs ds : List Chunk} (h : Alternating (cs ++ ds)) :
    Alternating cs ∧ Alternating ds := by
  obtain ⟨huni, halt⟩ := h
  rw [List.isChain_append] at halt
  exact ⟨⟨fun c hc => huni c (List.mem_append_left _ hc), halt.1⟩,
    ⟨fun c hc => huni c (List.mem_append_right _ hc), halt.2.1⟩⟩

/-- Between two chunks is a boundary. -/
theorem Alternating.boundary {cs ds : List Chunk} (h : Alternating (cs ++ ds)) :
    Boundary (textOf cs) (textOf ds) := by
  rcases List.eq_nil_or_concat' cs with rfl | ⟨cs, c, rfl⟩
  · exact .inl rfl
  · cases ds with
    | nil => exact .inr (.inl rfl)
    | cons d ds =>
      obtain ⟨huni, halt⟩ := h
      have hc := huni c (by simp)
      have hd := huni d (by simp)
      have hne : c.isWs ≠ d.isWs := by
        rw [List.isChain_append] at halt
        exact halt.2.2 c (by simp) d (by simp)
      right
      right
      cases hws : c.isWs with
      | true =>
        left
        rw [textOf_append, textOf_cons, textOf_nil, List.append_nil,
          List.getLast?_append_of_ne_nil _ hc.nonempty, hc.getLast]
        exact hws
      | false =>
        right
        rw [textOf_cons, List.head?_append_of_ne_nil _ hd.nonempty, hd.head]
        cases hwd : d.isWs with
        | true => rfl
        | false => exact absurd (hws.trans hwd.symm) hne

/-- A word stands between separators, or at an end of the text. -/
theorem Alternating.around_word {cs ds : List Chunk} {c : Chunk} (h : Alternating (cs ++ c :: ds))
    (hc : c.isWs = false) (rest : Text) :
    Boundary (textOf cs) rest ∧ Boundary rest (textOf ds) := by
  have huni : Uniform c := h.uniform c (by simp)
  constructor
  · rcases h.boundary with hnil | hnil | hlast | hhead
    · exact .inl hnil
    · exact absurd (List.append_eq_nil_iff.1 hnil).1 huni.nonempty
    · exact .inr (.inr (.inl hlast))
    · rw [textOf_cons, List.head?_append_of_ne_nil _ huni.nonempty, huni.head, hc] at hhead
      exact absurd hhead Bool.false_ne_true
  · rw [← List.singleton_append, ← List.append_assoc] at h
    rcases h.boundary with hnil | hnil | hlast | hhead
    · rw [textOf_append, textOf_cons, textOf_nil, List.append_nil, List.append_eq_nil_iff] at hnil
      exact absurd hnil.2 huni.nonempty
    · exact .inr (.inl hnil)
    · rw [textOf_append, textOf_cons, textOf_nil, List.append_nil,
        List.getLast?_append_of_ne_nil _ huni.nonempty, huni.getLast, hc] at hlast
      exact absurd hlast Bool.false_ne_true
    · exact .inr (.inr (.inr hhead))

/-! ## The lenient parser reads on -/

/-- In lenient mode `m` returns, further on in the same line. -/
def Reads {α : Type} (m : ParseM α) : Prop :=
  ∀ p, p.mode = .lenient → ∃ a p', m.run p = .ok (a, p') ∧ p'.mode = .lenient ∧
    p'.chunks <:+ p.chunks

namespace Reads

variable {α β : Type}

theorem of_pure (a : α) : Reads (pure a) := by
  intro p hp
  exact ⟨a, p, rfl, hp, List.suffix_rfl⟩

theorem of_bind {m : ParseM α} {f : α → ParseM β} (hm : Reads m) (hf : ∀ a, Reads (f a)) :
    Reads (m >>= f) := by
  intro p hp
  obtain ⟨a, p', hrun, hp', hsuf⟩ := hm p hp
  obtain ⟨b, p'', hrun', hp'', hsuf'⟩ := hf a p' hp'
  refine ⟨b, p'', ?_, hp'', hsuf'.trans hsuf⟩
  rw [StateT.run_bind, hrun]
  exact hrun'

theorem of_get {f : Parser → ParseM β} (hf : ∀ p, p.mode = .lenient → Reads (f p)) :
    Reads (get >>= f) := by
  intro p hp
  exact hf p hp p hp

theorem of_modify {f : Parser → Parser} (hmode : ∀ p, (f p).mode = p.mode)
    (hsuf : ∀ p, (f p).chunks <:+ p.chunks) : Reads (modify f) := by
  intro p hp
  exact ⟨(), f p, rfl, (hmode p).trans hp, hsuf p⟩

theorem advance : Reads (modify Parser.advance) :=
  of_modify (fun _ => rfl) fun p => List.tail_suffix p.chunks

theorem insertQuirk (quirk : Quirks) : Reads (Txtodo.insertQuirk quirk) :=
  of_modify (fun _ => rfl) fun _ => List.suffix_rfl

theorem lenientOrAt (quirk : Quirks) (rule message : String) (byte : Nat) :
    Reads (Txtodo.lenientOrAt quirk rule message byte) := by
  intro p hp
  refine ⟨(), { p with quirks := p.quirks.insert quirk }, ?_, hp, List.suffix_rfl⟩
  rw [Txtodo.lenientOrAt, StateT.run_bind, StateT.run_get, pure_bind]
  simp only [hp]
  rfl

theorem lenientOr (quirk : Quirks) (rule message : String) :
    Reads (Txtodo.lenientOr quirk rule message) :=
  of_get fun _ _ => lenientOrAt _ _ _ _

theorem of_ite {m m' : ParseM α} {p : Prop} [Decidable p] (hm : Reads m) (hm' : Reads m') :
    Reads (if p then m else m') := by
  split_ifs
  · exact hm
  · exact hm'

theorem separator : Reads separator := by
  refine of_get fun p _ => ?_
  split
  · exact of_pure _
  · next c rest _ =>
    have hnext : Reads (do
        modify Parser.advance
        if rest.isEmpty then
          Txtodo.lenientOrAt Quirks.TRAILING_WS "description" "trailing whitespace" c.start
          return false
        return true) :=
      of_bind advance fun _ => of_ite (of_bind (lenientOrAt _ _ _ _) fun _ => of_pure _) (of_pure _)
    exact of_ite (of_bind (lenientOr _ _ _) fun _ => hnext) hnext

theorem takePriority (t : Task) : Reads (takePriority t) := by
  refine of_get fun p _ => ?_
  split
  · split
    · exact of_bind advance fun _ => of_bind separator fun _ => of_pure _
    · exact of_pure _
  · exact of_pure _

theorem takeDate : Reads takeDate := by
  refine of_get fun p hp => ?_
  split
  · exact of_pure _
  · split
    · exact of_bind advance fun _ => of_pure _
    · rw [if_neg (by rw [hp]; simp)]
      exact of_pure _

theorem takeOptionalDate (t : Task) : Reads (takeOptionalDate t) := by
  refine of_bind takeDate fun d => ?_
  cases d with
  | none => exact of_pure _
  | some d => exact of_bind separator fun _ => of_pure _

theorem takePriorityLenient (t : Task) (quirk : Quirks) : Reads (takePriorityLenient t quirk) := by
  refine of_get fun p hp => ?_
  rw [hp]
  exact of_bind (takePriority t) fun _ =>
    of_ite (of_bind (insertQuirk quirk) fun _ => of_pure _) (of_pure _)

theorem completedPrefix (t : Task) : Reads (completedPrefix t) := by
  refine of_bind separator fun more => of_ite ?_ ?_
  · exact of_bind (lenientOr _ _ _) fun _ => of_pure _
  · refine of_bind (takePriorityLenient _ _) fun t => of_bind takeDate fun d => ?_
    cases d with
    | none => exact of_bind (lenientOr _ _ _) fun _ => of_pure _
    | some d =>
      have hlast : ∀ t : Task, Reads (
          if t.priority.isNone then Txtodo.takePriorityLenient t Quirks.PRIORITY_AFTER_DATE
          else pure t) :=
        fun t => of_ite (takePriorityLenient _ _) (of_pure _)
      exact of_bind separator fun _ =>
        of_ite (of_bind (takeOptionalDate _) hlast) (of_bind (of_pure _) hlast)

theorem incompletePrefix (t : Task) : Reads (incompletePrefix t) :=
  of_bind (takePriority t) fun _ => takeOptionalDate _

theorem checkSeparators (start : Nat) (first : Bool) (cs : List Chunk) :
    Reads (checkSeparators start first cs) := by
  induction cs generalizing first with
  | nil => exact of_pure _
  | cons c cs ih =>
    rw [Txtodo.checkSeparators]
    have hnext : Reads (Txtodo.checkSeparators start false cs) := ih false
    have htrail : Reads (do
        if !(first && decide (start = 0) && !cs.isEmpty) then
          if cs.isEmpty then
            Txtodo.lenientOrAt Quirks.TRAILING_WS "description" "trailing whitespace" c.start
          else if c.text ≠ [' '] then
            Txtodo.lenientOrAt Quirks.TABS "SP" "words are separated by exactly one space" c.start
        Txtodo.checkSeparators start false cs) := by
      refine of_ite (of_ite ?_ (of_ite ?_ hnext)) hnext
      · exact of_bind (lenientOrAt _ _ _ _) fun _ => hnext
      · exact of_bind (lenientOrAt _ _ _ _) fun _ => hnext
    exact of_ite (of_ite (of_bind (lenientOrAt _ _ _ _) fun _ => htrail) htrail) hnext

end Reads

/-- What the task keeps of the line once its prefix was read. -/
theorem description_run {p : Parser} (hp : p.mode = .lenient) :
    ∃ p', description.run p = .ok (p.rest, p') := by
  obtain ⟨_, p', hcheck, -⟩ := Reads.checkSeparators p.pos true p.chunks p hp
  refine ⟨p', ?_⟩
  rw [description, StateT.run_bind, StateT.run_get, pure_bind, StateT.run_bind, hcheck]
  rfl

/-- The description is the rest of the line from the cursor on. -/
theorem parseTask_reads {p : Parser} (hp : p.mode = .lenient) :
    ∃ t p' cs, parseTask.run p = .ok (t, p') ∧ cs <:+ p.chunks ∧ t.description = textOf cs := by
  have hfinish : ∀ m : ParseM Task, Reads m → ∃ t p' cs,
      (do let t ← m; return { t with description := ← description } : ParseM Task).run p =
        .ok (t, p') ∧ cs <:+ p.chunks ∧ t.description = textOf cs := by
    intro m hm
    obtain ⟨t, p₁, hrun, hp₁, hsuf⟩ := hm p hp
    obtain ⟨p₂, hdesc⟩ := description_run hp₁
    have hlast : (do return { t with description := ← description } : ParseM Task).run p₁ =
        .ok ({ t with description := p₁.rest }, p₂) := by
      rw [StateT.run_bind, hdesc]
      rfl
    refine ⟨{ t with description := p₁.rest }, p₂, p₁.chunks, ?_, hsuf, rfl⟩
    rw [StateT.run_bind, hrun]
    exact hlast
  cases hstart : p.startsCompleted with
  | true =>
    obtain ⟨t, p', cs, hrun, hrest⟩ := hfinish (do
      modify Parser.advance
      completedPrefix { Task.empty with completed := true })
      (.of_bind .advance fun _ => .completedPrefix _)
    refine ⟨t, p', cs, ?_, hrest⟩
    rw [parseTask, StateT.run_bind, StateT.run_get, pure_bind]
    simp only [hstart]
    exact hrun
  | false =>
    obtain ⟨t, p', cs, hrun, hrest⟩ := hfinish _ (.incompletePrefix Task.empty)
    refine ⟨t, p', cs, ?_, hrest⟩
    rw [parseTask, StateT.run_bind, StateT.run_get, pure_bind]
    simp only [hstart]
    exact hrun

theorem taskOf_of_run {raw : Text} (h : raw ≠ []) {t : Task} {p : Parser}
    (hrun : parseTask.run ⟨raw, chunks raw, .lenient, Quirks.NONE⟩ = .ok (t, p)) :
    taskOf raw = some t := by
  have hempty : raw.isEmpty = false := by
    cases raw with
    | nil => exact absurd rfl h
    | cons c raw => rfl
  rw [taskOf, parseLine, parseLineWithSchemes, hempty]
  simp only [Bool.false_eq_true, if_false]
  rw [hrun]
  rfl

/-- A line that is not empty is a task, its description the text of its last chunks. -/
theorem taskOf_spec {raw : Text} (h : raw ≠ []) :
    ∃ t cs, taskOf raw = some t ∧ cs <:+ chunks raw ∧ t.description = textOf cs := by
  obtain ⟨t, p', cs, hrun, hsuf, hdesc⟩ :=
    parseTask_reads (p := ⟨raw, chunks raw, .lenient, Quirks.NONE⟩) rfl
  exact ⟨t, cs, taskOf_of_run h hrun, hsuf, hdesc⟩

theorem taskOf_nil : taskOf [] = none := rfl

end Txtodo
