import Txtodo.Engine.Proofs.AssignIdsProofs
import Txtodo.Engine.Proofs.ReplayProofs
import Txtodo.Engine.Proofs.EvenBlanksProofs

/-!
# Proofs: settling a reconcile

The synthesis ends whatever the document, the copy it works on is the one its ops make, and adopting
another document's stamps leaves the text alone; so what is settled renders the reconciled file.
-/

namespace Txtodo

/-- What every step of a fold that may fail keeps holds where the fold ends. -/
theorem foldlM_keeps {α β : Type} {P : α → Prop} {f : α → β → Option α}
    (h : ∀ a b a', P a → f a b = some a' → P a') (l : List β) {a a' : α} (ha : P a)
    (hrun : l.foldlM f a = some a') : P a' := by
  induction l generalizing a with
  | nil =>
    obtain rfl := Option.some.inj hrun
    exact ha
  | cons b l ih =>
    rw [List.foldlM_cons] at hrun
    obtain ⟨a₁, hstep, hrest⟩ := Option.bind_eq_some_iff.1 hrun
    exact ih (h a b a₁ ha hstep) hrest

/-! ## The copy a pass works on -/

/-- The pass works on the document its ops make of `s`. -/
structure Pass.Made (s : DocState) (pass : Pass) : Prop where
  sound : pass.work.Sound
  fits : pass.work.Fits
  replays : s.replayNewest pass.ops = some pass.work

namespace Pass

variable {s target : DocState} {pass pass' : Pass} {after : Option TaskId} {want : Nat}

theorem made_start (hs : s.Sound) (hfits : s.Fits) : (Pass.mk s []).Made s := ⟨hs, hfits, rfl⟩

theorem Made.push (h : pass.Made s) {kind : OpKind} (hpush : pass.push kind = some pass') :
    pass'.Made s := by
  obtain ⟨work, hwork, rfl⟩ := Option.map_eq_some_iff.1 hpush
  refine ⟨DocState.sound_applyNewest h.sound hwork, DocState.fits_applyNewest h.fits hwork, ?_⟩
  rw [DocState.replayNewest, List.foldlM_append]
  exact Option.bind_eq_some_iff.2 ⟨pass.work, h.replays, by simpa using hwork⟩

theorem Made.pushDelete (h : pass.Made s) {id : TaskId} (hpush : pass.pushDelete id = some pass') :
    pass'.Made s := by
  obtain ⟨kind, -, hkind⟩ := Option.bind_eq_some_iff.1 hpush
  exact h.push hkind

theorem Made.carry (h : pass.Made s) {how : Changed} {task : TaskId × OwnedLine}
    (hcarry : carry target how pass task = some pass') : pass'.Made s := by
  unfold Pass.carry at hcarry
  split at hcarry
  · exact h.pushDelete hcarry
  · split_ifs at hcarry
    · exact Option.some.inj hcarry ▸ h
    · exact h.pushDelete hcarry
    · exact foldlM_keeps (P := Made s) (fun _ _ _ h hpush => h.push hpush) _ h hcarry

theorem Made.deleteAndChange (h : pass.Made s) {current : DocState} {how : Changed}
    (hrun : pass.deleteAndChange current target how = some pass') : pass'.Made s :=
  foldlM_keeps (P := Made s) (fun _ _ _ h hcarry => h.carry hcarry) _ h hrun

theorem Made.place (h : pass.Made s) {path : FilePath} {k : Nat} {prev : Option TaskId}
    {id : TaskId} {line : OwnedLine} (hplace : pass.place path k prev id line = some pass') :
    pass'.Made s := by
  unfold Pass.place at hplace
  split at hplace
  · split_ifs at hplace
    · exact Option.some.inj hplace ▸ h
    · exact h.push hplace
  · obtain ⟨raw, -, hpush⟩ := Option.bind_eq_some_iff.1 hplace
    exact h.push hpush

theorem Made.placeFrom (h : pass.Made s) {path : FilePath} {k : Nat} {prev : Option TaskId}
    {tasks : List (TaskId × OwnedLine)} (hrun : placeFrom path pass k prev tasks = some pass') :
    pass'.Made s := by
  induction tasks generalizing pass k prev with
  | nil => exact Option.some.inj hrun ▸ h
  | cons task tasks ih =>
    obtain ⟨pass₁, hplace, hrest⟩ := Option.bind_eq_some_iff.1 hrun
    exact ih (h.place hplace) hrest

theorem Made.evenTurn_go (h : pass.Made s) (hturn : evenTurn after want pass = .inl pass') :
    pass'.Made s := by
  obtain ⟨have_, -, -, hpush⟩ := evenTurn_push hturn
  exact h.push hpush

theorem Made.evenTurn_stop (h : pass.Made s) {result : Option Pass}
    (hturn : evenTurn after want pass = .inr result) : ∀ pass' ∈ result, pass'.Made s := by
  unfold evenTurn at hturn
  split at hturn
  · obtain rfl := Sum.inr.inj hturn
    simp
  · split_ifs at hturn
    · obtain rfl := Sum.inr.inj hturn
      simpa using h
    all_goals
      split at hturn
      · obtain rfl := Sum.inr.inj hturn
        simp
      · cases hturn

/-- Evening out the blanks returns, whatever the bound on its turns past some number. -/
theorem evenRuns_returns (target : DocState) (h : pass.Made s) (anchors : List (Option TaskId)) :
    ∃ result n, (∀ fuel, n ≤ fuel → evenRuns fuel target pass anchors = some result) ∧
      ∀ pass' ∈ result, pass'.Made s := by
  induction anchors generalizing pass with
  | nil => exact ⟨some pass, 0, fun _ _ => rfl, by simpa using h⟩
  | cons after anchors ih =>
    cases hwant : target.blanksAfter after with
    | none => exact ⟨none, 0, fun fuel _ => by rw [evenRuns, hwant], by simp⟩
    | some want =>
      have hends : Loop.Ends (evenTurn after want) pass := evenTurn_ends h.sound h.fits
      obtain ⟨looped, n, hloop⟩ := hends.exists_result
      have hmade : ∀ pass' ∈ looped, pass'.Made s :=
        Loop.result_of_invariant (P := Made s) (fun _ _ h hturn => h.evenTurn_go hturn)
          (fun _ _ h hturn => h.evenTurn_stop hturn) h (hloop n le_rfl)
      cases looped with
      | none =>
        exact ⟨none, n, fun fuel hfuel => by simp only [evenRuns, hwant, hloop fuel hfuel], by simp⟩
      | some pass₁ =>
        obtain ⟨result, m, hresult, hkept⟩ := ih (hmade pass₁ rfl)
        refine ⟨result, max n m, fun fuel hfuel => ?_, hkept⟩
        simp only [evenRuns, hwant, hloop fuel ((le_max_left n m).trans hfuel)]
        exact hresult fuel ((le_max_right n m).trans hfuel)

/-- A synthesis returns, and what it finds is the copy its ops make. -/
theorem synthesize_returns (hs : s.Sound) (hfits : s.Fits) (target : DocState) (how : Changed) :
    ∃ result n, (∀ fuel, n ≤ fuel → synthesize fuel s target how = some result) ∧
      ∀ found ∈ result, (Pass.mk found.2 found.1).Made s := by
  cases hdelete : (Pass.mk s []).deleteAndChange s target how with
  | none => exact ⟨none, 0, fun fuel _ => by simp only [synthesize, hdelete], by simp⟩
  | some pass =>
    cases hplace : pass.placeTasks target with
    | none => exact ⟨none, 0, fun fuel _ => by simp only [synthesize, hdelete, hplace], by simp⟩
    | some pass' =>
      have hmade : pass'.Made s :=
        ((made_start hs hfits).deleteAndChange hdelete).placeFrom hplace
      obtain ⟨result, n, heven, hkept⟩ := evenRuns_returns target hmade
        (none :: target.taskLines.map fun task => some task.1)
      refine ⟨result.bind fun pass =>
        if pass.work.sameLines target then some (pass.ops, pass.work) else none, n,
        fun fuel hfuel => ?_, fun found hfound => ?_⟩
      · simp only [synthesize, hdelete, hplace, evenBlanks, heven fuel hfuel, Option.map_some]
      · obtain ⟨pass, hpass, hfound⟩ := Option.bind_eq_some_iff.1 hfound
        split_ifs at hfound
        obtain rfl := Option.some.inj hfound
        exact hkept pass hpass

/-- The search for ops that replay returns, and what it finds is the copy its ops make. -/
theorem replayableOps_returns (hs : s.Sound) (hfits : s.Fits) (target : DocState) :
    ∃ result n, (∀ fuel, n ≤ fuel → replayableOps fuel s target = some result) ∧
      ∀ found ∈ result, (Pass.mk found.2 found.1).Made s := by
  obtain ⟨result, n, hfields, hkept⟩ := synthesize_returns hs hfits target .fields
  cases result with
  | some found =>
    exact ⟨some found, n, fun fuel hfuel => by simp only [replayableOps, hfields fuel hfuel], hkept⟩
  | none =>
    obtain ⟨result, m, hreinsert, hkept⟩ := synthesize_returns hs hfits target .reinsert
    refine ⟨result, max n m, fun fuel hfuel => ?_, hkept⟩
    simp only [replayableOps, hfields fuel ((le_max_left n m).trans hfuel)]
    exact hreinsert fuel ((le_max_right n m).trans hfuel)

end Pass

/-! ## The text of an adopted document -/

namespace DocState

variable {s replayed t : DocState}

theorem adoptShown_of_not_mem {theirs : List Nat} {i : Nat} (h : i ∉ theirs)
    (mine entries : List Entry) :
    (adoptShown entries theirs mine)[i]? = entries[i]? := by
  induction theirs generalizing mine entries with
  | nil => rw [adoptShown]; simp
  | cons j theirs ih =>
    obtain ⟨hne, hrest⟩ := not_or.1 (mt List.mem_cons.2 h)
    cases mine with
    | nil => rw [adoptShown]; simp
    | cons e mine =>
      rw [adoptShown, ih hrest, List.getElem?_set_ne (Ne.symm hne)]

/-- The replaced entries are those put in their place. -/
theorem adoptShown_replaced {theirs : List Nat} (hnodup : theirs.Nodup) (mine entries : List Entry)
    (hlt : ∀ i ∈ theirs, i < entries.length) (hlength : theirs.length = mine.length) :
    theirs.filterMap ((adoptShown entries theirs mine)[·]?) = mine := by
  induction theirs generalizing mine entries with
  | nil =>
    obtain rfl := List.eq_nil_of_length_eq_zero hlength.symm
    rfl
  | cons i theirs ih =>
    obtain ⟨e, mine, rfl⟩ := List.exists_cons_of_length_eq_add_one hlength.symm
    obtain ⟨hi, hnodup⟩ := List.nodup_cons.1 hnodup
    have hlti := hlt i (List.mem_cons_self ..)
    have hfirst : (adoptShown (entries.set i e) theirs mine)[i]? = some e := by
      rw [adoptShown_of_not_mem hi, List.getElem?_set_self hlti]
    rw [adoptShown, List.filterMap_cons_some hfirst,
      ih hnodup mine _ (fun j hj => by simpa using hlt j (List.mem_cons_of_mem _ hj))
        (by simpa using hlength)]

/-- Taking another document's sequence keeps the text. -/
theorem adoptSequence_toBytes (hr : replayed.Aligned) (h : s.adoptSequence replayed = some t) :
    t.toBytes = s.toBytes := by
  unfold adoptSequence at h
  split_ifs at h with hids
  obtain rfl := Option.some.inj h
  have hids' : s.lineIds = replayed.lineIds := not_not.1 hids
  have hlt : ∀ i ∈ replayed.visible, i < replayed.entries.length := by
    intro i hi
    rw [hr.visible_eq, List.mem_filter, List.mem_range] at hi
    exact hi.1
  have hlength : replayed.visible.length = s.visibleEntries.length := by
    rw [hr.length_visible]
    simpa [lineIds] using (congrArg List.length hids').symm
  have hcol := adoptShown_ids replayed.visible s.visibleEntries replayed.entries (by
    rw [hr.visible_ids, ← hids', lineIds, List.map_map]
    rfl)
  have hvisible : (List.range (adoptShown replayed.entries replayed.visible
      s.visibleEntries).length).filter (fun i => replayed.hidden[i]? = some false) =
        replayed.visible := by
    have hsame := congrArg List.length hcol
    rw [List.length_map, List.length_map] at hsame
    rw [hsame, ← hr.visible_eq]
  have hshown := adoptShown_replaced hr.visible_nodup s.visibleEntries replayed.entries hlt hlength
  have hentries : { s with
      entries := adoptShown replayed.entries replayed.visible s.visibleEntries
      stamps := replayed.stamps
      hidden := replayed.hidden
      parents := replayed.parents
      erasers := replayed.erasers }.reindex.visibleEntries = s.visibleEntries :=
    (congrArg (List.filterMap _) hvisible).trans hshown
  rw [toBytes, toBytes, hentries]
  rfl

/-- Adopting another document's stamps keeps the text. -/
theorem adoptStamps_toBytes (s : DocState) (hr : replayed.Aligned) :
    (s.adoptStamps replayed).toBytes = s.toBytes := by
  unfold adoptStamps
  dsimp only
  split
  · next t hadopt => exact (adoptSequence_toBytes hr hadopt).trans rfl
  · rfl

/-! ## Reading the text -/

/-- A line of text makes an entry once it has the id a task needs. -/
theorem entryOf_ok {line : OwnedLine} (index : Nat) (id : Option TaskId) (htext : line.raw.isSome)
    (hid : isTask line = true → id.isSome) :
    ∃ e, entryOf index line id = .ok e ∧ e.line = line := by
  obtain ⟨raw, hraw⟩ := Option.isSome_iff_exists.1 htext
  unfold entryOf
  cases hparse : line.parse with
  | none =>
    -- only bytes that are no text fail to parse
    exfalso
    have hnone : isTask line = false := by rw [isTask, OwnedLine.task, hparse]; rfl
    have hempty : raw = [] := by
      by_contra hne
      have := (isTask_iff line).2 ⟨raw, hraw, hne⟩
      rw [hnone] at this
      cases this
    rw [OwnedLine.parse, hraw, hempty] at hparse
    cases hparse
  | some l =>
    obtain ⟨_, kind, _, _⟩ := l
    cases kind with
    | blank => exact ⟨_, rfl, rfl⟩
    | task t =>
      obtain ⟨id, rfl⟩ := Option.isSome_iff_exists.1 (hid (by rw [isTask, OwnedLine.task, hparse]; rfl))
      exact ⟨_, rfl, rfl⟩

theorem entriesOf_ok {lines : List OwnedLine} (index : Nat) (ids : List (Option TaskId))
    (htext : ∀ line ∈ lines, line.raw.isSome)
    (hids : ∀ (i : Nat) line, lines[i]? = some line → isTask line = true →
      ∃ id, ids[i]? = some (some id)) :
    ∃ es, entriesOf index lines ids = .ok es ∧ es.map Entry.line = lines := by
  induction lines generalizing index ids with
  | nil => exact ⟨[], rfl, rfl⟩
  | cons line lines ih =>
    obtain ⟨e, he, hline⟩ := entryOf_ok index (ids.head?.getD none)
      (htext line (List.mem_cons_self ..)) fun htask => by
        obtain ⟨id, hid⟩ := hids 0 line rfl htask
        rw [List.head?_eq_getElem?, hid]
        rfl
    obtain ⟨es, hes, hlines⟩ := ih (index + 1) ids.tail
      (fun l hl => htext l (List.mem_cons_of_mem _ hl)) fun i l hl htask => by
        rw [List.getElem?_tail]
        exact hids (i + 1) l hl htask
    refine ⟨e :: es, ?_, by rw [List.map_cons, hline, hlines]⟩
    simp only [entriesOf, he, hes]
    rfl

/-- A file of text with few enough lines, each task with an id, reads as a document of its bytes. -/
theorem fromFile_ok (path : FilePath) {file : File} {ids : List (Option TaskId)}
    (mode : IdentityMode) (hroom : file.lines.length ≤ MAX_LINES_PER_FILE)
    (htext : ∀ line ∈ file.lines, line.raw.isSome)
    (hids : ∀ (i : Nat) line, file.lines[i]? = some line → isTask line = true →
      ∃ id, ids[i]? = some (some id)) :
    ∃ t, fromFile path file ids mode = .ok t ∧ t.toBytes = file.toBytes := by
  obtain ⟨es, hes, hlines⟩ := entriesOf_ok 0 ids htext hids
  have hread : fromFile path file ids mode = .ok (ofEntries path file mode es) := by
    rw [fromFile, if_neg (Nat.not_lt.2 hroom), hes]
    rfl
  refine ⟨_, hread, ?_⟩
  have hshown : (ofEntries path file mode es).visibleEntries = es := by
    rw [fromFile_slots hread, withSlots_visibleEntries, List.filter_eq_self.2]
    · simp [ofEntries, Function.comp_def, Slot.ofEntry]
    · simp [Slot.ofEntry]
  rw [toBytes, hshown, hlines]
  rfl

end DocState

/-! ## What is settled -/

namespace DocState

variable {s : DocState}

/-- Stamps of machine integers are at most the scratch stamp. -/
theorem Holds.fits (h : s.Holds Hlc.Fits) : s.Fits where
  stamps x hx := (h.stamps x hx).le_scratchStamp
  parents p hp q hq := (h.parents p hp q hq).le_scratchStamp
  fields t f x hx := (h.fields t f x hx).le_scratchStamp
  texts _ _ _ := trivial
  life t l hl := ⟨fun d hd => ((h.life t l hl).1 d hd).le_scratchStamp,
    fun r hr => ((h.life t l hl).2 r hr).le_scratchStamp⟩

end DocState

theorem fits_unplaced : unplaced.Fits := ⟨by decide, by decide, by decide⟩

namespace DocState

theorem reachable_empty (path : FilePath) (mode : IdentityMode) : (empty path mode).Reachable :=
  have hread : fromFile path File.empty [] mode = .ok (empty path mode) := rfl
  .fromFile hread List.nodup_nil

end DocState

theorem settleAdopted_spec {s adopted : DocState} (hs : s.Sound) (r : Reconciled)
    {found : Option (List OpKind × DocState)} (hadopted : adopted.toBytes = r.file.toBytes)
    (hfound : ∀ f ∈ found, (Pass.mk f.2 f.1).Made s) :
    (settleAdopted s r adopted found).next.toBytes = r.file.toBytes ∧
      ((settleAdopted s r adopted found).exact_ = true →
        s.replayNewest (settleAdopted s r adopted found).kinds =
          some (settleAdopted s r adopted found).next) := by
  cases found with
  | none =>
    refine ⟨(DocState.adoptStamps_toBytes _ hs.aligned).trans hadopted, fun h => ?_⟩
    cases h
  | some found =>
    obtain ⟨kinds, work⟩ := found
    have hmade := hfound _ rfl
    by_cases hrender : work.toBytes = r.file.toBytes
    · simp only [settleAdopted, if_pos hrender]
      exact ⟨hrender, fun _ => hmade.replays⟩
    · simp only [settleAdopted, if_neg hrender]
      exact ⟨(DocState.adoptStamps_toBytes _ hmade.sound.aligned).trans hadopted, fun h => by cases h⟩

/-- What is settled renders the reconciled file, and when it is exact its ops replay to those bytes:
for a file of text of at most `MAX_LINES_PER_FILE` lines, each task line with an id. -/
theorem settle_renders {s : DocState} (hs : s.Reachable) (hstamps : s.Holds Hlc.Fits) (r : Reconciled)
    (htext : ∀ line ∈ r.file.lines, line.raw.isSome)
    (hids : ∀ (i : Nat) line, r.file.lines[i]? = some line → isTask line = true →
      ∃ id, r.ids[i]? = some (some id))
    (hroom : r.file.lines.length ≤ MAX_LINES_PER_FILE) :
    ∃ settled n, (∀ fuel, n ≤ fuel → settle fuel s r = some (.ok settled)) ∧
      settled.next.toBytes = r.file.toBytes ∧
      (settled.exact_ = true → ∃ t, s.replayNewest settled.kinds = some t ∧
        t.toBytes = r.file.toBytes) := by
  cases hreplayed : settleReplayed r (s.replayNewest r.ops) with
  | some settled =>
    refine ⟨settled, 0, fun fuel _ => by simp only [settle, hreplayed], ?_⟩
    obtain ⟨next, hnext, hsettled⟩ := Option.bind_eq_some_iff.1 hreplayed
    split_ifs at hsettled with hrender
    obtain rfl := Option.some.inj hsettled
    exact ⟨hrender, fun _ => ⟨next, hnext, hrender⟩⟩
  | none =>
    obtain ⟨adopted, hread, hadopted⟩ := DocState.fromFile_ok s.path s.mode hroom htext hids
    obtain ⟨found, n, hfound, hmade⟩ :=
      Pass.replayableOps_returns hs.sound hstamps.fits adopted
    obtain ⟨hnext, hexact⟩ := settleAdopted_spec hs.sound r hadopted hmade
    refine ⟨settleAdopted s r adopted found, n, fun fuel hfuel => ?_, hnext, fun h => ?_⟩
    · simp only [settle, hreplayed, hread, hfound fuel hfuel, Option.map_some]
    · exact ⟨_, hexact h, hnext⟩

/-- Two lines swapped behind the document's back, with no op that says so: the replay falls short of the file,
and the adopted document renders it. -/
theorem settle_renders_swap :
    let s := DocState.ofEntries ⟨['f']⟩ (fileOf ["a", "b"]) .sidecar
      [.task (idOfBits 1) (.ofText ['a'] .lf), .task (idOfBits 2) (.ofText ['b'] .lf)]
    let r : Reconciled := ⟨[], fileOf ["b", "a"], 0, 0, [some (idOfBits 2), some (idOfBits 1)]⟩
    settleReplayed r (s.replayNewest r.ops) = none ∧
      ∃ settled n, (∀ fuel, n ≤ fuel → settle fuel s r = some (.ok settled)) ∧
        settled.next.toBytes = r.file.toBytes ∧
        (settled.exact_ = true → ∃ t, s.replayNewest settled.kinds = some t ∧
          t.toBytes = r.file.toBytes) := by
  intro s r
  have hs : DocState.fromFile ⟨['f']⟩ (fileOf ["a", "b"]) [some (idOfBits 1), some (idOfBits 2)] .sidecar =
      .ok s := rfl
  have hfallback : (settleReplayed r (s.replayNewest r.ops)).isNone = true := by decide +kernel
  refine ⟨Option.isNone_iff_eq_none.1 hfallback, ?_⟩
  refine settle_renders (.fromFile hs (by decide)) (DocState.ofEntries_holds fits_unplaced) r
    (by decide +kernel) (fun i line hi _ => ?_) (by decide +kernel)
  match i with
  | 0 => exact ⟨_, rfl⟩
  | 1 => exact ⟨_, rfl⟩
  | i + 2 => cases hi

/-! ## A file with too many lines -/

/-- A line that is blank. -/
def blankLine : OwnedLine := OwnedLine.fromBytes [] .lf

/-- The bytes of `n` blank lines. -/
def blankBytes (n : Nat) : List UInt8 := List.replicate n 10

theorem splitLines_blankBytes (n : Nat) :
    splitLines (blankBytes n) = List.replicate n ([], .lf) := by
  induction n with
  | zero => rw [blankBytes, List.replicate_zero, splitLines]; rfl
  | succ n ih =>
    have hsplit : splitLine (blankBytes (n + 1)) = (([], .lf), blankBytes n) := by
      simp [splitLine, blankBytes, List.replicate_succ, List.idxOf?_cons]
    have hne : blankBytes (n + 1) ≠ [] := List.replicate_succ_ne_nil
    rw [splitLines, dif_neg hne]
    show (splitLine (blankBytes (n + 1))).1 :: splitLines (splitLine (blankBytes (n + 1))).2 = _
    rw [hsplit, ih]
    rfl

theorem parseFile_nil : parseFile [] = File.empty := by
  simp [parseFile, splitLines, dominantEnding, File.empty, BOM]

/-- `n` blank lines read as such. -/
theorem parseFile_blankBytes (n : Nat) : (parseFile (blankBytes n)).lines = List.replicate n blankLine := by
  have hbom : decide (BOM <+: blankBytes n) = false := by
    rw [decide_eq_false_iff_not]
    intro h
    have : (0xEF : UInt8) ∈ blankBytes n := h.subset (by simp [BOM])
    rw [blankBytes, List.mem_replicate] at this
    exact absurd this.2 (by decide)
  have hending : dominantEnding (List.replicate n blankLine) = .lf := by
    rw [dominantEnding, if_neg]
    simp [List.countP_replicate, blankLine]
  simp only [parseFile, hbom, Bool.false_eq_true, if_false, splitLines_blankBytes, List.map_replicate]
  rw [show OwnedLine.fromBytes [] .lf = blankLine from rfl, hending]
  simp [blankLine]

theorem foldl_visit_of_kept (mint : Nat → TaskId) {lines : List OwnedLine}
    (h : ∀ line ∈ lines, needsId line = false) (a : Assigned) :
    lines.foldl (Assigned.visit mint) a = { a with lines := a.lines ++ lines } := by
  induction lines generalizing a with
  | nil => simp
  | cons line lines ih =>
    rw [List.foldl_cons, ih (fun l hl => h l (List.mem_cons_of_mem _ hl)), Assigned.visit,
      if_neg (by rw [h line (List.mem_cons_self ..)]; exact Bool.false_ne_true)]
    simp

theorem pairMovesFrom_of_no_delete {ka kb : List Key} {out : List LineDiff}
    (h : ∀ old, .delete old ∉ out) (rounds i : Nat) : pairMovesFrom ka kb rounds i out = out := by
  induction rounds generalizing i with
  | zero => rfl
  | succ rounds ih =>
    unfold pairMovesFrom
    split
    · rfl
    · next old hi => exact absurd (List.mem_of_getElem? hi) (h old)
    · exact ih (i + 1)

/-- Blank lines saved over an empty file are as many blanks inserted at the top. -/
theorem reconcile_blanks (n : Nat) (path : FilePath) (mint : Nat → TaskId) :
    reconcile (File.empty) (parseFile (blankBytes n)) path mint =
      some ⟨List.replicate n (.blankInsert none), parseFile (blankBytes n), 0, 0,
        List.replicate n none⟩ := by
  have hlines := parseFile_blankBytes n
  have hassign : assignIds (File.empty) (parseFile (blankBytes n)) mint =
      (parseFile (blankBytes n), 0, 0) := by
    rw [assignIds, foldl_visit_of_kept mint fun line hline => ?_]
    · rfl
    · rw [hlines] at hline
      rw [(List.mem_replicate.1 hline).2]
      decide +kernel
  obtain ⟨steps, hmyers, hscript, -⟩ :=
    myers_spec (File.empty.lines.map keyOf) ((parseFile (blankBytes n)).lines.map keyOf)
  have hsteps : steps = (List.range n).map EditGraph.Step.insert := by
    rw [EditGraph.Script.eq_inserts hscript, hlines, List.map_replicate, List.length_replicate,
      Nat.sub_zero, List.range_eq_range']
  have hdiffs : diffLines File.empty (parseFile (blankBytes n)) =
      some ((List.range n).map LineDiff.insert) := by
    rw [diffLines, hmyers, Option.map_some, hsteps, List.map_map]
    congr 1
    exact pairMovesFrom_of_no_delete (by simp [lineDiffOf]) _ _
  have hids : (parseFile (blankBytes n)).lines.map fastIdOf = List.replicate n none := by
    rw [hlines, List.map_replicate, show fastIdOf blankLine = none by decide +kernel]
  have hprev : ∀ i, prevTask (List.replicate n none) i = none := by
    intro i
    rw [prevTask, List.take_replicate, List.reverse_replicate]
    exact List.findSome?_eq_none_iff.2 fun x hx => (List.mem_replicate.1 hx).2
  have hat : ∀ i ∈ List.range n, (List.replicate n (none : Option TaskId))[i]? = some none :=
    fun i hi => List.getElem?_replicate_of_lt (List.mem_range.1 hi)
  have hdelete : deletePass ((List.range n).map LineDiff.insert) [] = [] := by simp [deletePass]
  have hchange : changePass ((List.range n).map LineDiff.insert) File.empty []
      (parseFile (blankBytes n)) = [] := by
    simp [changePass]
  have htask : taskPass ((List.range n).map LineDiff.insert) (parseFile (blankBytes n))
      (List.replicate n none) path = [] := by
    rw [taskPass, List.filterMap_map, List.filterMap_eq_nil_iff]
    intro i hi
    simp [hat i hi]
  have hblank : blankPass ((List.range n).map LineDiff.insert) (List.replicate n none) =
      List.replicate n (.blankInsert none) := by
    rw [blankPass, List.filterMap_map, List.filterMap_congr (g := fun _ => some (.blankInsert none))
      fun i hi => by simp [hat i hi, hprev], List.filterMap_eq_map', List.map_const',
      List.length_range]
  rw [reconcile, hassign]
  simp only [hids, hdiffs, Option.map_some]
  rw [show File.empty.lines.map fastIdOf = [] from rfl, hdelete, hchange, htask, hblank]
  rfl

namespace DocState

/-- Blank inserts at the top of a document of shown slots apply only while there is room. -/
theorem replayNewest_blanks {s t : DocState} (hs : s.Sound) (hfits : s.Fits)
    (hshown : ∀ x ∈ s.slots, x.hidden = false ∧ x.eraser = false) {n : Nat}
    (h : s.replayNewest (List.replicate n (.blankInsert none)) = some t) (hn : 0 < n) :
    s.slots.length + n ≤ MAX_LINES_PER_FILE := by
  induction n generalizing s with
  | zero => cases hn
  | succ n ih =>
    rw [List.replicate_succ, replayNewest, List.foldlM_cons] at h
    obtain ⟨s', hfirst, hrest⟩ := Option.bind_eq_some_iff.1 h
    have hfirst' : s.applyNewest (blankOp none false) = some s' := hfirst
    obtain ⟨hroom, line, parent, hslots⟩ := applyNewest_blankOp hs hfits
      (List.nil_append s.slots).symm (.top _) hfirst'
    have hvisible : s.visible.length = s.slots.length := by
      have hlength := hs.aligned.length_slots
      have hghosts : Slots.ghosts s.slots = 0 :=
        List.countP_eq_zero.2 fun x hx => by simp [(hshown x hx).1]
      omega
    have hshown' : ∀ x ∈ newestBlank line parent false :: s.slots,
        x.hidden = false ∧ x.eraser = false := by
      intro x hx
      rcases List.mem_cons.1 hx with rfl | hx
      · exact ⟨rfl, rfl⟩
      · exact hshown x hx
    have hsettle : Slots.settleErasers (newestBlank line parent false :: s.slots) =
        newestBlank line parent false :: s.slots :=
      if_neg (by
        rw [List.any_eq_true]
        rintro ⟨x, hx, heraser⟩
        exact absurd heraser (by simp [(hshown' x hx).2]))
    have hslots' : s'.slots = newestBlank line parent false :: s.slots := by
      rw [hslots, List.nil_append, hsettle, Slots.prune_of_le]
      rw [Slots.ghosts, List.countP_eq_zero.2 fun x hx => by simp [(hshown' x hx).1]]
      exact Nat.zero_le _
    have hlength : s'.slots.length = s.slots.length + 1 := by rw [hslots', List.length_cons]
    have := hroom rfl
    cases n with
    | zero => omega
    | succ n =>
      have := ih (sound_applyNewest hs hfirst) (fits_applyNewest hfits hfirst)
        (hslots' ▸ hshown') hrest (Nat.succ_pos _)
      omega

end DocState

theorem settle_refused {s : DocState} {r : Reconciled} {e : StateError} (fuel : Nat)
    (hreplayed : s.replayNewest r.ops = none)
    (hread : DocState.fromFile s.path r.file r.ids s.mode = .error e) :
    settle fuel s r = some (.error e) := by
  simp only [settle, hreplayed, settleReplayed, Option.bind_none, hread]

/-- Settling a file of too many blank lines over an empty document is refused. -/
theorem settle_blanks (path : FilePath) (mode : IdentityMode) {n : Nat} (hn : MAX_LINES_PER_FILE < n)
    (ids : List (Option TaskId)) (fuel : Nat) :
    settle fuel (DocState.empty path mode)
        ⟨List.replicate n (.blankInsert none), parseFile (blankBytes n), 0, 0, ids⟩ =
      some (.error (.tooManyLines n)) := by
  have hreplay : (DocState.empty path mode).replayNewest (List.replicate n (.blankInsert none)) =
      none := by
    by_contra hne
    obtain ⟨t, ht⟩ := Option.ne_none_iff_exists'.1 hne
    have hroom := DocState.replayNewest_blanks (DocState.reachable_empty _ _).sound
      (DocState.ofEntries_holds fits_unplaced).fits (fun x hx => absurd hx List.not_mem_nil) ht
      (Nat.zero_lt_of_lt hn)
    omega
  refine settle_refused fuel hreplay ?_
  show DocState.fromFile path (parseFile (blankBytes n)) ids mode = _
  rw [DocState.fromFile, parseFile_blankBytes, List.length_replicate, if_pos hn]

/-- A file of one blank line too many over an empty document: its reconcile is refused. -/
theorem settle_refuses_long_file :
    ∃ r, (DocState.empty ⟨['f']⟩ .tagged).Reachable ∧
      (DocState.empty ⟨['f']⟩ .tagged).Holds Hlc.Fits ∧
      reconcile (parseFile (DocState.empty ⟨['f']⟩ .tagged).toBytes)
        (parseFile (blankBytes (MAX_LINES_PER_FILE + 1))) ⟨['f']⟩ mintFrom100 = some r ∧
      (∀ line ∈ r.file.lines, line.raw.isSome ∧ isTask line = false) ∧
      ∀ fuel, settle fuel (DocState.empty ⟨['f']⟩ .tagged) r =
        some (.error (.tooManyLines (MAX_LINES_PER_FILE + 1))) := by
  have hbytes : parseFile (DocState.empty ⟨['f']⟩ .tagged).toBytes = File.empty := parseFile_nil
  generalize hn : MAX_LINES_PER_FILE + 1 = n
  rw [hbytes]
  refine ⟨_, DocState.reachable_empty _ _, DocState.ofEntries_holds fits_unplaced,
    reconcile_blanks n _ _, fun line hline => ?_, settle_blanks _ _ (by omega) _⟩
  rw [parseFile_blankBytes] at hline
  rw [(List.mem_replicate.1 hline).2]
  decide +kernel

end Txtodo
