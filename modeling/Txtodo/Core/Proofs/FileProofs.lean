import Txtodo.Core.File

/-!
# Files round-trip

A parsed file writes back the bytes it was read from. After lines are inserted, removed and moved the
bytes read back as the same lines, unless a line's last carriage return or a first line's byte order mark
is taken for the file's own.
-/

namespace Txtodo

/-! ## Lines as written -/

/-- The bytes of lines with their endings. -/
def flatLines (ls : List (List UInt8 × LineEnding)) : List UInt8 := ls.flatMap fun l => l.1 ++ l.2.asBytes

/-- The lines of a file with the endings they are written with: only the last may have none. -/
def File.writtenLines (f : File) : List OwnedLine → List (List UInt8 × LineEnding)
  | [] => []
  | [line] => [(line.bytes, line.ending)]
  | line :: rest =>
    (line.bytes, if line.ending = .none then f.terminator else line.ending) :: f.writtenLines rest

namespace File

variable {f : File}

theorem linesBytes_eq (f : File) (lines : List OwnedLine) :
    f.linesBytes lines = flatLines (f.writtenLines lines) := by
  fun_induction File.linesBytes f lines with
  | case1 => rfl
  | case2 line => simp [writtenLines, flatLines]
  | case3 line rest hne ih =>
    rw [writtenLines, ih]
    · rfl
    · exact hne

theorem writtenLines_texts (f : File) (lines : List OwnedLine) :
    (f.writtenLines lines).map (·.1) = lines.map (·.bytes) := by
  fun_induction File.writtenLines f lines with
  | case1 => rfl
  | case2 line => rfl
  | case3 line rest hne ih => rw [List.map_cons, List.map_cons, ih]

end File

/-- Lines as a file can hold them: no newline inside, and only the last without an ending, not empty. -/
def ProperLines : List (List UInt8 × LineEnding) → Prop
  | [] => True
  | l :: ls => 10 ∉ l.1 ∧ (l.2 = .none → l.1 ≠ [] ∧ ls = []) ∧ ProperLines ls

/-- The bytes, the ending of a line. -/
def OwnedLine.piece (line : OwnedLine) : List UInt8 × LineEnding := (line.bytes, line.ending)

/-- Proper lines are written as they are. -/
theorem File.writtenLines_of_proper (f : File) {lines : List OwnedLine}
    (h : ProperLines (lines.map OwnedLine.piece)) :
    f.writtenLines lines = lines.map OwnedLine.piece := by
  fun_induction File.writtenLines f lines with
  | case1 => rfl
  | case2 line => rfl
  | case3 line rest hne ih =>
    obtain ⟨-, hended, hrest⟩ := h
    have hending : line.ending ≠ .none := fun hnone =>
      hne (List.map_eq_nil_iff.1 (hended hnone).2)
    rw [if_neg hending, ih hrest]
    rfl

/-! ## Splitting -/

section Splitting
variable {b rest : List UInt8}

theorem idxOf?_newline (h : 10 ∉ b) (rest : List UInt8) :
    (b ++ 10 :: rest).idxOf? 10 = some b.length := by
  induction b with
  | nil => rfl
  | cons x b ih =>
    rw [List.mem_cons, not_or] at h
    rw [List.cons_append, List.idxOf?_cons, ih h.2, if_neg (by simpa using Ne.symm h.1)]
    rfl

/-- A line up to a newline: a carriage return in front of it belongs to the ending. -/
theorem splitLine_newline (h : 10 ∉ b) (rest : List UInt8) :
    splitLine (b ++ 10 :: rest) =
      (if b.getLast? = some 13 then (b.dropLast, .crlf) else (b, .lf), rest) := by
  have htake : (b ++ 10 :: rest).take b.length = b := List.take_left
  have hdrop : (b ++ 10 :: rest).drop (b.length + 1) = rest := by
    rw [← List.drop_drop, List.drop_left]
    rfl
  unfold splitLine
  rw [idxOf?_newline h]
  dsimp only
  rw [htake, hdrop]
  split_ifs <;> rfl

theorem splitLine_last (h : 10 ∉ b) : splitLine b = ((b, .none), []) := by
  have hnone : b.idxOf? 10 = none := List.idxOf?_eq_none_iff.2 h
  unfold splitLine
  rw [hnone]

/-- What one line off a body is. -/
theorem splitLine_spec {body : List UInt8} (hne : body ≠ []) :
    body = (splitLine body).1.1 ++ (splitLine body).1.2.asBytes ++ (splitLine body).2 ∧
      10 ∉ (splitLine body).1.1 ∧
      ((splitLine body).1.2 = .none → (splitLine body).1.1 ≠ [] ∧ (splitLine body).2 = []) := by
  by_cases hnl : 10 ∈ body
  · obtain ⟨b, rest, rfl, hb⟩ := List.eq_append_cons_of_mem hnl
    rw [splitLine_newline hb]
    split_ifs with hcr
    · have hb' : b.dropLast ++ [13] = b := List.dropLast_append_getLast? 13 hcr
      refine ⟨?_, fun hmem => hb ((List.dropLast_sublist b).subset hmem), fun h => by cases h⟩
      calc b ++ 10 :: rest
        _ = b.dropLast ++ [13] ++ 10 :: rest := by rw [hb']
        _ = b.dropLast ++ LineEnding.crlf.asBytes ++ rest := by simp [LineEnding.asBytes]
    · exact ⟨by simp [LineEnding.asBytes], hb, fun h => by cases h⟩
  · rw [splitLine_last hnl]
    exact ⟨by simp [LineEnding.asBytes], hnl, fun _ => ⟨hne, rfl⟩⟩

/-- The lines of a body are proper and write it back. -/
theorem splitLines_spec (body : List UInt8) :
    flatLines (splitLines body) = body ∧ ProperLines (splitLines body) := by
  fun_induction splitLines body with
  | case1 => exact ⟨rfl, trivial⟩
  | case2 body hne hlt ih =>
    obtain ⟨hbody, hline, hended⟩ := splitLine_spec hne
    obtain ⟨hflat, hproper⟩ := ih
    constructor
    · rw [flatLines, List.flatMap_cons, ← flatLines, hflat]
      exact hbody.symm
    · refine ⟨hline, fun hnone => ?_, hproper⟩
      obtain ⟨hne', hrest⟩ := hended hnone
      rw [hrest, splitLines, dif_pos rfl]
      exact ⟨hne', rfl⟩

/-- A written line as it is read back: a carriage return in front of a bare newline joins the ending. -/
def reread (l : List UInt8 × LineEnding) : List UInt8 × LineEnding :=
  if l.2 = .lf ∧ l.1.getLast? = some 13 then (l.1.dropLast, .crlf) else l

/-- Proper lines split back line by line. -/
theorem splitLines_flatLines {ls : List (List UInt8 × LineEnding)} (h : ProperLines ls) :
    splitLines (flatLines ls) = ls.map reread := by
  induction ls with
  | nil => rw [flatLines, List.flatMap_nil, splitLines, dif_pos rfl]; rfl
  | cons l ls ih =>
    obtain ⟨hline, hended, hrest⟩ := h
    obtain ⟨b, ending⟩ := l
    have hflat : flatLines ((b, ending) :: ls) = b ++ (ending.asBytes ++ flatLines ls) := by
      rw [flatLines, List.flatMap_cons, List.append_assoc]
      rfl
    cases ending with
    | lf =>
      have hbody : flatLines ((b, .lf) :: ls) = b ++ 10 :: flatLines ls := hflat
      rw [hbody, splitLines, dif_neg (by simp)]
      dsimp only
      rw [splitLine_newline hline]
      dsimp only
      rw [ih hrest, List.map_cons, reread]
      simp only [true_and]
    | crlf =>
      have hbody : flatLines ((b, .crlf) :: ls) = (b ++ [13]) ++ 10 :: flatLines ls := by
        rw [hflat, List.append_assoc]
        rfl
      rw [hbody, splitLines, dif_neg (by simp)]
      dsimp only
      rw [splitLine_newline (by simpa using hline)]
      dsimp only
      rw [ih hrest, List.map_cons, reread]
      simp
    | none =>
      obtain ⟨hne, rfl⟩ := hended rfl
      have hbody : flatLines [(b, .none)] = b := by simp [flatLines, LineEnding.asBytes]
      rw [hbody, splitLines, dif_neg hne]
      dsimp only
      rw [splitLine_last hline, splitLines, dif_pos rfl]
      rfl

theorem reread_text_eq_iff (l : List UInt8 × LineEnding) :
    (reread l).1 = l.1 ↔ ¬(l.2 = .lf ∧ l.1.getLast? = some 13) := by
  unfold reread
  split_ifs with h
  · refine iff_of_false (fun heq => ?_) (not_not.2 h)
    have hlen := congrArg List.length (List.dropLast_append_getLast? 13 h.2)
    have heq : l.1.dropLast = l.1 := heq
    rw [heq, List.length_append] at hlen
    simp at hlen
  · exact iff_of_true rfl h

end Splitting

/-! ## Files -/

/-- The bytes after the byte order mark. -/
def bodyOf (bytes : List UInt8) : List UInt8 := if BOM <+: bytes then bytes.drop BOM.length else bytes

theorem parseFile_pieces (bytes : List UInt8) :
    (parseFile bytes).lines.map OwnedLine.piece = splitLines (bodyOf bytes) := by
  unfold parseFile bodyOf
  simp only [List.map_map, decide_eq_true_eq]
  refine Eq.trans (List.map_congr_left fun l _ => ?_) (List.map_id _)
  rw [Function.comp_apply, Function.comp_apply]
  split_ifs <;> rfl

theorem parseFile_bom (bytes : List UInt8) : (parseFile bytes).bom = decide (BOM <+: bytes) := rfl

theorem parseFile_proper (bytes : List UInt8) :
    ProperLines ((parseFile bytes).lines.map OwnedLine.piece) := by
  rw [parseFile_pieces]
  exact (splitLines_spec _).2

/-- No byte is lost or added. -/
theorem toBytes_parseFile (bytes : List UInt8) : (parseFile bytes).toBytes = bytes := by
  have hlines : (parseFile bytes).linesBytes (parseFile bytes).lines = bodyOf bytes := by
    rw [File.linesBytes_eq, File.writtenLines_of_proper _ (parseFile_proper bytes),
      parseFile_pieces, (splitLines_spec _).1]
  rw [File.toBytes, hlines, parseFile_bom, bodyOf]
  simp only [decide_eq_true_eq]
  split_ifs with hbom
  · obtain ⟨rest, rfl⟩ := hbom
    rw [List.drop_left]
  · rfl

/-! ## Edits -/

/-- A change to a file's lines. An inserted line ends as the file's lines do. -/
inductive LineEdit where
  | insert (at_ : Nat) (bytes : List UInt8)
  | remove (at_ : Nat)
  | move (from_ to_ : Nat)

def LineEdit.lines (ending : LineEnding) (lines : List OwnedLine) : LineEdit → List OwnedLine
  | .insert at_ bytes => lines.insertIdx at_ (OwnedLine.fromBytes bytes ending)
  | .remove at_ => lines.eraseIdx at_
  | .move from_ to_ =>
    match lines[from_]? with
    | some line => (lines.eraseIdx from_).insertIdx to_ line
    | none => lines

/-- The file after some edits. -/
def File.edited (f : File) (edits : List LineEdit) : File :=
  { f with lines := edits.foldl (LineEdit.lines f.ending) f.lines }

/-- An inserted line has no newline inside. -/
def LineEdit.Valid : LineEdit → Prop
  | .insert _ bytes => 10 ∉ bytes
  | .remove _ => True
  | .move _ _ => True

/-- What every line of an edited file is: no newline inside, and not empty where it has no ending. -/
def OwnedLine.Sound (line : OwnedLine) : Prop :=
  10 ∉ line.bytes ∧ (line.ending = .none → line.bytes ≠ [])

/-- No line's text is mistaken when the file is read back: none ends in a carriage return in front of a
bare newline, and the first is not taken for a byte order mark. -/
structure File.Rereads (f : File) : Prop where
  carriage : ∀ l ∈ f.writtenLines f.lines, ¬(l.2 = .lf ∧ l.1.getLast? = some 13)
  mark : f.bom = false → ∀ line ∈ f.lines.head?, ¬BOM <+: line.bytes

section Edits
variable {f : File} {lines : List OwnedLine}

theorem ProperLines.sound (h : ProperLines (lines.map OwnedLine.piece)) :
    ∀ line ∈ lines, line.Sound := by
  induction lines with
  | nil => exact fun _ hline => by cases hline
  | cons line lines ih =>
    obtain ⟨hline, hended, hrest⟩ := h
    exact List.forall_mem_cons.2 ⟨⟨hline, fun hnone => (hended hnone).1⟩, ih hrest⟩

theorem eq_or_mem_of_mem_insertIdx {line inserted : OwnedLine} {at_ : Nat}
    (h : line ∈ lines.insertIdx at_ inserted) : line = inserted ∨ line ∈ lines := by
  by_cases hle : at_ ≤ lines.length
  · exact (List.mem_insertIdx hle).1 h
  · rw [List.insertIdx_of_length_lt (by omega)] at h
    exact .inr h

theorem LineEdit.sound {ending : LineEnding} (hending : ending ≠ .none) {edit : LineEdit}
    (hedit : edit.Valid) (h : ∀ line ∈ lines, line.Sound) :
    ∀ line ∈ edit.lines ending lines, line.Sound := by
  intro line hline
  cases edit with
  | insert at_ bytes =>
    rcases eq_or_mem_of_mem_insertIdx hline with rfl | hline
    · exact ⟨hedit, fun hnone => absurd hnone hending⟩
    · exact h line hline
  | remove at_ => exact h line (List.mem_of_mem_eraseIdx hline)
  | move from_ to_ =>
    dsimp only [LineEdit.lines] at hline
    split at hline
    · rename_i moved hmoved
      rcases eq_or_mem_of_mem_insertIdx hline with rfl | hline
      · exact h line (List.mem_of_getElem? hmoved)
      · exact h line (List.mem_of_mem_eraseIdx hline)
    · exact h line hline

theorem edited_sound (hending : f.ending ≠ .none) {edits : List LineEdit}
    (hedits : ∀ edit ∈ edits, edit.Valid) (h : ∀ line ∈ f.lines, line.Sound) :
    ∀ line ∈ (f.edited edits).lines, line.Sound := by
  have hfold : ∀ (edits : List LineEdit), (∀ edit ∈ edits, edit.Valid) → ∀ lines : List OwnedLine,
      (∀ line ∈ lines, line.Sound) →
        ∀ line ∈ edits.foldl (LineEdit.lines f.ending) lines, line.Sound := by
    intro edits
    induction edits with
    | nil => exact fun _ lines hlines => hlines
    | cons edit edits ih =>
      intro hedits lines hlines
      obtain ⟨hedit, hedits⟩ := List.forall_mem_cons.1 hedits
      exact ih hedits _ (LineEdit.sound hending hedit hlines)
  exact hfold edits hedits f.lines h

/-- The written lines of sound ones are proper. -/
theorem writtenLines_proper (hending : f.ending ≠ .none) (h : ∀ line ∈ lines, line.Sound) :
    ProperLines (f.writtenLines lines) := by
  have hterm : f.terminator ≠ .none := by
    unfold File.terminator
    split
    · exact fun h => by cases h
    · exact hending
  fun_induction File.writtenLines f lines with
  | case1 => trivial
  | case2 line =>
    obtain ⟨hnl, hne⟩ := h line (List.mem_cons_self ..)
    exact ⟨hnl, fun hnone => ⟨hne hnone, rfl⟩, trivial⟩
  | case3 line rest hne ih =>
    obtain ⟨hline, hrest⟩ := List.forall_mem_cons.1 h
    refine ⟨hline.1, fun hnone => ?_, ih hrest⟩
    dsimp only at hnone
    split_ifs at hnone with hown
    · exact absurd hnone hterm
    · exact absurd hnone hown

end Edits

theorem dominantEnding_ne_none (lines : List OwnedLine) : dominantEnding lines ≠ .none := by
  unfold dominantEnding
  split_ifs
  · exact fun h => by cases h
  · exact fun h => by cases h

/-- A byte order mark in front of the lines is in the first one. -/
theorem mark_in_first {l : List UInt8 × LineEnding} {ls : List (List UInt8 × LineEnding)}
    (hproper : ProperLines (l :: ls)) (h : BOM <+: flatLines (l :: ls)) : BOM <+: l.1 := by
  obtain ⟨b, ending⟩ := l
  obtain ⟨-, hended, -⟩ := hproper
  have hflat : flatLines ((b, ending) :: ls) = b ++ (ending.asBytes ++ flatLines ls) := by
    rw [flatLines, List.flatMap_cons, List.append_assoc]
    rfl
  have hshort : ending = .none → b ++ (ending.asBytes ++ flatLines ls) = b := by
    rintro rfl
    obtain ⟨-, rfl⟩ := hended rfl
    simp [flatLines, LineEnding.asBytes]
  rw [hflat] at h
  cases ending with
  | none => rwa [hshort rfl] at h
  | lf =>
    rcases b with _ | ⟨x, _ | ⟨y, _ | ⟨z, b⟩⟩⟩ <;>
      simp [BOM, LineEnding.asBytes, List.cons_prefix_cons] at h ⊢
    exact h
  | crlf =>
    rcases b with _ | ⟨x, _ | ⟨y, _ | ⟨z, b⟩⟩⟩ <;>
      simp [BOM, LineEnding.asBytes, List.cons_prefix_cons] at h ⊢
    exact h

theorem map_reread_eq_iff (ls : List (List UInt8 × LineEnding)) :
    (ls.map reread).map (·.1) = ls.map (·.1) ↔ ∀ l ∈ ls, ¬(l.2 = .lf ∧ l.1.getLast? = some 13) := by
  rw [List.map_map, List.map_inj_left]
  exact forall₂_congr fun l _ => reread_text_eq_iff l

/-- The texts of a file's lines. -/
def File.texts (f : File) : List (List UInt8) := f.lines.map OwnedLine.bytes

theorem texts_eq (bytes : List UInt8) :
    (parseFile bytes).texts = (splitLines (bodyOf bytes)).map (·.1) := by
  rw [← parseFile_pieces, List.map_map]
  rfl

/-- A first line that starts with the mark comes back shorter, or not at all. -/
theorem texts_ne_of_mark {r : List UInt8} {ending : LineEnding} {ls : List (List UInt8 × LineEnding)}
    (h : ProperLines ((BOM ++ r, ending) :: ls)) :
    (splitLines (flatLines ((r, ending) :: ls))).map (·.1) ≠
      ((BOM ++ r, ending) :: ls).map (·.1) := by
  obtain ⟨hnl, hended, hrest⟩ := h
  have hr : 10 ∉ r := fun hmem => hnl (List.mem_append_right _ hmem)
  by_cases hempty : ending = .none ∧ r = []
  · obtain ⟨rfl, rfl⟩ := hempty
    obtain ⟨-, rfl⟩ := hended rfl
    rw [show flatLines [([], LineEnding.none)] = [] from rfl, splitLines, dif_pos rfl]
    exact fun h => by cases h
  · have hproper : ProperLines ((r, ending) :: ls) :=
      ⟨hr, fun hnone => ⟨fun hnil => hempty ⟨hnone, hnil⟩, (hended hnone).2⟩, hrest⟩
    rw [splitLines_flatLines hproper, List.map_cons, List.map_cons, List.map_cons]
    intro heq
    have hlen := congrArg List.length (List.cons.inj heq).1
    have hle : (reread (r, ending)).1.length ≤ r.length := by
      unfold reread
      split_ifs
      · simp
      · exact le_rfl
    rw [List.length_append, BOM] at hlen
    simp only [List.length_cons, List.length_nil] at hlen
    omega

/-- What is read back are the lines written, but for a byte order mark the file does not have. -/
theorem texts_parseFile_toBytes_iff {f : File} (h : ProperLines (f.writtenLines f.lines)) :
    (parseFile f.toBytes).texts = f.texts ↔ f.Rereads := by
  have hbytes : f.toBytes = (if f.bom then BOM else []) ++ flatLines (f.writtenLines f.lines) := by
    rw [File.toBytes, File.linesBytes_eq]
  have htexts : f.texts = (f.writtenLines f.lines).map (·.1) := (f.writtenLines_texts f.lines).symm
  have hhead : (f.writtenLines f.lines).head?.map (·.1) = f.lines.head?.map OwnedLine.bytes := by
    rw [← List.head?_map, ← List.head?_map, f.writtenLines_texts]
  have hplain : bodyOf f.toBytes = flatLines (f.writtenLines f.lines) →
      ((parseFile f.toBytes).texts = f.texts ↔
        ∀ l ∈ f.writtenLines f.lines, ¬(l.2 = .lf ∧ l.1.getLast? = some 13)) := by
    intro hbody
    rw [texts_eq, hbody, splitLines_flatLines h, htexts, map_reread_eq_iff]
  cases hbom : f.bom with
  | true =>
    have hbody : bodyOf f.toBytes = flatLines (f.writtenLines f.lines) := by
      rw [hbytes, hbom, bodyOf, if_pos rfl, if_pos (List.prefix_append ..), List.drop_left]
    rw [hplain hbody]
    exact ⟨fun hcarriage => ⟨hcarriage, fun hno => absurd (hbom.symm.trans hno) (by decide)⟩,
      fun hrereads => hrereads.carriage⟩
  | false =>
    rw [hbom, if_neg (by decide), List.nil_append] at hbytes
    by_cases hmark : BOM <+: flatLines (f.writtenLines f.lines)
    · cases hwritten : f.writtenLines f.lines with
      | nil =>
        rw [hwritten] at hmark
        exact absurd (List.prefix_nil.1 hmark) (by decide)
      | cons l ls =>
        rw [hwritten] at h hmark hbytes hhead htexts
        obtain ⟨b, ending⟩ := l
        obtain ⟨r, rfl⟩ := mark_in_first h hmark
        have hbody : bodyOf f.toBytes = flatLines ((r, ending) :: ls) := by
          rw [hbytes, bodyOf, if_pos hmark, flatLines, List.flatMap_cons, List.append_assoc,
            List.append_assoc, List.drop_left, flatLines, List.flatMap_cons, List.append_assoc]
        refine iff_of_false ?_ fun hrereads => ?_
        · rw [texts_eq, hbody, htexts]
          exact texts_ne_of_mark h
        · obtain ⟨line, hline, hfirst⟩ := Option.map_eq_some_iff.1 hhead.symm
          exact hrereads.mark hbom line hline (hfirst ▸ List.prefix_append ..)
    · have hbody : bodyOf f.toBytes = flatLines (f.writtenLines f.lines) := by
        rw [hbytes, bodyOf, if_neg hmark]
      rw [hplain hbody]
      refine ⟨fun hcarriage => ⟨hcarriage, fun _ line hline hprefix => hmark ?_⟩,
        fun hrereads => hrereads.carriage⟩
      rw [hline, Option.map_some] at hhead
      obtain ⟨l, hl, hfirst⟩ := Option.map_eq_some_iff.1 hhead
      obtain ⟨ls, hls⟩ := List.head?_eq_some_iff.1 hl
      rw [hls, flatLines, List.flatMap_cons, List.append_assoc, hfirst]
      exact hprefix.trans (List.prefix_append ..)

/-- `parse_file` and `to_bytes` are inverse, also after edits. -/
def RoundTrips (bytes : List UInt8) (edits : List LineEdit) : Prop :=
  (parseFile bytes).toBytes = bytes ∧
    (parseFile ((parseFile bytes).edited edits).toBytes).texts = ((parseFile bytes).edited edits).texts

theorem roundTrips_iff (bytes : List UInt8) (edits : List LineEdit)
    (hedits : ∀ edit ∈ edits, edit.Valid) :
    RoundTrips bytes edits ↔ ((parseFile bytes).edited edits).Rereads := by
  have hending : (parseFile bytes).ending ≠ .none := dominantEnding_ne_none _
  have hsound := edited_sound hending hedits (parseFile_proper bytes).sound
  exact (and_iff_right (toBytes_parseFile bytes)).trans
    (texts_parseFile_toBytes_iff (writtenLines_proper hending hsound))

/-- A line appended to and moved up in a file of two lines, the last without a newline. -/
theorem roundTrips_iff_of_two :
    RoundTrips [97, 13, 10, 98] [.insert 2 [99], .move 1 0] ↔
      ((parseFile [97, 13, 10, 98]).edited [.insert 2 [99], .move 1 0]).Rereads := by
  refine roundTrips_iff _ _ fun edit hedit => ?_
  simp only [List.mem_cons, List.not_mem_nil, or_false] at hedit
  rcases hedit with rfl | rfl
  · exact (by decide : (10 : UInt8) ∉ [99])
  · trivial

/-- A line appended after `a` and a carriage return takes the return into its ending; a line that starts
with a byte order mark loses it when it becomes the first. -/
theorem edited_texts_change :
    ((∀ edit ∈ [LineEdit.insert 1 [98]], edit.Valid) ∧ ¬RoundTrips [97, 13] [.insert 1 [98]]) ∧
      (∀ edit ∈ [LineEdit.remove 0], edit.Valid) ∧
        ¬RoundTrips [120, 10, 0xEF, 0xBB, 0xBF, 121, 10] [.remove 0] := by
  refine ⟨⟨fun edit hedit => ?_, fun h => ?_⟩, fun edit hedit => ?_, fun h => ?_⟩
  · rw [List.mem_singleton.1 hedit]
    exact (by decide : (10 : UInt8) ∉ [98])
  · exact absurd h.2 (by decide +kernel)
  · rw [List.mem_singleton.1 hedit]
    trivial
  · exact absurd h.2 (by decide +kernel)

end Txtodo
