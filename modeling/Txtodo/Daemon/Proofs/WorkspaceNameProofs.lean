import Mathlib.Data.List.TakeWhile
import Txtodo.Daemon.WorkspaceName

/-!
# A rename edits only the name, where the name lines may go

The edit works line by line: the lines in front of the first `name` line, those from it to the first table,
and the rest. Its result is cut the same way, so it is made once; and the guard reads it back. What a line
scan cannot see is whether a `name` line is text inside a multi-line string.
-/

namespace Txtodo.WorkspaceName

open Mcp (isWhitespace)
open UnifiedFormat (lines lineText Ended)

/-! ## One line -/

section OneLine
variable {s : Text} {c : Char}

theorem trimStart_concat (hc : isWhitespace c = true) (s : Text) :
    trimStart (s ++ [c]) = if trimStart s = [] then [] else trimStart s ++ [c] := by
  rw [trimStart, trimStart, List.dropWhile_append, List.dropWhile_cons_of_pos hc, List.dropWhile_nil]
  simp only [List.isEmpty_iff]

/-- The newline at a line's end does not decide what the line starts with. -/
theorem head?_trimStart_newline (s : Text) : (trimStart (s ++ ['\n'])).head? = (trimStart s).head? := by
  rw [trimStart_concat rfl]
  split_ifs with hs
  · rw [hs]
  · rw [List.head?_append_of_ne_nil _ hs]

theorem startsTable_lineText (l : UnifiedFormat.Line) : startsTable (lineText l) = startsTable l.1 := by
  rw [lineText]
  split_ifs
  · rw [startsTable, startsTable, head?_trimStart_newline]
  · rfl

theorem isNameLine_concat (s : Text) : isNameLine (s ++ ['\n']) = isNameLine s := by
  have hnamed : "name".toList <+: s ++ ['\n'] ↔ "name".toList <+: s := by
    rw [List.prefix_concat_iff]
    refine or_iff_right fun heq => ?_
    have hlast := congrArg List.getLast? heq
    rw [List.getLast?_concat] at hlast
    exact absurd hlast (by decide)
  rw [isNameLine, isNameLine, stripPrefix, stripPrefix]
  by_cases h : "name".toList <+: s
  · rw [if_pos (hnamed.2 h), if_pos h, List.drop_append_of_le_length h.length_le, Option.any_some, Option.any_some,
      head?_trimStart_newline]
  · rw [if_neg (mt hnamed.1 h), if_neg h]

theorem setsName_lineText (l : UnifiedFormat.Line) : setsName (lineText l) = setsName l.1 := by
  rw [lineText]
  split_ifs
  · rw [setsName, setsName, trimStart_concat rfl]
    split_ifs with hs
    · rw [hs]
    · exact isNameLine_concat _
  · rfl

/-- A table header is no `name` line. -/
theorem setsName_of_startsTable (h : startsTable s = true) : setsName s = false := by
  rw [startsTable, decide_eq_true_eq] at h
  rw [setsName, isNameLine, stripPrefix, if_neg]
  · rfl
  · rintro ⟨rest, hrest⟩
    rw [← hrest] at h
    exact absurd h (by simp)

theorem newLine_eq (name : Text) : newLine name = "name = ".toList ++ quoted name := rfl

/-- The new line sets the name and is no table header. -/
theorem trimStart_newLine (name : Text) :
    trimStart (newLine name) = "name".toList ++ (" = ".toList ++ quoted name) := by
  have hcons : newLine name = 'n' :: ("ame = ".toList ++ quoted name) := by
    rw [newLine_eq]
    simp
  rw [hcons, trimStart, List.dropWhile_cons_of_neg (by decide)]
  simp

theorem setsName_newLine (name : Text) : setsName (newLine name) = true := by
  have hrest : trimStart (" = ".toList ++ quoted name) = "= ".toList ++ quoted name := by
    have hcons : " = ".toList ++ quoted name = ' ' :: '=' :: ' ' :: quoted name := by simp
    rw [hcons, trimStart, List.dropWhile_cons_of_pos (by decide), List.dropWhile_cons_of_neg (by decide)]
    simp
  rw [setsName, trimStart_newLine, isNameLine, stripPrefix, if_pos (List.prefix_append ..), List.drop_left,
    Option.any_some, hrest]
  simp

theorem startsTable_newLine (name : Text) : startsTable (newLine name) = false := by
  rw [startsTable, trimStart_newLine]
  simp

theorem newline_not_mem_newLine {name : Text} (h : '\n' ∉ name) : '\n' ∉ newLine name := by
  have hquoted : '\n' ∉ name.flatMap fun c => if c = '"' ∨ c = '\\' then ['\\', c] else [c] := by
    rw [List.mem_flatMap]
    rintro ⟨c, hc, hmem⟩
    have hne : '\n' ≠ c := fun heq => h (heq ▸ hc)
    split_ifs at hmem <;> simp [hne] at hmem
  rw [newLine_eq, quoted]
  simp [hquoted]

/-- A clean name is as it was typed, without a new line. -/
theorem newline_not_mem_of_clean {name : Text} (h : clean name = .ok (some name)) : '\n' ∉ name := by
  simp only [clean] at h
  split_ifs at h with hempty hcontrol hlong
  · cases h
  have htrim : trim name = name := Option.some.inj (Except.ok.inj h)
  rw [htrim, Bool.not_eq_true, List.any_eq_false] at hcontrol
  exact fun hmem => hcontrol '\n' hmem rfl

end OneLine

/-! ## The loop -/

section Loop
variable {line : Option Text} {out : Text} {l : UnifiedFormat.Line} {front held rest : List UnifiedFormat.Line}

theorem step_front (hl : startsTable l.1 = false ∧ setsName l.1 = false) :
    Put.step ⟨line, out, false⟩ (lineText l) = ⟨line, out ++ lineText l, false⟩ := by
  have htable := startsTable_lineText l
  have hname := setsName_lineText l
  rw [hl.1, startsTable] at htable
  rw [hl.2, setsName] at hname
  simp [Put.step, htable, hname]

theorem step_name (htable : startsTable l.1 = false) (hname : setsName l.1 = true) :
    Put.step ⟨line, out, false⟩ (lineText l) = ⟨none, out ++ line.getD [], false⟩ := by
  rw [← startsTable_lineText, startsTable] at htable
  rw [← setsName_lineText, setsName] at hname
  simp [Put.step, htable, hname]

theorem step_table (htable : startsTable l.1 = true) :
    Put.step ⟨line, out, false⟩ (lineText l) = ⟨none, out ++ line.getD [] ++ lineText l, true⟩ := by
  rw [← startsTable_lineText, startsTable] at htable
  simp [Put.step, htable]

/-- In front of the first `name` line and the first table nothing changes. -/
theorem foldl_front (hfront : ∀ l ∈ front, startsTable l.1 = false ∧ setsName l.1 = false) :
    (front.map lineText).foldl Put.step ⟨line, out, false⟩ = ⟨line, out ++ UnifiedFormat.text front, false⟩ := by
  induction front generalizing out with
  | nil => simp
  | cons l front ih =>
    obtain ⟨hl, hfront⟩ := List.forall_mem_cons.1 hfront
    rw [List.map_cons, List.foldl_cons, step_front hl, ih hfront, UnifiedFormat.text_cons, List.append_assoc]

/-- Once the new line is out, `name` lines are dropped up to the first table. -/
theorem foldl_held (hheld : ∀ l ∈ held, startsTable l.1 = false) :
    (held.map lineText).foldl Put.step ⟨none, out, false⟩ =
      ⟨none, out ++ UnifiedFormat.text (held.filter fun l => !setsName l.1), false⟩ := by
  induction held generalizing out with
  | nil => simp
  | cons l held ih =>
    obtain ⟨hl, hheld⟩ := List.forall_mem_cons.1 hheld
    rw [List.map_cons, List.foldl_cons]
    cases hname : setsName l.1 with
    | true =>
      rw [step_name hl hname, ih hheld, List.filter_cons_of_neg (by simp [hname]), Option.getD_none,
        List.append_nil]
    | false =>
      rw [step_front ⟨hl, hname⟩, ih hheld, List.filter_cons_of_pos (by simp [hname]), UnifiedFormat.text_cons,
        List.append_assoc]

theorem foldl_table (rest : List UnifiedFormat.Line) :
    (rest.map lineText).foldl Put.step ⟨none, out, true⟩ = ⟨none, out ++ UnifiedFormat.text rest, true⟩ := by
  induction rest generalizing out with
  | nil => simp
  | cons l rest ih =>
    have hstep : Put.step ⟨none, out, true⟩ (lineText l) = ⟨none, out ++ lineText l, true⟩ := by simp [Put.step]
    rw [List.map_cons, List.foldl_cons, hstep, ih, UnifiedFormat.text_cons, List.append_assoc]

/-- The lines behind the new one. -/
theorem foldl_kept (out : Text) (hheld : ∀ l ∈ held, startsTable l.1 = false)
    (hrest : ∀ l ∈ rest.head?, startsTable l.1 = true) :
    ∃ inTable, ((held ++ rest).map lineText).foldl Put.step ⟨none, out, false⟩ =
      ⟨none, out ++ UnifiedFormat.text (held.filter (fun l => !setsName l.1) ++ rest), inTable⟩ := by
  rw [List.map_append, List.foldl_append, foldl_held hheld]
  cases rest with
  | nil => exact ⟨false, by simp⟩
  | cons l rest =>
    refine ⟨true, ?_⟩
    rw [List.map_cons, List.foldl_cons, step_table (hrest l rfl), foldl_table, UnifiedFormat.text_append,
      UnifiedFormat.text_cons, Option.getD_none, List.append_nil, List.append_assoc, List.append_assoc]

end Loop

/-! ## The edited text -/

/-- How the edit cuts a text's lines: up to the first `name` line, up to the first table, and the rest. -/
structure Cut (front held rest : List UnifiedFormat.Line) : Prop where
  plain : ∀ l ∈ front, startsTable l.1 = false ∧ setsName l.1 = false
  top : ∀ l ∈ held, startsTable l.1 = false
  first : ∀ l ∈ held.head?, setsName l.1 = true
  table : ∀ l ∈ rest.head?, startsTable l.1 = true

/-- The lines of the edited text. A last line gets its newline before the new one. -/
def replaced (new : Option Text) (front held rest : List UnifiedFormat.Line) : List UnifiedFormat.Line :=
  let kept := held.filter (fun l => !setsName l.1) ++ rest
  match new with
  | none => front ++ kept
  | some new => front.map (fun l => (l.1, true)) ++ (new, true) :: kept

section Edit
variable {new : Option Text} {front held rest : List UnifiedFormat.Line}

/-- Lines in front of another are ended. -/
theorem map_ended (h : Ended (front ++ rest)) (hrest : rest ≠ []) : front.map (fun l => (l.1, true)) = front := by
  obtain ⟨k, rest, rfl⟩ := List.exists_cons_of_ne_nil hrest
  refine (List.map_congr_left fun l hl => ?_).trans (List.map_id front)
  have hended := (List.pairwise_append.1 h.ended).2.2 l hl k (List.mem_cons_self ..)
  exact Prod.ext rfl hended.symm

/-- The newline that `put_name_line` puts behind an unended last line. -/
theorem text_map_ended (h : Ended front) :
    UnifiedFormat.text (front.map fun l => (l.1, true)) =
      if !(UnifiedFormat.text front).isEmpty && decide ((UnifiedFormat.text front).getLast? ≠ some '\n') then
        UnifiedFormat.text front ++ ['\n']
      else UnifiedFormat.text front := by
  cases front using List.reverseRecOn with
  | nil => rfl
  | append_singleton front l =>
    have hfront := map_ended h (List.cons_ne_nil l [])
    have hplain := h.plain l (by simp)
    have hlast := h.last l (by simp)
    obtain ⟨body, ended⟩ := l
    rw [List.map_append, hfront, UnifiedFormat.text_append, UnifiedFormat.text_append, List.map_cons, List.map_nil,
      UnifiedFormat.text_cons, UnifiedFormat.text_cons, UnifiedFormat.text_nil, List.append_nil, List.append_nil]
    cases ended with
    | true => simp [lineText]
    | false =>
      have hne : body ≠ [] := hlast rfl
      have hend : body.getLast? ≠ some '\n' := fun heq => hplain (List.mem_of_getLast? heq)
      simp [lineText, hne, hend, List.getLast?_append]

theorem putNameLine_text (hcut : Cut front held rest) (hended : Ended (front ++ (held ++ rest)))
    (new : Option Text) :
    putNameLine (UnifiedFormat.text (front ++ (held ++ rest))) (new.map (· ++ ['\n'])) =
      UnifiedFormat.text (replaced new front held rest) := by
  rw [putNameLine, splitInclusive, UnifiedFormat.lines_text hended, List.map_append, List.foldl_append,
    foldl_front hcut.plain, List.nil_append]
  cases new with
  | none =>
    obtain ⟨inTable, hkept⟩ := foldl_kept (UnifiedFormat.text front) hcut.top hcut.table
    rw [Option.map_none, hkept, replaced]
    exact (UnifiedFormat.text_append ..).symm
  | some new =>
    have hnew : lineText (new, true) = new ++ ['\n'] := rfl
    rw [Option.map_some, replaced, UnifiedFormat.text_append, UnifiedFormat.text_cons, hnew]
    cases hcut' : held with
    | cons m held' =>
      subst hcut'
      obtain ⟨hm, hheld⟩ := List.forall_mem_cons.1 hcut.top
      have hname := hcut.first m rfl
      obtain ⟨inTable, hkept⟩ := foldl_kept (UnifiedFormat.text front ++ (new ++ ['\n'])) hheld hcut.table
      rw [List.cons_append, List.map_cons, List.foldl_cons, step_name hm hname, Option.getD_some, hkept,
        map_ended hended (by simp), List.filter_cons_of_neg (by simp [hname]), List.append_assoc]
    | nil =>
      subst hcut'
      cases hrest : rest with
      | cons k rest' =>
        subst hrest
        rw [List.nil_append, List.map_cons, List.foldl_cons, step_table (hcut.table k rfl), Option.getD_some,
          foldl_table, map_ended hended (by simp), List.filter_nil, List.nil_append,
          UnifiedFormat.text_cons, List.append_assoc, List.append_assoc]
      | nil =>
        subst hrest
        rw [List.append_nil, List.append_nil] at hended
        rw [text_map_ended hended]
        simp

/-- The edited lines are a text's lines. -/
theorem ended_replaced (hended : Ended (front ++ (held ++ rest))) (hnew : ∀ n ∈ new, '\n' ∉ n) :
    Ended (replaced new front held rest) := by
  have hkept : (held.filter (fun l => !setsName l.1) ++ rest).Sublist (held ++ rest) :=
    List.filter_sublist.append_right rest
  cases new with
  | none => exact hended.sublist (hkept.append_left front)
  | some new =>
    have hback := hended.sublist (hkept.trans (List.sublist_append_right ..))
    have hmem : ∀ l ∈ replaced (some new) front held rest, '\n' ∉ l.1 ∧ (l.2 = false → l.1 ≠ []) := by
      intro l hl
      rw [replaced, List.mem_append, List.mem_cons, List.mem_map] at hl
      rcases hl with ⟨k, hk, rfl⟩ | rfl | hl
      · exact ⟨hended.plain k (List.mem_append_left _ hk), nofun⟩
      · exact ⟨hnew new rfl, nofun⟩
      · exact ⟨hback.plain l hl, hback.last l hl⟩
    refine ⟨fun l hl => (hmem l hl).1, fun l hl => (hmem l hl).2, ?_⟩
    rw [replaced, List.pairwise_append]
    refine ⟨?_, List.pairwise_cons.2 ⟨fun _ _ => rfl, hback.ended⟩, ?_⟩
    · rw [List.pairwise_map]
      exact List.pairwise_of_forall fun _ _ => rfl
    · intro l hl k hk
      obtain ⟨m, hm, rfl⟩ := List.mem_map.1 hl
      rfl

/-- The edited lines are cut by the same lines, and editing them again changes nothing. -/
theorem exists_cut_replaced (hcut : Cut front held rest)
    (hnew : ∀ n ∈ new, startsTable n = false ∧ setsName n = true) :
    ∃ front' held', Cut front' held' rest ∧ replaced new front held rest = front' ++ (held' ++ rest) ∧
      replaced new front' held' rest = replaced new front held rest := by
  have hkept : ∀ l ∈ held.filter (fun l => !setsName l.1), startsTable l.1 = false ∧ setsName l.1 = false := by
    intro l hl
    obtain ⟨hl, hname⟩ := List.mem_filter.1 hl
    exact ⟨hcut.top l hl, by simpa using hname⟩
  cases new with
  | none =>
    refine ⟨front ++ held.filter (fun l => !setsName l.1), [], ⟨?_, nofun, nofun, hcut.table⟩, ?_, ?_⟩
    · exact List.forall_mem_append.2 ⟨hcut.plain, hkept⟩
    · rw [replaced, List.append_assoc, List.nil_append]
    · rw [replaced, replaced, List.filter_nil, List.nil_append, List.append_assoc]
  | some new =>
    obtain ⟨htable, hname⟩ := hnew new rfl
    have hfilter : (held.filter fun l => !setsName l.1).filter (fun l => !setsName l.1) =
        held.filter fun l => !setsName l.1 := List.filter_eq_self.2 fun l hl => by simp [(hkept l hl).2]
    refine ⟨front.map fun l => (l.1, true), (new, true) :: held.filter (fun l => !setsName l.1),
      ⟨?_, ?_, ?_, hcut.table⟩, rfl, ?_⟩
    · intro l hl
      obtain ⟨k, hk, rfl⟩ := List.mem_map.1 hl
      exact hcut.plain k hk
    · exact List.forall_mem_cons.2 ⟨htable, fun l hl => (hkept l hl).1⟩
    · rintro l ⟨⟩
      exact hname
    · rw [replaced, replaced, List.filter_cons_of_neg (by simp [hname]), hfilter, List.map_map]
      rfl

/-- Every text is cut so. -/
theorem exists_cut (text : Text) :
    ∃ front held rest, Cut front held rest ∧ lines text = front ++ (held ++ rest) ∧
      seen text = front.map Prod.fst ++ held.map Prod.fst := by
  have hseen : seen text = ((lines text).takeWhile fun l => !startsTable l.1).map Prod.fst := by
    rw [seen, textLines, List.takeWhile_map]
    rfl
  generalize htop : ((lines text).takeWhile fun l => !startsTable l.1) = top at hseen
  have hall : lines text = top ++ (lines text).dropWhile fun l => !startsTable l.1 := by
    rw [← htop, List.takeWhile_append_dropWhile]
  have htop' : ∀ l ∈ top, startsTable l.1 = false := by
    intro l hl
    rw [← htop] at hl
    simpa using List.mem_takeWhile_imp hl
  have hparts : top = (top.takeWhile fun l => !setsName l.1) ++ top.dropWhile fun l => !setsName l.1 :=
    List.takeWhile_append_dropWhile.symm
  refine ⟨top.takeWhile fun l => !setsName l.1, top.dropWhile fun l => !setsName l.1,
    (lines text).dropWhile fun l => !startsTable l.1, ⟨?_, ?_, ?_, ?_⟩, ?_, ?_⟩
  · intro l hl
    exact ⟨htop' l ((List.takeWhile_prefix _).subset hl), by simpa using List.mem_takeWhile_imp hl⟩
  · intro l hl
    exact htop' l ((List.dropWhile_suffix _).subset hl)
  · intro l hl
    have hhead := List.head?_dropWhile_not (fun l => !setsName l.1) top
    rw [Option.mem_def.1 hl] at hhead
    simpa using hhead
  · intro l hl
    have hhead := List.head?_dropWhile_not (fun l => !startsTable l.1) (lines text)
    rw [Option.mem_def.1 hl] at hhead
    simpa using hhead
  · rw [← List.append_assoc, ← hparts]
    exact hall
  · rw [← List.map_append, ← hparts, hseen]

end Edit

/-! ## Renaming -/

section Rename
variable {fromStr : FromStr} {text out : Text} {name : Option Text}

/-- The lines of an edited text, and the edit made again. -/
theorem putNameLine_spec {new : Option Text} {front held rest : List UnifiedFormat.Line}
    (hcut : Cut front held rest) (hlines : lines text = front ++ (held ++ rest))
    (hnew : ∀ n ∈ new, startsTable n = false ∧ setsName n = true ∧ '\n' ∉ n) :
    lines (putNameLine text (new.map (· ++ ['\n']))) = replaced new front held rest ∧
      putNameLine (putNameLine text (new.map (· ++ ['\n']))) (new.map (· ++ ['\n'])) =
        putNameLine text (new.map (· ++ ['\n'])) := by
  have hended : Ended (front ++ (held ++ rest)) := by
    rw [← hlines]
    exact UnifiedFormat.ended_lines text
  have hput : putNameLine text (new.map (· ++ ['\n'])) = UnifiedFormat.text (replaced new front held rest) := by
    rw [← putNameLine_text hcut hended, ← hlines, UnifiedFormat.text_lines]
  have hended' := ended_replaced hended fun n hn => (hnew n hn).2.2
  obtain ⟨front', held', hcut', hparts, hagain⟩ :=
    exists_cut_replaced hcut fun n hn => ⟨(hnew n hn).1, (hnew n hn).2.1⟩
  rw [hput]
  refine ⟨UnifiedFormat.lines_text hended', ?_⟩
  rw [hparts] at hended'
  have hput' := putNameLine_text hcut' hended' new
  rwa [← hparts, hagain] at hput'

theorem withName_ok_iff :
    withName fromStr text name = .ok out ↔
      out = putNameLine text ((name.map newLine).map (· ++ ['\n'])) ∧ fromStr out = .ok ⟨name⟩ := by
  have hline : (name.map newLine).map (· ++ ['\n']) = name.map fun n => newLine n ++ ['\n'] := Option.map_map ..
  rw [hline, withName]
  generalize putNameLine text (name.map fun n => newLine n ++ ['\n']) = put
  have hcheck : checkReadsBack fromStr put name = .ok () ↔ fromStr put = .ok ⟨name⟩ := by
    rw [checkReadsBack]
    cases fromStr put with
    | error e => exact ⟨nofun, nofun⟩
    | ok raw =>
      obtain ⟨read⟩ := raw
      dsimp only
      split_ifs with hne
      · exact ⟨nofun, fun heq => absurd (congrArg Raw.name (Except.ok.inj heq)) hne⟩
      · rw [not_not.1 hne]
        exact iff_of_true rfl rfl
  constructor
  · intro h
    cases hread : checkReadsBack fromStr put name with
    | error e => simp [hread, bind, Except.bind] at h
    | ok u =>
      simp only [hread, bind, Except.bind, pure, Except.pure, Except.ok.injEq] at h
      subst h
      exact ⟨rfl, hcheck.1 hread⟩
  · rintro ⟨rfl, hread⟩
    rw [hcheck.2 hread]
    rfl

/-- The result names what it was asked to. -/
theorem parse_of_fromStr (hname : ∀ n ∈ name, clean n = .ok (some n)) (h : fromStr out = .ok ⟨name⟩) :
    parse fromStr out = name := by
  rw [parse, h]
  cases name with
  | none => rfl
  | some n =>
    have hclean := hname n rfl
    simp [Except.toOption, hclean]

/-- The steps of a rename end in its result. -/
theorem renameSteps_spec (h : withName fromStr text name = .ok out) :
    ∃ steps, renameSteps fromStr text name = .ok steps ∧ (steps = [] ↔ out = text) ∧
      ∀ s ∈ steps.getLast?, s = out := by
  by_cases hsame : out = text
  · refine ⟨[], ?_, iff_of_true rfl hsame, nofun⟩
    simp [renameSteps, h, bind, Except.bind, hsame, pure, Except.pure]
  · refine ⟨([withoutName text, out].filter (· ≠ text)).destutter (· ≠ ·), ?_, ?_⟩
    · simp [renameSteps, h, bind, Except.bind, hsame, pure, Except.pure]
    · have hlast : [out].filter (· ≠ text) = [out] := List.filter_eq_self.2 (by simpa using hsame)
      by_cases hwithout : withoutName text = text
      · rw [List.filter_cons_of_neg (by simp [hwithout]), hlast]
        simp [hsame]
      · rw [List.filter_cons_of_pos (by simp [hwithout]), hlast]
        by_cases hout : withoutName text = out
        · simp [List.destutter, hout, hsame]
        · simp [List.destutter, hout, hsame]

theorem newLine_spec (hclean : ∀ n ∈ name, clean n = .ok (some n)) :
    ∀ l ∈ name.map newLine, startsTable l = false ∧ setsName l = true ∧ '\n' ∉ l := by
  intro l hl
  obtain ⟨n, hn, rfl⟩ := Option.mem_map.1 hl
  exact ⟨startsTable_newLine n, setsName_newLine n, newline_not_mem_newLine (newline_not_mem_of_clean (hclean n hn))⟩

/-- A rename made again changes nothing. -/
theorem withName_again (hclean : ∀ n ∈ name, clean n = .ok (some n)) (h : withName fromStr text name = .ok out) :
    withName fromStr out name = .ok out := by
  obtain ⟨hout, hread⟩ := withName_ok_iff.1 h
  obtain ⟨front, held, rest, hcut, hlines, -⟩ := exists_cut text
  refine withName_ok_iff.2 ⟨?_, hread⟩
  rw [hout]
  exact (putNameLine_spec hcut hlines (newLine_spec hclean)).2.symm

/-- The edit of a text and its `name` lines, said of lines without their endings. -/
theorem edited_iff (hclean : ∀ n ∈ name, clean n = .ok (some n))
    (hout : out = putNameLine text ((name.map newLine).map (· ++ ['\n']))) :
    Toml.Edited startsTable setsName (name.map newLine) .start (textLines text) (textLines out) ↔
      NamesMayGo text name := by
  have hnew := newLine_spec hclean
  obtain ⟨front, held, rest, hcut, hlines, hseen⟩ := exists_cut text
  have hreplaced : lines out = replaced (name.map newLine) front held rest := by
    rw [hout]
    exact (putNameLine_spec hcut hlines hnew).1
  have hbefore : textLines text = front.map Prod.fst ++ (held.map Prod.fst ++ rest.map Prod.fst) := by
    rw [textLines, hlines, List.map_append, List.map_append]
  have hafter : textLines out = front.map Prod.fst ++
      ((name.map newLine).toList ++ ((held.map Prod.fst).filter (fun l => !setsName l) ++ rest.map Prod.fst)) := by
    rw [textLines, hreplaced, List.filter_map]
    cases name.map newLine with
    | none => simp [replaced, Function.comp_def]
    | some new => simp [replaced, Function.comp_def]
  have hplain : ∀ l ∈ front.map Prod.fst, setsName l = false := by
    intro l hl
    obtain ⟨k, hk, rfl⟩ := List.mem_map.1 hl
    exact (hcut.plain k hk).2
  have hrest : ∀ l ∈ (rest.map Prod.fst).head?, setsName l = false := by
    intro l hl
    rw [List.head?_map] at hl
    obtain ⟨k, hk, rfl⟩ := Option.mem_map.1 hl
    exact setsName_of_startsTable (hcut.table k hk)
  have hplain' : ∀ l ∈ front.map Prod.fst, (!setsName l) = true := by simpa using hplain
  rw [hbefore, hafter, Toml.Edited.replace_iff (fun l hl => (hnew l hl).2.1) hplain hrest, NamesMayGo, hseen,
    List.takeWhile_append_of_pos hplain', List.dropWhile_append_of_pos hplain']
  cases held with
  | nil => rw [List.map_nil, List.takeWhile_nil, List.append_nil, List.dropWhile_nil]
  | cons l held =>
    have hname : ¬(fun l => !setsName l) l.1 = true := by simp [hcut.first l rfl]
    rw [List.map_cons, List.takeWhile_cons_of_neg (p := fun l => !setsName l) hname,
      List.dropWhile_cons_of_neg (p := fun l => !setsName l) hname, List.append_nil]

end Rename

/-! ## What a rename edits -/

/-- Whatever the reader of TOML takes, a rename that goes through edits only the name exactly when the `name`
lines it finds may go and the new one may stand there. -/
theorem editsOnlyName_iff (fromStr : FromStr) {text out : Text} {name : Option Text}
    (hclean : ∀ n ∈ name, clean n = .ok (some n)) (h : withName fromStr text name = .ok out) :
    EditsOnlyName fromStr text name out ↔ NamesMayGo text name := by
  obtain ⟨hout, hread⟩ := withName_ok_iff.1 h
  rw [← edited_iff hclean hout]
  refine ⟨fun hedits => hedits.edited, fun hedited => ?_⟩
  exact ⟨parse_of_fromStr hclean hread, hedited.outside_sublist, hedited, withName_again hclean h,
    renameSteps_spec h⟩

/-- A reader of TOML that takes one text. -/
def readsOne (text : Text) (name : Option Text) : FromStr :=
  fun t => if t = text then .ok ⟨name⟩ else .error []

/-- Two `name` lines that concurrent renames left are replaced by one, and the table keeps its own. -/
theorem editsOnlyName_two_names :
    EditsOnlyName (readsOne "name = \"c\"\n[x]\nname = 1\n".toList (some ['c']))
      "name = \"a\"\nname = \"b\"\n[x]\nname = 1\n".toList (some ['c']) "name = \"c\"\n[x]\nname = 1\n".toList := by
  refine (editsOnlyName_iff _ ?_ (by decide +kernel)).2 (.inl ⟨by decide +kernel, .inr (by decide +kernel)⟩)
  rintro n ⟨⟩
  decide +kernel

/-- A line inside a multi-line string that looks as if it set the name is lost. -/
theorem not_editsOnlyName :
    ¬∀ (fromStr : FromStr) (text out : Text) (name : Option Text), (∀ n ∈ name, clean n = .ok (some n)) →
      withName fromStr text name = .ok out → EditsOnlyName fromStr text name out := by
  intro h
  have hedits := h (readsOne "name = \"c\"\nnote = \"\"\"\n\"\"\"\n".toList (some ['c']))
    "name = \"a\"\nnote = \"\"\"\nname = b\n\"\"\"\n".toList "name = \"c\"\nnote = \"\"\"\n\"\"\"\n".toList (some ['c'])
    (by rintro n ⟨⟩; decide +kernel) (by decide +kernel)
  have hlost := hedits.outside.subset (by decide +kernel : "name = b".toList ∈ _)
  revert hlost
  decide +kernel

end Txtodo.WorkspaceName
