import Mathlib.Data.List.Perm.Subperm
import Txtodo.Sync.Proofs.CarrierProofs

/-!
# The file carrier when something fails

What is appended to files that end with a whole record comes out, whatever other writes left behind, and a
file with foreign content holds up the files behind it only at a length no record has.
-/

namespace Txtodo

open CarrierWorld

/-! ## Foreign content -/

/-- Reading record by record meets a length no record has. -/
inductive Blocks : List UInt8 → Prop where
  | here {bytes : List UInt8} {e : AppendFrameError} (h : AppendFrame.tryDecode bytes = .error e) :
      Blocks bytes
  | behind {bytes : List UInt8} {record : AppendFrame} {used : Nat}
      (h : AppendFrame.tryDecode bytes = .ok (some (record, used))) (hrest : Blocks (bytes.drop used)) :
      Blocks bytes

theorem tryDecode_used {bytes : List UInt8} {record : AppendFrame} {used : Nat}
    (h : AppendFrame.tryDecode bytes = .ok (some (record, used))) : 0 < used ∧ used ≤ bytes.length := by
  unfold AppendFrame.tryDecode at h
  dsimp only at h
  split_ifs at h with hshort hlarge htotal
  · cases h
  · cases h
  obtain ⟨-, hused⟩ := Prod.mk.inj (Option.some_inj.1 (Except.ok.inj h))
  unfold APPEND_HEADER_BYTES at hused htotal
  omega

/-- What is not read yet of the shown files. -/
def CarrierWorld.unread (us : DeviceId) (w : CarrierWorld) : Nat :=
  ((otherDeviceFiles w.shown us).map fun e => e.2.length - w.reader.offset e.1).sum

section Failure
variable {us bad : DeviceId} {w : CarrierWorld} {stored : List (OpsFileName × Frame)}
  {tail : OpsFileName → List UInt8}

/-- A poll that takes a record leaves less unread. -/
theorem CarrierWorld.unread_took {before after : List (OpsFileName × List UInt8)} {name : OpsFileName}
    {bytes : List UInt8} {used : Nat}
    (hfiles : otherDeviceFiles w.shown us = before ++ (name, bytes) :: after) (hpos : 0 < used)
    (hle : used ≤ (bytes.drop (w.reader.offset name)).length) (returned : List (OpsFileName × Frame)) :
    ({ w with reader := w.took name used, returned := returned } : CarrierWorld).unread us < w.unread us := by
  have hsorted : (otherDeviceFiles w.shown us).Pairwise fun a b => a.1 < b.1 := w.shown.sorted.filter _
  rw [hfiles] at hsorted
  obtain ⟨-, hafter, hbefore⟩ := List.pairwise_append.1 hsorted
  have hsame : ∀ e : OpsFileName × List UInt8, e.1 ≠ name →
      e.2.length - (w.took name used).offset e.1 = e.2.length - w.reader.offset e.1 := by
    intro e he
    rw [CarrierWorld.took_offset, if_neg he]
  have hfront : before.map (fun e => e.2.length - (w.took name used).offset e.1) =
      before.map fun e => e.2.length - w.reader.offset e.1 :=
    List.map_congr_left fun e he => hsame e (hbefore e he _ (List.mem_cons_self ..)).ne
  have hback : after.map (fun e => e.2.length - (w.took name used).offset e.1) =
      after.map fun e => e.2.length - w.reader.offset e.1 :=
    List.map_congr_left fun e he => hsame e ((List.pairwise_cons.1 hafter).1 e he).ne'
  unfold CarrierWorld.unread
  dsimp only
  rw [hfiles, List.map_append, List.map_cons, List.map_append, List.map_cons, hfront, hback,
    List.sum_append, List.sum_append, List.sum_cons, List.sum_cons, CarrierWorld.took_offset, if_pos rfl]
  rw [List.length_drop] at hle
  dsimp only
  omega

/-- The files of `bad` are not read, stand behind those of `d`, or stop no poll. -/
def CarrierWorld.Clear (us bad d : DeviceId) (w : CarrierWorld) : Prop :=
  bad = us ∨ d < bad ∨ ∀ name, name.device = bad → ¬Blocks ((contentOf w.shown name).drop (w.reader.offset name))

/-- All files of `d` show whole. -/
def CarrierWorld.ShowsAll (d : DeviceId) (w : CarrierWorld) : Prop :=
  ∀ name, name.device = d → contentOf w.shown name = contentOf w.files name

theorem OpsFileName.lt_of_device {a b : OpsFileName} (h : a.device < b.device) : a < b :=
  Prod.Lex.toLex_lt_toLex.2 (.inl h)

/-- What a poll took of a file leaves the files of `bad` as clear as they were. -/
theorem CarrierWorld.Clear.took {d : DeviceId} (h : w.Clear us bad d) {name : OpsFileName} {used : Nat}
    (hkeeps : name.device = bad → ∃ record, AppendFrame.tryDecode
      ((contentOf w.shown name).drop (w.reader.offset name)) = .ok (some (record, used)))
    (returned : List (OpsFileName × Frame)) :
    ({ w with reader := w.took name used, returned := returned } : CarrierWorld).Clear us bad d := by
  refine h.imp_right (Or.imp_right fun hclear other hother hblocks => ?_)
  have hblocks : Blocks ((contentOf w.shown other).drop ((w.took name used).offset other)) := hblocks
  rw [CarrierWorld.took_offset] at hblocks
  split_ifs at hblocks with hname
  · subst hname
    obtain ⟨record, hdecode⟩ := hkeeps hother
    rw [← List.drop_drop] at hblocks
    exact hclear other hother (.behind hdecode hblocks)
  · exact hclear other hother hblocks

/-- Polls go on until all records of `d` that show whole are returned. -/
theorem CarrierWorld.Sound.drained {d : DeviceId} (hbad : d ≠ bad) (hus : d ≠ us)
    (hsound : w.Sound us (· ≠ bad) stored tail) (hclear : w.Clear us bad d) :
    ∃ polls, ∀ name, name.device = d → ∀ front : List Frame, (∀ f ∈ front, f.Sendable) →
      recordsOf front <+: contentOf w.shown name →
        front <+: framesIn (CarrierWorld.poll^[polls] w).returned name := by
  induction hunread : w.unread us using Nat.strong_induction_on generalizing w with
  | _ n ih =>
    have hstep := hsound.pollStep
    have hagain : w.poll.unread us < w.unread us → w.poll.Clear us bad d → w.poll.shown = w.shown →
        ∃ polls, ∀ name, name.device = d → ∀ front : List Frame, (∀ f ∈ front, f.Sendable) →
          recordsOf front <+: contentOf w.shown name →
            front <+: framesIn (CarrierWorld.poll^[polls] w).returned name := by
      intro hless hclear' hshown
      rw [hunread] at hless
      obtain ⟨polls, hpolls⟩ := ih _ hless (hstep.sound hsound) hclear' rfl
      rw [hshown] at hpolls
      refine ⟨polls + 1, fun name hname front hsend hfront => ?_⟩
      rw [Function.iterate_succ_apply]
      exact hpolls name hname front hsend hfront
    have hidle : (∀ name : OpsFileName, name.device = d → ∀ bytes,
        (name, bytes) ∈ otherDeviceFiles w.shown us →
          AppendFrame.tryDecode (bytes.drop (w.reader.offset name)) = .ok none) →
        ∃ polls, ∀ name, name.device = d → ∀ front : List Frame, (∀ f ∈ front, f.Sendable) →
          recordsOf front <+: contentOf w.shown name →
            front <+: framesIn (CarrierWorld.poll^[polls] w).returned name := fun h =>
      ⟨0, fun name hname front hsend hfront =>
        hsound.returned_front (by rwa [hname]) (by rwa [hname]) (h name hname) hsend hfront⟩
    generalize w.poll = w' at hstep hagain
    cases hstep with
    | nothing hnone => exact hidle fun name hname bytes hmem => hnone _ hmem
    | @blocked before after name bytes e hfiles hbefore hfair hdecode =>
      have hfile := contentOf_of_mem (show (name, bytes) ∈ otherDeviceFiles w.shown us by
        rw [hfiles]
        exact List.mem_append_right _ (List.mem_cons_self ..))
      have hname : name.device = bad := not_not.1 hfair
      rcases hclear with rfl | hlt | hblocks
      · exact absurd hname hfile.2
      · refine hidle fun other hother content hcontent => ?_
        have hfirst : other < name := OpsFileName.lt_of_device (by rwa [hother, hname])
        exact hbefore _ (mem_before hfiles hcontent hfirst)
      · refine absurd (Blocks.here (e := e) ?_) (hblocks name hname)
        rwa [hfile.1]
    | @next before after name bytes f rest hfiles hbefore hfair hnext hwhole =>
      exact hagain (CarrierWorld.unread_took hfiles (List.length_pos_of_ne_nil f.record_ne_nil)
        hwhole.length_le _) (hclear.took (fun hname => absurd hname hfair) _) rfl
    | @other before after name bytes record used hfiles hbefore hfair hdecode returned hreturned =>
      have hfile := contentOf_of_mem (show (name, bytes) ∈ otherDeviceFiles w.shown us by
        rw [hfiles]
        exact List.mem_append_right _ (List.mem_cons_self ..))
      obtain ⟨hpos, hle⟩ := tryDecode_used hdecode
      refine hagain (CarrierWorld.unread_took hfiles hpos hle _) (hclear.took (fun _ => ?_) _) rfl
      rw [hfile.1]
      exact ⟨record, hdecode⟩

/-! ## Torn writes -/

/-- Reading record by record ends with the file. -/
inductive WholeRecords : List UInt8 → Prop where
  | nil : WholeRecords []
  | cons {bytes : List UInt8} {record : AppendFrame} {used : Nat}
      (h : AppendFrame.tryDecode bytes = .ok (some (record, used)))
      (hrest : WholeRecords (bytes.drop used)) : WholeRecords bytes

theorem WholeRecords.torn_eq {frames : List Frame} {tail : List UInt8} (hsend : ∀ f ∈ frames, f.Sendable)
    (htail : Torn tail) (h : WholeRecords (recordsOf frames ++ tail)) : tail = [] := by
  induction frames with
  | nil =>
    have h : WholeRecords tail := h
    cases h with
    | nil => rfl
    | cons hdecode hrest =>
      rw [htail.tryDecode List.prefix_rfl] at hdecode
      cases hdecode
  | cons f frames ih =>
    have hsplit : recordsOf (f :: frames) ++ tail = f.record ++ (recordsOf frames ++ tail) :=
      List.append_assoc ..
    rw [hsplit] at h
    have hf := hsend f (List.mem_cons_self ..)
    refine ih (fun g hg => hsend g (List.mem_cons_of_mem _ hg)) ?_
    generalize hbytes : f.record ++ (recordsOf frames ++ tail) = bytes at h
    cases h with
    | nil => exact absurd (List.append_eq_nil_iff.1 hbytes).1 f.record_ne_nil
    | cons hdecode hrest =>
      rw [← hbytes, hf.tryDecode_record] at hdecode
      rw [← (Prod.mk.inj (Option.some_inj.1 (Except.ok.inj hdecode))).2, ← hbytes, List.drop_left] at hrest
      exact hrest

/-- Any write may fail and the files of `bad` hold anything, but nothing is appended behind a torn record. -/
def FailureEvent (bad : DeviceId) (w : CarrierWorld) : CarrierEvent → Prop
  | .append device _ io => io.Opens →
      WholeRecords (contentOf w.files ((w.writers device).rotate w.files).writePath)
  | .scribble name _ => name.device = bad
  | .reopen _ => True
  | .grow _ _ => True
  | .poll => True

theorem sound_of_failures (h : CarrierRun us (FailureEvent bad) w) :
    ∃ stored tail, w.Sound us (· ≠ bad) stored tail := by
  induction h with
  | start => exact ⟨_, _, .start us _⟩
  | @step w e h he ih =>
    obtain ⟨stored, tail, hsound⟩ := ih
    cases e with
    | append device body io =>
      obtain ⟨stored', tail', -, hsound', -⟩ := hsound.append device body io fun hopens => by
        have hwhole : WholeRecords (contentOf w.files ((w.writers device).rotate w.files).writePath) :=
          he hopens
        rw [hsound.content] at hwhole
        exact hwhole.torn_eq (hsound.sendable_in _) (hsound.torn _)
      exact ⟨stored', tail', hsound'⟩
    | reopen device =>
      refine ⟨stored, tail, hsound.reopen (fun _ => rfl) (fun _ => id) fun e he hd => ?_⟩
      have hle := highestRotation_le (hsound.onDisk e he)
      rwa [hd] at hle
    | grow name bytes => exact ⟨stored, tail, hsound.grow name bytes⟩
    | scribble name content => exact ⟨stored, tail, hsound.scribble (not_not.2 he) content⟩
    | poll => exact ⟨stored, tail, hsound.pollStep.sound hsound⟩

/-- Some polls return all frames of `d` that show whole, and all it appended once its files show whole. -/
def CarrierWorld.ReturnsAll (d : DeviceId) (w : CarrierWorld) : Prop :=
  ∃ polls, (∀ name, name.device = d → ∀ front : List Frame, (∀ f ∈ front, f.Sendable) →
      recordsOf front <+: contentOf w.shown name →
        front <+: framesIn (CarrierWorld.poll^[polls] w).returned name) ∧
    (w.ShowsAll d → (framesOf w.appended d).Subperm (framesOf (CarrierWorld.poll^[polls] w).returned d))

theorem count_framesIn (log : List (OpsFileName × Frame)) (e : OpsFileName × Frame) :
    log.count e = (framesIn log e.1).count e.2 := by
  induction log with
  | nil => rfl
  | cons x log ih =>
    have hcons : framesIn (x :: log) e.1 = if x.1 = e.1 then x.2 :: framesIn log e.1
        else framesIn log e.1 := by
      unfold framesIn
      by_cases hname : x.1 = e.1 <;> simp [hname]
    rw [hcons, List.count_cons, ih]
    split_ifs with hx hname hname
    · rw [List.count_cons, if_pos (beq_iff_eq.2 (congrArg Prod.snd (beq_iff_eq.1 hx)))]
    · exact absurd (congrArg Prod.fst (beq_iff_eq.1 hx)) hname
    · rw [List.count_cons, if_neg]
      rintro hframe
      exact hx (beq_iff_eq.2 (Prod.ext hname (beq_iff_eq.1 hframe)))
    · rfl

/-- Frames whose files' records are all in another log are in that log. -/
theorem framesOf_subperm {log returned : List (OpsFileName × Frame)} {d : DeviceId}
    (h : ∀ name, name.device = d → (framesIn log name).Sublist (framesIn returned name)) :
    (framesOf log d).Subperm (framesOf returned d) := by
  have hentries : (entriesOf log d).Subperm (entriesOf returned d) := by
    refine List.subperm_ext_iff.2 fun e he => ?_
    have hd : e.1.device = d := of_decide_eq_true (List.mem_filter.1 he).2
    rw [count_framesIn, count_framesIn, ← hd, ← framesIn_entriesOf, ← framesIn_entriesOf]
    exact (h e.1 hd).count_le _
  obtain ⟨middle, hperm, hsub⟩ := hentries
  exact ⟨middle.map _, hperm.map _, hsub.map _⟩

end Failure

/-- Whatever writes fail and whatever the files of one device hold: as long as nothing is appended behind a
torn record and those files hold up no others, polls return all there is. -/
theorem returnsAll_of_run {us bad d : DeviceId} {w : CarrierWorld}
    (h : CarrierRun us (FailureEvent bad) w) (hbad : d ≠ bad) (hus : d ≠ us) (hclear : w.Clear us bad d) :
    w.ReturnsAll d := by
  obtain ⟨stored, tail, hsound⟩ := sound_of_failures h
  obtain ⟨polls, hpolls⟩ := hsound.drained hbad hus hclear
  refine ⟨polls, hpolls, fun hshows => framesOf_subperm fun name hname => ?_⟩
  have hstored : framesIn stored name <+: framesIn (CarrierWorld.poll^[polls] w).returned name := by
    refine hpolls name hname _ (hsound.sendable_in name) ?_
    rw [hshows name hname, hsound.content]
    exact List.prefix_append _ _
  exact ((hsound.appended.filter _).map _).trans hstored.sublist

/-- A write of one device stops inside its record, another device's file is replaced by junk. -/
theorem returnsAll_of_run_torn : (((((CarrierWorld.new ⟨9⟩).apply
    (.append ⟨3⟩ [7] (.stopsAfter 5))).apply (.append ⟨1⟩ [7] .done)).apply
    (.scribble ⟨⟨2⟩, 0⟩ [0, 0, 0, 1])).apply (.grow ⟨⟨1⟩, 0⟩ 15)).ReturnsAll ⟨1⟩ := by
  have hempty : ∀ (w : CarrierWorld) (name : OpsFileName), contentOf w.files name = [] →
      WholeRecords (contentOf w.files name) := fun w name h => h ▸ .nil
  have hrun : CarrierRun ⟨9⟩ (FailureEvent ⟨2⟩) ((((CarrierWorld.new ⟨9⟩).apply
      (.append ⟨3⟩ [7] (.stopsAfter 5))).apply (.append ⟨1⟩ [7] .done)).apply
      (.scribble ⟨⟨2⟩, 0⟩ [0, 0, 0, 1])) :=
    .step (.step (.step .start fun _ => hempty _ _ rfl) fun _ => hempty _ _ (by decide +kernel)) rfl
  exact returnsAll_of_run (.step hrun trivial) (by decide) (by decide) (.inr (.inl (by decide)))

/-! ## A reader that stands still -/

theorem FileCarrier.poll_of_record {c : FileCarrier} {folder : Folder} {e : AppendFrameError}
    (h : (c.poll folder).1 = .error (.record e)) : (c.poll folder).2 = c := by
  have hpolled := c.pollFiles_polled (otherDeviceFiles folder c.device)
  unfold FileCarrier.poll at h ⊢
  generalize c.pollFiles (otherDeviceFiles folder c.device) = r at h hpolled
  cases hpolled with
  | nothing => rfl
  | blocked => rfl
  | @taken before after name bytes record used hfiles hidle hdecode =>
    cases hframe : Frame.decode record.body <;> rw [hframe] at h <;> cases h

theorem CarrierWorld.poll_iterate_of_record {w : CarrierWorld} {e : AppendFrameError}
    (h : (w.reader.poll w.shown).1 = .error (.record e)) (polls : Nat) :
    CarrierWorld.poll^[polls] w = w := by
  refine Function.iterate_fixed ?_ polls
  unfold CarrierWorld.poll
  dsimp only
  rw [h, FileCarrier.poll_of_record h]

/-- A write stops inside the length of its record; the next one goes through. -/
def tornLength : CarrierWorld :=
  (((CarrierWorld.new ⟨9⟩).apply (.append ⟨1⟩ [7] (.stopsAfter 3))).apply (.append ⟨1⟩ [7] .done)).apply
    (.grow ⟨⟨1⟩, 0⟩ 18)

/-- A device's file with a length of 16 MiB stands in front of another device's. -/
def oversizedLength : CarrierWorld :=
  (((CarrierWorld.new ⟨9⟩).apply (.append ⟨1⟩ [7] .done)).apply (.grow ⟨⟨1⟩, 0⟩ 15)).apply
    (.scribble ⟨⟨0⟩, 0⟩ [0, 0, 0, 1])

theorem contentOf_of_not_mem {folder : Folder} {name : OpsFileName} (h : ∀ e ∈ folder.items, e.1 ≠ name) :
    contentOf folder name = [] := by
  cases hfind : folder.find? name with
  | none => rw [contentOf, hfind, Option.getD_none]
  | some bytes => exact absurd rfl (h _ (OrdMap.find?_eq_some.1 hfind))

/-- Appends behind a torn record are never returned, nor are frames behind a file that stops the polls. -/
theorem not_returnsAll : ¬tornLength.ReturnsAll ⟨1⟩ ∧ ¬oversizedLength.ReturnsAll ⟨1⟩ := by
  have hstuck : ∀ (w : CarrierWorld) (e : AppendFrameError),
      (w.reader.poll w.shown).1 = .error (.record e) → framesOf w.returned ⟨1⟩ = [] →
        framesOf w.appended ⟨1⟩ = [⟨PROTOCOL_VERSION, [7]⟩] → w.ShowsAll ⟨1⟩ → ¬w.ReturnsAll ⟨1⟩ := by
    rintro w e herror hreturned happended hshows ⟨polls, -, hall⟩
    have hsub := hall hshows
    rw [CarrierWorld.poll_iterate_of_record herror, hreturned, happended] at hsub
    exact absurd hsub.length_le (by decide)
  have hshows : ∀ w : CarrierWorld, (∀ e ∈ w.files.items, e.1 = ⟨⟨1⟩, 0⟩) →
      (∀ e ∈ w.shown.items, e.1.device = ⟨1⟩ → e.1 = ⟨⟨1⟩, 0⟩) →
        contentOf w.shown ⟨⟨1⟩, 0⟩ = contentOf w.files ⟨⟨1⟩, 0⟩ → w.ShowsAll ⟨1⟩ := by
    intro w hfiles hshown hsame name hname
    by_cases heq : name = ⟨⟨1⟩, 0⟩
    · rw [heq, hsame]
    · have hfile : contentOf w.files name = [] := contentOf_of_not_mem fun e he hkey =>
        heq (hkey.symm.trans (hfiles e he))
      have hshow : contentOf w.shown name = [] := contentOf_of_not_mem fun e he hkey =>
        heq (hkey.symm.trans (hshown e he (by rw [hkey, hname])))
      rw [hfile, hshow]
  exact ⟨hstuck _ (.frameTooLarge (11 + 11 * 2 ^ 24) MAX_APPEND_FRAME_BYTES) (by decide +kernel)
      (by decide +kernel) (by decide +kernel)
      (hshows _ (by decide +kernel) (by decide +kernel) (by decide +kernel)),
    hstuck _ (.frameTooLarge (2 ^ 24) MAX_APPEND_FRAME_BYTES) (by decide +kernel)
      (by decide +kernel) (by decide +kernel)
      (hshows _ (by decide +kernel) (by decide +kernel) (by decide +kernel))⟩

end Txtodo
