import Txtodo.Sync.Carrier
import Txtodo.Sync.Proofs.FrameProofs

/-!
# The file carrier file by file

Whatever shows of a file and whenever it is polled, its records are returned one by one, in order, each once
all its bytes show.
-/

namespace Txtodo

open CarrierWorld

/-! ## Records on disk -/

/-- The bytes of some frames' records. -/
def recordsOf (frames : List Frame) : List UInt8 := frames.flatMap Frame.record

theorem recordsOf_append (fs gs : List Frame) : recordsOf (fs ++ gs) = recordsOf fs ++ recordsOf gs :=
  List.flatMap_append

/-- What a write that stopped early leaves behind the records of a file, or nothing. -/
def Torn (tail : List UInt8) : Prop := ∃ f : Frame, f.Sendable ∧ tail <+: f.record ∧ tail ≠ f.record

theorem torn_nil : Torn [] :=
  ⟨⟨PROTOCOL_VERSION, []⟩, ⟨rfl, Nat.zero_le _⟩, List.nil_prefix, (Frame.record_ne_nil _).symm⟩

theorem Torn.tryDecode {tail part : List UInt8} (h : Torn tail) (hpart : part <+: tail) :
    AppendFrame.tryDecode part = .ok none := by
  obtain ⟨f, hf, htail, hne⟩ := h
  refine hf.tryDecode_part (hpart.trans htail) ?_
  rintro rfl
  exact hne (htail.eq_of_length (Nat.le_antisymm htail.length_le hpart.length_le))

/-- The front of a file shows its first record whole or nothing to decode. -/
theorem tryDecode_front {part tail : List UInt8} {frames : List Frame}
    (hsend : ∀ f ∈ frames, f.Sendable) (htail : Torn tail) (hpart : part <+: recordsOf frames ++ tail) :
    AppendFrame.tryDecode part = .ok none ∨ ∃ f rest, frames = f :: rest ∧ f.record <+: part ∧
      AppendFrame.tryDecode part = .ok (some (⟨f.bytes.length, f.bytes⟩, f.record.length)) := by
  cases frames with
  | nil => exact .inl (htail.tryDecode hpart)
  | cons f rest =>
    have hf := hsend f (List.mem_cons_self ..)
    have hrecord : f.record <+: recordsOf (f :: rest) ++ tail :=
      ⟨recordsOf rest ++ tail, (List.append_assoc ..).symm⟩
    rcases List.prefix_or_prefix_of_prefix hpart hrecord with hshort | hwhole
    · by_cases heq : part = f.record
      · subst heq
        have hdecode := hf.tryDecode_record []
        rw [List.append_nil] at hdecode
        exact .inr ⟨f, rest, rfl, List.prefix_rfl, hdecode⟩
      · exact .inl (hf.tryDecode_part hshort heq)
    · obtain ⟨after, rfl⟩ := hwhole
      exact .inr ⟨f, rest, rfl, ⟨after, rfl⟩, hf.tryDecode_record after⟩

/-! ## One poll -/

namespace FileCarrier

/-- The files in front of the one a poll stops at show no whole record. -/
def Idle (c : FileCarrier) (files : List (OpsFileName × List UInt8)) : Prop :=
  ∀ e ∈ files, AppendFrame.tryDecode (e.2.drop (c.offset e.1)) = .ok none

/-- What a poll does: it finds nothing, stops at a length no record has, or takes one record. -/
inductive Polled (c : FileCarrier) (files : List (OpsFileName × List UInt8)) :
    Except CarrierError (Option (OpsFileName × Frame)) × FileCarrier → Prop where
  | nothing (h : c.Idle files) : Polled c files (.ok none, c)
  | blocked {before after : List (OpsFileName × List UInt8)} {name : OpsFileName} {bytes : List UInt8}
      {e : AppendFrameError} (hfiles : files = before ++ (name, bytes) :: after) (hidle : c.Idle before)
      (h : AppendFrame.tryDecode (bytes.drop (c.offset name)) = .error e) :
      Polled c files (.error (.record e), c)
  | taken {before after : List (OpsFileName × List UInt8)} {name : OpsFileName} {bytes : List UInt8}
      {record : AppendFrame} {used : Nat} (hfiles : files = before ++ (name, bytes) :: after)
      (hidle : c.Idle before)
      (h : AppendFrame.tryDecode (bytes.drop (c.offset name)) = .ok (some (record, used))) :
      Polled c files (((Frame.decode record.body).map fun r => some (name, r.1)).mapError .frame,
        { c with offsets := c.offsets.insert name (c.offset name + used) })

theorem pollFiles_polled (c : FileCarrier) (files : List (OpsFileName × List UInt8)) :
    Polled c files (c.pollFiles files) := by
  induction files with
  | nil => exact .nothing (List.forall_mem_nil _)
  | cons file files ih =>
    obtain ⟨name, bytes⟩ := file
    have hfront : (name, bytes) :: files = [] ++ (name, bytes) :: files := rfl
    rw [pollFiles]
    cases hdecode : AppendFrame.tryDecode (bytes.drop (c.offset name)) with
    | error e => exact .blocked hfront (List.forall_mem_nil _) hdecode
    | ok found =>
      cases found with
      | some r =>
        obtain ⟨record, used⟩ := r
        have htaken : Polled c ((name, bytes) :: files) _ :=
          .taken hfront (List.forall_mem_nil _) hdecode
        dsimp only
        cases hframe : Frame.decode record.body with
        | error e =>
          rw [hframe] at htaken
          exact htaken
        | ok r =>
          rw [hframe] at htaken
          exact htaken
      | none =>
        have hidle : ∀ before, c.Idle before → c.Idle ((name, bytes) :: before) := fun before h =>
          List.forall_mem_cons.2 ⟨hdecode, h⟩
        dsimp only
        generalize hr : c.pollFiles files = r at ih
        cases ih with
        | nothing h => exact .nothing (hidle _ h)
        | blocked hfiles hbefore h =>
          exact .blocked (by rw [hfiles, List.cons_append]) (hidle _ hbefore) h
        | taken hfiles hbefore h => exact .taken (by rw [hfiles, List.cons_append]) (hidle _ hbefore) h

theorem offset_insert (c : FileCarrier) (name other : OpsFileName) (n : Nat) :
    ({ c with offsets := c.offsets.insert name n } : FileCarrier).offset other =
      if other = name then n else c.offset other := by
  rw [offset, OrdMap.find?_insert]
  split_ifs <;> rfl

end FileCarrier

/-! ## One append -/

namespace FileCarrier
variable {c : FileCarrier} {folder : Folder} {f : Frame}

theorem rotate_device (c : FileCarrier) (folder : Folder) : (c.rotate folder).device = c.device := by
  unfold rotate
  split_ifs <;> rfl

theorem rotate_le (c : FileCarrier) (folder : Folder) :
    c.writeRotation ≤ (c.rotate folder).writeRotation := by
  unfold rotate
  split_ifs
  · exact Nat.le_succ _
  · exact le_rfl

theorem append_done (hf : f.Sendable) (c : FileCarrier) (folder : Folder) : c.append folder f .done =
    (.ok (), c.rotate folder, folder.insert (c.rotate folder).writePath
      (contentOf folder (c.rotate folder).writePath ++ f.record)) := by
  rw [append, hf.encode_eq]
  dsimp only
  rw [hf.record_eq]
  dsimp only
  rw [if_neg nofun, writeFrameTo, if_neg (fun h => h rfl)]
  rfl

theorem append_stops (hf : f.Sendable) (c : FileCarrier) (folder : Folder) (n : Nat) :
    c.append folder f (.stopsAfter n) = (.error .io, c.rotate folder,
      folder.insert (c.rotate folder).writePath
        (contentOf folder (c.rotate folder).writePath ++ f.record.take n)) := by
  rw [append, hf.encode_eq]
  dsimp only
  rw [hf.record_eq]
  dsimp only
  rw [if_neg nofun, writeFrameTo, if_neg (fun h => h rfl)]
  rfl

theorem append_fails (hf : f.Sendable) (c : FileCarrier) (folder : Folder) :
    c.append folder f .openFails = (.error .io, c.rotate folder, folder) ∧
      c.append folder f .statFails = (.error .io, c, folder) := by
  rw [append, append, hf.encode_eq]
  dsimp only
  rw [hf.record_eq]
  dsimp only
  rw [if_neg nofun, if_pos rfl, writeFrameTo, if_neg (fun h => h rfl)]
  exact ⟨rfl, rfl⟩

end FileCarrier

/-! ## The invariant -/

/-- The records on disk, in the order they were written, with the torn end of each file, and what was
taken of each file that is not touched by others. -/
structure CarrierWorld.Sound (us : DeviceId) (Fair : DeviceId → Prop) (w : CarrierWorld)
    (stored : List (OpsFileName × Frame)) (tail : OpsFileName → List UInt8) : Prop where
  reader : w.reader.device = us
  writer : ∀ d, (w.writers d).device = d
  sendable : ∀ e ∈ stored, e.2.Sendable
  content : ∀ name, contentOf w.files name = recordsOf (framesIn stored name) ++ tail name
  torn : ∀ name, Torn (tail name)
  onDisk : ∀ e ∈ stored, (w.files.find? e.1).isSome = true
  rotation : ∀ e ∈ stored, e.1.rotation ≤ (w.writers e.1.device).writeRotation
  sorted : ∀ d, (stored.filter (·.1.device = d)).Pairwise fun a b => a.1.rotation ≤ b.1.rotation
  appended : w.appended.Sublist stored
  shown : ∀ name, Fair name.device → contentOf w.shown name <+: contentOf w.files name
  returned : ∀ name, Fair name.device → framesIn w.returned name <+: framesIn stored name
  taken : ∀ name, Fair name.device → w.reader.offset name = (recordsOf (framesIn w.returned name)).length
  within : ∀ name, Fair name.device → w.reader.offset name ≤ (contentOf w.shown name).length

section Sound
variable {us : DeviceId} {Fair : DeviceId → Prop} {w : CarrierWorld} {stored : List (OpsFileName × Frame)}
  {tail : OpsFileName → List UInt8}

theorem contentOf_insert (folder : Folder) (name other : OpsFileName) (bytes : List UInt8) :
    contentOf (folder.insert name bytes) other = if other = name then bytes else contentOf folder other := by
  rw [contentOf, OrdMap.find?_insert]
  split_ifs <;> rfl

theorem framesIn_concat (log : List (OpsFileName × Frame)) (name other : OpsFileName) (f : Frame) :
    framesIn (log ++ [(name, f)]) other = framesIn log other ++ if name = other then [f] else [] := by
  rw [framesIn, List.filter_append, List.map_append]
  by_cases h : name = other <;> simp [framesIn, h]

theorem CarrierWorld.Sound.start (us : DeviceId) (Fair : DeviceId → Prop) :
    (CarrierWorld.new us).Sound us Fair [] fun _ => [] where
  reader := rfl
  writer _ := rfl
  sendable := List.forall_mem_nil _
  content _ := rfl
  torn _ := torn_nil
  onDisk := List.forall_mem_nil _
  rotation := List.forall_mem_nil _
  sorted _ := .nil
  appended := .slnil
  shown _ _ := List.nil_prefix
  returned _ _ := List.nil_prefix
  taken _ _ := rfl
  within _ _ := Nat.zero_le _

theorem CarrierWorld.setWriter_device (h : ∀ d, (w.writers d).device = d) (c : FileCarrier) (d : DeviceId) :
    (w.setWriter c d).device = d := by
  unfold CarrierWorld.setWriter
  split_ifs with hd
  · exact hd.symm
  · exact h d

/-- A writer that opened a later file, with nothing written. -/
theorem CarrierWorld.Sound.reopen (h : w.Sound us Fair stored tail) {c : FileCarrier} {files : Folder}
    (hfiles : ∀ name, contentOf files name = contentOf w.files name)
    (hdisk : ∀ name, (w.files.find? name).isSome = true → (files.find? name).isSome = true)
    (hrotation : ∀ e ∈ stored, e.1.device = c.device → e.1.rotation ≤ c.writeRotation) :
    ({ w with writers := w.setWriter c, files := files } : CarrierWorld).Sound us Fair stored tail where
  reader := h.reader
  writer := CarrierWorld.setWriter_device h.writer c
  sendable := h.sendable
  content name := (hfiles name).trans (h.content name)
  torn := h.torn
  onDisk e he := hdisk e.1 (h.onDisk e he)
  rotation e he := by
    show e.1.rotation ≤ (w.setWriter c e.1.device).writeRotation
    unfold CarrierWorld.setWriter
    split_ifs with hd
    · exact hrotation e he hd
    · exact h.rotation e he
  sorted := h.sorted
  appended := h.appended
  shown name hfair := by
    rw [hfiles]
    exact h.shown name hfair
  returned := h.returned
  taken := h.taken
  within := h.within

/-- A record written whole at the end of its writer's file. -/
theorem CarrierWorld.Sound.store (h : w.Sound us Fair stored tail) {c : FileCarrier} {f : Frame}
    (hf : f.Sendable) (hclean : tail c.writePath = [])
    (hrotation : ∀ e ∈ stored, e.1.device = c.device → e.1.rotation ≤ c.writeRotation)
    {appended : List (OpsFileName × Frame)}
    (happended : appended.Sublist (stored ++ [(c.writePath, f)])) :
    ({ w with
      writers := w.setWriter c
      files := w.files.insert c.writePath (contentOf w.files c.writePath ++ f.record)
      appended := appended } : CarrierWorld).Sound us Fair (stored ++ [(c.writePath, f)]) tail where
  reader := h.reader
  writer := CarrierWorld.setWriter_device h.writer c
  sendable := List.forall_mem_append.2 ⟨h.sendable, List.forall_mem_singleton.2 hf⟩
  content name := by
    rw [contentOf_insert, framesIn_concat]
    split_ifs with hname hpath hpath
    · rw [h.content, hname, hclean, List.append_nil, List.append_nil, recordsOf_append]
      simp [recordsOf]
    · exact absurd hname.symm hpath
    · exact absurd hpath.symm hname
    · rw [h.content, List.append_nil]
  torn := h.torn
  onDisk := by
    refine List.forall_mem_append.2 ⟨fun e he => ?_, List.forall_mem_singleton.2 ?_⟩
    · show ((w.files.insert _ _).find? e.1).isSome = true
      rw [OrdMap.find?_insert]
      split_ifs
      · rfl
      · exact h.onDisk e he
    · show ((w.files.insert _ _).find? c.writePath).isSome = true
      rw [OrdMap.find?_insert, if_pos rfl]
      rfl
  rotation := by
    refine List.forall_mem_append.2 ⟨fun e he => ?_, List.forall_mem_singleton.2 ?_⟩
    · show e.1.rotation ≤ (w.setWriter c e.1.device).writeRotation
      unfold CarrierWorld.setWriter
      split_ifs with hd
      · exact hrotation e he hd
      · exact h.rotation e he
    · show c.writePath.rotation ≤ (w.setWriter c c.writePath.device).writeRotation
      rw [CarrierWorld.setWriter, if_pos (show c.writePath.device = c.device from rfl)]
      exact le_rfl
  sorted d := by
    rw [List.filter_append]
    by_cases hd : c.writePath.device = d
    · rw [List.filter_cons_of_pos (by simpa using hd), List.filter_nil, List.pairwise_append]
      refine ⟨h.sorted d, List.pairwise_singleton _ _, fun a ha b hb => ?_⟩
      obtain ⟨hmem, hda⟩ := List.mem_filter.1 ha
      rw [List.mem_singleton.1 hb]
      exact hrotation a hmem ((of_decide_eq_true hda).trans hd.symm)
    · rw [List.filter_cons_of_neg (by simpa using hd), List.filter_nil, List.append_nil]
      exact h.sorted d
  appended := happended
  shown name hfair := by
    refine (h.shown name hfair).trans ?_
    rw [contentOf_insert]
    split_ifs with hname
    · rw [hname]
      exact List.prefix_append _ _
    · exact List.prefix_rfl
  returned name hfair := by
    refine (h.returned name hfair).trans ?_
    rw [framesIn_concat]
    exact List.prefix_append _ _
  taken := h.taken
  within := h.within

theorem highestRotation_le {folder : Folder} {name : OpsFileName} (h : (folder.find? name).isSome = true) :
    name.rotation ≤ highestRotation folder name.device := by
  obtain ⟨bytes, hbytes⟩ := Option.isSome_iff_exists.1 h
  have hmem := OrdMap.find?_eq_some.1 hbytes
  have hfold : ∀ (items : List (OpsFileName × List UInt8)) (start : Nat),
      start ≤ items.foldl (fun highest e =>
        if e.1.device = name.device then max highest e.1.rotation else highest) start ∧
      ((name, bytes) ∈ items → name.rotation ≤ items.foldl (fun highest e =>
        if e.1.device = name.device then max highest e.1.rotation else highest) start) := by
    intro items
    induction items with
    | nil => exact fun start => ⟨le_rfl, fun h => absurd h List.not_mem_nil⟩
    | cons e items ih =>
      intro start
      rw [List.foldl_cons]
      obtain ⟨hle, hin⟩ := ih (if e.1.device = name.device then max start e.1.rotation else start)
      constructor
      · refine le_trans ?_ hle
        split_ifs
        · exact le_max_left _ _
        · exact le_rfl
      · intro hmem
        rcases List.mem_cons.1 hmem with rfl | hmem
        · refine le_trans ?_ hle
          rw [if_pos rfl]
          exact le_max_right _ _
        · exact hin hmem
  exact (hfold folder.items 0).2 hmem

/-- A write that stopped inside its record. -/
theorem CarrierWorld.Sound.tear (h : w.Sound us Fair stored tail) {c : FileCarrier} {part : List UInt8}
    (hpart : Torn part) (hclean : tail c.writePath = [])
    (hrotation : ∀ e ∈ stored, e.1.device = c.device → e.1.rotation ≤ c.writeRotation) :
    ({ w with
      writers := w.setWriter c
      files := w.files.insert c.writePath (contentOf w.files c.writePath ++ part) } : CarrierWorld).Sound
        us Fair stored (Function.update tail c.writePath part) where
  reader := h.reader
  writer := CarrierWorld.setWriter_device h.writer c
  sendable := h.sendable
  content name := by
    rw [contentOf_insert, Function.update_apply]
    split_ifs with hname
    · rw [h.content, hname, hclean, List.append_nil]
    · exact h.content name
  torn name := by
    rw [Function.update_apply]
    split_ifs
    · exact hpart
    · exact h.torn name
  onDisk e he := by
    show ((w.files.insert _ _).find? e.1).isSome = true
    rw [OrdMap.find?_insert]
    split_ifs
    · rfl
    · exact h.onDisk e he
  rotation e he := by
    show e.1.rotation ≤ (w.setWriter c e.1.device).writeRotation
    unfold CarrierWorld.setWriter
    split_ifs with hd
    · exact hrotation e he hd
    · exact h.rotation e he
  sorted := h.sorted
  appended := h.appended
  shown name hfair := by
    refine (h.shown name hfair).trans ?_
    rw [contentOf_insert]
    split_ifs with hname
    · rw [hname]
      exact List.prefix_append _ _
    · exact List.prefix_rfl
  returned := h.returned
  taken := h.taken
  within := h.within

/-- The write goes as far as its file. -/
def WriteIo.Opens (io : WriteIo) : Prop := io ≠ .statFails ∧ io ≠ .openFails

/-- An append to a file that ends with a whole record. -/
theorem CarrierWorld.Sound.append (h : w.Sound us Fair stored tail) (device : DeviceId)
    (body : List UInt8) (io : WriteIo)
    (hclean : io.Opens → tail ((w.writers device).rotate w.files).writePath = []) : ∃ stored' tail',
      stored <+: stored' ∧ (w.append device body io).Sound us Fair stored' tail' ∧
      (io = .done → tail' = tail ∧ ∃ new, stored' = stored ++ new ∧
        (w.append device body io).appended = w.appended ++ new) := by
  unfold CarrierWorld.append
  cases hframe : Frame.new body with
  | error e =>
    exact ⟨stored, tail, List.prefix_rfl, h, fun _ => ⟨rfl, [], by simp⟩⟩
  | ok f =>
    obtain ⟨hf, rfl⟩ := Frame.new_ok hframe
    have hdevice : ((w.writers device).rotate w.files).device = device :=
      (FileCarrier.rotate_device _ _).trans (h.writer device)
    have hrotation : ∀ e ∈ stored, e.1.device = ((w.writers device).rotate w.files).device →
        e.1.rotation ≤ ((w.writers device).rotate w.files).writeRotation := by
      intro e he hd
      have hle := h.rotation e he
      rw [hd, hdevice] at hle
      exact hle.trans (FileCarrier.rotate_le _ _)
    have hstays : ∀ e ∈ stored, e.1.device = (w.writers device).device →
        e.1.rotation ≤ (w.writers device).writeRotation := by
      intro e he hd
      have hle := h.rotation e he
      rwa [hd, h.writer device] at hle
    cases io with
    | done =>
      dsimp only
      rw [FileCarrier.append_done hf]
      exact ⟨_, tail, List.prefix_append _ _,
        h.store hf (hclean ⟨nofun, nofun⟩) hrotation (h.appended.append_right _),
        fun _ => ⟨rfl, _, rfl, rfl⟩⟩
    | statFails =>
      dsimp only
      rw [(FileCarrier.append_fails hf _ _).2]
      exact ⟨stored, tail, List.prefix_rfl, h.reopen (fun _ => rfl) (fun _ => id) hstays, nofun⟩
    | openFails =>
      dsimp only
      rw [(FileCarrier.append_fails hf _ _).1]
      exact ⟨stored, tail, List.prefix_rfl, h.reopen (fun _ => rfl) (fun _ => id) hrotation, nofun⟩
    | stopsAfter n =>
      have hclean := hclean ⟨nofun, nofun⟩
      dsimp only
      rw [FileCarrier.append_stops hf]
      by_cases htake : f.record.take n = f.record
      · rw [htake]
        exact ⟨_, tail, List.prefix_append _ _,
          h.store hf hclean hrotation (h.appended.trans (List.sublist_append_left _ _)), nofun⟩
      · exact ⟨stored, _, List.prefix_rfl,
          h.tear ⟨f, hf, List.take_prefix _ _, htake⟩ hclean hrotation, nofun⟩

theorem CarrierWorld.Sound.grow (h : w.Sound us Fair stored tail) (name : OpsFileName) (bytes : Nat) :
    (w.grow name bytes).Sound us Fair stored tail := by
  unfold CarrierWorld.grow
  cases hfile : w.files.find? name with
  | none => exact h
  | some content =>
    have hcontent : contentOf w.files name = content := by
      rw [contentOf, hfile]
      rfl
    dsimp only
    refine { h with shown := fun other hfair => ?_, within := fun other hfair => ?_ }
    · show contentOf (w.shown.insert _ _) other <+: contentOf w.files other
      rw [contentOf_insert]
      split_ifs with hname
      · rw [hname, hcontent]
        exact List.take_prefix _ _
      · exact h.shown other hfair
    · show w.reader.offset other ≤ (contentOf (w.shown.insert _ _) other).length
      refine (h.within other hfair).trans ?_
      rw [contentOf_insert]
      split_ifs with hname
      · have hle := (h.shown other hfair).length_le
        rw [hname, hcontent] at hle
        rw [hname, List.length_take]
        unfold contentOf at hle ⊢
        omega
      · exact le_rfl

theorem CarrierWorld.Sound.scribble (h : w.Sound us Fair stored tail) {name : OpsFileName}
    (hname : ¬Fair name.device) (content : List UInt8) :
    ({ w with shown := w.shown.insert name content } : CarrierWorld).Sound us Fair stored tail := by
  have hother : ∀ other : OpsFileName, Fair other.device →
      contentOf (w.shown.insert name content) other = contentOf w.shown other := by
    intro other hfair
    rw [contentOf_insert, if_neg]
    rintro rfl
    exact hname hfair
  refine { h with shown := fun other hfair => ?_, within := fun other hfair => ?_ }
  · show contentOf (w.shown.insert name content) other <+: _
    rw [hother other hfair]
    exact h.shown other hfair
  · show _ ≤ (contentOf (w.shown.insert name content) other).length
    rw [hother other hfair]
    exact h.within other hfair

theorem CarrierWorld.Sound.sendable_in (h : w.Sound us Fair stored tail) (name : OpsFileName) :
    ∀ f ∈ framesIn stored name, f.Sendable := by
  intro f hf
  obtain ⟨e, he, rfl⟩ := List.mem_map.1 hf
  exact h.sendable e (List.mem_filter.1 he).1

/-- What is left of a file: its records not taken yet, of which the rest of what shows is the front. -/
theorem CarrierWorld.Sound.pending (h : w.Sound us Fair stored tail) {name : OpsFileName}
    (hfair : Fair name.device) : ∃ rest, framesIn stored name = framesIn w.returned name ++ rest ∧
      (∀ f ∈ rest, f.Sendable) ∧
      (contentOf w.shown name).drop (w.reader.offset name) <+: recordsOf rest ++ tail name := by
  obtain ⟨rest, hrest⟩ := h.returned name hfair
  refine ⟨rest, hrest.symm, fun f hf => ?_, ?_⟩
  · refine h.sendable_in name f ?_
    rw [← hrest]
    exact List.mem_append_right _ hf
  · have hdrop := (h.shown name hfair).drop (w.reader.offset name)
    rwa [h.content, ← hrest, recordsOf_append, List.append_assoc, h.taken name hfair, List.drop_left,
      ← h.taken name hfair] at hdrop

/-- The reader once it took `used` bytes more of a file. -/
def CarrierWorld.took (w : CarrierWorld) (name : OpsFileName) (used : Nat) : FileCarrier :=
  { w.reader with offsets := w.reader.offsets.insert name (w.reader.offset name + used) }

/-- What a poll of the shown files does: it finds nothing, stops at a file others touched, takes the next
record of a file, or takes something from a file others touched. -/
inductive CarrierWorld.PollStep (us : DeviceId) (Fair : DeviceId → Prop) (w : CarrierWorld)
    (stored : List (OpsFileName × Frame)) : CarrierWorld → Prop where
  | nothing (hidle : w.reader.Idle (otherDeviceFiles w.shown us)) : PollStep us Fair w stored w
  | blocked {before after : List (OpsFileName × List UInt8)} {name : OpsFileName} {bytes : List UInt8}
      {e : AppendFrameError} (hfiles : otherDeviceFiles w.shown us = before ++ (name, bytes) :: after)
      (hidle : w.reader.Idle before) (hfair : ¬Fair name.device)
      (h : AppendFrame.tryDecode (bytes.drop (w.reader.offset name)) = .error e) :
      PollStep us Fair w stored w
  | next {before after : List (OpsFileName × List UInt8)} {name : OpsFileName} {bytes : List UInt8}
      {f : Frame} {rest : List Frame}
      (hfiles : otherDeviceFiles w.shown us = before ++ (name, bytes) :: after)
      (hidle : w.reader.Idle before) (hfair : Fair name.device)
      (hnext : framesIn stored name = framesIn w.returned name ++ f :: rest)
      (hwhole : f.record <+: bytes.drop (w.reader.offset name)) :
      PollStep us Fair w stored
        { w with reader := w.took name f.record.length, returned := w.returned ++ [(name, f)] }
  | other {before after : List (OpsFileName × List UInt8)} {name : OpsFileName} {bytes : List UInt8}
      {record : AppendFrame} {used : Nat}
      (hfiles : otherDeviceFiles w.shown us = before ++ (name, bytes) :: after)
      (hidle : w.reader.Idle before) (hfair : ¬Fair name.device)
      (h : AppendFrame.tryDecode (bytes.drop (w.reader.offset name)) = .ok (some (record, used)))
      {returned : List (OpsFileName × Frame)}
      (hreturned : returned = w.returned ∨ ∃ f, returned = w.returned ++ [(name, f)]) :
      PollStep us Fair w stored { w with reader := w.took name used, returned := returned }

theorem contentOf_of_mem {folder : Folder} {name : OpsFileName} {bytes : List UInt8}
    (h : (name, bytes) ∈ otherDeviceFiles folder us) :
    contentOf folder name = bytes ∧ name.device ≠ us := by
  obtain ⟨hmem, hdevice⟩ := List.mem_filter.1 h
  rw [contentOf, OrdMap.find?_eq_some.2 hmem]
  exact ⟨rfl, of_decide_eq_true hdevice⟩

theorem CarrierWorld.Sound.pollStep (h : w.Sound us Fair stored tail) : w.PollStep us Fair stored w.poll := by
  have hpolled := FileCarrier.pollFiles_polled w.reader (otherDeviceFiles w.shown us)
  have hpoll : w.reader.poll w.shown = w.reader.pollFiles (otherDeviceFiles w.shown us) := by
    rw [FileCarrier.poll, h.reader]
  unfold CarrierWorld.poll
  rw [hpoll]
  generalize w.reader.pollFiles (otherDeviceFiles w.shown us) = r at hpolled
  cases hpolled with
  | nothing hidle => exact .nothing hidle
  | @blocked before after name bytes e hfiles hidle hdecode =>
    have hmem : (name, bytes) ∈ otherDeviceFiles w.shown us := by
      rw [hfiles]
      exact List.mem_append_right _ (List.mem_cons_self ..)
    have hfile := contentOf_of_mem hmem
    refine .blocked hfiles hidle (fun hfair => ?_) hdecode
    obtain ⟨rest, -, hsend, hpart⟩ := h.pending hfair
    rw [hfile.1] at hpart
    rcases tryDecode_front hsend (h.torn name) hpart with hnone | ⟨f, rest', -, -, hsome⟩
    · rw [hdecode] at hnone
      cases hnone
    · rw [hdecode] at hsome
      cases hsome
  | @taken before after name bytes record used hfiles hidle hdecode =>
    have hmem : (name, bytes) ∈ otherDeviceFiles w.shown us := by
      rw [hfiles]
      exact List.mem_append_right _ (List.mem_cons_self ..)
    have hfile := contentOf_of_mem hmem
    by_cases hfair : Fair name.device
    · obtain ⟨rest, hrest, hsend, hpart⟩ := h.pending hfair
      rw [hfile.1] at hpart
      rcases tryDecode_front hsend (h.torn name) hpart with hnone | ⟨f, rest', rfl, hwhole, hsome⟩
      · rw [hdecode] at hnone
        cases hnone
      · rw [hdecode] at hsome
        obtain ⟨rfl, rfl⟩ := Prod.mk.inj (Option.some_inj.1 (Except.ok.inj hsome))
        have hf := hsend f (List.mem_cons_self ..)
        dsimp only
        rw [hf.decode_bytes]
        exact .next hfiles hidle hfair hrest hwhole
    · refine .other hfiles hidle hfair hdecode ?_
      cases hframe : Frame.decode record.body with
      | error e => exact .inl rfl
      | ok r => exact .inr ⟨r.1, rfl⟩

theorem CarrierWorld.took_offset (w : CarrierWorld) (name other : OpsFileName) (used : Nat) :
    (w.took name used).offset other =
      if other = name then w.reader.offset name + used else w.reader.offset other :=
  FileCarrier.offset_insert w.reader name other _

/-- A poll takes whole records only. -/
theorem CarrierWorld.PollStep.sound (h : w.Sound us Fair stored tail) {w' : CarrierWorld}
    (hstep : w.PollStep us Fair stored w') : w'.Sound us Fair stored tail := by
  cases hstep with
  | nothing => exact h
  | blocked => exact h
  | @next before after name bytes f rest hfiles hidle hfair hnext hwhole =>
    have hmem : (name, bytes) ∈ otherDeviceFiles w.shown us := by
      rw [hfiles]
      exact List.mem_append_right _ (List.mem_cons_self ..)
    refine { h with
      reader := h.reader
      returned := fun other hother => ?_
      taken := fun other hother => ?_
      within := fun other hother => ?_ }
    · show framesIn (w.returned ++ [(name, f)]) other <+: framesIn stored other
      rw [framesIn_concat]
      split_ifs with hname
      · subst hname
        exact ⟨rest, by rw [hnext, List.append_assoc]; rfl⟩
      · rw [List.append_nil]
        exact h.returned other hother
    · show (w.took name f.record.length).offset other =
        (recordsOf (framesIn (w.returned ++ [(name, f)]) other)).length
      rw [CarrierWorld.took_offset, framesIn_concat]
      by_cases hname : other = name
      · subst hname
        rw [if_pos rfl, if_pos rfl, recordsOf_append, List.length_append, h.taken other hother]
        simp [recordsOf]
      · rw [if_neg hname, if_neg (Ne.symm hname), List.append_nil]
        exact h.taken other hother
    · show (w.took name f.record.length).offset other ≤ (contentOf w.shown other).length
      rw [CarrierWorld.took_offset]
      split_ifs with hname
      · have hle := hwhole.length_le
        have hpos := List.length_pos_of_ne_nil f.record_ne_nil
        rw [List.length_drop] at hle
        rw [hname, (contentOf_of_mem hmem).1]
        omega
      · exact h.within other hother
  | @other before after name bytes record used hfiles hidle hfair hdecode returned hreturned =>
    have hsame : ∀ o : OpsFileName, Fair o.device → framesIn returned o = framesIn w.returned o := by
      intro o ho
      rcases hreturned with rfl | ⟨f, rfl⟩
      · rfl
      · rw [framesIn_concat, if_neg, List.append_nil]
        rintro rfl
        exact hfair ho
    have hoffset : ∀ o : OpsFileName, Fair o.device →
        (w.took name used).offset o = w.reader.offset o := by
      intro o ho
      rw [CarrierWorld.took_offset, if_neg]
      rintro rfl
      exact hfair ho
    refine { h with
      reader := h.reader
      returned := fun o ho => ?_
      taken := fun o ho => ?_
      within := fun o ho => ?_ }
    · show framesIn returned o <+: framesIn stored o
      rw [hsame o ho]
      exact h.returned o ho
    · show (w.took name used).offset o = (recordsOf (framesIn returned o)).length
      rw [hsame o ho, hoffset o ho]
      exact h.taken o ho
    · show (w.took name used).offset o ≤ (contentOf w.shown o).length
      rw [hoffset o ho]
      exact h.within o ho

end Sound

/-! ## Delivery in order -/

/-- The file a poll reads next: the first one that shows a whole record behind its offset. -/
def CarrierWorld.NextFile (w : CarrierWorld) (name : OpsFileName) : Prop :=
  ∃ before bytes after r, otherDeviceFiles w.shown w.reader.device = before ++ (name, bytes) :: after ∧
    w.reader.Idle before ∧ AppendFrame.tryDecode (bytes.drop (w.reader.offset name)) = .ok (some r)

/-- Of the file a poll reads next, all files its device filled before show whole. -/
def CarrierWorld.InOrder (w : CarrierWorld) : Prop :=
  ∀ name, w.NextFile name → ∀ rotation < name.rotation,
    contentOf w.shown ⟨name.device, rotation⟩ = contentOf w.files ⟨name.device, rotation⟩

/-- Appends go through, files only grow, and each poll finds the files in order. -/
def DeliveryEvent (w : CarrierWorld) : CarrierEvent → Prop
  | .append _ _ io => io = .done
  | .reopen _ => True
  | .grow _ _ => True
  | .scribble _ _ => False
  | .poll => w.InOrder

/-- What was returned of each device is the front of what it appended, and nothing was taken of a record
that does not show whole. -/
def CarrierWorld.Delivered (w : CarrierWorld) : Prop :=
  (∀ d, framesOf w.returned d <+: framesOf w.appended d) ∧
    ∀ name, ∃ taken rest, contentOf w.files name = recordsOf taken ++ recordsOf rest ∧
      w.reader.offset name = (recordsOf taken).length ∧
      recordsOf taken <+: contentOf w.shown name ∧ framesIn w.returned name = taken

section Order
variable {us : DeviceId} {Fair : DeviceId → Prop} {w : CarrierWorld} {stored : List (OpsFileName × Frame)}
  {tail : OpsFileName → List UInt8}

theorem OpsFileName.lt_of_rotation {a b : OpsFileName} (hdevice : a.device = b.device)
    (hlt : a.rotation < b.rotation) : a < b :=
  Prod.Lex.toLex_lt_toLex.2 (.inr ⟨hdevice, hlt⟩)

/-- The files in front of one in the scan are those before it in order. -/
theorem mem_before {folder : Folder} {before after : List (OpsFileName × List UInt8)}
    {name other : OpsFileName} {bytes content : List UInt8}
    (hfiles : otherDeviceFiles folder us = before ++ (name, bytes) :: after)
    (hother : (other, content) ∈ otherDeviceFiles folder us) (hlt : other < name) :
    (other, content) ∈ before := by
  have hsorted : (otherDeviceFiles folder us).Pairwise fun a b => a.1 < b.1 := folder.sorted.filter _
  rw [hfiles] at hsorted hother
  rcases List.mem_append.1 hother with hmem | hmem
  · exact hmem
  · rcases List.mem_cons.1 hmem with heq | hmem
    · rw [(Prod.mk.inj heq).1] at hlt
      exact absurd hlt (lt_irrefl _)
    · have hafter := (List.pairwise_cons.1 (List.pairwise_append.1 hsorted).2.1).1 _ hmem
      exact absurd hlt hafter.not_gt

/-- The records at the front of a file are its first ones. -/
theorem frames_front {frames : List Frame} {tail : List UInt8} (htail : Torn tail) :
    ∀ {front : List Frame}, (∀ f ∈ front, f.Sendable) → (∀ f ∈ frames, f.Sendable) →
      recordsOf front <+: recordsOf frames ++ tail → front <+: frames := by
  induction frames with
  | nil =>
    intro front hfront _ hfirsts
    cases front with
    | nil => exact List.prefix_rfl
    | cons f front =>
      have hnone := htail.tryDecode (List.prefix_rfl)
      obtain ⟨rest, hrest⟩ := hfirsts
      have hsome := (hfront f (List.mem_cons_self ..)).tryDecode_record (recordsOf front ++ rest)
      rw [← List.append_assoc] at hsome
      rw [show tail = f.record ++ recordsOf front ++ rest from hrest.symm, hsome] at hnone
      cases hnone
  | cons g frames ih =>
    intro front hfront hframes hfirsts
    cases front with
    | nil => exact List.nil_prefix
    | cons f front =>
      have hg := hframes g (List.mem_cons_self ..)
      obtain ⟨rest, hrest⟩ := hfirsts
      have hrest : f.record ++ (recordsOf front ++ rest) = g.record ++ (recordsOf frames ++ tail) := by
        rw [← List.append_assoc, ← List.append_assoc]
        exact hrest
      have hf := hfront f (List.mem_cons_self ..)
      have hbytes : f.bytes = g.bytes := by
        have hdecode := hf.tryDecode_record (recordsOf front ++ rest)
        rw [hrest, hg.tryDecode_record] at hdecode
        have hpair := Prod.mk.inj (Option.some_inj.1 (Except.ok.inj hdecode))
        exact (AppendFrame.mk.inj hpair.1).2.symm
      have hsame : f = g := by
        have hdecode := hf.decode_bytes
        rw [hbytes, hg.decode_bytes] at hdecode
        exact (Prod.mk.inj (Except.ok.inj hdecode)).1.symm
      subst hsame
      exact List.cons_prefix_cons.2 ⟨rfl, ih (fun h hh => hfront h (List.mem_cons_of_mem _ hh))
        (fun h hh => hframes h (List.mem_cons_of_mem _ hh)) ⟨rest, List.append_cancel_left hrest⟩⟩

/-- Of a file that has no record left to decode, all records that show whole were returned. -/
theorem CarrierWorld.Sound.returned_front (h : w.Sound us Fair stored tail) {name : OpsFileName}
    (hfair : Fair name.device) (hus : name.device ≠ us)
    (hidle : ∀ bytes, (name, bytes) ∈ otherDeviceFiles w.shown us →
      AppendFrame.tryDecode (bytes.drop (w.reader.offset name)) = .ok none)
    {front : List Frame} (hsend : ∀ f ∈ front, f.Sendable)
    (hfront : recordsOf front <+: contentOf w.shown name) : front <+: framesIn w.returned name := by
  have hstored : front <+: framesIn stored name :=
    frames_front (h.torn name) hsend (h.sendable_in name)
      (h.content name ▸ hfront.trans (h.shown name hfair))
  rcases List.prefix_or_prefix_of_prefix hstored (h.returned name hfair) with hle | ⟨rest, rfl⟩
  · exact hle
  · cases rest with
    | nil => rw [List.append_nil]
    | cons g rest =>
      obtain ⟨after, hafter⟩ := hfront
      have hdrop : (contentOf w.shown name).drop (w.reader.offset name) =
          g.record ++ (recordsOf rest ++ after) := by
        rw [← hafter, recordsOf_append, List.append_assoc, h.taken name hfair, List.drop_left,
          ← List.append_assoc]
        rfl
      have hg := hsend g (List.mem_append_right _ (List.mem_cons_self ..))
      cases hshown : w.shown.find? name with
      | none =>
        rw [contentOf, hshown, Option.getD_none, List.drop_nil] at hdrop
        exact absurd (List.append_eq_nil_iff.1 hdrop.symm).1 g.record_ne_nil
      | some content =>
        have hnone := hidle content
          (List.mem_filter.2 ⟨OrdMap.find?_eq_some.1 hshown, decide_eq_true hus⟩)
        rw [contentOf, hshown, Option.getD_some] at hdrop
        rw [hdrop, hg.tryDecode_record] at hnone
        cases hnone

/-- A file that shows whole and has no record left to decode was returned whole. -/
theorem CarrierWorld.Sound.returned_whole (h : w.Sound us Fair stored tail) {name : OpsFileName}
    (hfair : Fair name.device) (hus : name.device ≠ us)
    (hwhole : contentOf w.shown name = contentOf w.files name)
    (hidle : ∀ bytes, (name, bytes) ∈ otherDeviceFiles w.shown us →
      AppendFrame.tryDecode (bytes.drop (w.reader.offset name)) = .ok none) :
    framesIn stored name = framesIn w.returned name := by
  have hfront : recordsOf (framesIn stored name) <+: contentOf w.shown name := by
    rw [hwhole, h.content]
    exact List.prefix_append _ _
  have hle := h.returned_front hfair hus hidle (h.sendable_in name) hfront
  exact hle.eq_of_length (Nat.le_antisymm hle.length_le (h.returned name hfair).length_le)

/-- The entries of one device. -/
def entriesOf (log : List (OpsFileName × Frame)) (d : DeviceId) : List (OpsFileName × Frame) :=
  log.filter (·.1.device = d)

theorem framesIn_entriesOf (log : List (OpsFileName × Frame)) (name : OpsFileName) :
    framesIn log name = framesIn (entriesOf log name.device) name := by
  rw [framesIn, framesIn, entriesOf, List.filter_filter]
  congr 1
  refine List.filter_congr fun e _ => ?_
  by_cases hname : e.1 = name
  · simp [hname]
  · simp [hname]

/-- The record a poll takes is the next one its device wrote. -/
theorem CarrierWorld.Sound.next_eq (h : w.Sound us Fair stored tail) (hin : w.InOrder)
    {before after : List (OpsFileName × List UInt8)} {name : OpsFileName} {bytes : List UInt8}
    {f : Frame} {rest : List Frame} {later : List (OpsFileName × Frame)}
    (hfiles : otherDeviceFiles w.shown us = before ++ (name, bytes) :: after)
    (hidle : w.reader.Idle before) (hfair : Fair name.device)
    (hnext : framesIn stored name = framesIn w.returned name ++ f :: rest)
    (hwhole : f.record <+: bytes.drop (w.reader.offset name))
    (hlater : entriesOf stored name.device = entriesOf w.returned name.device ++ later) :
    ∃ later', later = (name, f) :: later' := by
  have hsplit : ∀ n : OpsFileName, n.device = name.device →
      framesIn stored n = framesIn w.returned n ++ framesIn later n := by
    intro n hn
    rw [framesIn_entriesOf stored, framesIn_entriesOf w.returned, hn, hlater, framesIn, List.filter_append,
      List.map_append]
    rfl
  have hmine : framesIn later name = f :: rest := by
    rw [hsplit name rfl] at hnext
    exact List.append_cancel_left hnext
  have hfile := contentOf_of_mem (show (name, bytes) ∈ otherDeviceFiles w.shown us by
    rw [hfiles]
    exact List.mem_append_right _ (List.mem_cons_self ..))
  have hreads : w.NextFile name := by
    obtain ⟨tail, htail⟩ := hwhole
    have hf : f.Sendable := by
      refine h.sendable_in name f ?_
      rw [hnext]
      exact List.mem_append_right _ (List.mem_cons_self ..)
    refine ⟨before, bytes, after, (⟨f.bytes.length, f.bytes⟩, f.record.length),
      by rw [h.reader, hfiles], hidle, ?_⟩
    rw [← htail]
    exact hf.tryDecode_record tail
  cases later with
  | nil => cases hmine
  | cons x later =>
    have hx : x ∈ entriesOf stored name.device := by
      rw [hlater]
      exact List.mem_append_right _ (List.mem_cons_self ..)
    have hdevice : x.1.device = name.device := of_decide_eq_true (List.mem_filter.1 hx).2
    have hle : x.1.rotation ≤ name.rotation := by
      have hsorted : (entriesOf stored name.device).Pairwise fun a b => a.1.rotation ≤ b.1.rotation :=
        h.sorted name.device
      rw [hlater] at hsorted
      have hhead := (List.pairwise_cons.1 (List.pairwise_append.1 hsorted).2.1).1
      have hmem : f ∈ framesIn (x :: later) name := by
        rw [hmine]
        exact List.mem_cons_self ..
      obtain ⟨e, he, -⟩ := List.mem_map.1 hmem
      obtain ⟨he, hname⟩ := List.mem_filter.1 he
      have hname := of_decide_eq_true hname
      rcases List.mem_cons.1 he with rfl | he
      · rw [hname]
      · rw [← hname]
        exact hhead e he
    have hge : ¬x.1.rotation < name.rotation := by
      intro hlt
      have hshown := hin name hreads _ hlt
      have hsame : x.1 = ⟨name.device, x.1.rotation⟩ := by
        rw [← hdevice]
      rw [← hsame] at hshown
      have hbefore : x.1 < name := OpsFileName.lt_of_rotation hdevice hlt
      have hall := h.returned_whole (by rwa [hdevice]) (by rw [hdevice]; exact hfile.2) hshown
        fun content hmem => hidle _ (mem_before hfiles hmem hbefore)
      rw [hsplit x.1 hdevice] at hall
      have hnil := List.append_right_eq_self.1 hall
      simp [framesIn] at hnil
    have hname : x.1 = name := by
      have hrotation : x.1.rotation = name.rotation := by omega
      rw [show x.1 = ⟨x.1.device, x.1.rotation⟩ from rfl, hdevice, hrotation]
    refine ⟨later, ?_⟩
    have hfirst : x.2 = f := by
      simp only [framesIn, List.filter_cons, hname, decide_true, if_true, List.map_cons] at hmine
      exact (List.cons.inj hmine).1
    rw [← hname, ← hfirst]

/-- In a run in which each poll finds the files in order, the log and what was returned of it. -/
theorem sound_of_delivery (h : CarrierRun us DeliveryEvent w) :
    w.Sound us (fun _ => True) w.appended (fun _ => []) ∧
      ∀ d, entriesOf w.returned d <+: entriesOf w.appended d := by
  induction h with
  | start => exact ⟨.start us _, fun d => List.prefix_rfl⟩
  | @step w e h he ih =>
    obtain ⟨hsound, hfirsts⟩ := ih
    cases e with
    | append device body io =>
      have hdone : io = .done := he
      obtain ⟨stored', tail', -, hsound', hlog⟩ := hsound.append device body io fun _ => rfl
      obtain ⟨rfl, new, hstored, happended⟩ := hlog hdone
      have hreturned : (w.append device body io).returned = w.returned := by
        unfold CarrierWorld.append
        split <;> rfl
      show (w.append device body io).Sound us _ (w.append device body io).appended _ ∧ _
      rw [happended, ← hstored]
      refine ⟨hsound', fun d => ?_⟩
      show entriesOf (w.append device body io).returned d <+: entriesOf (w.append device body io).appended d
      rw [hreturned, happended, entriesOf, entriesOf, List.filter_append]
      exact (hfirsts d).trans (List.prefix_append _ _)
    | reopen device =>
      refine ⟨hsound.reopen (fun _ => rfl) (fun _ => id) (fun e he hd => ?_), hfirsts⟩
      have hle := highestRotation_le (hsound.onDisk e he)
      rwa [hd] at hle
    | grow name bytes =>
      have hsame : (w.grow name bytes).returned = w.returned ∧
          (w.grow name bytes).appended = w.appended := by
        unfold CarrierWorld.grow
        split <;> exact ⟨rfl, rfl⟩
      show (w.grow name bytes).Sound us _ (w.grow name bytes).appended _ ∧
        ∀ d, entriesOf (w.grow name bytes).returned d <+: entriesOf (w.grow name bytes).appended d
      rw [hsame.1, hsame.2]
      exact ⟨hsound.grow name bytes, hfirsts⟩
    | scribble name content => exact absurd he id
    | poll =>
      have hstep := hsound.pollStep
      have hsound' := hstep.sound hsound
      show w.poll.Sound us _ w.poll.appended _ ∧
        ∀ d, entriesOf w.poll.returned d <+: entriesOf w.poll.appended d
      generalize w.poll = w' at hstep hsound'
      cases hstep with
      | nothing => exact ⟨hsound, hfirsts⟩
      | blocked => exact ⟨hsound, hfirsts⟩
      | other hfiles hidle hfair => exact absurd trivial hfair
      | @next before after name bytes f rest hfiles hidle hfair hnext hwhole =>
        refine ⟨hsound', fun d => ?_⟩
        show entriesOf (w.returned ++ [(name, f)]) d <+: entriesOf w.appended d
        rw [entriesOf, List.filter_append, ← entriesOf]
        by_cases hd : name.device = d
        · obtain ⟨later, hlater⟩ := hfirsts name.device
          obtain ⟨later', rfl⟩ := hsound.next_eq he hfiles hidle trivial hnext hwhole hlater.symm
          rw [List.filter_cons_of_pos (by simpa using hd), List.filter_nil, ← hd, ← hlater]
          exact ⟨later', by rw [List.append_assoc]; rfl⟩
        · rw [List.filter_cons_of_neg (by simpa using hd), List.filter_nil, List.append_nil]
          exact hfirsts d

end Order

/-- In a run in which each poll finds the files in order, each device's frames are returned in order, once,
and a record only when it shows whole. -/
theorem delivered_of_run {us : DeviceId} {w : CarrierWorld} (h : CarrierRun us DeliveryEvent w) :
    w.Delivered := by
  obtain ⟨hsound, hfirsts⟩ := sound_of_delivery h
  refine ⟨fun d => (hfirsts d).map _, fun name => ?_⟩
  obtain ⟨rest, hrest⟩ := hsound.returned name trivial
  refine ⟨framesIn w.returned name, rest, ?_, hsound.taken name trivial, ?_, rfl⟩
  · rw [hsound.content, ← hrest, recordsOf_append, List.append_nil]
  · have hfront : recordsOf (framesIn w.returned name) <+: contentOf w.files name := by
      rw [hsound.content, ← hrest, recordsOf_append, List.append_assoc]
      exact List.prefix_append _ _
    refine List.prefix_of_prefix_length_le hfront (hsound.shown name trivial) ?_
    rw [← hsound.taken name trivial]
    exact hsound.within name trivial

/-- Two devices append; a poll finds a record and a part of the next, the others follow as they show. -/
def twoDevices : CarrierWorld :=
  ((((((CarrierWorld.new ⟨9⟩).apply (.append ⟨2⟩ [7] .done)).apply (.append ⟨1⟩ [8] .done)).apply
    (.append ⟨2⟩ [9] .done)).apply (.grow ⟨⟨2⟩, 0⟩ 20)).apply .poll).apply .poll

theorem delivered_of_run_two : ((((twoDevices.apply (.grow ⟨⟨1⟩, 0⟩ 15)).apply
    (.grow ⟨⟨2⟩, 0⟩ 30)).apply .poll).apply .poll).Delivered := by
  have hfirst : ∀ w : CarrierWorld, (∀ e ∈ otherDeviceFiles w.shown w.reader.device, e.1.rotation = 0) →
      w.InOrder := by
    rintro w hw name ⟨before, bytes, after, r, hfiles, -⟩ rotation hlt
    have hmem : (name, bytes) ∈ otherDeviceFiles w.shown w.reader.device := by
      rw [hfiles]
      exact List.mem_append_right _ (List.mem_cons_self ..)
    have hzero : name.rotation = 0 := hw _ hmem
    omega
  have happended : CarrierRun ⟨9⟩ DeliveryEvent ((((CarrierWorld.new ⟨9⟩).apply
      (.append ⟨2⟩ [7] .done)).apply (.append ⟨1⟩ [8] .done)).apply (.append ⟨2⟩ [9] .done)) :=
    .step (.step (.step .start rfl) rfl) rfl
  have hpart : CarrierRun ⟨9⟩ DeliveryEvent twoDevices :=
    .step (.step (.step happended trivial) (hfirst _ (by decide +kernel))) (hfirst _ (by decide +kernel))
  have hrest : CarrierRun ⟨9⟩ DeliveryEvent (((twoDevices.apply (.grow ⟨⟨1⟩, 0⟩ 15)).apply
      (.grow ⟨⟨2⟩, 0⟩ 30)).apply .poll) :=
    .step (.step (.step hpart trivial) trivial) (hfirst _ (by decide +kernel))
  exact delivered_of_run (.step hrest (hfirst _ (by decide +kernel)))

/-! ## A second file that shows first -/

theorem FileCarrier.rotate_of_lt {c : FileCarrier} {folder : Folder}
    (h : (contentOf folder c.writePath).length < MAX_OPS_FILE_BYTES) : c.rotate folder = c :=
  if_neg (Nat.not_le.2 h)

theorem FileCarrier.rotate_of_le {c : FileCarrier} {folder : Folder}
    (h : MAX_OPS_FILE_BYTES ≤ (contentOf folder c.writePath).length) :
    c.rotate folder = { c with writeRotation := c.writeRotation + 1 } := if_pos h

/-- What one append changes, its writer at `c` once it chose its file. -/
structure CarrierWorld.Appends (w w' : CarrierWorld) (c : FileCarrier) (f : Frame) : Prop where
  writer : w'.writers c.device = c
  files : ∀ name, w'.files.find? name =
    if name = c.writePath then some (contentOf w.files c.writePath ++ f.record) else w.files.find? name
  appended : w'.appended = w.appended ++ [(c.writePath, f)]
  others : w'.shown = w.shown ∧ w'.reader = w.reader ∧ w'.returned = w.returned

theorem CarrierWorld.appends {f : Frame} {body : List UInt8} (h : Frame.new body = .ok f)
    {w : CarrierWorld} {device : DeviceId} {c : FileCarrier}
    (hc : (w.writers device).rotate w.files = c) : w.Appends (w.append device body .done) c f := by
  have hwrite := FileCarrier.append_done (Frame.new_ok h).1 (w.writers device) w.files
  rw [hc] at hwrite
  unfold CarrierWorld.append
  rw [h]
  dsimp only
  rw [hwrite]
  refine ⟨if_pos rfl, fun name => ?_, rfl, rfl, rfl, rfl⟩
  show (w.files.insert _ _).find? name = _
  rw [OrdMap.find?_insert]
  split_ifs <;> rfl

/-- The folder shows the second file of a device before its first. -/
def secondFileFirst (body : List UInt8) : CarrierWorld :=
  (((((CarrierWorld.new ⟨9⟩).apply (.append ⟨1⟩ body .done)).apply (.append ⟨1⟩ body .done)).apply
    (.append ⟨1⟩ [7] .done)).apply (.grow ⟨⟨1⟩, 1⟩ 15)).apply .poll

theorem Frame.new_of_le {body : List UInt8} (h : body.length ≤ MAX_FRAME_BYTES) :
    Frame.new body = .ok ⟨PROTOCOL_VERSION, body⟩ := if_neg (Nat.not_lt.2 h)

theorem secondFileFirst_eq {body : List UInt8} (hle : body.length ≤ MAX_FRAME_BYTES)
    (hshort : body.length + 14 < MAX_OPS_FILE_BYTES)
    (hfull : MAX_OPS_FILE_BYTES ≤ 2 * (body.length + 14)) :
    (secondFileFirst body).appended = [(⟨⟨1⟩, 0⟩, ⟨PROTOCOL_VERSION, body⟩),
      (⟨⟨1⟩, 0⟩, ⟨PROTOCOL_VERSION, body⟩), (⟨⟨1⟩, 1⟩, ⟨PROTOCOL_VERSION, [7]⟩)] ∧
    (secondFileFirst body).returned = [(⟨⟨1⟩, 1⟩, ⟨PROTOCOL_VERSION, [7]⟩)] := by
  have hsmall : Frame.new [7] = .ok ⟨PROTOCOL_VERSION, [7]⟩ := rfl
  obtain ⟨f, hf⟩ : ∃ f : Frame, f = ⟨PROTOCOL_VERSION, body⟩ := ⟨_, rfl⟩
  have hnew : Frame.new body = .ok f := hf ▸ Frame.new_of_le hle
  have hlen : f.record.length = body.length + 14 := by
    rw [Frame.length_record, Frame.length_bytes, (Frame.new_ok hnew).2]
    unfold APPEND_HEADER_BYTES HEADER_BYTES
    omega
  let c₀ : FileCarrier := ⟨⟨1⟩, 0, .empty⟩
  let c₁ : FileCarrier := ⟨⟨1⟩, 1, .empty⟩
  have h₁ : (CarrierWorld.new ⟨9⟩).Appends _ c₀ f := CarrierWorld.appends hnew rfl
  rw [← hf, secondFileFirst]
  unfold CarrierWorld.apply
  dsimp only
  generalize (CarrierWorld.new ⟨9⟩).append ⟨1⟩ body .done = w₁ at h₁ ⊢
  have hfirst : contentOf w₁.files c₀.writePath = f.record := by
    rw [contentOf, h₁.files, if_pos rfl]
    rfl
  have h₂ : w₁.Appends (w₁.append ⟨1⟩ body .done) c₀ f := by
    refine CarrierWorld.appends hnew ?_
    rw [h₁.writer]
    refine FileCarrier.rotate_of_lt ?_
    rw [hfirst]
    omega
  generalize w₁.append ⟨1⟩ body .done = w₂ at h₂ ⊢
  have hsecond : contentOf w₂.files c₀.writePath = f.record ++ f.record := by
    rw [contentOf, h₂.files, if_pos rfl, hfirst]
    rfl
  have h₃ : w₂.Appends (w₂.append ⟨1⟩ [7] .done) c₁ ⟨PROTOCOL_VERSION, [7]⟩ := by
    refine CarrierWorld.appends hsmall ?_
    rw [h₂.writer]
    refine FileCarrier.rotate_of_le ?_
    rw [hsecond, List.length_append]
    omega
  generalize w₂.append ⟨1⟩ [7] .done = w₃ at h₃ ⊢
  have hthird : w₃.files.find? c₁.writePath = some (Frame.record ⟨PROTOCOL_VERSION, [7]⟩) := by
    rw [h₃.files, if_pos rfl, contentOf, h₂.files, if_neg (by decide), h₁.files, if_neg (by decide)]
    rfl
  have hshown : w₃.shown = .empty := by
    rw [h₃.others.1, h₂.others.1, h₁.others.1]
    rfl
  have hreader : w₃.reader = .openAt .empty ⟨9⟩ := by
    rw [h₃.others.2.1, h₂.others.2.1, h₁.others.2.1]
    rfl
  have hreturned : w₃.returned = [] := by
    rw [h₃.others.2.2, h₂.others.2.2, h₁.others.2.2]
    rfl
  have happended : w₃.appended = [(⟨⟨1⟩, 0⟩, f), (⟨⟨1⟩, 0⟩, f), (⟨⟨1⟩, 1⟩, ⟨PROTOCOL_VERSION, [7]⟩)] := by
    rw [h₃.appended, h₂.appended, h₁.appended]
    rfl
  rw [CarrierWorld.grow, show w₃.files.find? ⟨⟨1⟩, 1⟩ = _ from hthird]
  dsimp only
  rw [hshown, CarrierWorld.poll]
  dsimp only
  rw [hreader, hreturned]
  exact ⟨happended, by decide +kernel⟩

/-- A file that shows before the one written before it is returned first. -/
theorem not_delivered : ¬(secondFileFirst (List.replicate MAX_FRAME_BYTES 0)).Delivered := by
  rintro ⟨hfirsts, -⟩
  have hlen : (List.replicate MAX_FRAME_BYTES (0 : UInt8)).length = MAX_FRAME_BYTES := List.length_replicate
  have hshort : (List.replicate MAX_FRAME_BYTES (0 : UInt8)).length + 14 < MAX_OPS_FILE_BYTES := by
    rw [hlen]
    decide
  have hfull : MAX_OPS_FILE_BYTES ≤ 2 * ((List.replicate MAX_FRAME_BYTES (0 : UInt8)).length + 14) := by
    rw [hlen]
    decide
  obtain ⟨happended, hreturned⟩ := secondFileFirst_eq hlen.le hshort hfull
  generalize List.replicate MAX_FRAME_BYTES (0 : UInt8) = body at *
  have h := hfirsts ⟨1⟩
  rw [happended, hreturned] at h
  have hbody : [7] = body := congrArg Frame.body (List.cons_prefix_cons.1 h).1
  rw [← hbody] at hlen
  revert hlen
  decide

end Txtodo
