import Txtodo.Daemon.Proofs.BundleProofs

/-!
# The record reader is exact

However the stream of some records is cut into chunks, the records come out as they went in; a stream that
stops inside a record is found out at the end; and what is read of any stream are records whose bytes stand
in it one after the other, before what the reader keeps.
-/

namespace Txtodo

variable {Key SigningKey : Type} {lib : BundleLib Key SigningKey} {records : List BundleTailRecord}
  {carry : List UInt8}

open BundleTailRecord BundleRecordReader

/-- `out` with the records after it. -/
def encodeAll (lib : BundleLib Key SigningKey) (records : List BundleTailRecord) (out : List UInt8) :
    Option (List UInt8) :=
  records.foldlM (fun out record => record.encodeInto lib out) out

/-- Records come back from their bytes. -/
def RecordsReturn (lib : BundleLib Key SigningKey) : Prop :=
  ∀ {record body}, lib.recordBytes record = some body → lib.recordOf body = some record

theorem encodeAll_spec (hround : RecordsReturn lib) {out whole : List UInt8}
    (h : encodeAll lib records out = some whole) :
    whole = out ++ streamOf lib records ∧ ∀ r ∈ records, Encoded lib r := by
  induction records generalizing out with
  | nil =>
    cases h
    exact ⟨(List.append_nil _).symm, List.forall_mem_nil _⟩
  | cons r records ih =>
    rw [encodeAll, List.foldlM_cons] at h
    obtain ⟨next, hnext, h⟩ := Option.bind_eq_some_iff.1 h
    obtain ⟨body, hbody, rfl⟩ := Option.map_eq_some_iff.1 hnext
    have hr : recordBody lib r = body := by rw [recordBody, hbody, Option.getD_some]
    obtain ⟨hwhole, henc⟩ := ih h
    refine ⟨?_, List.forall_mem_cons.2 ⟨⟨hr.symm ▸ hbody, hr.symm ▸ hround hbody⟩, henc⟩⟩
    rw [hwhole, streamOf, streamOf, List.flatMap_cons, hr, List.append_assoc]

theorem encodeAll_eq (henc : ∀ r ∈ records, Encoded lib r) {out : List UInt8} :
    encodeAll lib records out = some (out ++ streamOf lib records) := by
  induction records generalizing out with
  | nil => exact congrArg some (List.append_nil out).symm
  | cons r records ih =>
    obtain ⟨hr, hrest⟩ := List.forall_mem_cons.1 henc
    rw [encodeAll, List.foldlM_cons, encodeInto, hr.1]
    refine (ih hrest).trans ?_
    rw [streamOf, streamOf, List.flatMap_cons, List.append_assoc]

/-- Chunk by chunk the same comes out as from the whole stream at once. -/
theorem feedAll_eq (chunks : List (List UInt8)) (hcarry : tryTakeOne lib carry = .ok none) :
    feedAll lib carry chunks = Drain.drain (tryTakeOne lib) (carry ++ chunks.flatten) := by
  rw [← Drain.pieces_eq (stable_tryTakeOne lib) chunks hcarry]
  clear hcarry
  induction chunks generalizing carry with
  | nil => rfl
  | cons chunk chunks ih =>
    rw [feedAll, Drain.pieces, feed]
    cases Drain.drain (tryTakeOne lib) (carry ++ chunk) with
    | error e => rfl
    | ok x =>
      dsimp only
      rw [ih]
      cases Drain.pieces (tryTakeOne lib) x.2 chunks with
      | error e => rfl
      | ok y => rfl

theorem finish_eq_ok : finish carry = .ok () ↔ carry = [] := by
  cases carry <;> simp [finish]

theorem finish_of_ne_nil (h : carry ≠ []) : finish carry = .error (.truncated carry.length) := by
  rw [finish, if_neg (by simpa using h)]

/-! ## A stream that stops early -/

/-- A first part of the stream either ends between two records or leaves bytes that are no record. -/
theorem drain_part (henc : ∀ r ∈ records, Encoded lib r) (hfits : ∀ r ∈ records, FitsReader lib r)
    {part rest : List UInt8} (h : part ++ rest = streamOf lib records) :
    ∃ k left, Drain.drain (tryTakeOne lib) part = .ok (records.take k, left) ∧
      part = streamOf lib (records.take k) ++ left := by
  induction records generalizing part with
  | nil =>
    obtain rfl : part = [] := (List.append_eq_nil_iff.1 h).1
    exact ⟨0, [], Drain.drain_of_none tryTakeOne_nil, rfl⟩
  | cons r records ih =>
    obtain ⟨hr, hrest⟩ := List.forall_mem_cons.1 henc
    obtain ⟨hfit, hfits⟩ := List.forall_mem_cons.1 hfits
    have htake : ∀ more, tryTakeOne lib (framed (recordBody lib r) ++ more) = .ok (some (r, more)) := fun more =>
      tryTakeOne_framed hfit hr.2
    rw [streamOf, List.flatMap_cons] at h
    have hwhole : ∀ more, part = framed (recordBody lib r) ++ more → more ++ rest = streamOf lib records →
        ∃ k left, Drain.drain (tryTakeOne lib) part = .ok ((r :: records).take k, left) ∧
          part = streamOf lib ((r :: records).take k) ++ left := by
      rintro more rfl hmore
      obtain ⟨k, left, hdrain, hleft⟩ := ih hrest hfits hmore
      refine ⟨k + 1, left, ?_, ?_⟩
      · rw [Drain.drain_of_some (stable_tryTakeOne lib) (htake more)]
        dsimp only
        rw [hdrain, List.take_succ_cons]
      · rw [List.take_succ_cons, streamOf, List.flatMap_cons, List.append_assoc, ← streamOf, ← hleft]
    obtain ⟨more, hframed, -⟩ | ⟨more, hpart, hmore⟩ := List.append_eq_append_iff.1 h
    · by_cases hempty : more = []
      · subst hempty
        rw [List.append_nil] at hframed
        refine hwhole [] (by rw [hframed, List.append_nil]) ?_
        rw [hframed, List.append_cancel_left_eq] at h
        exact h
      · have hnone : tryTakeOne lib part = .ok none :=
          Drain.step_of_part (stable_tryTakeOne lib) (hframed ▸ htake []) hempty
        exact ⟨0, part, Drain.drain_of_none hnone, rfl⟩
    · exact hwhole more hpart hmore.symm

/-! ## Any stream -/

/-- The bytes of a record that is read stand at the front. -/
theorem framed_of_tryTakeOne {x : BundleTailRecord × List UInt8} (h : tryTakeOne lib carry = .ok (some x)) :
    ∃ body, lib.recordOf body = some x.1 ∧ carry = framed body ++ x.2 := by
  unfold tryTakeOne at h
  by_cases hshort : carry.length < LEN_PREFIX_BYTES
  · rw [if_pos hshort] at h
    cases h
  · rw [if_neg hshort] at h
    dsimp only at h
    split_ifs at h with hlarge hpart
    · cases h
    · generalize hlen : Bytes.toNatLE (carry.take LEN_PREFIX_BYTES) = len at h hlarge hpart
      cases hrecord : lib.recordOf ((carry.drop LEN_PREFIX_BYTES).take len) with
      | none =>
        rw [hrecord] at h
        cases h
      | some record =>
        rw [hrecord] at h
        cases h
        refine ⟨_, hrecord, ?_⟩
        have hbody : ((carry.drop LEN_PREFIX_BYTES).take len).length = len := by
          rw [List.length_take, List.length_drop]
          omega
        have hwidth : (carry.take LEN_PREFIX_BYTES).length = LEN_PREFIX_BYTES := by
          rw [List.length_take]
          omega
        have hprefix : Bytes.ofNatLE LEN_PREFIX_BYTES len = carry.take LEN_PREFIX_BYTES := by
          have hbytes := Bytes.ofNatLE_toNatLE (carry.take LEN_PREFIX_BYTES)
          rwa [hwidth, hlen] at hbytes
        have hmin : min len 4294967295 = len := by
          unfold MAX_RECORD_BYTES at hlarge
          omega
        rw [framed, hbody, hmin, hprefix, ← List.drop_drop, List.append_assoc, List.take_append_drop,
          List.take_append_drop]

/-- What is read of any stream are records whose bytes stand in it, before what is kept. -/
theorem read_of_feedAll {chunks : List (List UInt8)} {got : List BundleTailRecord}
    (h : feedAll lib [] chunks = .ok (got, carry)) :
    ∃ bodies, List.Forall₂ (fun body r => lib.recordOf body = some r) bodies got ∧
      chunks.flatten = bodies.flatMap framed ++ carry := by
  rw [feedAll_eq chunks tryTakeOne_nil, List.nil_append] at h
  exact Drain.frames_of_drainN framed_of_tryTakeOne h

/-! ## The reader -/

/-- The reader is exact on the records of `whole`. -/
structure ReadsBack (lib : BundleLib Key SigningKey) (records : List BundleTailRecord) (whole : List UInt8) :
    Prop where
  /-- However the stream is cut, all records come out in order and nothing is left. -/
  all : ∀ chunks, chunks.flatten = whole →
    ∃ carry, feedAll lib [] chunks = .ok (records, carry) ∧ finish carry = .ok ()
  /-- A stream that stops short is found out unless it stops between two records. -/
  part : ∀ chunks rest, rest ≠ [] → chunks.flatten ++ rest = whole →
    (∀ k, encodeAll lib (records.take k) [] ≠ some chunks.flatten) →
    ∃ k carry, feedAll lib [] chunks = .ok (records.take k, carry) ∧
      finish carry = .error (.truncated carry.length)

/-- **The record reader is exact**: every record once and in order however the stream is cut, an error at
the end of one that stops inside a record, and of any stream only records whose bytes stand in it. -/
theorem reader_exact (hround : RecordsReturn lib) :
    (∀ records whole, encodeAll lib records [] = some whole →
      (∀ r ∈ records, ∀ body, lib.recordBytes r = some body → body.length ≤ MAX_RECORD_BYTES) →
      ReadsBack lib records whole) ∧
    ∀ chunks got carry, feedAll lib [] chunks = .ok (got, carry) →
      ∃ bodies, List.Forall₂ (fun body r => lib.recordOf body = some r) bodies got ∧
        chunks.flatten = bodies.flatMap framed ++ carry := by
  refine ⟨fun records whole hwhole hmax => ?_, fun chunks got carry h => read_of_feedAll h⟩
  obtain ⟨hstream, henc⟩ := encodeAll_spec hround hwhole
  rw [List.nil_append] at hstream
  have hfits : ∀ r ∈ records, FitsReader lib r := fun r hr => hmax r hr _ (henc r hr).1
  refine ⟨fun chunks hcut => ⟨[], ?_, finish_eq_ok.2 rfl⟩, fun chunks rest hne hcut hbetween => ?_⟩
  · rw [feedAll_eq chunks tryTakeOne_nil, List.nil_append, hcut, hstream, drain_streamOf henc hfits]
  · obtain ⟨k, left, hdrain, hleft⟩ := drain_part henc hfits (hcut.trans hstream)
    refine ⟨k, left, ?_, finish_of_ne_nil ?_⟩
    · rw [feedAll_eq chunks tryTakeOne_nil, List.nil_append, hdrain]
    · rintro rfl
      refine hbetween k ?_
      rw [hleft, List.append_nil]
      exact encodeAll_eq fun r hr => henc r (List.mem_of_mem_take hr)

open BlankBundle in
/-- The two records of a blank line's bundle, cut anywhere. -/
theorem reader_exact_blank : ∃ whole, encodeAll libs [blobRecord, opRecord] [] = some whole ∧
    ReadsBack libs [blobRecord, opRecord] whole := by
  have hlib : libs.Faithful own := faithful _ (by decide +kernel)
  refine ⟨_, rfl, (reader_exact hlib.record).1 _ _ rfl ?_⟩
  refine List.forall_mem_cons.2 ⟨fun body hbody => ?_, List.forall_mem_singleton.2 fun body hbody => ?_⟩
  · cases hbody
    show blobBytes.length ≤ 67108864
    decide
  · cases hbody
    show opRecordBytes.length ≤ 67108864
    decide

end Txtodo
