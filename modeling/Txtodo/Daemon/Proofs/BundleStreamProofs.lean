import Txtodo.Daemon.BundleImport

/-!
# The sealed stream is read back

The header is read back as it was written; what was sealed is opened chunk by chunk, and the records come
out as they went in while each is short enough to be read.
-/

namespace Txtodo

variable {Key SigningKey : Type} {lib : BundleLib Key SigningKey}

/-! ## The header -/

namespace BundleHeader

theorem field_append {a c : List UInt8} {at_ width n : Nat} (hat : a.length = at_) (hn : n < 256 ^ width) :
    field (a ++ (Bytes.ofNatLE width n ++ c)) at_ width = n := by
  rw [field, List.drop_left' hat, List.take_left' (Bytes.length_ofNatLE width n),
    Bytes.toNatLE_ofNatLE_of_lt hn]

theorem decode_encode (h : BundleHeader) : decode h.encode = .ok h := by
  have hsalt := h.length_salt
  have hnonce := h.length_noncePrefix
  unfold Bundle.SALT_BYTES at hsalt
  unfold Bundle.NONCE_PREFIX_BYTES at hnonce
  have hlen : ¬h.encode.length < Bundle.HEADER_BYTES := by
    simp [encode, Bundle.MAGIC, Bundle.HEADER_BYTES, hsalt, hnonce]
  have hmagic : h.encode.take 4 = Bundle.MAGIC := rfl
  have hversion : field h.encode 4 2 = Bundle.HEADER_FORMAT_VERSION := field_append rfl (by decide)
  have hmemory : field h.encode 6 4 = h.memoryKib := by
    rw [encode, ← List.append_assoc]
    exact field_append rfl h.memoryKib_lt
  have hiterations : field h.encode 10 4 = h.iterations := by
    rw [encode, ← List.append_assoc, ← List.append_assoc]
    exact field_append rfl h.iterations_lt
  have hparallelism : field h.encode 14 4 = h.parallelism := by
    rw [encode, ← List.append_assoc, ← List.append_assoc, ← List.append_assoc]
    exact field_append rfl h.parallelism_lt
  have hrest : h.encode.drop 18 = h.salt ++ h.noncePrefix := by
    rw [encode, ← List.append_assoc, ← List.append_assoc, ← List.append_assoc, ← List.append_assoc]
    exact List.drop_left' rfl
  have hsalted : (h.encode.drop 18).take Bundle.SALT_BYTES = h.salt := by
    rw [hrest]
    exact List.take_left' h.length_salt
  have hprefixed : (h.encode.drop 34).take Bundle.NONCE_PREFIX_BYTES = h.noncePrefix := by
    have hdrop : h.encode.drop 34 = (h.encode.drop 18).drop 16 := by rw [List.drop_drop]
    rw [hdrop, hrest, List.drop_left' hsalt]
    exact List.take_of_length_le (le_of_eq h.length_noncePrefix)
  rw [decode, dif_neg hlen, if_neg (not_not_intro hmagic), if_neg (not_not_intro hversion)]
  simp only [hmemory, hiterations, hparallelism, hsalted, hprefixed]

end BundleHeader

/-! ## Records -/

section Reader
variable {carry : List UInt8}

open BundleTailRecord

/-- A record that is there whole, or a length that is too large, stays so whatever follows. -/
theorem tryTakeOne_append (h : tryTakeOne lib carry ≠ .ok none) (more : List UInt8) :
    tryTakeOne lib (carry ++ more) =
      (tryTakeOne lib carry).map (Option.map fun x => (x.1, x.2 ++ more)) := by
  have hlen : (carry ++ more).length = carry.length + more.length := List.length_append
  unfold tryTakeOne at h ⊢
  by_cases hshort : carry.length < LEN_PREFIX_BYTES
  · rw [if_pos hshort] at h
    exact absurd rfl h
  · have hheader : (carry ++ more).take LEN_PREFIX_BYTES = carry.take LEN_PREFIX_BYTES :=
      List.take_append_of_le_length (Nat.not_lt.1 hshort)
    rw [if_neg hshort] at h ⊢
    rw [if_neg (by omega)]
    dsimp only at h ⊢
    rw [hheader]
    by_cases hlarge : MAX_RECORD_BYTES < Bytes.toNatLE (carry.take LEN_PREFIX_BYTES)
    · rw [if_pos hlarge, if_pos hlarge]
      rfl
    · rw [if_neg hlarge] at h ⊢
      rw [if_neg hlarge]
      by_cases hpart : carry.length < LEN_PREFIX_BYTES + Bytes.toNatLE (carry.take LEN_PREFIX_BYTES)
      · rw [if_pos hpart] at h
        exact absurd rfl h
      · rw [if_neg hpart, if_neg (by omega), List.drop_append_of_le_length (Nat.not_lt.1 hshort),
          List.take_append_of_le_length (by rw [List.length_drop]; omega),
          List.drop_append_of_le_length (Nat.not_lt.1 hpart)]
        cases lib.recordOf ((carry.drop LEN_PREFIX_BYTES).take
          (Bytes.toNatLE (carry.take LEN_PREFIX_BYTES))) with
        | none => rfl
        | some record => rfl

theorem length_lt_of_tryTakeOne {x : BundleTailRecord × List UInt8}
    (h : tryTakeOne lib carry = .ok (some x)) : x.2.length < carry.length := by
  unfold tryTakeOne at h
  by_cases hshort : carry.length < LEN_PREFIX_BYTES
  · rw [if_pos hshort] at h
    cases h
  · rw [if_neg hshort] at h
    dsimp only at h
    split_ifs at h with hlarge hpart
    · cases h
    · cases hrecord : lib.recordOf ((carry.drop LEN_PREFIX_BYTES).take
          (Bytes.toNatLE (carry.take LEN_PREFIX_BYTES))) with
      | none =>
        rw [hrecord] at h
        cases h
      | some record =>
        rw [hrecord] at h
        cases h
        unfold LEN_PREFIX_BYTES at hshort ⊢
        rw [List.length_drop]
        omega

theorem stable_tryTakeOne (lib : BundleLib Key SigningKey) : Drain.Stable (tryTakeOne lib) where
  shorter := length_lt_of_tryTakeOne
  some_append := by
    intro carry x more h
    rw [tryTakeOne_append (by rw [h]; simp), h]
    rfl
  error_append := by
    intro carry e more h
    rw [tryTakeOne_append (by rw [h]; simp), h]
    rfl

/-- A framed body that is short enough is taken as its record. -/
theorem tryTakeOne_framed {body rest : List UInt8} {record : BundleTailRecord}
    (hlen : body.length ≤ MAX_RECORD_BYTES) (hrecord : lib.recordOf body = some record) :
    tryTakeOne lib (framed body ++ rest) = .ok (some (record, rest)) := by
  unfold MAX_RECORD_BYTES at hlen
  have hmin : min body.length 4294967295 = body.length := by omega
  have htake : (framed body ++ rest).take LEN_PREFIX_BYTES =
      Bytes.ofNatLE LEN_PREFIX_BYTES (min body.length 4294967295) := by
    rw [framed, List.append_assoc]
    exact List.take_left' (Bytes.length_ofNatLE _ _)
  have hdrop : (framed body ++ rest).drop LEN_PREFIX_BYTES = body ++ rest := by
    rw [framed, List.append_assoc]
    exact List.drop_left' (Bytes.length_ofNatLE _ _)
  have hread : Bytes.toNatLE ((framed body ++ rest).take LEN_PREFIX_BYTES) = body.length := by
    rw [htake, hmin]
    exact Bytes.toNatLE_ofNatLE_of_lt (by unfold LEN_PREFIX_BYTES; omega)
  have hframed : (framed body ++ rest).length = LEN_PREFIX_BYTES + body.length + rest.length := by
    rw [List.length_append, framed, List.length_append, Bytes.length_ofNatLE]
  have hleft : (framed body ++ rest).drop (LEN_PREFIX_BYTES + body.length) = rest := by
    rw [← List.drop_drop, hdrop]
    exact List.drop_left' rfl
  rw [tryTakeOne, if_neg (by omega)]
  dsimp only
  rw [hread, if_neg (by unfold MAX_RECORD_BYTES; omega), if_neg (by omega), hdrop, List.take_left' rfl, hrecord,
    hleft]

/-- One that is too long is refused. -/
theorem tryTakeOne_too_long {body rest : List UInt8} (hlen : MAX_RECORD_BYTES < body.length) :
    ∃ e, tryTakeOne lib (framed body ++ rest) = .error e := by
  have htake : (framed body ++ rest).take LEN_PREFIX_BYTES =
      Bytes.ofNatLE LEN_PREFIX_BYTES (min body.length 4294967295) := by
    rw [framed, List.append_assoc]
    exact List.take_left' (Bytes.length_ofNatLE _ _)
  have hread : Bytes.toNatLE ((framed body ++ rest).take LEN_PREFIX_BYTES) =
      min body.length 4294967295 := by
    rw [htake]
    exact Bytes.toNatLE_ofNatLE_of_lt (by unfold LEN_PREFIX_BYTES; omega)
  have hframed : (framed body ++ rest).length = LEN_PREFIX_BYTES + body.length + rest.length := by
    rw [List.length_append, framed, List.length_append, Bytes.length_ofNatLE]
  refine ⟨.tooLarge (min body.length 4294967295), ?_⟩
  rw [tryTakeOne, if_neg (by omega)]
  dsimp only
  rw [hread, if_pos]
  unfold MAX_RECORD_BYTES at hlen ⊢
  omega

end Reader

/-- A record's body. -/
def recordBody (lib : BundleLib Key SigningKey) (record : BundleTailRecord) : List UInt8 :=
  (lib.recordBytes record).getD []

/-- The plaintext of a list of records. -/
def streamOf (lib : BundleLib Key SigningKey) (records : List BundleTailRecord) : List UInt8 :=
  records.flatMap fun record => BundleTailRecord.framed (recordBody lib record)

/-- A record that is encoded, and comes back from its bytes. -/
def Encoded (lib : BundleLib Key SigningKey) (record : BundleTailRecord) : Prop :=
  lib.recordBytes record = some (recordBody lib record) ∧ lib.recordOf (recordBody lib record) = some record

/-- A record short enough to be read. -/
def FitsReader (lib : BundleLib Key SigningKey) (record : BundleTailRecord) : Prop :=
  (recordBody lib record).length ≤ BundleTailRecord.MAX_RECORD_BYTES

theorem streamOf_append (a b : List BundleTailRecord) :
    streamOf lib (a ++ b) = streamOf lib a ++ streamOf lib b := List.flatMap_append

theorem tryTakeOne_nil : tryTakeOne lib [] = .ok none := rfl

/-- The records of a stream are read back while all are short enough. -/
theorem drain_streamOf {records : List BundleTailRecord} (henc : ∀ r ∈ records, Encoded lib r)
    (hfits : ∀ r ∈ records, FitsReader lib r) :
    Drain.drain (tryTakeOne lib) (streamOf lib records) = .ok (records, []) := by
  induction records with
  | nil => exact Drain.drain_of_none tryTakeOne_nil
  | cons r records ih =>
    obtain ⟨hr, hrest⟩ := List.forall_mem_cons.1 henc
    obtain ⟨hfit, hfits⟩ := List.forall_mem_cons.1 hfits
    rw [streamOf, List.flatMap_cons,
      Drain.drain_of_some (stable_tryTakeOne lib) (tryTakeOne_framed hfit hr.2)]
    dsimp only
    rw [← streamOf, ih hrest hfits]

/-- If a stream is read, all its records are short enough. -/
theorem fits_of_drain {records : List BundleTailRecord} {x : List BundleTailRecord × List UInt8}
    (henc : ∀ r ∈ records, Encoded lib r)
    (h : Drain.drain (tryTakeOne lib) (streamOf lib records) = .ok x) :
    ∀ r ∈ records, FitsReader lib r := by
  induction records generalizing x with
  | nil => exact List.forall_mem_nil _
  | cons r records ih =>
    obtain ⟨hr, hrest⟩ := List.forall_mem_cons.1 henc
    rw [streamOf, List.flatMap_cons] at h
    by_cases hfit : FitsReader lib r
    · rw [Drain.drain_of_some (stable_tryTakeOne lib) (tryTakeOne_framed hfit hr.2), ← streamOf] at h
      cases hdrain : Drain.drain (tryTakeOne lib) (streamOf lib records) with
      | error e =>
        dsimp only at h
        rw [hdrain] at h
        cases h
      | ok y => exact List.forall_mem_cons.2 ⟨hfit, ih hrest hdrain⟩
    · obtain ⟨e, he⟩ : ∃ e, tryTakeOne lib (BundleTailRecord.framed (recordBody lib r) ++
          records.flatMap fun record => BundleTailRecord.framed (recordBody lib record)) = .error e :=
        tryTakeOne_too_long (Nat.lt_of_not_le hfit)
      rw [Drain.drain_of_error he] at h
      cases h

/-! ## Sealing -/

/-- `chunks` are `plains` sealed one after the other. -/
inductive Seals (lib : BundleLib Key SigningKey) :
    BundleStream Key → List (List UInt8) → List (List UInt8) → BundleStream Key → Prop
  | nil {s : BundleStream Key} : Seals lib s [] [] s
  | cons {s s' s'' : BundleStream Key} {plain chunk : List UInt8} {plains chunks : List (List UInt8)} :
      s.encryptNext lib plain = .ok (chunk, s') → Seals lib s' plains chunks s'' →
        Seals lib s (plain :: plains) (chunk :: chunks) s''

namespace Seals
variable {s s' s'' : BundleStream Key} {plains chunks plains' chunks' : List (List UInt8)}

theorem trans (h : Seals lib s plains chunks s') (h' : Seals lib s' plains' chunks' s'') :
    Seals lib s (plains ++ plains') (chunks ++ chunks') s'' := by
  induction h with
  | nil => exact h'
  | cons hnext _ ih => exact .cons hnext (ih h')

end Seals

/-- What is sealed is opened under the same key, nonce, position and header. -/
def Opens (lib : BundleLib Key SigningKey) : Prop :=
  ∀ {key noncePrefix position last aad msg chunk},
    lib.sealChunk key noncePrefix position last aad msg = some chunk →
      lib.openChunk key noncePrefix position last aad chunk = some msg

section Opens
variable (hopens : Opens lib) {s s' : BundleStream Key} {plain chunk : List UInt8}
include hopens

theorem decryptNext_of_encryptNext (h : s.encryptNext lib plain = .ok (chunk, s')) :
    s.decryptNext lib chunk = .ok (plain, s') := by
  unfold BundleStream.encryptNext at h
  cases hseal : lib.sealChunk s.key s.noncePrefix s.position false s.aad plain with
  | none =>
    rw [hseal] at h
    cases h
  | some c =>
    rw [hseal] at h
    cases h
    rw [BundleStream.decryptNext, hopens hseal]

theorem decryptLast_of_encryptLast (h : s.encryptLast lib plain = .ok chunk) :
    s.decryptLast lib chunk = .ok plain := by
  unfold BundleStream.encryptLast at h
  cases hseal : lib.sealChunk s.key s.noncePrefix s.position true s.aad plain with
  | none =>
    rw [hseal] at h
    cases h
  | some c =>
    rw [hseal] at h
    cases h
    rw [BundleStream.decryptLast, hopens hseal]

/-- Opened chunk by chunk, a sealed stream gives what the reader makes of its plaintext. -/
theorem decryptChunks_of_seals {plains chunks : List (List UInt8)} {last lastChunk : List UInt8}
    (hseals : Seals lib s plains chunks s') (hlast : s'.encryptLast lib last = .ok lastChunk)
    (carry : List UInt8) :
    Bundle.decryptChunks lib s carry (chunks ++ [lastChunk]) =
      (Drain.pieces (tryTakeOne lib) carry (plains ++ [last])).mapError .record := by
  induction hseals generalizing carry with
  | nil =>
    rw [List.nil_append, List.nil_append, Bundle.decryptChunks, decryptLast_of_encryptLast hopens hlast,
      Drain.pieces]
    dsimp only
    unfold feed
    cases Drain.drain (tryTakeOne lib) (carry ++ last) with
    | error e => rfl
    | ok x =>
      dsimp only
      rw [Drain.pieces]
      dsimp only
      rw [List.append_nil]
  | @cons s s' s'' plain chunk plains chunks hnext _ ih =>
    obtain ⟨upcoming, frames, hframes⟩ := List.exists_cons_of_ne_nil
      (List.append_ne_nil_of_right_ne_nil chunks (List.cons_ne_nil lastChunk []))
    rw [List.cons_append, List.cons_append, hframes, Bundle.decryptChunks,
      decryptNext_of_encryptNext hopens hnext, Drain.pieces]
    dsimp only
    unfold feed
    cases Drain.drain (tryTakeOne lib) (carry ++ plain) with
    | error e => rfl
    | ok x =>
      dsimp only
      rw [← hframes, ih hlast]
      cases Drain.pieces (tryTakeOne lib) x.2 (plains ++ [last]) with
      | error e => rfl
      | ok y => rfl

end Opens

/-! ## Writing -/

/-- `bytes` went into the writer: what is sealed since and what is not yet make them up. -/
def Wrote (lib : BundleLib Key SigningKey) (w w' : ChunkWriter Key) (bytes : List UInt8) : Prop :=
  ∃ plains chunks, Seals lib w.enc plains chunks w'.enc ∧ w'.sealed = w.sealed ++ chunks ∧
    plains.flatten ++ w'.buf = w.buf ++ bytes

theorem Wrote.refl (w : ChunkWriter Key) : Wrote lib w w [] :=
  ⟨[], [], .nil, (List.append_nil _).symm, by rw [List.flatten_nil, List.nil_append, List.append_nil]⟩

theorem Wrote.trans {w w' w'' : ChunkWriter Key} {a b : List UInt8} (h : Wrote lib w w' a)
    (h' : Wrote lib w' w'' b) : Wrote lib w w'' (a ++ b) := by
  obtain ⟨plains, chunks, hseals, hsealed, hbytes⟩ := h
  obtain ⟨plains', chunks', hseals', hsealed', hbytes'⟩ := h'
  refine ⟨plains ++ plains', chunks ++ chunks', hseals.trans hseals', ?_, ?_⟩
  · rw [hsealed', hsealed, List.append_assoc]
  · rw [List.flatten_append, List.append_assoc, hbytes', ← List.append_assoc, hbytes, List.append_assoc]

section Writer
variable {w w₁ : ChunkWriter Key}

theorem wrote_flush {fuel : Nat} (h : w.flush lib fuel = .ok w₁) : Wrote lib w w₁ [] := by
  induction fuel generalizing w with
  | zero =>
    cases h
    exact Wrote.refl _
  | succ fuel ih =>
    rw [ChunkWriter.flush] at h
    split_ifs at h with hfull
    · unfold ChunkWriter.flushFullChunk at h
      cases hnext : w.enc.encryptNext lib (w.buf.take Bundle.CHUNK_PLAINTEXT_MAX) with
      | error e =>
        rw [hnext] at h
        cases h
      | ok x =>
        rw [hnext] at h
        have hrest := ih h
        have hone : Wrote lib w ⟨x.2, w.buf.drop Bundle.CHUNK_PLAINTEXT_MAX, w.sealed ++ [x.1]⟩ [] :=
          ⟨[w.buf.take Bundle.CHUNK_PLAINTEXT_MAX], [x.1], .cons hnext .nil, rfl, by
            rw [List.flatten_singleton, List.take_append_drop, List.append_nil]⟩
        exact hone.trans hrest
    · cases h
      exact Wrote.refl _

theorem wrote_writeRecord {record : BundleTailRecord} (h : w.writeRecord lib record = .ok w₁) :
    lib.recordBytes record = some (recordBody lib record) ∧ Wrote lib w w₁ (streamOf lib [record]) := by
  unfold ChunkWriter.writeRecord at h
  cases hbytes : lib.recordBytes record with
  | none =>
    rw [hbytes] at h
    cases h
  | some body =>
    rw [hbytes] at h
    have hbody : recordBody lib record = body := by rw [recordBody, hbytes, Option.getD_some]
    obtain ⟨plains, chunks, hseals, hsealed, hflat⟩ := wrote_flush h
    rw [hbody]
    refine ⟨rfl, plains, chunks, hseals, hsealed, ?_⟩
    rw [hflat, List.append_nil, streamOf, List.flatMap_singleton, hbody]

theorem wrote_writeRecords {records : List BundleTailRecord} (h : w.writeRecords lib records = .ok w₁) :
    (∀ r ∈ records, lib.recordBytes r = some (recordBody lib r)) ∧ Wrote lib w w₁ (streamOf lib records) := by
  induction records generalizing w with
  | nil =>
    cases h
    exact ⟨List.forall_mem_nil _, Wrote.refl _⟩
  | cons r records ih =>
    rw [ChunkWriter.writeRecords] at h
    cases hr : w.writeRecord lib r with
    | error e =>
      rw [hr] at h
      cases h
    | ok w₂ =>
      rw [hr] at h
      obtain ⟨hbody, hone⟩ := wrote_writeRecord hr
      obtain ⟨hrest, hmore⟩ := ih h
      refine ⟨List.forall_mem_cons.2 ⟨hbody, hrest⟩, ?_⟩
      rw [← List.singleton_append, streamOf_append]
      exact hone.trans hmore

end Writer

end Txtodo
