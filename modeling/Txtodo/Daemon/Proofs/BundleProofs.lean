import Txtodo.Daemon.Proofs.BundleStreamProofs

/-!
# A bundle and the workspace it is imported into

What an export writes is what an import stages, as far as the import takes it at all: the ops of another
device it refuses, and a record that is too long. What is staged lands once; a second import of it lands
nothing, unless its look for duplicates misses some.
-/

namespace Txtodo

variable {Key SigningKey : Type} {lib : BundleLib Key SigningKey} {ctx : ExportCtx SigningKey}

namespace ExportCtx

/-- An op with its signature. -/
def opRecord (lib : BundleLib Key SigningKey) (ctx : ExportCtx SigningKey) (op : Op) : BundleTailRecord :=
  .op op (lib.sign ctx.signing ((lib.opBytes op).getD []))

/-- A document and its fingerprints. -/
def documentRecords (ctx : ExportCtx SigningKey) (d : FilePath × List UInt8) : List BundleTailRecord :=
  .blob d.1.asStr d.2 :: ctx.fingerprintRecords d.1

/-- The records of the bundle. -/
def records (lib : BundleLib Key SigningKey) (ctx : ExportCtx SigningKey) : List BundleTailRecord :=
  ctx.documents.flatMap ctx.documentRecords ++ ctx.store.ops.map (ctx.opRecord lib)

/-- The rows of a document's fingerprints with their path. -/
def fingerprintRows (ctx : ExportCtx SigningKey) (path : FilePath) :
    List (FilePath × TaskId × Fingerprint × Nat) := (ctx.liveFingerprints path).map fun row => (path, row)

/-- What an import makes of the bundle. -/
def staged (ctx : ExportCtx SigningKey) : Staged :=
  ⟨ctx.documents, ctx.documents.flatMap fun d => ctx.fingerprintRows d.1, ctx.store.ops⟩

end ExportCtx

/-! ## What an export writes -/

section Export
variable {w w₁ : ChunkWriter Key}

theorem wrote_writeBlobs {documents : List (FilePath × List UInt8)}
    (h : ctx.writeBlobs lib w documents = .ok w₁) :
    (∀ r ∈ documents.flatMap ctx.documentRecords, lib.recordBytes r = some (recordBody lib r)) ∧
      Wrote lib w w₁ (streamOf lib (documents.flatMap ctx.documentRecords)) := by
  induction documents generalizing w with
  | nil =>
    cases h
    exact ⟨List.forall_mem_nil _, Wrote.refl _⟩
  | cons d documents ih =>
    rw [ExportCtx.writeBlobs] at h
    cases hblob : w.writeRecord lib (.blob d.1.asStr d.2) with
    | error e =>
      rw [hblob] at h
      cases h
    | ok w₂ =>
      rw [hblob] at h
      dsimp only at h
      cases hrows : w₂.writeRecords lib (ctx.fingerprintRecords d.1) with
      | error e =>
        rw [hrows] at h
        cases h
      | ok w₃ =>
        rw [hrows] at h
        obtain ⟨hbody, hone⟩ := wrote_writeRecord hblob
        obtain ⟨hbodies, hmore⟩ := wrote_writeRecords hrows
        obtain ⟨hrest, hlast⟩ := ih h
        rw [List.flatMap_cons]
        refine ⟨List.forall_mem_append.2 ⟨List.forall_mem_cons.2 ⟨hbody, hbodies⟩, hrest⟩, ?_⟩
        rw [streamOf_append, ExportCtx.documentRecords, ← List.singleton_append, streamOf_append]
        exact (hone.trans hmore).trans hlast

theorem wrote_writeOneOp {op : Op} (h : ctx.writeOneOp lib w op = .ok w₁) :
    ((lib.opBytes op).isSome = true ∧ lib.recordBytes (ctx.opRecord lib op) =
      some (recordBody lib (ctx.opRecord lib op))) ∧ Wrote lib w w₁ (streamOf lib [ctx.opRecord lib op]) := by
  unfold ExportCtx.writeOneOp at h
  unfold ExportCtx.opRecord
  cases hbytes : lib.opBytes op with
  | none =>
    rw [hbytes] at h
    cases h
  | some bytes =>
    rw [hbytes] at h
    obtain ⟨hbody, hone⟩ := wrote_writeRecord h
    exact ⟨⟨rfl, hbody⟩, hone⟩

/-- The op has bytes to sign, and its record bytes to write. -/
def OpWritten (lib : BundleLib Key SigningKey) (ctx : ExportCtx SigningKey) (op : Op) : Prop :=
  (lib.opBytes op).isSome = true ∧
    lib.recordBytes (ctx.opRecord lib op) = some (recordBody lib (ctx.opRecord lib op))

theorem wrote_writePage {rows : List OpRow} (h : ctx.writePage lib w rows = .ok w₁) :
    (∀ row ∈ rows, OpWritten lib ctx row.op) ∧
      Wrote lib w w₁ (streamOf lib (rows.map fun row => ctx.opRecord lib row.op)) := by
  induction rows generalizing w with
  | nil =>
    cases h
    exact ⟨List.forall_mem_nil _, Wrote.refl _⟩
  | cons row rows ih =>
    rw [ExportCtx.writePage] at h
    cases hop : ctx.writeOneOp lib w row.op with
    | error e =>
      rw [hop] at h
      cases h
    | ok w₂ =>
      rw [hop] at h
      obtain ⟨hwritten, hone⟩ := wrote_writeOneOp hop
      obtain ⟨hrest, hmore⟩ := ih h
      refine ⟨List.forall_mem_cons.2 ⟨hwritten, hrest⟩, ?_⟩
      rw [List.map_cons, ← List.singleton_append, streamOf_append]
      exact hone.trans hmore

/-- Page by page the whole log is written. -/
theorem wrote_writeOps {fuel since : Nat} (hfuel : ctx.store.rows.length < fuel + since)
    (h : ctx.writeOps lib fuel since w = .ok w₁) :
    (∀ row ∈ ctx.store.rows.drop since, OpWritten lib ctx row.op) ∧
      Wrote lib w w₁ (streamOf lib ((ctx.store.rows.drop since).map fun row =>
        ctx.opRecord lib row.op)) := by
  induction fuel generalizing w since with
  | zero =>
    have hnone : ctx.store.rows.drop since = [] := List.drop_eq_nil_of_le (by omega)
    cases h
    rw [hnone]
    exact ⟨List.forall_mem_nil _, Wrote.refl _⟩
  | succ fuel ih =>
    have hpage : ctx.store.opsPage since OPS_PAGE_SIZE = (ctx.store.rows.drop since).take OPS_PAGE_SIZE := rfl
    have hlen : ((ctx.store.rows.drop since).take OPS_PAGE_SIZE).length =
        min OPS_PAGE_SIZE (ctx.store.rows.length - since) := by rw [List.length_take, List.length_drop]
    rw [ExportCtx.writeOps, hpage] at h
    by_cases hempty : (ctx.store.rows.drop since).take OPS_PAGE_SIZE = []
    · have hnone : ctx.store.rows.drop since = [] := by
        rcases List.take_eq_nil_iff.1 hempty with hzero | hnone
        · exact absurd hzero (by decide)
        · exact hnone
      rw [if_pos hempty] at h
      cases h
      rw [hnone]
      exact ⟨List.forall_mem_nil _, Wrote.refl _⟩
    · rw [if_neg hempty] at h
      cases hrows : ctx.writePage lib w ((ctx.store.rows.drop since).take OPS_PAGE_SIZE) with
      | error e =>
        rw [hrows] at h
        cases h
      | ok w₂ =>
        rw [hrows] at h
        dsimp only at h
        obtain ⟨hwritten, hone⟩ := wrote_writePage hrows
        split_ifs at h with hfull
        · rw [hfull] at h
          have hpos : 0 < OPS_PAGE_SIZE := by decide
          obtain ⟨hrest, hmore⟩ := ih (by omega) h
          have hsplit : ctx.store.rows.drop since =
              (ctx.store.rows.drop since).take OPS_PAGE_SIZE ++ ctx.store.rows.drop (since + OPS_PAGE_SIZE) := by
            rw [← List.drop_drop, List.take_append_drop]
          rw [hsplit, List.map_append, streamOf_append]
          exact ⟨List.forall_mem_append.2 ⟨hwritten, hrest⟩, hone.trans hmore⟩
        · have hall : (ctx.store.rows.drop since).take OPS_PAGE_SIZE = ctx.store.rows.drop since :=
            List.take_of_length_le (by rw [List.length_drop]; omega)
          cases h
          rw [hall] at hwritten hone
          exact ⟨hwritten, hone⟩

/-- The frames of an export: its header, its manifest and its records under the stream's seal. -/
structure Exported (lib : BundleLib Key SigningKey) (ctx : ExportCtx SigningKey) (header : BundleHeader)
    (passphrase : List UInt8) (frames : List (List UInt8)) : Prop where
  encoded : ∀ r ∈ ctx.records lib, lib.recordBytes r = some (recordBody lib r)
  signed : ∀ op ∈ ctx.store.ops, (lib.opBytes op).isSome = true
  sealed : ∃ enc plains chunks enc' last lastChunk, BundleStream.new lib header passphrase = .ok enc ∧
    Seals lib enc plains chunks enc' ∧ enc'.encryptLast lib last = .ok lastChunk ∧
    (plains ++ [last]).flatten = streamOf lib (ctx.records lib) ∧
    frames = header.encode :: lib.manifestBytes (ctx.buildManifest lib) :: (chunks ++ [lastChunk])

theorem exported {header : BundleHeader} {passphrase : List UInt8} {frames : List (List UInt8)}
    (h : ctx.exportInto lib header passphrase = .ok frames) :
    Exported lib ctx header passphrase frames := by
  unfold ExportCtx.exportInto at h
  cases hnew : BundleStream.new lib header passphrase with
  | error e =>
    rw [hnew] at h
    cases h
  | ok enc =>
    rw [hnew] at h
    dsimp only at h
    cases hblobs : ctx.writeBlobs lib ⟨enc, [], []⟩ ctx.documents with
    | error e =>
      rw [hblobs] at h
      cases h
    | ok w₂ =>
      rw [hblobs] at h
      dsimp only at h
      cases hops : ctx.writeOps lib (ctx.store.totalOps + 1) 0 w₂ with
      | error e =>
        rw [hops] at h
        cases h
      | ok w₃ =>
        rw [hops] at h
        dsimp only at h
        unfold ChunkWriter.finish at h
        cases hlast : w₃.enc.encryptLast lib w₃.buf with
        | error e =>
          rw [hlast] at h
          cases h
        | ok lastChunk =>
          rw [hlast] at h
          cases h
          obtain ⟨hdocuments, hone⟩ := wrote_writeBlobs hblobs
          obtain ⟨hrows, hmore⟩ := wrote_writeOps (Nat.lt_succ_self _) hops
          rw [List.drop_zero] at hrows hmore
          have hmap : ctx.store.ops.map (ctx.opRecord lib) =
              ctx.store.rows.map fun row => ctx.opRecord lib row.op := List.map_map
          obtain ⟨plains, chunks, hseals, hsealed, hflat⟩ := hone.trans hmore
          refine ⟨List.forall_mem_append.2 ⟨hdocuments, ?_⟩, ?_, ?_⟩
          · rw [hmap]
            intro r hr
            obtain ⟨row, hrow, rfl⟩ := List.mem_map.1 hr
            exact (hrows row hrow).2
          · intro op hop
            obtain ⟨row, hrow, rfl⟩ := List.mem_map.1 hop
            exact (hrows row hrow).1
          · refine ⟨enc, plains, chunks, w₃.enc, w₃.buf, lastChunk, hnew, hseals, hlast, ?_, ?_⟩
            · rw [List.flatten_append, List.flatten_singleton, hflat, ExportCtx.records, streamOf_append, hmap]
              rfl
            · rw [hsealed]
              rfl

end Export

/-! ## What an import stages -/

/-- The libraries do what they are for on this workspace: what is sealed is opened, signatures of the
device verify under its key of 32 bytes, records and the manifest come back from their bytes, a document's
record holds its bytes, and the database lists every id of a table once. -/
structure BundleLib.Faithful (lib : BundleLib Key SigningKey) (ctx : ExportCtx SigningKey) : Prop where
  opens : Opens lib
  record : ∀ {r body}, lib.recordBytes r = some body → lib.recordOf body = some r
  blob : ∀ {path bytes body}, lib.recordBytes (.blob path bytes) = some body → bytes.length ≤ body.length
  manifest : lib.manifestOf (lib.manifestBytes (ctx.buildManifest lib)) = some (ctx.buildManifest lib)
  publicKey : (lib.publicKey ctx.signing).length = 32
  verify : ∀ bytes, lib.verify (lib.publicKey ctx.signing) bytes (lib.sign ctx.signing bytes) = true
  scan : ∀ ids, (lib.scan ids).Perm ids

theorem DeviceId.bytes_inj {a b : DeviceId} (ha : a.ulid < 340282366920938463463374607431768211456)
    (hb : b.ulid < 340282366920938463463374607431768211456) (h : a.bytes = b.bytes) : a = b := by
  have hulid : a.ulid = b.ulid := by
    rw [← @Bytes.toNatLE_ofNatLE_of_lt 16 a.ulid ha, ← @Bytes.toNatLE_ofNatLE_of_lt 16 b.ulid hb]
    exact congrArg Bytes.toNatLE (List.reverse_injective h)
  cases a
  cases b
  exact congrArg DeviceId.mk hulid

section Stage
variable {staged : Staged}

theorem stage_fingerprints {manifest : BundleManifest} {d : FilePath × List UInt8}
    (hvalid : FilePath.new d.1.asStr = .ok d.1) (staged : Staged) :
    (ctx.fingerprintRecords d.1).foldlM (Bundle.stageOne lib manifest) staged =
      .ok { staged with fingerprints := staged.fingerprints ++ ctx.fingerprintRows d.1 } := by
  unfold ExportCtx.fingerprintRecords ExportCtx.fingerprintRows
  induction ctx.liveFingerprints d.1 generalizing staged with
  | nil =>
    rw [List.map_nil, List.map_nil, List.append_nil]
    rfl
  | cons row rows ih =>
    have hone : Bundle.stageOne lib manifest staged (.fingerprint d.1.asStr row.1 row.2.1 row.2.2) =
        .ok { staged with fingerprints := staged.fingerprints ++ [(d.1, row)] } := by
      rw [Bundle.stageOne, Bundle.parsePath, hvalid]
    rw [List.map_cons, List.foldlM_cons, hone]
    refine (ih _).trans ?_
    rw [List.map_cons, List.append_assoc, List.singleton_append]

theorem stage_documents {manifest : BundleManifest} {documents : List (FilePath × List UInt8)}
    (hvalid : ∀ d ∈ documents, FilePath.new d.1.asStr = .ok d.1) (staged : Staged) :
    (documents.flatMap ctx.documentRecords).foldlM (Bundle.stageOne lib manifest) staged =
      .ok { staged with
        blobs := staged.blobs ++ documents
        fingerprints := staged.fingerprints ++ documents.flatMap fun d => ctx.fingerprintRows d.1 } := by
  induction documents generalizing staged with
  | nil =>
    rw [List.flatMap_nil, List.flatMap_nil, List.append_nil, List.append_nil]
    rfl
  | cons d documents ih =>
    obtain ⟨hd, hrest⟩ := List.forall_mem_cons.1 hvalid
    have hone : Bundle.stageOne lib manifest staged (.blob d.1.asStr d.2) =
        .ok { staged with blobs := staged.blobs ++ [d] } := by
      rw [Bundle.stageOne, Bundle.parsePath, hd]
    rw [List.flatMap_cons, ExportCtx.documentRecords, List.cons_append, List.foldlM_cons, hone]
    show List.foldlM _ _ _ = _
    rw [List.foldlM_append, stage_fingerprints hd]
    refine (ih hrest _).trans ?_
    rw [List.flatMap_cons]
    dsimp only
    rw [List.append_assoc, List.append_assoc, List.singleton_append]

variable (hlib : lib.Faithful ctx)
include hlib

/-- An op of the exporting device passes, one of another device does not. -/
theorem verifyOpSignature_iff {op : Op} (hop : op ∈ ctx.store.ops)
    (hsigned : (lib.opBytes op).isSome = true) :
    Bundle.verifyOpSignature lib (ctx.buildManifest lib) op
        (lib.sign ctx.signing ((lib.opBytes op).getD [])) = .ok () ↔ op.hlc.device = ctx.device := by
  obtain ⟨bytes, hbytes⟩ := Option.isSome_iff_exists.1 hsigned
  unfold Bundle.verifyOpSignature
  by_cases hdevice : op.hlc.device = ctx.device
  · have hkey : (ctx.buildManifest lib).deviceSigningPublicKey.length = 32 := hlib.publicKey
    have hbytesEq : op.hlc.device.bytes = (ctx.buildManifest lib).deviceId := congrArg DeviceId.bytes hdevice
    rw [if_neg (not_not_intro hbytesEq), if_neg (not_not_intro hkey), hbytes]
    dsimp only
    rw [Option.getD_some]
    exact iff_of_true (if_pos (hlib.verify bytes)) hdevice
  · have hbytes : op.hlc.device.bytes ≠ (ctx.buildManifest lib).deviceId := fun heq =>
      hdevice (DeviceId.bytes_inj (ctx.stamps_fit op hop).device ctx.device_lt heq)
    rw [if_pos hbytes]
    exact iff_of_false (by simp) hdevice

/-- The ops are staged when all of them are of the exporting device, and only then. -/
theorem stage_ops_iff {ops : List Op} (hops : ∀ op ∈ ops, op ∈ ctx.store.ops)
    (hsigned : ∀ op ∈ ops, (lib.opBytes op).isSome = true) (staged : Staged) :
    ((∀ op ∈ ops, op.hlc.device = ctx.device) →
      (ops.map (ctx.opRecord lib)).foldlM (Bundle.stageOne lib (ctx.buildManifest lib)) staged =
        .ok { staged with ops := staged.ops ++ ops }) ∧
    ∀ x, (ops.map (ctx.opRecord lib)).foldlM (Bundle.stageOne lib (ctx.buildManifest lib)) staged = .ok x →
      ∀ op ∈ ops, op.hlc.device = ctx.device := by
  induction ops generalizing staged with
  | nil =>
    refine ⟨fun _ => ?_, fun _ _ => List.forall_mem_nil _⟩
    rw [List.append_nil]
    rfl
  | cons op ops ih =>
    obtain ⟨hop, hrest⟩ := List.forall_mem_cons.1 hops
    obtain ⟨hbytes, hmore⟩ := List.forall_mem_cons.1 hsigned
    have hiff := verifyOpSignature_iff hlib hop hbytes
    rw [List.map_cons, List.foldlM_cons]
    show (_ → (Bundle.stageOne lib (ctx.buildManifest lib) staged (.op op _) >>= _) = _) ∧
      ∀ x, (Bundle.stageOne lib (ctx.buildManifest lib) staged (.op op _) >>= _) = .ok x → _
    rw [Bundle.stageOne]
    constructor
    · intro hown
      obtain ⟨hdevice, hothers⟩ := List.forall_mem_cons.1 hown
      rw [hiff.2 hdevice]
      refine ((ih hrest hmore _).1 hothers).trans ?_
      dsimp only
      rw [List.append_assoc, List.singleton_append]
    · intro x hx
      cases hverify : Bundle.verifyOpSignature lib (ctx.buildManifest lib) op
        (lib.sign ctx.signing ((lib.opBytes op).getD [])) with
      | error e =>
        rw [hverify] at hx
        cases hx
      | ok u =>
        rw [hverify] at hx
        exact List.forall_mem_cons.2 ⟨hiff.1 hverify, (ih hrest hmore _).2 x hx⟩

end Stage

/-! ## The set of files -/

section Files
variable {documents : List (FilePath × List UInt8)}

/-- A document's path with the hash of its bytes. -/
def hashed (lib : BundleLib Key SigningKey) (d : FilePath × List UInt8) : Text × List UInt8 :=
  (d.1.asStr, lib.blake3 d.2)

theorem asStr_injective : Function.Injective FilePath.asStr := by
  rintro ⟨a⟩ ⟨b⟩ h
  exact congrArg FilePath.mk h

theorem filter_hashed {path : FilePath} (h : path ∉ documents.map Prod.fst) :
    (documents.map (hashed lib)).filter (fun w => w.1 ≠ path.asStr) = documents.map (hashed lib) := by
  refine List.filter_eq_self.2 ?_
  intro w hw
  obtain ⟨d, hd, rfl⟩ := List.mem_map.1 hw
  refine decide_eq_true ?_
  intro heq
  exact h (asStr_injective heq ▸ List.mem_map_of_mem hd)

/-- The exported documents are the wanted ones, in whatever order those are kept. -/
theorem verifyBlobs_hashed {want : List (Text × List UInt8)} (hdistinct : (documents.map Prod.fst).Nodup)
    (hwant : want.Perm (documents.map (hashed lib))) : Bundle.verifyBlobs lib want documents = .ok () := by
  induction documents generalizing want with
  | nil => rw [Bundle.verifyBlobs, if_pos (List.perm_nil.1 hwant)]
  | cons d documents ih =>
    obtain ⟨hfirst, hrest⟩ := List.nodup_cons.1 hdistinct
    have hfilter : (want.filter fun w => w.1 ≠ d.1.asStr).Perm (documents.map (hashed lib)) := by
      have hperm := hwant.filter fun w => w.1 ≠ d.1.asStr
      rw [List.map_cons, List.filter_cons_of_neg (by simp [hashed]), filter_hashed hfirst] at hperm
      exact hperm
    have hfind : want.find? (fun w => w.1 = d.1.asStr) = some (hashed lib d) := by
      cases hw : want.find? fun w => w.1 = d.1.asStr with
      | none =>
        have hmem : hashed lib d ∈ want := hwant.mem_iff.2 (List.mem_cons_self ..)
        exact absurd (decide_eq_true rfl) (List.find?_eq_none.1 hw _ hmem)
      | some w =>
        have hkey : w.1 = d.1.asStr := by simpa using List.find?_some hw
        rcases List.mem_cons.1 (hwant.mem_iff.1 (List.mem_of_find?_eq_some hw)) with rfl | hlater
        · rfl
        · obtain ⟨d', hd', rfl⟩ := List.mem_map.1 hlater
          exact absurd (asStr_injective hkey ▸ List.mem_map_of_mem hd') hfirst
    rw [Bundle.verifyBlobs, hfind]
    exact (if_pos rfl).trans (ih hrest hfilter)

theorem wanted_perm (hdistinct : (documents.map Prod.fst).Nodup) :
    (Bundle.wanted (documents.map fun d => ⟨d.1.asStr, lib.blake3 d.2⟩)).Perm
      (documents.map (hashed lib)) := by
  have hfold : ∀ (more before : List (FilePath × List UInt8)), ((before ++ more).map Prod.fst).Nodup →
      ((more.map fun d => (⟨d.1.asStr, lib.blake3 d.2⟩ : FileHash)).foldl
        (fun want f => (f.path, f.blake3) :: want.filter fun w => w.1 ≠ f.path)
        (before.reverse.map (hashed lib))) = (before ++ more).reverse.map (hashed lib) := by
    intro more
    induction more with
    | nil =>
      intro before _
      rw [List.append_nil]
      rfl
    | cons d more ih =>
      intro before hnodup
      have hnew : d.1 ∉ before.reverse.map Prod.fst := by
        rw [List.map_append, List.map_cons] at hnodup
        intro hmem
        rw [List.map_reverse, List.mem_reverse] at hmem
        exact (List.nodup_append.1 hnodup).2.2 _ hmem _ (List.mem_cons_self ..) rfl
      rw [List.map_cons, List.foldl_cons, filter_hashed hnew]
      have hsnoc : before ++ d :: more = (before ++ [d]) ++ more := by simp
      rw [hsnoc] at hnodup ⊢
      rw [← ih (before ++ [d]) hnodup, List.reverse_append, List.reverse_singleton, List.singleton_append,
        List.map_cons]
      rfl
  have hall := hfold documents [] hdistinct
  rw [Bundle.wanted, show ([] : List (Text × List UInt8)) =
    ([] : List (FilePath × List UInt8)).reverse.map (hashed lib) from rfl, hall, List.nil_append]
  exact (List.reverse_perm _).map _

end Files

/-! ## The bundle staged -/

/-- Every op of the log was made by the device that exports it. -/
def OwnOps (ctx : ExportCtx SigningKey) : Prop := ∀ op ∈ ctx.store.ops, op.hlc.device = ctx.device

section Staged
variable {header : BundleHeader} {passphrase : List UInt8} {frames : List (List UInt8)}
  (hlib : lib.Faithful ctx)
include hlib

theorem Exported.all_encoded (h : Exported lib ctx header passphrase frames) :
    ∀ r ∈ ctx.records lib, Encoded lib r := fun r hr => ⟨h.encoded r hr, hlib.record (h.encoded r hr)⟩

/-- The records are checked once they are read. -/
theorem Exported.stage_eq (h : Exported lib ctx header passphrase frames) :
    Bundle.stage lib passphrase frames =
      match Drain.drain (tryTakeOne lib) (streamOf lib (ctx.records lib)) with
      | .error e => .error (.record e)
      | .ok x =>
        if x.2 = [] then Bundle.stageRecords lib (ctx.buildManifest lib) x.1
        else .error (.record (.truncated x.2.length)) := by
  obtain ⟨enc, plains, chunks, enc', last, lastChunk, hnew, hseals, hlast, hflat, rfl⟩ := h.sealed
  have hvalid : Bundle.validateManifest (ctx.buildManifest lib) = .ok () := rfl
  rw [Bundle.stage, Bundle.readHeader, header.decode_encode]
  dsimp only
  rw [Bundle.readManifest, hlib.manifest]
  dsimp only
  rw [hvalid, Bundle.decryptAllRecords, hnew]
  dsimp only
  rw [decryptChunks_of_seals hlib.opens hseals hlast,
    Drain.pieces_eq (stable_tryTakeOne lib) _ tryTakeOne_nil, List.nil_append, hflat]
  cases Drain.drain (tryTakeOne lib) (streamOf lib (ctx.records lib)) with
  | error e => rfl
  | ok x =>
    dsimp only [Except.mapError]
    by_cases hcarry : x.2 = []
    · rw [if_pos hcarry, if_pos hcarry]
    · rw [if_neg hcarry, if_neg hcarry]

theorem stageRecords_ok (hsigned : ∀ op ∈ ctx.store.ops, (lib.opBytes op).isSome = true)
    (hown : OwnOps ctx) :
    Bundle.stageRecords lib (ctx.buildManifest lib) (ctx.records lib) = .ok ctx.staged := by
  have hfold : (ctx.records lib).foldlM (Bundle.stageOne lib (ctx.buildManifest lib)) ⟨[], [], []⟩ =
      .ok ctx.staged := by
    rw [ExportCtx.records, List.foldlM_append, stage_documents ctx.valid]
    exact (stage_ops_iff hlib (fun _ hop => hop) hsigned _).1 hown
  have hfiles : Bundle.verifyFileSet lib (ctx.buildManifest lib) ctx.documents = .ok () := by
    have hlen : (ctx.buildManifest lib).files.length = ctx.documents.length := List.length_map _
    rw [Bundle.verifyFileSet, if_neg (not_not_intro hlen)]
    exact verifyBlobs_hashed ctx.distinct (wanted_perm ctx.distinct)
  have hcount : Bundle.verifyOpCount (ctx.buildManifest lib) ctx.store.ops.length = .ok () :=
    if_pos (List.length_map _)
  rw [Bundle.stageRecords, hfold]
  dsimp only [ExportCtx.staged]
  rw [hfiles, hcount]

theorem own_of_stageRecords (hsigned : ∀ op ∈ ctx.store.ops, (lib.opBytes op).isSome = true)
    {x : Staged} (h : Bundle.stageRecords lib (ctx.buildManifest lib) (ctx.records lib) = .ok x) :
    OwnOps ctx := by
  have hfold : (ctx.records lib).foldlM (Bundle.stageOne lib (ctx.buildManifest lib)) ⟨[], [], []⟩ =
      (ctx.store.ops.map (ctx.opRecord lib)).foldlM (Bundle.stageOne lib (ctx.buildManifest lib))
        ⟨ctx.documents, ctx.documents.flatMap fun d => ctx.fingerprintRows d.1, []⟩ := by
    rw [ExportCtx.records, List.foldlM_append, stage_documents ctx.valid]
    rfl
  rw [Bundle.stageRecords, hfold] at h
  cases hops : (ctx.store.ops.map (ctx.opRecord lib)).foldlM
      (Bundle.stageOne lib (ctx.buildManifest lib))
      ⟨ctx.documents, ctx.documents.flatMap fun d => ctx.fingerprintRows d.1, []⟩ with
  | error e =>
    rw [hops] at h
    cases h
  | ok y => exact (stage_ops_iff hlib (fun _ hop => hop) hsigned _).2 y hops

/-- What an export wrote is staged as it was when all ops are the device's own and no record is too long. -/
theorem Exported.stage_ok (h : Exported lib ctx header passphrase frames) (hown : OwnOps ctx)
    (hfits : ∀ r ∈ ctx.records lib, FitsReader lib r) :
    Bundle.stage lib passphrase frames = .ok ctx.staged := by
  rw [h.stage_eq hlib, drain_streamOf (h.all_encoded hlib) hfits]
  exact (if_pos rfl).trans (stageRecords_ok hlib h.signed hown)

/-- Else it is refused. -/
theorem Exported.of_stage (h : Exported lib ctx header passphrase frames) {x : Staged}
    (hstage : Bundle.stage lib passphrase frames = .ok x) :
    OwnOps ctx ∧ ∀ r ∈ ctx.records lib, FitsReader lib r := by
  rw [h.stage_eq hlib] at hstage
  cases hdrain : Drain.drain (tryTakeOne lib) (streamOf lib (ctx.records lib)) with
  | error e =>
    rw [hdrain] at hstage
    cases hstage
  | ok y =>
    have hfits := fits_of_drain (h.all_encoded hlib) hdrain
    rw [drain_streamOf (h.all_encoded hlib) hfits] at hstage
    exact ⟨own_of_stageRecords hlib h.signed ((if_pos rfl).symm.trans hstage), hfits⟩

end Staged

/-! ## The commit -/

section Upserts
variable {κ ν : Type} [DecidableEq κ]

theorem upsertAll_cons (stored : κ → Option ν) (row : κ × ν) (rows : List (κ × ν)) :
    upsertAll stored (row :: rows) = upsertAll (upsertAll stored [row]) rows := rfl

theorem upsertAll_append (stored : κ → Option ν) (a b : List (κ × ν)) :
    upsertAll stored (a ++ b) = upsertAll (upsertAll stored a) b := List.foldl_append

/-- What a key holds afterwards: its last row, or what it held. -/
theorem upsertAll_apply (stored : κ → Option ν) (rows : List (κ × ν)) (key : κ) :
    upsertAll stored rows key = ((rows.reverse.find? fun row => key = row.1).map Prod.snd).or (stored key) := by
  induction rows using List.reverseRecOn with
  | nil => rfl
  | append_singleton rows row ih =>
    rw [upsertAll_append, List.reverse_append, List.reverse_singleton, List.singleton_append]
    show (if key = row.1 then some row.2 else upsertAll stored rows key) = _
    by_cases hkey : key = row.1
    · rw [if_pos hkey, List.find?_cons_of_pos (by simpa using hkey)]
      rfl
    · rw [if_neg hkey, List.find?_cons_of_neg (by simpa using hkey), ih]

theorem upsertAll_of_mem {stored : κ → Option ν} {rows : List (κ × ν)} {row : κ × ν}
    (hdistinct : (rows.map Prod.fst).Nodup) (h : row ∈ rows) : upsertAll stored rows row.1 = some row.2 := by
  rw [upsertAll_apply]
  cases hfind : rows.reverse.find? fun r => row.1 = r.1 with
  | none => exact absurd (decide_eq_true rfl) (List.find?_eq_none.1 hfind row (List.mem_reverse.2 h))
  | some r =>
    have hmem : r ∈ rows := List.mem_reverse.1 (List.mem_of_find?_eq_some hfind)
    have hkey : row.1 = r.1 := by simpa using List.find?_some hfind
    rw [List.inj_on_of_nodup_map hdistinct h hmem hkey]
    rfl

theorem upsertAll_of_not_mem {stored : κ → Option ν} {rows : List (κ × ν)} {key : κ}
    (h : key ∉ rows.map Prod.fst) : upsertAll stored rows key = stored key := by
  have hfind : rows.reverse.find? (fun r => key = r.1) = none := by
    refine List.find?_eq_none.2 ?_
    intro r hr hkey
    exact h (of_decide_eq_true hkey ▸ List.mem_map_of_mem (List.mem_reverse.1 hr))
  rw [upsertAll_apply, hfind]
  rfl

/-- The same rows once more change nothing. -/
theorem upsertAll_again (stored : κ → Option ν) (rows : List (κ × ν)) :
    upsertAll (upsertAll stored rows) rows = upsertAll stored rows := by
  funext key
  rw [upsertAll_apply, upsertAll_apply stored]
  cases (rows.reverse.find? fun row => key = row.1).map Prod.snd with
  | none => rfl
  | some v => rfl

end Upserts

theorem OpTable.ids_eq (t : OpTable) : t.ids = t.ops.map (·.id) := by
  rw [OpTable.ops, List.map_map]
  rfl

/-- Ops that are not there yet land, batch by batch. -/
theorem appendBatches_ok {fuel : Nat} {store : OpTable} {ops : List Op} (hfuel : ops.length ≤ fuel)
    (hnodup : (ops.map (·.id)).Nodup) (hnew : ∀ op ∈ ops, op.id ∉ store.ids) :
    ∃ store', Bundle.appendBatches store (Bundle.batches fuel ops) = (store', .ok ops.length) ∧
      store'.ops = store.ops ++ ops := by
  induction fuel generalizing store ops with
  | zero =>
    have hnil : ops = [] := List.length_eq_zero_iff.1 (Nat.le_zero.1 hfuel)
    subst hnil
    exact ⟨store, rfl, (List.append_nil _).symm⟩
  | succ fuel ih =>
    rw [Bundle.batches]
    by_cases hnil : ops = []
    · subst hnil
      exact ⟨store, rfl, (List.append_nil _).symm⟩
    · have hpos : 0 < ops.length := List.length_pos_of_ne_nil hnil
      have hcap : 0 < MAX_APPEND_BATCH := by decide
      have hsplit := List.take_append_drop MAX_APPEND_BATCH ops
      rw [← hsplit, List.map_append] at hnodup
      obtain ⟨htake, hdrop, hapart⟩ := List.nodup_append.1 hnodup
      obtain ⟨s₁, happend, hops₁⟩ := @OpTable.append_ok store (ops.take MAX_APPEND_BATCH)
        (fun h => (List.take_eq_nil_iff.1 h).elim (Nat.ne_of_gt hcap) hnil)
        (by rw [List.length_take]; exact Nat.min_le_left _ _) htake
        (fun op hop => hnew op (List.mem_of_mem_take hop))
      have hrest : ∀ op ∈ ops.drop MAX_APPEND_BATCH, op.id ∉ s₁.ids := by
        intro op hop hmem
        rw [OpTable.ids_eq, hops₁, List.map_append, ← OpTable.ids_eq] at hmem
        rcases List.mem_append.1 hmem with hold | hbefore
        · exact hnew op (List.mem_of_mem_drop hop) hold
        · exact hapart _ hbefore _ (List.mem_map_of_mem hop) rfl
      obtain ⟨s₂, hbatches, hops₂⟩ := ih (by rw [List.length_drop]; omega) hdrop hrest
      refine ⟨s₂, ?_, ?_⟩
      · rw [if_neg hnil, Bundle.appendBatches, happend]
        dsimp only
        rw [hbatches]
        dsimp only
        rw [← List.length_append, hsplit]
      · rw [hops₂, hops₁, List.append_assoc, hsplit]

/-- An op that is there already stops them. -/
theorem appendBatches_stored {fuel : Nat} {store : OpTable} {ops : List Op} (hfuel : ops.length ≤ fuel)
    (hne : ops ≠ []) (hold : ∀ op ∈ ops, op.id ∈ store.ids) :
    ∃ e, (Bundle.appendBatches store (Bundle.batches fuel ops)).2 = .error e := by
  cases fuel with
  | zero => exact absurd (List.length_eq_zero_iff.1 (Nat.le_zero.1 hfuel)) hne
  | succ fuel =>
    have hcap : MAX_APPEND_BATCH ≠ 0 := by decide
    obtain ⟨op, hop⟩ := List.exists_mem_of_ne_nil (ops.take MAX_APPEND_BATCH)
      (fun h => (List.take_eq_nil_iff.1 h).elim hcap hne)
    obtain ⟨e, he⟩ := OpTable.append_stored hop (hold op (List.mem_of_mem_take hop))
    refine ⟨e, ?_⟩
    rw [Bundle.batches, if_neg hne, Bundle.appendBatches, he]

namespace ImportTarget

/-- A document's projection under its path. -/
def projected (lib : BundleLib Key SigningKey) (nowMs : Nat) (b : FilePath × List UInt8) :
    FilePath × Projection := (b.1, ⟨b.2, lib.blake3 b.2, nowMs⟩)

theorem writeProjections_ok {nowMs : Nat} {t : ImportTarget} {blobs : List (FilePath × List UInt8)}
    (hfits : ∀ b ∈ blobs, b.2.length ≤ MAX_PROJECTION_BYTES) :
    t.writeProjections lib nowMs blobs =
      ({ t with projections := upsertAll t.projections (blobs.map (projected lib nowMs)) }, .ok ()) := by
  induction blobs generalizing t with
  | nil => rfl
  | cons b blobs ih =>
    obtain ⟨hb, hrest⟩ := List.forall_mem_cons.1 hfits
    rw [writeProjections, if_neg (Nat.not_lt.2 hb)]
    dsimp only
    rw [ih hrest, List.map_cons, upsertAll_cons]
    rfl

/-- The target with the bundle's documents and fingerprints in it, and `store` for its ops. -/
def after (lib : BundleLib Key SigningKey) (ctx : ExportCtx SigningKey) (nowMs : Nat) (t : ImportTarget)
    (store : OpTable) : ImportTarget where
  disk := upsertAll t.disk ctx.documents
  store := store
  fingerprints := upsertAll t.fingerprints
    (ctx.staged.fingerprints.map fun row => ((row.1, row.2.1), row.2.2))
  projections := upsertAll t.projections (ctx.documents.map (projected lib nowMs))

end ImportTarget

section Commit
variable {nowMs : Nat} {t : ImportTarget}

/-- The ops of a bundle of which the target holds none land once. -/
theorem insertOpsDeduped_new (hlib : lib.Faithful ctx) (hnew : ∀ op ∈ ctx.store.ops, op.id ∉ t.store.ids) :
    ∃ store', t.insertOpsDeduped lib ctx.store.ops =
      ({ t with store := store' }, .ok ctx.store.ops.length) ∧ store'.ops = t.store.ops ++ ctx.store.ops := by
  have hfresh : (ctx.store.ops.filter fun op => op.id ∉ Bundle.existingOpIds lib t.store.ids) =
      ctx.store.ops := by
    refine List.filter_eq_self.2 ?_
    intro op hop
    refine decide_eq_true ?_
    intro hmem
    exact hnew op hop ((hlib.scan _).mem_iff.1 (List.mem_of_mem_take hmem))
  have hnodup : (ctx.store.ops.map (·.id)).Nodup := by
    rw [← OpTable.ids_eq]
    exact ctx.store.unique
  obtain ⟨store', hbatches, hops⟩ := appendBatches_ok le_rfl hnodup hnew
  refine ⟨store', ?_, hops⟩
  rw [ImportTarget.insertOpsDeduped, hfresh, hbatches]

/-- A bundle lands in a store that holds none of its ops. -/
theorem commit_new (hlib : lib.Faithful ctx) (hnew : ∀ op ∈ ctx.store.ops, op.id ∉ t.store.ids)
    (hfits : ∀ d ∈ ctx.documents, d.2.length ≤ MAX_PROJECTION_BYTES) :
    ∃ store' outcome, store'.ops = t.store.ops ++ ctx.store.ops ∧
      t.commitStaged lib nowMs ctx.staged = (t.after lib ctx nowMs store', .ok outcome) := by
  obtain ⟨store', hinsert, hops⟩ := insertOpsDeduped_new (t := t.writeBlobsToDisk ctx.documents) hlib hnew
  refine ⟨store', ⟨ctx.store.ops.length, ctx.documents.map fun blob => blob.1.asStr⟩, hops, ?_⟩
  rw [ImportTarget.commitStaged]
  dsimp only [ExportCtx.staged]
  rw [hinsert]
  dsimp only
  rw [ImportTarget.writeProjections_ok hfits]
  rfl

/-- Where all of a bundle's ids are seen, none of its ops is inserted. -/
theorem insertOpsDeduped_again (hseen : ∀ op ∈ ctx.store.ops, op.id ∈ Bundle.existingOpIds lib t.store.ids) :
    t.insertOpsDeduped lib ctx.store.ops = (t, .ok 0) := by
  have hfresh : (ctx.store.ops.filter fun op => op.id ∉ Bundle.existingOpIds lib t.store.ids) = [] := by
    refine List.filter_eq_nil_iff.2 ?_
    intro op hop
    simpa using hseen op hop
  rw [ImportTarget.insertOpsDeduped, hfresh]
  rfl

/-- Where one is not, the store refuses its op. -/
theorem insertOpsDeduped_missed (hold : ∀ op ∈ ctx.store.ops, op.id ∈ t.store.ids)
    (hmissed : ∃ op ∈ ctx.store.ops, op.id ∉ Bundle.existingOpIds lib t.store.ids) :
    ∃ e, (t.insertOpsDeduped lib ctx.store.ops).2 = .error e := by
  obtain ⟨op, hop, hid⟩ := hmissed
  have hmem : op ∈ ctx.store.ops.filter fun op => op.id ∉ Bundle.existingOpIds lib t.store.ids :=
    List.mem_filter.2 ⟨hop, decide_eq_true hid⟩
  exact appendBatches_stored le_rfl (List.ne_nil_of_mem hmem)
    fun op hop => hold op (List.mem_of_mem_filter hop)

theorem untimed_upsertAll (stored : FilePath → Option Projection) (nowMs : Nat)
    (documents : List (FilePath × List UInt8)) :
    (fun path => (upsertAll stored (documents.map (ImportTarget.projected lib nowMs)) path).map
        fun p => { p with writtenAtMs := 0 }) =
      upsertAll (fun path => (stored path).map fun p => { p with writtenAtMs := 0 })
        (documents.map (ImportTarget.projected lib 0)) := by
  induction documents using List.reverseRecOn with
  | nil => rfl
  | append_singleton documents d ih =>
    rw [List.map_append, List.map_append, upsertAll_append, upsertAll_append, ← ih]
    funext path
    show Option.map _ (if path = d.1 then _ else _) = if path = d.1 then _ else _
    split_ifs with hpath
    · rfl
    · rfl

/-- The bundle once more, all of its ids being seen. -/
theorem commit_again {store : OpTable} {nowMs' : Nat}
    (hseen : ∀ op ∈ ctx.store.ops, op.id ∈ Bundle.existingOpIds lib store.ids)
    (hfits : ∀ d ∈ ctx.documents, d.2.length ≤ MAX_PROJECTION_BYTES) :
    ∃ t' outcome, (t.after lib ctx nowMs store).commitStaged lib nowMs' ctx.staged = (t', .ok outcome) ∧
      t'.untimed = (t.after lib ctx nowMs store).untimed := by
  have hinsert := insertOpsDeduped_again (t := (t.after lib ctx nowMs store).writeBlobsToDisk ctx.documents)
    hseen
  refine ⟨(t.after lib ctx nowMs store).after lib ctx nowMs' store,
    ⟨0, ctx.documents.map fun blob => blob.1.asStr⟩, ?_, ?_⟩
  · rw [ImportTarget.commitStaged]
    dsimp only [ExportCtx.staged]
    rw [hinsert]
    dsimp only
    rw [ImportTarget.writeProjections_ok hfits]
    rfl
  · unfold ImportTarget.untimed ImportTarget.after
    dsimp only
    rw [untimed_upsertAll, untimed_upsertAll, upsertAll_again, upsertAll_again, upsertAll_again]

end Commit

/-- The import left the exported documents over the files there were, and the exported ops after the ops
there were, each once. -/
structure Landed (ctx : ExportCtx SigningKey) (t t' : ImportTarget) : Prop where
  files : ∀ d ∈ ctx.documents, t'.disk d.1 = some d.2
  others : ∀ path ∉ ctx.documents.map Prod.fst, t'.disk path = t.disk path
  ops : t'.store.ops = t.store.ops ++ ctx.store.ops
  once : (t'.store.ops.map (·.id)).Nodup

/-- The round trip of a bundle: its import succeeds and leaves what was exported; importing it again, at
whatever time, succeeds and changes nothing but when the projections were written; and an import that fails
before its commit, of this bundle or any other frames, leaves everything as it was. -/
structure BundleTravels (lib : BundleLib Key SigningKey) (ctx : ExportCtx SigningKey) (nowMs : Nat)
    (t : ImportTarget) (passphrase : List UInt8) (frames : List (List UInt8)) : Prop where
  imported : ∃ t' outcome, t.importFromChunks lib nowMs passphrase frames = (t', .ok outcome) ∧
    Landed ctx t t' ∧ ∀ nowMs', ∃ t'' outcome',
      t'.importFromChunks lib nowMs' passphrase frames = (t'', .ok outcome') ∧ t''.untimed = t'.untimed
  untouched : ∀ passphrase frames e, Bundle.stage lib passphrase frames = .error e →
    t.importFromChunks lib nowMs passphrase frames = (t, .error e)

/-- When a bundle makes its round trip: every op was made by the device that exports it, no record is too
long to be read, and the ids the look for duplicates reads of the log, once the ops are in it, have all of
theirs among them. -/
structure Portable (lib : BundleLib Key SigningKey) (ctx : ExportCtx SigningKey) (t : ImportTarget) :
    Prop where
  own : OwnOps ctx
  fits : ∀ r ∈ ctx.records lib, FitsReader lib r
  deduped : ∀ op ∈ ctx.store.ops, op.id ∈ Bundle.existingOpIds lib (t.store.ids ++ ctx.store.ids)

section RoundTrip
variable {header : BundleHeader} {passphrase : List UInt8} {frames : List (List UInt8)} {nowMs : Nat}
  {t : ImportTarget}

theorem blob_fits (hlib : lib.Faithful ctx) (h : Exported lib ctx header passphrase frames)
    (hfits : ∀ r ∈ ctx.records lib, FitsReader lib r) :
    ∀ d ∈ ctx.documents, d.2.length ≤ MAX_PROJECTION_BYTES := by
  intro d hd
  have hmem : BundleTailRecord.blob d.1.asStr d.2 ∈ ctx.records lib :=
    List.mem_append_left _ (List.mem_flatMap.2 ⟨d, hd, List.mem_cons_self ..⟩)
  exact (hlib.blob (h.encoded _ hmem)).trans (hfits _ hmem)

theorem landed {store' : OpTable} (hops : store'.ops = t.store.ops ++ ctx.store.ops) :
    Landed ctx t (t.after lib ctx nowMs store') where
  files _ := upsertAll_of_mem ctx.distinct
  others _ := upsertAll_of_not_mem
  ops := hops
  once := by
    rw [← OpTable.ids_eq]
    exact store'.unique

/-- All ids are seen in a log no longer than what the look for duplicates reads. -/
theorem deduped_of_length_le (hlib : lib.Faithful ctx)
    (hlen : t.store.ids.length + ctx.store.ids.length ≤ MAX_OP_IDS_FOR_DEDUPE) :
    ∀ op ∈ ctx.store.ops, op.id ∈ Bundle.existingOpIds lib (t.store.ids ++ ctx.store.ids) := by
  intro op hop
  have hscan := hlib.scan (t.store.ids ++ ctx.store.ids)
  have hall : (lib.scan (t.store.ids ++ ctx.store.ids)).length ≤ MAX_OP_IDS_FOR_DEDUPE := by
    rw [hscan.length_eq, List.length_append]
    exact hlen
  rw [Bundle.existingOpIds, List.take_of_length_le hall, hscan.mem_iff, ctx.store.ids_eq]
  exact List.mem_append_right _ (List.mem_map_of_mem hop)

/-- A bundle of more ops than it reads is never seen whole. -/
theorem not_deduped_of_lt_length (hlen : MAX_OP_IDS_FOR_DEDUPE < ctx.store.ids.length) (ids : List OpId) :
    ∃ op ∈ ctx.store.ops, op.id ∉ Bundle.existingOpIds lib ids := by
  by_contra hseen
  push Not at hseen
  have hsub : ctx.store.ids ⊆ Bundle.existingOpIds lib ids := by
    intro id hid
    rw [ctx.store.ids_eq] at hid
    obtain ⟨op, hop, rfl⟩ := List.mem_map.1 hid
    exact hseen op hop
  have hle := (List.subperm_of_subset ctx.store.unique hsub).length_le
  have hcap : (Bundle.existingOpIds lib ids).length ≤ MAX_OP_IDS_FOR_DEDUPE := by
    rw [Bundle.existingOpIds, List.length_take]
    exact Nat.min_le_left _ _
  exact absurd (hle.trans hcap) (Nat.not_le.2 hlen)

/-- A bundle makes its round trip exactly when it is portable. -/
theorem bundle_travels_iff (hlib : lib.Faithful ctx) (hnew : ∀ op ∈ ctx.store.ops, op.id ∉ t.store.ids)
    (hexport : ctx.exportInto lib header passphrase = .ok frames) :
    BundleTravels lib ctx nowMs t passphrase frames ↔ Portable lib ctx t := by
  have hexported := exported hexport
  have hids : ∀ {store' : OpTable}, store'.ops = t.store.ops ++ ctx.store.ops →
      store'.ids = t.store.ids ++ ctx.store.ids := by
    intro store' hops
    rw [OpTable.ids_eq, OpTable.ids_eq, OpTable.ids_eq, hops, List.map_append]
  constructor
  · intro h
    obtain ⟨t', outcome, himport, hlanded, hagain⟩ := h.imported
    have hstage : ∃ x, Bundle.stage lib passphrase frames = .ok x := by
      cases hstage : Bundle.stage lib passphrase frames with
      | error e =>
        rw [ImportTarget.importFromChunks, hstage] at himport
        cases himport
      | ok x => exact ⟨x, rfl⟩
    obtain ⟨x, hstage⟩ := hstage
    obtain ⟨hown, hfits⟩ := hexported.of_stage hlib hstage
    refine ⟨hown, hfits, ?_⟩
    by_contra hmissed
    push Not at hmissed
    rw [← hids hlanded.ops] at hmissed
    obtain ⟨t'', outcome', hsecond, -⟩ := hagain nowMs
    have hold : ∀ op ∈ ctx.store.ops, op.id ∈ (t'.writeBlobsToDisk ctx.documents).store.ids := by
      intro op hop
      show op.id ∈ t'.store.ids
      rw [hids hlanded.ops, ctx.store.ids_eq]
      exact List.mem_append_right _ (List.mem_map_of_mem hop)
    obtain ⟨e, he⟩ : ∃ e, ((t'.writeBlobsToDisk ctx.documents).insertOpsDeduped lib ctx.store.ops).2 =
        .error e := insertOpsDeduped_missed hold hmissed
    rw [ImportTarget.importFromChunks, hexported.stage_ok hlib hown hfits] at hsecond
    dsimp only [ImportTarget.commitStaged, ExportCtx.staged] at hsecond
    cases hinsert : (t'.writeBlobsToDisk ctx.documents).insertOpsDeduped lib ctx.store.ops with
    | mk t₁ r =>
      rw [hinsert] at he hsecond
      dsimp only at he
      rw [he] at hsecond
      cases hsecond
  · intro h
    have hstage := hexported.stage_ok hlib h.own h.fits
    have hblobs := blob_fits hlib hexported h.fits
    obtain ⟨store', outcome, hops, hcommit⟩ := commit_new hlib hnew hblobs
    refine ⟨⟨t.after lib ctx nowMs store', outcome, ?_, landed hops, ?_⟩, ?_⟩
    · rw [ImportTarget.importFromChunks, hstage]
      exact hcommit
    · intro nowMs'
      have hseen : ∀ op ∈ ctx.store.ops, op.id ∈ Bundle.existingOpIds lib store'.ids := by
        rw [hids hops]
        exact h.deduped
      rw [ImportTarget.importFromChunks, hstage]
      exact commit_again hseen hblobs
    · intro passphrase frames e hfails
      rw [ImportTarget.importFromChunks, hfails]

end RoundTrip

/-! ## Two bundles of one blank line -/

namespace BlankBundle

def path : FilePath := ⟨"todo.txt".toList⟩

def pathBytes : List UInt8 := [116, 111, 100, 111, 46, 116, 120, 116]

/-- A blank line that device 2 put at the top of `todo.txt`. -/
def blank : Op := ⟨⟨1⟩, ⟨1, 0, ⟨2⟩⟩, path, .blankInsert none⟩

def blankBytes : List UInt8 := [1, 1, 0, 2, 0, 2, 8] ++ pathBytes ++ [5, 0]

def signature : List UInt8 := List.replicate 64 7

def key : List UInt8 := List.replicate 32 9

def hash : List UInt8 := List.replicate 32 5

def blobRecord : BundleTailRecord := .blob path.asStr [10]

def opRecord : BundleTailRecord := .op blank signature

def blobBytes : List UInt8 := [0, 8] ++ pathBytes ++ [1, 10]

def opRecordBytes : List UInt8 := 1 :: (blankBytes ++ 64 :: signature)

/-- The manifest of either bundle. -/
def manifest (device : DeviceId) : BundleManifest := ⟨1, ['9'], device.bytes, key, [⟨path.asStr, hash⟩], 1⟩

def manifestBytes (m : BundleManifest) : List UInt8 :=
  [8, 1, 18, 1, 57, 26, 16] ++ m.deviceId ++ [34, 32] ++ m.deviceSigningPublicKey ++ [42, 44, 10, 8] ++
    pathBytes ++ [18, 32] ++ hash ++ [48, 1]

/-- Libraries that do on these two bundles what they are for. -/
def libs : BundleLib Unit Unit where
  argon2 _ _ _ _ _ := .ok ()
  sealChunk _ _ _ _ _ msg := some msg
  openChunk _ _ _ _ _ chunk := some chunk
  publicKey _ := key
  sign _ _ := signature
  verify _ _ s := s = signature
  opBytes op := if op = blank then some blankBytes else none
  recordBytes r :=
    if r = blobRecord then some blobBytes else if r = opRecord then some opRecordBytes else none
  recordOf bs :=
    if bs = blobBytes then some blobRecord else if bs = opRecordBytes then some opRecord else none
  manifestBytes := manifestBytes
  manifestOf bs := [manifest ⟨2⟩, manifest ⟨3⟩].find? fun m => manifestBytes m = bs
  blake3 _ := hash
  scan ids := ids

/-- The log of the blank line. -/
def store : OpTable := ⟨[⟨blank, 1⟩], List.nodup_singleton _, List.nodup_singleton _⟩

theorem blank_fits : blank.hlc.Fits := ⟨by decide, by decide, by decide⟩

/-- The workspace as device 2 made it, or as another device has it by sync. -/
def workspace (device : DeviceId) (h : device.ulid < 340282366920938463463374607431768211456) : ExportCtx Unit where
  documents := [(path, [10])]
  liveFingerprints _ := []
  store := store
  device := device
  signing := ()
  distinct := List.nodup_singleton _
  valid := List.forall_mem_singleton.2 rfl
  stamps_fit := List.forall_mem_singleton.2 blank_fits
  device_lt := h

def header : BundleHeader := .fresh (List.replicate 16 1) (List.replicate 19 2) rfl rfl

/-- A workspace with nothing in it. -/
def target : ImportTarget := ⟨fun _ => none, .empty, fun _ => none, fun _ => none⟩

theorem faithful {device : DeviceId} (h : device.ulid < 340282366920938463463374607431768211456)
    (hdevice : libs.manifestOf (manifestBytes (manifest device)) = some (manifest device)) :
    libs.Faithful (workspace device h) where
  opens h := h.symm
  record := by
    intro r body hbody
    dsimp only [libs] at hbody ⊢
    split_ifs at hbody with hblob hop
    · cases hbody
      rw [hblob, if_pos rfl]
    · cases hbody
      rw [hop, if_neg (by decide), if_pos rfl]
  blob := by
    intro path bytes body hbody
    dsimp only [libs] at hbody
    split_ifs at hbody with hblob hop
    · cases hbody
      cases hblob
      decide
    · cases hop
  manifest := hdevice
  publicKey := rfl
  verify _ := decide_eq_true (rfl : signature = signature)
  scan _ := List.Perm.refl _

def own : ExportCtx Unit := workspace ⟨2⟩ (by decide)

def synced : ExportCtx Unit := workspace ⟨3⟩ (by decide)

/-- The bundle of the line that came by sync. -/
def syncedFrames : List (List UInt8) := (synced.exportInto libs header []).toOption.getD []

end BlankBundle

open BlankBundle in
/-- A device's own blank line travels. -/
theorem bundle_travels_own : ∃ frames, own.exportInto libs header [] = .ok frames ∧
    BundleTravels libs own 0 target [] frames := by
  have hexport : ∃ frames, own.exportInto libs header [] = .ok frames := ⟨_, rfl⟩
  obtain ⟨frames, hexport⟩ := hexport
  have hlib : libs.Faithful own := faithful _ (by decide +kernel)
  refine ⟨frames, hexport, (bundle_travels_iff hlib (fun _ _ => List.not_mem_nil) hexport).2 ⟨?_, ?_, ?_⟩⟩
  · exact List.forall_mem_singleton.2 rfl
  · refine List.forall_mem_cons.2 ⟨?_, List.forall_mem_singleton.2 ?_⟩
    · show blobBytes.length ≤ 67108864
      decide
    · show opRecordBytes.length ≤ 67108864
      decide
  · exact deduped_of_length_le hlib (by decide)

open BlankBundle in
/-- The same line that came by sync does not: the importer refuses the whole bundle. -/
theorem not_bundle_travels : ∃ frames, synced.exportInto libs header [] = .ok frames ∧ libs.Faithful synced ∧
    (∀ op ∈ synced.store.ops, op.id ∉ target.store.ids) ∧ ¬BundleTravels libs synced 0 target [] frames := by
  refine ⟨syncedFrames, by decide +kernel, faithful _ (by decide +kernel), fun _ _ => List.not_mem_nil, ?_⟩
  intro h
  obtain ⟨t', outcome, himport, -⟩ := h.imported
  have hforeign : (target.importFromChunks libs 0 [] syncedFrames).2 = .error .foreignDevice := by
    decide +kernel
  rw [himport] at hforeign
  cases hforeign

end Txtodo
