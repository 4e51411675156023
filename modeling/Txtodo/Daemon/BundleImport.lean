import Txtodo.Daemon.BundleExport

/-!
# Importing a bundle

`bundle_import.rs`: every frame is read, opened and checked before anything is written; then the documents
are written, the ops that are not there yet appended, and fingerprints and projections put in. A write to
disk and a read of the store do not fail.
-/

namespace Txtodo

variable {Key SigningKey : Type}

/-- Most ids one look for duplicates reads. -/
def MAX_OP_IDS_FOR_DEDUPE : Nat := 500000
/-- Longest projection the store takes. -/
def MAX_PROJECTION_BYTES : Nat := 64 * 1024 * 1024

/-- The bytes last written for a document. -/
structure Projection where
  bytes : List UInt8
  hash : List UInt8
  writtenAtMs : Nat
  deriving DecidableEq

/-- The workspace an import writes to: its files and the tables of its store. -/
structure ImportTarget where
  disk : FilePath → Option (List UInt8)
  store : OpTable
  fingerprints : FilePath × TaskId → Option (Fingerprint × Nat)
  projections : FilePath → Option Projection

/-- What the store refuses of an import. -/
inductive ImportStoreError where
  | append (e : AppendError)
  | projectionTooLarge (len : Nat)
  deriving DecidableEq

/-- Why an import failed, by its stage. -/
inductive BundleImportError where
  | truncated
  | header (e : BundleCryptoError)
  | manifestDecode
  | unsupportedVersion (version : Nat)
  | schemaMismatch (found supported : Text)
  | decrypt (e : BundleCryptoError)
  | record (e : RecordReadError)
  | badPath (path : Text)
  | fileSetMismatch
  | fileHashMismatch (path : Text)
  | opCountMismatch (claimed received : Nat)
  | foreignDevice
  | signatureInvalid
  | store (e : ImportStoreError)
  deriving DecidableEq

/-- What an import did. -/
structure ImportOutcome where
  opsImported : Nat
  files : List Text
  deriving DecidableEq

/-- Every record in its own bucket. -/
structure Staged where
  blobs : List (FilePath × List UInt8)
  fingerprints : List (FilePath × TaskId × Fingerprint × Nat)
  ops : List Op

/-- Every row put under its key, over what is there. -/
def upsertAll {κ ν : Type} [DecidableEq κ] (stored : κ → Option ν) (rows : List (κ × ν)) : κ → Option ν :=
  rows.foldl (fun stored row key => if key = row.1 then some row.2 else stored key) stored

namespace Bundle

/-! ## Checks -/

/-- The first frame, with those after it. -/
def readHeader : List (List UInt8) → Except BundleImportError (BundleHeader × List (List UInt8))
  | [] => .error .truncated
  | bytes :: frames =>
    match BundleHeader.decode bytes with
    | .error e => .error (.header e)
    | .ok header => .ok (header, frames)

/-- The second frame, with those after it. -/
def readManifest (lib : BundleLib Key SigningKey) :
    List (List UInt8) → Except BundleImportError (BundleManifest × List (List UInt8))
  | [] => .error .truncated
  | bytes :: frames =>
    match lib.manifestOf bytes with
    | none => .error .manifestDecode
    | some manifest => .ok (manifest, frames)

def validateManifest (manifest : BundleManifest) : Except BundleImportError Unit :=
  if manifest.version ≠ FORMAT_VERSION then .error (.unsupportedVersion manifest.version)
  else if manifest.schemaVersion ≠ SCHEMA_VERSION then
    .error (.schemaMismatch manifest.schemaVersion SCHEMA_VERSION)
  else .ok ()

/-- Opens the chunks, the last one as such, and feeds the reader, which holds `carry`. -/
def decryptChunks (lib : BundleLib Key SigningKey) : BundleStream Key → List UInt8 → List (List UInt8) →
    Except BundleImportError (List BundleTailRecord × List UInt8)
  | _, carry, [] => .ok ([], carry)
  | dec, carry, [last] =>
    match dec.decryptLast lib last with
    | .error e => .error (.decrypt e)
    | .ok plain => (feed lib carry plain).mapError .record
  | dec, carry, chunk :: upcoming :: frames =>
    match dec.decryptNext lib chunk with
    | .error e => .error (.decrypt e)
    | .ok (plain, dec) =>
      match feed lib carry plain with
      | .error e => .error (.record e)
      | .ok (records, carry) =>
        match decryptChunks lib dec carry (upcoming :: frames) with
        | .error e => .error e
        | .ok (more, carry) => .ok (records ++ more, carry)

def decryptAllRecords (lib : BundleLib Key SigningKey) (header : BundleHeader) (passphrase : List UInt8)
    (frames : List (List UInt8)) : Except BundleImportError (List BundleTailRecord) :=
  match BundleStream.new lib header passphrase with
  | .error e => .error (.decrypt e)
  | .ok dec =>
    match decryptChunks lib dec [] frames with
    | .error e => .error e
    | .ok (records, carry) =>
      if carry = [] then .ok records else .error (.record (.truncated carry.length))

def parsePath (path : Text) : Except BundleImportError FilePath :=
  match FilePath.new path with
  | .error _ => .error (.badPath path)
  | .ok path => .ok path

/-- The op is of the manifest's own device and signed with its key. -/
def verifyOpSignature (lib : BundleLib Key SigningKey) (manifest : BundleManifest) (op : Op)
    (signature : List UInt8) : Except BundleImportError Unit :=
  if op.hlc.device.bytes ≠ manifest.deviceId then .error .foreignDevice
  else if manifest.deviceSigningPublicKey.length ≠ 32 then .error .signatureInvalid
  else
    match lib.opBytes op with
    | none => .error .signatureInvalid
    | some bytes =>
      if lib.verify manifest.deviceSigningPublicKey bytes signature = true then .ok ()
      else .error .signatureInvalid

def stageOne (lib : BundleLib Key SigningKey) (manifest : BundleManifest) (staged : Staged) :
    BundleTailRecord → Except BundleImportError Staged
  | .blob path bytes =>
    match parsePath path with
    | .error e => .error e
    | .ok path => .ok { staged with blobs := staged.blobs ++ [(path, bytes)] }
  | .fingerprint path task fingerprint updatedAtMs =>
    match parsePath path with
    | .error e => .error e
    | .ok path => .ok { staged with
        fingerprints := staged.fingerprints ++ [(path, task, fingerprint, updatedAtMs)] }
  | .op op signature =>
    match verifyOpSignature lib manifest op signature with
    | .error e => .error e
    | .ok () => .ok { staged with ops := staged.ops ++ [op] }

/-- The documents against the ones still wanted, a path with its hash each. -/
def verifyBlobs (lib : BundleLib Key SigningKey) : List (Text × List UInt8) →
    List (FilePath × List UInt8) → Except BundleImportError Unit
  | want, [] => if want = [] then .ok () else .error .fileSetMismatch
  | want, (path, bytes) :: blobs =>
    match want.find? fun w => w.1 = path.asStr with
    | none => .error .fileSetMismatch
    | some w =>
      if lib.blake3 bytes = w.2 then verifyBlobs lib (want.filter fun w => w.1 ≠ path.asStr) blobs
      else .error (.fileHashMismatch path.asStr)

/-- The manifest's files by path, the last of equals. -/
def wanted (files : List FileHash) : List (Text × List UInt8) :=
  files.foldl (fun want f => (f.path, f.blake3) :: want.filter fun w => w.1 ≠ f.path) []

def verifyFileSet (lib : BundleLib Key SigningKey) (manifest : BundleManifest)
    (blobs : List (FilePath × List UInt8)) : Except BundleImportError Unit :=
  if manifest.files.length ≠ blobs.length then .error .fileSetMismatch
  else verifyBlobs lib (wanted manifest.files) blobs

def verifyOpCount (manifest : BundleManifest) (received : Nat) : Except BundleImportError Unit :=
  if received = manifest.opCount then .ok () else .error (.opCountMismatch manifest.opCount received)

def stageRecords (lib : BundleLib Key SigningKey) (manifest : BundleManifest)
    (records : List BundleTailRecord) : Except BundleImportError Staged :=
  match records.foldlM (stageOne lib manifest) ⟨[], [], []⟩ with
  | .error e => .error e
  | .ok staged =>
    match verifyFileSet lib manifest staged.blobs with
    | .error e => .error e
    | .ok () =>
      match verifyOpCount manifest staged.ops.length with
      | .error e => .error e
      | .ok () => .ok staged

/-- All of an import before its commit. -/
def stage (lib : BundleLib Key SigningKey) (passphrase : List UInt8) (frames : List (List UInt8)) :
    Except BundleImportError Staged :=
  match readHeader frames with
  | .error e => .error e
  | .ok (header, frames) =>
    match readManifest lib frames with
    | .error e => .error e
    | .ok (manifest, frames) =>
      match validateManifest manifest with
      | .error e => .error e
      | .ok () =>
        match decryptAllRecords lib header passphrase frames with
        | .error e => .error e
        | .ok records => stageRecords lib manifest records

/-- `ops.chunks(MAX_APPEND_BATCH)`, at most `fuel` of them. -/
def batches : Nat → List Op → List (List Op)
  | 0, _ => []
  | fuel + 1, ops =>
    if ops = [] then [] else ops.take MAX_APPEND_BATCH :: batches fuel (ops.drop MAX_APPEND_BATCH)

/-- Batch after batch up to the first one that is refused, with how many ops landed. -/
def appendBatches : OpTable → List (List Op) → OpTable × Except AppendError Nat
  | store, [] => (store, .ok 0)
  | store, batch :: rest =>
    match store.append batch with
    | .error e => (store, .error e)
    | .ok store =>
      match appendBatches store rest with
      | (store, .error e) => (store, .error e)
      | (store, .ok inserted) => (store, .ok (batch.length + inserted))

/-- `Store::existing_op_ids`. -/
def existingOpIds (lib : BundleLib Key SigningKey) (ids : List OpId) : List OpId :=
  (lib.scan ids).take MAX_OP_IDS_FOR_DEDUPE

end Bundle

/-! ## The commit -/

namespace ImportTarget

def writeBlobsToDisk (t : ImportTarget) (blobs : List (FilePath × List UInt8)) : ImportTarget :=
  { t with disk := upsertAll t.disk blobs }

def insertOpsDeduped (lib : BundleLib Key SigningKey) (t : ImportTarget) (ops : List Op) :
    ImportTarget × Except AppendError Nat :=
  let existing := Bundle.existingOpIds lib t.store.ids
  let fresh := ops.filter fun op => op.id ∉ existing
  let x := Bundle.appendBatches t.store (Bundle.batches fresh.length fresh)
  ({ t with store := x.1 }, x.2)

def writeFingerprints (t : ImportTarget) (rows : List (FilePath × TaskId × Fingerprint × Nat)) :
    ImportTarget :=
  { t with fingerprints := upsertAll t.fingerprints (rows.map fun row => ((row.1, row.2.1), row.2.2)) }

/-- `put_projection` of every document, up to one that is too long. -/
def writeProjections (lib : BundleLib Key SigningKey) (nowMs : Nat) : ImportTarget →
    List (FilePath × List UInt8) → ImportTarget × Except ImportStoreError Unit
  | t, [] => (t, .ok ())
  | t, (path, bytes) :: blobs =>
    if MAX_PROJECTION_BYTES < bytes.length then (t, .error (.projectionTooLarge bytes.length))
    else
      let projection : Projection := ⟨bytes, lib.blake3 bytes, nowMs⟩
      writeProjections lib nowMs
        { t with projections := upsertAll t.projections [(path, projection)] } blobs

/-- `commit_staged`. -/
def commitStaged (lib : BundleLib Key SigningKey) (nowMs : Nat) (t : ImportTarget) (staged : Staged) :
    ImportTarget × Except BundleImportError ImportOutcome :=
  match (t.writeBlobsToDisk staged.blobs).insertOpsDeduped lib staged.ops with
  | (t, .error e) => (t, .error (.store (.append e)))
  | (t, .ok opsImported) =>
    match (t.writeFingerprints staged.fingerprints).writeProjections lib nowMs staged.blobs with
    | (t, .error e) => (t, .error (.store e))
    | (t, .ok ()) => (t, .ok ⟨opsImported, staged.blobs.map fun blob => blob.1.asStr⟩)

/-- `import_from_chunks`. -/
def importFromChunks (lib : BundleLib Key SigningKey) (nowMs : Nat) (t : ImportTarget)
    (passphrase : List UInt8) (frames : List (List UInt8)) :
    ImportTarget × Except BundleImportError ImportOutcome :=
  match Bundle.stage lib passphrase frames with
  | .error e => (t, .error e)
  | .ok staged => t.commitStaged lib nowMs staged

/-- The workspace with no word of when its projections were written. -/
def untimed (t : ImportTarget) : ImportTarget :=
  { t with projections := fun path => (t.projections path).map fun p => { p with writtenAtMs := 0 } }

end ImportTarget

end Txtodo
