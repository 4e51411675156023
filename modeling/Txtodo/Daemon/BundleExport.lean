import Txtodo.Daemon.Bundle
import Txtodo.Store.OpTable

/-!
# Exporting a bundle

`bundle_export.rs`: the clear header and manifest, then every document with its fingerprints and the whole
log, sealed chunk by chunk. The workspace does not change while it is exported, and its documents are what
a walk of it finds.
-/

namespace Txtodo

variable {Key SigningKey : Type}

/-- Rows one page of the export holds. -/
def OPS_PAGE_SIZE : Nat := 1000

/-- What an export reads: the documents with their bytes, their live fingerprints, the log, and the device
it belongs to. -/
structure ExportCtx (SigningKey : Type) where
  documents : List (FilePath × List UInt8)
  liveFingerprints : FilePath → List (TaskId × Fingerprint × Nat)
  store : OpTable
  device : DeviceId
  signing : SigningKey
  distinct : (documents.map Prod.fst).Nodup
  valid : ∀ d ∈ documents, FilePath.new d.1.asStr = .ok d.1
  stamps_fit : ∀ op ∈ store.ops, op.hlc.Fits
  device_lt : device.ulid < 340282366920938463463374607431768211456

/-- Why an export failed. -/
inductive BundleExportError where
  | crypto (e : BundleCryptoError)
  | sign
  | encode
  deriving DecidableEq

/-- The plaintext not yet sealed, behind the chunks that are. -/
structure ChunkWriter (Key : Type) where
  enc : BundleStream Key
  buf : List UInt8
  sealed : List (List UInt8)

namespace ChunkWriter

def flushFullChunk (lib : BundleLib Key SigningKey) (w : ChunkWriter Key) :
    Except BundleExportError (ChunkWriter Key) :=
  match w.enc.encryptNext lib (w.buf.take Bundle.CHUNK_PLAINTEXT_MAX) with
  | .error e => .error (.crypto e)
  | .ok (chunk, enc) => .ok ⟨enc, w.buf.drop Bundle.CHUNK_PLAINTEXT_MAX, w.sealed ++ [chunk]⟩

/-- Seals while there is a full chunk, at most `fuel` times. -/
def flush (lib : BundleLib Key SigningKey) : Nat → ChunkWriter Key →
    Except BundleExportError (ChunkWriter Key)
  | 0, w => .ok w
  | fuel + 1, w =>
    if Bundle.CHUNK_PLAINTEXT_MAX ≤ w.buf.length then
      match w.flushFullChunk lib with
      | .error e => .error e
      | .ok w => flush lib fuel w
    else .ok w

/-- No more chunks are full than there are bytes. -/
def writeRecord (lib : BundleLib Key SigningKey) (w : ChunkWriter Key) (record : BundleTailRecord) :
    Except BundleExportError (ChunkWriter Key) :=
  match lib.recordBytes record with
  | none => .error .encode
  | some body =>
    let buf := w.buf ++ BundleTailRecord.framed body
    flush lib buf.length { w with buf := buf }

def writeRecords (lib : BundleLib Key SigningKey) (w : ChunkWriter Key) :
    List BundleTailRecord → Except BundleExportError (ChunkWriter Key)
  | [] => .ok w
  | record :: records =>
    match w.writeRecord lib record with
    | .error e => .error e
    | .ok w => writeRecords lib w records

def finish (lib : BundleLib Key SigningKey) (w : ChunkWriter Key) :
    Except BundleExportError (List (List UInt8)) :=
  match w.enc.encryptLast lib w.buf with
  | .error e => .error (.crypto e)
  | .ok chunk => .ok (w.sealed ++ [chunk])

end ChunkWriter

namespace ExportCtx

/-- `build_manifest`. -/
def buildManifest (lib : BundleLib Key SigningKey) (ctx : ExportCtx SigningKey) : BundleManifest where
  version := Bundle.FORMAT_VERSION
  schemaVersion := Bundle.SCHEMA_VERSION
  deviceId := ctx.device.bytes
  deviceSigningPublicKey := lib.publicKey ctx.signing
  files := ctx.documents.map fun d => ⟨d.1.asStr, lib.blake3 d.2⟩
  opCount := ctx.store.totalOps

/-- A document's fingerprints as records. -/
def fingerprintRecords (ctx : ExportCtx SigningKey) (path : FilePath) : List BundleTailRecord :=
  (ctx.liveFingerprints path).map fun row => .fingerprint path.asStr row.1 row.2.1 row.2.2

/-- `write_blobs` of the documents: each one's bytes, then its fingerprints. -/
def writeBlobs (lib : BundleLib Key SigningKey) (ctx : ExportCtx SigningKey) (w : ChunkWriter Key) :
    List (FilePath × List UInt8) → Except BundleExportError (ChunkWriter Key)
  | [] => .ok w
  | d :: documents =>
    match w.writeRecord lib (.blob d.1.asStr d.2) with
    | .error e => .error e
    | .ok w =>
      match w.writeRecords lib (ctx.fingerprintRecords d.1) with
      | .error e => .error e
      | .ok w => writeBlobs lib ctx w documents

/-- `write_one_op`. -/
def writeOneOp (lib : BundleLib Key SigningKey) (ctx : ExportCtx SigningKey) (w : ChunkWriter Key)
    (op : Op) : Except BundleExportError (ChunkWriter Key) :=
  match lib.opBytes op with
  | none => .error .sign
  | some bytes => w.writeRecord lib (.op op (lib.sign ctx.signing bytes))

/-- The ops of one page. -/
def writePage (lib : BundleLib Key SigningKey) (ctx : ExportCtx SigningKey) (w : ChunkWriter Key) :
    List OpRow → Except BundleExportError (ChunkWriter Key)
  | [] => .ok w
  | row :: rows =>
    match ctx.writeOneOp lib w row.op with
    | .error e => .error e
    | .ok w => writePage lib ctx w rows

/-- `write_ops` past `since`, at most `fuel` pages. -/
def writeOps (lib : BundleLib Key SigningKey) (ctx : ExportCtx SigningKey) : Nat → Nat → ChunkWriter Key →
    Except BundleExportError (ChunkWriter Key)
  | 0, _, w => .ok w
  | fuel + 1, since, w =>
    let page := ctx.store.opsPage since OPS_PAGE_SIZE
    if page = [] then .ok w
    else
      match ctx.writePage lib w page with
      | .error e => .error e
      | .ok w =>
        if page.length = OPS_PAGE_SIZE then writeOps lib ctx fuel (since + page.length) w else .ok w

/-- `export_into`: the frames of the bundle. No more pages are read than there are rows. -/
def exportInto (lib : BundleLib Key SigningKey) (ctx : ExportCtx SigningKey) (header : BundleHeader)
    (passphrase : List UInt8) : Except BundleExportError (List (List UInt8)) :=
  match BundleStream.new lib header passphrase with
  | .error e => .error (.crypto e)
  | .ok enc =>
    match ctx.writeBlobs lib ⟨enc, [], []⟩ ctx.documents with
    | .error e => .error e
    | .ok w =>
      match ctx.writeOps lib (ctx.store.totalOps + 1) 0 w with
      | .error e => .error e
      | .ok w =>
        match w.finish lib with
        | .error e => .error e
        | .ok chunks => .ok (header.encode :: lib.manifestBytes (ctx.buildManifest lib) :: chunks)

end ExportCtx

end Txtodo
