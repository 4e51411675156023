import Txtodo.Model.Layout
import Txtodo.Model.Op
import Txtodo.Std.Bytes
import Txtodo.Std.Drain
import Txtodo.Std.Utf8

/-!
# Bundles

What a bundle is made of: the clear header and the sealed chunks (`bundle_crypto.rs`), the clear manifest
and the records inside (`bundle_wire.rs`). The libraries they rest on (key derivation, sealing, signatures,
hashes and codecs) are given, and so is the order in which the database lists ids.
-/

namespace Txtodo

/-- What a task line looks like for matching. -/
structure Fingerprint where
  creationDate : Option (Nat × Nat × Nat)
  projects : List Text
  contexts : List Text
  descriptionNorm : Text
  lineIndex : Nat
  deriving DecidableEq

/-- One entry of the encrypted body. -/
inductive BundleTailRecord where
  /-- A document's bytes. -/
  | blob (path : Text) (bytes : List UInt8)
  /-- One op with the exporting device's signature. -/
  | op (op : Op) (signature : List UInt8)
  /-- One row of a sidecar document's fingerprints. -/
  | fingerprint (path : Text) (task : TaskId) (fingerprint : Fingerprint) (updatedAtMs : Nat)
  deriving DecidableEq

/-- A document and the hash of its bytes. -/
structure FileHash where
  path : Text
  blake3 : List UInt8
  deriving DecidableEq

/-- What is said of a bundle in the clear. -/
structure BundleManifest where
  version : Nat
  schemaVersion : Text
  deviceId : List UInt8
  deviceSigningPublicKey : List UInt8
  files : List FileHash
  opCount : Nat
  deriving DecidableEq

/-- Why the header, or the key derived from it, could not be used. -/
inductive BundleCryptoError where
  | truncated
  | badMagic
  | unsupportedVersion (version : Nat)
  | badParams
  | kdf
  | entropy
  | aead
  deriving DecidableEq

/-- The libraries: Argon2id, the sealed stream, Ed25519, postcard, protobuf and blake3; and the order in
which the database lists the ids of a table when none is asked for. -/
structure BundleLib (Key SigningKey : Type) where
  argon2 : (memoryKib iterations parallelism : Nat) → (salt passphrase : List UInt8) →
    Except BundleCryptoError Key
  /-- Seals the chunk at a position, the last one or not. -/
  sealChunk : Key → (noncePrefix : List UInt8) → (position : Nat) → (last : Bool) → (aad msg : List UInt8) →
    Option (List UInt8)
  openChunk : Key → (noncePrefix : List UInt8) → (position : Nat) → (last : Bool) →
    (aad chunk : List UInt8) → Option (List UInt8)
  publicKey : SigningKey → List UInt8
  sign : SigningKey → List UInt8 → List UInt8
  verify : (publicKey bytes signature : List UInt8) → Bool
  opBytes : Op → Option (List UInt8)
  recordBytes : BundleTailRecord → Option (List UInt8)
  recordOf : List UInt8 → Option BundleTailRecord
  manifestBytes : BundleManifest → List UInt8
  manifestOf : List UInt8 → Option BundleManifest
  blake3 : List UInt8 → List UInt8
  scan : List OpId → List OpId

/-! ## The header -/

namespace Bundle

/-- First four bytes of a bundle, `TXBN`. -/
def MAGIC : List UInt8 := [84, 88, 66, 78]
def HEADER_FORMAT_VERSION : Nat := 1
def SALT_BYTES : Nat := 16
def NONCE_PREFIX_BYTES : Nat := 19
/-- Magic, version, the three parameters, salt and nonce prefix. -/
def HEADER_BYTES : Nat := 53
/-- Plaintext bytes of one full chunk. -/
def CHUNK_PLAINTEXT_MAX : Nat := 64 * 1024
/-- The version of the records. -/
def FORMAT_VERSION : Nat := 1
/-- The version of every open database's schema. -/
def SCHEMA_VERSION : Text := ['9']
def ARGON2_MEMORY_KIB : Nat := 19456
def ARGON2_ITERATIONS : Nat := 2
def ARGON2_PARALLELISM : Nat := 1

end Bundle

/-- The clear header: the parameters of the key, its salt and what all nonces begin with. -/
structure BundleHeader where
  memoryKib : Nat
  iterations : Nat
  parallelism : Nat
  salt : List UInt8
  noncePrefix : List UInt8
  memoryKib_lt : memoryKib < 4294967296
  iterations_lt : iterations < 4294967296
  parallelism_lt : parallelism < 4294967296
  length_salt : salt.length = Bundle.SALT_BYTES
  length_noncePrefix : noncePrefix.length = Bundle.NONCE_PREFIX_BYTES

namespace BundleHeader

/-- The header of a new export, its random bytes given. -/
def fresh (salt noncePrefix : List UInt8) (hsalt : salt.length = Bundle.SALT_BYTES)
    (hnonce : noncePrefix.length = Bundle.NONCE_PREFIX_BYTES) : BundleHeader :=
  ⟨Bundle.ARGON2_MEMORY_KIB, Bundle.ARGON2_ITERATIONS, Bundle.ARGON2_PARALLELISM, salt, noncePrefix,
    by decide, by decide, by decide, hsalt, hnonce⟩

/-- The header's bytes, which every sealed chunk is bound to. -/
def encode (h : BundleHeader) : List UInt8 :=
  Bundle.MAGIC ++ (Bytes.ofNatLE 2 Bundle.HEADER_FORMAT_VERSION ++ (Bytes.ofNatLE 4 h.memoryKib ++
    (Bytes.ofNatLE 4 h.iterations ++ (Bytes.ofNatLE 4 h.parallelism ++ (h.salt ++ h.noncePrefix)))))

/-- A number of the header, `width` bytes from `at_` on. -/
def field (bytes : List UInt8) (at_ width : Nat) : Nat := Bytes.toNatLE ((bytes.drop at_).take width)

theorem field_lt (bytes : List UInt8) (at_ : Nat) : field bytes at_ 4 < 4294967296 := by
  have hlen : ((bytes.drop at_).take 4).length ≤ 4 := by
    rw [List.length_take]
    exact Nat.min_le_left _ _
  calc
    field bytes at_ 4 < 256 ^ ((bytes.drop at_).take 4).length := Bytes.toNatLE_lt _
    _ ≤ 256 ^ 4 := Nat.pow_le_pow_right (by decide) hlen
    _ = 4294967296 := by decide

/-- Decodes a header. -/
def decode (bytes : List UInt8) : Except BundleCryptoError BundleHeader :=
  if h : bytes.length < Bundle.HEADER_BYTES then .error .truncated
  else if bytes.take 4 ≠ Bundle.MAGIC then .error .badMagic
  else if field bytes 4 2 ≠ Bundle.HEADER_FORMAT_VERSION then .error (.unsupportedVersion (field bytes 4 2))
  else .ok {
    memoryKib := field bytes 6 4
    iterations := field bytes 10 4
    parallelism := field bytes 14 4
    salt := (bytes.drop 18).take Bundle.SALT_BYTES
    noncePrefix := (bytes.drop 34).take Bundle.NONCE_PREFIX_BYTES
    memoryKib_lt := field_lt _ _
    iterations_lt := field_lt _ _
    parallelism_lt := field_lt _ _
    length_salt := by
      unfold Bundle.HEADER_BYTES at h
      unfold Bundle.SALT_BYTES
      rw [List.length_take, List.length_drop]
      omega
    length_noncePrefix := by
      unfold Bundle.HEADER_BYTES at h
      unfold Bundle.NONCE_PREFIX_BYTES
      rw [List.length_take, List.length_drop]
      omega }

/-- The key of a passphrase. -/
def deriveKey {Key SigningKey : Type} (lib : BundleLib Key SigningKey) (h : BundleHeader)
    (passphrase : List UInt8) : Except BundleCryptoError Key :=
  lib.argon2 h.memoryKib h.iterations h.parallelism h.salt passphrase

end BundleHeader

/-! ## Sealing and opening -/

/-- One end of the sealed stream: what its chunks are bound to, and the position of the next. -/
structure BundleStream (Key : Type) where
  key : Key
  noncePrefix : List UInt8
  aad : List UInt8
  position : Nat

namespace BundleStream
variable {Key SigningKey : Type}

/-- `BundleEncryptor::new` and `BundleDecryptor::new`. -/
def new (lib : BundleLib Key SigningKey) (header : BundleHeader) (passphrase : List UInt8) :
    Except BundleCryptoError (BundleStream Key) :=
  match header.deriveKey lib passphrase with
  | .error e => .error e
  | .ok key => .ok ⟨key, header.noncePrefix, header.encode, 0⟩

def encryptNext (lib : BundleLib Key SigningKey) (s : BundleStream Key) (plaintext : List UInt8) :
    Except BundleCryptoError (List UInt8 × BundleStream Key) :=
  match lib.sealChunk s.key s.noncePrefix s.position false s.aad plaintext with
  | none => .error .aead
  | some chunk => .ok (chunk, { s with position := s.position + 1 })

def encryptLast (lib : BundleLib Key SigningKey) (s : BundleStream Key) (plaintext : List UInt8) :
    Except BundleCryptoError (List UInt8) :=
  match lib.sealChunk s.key s.noncePrefix s.position true s.aad plaintext with
  | none => .error .aead
  | some chunk => .ok chunk

def decryptNext (lib : BundleLib Key SigningKey) (s : BundleStream Key) (chunk : List UInt8) :
    Except BundleCryptoError (List UInt8 × BundleStream Key) :=
  match lib.openChunk s.key s.noncePrefix s.position false s.aad chunk with
  | none => .error .aead
  | some plaintext => .ok (plaintext, { s with position := s.position + 1 })

def decryptLast (lib : BundleLib Key SigningKey) (s : BundleStream Key) (chunk : List UInt8) :
    Except BundleCryptoError (List UInt8) :=
  match lib.openChunk s.key s.noncePrefix s.position true s.aad chunk with
  | none => .error .aead
  | some plaintext => .ok plaintext

end BundleStream

/-! ## Records -/

namespace BundleTailRecord

/-- The length in front of a record. -/
def LEN_PREFIX_BYTES : Nat := 4

/-- Longest record that is read. -/
def MAX_RECORD_BYTES : Nat := 64 * 1024 * 1024

/-- A record's body behind its length, which a longer body than the prefix can say only saturates. -/
def framed (body : List UInt8) : List UInt8 :=
  Bytes.ofNatLE LEN_PREFIX_BYTES (min body.length 4294967295) ++ body

/-- `encode_into`: `out` with one record after it. -/
def encodeInto {Key SigningKey : Type} (lib : BundleLib Key SigningKey) (record : BundleTailRecord)
    (out : List UInt8) : Option (List UInt8) :=
  (lib.recordBytes record).map fun body => out ++ framed body

end BundleTailRecord

/-- Why a record stream could not be read back. -/
inductive RecordReadError where
  | tooLarge (len : Nat)
  | codec
  | truncated (leftover : Nat)
  deriving DecidableEq

/-- `try_take_one`: a record off the front of `carry`, if a whole one is there, with what is left. -/
def tryTakeOne {Key SigningKey : Type} (lib : BundleLib Key SigningKey) (carry : List UInt8) :
    Except RecordReadError (Option (BundleTailRecord × List UInt8)) :=
  if carry.length < BundleTailRecord.LEN_PREFIX_BYTES then .ok none
  else
    let len := Bytes.toNatLE (carry.take BundleTailRecord.LEN_PREFIX_BYTES)
    if BundleTailRecord.MAX_RECORD_BYTES < len then .error (.tooLarge len)
    else if carry.length < BundleTailRecord.LEN_PREFIX_BYTES + len then .ok none
    else
      match lib.recordOf ((carry.drop BundleTailRecord.LEN_PREFIX_BYTES).take len) with
      | none => .error .codec
      | some record => .ok (some (record, carry.drop (BundleTailRecord.LEN_PREFIX_BYTES + len)))

/-- `BundleRecordReader::feed`: the whole records there are now, and what is left. -/
def feed {Key SigningKey : Type} (lib : BundleLib Key SigningKey) (carry plaintext : List UInt8) :
    Except RecordReadError (List BundleTailRecord × List UInt8) :=
  Drain.drain (tryTakeOne lib) (carry ++ plaintext)

namespace BundleRecordReader

/-- The chunks of a stream fed one after the other to a reader that holds `carry`: the records, and what
it holds in the end. -/
def feedAll {Key SigningKey : Type} (lib : BundleLib Key SigningKey) : List UInt8 → List (List UInt8) →
    Except RecordReadError (List BundleTailRecord × List UInt8)
  | carry, [] => .ok ([], carry)
  | carry, chunk :: chunks =>
    match feed lib carry chunk with
    | .error e => .error e
    | .ok (records, carry) =>
      match feedAll lib carry chunks with
      | .error e => .error e
      | .ok (more, carry) => .ok (records ++ more, carry)

/-- Whether nothing partial is left in `carry` when the stream is over. -/
def finish (carry : List UInt8) : Except RecordReadError Unit :=
  if carry.isEmpty then .ok () else .error (.truncated carry.length)

end BundleRecordReader

/-- A device's id as its bytes, highest first. -/
def DeviceId.bytes (device : DeviceId) : List UInt8 := (Bytes.ofNatLE 16 device.ulid).reverse

end Txtodo
