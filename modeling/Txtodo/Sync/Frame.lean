import Txtodo.Std.Bytes

/-!
# Frames and records

The wire envelope (`frame.rs`) and the length-prefixed record that holds one in a file
(`append_frame.rs`).
-/

namespace Txtodo

/-- First four bytes of every frame, `TXTO`. -/
def MAGIC : List UInt8 := [84, 88, 84, 79]

/-- The one protocol version this build speaks. -/
def PROTOCOL_VERSION : Nat := 6

/-- Largest frame body that is decoded. -/
def MAX_FRAME_BYTES : Nat := 4 * 1024 * 1024

/-- Magic, version and length. -/
def HEADER_BYTES : Nat := 10

/-- One frame: a version and an opaque body. -/
structure Frame where
  version : Nat
  body : List UInt8
  deriving DecidableEq

/-- Why bytes are not a frame. -/
inductive FrameError where
  | badMagic (got : List UInt8)
  | truncated (needed got : Nat)
  | tooLarge (len max : Nat)
  | unknownVersion (got supported : Nat)
  deriving DecidableEq

namespace Frame

/-- Wraps a body for `PROTOCOL_VERSION`. -/
def new (body : List UInt8) : Except FrameError Frame :=
  if MAX_FRAME_BYTES < body.length then .error (.tooLarge body.length MAX_FRAME_BYTES)
  else .ok ⟨PROTOCOL_VERSION, body⟩

/-- The bytes on the wire: header then body. -/
def encode (f : Frame) : Except FrameError (List UInt8) :=
  if MAX_FRAME_BYTES < f.body.length then .error (.tooLarge f.body.length MAX_FRAME_BYTES)
  else .ok (MAGIC ++ Bytes.ofNatLE 2 f.version ++ Bytes.ofNatLE 4 f.body.length ++ f.body)

/-- What stands where the magic should, zero-padded. -/
def badMagic (bytes : List UInt8) : FrameError :=
  .badMagic ((bytes.take 4).rightpad 4 0)

/-- Parses the header only: version and total frame bytes. -/
def peek (bytes : List UInt8) : Except FrameError (Nat × Nat) :=
  if bytes.length < HEADER_BYTES then
    if 4 ≤ bytes.length ∧ bytes.take 4 ≠ MAGIC then .error (badMagic bytes)
    else .error (.truncated HEADER_BYTES bytes.length)
  else if bytes.take 4 ≠ MAGIC then .error (badMagic bytes)
  else
    let version := Bytes.toNatLE ((bytes.drop 4).take 2)
    let len := Bytes.toNatLE ((bytes.drop 6).take 4)
    if MAX_FRAME_BYTES < len then .error (.tooLarge len MAX_FRAME_BYTES)
    else .ok (version, HEADER_BYTES + len)

/-- Decodes one frame from the front of `bytes`, with the bytes consumed. -/
def decode (bytes : List UInt8) : Except FrameError (Frame × Nat) :=
  match peek bytes with
  | .error e => .error e
  | .ok (version, total) =>
    if version ≠ PROTOCOL_VERSION then .error (.unknownVersion version PROTOCOL_VERSION)
    else if bytes.length < total then .error (.truncated total bytes.length)
    else .ok (⟨version, (bytes.take total).drop HEADER_BYTES⟩, total)

end Frame

/-- Largest record body that is decoded. -/
def MAX_APPEND_FRAME_BYTES : Nat := 8 * 1024 * 1024

/-- The length in front of a record. -/
def APPEND_HEADER_BYTES : Nat := 4

/-- A length no record has. -/
inductive AppendFrameError where
  | frameTooLarge (len max : Nat)
  deriving DecidableEq

/-- One length-prefixed record. -/
structure AppendFrame where
  len : Nat
  body : List UInt8
  deriving DecidableEq

namespace AppendFrame

/-- Wraps `body` unless it is too large. -/
def new (body : List UInt8) : Except AppendFrameError AppendFrame :=
  if MAX_APPEND_FRAME_BYTES < body.length then
    .error (.frameTooLarge body.length MAX_APPEND_FRAME_BYTES)
  else .ok ⟨body.length, body⟩

/-- The bytes to append to the file. -/
def encode (a : AppendFrame) : List UInt8 := Bytes.ofNatLE 4 a.len ++ a.body

/-- Decodes one record from the front of `bytes`, with the bytes consumed: none when they hold no whole
record yet. -/
def tryDecode (bytes : List UInt8) : Except AppendFrameError (Option (AppendFrame × Nat)) :=
  if bytes.length < APPEND_HEADER_BYTES then .ok none
  else
    let len := Bytes.toNatLE (bytes.take 4)
    if MAX_APPEND_FRAME_BYTES < len then .error (.frameTooLarge len MAX_APPEND_FRAME_BYTES)
    else
      let total := APPEND_HEADER_BYTES + len
      if bytes.length < total then .ok none
      else .ok (some (⟨len, (bytes.take total).drop APPEND_HEADER_BYTES⟩, total))

end AppendFrame

end Txtodo
