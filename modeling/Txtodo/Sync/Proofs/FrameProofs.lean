import Txtodo.Sync.Frame

/-!
# Records are read back whole

A record is decoded from the front of its file once all its bytes are there, and not before.
-/

namespace Txtodo

/-- A frame of this build, small enough to be sent. -/
structure Frame.Sendable (f : Frame) : Prop where
  version : f.version = PROTOCOL_VERSION
  body : f.body.length ≤ MAX_FRAME_BYTES

theorem Frame.new_ok {body : List UInt8} {f : Frame} (h : Frame.new body = .ok f) :
    f.Sendable ∧ f.body = body := by
  unfold Frame.new at h
  split_ifs at h with hlen
  cases h
  exact ⟨⟨rfl, Nat.le_of_not_lt hlen⟩, rfl⟩

/-- A frame's bytes on the wire. -/
def Frame.bytes (f : Frame) : List UInt8 :=
  MAGIC ++ Bytes.ofNatLE 2 f.version ++ Bytes.ofNatLE 4 f.body.length ++ f.body

/-- The record of a frame. -/
def Frame.record (f : Frame) : List UInt8 := Bytes.ofNatLE 4 f.bytes.length ++ f.bytes

section Sendable
variable {f : Frame}

theorem Frame.length_bytes (f : Frame) : f.bytes.length = HEADER_BYTES + f.body.length := by
  rw [Frame.bytes, List.length_append, List.length_append, List.length_append, Bytes.length_ofNatLE,
    Bytes.length_ofNatLE]
  rfl

theorem Frame.length_record (f : Frame) : f.record.length = APPEND_HEADER_BYTES + f.bytes.length := by
  rw [Frame.record, List.length_append, Bytes.length_ofNatLE]
  rfl

theorem Frame.record_ne_nil (f : Frame) : f.record ≠ [] := by
  have hlen := f.length_record
  unfold APPEND_HEADER_BYTES at hlen
  exact List.ne_nil_of_length_pos (by omega)

theorem Frame.Sendable.encode_eq (h : f.Sendable) : f.encode = .ok f.bytes := by
  rw [Frame.encode, if_neg (Nat.not_lt.2 h.body)]
  rfl

theorem Frame.Sendable.bytes_le (h : f.Sendable) : f.bytes.length ≤ MAX_APPEND_FRAME_BYTES := by
  have hbody := h.body
  rw [f.length_bytes]
  unfold MAX_FRAME_BYTES at hbody
  unfold HEADER_BYTES MAX_APPEND_FRAME_BYTES
  omega

theorem Frame.Sendable.record_eq (h : f.Sendable) :
    AppendFrame.new f.bytes = .ok ⟨f.bytes.length, f.bytes⟩ := by
  rw [AppendFrame.new, if_neg (Nat.not_lt.2 h.bytes_le)]

/-- A frame's bytes are read back as the frame. -/
theorem Frame.Sendable.decode_bytes (h : f.Sendable) : Frame.decode f.bytes = .ok (f, f.bytes.length) := by
  have hfit : f.body.length < 256 ^ 4 := by
    have hbody := h.body
    unfold MAX_FRAME_BYTES at hbody
    omega
  have hversion : Bytes.toNatLE (Bytes.ofNatLE 2 f.version) = PROTOCOL_VERSION := by
    rw [h.version]
    rfl
  have hlen : Bytes.toNatLE (Bytes.ofNatLE 4 f.body.length) = f.body.length :=
    Bytes.toNatLE_ofNatLE_of_lt hfit
  have hpeek : Frame.peek f.bytes = .ok (PROTOCOL_VERSION, f.bytes.length) := by
    rw [Frame.peek, if_neg (by rw [f.length_bytes]; omega)]
    have hmagic : f.bytes.take 4 = MAGIC := by
      rw [Frame.bytes, List.append_assoc, List.append_assoc]
      rfl
    have hver : (f.bytes.drop 4).take 2 = Bytes.ofNatLE 2 f.version := by
      rw [Frame.bytes, List.append_assoc, List.append_assoc]
      rw [show (MAGIC ++ (Bytes.ofNatLE 2 f.version ++ (Bytes.ofNatLE 4 f.body.length ++ f.body))).drop 4 =
        Bytes.ofNatLE 2 f.version ++ (Bytes.ofNatLE 4 f.body.length ++ f.body) from rfl]
      exact List.take_left' (Bytes.length_ofNatLE 2 f.version)
    have hsize : (f.bytes.drop 6).take 4 = Bytes.ofNatLE 4 f.body.length := by
      rw [Frame.bytes, List.append_assoc (MAGIC ++ Bytes.ofNatLE 2 f.version),
        List.drop_left' (by simp [MAGIC])]
      exact List.take_left' (Bytes.length_ofNatLE 4 f.body.length)
    dsimp only
    rw [hmagic, if_neg (by simp), hver, hsize, hversion, hlen, if_neg (Nat.not_lt.2 h.body), f.length_bytes]
  rw [Frame.decode, hpeek]
  dsimp only
  rw [if_neg (by simp), if_neg (by omega), List.take_length, Frame.bytes,
    List.drop_left' (by simp [MAGIC, HEADER_BYTES]), ← h.version]

theorem Frame.Sendable.length_fits (h : f.Sendable) :
    Bytes.toNatLE (Bytes.ofNatLE 4 f.bytes.length) = f.bytes.length := by
  have hle := h.bytes_le
  unfold MAX_APPEND_FRAME_BYTES at hle
  exact Bytes.toNatLE_ofNatLE_of_lt (by omega)

/-- A whole record is decoded, whatever follows it. -/
theorem Frame.Sendable.tryDecode_record (h : f.Sendable) (rest : List UInt8) :
    AppendFrame.tryDecode (f.record ++ rest) =
      .ok (some (⟨f.bytes.length, f.bytes⟩, f.record.length)) := by
  have hheader : (f.record ++ rest).take 4 = Bytes.ofNatLE 4 f.bytes.length := by
    rw [Frame.record, List.append_assoc]
    exact List.take_left' (Bytes.length_ofNatLE 4 _)
  have hlen := f.length_record
  have htotal : (f.record ++ rest).take (APPEND_HEADER_BYTES + f.bytes.length) = f.record :=
    List.take_left' hlen
  have hbody : f.record.drop APPEND_HEADER_BYTES = f.bytes := List.drop_left' (Bytes.length_ofNatLE 4 _)
  rw [AppendFrame.tryDecode, if_neg (by rw [List.length_append]; omega)]
  dsimp only
  rw [hheader, h.length_fits, if_neg (Nat.not_lt.2 h.bytes_le), if_neg (by rw [List.length_append]; omega),
    htotal, hbody, hlen]

/-- A part of a record is not. -/
theorem Frame.Sendable.tryDecode_part (h : f.Sendable) {part : List UInt8} (hpart : part <+: f.record)
    (hne : part ≠ f.record) : AppendFrame.tryDecode part = .ok none := by
  have hlt : part.length < APPEND_HEADER_BYTES + f.bytes.length := by
    rw [← f.length_record]
    exact lt_of_le_of_ne hpart.length_le fun heq => hne (hpart.eq_of_length heq)
  rw [AppendFrame.tryDecode]
  split_ifs with hshort
  · rfl
  · have hheader : part.take 4 = Bytes.ofNatLE 4 f.bytes.length := by
      unfold APPEND_HEADER_BYTES at hshort
      have htake : part.take 4 = f.record.take 4 := by
        obtain ⟨rest, hrest⟩ := hpart
        rw [← hrest, List.take_append_of_le_length (by omega)]
      rw [htake, Frame.record]
      exact List.take_left' (Bytes.length_ofNatLE 4 _)
    dsimp only
    rw [hheader, h.length_fits, if_neg (Nat.not_lt.2 h.bytes_le), if_pos hlt]

end Sendable

end Txtodo
