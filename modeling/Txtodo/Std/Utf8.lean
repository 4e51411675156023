import Mathlib.Data.List.Basic
import Mathlib.Tactic.Common

/-!
# UTF-8

Encoding of a list of characters as bytes, and the decoder that accepts exactly the encodings. Text
is a list of characters throughout the development; files and lines are bytes.
-/

namespace Utf8

/-- The bytes of one character, computed on its code point. -/
def encodeChar (c : Char) : List UInt8 :=
  let n := c.toNat
  if n < 0x80 then [UInt8.ofNat n]
  else if n < 0x800 then [UInt8.ofNat (0xC0 + n / 64), UInt8.ofNat (0x80 + n % 64)]
  else if n < 0x10000 then
    [UInt8.ofNat (0xE0 + n / 4096), UInt8.ofNat (0x80 + n / 64 % 64), UInt8.ofNat (0x80 + n % 64)]
  else
    [UInt8.ofNat (0xF0 + n / 262144), UInt8.ofNat (0x80 + n / 4096 % 64),
      UInt8.ofNat (0x80 + n / 64 % 64), UInt8.ofNat (0x80 + n % 64)]

/-- The bytes of a text. -/
def encode (t : List Char) : List UInt8 := t.flatMap encodeChar

/-- The length of a text in bytes. -/
def size (t : List Char) : Nat := (encode t).length

/-- The code point in the payload bits of one to four bytes. -/
def codePoint : List UInt8 → Nat
  | [a] => a.toNat
  | [a, b] => (a.toNat - 0xC0) * 64 + (b.toNat - 0x80)
  | [a, b, c] => (a.toNat - 0xE0) * 4096 + (b.toNat - 0x80) * 64 + (c.toNat - 0x80)
  | [a, b, c, d] =>
    (a.toNat - 0xF0) * 262144 + (b.toNat - 0x80) * 4096 + (c.toNat - 0x80) * 64 + (d.toNat - 0x80)
  | _ => 0

/-- The character whose bytes are `bs`, when there is one: the code point is kept only if it
encodes back to `bs` (no overlong form, no surrogate). -/
def charOf (bs : List UInt8) : Option Char :=
  let c := Char.ofNat (codePoint bs)
  if encodeChar c = bs then some c else none

/-- The text whose bytes are `bs`, or `none` when they are not UTF-8. The lead byte says how many
bytes the first character takes. -/
def decode : List UInt8 → Option (List Char)
  | [] => some []
  | a :: rest =>
    if a.toNat < 0x80 then (decode rest).map (Char.ofNat a.toNat :: ·)
    else if a.toNat < 0xE0 then
      match rest with
      | b :: rest => (charOf [a, b]).bind fun c => (decode rest).map (c :: ·)
      | _ => none
    else if a.toNat < 0xF0 then
      match rest with
      | b :: c :: rest => (charOf [a, b, c]).bind fun c => (decode rest).map (c :: ·)
      | _ => none
    else
      match rest with
      | b :: c :: d :: rest => (charOf [a, b, c, d]).bind fun c => (decode rest).map (c :: ·)
      | _ => none

section DecodeStep

variable {a b c d : UInt8} (bs : List UInt8)

theorem decode_one (h : a.toNat < 0x80) :
    decode (a :: bs) = (decode bs).map (Char.ofNat a.toNat :: ·) := by
  conv_lhs => rw [decode.eq_def]
  exact if_pos h

theorem decode_two (h : 0x80 ≤ a.toNat) (h' : a.toNat < 0xE0) :
    decode (a :: b :: bs) = (charOf [a, b]).bind fun c => (decode bs).map (c :: ·) := by
  conv_lhs => rw [decode.eq_def]
  exact (if_neg (by omega)).trans (if_pos h')

theorem decode_three (h : 0xE0 ≤ a.toNat) (h' : a.toNat < 0xF0) :
    decode (a :: b :: c :: bs) = (charOf [a, b, c]).bind fun c => (decode bs).map (c :: ·) := by
  conv_lhs => rw [decode.eq_def]
  exact (if_neg (by omega)).trans ((if_neg (by omega)).trans (if_pos h'))

theorem decode_four (h : 0xF0 ≤ a.toNat) :
    decode (a :: b :: c :: d :: bs) =
      (charOf [a, b, c, d]).bind fun c => (decode bs).map (c :: ·) := by
  conv_lhs => rw [decode.eq_def]
  exact (if_neg (by omega)).trans ((if_neg (by omega)).trans (if_neg (by omega)))

end DecodeStep

/-! ## Round trip -/

theorem toNat_lt (c : Char) : c.toNat < 0x110000 := by
  have h := c.valid
  simp only [UInt32.isValidChar, Nat.isValidChar] at h
  have : c.toNat = c.val.toNat := rfl
  omega

theorem encode_cons (c : Char) (t : List Char) : encode (c :: t) = encodeChar c ++ encode t := rfl

@[simp] theorem encode_nil : encode [] = [] := rfl

/-- ASCII text is encoded a byte a character. -/
theorem encode_of_ascii {t : List Char} (h : ∀ c ∈ t, c.toNat < 0x80) :
    encode t = t.map fun c => UInt8.ofNat c.toNat := by
  induction t with
  | nil => rfl
  | cons c t ih =>
    rw [List.forall_mem_cons] at h
    have hchar : encodeChar c = [UInt8.ofNat c.toNat] := if_pos h.1
    rw [encode_cons, hchar, ih h.2]
    rfl

@[simp] theorem encode_append (s t : List Char) : encode (s ++ t) = encode s ++ encode t := by
  simp [encode]

private theorem ofNat_toNat_lt {n : Nat} (h : n < 256) : (UInt8.ofNat n).toNat = n := by
  simp only [UInt8.toNat_ofNat']
  omega

/-- The four lengths of an encoded character, by its code point. -/
theorem encodeChar_cases (c : Char) :
    (c.toNat < 0x80 ∧ encodeChar c = [UInt8.ofNat c.toNat]) ∨
    (0x80 ≤ c.toNat ∧ c.toNat < 0x800 ∧
      encodeChar c = [UInt8.ofNat (0xC0 + c.toNat / 64), UInt8.ofNat (0x80 + c.toNat % 64)]) ∨
    (0x800 ≤ c.toNat ∧ c.toNat < 0x10000 ∧
      encodeChar c = [UInt8.ofNat (0xE0 + c.toNat / 4096), UInt8.ofNat (0x80 + c.toNat / 64 % 64),
        UInt8.ofNat (0x80 + c.toNat % 64)]) ∨
    (0x10000 ≤ c.toNat ∧
      encodeChar c = [UInt8.ofNat (0xF0 + c.toNat / 262144),
        UInt8.ofNat (0x80 + c.toNat / 4096 % 64), UInt8.ofNat (0x80 + c.toNat / 64 % 64),
        UInt8.ofNat (0x80 + c.toNat % 64)]) := by
  by_cases h1 : c.toNat < 0x80
  · exact Or.inl ⟨h1, if_pos h1⟩
  · by_cases h2 : c.toNat < 0x800
    · exact Or.inr (Or.inl ⟨by omega, h2, (if_neg h1).trans (if_pos h2)⟩)
    · by_cases h3 : c.toNat < 0x10000
      · exact Or.inr (Or.inr (Or.inl
          ⟨by omega, h3, (if_neg h1).trans ((if_neg h2).trans (if_pos h3))⟩))
      · exact Or.inr (Or.inr (Or.inr
          ⟨by omega, (if_neg h1).trans ((if_neg h2).trans (if_neg h3))⟩))

/-- The payload bits of an encoded character give its code point back. -/
theorem codePoint_encodeChar (c : Char) : codePoint (encodeChar c) = c.toNat := by
  have hc := toNat_lt c
  rcases encodeChar_cases c with ⟨h, e⟩ | ⟨h, h', e⟩ | ⟨h, h', e⟩ | ⟨h, e⟩
  · rw [e]
    exact ofNat_toNat_lt (by omega)
  · rw [e]
    show ((UInt8.ofNat _).toNat - 0xC0) * 64 + ((UInt8.ofNat _).toNat - 0x80) = _
    rw [ofNat_toNat_lt (by omega), ofNat_toNat_lt (by omega)]
    omega
  · rw [e]
    show ((UInt8.ofNat _).toNat - 0xE0) * 4096 + ((UInt8.ofNat _).toNat - 0x80) * 64
      + ((UInt8.ofNat _).toNat - 0x80) = _
    rw [ofNat_toNat_lt (by omega), ofNat_toNat_lt (by omega), ofNat_toNat_lt (by omega)]
    omega
  · rw [e]
    show ((UInt8.ofNat _).toNat - 0xF0) * 262144 + ((UInt8.ofNat _).toNat - 0x80) * 4096
      + ((UInt8.ofNat _).toNat - 0x80) * 64 + ((UInt8.ofNat _).toNat - 0x80) = _
    rw [ofNat_toNat_lt (by omega), ofNat_toNat_lt (by omega), ofNat_toNat_lt (by omega),
      ofNat_toNat_lt (by omega)]
    omega

theorem charOf_encodeChar (c : Char) : charOf (encodeChar c) = some c := by
  simp [charOf, codePoint_encodeChar]

/-- Decoding reads one encoded character off the front. -/
theorem decode_encodeChar_append (c : Char) (bs : List UInt8) :
    decode (encodeChar c ++ bs) = (decode bs).map (c :: ·) := by
  have hc := toNat_lt c
  have hr := charOf_encodeChar c
  rcases encodeChar_cases c with ⟨h, e⟩ | ⟨h, h', e⟩ | ⟨h, h', e⟩ | ⟨h, e⟩
  · have ha := ofNat_toNat_lt (n := c.toNat) (by omega)
    rw [e]
    refine (decode_one bs (by omega)).trans ?_
    rw [ha, Char.ofNat_toNat]
  · have ha := ofNat_toNat_lt (n := 0xC0 + c.toNat / 64) (by omega)
    rw [e] at hr ⊢
    refine (decode_two bs (by omega) (by omega)).trans ?_
    rw [hr, Option.bind_some]
  · have ha := ofNat_toNat_lt (n := 0xE0 + c.toNat / 4096) (by omega)
    rw [e] at hr ⊢
    refine (decode_three bs (by omega) (by omega)).trans ?_
    rw [hr, Option.bind_some]
  · have ha := ofNat_toNat_lt (n := 0xF0 + c.toNat / 262144) (by omega)
    rw [e] at hr ⊢
    refine (decode_four bs (by omega)).trans ?_
    rw [hr, Option.bind_some]

/-- **Round trip**: the bytes of a text decode to that text. -/
@[simp] theorem decode_encode (t : List Char) : decode (encode t) = some t := by
  induction t with
  | nil => rfl
  | cons c t ih => rw [encode_cons, decode_encodeChar_append, ih]; rfl

theorem encodeChar_of_charOf {bs : List UInt8} {c : Char} (h : charOf bs = some c) : encodeChar c = bs := by
  unfold charOf at h
  dsimp only at h
  split at h
  · rename_i heq
    rwa [← Option.some_inj.1 h]
  · cases h

theorem encodeChar_ofNat {a : UInt8} (h : a.toNat < 0x80) : encodeChar (Char.ofNat a.toNat) = [a] := by
  have hvalid : (Char.ofNat a.toNat).toNat = a.toNat := by
    have hchar : a.toNat.isValidChar := .inl (by omega)
    rw [Char.ofNat, dif_pos hchar]
    rfl
  have hlt : (Char.ofNat a.toNat).toNat < 0x80 := hvalid.symm ▸ h
  rw [encodeChar, if_pos hlt, hvalid, UInt8.ofNat_toNat]

/-- A text that was decoded encodes to the bytes it came from. -/
theorem encode_of_decode {bs : List UInt8} {t : List Char} (h : decode bs = some t) : encode t = bs := by
  induction bs using decode.induct generalizing t with
  | case1 =>
    obtain rfl : [] = t := Option.some_inj.1 h
    rfl
  | case2 a rest ha ih =>
    rw [decode_one rest ha, Option.map_eq_some_iff] at h
    obtain ⟨t, ht, rfl⟩ := h
    rw [encode_cons, ih ht, encodeChar_ofNat ha]
    rfl
  | case3 a ha ha' b rest ih =>
    rw [decode_two rest (by omega) ha'] at h
    obtain ⟨c, hc, h⟩ := Option.bind_eq_some_iff.1 h
    obtain ⟨t, ht, rfl⟩ := Option.map_eq_some_iff.1 h
    rw [encode_cons, ih ht, encodeChar_of_charOf hc]
    rfl
  | case4 a rest ha ha' hrest =>
    rw [decode.eq_def] at h
    dsimp only at h
    rw [if_neg ha, if_pos ha'] at h
    split at h
    · exact absurd rfl (hrest _ _)
    · cases h
  | case5 a ha ha' ha'' b c rest ih =>
    rw [decode_three rest (by omega) ha''] at h
    obtain ⟨c, hc, h⟩ := Option.bind_eq_some_iff.1 h
    obtain ⟨t, ht, rfl⟩ := Option.map_eq_some_iff.1 h
    rw [encode_cons, ih ht, encodeChar_of_charOf hc]
    rfl
  | case6 a rest ha ha' ha'' hrest =>
    rw [decode.eq_def] at h
    dsimp only at h
    rw [if_neg ha, if_neg ha', if_pos ha''] at h
    split at h
    · exact absurd rfl (hrest _ _ _)
    · cases h
  | case7 a ha ha' ha'' b c d rest ih =>
    rw [decode_four rest (by omega)] at h
    obtain ⟨c, hc, h⟩ := Option.bind_eq_some_iff.1 h
    obtain ⟨t, ht, rfl⟩ := Option.map_eq_some_iff.1 h
    rw [encode_cons, ih ht, encodeChar_of_charOf hc]
    rfl
  | case8 a rest ha ha' ha'' hrest =>
    rw [decode.eq_def] at h
    dsimp only at h
    rw [if_neg ha, if_neg ha', if_neg ha''] at h
    split at h
    · exact absurd rfl (hrest _ _ _ _)
    · cases h

theorem encode_injective : Function.Injective encode := by
  intro s t h
  have : some s = some t := by rw [← decode_encode s, h, decode_encode]
  exact Option.some.inj this

/-! ## ASCII bytes -/

/-- A byte below `0x80` occurs in a character's encoding only as the whole of it. -/
theorem encodeChar_of_ascii_mem {c : Char} {b : UInt8} (hb : b ∈ encodeChar c)
    (hlt : b.toNat < 0x80) : encodeChar c = [b] ∧ c.toNat = b.toNat := by
  have hc := toNat_lt c
  unfold encodeChar at hb ⊢
  by_cases h1 : c.toNat < 0x80
  · simp only [if_pos h1, List.mem_singleton] at hb ⊢
    subst hb
    exact ⟨rfl, by rw [ofNat_toNat_lt (by omega)]⟩
  · exfalso
    simp only [if_neg h1] at hb
    split_ifs at hb <;> simp only [List.mem_cons, List.not_mem_nil, or_false] at hb <;>
      rcases hb with rfl | rfl | rfl | rfl <;>
      (rw [ofNat_toNat_lt (by omega)] at hlt; omega)

/-- An ASCII character occurs in a text exactly when its byte occurs in the text's bytes. -/
theorem mem_encode_ascii {c : Char} (hc : c.toNat < 0x80) {t : List Char} :
    UInt8.ofNat c.toNat ∈ encode t ↔ c ∈ t := by
  have hb : (UInt8.ofNat c.toNat).toNat = c.toNat := ofNat_toNat_lt (by omega)
  have hcb : encodeChar c = [UInt8.ofNat c.toNat] := by simp [encodeChar, hc]
  simp only [encode, List.mem_flatMap]
  constructor
  · rintro ⟨d, hd, hmem⟩
    obtain ⟨-, hdn⟩ := encodeChar_of_ascii_mem hmem (by omega)
    have : d = c := Char.toNat_inj.mp (by omega)
    exact this ▸ hd
  · intro h
    exact ⟨c, h, by simp [hcb]⟩

end Utf8
