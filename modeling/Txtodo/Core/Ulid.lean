import Txtodo.Core.Types

/-!
# ULIDs

The value of an `id:` tag (`ulid.rs`): 128 bits, written as 26 Crockford base32 characters.
-/

namespace Txtodo

/-- A 128-bit ULID. -/
structure Ulid where
  bits : Nat
  bound : bits < 2 ^ 128
  deriving DecidableEq

/-- Crockford base32: digits and uppercase letters without I, L, O, U. -/
def ALPHABET : Text := "0123456789ABCDEFGHJKMNPQRSTVWXYZ".toList

def ULID_LEN : Nat := 26

/-- Value of one Crockford character, or `none`. -/
def decodeChar (c : Char) : Option Nat := ALPHABET.idxOf? c

/-- Parses 26 Crockford characters whose first is at most `7`. -/
def Ulid.parse (s : Text) : Option Ulid :=
  if Utf8.size s ≠ ULID_LEN ∨ '7' < s.headD '0' then none
  else do
    let bits ← s.foldlM (fun bits c => (decodeChar c).map (bits * 32 + ·)) 0
    if h : bits < 2 ^ 128 then some ⟨bits, h⟩ else none

/-- The 26 characters of a ULID, the highest five bits first. -/
def Ulid.display (u : Ulid) : Text :=
  (List.range ULID_LEN).map fun i => ALPHABET.getD (u.bits / 32 ^ (ULID_LEN - 1 - i) % 32) '0'

end Txtodo

/-!
## ULIDs on a 128-bit word

`ulid.rs` as the code runs it: the text's bytes go into a `u128` five bits at a time, and come out of its low
end the same way.
-/

namespace Txtodo.UlidWord

/-- `u128`. -/
abbrev U128 := BitVec 128

/-- The alphabet as a byte string. -/
def ALPHABET_BYTES : List UInt8 := Utf8.encode ALPHABET

/-- Value of one Crockford byte, or `none`. -/
def decodeChar (c : UInt8) : Option UInt8 := (ALPHABET_BYTES.idxOf? c).map UInt8.ofNat

/-- The loop's body in `parse`: the character's five bits come in at the low end. -/
def shiftIn (bits : U128) (c : UInt8) : Option U128 :=
  (decodeChar c).map fun v => bits <<< 5 ||| BitVec.ofNat 128 v.toNat

/-- Parses 26 Crockford bytes whose first is at most `7`. -/
def parse (s : Text) : Option U128 :=
  let b := Utf8.encode s
  if b.length ≠ ULID_LEN ∨ b.headD 0 > '7'.toUInt8 then none
  else b.foldlM shiftIn 0

/-- The loop of `fmt`: `n` slots are still to fill, from the last to the first, and `out` holds those filled. -/
def fill : Nat → U128 → List UInt8 → U128 × List UInt8
  | 0, bits, out => (bits, out)
  | n + 1, bits, out => fill n (bits >>> 5) (ALPHABET_BYTES.getD (bits &&& 31).toNat 0 :: out)

/-- The text of a ULID. -/
def display (bits : U128) : Text := (Utf8.decode (fill ULID_LEN bits []).2).getD []

end Txtodo.UlidWord
