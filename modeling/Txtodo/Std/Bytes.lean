import Mathlib.Data.UInt
import Mathlib.Tactic.Ring

/-!
# Numbers as bytes

Natural numbers in a fixed number of bytes, lowest byte first.
-/

namespace Bytes

/-- The lowest `width` bytes of `n`. -/
def ofNatLE : Nat → Nat → List UInt8
  | 0, _ => []
  | width + 1, n => UInt8.ofNat (n % 256) :: ofNatLE width (n / 256)

/-- The number whose bytes are given, lowest first. -/
def toNatLE : List UInt8 → Nat
  | [] => 0
  | b :: bs => b.toNat + 256 * toNatLE bs

@[simp] theorem length_ofNatLE (width n : Nat) : (ofNatLE width n).length = width := by
  induction width generalizing n with
  | zero => rfl
  | succ width ih => rw [ofNatLE, List.length_cons, ih]

theorem toNatLE_ofNatLE (width n : Nat) : toNatLE (ofNatLE width n) = n % 256 ^ width := by
  induction width generalizing n with
  | zero => rw [Nat.pow_zero, Nat.mod_one]; rfl
  | succ width ih =>
    have hbyte : (UInt8.ofNat (n % 256)).toNat = n % 256 := by
      rw [UInt8.toNat_ofNat']
      omega
    rw [ofNatLE, toNatLE, ih, hbyte, Nat.pow_succ', Nat.mod_mul]

theorem toNatLE_lt (bs : List UInt8) : toNatLE bs < 256 ^ bs.length := by
  induction bs with
  | nil => exact Nat.one_pos
  | cons b bs ih =>
    have hbyte := b.toNat_lt
    rw [toNatLE, List.length_cons, Nat.pow_succ']
    omega

/-- A number that fits is read back. -/
theorem toNatLE_ofNatLE_of_lt {width n : Nat} (h : n < 256 ^ width) : toNatLE (ofNatLE width n) = n := by
  rw [toNatLE_ofNatLE, Nat.mod_eq_of_lt h]

/-- Bytes are those of the number they spell. -/
theorem ofNatLE_toNatLE (bs : List UInt8) : ofNatLE bs.length (toNatLE bs) = bs := by
  induction bs with
  | nil => rfl
  | cons b bs ih =>
    have hbyte := b.toNat_lt
    have hlow : (b.toNat + 256 * toNatLE bs) % 256 = b.toNat := by omega
    have hhigh : (b.toNat + 256 * toNatLE bs) / 256 = toNatLE bs := by omega
    rw [List.length_cons, toNatLE, ofNatLE, hlow, hhigh, ih, UInt8.ofNat_toNat]

end Bytes
