import Mathlib.Data.List.Basic
import Mathlib.Data.List.Induction
import Mathlib.Data.Nat.Digits.Defs
import Mathlib.Tactic.Ring

/-!
# Numerals of a fixed width

A number written with a fixed count of digits, the most significant first. Two such numerals compare as
their numbers do, and a machine word is read from its `k`-bit digits and written to them by shifts.
-/

namespace Radix

/-! ## The value of a numeral -/

section Value
variable {b d : Nat} {ds es : List Nat}

/-- The number some digits stand for, the most significant first. -/
def value (b : Nat) (ds : List Nat) : Nat := Nat.ofDigits b ds.reverse

@[simp] theorem value_nil : value b [] = 0 := rfl

theorem value_concat (ds : List Nat) (d : Nat) : value b (ds ++ [d]) = value b ds * b + d := by
  rw [value, value, List.reverse_append, List.reverse_singleton, List.singleton_append, Nat.ofDigits_cons]
  ring

theorem value_cons (d : Nat) (ds : List Nat) : value b (d :: ds) = d * b ^ ds.length + value b ds := by
  rw [value, value, Nat.ofDigits_reverse_cons]
  ring

theorem value_lt (hb : 1 < b) (hds : ∀ d ∈ ds, d < b) : value b ds < b ^ ds.length := by
  rw [value, ← List.length_reverse]
  exact Nat.ofDigits_lt_base_pow_length hb fun d hd => hds d (List.mem_reverse.1 hd)

/-- Two numerals of one width with the same number are the same. -/
theorem value_inj (hb : 1 < b) (hlen : ds.length = es.length) (hds : ∀ d ∈ ds, d < b) (hes : ∀ e ∈ es, e < b)
    (h : value b ds = value b es) : ds = es := by
  refine List.reverse_injective (Nat.ofDigits_inj_of_len_eq hb ?_ ?_ ?_ h)
  · rw [List.length_reverse, List.length_reverse, hlen]
  · exact fun d hd => hds d (List.mem_reverse.1 hd)
  · exact fun e he => hes e (List.mem_reverse.1 he)

/-- The leading digits decide, else what follows them. -/
theorem add_mul_lt_iff {m x y e : Nat} (hx : x < m) (hy : y < m) :
    d * m + x < e * m + y ↔ d < e ∨ d = e ∧ x < y := by
  rcases Nat.lt_trichotomy d e with h | rfl | h
  · have hmul : (d + 1) * m ≤ e * m := Nat.mul_le_mul_right m h
    rw [Nat.add_mul] at hmul
    exact iff_of_true (by omega) (.inl h)
  · omega
  · have hmul : (e + 1) * m ≤ d * m := Nat.mul_le_mul_right m h
    rw [Nat.add_mul] at hmul
    exact iff_of_false (by omega) (by omega)

/-- Numerals of one width compare digit by digit as their numbers do. -/
theorem value_lt_value_iff (hb : 1 < b) (hlen : ds.length = es.length) (hds : ∀ d ∈ ds, d < b)
    (hes : ∀ e ∈ es, e < b) : value b ds < value b es ↔ ds < es := by
  induction ds generalizing es with
  | nil =>
    rw [List.eq_nil_of_length_eq_zero hlen.symm]
    simp
  | cons d ds ih =>
    cases es with
    | nil => cases hlen
    | cons e es =>
      have hlen : ds.length = es.length := Nat.succ.inj hlen
      obtain ⟨-, hds⟩ := List.forall_mem_cons.1 hds
      obtain ⟨-, hes⟩ := List.forall_mem_cons.1 hes
      have hlow := value_lt hb hds
      rw [hlen] at hlow
      rw [value_cons, value_cons, hlen, add_mul_lt_iff hlow (value_lt hb hes), ih hlen hds hes,
        List.cons_lt_cons_iff]

end Value

/-- Digits shown by characters in their order compare as the digits do. -/
theorem map_lt_map_iff {α β : Type*} [LT α] [LT β] {f : α → β} {ds es : List α}
    (hf : ∀ d ∈ ds, ∀ e ∈ es, (f d < f e ↔ d < e) ∧ (f d = f e ↔ d = e)) : ds.map f < es.map f ↔ ds < es := by
  induction ds generalizing es with
  | nil => cases es <;> simp
  | cons d ds ih =>
    cases es with
    | nil => simp
    | cons e es =>
      obtain ⟨hlt, heq⟩ := hf d (List.mem_cons_self ..) e (List.mem_cons_self ..)
      have htail : ds.map f < es.map f ↔ ds < es :=
        ih fun d hd e he => hf d (List.mem_cons_of_mem _ hd) e (List.mem_cons_of_mem _ he)
      rw [List.map_cons, List.map_cons, List.cons_lt_cons_iff, List.cons_lt_cons_iff, hlt, heq, htail]

/-! ## Words -/

section Word
variable {w k : Nat} {d : Nat} {ds : List Nat}

/-- Shifting a word left by a digit and putting a digit in. -/
theorem toNat_push (x : BitVec w) (hk : k ≤ w) (hd : d < 2 ^ k) :
    (x <<< k ||| BitVec.ofNat w d).toNat = (x.toNat * 2 ^ k + d) % 2 ^ w := by
  have hpow : 2 ^ w = 2 ^ (w - k) * 2 ^ k := by rw [← pow_add, Nat.sub_add_cancel hk]
  have hdw : d < 2 ^ w := hd.trans_le (Nat.pow_le_pow_right (by decide) hk)
  have hhigh : x.toNat * 2 ^ k % 2 ^ w = x.toNat % 2 ^ (w - k) * 2 ^ k := by rw [hpow, Nat.mul_mod_mul_right]
  have hfit : x.toNat % 2 ^ (w - k) * 2 ^ k + d < 2 ^ w := by
    have hmul : (x.toNat % 2 ^ (w - k) + 1) * 2 ^ k ≤ 2 ^ (w - k) * 2 ^ k :=
      Nat.mul_le_mul_right _ (Nat.mod_lt _ (by positivity))
    rw [Nat.add_mul, ← hpow] at hmul
    omega
  rw [BitVec.toNat_or, BitVec.toNat_shiftLeft, BitVec.toNat_ofNat, Nat.mod_eq_of_lt hdw, Nat.shiftLeft_eq, hhigh,
    ← Nat.shiftLeft_eq, ← Nat.shiftLeft_add_eq_or_of_lt hd, Nat.shiftLeft_eq, Nat.add_mod, hhigh,
    Nat.mod_eq_of_lt hdw, Nat.mod_eq_of_lt hfit]

/-- A word read from digits, the most significant first. -/
def read (w k : Nat) (ds : List Nat) : BitVec w := ds.foldl (fun x d => x <<< k ||| BitVec.ofNat w d) 0

theorem toNat_read (hk : k ≤ w) (hds : ∀ d ∈ ds, d < 2 ^ k) : (read w k ds).toNat = value (2 ^ k) ds % 2 ^ w := by
  induction ds using List.reverseRecOn with
  | nil => simp [read]
  | append_singleton ds d ih =>
    obtain ⟨hds, hd⟩ := List.forall_mem_append.1 hds
    have hd := hd d (List.mem_singleton_self d)
    rw [read, List.foldl_append, ← read, List.foldl_cons, List.foldl_nil, toNat_push _ hk hd, ih hds, value_concat,
      Nat.add_mod, Nat.mod_mul_mod, ← Nat.add_mod]

/-- A word written as `n` digits in front of `out`, from its low end, and what is left of it. -/
def write (k : Nat) : Nat → BitVec w → List Nat → BitVec w × List Nat
  | 0, x, out => (x, out)
  | n + 1, x, out => write k n (x >>> k) ((x &&& BitVec.ofNat w (2 ^ k - 1)).toNat :: out)

theorem write_spec (hk : k ≤ w) (n : Nat) (x : BitVec w) (out : List Nat) :
    ∃ ds, (write k n x out).2 = ds ++ out ∧ ds.length = n ∧ (∀ d ∈ ds, d < 2 ^ k) ∧
      x.toNat = (write k n x out).1.toNat * 2 ^ (k * n) + value (2 ^ k) ds := by
  induction n generalizing x out with
  | zero => exact ⟨[], rfl, rfl, nofun, by simp [write]⟩
  | succ n ih =>
    have hmask : (x &&& BitVec.ofNat w (2 ^ k - 1)).toNat = x.toNat % 2 ^ k := by
      have hlt : 2 ^ k - 1 < 2 ^ w :=
        lt_of_lt_of_le (Nat.sub_lt (by positivity) Nat.one_pos) (Nat.pow_le_pow_right (by decide) hk)
      rw [BitVec.toNat_and, BitVec.toNat_ofNat, Nat.mod_eq_of_lt hlt, Nat.and_two_pow_sub_one_eq_mod]
    have hshift : (x >>> k).toNat = x.toNat / 2 ^ k := by
      rw [BitVec.toNat_ushiftRight, Nat.shiftRight_eq_div_pow]
    obtain ⟨ds, hout, hlen, hds, hvalue⟩ := ih (x >>> k) ((x &&& BitVec.ofNat w (2 ^ k - 1)).toNat :: out)
    refine ⟨ds ++ [x.toNat % 2 ^ k], ?_, ?_, ?_, ?_⟩
    · rw [write, hout, hmask, List.append_assoc, List.singleton_append]
    · rw [List.length_append, hlen, List.length_singleton]
    · refine List.forall_mem_append.2 ⟨hds, fun d hd => ?_⟩
      rw [List.mem_singleton.1 hd]
      exact Nat.mod_lt _ (by positivity)
    · rw [hshift] at hvalue
      rw [value_concat, write, ← Nat.div_add_mod x.toNat (2 ^ k)]
      nth_rewrite 1 [hvalue]
      rw [Nat.div_add_mod]
      ring

end Word

end Radix
