import Mathlib.Order.Lattice
import Mathlib.Data.UInt

/-!
# Word arithmetic that reports wrapping

A computation on 64-bit words gives its wrapped result and, beside it, whether every sum and
difference on the way stayed in range.
-/

instance UInt64.linearOrder : LinearOrder UInt64 where
  le_refl := UInt64.le_refl
  le_trans _ _ _ := UInt64.le_trans
  le_antisymm _ _ := UInt64.le_antisymm
  lt_iff_le_not_ge a b := by
    simp only [UInt64.lt_iff_toNat_lt, UInt64.le_iff_toNat_le]
    omega
  le_total := UInt64.le_total
  toDecidableLE := inferInstance
  toDecidableEq := inferInstance
  toDecidableLT := inferInstance

/-- The greatest word. -/
def UInt64.MAX : UInt64 := -1

@[simp] theorem UInt64.toNat_MAX : UInt64.MAX.toNat = 2 ^ 64 - 1 := rfl

theorem UInt64.le_MAX (n : UInt64) : n ≤ UInt64.MAX := by
  have hn := n.toNat_lt
  rw [UInt64.le_iff_toNat_le, UInt64.toNat_MAX]
  omega

theorem UInt64.ne_MAX {n : UInt64} : n ≠ UInt64.MAX ↔ n.toNat + 1 < 2 ^ 64 := by
  have hn := n.toNat_lt
  rw [ne_eq, ← UInt64.toNat_inj, UInt64.toNat_MAX]
  omega

theorem UInt64.toNat_pos {n : UInt64} (h : n ≠ 0) : 0 < n.toNat := by
  rw [Nat.pos_iff_ne_zero]
  exact fun hzero => h (UInt64.toNat_inj.1 hzero)

theorem UInt64.ne_MAX_of_lt {n m : UInt64} (h : n < m) : n ≠ UInt64.MAX :=
  (h.trans_le (UInt64.le_MAX m)).ne

theorem UInt64.toNat_succ {n : UInt64} (h : n ≠ UInt64.MAX) : (n + 1).toNat = n.toNat + 1 := by
  rw [UInt64.toNat_add]
  exact Nat.mod_eq_of_lt (UInt64.ne_MAX.1 h)

/-- A result of word arithmetic and whether no step on the way to it wrapped. -/
structure Checked (α : Type) where
  value : α
  fits : Bool

namespace Checked

variable {α β γ : Type}

instance : Monad Checked where
  pure a := ⟨a, true⟩
  bind x f := ⟨(f x.value).value, x.fits && (f x.value).fits⟩

/-- `a + b` on words. -/
def add (a b : UInt64) : Checked UInt64 := ⟨a + b, a.toNat + b.toNat < 2 ^ 64⟩

/-- `a - b` on words. -/
def sub (a b : UInt64) : Checked UInt64 := ⟨a - b, b ≤ a⟩

@[simp] theorem value_pure (a : α) : (pure a : Checked α).value = a := rfl

@[simp] theorem fits_pure (a : α) : (pure a : Checked α).fits = true := rfl

@[simp] theorem value_bind (x : Checked α) (f : α → Checked β) :
    (x >>= f).value = (f x.value).value := rfl

@[simp] theorem fits_bind (x : Checked α) (f : α → Checked β) :
    (x >>= f).fits = (x.fits && (f x.value).fits) := rfl

@[simp] theorem value_map (f : α → β) (x : Checked α) : (f <$> x).value = f x.value := rfl

@[simp] theorem fits_map (f : α → β) (x : Checked α) : (f <$> x).fits = x.fits :=
  Bool.and_true x.fits

@[simp] theorem value_add (a b : UInt64) : (add a b).value = a + b := rfl

@[simp] theorem value_sub (a b : UInt64) : (sub a b).value = a - b := rfl

theorem fits_add {a b : UInt64} : (add a b).fits = true ↔ a.toNat + b.toNat < 2 ^ 64 :=
  decide_eq_true_iff

theorem fits_sub {a b : UInt64} : (sub a b).fits = true ↔ b ≤ a := decide_eq_true_iff

theorem ext {x y : Checked α} (hvalue : x.value = y.value) (hfits : x.fits = y.fits) : x = y := by
  cases x
  cases y
  simp_all

instance : LawfulMonad Checked :=
  LawfulMonad.mk' Checked (fun x => ext rfl (fits_map _ x)) (fun _ _ => ext rfl (Bool.true_and _))
    (fun _ _ _ => ext rfl (Bool.and_assoc _ _ _))

@[simp] theorem value_mapM (f : α → Checked β) (l : List α) :
    (l.mapM f).value = l.map fun a => (f a).value := by
  induction l with
  | nil => rfl
  | cons a l ih => simp [List.mapM_cons, ih]

@[simp] theorem fits_mapM (f : α → Checked β) (l : List α) :
    (l.mapM f).fits = l.all fun a => (f a).fits := by
  induction l with
  | nil => rfl
  | cons a l ih => simp [List.mapM_cons, ih]

@[simp] theorem value_foldlM (f : β → α → Checked β) (b : β) (l : List α) :
    (l.foldlM f b).value = l.foldl (fun b a => (f b a).value) b := by
  induction l generalizing b with
  | nil => rfl
  | cons a l ih => simp [List.foldlM_cons, ih]

end Checked
