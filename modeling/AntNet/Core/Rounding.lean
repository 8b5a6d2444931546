import Mathlib.Algebra.Order.Field.Basic
import Mathlib.Data.Int.Cast.Lemmas
import Mathlib.Order.Lattice
import Mathlib.Tactic.Linarith

/-!
# Rounded arithmetic

`Arithmetic`: the operations of C's `double`. A program modelled over it can be
run in exact arithmetic, where `K` is a field, and in rounded arithmetic, where
`K` is the set of fixed points of a rounding function and every operation
rounds its result (`Rounded`).

`Rounds`: what is left of the laws of an ordered field when every operation is
rounded. A sum of nonnegative numbers is not below any of them, but it need not
be above; a product of positive numbers is not negative, but it can be 0.
Ordered fields satisfy it, and so does every rounding function that is
monotone, exact on `int`s, and gradual near 0 (`Rounding`).
-/
namespace AntNet

class Arithmetic (K : Type) where
  zero : Zero K
  one : One K
  add : Add K
  sub : Sub K
  mul : Mul K
  div : Div K
  natCast : NatCast K
  intCast : IntCast K
  intCast_natCast (n : Nat) : ((n : Int) : K) = n

section Operations

variable {K : Type} [Arithmetic K]

-- of low priority: a field has the operations of its ring
instance (priority := 100) Arithmetic.instZero : Zero K := Arithmetic.zero
instance (priority := 100) Arithmetic.instOne : One K := Arithmetic.one
instance (priority := 100) Arithmetic.instAdd : Add K := Arithmetic.add
instance (priority := 100) Arithmetic.instSub : Sub K := Arithmetic.sub
instance (priority := 100) Arithmetic.instMul : Mul K := Arithmetic.mul
instance (priority := 100) Arithmetic.instDiv : Div K := Arithmetic.div
instance (priority := 100) Arithmetic.instNatCast : NatCast K := Arithmetic.natCast
instance (priority := 100) Arithmetic.instIntCast : IntCast K := Arithmetic.intCast

end Operations

/-- Exact arithmetic. -/
instance {K : Type} [Field K] : Arithmetic K where
  zero := inferInstance
  one := inferInstance
  add := inferInstance
  sub := inferInstance
  mul := inferInstance
  div := inferInstance
  natCast := inferInstance
  intCast := inferInstance
  intCast_natCast := Int.cast_natCast

/-- The laws that survive rounding. -/
class Rounds (K : Type) [Arithmetic K] [LinearOrder K] : Prop where
  zero_lt_one : (0 : K) < 1
  add_zero (a : K) : a + 0 = a
  le_add_right {a b : K} : 0 ≤ b → a ≤ a + b
  le_add_left {a b : K} : 0 ≤ b → a ≤ b + a
  sub_nonneg {a b : K} : b ≤ a → 0 ≤ a - b
  sub_pos {a b : K} : b < a → 0 < a - b
  sub_le {a b : K} : 0 ≤ b → a - b ≤ a
  add_le_one {a b : K} : 0 ≤ a → a ≤ 1 → b ≤ 1 - a → a + b ≤ 1
  add_mul_neg_one (a b : K) : a + b * ((-1 : Int) : K) = a - b
  mul_nonneg {a b : K} : 0 ≤ a → 0 ≤ b → 0 ≤ a * b
  mul_le {a b : K} : a ≤ 1 → 0 ≤ b → a * b ≤ b
  div_nonneg {a b : K} : 0 ≤ a → 0 ≤ b → 0 ≤ a / b
  div_le_one {a b : K} : a ≤ b → 0 < b → a / b ≤ 1
  div_le_div {a b c : K} : a ≤ b → 0 < c → a / c ≤ b / c
  intCast_nonneg {n : Int} : 0 ≤ n → 0 ≤ (n : K)
  natCast_nonneg (n : Nat) : 0 ≤ (n : K)
  one_le_natCast {n : Nat} : 0 < n → 1 ≤ (n : K)
  ratio_lt_one {m n : Nat} : m < n → n < 2 ^ 31 → (m : K) / (n : K) < 1

instance {K : Type} [Field K] [LinearOrder K] [IsStrictOrderedRing K] : Rounds K where
  zero_lt_one := zero_lt_one
  add_zero := add_zero
  le_add_right := le_add_of_nonneg_right
  le_add_left := le_add_of_nonneg_left
  sub_nonneg := sub_nonneg.mpr
  sub_pos := sub_pos.mpr
  sub_le := sub_le_self _
  add_le_one _ _ h := by linarith
  add_mul_neg_one a b := by simp [sub_eq_add_neg]
  mul_nonneg := mul_nonneg
  mul_le := fun h hb => mul_le_of_le_one_left hb h
  div_nonneg := div_nonneg
  div_le_one h hb := (div_le_one hb).mpr h
  div_le_div h hc := div_le_div_of_nonneg_right h hc.le
  intCast_nonneg := Int.cast_nonneg
  natCast_nonneg := Nat.cast_nonneg
  one_le_natCast := Nat.one_le_cast.mpr
  ratio_lt_one h _ := (div_lt_one (Nat.cast_pos.mpr (Nat.zero_lt_of_lt h))).mpr (Nat.cast_lt.mpr h)

/-! ## Rounding the result of every operation -/

/-- A rounding function on an ordered field. `complement`: `x + (1 - x)` does
not round to more than 1. `gradual`: a difference never underflows. -/
structure Rounding (F : Type) [Field F] [LinearOrder F] where
  fl : F → F
  mono {x y : F} : x ≤ y → fl x ≤ fl y
  fl_fl (x : F) : fl (fl x) = fl x
  neg (x : F) : fl (-x) = -fl x
  int {n : Int} : n.natAbs < 2 ^ 31 → fl n = n
  complement {x : F} : fl x = x → 0 ≤ x → x ≤ 1 → fl (x + fl (1 - x)) ≤ 1
  gradual {x y : F} : fl x = x → fl y = y → x < y → 0 < fl (y - x)
  ratio {m n : Nat} : m < n → n < 2 ^ 31 → fl (m / n) < 1

/-- The numbers that `φ` leaves alone. -/
structure Rounded {F : Type} [Field F] [LinearOrder F] (φ : Rounding F) where
  val : F
  rounded : φ.fl val = val

namespace Rounded

variable {F : Type} [Field F] [LinearOrder F] {φ : Rounding F}

def round (φ : Rounding F) (x : F) : Rounded φ := ⟨φ.fl x, φ.fl_fl x⟩

theorem val_injective : Function.Injective (val : Rounded φ → F) := by
  rintro ⟨x, hx⟩ ⟨y, hy⟩ rfl
  rfl

instance : LinearOrder (Rounded φ) := LinearOrder.lift' val val_injective

instance : Arithmetic (Rounded φ) where
  zero := ⟨round φ 0⟩
  one := ⟨round φ 1⟩
  add := ⟨fun a b => round φ (a.val + b.val)⟩
  sub := ⟨fun a b => round φ (a.val - b.val)⟩
  mul := ⟨fun a b => round φ (a.val * b.val)⟩
  div := ⟨fun a b => round φ (a.val / b.val)⟩
  natCast := ⟨fun n => round φ n⟩
  intCast := ⟨fun n => round φ n⟩
  intCast_natCast n := congrArg (round φ) (Int.cast_natCast n)

theorem le_def {a b : Rounded φ} : a ≤ b ↔ a.val ≤ b.val := .rfl

theorem lt_def {a b : Rounded φ} : a < b ↔ a.val < b.val := .rfl

theorem val_add (a b : Rounded φ) : (a + b).val = φ.fl (a.val + b.val) := rfl

theorem val_sub (a b : Rounded φ) : (a - b).val = φ.fl (a.val - b.val) := rfl

theorem val_mul (a b : Rounded φ) : (a * b).val = φ.fl (a.val * b.val) := rfl

theorem val_div (a b : Rounded φ) : (a / b).val = φ.fl (a.val / b.val) := rfl

theorem val_intCast (n : Int) : (n : Rounded φ).val = φ.fl n := rfl

theorem val_natCast (n : Nat) : (n : Rounded φ).val = φ.fl n := rfl

theorem natCast_exact {n : Nat} (h : n < 2 ^ 31) : φ.fl n = n := by
  have := φ.int (n := n) (by simpa using h)
  rwa [Int.cast_natCast] at this

theorem val_zero : (0 : Rounded φ).val = 0 := by
  have : φ.fl (0 : Nat) = (0 : Nat) := natCast_exact (by decide)
  rwa [Nat.cast_zero] at this

theorem val_one : (1 : Rounded φ).val = 1 := by
  have : φ.fl (1 : Nat) = (1 : Nat) := natCast_exact (by decide)
  rwa [Nat.cast_one] at this

/-- A number of the format is a bound for what is rounded. -/
theorem le_fl (a : Rounded φ) {x : F} (h : a.val ≤ x) : a.val ≤ φ.fl x := by
  have := φ.mono h
  rwa [a.rounded] at this

theorem fl_le (a : Rounded φ) {x : F} (h : x ≤ a.val) : φ.fl x ≤ a.val := by
  have := φ.mono h
  rwa [a.rounded] at this

theorem fl_nonneg {x : F} (h : 0 ≤ x) : 0 ≤ φ.fl x := by
  have := le_fl (0 : Rounded φ) (val_zero.trans_le h)
  rwa [val_zero] at this

theorem fl_le_one {x : F} (h : x ≤ 1) : φ.fl x ≤ 1 := by
  have := fl_le (1 : Rounded φ) (h.trans_eq val_one.symm)
  rwa [val_one] at this

variable [IsStrictOrderedRing F]

/-- **Rounding keeps these laws.** -/
instance : Rounds (Rounded φ) where
  zero_lt_one := by
    rw [lt_def, val_zero, val_one]
    exact zero_lt_one
  add_zero a := by
    apply val_injective
    rw [val_add, val_zero, add_zero, a.rounded]
  le_add_right {a b} h := by
    rw [le_def, val_zero] at h
    exact le_fl a (le_add_of_nonneg_right h)
  le_add_left {a b} h := by
    rw [le_def, val_zero] at h
    exact le_fl a (le_add_of_nonneg_left h)
  sub_nonneg {a b} h := by
    rw [le_def, val_zero]
    exact fl_nonneg (sub_nonneg.mpr h)
  sub_pos {a b} h := by
    rw [lt_def, val_zero]
    exact φ.gradual b.rounded a.rounded h
  sub_le {a b} h := by
    rw [le_def, val_zero] at h
    exact fl_le a (sub_le_self _ h)
  add_le_one {a b} h0 h1 hb := by
    rw [le_def, val_zero] at h0
    rw [le_def, val_one] at h1
    rw [le_def, val_sub, val_one] at hb
    rw [le_def, val_one, val_add]
    exact (φ.mono (by linarith)).trans (φ.complement a.rounded h0 h1)
  add_mul_neg_one a b := by
    apply val_injective
    rw [val_add, val_mul, val_intCast, φ.int (by decide), Int.cast_neg, Int.cast_one, mul_neg, mul_one,
      φ.neg, b.rounded, val_sub, sub_eq_add_neg]
  mul_nonneg {a b} ha hb := by
    rw [le_def, val_zero] at ha hb ⊢
    exact fl_nonneg (mul_nonneg ha hb)
  mul_le {a b} ha hb := by
    rw [le_def, val_one] at ha
    rw [le_def, val_zero] at hb
    exact fl_le b (mul_le_of_le_one_left hb ha)
  div_nonneg {a b} ha hb := by
    rw [le_def, val_zero] at ha hb ⊢
    exact fl_nonneg (div_nonneg ha hb)
  div_le_one {a b} h hb := by
    rw [lt_def, val_zero] at hb
    rw [le_def, val_one]
    exact fl_le_one ((div_le_one hb).mpr h)
  div_le_div {a b c} h hc := by
    rw [lt_def, val_zero] at hc
    exact φ.mono (div_le_div_of_nonneg_right h hc.le)
  intCast_nonneg {n} h := by
    rw [le_def, val_zero]
    exact fl_nonneg (Int.cast_nonneg h)
  natCast_nonneg n := by
    rw [le_def, val_zero]
    exact fl_nonneg (Nat.cast_nonneg n)
  one_le_natCast {n} h := by
    have h1 : (1 : Rounded φ).val ≤ n := val_one.trans_le (Nat.one_le_cast.mpr h)
    exact le_fl 1 h1
  ratio_lt_one {m n} h hn := by
    rw [lt_def, val_one, val_div, val_natCast, val_natCast, natCast_exact hn, natCast_exact (h.trans hn)]
    exact φ.ratio h hn

end Rounded

end AntNet
