import Mathlib.Algebra.Order.Field.Rat
import Mathlib.Tactic.FieldSimp
import Mathlib.Tactic.Positivity
import StandardForm.Binary.Arithmetic
import StandardForm.Proofs.Binary.Ladder

/-!
# The values of floating-point numbers

A finite number stands for a rational one: its signed number of units over the number of units in
one. Comparing numbers is comparing their values, and the magnitude of a number has the absolute
value as its value. An operation is exact if its result is finite and has the value that the
operation on rational numbers has.
-/

namespace StandardForm.Binary

variable {f : FloatFormat} {x y : Binary f}

/-- The rational number that a finite number stands for. A NaN counts as zero, and infinity as the
power of two that comes next. -/
def value : Binary f → ℚ
  | nan => 0
  | num s r => signedUnits (f := f) s r.val / f.one

def Represents (x : Binary f) (q : ℚ) : Prop := x.isFinite = true ∧ x.value = q

instance (x : Binary f) (q : ℚ) : Decidable (x.Represents q) :=
  inferInstanceAs (Decidable (_ ∧ _))

theorem units_eq_zero_iff {r : Nat} : f.units r = 0 ↔ r = 0 := by
  rw [← f.units_zero, f.units_strictMono.injective.eq_iff, f.units_zero]

theorem signedUnits_le_iff {s t : Bool} {r q : Nat} :
    signedUnits (f := f) s r ≤ signedUnits (f := f) t q ↔ position s r ≤ position t q := by
  have hle : f.units r ≤ f.units q ↔ r ≤ q := f.units_strictMono.le_iff_le
  have hge : f.units q ≤ f.units r ↔ q ≤ r := f.units_strictMono.le_iff_le
  have hr : f.units r = 0 ↔ r = 0 := units_eq_zero_iff
  have hq : f.units q = 0 ↔ q = 0 := units_eq_zero_iff
  cases s <;> cases t <;>
    simp only [signedUnits, position, Bool.false_eq_true, if_true, if_false] <;>
    omega

theorem value_le_iff (hx : x.isNaN = false) (hy : y.isNaN = false) :
    x.value ≤ y.value ↔ x ≤ y := by
  cases x with
  | nan => cases hx
  | num s r =>
    cases y with
    | nan => cases hy
    | num t q =>
      have hone : (0 : ℚ) < f.one := Nat.cast_pos.mpr f.one_pos
      rw [value, value, div_le_div_iff_of_pos_right hone, Int.cast_le, signedUnits_le_iff]
      exact decide_eq_true_iff.symm

theorem value_lt_iff (hx : x.isNaN = false) (hy : y.isNaN = false) :
    x.value < y.value ↔ x < y := by
  rw [← not_le, value_le_iff hy hx]
  cases x with
  | nan => cases hx
  | num s r =>
    cases y with
    | nan => cases hy
    | num t q =>
      change ¬ decide _ = true ↔ decide _ = true
      rw [decide_eq_true_iff, decide_eq_true_iff, Int.not_le]

@[simp] theorem value_zero : (0 : Binary f).value = 0 := by
  change ((signedUnits (f := f) false 0 : Int) : ℚ) / f.one = 0
  simp [signedUnits, f.units_zero]

theorem value_eq_zero_iff (hx : x.isNaN = false) : x.value = 0 ↔ x.isZero = true := by
  cases x with
  | nan => cases hx
  | num s r =>
    have hone : (f.one : ℚ) ≠ 0 := Nat.cast_ne_zero.mpr f.one_pos.ne'
    have hzero : signedUnits (f := f) s r.val = 0 ↔ f.units r.val = 0 := by
      cases s <;> simp [signedUnits]
    rw [value, div_eq_zero_iff, or_iff_left hone, Int.cast_eq_zero, hzero, units_eq_zero_iff]
    exact beq_iff_eq.symm

theorem value_abs (x : Binary f) : x.abs.value = |x.value| := by
  cases x with
  | nan => exact abs_zero.symm
  | num s r =>
    have hunits : signedUnits (f := f) false r.val = |signedUnits (f := f) s r.val| := by
      cases s <;> simp [signedUnits]
    rw [abs, value, value, abs_div, Nat.abs_cast, hunits, Int.cast_abs]

theorem isFinite_abs (x : Binary f) : x.abs.isFinite = x.isFinite := by
  cases x <;> rfl

theorem isZero_abs (x : Binary f) : x.abs.isZero = x.isZero := by
  cases x <;> rfl

theorem isNaN_of_isFinite (h : x.isFinite = true) : x.isNaN = false := by
  cases x with
  | nan => cases h
  | num s r => rfl

namespace Represents

variable {p q : ℚ}

protected theorem zero : (0 : Binary f).Represents 0 :=
  ⟨bne_iff_ne.mpr f.top_ne_zero.symm, value_zero⟩

theorem abs (h : x.Represents q) : x.abs.Represents |q| :=
  ⟨(isFinite_abs x).trans h.1, by rw [value_abs, h.2]⟩

theorem le_iff (hx : x.Represents p) (hy : y.Represents q) : x ≤ y ↔ p ≤ q := by
  rw [← hx.2, ← hy.2]
  exact (value_le_iff (isNaN_of_isFinite hx.1) (isNaN_of_isFinite hy.1)).symm

theorem isZero_iff (h : x.Represents q) : x.isZero = true ↔ q = 0 := by
  rw [← h.2]
  exact (value_eq_zero_iff (isNaN_of_isFinite h.1)).symm

end Represents

end StandardForm.Binary
