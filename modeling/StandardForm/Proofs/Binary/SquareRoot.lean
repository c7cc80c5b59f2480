import Mathlib.Analysis.SpecialFunctions.Pow.NNReal
import StandardForm.Proofs.Binary.Rounding

/-!
# How much the square root loses

The rung of a square root is found bit by bit, as the highest one whose midpoint with the rung below
does not exceed the exact root. So the exact root lies between two neighbouring midpoints, and the
error is that of one rounding.
-/

namespace StandardForm

namespace FloatFormat

variable (f : FloatFormat)

/-- The distance to the next magnitude. -/
theorem units_succ_le (n : ℕ) :
    (f.units (n + 1) : ℝ) ≤ f.units n + f.units n / 2 ^ (f.precision - 1) + 1 := by
  have hpos : (0 : ℝ) < 2 ^ (f.precision - 1) := by positivity
  rcases Nat.lt_or_ge n f.binade with hlt | hge
  · rw [f.units_of_lt (by omega), f.units_of_lt (by omega)]
    have : (0 : ℝ) ≤ (n : ℝ) / 2 ^ (f.precision - 1) := by positivity
    push_cast
    linarith
  · obtain ⟨k, m, hm, rfl⟩ := f.exists_binade hge
    have hunits := f.units_binade k m hm
    have hnext : f.units ((k + 1) * f.binade + m + 1) = (f.binade + m + 1) * 2 ^ k := by
      rcases Nat.lt_or_ge (m + 1) f.binade with hlt | hge
      · rw [Nat.add_assoc, f.units_binade _ _ hlt]
        ring
      · have hrung : (k + 1) * f.binade + m + 1 = (k + 1 + 1) * f.binade + 0 := by
          rw [Nat.succ_mul (k + 1)]
          omega
        have hsum : f.binade + m + 1 = 2 * f.binade := by omega
        rw [hrung, f.units_binade _ _ f.binade_pos, hsum, Nat.pow_succ]
        ring
    have hgap : (2 : ℝ) ^ k ≤ (f.units ((k + 1) * f.binade + m) : ℝ) / 2 ^ (f.precision - 1) := by
      rw [le_div_iff₀ hpos, hunits]
      have hle : 2 ^ k * f.binade ≤ (f.binade + m) * 2 ^ k := by
        rw [Nat.mul_comm]
        exact Nat.mul_le_mul_right _ (Nat.le_add_right _ _)
      rw [← Nat.cast_two, ← Nat.cast_pow, ← Nat.cast_pow, ← binade_eq]
      exact_mod_cast hle
    have hvalue : (f.units ((k + 1) * f.binade + m + 1) : ℝ) =
        f.units ((k + 1) * f.binade + m) + 2 ^ k := by
      rw [hnext, hunits]
      push_cast
      ring
    linarith

/-- A magnitude is close to what lies between the midpoints next to it. -/
theorem abs_units_sub_le {q : ℕ} {root : ℝ} (hq : q ≠ 0) (hroot : 0 ≤ root)
    (hbelow : (f.midpoint q : ℝ) ≤ 2 * root) (habove : 2 * root < f.midpoint (q + 1)) :
    |(f.units q : ℝ) - root| ≤ root / 2 ^ f.precision + 1 / 2 := by
  rw [midpoint] at hbelow habove
  push_cast at hbelow habove
  have hgap := f.units_succ_le q
  have hgap' := f.units_succ_le (q - 1)
  rw [Nat.sub_add_cancel (Nat.pos_of_ne_zero hq)] at hgap'
  have hscale : root / 2 ^ f.precision = root / 2 ^ (f.precision - 1) / 2 := by
    have hpow : (2 : ℝ) ^ f.precision = 2 ^ (f.precision - 1) * 2 := by
      rw [← pow_succ, Nat.sub_add_cancel f.precision_pos]
    rw [hpow, div_div]
  have hdivide {y : ℝ} (h : y ≤ root) :
      y / 2 ^ (f.precision - 1) ≤ root / 2 ^ (f.precision - 1) :=
    div_le_div_of_nonneg_right h (by positivity)
  rw [hscale, abs_le]
  constructor
  · rcases le_total (f.units q : ℝ) root with hle | hge
    · linarith [hdivide hle]
    · have : 0 ≤ root / 2 ^ (f.precision - 1) := by positivity
      linarith
  · have hstep : (f.units (q - 1) : ℝ) ≤ f.units q := by
      exact_mod_cast f.units_strictMono.monotone (Nat.sub_le q 1)
    have hle : (f.units (q - 1) : ℝ) ≤ root := by linarith
    linarith [hdivide hle]

end FloatFormat

namespace Binary

variable {f : FloatFormat} {x : Binary f}

/-- The root of a finite magnitude lies below the midpoint next to infinity. -/
theorem square_lt_midpoint_top {r : ℕ} (hr : r < f.top) :
    4 * (f.units r * f.one) < f.midpoint f.top * f.midpoint f.top := by
  obtain ⟨o, ho, -, hone, -⟩ := exists_one f
  have hlow (n : ℕ) (hn : n < f.top) : f.units n ≤ f.units (f.top - 1) :=
    f.units_strictMono.monotone (by omega)
  have htop : f.units (f.top - 1) < f.units f.top := f.units_strictMono (by omega)
  have hle : f.units r * f.one ≤ f.units (f.top - 1) * f.units (f.top - 1) :=
    Nat.mul_le_mul (hlow r hr) (hone ▸ hlow o.val (by omega))
  have hmid : 2 * f.units (f.top - 1) < f.midpoint f.top := by
    rw [FloatFormat.midpoint]
    omega
  calc 4 * (f.units r * f.one) ≤ 4 * (f.units (f.top - 1) * f.units (f.top - 1)) :=
        Nat.mul_le_mul_left 4 hle
    _ = 2 * f.units (f.top - 1) * (2 * f.units (f.top - 1)) := by ring
    _ < f.midpoint f.top * f.midpoint f.top := Nat.mul_lt_mul'' hmid hmid

theorem midpoint_one (f : FloatFormat) : f.midpoint 1 = 1 := by
  have hb := f.binade_pos
  rw [FloatFormat.midpoint, Nat.sub_self, f.units_zero, f.units_of_lt (by omega)]

/-- The rung of a square root, between the two midpoints next to the exact one. -/
theorem exists_sqrt_eq (r : Fin (f.top + 1)) (hr : r.val ≠ f.top) (h0 : r.val ≠ 0) :
    ∃ q : Fin (f.top + 1), q.val ≠ f.top ∧ q.val ≠ 0 ∧ (num false r).sqrt = num false q ∧
      f.midpoint q.val ^ 2 ≤ 4 * (f.units r.val * f.one) ∧
      4 * (f.units r.val * f.one) < f.midpoint (q.val + 1) ^ 2 := by
  have hbound : 4 * (f.units r.val * f.one) < f.midpoint f.top * f.midpoint f.top :=
    square_lt_midpoint_top (by omega)
  set square := 4 * (f.units r.val * f.one) with hsquare
  set passes : ℕ → Bool := fun n => n ≤ f.top ∧ f.midpoint n * f.midpoint n ≤ square with hpasses
  have hzero : passes 0 = true := by
    simp [hpasses, FloatFormat.midpoint, f.units_zero]
  have hwidth := f.top_lt_two_pow_width
  have hend : passes (0 + 2 ^ f.width) = false := by
    simp only [hpasses, decide_eq_false_iff_not, not_and]
    omega
  obtain ⟨hpass, hfail⟩ := greatestPassing_spec f.width 0 hzero hend
  have hsqrt : (num false r).sqrt = ofRung false (greatestPassing passes f.width 0) := by
    rw [sqrt, if_neg h0, if_neg Bool.false_ne_true, if_neg hr]
  generalize greatestPassing passes f.width 0 = q at hpass hfail hsqrt
  simp only [hpasses, decide_eq_true_eq, decide_eq_false_iff_not, not_and, not_le] at hpass hfail
  obtain ⟨hqtop, hmid⟩ := hpass
  have hne : q ≠ f.top := by
    rintro rfl
    omega
  have hpos : q ≠ 0 := by
    rintro rfl
    have hlt := hfail (by omega)
    rw [midpoint_one] at hlt
    have : 1 ≤ f.units r.val * f.one := Nat.mul_pos (units_pos h0) f.one_pos
    omega
  refine ⟨⟨q, by omega⟩, hne, hpos, ?_, by rw [pow_two]; exact hmid, ?_⟩
  · rw [hsqrt, ofRung]
    exact congrArg (num false) (Fin.ext (Nat.min_eq_right hqtop))
  · rw [pow_two]
    exact hfail (by omega)

/-- The root of a magnitude, in units. -/
theorem sqrt_value (r : Fin (f.top + 1)) :
    Real.sqrt ((num false r : Binary f).value : ℝ) = Real.sqrt (f.units r.val * f.one) / f.one := by
  have hone : (0 : ℝ) < f.one := Nat.cast_pos.mpr f.one_pos
  rw [value_num, if_neg Bool.false_ne_true, one_mul]
  push_cast
  rw [← Real.sqrt_sq hone.le, ← Real.sqrt_div (by positivity), Real.sqrt_sq hone.le]
  congr 1
  field_simp

/-- The square root of a finite number that is positive. -/
theorem rounds_sqrt_num (r : Fin (f.top + 1)) (hr : r.val ≠ f.top) (h0 : r.val ≠ 0) :
    (num false r : Binary f).sqrt.Rounds (Real.sqrt (num false r : Binary f).value) := by
  obtain ⟨q, hq, hq0, hsqrt, hlower, hupper⟩ := exists_sqrt_eq r hr h0
  have hone : (0 : ℝ) < f.one := Nat.cast_pos.mpr f.one_pos
  rw [sqrt_value, hsqrt]
  set root := Real.sqrt (f.units r.val * f.one) with hroot
  have hroot0 : 0 ≤ root := Real.sqrt_nonneg _
  have hsq : root ^ 2 = f.units r.val * f.one := Real.sq_sqrt (by positivity)
  have hbelow : (f.midpoint q.val : ℝ) ≤ 2 * root := by
    refine le_of_sq_le_sq ?_ (by positivity)
    rw [mul_pow, hsq]
    exact_mod_cast hlower
  have habove : 2 * root < f.midpoint (q.val + 1) := by
    refine lt_of_pow_lt_pow_left₀ 2 (by positivity) ?_
    rw [mul_pow, hsq]
    exact_mod_cast hupper
  have herror := f.abs_units_sub_le hq0 hroot0 hbelow habove
  refine ⟨bne_iff_ne.mpr hq, ?_⟩
  rw [value_num, if_neg Bool.false_ne_true, one_mul]
  push_cast
  rw [← sub_div, abs_div, abs_div, abs_of_pos hone, abs_of_nonneg hroot0]
  calc |(f.units q.val : ℝ) - root| / f.one
      ≤ (root / 2 ^ f.precision + 1 / 2) / f.one := div_le_div_of_nonneg_right herror hone.le
    _ = root / f.one / 2 ^ f.precision + 1 / (2 * f.one) := by field_simp

/-- The square root of a finite number that is not negative. -/
theorem rounds_sqrt (hx : x.isFinite = true) (hnonneg : 0 ≤ x.value) :
    x.sqrt.Rounds (Real.sqrt x.value) := by
  cases x with
  | nan => cases hx
  | num s r =>
    have hr : r.val ≠ f.top := bne_iff_ne.mp hx
    by_cases h0 : r.val = 0
    · have hsqrt : (num s r : Binary f).sqrt = num s r := by rw [sqrt, if_pos h0]
      have hvalue : (num s r : Binary f).value = 0 := by
        rw [value_num, h0, f.units_zero]
        simp
      rw [hsqrt, hvalue, Rat.cast_zero, Real.sqrt_zero]
      refine ⟨hx, ?_⟩
      rw [hvalue]
      simp
    · have hsign : s = false := by
        by_contra hs
        rw [value_num, if_pos (Bool.eq_true_of_not_eq_false hs)] at hnonneg
        have hpos : (0 : ℚ) < f.units r.val / f.one :=
          div_pos (Nat.cast_pos.mpr (units_pos h0)) (Nat.cast_pos.mpr f.one_pos)
        linarith
      rw [hsign]
      exact rounds_sqrt_num r hr h0

end Binary

end StandardForm
