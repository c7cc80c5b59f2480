import Mathlib.Data.Nat.Cast.Order.Field
import Mathlib.Data.Nat.Log
import Mathlib.Data.Real.Basic
import Mathlib.Tactic.Linarith
import StandardForm.Proofs.Binary.Arithmetic
import StandardForm.Proofs.Binary.Value

/-!
# How much rounding loses

The rung nearest to a fraction of units is found at the scale at which the fraction has as many
bits as a significand. At that scale rounding to an integer loses at most one half, so the
magnitude found differs from the fraction by at most half the distance between neighbouring
magnitudes: one half of a unit near zero, and elsewhere one part in `2 ^ precision` of the fraction.
Fractions up to the greatest power of two of the format do not overflow.
-/

namespace StandardForm

/-! ## Rounding to an integer -/

theorem roundHalfEven_error (num den : ℕ) (hden : 0 < den) :
    2 * num ≤ 2 * (roundHalfEven num den * den) + den ∧
      2 * (roundHalfEven num den * den) ≤ 2 * num + den := by
  have hdiv := Nat.div_add_mod num den
  have hmod := Nat.mod_lt num hden
  rw [Nat.mul_comm] at hdiv
  unfold roundHalfEven
  dsimp only
  split
  · next h => omega
  · next h =>
    rw [Nat.add_mul, Nat.one_mul]
    omega

theorem div_le_roundHalfEven (num den : ℕ) : num / den ≤ roundHalfEven num den := by
  unfold roundHalfEven
  dsimp only
  split <;> omega

theorem roundHalfEven_le_of_le_mul {num den n : ℕ} (hden : 0 < den) (h : num ≤ n * den) :
    roundHalfEven num den ≤ n := by
  rcases Nat.lt_or_ge num (n * den) with hlt | hge
  · exact (roundHalfEven_le num den).trans ((Nat.div_lt_iff_lt_mul hden).mpr hlt)
  · rw [Nat.le_antisymm h hge, roundHalfEven_exact n den hden]

namespace FloatFormat

variable (f : FloatFormat)

/-! ## Scales -/

/-- The scale at which a quotient has as many bits as a significand. -/
def scaleOf (quotient : ℕ) : ℕ := quotient.log2 + 1 - f.precision

theorem precision_pos : 0 < f.precision := by cases f <;> decide

theorem two_mul_binade : 2 * f.binade = 2 ^ f.precision := by
  rw [binade_eq, ← Nat.pow_succ', Nat.succ_eq_add_one, Nat.sub_add_cancel f.precision_pos]

theorem lt_two_pow_scaleOf (q : ℕ) : q < 2 ^ (f.scaleOf q + f.precision) := by
  refine Nat.lt_log2_self.trans_le (Nat.pow_le_pow_right Nat.two_pos ?_)
  unfold scaleOf
  omega

theorem two_pow_scaleOf_le {q : ℕ} (h : f.scaleOf q ≠ 0) :
    2 ^ (f.scaleOf q + (f.precision - 1)) ≤ q := by
  have hq : q ≠ 0 := by
    rintro rfl
    exact h (by cases f <;> decide)
  have hscale : f.scaleOf q + (f.precision - 1) = q.log2 := by
    have := f.precision_pos
    unfold scaleOf at h ⊢
    omega
  exact hscale ▸ Nat.log2_self_le hq

/-- At its scale a magnitude is a multiple of a power of two. -/
theorem units_scale {s m : ℕ} (hm : m ≤ 2 * f.binade) (hs : s ≠ 0 → f.binade ≤ m) :
    f.units (s * f.binade + m) = m * 2 ^ s := by
  have hfoot (k : ℕ) : f.units ((k + 1) * f.binade) = f.binade * 2 ^ k := by
    have h := f.units_binade k 0 f.binade_pos
    simpa using h
  rcases Nat.lt_or_ge m f.binade with hlt | hge
  · obtain rfl : s = 0 := by
      by_contra h
      exact absurd (hs h) (Nat.not_le.mpr hlt)
    simpa using f.units_of_lt (n := m) (by omega)
  · rcases Nat.lt_or_ge m (2 * f.binade) with hlt | hge'
    · have hrung : s * f.binade + m = (s + 1) * f.binade + (m - f.binade) := by
        rw [Nat.succ_mul]
        omega
      rw [hrung, f.units_binade _ _ (by omega), Nat.add_sub_cancel' hge]
    · obtain rfl : m = 2 * f.binade := Nat.le_antisymm hm hge'
      have hrung : s * f.binade + 2 * f.binade = (s + 1 + 1) * f.binade := by ring
      rw [hrung, hfoot, Nat.pow_succ]
      ring

/-! ## The nearest rung -/

variable {f} {num den : ℕ}

/-- The integer that the significand is rounded to. -/
theorem nearest_val (num den : ℕ) :
    (f.nearest num den).val = min f.top (f.scaleOf (num / den) * f.binade +
      roundHalfEven num (den * 2 ^ f.scaleOf (num / den))) := by
  simp only [nearest, scaleOf, Nat.shiftLeft_eq]

theorem roundHalfEven_scale_le (hden : 0 < den) :
    roundHalfEven num (den * 2 ^ f.scaleOf (num / den)) ≤ 2 * f.binade := by
  have hscale : 0 < 2 ^ f.scaleOf (num / den) := Nat.two_pow_pos _
  refine roundHalfEven_le_of_le_mul (Nat.mul_pos hden hscale) ?_
  have hlt := f.lt_two_pow_scaleOf (num / den)
  rw [Nat.div_lt_iff_lt_mul hden, Nat.pow_add] at hlt
  rw [f.two_mul_binade]
  calc num ≤ 2 ^ f.scaleOf (num / den) * 2 ^ f.precision * den := hlt.le
    _ = 2 ^ f.precision * (den * 2 ^ f.scaleOf (num / den)) := by ring

theorem binade_le_roundHalfEven_scale (hden : 0 < den) (h : f.scaleOf (num / den) ≠ 0) :
    f.binade ≤ roundHalfEven num (den * 2 ^ f.scaleOf (num / den)) := by
  refine le_trans ?_ (div_le_roundHalfEven _ _)
  have hle := f.two_pow_scaleOf_le h
  rw [Nat.le_div_iff_mul_le hden, Nat.pow_add] at hle
  rw [Nat.le_div_iff_mul_le (Nat.mul_pos hden (Nat.two_pow_pos _)), binade_eq]
  calc 2 ^ (f.precision - 1) * (den * 2 ^ f.scaleOf (num / den))
      = 2 ^ f.scaleOf (num / den) * 2 ^ (f.precision - 1) * den := by ring
    _ ≤ num := hle

/-- The magnitude of the nearest rung, unless it is infinity. -/
theorem units_nearest (hden : 0 < den) (h : (f.nearest num den).val ≠ f.top) :
    f.units (f.nearest num den).val =
      roundHalfEven num (den * 2 ^ f.scaleOf (num / den)) * 2 ^ f.scaleOf (num / den) := by
  rw [nearest_val] at h ⊢
  rw [Nat.min_eq_right (by omega)]
  exact f.units_scale (roundHalfEven_scale_le hden) (binade_le_roundHalfEven_scale hden)

/-- Rounding loses at most half the distance between neighbouring magnitudes. -/
theorem abs_units_nearest_sub_le_half (hden : 0 < den) (h : (f.nearest num den).val ≠ f.top) :
    |(f.units (f.nearest num den).val : ℚ) - num / den| ≤ 2 ^ f.scaleOf (num / den) / 2 := by
  set s := f.scaleOf (num / den) with hs
  have hpos : (0 : ℚ) < den := Nat.cast_pos.mpr hden
  obtain ⟨hupper, hlower⟩ :=
    roundHalfEven_error num (den * 2 ^ s) (Nat.mul_pos hden (Nat.two_pow_pos _))
  have hunits : f.units (f.nearest num den).val * den =
      roundHalfEven num (den * 2 ^ s) * (den * 2 ^ s) := by
    rw [units_nearest hden h]
    ring
  rw [← hunits] at hupper hlower
  have hupper' : 2 * (num : ℚ) ≤ 2 * (f.units (f.nearest num den).val * den) + den * 2 ^ s := by
    exact_mod_cast hupper
  have hlower' : 2 * (f.units (f.nearest num den).val * den) ≤ 2 * (num : ℚ) + den * 2 ^ s := by
    exact_mod_cast hlower
  have hfraction : (num / den : ℚ) * den = num := div_mul_cancel₀ _ hpos.ne'
  rw [abs_le]
  constructor
  · have hmul : (num / den : ℚ) * den ≤ (f.units (f.nearest num den).val + 2 ^ s / 2) * den := by
      linarith
    linarith [le_of_mul_le_mul_right hmul hpos]
  · have hmul : (f.units (f.nearest num den).val - 2 ^ s / 2 : ℚ) * den ≤
        (num / den : ℚ) * den := by
      linarith
    linarith [le_of_mul_le_mul_right hmul hpos]

/-- Half the distance between neighbouring magnitudes is small beside a fraction between them,
except below the least power of two. -/
theorem two_pow_scaleOf_half_le (num den : ℕ) :
    (2 : ℚ) ^ f.scaleOf (num / den) / 2 ≤ (num / den : ℚ) / 2 ^ f.precision + 1 / 2 := by
  have hnonneg : (0 : ℚ) ≤ (num / den : ℚ) / 2 ^ f.precision := by positivity
  by_cases hzero : f.scaleOf (num / den) = 0
  · rw [hzero]
    linarith
  · have hle : (2 : ℚ) ^ (f.scaleOf (num / den) + (f.precision - 1)) ≤ num / den := by
      have hquotient := f.two_pow_scaleOf_le hzero
      calc (2 : ℚ) ^ (f.scaleOf (num / den) + (f.precision - 1))
          ≤ ((num / den : ℕ) : ℚ) := by exact_mod_cast hquotient
        _ ≤ num / den := Nat.cast_div_le
    have hsplit : (2 : ℚ) ^ (f.scaleOf (num / den) + (f.precision - 1)) / 2 ^ f.precision =
        2 ^ f.scaleOf (num / den) / 2 := by
      rw [pow_add, ← Nat.sub_add_cancel f.precision_pos, pow_succ, Nat.add_sub_cancel]
      field_simp
    have hdivide : (2 : ℚ) ^ (f.scaleOf (num / den) + (f.precision - 1)) / 2 ^ f.precision ≤
        (num / den : ℚ) / 2 ^ f.precision := div_le_div_of_nonneg_right hle (by positivity)
    rw [← hsplit]
    linarith

theorem abs_units_nearest_sub_le (hden : 0 < den) (h : (f.nearest num den).val ≠ f.top) :
    |(f.units (f.nearest num den).val : ℚ) - num / den| ≤
      (num / den : ℚ) / 2 ^ f.precision + 1 / 2 :=
  (abs_units_nearest_sub_le_half hden h).trans (two_pow_scaleOf_half_le num den)

/-! ## Overflow -/

/-- The rung of the greatest power of two. -/
theorem top_eq (f : FloatFormat) : f.top = (f.top / f.binade - 2 + 1) * f.binade + f.binade := by
  have hdiv : f.top / f.binade = (1 <<< f.exponentWidth) - 1 :=
    Nat.mul_div_cancel _ f.binade_pos
  have hcount : (1 <<< f.exponentWidth) - 1 = (1 <<< f.exponentWidth) - 1 - 2 + 1 + 1 := by
    cases f <;> decide
  rw [hdiv]
  conv_lhs => rw [top, hcount, Nat.succ_mul]

/-- A fraction that does not exceed the greatest power of two does not overflow. -/
theorem nearest_ne_top (hden : 0 < den) (h : num ≤ f.units (f.top - f.binade) * den) :
    (f.nearest num den).val ≠ f.top := by
  set k := f.top / f.binade - 2 with hk
  have htop : f.top = (k + 1) * f.binade + f.binade := f.top_eq
  have hpos := f.binade_pos
  rw [htop, Nat.add_sub_cancel, units_mul_binade, Nat.add_comm (f.precision - 1)] at h
  have hquotient : num / den ≤ 2 ^ (k + (f.precision - 1)) :=
    Nat.div_le_of_le_mul (by rwa [Nat.mul_comm])
  have hscale : f.scaleOf (num / den) ≤ k := by
    by_contra hlt
    have hle := f.two_pow_scaleOf_le (q := num / den) (by omega)
    exact absurd (hle.trans hquotient) (Nat.not_le.mpr (Nat.pow_lt_pow_right Nat.one_lt_two
      (by omega)))
  rw [nearest_val]
  rcases Nat.lt_or_eq_of_le hscale with hlt | heq
  · have hle : roundHalfEven num (den * 2 ^ f.scaleOf (num / den)) ≤ 2 * f.binade :=
      roundHalfEven_scale_le hden
    have hmul : (f.scaleOf (num / den) + 1) * f.binade ≤ k * f.binade :=
      Nat.mul_le_mul_right _ hlt
    rw [Nat.succ_mul] at hmul htop
    omega
  · have hle : roundHalfEven num (den * 2 ^ f.scaleOf (num / den)) ≤ f.binade := by
      refine roundHalfEven_le_of_le_mul (Nat.mul_pos hden (Nat.two_pow_pos _)) ?_
      rw [heq, binade_eq]
      calc num ≤ 2 ^ (k + (f.precision - 1)) * den := h
        _ = 2 ^ (f.precision - 1) * (den * 2 ^ k) := by rw [Nat.pow_add]; ring
    rw [Nat.succ_mul] at htop
    rw [heq] at hle ⊢
    omega

end FloatFormat

namespace Binary

variable {f : FloatFormat} {x y : Binary f}

def greatestPower (f : FloatFormat) : ℚ := f.units (f.top - f.binade) / f.one

/-- A number is finite and as close to a given one as rounding leaves it. -/
structure Rounds (x : Binary f) (z : ℝ) : Prop where
  isFinite : x.isFinite = true
  error : |(x.value : ℝ) - z| ≤ |z| / 2 ^ f.precision + 1 / (2 * f.one)

theorem Rounds.of_rat {q : ℚ} (hx : x.isFinite = true)
    (h : |x.value - q| ≤ |q| / 2 ^ f.precision + 1 / (2 * f.one)) : x.Rounds q := by
  have hreal := (Rat.cast_le (K := ℝ)).mpr h
  push_cast at hreal
  exact ⟨hx, hreal⟩

theorem value_num (s : Bool) (r : Fin (f.top + 1)) :
    (num s r : Binary f).value = (if s then -1 else 1) * (f.units r.val / f.one) := by
  cases s <;> simp [value, signedUnits, neg_div]

/-- Rounding a signed fraction of units up to the greatest power of two. -/
theorem rounds_round (s : Bool) {num den : ℕ} (hden : 0 < den)
    (h : (num / den : ℚ) / f.one ≤ greatestPower f) :
    (round s num den : Binary f).Rounds
      (((if s then -1 else 1) * ((num / den : ℚ) / f.one) : ℚ)) := by
  have hone : (0 : ℚ) < f.one := Nat.cast_pos.mpr f.one_pos
  have hle : num ≤ f.units (f.top - f.binade) * den := by
    rw [greatestPower, div_le_div_iff_of_pos_right hone,
      div_le_iff₀ (Nat.cast_pos.mpr hden)] at h
    exact_mod_cast h
  have htop := FloatFormat.nearest_ne_top hden hle
  have herror := FloatFormat.abs_units_nearest_sub_le hden htop
  refine .of_rat (bne_iff_ne.mpr htop) ?_
  have hsign : |(if s then -1 else 1 : ℚ)| = 1 := by cases s <;> simp
  have hnonneg : (0 : ℚ) ≤ num / den := by positivity
  rw [round, value_num, ← mul_sub, ← sub_div, abs_mul, abs_mul, hsign, one_mul, one_mul, abs_div,
    abs_div, abs_of_pos hone, abs_of_nonneg hnonneg]
  calc |(f.units (f.nearest num den).val : ℚ) - num / den| / f.one
      ≤ ((num / den : ℚ) / 2 ^ f.precision + 1 / 2) / f.one :=
        div_le_div_of_nonneg_right herror hone.le
    _ = (num / den : ℚ) / f.one / 2 ^ f.precision + 1 / (2 * f.one) := by
        field_simp

theorem value_zeroOf (s : Bool) : (zeroOf s : Binary f).value = 0 := by
  rw [zeroOf, value_num, f.units_zero]
  simp

theorem isFinite_zeroOf (s : Bool) : (zeroOf s : Binary f).isFinite = true :=
  bne_iff_ne.mpr f.top_ne_zero.symm

/-- The sum of two finite numbers. -/
theorem rounds_add (hx : x.isFinite = true) (hy : y.isFinite = true)
    (h : |(x.value : ℝ) + y.value| ≤ greatestPower f) : (x + y).Rounds (x.value + y.value) := by
  rw [← Rat.cast_add] at h ⊢
  have h : |x.value + y.value| ≤ greatestPower f := by exact_mod_cast h
  cases x with
  | nan => cases hx
  | num s r =>
    cases y with
    | nan => cases hy
    | num t q =>
      have hr : r.val ≠ f.top := bne_iff_ne.mp hx
      have hq : q.val ≠ f.top := bne_iff_ne.mp hy
      rw [add_num _ _ _ _ hr hq]
      dsimp only
      have hvalue : (num s r : Binary f).value + (num t q : Binary f).value =
          ((signedUnits (f := f) s r.val + signedUnits (f := f) t q.val : ℤ) : ℚ) / f.one := by
        rw [value, value, ← add_div, Int.cast_add]
      rw [hvalue] at h ⊢
      generalize signedUnits (f := f) s r.val + signedUnits (f := f) t q.val = sum at h ⊢
      by_cases hsum : sum = 0
      · rw [if_pos hsum, hsum, Int.cast_zero, zero_div]
        refine .of_rat (isFinite_zeroOf _) ?_
        rw [value_zeroOf]
        simp
      · have hcast : ((sum.natAbs : ℕ) : ℚ) = |(sum : ℚ)| := by
          rw [Nat.cast_natAbs, Int.cast_abs]
        have hsign : (sum : ℚ) / f.one =
            (if decide (sum < 0) then -1 else 1) * ((sum.natAbs / (1 : ℕ) : ℚ) / f.one) := by
          rcases lt_or_ge sum 0 with hneg | hnonneg
          · have hneg' : (sum : ℚ) < 0 := Int.cast_lt_zero.mpr hneg
            simp [hneg, hcast, abs_of_neg hneg', neg_div]
          · have hnonneg' : (0 : ℚ) ≤ sum := by exact_mod_cast hnonneg
            simp [not_lt.mpr hnonneg, hcast, abs_of_nonneg hnonneg']
        have hbound : (sum.natAbs / (1 : ℕ) : ℚ) / f.one ≤ greatestPower f := by
          refine le_trans (le_of_eq ?_) h
          rw [abs_div, Nat.abs_cast, Nat.cast_one, div_one, hcast]
        rw [if_neg hsum, hsign]
        exact rounds_round _ Nat.one_pos hbound

theorem value_neg (x : Binary f) : (-x).value = -x.value := by
  cases x with
  | nan => exact neg_zero.symm
  | num s r =>
    change (num (!s) r : Binary f).value = _
    rw [value_num, value_num]
    cases s <;> simp

theorem isFinite_neg (x : Binary f) : (-x).isFinite = x.isFinite := by
  cases x <;> rfl

/-- The difference of two finite numbers. -/
theorem rounds_sub (hx : x.isFinite = true) (hy : y.isFinite = true)
    (h : |(x.value : ℝ) - y.value| ≤ greatestPower f) : (x - y).Rounds (x.value - y.value) := by
  have hneg : ((-y).value : ℝ) = -y.value := by rw [value_neg, Rat.cast_neg]
  have hsum := rounds_add (y := -y) hx (by rw [isFinite_neg, hy])
  rw [hneg, ← sub_eq_add_neg] at hsum
  exact hsum h

theorem sign_mul (s t : Bool) :
    (if (s != t) = true then -1 else 1 : ℚ) = (if s then -1 else 1) * (if t then -1 else 1) := by
  cases s <;> cases t <;> simp

theorem abs_sign_mul (s : Bool) {a : ℚ} (ha : 0 ≤ a) : |(if s then -1 else 1) * a| = a := by
  cases s <;> simp [abs_of_nonneg ha]

theorem abs_value_num (s : Bool) (r : Fin (f.top + 1)) :
    |(num s r : Binary f).value| = f.units r.val / f.one := by
  rw [value_num, abs_sign_mul _ (by positivity)]

/-- The product of two finite numbers. -/
theorem rounds_mul (hx : x.isFinite = true) (hy : y.isFinite = true)
    (h : |(x.value : ℝ) * y.value| ≤ greatestPower f) : (x * y).Rounds (x.value * y.value) := by
  rw [← Rat.cast_mul] at h ⊢
  have h : |x.value * y.value| ≤ greatestPower f := by exact_mod_cast h
  cases x with
  | nan => cases hx
  | num s r =>
    cases y with
    | nan => cases hy
    | num t q =>
      have hr : r.val ≠ f.top := bne_iff_ne.mp hx
      have hq : q.val ≠ f.top := bne_iff_ne.mp hy
      have hmul : (num s r * num t q : Binary f) =
          round (s != t) (f.units r.val * f.units q.val) f.one := by
        change mul _ _ = _
        simp [mul, hr, hq]
      have hvalue : (num s r : Binary f).value * (num t q : Binary f).value =
          (if (s != t) = true then -1 else 1) *
            (((f.units r.val * f.units q.val : ℕ) / f.one : ℚ) / f.one) := by
        rw [value_num, value_num, sign_mul]
        push_cast
        ring
      rw [hvalue, abs_sign_mul _ (by positivity)] at h
      rw [hmul, hvalue]
      exact rounds_round _ f.one_pos h

/-- The quotient of two finite numbers, the second of them not zero. -/
theorem rounds_div (hx : x.isFinite = true) (hy : y.isFinite = true) (hzero : y.isZero = false)
    (h : |(x.value : ℝ) / y.value| ≤ greatestPower f) : (x / y).Rounds (x.value / y.value) := by
  rw [← Rat.cast_div] at h ⊢
  have h : |x.value / y.value| ≤ greatestPower f := by exact_mod_cast h
  cases x with
  | nan => cases hx
  | num s r =>
    cases y with
    | nan => cases hy
    | num t q =>
      have hr : r.val ≠ f.top := bne_iff_ne.mp hx
      have hq : q.val ≠ f.top := bne_iff_ne.mp hy
      have hq0 : q.val ≠ 0 := beq_eq_false_iff_ne.mp hzero
      have hunits : 0 < f.units q.val := Nat.pos_of_ne_zero fun h => hq0 (units_eq_zero_iff.mp h)
      have hdiv : (num s r / num t q : Binary f) =
          round (s != t) (f.units r.val * f.one) (f.units q.val) := by
        change div _ _ = _
        simp [div, hr, hq, hq0]
      have hvalue : (num s r : Binary f).value / (num t q : Binary f).value =
          (if (s != t) = true then -1 else 1) *
            (((f.units r.val * f.one : ℕ) / f.units q.val : ℚ) / f.one) := by
        have hone : (f.one : ℚ) ≠ 0 := Nat.cast_ne_zero.mpr f.one_pos.ne'
        have hunits' : (f.units q.val : ℚ) ≠ 0 := Nat.cast_ne_zero.mpr hunits.ne'
        rw [value_num, value_num, sign_mul]
        push_cast
        cases t <;> field_simp <;> simp
      rw [hvalue, abs_sign_mul _ (by positivity)] at h
      rw [hdiv, hvalue]
      exact rounds_round _ hunits h

/-! ## The size of what rounding loses -/

theorem eight_le_two_pow_precision (f : FloatFormat) : (8 : ℝ) ≤ 2 ^ f.precision := by
  have h : 3 ≤ f.precision := by cases f <;> decide
  calc (8 : ℝ) = 2 ^ 3 := by norm_num
    _ ≤ 2 ^ f.precision := pow_le_pow_right₀ (by norm_num) h

theorem two_pow_precision_le_one (f : FloatFormat) : (2 : ℝ) ^ f.precision ≤ f.one := by
  have h : f.precision ≤ f.scale := by cases f <;> decide
  rw [f.one_eq]
  push_cast
  exact pow_le_pow_right₀ (by norm_num) h

/-- Half a unit is at most half of one rounding of one. -/
theorem half_unit_le (f : FloatFormat) : 1 / (2 * (f.one : ℝ)) ≤ 1 / 2 ^ f.precision / 2 := by
  rw [div_div, mul_comm (2 : ℝ)]
  exact one_div_le_one_div_of_le (by positivity)
    (mul_le_mul_of_nonneg_right (two_pow_precision_le_one f) (by norm_num))

theorem eight_mul_rounding_le (f : FloatFormat) : 8 * (1 / 2 ^ f.precision : ℝ) ≤ 1 := by
  rw [mul_one_div, div_le_one (by positivity)]
  exact eight_le_two_pow_precision f

theorem rounding_le_eighth {z : ℝ} (hz : 0 ≤ z) : z / 2 ^ f.precision ≤ z / 8 :=
  div_le_div_of_nonneg_left hz (by norm_num) (eight_le_two_pow_precision f)

/-- What rounding can give is little more than the number rounded, if one unit is not much. -/
theorem Rounds.abs_le {z B D : ℝ} (h : x.Rounds z) (hz : |z| ≤ B) (hD : 1 / (f.one : ℝ) ≤ D) :
    |(x.value : ℝ)| ≤ 9 / 8 * B + D / 2 := by
  have hsplit : |(x.value : ℝ)| ≤ |(x.value : ℝ) - z| + |z| := by
    simpa using abs_add_le ((x.value : ℝ) - z) z
  have hround := rounding_le_eighth (f := f) (abs_nonneg z)
  have hhalf : 1 / (2 * (f.one : ℝ)) = 1 / f.one / 2 := by field_simp
  have herror := h.error
  rw [hhalf] at herror
  linarith

theorem abs_value_pos (hx : x.isFinite = true) (hzero : x.isZero = false) :
    0 < |(x.value : ℝ)| := by
  refine abs_pos.mpr (Rat.cast_ne_zero.mpr fun h => Bool.eq_false_iff.mp hzero ?_)
  exact (value_eq_zero_iff (isNaN_of_isFinite hx)).mp h

/-- A quotient times its divisor is the dividend, up to one rounding of it and what the divisor
makes of half a unit. -/
theorem abs_mul_div_sub_le (hx : x.isFinite = true) (hy : y.isFinite = true)
    (hzero : y.isZero = false) (h : |(x.value : ℝ) / y.value| ≤ greatestPower f) :
    |(y.value : ℝ) * (x / y).value - x.value| ≤
      1 / 2 ^ f.precision * |(x.value : ℝ)| + |(y.value : ℝ)| * (1 / (2 * f.one)) := by
  have hpos := abs_value_pos hy hzero
  have hscaled : (y.value : ℝ) * (x / y).value - x.value =
      y.value * ((x / y).value - x.value / y.value) := by
    rw [mul_sub, mul_div_cancel₀ _ (abs_pos.mp hpos)]
  rw [hscaled, abs_mul]
  refine (mul_le_mul_of_nonneg_left (rounds_div hx hy hzero h).error hpos.le).trans_eq ?_
  rw [abs_div]
  field_simp

end Binary

end StandardForm
