import StandardForm.Proofs.Binary.Rounding

/-!
# When rounding overflows

Infinity is the rung above the greatest finite one, so a fraction overflows when it is nearer to
that rung than to the greatest finite one. It is an even rung, so a fraction halfway between the two
overflows as well: the results that stay finite are those strictly below the midpoint.
-/

namespace StandardForm

theorem roundHalfEven_lt_iff {num den n : ℕ} (hden : 0 < den) (hpos : 0 < n) (heven : n % 2 = 0) :
    roundHalfEven num den < n ↔ 2 * num < (2 * n - 1) * den := by
  have hdiv := Nat.div_add_mod num den
  have hmod := Nat.mod_lt num hden
  have hlower := div_le_roundHalfEven num den
  have hupper := roundHalfEven_le num den
  -- The quotient decides unless it is the odd number before `n`.
  rcases Nat.lt_trichotomy (num / den + 1) n with hlt | heq | hgt
  · have hle : den * (num / den + 2) ≤ den * n := Nat.mul_le_mul_left den hlt
    have hsplit : (2 * n - 1) * den + den = 2 * (den * n) := by
      rw [← Nat.succ_mul, Nat.succ_eq_add_one, Nat.sub_add_cancel (by omega)]
      ring
    rw [Nat.mul_add] at hle
    exact iff_of_true (by omega) (by omega)
  · obtain rfl := heq
    have hsplit : (2 * (num / den + 1) - 1) * den = 2 * (den * (num / den)) + den := by
      rw [show 2 * (num / den + 1) - 1 = 2 * (num / den) + 1 by omega]
      ring
    rw [hsplit]
    unfold roundHalfEven
    dsimp only
    split <;> omega
  · have hle : den * n ≤ den * (num / den) := Nat.mul_le_mul_left den (by omega)
    have hsplit : (2 * n - 1) * den + den = 2 * (den * n) := by
      rw [← Nat.succ_mul, Nat.succ_eq_add_one, Nat.sub_add_cancel (by omega)]
      ring
    exact iff_of_false (by omega) (by omega)

namespace FloatFormat

variable (f : FloatFormat) {num den : ℕ}

/-- The number of binades below the last finite one. -/
def lastScale : ℕ := f.top / f.binade - 2

theorem top_eq_lastScale : f.top = f.lastScale * f.binade + 2 * f.binade := by
  have h := f.top_eq
  rw [Nat.succ_mul] at h
  rw [lastScale]
  omega

theorem midpoint_top : f.midpoint f.top = (2 * (2 * f.binade) - 1) * 2 ^ f.lastScale := by
  have hpos := f.binade_pos
  have htop := f.top_eq_lastScale
  have hbelow : f.top - 1 = f.lastScale * f.binade + (2 * f.binade - 1) := by omega
  rw [midpoint, hbelow, htop, f.units_scale le_rfl (by omega), f.units_scale (by omega) (by omega),
    ← Nat.add_mul]
  congr 1
  omega

/-- Twice a magnitude in a binade below the last finite one is below the midpoint. -/
theorem two_pow_le_midpoint {s : ℕ} (h : s < f.lastScale) :
    2 * 2 ^ (s + f.precision) ≤ f.midpoint f.top := by
  have hpos := f.binade_pos
  have hle : 2 * 2 ^ s ≤ 2 ^ f.lastScale := by
    rw [← Nat.pow_succ']
    exact Nat.pow_le_pow_right Nat.two_pos h
  calc 2 * 2 ^ (s + f.precision) = 2 * f.binade * (2 * 2 ^ s) := by
        rw [f.two_mul_binade, Nat.pow_add]
        ring
    _ ≤ (2 * (2 * f.binade) - 1) * 2 ^ f.lastScale := Nat.mul_le_mul (by omega) hle
    _ = f.midpoint f.top := f.midpoint_top.symm

/-- Twice a magnitude in a binade above the last finite one is not below the midpoint. -/
theorem midpoint_le_two_pow {s : ℕ} (h : f.lastScale < s) :
    f.midpoint f.top ≤ 2 * 2 ^ (s + (f.precision - 1)) := by
  have hle : 2 * 2 ^ f.lastScale ≤ 2 ^ s := by
    rw [← Nat.pow_succ']
    exact Nat.pow_le_pow_right Nat.two_pos h
  calc f.midpoint f.top = (2 * (2 * f.binade) - 1) * 2 ^ f.lastScale := f.midpoint_top
    _ ≤ 2 * (2 * f.binade) * 2 ^ f.lastScale := Nat.mul_le_mul_right _ (Nat.sub_le _ _)
    _ = 2 * f.binade * (2 * 2 ^ f.lastScale) := by ring
    _ ≤ 2 * f.binade * 2 ^ s := Nat.mul_le_mul_left _ hle
    _ = 2 * 2 ^ (s + (f.precision - 1)) := by rw [f.binade_eq, Nat.pow_add]; ring

/-- A fraction stays finite exactly when it lies below the midpoint of the last two rungs. -/
theorem nearest_ne_top_iff (hden : 0 < den) :
    (f.nearest num den).val ≠ f.top ↔ 2 * num < f.midpoint f.top * den := by
  set s := f.scaleOf (num / den) with hs
  have hpos := f.binade_pos
  have htop := f.top_eq_lastScale
  have hval : (f.nearest num den).val =
      min f.top (s * f.binade + roundHalfEven num (den * 2 ^ s)) := nearest_val num den
  rw [hval]
  rcases Nat.lt_trichotomy s f.lastScale with hlt | heq | hgt
  · have hround : roundHalfEven num (den * 2 ^ s) ≤ 2 * f.binade := roundHalfEven_scale_le hden
    have hscale : (s + 1) * f.binade ≤ f.lastScale * f.binade := Nat.mul_le_mul_right _ hlt
    rw [Nat.succ_mul] at hscale
    have hquotient : num < 2 ^ (s + f.precision) * den :=
      (Nat.div_lt_iff_lt_mul hden).mp (f.lt_two_pow_scaleOf (num / den))
    refine iff_of_true (by omega) ?_
    calc 2 * num < 2 * (2 ^ (s + f.precision) * den) := by omega
      _ = 2 * 2 ^ (s + f.precision) * den := by ring
      _ ≤ f.midpoint f.top * den := Nat.mul_le_mul_right den (f.two_pow_le_midpoint hlt)
  · have hlt : roundHalfEven num (den * 2 ^ s) < 2 * f.binade ↔
        2 * num < (2 * (2 * f.binade) - 1) * (den * 2 ^ s) :=
      roundHalfEven_lt_iff (Nat.mul_pos hden (Nat.two_pow_pos s)) (by omega) (by omega)
    have hfactor : (2 * (2 * f.binade) - 1) * (den * 2 ^ s) = f.midpoint f.top * den := by
      rw [f.midpoint_top, heq]
      ring
    rw [← hfactor, ← hlt, heq]
    omega
  · have hround : f.binade ≤ roundHalfEven num (den * 2 ^ s) :=
      binade_le_roundHalfEven_scale hden (by omega)
    have hscale : (f.lastScale + 1) * f.binade ≤ s * f.binade := Nat.mul_le_mul_right _ hgt
    rw [Nat.succ_mul] at hscale
    have hquotient : 2 ^ (s + (f.precision - 1)) * den ≤ num :=
      (Nat.le_div_iff_mul_le hden).mp (f.two_pow_scaleOf_le (by omega))
    refine iff_of_false (by omega) (Nat.not_lt.mpr ?_)
    calc f.midpoint f.top * den ≤ 2 * 2 ^ (s + (f.precision - 1)) * den :=
          Nat.mul_le_mul_right den (f.midpoint_le_two_pow hgt)
      _ = 2 * (2 ^ (s + (f.precision - 1)) * den) := by ring
      _ ≤ 2 * num := Nat.mul_le_mul_left 2 hquotient

end FloatFormat

namespace Binary

variable {f : FloatFormat} {x y : Binary f}

/-- The least magnitude that is rounded to infinity, halfway between the greatest finite magnitude
and the next power of two. -/
def overflow (f : FloatFormat) : ℚ := f.midpoint f.top / (2 * f.one)

/-- A sum is finite exactly when the exact sum is rounded to a finite number. -/
theorem isFinite_add_iff (hx : x.isFinite = true) (hy : y.isFinite = true) :
    (x + y).isFinite = true ↔ |x.value + y.value| < overflow f := by
  cases x with
  | nan => cases hx
  | num s r =>
    cases y with
    | nan => cases hy
    | num t q =>
      have hone : (0 : ℚ) < f.one := Nat.cast_pos.mpr f.one_pos
      rw [add_num _ _ _ _ (bne_iff_ne.mp hx) (bne_iff_ne.mp hy), value, value, ← add_div,
        ← Int.cast_add]
      generalize signedUnits (f := f) s r.val + signedUnits (f := f) t q.val = sum
      have hbound : |(sum : ℚ) / f.one| < overflow f ↔ 2 * sum.natAbs < f.midpoint f.top * 1 := by
        rw [abs_div, Nat.abs_cast, ← Int.cast_abs, ← Nat.cast_natAbs, overflow,
          div_lt_div_iff₀ hone (by positivity), ← mul_assoc, mul_lt_mul_iff_of_pos_right hone,
          mul_comm, Nat.mul_one]
        norm_cast
      rw [hbound, ← f.nearest_ne_top_iff Nat.one_pos]
      dsimp only
      split
      · next hzero =>
        rw [hzero]
        exact iff_of_true (isFinite_zeroOf _) (FloatFormat.nearest_ne_top Nat.one_pos
          (Nat.zero_le _))
      · exact bne_iff_ne

end Binary

end StandardForm
