import StandardForm.Proofs.Binary.Monotone
import StandardForm.Proofs.Binary.SquareRoot
import StandardForm.Proofs.Binary.Vectors

/-!
# Lengths that vanish

A fraction is rounded to zero if it does not exceed half of the least magnitude. So the square of a
number may be zero although the number is not, while a sum of magnitudes is zero only if all of them
are, and a root only if its argument is. The computed length of a list of finite numbers is zero
exactly if all squares vanish, and infinite exactly if their sum overflows.
-/

namespace StandardForm

namespace FloatFormat

variable {f : FloatFormat} {num den : ℕ}

theorem scaleOf_zero (f : FloatFormat) : f.scaleOf 0 = 0 := by cases f <;> decide

/-- A fraction up to half a unit is rounded to zero. -/
theorem nearest_eq_zero_iff (hden : 0 < den) : (f.nearest num den).val = 0 ↔ 2 * num ≤ den := by
  have htop := f.top_ne_zero
  rcases Nat.lt_or_ge num den with hlt | hge
  · rw [nearest_val, Nat.div_eq_of_lt hlt, scaleOf_zero, Nat.zero_mul, Nat.zero_add, Nat.pow_zero,
      Nat.mul_one, roundHalfEven, Nat.div_eq_of_lt hlt, Nat.mod_eq_of_lt hlt]
    split <;> omega
  · have hone : f.units 1 = 1 := f.units_of_lt (by have := f.binade_pos; omega)
    have hle : 1 ≤ (f.nearest num den).val :=
      f.le_nearest hden (Nat.pos_of_ne_zero htop) (by rwa [hone, Nat.one_mul])
    omega

end FloatFormat

namespace Binary

variable {f : FloatFormat} {x : Binary f} {xs : List (Binary f)}

/-- A number that is not zero has its own sign and units. -/
theorem round_signedUnits (s : Bool) {r : Fin (f.top + 1)} (h0 : r.val ≠ 0) :
    signedUnits (f := f) s r.val ≠ 0 ∧
      round (decide (signedUnits (f := f) s r.val < 0)) (signedUnits (f := f) s r.val).natAbs 1 =
        num s r := by
  have hpos := units_pos (f := f) h0
  have habs : (signedUnits (f := f) s r.val).natAbs = f.units r.val := by
    cases s <;> simp [signedUnits]
  have hsign : decide (signedUnits (f := f) s r.val < 0) = s := by
    cases s <;> simp [signedUnits, hpos]
  refine ⟨Int.natAbs_pos.mp (habs ▸ hpos), ?_⟩
  rw [hsign, habs, round_units_one]

/-- Subtracting a zero changes nothing. -/
theorem sub_zero (x : Binary f) : x - 0 = x := by
  cases x with
  | nan => rfl
  | num s r =>
    change (num s r : Binary f) + num true ⟨0, _⟩ = num s r
    by_cases hr : r.val = f.top
    · change add _ _ = _
      simp [add, hr, f.top_ne_zero.symm]
    · rw [add_num _ _ _ _ hr f.top_ne_zero.symm]
      have hzero : signedUnits (f := f) true 0 = 0 := by simp [signedUnits, f.units_zero]
      dsimp only
      rw [hzero, Int.add_zero]
      by_cases h0 : r.val = 0
      · have hunits : signedUnits (f := f) s r.val = 0 := by simp [signedUnits, h0, f.units_zero]
        rw [if_pos hunits, Bool.and_true, zeroOf]
        exact congrArg (num s) (Fin.ext h0.symm)
      · rw [if_neg (round_signedUnits s h0).1, (round_signedUnits s h0).2]

/-- Subtracting a zero of either sign changes no number but a zero. -/
theorem sub_of_isZero {y : Binary f} (hx : x.isFinite = true) (h0 : x.isZero = false)
    (hy : y.isZero = true) : x - y = x := by
  cases x with
  | nan => cases hx
  | num s r =>
    cases y with
    | nan => cases hy
    | num t q =>
      have hq : q.val = 0 := beq_iff_eq.mp hy
      have hzero : signedUnits (f := f) (!t) q.val = 0 := by simp [signedUnits, hq, f.units_zero]
      change (num s r : Binary f) + num (!t) q = num s r
      rw [add_num _ _ _ _ (bne_iff_ne.mp hx) (hq ▸ f.top_ne_zero.symm)]
      dsimp only
      rw [hzero, Int.add_zero, if_neg (round_signedUnits s (beq_eq_false_iff_ne.mp h0)).1,
        (round_signedUnits s (beq_eq_false_iff_ne.mp h0)).2]

/-- The square of a finite number vanishes up to half of the least magnitude. -/
theorem isZero_mul_self_iff (hx : x.isFinite = true) :
    (x * x).isZero = true ↔ x.value ^ 2 ≤ 1 / (2 * f.one) := by
  cases x with
  | nan => cases hx
  | num s r =>
    have hr : r.val ≠ f.top := bne_iff_ne.mp hx
    have hone : (0 : ℚ) < f.one := Nat.cast_pos.mpr f.one_pos
    have hsquare : (num s r : Binary f).value ^ 2 =
        (f.units r.val * f.units r.val : ℕ) / f.one ^ 2 := by
      rw [value_num, mul_pow, div_pow, Nat.cast_mul, ← pow_two]
      cases s <;> simp
    rw [mul_num_of_finite hr hr, round, isZero, beq_iff_eq, FloatFormat.nearest_eq_zero_iff f.one_pos,
      hsquare, div_le_div_iff₀ (by positivity) (by positivity), one_mul]
    constructor
    · intro h
      have hle : ((2 * (f.units r.val * f.units r.val) : ℕ) : ℚ) ≤ f.one := by exact_mod_cast h
      push_cast at hle ⊢
      nlinarith
    · intro h
      have hle : (2 * ((f.units r.val * f.units r.val : ℕ) : ℚ)) * f.one ≤ f.one * f.one := by
        nlinarith
      exact_mod_cast le_of_mul_le_mul_right hle hone

/-- A sum of magnitudes vanishes only with both of them. -/
theorem isZero_add_iff {r q : Fin (f.top + 1)} :
    (num false r + num false q : Binary f).isZero = true ↔ r.val = 0 ∧ q.val = 0 := by
  have htop := f.top_ne_zero
  refine ⟨fun h => ?_, fun ⟨hr, hq⟩ => isZero_add (beq_iff_eq.mpr hr) (beq_iff_eq.mpr hq)⟩
  by_cases hr : r.val = f.top
  · change (add _ _).isZero = true at h
    simp [add, hr, isZero, htop] at h
  by_cases hq : q.val = f.top
  · change (add _ _).isZero = true at h
    simp [add, hr, hq, isZero, htop] at h
  rw [add_num _ _ _ _ hr hq] at h
  dsimp only at h
  split at h
  · next hsum =>
    simp only [signedUnits, Bool.false_eq_true, if_false] at hsum
    rw [← units_eq_zero_iff (f := f) (r := r.val), ← units_eq_zero_iff (f := f) (r := q.val)]
    omega
  · rw [round, isZero, beq_iff_eq, FloatFormat.nearest_eq_zero_iff Nat.one_pos] at h
    simp only [signedUnits, Bool.false_eq_true, if_false] at h
    rw [← units_eq_zero_iff (f := f) (r := r.val), ← units_eq_zero_iff (f := f) (r := q.val)]
    omega

/-- So does a sum of many of them. -/
theorem isZero_foldl_add_iff (hxs : ∀ x ∈ xs, ∃ q, x = num false q) (r : Fin (f.top + 1)) :
    (xs.foldl (· + ·) (num false r)).isZero = true ↔ r.val = 0 ∧ ∀ x ∈ xs, x.isZero = true := by
  induction xs generalizing r with
  | nil => simp [isZero]
  | cons x xs ih =>
    rw [List.forall_mem_cons] at hxs
    obtain ⟨q, rfl⟩ := hxs.1
    obtain ⟨p, hp⟩ := exists_add_eq r q
    have hzero : p.val = 0 ↔ r.val = 0 ∧ q.val = 0 := by
      rw [← isZero_add_iff, hp, isZero, beq_iff_eq]
    rw [List.foldl_cons, hp, ih hxs.2 p, hzero, List.forall_mem_cons, isZero, beq_iff_eq, and_assoc]

/-- A sum of squares vanishes only with all of them. -/
theorem isZero_dot_self_iff (hx : ∀ x ∈ xs, x.isFinite = true) :
    (dot xs xs).isZero = true ↔ ∀ x ∈ xs, (x * x).isZero = true := by
  have hsquares : ∀ z ∈ List.zipWith (· * ·) xs xs, ∃ p, z = num false p := by
    intro z hz
    rw [List.zipWith_self] at hz
    obtain ⟨x, hmem, rfl⟩ := List.mem_map.mp hz
    exact exists_mul_self_eq (hx x hmem)
  change ((List.zipWith (· * ·) xs xs).foldl (· + ·) (num false ⟨0, _⟩)).isZero = true ↔ _
  rw [isZero_foldl_add_iff hsquares, List.zipWith_self]
  simp

theorem sqrt_num_spec (r : Fin (f.top + 1)) : ∃ q : Fin (f.top + 1),
    (num false r : Binary f).sqrt = num false q ∧ (q.val = 0 ↔ r.val = 0) ∧
      (q.val = f.top ↔ r.val = f.top) := by
  by_cases h0 : r.val = 0
  · exact ⟨r, if_pos h0, Iff.rfl, Iff.rfl⟩
  by_cases htop : r.val = f.top
  · refine ⟨r, ?_, Iff.rfl, Iff.rfl⟩
    rw [sqrt, if_neg h0, if_neg Bool.false_ne_true, if_pos htop]
  · obtain ⟨q, hqtop, hq0, hsqrt, -, -⟩ := exists_sqrt_eq r htop h0
    exact ⟨q, hsqrt, iff_of_false hq0 h0, iff_of_false hqtop htop⟩

/-- The computed length of a list of finite numbers is a magnitude. It vanishes exactly if all
squares do, and is infinite exactly if the sum of the squares overflows. -/
theorem norm_spec (hx : ∀ x ∈ xs, x.isFinite = true) :
    ∃ q : Fin (f.top + 1), norm xs = num false q ∧
      (q.val = 0 ↔ ∀ x ∈ xs, x.value ^ 2 ≤ 1 / (2 * f.one)) ∧
      (q.val ≠ f.top ↔ (dot xs xs).isFinite = true) := by
  obtain ⟨r, hr⟩ := exists_dot_self_eq hx
  obtain ⟨q, hq, hzero, htop⟩ := sqrt_num_spec r
  refine ⟨q, by rw [norm, hr, hq], ?_, ?_⟩
  · have hdot := isZero_dot_self_iff hx
    rw [hr, isZero, beq_iff_eq] at hdot
    rw [hzero, hdot]
    exact forall₂_congr fun x hmem => isZero_mul_self_iff (hx x hmem)
  · rw [hr, isFinite, bne_iff_ne, Ne, htop]

end Binary

end StandardForm
