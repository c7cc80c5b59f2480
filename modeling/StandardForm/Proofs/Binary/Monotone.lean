import StandardForm.Proofs.Binary.Order
import StandardForm.Proofs.Binary.Rounding

/-!
# Rounding keeps the order

Of two fractions with one denominator the greater is not rounded to a lower rung. Where both are
rounded at one scale this is so of rounding to an integer; where the greater one is rounded at a
coarser scale, a whole binade lies between the least it can become and the most that the lesser one
can. So conversions into another format keep the order, and so do products with a number that is
not negative, as far as they are numbers.
-/

namespace StandardForm

theorem roundHalfEven_mono {num num' : ℕ} (den : ℕ) (h : num ≤ num') :
    roundHalfEven num den ≤ roundHalfEven num' den := by
  rcases Nat.lt_or_eq_of_le (Nat.div_le_div_right (c := den) h) with hlt | heq
  · have hupper := roundHalfEven_le num den
    have hlower := div_le_roundHalfEven num' den
    omega
  · have hnum := Nat.div_add_mod num den
    have hnum' := Nat.div_add_mod num' den
    unfold roundHalfEven
    rw [heq] at hnum ⊢
    dsimp only
    split <;> split <;> omega

namespace FloatFormat

variable (f : FloatFormat) {num num' den : ℕ}

theorem scaleOf_mono {q q' : ℕ} (h : q ≤ q') : f.scaleOf q ≤ f.scaleOf q' := by
  have hlog : q.log2 ≤ q'.log2 := by
    rw [Nat.log2_eq_log_two, Nat.log2_eq_log_two]
    exact Nat.log_mono_right h
  unfold scaleOf
  omega

/-- The greater of two fractions is not rounded to a lower rung. -/
theorem nearest_mono (hden : 0 < den) (h : num ≤ num') :
    (f.nearest num den).val ≤ (f.nearest num' den).val := by
  rw [nearest_val, nearest_val]
  refine min_le_min_left f.top ?_
  rcases Nat.lt_or_eq_of_le (f.scaleOf_mono (Nat.div_le_div_right (c := den) h)) with hlt | heq
  · have hupper : roundHalfEven num (den * 2 ^ f.scaleOf (num / den)) ≤ 2 * f.binade :=
      roundHalfEven_scale_le hden
    have hlower : f.binade ≤ roundHalfEven num' (den * 2 ^ f.scaleOf (num' / den)) :=
      binade_le_roundHalfEven_scale hden (by omega)
    have hscale : (f.scaleOf (num / den) + 1) * f.binade ≤ f.scaleOf (num' / den) * f.binade :=
      Nat.mul_le_mul_right _ hlt
    rw [Nat.succ_mul] at hscale
    omega
  · rw [heq]
    exact Nat.add_le_add_left (roundHalfEven_mono _ h) _

/-- A fraction that reaches a magnitude is not rounded below it. -/
theorem le_nearest {n : ℕ} (hden : 0 < den) (hn : n ≤ f.top) (h : f.units n * den ≤ num) :
    n ≤ (f.nearest num den).val := by
  have hmono := f.nearest_mono hden h
  rwa [f.nearest_units hn hden] at hmono

/-- A fraction that does not exceed a magnitude is not rounded above it. -/
theorem nearest_le {n : ℕ} (hden : 0 < den) (hn : n ≤ f.top) (h : num ≤ f.units n * den) :
    (f.nearest num den).val ≤ n := by
  have hmono := f.nearest_mono hden h
  rwa [f.nearest_units hn hden] at hmono

theorem nearest_zero (hden : 0 < den) : (f.nearest 0 den).val = 0 := by
  have h := f.nearest_units (Nat.zero_le f.top) hden
  rwa [f.units_zero, Nat.zero_mul] at h

end FloatFormat

namespace Binary

variable {f g : FloatFormat}

theorem num_le_num_iff {s t : Bool} {r q : Fin (f.top + 1)} :
    (num s r : Binary f) ≤ num t q ↔ position s r.val ≤ position t q.val := by
  show decide _ = true ↔ _
  exact decide_eq_true_iff

/-! ## Conversions -/

/-- The rung that a rung of another format is converted to. -/
def castRung (g : FloatFormat) (r : Fin (f.top + 1)) : Fin (g.top + 1) :=
  if r.val = f.top then ⟨g.top, g.top.lt_succ_self⟩ else g.nearest (f.units r.val * g.one) f.one

theorem cast_num (s : Bool) (r : Fin (f.top + 1)) :
    (num s r : Binary f).cast g = num s (castRung g r) := by
  by_cases h : r.val = f.top
  · simp only [cast, castRung, h, if_true]
    rfl
  · simp only [cast, castRung, h, if_false]
    rfl

theorem castRung_mono {r q : Fin (f.top + 1)} (h : r.val ≤ q.val) :
    (castRung g r).val ≤ (castRung g q).val := by
  unfold castRung
  split
  · next hr =>
    have hq : q.val = f.top := by omega
    rw [if_pos hq]
  · split
    · exact Nat.lt_succ_iff.mp (Fin.isLt _)
    · refine g.nearest_mono f.one_pos (Nat.mul_le_mul_right _ ?_)
      exact f.units_strictMono.monotone h

theorem castRung_eq_zero {r : Fin (f.top + 1)} (h : r.val = 0) : (castRung g r).val = 0 := by
  rw [castRung, if_neg (by rw [h]; exact f.top_ne_zero.symm), h, f.units_zero, Nat.zero_mul]
  exact g.nearest_zero f.one_pos

/-- What is no greater than a number with room in another format stays finite there. -/
theorem isFinite_cast_of_le {r : Fin (f.top + 1)} {bound : ℕ} (s : Bool) (h : r.val ≤ bound)
    (hbound : bound < f.top)
    (hroom : f.units bound * g.one ≤ g.units (g.top - g.binade) * f.one) :
    ((num s r : Binary f).cast g).isFinite = true := by
  have hunits := f.units_strictMono.monotone h
  rw [cast_num, castRung, if_neg (by omega)]
  refine bne_iff_ne.mpr (FloatFormat.nearest_ne_top f.one_pos ?_)
  exact (Nat.mul_le_mul_right _ hunits).trans hroom

/-- A conversion keeps the order. -/
theorem cast_le_cast {x y : Binary f} (h : x ≤ y) : x.cast g ≤ y.cast g := by
  cases x with
  | nan => cases h
  | num s r =>
    cases y with
    | nan => cases h
    | num t q =>
      rw [num_le_num_iff] at h
      rw [cast_num, cast_num, num_le_num_iff]
      have hle (hrq : r.val ≤ q.val) := castRung_mono (g := g) hrq
      have hge (hqr : q.val ≤ r.val) := castRung_mono (g := g) hqr
      have hr (hr : r.val = 0) := castRung_eq_zero (g := g) hr
      have hq (hq : q.val = 0) := castRung_eq_zero (g := g) hq
      cases s <;> cases t <;> simp only [position, Bool.false_eq_true, if_true, if_false] at h ⊢ <;>
        omega

@[simp] theorem cast_zero : (0 : Binary f).cast g = 0 := by
  show (num false ⟨0, _⟩ : Binary f).cast g = _
  rw [cast_num]
  exact congrArg (num false) (Fin.ext (castRung_eq_zero rfl))

theorem isNaN_cast (x : Binary f) : (x.cast g).isNaN = x.isNaN := by
  cases x with
  | nan => rfl
  | num s r => rw [cast_num]; rfl

/-! ## Products -/

section Products

variable {s t : Bool} {k r q : Fin (f.top + 1)}

theorem mul_num_of_finite (hk : k.val ≠ f.top) (hr : r.val ≠ f.top) :
    (num s k * num t r : Binary f) = round (s != t) (f.units k.val * f.units r.val) f.one := by
  show mul _ _ = _
  simp [mul, hk, hr]

theorem mul_num_of_infinite (h : k.val = f.top ∨ r.val = f.top) (hk : k.val ≠ 0) (hr : r.val ≠ 0) :
    (num s k * num t r : Binary f) = infinity (s != t) := by
  show mul _ _ = _
  simp [mul, h, hk, hr]

theorem mul_num_of_undefined (h : k.val = f.top ∨ r.val = f.top) (h0 : k.val = 0 ∨ r.val = 0) :
    (num s k * num t r : Binary f) = nan := by
  show mul _ _ = _
  simp only [mul, if_pos h, if_pos h0]

theorem num_le_infinity : (num s r : Binary f) ≤ infinity false := by
  have hr := r.isLt
  refine num_le_num_iff.mpr ?_
  cases s <;> simp only [position, Bool.false_eq_true, if_true, if_false] <;> omega

/-- A negative number that is not below zero is the negative zero. -/
theorem rung_eq_zero_of_nonneg (h : (0 : Binary f) ≤ num true k) : k.val = 0 := by
  have hpos : position false 0 ≤ position true k.val := num_le_num_iff.mp h
  simp only [position, Bool.false_eq_true, if_true, if_false] at hpos
  omega

/-- Finite products with one factor are in the order of the other factors. -/
theorem mul_num_mono (hs : (0 : Binary f) ≤ num s k) (hk : k.val ≠ f.top) (hq : q.val ≠ f.top)
    (h : r.val ≤ q.val) : (num s k * num false r : Binary f) ≤ num s k * num false q := by
  have hmono := f.nearest_mono f.one_pos
    (Nat.mul_le_mul_left (f.units k.val) (f.units_strictMono.monotone h))
  rw [mul_num_of_finite hk (by omega), mul_num_of_finite hk hq, round, round, num_le_num_iff]
  cases s with
  | false => simpa [position] using hmono
  | true => simp [rung_eq_zero_of_nonneg hs, f.units_zero]

/-- A product with the same factor keeps the order of magnitudes, unless the lesser one gives no
number. A factor of zero has to meet a finite magnitude. -/
theorem mul_le_mul_or_isNaN {x : Binary f} (hx : 0 ≤ x) (h : r.val ≤ q.val)
    (hzero : x.isZero = true → q.val ≠ f.top) :
    x * num false r ≤ x * num false q ∨ (x * num false r).isNaN = true := by
  cases x with
  | nan => cases hx
  | num s k =>
    have hk : k.val = 0 → q.val ≠ f.top := fun hk => hzero (beq_iff_eq.mpr hk)
    by_cases hnan : (k.val = f.top ∨ r.val = f.top) ∧ (k.val = 0 ∨ r.val = 0)
    · rw [mul_num_of_undefined hnan.1 hnan.2]
      exact .inr rfl
    refine .inl ?_
    by_cases hinf : k.val = f.top ∨ q.val = f.top
    · -- The greater product is infinite, and a positive one.
      have htop := f.top_ne_zero
      have hk0 : k.val ≠ 0 := by omega
      have hs : s = false := Bool.eq_false_iff.mpr fun hs => hk0 (rung_eq_zero_of_nonneg (hs ▸ hx))
      rw [mul_num_of_infinite hinf hk0 (by omega), hs]
      by_cases hinf' : k.val = f.top ∨ r.val = f.top
      · rw [mul_num_of_infinite hinf' hk0 (by omega)]
        exact num_le_infinity
      · rw [mul_num_of_finite (by omega) (by omega)]
        exact num_le_infinity
    · exact mul_num_mono hx (by omega) (by omega) h

end Products

/-! ## Numbers that are not below zero -/

section NotNegative

variable {x y z : Binary f}

theorem not_num_lt_zero_iff {s : Bool} {r : Fin (f.top + 1)} :
    ¬ (num s r : Binary f) < 0 ↔ s = false ∨ r.val = 0 := by
  change ¬ decide (position s r.val < position false 0) = true ↔ _
  rw [decide_eq_true_iff]
  cases s <;> simp [position]

theorem not_abs_lt_zero (x : Binary f) : ¬ x.abs < 0 := by
  cases x with
  | nan => exact Bool.false_ne_true
  | num s r => exact not_num_lt_zero_iff.mpr (.inl rfl)

theorem not_cast_lt_zero (hx : ¬ x < 0) : ¬ x.cast g < 0 := by
  cases x with
  | nan => exact Bool.false_ne_true
  | num s r =>
    rw [cast_num]
    exact not_num_lt_zero_iff.mpr ((not_num_lt_zero_iff.mp hx).imp_right castRung_eq_zero)

theorem not_mul_lt_zero (hx : ¬ x < 0) (hy : ¬ y < 0) : ¬ x * y < 0 := by
  cases x with
  | nan => cases y <;> exact Bool.false_ne_true
  | num s r =>
  cases y with
  | nan => exact Bool.false_ne_true
  | num t q =>
    rw [not_num_lt_zero_iff] at hx hy
    by_cases htop : r.val = f.top ∨ q.val = f.top
    · by_cases hzero : r.val = 0 ∨ q.val = 0
      · rw [mul_num_of_undefined htop hzero]
        exact Bool.false_ne_true
      · rw [not_or] at hzero
        rw [mul_num_of_infinite htop hzero.1 hzero.2, hx.resolve_right hzero.1,
          hy.resolve_right hzero.2]
        exact not_num_lt_zero_iff.mpr (.inl rfl)
    · rw [not_or] at htop
      rw [mul_num_of_finite htop.1 htop.2]
      refine not_num_lt_zero_iff.mpr ?_
      rcases hx with rfl | hr
      · rcases hy with rfl | hq
        · exact .inl rfl
        · rw [hq, f.units_zero, Nat.mul_zero]
          exact .inr (f.nearest_zero f.one_pos)
      · rw [hr, f.units_zero, Nat.zero_mul]
        exact .inr (f.nearest_zero f.one_pos)

theorem not_sqrt_lt_zero (x : Binary f) : ¬ x.sqrt < 0 := by
  cases x with
  | nan => exact Bool.false_ne_true
  | num s r =>
    rw [sqrt]
    split
    · next hr => exact not_num_lt_zero_iff.mpr (.inr hr)
    split
    · exact Bool.false_ne_true
    · next hs =>
      split
      · exact not_num_lt_zero_iff.mpr (.inl (Bool.eq_false_iff.mpr hs))
      · exact not_num_lt_zero_iff.mpr (.inl rfl)

theorem not_lt_zero_of_zero_le (hx : 0 ≤ x) : ¬ x < 0 := by
  cases x with
  | nan => cases hx
  | num s r =>
    refine not_num_lt_zero_iff.mpr ?_
    cases s with
    | false => exact .inl rfl
    | true => exact .inr (rung_eq_zero_of_nonneg hx)

/-- A zero of either sign is not above a number that is not negative. -/
theorem le_of_isZero (hz : z.isZero = true) (hx : ¬ x < 0) (hnan : x.isNaN = false) : z ≤ x := by
  cases z with
  | nan => cases hz
  | num t q =>
  cases x with
  | nan => cases hnan
  | num s r =>
    have hq : q.val = 0 := beq_iff_eq.mp hz
    rw [not_num_lt_zero_iff] at hx
    rw [num_le_num_iff, hq]
    rcases hx with rfl | hr
    · cases t <;> simp [position]
    · cases t <;> cases s <;> simp [position, hr]

theorem not_lt_of_isZero (hz : z.isZero = true) (hx : ¬ x < 0) : ¬ x < z := by
  cases z with
  | nan => cases hz
  | num t q =>
  cases x with
  | nan => exact Bool.false_ne_true
  | num s r =>
    have hq : q.val = 0 := beq_iff_eq.mp hz
    have hzero : position t q.val = position false 0 := by rw [hq]; cases t <;> rfl
    change ¬ decide (position s r.val < position t q.val) = true
    rw [hzero]
    exact hx

end NotNegative

end Binary

end StandardForm
