import StandardForm.Binary.Arithmetic
import StandardForm.Binary.Conversion
import StandardForm.Proofs.Binary.Ladder

/-!
# Exact cases of the arithmetic

Rounding happens once in each operation, so an operation is exact whenever its exact result is
a magnitude of the format. Two cases matter for programs that are built again from their own
arrays: a number converted to its own format, and one half of the double of a number that is
itself one half of a sum. The second one needs an argument, since doubling may overflow: a half
of a finite sum is small enough that it does not.
-/

namespace StandardForm.Binary

variable {f : FloatFormat}

theorem round_units (s : Bool) (r : Fin (f.top + 1)) {den : Nat} (hden : 0 < den) :
    round s (f.units r.val * den) den = num s r := by
  have h := f.nearest_units (Nat.lt_succ_iff.mp r.isLt) hden
  rw [round, Fin.ext h]

theorem round_units_one (s : Bool) (r : Fin (f.top + 1)) : round s (f.units r.val) 1 = num s r := by
  simpa using round_units s r Nat.one_pos

/-- A number stays as it is in its own format. -/
@[simp] theorem cast_self (x : Binary f) : x.cast f = x := by
  cases x with
  | nan => rfl
  | num s r =>
    by_cases h : r.val = f.top
    · have hr : r = ⟨f.top, by omega⟩ := Fin.ext h
      simp [cast, hr, infinity]
    · simp only [cast, h, if_false, ofFraction]
      exact round_units s r f.one_pos

/-! ## Sums -/

theorem add_num (s t : Bool) (r q : Fin (f.top + 1)) (hr : r.val ≠ f.top) (hq : q.val ≠ f.top) :
    (num s r : Binary f) + num t q =
      let sum := signedUnits (f := f) s r.val + signedUnits (f := f) t q.val
      if sum = 0 then zeroOf (s && t) else round (sum < 0) sum.natAbs 1 := by
  change add _ _ = _
  simp only [add, hr, hq, if_false]

/-- The order of the terms does not matter, for signed zeros, infinities and a NaN neither. -/
theorem add_comm (x y : Binary f) : x + y = y + x := by
  change add x y = add y x
  cases x with
  | nan => cases y <;> rfl
  | num s r =>
    cases y with
    | nan => rfl
    | num t q =>
      by_cases hr : r.val = f.top
      · by_cases hq : q.val = f.top
        · have hrq : r = q := Fin.ext (hr.trans hq.symm)
          subst hrq
          by_cases hst : s = t <;> simp [add, hr, hst, Ne.symm]
        · simp [add, hr, hq]
      · by_cases hq : q.val = f.top
        · simp [add, hr, hq]
        · simp only [add, hr, hq, if_false, Int.add_comm, Bool.and_comm]

/-- The sum of a finite number with itself is twice its magnitude, rounded. -/
theorem add_self_num (s : Bool) (r : Fin (f.top + 1)) (hr : r.val ≠ f.top) :
    (num s r : Binary f) + num s r = round s (2 * f.units r.val) 1 := by
  rw [add_num _ _ _ _ hr hr]
  by_cases h0 : f.units r.val = 0
  · have hzero : round s (f.units 0) 1 = zeroOf (f := f) s :=
      round_units_one s ⟨0, by omega⟩
    rw [f.units_zero] at hzero
    cases s <;> simp [signedUnits, h0, hzero]
  · cases s with
    | false =>
      have hsum : signedUnits (f := f) false r.val + signedUnits (f := f) false r.val =
          ((2 * f.units r.val : Nat) : Int) := by
        change (f.units r.val : Int) + f.units r.val = _
        omega
      simp only [hsum]
      rw [if_neg (by omega), Int.natAbs_natCast, decide_eq_false (by omega)]
    | true =>
      have hsum : signedUnits (f := f) true r.val + signedUnits (f := f) true r.val =
          -((2 * f.units r.val : Nat) : Int) := by
        change -(f.units r.val : Int) + -(f.units r.val : Int) = _
        omega
      simp only [hsum]
      rw [if_neg (by omega), Int.natAbs_neg, Int.natAbs_natCast, decide_eq_true (by omega)]

/-! ## Halves -/

/-- The rung of a power of two. -/
theorem exists_power (f : FloatFormat) {k : Nat} (hk : k + 1 < (1 <<< f.exponentWidth) - 1) :
    ∃ r : Fin (f.top + 1), r.val ≠ f.top ∧ r.val ≠ 0 ∧
      f.units r.val = 2 ^ (f.precision - 1 + k) := by
  have htop : (k + 1) * f.binade < f.top := Nat.mul_lt_mul_of_pos_right hk f.binade_pos
  have hpos : 0 < (k + 1) * f.binade := Nat.mul_pos (Nat.add_one_pos k) f.binade_pos
  exact ⟨⟨(k + 1) * f.binade, Nat.lt_succ_of_lt htop⟩, htop.ne, hpos.ne', f.units_mul_binade k⟩

/-- The rung of one half. -/
theorem exists_half (f : FloatFormat) : ∃ r : Fin (f.top + 1), r.val ≠ f.top ∧ r.val ≠ 0 ∧
    2 * f.units r.val = f.one ∧ twoPowNeg f 1 = num false r := by
  obtain ⟨r, htop, h0, hunits⟩ :=
    exists_power f (k := f.scale - f.precision) (by cases f <;> decide)
  have hscale : f.precision - 1 + (f.scale - f.precision) + 1 = f.scale := by cases f <;> decide
  have hu : 2 * f.units r.val = f.one := by
    rw [hunits, f.one_eq, ← Nat.pow_succ', Nat.succ_eq_add_one, hscale]
  refine ⟨r, htop, h0, hu, ?_⟩
  have hround := round_units false r Nat.two_pos
  rw [Nat.mul_comm, hu] at hround
  rw [twoPowNeg, ofFraction, Nat.one_mul]
  exact hround

/-- One half of a finite number is half of its magnitude, rounded. -/
theorem half_mul_num (s : Bool) (q : Fin (f.top + 1)) (hq : q.val ≠ f.top) :
    twoPowNeg f 1 * num s q = round s (f.units q.val) 2 := by
  obtain ⟨r, hr, -, hu, hhalf⟩ := exists_half f
  have hpos : 0 < f.units r.val := by have := f.one_pos; omega
  have hmul : twoPowNeg f 1 * num s q = round s (f.units r.val * f.units q.val) f.one := by
    rw [hhalf]
    change mul _ _ = _
    simp [mul, hr, hq]
  rw [hmul, ← hu, Nat.mul_comm (f.units r.val), round, round, f.nearest_mul _ _ _ hpos]

theorem half_mul_infinity (s : Bool) : twoPowNeg f 1 * infinity s = infinity (f := f) s := by
  obtain ⟨r, hr, h0, -, hhalf⟩ := exists_half f
  have htop := f.top_ne_zero
  rw [hhalf]
  change mul _ _ = _
  simp [mul, infinity, h0, htop]

theorem half_mul_nan : twoPowNeg f 1 * (nan : Binary f) = nan := by
  obtain ⟨r, -, -, -, hhalf⟩ := exists_half f
  rw [hhalf]
  rfl

/-- A finite rung whose double is finite too. -/
def Doubles (f : FloatFormat) (r : Nat) : Prop :=
  r < f.top ∧ ∃ q, q < f.top ∧ f.units q = 2 * f.units r

/-- One half of the double of a number is that number, unless doubling overflows. -/
theorem half_mul_add_self_num (s : Bool) (r : Fin (f.top + 1)) (h : Doubles f r.val) :
    twoPowNeg f 1 * ((num s r : Binary f) + num s r) = num s r := by
  obtain ⟨hr, q, hq, hu⟩ := h
  have hsum : (num s r : Binary f) + num s r = num s ⟨q, by omega⟩ := by
    rw [add_self_num s r (Nat.ne_of_lt hr), ← hu]
    exact round_units_one s ⟨q, by omega⟩
  rw [hsum, half_mul_num _ _ (Nat.ne_of_lt hq), hu, Nat.mul_comm]
  exact round_units s r Nat.two_pos

/-- A binade below infinity there is room for doubling. -/
theorem doubles_of_lt {r : Nat} (h : r + f.binade < f.top) : Doubles f r := by
  have htop := f.three_binades_le_top
  have hpos := f.binade_pos
  refine ⟨by omega, ?_⟩
  rcases Nat.lt_or_ge r f.binade with hlt | hge
  · exact ⟨2 * r, by omega, by rw [f.units_of_lt (by omega), f.units_of_lt (by omega)]⟩
  · exact ⟨r + f.binade, h, f.units_add_binade hge⟩

/-- Halving a finite magnitude leaves room for doubling. Above two binades the half is exact and
one binade below; in the first two the half, rounded up or not, stays within one binade. -/
theorem doubles_nearest_half (q : Nat) (hq : q < f.top) :
    Doubles f (f.nearest (f.units q) 2).val := by
  have htop := f.three_binades_le_top
  have hpos := f.binade_pos
  by_cases hb : q < 2 * f.binade
  · have hlog : (q / 2).log2 + 1 - f.precision = 0 := by
      by_cases h0 : q / 2 = 0
      · rw [h0]
        cases f <;> decide
      · have := (Nat.log2_lt h0).mpr (f.binade_eq ▸ (by omega : q / 2 < f.binade))
        omega
    have hle : (f.nearest (f.units q) 2).val ≤ f.binade := by
      have hround := roundHalfEven_le q 2
      rw [f.units_of_lt hb]
      simp only [FloatFormat.nearest, hlog, Nat.zero_mul, Nat.shiftLeft_zero, Nat.zero_add]
      omega
    exact doubles_of_lt (by omega)
  · have hge : f.binade ≤ q - f.binade := by omega
    have hu := f.units_add_binade hge
    rw [Nat.sub_add_cancel (by omega)] at hu
    have hnear : (f.nearest (f.units q) 2).val = q - f.binade := by
      rw [hu, Nat.mul_comm]
      exact f.nearest_units (by omega) Nat.two_pos
    rw [hnear]
    exact ⟨by omega, q, hq, hu⟩

/-- One half of a sum is one half of its own double: what has been halved once can be doubled
and halved again without loss. -/
theorem half_mul_add_self (x y : Binary f) :
    twoPowNeg f 1 * (twoPowNeg f 1 * (x + y) + twoPowNeg f 1 * (x + y)) =
      twoPowNeg f 1 * (x + y) := by
  generalize x + y = z
  cases z with
  | nan =>
    rw [half_mul_nan]
    exact half_mul_nan
  | num s q =>
    by_cases hq : q.val = f.top
    · have hz : (num s q : Binary f) = infinity s := congrArg (num s) (Fin.ext hq)
      have hdouble : infinity (f := f) s + infinity s = infinity s := by
        change add _ _ = _
        simp [add, infinity]
      rw [hz, half_mul_infinity, hdouble, half_mul_infinity]
    · rw [half_mul_num _ _ hq]
      exact half_mul_add_self_num _ _ (doubles_nearest_half q.val (by omega))

/-! ## Zero and one -/

section ZeroOne

variable {x y : Binary f}

theorem isZero_round_zero (s : Bool) {den : Nat} (hden : 0 < den) :
    (round s 0 den : Binary f).isZero = true := by
  have h := f.nearest_units (Nat.zero_le f.top) hden
  rw [f.units_zero, Nat.zero_mul] at h
  exact beq_iff_eq.mpr h

theorem units_pos {r : Nat} (h : r ≠ 0) : 0 < f.units r := by
  have h := f.units_strictMono (Nat.pos_of_ne_zero h)
  omega

theorem isZero_mul (hx : x.isFinite = true) (hy : y.isZero = true) : (x * y).isZero = true := by
  cases x with
  | nan => cases hx
  | num s r =>
    cases y with
    | nan => cases hy
    | num t q =>
      have hq : q.val = 0 := beq_iff_eq.mp hy
      have hmul : (num s r * num t q : Binary f) = round (s != t) 0 f.one := by
        change mul _ _ = _
        simp [mul, bne_iff_ne.mp hx, hq, f.units_zero, f.top_ne_zero.symm]
      rw [hmul]
      exact isZero_round_zero _ f.one_pos

theorem isZero_div (hx : x.isZero = true) (hy : y.isFinite = true) (hzero : y.isZero = false) :
    (x / y).isZero = true := by
  cases x with
  | nan => cases hx
  | num s r =>
    cases y with
    | nan => cases hy
    | num t q =>
      have hr : r.val = 0 := beq_iff_eq.mp hx
      have hq : q.val ≠ 0 := beq_eq_false_iff_ne.mp hzero
      have hdiv : (num s r / num t q : Binary f) = round (s != t) 0 (f.units q.val) := by
        change div _ _ = _
        simp [div, hr, hq, bne_iff_ne.mp hy, f.units_zero, f.top_ne_zero.symm]
      rw [hdiv]
      exact isZero_round_zero _ (units_pos hq)

theorem add_num_isZero {s t : Bool} {r q : Fin (f.top + 1)} (hr : r.val ≠ f.top)
    (hq : q.val ≠ f.top) (h : signedUnits (f := f) s r.val + signedUnits (f := f) t q.val = 0) :
    (num s r + num t q : Binary f).isZero = true := by
  rw [add_num _ _ _ _ hr hq]
  simp only [h, if_true]
  rfl

theorem isZero_add (hx : x.isZero = true) (hy : y.isZero = true) : (x + y).isZero = true := by
  cases x with
  | nan => cases hx
  | num s r =>
    cases y with
    | nan => cases hy
    | num t q =>
      have hr : r.val = 0 := beq_iff_eq.mp hx
      have hq : q.val = 0 := beq_iff_eq.mp hy
      have htop := f.top_ne_zero
      refine add_num_isZero (by omega) (by omega) ?_
      simp [signedUnits, hr, hq, f.units_zero]

theorem isZero_sub (hx : x.isZero = true) (hy : y.isZero = true) : (x - y).isZero = true := by
  refine isZero_add hx ?_
  cases y with
  | nan => cases hy
  | num t q => exact hy

/-- A finite number less itself is zero. -/
theorem isZero_sub_self (hx : x.isFinite = true) : (x - x).isZero = true := by
  cases x with
  | nan => cases hx
  | num s r =>
    have hr : r.val ≠ f.top := bne_iff_ne.mp hx
    refine add_num_isZero hr hr ?_
    cases s <;> simp [signedUnits]

theorem exists_one (f : FloatFormat) : ∃ r : Fin (f.top + 1), r.val ≠ f.top ∧ r.val ≠ 0 ∧
    f.units r.val = f.one ∧ ofInt f 1 = num false r := by
  obtain ⟨r, htop, h0, hunits⟩ :=
    exists_power f (k := f.scale - (f.precision - 1)) (by cases f <;> decide)
  have hscale : f.precision - 1 + (f.scale - (f.precision - 1)) = f.scale := by
    cases f <;> decide
  have hu : f.units r.val = f.one := by rw [hunits, hscale, f.one_eq]
  refine ⟨r, htop, h0, hu, ?_⟩
  have hround := round_units_one false r
  rw [hu] at hround
  exact (congrArg (round false · 1) (Nat.one_mul f.one)).trans hround

/-- A finite number that is not zero divided by itself is one. -/
theorem div_self (hx : x.isFinite = true) (hzero : x.isZero = false) : x / x = ofInt f 1 := by
  cases x with
  | nan => cases hx
  | num s r =>
    have hr : r.val ≠ f.top := bne_iff_ne.mp hx
    have h0 : r.val ≠ 0 := beq_eq_false_iff_ne.mp hzero
    have hdiv : (num s r / num s r : Binary f) =
        round (s != s) (f.units r.val * f.one) (f.units r.val) := by
      change div _ _ = _
      simp [div, hr, h0]
    have hscale := f.nearest_mul f.one 1 (f.units r.val) (units_pos h0)
    rw [Nat.one_mul, Nat.mul_comm] at hscale
    rw [hdiv, round, hscale, bne_self_eq_false]
    exact congrArg (round false · 1) (Nat.one_mul f.one).symm

/-- A finite number times one is that number. -/
theorem mul_one (hx : x.isFinite = true) : x * ofInt f 1 = x := by
  obtain ⟨q, hq, -, hu, hone⟩ := exists_one f
  cases x with
  | nan => cases hx
  | num s r =>
    have hr : r.val ≠ f.top := bne_iff_ne.mp hx
    have hmul : (num s r * num false q : Binary f) = round s (f.units r.val * f.one) f.one := by
      change mul _ _ = _
      simp [mul, hr, hq, hu]
    rw [hone, hmul]
    exact round_units s r f.one_pos

end ZeroOne

end StandardForm.Binary
