import StandardForm.Proofs.Binary.Order
import StandardForm.Proofs.Binary.Monotone
import StandardForm.Proofs.Binary.Overflow

/-!
# The mean of two numbers

The mean is one half of the sum, both of them rounded. Rounding keeps the order and the double of a
finite magnitude is a magnitude again, finite or the power of two that infinity stands for. So the
mean of two finite numbers lies between them, through both roundings, unless the sum overflows; then
the mean is infinite.
-/

namespace StandardForm

namespace FloatFormat

variable (f : FloatFormat) {num r : ℕ}

/-- The double of a finite rung is a magnitude of the format, or the next power of two or more. -/
theorem exists_double (hr : r < f.top) :
    (∃ q, q < f.top ∧ f.units q = 2 * f.units r) ∨ f.units f.top ≤ 2 * f.units r := by
  rcases Nat.lt_or_ge (r + f.binade) f.top with hlt | hge
  · exact .inl (Binary.doubles_of_lt hlt).2
  · have htop := f.three_binades_le_top
    have hbelow := f.units_add_binade (n := f.top - f.binade) (by omega)
    rw [Nat.sub_add_cancel (by omega)] at hbelow
    rw [hbelow]
    exact .inr (Nat.mul_le_mul_left 2 (f.units_strictMono.monotone (by omega)))

theorem nearest_double (hr : r < f.top) : (f.nearest (2 * f.units r) 2).val = r := by
  rw [Nat.mul_comm]
  exact f.nearest_units hr.le Nat.two_pos

theorem nearest_units_one (hr : r ≤ f.top) : (f.nearest (f.units r) 1).val = r := by
  simpa using f.nearest_units hr Nat.one_pos

/-- Half of a rounded sum is not above what the exact half is not above. -/
theorem half_nearest_le (hr : r < f.top) (h : num ≤ 2 * f.units r) :
    (f.nearest (f.units (f.nearest num 1).val) 2).val ≤ r := by
  have hle : f.units (f.nearest num 1).val ≤ 2 * f.units r := by
    rcases f.exists_double hr with ⟨q, hq, hdouble⟩ | hlarge
    · rw [← hdouble] at h ⊢
      have hmono := f.nearest_mono Nat.one_pos h
      rw [f.nearest_units_one hq.le] at hmono
      exact f.units_strictMono.monotone hmono
    · exact (f.units_strictMono.monotone (Nat.lt_succ_iff.mp (Fin.isLt _))).trans hlarge
  exact (f.nearest_mono Nat.two_pos hle).trans (f.nearest_double hr).le

/-- Half of a rounded sum is not below what the exact half is not below. -/
theorem le_half_nearest (hr : r < f.top) (hnum : (f.nearest num 1).val ≠ f.top)
    (h : 2 * f.units r ≤ num) : r ≤ (f.nearest (f.units (f.nearest num 1).val) 2).val := by
  have hle : 2 * f.units r ≤ f.units (f.nearest num 1).val := by
    rcases f.exists_double hr with ⟨q, hq, hdouble⟩ | hlarge
    · rw [← hdouble] at h ⊢
      have hmono := f.nearest_mono Nat.one_pos h
      rw [f.nearest_units_one hq.le] at hmono
      exact f.units_strictMono.monotone hmono
    · have hmono := f.nearest_mono Nat.one_pos (hlarge.trans h)
      rw [f.nearest_units_one le_rfl] at hmono
      have htop := Nat.lt_succ_iff.mp (f.nearest num 1).isLt
      omega
  exact (f.nearest_double hr).ge.trans (f.nearest_mono Nat.two_pos hle)

end FloatFormat

namespace Binary

variable {f : FloatFormat} {x y z : Binary f}

def mean (x y : Binary f) : Binary f := twoPowNeg f 1 * (x + y)

theorem isFinite_mean (x y : Binary f) : (mean x y).isFinite = (x + y).isFinite := by
  rw [mean]
  generalize x + y = z
  cases z with
  | nan => rw [half_mul_nan]
  | num s q =>
    by_cases hq : q.val = f.top
    · have hz : (num s q : Binary f) = infinity s := congrArg (num s) (Fin.ext hq)
      rw [hz, half_mul_infinity]
    · have hhalf := doubles_nearest_half (f := f) q.val (by omega)
      rw [half_mul_num _ _ hq]
      exact (bne_iff_ne.mpr hhalf.1.ne).trans (bne_iff_ne.mpr hq).symm

/-- A finite mean in units: the rounded half of the rounded magnitude of the exact sum, with the
sign of that sum. -/
theorem exists_mean_eq_round {s t : Bool} {r q : Fin (f.top + 1)} (hr : r.val ≠ f.top)
    (hq : q.val ≠ f.top) (hfinite : (num s r + num t q : Binary f).isFinite = true) :
    ∃ sign : Bool, ∃ sum : ℤ,
      sum = signedUnits (f := f) s r.val + signedUnits (f := f) t q.val ∧
      (sum ≠ 0 → sign = decide (sum < 0)) ∧ (f.nearest sum.natAbs 1).val ≠ f.top ∧
      mean (num s r) (num t q) = round sign (f.units (f.nearest sum.natAbs 1).val) 2 := by
  rw [add_num _ _ _ _ hr hq] at hfinite
  rw [mean, add_num _ _ _ _ hr hq]
  generalize signedUnits (f := f) s r.val + signedUnits (f := f) t q.val = sum at hfinite ⊢
  dsimp only at hfinite ⊢
  have hzero : (f.nearest 0 1).val = 0 := f.nearest_zero Nat.one_pos
  by_cases hsum : sum = 0
  · refine ⟨s && t, sum, rfl, fun h => absurd hsum h, ?_, ?_⟩
    · rw [hsum, Int.natAbs_zero, hzero]
      exact f.top_ne_zero.symm
    · rw [if_pos hsum, zeroOf, half_mul_num _ _ f.top_ne_zero.symm, hsum, Int.natAbs_zero, hzero]
  · rw [if_neg hsum] at hfinite ⊢
    have htop : (f.nearest sum.natAbs 1).val ≠ f.top := bne_iff_ne.mp hfinite
    exact ⟨decide (sum < 0), sum, rfl, fun _ => rfl, htop, half_mul_num _ _ htop⟩

theorem value_eq_signedUnits (s : Bool) (r : Fin (f.top + 1)) :
    (num s r : Binary f).value * f.one = signedUnits (f := f) s r.val := by
  rw [value, div_mul_cancel₀ _ (Nat.cast_ne_zero.mpr f.one_pos.ne')]

theorem sum_le_double_iff {s t u : Bool} {r q k : Fin (f.top + 1)} :
    (num s r : Binary f).value + (num t q : Binary f).value ≤ 2 * (num u k : Binary f).value ↔
      signedUnits (f := f) s r.val + signedUnits (f := f) t q.val ≤
        2 * signedUnits (f := f) u k.val := by
  have hone : (0 : ℚ) < f.one := Nat.cast_pos.mpr f.one_pos
  rw [← mul_le_mul_iff_of_pos_right hone, add_mul, mul_assoc, value_eq_signedUnits,
    value_eq_signedUnits, value_eq_signedUnits]
  norm_cast

theorem double_le_sum_iff {s t u : Bool} {r q k : Fin (f.top + 1)} :
    2 * (num u k : Binary f).value ≤ (num s r : Binary f).value + (num t q : Binary f).value ↔
      2 * signedUnits (f := f) u k.val ≤
        signedUnits (f := f) s r.val + signedUnits (f := f) t q.val := by
  have hone : (0 : ℚ) < f.one := Nat.cast_pos.mpr f.one_pos
  rw [← mul_le_mul_iff_of_pos_right hone, add_mul, mul_assoc, value_eq_signedUnits,
    value_eq_signedUnits, value_eq_signedUnits]
  norm_cast

/-- Where the sign of an exact sum agrees with the sign it is rounded with, its mean compares to a
rung as the sum compares to the double of it. -/
theorem position_half_nearest {sign u : Bool} {sum : ℤ} {k : ℕ} (hk : k < f.top)
    (hsign : sum ≠ 0 → sign = decide (sum < 0)) (htop : (f.nearest sum.natAbs 1).val ≠ f.top) :
    let half := (f.nearest (f.units (f.nearest sum.natAbs 1).val) 2).val
    (sum ≤ 2 * signedUnits (f := f) u k → position sign half ≤ position u k) ∧
      (2 * signedUnits (f := f) u k ≤ sum → position u k ≤ position sign half) := by
  have hupper (h : sum.natAbs ≤ 2 * f.units k) := f.half_nearest_le hk h
  have hlower := f.le_half_nearest hk htop
  have hzero : f.units k = 0 → k = 0 := units_eq_zero_iff.mp
  have hagree : sign = false ∧ 0 ≤ sum ∨ sign = true ∧ sum ≤ 0 := by
    by_cases hsum : sum = 0
    · cases sign <;> simp [hsum]
    · rw [hsign hsum, decide_eq_false_iff_not, decide_eq_true_iff]
      omega
  dsimp only
  rcases hagree with ⟨rfl, hsum⟩ | ⟨rfl, hsum⟩ <;> cases u <;>
    simp only [signedUnits, position, Bool.false_eq_true, if_true, if_false] <;>
    omega

/-- A mean is not above a finite number that the exact mean is not above, and not below one that
the exact mean is not below. -/
theorem mean_compare (hx : x.isFinite = true) (hy : y.isFinite = true) (hz : z.isFinite = true)
    (hfinite : (x + y).isFinite = true) :
    (x.value + y.value ≤ 2 * z.value → mean x y ≤ z) ∧
      (2 * z.value ≤ x.value + y.value → z ≤ mean x y) := by
  cases x with
  | nan => cases hx
  | num s r =>
    cases y with
    | nan => cases hy
    | num t q =>
      cases z with
      | nan => cases hz
      | num u k =>
        have hk : k.val < f.top := by
          have := bne_iff_ne.mp hz
          omega
        obtain ⟨sign, sum, hsum, hsign, htop, hmean⟩ :=
          exists_mean_eq_round (bne_iff_ne.mp hx) (bne_iff_ne.mp hy) hfinite
        rw [sum_le_double_iff, double_le_sum_iff, ← hsum, hmean, round, num_le_num_iff,
          num_le_num_iff]
        exact position_half_nearest hk hsign htop

/-! ## The mean and its terms -/

theorem min_cases (hx : x.isNaN = false) (hy : y.isNaN = false) :
    min x y = x ∧ x.value ≤ y.value ∨ min x y = y ∧ y.value ≤ x.value := by
  simp only [min, hx, hy, Bool.false_eq_true, if_false]
  split
  · next h => exact .inr ⟨rfl, ((value_lt_iff hy hx).mpr h).le⟩
  · next h => exact .inl ⟨rfl, not_lt.mp fun hlt => h ((value_lt_iff hy hx).mp hlt)⟩

theorem max_cases (hx : x.isNaN = false) (hy : y.isNaN = false) :
    max x y = x ∧ y.value ≤ x.value ∨ max x y = y ∧ x.value ≤ y.value := by
  simp only [max, hx, hy, Bool.false_eq_true, if_false]
  split
  · next h => exact .inr ⟨rfl, ((value_lt_iff hx hy).mpr h).le⟩
  · next h => exact .inl ⟨rfl, not_lt.mp fun hlt => h ((value_lt_iff hx hy).mp hlt)⟩

/-- What lies between finite numbers is finite. -/
theorem isFinite_of_between (hx : x.isFinite = true) (hy : y.isFinite = true) (hlower : x ≤ z)
    (hupper : z ≤ y) : z.isFinite = true := by
  cases x with
  | nan => cases hx
  | num s r =>
    cases y with
    | nan => cases hy
    | num t q =>
      cases z with
      | nan => cases hlower
      | num u k =>
        rw [num_le_num_iff] at hlower hupper
        have hr := bne_iff_ne.mp hx
        have hq := bne_iff_ne.mp hy
        refine bne_iff_ne.mpr ?_
        cases s <;> cases t <;> cases u <;>
          simp only [position, Bool.false_eq_true, if_true, if_false] at hlower hupper <;>
          omega

theorem equals_of_le_of_le (h : x ≤ y) (h' : y ≤ x) : x.equals y = true := by
  cases x with
  | nan => cases h
  | num s r =>
    cases y with
    | nan => cases h
    | num t q =>
      rw [num_le_num_iff] at h h'
      exact beq_iff_eq.mpr (Int.le_antisymm h h')

theorem value_eq_of_equals (h : x.equals y = true) : x.value = y.value := by
  cases x with
  | nan => cases h
  | num s r =>
    cases y with
    | nan => cases h
    | num t q =>
      have hposition : position s r.val = position t q.val := beq_iff_eq.mp h
      refine le_antisymm ((value_le_iff rfl rfl).mpr ?_) ((value_le_iff rfl rfl).mpr ?_)
      · exact num_le_num_iff.mpr hposition.le
      · exact num_le_num_iff.mpr hposition.ge

theorem isFinite_of_equals (hx : x.isFinite = true) (h : y.equals x = true) :
    y.isFinite = true := by
  cases x with
  | nan => cases hx
  | num s r =>
    cases y with
    | nan => cases h
    | num t q =>
      have hposition : position t q.val = position s r.val := beq_iff_eq.mp h
      have hr := bne_iff_ne.mp hx
      refine bne_iff_ne.mpr ?_
      cases s <;> cases t <;>
        simp only [position, Bool.false_eq_true, if_true, if_false] at hposition <;>
        omega

/-- The mean of two finite numbers lies between them exactly when their exact sum does not
overflow. -/
theorem mean_between_iff (hx : x.isFinite = true) (hy : y.isFinite = true) :
    (min x y ≤ mean x y ∧ mean x y ≤ max x y) ↔ |x.value + y.value| < overflow f := by
  have hmin := min_cases (isNaN_of_isFinite hx) (isNaN_of_isFinite hy)
  have hmax := max_cases (isNaN_of_isFinite hx) (isNaN_of_isFinite hy)
  rw [← isFinite_add_iff hx hy]
  constructor
  · rintro ⟨hlower, hupper⟩
    rw [← isFinite_mean]
    refine isFinite_of_between ?_ ?_ hlower hupper
    · rcases hmin with ⟨h, -⟩ | ⟨h, -⟩ <;> rwa [h]
    · rcases hmax with ⟨h, -⟩ | ⟨h, -⟩ <;> rwa [h]
  · intro hfinite
    constructor
    · rcases hmin with ⟨h, hle⟩ | ⟨h, hle⟩ <;> rw [h]
      · exact (mean_compare hx hy hx hfinite).2 (by linarith)
      · exact (mean_compare hx hy hy hfinite).2 (by linarith)
    · rcases hmax with ⟨h, hle⟩ | ⟨h, hle⟩ <;> rw [h]
      · exact (mean_compare hx hy hx hfinite).1 (by linarith)
      · exact (mean_compare hx hy hy hfinite).1 (by linarith)

/-- The double of a finite number does not overflow exactly when the number is below the greatest
power of two. -/
theorem abs_add_self_lt_overflow_iff (hx : x.isFinite = true) :
    |x.value + x.value| < overflow f ↔ |x.value| < greatestPower f := by
  cases x with
  | nan => cases hx
  | num s r =>
    have hr := bne_iff_ne.mp hx
    have hone : (0 : ℚ) < f.one := Nat.cast_pos.mpr f.one_pos
    have htop := f.three_binades_le_top
    have hpos := f.binade_pos
    have hgreatest := f.units_add_binade (n := f.top - f.binade) (by omega)
    rw [Nat.sub_add_cancel (by omega)] at hgreatest
    rw [← two_mul, abs_mul, abs_value_num, abs_two, overflow, greatestPower,
      div_lt_div_iff_of_pos_right hone, Nat.cast_lt, f.units_strictMono.lt_iff_lt, mul_div_assoc',
      div_lt_div_iff₀ hone (by positivity)]
    have hcompare : 2 * (f.units r.val : ℚ) * (2 * f.one) < f.midpoint f.top * f.one ↔
        2 * (2 * f.units r.val) < f.midpoint f.top := by
      rw [show 2 * (f.units r.val : ℚ) * (2 * f.one) = 2 * (2 * f.units r.val) * f.one by ring,
        mul_lt_mul_iff_of_pos_right hone]
      norm_cast
    have hlast : f.units (f.top - 1) < f.units f.top := f.units_strictMono (by omega)
    rw [hcompare, FloatFormat.midpoint]
    constructor
    · intro h
      by_contra hge
      have := f.units_strictMono.monotone (Nat.not_lt.mp hge)
      omega
    · intro h
      obtain ⟨q, hq, hdouble⟩ := (doubles_of_lt (by omega : r.val + f.binade < f.top)).2
      have hle : f.units q ≤ f.units (f.top - 1) := f.units_strictMono.monotone (by omega)
      omega

/-- The mean of two equal numbers equals them exactly when they are below the greatest power of
two. -/
theorem mean_equals_iff (hx : x.isFinite = true) (h : x.equals y = true) :
    (mean x y).equals x = true ↔ |x.value| < greatestPower f := by
  have hy : y.isFinite = true := isFinite_of_equals hx (by rwa [equals_comm])
  have hvalue := value_eq_of_equals h
  rw [← abs_add_self_lt_overflow_iff hx]
  constructor
  · intro hmean
    have hfinite := isFinite_of_equals hx hmean
    rw [isFinite_mean, isFinite_add_iff hx hy, ← hvalue] at hfinite
    exact hfinite
  · intro hsum
    have hfinite := (isFinite_add_iff hx hy).mpr (hvalue ▸ hsum)
    have hcompare := mean_compare hx hy hx hfinite
    exact equals_of_le_of_le (hcompare.1 (by linarith)) (hcompare.2 (by linarith))

/-- The mean of a number and itself is that number, bit for bit, exactly when it is below the
greatest power of two. -/
theorem mean_self_iff (hx : x.isFinite = true) : mean x x = x ↔ |x.value| < greatestPower f := by
  constructor
  · intro hmean
    have hfinite := (congrArg Binary.isFinite hmean).trans hx
    rw [isFinite_mean, isFinite_add_iff hx hx] at hfinite
    exact (abs_add_self_lt_overflow_iff hx).mp hfinite
  · intro h
    cases x with
    | nan => cases hx
    | num s r =>
      have hone : (0 : ℚ) < f.one := Nat.cast_pos.mpr f.one_pos
      rw [abs_value_num, greatestPower,
        div_lt_div_iff_of_pos_right hone, Nat.cast_lt, f.units_strictMono.lt_iff_lt] at h
      exact half_mul_add_self_num s r (doubles_of_lt (by omega))

end Binary

end StandardForm
