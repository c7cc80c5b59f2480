import StandardForm.Proofs.Binary.Monotone

/-!
# Numbers times powers of two

A floating-point number times a power of two has the same significand, as long as it is neither too
small nor too large. Rounding commutes with such a factor under a condition on the smaller number
alone, besides the greater one being finite: nothing is rounded, or the result lies above the least
normal number.
-/

namespace StandardForm

namespace FloatFormat

variable (f : FloatFormat) {num den n : ℕ}

theorem units_add_binades (k : ℕ) (h : f.binade ≤ n) :
    f.units (n + k * f.binade) = 2 ^ k * f.units n := by
  induction k with
  | zero => simp
  | succ k ih =>
    rw [Nat.succ_mul, ← Nat.add_assoc, f.units_add_binade (h.trans (Nat.le_add_right _ _)), ih]
    ring

theorem midpoint_add_binades (k : ℕ) (h : f.binade < n) :
    f.midpoint (n + k * f.binade) = 2 ^ k * f.midpoint n := by
  have hbelow : n + k * f.binade - 1 = n - 1 + k * f.binade := by omega
  rw [midpoint, midpoint, hbelow, f.units_add_binades k h.le,
    f.units_add_binades k (Nat.le_sub_one_of_lt h), Nat.mul_add]

/-- A magnitude times a power of two is a magnitude, if infinitely many are admitted. -/
theorem exists_units_eq_mul (k n : ℕ) : ∃ m, f.units m = 2 ^ k * f.units n := by
  induction k with
  | zero => exact ⟨n, by simp⟩
  | succ k ih =>
    obtain ⟨m, hm⟩ := ih
    have hdouble : 2 ^ (k + 1) * f.units n = 2 * f.units m := by rw [hm]; ring
    rw [hdouble]
    rcases Nat.lt_or_ge m f.binade with hlt | hge
    · refine ⟨2 * m, ?_⟩
      rw [f.units_of_lt (n := 2 * m) (by omega), f.units_of_lt (n := m) (by omega)]
    · exact ⟨m + f.binade, f.units_add_binade hge⟩

/-- A fraction that is rounded to more than the least normal number is no less than it. -/
theorem binade_le_of_lt_nearest (h : f.binade < (f.nearest num den).val) :
    f.binade ≤ num / den := by
  by_contra hlt
  have hzero : f.scaleOf (num / den) = 0 := by
    by_contra hne
    have hle := f.two_pow_scaleOf_le hne
    have hpow : 2 ^ (f.precision - 1) ≤ 2 ^ (f.scaleOf (num / den) + (f.precision - 1)) :=
      Nat.pow_le_pow_right Nat.two_pos (Nat.le_add_left _ _)
    rw [← binade_eq] at hpow
    omega
  have hround := roundHalfEven_le num den
  rw [nearest_val, hzero, pow_zero, Nat.mul_one] at h
  omega

/-- A fraction that is no less than the least normal number keeps its significand when it is
multiplied by a power of two. -/
theorem nearest_mul_pow (k : ℕ) (hden : 0 < den) (hnormal : f.binade ≤ num / den) :
    (f.nearest (2 ^ k * num) den).val = min f.top ((f.nearest num den).val + k * f.binade) := by
  have hquotient : num / den ≠ 0 := by
    have := f.binade_pos
    omega
  have hbits : f.precision - 1 ≤ (num / den).log2 := by
    rw [Nat.le_log2 hquotient, ← binade_eq]
    exact hnormal
  have hlog : (2 ^ k * num / den).log2 = (num / den).log2 + k := by
    have hlower : 2 ^ k * (num / den) ≤ 2 ^ k * num / den := Nat.mul_div_le_mul_div_assoc _ _ _
    have hupper : 2 ^ k * num / den < 2 ^ k * (num / den + 1) := by
      rw [Nat.div_lt_iff_lt_mul hden, Nat.mul_assoc]
      exact Nat.mul_lt_mul_of_pos_left (Nat.lt_mul_of_div_lt (Nat.lt_succ_self _) hden)
        (Nat.two_pow_pos k)
    have hne : 2 ^ k * num / den ≠ 0 := by
      have := Nat.mul_pos (Nat.two_pow_pos k) (Nat.pos_of_ne_zero hquotient)
      omega
    rw [Nat.log2_eq_iff hne]
    constructor
    · calc 2 ^ ((num / den).log2 + k) = 2 ^ k * 2 ^ (num / den).log2 := by ring
        _ ≤ 2 ^ k * (num / den) := Nat.mul_le_mul_left _ (Nat.log2_self_le hquotient)
        _ ≤ 2 ^ k * num / den := hlower
    · calc 2 ^ k * num / den < 2 ^ k * (num / den + 1) := hupper
        _ ≤ 2 ^ k * 2 ^ ((num / den).log2 + 1) := Nat.mul_le_mul_left _ Nat.lt_log2_self
        _ = 2 ^ ((num / den).log2 + k + 1) := by ring
  have hscale : f.scaleOf (2 ^ k * num / den) = f.scaleOf (num / den) + k := by
    have := f.precision_pos
    rw [scaleOf, scaleOf, hlog]
    omega
  have hround : roundHalfEven (2 ^ k * num) (den * 2 ^ (f.scaleOf (num / den) + k)) =
      roundHalfEven num (den * 2 ^ f.scaleOf (num / den)) := by
    rw [Nat.mul_comm (2 ^ k), Nat.pow_add, ← Nat.mul_assoc]
    exact roundHalfEven_mul _ _ _ (Nat.two_pow_pos k)
  rw [nearest_val, nearest_val, hscale, hround, Nat.add_mul]
  omega

/-- An integer that is rounded to at most the least normal number is not rounded. -/
theorem units_nearest_one {m : ℕ} (h : (f.nearest m 1).val ≤ f.binade) :
    f.units (f.nearest m 1).val = m := by
  have htwo : 2 ≤ f.binade := by cases f <;> decide
  have htop := f.three_binades_le_top
  have hsmall (n : ℕ) (hn : n < 2 * f.binade) : (f.nearest n 1).val = n := by
    have hunits := f.units_of_lt hn
    have hround := f.nearest_units (n := n) (by omega) Nat.one_pos
    rwa [hunits, Nat.mul_one] at hround
  have hle : m ≤ f.binade := by
    by_contra hlt
    have hmono : (f.nearest (f.binade + 1) 1).val ≤ (f.nearest m 1).val :=
      f.nearest_mono Nat.one_pos (Nat.not_le.mp hlt)
    rw [hsmall (f.binade + 1) (by omega)] at hmono
    omega
  rw [hsmall m (by omega), f.units_of_lt (by omega)]

/-- The fraction `num / den` is rounded in the same way at every scale: it is not rounded at all, or
it is no less than the least normal number. -/
def Scalable (num den : ℕ) : Prop :=
  f.units (f.nearest num den).val * den = num ∨ f.binade ≤ num / den

/-- Rounding commutes with a power of two, unless the greater result is infinite. -/
theorem units_nearest_mul_pow (k : ℕ) (hden : 0 < den) (h : f.Scalable num den)
    (hfinite : (f.nearest (2 ^ k * num) den).val ≠ f.top) :
    f.units (f.nearest (2 ^ k * num) den).val = 2 ^ k * f.units (f.nearest num den).val := by
  rcases h with hexact | hnormal
  · obtain ⟨m, hm⟩ := f.exists_units_eq_mul k (f.nearest num den).val
    have hnum : 2 ^ k * num = f.units m * den := by rw [hm, Nat.mul_assoc, hexact]
    rw [hnum] at hfinite ⊢
    rw [← hm]
    rcases Nat.le_or_ge m f.top with hle | hge
    · rw [f.nearest_units hle hden]
    · have hmono := f.nearest_mono hden (Nat.mul_le_mul_right den (f.units_strictMono.monotone hge))
      rw [f.nearest_units (Nat.le_refl _) hden] at hmono
      have := (f.nearest (f.units m * den) den).isLt
      omega
  · have hbinade : f.binade ≤ (f.nearest num den).val := by
      refine f.le_nearest hden (Nat.le_trans (by omega) f.three_binades_le_top) ?_
      rw [f.units_of_lt (by have := f.binade_pos; omega)]
      exact (Nat.le_div_iff_mul_le hden).mp hnormal
    rw [f.nearest_mul_pow k hden hnormal] at hfinite ⊢
    rw [Nat.min_eq_right (by omega), f.units_add_binades k hbinade]

/-- An integer is rounded in the same way at every scale: where it is so small that the spacing of
the magnitudes is that of all small ones, it is not rounded. -/
theorem scalable_one (num : ℕ) : f.Scalable num 1 := by
  rcases Nat.lt_or_ge f.binade (f.nearest num 1).val with hlt | hge
  · exact .inr (f.binade_le_of_lt_nearest hlt)
  · exact .inl (by rw [Nat.mul_one, f.units_nearest_one hge])

end FloatFormat

namespace Binary

variable {f g : FloatFormat} {k : ℕ} {x x' y : Binary f}

/-- A finite number above the least normal magnitude. -/
def Ordinary : Binary f → Prop
  | nan => False
  | num _ r => f.binade < r.val ∧ r.val ≠ f.top

instance : (x : Binary f) → Decidable x.Ordinary
  | nan => .isFalse id
  | num _ r => inferInstanceAs (Decidable (f.binade < r.val ∧ r.val ≠ f.top))

/-- A rounding of `q` that does not depend on the size of `q`: it is exact, or it is above the least
normal magnitude. -/
def Steady (x : Binary f) (q : ℚ) : Prop := x.Represents q ∨ x.Ordinary

instance (x : Binary f) (q : ℚ) : Decidable (x.Steady q) := inferInstanceAs (Decidable (_ ∨ _))

/-- A finite number `y` is `2 ^ k` times a finite number `x`, the sign of a zero included. -/
def Scaled (k : ℕ) : (x y : Binary f) → Prop
  | num s r, num t q =>
    s = t ∧ r.val ≠ f.top ∧ q.val ≠ f.top ∧ f.units q.val = 2 ^ k * f.units r.val
  | _, _ => False

/-! ## Scaled numbers -/

theorem Ordinary.isFinite (h : x.Ordinary) : x.isFinite = true := by
  cases x with
  | nan => cases h
  | num s r => exact bne_iff_ne.mpr h.2

theorem ofRung_eq (s : Bool) {n : ℕ} (h : n ≤ f.top) :
    (ofRung s n : Binary f) = num s ⟨n, Nat.lt_succ_of_le h⟩ :=
  congrArg (num s) (Fin.ext (Nat.min_eq_right h))

theorem Steady.isFinite {q : ℚ} (h : x.Steady q) : x.isFinite = true :=
  h.elim And.left Ordinary.isFinite

/-- A magnitude and the one that is `k` binades above it. -/
theorem scaled_ofRung (s : Bool) {n : ℕ} (hn : f.binade ≤ n)
    (hfinite : (ofRung s (n + k * f.binade) : Binary f).isFinite = true) :
    Scaled k (ofRung s n : Binary f) (ofRung s (n + k * f.binade)) := by
  have hlt : n + k * f.binade < f.top := by
    by_contra hge
    exact bne_iff_ne.mp hfinite (Nat.min_eq_left (Nat.not_lt.mp hge))
  rw [ofRung_eq s (show n ≤ f.top by omega), ofRung_eq s hlt.le]
  exact ⟨rfl, (show n < f.top by omega).ne, hlt.ne, f.units_add_binades k hn⟩

namespace Scaled

theorem rung_eq {s t : Bool} {r q : Fin (f.top + 1)} (h : Scaled k (num s r) (num t q))
    (hr : f.binade ≤ r.val) : q.val = r.val + k * f.binade :=
  f.units_strictMono.injective (h.2.2.2.trans (f.units_add_binades k hr).symm)

theorem isZero_iff (h : Scaled k x x') : x'.isZero = true ↔ x.isZero = true := by
  cases x with
  | nan => cases h
  | num s r =>
    cases x' with
    | nan => cases h
    | num t q =>
      change (q.val == 0) = true ↔ (r.val == 0) = true
      rw [beq_iff_eq, beq_iff_eq, ← units_eq_zero_iff (f := f), h.2.2.2,
        ← units_eq_zero_iff (f := f) (r := r.val), mul_eq_zero,
        or_iff_right (Nat.two_pow_pos k).ne']

theorem isFinite_left (h : Scaled k x x') : x.isFinite = true := by
  cases x with
  | nan => cases h
  | num s r =>
    cases x' with
    | nan => cases h
    | num t q => exact bne_iff_ne.mpr h.2.1

theorem isFinite_right (h : Scaled k x x') : x'.isFinite = true := by
  cases x with
  | nan => cases h
  | num s r =>
    cases x' with
    | nan => cases h
    | num t q => exact bne_iff_ne.mpr h.2.2.1

/-- A zero is scaled to itself. -/
theorem eq_of_isZero (h : Scaled k x x') (hzero : x.isZero = true) : x' = x := by
  cases x with
  | nan => cases h
  | num s r =>
    cases x' with
    | nan => cases h
    | num t q =>
      obtain ⟨rfl, -, -, hunits⟩ := h
      have hr : r.val = 0 := beq_iff_eq.mp hzero
      rw [hr, f.units_zero, Nat.mul_zero, units_eq_zero_iff] at hunits
      exact congrArg (num s) (Fin.ext (hunits.trans hr.symm))

end Scaled

/-! ## Operations -/

/-- A rounded fraction is scaled as the fraction is. -/
theorem scaled_round (s : Bool) {num den : ℕ} (hden : 0 < den) (h : f.Scalable num den)
    (hfinite : (f.nearest (2 ^ k * num) den).val ≠ f.top) :
    Scaled k (round s num den : Binary f) (round s (2 ^ k * num) den) := by
  refine ⟨rfl, fun htop => hfinite ?_, hfinite, f.units_nearest_mul_pow k hden h hfinite⟩
  have hmono := f.nearest_mono hden (Nat.le_mul_of_pos_left num (Nat.two_pow_pos k))
  rw [htop] at hmono
  have := (f.nearest (2 ^ k * num) den).isLt
  omega

/-- The factors of a finite product are finite. -/
theorem isFinite_of_mul {x y : Binary f} (h : (x * y).isFinite = true) :
    x.isFinite = true ∧ y.isFinite = true := by
  cases x with
  | nan => cases h
  | num s r =>
  cases y with
  | nan => cases h
  | num t q =>
    by_contra hinfinite
    have htop : r.val = f.top ∨ q.val = f.top := by
      by_contra hne
      rw [not_or] at hne
      exact hinfinite ⟨bne_iff_ne.mpr hne.1, bne_iff_ne.mpr hne.2⟩
    by_cases hzero : r.val = 0 ∨ q.val = 0
    · rw [mul_num_of_undefined htop hzero] at h
      cases h
    · rw [not_or] at hzero
      rw [mul_num_of_infinite htop hzero.1 hzero.2] at h
      exact bne_iff_ne.mp h rfl

/-- A fraction that is not rounded, by the value of the result. -/
theorem units_nearest_of_value {s : Bool} {num den : ℕ} {q : ℚ} (hden : 0 < den)
    (hvalue : (round s num den : Binary f).value = q) (hq : |q| = num / den / f.one) :
    f.units (f.nearest num den).val * den = num := by
  have hone : (f.one : ℚ) ≠ 0 := Nat.cast_ne_zero.mpr f.one_pos.ne'
  have hden : (den : ℚ) ≠ 0 := Nat.cast_ne_zero.mpr hden.ne'
  rw [← hvalue, round, abs_value_num, div_left_inj' hone, eq_div_iff hden] at hq
  exact_mod_cast hq

/-- What a steady rounding of a fraction says of the fraction. -/
theorem scalable_of_steady {s : Bool} {num den : ℕ} {q : ℚ} (hden : 0 < den)
    (h : (round s num den : Binary f).Steady q) (hq : |q| = num / den / f.one) :
    f.Scalable num den := by
  rcases h with ⟨-, hvalue⟩ | hordinary
  · exact .inl (units_nearest_of_value hden hvalue hq)
  · exact .inr (f.binade_le_of_lt_nearest hordinary.1)

/-- A product with a scaled number is scaled, if it is steady and the greater one is finite. -/
theorem Scaled.mul (hx : Scaled k x x') (hsteady : (x * y).Steady (x.value * y.value))
    (hfinite : (x' * y).isFinite = true) : Scaled k (x * y) (x' * y) := by
  cases x with
  | nan => cases hx
  | num s r =>
  cases x' with
  | nan => cases hx
  | num s' r' =>
  cases y with
  | nan => cases hfinite
  | num t q =>
    obtain ⟨rfl, hr, hr', hunits⟩ := hx
    have hq : q.val ≠ f.top := bne_iff_ne.mp (isFinite_of_mul hfinite).2
    have hmul : f.units r'.val * f.units q.val = 2 ^ k * (f.units r.val * f.units q.val) := by
      rw [hunits, Nat.mul_assoc]
    rw [mul_num_of_finite hr' hq, hmul] at hfinite ⊢
    rw [mul_num_of_finite hr hq] at hsteady ⊢
    refine scaled_round _ f.one_pos (scalable_of_steady f.one_pos hsteady ?_)
      (bne_iff_ne.mp hfinite)
    rw [abs_mul, abs_value_num, abs_value_num]
    push_cast
    ring

/-- A conversion is scaled, if it is steady and the greater one is finite. -/
theorem Scaled.cast (hx : Scaled k x x') (hsteady : (x.cast g).Steady x.value)
    (hfinite : (x'.cast g).isFinite = true) : Scaled k (x.cast g) (x'.cast g) := by
  cases x with
  | nan => cases hx
  | num s r =>
  cases x' with
  | nan => cases hx
  | num s' r' =>
    obtain ⟨rfl, hr, hr', hunits⟩ := hx
    have hround {i : Fin (f.top + 1)} (hi : i.val ≠ f.top) :
        (num s i : Binary f).cast g = round s (f.units i.val * g.one) f.one := by
      simp only [Binary.cast, if_neg hi, ofFraction]
    have hmul : f.units r'.val * g.one = 2 ^ k * (f.units r.val * g.one) := by
      rw [hunits, Nat.mul_assoc]
    rw [hround hr', hmul] at hfinite ⊢
    rw [hround hr] at hsteady ⊢
    refine scaled_round _ f.one_pos (scalable_of_steady f.one_pos hsteady ?_)
      (bne_iff_ne.mp hfinite)
    have hone : (g.one : ℚ) ≠ 0 := Nat.cast_ne_zero.mpr g.one_pos.ne'
    rw [abs_value_num]
    push_cast
    field_simp

/-! ## Factors below one -/

/-- A finite number `y` is `2 ^ k` times a finite number `x`, the sign of a zero included, for an
exponent of either sign. -/
def ScaledBy (k : ℤ) : (x y : Binary f) → Prop
  | num s r, num t q =>
    s = t ∧ r.val ≠ f.top ∧ q.val ≠ f.top ∧
      (num t q : Binary f).value = 2 ^ k * (num s r : Binary f).value
  | _, _ => False

instance (k : ℤ) : (x y : Binary f) → Decidable (ScaledBy k x y)
  | num _ _, num _ _ => inferInstanceAs (Decidable (_ ∧ _ ∧ _ ∧ _))
  | nan, _ | num _ _, nan => .isFalse id

theorem scaledBy_natCast_iff : ScaledBy k x y ↔ Scaled k x y := by
  cases x with
  | nan => exact Iff.rfl
  | num s r =>
    cases y with
    | nan => exact Iff.rfl
    | num t q =>
      have hone : (f.one : ℚ) ≠ 0 := Nat.cast_ne_zero.mpr f.one_pos.ne'
      refine and_congr_right fun hst => and_congr_right fun _ => and_congr_right fun _ => ?_
      subst hst
      have hsign : (if s then -1 else 1 : ℚ) ≠ 0 := by cases s <;> simp
      rw [value_num, value_num, mul_left_comm, mul_right_inj' hsign, mul_div_assoc',
        div_left_inj' hone, zpow_natCast]
      exact_mod_cast Iff.rfl

theorem scaledBy_neg_iff {k : ℤ} : ScaledBy (-k) x y ↔ ScaledBy k y x := by
  cases x with
  | nan => cases y <;> exact Iff.rfl
  | num s r =>
    cases y with
    | nan => exact Iff.rfl
    | num t q =>
      have hpow : (2 : ℚ) ^ k ≠ 0 := zpow_ne_zero k two_ne_zero
      have hvalue : (num t q : Binary f).value = 2 ^ (-k) * (num s r : Binary f).value ↔
          (num s r : Binary f).value = 2 ^ k * (num t q : Binary f).value := by
        rw [zpow_neg, eq_inv_mul_iff_mul_eq₀ hpow]
        exact eq_comm
      exact ⟨fun ⟨hst, hr, hq, h⟩ => ⟨hst.symm, hq, hr, hvalue.mp h⟩,
        fun ⟨hst, hr, hq, h⟩ => ⟨hst.symm, hq, hr, hvalue.mpr h⟩⟩

/-! ## Numbers of limited magnitude -/

/-- A finite number that is zero or has a magnitude between `2 ^ -range` and `2 ^ range`. -/
def Within (range : ℕ) (x : Binary f) : Prop :=
  x.isFinite = true ∧ (x.isZero = true ∨ 1 / 2 ^ range ≤ |x.value| ∧ |x.value| ≤ 2 ^ range)

instance (range : ℕ) (x : Binary f) : Decidable (x.Within range) :=
  inferInstanceAs (Decidable (_ ∧ (_ ∨ _ ∧ _)))

section Within

variable {range : ℕ}

open FloatFormat (double)

theorem units_two_pow_neg (hrange : range ≤ 900) :
    double.units ((1023 - range) * double.binade) * 2 ^ range = double.one := by
  have hbinades : 1023 - range = 123 + (900 - range) := by omega
  have hlow : double.units (123 * double.binade) = 2 ^ 174 := by decide +kernel
  have hone : double.one = 2 ^ 900 * 2 ^ 174 := by decide +kernel
  rw [hbinades, Nat.add_mul, double.units_add_binades _ (by decide), hlow, hone,
    Nat.mul_right_comm, pow_sub_mul_pow 2 hrange]

theorem units_two_pow (range : ℕ) :
    double.units ((1023 + range) * double.binade) = 2 ^ range * double.one := by
  have hone : double.units (1023 * double.binade) = double.one := by decide +kernel
  rw [Nat.add_mul, double.units_add_binades _ (by decide), hone]

theorem le_units_of_units_two_pow_neg_le {n : ℕ} (hrange : range ≤ 900)
    (h : (1023 - range) * double.binade ≤ n) : double.one ≤ double.units n * 2 ^ range := by
  rw [← units_two_pow_neg hrange]
  exact Nat.mul_le_mul_right _ (double.units_strictMono.monotone h)

/-- A magnitude within a range is converted to one within that range. -/
theorem castRung_within {r : Fin (f.top + 1)} (hr : r.val ≠ f.top) (hrange : range ≤ 900)
    (hlow : f.one ≤ f.units r.val * 2 ^ range) (hhigh : f.units r.val ≤ 2 ^ range * f.one) :
    (1023 - range) * double.binade ≤ (castRung .double r).val ∧
      (castRung .double r).val ≤ (1023 + range) * double.binade := by
  have htop : (1023 + range) * double.binade ≤ double.top :=
    (Nat.mul_le_mul_right _ (Nat.add_le_add_left hrange 1023)).trans (by decide)
  rw [castRung, if_neg hr]
  constructor
  · refine double.le_nearest f.one_pos
      ((Nat.mul_le_mul_right _ (by omega)).trans htop) ?_
    rw [← units_two_pow_neg hrange, Nat.mul_comm (f.units r.val), Nat.mul_assoc]
    exact Nat.mul_le_mul_left _ (by rwa [Nat.mul_comm])
  · refine double.nearest_le f.one_pos htop ?_
    rw [units_two_pow, Nat.mul_right_comm]
    exact Nat.mul_le_mul_right _ hhigh

/-- As a 64-bit number, a number within a range is within that range, and above the least normal
magnitude unless it is zero. -/
theorem Within.cast (h : x.Within range) (hrange : range ≤ 900) :
    (x.cast .double).Within range ∧ (x.cast .double).Steady x.value := by
  cases x with
  | nan => cases h.1
  | num s r =>
    obtain ⟨hfinite, hsize⟩ := h
    have hr : r.val ≠ f.top := bne_iff_ne.mp hfinite
    rw [cast_num]
    rcases hsize with hzero | ⟨hlow, hhigh⟩
    · have hcast : (castRung .double r).val = 0 := castRung_eq_zero (beq_iff_eq.mp hzero)
      have hcastFinite : (num s (castRung .double r) : Double).isFinite = true :=
        bne_iff_ne.mpr (hcast ▸ double.top_ne_zero.symm)
      have hcastZero : (num s (castRung .double r) : Double).isZero = true := beq_iff_eq.mpr hcast
      refine ⟨⟨hcastFinite, .inl hcastZero⟩, .inl ⟨hcastFinite, ?_⟩⟩
      rw [(value_eq_zero_iff rfl).mpr hcastZero, (value_eq_zero_iff rfl).mpr hzero]
    · have hone : (0 : ℚ) < f.one := Nat.cast_pos.mpr f.one_pos
      rw [abs_value_num] at hlow hhigh
      rw [div_le_div_iff₀ (by positivity) hone, Rat.one_mul] at hlow
      rw [div_le_iff₀ hone] at hhigh
      obtain ⟨hlower, hupper⟩ :=
        castRung_within hr hrange (by exact_mod_cast hlow) (by exact_mod_cast hhigh)
      have hnormal : double.binade < (1023 - range) * double.binade := by
        have hbinade : 0 < double.binade := by decide
        nlinarith [show 123 ≤ 1023 - range by omega]
      have htop : (1023 + range) * double.binade < double.top :=
        (Nat.mul_le_mul_right _ (Nat.add_le_add_left hrange 1023)).trans_lt (by decide)
      have hunits := le_units_of_units_two_pow_neg_le hrange hlower
      have hunits' := double.units_strictMono.monotone hupper
      rw [units_two_pow] at hunits'
      have hone' : (0 : ℚ) < double.one := Nat.cast_pos.mpr double.one_pos
      refine ⟨⟨bne_iff_ne.mpr (hupper.trans_lt htop).ne, .inr ?_⟩,
        .inr ⟨hnormal.trans_le hlower, (hupper.trans_lt htop).ne⟩⟩
      rw [abs_value_num, div_le_div_iff₀ (by positivity) hone', div_le_iff₀ hone', Rat.one_mul]
      exact ⟨by exact_mod_cast hunits, by exact_mod_cast hunits'⟩

end Within

end Binary

end StandardForm
