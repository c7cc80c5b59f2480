import StandardForm.Proofs.Binary.Monotone

/-!
# Magnitudes with one half added

Far above one half, where neighbouring magnitudes lie more than one apart, adding one half changes
nothing: the sum is nearest to the magnitude that it started from. Below that both are small. So a
magnitude with one half added stays finite where it was finite, in the other formats too, and leaves
as much room for doubling.
-/

namespace StandardForm

theorem roundHalfEven_mul_add {q den e : ℕ} (h : 2 * e < den) :
    roundHalfEven (q * den + e) den = q := by
  have hden : 0 < den := by omega
  have hdiv : (q * den + e) / den = q := by
    rw [Nat.mul_comm, Nat.mul_add_div hden, Nat.div_eq_of_lt (by omega), Nat.add_zero]
  have hmod : (q * den + e) % den = e := by
    rw [Nat.mul_comm, Nat.mul_add_mod, Nat.mod_eq_of_lt (by omega)]
  simp only [roundHalfEven, hdiv, hmod, h, true_or, if_true]

namespace FloatFormat

variable (f : FloatFormat)

/-- A fraction of units in binade `k + 1` is rounded to a multiple of `2 ^ k`. -/
theorem scaleOf_binade {k m e : ℕ} (hm : m < f.binade) (he : e < 2 ^ k) :
    f.scaleOf ((f.binade + m) * 2 ^ k + e) = k := by
  have hpos := f.binade_pos
  have hlog : ((f.binade + m) * 2 ^ k + e).log2 = f.precision - 1 + k := by
    have hne : (f.binade + m) * 2 ^ k + e ≠ 0 := by
      have := Nat.mul_pos (n := f.binade + m) (by omega) (Nat.two_pow_pos k)
      omega
    rw [Nat.log2_eq_iff hne]
    constructor
    · rw [Nat.pow_add, ← binade_eq]
      have := Nat.mul_le_mul_right (2 ^ k) (Nat.le_add_right f.binade m)
      omega
    · have hle : (f.binade + m + 1) * 2 ^ k ≤ 2 * f.binade * 2 ^ k :=
        Nat.mul_le_mul_right _ (by omega)
      have hpow : 2 ^ (f.precision - 1 + k + 1) = 2 * f.binade * 2 ^ k := by
        rw [binade_eq]
        ring
      rw [Nat.succ_mul] at hle
      omega
  have := f.precision_pos
  rw [scaleOf, hlog]
  omega

/-- What is less than half of the distance between neighbouring magnitudes is lost. -/
theorem nearest_add_small {r k e : ℕ} (hr : r < f.top) (hk : (k + 1) * f.binade ≤ r)
    (he : 2 * e < 2 ^ k) : (f.nearest (f.units r + e) 1).val = r := by
  have hbinade : f.binade ≤ r := by
    have := Nat.le_mul_of_pos_left f.binade (Nat.add_one_pos k)
    omega
  obtain ⟨k', m, hm, rfl⟩ := f.exists_binade hbinade
  have hle : k ≤ k' := by
    by_contra hlt
    have hmul : (k' + 1 + 1) * f.binade ≤ (k + 1) * f.binade := Nat.mul_le_mul_right _ (by omega)
    rw [Nat.succ_mul] at hmul
    omega
  have he' : 2 * e < 2 ^ k' := he.trans_le (Nat.pow_le_pow_right Nat.two_pos hle)
  have hrung : k' * f.binade + (f.binade + m) = (k' + 1) * f.binade + m := by ring
  rw [nearest_val, Nat.div_one, Nat.one_mul, f.units_binade k' m hm,
    f.scaleOf_binade hm (by omega), roundHalfEven_mul_add he', hrung]
  exact Nat.min_eq_right hr.le

/-- The number of binades below which one half is not lost. -/
def absorbing : ℕ := f.scale + 2

/-- Adding one half either changes nothing or happens, and stays, near the foot of the ladder. -/
theorem nearest_add_half {r half : ℕ} (hr : r < f.top) (hhalf : 2 * half = f.one) :
    (f.nearest (f.units r + half) 1).val = r ∨
      r < f.absorbing * f.binade ∧
        (f.nearest (f.units r + half) 1).val ≤ (f.absorbing + 1) * f.binade := by
  rcases Nat.lt_or_ge r (f.absorbing * f.binade) with hlt | hge
  · refine .inr ⟨hlt, ?_⟩
    have hfoot : (f.absorbing + 1) * f.binade ≤ f.top := by
      refine Nat.mul_le_mul_right _ ?_
      cases f <;> decide
    have hunits : f.units r + half ≤ f.units ((f.absorbing + 1) * f.binade) := by
      have hle := f.units_strictMono.monotone hlt.le
      have hfoot' : f.units (f.absorbing * f.binade) = 2 ^ (f.precision - 1 + (f.scale + 1)) :=
        f.units_mul_binade (f.scale + 1)
      have hnext : f.units ((f.absorbing + 1) * f.binade) =
          2 * 2 ^ (f.precision - 1 + (f.scale + 1)) := by
        rw [← Nat.pow_succ']
        exact f.units_mul_binade (f.scale + 2)
      have hlarge : f.one ≤ 2 ^ (f.precision - 1 + (f.scale + 1)) := by
        rw [f.one_eq]
        exact Nat.pow_le_pow_right Nat.two_pos (by omega)
      omega
    have hmono := f.nearest_mono Nat.one_pos hunits
    have hexact := f.nearest_units hfoot Nat.one_pos
    rw [Nat.mul_one] at hexact
    rwa [hexact] at hmono
  · refine .inl (f.nearest_add_small hr hge ?_)
    rw [hhalf, f.one_eq]
    exact Nat.pow_lt_pow_right Nat.one_lt_two (by omega)

end FloatFormat

namespace Binary

variable {f g : FloatFormat}

theorem infinity_add_half : infinity (f := f) false + twoPowNeg f 1 = infinity false := by
  obtain ⟨h, htop, -, -, hhalf⟩ := exists_half f
  rw [hhalf]
  show add _ _ = _
  simp [add, infinity, htop]

/-- A finite magnitude and one half. -/
theorem num_add_half {r : Fin (f.top + 1)} (hr : r.val ≠ f.top) :
    ∃ half, 2 * half = f.one ∧
      (num false r + twoPowNeg f 1 : Binary f) =
        num false (f.nearest (f.units r.val + half) 1) := by
  obtain ⟨h, htop, h0, hunits, hhalf⟩ := exists_half f
  refine ⟨f.units h.val, hunits, ?_⟩
  have hpos := units_pos (f := f) h0
  have hsum : signedUnits (f := f) false r.val + signedUnits (f := f) false h.val =
      ((f.units r.val + f.units h.val : ℕ) : ℤ) := by
    show (f.units r.val : ℤ) + f.units h.val = _
    omega
  rw [hhalf, add_num _ _ _ _ hr htop]
  simp only [hsum]
  rw [if_neg (by omega), Int.natAbs_natCast, decide_eq_false (by omega)]
  rfl

/-- A number with one half added to its magnitude is a NaN, or is not negative. -/
theorem abs_add_half_eq_or (x : Binary f) :
    x.isNaN = true ∧ x.abs + twoPowNeg f 1 = nan ∨
      ∃ r, x.isNaN = false ∧ x.abs + twoPowNeg f 1 = num false r := by
  cases x with
  | nan => exact .inl ⟨rfl, rfl⟩
  | num s r =>
    by_cases hr : r.val = f.top
    · have habs : (num s r : Binary f).abs = infinity false := congrArg (num false) (Fin.ext hr)
      rw [habs, infinity_add_half]
      exact .inr ⟨_, rfl, rfl⟩
    · obtain ⟨half, -, hsum⟩ := num_add_half hr
      exact .inr ⟨_, rfl, hsum⟩

/-- A finite magnitude with one half added is the same, or both are near the foot of the ladder. -/
theorem exists_abs_add_half {x : Binary f} (hx : x.isFinite = true) :
    ∃ r q : Fin (f.top + 1), x.abs = num false r ∧ r.val < f.top ∧
      x.abs + twoPowNeg f 1 = num false q ∧
      (q = r ∨ r.val < f.absorbing * f.binade ∧ q.val ≤ (f.absorbing + 1) * f.binade) := by
  cases x with
  | nan => cases hx
  | num s r =>
    have hr : r.val ≠ f.top := bne_iff_ne.mp hx
    obtain ⟨half, hhalf, hsum⟩ := num_add_half hr
    refine ⟨r, _, rfl, by omega, hsum, ?_⟩
    exact (f.nearest_add_half (by omega) hhalf).imp_left Fin.ext

/-- Near the foot of the ladder every number is finite in the double format. -/
theorem isFinite_cast_double_of_le {r : Fin (f.top + 1)} (s : Bool)
    (h : r.val ≤ (f.absorbing + 1) * f.binade) :
    ((num s r : Binary f).cast .double).isFinite = true := by
  refine isFinite_cast_of_le s h ?_ ?_
  · refine Nat.mul_lt_mul_of_pos_right ?_ f.binade_pos
    cases f <;> decide
  · cases f <;> decide +kernel

theorem isFinite_cast_abs (x : Binary f) : (x.abs.cast g).isFinite = (x.cast g).isFinite := by
  cases x with
  | nan => rfl
  | num s r =>
    show ((num false r : Binary f).cast g).isFinite = _
    rw [cast_num, cast_num]
    rfl

/-- With one half added to its magnitude a number is finite in the double format exactly when it was
so before. -/
theorem isFinite_cast_abs_add_half (x : Binary f) :
    ((x.abs + twoPowNeg f 1).cast .double).isFinite = (x.cast .double).isFinite := by
  rw [← isFinite_cast_abs x]
  cases hx : x.isFinite with
  | true =>
    obtain ⟨r, q, habs, -, hsum, rfl | ⟨hr, hq⟩⟩ := exists_abs_add_half hx
    · rw [hsum, habs]
    · rw [hsum, habs, isFinite_cast_double_of_le false hq,
        isFinite_cast_double_of_le false ?_]
      rw [Nat.succ_mul]
      omega
  | false =>
    cases x with
    | nan => rfl
    | num s r =>
      have hr : r.val = f.top := by simpa [isFinite] using hx
      have habs : (num s r : Binary f).abs = infinity false := congrArg (num false) (Fin.ext hr)
      rw [habs, infinity_add_half]

end Binary

end StandardForm
