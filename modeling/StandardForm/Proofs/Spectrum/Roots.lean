import Mathlib.Algebra.Polynomial.Taylor
import Mathlib.Data.Rat.Cast.Order
import StandardForm.Proofs.Spectrum.Rank

/-!
# Where no root is counted

Dividing by a linear factor again and again gives the coefficients around a point, and multiplying
the roots by a denominator first makes the point an integer. So the coefficients that roots are
counted with are those of the polynomial with its origin moved to the point, up to positive factors.

No root is counted above a point exactly when none of these coefficients is negative, provided that
the leading one is positive. All points further up then share this, and none of them is a root.
-/

namespace StandardForm.Spectrum

open Polynomial

noncomputable def polynomialOf : List ℤ → ℚ[X]
  | [] => 0
  | c :: p => C (c : ℚ) * X ^ p.length + polynomialOf p

theorem polynomialOf_cons (c : ℤ) (p : List ℤ) :
    polynomialOf (c :: p) = C (c : ℚ) * X ^ p.length + polynomialOf p := rfl

theorem natDegree_polynomialOf_le (c : ℤ) (p : List ℤ) :
    (polynomialOf (c :: p)).natDegree ≤ p.length := by
  induction p generalizing c with
  | nil => simp [polynomialOf]
  | cons b p ih =>
    rw [polynomialOf_cons]
    exact natDegree_add_le_of_degree_le (natDegree_C_mul_X_pow_le _ _)
      ((ih b).trans (Nat.le_succ _))

theorem coeff_polynomialOf_length (c : ℤ) (p : List ℤ) :
    (polynomialOf (c :: p)).coeff p.length = c := by
  have hrest : (polynomialOf p).coeff p.length = 0 := by
    cases p with
    | nil => exact coeff_zero _
    | cons b p =>
      exact coeff_eq_zero_of_natDegree_lt
        (Nat.lt_of_le_of_lt (natDegree_polynomialOf_le b p) (Nat.lt_succ_self _))
  rw [polynomialOf_cons, coeff_add, coeff_C_mul_X_pow, if_pos rfl, hrest, add_zero]

/-! ## Coefficients around a point -/

/-- The nested scheme divides by the linear factor of `t`. -/
theorem polynomialOf_synthetic (t carry c : ℤ) (p : List ℤ) :
    polynomialOf (c :: p) + C ((t * carry : ℤ) : ℚ) * X ^ p.length =
      (X - C (t : ℚ)) * polynomialOf (synthetic t carry (c :: p)).dropLast +
        C (((synthetic t carry (c :: p)).getLastD 0 : ℤ) : ℚ) := by
  induction p generalizing carry c with
  | nil => simp [polynomialOf, synthetic]
  | cons b p ih =>
    have hcut : (synthetic t carry (c :: b :: p)).dropLast =
        (c + t * carry) :: (synthetic t (c + t * carry) (b :: p)).dropLast := rfl
    have hlast : (synthetic t carry (c :: b :: p)).getLastD 0 =
        (synthetic t (c + t * carry) (b :: p)).getLastD 0 := rfl
    have hlength : (synthetic t (c + t * carry) (b :: p)).dropLast.length = p.length := by
      simp [List.length_dropLast]
    have hrest := ih (c + t * carry) b
    rw [hcut, hlast, polynomialOf_cons c, polynomialOf_cons (c + t * carry), hlength, mul_add,
      add_assoc _ _ (C (((synthetic t (c + t * carry) (b :: p)).getLastD 0 : ℤ) : ℚ)), ← hrest,
      List.length_cons]
    push_cast
    simp only [C_add, C_mul]
    ring

theorem polynomialOf_eq_dropLast (t : ℤ) (p : List ℤ) :
    polynomialOf p = (X - C (t : ℚ)) * polynomialOf (synthetic t 0 p).dropLast +
      C (((synthetic t 0 p).getLastD 0 : ℤ) : ℚ) := by
  cases p with
  | nil => simp [polynomialOf, synthetic]
  | cons c p => simpa using polynomialOf_synthetic t 0 c p

/-- The remainders are the coefficients after `t` is moved to the origin. -/
theorem getElem_shiftedFrom (t : ℤ) (steps : ℕ) (p : List ℤ) (i : ℕ)
    (h : i < (shiftedFrom t steps p).length) :
    ((shiftedFrom t steps p)[i] : ℚ) = (taylor (t : ℚ) (polynomialOf p)).coeff i := by
  induction steps generalizing p i with
  | zero => cases h
  | succ steps ih =>
    rw [polynomialOf_eq_dropLast t p, map_add, taylor_mul, map_sub, taylor_X, taylor_C, taylor_C,
      add_sub_cancel_right]
    cases i with
    | zero => simp [shiftedFrom]
    | succ i =>
      rw [coeff_add, coeff_X_mul, coeff_C_succ, add_zero]
      exact ih _ i _

/-- The polynomial whose roots are `k` times as large, at a point that is. -/
theorem polynomialOf_scaleRoots (k power c : ℤ) (p : List ℤ) :
    (polynomialOf (scaleRoots k power (c :: p))).comp (C (k : ℚ) * X) =
      C ((power * k ^ p.length : ℤ) : ℚ) * polynomialOf (c :: p) := by
  induction p generalizing power c with
  | nil => simp [polynomialOf, scaleRoots]; ring
  | cons b p ih =>
    have hrest := ih (power * k) b
    rw [scaleRoots, polynomialOf_cons, polynomialOf_cons c, add_comp, hrest, length_scaleRoots,
      mul_comp, C_comp, X_pow_comp, mul_pow, List.length_cons, mul_add]
    push_cast
    simp only [C_mul, C_pow]
    ring

/-- Moving the origin to `t` after the roots are multiplied by `k` moves it to `t / k`. -/
theorem coeff_taylor_scaleRoots {k : ℤ} (hk : k ≠ 0) (t c : ℤ) (p : List ℤ) (i : ℕ) :
    (taylor (t : ℚ) (polynomialOf (scaleRoots k 1 (c :: p)))).coeff i * k ^ i =
      k ^ p.length * (taylor (t / k : ℚ) (polynomialOf (c :: p))).coeff i := by
  have hk : (k : ℚ) ≠ 0 := Int.cast_ne_zero.mpr hk
  have hpoint : (C (k : ℚ) * X).comp (X + C (t / k : ℚ)) = (X + C (t : ℚ)).comp (C (k : ℚ) * X) := by
    simp only [mul_comp, C_comp, X_comp, add_comp, mul_add, ← C_mul, mul_div_cancel₀ _ hk]
  have hmoved := congrArg (fun q : ℚ[X] => (q.comp (X + C (t / k : ℚ))).coeff i)
    (polynomialOf_scaleRoots k 1 c p)
  rw [one_mul, comp_assoc, hpoint, ← comp_assoc, comp_C_mul_X_coeff, mul_comp, C_comp,
    coeff_C_mul] at hmoved
  rw [taylor_apply, taylor_apply, hmoved]
  push_cast
  rfl

/-- The coefficients around `num / den` are those of the polynomial with the origin moved there, up
to a positive factor each. -/
theorem exists_getElem_around_eq {c : ℤ} {p : List ℤ} {num : ℤ} {den : ℕ} (hden : 0 < den) {i : ℕ}
    (h : i < (around (c :: p) num den).length) :
    ∃ a : ℚ, 0 < a ∧ ((around (c :: p) num den)[i] : ℚ) =
      a * (taylor (num / den : ℚ) (polynomialOf (c :: p))).coeff i := by
  obtain ⟨t, ht⟩ : ((num.natAbs.gcd den : ℕ) : ℤ) ∣ num :=
    Int.natCast_dvd.mpr (Nat.gcd_dvd_left _ _)
  obtain ⟨k, hk⟩ : ((num.natAbs.gcd den : ℕ) : ℤ) ∣ den :=
    Int.natCast_dvd_natCast.mpr (Nat.gcd_dvd_right _ _)
  have hg : (0 : ℤ) < (num.natAbs.gcd den : ℕ) :=
    Int.natCast_pos.mpr (Nat.gcd_pos_of_pos_right _ hden)
  have hkpos : 0 < k := pos_of_mul_pos_right (hk ▸ Int.natCast_pos.mpr hden) hg.le
  have hentry : ((around (c :: p) num den)[i] : ℚ) =
      (taylor (t : ℚ) (polynomialOf (scaleRoots k 1 (c :: p)))).coeff i := by
    have hnum : num / (num.natAbs.gcd den : ℕ) = t :=
      Int.ediv_eq_of_eq_mul_right hg.ne' ht
    have hdenom : (den : ℤ) / (num.natAbs.gcd den : ℕ) = k :=
      Int.ediv_eq_of_eq_mul_right hg.ne' hk
    simp only [around, hnum, hdenom]
    exact getElem_shiftedFrom _ _ _ _ _
  have hratio : (num / den : ℚ) = t / k := by
    have hnum : (num : ℚ) = (num.natAbs.gcd den : ℕ) * t := by exact_mod_cast ht
    have hdenom : (den : ℚ) = (num.natAbs.gcd den : ℕ) * k := by exact_mod_cast hk
    rw [hnum, hdenom, mul_div_mul_left _ _ (by exact_mod_cast hg.ne')]
  have hk : (0 : ℚ) < k := Int.cast_pos.mpr hkpos
  refine ⟨k ^ p.length / k ^ i, by positivity, ?_⟩
  rw [hentry, hratio, div_mul_eq_mul_div, ← coeff_taylor_scaleRoots hkpos.ne',
    mul_div_cancel_right₀ _ (pow_pos hk i).ne']

theorem getElem_around_nonneg_iff {c : ℤ} {p : List ℤ} {num : ℤ} {den : ℕ} (hden : 0 < den) {i : ℕ}
    (h : i < (around (c :: p) num den).length) :
    0 ≤ (around (c :: p) num den)[i] ↔
      0 ≤ (taylor (num / den : ℚ) (polynomialOf (c :: p))).coeff i := by
  obtain ⟨a, ha, heq⟩ := exists_getElem_around_eq hden h
  rw [← Int.cast_nonneg_iff (R := ℚ), heq, mul_nonneg_iff_of_pos_left ha]

theorem getElem_around_pos_iff {c : ℤ} {p : List ℤ} {num : ℤ} {den : ℕ} (hden : 0 < den) {i : ℕ}
    (h : i < (around (c :: p) num den).length) :
    0 < (around (c :: p) num den)[i] ↔
      0 < (taylor (num / den : ℚ) (polynomialOf (c :: p))).coeff i := by
  obtain ⟨a, ha, heq⟩ := exists_getElem_around_eq hden h
  rw [← Int.cast_pos (R := ℚ), heq, mul_pos_iff_of_pos_left ha]

/-- A common factor of a fraction does not matter. -/
theorem rootsFrom_mul (p : List ℤ) (num : ℤ) (den : ℕ) {c : ℕ} (hc : 0 < c) :
    rootsFrom p (c * num) (c * den) = rootsFrom p num den := by
  have haround : around p (c * num) (c * den) = around p num den := by
    have hpos : (0 : ℤ) < c := Int.natCast_pos.mpr hc
    simp only [around, Int.natAbs_mul, Int.natAbs_natCast, Nat.gcd_mul_left, Nat.cast_mul,
      Int.mul_ediv_mul_of_pos _ _ hpos]
  rw [rootsFrom, rootsFrom, haround]

/-! ## Changes of sign -/

/-- Without a change of sign all numbers are negative or none is. -/
theorem variations_eq_zero_iff {cs : List ℤ} :
    variations cs = 0 ↔ ∀ a ∈ cs, ∀ b ∈ cs, (a < 0 ↔ b < 0) := by
  fun_induction variations cs with
  | case1 a b cs ih =>
    rw [Nat.add_eq_zero_iff, ih]
    constructor
    · rintro ⟨hrest, hsign⟩
      have hab : a < 0 ↔ b < 0 := by simpa using hsign
      have hhead (x : ℤ) (hx : x ∈ a :: b :: cs) : x < 0 ↔ b < 0 := by
        rcases List.mem_cons.mp hx with rfl | hx
        · exact hab
        · exact hrest x hx b List.mem_cons_self
      exact fun x hx y hy => (hhead x hx).trans (hhead y hy).symm
    · intro h
      refine ⟨fun x hx y hy => h x (List.mem_cons_of_mem _ hx) y (List.mem_cons_of_mem _ hy), ?_⟩
      simpa using h a List.mem_cons_self b (List.mem_cons_of_mem _ List.mem_cons_self)
  | case2 cs hshort =>
    rcases cs with _ | ⟨a, _ | ⟨b, cs⟩⟩
    · simp
    · simp
    · exact absurd rfl (hshort a b cs)

/-- If some coefficient is positive, the signs change unless no coefficient is negative. -/
theorem variations_filter_eq_zero_iff {cs : List ℤ} {c : ℤ} (hmem : c ∈ cs) (hc : 0 < c) :
    variations (cs.filter (· ≠ 0)) = 0 ↔ ∀ a ∈ cs, 0 ≤ a := by
  rw [variations_eq_zero_iff]
  have hkept (a : ℤ) : a ∈ cs.filter (· ≠ 0) ↔ a ∈ cs ∧ a ≠ 0 := by simp
  constructor
  · intro h a ha
    by_contra hneg
    have := h a ((hkept a).mpr ⟨ha, by omega⟩) c ((hkept c).mpr ⟨hmem, hc.ne'⟩)
    omega
  · intro h a ha b hb
    have := h a ((hkept a).mp ha).1
    have := h b ((hkept b).mp hb).1
    omega

/-! ## Polynomials without negative coefficients -/

theorem coeff_taylor_nonneg {q : ℚ[X]} (h : ∀ i, 0 ≤ q.coeff i) {d : ℚ} (hd : 0 ≤ d) (i : ℕ) :
    0 ≤ (taylor d q).coeff i := by
  rw [taylor_coeff, eval_eq_sum_range]
  refine Finset.sum_nonneg fun j _ => mul_nonneg ?_ (pow_nonneg hd j)
  rw [hasseDeriv_coeff]
  exact mul_nonneg (Nat.cast_nonneg _) (h _)

theorem eval_pos_of_coeff_nonneg {q : ℚ[X]} (h : ∀ i, 0 ≤ q.coeff i) (hq : 0 < q.leadingCoeff)
    {d : ℚ} (hd : 0 < d) : 0 < q.eval d := by
  rw [eval_eq_sum_range]
  exact lt_of_lt_of_le (mul_pos hq (pow_pos hd _))
    (Finset.single_le_sum (fun j _ => mul_nonneg (h j) (pow_pos hd j).le)
      (Finset.self_mem_range_succ _))

section Monic

variable {p : List ℤ} {num num' : ℤ} {den den' : ℕ}

theorem length_around (c : ℤ) (p : List ℤ) (num : ℤ) (den : ℕ) :
    (around (c :: p) num den).length = p.length + 1 := by
  simp [around, shifted]

theorem natDegree_taylor_polynomialOf (p : List ℤ) (x : ℚ) :
    (taylor x (polynomialOf (1 :: p))).natDegree = p.length := by
  rw [natDegree_taylor]
  refine le_antisymm (natDegree_polynomialOf_le 1 p) (le_natDegree_of_ne_zero ?_)
  rw [coeff_polynomialOf_length]
  exact one_ne_zero

theorem coeff_taylor_polynomialOf_length (p : List ℤ) (x : ℚ) :
    (taylor x (polynomialOf (1 :: p))).coeff p.length = 1 := by
  have hdegree : (polynomialOf (1 :: p)).natDegree = p.length := by
    rw [← natDegree_taylor _ x, natDegree_taylor_polynomialOf]
  rw [← hdegree, coeff_taylor_natDegree, leadingCoeff, hdegree, coeff_polynomialOf_length,
    Int.cast_one]

/-- No root is counted above a point where all coefficients are at least zero, and above no other
one. -/
theorem rootsFrom_fst_eq_zero_iff (hden : 0 < den) :
    (rootsFrom (1 :: p) num den).1 = 0 ↔
      ∀ i, 0 ≤ (taylor (num / den : ℚ) (polynomialOf (1 :: p))).coeff i := by
  have hlength := length_around 1 p num den
  have hlead : 0 < (around (1 :: p) num den)[p.length] := by
    rw [getElem_around_pos_iff hden, coeff_taylor_polynomialOf_length]
    exact one_pos
  have hall := variations_filter_eq_zero_iff (List.getElem_mem (by omega)) hlead
  rw [rootsFrom]
  refine hall.trans ⟨fun h i => ?_, fun h a ha => ?_⟩
  · by_cases hi : i < (around (1 :: p) num den).length
    · exact (getElem_around_nonneg_iff hden hi).mp (h _ (List.getElem_mem hi))
    · refine (coeff_eq_zero_of_natDegree_lt ?_).ge
      rw [natDegree_taylor_polynomialOf]
      omega
  · obtain ⟨i, hi, rfl⟩ := List.getElem_of_mem ha
    exact (getElem_around_nonneg_iff hden hi).mpr (h i)

/-- Where no root is counted above a point, there is none at any point further up or above it. -/
theorem rootsFrom_eq_zero_of_lt (hden : 0 < den) (hden' : 0 < den')
    (h : (rootsFrom (1 :: p) num den).1 = 0) (hlt : (num / den : ℚ) < num' / den') :
    rootsFrom (1 :: p) num' den' = (0, 0) := by
  rw [rootsFrom_fst_eq_zero_iff hden] at h
  obtain ⟨d, hd, hsum⟩ : ∃ d : ℚ, 0 < d ∧ d + num / den = num' / den' :=
    ⟨_, sub_pos.mpr hlt, sub_add_cancel _ _⟩
  have habove : (rootsFrom (1 :: p) num' den').1 = 0 := by
    rw [rootsFrom_fst_eq_zero_iff hden', ← hsum, ← taylor_taylor]
    exact coeff_taylor_nonneg h hd.le
  have hvalue : 0 < (taylor (num' / den' : ℚ) (polynomialOf (1 :: p))).coeff 0 := by
    rw [← hsum, ← taylor_taylor, taylor_coeff_zero]
    refine eval_pos_of_coeff_nonneg h ?_ hd
    rw [leadingCoeff, natDegree_taylor_polynomialOf, coeff_taylor_polynomialOf_length]
    exact one_pos
  have hequal : (around (1 :: p) num' den').takeWhile (· = 0) = [] := by
    refine List.takeWhile_eq_nil_iff.mpr fun hpos hzero => ?_
    exact ((getElem_around_pos_iff hden' hpos).mpr hvalue).ne' (of_decide_eq_true hzero)
  exact Prod.ext habove (congrArg List.length hequal)

end Monic

end StandardForm.Spectrum
