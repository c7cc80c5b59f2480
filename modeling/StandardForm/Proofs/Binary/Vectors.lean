import Mathlib.Data.List.GetD
import StandardForm.Proofs.Binary.Products

/-!
# Lists of numbers as vectors

A list of finite numbers stands for a vector, the computed product of two lists for the inner
product of their vectors, and the computed length for the Euclidean one. The product is off by a few
roundings of the product of the lengths, so a computed length is close to the length as long as the
squares of the entries do not vanish below the least magnitude.
-/

namespace StandardForm.Binary

variable {f : FloatFormat} {n : ℕ}

def realVector (n : ℕ) (xs : List (Binary f)) : EuclideanSpace ℝ (Fin n) :=
  WithLp.toLp 2 fun i => ((xs.getD i 0).value : ℝ)

@[simp] theorem realVector_apply (xs : List (Binary f)) (i : Fin n) :
    realVector n xs i = ((xs.getD i 0).value : ℝ) := rfl

/-- A list of `n` finite numbers. -/
structure IsVector (n : ℕ) (xs : List (Binary f)) : Prop where
  length_eq : xs.length = n
  finite : ∀ x ∈ xs, x.isFinite = true

theorem IsVector.finite_getD {xs : List (Binary f)} (h : IsVector n xs) (i : Fin n) :
    (xs.getD i 0).isFinite = true := by
  have hi : i < xs.length := h.length_eq ▸ i.isLt
  rw [List.getD_eq_getElem _ _ hi]
  exact h.finite _ (List.getElem_mem hi)

theorem isVector_of_getD {xs : List (Binary f)} (hlength : xs.length = n)
    (h : ∀ i : Fin n, (xs.getD i 0).isFinite = true) : IsVector n xs := by
  refine ⟨hlength, fun x hx => ?_⟩
  obtain ⟨k, hk, rfl⟩ := List.mem_iff_getElem.mp hx
  have hentry := h ⟨k, hlength ▸ hk⟩
  rwa [List.getD_eq_getElem _ _ hk] at hentry

/-! ## Lengths of vectors -/

section Lengths

variable {v w : EuclideanSpace ℝ (Fin n)}

theorem norm_le_norm_of_abs_le (h : ∀ i, |v i| ≤ w i) : ‖v‖ ≤ ‖w‖ := by
  refine le_of_sq_le_sq ?_ (norm_nonneg w)
  rw [EuclideanSpace.real_norm_sq_eq, EuclideanSpace.real_norm_sq_eq]
  refine Finset.sum_le_sum fun i _ => ?_
  exact sq_le_sq' (neg_le_of_abs_le (h i)) (le_of_abs_le (h i))

theorem abs_apply_le_norm (v : EuclideanSpace ℝ (Fin n)) (i : Fin n) : |v i| ≤ ‖v‖ := by
  refine abs_le_of_sq_le_sq ?_ (norm_nonneg v)
  rw [EuclideanSpace.real_norm_sq_eq]
  exact Finset.single_le_sum (fun i _ => sq_nonneg (v i)) (Finset.mem_univ i)

def magnitudes (v : EuclideanSpace ℝ (Fin n)) : EuclideanSpace ℝ (Fin n) :=
  WithLp.toLp 2 fun i => |v i|

@[simp] theorem magnitudes_apply (v : EuclideanSpace ℝ (Fin n)) (i : Fin n) :
    magnitudes v i = |v i| := rfl

@[simp] theorem norm_magnitudes (v : EuclideanSpace ℝ (Fin n)) : ‖magnitudes v‖ = ‖v‖ := by
  rw [EuclideanSpace.norm_eq, EuclideanSpace.norm_eq]
  simp

/-- The sum of the magnitudes of the products is at most the product of the lengths. -/
theorem sum_abs_mul_le (v w : EuclideanSpace ℝ (Fin n)) : ∑ i, |v i * w i| ≤ ‖v‖ * ‖w‖ := by
  have hinner : inner ℝ (magnitudes v) (magnitudes w) = ∑ i, |v i * w i| := by
    simp [PiLp.inner_apply, abs_mul, mul_comm]
  rw [← hinner, ← norm_magnitudes v, ← norm_magnitudes w]
  exact real_inner_le_norm _ _

/-- Entries bounded by a multiple of those of a vector and a constant. -/
theorem norm_le_of_abs_le_add {c d : ℝ} (hc : 0 ≤ c) (hd : 0 ≤ d)
    (h : ∀ i, |v i| ≤ c * w i + d) : ‖v‖ ≤ c * ‖w‖ + n * d := by
  set ones : EuclideanSpace ℝ (Fin n) := WithLp.toLp 2 fun _ => 1 with hones
  have hnorm : ‖ones‖ ≤ n := by
    refine le_of_sq_le_sq ?_ (Nat.cast_nonneg n)
    rw [EuclideanSpace.real_norm_sq_eq]
    simp only [hones, one_pow, Finset.sum_const, Finset.card_univ, Fintype.card_fin, nsmul_one]
    exact_mod_cast Nat.le_self_pow two_ne_zero n
  calc ‖v‖ ≤ ‖c • w + d • ones‖ := norm_le_norm_of_abs_le fun i => by simpa [hones] using h i
    _ ≤ ‖c • w‖ + ‖d • ones‖ := norm_add_le _ _
    _ ≤ c * ‖w‖ + n * d := by
        rw [norm_smul, norm_smul, Real.norm_of_nonneg hc, Real.norm_of_nonneg hd, mul_comm (n : ℝ)]
        gcongr

end Lengths

/-! ## Sums of products -/

theorem ofFn_getD {xs : List (Binary f)} (h : xs.length = n) :
    (List.ofFn fun i : Fin n => xs.getD i 0) = xs := by
  subst h
  simp

/-- A sum of products from left to right. -/
theorem sum_mul_error {x y : Fin n → Binary f} (hx : ∀ i, (x i).isFinite = true)
    (hy : ∀ i, (y i).isFinite = true) (hcount : 8 * (n : ℝ) ≤ 2 ^ f.precision) {T : ℝ}
    (hT : ∑ i, |((x i).value : ℝ) * (y i).value| ≤ T) (hroom : 2 * T + 1 ≤ greatestPower f) :
    (sum (List.ofFn fun i => x i * y i)).isFinite = true ∧
      |((sum (List.ofFn fun i => x i * y i)).value : ℝ) - ∑ i, ((x i).value : ℝ) * (y i).value| ≤
        4 * n * (T / 2 ^ f.precision + 1 / (2 * f.one)) := by
  have hterm (i : Fin n) : |((x i).value : ℝ) * (y i).value| ≤ T :=
    (Finset.single_le_sum (f := fun i => |((x i).value : ℝ) * (y i).value|)
      (fun i _ => abs_nonneg _) (Finset.mem_univ i)).trans hT
  have hT0 : 0 ≤ T := (Finset.sum_nonneg fun i _ => abs_nonneg _).trans hT
  have hrounds : List.Forall₂ Rounds (List.ofFn fun i => x i * y i)
      (List.ofFn fun i => ((x i).value : ℝ) * (y i).value) := by
    refine List.forall₂_iff_get.mpr ⟨by simp, fun i h _ => ?_⟩
    simp only [List.get_ofFn]
    exact rounds_mul (hx _) (hy _) ((hterm _).trans (by linarith))
  have hsum := foldl_add_error hrounds (s := 0) (A := 0) (T := 0) (k := 0) Represents.zero.1
    (by simp) (by rw [value_zero]; simp) (by simpa using hcount) (by
      rw [List.map_ofFn, List.sum_ofFn, zero_add]
      exact (add_le_add_left (mul_le_mul_of_nonneg_left hT (by norm_num)) 1).trans hroom)
  rw [List.map_ofFn, List.sum_ofFn, List.sum_ofFn, List.length_ofFn, zero_add, zero_add,
    zero_add] at hsum
  refine ⟨hsum.1, hsum.2.trans ?_⟩
  gcongr
  exact hT

variable {xs ys : List (Binary f)}

theorem dot_eq_sum (hx : xs.length = n) (hy : ys.length = n) :
    dot xs ys = sum (List.ofFn fun i : Fin n => xs.getD i 0 * ys.getD i 0) := by
  rw [dot, ← ofFn_getD hx, ← ofFn_getD hy]
  congr 1
  refine List.ext_getElem (by simp) fun i h h' => ?_
  simp

/-- The computed product of two lists. -/
theorem dot_error (hx : IsVector n xs) (hy : IsVector n ys)
    (hcount : 8 * (n : ℝ) ≤ 2 ^ f.precision)
    (hroom : 2 * (‖realVector n xs‖ * ‖realVector n ys‖) + 1 ≤ greatestPower f) :
    (dot xs ys).isFinite = true ∧
      |((dot xs ys).value : ℝ) - inner ℝ (realVector n xs) (realVector n ys)| ≤
        4 * n * (‖realVector n xs‖ * ‖realVector n ys‖ / 2 ^ f.precision + 1 / (2 * f.one)) := by
  have hinner : inner ℝ (realVector n xs) (realVector n ys) =
      ∑ i : Fin n, ((xs.getD i 0).value : ℝ) * (ys.getD i 0).value := by
    simp [PiLp.inner_apply, mul_comm]
  rw [dot_eq_sum hx.length_eq hy.length_eq, hinner]
  exact sum_mul_error hx.finite_getD hy.finite_getD hcount
    (sum_abs_mul_le (realVector n xs) (realVector n ys)) hroom

/-! ## Lengths -/

theorem exists_add_eq (r q : Fin (f.top + 1)) :
    ∃ p, (num false r + num false q : Binary f) = num false p := by
  by_cases hr : r.val = f.top
  · exact ⟨r, by change add _ _ = _; simp [add, hr]⟩
  · by_cases hq : q.val = f.top
    · exact ⟨q, by change add _ _ = _; simp [add, hr, hq]⟩
    · rw [add_num _ _ _ _ hr hq]
      have hnonneg : ¬ signedUnits (f := f) false r.val + signedUnits (f := f) false q.val < 0 := by
        simp only [signedUnits, Bool.false_eq_true, if_false]
        omega
      dsimp only
      split
      · exact ⟨_, rfl⟩
      · rw [decide_eq_false hnonneg]
        exact ⟨_, rfl⟩

theorem exists_mul_self_eq {x : Binary f} (hx : x.isFinite = true) :
    ∃ p, x * x = num false p := by
  cases x with
  | nan => cases hx
  | num s r =>
    refine ⟨f.nearest (f.units r.val * f.units r.val) f.one, ?_⟩
    change mul _ _ = _
    simp [mul, round, bne_iff_ne.mp hx]

/-- A sum of squares carries no sign. -/
theorem exists_dot_self_eq (hx : ∀ x ∈ xs, x.isFinite = true) :
    ∃ p, dot xs xs = num false p := by
  have hfold (zs : List (Binary f)) (hzs : ∀ z ∈ zs, ∃ p, z = num false p) (r : Fin (f.top + 1)) :
      ∃ p, zs.foldl (· + ·) (num false r) = num false p := by
    induction zs generalizing r with
    | nil => exact ⟨r, rfl⟩
    | cons z zs ih =>
      rw [List.forall_mem_cons] at hzs
      obtain ⟨q, rfl⟩ := hzs.1
      obtain ⟨p, hp⟩ := exists_add_eq r q
      rw [List.foldl_cons, hp]
      exact ih hzs.2 p
  refine hfold _ (fun z hz => ?_) _
  rw [List.zipWith_self] at hz
  obtain ⟨x, hmem, rfl⟩ := List.mem_map.mp hz
  exact exists_mul_self_eq (hx x hmem)

/-- The length of a list of zeros is zero. -/
theorem isZero_norm (hx : ∀ x ∈ xs, x.isFinite = true ∧ x.isZero = true) :
    (norm xs).isZero = true := by
  have hfold (zs : List (Binary f)) (hzs : ∀ z ∈ zs, z.isZero = true) {s : Binary f}
      (hs : s.isZero = true) : (zs.foldl (· + ·) s).isZero = true := by
    induction zs generalizing s with
    | nil => exact hs
    | cons z zs ih =>
      rw [List.forall_mem_cons] at hzs
      exact ih hzs.2 (isZero_add hs hzs.1)
  have hdot : (dot xs xs).isZero = true := by
    refine hfold _ (fun z hz => ?_) rfl
    rw [List.zipWith_self] at hz
    obtain ⟨x, hmem, rfl⟩ := List.mem_map.mp hz
    exact isZero_mul (hx x hmem).1 (hx x hmem).2
  rw [norm]
  generalize dot xs xs = d at hdot
  cases d with
  | nan => cases hdot
  | num s r =>
    rw [sqrt, if_pos (beq_iff_eq.mp hdot)]
    exact hdot

/-- How close to a length the computed one is. The squares of the entries are rounded to multiples
of the least magnitude, which is small beside `θ ^ 2`. -/
structure Measures (x : Binary f) (D θ : ℝ) : Prop where
  isFinite : x.isFinite = true
  le : (x.value : ℝ) ≤ 5 / 4 * (D + θ)
  ge : θ ≤ D / 8 → 7 / 8 * D ≤ x.value

/-- Two numbers are close if their squares are. -/
theorem le_of_sq_close {s D θ : ℝ} (hs : 0 ≤ s) (hD : 0 ≤ D) (hθ : 0 ≤ θ)
    (h : |s ^ 2 - D ^ 2| ≤ D ^ 2 / 16 + θ ^ 2) :
    s ≤ 17 / 16 * D + θ ∧ (θ ≤ D / 8 → 15 / 16 * D ≤ s) := by
  obtain ⟨hlower, hupper⟩ := abs_le.mp h
  constructor
  · refine le_of_sq_le_sq ?_ (by positivity)
    nlinarith [mul_nonneg hD hθ]
  · intro hsmall
    refine le_of_sq_le_sq ?_ hs
    have hθ2 : θ ^ 2 ≤ (D / 8) ^ 2 := pow_le_pow_left₀ hθ hsmall 2
    nlinarith [sq_nonneg D]

theorem norm_measures (hx : IsVector n xs) {θ : ℝ} (hθ : 0 ≤ θ)
    (hcount : 64 * (n : ℝ) ≤ 2 ^ f.precision) (hprecision : 64 ≤ (2 : ℝ) ^ f.precision)
    (hsquares : 4 * n * (1 / (2 * f.one)) ≤ θ ^ 2) (hleast : 1 / (2 * (f.one : ℝ)) ≤ θ / 16)
    (hroom : 2 * ‖realVector n xs‖ ^ 2 + 1 ≤ greatestPower f) :
    (norm xs).Measures ‖realVector n xs‖ θ := by
  set D := ‖realVector n xs‖ with hD
  set u : ℝ := 1 / 2 ^ f.precision with hu
  set ω : ℝ := 1 / (2 * f.one) with hω
  have hDnonneg : 0 ≤ D := norm_nonneg _
  have hu0 : 0 ≤ u := by positivity
  have hpos : (0 : ℝ) < 2 ^ f.precision := by positivity
  have hu64 : u ≤ 1 / 64 := one_div_le_one_div_of_le (by norm_num) hprecision
  have hnu : 4 * n * u ≤ 1 / 16 := by
    rw [hu, mul_one_div, div_le_iff₀ hpos]
    linarith
  obtain ⟨hfinite, herror⟩ := dot_error hx hx (by linarith) (by rw [← pow_two]; exact hroom)
  obtain ⟨r, hr⟩ := exists_dot_self_eq hx.finite
  have hnonneg : 0 ≤ (dot xs xs).value := by
    rw [hr, value_num, if_neg Bool.false_ne_true, one_mul]
    positivity
  have hsqrt := rounds_sqrt hfinite hnonneg
  set s := Real.sqrt (dot xs xs).value with hs
  have hs0 : 0 ≤ s := Real.sqrt_nonneg _
  have hs2 : s ^ 2 = (dot xs xs).value := Real.sq_sqrt (by exact_mod_cast hnonneg)
  rw [← hs2, real_inner_self_eq_norm_sq, ← hD, ← pow_two] at herror
  have hclose : |s ^ 2 - D ^ 2| ≤ D ^ 2 / 16 + θ ^ 2 := by
    refine herror.trans ?_
    have hscaled := mul_le_mul_of_nonneg_right hnu (sq_nonneg D)
    calc 4 * n * (D ^ 2 / 2 ^ f.precision + ω) = 4 * n * u * D ^ 2 + 4 * n * ω := by
          rw [hu]
          ring
      _ ≤ D ^ 2 / 16 + θ ^ 2 := by linarith
  obtain ⟨hle, hge⟩ := le_of_sq_close hs0 hDnonneg hθ hclose
  have hround := hsqrt.error
  rw [abs_of_nonneg hs0] at hround
  have hsu : s / 2 ^ f.precision ≤ s / 64 := div_le_div_of_nonneg_left hs0 (by norm_num) hprecision
  obtain ⟨hbelow, habove⟩ := abs_le.mp hround
  refine ⟨hsqrt.isFinite, ?_, fun hsmall => ?_⟩
  · change ((dot xs xs).sqrt.value : ℝ) ≤ _
    linarith
  · have hsge := hge hsmall
    change _ ≤ ((dot xs xs).sqrt.value : ℝ)
    linarith

end StandardForm.Binary
