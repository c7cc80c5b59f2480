import StandardForm.Proofs.Binary.Vectors
import StandardForm.Proofs.Selection.NearlyOrthonormal
import StandardForm.Selection.Projection

/-!
# How much a projection loses

The part of a row along the directions is a sum of products of products, the residual a difference.
Beside directions whose length is about one, each of these is off by a few roundings of the length
of the row for each direction and dimension. So the computed residual is close to what lies across
the directions, as long as nothing overflows and the squares of the row do not vanish.
-/

namespace StandardForm.Selection

open Binary

variable {f : FloatFormat} {n : ℕ} {basis : List (List (Binary f))} {row : List (Binary f)}

/-! ## Entries of the projection and of the residual -/

theorem length_combine {total b : List (Binary f)} {c : Binary f} (ht : total.length = n)
    (hb : b.length = n) : (List.zipWith (fun t x => t + x * c) total b).length = n := by
  rw [List.length_zipWith, ht, hb, Nat.min_self]

/-- Each entry of a linear combination is a sum of its own. -/
theorem getD_foldl_combine {terms : List (List (Binary f) × Binary f)}
    (hterms : ∀ t ∈ terms, t.1.length = n) {total : List (Binary f)} (htotal : total.length = n)
    (i : Fin n) :
    (terms.foldl (fun total (b, c) => List.zipWith (fun t x => t + x * c) total b) total).getD i 0 =
      (terms.map fun t => t.1.getD i 0 * t.2).foldl (· + ·) (total.getD i 0) := by
  induction terms generalizing total with
  | nil => rfl
  | cons t terms ih =>
    rw [List.forall_mem_cons] at hterms
    rw [List.foldl_cons, ih hterms.2 (length_combine htotal hterms.1), List.map_cons,
      List.foldl_cons]
    congr 1
    simp [List.getD_eq_getElem?_getD, htotal, hterms.1]

theorem length_foldl_combine {terms : List (List (Binary f) × Binary f)}
    (hterms : ∀ t ∈ terms, t.1.length = n) {total : List (Binary f)} (htotal : total.length = n) :
    (terms.foldl (fun total (b, c) =>
      List.zipWith (fun t x => t + x * c) total b) total).length = n := by
  induction terms generalizing total with
  | nil => exact htotal
  | cons t terms ih =>
    rw [List.forall_mem_cons] at hterms
    exact ih hterms.2 (length_combine htotal hterms.1)

theorem length_projection (hbasis : ∀ b ∈ basis, b.length = n) (hrow : row.length = n) :
    (projection basis row).length = n :=
  length_foldl_combine (by simpa using hbasis) (by rw [List.length_replicate, hrow])

theorem getD_projection (hbasis : ∀ b ∈ basis, b.length = n) (hrow : row.length = n) (i : Fin n) :
    (projection basis row).getD i 0 =
      sum (List.ofFn fun l : Fin basis.length => basis[l].getD i 0 * dot basis[l] row) := by
  have hzero : (List.replicate row.length (0 : Binary f)).getD i 0 = 0 := by
    simp [List.getD_eq_getElem?_getD, hrow]
  rw [projection, getD_foldl_combine (by simpa using hbasis) (by rw [List.length_replicate, hrow]),
    hzero, List.map_map, sum]
  congr 1
  exact (List.ofFn_getElem_eq_map basis fun b => b.getD i 0 * dot b row).symm

theorem length_residual (hrow : row.length = n) (hprojection : (projection basis row).length = n) :
    (residual basis row).length = n := by
  rw [residual, List.length_zipWith, hrow, hprojection, Nat.min_self]

theorem getD_residual (hrow : row.length = n) (hprojection : (projection basis row).length = n)
    (i : Fin n) :
    (residual basis row).getD i 0 = row.getD i 0 - (projection basis row).getD i 0 := by
  simp [residual, List.getD_eq_getElem?_getD, hrow, hprojection]

/-! ## Rounding beside a length -/

/-- A format has the digits and the range for rows of length `A` in `n` dimensions: a few roundings
for each pair of dimensions are small beside the length, one unit is small beside the length and its
square, and neither comes near the greatest number. -/
structure Resolves (f : FloatFormat) (n : ℕ) (A : ℝ) : Prop where
  length_pos : 0 < A
  dimension_pos : 0 < n
  digits : (n : ℝ) ^ 2 * 2 ^ 37 ≤ 2 ^ f.precision
  least : 1 / (2 * (f.one : ℝ)) ≤ A / 2 ^ f.precision
  least_sq : 1 / (2 * (f.one : ℝ)) ≤ (A / 2 ^ f.precision) ^ 2
  range : 2 ^ 30 * (n * (1 + A + A ^ 2)) ≤ greatestPower f

/-- One rounding of `A` for each pair of dimensions. -/
noncomputable def loss (f : FloatFormat) (n : ℕ) (A : ℝ) : ℝ :=
  n ^ 2 * (A / (2 ^ f.precision : ℕ))

theorem loss_eq (f : FloatFormat) (n : ℕ) (A : ℝ) :
    loss f n A = n ^ 2 * (A / 2 ^ f.precision) := by
  rw [loss, Nat.cast_pow, Nat.cast_ofNat]

namespace Resolves

variable {A : ℝ}

theorem one_le_dimension (h : Resolves f n A) : (1 : ℝ) ≤ n := by
  exact_mod_cast h.dimension_pos

theorem dimension_le_sq (h : Resolves f n A) : (n : ℝ) ≤ n ^ 2 := by
  nlinarith [h.one_le_dimension]

theorem precision_large (h : Resolves f n A) : (2 : ℝ) ^ 37 ≤ 2 ^ f.precision := by
  have hn := h.one_le_dimension
  calc (2 : ℝ) ^ 37 = 1 * 2 ^ 37 := (one_mul _).symm
    _ ≤ (n : ℝ) ^ 2 * 2 ^ 37 := by gcongr; exact one_le_pow₀ hn
    _ ≤ 2 ^ f.precision := h.digits

theorem loss_le (h : Resolves f n A) : loss f n A ≤ A / 2 ^ 37 := by
  rw [loss_eq, mul_div, div_le_div_iff₀ (by positivity) (by positivity)]
  calc (n : ℝ) ^ 2 * A * 2 ^ 37 = A * ((n : ℝ) ^ 2 * 2 ^ 37) := by ring
    _ ≤ A * 2 ^ f.precision := mul_le_mul_of_nonneg_left h.digits h.length_pos.le

theorem rounding_nonneg (h : Resolves f n A) : 0 ≤ A / 2 ^ f.precision :=
  div_nonneg h.length_pos.le (by positivity)

theorem dimension_mul_rounding_le (h : Resolves f n A) :
    n * (A / 2 ^ f.precision) ≤ loss f n A := by
  rw [loss_eq]
  exact mul_le_mul_of_nonneg_right h.dimension_le_sq h.rounding_nonneg

theorem loss_nonneg (h : Resolves f n A) : 0 ≤ loss f n A :=
  le_trans (mul_nonneg (Nat.cast_nonneg n) h.rounding_nonneg) h.dimension_mul_rounding_le

theorem rounding_le (h : Resolves f n A) : A / 2 ^ f.precision ≤ loss f n A :=
  le_trans (le_mul_of_one_le_left h.rounding_nonneg h.one_le_dimension) h.dimension_mul_rounding_le

theorem many_digits (h : Resolves f n A) : 64 * (n : ℝ) ≤ 2 ^ f.precision := by
  have hn := h.dimension_le_sq
  have hdigits := h.digits
  have hnonneg : (0 : ℝ) ≤ n := Nat.cast_nonneg n
  linarith

theorem terms_le_range (h : Resolves f n A) {x : ℝ} (hx : x ≤ 2 ^ 30 * (n * (1 + A + A ^ 2))) :
    x ≤ greatestPower f := hx.trans h.range

/-- The length is among what the range has room for. -/
theorem sum_le (h : Resolves f n A) : 1 + A + A ^ 2 ≤ n * (1 + A + A ^ 2) :=
  le_mul_of_one_le_left (by have := h.length_pos; positivity) h.one_le_dimension

end Resolves

/-! ## A row beside directions -/

def family (n : ℕ) (basis : List (List (Binary f))) :
    Fin basis.length → EuclideanSpace ℝ (Fin n) := fun l => realVector n basis[l]

/-- A row that is resolved, beside nearly orthonormal directions. -/
structure Projectable (η : ℝ) (n : ℕ) (basis : List (List (Binary f))) (row : List (Binary f)) :
    Prop where
  resolves : Resolves f n ‖realVector n row‖
  isVector : IsVector n row
  directions : ∀ b ∈ basis, IsVector n b
  nonneg : 0 ≤ η
  le_half : η ≤ 1 / 2
  near : NearlyOrthonormal η (family n basis)

/-- A computed length that is as close to that of a vector as rows of length `A` demand. -/
theorem Resolves.measures_norm {A : ℝ} (h : Resolves f n A) {xs : List (Binary f)}
    (hx : IsVector n xs) (hD : ‖realVector n xs‖ ≤ 4 * A) :
    (norm xs).Measures ‖realVector n xs‖ (A / 2 ^ 30) := by
  have hpos := h.length_pos
  have hprecision := h.precision_large
  have hround := h.rounding_le.trans h.loss_le
  refine norm_measures hx (by positivity) h.many_digits (le_trans (by norm_num) hprecision) ?_ ?_ ?_
  · have hloss := h.dimension_mul_rounding_le.trans h.loss_le
    calc 4 * n * (1 / (2 * (f.one : ℝ))) ≤ 4 * n * (A / 2 ^ f.precision) ^ 2 :=
          mul_le_mul_of_nonneg_left h.least_sq (by positivity)
      _ = 4 * (n * (A / 2 ^ f.precision) * (A / 2 ^ f.precision)) := by ring
      _ ≤ 4 * (A / 2 ^ 37 * (A / 2 ^ 37)) := by
          have := h.rounding_nonneg
          gcongr
      _ = 1 / 2 ^ 72 * A ^ 2 := by ring
      _ ≤ 1 / 2 ^ 60 * A ^ 2 := mul_le_mul_of_nonneg_right (by norm_num) (sq_nonneg A)
      _ = (A / 2 ^ 30) ^ 2 := by ring
  · have hleast := h.least
    linarith
  · refine h.terms_le_range ?_
    have hsquare : ‖realVector n xs‖ ^ 2 ≤ (4 * A) ^ 2 := pow_le_pow_left₀ (norm_nonneg _) hD 2
    have hsum := h.sum_le
    nlinarith [sq_nonneg A]

namespace Projectable

variable {η : ℝ}

theorem isVector_getElem (h : Projectable η n basis row) (l : Fin basis.length) :
    IsVector n basis[l] := h.directions _ (List.getElem_mem l.isLt)

theorem norm_family_le (h : Projectable η n basis row) (l : Fin basis.length) :
    ‖family n basis l‖ ≤ 5 / 4 := h.near.norm_le h.le_half l

theorem length_le (h : Projectable η n basis row) : basis.length ≤ n := by
  simpa using h.near.card_le h.nonneg (h.le_half.trans_lt (by norm_num))

theorem length_le_real (h : Projectable η n basis row) : (basis.length : ℝ) ≤ n :=
  Nat.cast_le.mpr h.length_le

theorem few (h : Projectable η n basis row) : 8 * (basis.length : ℝ) ≤ 2 ^ f.precision := by
  linarith [h.resolves.many_digits, h.length_le_real, h.resolves.one_le_dimension]

/-! ### The projection -/

/-- The coefficient of a direction. -/
theorem coefficient_error (h : Projectable η n basis row) (l : Fin basis.length) :
    (dot basis[l] row).isFinite = true ∧
      |((dot basis[l] row).value : ℝ) - inner ℝ (family n basis l) (realVector n row)| ≤
        9 * (n * (‖realVector n row‖ / 2 ^ f.precision)) ∧
      |((dot basis[l] row).value : ℝ)| ≤ 3 / 2 * ‖realVector n row‖ := by
  have hr := h.resolves
  have hpos := hr.length_pos
  have hsum := hr.sum_le
  change _ ∧ |_ - inner ℝ (realVector n basis[l]) (realVector n row)| ≤ _ ∧ _
  have hproduct : ‖realVector n basis[l]‖ * ‖realVector n row‖ ≤ 5 / 4 * ‖realVector n row‖ :=
    mul_le_mul_of_nonneg_right (h.norm_family_le l) hpos.le
  obtain ⟨hfinite, herror⟩ := dot_error (h.isVector_getElem l) h.isVector
    (by linarith [hr.many_digits, hr.one_le_dimension])
    (hr.terms_le_range (by nlinarith [sq_nonneg ‖realVector n row‖]))
  have hbound := calc
    |((dot basis[l] row).value : ℝ) - inner ℝ (realVector n basis[l]) (realVector n row)|
      ≤ 4 * n * (‖realVector n basis[l]‖ * ‖realVector n row‖ / 2 ^ f.precision +
          1 / (2 * f.one)) := herror
    _ ≤ 4 * n * (5 / 4 * ‖realVector n row‖ / 2 ^ f.precision +
          ‖realVector n row‖ / 2 ^ f.precision) := by
        have hscaled := div_le_div_of_nonneg_right hproduct
          (by positivity : (0 : ℝ) ≤ 2 ^ f.precision)
        exact mul_le_mul_of_nonneg_left (add_le_add hscaled hr.least) (by positivity)
    _ = 9 * (n * (‖realVector n row‖ / 2 ^ f.precision)) := by ring
  refine ⟨hfinite, hbound, ?_⟩
  have hinner :=
    (abs_real_inner_le_norm (realVector n basis[l]) (realVector n row)).trans hproduct
  have hloss := hr.dimension_mul_rounding_le.trans hr.loss_le
  have hsplit := abs_add_le (((dot basis[l] row).value : ℝ) -
    inner ℝ (realVector n basis[l]) (realVector n row))
    (inner ℝ (realVector n basis[l]) (realVector n row))
  rw [sub_add_cancel] at hsplit
  linarith

theorem norm_sum_magnitudes_le (h : Projectable η n basis row) :
    ‖∑ l, magnitudes (family n basis l)‖ ≤ 5 / 4 * n := by
  calc _ ≤ ∑ l : Fin basis.length, (5 / 4 : ℝ) :=
        norm_sum_le_of_le _ fun l _ => (norm_magnitudes _).trans_le (h.norm_family_le l)
    _ = 5 / 4 * basis.length := by
        rw [Finset.sum_const, Finset.card_univ, Fintype.card_fin, nsmul_eq_mul, mul_comm]
    _ ≤ 5 / 4 * n := mul_le_mul_of_nonneg_left h.length_le_real (by norm_num)

/-- An entry of the projection is close to that of the combination with the computed
coefficients. -/
theorem projection_entry_error (h : Projectable η n basis row) (i : Fin n) :
    ((projection basis row).getD i 0).isFinite = true ∧
      |(realVector n (projection basis row) -
        combination (family n basis) fun l => ((dot basis[l] row).value : ℝ)) i| ≤
          6 * n * (‖realVector n row‖ / 2 ^ f.precision) * (∑ l, magnitudes (family n basis l)) i +
            4 * n * (‖realVector n row‖ / 2 ^ f.precision) := by
  have hr := h.resolves
  have hround := hr.rounding_nonneg
  have hspread := (abs_apply_le_norm _ i).trans h.norm_sum_magnitudes_le
  set A := ‖realVector n row‖
  set spread := (∑ l, magnitudes (family n basis l)) i with hspreaddef
  have hpos : 0 < A := hr.length_pos
  have hsum : spread = ∑ l, |family n basis l i| := by simp [hspreaddef]
  have hspread0 : 0 ≤ spread := hsum ▸ Finset.sum_nonneg fun l _ => abs_nonneg _
  rw [abs_of_nonneg hspread0] at hspread
  have hterms : ∑ l : Fin basis.length,
      |((basis[l].getD i 0).value : ℝ) * (dot basis[l] row).value| ≤ 3 / 2 * A * spread := by
    rw [hsum, Finset.mul_sum]
    refine Finset.sum_le_sum fun l _ => ?_
    rw [abs_mul, mul_comm]
    exact mul_le_mul_of_nonneg_right (h.coefficient_error l).2.2 (abs_nonneg _)
  have hroom : 2 * (3 / 2 * A * spread) + 1 ≤ greatestPower f := by
    refine hr.terms_le_range ?_
    have hn := hr.one_le_dimension
    have hle : 3 / 2 * A * spread ≤ 3 / 2 * A * (5 / 4 * n) :=
      mul_le_mul_of_nonneg_left hspread (by positivity)
    have hnA : 0 ≤ n * A := by positivity
    have hnA2 : 0 ≤ n * A ^ 2 := by positivity
    rw [mul_add, mul_add]
    linarith
  obtain ⟨hfinite, herror⟩ := sum_mul_error (x := fun l : Fin basis.length => basis[l].getD i 0)
    (y := fun l => dot basis[l] row) (fun l => (h.isVector_getElem l).finite_getD i)
    (fun l => (h.coefficient_error l).1) h.few hterms hroom
  rw [← getD_projection (fun b hb => (h.directions b hb).length_eq) h.isVector.length_eq i]
    at hfinite herror
  have hcombination : (combination (family n basis) fun l => ((dot basis[l] row).value : ℝ)) i =
      ∑ l : Fin basis.length, ((basis[l].getD i 0).value : ℝ) * (dot basis[l] row).value := by
    simp [combination, family, mul_comm]
  refine ⟨hfinite, ?_⟩
  rw [PiLp.sub_apply, hcombination, realVector_apply]
  calc _ ≤ 4 * (basis.length : ℝ) *
        (3 / 2 * A * spread / 2 ^ f.precision + 1 / (2 * f.one)) := herror
    _ ≤ 4 * n * (3 / 2 * A * spread / 2 ^ f.precision + A / 2 ^ f.precision) := by
        have hnonneg : 0 ≤ 3 / 2 * A * spread / 2 ^ f.precision := by positivity
        exact mul_le_mul (by linarith [h.length_le_real]) (add_le_add le_rfl hr.least)
          (by positivity) (by positivity)
    _ = 6 * n * (A / 2 ^ f.precision) * spread + 4 * n * (A / 2 ^ f.precision) := by ring

theorem length_projection (h : Projectable η n basis row) : (projection basis row).length = n :=
  Selection.length_projection (fun b hb => (h.directions b hb).length_eq) h.isVector.length_eq

theorem isVector_projection (h : Projectable η n basis row) : IsVector n (projection basis row) :=
  isVector_of_getD h.length_projection fun i => (h.projection_entry_error i).1

/-- The projection is close to the combination with the computed coefficients. -/
theorem combination_error (h : Projectable η n basis row) :
    ‖realVector n (projection basis row) -
      combination (family n basis) fun l => ((dot basis[l] row).value : ℝ)‖ ≤
        12 * loss f n ‖realVector n row‖ := by
  have hround := h.resolves.rounding_nonneg
  have hloss := h.resolves.loss_nonneg
  have hspread := h.norm_sum_magnitudes_le
  have herror := norm_le_of_abs_le_add (by positivity) (by positivity)
    fun i => (h.projection_entry_error i).2
  set A := ‖realVector n row‖
  calc _ ≤ 6 * n * (A / 2 ^ f.precision) * ‖∑ l, magnitudes (family n basis l)‖ +
        n * (4 * n * (A / 2 ^ f.precision)) := herror
    _ ≤ 6 * n * (A / 2 ^ f.precision) * (5 / 4 * n) + n * (4 * n * (A / 2 ^ f.precision)) := by
        gcongr
    _ = 23 / 2 * loss f n A := by
        rw [loss_eq]
        ring
    _ ≤ 12 * loss f n A := by linarith

/-- Errors of the coefficients add up to little. -/
theorem coefficients_error (h : Projectable η n basis row) :
    ‖combination (family n basis) fun l =>
      ((dot basis[l] row).value : ℝ) - inner ℝ (family n basis l) (realVector n row)‖ ≤
        12 * loss f n ‖realVector n row‖ := by
  have hround := h.resolves.rounding_nonneg
  have hloss := h.resolves.loss_nonneg
  calc _ ≤ ∑ l : Fin basis.length,
        9 * (n * (‖realVector n row‖ / 2 ^ f.precision)) * (5 / 4) := by
        refine norm_sum_le_of_le _ fun l _ => ?_
        rw [norm_smul, Real.norm_eq_abs]
        exact mul_le_mul (h.coefficient_error l).2.1 (h.norm_family_le l) (norm_nonneg _)
          (by positivity)
    _ = basis.length * (45 / 4 * (n * (‖realVector n row‖ / 2 ^ f.precision))) := by
        rw [Finset.sum_const, Finset.card_univ, Fintype.card_fin, nsmul_eq_mul]
        ring
    _ ≤ n * (45 / 4 * (n * (‖realVector n row‖ / 2 ^ f.precision))) :=
        mul_le_mul_of_nonneg_right h.length_le_real (by positivity)
    _ = 45 / 4 * loss f n ‖realVector n row‖ := by
        rw [loss_eq]
        ring
    _ ≤ 12 * loss f n ‖realVector n row‖ := by linarith

/-- The projection is close to the part of the row along the directions. -/
theorem projection_error (h : Projectable η n basis row) :
    ‖realVector n (projection basis row) -
      combination (family n basis) fun l => inner ℝ (family n basis l) (realVector n row)‖ ≤
        24 * loss f n ‖realVector n row‖ := by
  have hsplit : realVector n (projection basis row) -
      (combination (family n basis) fun l => inner ℝ (family n basis l) (realVector n row)) =
      (realVector n (projection basis row) -
        combination (family n basis) fun l => ((dot basis[l] row).value : ℝ)) +
      combination (family n basis) fun l =>
        ((dot basis[l] row).value : ℝ) - inner ℝ (family n basis l) (realVector n row) := by
    simp only [combination, sub_smul, Finset.sum_sub_distrib]
    abel
  rw [hsplit]
  refine (norm_add_le_of_le h.combination_error h.coefficients_error).trans_eq ?_
  ring

/-! ### The residual -/

/-- What the computed projection leaves over is no longer than four times the row. -/
theorem norm_rest_le (h : Projectable η n basis row) :
    ‖realVector n row - realVector n (projection basis row)‖ ≤ 4 * ‖realVector n row‖ := by
  have hpos := h.resolves.length_pos
  have herror := h.projection_error
  have halong := h.near.norm_along_le h.nonneg h.le_half (realVector n row)
  set along := combination (family n basis) fun l => inner ℝ (family n basis l) (realVector n row)
  have hsplit : realVector n row - realVector n (projection basis row) =
      realVector n row - along - (realVector n (projection basis row) - along) := by abel
  rw [hsplit]
  calc _ ≤ ‖realVector n row‖ + ‖along‖ + ‖realVector n (projection basis row) - along‖ :=
        norm_sub_le_of_le (norm_sub_le _ _) le_rfl
    _ ≤ 4 * ‖realVector n row‖ := by linarith [h.resolves.loss_le]

theorem residual_entry_error (h : Projectable η n basis row) (i : Fin n) :
    ((residual basis row).getD i 0).isFinite = true ∧
      |(realVector n (residual basis row) -
        (realVector n row - realVector n (projection basis row))) i| ≤
          1 / 2 ^ f.precision *
            magnitudes (realVector n row - realVector n (projection basis row)) i +
              ‖realVector n row‖ / 2 ^ f.precision := by
  have hr := h.resolves
  have hroom : |(realVector n row - realVector n (projection basis row)) i| ≤ greatestPower f := by
    refine (abs_apply_le_norm _ i).trans (h.norm_rest_le.trans (hr.terms_le_range ?_))
    have hsum := hr.sum_le
    nlinarith [sq_nonneg ‖realVector n row‖, hr.length_pos]
  have hsub := rounds_sub (h.isVector.finite_getD i) (h.isVector_projection.finite_getD i) hroom
  rw [← getD_residual h.isVector.length_eq h.length_projection i] at hsub
  refine ⟨hsub.isFinite, hsub.error.trans ?_⟩
  rw [magnitudes_apply, one_div_mul_eq_div]
  exact add_le_add le_rfl hr.least

theorem isVector_residual (h : Projectable η n basis row) : IsVector n (residual basis row) :=
  isVector_of_getD (length_residual h.isVector.length_eq h.length_projection)
    fun i => (h.residual_entry_error i).1

/-- The residual is close to what lies across the directions. -/
theorem residual_error (h : Projectable η n basis row) :
    ‖realVector n (residual basis row) - across (family n basis) (realVector n row)‖ ≤
      32 * loss f n ‖realVector n row‖ := by
  have hr := h.resolves
  set rest := realVector n row - realVector n (projection basis row) with hrest
  have hsub : ‖realVector n (residual basis row) - rest‖ ≤ 5 * loss f n ‖realVector n row‖ := by
    calc _ ≤ 1 / 2 ^ f.precision * ‖magnitudes rest‖ +
          n * (‖realVector n row‖ / 2 ^ f.precision) :=
          norm_le_of_abs_le_add (by positivity) hr.rounding_nonneg
            fun i => (h.residual_entry_error i).2
      _ ≤ 1 / 2 ^ f.precision * (4 * ‖realVector n row‖) +
          n * (‖realVector n row‖ / 2 ^ f.precision) := by
          rw [norm_magnitudes]
          gcongr
          exact h.norm_rest_le
      _ = 4 * (‖realVector n row‖ / 2 ^ f.precision) +
          n * (‖realVector n row‖ / 2 ^ f.precision) := by ring
      _ ≤ 5 * loss f n ‖realVector n row‖ := by
          linarith [hr.rounding_le, hr.dimension_mul_rounding_le]
  have hsplit : realVector n (residual basis row) - across (family n basis) (realVector n row) =
      (realVector n (residual basis row) - rest) - (realVector n (projection basis row) -
        combination (family n basis) fun l => inner ℝ (family n basis l) (realVector n row)) := by
    rw [hrest, across]
    abel
  rw [hsplit]
  refine (norm_sub_le_of_le hsub h.projection_error).trans ?_
  linarith [hr.loss_nonneg]

theorem norm_residual_le (h : Projectable η n basis row) :
    ‖realVector n (residual basis row)‖ ≤ 4 * ‖realVector n row‖ := by
  have hacross := h.near.norm_across_le h.nonneg h.le_half (realVector n row)
  have hle := norm_add_le_of_le h.residual_error hacross
  rw [sub_add_cancel] at hle
  linarith [h.resolves.loss_le, h.resolves.length_pos]

end Projectable

end StandardForm.Selection
