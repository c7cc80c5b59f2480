import Mathlib.Analysis.InnerProductSpace.PiL2
import StandardForm.Proofs.Binary.SquareRoot

/-!
# How much sums of products lose

A sum from left to right loses at most one rounding of the terms so far at each of its terms, so
that the whole error is a small multiple of the number of terms times one rounding of the sum of
their magnitudes. For the product of two vectors that sum is at most the product of their lengths.
-/

namespace StandardForm.Binary

variable {f : FloatFormat}

theorem abs_add_four_le (a b c d : ℝ) : |a + b + c + d| ≤ |a| + |b| + |c| + |d| := by
  calc |a + b + c + d| ≤ |a + b + c| + |d| := abs_add_le _ _
    _ ≤ |a + b| + |c| + |d| := by gcongr; exact abs_add_le _ _
    _ ≤ |a| + |b| + |c| + |d| := by gcongr; exact abs_add_le _ _

/-! ## One more term

The terms so far sum up to `A`, their magnitudes to `T`, and the computed sum is `s`. The next term
is `t`, computed as `z`. One rounding of one is `U`, and `ω` is the least error of a rounding. -/

section Step

variable {s z s' A t T U ω k : ℝ}

theorem abs_add_le_of_errors (hA : |A| ≤ T) (hs : |s - A| ≤ 4 * k * (U * T + ω))
    (hz : |z - t| ≤ U * |t| + ω) :
    |s + z| ≤ T + 4 * k * (U * T + ω) + |t| + (U * |t| + ω) := by
  have hsplit : s + z = A + (s - A) + t + (z - t) := by ring
  rw [hsplit]
  linarith [abs_add_four_le A (s - A) t (z - t)]

/-- The error grows by one rounding of the magnitudes summed so far. -/
theorem error_step (hk : 0 ≤ k) (hU : 0 ≤ U) (hω : 0 ≤ ω) (hkU : 8 * k * U ≤ 1) (hU8 : 8 * U ≤ 1)
    (hA : |A| ≤ T) (hs : |s - A| ≤ 4 * k * (U * T + ω)) (hz : |z - t| ≤ U * |t| + ω)
    (hs' : |s' - (s + z)| ≤ U * |s + z| + ω) :
    |s' - (A + t)| ≤ 4 * (k + 1) * (U * (T + |t|) + ω) := by
  have hT : 0 ≤ T := (abs_nonneg A).trans hA
  have ht := abs_nonneg t
  have hUT : 0 ≤ U * T := by positivity
  have hUt : 0 ≤ U * |t| := by positivity
  have hsum := abs_add_le_of_errors hA hs hz
  have hrounded : U * |s + z| ≤ U * T + (U * T + ω) / 2 + U * |t| + (U * |t| + ω) / 8 := by
    have hscaled := mul_le_mul_of_nonneg_left hsum hU
    have hfirst : U * (4 * k * (U * T + ω)) ≤ (U * T + ω) / 2 := by
      have h := mul_le_mul_of_nonneg_right hkU (add_nonneg hUT hω)
      linarith
    have hsecond : U * (U * |t| + ω) ≤ (U * |t| + ω) / 8 := by
      have h := mul_le_mul_of_nonneg_right hU8 (add_nonneg hUt hω)
      linarith
    linarith
  have hsplit : s' - (A + t) = s' - (s + z) + (s - A) + (z - t) + 0 := by ring
  have hkUt : 0 ≤ k * (U * |t|) := by positivity
  calc |s' - (A + t)| ≤ |s' - (s + z)| + |s - A| + |z - t| + |0| := by
        rw [hsplit]
        exact abs_add_four_le _ _ _ _
    _ ≤ U * |s + z| + ω + 4 * k * (U * T + ω) + (U * |t| + ω) := by
        rw [abs_zero, add_zero]
        gcongr
    _ ≤ 4 * (k + 1) * (U * (T + |t|) + ω) := by linarith

/-- The sum so far and the next term leave room for their sum. -/
theorem abs_add_le_room (hω : ω ≤ 1 / 2) (hkω : 8 * k * ω ≤ 1 / 2) (hkU : 8 * k * U ≤ 1)
    (hU8 : 8 * U ≤ 1) (hA : |A| ≤ T) (hs : |s - A| ≤ 4 * k * (U * T + ω))
    (hz : |z - t| ≤ U * |t| + ω) : |s + z| ≤ 2 * (T + |t|) + 1 := by
  have hsofar := mul_le_mul_of_nonneg_right hkU ((abs_nonneg A).trans hA)
  have hterm := mul_le_mul_of_nonneg_right hU8 (abs_nonneg t)
  linarith [abs_add_le_of_errors hA hs hz, abs_nonneg t, (abs_nonneg A).trans hA]

end Step

/-! ## Sums -/

/-- The terms of a sum so far, what they stand for and the error. -/
theorem foldl_add_error {zs : List (Binary f)} {ts : List ℝ} (h : List.Forall₂ Rounds zs ts)
    {s : Binary f} {A T : ℝ} {k : ℕ} (hsfinite : s.isFinite = true) (hA : |A| ≤ T)
    (hs : |(s.value : ℝ) - A| ≤ 4 * k * (T / 2 ^ f.precision + 1 / (2 * f.one)))
    (hcount : 8 * ((k + zs.length : ℕ) : ℝ) ≤ 2 ^ f.precision)
    (hroom : 2 * (T + (ts.map (|·|)).sum) + 1 ≤ greatestPower f) :
    (zs.foldl (· + ·) s).isFinite = true ∧
      |((zs.foldl (· + ·) s).value : ℝ) - (A + ts.sum)| ≤
        4 * ((k + zs.length : ℕ) : ℝ) *
          ((T + (ts.map (|·|)).sum) / 2 ^ f.precision + 1 / (2 * f.one)) := by
  induction h generalizing s A T k with
  | nil =>
    refine ⟨hsfinite, ?_⟩
    rw [List.map_nil, List.sum_nil, add_zero, add_zero]
    exact hs
  | @cons z t zs ts hz hrest ih =>
    simp only [List.length_cons, List.map_cons, List.sum_cons, List.foldl_cons] at hcount hroom ⊢
    have hUω := half_unit_le f
    have hU8 := eight_mul_rounding_le f
    set U : ℝ := 1 / 2 ^ f.precision with hU
    set ω : ℝ := 1 / (2 * f.one) with hω
    have hUnonneg : 0 ≤ U := by positivity
    have hωnonneg : 0 ≤ ω := by positivity
    have hdiv (y : ℝ) : y / 2 ^ f.precision = U * y := by rw [hU]; ring
    have hrestnonneg : 0 ≤ (ts.map (|·|)).sum := List.sum_nonneg (by simp)
    have hT : 0 ≤ T := (abs_nonneg A).trans hA
    have hkU : 8 * (k : ℝ) * U ≤ 1 := by
      rw [hU, mul_one_div, div_le_one (by positivity)]
      push_cast at hcount
      have : (0 : ℝ) ≤ zs.length := Nat.cast_nonneg _
      linarith
    have hkω : 8 * (k : ℝ) * ω ≤ 1 / 2 := by
      have := mul_le_mul_of_nonneg_left hUω (by positivity : (0 : ℝ) ≤ 8 * k)
      linarith
    simp only [hdiv] at hs ih ⊢
    have hzerror := hz.error
    rw [hdiv] at hzerror
    have hbound := abs_add_le_room (by linarith) hkω hkU hU8 hA hs hzerror
    have hsum := rounds_add hsfinite hz.isFinite (hbound.trans (by linarith))
    have hsumerror := hsum.error
    rw [hdiv] at hsumerror
    have hstep := error_step (Nat.cast_nonneg k) hUnonneg hωnonneg hkU hU8 hA hs hzerror hsumerror
    have hAt : |A + t| ≤ T + |t| := (abs_add_le A t).trans (by linarith)
    have hnext := ih (k := k + 1) hsum.isFinite hAt (by push_cast at hstep ⊢; exact hstep)
      (by push_cast at hcount ⊢; linarith) (by linarith)
    have hlength : k + 1 + zs.length = k + (zs.length + 1) := by omega
    rw [hlength, add_assoc, add_assoc] at hnext
    exact hnext

end StandardForm.Binary
