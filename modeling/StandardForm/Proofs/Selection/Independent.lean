import StandardForm.Proofs.Binary.Rounding
import StandardForm.Proofs.Selection.Elimination
import StandardForm.Proofs.Tensor.Entries
import StandardForm.Selection.Independent

/-!
# Selections of a matrix

On a matrix, with a tolerance that means a number, both ways of selecting rows give a result. The
special cases that look at no tolerance, a matrix without entries and projection of rows that all
have length zero, give what the general method would give: nothing. The threshold of an elimination
of finite rows is a number that is not negative, so that zero is always negligible. With the default
tolerance, thresholds are at least about the tolerance times what they are relative to.
-/

namespace StandardForm

theorem Tolerance.ofDatum_default :
    Tolerance.ofDatum (.scalar (.real (.twoPowNeg .double 26))) = .ok .standard := by
  simp [ofDatum, ofScalar, Scalar.toReal, Scalar.toBinary, Except.map, standard]

namespace Selection

variable {t : Tensor Double} {m n : Nat} {tol : Datum} {τ : Tolerance}

/-- The rows of a matrix without entries are empty, if there are any. -/
theorem eq_nil_of_mem_rows (ht : t.shape = [m, n]) (hsize : t.size = 0) {row : List Double}
    (hrow : row ∈ t.rows) : row = [] := by
  have hentries : t.entries.length = m * n := by simp [t.length_entries, ht]
  have hlength : row.length = n := Tensor.length_of_mem_rows ht hrow
  rcases Nat.mul_eq_zero.mp (hentries.symm.trans hsize) with rfl | rfl
  · rw [List.length_eq_zero_iff.mp (Tensor.length_rows ht)] at hrow
    cases hrow
  · exact List.length_eq_zero_iff.mp hlength

theorem independentRows_column (ht : t.shape = [m, n]) (htol : Tolerance.ofDatum tol = .ok τ) :
    independentRows t tol .column = .ok (independentByElimination τ t.rows) := by
  unfold independentRows
  rw [ht]
  dsimp only
  split
  · next hsize =>
    congr
    refine (keep_eq_nil (fun row hrow => ?_) 0).symm
    rw [eq_nil_of_mem_rows ht hsize hrow]
    rfl
  · rw [htol]
    rfl

theorem projectionStep_eq_none {longEnough : Double → Double → Bool} (basis : List (List Double))
    {row : List Double} (h : (Binary.norm row).isZero = true) :
    projectionStep longEnough basis row = none := if_pos h

theorem independentRows_row (ht : t.shape = [m, n]) (htol : Tolerance.ofDatum tol = .ok τ) :
    independentRows t tol .row = .ok (independentByProjection τ t.rows) := by
  have hnil (h : ∀ row ∈ t.rows, (Binary.norm row).isZero = true) :
      independentByProjection τ t.rows = [] := by
    -- The state does not matter: such rows are passed over in every one.
    rw [independentByProjection, byProjection]
    exact keep_eq_nil (fun row hrow => projectionStep_eq_none [] (h row hrow)) 0
  unfold independentRows
  rw [ht]
  dsimp only
  split
  · next hsize =>
    rw [hnil fun row hrow => ?_]
    rw [eq_nil_of_mem_rows ht hsize hrow]
    rfl
  · split
    · next hzero => rw [hnil (List.all_eq_true.mp hzero)]
    · rw [htol]
      rfl

/-! ## Thresholds -/

theorem value_twoPowNeg_26 : ((Binary.twoPowNeg .double 26).value : ℝ) = 1 / 2 ^ 26 := by
  have h : (Binary.twoPowNeg .double 26).value = 1 / 2 ^ 26 := by decide +kernel
  rw [h]
  norm_num

/-- The default tolerance times a number that is not negative. -/
theorem standard_mul_ge {x : Double} (hx : x.isFinite = true) (h0 : 0 ≤ (x.value : ℝ))
    (h : (x.value : ℝ) ≤ Binary.greatestPower .double) :
    (Binary.twoPowNeg .double 26 * x).isFinite = true ∧
      7 / 8 * (1 / 2 ^ 26 * (x.value : ℝ)) - 1 / (2 * (FloatFormat.double.one : ℝ)) ≤
        (Binary.twoPowNeg .double 26 * x).value := by
  have hproduct := Binary.rounds_mul (x := Binary.twoPowNeg .double 26) (y := x) (by decide +kernel)
    hx
  rw [value_twoPowNeg_26, abs_of_nonneg (by positivity)] at hproduct
  have hrounds := hproduct (by linarith)
  have herror := hrounds.error
  rw [abs_of_nonneg (by positivity : 0 ≤ 1 / 2 ^ 26 * (x.value : ℝ))] at herror
  have hround : 1 / 2 ^ 26 * (x.value : ℝ) / 2 ^ FloatFormat.double.precision ≤
      1 / 2 ^ 26 * (x.value : ℝ) / 8 := Binary.rounding_le_eighth (by positivity)
  refine ⟨hrounds.isFinite, ?_⟩
  linarith [(abs_le.mp herror).1]

theorem exists_abs_eq {x : Double} (h : x.isFinite = true) :
    ∃ r, r.val ≠ FloatFormat.double.top ∧ x.abs = .num false r := by
  cases x with
  | nan => cases h
  | num s r => exact ⟨r, bne_iff_ne.mp h, rfl⟩

/-- The greatest magnitude of a matrix is that of an entry, or zero if there is none. -/
theorem largestMagnitude_eq_or (rows : List (List Double)) :
    largestMagnitude rows = 0 ∨ ∃ row ∈ rows, ∃ x ∈ row, largestMagnitude rows = x.abs := by
  rw [largestMagnitude]
  by_cases hentries : 0 < rows.flatten.length
  · obtain ⟨-, hlt, hsize⟩ := greatest_spec hentries
    rw [hsize, List.getD_eq_getElem _ _ hlt]
    obtain ⟨row, hrow, hx⟩ := List.mem_flatten.mp (List.getElem_mem hlt)
    exact .inr ⟨row, hrow, _, hx, rfl⟩
  · rw [List.length_eq_zero_iff.mp (Nat.eq_zero_of_not_pos hentries)]
    exact .inl rfl

/-- The greatest magnitude of finite rows is finite and not negative. -/
theorem exists_largestMagnitude_eq {rows : List (List Double)}
    (h : ∀ row ∈ rows, ∀ x ∈ row, x.isFinite = true) :
    ∃ r, r.val ≠ FloatFormat.double.top ∧ largestMagnitude rows = .num false r := by
  rcases largestMagnitude_eq_or rows with hzero | ⟨row, hrow, x, hx, habs⟩
  · exact ⟨⟨0, by decide⟩, by decide, hzero⟩
  · rw [habs]
    exact exists_abs_eq (h row hrow x hx)

/-- Zero is negligible in an elimination of finite rows. -/
theorem covers_of_isZero {rows : List (List Double)}
    (h : ∀ row ∈ rows, ∀ x ∈ row, x.isFinite = true) {x : Double} (hx : x.isZero = true) :
    (Tolerance.standard.timesReal (largestMagnitude rows)).covers x = true := by
  obtain ⟨r, hr, hlargest⟩ := exists_largestMagnitude_eq h
  obtain ⟨q, hq, htol⟩ : ∃ q, q.val ≠ FloatFormat.double.top ∧
      Binary.twoPowNeg .double 26 = .num false q :=
    ⟨FloatFormat.double.nearest _ _, by decide +kernel, rfl⟩
  have hproduct : ∃ p, Binary.twoPowNeg .double 26 * largestMagnitude rows = .num false p := by
    rw [hlargest, htol]
    change ∃ p, Binary.mul _ _ = .num false p
    simp only [Binary.mul, hr, hq, or_self, if_false]
    exact ⟨_, rfl⟩
  obtain ⟨p, hp⟩ := hproduct
  rw [Tolerance.standard, Tolerance.timesReal, hp]
  cases x with
  | nan => cases hx
  | num s z =>
    have hz : z.val = 0 := beq_iff_eq.mp hx
    refine decide_eq_true (decide_eq_true ?_)
    cases s <;> simp [Binary.position, hz]

end Selection

end StandardForm
