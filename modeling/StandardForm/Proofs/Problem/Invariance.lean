import StandardForm.Proofs.Problem.Purging
import StandardForm.Proofs.Selection.ProjectionMultiples
import StandardForm.Proofs.Selection.Reprojection

/-!
# Selections that do not depend on scale and sign

What elimination selects does not depend on the signs of the rows and of the columns, whatever the
entries are, nor on a power of two that all entries are multiplied by, as long as nothing in it
overflows or underflows. What projection selects does not depend on a power of two for each row
either, under the same condition on the rows that are multiplied. The condition cannot do without
underflow: a product of two numbers of moderate size may vanish before a scaling and not after it,
and so may the length of a row.
-/

namespace StandardForm

open Binary (Multiple RegularProduct RegularCast norm)
open Selection (largestMagnitude)

/-! ## Thresholds -/

namespace Tolerance

variable {τ : Tolerance} {k : ℤ} {largest largest' length length' x x' : Double}

theorem regularCast_comparison (τ : Tolerance) (x : Double) : RegularCast τ.comparison x := by
  cases τ with
  | double t => exact Binary.regularCast_self x
  | single t => exact Binary.regularCast_self x
  | extended t => exact Binary.regularCast_of_wider FloatFormat.double_wider x

theorem regularCast_width (τ : Tolerance) (x : Binary τ.width) : RegularCast τ.comparison x := by
  cases τ with
  | double t => exact Binary.regularCast_self x
  | single t => exact Binary.regularCast_of_wider FloatFormat.single_wider x
  | extended t => exact Binary.regularCast_self x

/-- The threshold of an elimination, in the width that it is compared in. -/
def threshold (τ : Tolerance) (largest : Double) : Binary τ.comparison :=
  (τ.number * largest.cast τ.width).cast τ.comparison

/-- A threshold that neither overflows nor underflows. -/
structure RegularThreshold (τ : Tolerance) (largest : Double) : Prop where
  conversion : RegularCast τ.width largest
  product : RegularProduct τ.number (largest.cast τ.width)

instance (τ : Tolerance) (largest : Double) : Decidable (τ.RegularThreshold largest) :=
  decidable_of_iff (_ ∧ _) ⟨fun ⟨h, h'⟩ => ⟨h, h'⟩, fun ⟨h, h'⟩ => ⟨h, h'⟩⟩

theorem multiple_threshold (h : Multiple k false largest largest')
    (hregular : k ≠ 0 → τ.RegularThreshold largest ∧ τ.RegularThreshold largest') :
    Multiple k false (τ.threshold largest) (τ.threshold largest') := by
  have hcast := h.cast (g := τ.width) fun hk =>
    ⟨(hregular hk).1.conversion, (hregular hk).2.conversion⟩
  have hproduct := (Multiple.refl τ.number).mul hcast fun hk => by
    rw [zero_add] at hk
    exact ⟨(hregular hk).1.product, (hregular hk).2.product⟩
  rw [zero_add, Bool.false_bne] at hproduct
  exact hproduct.cast fun _ => ⟨τ.regularCast_width _, τ.regularCast_width _⟩

/-- What a threshold covers does not depend on a common power of two. -/
theorem covers_multiple (h : Multiple k false (τ.threshold largest) (τ.threshold largest'))
    (hx : Multiple k false x x') :
    (τ.timesReal largest).covers x = (τ.timesReal largest').covers x' := by
  rw [Bool.eq_iff_iff, covers_timesReal, covers_timesReal]
  exact (hx.cast fun _ => ⟨τ.regularCast_comparison x, τ.regularCast_comparison x'⟩).le_iff h

theorem not_threshold_lt_zero (hτ : 0 ≤ τ.number) (h : ¬ largest < 0) :
    ¬ τ.threshold largest < 0 :=
  Binary.not_cast_lt_zero
    (Binary.not_mul_lt_zero (Binary.not_lt_zero_of_zero_le hτ) (Binary.not_cast_lt_zero h))

/-- A threshold that is a number covers zero. -/
theorem covers_zero (hτ : 0 ≤ τ.number) (h : ¬ largest < 0)
    (hnan : (τ.threshold largest).isNaN = false) (hx : x.isZero = true) :
    (τ.timesReal largest).covers x = true := by
  rw [covers_timesReal]
  refine Binary.le_of_isZero ?_ (not_threshold_lt_zero hτ h) hnan
  cases x with
  | nan => cases hx
  | num s r =>
    rw [Binary.cast_num]
    exact beq_iff_eq.mpr (Binary.castRung_eq_zero (beq_iff_eq.mp hx))

/-- Nothing is compared with a NaN. -/
theorem covers_of_isNaN (hnan : (τ.threshold largest).isNaN = true) (x : Double) :
    (τ.timesReal largest).covers x = false := by
  refine Bool.eq_false_iff.mpr fun hx => ?_
  have hle := Binary.isNaN_of_le ((covers_timesReal τ largest x).mp hx)
  exact absurd (hle.2.symm.trans hnan) Bool.false_ne_true

/-- The size of a residual exceeds the tolerance times the length of the row. -/
def exceeds (τ : Tolerance) (size length : Double) : Bool := (τ.timesDouble length).exceededBy size

theorem exceeds_iff (τ : Tolerance) (size length : Double) :
    τ.exceeds size length = true ↔
      τ.number.cast τ.comparison * length.cast τ.comparison < size.cast τ.comparison := by
  cases τ with
  | double t =>
    show decide (t * length < size) = true ↔
      t.cast .double * length.cast .double < size.cast .double
    simp only [Binary.cast_self, decide_eq_true_iff]
  | single t =>
    show decide (t.cast .double * length < size) = true ↔
      t.cast .double * length.cast .double < size.cast .double
    simp only [Binary.cast_self, decide_eq_true_iff]
  | extended t =>
    show decide (t * length.cast .extended < size.cast .extended) = true ↔
      t.cast .extended * length.cast .extended < size.cast .extended
    simp only [Binary.cast_self, decide_eq_true_iff]

/-- The product of a tolerance with a length neither overflows nor underflows. -/
def RegularLength (τ : Tolerance) (length : Double) : Prop :=
  RegularProduct (τ.number.cast τ.comparison) (length.cast τ.comparison)

instance (τ : Tolerance) (length : Double) : Decidable (τ.RegularLength length) :=
  inferInstanceAs (Decidable (RegularProduct _ _))

/-- Whether a residual is long enough does not depend on a common power of two. -/
theorem exceeds_multiple (hx : Multiple k false x x') (h : Multiple k false length length')
    (hregular : k ≠ 0 → τ.RegularLength length ∧ τ.RegularLength length') :
    τ.exceeds x length = τ.exceeds x' length' := by
  have hcast {y y' : Double} (hy : Multiple k false y y') :
      Multiple k false (y.cast τ.comparison) (y'.cast τ.comparison) :=
    hy.cast fun _ => ⟨τ.regularCast_comparison y, τ.regularCast_comparison y'⟩
  have hproduct := (Multiple.refl (τ.number.cast τ.comparison)).mul (hcast h) fun hk =>
    hregular (by rwa [zero_add] at hk)
  rw [zero_add, Bool.false_bne] at hproduct
  rw [Bool.eq_iff_iff, exceeds_iff, exceeds_iff]
  exact hproduct.lt_iff (hcast hx)

/-- A residual of length zero is never long enough. -/
theorem exceeds_zero (hτ : 0 ≤ τ.number) (h : ¬ length < 0) (hx : x.isZero = true) :
    τ.exceeds x length = false := by
  refine Bool.eq_false_iff.mpr fun hexceeds => ?_
  refine Binary.not_lt_of_isZero ?_ ?_ ((exceeds_iff τ x length).mp hexceeds)
  · cases x with
    | nan => cases hx
    | num s r =>
      rw [Binary.cast_num]
      exact beq_iff_eq.mpr (Binary.castRung_eq_zero (beq_iff_eq.mp hx))
  · exact Binary.not_mul_lt_zero
      (Binary.not_cast_lt_zero (Binary.not_lt_zero_of_zero_le hτ)) (Binary.not_cast_lt_zero h)

end Tolerance

namespace Binary

variable {f : FloatFormat}

/-- A finite number that is zero or as great as the least normal magnitude. -/
def Normal (x : Binary f) : Prop :=
  x.isFinite = true ∧ (x.isZero = true ∨ (f.binade / f.one : ℚ) ≤ |x.value|)

instance (x : Binary f) : Decidable x.Normal := inferInstanceAs (Decidable (_ ∧ (_ ∨ _)))

end Binary

namespace Selection

variable {τ : Tolerance} {k : ℤ} {exponents : ℕ → ℤ} {rowSigns columnSigns : ℕ → Bool} {m n : ℕ}

/-! ## Elimination -/

section Elimination

variable {rows rows' : List (List Double)}

/-- An elimination in which nothing overflows or underflows. -/
structure RegularElimination (τ : Tolerance) (rows : List (List Double)) : Prop where
  threshold : τ.RegularThreshold (largestMagnitude rows)
  run : RegularRun (τ.timesReal (largestMagnitude rows)).covers rows

instance (τ : Tolerance) (rows : List (List Double)) : Decidable (RegularElimination τ rows) :=
  decidable_of_iff (_ ∧ _) ⟨fun ⟨h, h'⟩ => ⟨h, h'⟩, fun ⟨h, h'⟩ => ⟨h, h'⟩⟩

theorem not_largestMagnitude_lt_zero (rows : List (List Double)) : ¬ largestMagnitude rows < 0 := by
  rcases largestMagnitude_eq_or rows with hzero | ⟨_, _, x, _, habs⟩
  · rw [hzero]
    exact Binary.not_num_lt_zero_iff.mpr (.inl rfl)
  · rw [habs]
    exact Binary.not_abs_lt_zero x

/-- Elimination selects the same of rows and of their multiples. -/
theorem independentByElimination_multiples (hτ : 0 ≤ τ.number)
    (hrows : RowMultiples (fun _ => k) rowSigns columnSigns rows rows')
    (hn : ∀ row ∈ rows, row.length = n)
    (hregular : k ≠ 0 → RegularElimination τ rows ∧ RegularElimination τ rows') :
    independentByElimination τ rows' = independentByElimination τ rows := by
  have hthreshold := Tolerance.multiple_threshold (τ := τ) hrows.largestMagnitude fun hk =>
    ⟨(hregular hk).1.threshold, (hregular hk).2.threshold⟩
  cases hnan : (τ.threshold (largestMagnitude rows)).isNaN with
  | true =>
    -- Nothing is negligible then, not even zero, in both of them.
    exact byElimination_eq_of_never hrows (Tolerance.covers_of_isNaN hnan)
      (Tolerance.covers_of_isNaN (hthreshold.isNaN_eq.trans hnan))
  | false =>
    exact byElimination_multiples hrows hn (fun _ _ => Tolerance.covers_multiple hthreshold)
      (fun _ => Tolerance.covers_zero hτ (not_largestMagnitude_lt_zero rows) hnan)
      fun hk => ⟨(hregular hk).1.run, (hregular hk).2.run⟩

end Elimination

/-! ## Projection -/

section Projection

variable {rows rows' : List (List Double)}

/-- A row that is selected or passed over without overflow or underflow: the visit is so, and the
threshold unless the length is zero. -/
structure RegularDecision (τ : Tolerance) (rows : List (List Double)) (j : ℕ) : Prop where
  visit : RegularVisit (basisBefore τ.exceeds rows j) (rows.getD j [])
  threshold : (norm (rows.getD j [])).isZero = false → τ.RegularLength (norm (rows.getD j []))

instance (τ : Tolerance) (rows : List (List Double)) (j : ℕ) :
    Decidable (RegularDecision τ rows j) :=
  decidable_of_iff (_ ∧ _) ⟨fun ⟨h, h'⟩ => ⟨h, h'⟩, fun ⟨h, h'⟩ => ⟨h, h'⟩⟩

/-- Projection selects the same of rows and of their multiples. -/
theorem independentByProjection_multiples (hτ : 0 ≤ τ.number)
    (hrows : RowMultiples exponents rowSigns columnSigns rows rows')
    (hn : ∀ row ∈ rows, row.length = n)
    (hregular : ∀ j < rows.length, exponents j ≠ 0 →
      RegularDecision τ rows j ∧ RegularDecision τ rows' j) :
    independentByProjection τ rows' = independentByProjection τ rows := by
  have hdecision (j : ℕ) (hj : j < rows.length) (hj' : j < rows'.length) (hk : exponents j ≠ 0) :
      (RegularVisit (basisBefore τ.exceeds rows j) rows[j] ∧
        ((norm rows[j]).isZero = false → τ.RegularLength (norm rows[j]))) ∧
      (RegularVisit (basisBefore τ.exceeds rows' j) rows'[j] ∧
        ((norm rows'[j]).isZero = false → τ.RegularLength (norm rows'[j]))) := by
    obtain ⟨⟨hvisit, hthreshold⟩, hvisit', hthreshold'⟩ := hregular j hj hk
    rw [List.getD_eq_getElem _ _ hj] at hvisit hthreshold
    rw [List.getD_eq_getElem _ _ hj'] at hvisit' hthreshold'
    exact ⟨⟨hvisit, hthreshold⟩, hvisit', hthreshold'⟩
  refine byProjection_multiples hrows hn
    (fun j hj hj' hnonzero x x' hx hlength => ?_) (fun x row hx => ?_) fun j hj hj' hk => ?_
  · refine Tolerance.exceeds_multiple hx hlength fun hk => ?_
    obtain ⟨⟨-, h⟩, -, h'⟩ := hdecision j hj hj' hk
    exact ⟨h hnonzero, h' (hlength.isZero_eq.trans hnonzero)⟩
  · exact Tolerance.exceeds_zero hτ (Binary.not_sqrt_lt_zero _) hx
  · obtain ⟨⟨h, -⟩, h', -⟩ := hdecision j hj hj' hk
    exact ⟨h, h'⟩

end Projection

/-! ## Matrices -/

section Matrices

variable {t t' : Tensor Double} {tol : Datum}

theorem rowMultiples_of_entryAt (ht : t.shape = [m, n]) (ht' : t'.shape = [m, n])
    (h : ∀ i < m, ∀ j < n, Multiple (exponents i) (rowSigns i != columnSigns j) (t.entryAt [i, j])
      (t'.entryAt [i, j])) :
    RowMultiples exponents rowSigns columnSigns t.rows t'.rows := by
  have hrows := Tensor.length_rows ht
  have hrows' := Tensor.length_rows ht'
  refine ⟨hrows.trans hrows'.symm, fun i hi hi' => ?_⟩
  have hrow := Tensor.length_of_mem_rows ht (List.getElem_mem hi)
  have hrow' := Tensor.length_of_mem_rows ht' (List.getElem_mem hi')
  refine .of_getElem (hrow.trans hrow'.symm) fun j hj hj' => ?_
  have hentry := h i (hrows ▸ hi) j (hrow ▸ hj)
  rw [Tensor.entryAt_matrix ht (hrows ▸ hi) (hrow ▸ hj),
    Tensor.entryAt_matrix ht' (hrows ▸ hi) (hrow ▸ hj), List.getD_eq_getElem _ _ hi,
    List.getD_eq_getElem _ _ hi', List.getD_eq_getElem _ _ hj, List.getD_eq_getElem _ _ hj']
    at hentry
  exact hentry

/-- Elimination with a tolerance that is not negative selects the same of a matrix and of the matrix
times a power of two with any signs of rows and columns, if no operation of either elimination
overflows or underflows. If only signs differ, this is no condition. -/
theorem independentRows_column_invariant (ht : t.shape = [m, n]) (ht' : t'.shape = [m, n])
    (htol : Tolerance.ofDatum tol = .ok τ) (hτ : 0 ≤ τ.number)
    (h : ∀ i < m, ∀ j < n, Multiple k (rowSigns i != columnSigns j) (t.entryAt [i, j])
      (t'.entryAt [i, j]))
    (hregular : k ≠ 0 → RegularElimination τ t.rows ∧ RegularElimination τ t'.rows) :
    ∃ kept, independentRows t tol .column = .ok kept ∧
      independentRows t' tol .column = .ok kept := by
  refine ⟨_, independentRows_column ht htol, ?_⟩
  rw [independentRows_column ht' htol]
  exact congrArg Except.ok (independentByElimination_multiples hτ
    (rowMultiples_of_entryAt ht ht' h) (fun _ hrow => Tensor.length_of_mem_rows ht hrow) hregular)

/-- The second of these rows is twice the first one, also after a scaling by `2 ^ 300` and with
other signs in the second row and in the first column. -/
theorem independentRows_column_invariant_doubledRow :
    ∃ t t' : Tensor Double, t.shape = [3, 2] ∧ t'.shape = [3, 2] ∧
      (∀ i < 3, ∀ j < 2, Multiple 300 ((i == 1) != (j == 0)) (t.entryAt [i, j])
        (t'.entryAt [i, j])) ∧
      RegularElimination .standard t.rows ∧ RegularElimination .standard t'.rows ∧
      independentRows t (.scalar (.real (.twoPowNeg .double 26))) .column = .ok [0, 2] ∧
      independentRows t' (.scalar (.real (.twoPowNeg .double 26))) .column = .ok [0, 2] := by
  let t : Tensor Double := ⟨[3, 2], [1, 2, 2, 4, 3, 5].map (Binary.ofInt .double), rfl⟩
  let t' : Tensor Double := ⟨[3, 2], [-1, 2, 2, -4, -3, 5].map fun a =>
    Binary.ofInt .double (2 ^ 300 * a), rfl⟩
  have hentries : ∀ i < 3, ∀ j < 2, Multiple 300 ((i == 1) != (j == 0)) (t.entryAt [i, j])
      (t'.entryAt [i, j]) := by decide +kernel
  have hregular : RegularElimination .standard t.rows ∧ RegularElimination .standard t'.rows := by
    decide +kernel
  have ht : t.shape = [3, 2] := rfl
  have ht' : t'.shape = [3, 2] := rfl
  obtain ⟨kept, hkept, hkept'⟩ := independentRows_column_invariant ht ht'
    Tolerance.ofDatum_default (by decide +kernel) hentries fun _ => hregular
  have hrows : independentRows t (.scalar (.real (.twoPowNeg .double 26))) .column =
      .ok [0, 2] := by
    rw [independentRows_column ht Tolerance.ofDatum_default]
    exact congrArg Except.ok (by decide +kernel)
  cases hkept.symm.trans hrows
  exact ⟨t, t', ht, ht', hentries, hregular.1, hregular.2, hrows, hkept'⟩

/-- When a column is brought through some steps, no number occurs that is infinite or a subnormal
one other than zero. -/
def NormalReduction : List (PivotStep Double) → List Double → Prop
  | [], xs => ∀ x ∈ xs, x.Normal
  | s :: steps, xs =>
    (∀ x ∈ xs, x.Normal) ∧ (∀ i < xs.length, (s.column.getD i 0 * s.quotient xs).Normal) ∧
      NormalReduction steps (s.apply xs)

instance decidableNormalReduction :
    (steps : List (PivotStep Double)) → (xs : List Double) → Decidable (NormalReduction steps xs)
  | [], xs => inferInstanceAs (Decidable (∀ x ∈ xs, x.Normal))
  | s :: steps, xs =>
    have := decidableNormalReduction steps (s.apply xs)
    inferInstanceAs (Decidable (_ ∧ _ ∧ NormalReduction steps (s.apply xs)))

/-- Nor does one in a whole elimination that brings every row through all steps. -/
def NormalElimination (τ : Tolerance) (rows : List (List Double)) : Prop :=
  (τ.threshold (largestMagnitude rows)).Normal ∧ ∀ row ∈ rows,
    NormalReduction (stepsBefore (τ.timesReal (largestMagnitude rows)).covers rows rows.length) row

instance (τ : Tolerance) (rows : List (List Double)) : Decidable (NormalElimination τ rows) :=
  inferInstanceAs (Decidable (_ ∧ ∀ row ∈ rows, _))

/-- A product that underflows to zero makes a row dependent which is independent after a scaling by
`2 ^ 500`, and one that underflows to the least normal magnitude does so up to a scaling by
`2 ^ 100`. No number that occurs is infinite or a subnormal one other than zero. -/
theorem independentRows_column_not_invariant :
    (∃ t t' : Tensor Double, t.shape = [2, 2] ∧ t'.shape = [2, 2] ∧
      (∀ i < 2, ∀ j < 2, Multiple 500 false (t.entryAt [i, j]) (t'.entryAt [i, j])) ∧
      NormalElimination (.double 0) t.rows ∧ NormalElimination (.double 0) t'.rows ∧
      independentRows t (.scalar (.real 0)) .column = .ok [0] ∧
      independentRows t' (.scalar (.real 0)) .column = .ok [0, 1]) ∧
    ∃ t t' : Tensor Double, t.shape = [2, 2] ∧ t'.shape = [2, 2] ∧
      (∀ i < 2, ∀ j < 2, Multiple 100 false (t.entryAt [i, j]) (t'.entryAt [i, j])) ∧
      NormalElimination (.double 0) t.rows ∧ NormalElimination (.double 0) t'.rows ∧
      independentRows t (.scalar (.real 0)) .column = .ok [0] ∧
      independentRows t' (.scalar (.real 0)) .column = .ok [0, 1] := by
  constructor
  · let t : Tensor Double :=
      ⟨[2, 2], [.ofInt .double 1, .twoPowNeg .double 600, .twoPowNeg .double 600, 0], rfl⟩
    let t' : Tensor Double :=
      ⟨[2, 2], [.ofInt .double (2 ^ 500), .twoPowNeg .double 100, .twoPowNeg .double 100, 0], rfl⟩
    exact ⟨t, t', rfl, rfl, by decide +kernel, by decide +kernel, by decide +kernel,
      toOption_eq_some.mp (by decide +kernel), toOption_eq_some.mp (by decide +kernel)⟩
  · let t : Tensor Double := ⟨[2, 2], [.ofInt .double 1, .twoPowNeg .double 1022,
      .ofFraction .double false (2 ^ 53 - 1) (2 ^ 53), .twoPowNeg .double 1022], rfl⟩
    let t' : Tensor Double := ⟨[2, 2], [.ofInt .double (2 ^ 100), .twoPowNeg .double 922,
      .ofInt .double (2 ^ 47 * (2 ^ 53 - 1)), .twoPowNeg .double 922], rfl⟩
    exact ⟨t, t', rfl, rfl, by decide +kernel, by decide +kernel, by decide +kernel,
      toOption_eq_some.mp (by decide +kernel), toOption_eq_some.mp (by decide +kernel)⟩

/-- Projection with a tolerance that is not negative selects the same of a matrix and of the matrix
with each row times a power of two of its own and with any signs of rows and columns, if no
operation overflows or underflows in the decision, by either projection, about a row that is
multiplied by another power of two than one. -/
theorem independentRows_row_invariant (ht : t.shape = [m, n]) (ht' : t'.shape = [m, n])
    (htol : Tolerance.ofDatum tol = .ok τ) (hτ : 0 ≤ τ.number)
    (h : ∀ i < m, ∀ j < n, Multiple (exponents i) (rowSigns i != columnSigns j) (t.entryAt [i, j])
      (t'.entryAt [i, j]))
    (hregular : ∀ i < m, exponents i ≠ 0 →
      RegularDecision τ t.rows i ∧ RegularDecision τ t'.rows i) :
    ∃ kept, independentRows t tol .row = .ok kept ∧ independentRows t' tol .row = .ok kept := by
  refine ⟨_, independentRows_row ht htol, ?_⟩
  rw [independentRows_row ht' htol]
  refine congrArg Except.ok (independentByProjection_multiples hτ
    (rowMultiples_of_entryAt ht ht' h) (fun _ hrow => Tensor.length_of_mem_rows ht hrow) ?_)
  rw [Tensor.length_rows ht]
  exact hregular

/-- The second of these rows is twice the first one, also after each row has been scaled by a power
of two of its own and with other signs in the last row and in the first column. -/
theorem independentRows_row_invariant_doubledRow :
    ∃ t t' : Tensor Double, t.shape = [3, 2] ∧ t'.shape = [3, 2] ∧
      (∀ i < 3, ∀ j < 2, Multiple ([300, -200, 7].getD i 0) ((i == 2) != (j == 0))
        (t.entryAt [i, j]) (t'.entryAt [i, j])) ∧
      (∀ i < 3, RegularDecision .standard t.rows i ∧ RegularDecision .standard t'.rows i) ∧
      independentRows t (.scalar (.real (.twoPowNeg .double 26))) .row = .ok [0, 2] ∧
      independentRows t' (.scalar (.real (.twoPowNeg .double 26))) .row = .ok [0, 2] := by
  let t : Tensor Double := ⟨[3, 2], [1, 1, 2, 2, 1, 0].map (Binary.ofInt .double), rfl⟩
  let t' : Tensor Double := ⟨[3, 2], [.ofInt .double (-2 ^ 300), .ofInt .double (2 ^ 300),
    -.twoPowNeg .double 199, .twoPowNeg .double 199, .ofInt .double (2 ^ 7), 0], rfl⟩
  have hentries : ∀ i < 3, ∀ j < 2, Multiple ([300, -200, 7].getD i 0) ((i == 2) != (j == 0))
      (t.entryAt [i, j]) (t'.entryAt [i, j]) := by decide +kernel
  have hregular : ∀ i < 3,
      RegularDecision .standard t.rows i ∧ RegularDecision .standard t'.rows i := by
    decide +kernel
  have ht : t.shape = [3, 2] := rfl
  have ht' : t'.shape = [3, 2] := rfl
  obtain ⟨kept, hkept, hkept'⟩ := independentRows_row_invariant ht ht'
    Tolerance.ofDatum_default (by decide +kernel) hentries fun i hi _ => hregular i hi
  have hrows : independentRows t (.scalar (.real (.twoPowNeg .double 26))) .row = .ok [0, 2] := by
    rw [independentRows_row ht Tolerance.ofDatum_default]
    exact congrArg Except.ok (by decide +kernel)
  cases hkept.symm.trans hrows
  exact ⟨t, t', ht, ht', hentries, hregular, hrows, hkept'⟩

/-- The square of a row of one small entry underflows to zero, so that the row is passed over, which
is kept after a scaling by `2 ^ 600`. No number that occurs is infinite or a subnormal one other
than zero. -/
theorem independentRows_row_not_invariant :
    ∃ a b : Double, Multiple 600 false a b ∧ norm [a] = 0 ∧
      (∀ x ∈ [a, a * a, norm [a]], x.Normal) ∧
      (∀ x ∈ [b, b * b, norm [b], norm (residual [] [b]), .twoPowNeg .double 26 * norm [b]] ++
        projection [] [b] ++ residual [] [b] ++ direction [] [b], x.Normal) ∧
      independentRows ⟨[1, 1], [a], rfl⟩ (.scalar (.real (.twoPowNeg .double 26))) .row = .ok [] ∧
      independentRows ⟨[1, 1], [b], rfl⟩ (.scalar (.real (.twoPowNeg .double 26))) .row =
        .ok [0] :=
  ⟨.twoPowNeg .double 600, .ofInt .double 1, by decide +kernel, by decide +kernel,
    by decide +kernel, by decide +kernel, toOption_eq_some.mp (by decide +kernel),
    toOption_eq_some.mp (by decide +kernel)⟩

end Matrices

end Selection

end StandardForm
