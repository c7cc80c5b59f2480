import StandardForm.Proofs.Binary.Monotone
import StandardForm.Proofs.Problem.Refusals
import StandardForm.Proofs.Selection.Repeats

/-!
# Selecting again among the rows selected

A row that is passed over leaves no trace: neither a pivot step nor a direction. So the rows kept
meet the same states when the others are gone, and projection, which compares a row with itself
only, keeps them all again. Elimination compares with the greatest magnitude of the matrix, which
may be less without the rows passed over. A smaller threshold passes over no more, so the rows are
kept again here too, provided that the threshold was a number in the first place. A tolerance that
is zero sets none if the greatest magnitude is infinite in the width that they are multiplied in.
-/

namespace StandardForm

namespace Tolerance

/-- The width that a tolerance is multiplied in. -/
def width : Tolerance → FloatFormat
  | double _ => .double
  | single _ => .single
  | extended _ => .extended

/-- The tolerance as a number. -/
def number : (τ : Tolerance) → Binary τ.width
  | double t => t
  | single t => t
  | extended t => t

/-- The width that thresholds are compared in. -/
def comparison : Tolerance → FloatFormat
  | double _ => .double
  | single _ => .double
  | extended _ => .extended

theorem covers_timesReal (τ : Tolerance) (largest x : Double) :
    (τ.timesReal largest).covers x = true ↔
      x.cast τ.comparison ≤ (τ.number * largest.cast τ.width).cast τ.comparison := by
  cases τ with
  | double t =>
    show decide (x ≤ t * largest) = true ↔
      x.cast .double ≤ (t * largest.cast .double).cast .double
    simp only [Binary.cast_self, decide_eq_true_iff]
  | single t =>
    show decide (x ≤ (t * largest.cast .single).cast .double) = true ↔
      x.cast .double ≤ (t * largest.cast .single).cast .double
    simp only [Binary.cast_self, decide_eq_true_iff]
  | extended t =>
    show decide (x.cast .extended ≤ t * largest.cast .extended) = true ↔
      x.cast .extended ≤ (t * largest.cast .extended).cast .extended
    simp only [Binary.cast_self, decide_eq_true_iff]

/-- The threshold for a greater magnitude covers whatever the one for a lesser magnitude covers. -/
theorem covers_of_covers {τ : Tolerance} (hτ : 0 ≤ τ.number)
    {r q : Fin (FloatFormat.double.top + 1)}
    (h : r.val ≤ q.val)
    (hzero : τ.number.isZero = true →
      ((.num false q : Double).cast τ.width).isFinite = true)
    {x : Double} (hx : (τ.timesReal (.num false r)).covers x = true) :
    (τ.timesReal (.num false q)).covers x = true := by
  rw [covers_timesReal, Binary.cast_num] at hx ⊢
  have htop : τ.number.isZero = true → (Binary.castRung τ.width q).val ≠ τ.width.top := by
    intro hz
    have hfinite := hzero hz
    rw [Binary.cast_num] at hfinite
    exact bne_iff_ne.mp hfinite
  rcases Binary.mul_le_mul_or_isNaN hτ (Binary.castRung_mono h) htop with hle | hnan
  · exact Selection.OrderedPivots.le_trans hx (Binary.cast_le_cast hle)
  · -- Nothing is compared with what is not a number.
    have hcast := (Binary.isNaN_of_le hx).2
    rw [Binary.isNaN_cast, hnan] at hcast
    cases hcast

/-- A tolerance that sets a threshold for a matrix: neither of them holds a NaN, the tolerance is
not negative, and if it is zero the greatest magnitude is finite. -/
structure Scales (τ : Tolerance) (rows : List (List Double)) : Prop where
  nonneg : 0 ≤ τ.number
  ordered : ∀ row ∈ rows, ∀ x ∈ row, x.isNaN = false
  finite : τ.number.isZero = true →
    ((Selection.largestMagnitude rows).cast τ.width).isFinite = true

/-- A finite number is finite in the extended format. -/
theorem isFinite_cast_extended {x : Double} (h : x.isFinite = true) :
    (x.cast .extended).isFinite = true := by
  cases x with
  | nan => cases h
  | num s r =>
    have hr : r.val ≠ FloatFormat.double.top := bne_iff_ne.mp h
    have hlt : r.val < FloatFormat.double.top :=
      Nat.lt_of_le_of_ne (Nat.lt_succ_iff.mp r.isLt) hr
    refine Binary.isFinite_cast_of_le s (Nat.le_pred_of_lt hlt) ?_ ?_
    · decide
    · decide +kernel

/-- Every tolerance of 64 or 80 bits that is not negative sets a threshold for finite rows. -/
theorem scales_of_finite {τ : Tolerance} {rows : List (List Double)} (hτ : 0 ≤ τ.number)
    (hwidth : τ.width ≠ .single) (h : ∀ row ∈ rows, ∀ x ∈ row, x.isFinite = true) :
    τ.Scales rows := by
  obtain ⟨r, hr, hlargest⟩ := Selection.exists_largestMagnitude_eq h
  have hfinite : (Selection.largestMagnitude rows).isFinite = true := by
    rw [hlargest]
    exact bne_iff_ne.mpr hr
  refine ⟨hτ, fun row hrow x hx => Binary.isNaN_of_isFinite (h row hrow x hx), fun _ => ?_⟩
  cases τ with
  | double t => rwa [width, Binary.cast_self]
  | single t => cases hwidth rfl
  | extended t => exact isFinite_cast_extended hfinite

end Tolerance

namespace Selection

/-! ## Elimination -/

section Elimination

variable {τ : Tolerance} {rows rows' : List (List Double)}

/-- A row that has a pivot still has it when less is negligible. -/
theorem pivotStep_of_negligible {α : Type} [Pivotal α] [DecidableLE α]
    {negligible negligible' : α → Bool} (h : ∀ x, negligible' x = true → negligible x = true)
    (steps : List (PivotStep α)) (row : List α) (steps' : List (PivotStep α))
    (hstep : pivotStep negligible steps row = some steps') :
    pivotStep negligible' steps row = some steps' := by
  obtain ⟨hlt, hsize, hsteps⟩ := pivotStep_eq_some_iff.mp hstep
  refine pivotStep_eq_some_iff.mpr ⟨hlt, Bool.eq_false_iff.mpr fun hsize' => ?_, hsteps⟩
  exact absurd (h _ hsize') (Bool.eq_false_iff.mp hsize)

theorem exists_largestMagnitude_of_ordered (h : ∀ row ∈ rows, ∀ x ∈ row, x.isNaN = false) :
    ∃ r, largestMagnitude rows = .num false r := by
  rcases largestMagnitude_eq_or rows with hzero | ⟨row, hrow, x, hx, habs⟩
  · exact ⟨⟨0, by decide⟩, hzero⟩
  · have hnan := h row hrow x hx
    rw [habs]
    cases x with
    | nan => cases hnan
    | num s r => exact ⟨r, rfl⟩

/-- With fewer rows the greatest magnitude is no greater. -/
theorem exists_largestMagnitude_le (h : ∀ row ∈ rows, ∀ x ∈ row, x.isNaN = false)
    (hsub : ∀ row ∈ rows', row ∈ rows) :
    ∃ r q, r.val ≤ q.val ∧ largestMagnitude rows' = .num false r ∧
      largestMagnitude rows = .num false q := by
  obtain ⟨q, hq⟩ := exists_largestMagnitude_of_ordered h
  have hnan : (largestMagnitude rows).isNaN = false := by
    rw [hq]
    rfl
  rcases largestMagnitude_eq_or rows' with hzero | ⟨row, hrow, x, hx, habs⟩
  · exact ⟨⟨0, by decide⟩, q, Nat.zero_le _, hzero, hq⟩
  · have hle := abs_le_largestMagnitude hnan (hsub row hrow) hx
    rw [hq] at hle
    rw [habs]
    cases x with
    | nan => cases hle
    | num s r => exact ⟨r, q, Int.ofNat_le.mp (Binary.num_le_num_iff.mp hle), rfl, hq⟩

/-- Of fewer rows no more is negligible. -/
theorem covers_of_fewer (h : τ.Scales rows) (hsub : ∀ row ∈ rows', row ∈ rows) (x : Double)
    (hx : (τ.timesReal (largestMagnitude rows')).covers x = true) :
    (τ.timesReal (largestMagnitude rows)).covers x = true := by
  obtain ⟨r, q, hle, hr, hq⟩ := exists_largestMagnitude_le h.ordered hsub
  have hfinite := h.finite
  rw [hr] at hx
  rw [hq] at hfinite ⊢
  exact Tolerance.covers_of_covers h.nonneg hle hfinite hx

/-- Elimination among the rows that it has kept keeps them all. -/
theorem independentByElimination_kept (h : τ.Scales rows) :
    independentByElimination τ
        ((independentByElimination τ rows).map (rows.getD · [])) =
      List.range (independentByElimination τ rows).length := by
  refine keep_map_keep (pivotStep_of_negligible ?_) [] [] rows
  exact covers_of_fewer h fun row hrow => mem_of_mem_map_keep hrow

end Elimination

/-- Projection among the rows that it has kept keeps them all. -/
theorem independentByProjection_kept (τ : Tolerance) (rows : List (List Double)) :
    independentByProjection τ
        ((independentByProjection τ rows).map (rows.getD · [])) =
      List.range (independentByProjection τ rows).length :=
  keep_map_keep (fun _ _ _ hrow => hrow) [] [] rows

/-! ## Matrices -/

section Matrices

variable {t : Tensor Double} {m n : ℕ} {tol : Datum} {τ : Tolerance}

/-- The rows of a matrix at some indices. -/
theorem rows_rowsAt (ht : t.shape = [m, n]) {indices : List ℕ} (h : ∀ i ∈ indices, i < m) :
    (Equalities.rowsAt t n indices).rows = indices.map (t.rows.getD · []) := by
  have hrow (i : ℕ) (hi : i < m) :
      (List.range n).map (fun j => t.entryAt [i, j]) = t.rows.getD i [] := by
    have hlt : i < t.rows.length := (Tensor.length_rows ht).symm ▸ hi
    have hlength : (t.rows.getD i []).length = n := by
      rw [List.getD_eq_getElem _ _ hlt]
      exact Tensor.length_of_mem_rows ht (List.getElem_mem hlt)
    have hentries : ∀ j ∈ List.range n, t.entryAt [i, j] = (t.rows.getD i []).getD j 0 :=
      fun j hj => Tensor.entryAt_matrix ht hi (List.mem_range.mp hj)
    have hall := Tensor.map_getD_range (t.rows.getD i []) 0
    rw [hlength] at hall
    rw [List.map_congr_left hentries, hall]
  have hindices := Tensor.map_getD_range indices 0
  rw [Equalities.rowsAt, Tensor.rows_ofFn]
  conv_rhs => rw [← hindices, List.map_map]
  refine List.map_congr_left fun k hk => hrow _ (h _ ?_)
  have hlt := List.mem_range.mp hk
  rw [List.getD_eq_getElem _ _ hlt]
  exact List.getElem_mem hlt

/-- Some rows of a matrix are selected, and a selection from them alone selects them all. -/
def PurgesOnce (t : Tensor Double) (n : ℕ) (tol : Datum) (pivot : Pivot) : Prop :=
  ∃ kept, independentRows t tol pivot = .ok kept ∧
    independentRows (Equalities.rowsAt t n kept) tol pivot = .ok (List.range kept.length)

theorem purgesOnce_of_kept {pivot : Pivot} {select : List (List Double) → List ℕ}
    (hselect : ∀ {t : Tensor Double} {m : ℕ}, t.shape = [m, n] →
      independentRows t tol pivot = .ok (select t.rows))
    (hbounds : ∀ i ∈ select t.rows, i < t.rows.length)
    (hkept : select ((select t.rows).map (t.rows.getD · [])) = List.range (select t.rows).length)
    (ht : t.shape = [m, n]) : PurgesOnce t n tol pivot := by
  refine ⟨_, hselect ht, ?_⟩
  rw [Tensor.length_rows ht] at hbounds
  have hrows : (Equalities.rowsAt t n (select t.rows)).shape = [(select t.rows).length, n] := rfl
  rw [hselect hrows, rows_rowsAt ht hbounds, hkept]

theorem purgesOnce_column (ht : t.shape = [m, n]) (htol : Tolerance.ofDatum tol = .ok τ)
    (h : τ.Scales t.rows) : PurgesOnce t n tol .column :=
  purgesOnce_of_kept (fun ht => independentRows_column ht htol)
    (fun _ hi => (mem_keep_iff.mp hi).fst)
    (independentByElimination_kept h) ht

theorem purgesOnce_row (ht : t.shape = [m, n]) (htol : Tolerance.ofDatum tol = .ok τ) :
    PurgesOnce t n tol .row :=
  purgesOnce_of_kept (fun ht => independentRows_row ht htol) (fun _ hi => (mem_keep_iff.mp hi).fst)
    (independentByProjection_kept τ t.rows) ht

/-- No row kept once is dropped when the rows passed over are removed: with projection for any
tolerance and any entries, with elimination if the tolerance sets a threshold for the matrix. Every
tolerance of 64 or 80 bits that is not negative does so for finite entries. -/
theorem independentRows_purgesOnce (ht : t.shape = [m, n])
    (htol : Tolerance.ofDatum tol = .ok τ) :
    (∀ pivot, (pivot = .column → τ.Scales t.rows) → PurgesOnce t n tol pivot) ∧
      (0 ≤ τ.number → τ.width ≠ .single → (∀ x ∈ t.entries, x.isFinite = true) →
        τ.Scales t.rows) := by
  constructor
  · intro pivot h
    cases pivot with
    | column => exact purgesOnce_column ht htol (h rfl)
    | row => exact purgesOnce_row ht htol
  · intro hτ hwidth hfinite
    refine Tolerance.scales_of_finite hτ hwidth fun row hrow x hx => ?_
    exact hfinite x (Tensor.mem_entries_of_mem_rows ht hrow hx)

/-- With the tolerance zero, of rows that overflow when they are added. -/
theorem independentRows_purgesOnce_large :
    ∃ t : Tensor Double, t.shape = [3, 2] ∧ (∀ x ∈ t.entries, x.isFinite = true) ∧
      PurgesOnce t 2 (.scalar (.real 0)) .column ∧ PurgesOnce t 2 (.scalar (.real 0)) .row := by
  let t : Tensor Double := ⟨[3, 2], [2 ^ 1023, -2 ^ 1023, 0, 0, 2 ^ 1023, 2 ^ 1023].map
    (Binary.ofInt .double), rfl⟩
  have hfinite : ∀ x ∈ t.entries, x.isFinite = true := by decide +kernel
  have htol : Tolerance.ofDatum (.scalar (.real 0)) = .ok (.double 0) := by
    simp [Tolerance.ofDatum, Tolerance.ofScalar, Scalar.toReal, Scalar.toBinary, Except.map]
  obtain ⟨hpurges, hscales⟩ := independentRows_purgesOnce (t := t) (m := 3) (n := 2) rfl htol
  have hthreshold := hscales (by decide +kernel) (by decide) hfinite
  exact ⟨t, rfl, hfinite, hpurges .column fun _ => hthreshold, hpurges .row (by simp)⟩

/-- An entry that is finite in the extended format and infinite in the double one makes the
threshold of a zero tolerance undefined. A zero row is then kept, and it is dropped when it is
alone. -/
theorem independentRows_drops_kept_row :
    ∃ A : Tensor (Binary .extended), A.shape = [2, 1] ∧ (∀ x ∈ A.entries, x.isFinite = true) ∧
      ((Datum.ofTensor A).toTensor .double >>=
        (independentRows · (.scalar (.real 0)) .column)) = .ok [0] ∧
      ((Datum.ofTensor (Equalities.rowsAt A 1 [0])).toTensor .double >>=
        (independentRows · (.scalar (.real 0)) .column)) = .ok [] := by
  let A : Tensor (Binary .extended) := ⟨[2, 1], [0, 2 ^ 1024].map (Binary.ofInt .extended), rfl⟩
  exact ⟨A, rfl, by decide +kernel, toOption_eq_some.mp (by decide +kernel),
    toOption_eq_some.mp (by decide +kernel)⟩

end Matrices

end Selection

end StandardForm
