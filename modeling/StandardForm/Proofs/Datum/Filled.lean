import StandardForm.Proofs.Datum.Stored

/-!
# Arrays filled to a number of entries

What is left out is filled to the number of variables. Where a vector of that many entries can exist
in the precision of a program, the shapes of all these arrays are found without a fault: a vector
for the bounds and the linear term, and a matrix with one row or none for the constraints.
-/

namespace StandardForm

variable {p : Precision} {n : ℕ}

theorem double_bytes_le (p : Precision) : FloatFormat.double.bytes ≤ p.format.bytes := by
  cases p <;> decide

/-- What can exist in the precision of a program can exist as an array of 64-bit numbers. -/
theorem Storable.double {shape : List ℕ} (h : Storable p.format shape) :
    Storable .double shape :=
  Nat.le_trans (Nat.mul_le_mul_right _ (double_bytes_le p)) h

theorem storable_noRows_iff {f : FloatFormat} : Storable f [0, n] ↔ Storable f [n] := by
  simp [Storable]

theorem storable_oneRow_iff {f : FloatFormat} : Storable f [1, n] ↔ Storable f [n] := by
  by_cases hn : n = 0
  · simp [Storable, hn]
  · simp [Storable, hn]

theorem le_maxLength_of_storable (h : Storable p.format [n]) : ¬ Datum.maxLength < n := by
  have hdouble : FloatFormat.double.bytes * volume ([n].filter (· ≠ 0)) ≤ Datum.maxBytes := h.double
  have hmax : Datum.maxLength = (Datum.maxBytes : ℤ) := by decide
  have hbytes : FloatFormat.double.bytes = 8 := rfl
  rw [hmax]
  by_cases hn : n = 0
  · omega
  · have hvolume : volume ([n].filter (· ≠ 0)) = n := by simp [hn]
    rw [hvolume, hbytes] at hdouble
    omega

namespace Datum

theorem axisLength_natural (h : Storable p.format [n]) : (integer n).axisLength = .ok n :=
  if_neg (le_maxLength_of_storable h)

/-- Natural numbers are lengths if an array of that shape can exist. -/
theorem shapeOfLengths_eq (shape : List ℕ) :
    shapeOfLengths (shape.map Int.ofNat) =
      if Storable .double shape then .ok shape else .error .malformed := by
  have hnonneg : (shape.map Int.ofNat).any (· < 0) = false := by
    rw [List.any_eq_false]
    intro k hk
    obtain ⟨m, -, rfl⟩ := List.mem_map.mp hk
    simp
  have hshape : (shape.map Int.ofNat).map Int.toNat = shape := by
    simp [Function.comp_def]
  unfold shapeOfLengths
  rw [hnonneg, hshape]
  dsimp only
  rw [if_neg Bool.false_ne_true, requireSize_eq]
  by_cases h : Storable .double shape
  · simp only [if_pos h]
    rfl
  · simp only [if_neg h]
    rfl

theorem shapeOfLengths_naturals {shape : List ℕ} (h : Storable .double shape) :
    shapeOfLengths (shape.map Int.ofNat) = .ok shape := by
  rw [shapeOfLengths_eq, if_pos h]

theorem toShape_natural (h : Storable p.format [n]) : (integer n).toShape = .ok [n] := by
  have haxes : (integer n).axes.mapM axisLength = .ok [(n : ℤ)] := by
    simp only [axes, List.mapM_cons, List.mapM_nil, axisLength_natural h]
    rfl
  unfold toShape
  rw [if_neg (by simp [axes, maxAxes]), haxes]
  exact shapeOfLengths_naturals h.double

theorem toRowsShape_natural {rows : ℕ} (hrows : rows ≤ 1) (h : Storable p.format [n]) :
    (integer n).toRowsShape rows = .ok [rows, n] := by
  have hshape : Storable .double [rows, n] := by
    rcases Nat.le_one_iff_eq_zero_or_eq_one.mp hrows with rfl | rfl
    · exact storable_noRows_iff.mpr h.double
    · exact storable_oneRow_iff.mpr h.double
  unfold toRowsShape
  rw [axisLength_natural h]
  exact shapeOfLengths_naturals hshape

end Datum

namespace Source

/-- A vector that is left out is filled to the number of variables. -/
theorem vector_none (h : Storable p.format [n]) (x : Double) :
    vector none (.integer n) x = .ok (filled [n] x) := by
  rw [vector, Datum.toShape_natural h]
  rfl

/-- A matrix that is left out has as many columns as there are variables. -/
theorem matrix_none {rows : ℕ} (hrows : rows ≤ 1) (h : Storable p.format [n]) (x : Double) :
    matrix none rows (.integer n) x = .ok (filled [rows, n] x) := by
  rw [matrix, Datum.toRowsShape_natural hrows h]
  rfl

end Source

end StandardForm
