import StandardForm.Proofs.Selection.ExactRun
import StandardForm.Proofs.Spectrum.Routines

/-!
# Exact ranks

The values of a finite matrix are rational numbers, and as a matrix of these it has a rank in the
sense of linear algebra. A system of equations has a solution exactly when the right-hand side
does not raise this rank.
-/

namespace StandardForm.Spectrum

open Selection (matrixOf)

variable {m n : ℕ}

/-! ## Systems of equations -/

section Systems

variable (M : Matrix (Fin m) (Fin (n + 1)) ℚ)

def coefficients : Matrix (Fin m) (Fin n) ℚ := M.submatrix id Fin.castSucc

/-- Some combination of the columns before the last one is the last one. -/
def Solvable : Prop := ∃ z, (coefficients M).mulVec z = M.col (Fin.last n)

theorem range_col :
    Set.range M.col = insert (M.col (Fin.last n)) (Set.range (coefficients M).col) := by
  ext v
  constructor
  · rintro ⟨j, rfl⟩
    refine Fin.lastCases ?_ (fun j => ?_) j
    · exact .inl rfl
    · exact .inr ⟨j, rfl⟩
  · rintro (rfl | ⟨j, rfl⟩)
    · exact ⟨Fin.last n, rfl⟩
    · exact ⟨Fin.castSucc j, rfl⟩

theorem rank_coefficients_le : (coefficients M).rank ≤ M.rank :=
  Matrix.rank_submatrix_le M id Fin.castSucc

/-- A right-hand side that does not raise the rank is a combination of the other columns. -/
theorem solvable_iff : Solvable M ↔ (coefficients M).rank = M.rank := by
  have hspan : Solvable M ↔
      M.col (Fin.last n) ∈ Submodule.span ℚ (Set.range (coefficients M).col) := by
    rw [← Matrix.range_mulVecLin, LinearMap.mem_range]
    rfl
  have hle : Submodule.span ℚ (Set.range (coefficients M).col) ≤
      Submodule.span ℚ (Set.range M.col) := by
    rw [range_col]
    exact Submodule.span_mono (Set.subset_insert _ _)
  rw [hspan, Matrix.rank_eq_finrank_span_cols, Matrix.rank_eq_finrank_span_cols]
  constructor
  · intro hmem
    rw [range_col, Submodule.span_insert_eq_span hmem]
  · intro hrank
    rw [Submodule.eq_of_le_of_finrank_eq hle hrank]
    exact Submodule.subset_span ⟨Fin.last n, rfl⟩

end Systems

/-! ## Arrays -/

section Arrays

variable {f : FloatFormat} {A b : Tensor (Binary f)}

/-- The values of the entries of an array as 64-bit numbers. -/
def exactMatrix (m n : ℕ) (A : Tensor (Binary f)) : Matrix (Fin m) (Fin n) ℚ :=
  matrixOf m n (A.map (Binary.cast .double)).rows

/-- The values of the entries of an array, with those of a vector as the last column. -/
def exactSystem (m n : ℕ) (A b : Tensor (Binary f)) : Matrix (Fin m) (Fin (n + 1)) ℚ :=
  matrixOf m (n + 1) (rowsBeside A b)

theorem exactMatrix_apply (hA : A.shape = [m, n]) (i : Fin m) (j : Fin n) :
    exactMatrix m n A i j = ((A.entryAt [i, j]).cast .double).value := by
  have hentry : (A.map (Binary.cast .double)).entryAt [i, j] = (A.entryAt [i, j]).cast .double := by
    simp only [Tensor.entryAt, Tensor.entries_map, Tensor.shape_map, List.getD_eq_getElem?_getD,
      List.getElem?_map]
    cases A.entries[Tensor.offset A.shape [i, j]]? with
    | none => exact Binary.cast_zero.symm
    | some x => rfl
  rw [← hentry, Tensor.entryAt_matrix (t := A.map (Binary.cast .double)) hA i.isLt j.isLt]
  rfl

theorem coefficients_exactSystem (hA : A.shape = [m, n]) (hb : b.shape = [m]) :
    coefficients (exactSystem m n A b) = exactMatrix m n A := by
  have hrows : (A.map (Binary.cast .double)).rows.length = m := Tensor.length_rows hA
  have hcolumn : (b.map (Binary.cast .double)).entries.length = m := by
    simp [b.length_entries, hb]
  ext i j
  have hi : i.val < (A.map (Binary.cast .double)).rows.length := hrows ▸ i.isLt
  have hi' : i.val < (b.map (Binary.cast .double)).entries.length := hcolumn ▸ i.isLt
  have hrow : ((A.map (Binary.cast .double)).rows[i.val]).length = n :=
    Tensor.length_of_mem_rows (t := A.map (Binary.cast .double)) hA (List.getElem_mem hi)
  have hj : j.val < ((A.map (Binary.cast .double)).rows[i.val]).length := hrow ▸ j.isLt
  have hexact : (A.map (Binary.cast .double)).rows.getD i [] =
      (A.map (Binary.cast .double)).rows[i.val] := List.getD_eq_getElem _ _ hi
  have hbeside : (rowsBeside A b).getD i [] = (A.map (Binary.cast .double)).rows[i.val] ++
      [(b.map (Binary.cast .double)).entries[i.val]] := by
    have hlt : i.val < (rowsBeside A b).length := by
      rw [length_rowsBeside hA hb]
      exact i.isLt
    rw [List.getD_eq_getElem _ _ hlt]
    exact List.getElem_zipWith
  simp only [coefficients, exactSystem, exactMatrix, matrixOf, Matrix.submatrix_apply, id_eq,
    Fin.val_castSucc]
  rw [hbeside, hexact, List.getD_append _ _ _ _ hj]

/-- A system with exact ranks for its coefficients and for all its columns has a solution exactly
when the two are the same. -/
theorem solvable_exactSystem (hA : A.shape = [m, n]) (hb : b.shape = [m]) :
    Solvable (exactSystem m n A b) ↔ (exactMatrix m n A).rank = (exactSystem m n A b).rank := by
  rw [solvable_iff, coefficients_exactSystem hA hb]

end Arrays

end StandardForm.Spectrum
