import StandardForm.Proofs.Binary.Order
import StandardForm.Proofs.Spectrum.Routines
import StandardForm.Spectrum.Rounded

/-!
# Eigenvalues of diagonal matrices

A diagonal matrix is symmetric, and every index of it is isolated, so no root of a polynomial is
looked for: the least eigenvalue is the least entry on the diagonal. What is assumed of eigenvalues
follows from that and from the way in which matrices that are not finite are told apart.
-/

namespace StandardForm.Spectrum

variable {ds : List Double}

@[simp] theorem length_diagonalRows (ds : List Double) : (diagonalRows ds).length = ds.length := by
  simp [diagonalRows]

theorem getD_diagonalRows {i j : Nat} (hi : i < ds.length) (hj : j < ds.length) :
    ((diagonalRows ds).getD i []).getD j 0 = if i = j then ds.getD i 0 else 0 := by
  simp [diagonalRows, List.getD_eq_getElem?_getD, hi, hj]

/-- The lower triangle says it all. -/
theorem ofLowerTriangle_diagonalRows (ds : List Double) :
    ofLowerTriangle (diagonalRows ds) = diagonalRows ds := by
  rw [ofLowerTriangle, length_diagonalRows]
  refine List.map_congr_left fun i hi => List.map_congr_left fun j hj => ?_
  have hi := List.mem_range.mp hi
  have hj := List.mem_range.mp hj
  rw [getD_diagonalRows (Nat.max_lt.mpr ⟨hi, hj⟩) (Nat.lt_of_le_of_lt (Nat.min_le_left i j) hi)]
  by_cases h : i = j
  · subst h
    simp
  · have hne : Nat.max i j ≠ Nat.min i j := by
      show max i j ≠ min i j
      omega
    rw [if_neg hne, if_neg h]

theorem isolated_diagonalRow {i : Nat} {row : List Double} (h : (diagonalRows ds)[i]? = some row) :
    isolated row i = true := by
  obtain ⟨hi, rfl⟩ := List.getElem?_eq_some_iff.mp h
  rw [length_diagonalRows] at hi
  refine List.all_eq_true.mpr fun x hx => ?_
  obtain ⟨k, hk, hne, rfl⟩ := List.mem_eraseIdx_iff_getElem.mp hx
  simp only [diagonalRows, List.getElem_map, List.getElem_range]
  rw [if_neg (Ne.symm hne)]
  rfl

/-- The least eigenvalue is the least entry on the diagonal. -/
theorem leastOfSymmetric_diagonalRows (ds : List Double) :
    leastOfSymmetric (diagonalRows ds) = ds.foldl Binary.min (.infinity false) := by
  have hisolated : ∀ entry ∈ (diagonalRows ds).zipIdx, isolated entry.1 entry.2 = true :=
    fun entry hentry => isolated_diagonalRow (List.mem_zipIdx_iff_getElem?.mp hentry)
  have halone : (diagonalRows ds).zipIdx.filter (fun entry => isolated entry.1 entry.2) =
      (diagonalRows ds).zipIdx := List.filter_eq_self.mpr hisolated
  have hrest : (diagonalRows ds).zipIdx.filter (fun entry => !isolated entry.1 entry.2) = [] :=
    List.filter_eq_nil_iff.mpr fun entry hentry => by simp [hisolated entry hentry]
  have hdiagonal : (diagonalRows ds).zipIdx.map (fun entry => entry.1.getD entry.2 0) = ds := by
    refine List.ext_getElem (by simp) fun i hi _ => ?_
    have hlt : i < ds.length := by simpa using hi
    simp [diagonalRows, hlt]
  simp only [leastOfSymmetric, halone, hrest, hdiagonal, List.map_nil, if_true]

/-- Besides zeros a diagonal matrix holds its diagonal. -/
theorem forall_mem_diagonalRows (Holds : Double → Prop) (h : Holds 0) :
    (∀ row ∈ diagonalRows ds, ∀ x ∈ row, Holds x) ↔ ∀ d ∈ ds, Holds d := by
  simp only [diagonalRows, List.mem_map, List.mem_range, forall_exists_index, and_imp,
    forall_apply_eq_imp_iff₂]
  constructor
  · intro hall d hd
    obtain ⟨i, hi, rfl⟩ := List.mem_iff_getElem.mp hd
    have hentry := hall i hi i hi
    rw [if_pos rfl] at hentry
    simpa [List.getD_eq_getElem?_getD, hi] using hentry
  · intro hall i hi j hj
    split
    · have hentry := hall _ (List.getElem_mem hi)
      simpa [List.getD_eq_getElem?_getD, hi] using hentry
    · exact h

/-! ## Finite matrices -/

theorem all_isFinite_iff {rows : List (List Double)} :
    rows.all (·.all Binary.isFinite) = true ↔ AllFinite rows := by
  simp only [AllFinite, List.all_eq_true]

/-- The lower triangle of a finite matrix is finite. -/
theorem allFinite_ofLowerTriangle {rows : List (List Double)} (h : AllFinite rows) :
    AllFinite (ofLowerTriangle rows) := by
  have hentry (i j : Nat) : ((rows.getD i []).getD j 0).isFinite = true := by
    simp only [List.getD_eq_getElem?_getD]
    cases hrow : rows[i]? with
    | none => rfl
    | some row =>
      cases hx : row[j]? with
      | none =>
        rw [Option.getD_some, hx]
        rfl
      | some x =>
        rw [Option.getD_some, hx]
        exact h row (List.mem_of_getElem? hrow) x (List.mem_of_getElem? hx)
  simp only [AllFinite, ofLowerTriangle, List.forall_mem_map]
  exact fun i _ j _ => hentry _ _

theorem roundedLeastEigenvalue?_of_finite {rows : List (List Double)}
    (h : AllFinite (ofLowerTriangle rows)) :
    roundedLeastEigenvalue? rows = some (leastOfSymmetric (ofLowerTriangle rows)) :=
  if_pos (all_isFinite_iff.mpr h)

/-- The least eigenvalue of a finite diagonal matrix is the least entry on the diagonal. -/
theorem roundedLeastEigenvalue?_diagonalRows (h : ∀ d ∈ ds, d.isFinite = true) :
    roundedLeastEigenvalue? (diagonalRows ds) = some (ds.foldl Binary.min (.infinity false)) := by
  have hfinite : AllFinite (ofLowerTriangle (diagonalRows ds)) := by
    rw [ofLowerTriangle_diagonalRows]
    exact (forall_mem_diagonalRows (·.isFinite = true) rfl).mpr h
  rw [roundedLeastEigenvalue?_of_finite hfinite, ofLowerTriangle_diagonalRows,
    leastOfSymmetric_diagonalRows]

theorem min_infinity {d : Double} (h : d.isFinite = true) : Binary.min (.infinity false) d = d := by
  cases d with
  | nan => cases h
  | num s r =>
    have htop : r.val ≠ FloatFormat.double.top := by simpa [Binary.isFinite] using h
    have hlt : (Binary.num s r : Double) < .infinity false := by
      have := r.isLt
      show Binary.lt _ _ = true
      cases s <;> simp only [Binary.lt, Binary.infinity, Binary.position, decide_eq_true_eq,
        Bool.false_eq_true, if_false, if_true] <;> omega
    exact if_pos hlt

theorem roundedLeastEigenvalue?_single (d : Double) : roundedLeastEigenvalue? [[d]] = some d := by
  cases h : d.isFinite with
  | true =>
    have hfinite : ∀ x ∈ [d], x.isFinite = true := List.forall_mem_singleton.mpr h
    have hd := roundedLeastEigenvalue?_diagonalRows hfinite
    rw [List.foldl_cons, List.foldl_nil, min_infinity h] at hd
    exact hd
  | false => simp [roundedLeastEigenvalue?, ofLowerTriangle, h]

theorem zero_le_foldl_min (h : ∀ d ∈ ds, 0 ≤ d) {least : Double} (hleast : 0 ≤ least) :
    0 ≤ ds.foldl Binary.min least := by
  induction ds generalizing least with
  | nil => exact hleast
  | cons d ds ih =>
    rw [List.forall_mem_cons] at h
    refine ih h.2 ?_
    rw [Binary.min]
    split
    · exact hleast
    split
    · exact h.1
    split
    · exact h.1
    · exact hleast

/-! ## Matrices that are not finite -/

theorem eq_nan_of_roundedLeastEigenvalue? {rows : List (List Double)} {x : Double}
    (hnumbers : AllNumbers (ofLowerTriangle rows)) (hfinite : ¬ AllFinite (ofLowerTriangle rows))
    (hlength : 2 ≤ rows.length) (h : roundedLeastEigenvalue? rows = some x) : x = .nan := by
  have hrows : (ofLowerTriangle rows).length = rows.length := by simp [ofLowerTriangle]
  simp only [roundedLeastEigenvalue?, mt all_isFinite_iff.mp hfinite, allNumbers_iff.mp hnumbers,
    Bool.false_eq_true, if_false] at h
  split at h
  · next hone =>
    rw [hone, List.length_singleton] at hrows
    omega
  · obtain ⟨-, -, rfl⟩ := Option.map_eq_some_iff.mp h
    rfl

instance : ConvergentEigenvalue where
  exists_leastEigenvalue? rows hsquare h := by
    rcases h with hone | hfinite
    · obtain ⟨row, rfl⟩ := List.length_eq_one_iff.mp hone
      obtain ⟨d, rfl⟩ := List.length_eq_one_iff.mp (hsquare row (List.mem_singleton_self row))
      exact ⟨d, roundedLeastEigenvalue?_single d⟩
    · exact ⟨_, roundedLeastEigenvalue?_of_finite (allFinite_ofLowerTriangle hfinite)⟩

instance : LawfulDiagonal where
  leastEigenvalue?_single := roundedLeastEigenvalue?_single
  leastEigenvalue?_nonneg ds h _ :=
    ⟨_, roundedLeastEigenvalue?_diagonalRows fun d hd => (h d hd).1,
      zero_le_foldl_min (fun d hd => (h d hd).2) (by decide)⟩
  leastEigenvalue?_infinite ds x hnumbers hfinite hlength h := by
    have h : roundedLeastEigenvalue? (diagonalRows ds) = some x := h
    refine eq_nan_of_roundedLeastEigenvalue? ?_ ?_ ?_ h
    · rw [ofLowerTriangle_diagonalRows]
      exact (forall_mem_diagonalRows (·.isNaN = false) rfl).mpr hnumbers
    · rw [ofLowerTriangle_diagonalRows]
      exact mt (forall_mem_diagonalRows (·.isFinite = true) rfl).mp hfinite
    · rwa [length_diagonalRows]

end StandardForm.Spectrum
