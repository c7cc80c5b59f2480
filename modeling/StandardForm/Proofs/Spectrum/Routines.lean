import StandardForm.Proofs.Attempt
import StandardForm.Proofs.Binary.Monotone
import StandardForm.Proofs.Tensor.Entries
import StandardForm.Spectrum.Routines

/-!
# What is assumed of ranks and eigenvalues

Whatever holds of problems holds for any library of numerical routines that meets the assumptions
the result names. An assumption is a class of its own, and a result that names none takes the
routines for functions and no more.

A rank above zero says much: no entry of the matrix is a NaN, for which there is no rank, and none
is infinite, which would have made the rank zero.
-/

namespace StandardForm.Spectrum

def AllNumbers (rows : List (List Double)) : Prop := ∀ row ∈ rows, NaNFree row

def AllFinite (rows : List (List Double)) : Prop := ∀ row ∈ rows, ∀ x ∈ row, x.isFinite = true

theorem allNumbers_iff {rows : List (List Double)} :
    AllNumbers rows ↔ rows.any (·.any Binary.isNaN) = false := by
  simp only [AllNumbers, NaNFree, List.any_eq_false, Bool.not_eq_true]

theorem allFinite_iff {rows : List (List Double)} :
    AllFinite rows ↔ AllNumbers rows ∧ rows.any (·.any Binary.isInfinite) = false := by
  have hentry : ∀ x : Double, x.isFinite = true ↔ x.isNaN = false ∧ x.isInfinite = false := by
    rintro (_ | ⟨s, r⟩)
    · simp [Binary.isFinite, Binary.isNaN]
    · simp [Binary.isFinite, Binary.isNaN, Binary.isInfinite]
  simp only [AllFinite, AllNumbers, NaNFree, hentry, List.any_eq_false, Bool.not_eq_true]
  constructor
  · intro h
    exact ⟨fun row hrow x hx => (h row hrow x hx).1, fun row hrow x hx => (h row hrow x hx).2⟩
  · rintro ⟨hnan, hinf⟩ row hrow x hx
    exact ⟨hnan row hrow x hx, hinf row hrow x hx⟩

/-! ## The assumptions -/

/-- No rank exceeds a side of the matrix. -/
class BoundedRank [Routines] : Prop where
  rank?_le (width : Nat) (rows : List (List Double)) (r : Nat) :
    Routines.rank? width rows = some r → r ≤ min rows.length width

/-- Besides that, a matrix with a NaN has no rank, and one with an infinity and no NaN has the rank
zero. -/
class LawfulRank [Routines] : Prop extends BoundedRank where
  rank?_of_nan (width : Nat) (rows : List (List Double)) :
    ¬ AllNumbers rows → Routines.rank? width rows = none
  rank?_of_infinite (width : Nat) (rows : List (List Double)) :
    AllNumbers rows → ¬ AllFinite rows → Routines.rank? width rows = some 0

/-- Every matrix without a NaN has a rank. -/
class ConvergentRank [Routines] : Prop where
  exists_rank? (width : Nat) (rows : List (List Double)) :
    AllNumbers rows → ∃ r, Routines.rank? width rows = some r

/-- Every matrix with as many rows as columns has a least eigenvalue if it has a single entry or is
finite. -/
class ConvergentEigenvalue [Routines] : Prop where
  exists_leastEigenvalue? (rows : List (List Double)) :
    (∀ row ∈ rows, row.length = rows.length) → rows.length = 1 ∨ AllFinite rows →
      ∃ x, Routines.leastEigenvalue? rows = some x

def diagonalRows (ds : List Double) : List (List Double) :=
  (List.range ds.length).map fun i => (List.range ds.length).map fun j =>
    if i = j then ds.getD i 0 else 0

/-- A diagonal matrix of finite numbers from zero on has a least eigenvalue from zero on. -/
class NonnegativeDiagonal [Routines] : Prop where
  leastEigenvalue?_nonneg (ds : List Double) :
    (∀ d ∈ ds, d.isFinite = true ∧ 0 ≤ d) → ds ≠ [] →
      ∃ x, Routines.leastEigenvalue? (diagonalRows ds) = some x ∧ 0 ≤ x

/-- Besides that, the eigenvalue of a single entry is this entry, and a larger diagonal matrix with
an infinity and no NaN has no number for a least eigenvalue. -/
class LawfulDiagonal [Routines] : Prop extends NonnegativeDiagonal where
  leastEigenvalue?_single (d : Double) : Routines.leastEigenvalue? [[d]] = some d
  leastEigenvalue?_infinite (ds : List Double) (x : Double) :
    NaNFree ds → ¬ (∀ d ∈ ds, d.isFinite = true) → 2 ≤ ds.length →
      Routines.leastEigenvalue? (diagonalRows ds) = some x → x = .nan

/-! ## Ranks -/

theorem found_eq_ok {α : Type} {o : Option α} {a : α} : found o = .ok a ↔ o = some a := by
  cases o <;> simp [found]

theorem found_eq_error {α : Type} {o : Option α} {e : Fault} :
    found o = .error e ↔ o = none ∧ e = .undefinedSpectrum := by
  cases o
  · simp [found, eq_comm]
  · simp [found]

section Rows

variable [Routines] {width : Nat} {rows : List (List Double)}

theorem rankOfRows_eq_ok {r : Nat} : rankOfRows width rows = .ok r ↔
    rows.length * width = 0 ∧ r = 0 ∨
      rows.length * width ≠ 0 ∧ Routines.rank? width rows = some r := by
  rw [rankOfRows]
  split
  · next h => simp [h, eq_comm]
  · next h => simp [h, found_eq_ok]

theorem rankOfRows_eq_error {e : Fault} : rankOfRows width rows = .error e ↔
    rows.length * width ≠ 0 ∧ Routines.rank? width rows = none ∧ e = .undefinedSpectrum := by
  rw [rankOfRows]
  split
  · next h => simp [h]
  · next h => simp [h, found_eq_error]

theorem eq_of_rankOfRows_error {e : Fault} (h : rankOfRows width rows = .error e) :
    e = .undefinedSpectrum :=
  (rankOfRows_eq_error.mp h).2.2

theorem rankOfRows_le [BoundedRank] {r : Nat} (h : rankOfRows width rows = .ok r) :
    r ≤ min rows.length width := by
  rcases rankOfRows_eq_ok.mp h with ⟨-, rfl⟩ | ⟨-, hr⟩
  · exact Nat.zero_le _
  · exact BoundedRank.rank?_le width rows r hr

/-- Neither a NaN nor an infinity lets a rank be positive. -/
theorem allFinite_of_rankOfRows [LawfulRank] {r : Nat} (h : rankOfRows width rows = .ok r)
    (hr : 0 < r) : AllFinite rows := by
  rcases rankOfRows_eq_ok.mp h with ⟨-, rfl⟩ | ⟨-, h⟩
  · exact absurd hr (Nat.lt_irrefl 0)
  by_contra hfinite
  by_cases hnumbers : AllNumbers rows
  · cases h.symm.trans (LawfulRank.rank?_of_infinite width rows hnumbers hfinite)
    exact Nat.lt_irrefl 0 hr
  · cases h.symm.trans (LawfulRank.rank?_of_nan width rows hnumbers)

theorem exists_rankOfRows [ConvergentRank] (h : AllNumbers rows) :
    ∃ r, rankOfRows width rows = .ok r := by
  rw [rankOfRows]
  split
  · exact ⟨0, rfl⟩
  · obtain ⟨r, hr⟩ := ConvergentRank.exists_rank? width rows h
    exact ⟨r, found_eq_ok.mpr hr⟩

/-- A matrix that has a rank has no NaN. -/
theorem allNumbers_of_rankOfRows [LawfulRank] (hwidth : ∀ row ∈ rows, row.length = width) {r : Nat}
    (h : rankOfRows width rows = .ok r) : AllNumbers rows := by
  rcases rankOfRows_eq_ok.mp h with ⟨hempty, -⟩ | ⟨-, hr⟩
  · intro row hrow x hx
    have hrows := List.length_pos_of_mem hrow
    have hpos := List.length_pos_of_mem hx
    rw [hwidth row hrow] at hpos
    exact absurd hempty (Nat.mul_pos hrows hpos).ne'
  · by_contra hnan
    cases hr.symm.trans (LawfulRank.rank?_of_nan width rows hnan)

end Rows

section Matrix

variable {f : FloatFormat} {m n k : Nat} {A b : Tensor (Binary f)}

/-- The rank of a matrix is that of its rows, also if it has no entries. -/
theorem rank_matrix [Routines] (hA : A.shape = [m, n]) :
    rank A = rankOfRows n (A.map (Binary.cast .double)).rows := by
  have hrows : (A.map (Binary.cast .double)).rows.length = m := Tensor.length_rows hA
  have hsize : (A.map (Binary.cast .double)).size = m * n := by
    simp [Tensor.size, A.length_entries, hA]
  unfold rank
  dsimp only
  rw [Tensor.shape_map, hA]
  dsimp only
  split
  · next h => rw [rankOfRows, hrows, ← hsize, if_pos h]
  · rfl

/-- The rows of a matrix, each with the entry of a vector after it. -/
def rowsBeside (A b : Tensor (Binary f)) : List (List Double) :=
  List.zipWith (fun row x => row ++ [x]) (A.map (Binary.cast .double)).rows
    (b.map (Binary.cast .double)).entries

theorem length_rowsBeside (hA : A.shape = [m, n]) (hb : b.shape = [m]) :
    (rowsBeside A b).length = m := by
  have hrows : (A.map (Binary.cast .double)).rows.length = m := Tensor.length_rows hA
  simp [rowsBeside, hrows, b.length_entries, hb]

theorem length_of_mem_rowsBeside (hA : A.shape = [m, n]) {row : List Double}
    (hrow : row ∈ rowsBeside A b) : row.length = n + 1 := by
  rw [rowsBeside, ← List.map_uncurry_zip_eq_zipWith] at hrow
  obtain ⟨⟨first, x⟩, hmem, rfl⟩ := List.mem_map.mp hrow
  have hfirst : first.length = n :=
    Tensor.length_of_mem_rows (t := A.map (Binary.cast .double)) hA (List.of_mem_zip hmem).1
  change (first ++ [x]).length = n + 1
  rw [List.length_append, hfirst, List.length_singleton]

/-- All entries are finite as 64-bit numbers. -/
def FiniteEntries (t : Tensor (Binary f)) : Prop :=
  ∀ x ∈ t.entries, (x.cast .double).isFinite = true

instance (t : Tensor (Binary f)) : Decidable (FiniteEntries t) :=
  inferInstanceAs (Decidable (∀ x ∈ t.entries, (x.cast .double).isFinite = true))

theorem FiniteEntries.nanFree (h : FiniteEntries A) : NaNFree A.entries := by
  intro x hx
  have hfinite := h x hx
  cases x with
  | nan => cases hfinite
  | num s r => rfl

/-- What holds of all numbers in the rows holds of all entries as 64-bit numbers. -/
theorem forall_mem_rows (hA : A.shape = [m, n]) (Holds : Double → Prop) :
    (∀ row ∈ (A.map (Binary.cast .double)).rows, ∀ x ∈ row, Holds x) ↔
      ∀ x ∈ A.entries, Holds (x.cast .double) := by
  have hflatten : (A.map (Binary.cast .double)).rows.flatten =
      A.entries.map (Binary.cast .double) := Tensor.flatten_rows hA
  rw [← List.forall_mem_flatten, hflatten, List.forall_mem_map]

theorem forall_mem_zipWith {rows : List (List Double)} {column : List Double}
    (h : rows.length = column.length) (Holds : Double → Prop) :
    (∀ row ∈ List.zipWith (fun row x => row ++ [x]) rows column, ∀ x ∈ row, Holds x) ↔
      (∀ row ∈ rows, ∀ x ∈ row, Holds x) ∧ ∀ x ∈ column, Holds x := by
  induction rows generalizing column with
  | nil =>
    cases column with
    | nil => simp
    | cons => cases h
  | cons row rows ih =>
    cases column with
    | nil => cases h
    | cons x column =>
      have ih := ih (Nat.succ.inj h)
      simp only [List.zipWith_cons_cons, List.forall_mem_cons, List.forall_mem_append,
        List.not_mem_nil, false_imp_iff, implies_true, and_true]
      rw [ih]
      exact and_and_and_comm

theorem forall_mem_rowsBeside (hA : A.shape = [m, n]) (hb : b.shape = [m])
    (Holds : Double → Prop) :
    (∀ row ∈ rowsBeside A b, ∀ x ∈ row, Holds x) ↔
      (∀ x ∈ A.entries, Holds (x.cast .double)) ∧ ∀ x ∈ b.entries, Holds (x.cast .double) := by
  have hrows : (A.map (Binary.cast .double)).rows.length = m := Tensor.length_rows hA
  have hlength : (A.map (Binary.cast .double)).rows.length =
      (b.map (Binary.cast .double)).entries.length := by
    simp [hrows, b.length_entries, hb]
  rw [rowsBeside, forall_mem_zipWith hlength, forall_mem_rows hA, Tensor.entries_map,
    List.forall_mem_map]

theorem allFinite_rows (hA : A.shape = [m, n]) :
    AllFinite (A.map (Binary.cast .double)).rows ↔ FiniteEntries A :=
  forall_mem_rows hA _

/-- A matrix beside a vector is finite exactly when both are. -/
theorem allFinite_rowsBeside (hA : A.shape = [m, n]) (hb : b.shape = [m]) :
    AllFinite (rowsBeside A b) ↔ FiniteEntries A ∧ FiniteEntries b :=
  forall_mem_rowsBeside hA hb _

theorem chunks_one (as : List Double) : Tensor.chunks 1 as.length as = as.map ([·]) := by
  induction as with
  | nil => rfl
  | cons a as ih => simp [Tensor.chunks, ih]

theorem rankBeside_matrix [Routines] (hA : A.shape = [m, n]) (hb : b.shape = [k]) :
    rankBeside A b =
      if m = k then rankOfRows (n + 1) (rowsBeside A b) else .error .malformed := by
  have hrows : (A.map (Binary.cast .double)).rows =
      Tensor.chunks n m (A.entries.map (Binary.cast .double)) := Tensor.rows_eq hA
  have hcolumn : Tensor.chunks 1 k (b.entries.map (Binary.cast .double)) =
      (b.entries.map (Binary.cast .double)).map ([·]) := by
    rw [← chunks_one, List.length_map, b.length_entries, hb]
    simp
  unfold rankBeside
  rw [hA, hb]
  simp only [columnsShape?]
  split
  · next h =>
    subst h
    rw [hcolumn, List.zipWith_map_right, rowsBeside, hrows]
    rfl
  · rfl

theorem allNumbers_rows (hA : A.shape = [m, n]) :
    AllNumbers (A.map (Binary.cast .double)).rows ↔ NaNFree A.entries := by
  refine (forall_mem_rows hA (·.isNaN = false)).trans ?_
  simp only [Binary.isNaN_cast]
  rfl

theorem allNumbers_rowsBeside (hA : A.shape = [m, n]) (hb : b.shape = [m]) :
    AllNumbers (rowsBeside A b) ↔ NaNFree A.entries ∧ NaNFree b.entries := by
  refine (forall_mem_rowsBeside hA hb (·.isNaN = false)).trans ?_
  simp only [Binary.isNaN_cast]
  rfl

section Convergent

variable [Routines] [ConvergentRank]

/-- Without a NaN among its entries a matrix has a rank. -/
theorem exists_rank (hA : A.shape = [m, n]) (hfree : NaNFree A.entries) :
    ∃ r, rank A = .ok r := by
  rw [rank_matrix hA]
  exact exists_rankOfRows ((allNumbers_rows hA).mpr hfree)

theorem exists_rankBeside (hA : A.shape = [m, n]) (hb : b.shape = [m]) (hfreeA : NaNFree A.entries)
    (hfreeb : NaNFree b.entries) : ∃ r, rankBeside A b = .ok r := by
  rw [rankBeside_matrix hA hb, if_pos rfl]
  exact exists_rankOfRows ((allNumbers_rowsBeside hA hb).mpr ⟨hfreeA, hfreeb⟩)

end Convergent

section Lawful

variable [Routines] [LawfulRank] {r : Nat}

theorem nanFree_of_rankBeside (hA : A.shape = [m, n]) (hb : b.shape = [m])
    (h : rankBeside A b = .ok r) : NaNFree A.entries ∧ NaNFree b.entries := by
  rw [rankBeside_matrix hA hb, if_pos rfl] at h
  exact (allNumbers_rowsBeside hA hb).mp <|
    allNumbers_of_rankOfRows (fun _ => length_of_mem_rowsBeside hA) h

end Lawful

/-! ## Least eigenvalues -/

variable {t : Tensor (Binary f)}

theorem leastEigenvalue_matrix [Routines] (ht : t.shape = [n, n]) :
    leastEigenvalue t =
      if n = 0 then .ok 0
      else found (Routines.leastEigenvalue? (t.map (Binary.cast .double)).rows) := by
  have hsize : (t.map (Binary.cast .double)).size = n * n := by
    simp [Tensor.size, t.length_entries, ht]
  unfold leastEigenvalue
  dsimp only
  rw [Tensor.shape_map, ht, hsize]
  simp

theorem eq_of_leastEigenvalue_error [Routines] (ht : t.shape = [n, n]) {e : Fault}
    (h : leastEigenvalue t = .error e) : e = .undefinedSpectrum := by
  rw [leastEigenvalue_matrix ht] at h
  split at h
  · cases h
  · exact (found_eq_error.mp h).2

/-- A square matrix has a least eigenvalue if it has a single entry or is finite. -/
theorem exists_leastEigenvalue [Routines] [ConvergentEigenvalue] (ht : t.shape = [n, n])
    (h : n = 1 ∨ FiniteEntries t) : ∃ x, leastEigenvalue t = .ok x := by
  have hrows : (t.map (Binary.cast .double)).rows.length = n := Tensor.length_rows ht
  have hsquare : ∀ row ∈ (t.map (Binary.cast .double)).rows,
      row.length = (t.map (Binary.cast .double)).rows.length := fun _ hrow =>
    (Tensor.length_of_mem_rows (t := t.map (Binary.cast .double)) ht hrow).trans hrows.symm
  obtain ⟨x, hx⟩ := ConvergentEigenvalue.exists_leastEigenvalue? _ hsquare
    (h.imp hrows.trans (allFinite_rows ht).mpr)
  rw [leastEigenvalue_matrix ht]
  split
  · exact ⟨0, rfl⟩
  · exact ⟨x, found_eq_ok.mpr hx⟩

end Matrix

end StandardForm.Spectrum
