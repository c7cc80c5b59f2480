import StandardForm.Problem.Equalities
import StandardForm.Proofs.Selection.Independent
import StandardForm.Proofs.Spectrum.Routines

/-!
# Equalities that pass

Equalities pass exactly when the rank is the number of rows, without the right-hand side and,
where there are rows, with it. Since no rank exceeds a side of its matrix, there are no more
equalities that pass than variables. If there are any, the ranks are positive, and so all
coefficients and right-hand sides are finite as 64-bit numbers.
-/

namespace StandardForm

namespace Equalities

variable {f : FloatFormat} {m n k : Nat} {A b : Tensor (Binary f)}

/-- The rows of the coefficients that elimination finds independent. -/
def selected (A : Tensor (Binary f)) : List Nat :=
  Selection.independentByElimination .standard (A.map (Binary.cast .double)).rows

/-- What the two ranks of `m` equalities mean. -/
def verdict (A : Tensor (Binary f)) (m rankA rankAb : Nat) : Except Fault Unit :=
  if rankAb ≠ rankA then .error (.rejected (.infeasible rankA rankAb))
  else if rankA < m then
    .error (.rejected (.redundantConstraints rankA m (leftOut m (selected A))))
  else .ok ()

theorem independentRows_matrix (hA : A.shape = [m, n]) :
    Selection.independentRows (A.map (Binary.cast .double))
      (.scalar (.fixed .double (.twoPowNeg .double 26))) .column = .ok (selected A) := by
  refine Selection.independentRows_column (m := m) (n := n) hA ?_
  simp [Tolerance.ofDatum, Tolerance.ofScalar, Scalar.toReal, Scalar.toBinary, Except.map,
    Tolerance.standard]

theorem verdict_eq_ok {rankA rankAb : Nat} (hle : rankA ≤ m) :
    verdict A m rankA rankAb = .ok () ↔ rankA = m ∧ rankAb = m := by
  rw [verdict]
  split
  · simp
    omega
  split
  · simp
    omega
  · simp
    omega

section Ranks

variable [Spectrum.Routines]

/-- Without rows there is no rank. -/
theorem rank_eq_zero (hA : A.shape = [0, n]) : Spectrum.rank A = .ok 0 := by
  have hrows : (A.map (Binary.cast .double)).rows.length = 0 := Tensor.length_rows hA
  rw [Spectrum.rank_matrix hA, Spectrum.rankOfRows, hrows, Nat.zero_mul]
  rfl

/-- A right-hand side of another length than the coefficients have rows is refused. -/
theorem length_eq_of_rankBeside (hA : A.shape = [m, n]) (hb : b.shape = [k]) {r : Nat}
    (h : Spectrum.rankBeside A b = .ok r) : m = k := by
  rw [Spectrum.rankBeside_matrix hA hb] at h
  split at h
  · assumption
  · cases h

/-- Beside a right-hand side there is no rank either. -/
theorem rankBeside_eq_zero (hA : A.shape = [0, n]) (hb : b.shape = [k]) {r : Nat}
    (h : Spectrum.rankBeside A b = .ok r) : r = 0 := by
  obtain rfl := length_eq_of_rankBeside hA hb h
  rw [Spectrum.rankBeside_matrix hA hb, if_pos rfl, Spectrum.rankOfRows,
    Spectrum.length_rowsBeside hA hb, Nat.zero_mul] at h
  exact (Except.ok.inj h).symm

/-- With rows to look at, both ranks are found before anything is decided. -/
theorem check_matrix (hA : A.shape = [m, n]) (hm : 0 < m) :
    check A b = Spectrum.rank A >>= fun rankA =>
      Spectrum.rankBeside A b >>= verdict A m rankA := by
  unfold check
  rw [hA]
  simp only [if_neg (Nat.ne_of_gt hm), independentRows_matrix hA, ok_bind]
  rfl

/-- Without equalities there is nothing to refuse. -/
theorem check_empty (hA : A.shape = [0, n]) : check A b = .ok () := by
  unfold check
  rw [hA]
  simp [rank_eq_zero hA, ok_bind]

/-- Equalities that pass have a right-hand side for each row, if there are rows. -/
theorem length_eq_of_check (hA : A.shape = [m, n]) (hb : b.shape = [k]) (hm : 0 < m)
    (h : check A b = .ok ()) : m = k := by
  rw [check_matrix hA hm] at h
  obtain ⟨rankA, -, h⟩ := bind_eq_ok.mp h
  obtain ⟨rankAb, hbeside, -⟩ := bind_eq_ok.mp h
  exact length_eq_of_rankBeside hA hb hbeside

section Bounded

variable [Spectrum.BoundedRank]

theorem rank_le (hA : A.shape = [m, n]) {r : Nat} (h : Spectrum.rank A = .ok r) : r ≤ min m n := by
  rw [Spectrum.rank_matrix hA] at h
  have hrows : (A.map (Binary.cast .double)).rows.length = m := Tensor.length_rows hA
  exact hrows ▸ Spectrum.rankOfRows_le h

theorem rankBeside_le (hA : A.shape = [m, n]) (hb : b.shape = [k]) {r : Nat}
    (h : Spectrum.rankBeside A b = .ok r) : r ≤ min m (n + 1) := by
  obtain rfl := length_eq_of_rankBeside hA hb h
  rw [Spectrum.rankBeside_matrix hA hb, if_pos rfl] at h
  exact Spectrum.length_rowsBeside hA hb ▸ Spectrum.rankOfRows_le h

/-- The equalities pass exactly when every rank that is looked at is the number of rows. -/
theorem check_eq_ok (hA : A.shape = [m, n]) :
    check A b = .ok () ↔
      Spectrum.rank A = .ok m ∧ (0 < m → Spectrum.rankBeside A b = .ok m) := by
  rcases Nat.eq_zero_or_pos m with rfl | hm
  · simp [check_empty hA, rank_eq_zero hA]
  rw [check_matrix hA hm, bind_eq_ok]
  constructor
  · rintro ⟨rankA, hrank, h⟩
    obtain ⟨rankAb, hrankAb, h⟩ := bind_eq_ok.mp h
    obtain ⟨rfl, rfl⟩ := (verdict_eq_ok (Nat.le_trans (rank_le hA hrank) (Nat.min_le_left _ _))).mp h
    exact ⟨hrank, fun _ => hrankAb⟩
  · rintro ⟨hrank, hrankAb⟩
    exact ⟨m, hrank, bind_eq_ok.mpr ⟨m, hrankAb hm, (verdict_eq_ok (Nat.le_refl m)).mpr ⟨rfl, rfl⟩⟩⟩

/-- There are no more equalities that pass than variables. -/
theorem rows_le_of_check (hA : A.shape = [m, n]) (h : check A b = .ok ()) : m ≤ n :=
  Nat.le_trans (rank_le hA ((check_eq_ok hA).mp h).1) (Nat.min_le_right m n)

end Bounded

/-- All numbers of equalities that pass are finite. -/
theorem finite_of_check [Spectrum.LawfulRank] (hA : A.shape = [m, n]) (hb : b.shape = [m])
    (h : check A b = .ok ()) : Spectrum.FiniteEntries A ∧ Spectrum.FiniteEntries b := by
  rcases Nat.eq_zero_or_pos m with rfl | hm
  · have hAe : A.entries = [] := List.length_eq_zero_iff.mp (by simp [A.length_entries, hA])
    have hbe : b.entries = [] := List.length_eq_zero_iff.mp (by simp [b.length_entries, hb])
    simp [Spectrum.FiniteEntries, hAe, hbe]
  · -- With rows the rank beside the right-hand side is positive.
    have hrank := ((check_eq_ok hA).mp h).2 hm
    rw [Spectrum.rankBeside_matrix hA hb, if_pos rfl] at hrank
    exact (Spectrum.allFinite_rowsBeside hA hb).mp (Spectrum.allFinite_of_rankOfRows hrank hm)

end Ranks

end Equalities

end StandardForm
