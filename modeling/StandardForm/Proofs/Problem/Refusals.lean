import Mathlib.Data.List.Sort
import StandardForm.Proofs.Problem.Equalities
import StandardForm.Proofs.Spectrum.ExactRank
import StandardForm.Proofs.Spectrum.Rank

/-!
# What refused equalities say

Equalities are refused as infeasible if the two ranks differ in either direction, and as redundant
if the ranks agree but fall short of the number of rows. Each rank counts singular values above a
tolerance that grows with the largest of them, so a large right-hand side can lower the rank of the
coefficients beside it. The rows named as redundant are those that elimination leaves out, and
elimination has a tolerance of its own. So neither refusal says what it seems to say without a
further condition on the two methods.
-/

namespace StandardForm

namespace Equalities

variable {f : FloatFormat} {m n k : Nat} {A b : Tensor (Binary f)}

/-! ## Verdicts -/

theorem verdict_eq_infeasible {rankA rankAb x y : Nat} :
    verdict A m rankA rankAb = .error (.rejected (.infeasible x y)) ↔
      rankA = x ∧ rankAb = y ∧ x ≠ y := by
  rw [verdict]
  split
  · next h =>
    simp only [Except.error.injEq, Fault.rejected.injEq, Rejection.infeasible.injEq]
    constructor
    · rintro ⟨rfl, rfl⟩
      exact ⟨rfl, rfl, Ne.symm h⟩
    · rintro ⟨rfl, rfl, -⟩
      exact ⟨rfl, rfl⟩
  · next h =>
    have heq : rankAb = rankA := by simpa using h
    constructor
    · intro h'
      split at h' <;> cases h'
    · rintro ⟨rfl, rfl, hne⟩
      exact absurd heq.symm hne

theorem verdict_eq_redundant {rankA rankAb x m' : Nat} {rows : List Nat} :
    verdict A m rankA rankAb = .error (.rejected (.redundantConstraints x m' rows)) ↔
      m' = m ∧ rankA = x ∧ rankAb = x ∧ x < m ∧ rows = leftOut m (selected A) := by
  rw [verdict]
  split
  · next h =>
    constructor
    · intro h'
      cases h'
    · rintro ⟨-, rfl, rfl, -⟩
      exact absurd rfl h
  split
  · next h hlt =>
    have heq : rankAb = rankA := by simpa using h
    simp only [Except.error.injEq, Fault.rejected.injEq, Rejection.redundantConstraints.injEq]
    constructor
    · rintro ⟨rfl, rfl, rfl⟩
      exact ⟨rfl, rfl, heq, hlt, rfl⟩
    · rintro ⟨rfl, rfl, -, -, rfl⟩
      exact ⟨rfl, rfl, rfl⟩
  · next h hle =>
    constructor
    · intro h'
      cases h'
    · rintro ⟨-, rfl, -, hlt, -⟩
      exact absurd hlt hle

/-! ## Infeasible equalities -/

section Infeasible

variable [Spectrum.Routines]

/-- A rank is never a rejection. -/
theorem rank_ne_rejected (hA : A.shape = [m, n]) (r : Rejection) :
    Spectrum.rank A ≠ .error (.rejected r) := by
  intro h
  rw [Spectrum.rank_matrix hA] at h
  cases Spectrum.eq_of_rankOfRows_error h

theorem rankBeside_ne_rejected (hA : A.shape = [m, n]) (hb : b.shape = [k]) (r : Rejection) :
    Spectrum.rankBeside A b ≠ .error (.rejected r) := by
  intro h
  rw [Spectrum.rankBeside_matrix hA hb] at h
  split at h
  · cases Spectrum.eq_of_rankOfRows_error h
  · cases h

/-- What refuses equalities with rows is the verdict on their ranks. -/
theorem check_eq_rejected (hA : A.shape = [m, n]) (hb : b.shape = [k]) (hm : 0 < m)
    {r : Rejection} :
    check A b = .error (.rejected r) ↔ ∃ x y, Spectrum.rank A = .ok x ∧
      Spectrum.rankBeside A b = .ok y ∧ verdict A m x y = .error (.rejected r) := by
  rw [check_matrix hA hm, bind_eq_error]
  constructor
  · rintro (h | ⟨x, hx, h⟩)
    · exact absurd h (rank_ne_rejected hA r)
    rcases bind_eq_error.mp h with h | ⟨y, hy, h⟩
    · exact absurd h (rankBeside_ne_rejected hA hb r)
    · exact ⟨x, y, hx, hy, h⟩
  · rintro ⟨x, y, hx, hy, h⟩
    exact .inr ⟨x, hx, bind_eq_error.mpr (.inr ⟨y, hy, h⟩)⟩

/-- Equalities are infeasible exactly when the two ranks differ. -/
theorem check_eq_infeasible (hA : A.shape = [m, n]) (hb : b.shape = [k]) {x y : Nat} :
    check A b = .error (.rejected (.infeasible x y)) ↔
      Spectrum.rank A = .ok x ∧ Spectrum.rankBeside A b = .ok y ∧ x ≠ y := by
  rcases Nat.eq_zero_or_pos m with rfl | hm
  · rw [check_empty hA]
    constructor
    · intro h
      cases h
    · -- Without rows both ranks are zero.
      rintro ⟨hx, hy, hne⟩
      rw [rank_eq_zero hA] at hx
      rw [rankBeside_eq_zero hA hb hy] at hne
      exact absurd (Except.ok.inj hx).symm hne
  rw [check_eq_rejected hA hb hm]
  constructor
  · rintro ⟨rankA, rankAb, hA, hAb, h⟩
    obtain ⟨rfl, rfl, hne⟩ := verdict_eq_infeasible.mp h
    exact ⟨hA, hAb, hne⟩
  · rintro ⟨hA, hAb, hne⟩
    exact ⟨x, y, hA, hAb, verdict_eq_infeasible.mpr ⟨rfl, rfl, hne⟩⟩

/-- The rank of the coefficients, zero if there is none. -/
def coefficientRank (A : Tensor (Binary f)) : Nat := (Spectrum.rank A).toOption.getD 0

/-- The rank of the coefficients beside the right-hand side, zero if there is none. -/
def systemRank (A b : Tensor (Binary f)) : Nat := (Spectrum.rankBeside A b).toOption.getD 0

/-- Equalities that are infeasible with exact ranks have the greater rank beside the right-hand
side, and no solution; and if they have no solution, they are infeasible. -/
theorem infeasible_iff_of_exact (hA : A.shape = [m, n]) (hb : b.shape = [k])
    (hrank : Spectrum.rank A = .ok (Spectrum.exactMatrix m n A).rank)
    (hbeside : Spectrum.rankBeside A b = .ok (Spectrum.exactSystem m n A b).rank) :
    (∀ x y, check A b = .error (.rejected (.infeasible x y)) → x < y) ∧
      ((∃ x y, check A b = .error (.rejected (.infeasible x y))) ↔
        ¬ Spectrum.Solvable (Spectrum.exactSystem m n A b)) := by
  obtain rfl := length_eq_of_rankBeside hA hb hbeside
  have hle : (Spectrum.exactMatrix m n A).rank ≤ (Spectrum.exactSystem m n A b).rank := by
    rw [← Spectrum.coefficients_exactSystem hA hb]
    exact Spectrum.rank_coefficients_le _
  simp only [check_eq_infeasible hA hb, hrank, hbeside, Except.ok.injEq,
    Spectrum.solvable_exactSystem hA hb]
  constructor
  · rintro x y ⟨rfl, rfl, hne⟩
    exact lt_of_le_of_ne hle hne
  · constructor
    · rintro ⟨x, y, rfl, rfl, hne⟩
      exact hne
    · intro hne
      exact ⟨_, _, rfl, rfl, hne⟩

section Finite

variable [Spectrum.ConvergentRank]

theorem rank_of_finite (hA : A.shape = [m, n]) (hfinite : Spectrum.FiniteEntries A) :
    Spectrum.rank A = .ok (coefficientRank A) := by
  obtain ⟨r, hr⟩ := Spectrum.exists_rank hA hfinite.nanFree
  rw [coefficientRank, hr]
  rfl

theorem rankBeside_of_finite (hA : A.shape = [m, n]) (hb : b.shape = [m])
    (hfiniteA : Spectrum.FiniteEntries A) (hfiniteb : Spectrum.FiniteEntries b) :
    Spectrum.rankBeside A b = .ok (systemRank A b) := by
  obtain ⟨r, hr⟩ := Spectrum.exists_rankBeside hA hb hfiniteA.nanFree hfiniteb.nanFree
  rw [systemRank, hr]
  rfl

/-- Finite equalities are infeasible exactly when there is a right-hand side for each row and the
two ranks differ. -/
theorem infeasible_iff_of_finite (hA : A.shape = [m, n]) (hb : b.shape = [k])
    (hfiniteA : Spectrum.FiniteEntries A) (hfiniteb : Spectrum.FiniteEntries b) {x y : Nat} :
    check A b = .error (.rejected (.infeasible x y)) ↔
      k = m ∧ coefficientRank A = x ∧ systemRank A b = y ∧ x ≠ y := by
  rw [check_eq_infeasible hA hb, rank_of_finite hA hfiniteA, Except.ok.injEq]
  constructor
  · rintro ⟨hx, hy, hne⟩
    obtain rfl := length_eq_of_rankBeside hA hb hy
    rw [rankBeside_of_finite hA hb hfiniteA hfiniteb] at hy
    exact ⟨rfl, hx, Except.ok.inj hy, hne⟩
  · rintro ⟨rfl, hx, rfl, hne⟩
    exact ⟨hx, rankBeside_of_finite hA hb hfiniteA hfiniteb, hne⟩

/-- Infeasible equalities have a greater rank beside the right-hand side exactly when the
right-hand side does not lower the rank. Equalities of full rank are infeasible exactly when it
does. Where both ranks are exact, it does not, and what is infeasible is what has no solution. -/
theorem infeasible_sound_iff [Spectrum.BoundedRank] (hA : A.shape = [m, n]) (hb : b.shape = [k])
    (hfiniteA : Spectrum.FiniteEntries A) (hfiniteb : Spectrum.FiniteEntries b) :
    ((∀ x y, check A b = .error (.rejected (.infeasible x y)) → x < y) ↔
      (k = m → coefficientRank A ≤ systemRank A b)) ∧
    (Spectrum.rank A = .ok m →
      ((∃ x y, check A b = .error (.rejected (.infeasible x y))) ↔
        k = m ∧ systemRank A b < m)) ∧
    (Spectrum.rank A = .ok (Spectrum.exactMatrix m n A).rank →
      Spectrum.rankBeside A b = .ok (Spectrum.exactSystem m n A b).rank →
      (∀ x y, check A b = .error (.rejected (.infeasible x y)) → x < y) ∧
        ((∃ x y, check A b = .error (.rejected (.infeasible x y))) ↔
          ¬ Spectrum.Solvable (Spectrum.exactSystem m n A b))) := by
  have hverdict : ∀ x y, check A b = .error (.rejected (.infeasible x y)) ↔
      k = m ∧ coefficientRank A = x ∧ systemRank A b = y ∧ x ≠ y := by
    intro x y
    exact infeasible_iff_of_finite hA hb hfiniteA hfiniteb
  refine ⟨?_, ?_, infeasible_iff_of_exact hA hb⟩
  · constructor
    · intro hsound hk
      by_contra hlt
      have := hsound _ _ ((hverdict _ _).mpr ⟨hk, rfl, rfl, by omega⟩)
      omega
    · intro hle x y h
      obtain ⟨hk, rfl, rfl, hne⟩ := (hverdict x y).mp h
      have := hle hk
      omega
  · intro hrank
    have hfull : coefficientRank A = m := by
      rw [rank_of_finite hA hfiniteA] at hrank
      exact Except.ok.inj hrank
    constructor
    · rintro ⟨x, y, h⟩
      obtain ⟨rfl, hx, hy, hne⟩ := (hverdict x y).mp h
      have hle := rankBeside_le hA hb (rankBeside_of_finite hA hb hfiniteA hfiniteb)
      exact ⟨rfl, by omega⟩
    · rintro ⟨hk, hlt⟩
      exact ⟨_, _, (hverdict _ _).mpr ⟨hk, rfl, rfl, by omega⟩⟩

end Finite

end Infeasible

/-- Two equal rows with different right-hand sides are infeasible, with the greater rank beside
the right-hand side. -/
theorem infeasible_sound_equal_rows :
    ∃ A b : Tensor Double, A.shape = [2, 2] ∧ b.shape = [2] ∧
      (∀ x y, check A b = .error (.rejected (.infeasible x y)) → x < y) ∧
      check A b = .error (.rejected (.infeasible 1 2)) := by
  let A : Tensor Double := ⟨[2, 2], [1, 1, 1, 1].map (Binary.ofInt .double), rfl⟩
  let b : Tensor Double := ⟨[2], [1, 3].map (Binary.ofInt .double), rfl⟩
  have hfiniteA : Spectrum.FiniteEntries A := by decide +kernel
  have hfiniteb : Spectrum.FiniteEntries b := by decide +kernel
  have hranks : coefficientRank A = 1 ∧ systemRank A b = 2 := by decide +kernel
  have hsound := (infeasible_sound_iff (m := 2) (k := 2) rfl rfl hfiniteA hfiniteb).1.mpr
    (by omega)
  exact ⟨A, b, rfl, rfl, hsound, (infeasible_iff_of_finite rfl rfl hfiniteA hfiniteb).mpr
    ⟨rfl, hranks.1, hranks.2, by omega⟩⟩

/-- The equalities `x = 10 ^ 20` and `y = 0` are refused as infeasible. -/
theorem infeasible_of_large_side :
    ∃ A b : Tensor Double, A.shape = [2, 2] ∧ b.shape = [2] ∧
      Spectrum.FiniteEntries A ∧ Spectrum.FiniteEntries b ∧
      Spectrum.rank A = .ok 2 ∧ check A b = .error (.rejected (.infeasible 2 1)) := by
  let A : Tensor Double := ⟨[2, 2], [1, 0, 0, 1].map (Binary.ofInt .double), rfl⟩
  let b : Tensor Double := ⟨[2], [10 ^ 20, 0].map (Binary.ofInt .double), rfl⟩
  have hrank : Spectrum.rank A = .ok 2 := toOption_eq_some.mp (by decide +kernel)
  have hrankBeside : Spectrum.rankBeside A b = .ok 1 := toOption_eq_some.mp (by decide +kernel)
  exact ⟨A, b, rfl, rfl, by decide +kernel, by decide +kernel, hrank,
    (check_eq_infeasible rfl rfl).mpr ⟨hrank, hrankBeside, by omega⟩⟩

/-! ## Redundant equalities -/

theorem bounds_of_mem_selected (hA : A.shape = [m, n]) : ∀ i ∈ selected A, i < m := by
  intro i hi
  have hrows : (A.map (Binary.cast .double)).rows.length = m := Tensor.length_rows hA
  have hlt := (Selection.bounds_of_mem_keep hi).2
  omega

theorem pairwise_selected (A : Tensor (Binary f)) : (selected A).Pairwise (· < ·) :=
  Selection.pairwise_keep _ _ _

theorem mem_leftOut {kept : List Nat} {i : Nat} : i ∈ leftOut m kept ↔ i < m ∧ i ∉ kept := by
  simp [leftOut]

theorem pairwise_leftOut (m : Nat) (kept : List Nat) : (leftOut m kept).Pairwise (· < ·) :=
  List.pairwise_lt_range.filter _

/-- What is left out when the rows left out are kept is what was kept. -/
theorem leftOut_leftOut {kept : List Nat} (hsorted : kept.Pairwise (· < ·))
    (hlt : ∀ i ∈ kept, i < m) : leftOut m (leftOut m kept) = kept := by
  refine (pairwise_leftOut m _).eq_of_mem_iff hsorted fun i => ?_
  rw [mem_leftOut, mem_leftOut]
  constructor
  · rintro ⟨hi, h⟩
    by_contra hkept
    exact h ⟨hi, hkept⟩
  · intro hi
    exact ⟨hlt i hi, fun h => h.2 hi⟩

/-- The rows kept and the rows left out are all rows. -/
theorem length_leftOut {kept : List Nat} (hsorted : kept.Pairwise (· < ·))
    (hlt : ∀ i ∈ kept, i < m) : (leftOut m kept).length + kept.length = m := by
  have hkept : (List.range m).filter (fun i => kept.contains i) = kept := by
    refine (List.pairwise_lt_range.filter _).eq_of_mem_iff hsorted fun i => ?_
    simp only [List.mem_filter, List.mem_range, List.contains_iff_mem]
    exact ⟨fun h => h.2, fun h => ⟨hlt i h, h⟩⟩
  have hsplit := List.length_eq_length_filter_add (l := List.range m) (fun i => kept.contains i)
  rw [hkept, List.length_range] at hsplit
  rw [leftOut]
  omega

/-- The rows of a matrix with `n` columns at some indices, as a matrix. -/
def rowsAt (A : Tensor (Binary f)) (n : Nat) (indices : List Nat) : Tensor (Binary f) :=
  .ofFn [indices.length, n] fun
    | [i, j] => A.entryAt [indices.getD i 0, j]
    | _ => 0

/-- The elimination that selects rows rounds nothing. -/
def ExactElimination (A : Tensor (Binary f)) : Prop :=
  Selection.ExactRun (Tolerance.standard.timesReal
    (Selection.largestMagnitude (A.map (Binary.cast .double)).rows)).covers
      (A.map (Binary.cast .double)).rows

/-- Without rounding the rows selected are a basis of the rows. -/
theorem ExactElimination.selectsRowBasis (h : ExactElimination A) (hA : A.shape = [m, n])
    (hfinite : Spectrum.FiniteEntries A) :
    Selection.SelectsRowBasis (Spectrum.exactMatrix m n A) (selected A) := by
  have hrows := (Spectrum.allFinite_rows hA).mpr hfinite
  exact Selection.ExactRun.selectsRowBasis h (fun x hx => Selection.covers_of_isZero hrows hx)
    (Tensor.length_rows (t := A.map (Binary.cast .double)) hA)
    (fun _ hrow => Tensor.length_of_mem_rows (t := A.map (Binary.cast .double)) hA hrow) hrows

theorem exactMatrix_rowsAt (hA : A.shape = [m, n]) {kept : List Nat} (hkept : ∀ i ∈ kept, i < m) :
    Spectrum.exactMatrix kept.length n (rowsAt A n kept) =
      Selection.pickedRows (Spectrum.exactMatrix m n A) kept hkept := by
  ext i j
  have hposition : [i.val, j.val] ∈ Tensor.positions [kept.length, n] :=
    Tensor.mem_positions_matrix.mpr ⟨i, i.isLt, j, j.isLt, rfl⟩
  have hentry : (rowsAt A n kept).entryAt [i, j] = A.entryAt [kept.get i, j] := by
    rw [rowsAt, Tensor.entryAt_ofFn _ hposition]
    dsimp only
    rw [List.getD_eq_getElem _ _ i.isLt]
    rfl
  rw [Selection.pickedRows, Matrix.submatrix_apply,
    Spectrum.exactMatrix_apply (A := rowsAt A n kept) rfl, Spectrum.exactMatrix_apply hA, hentry]
  rfl

/-- Rows that exact elimination selects have a rank that is their number. -/
theorem ExactElimination.rank_selected (h : ExactElimination A) (hA : A.shape = [m, n])
    (hfinite : Spectrum.FiniteEntries A) :
    (Spectrum.exactMatrix (selected A).length n (rowsAt A n (selected A))).rank =
      (selected A).length := by
  rw [exactMatrix_rowsAt hA (bounds_of_mem_selected hA)]
  exact (h.selectsRowBasis hA hfinite).rank_kept

section Redundant

variable [Spectrum.Routines]

/-- Equalities are redundant exactly when the two ranks agree below the number of rows. -/
theorem check_eq_redundant (hA : A.shape = [m, n]) (hb : b.shape = [k]) {x m' : Nat}
    {rows : List Nat} :
    check A b = .error (.rejected (.redundantConstraints x m' rows)) ↔
      m' = m ∧ Spectrum.rank A = .ok x ∧ Spectrum.rankBeside A b = .ok x ∧ x < m ∧
        rows = leftOut m (selected A) := by
  rcases Nat.eq_zero_or_pos m with rfl | hm
  · rw [check_empty hA]
    constructor
    · intro h
      cases h
    · rintro ⟨-, -, -, hlt, -⟩
      exact absurd hlt (Nat.not_lt_zero x)
  rw [check_eq_rejected hA hb hm]
  constructor
  · rintro ⟨rankA, rankAb, hA, hAb, h⟩
    obtain ⟨rfl, rfl, rfl, hlt, hrows⟩ := verdict_eq_redundant.mp h
    exact ⟨rfl, hA, hAb, hlt, hrows⟩
  · rintro ⟨rfl, hA, hAb, hlt, hrows⟩
    exact ⟨x, x, hA, hAb, verdict_eq_redundant.mpr ⟨rfl, rfl, rfl, hlt, hrows⟩⟩

/-- The rows named as redundant are in order, and what remains are the rows that elimination
selects. Dropping them leaves a system of full rank exactly when elimination selects as many rows as
the rank says, and these have that rank. That is so where elimination rounds nothing and the ranks
of the coefficients and of the rows that remain are exact. -/
theorem redundant_purges_iff (hA : A.shape = [m, n]) (hb : b.shape = [k]) {x m' : Nat}
    {rows : List Nat} (h : check A b = .error (.rejected (.redundantConstraints x m' rows))) :
    m' = m ∧ Spectrum.rank A = .ok x ∧ x < m ∧ rows.Pairwise (· < ·) ∧ (∀ i ∈ rows, i < m) ∧
      leftOut m rows = selected A ∧ rows.length = m - (selected A).length ∧
      (rows.length = m - x ∧ Spectrum.rank (rowsAt A n (leftOut m rows)) = .ok x ↔
        (selected A).length = x ∧ Spectrum.rank (rowsAt A n (selected A)) = .ok x) ∧
      (Spectrum.FiniteEntries A → ExactElimination A → x = (Spectrum.exactMatrix m n A).rank →
        Spectrum.rank (rowsAt A n (selected A)) =
          .ok (Spectrum.exactMatrix (selected A).length n (rowsAt A n (selected A))).rank →
        rows.length = m - x ∧ Spectrum.rank (rowsAt A n (leftOut m rows)) = .ok x) := by
  obtain ⟨hm, hrank, -, hlt, rfl⟩ := (check_eq_redundant hA hb).mp h
  have hselected := bounds_of_mem_selected hA
  have hremaining : leftOut m (leftOut m (selected A)) = selected A :=
    leftOut_leftOut (pairwise_selected A) hselected
  have hlength := length_leftOut (pairwise_selected A) hselected
  refine ⟨hm, hrank, hlt, pairwise_leftOut m _, fun i hi => (mem_leftOut.mp hi).1, hremaining,
    by omega, ?_, ?_⟩
  · rw [hremaining]
    refine and_congr_left fun _ => ?_
    omega
  · intro hfinite hexact hx hkept
    have hcount : (selected A).length = x :=
      (hexact.selectsRowBasis hA hfinite).length_eq_rank.trans hx.symm
    rw [hexact.rank_selected hA hfinite, hcount] at hkept
    rw [hremaining]
    exact ⟨by omega, hkept⟩

end Redundant

/-- The last one of three rows is the sum of the others. -/
theorem redundant_purges_sum :
    ∃ A b : Tensor Double, A.shape = [3, 2] ∧ b.shape = [3] ∧
      check A b = .error (.rejected (.redundantConstraints 2 3 [2])) ∧
      [2].length = 3 - 2 ∧ Spectrum.rank (rowsAt A 2 (leftOut 3 [2])) = .ok 2 := by
  let A : Tensor Double := ⟨[3, 2], [1, 0, 0, 1, 1, 1].map (Binary.ofInt .double), rfl⟩
  let b : Tensor Double := ⟨[3], [1, 1, 2].map (Binary.ofInt .double), rfl⟩
  have hrank : Spectrum.rank A = .ok 2 := toOption_eq_some.mp (by decide +kernel)
  have hrankBeside : Spectrum.rankBeside A b = .ok 2 := toOption_eq_some.mp (by decide +kernel)
  have hselected : selected A = [0, 1] := by decide +kernel
  have hkept : Spectrum.rank (rowsAt A 2 (selected A)) = .ok 2 :=
    toOption_eq_some.mp (by decide +kernel)
  have hcheck : check A b = .error (.rejected (.redundantConstraints 2 3 [2])) := by
    refine (check_eq_redundant rfl rfl).mpr ⟨rfl, hrank, hrankBeside, by omega, ?_⟩
    rw [hselected]
    rfl
  obtain ⟨-, -, -, -, -, -, -, hpurges, -⟩ := redundant_purges_iff rfl rfl hcheck
  exact ⟨A, b, rfl, rfl, hcheck, hpurges.mpr ⟨congrArg List.length hselected, hkept⟩⟩

/-- Of the equalities `x = 1`, `2 ^ -30 y = 0` and `0 = 0` two are named, although the rank is
two. -/
theorem redundant_of_small_row :
    ∃ A b : Tensor Double, A.shape = [3, 2] ∧ b.shape = [3] ∧
      Spectrum.FiniteEntries A ∧ Spectrum.FiniteEntries b ∧
      check A b = .error (.rejected (.redundantConstraints 2 3 [1, 2])) ∧
      [1, 2].length ≠ 3 - 2 ∧ Spectrum.rank (rowsAt A 2 (leftOut 3 [1, 2])) = .ok 1 ∧
      Spectrum.rank (rowsAt A 2 (leftOut 3 [2])) = .ok 2 := by
  let A : Tensor Double := ⟨[3, 2],
    [.ofInt _ 1, 0, 0, .twoPowNeg .double 30, 0, 0], rfl⟩
  let b : Tensor Double := ⟨[3], [1, 0, 0].map (Binary.ofInt .double), rfl⟩
  have hrank : Spectrum.rank A = .ok 2 := toOption_eq_some.mp (by decide +kernel)
  have hrankBeside : Spectrum.rankBeside A b = .ok 2 := toOption_eq_some.mp (by decide +kernel)
  have hselected : selected A = [0] := by decide +kernel
  have hcheck : check A b = .error (.rejected (.redundantConstraints 2 3 [1, 2])) := by
    refine (check_eq_redundant rfl rfl).mpr ⟨rfl, hrank, hrankBeside, by omega, ?_⟩
    rw [hselected]
    rfl
  exact ⟨A, b, rfl, rfl, by decide +kernel, by decide +kernel, hcheck, by decide,
    toOption_eq_some.mp (by decide +kernel), toOption_eq_some.mp (by decide +kernel)⟩

end Equalities

end StandardForm
