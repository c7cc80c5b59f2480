import Mathlib.Data.Finset.Basic
import StandardForm.Proofs.Problem.Purging

/-!
# Projection decides about rows as they come

What projection decides about a row depends on the row and on the directions that it has by then,
and a row passed over adds none. So rows that were passed over may be missing, and rows that come
later too: every row that is still there meets the same directions as before and finds the same
decision. Elimination is different, since its threshold looks at all rows.
-/

namespace StandardForm.Selection

/-- The indices below `count` that are not dropped. -/
def survivors (dropped : Finset ℕ) (count : ℕ) : List ℕ :=
  (List.range count).filter (· ∉ dropped)

section Survivors

variable {dropped : Finset ℕ} {count i : ℕ}

theorem mem_survivors : i ∈ survivors dropped count ↔ i < count ∧ i ∉ dropped := by
  simp [survivors]

theorem survivors_succ_of_mem (h : count ∈ dropped) :
    survivors dropped (count + 1) = survivors dropped count := by
  simp [survivors, List.range_succ, h]

theorem survivors_succ_of_notMem (h : count ∉ dropped) :
    survivors dropped (count + 1) = survivors dropped count ++ [count] := by
  simp [survivors, List.range_succ, h]

end Survivors

/-! ## Selections one row at a time -/

section Keep

variable {σ ρ : Type} {accept : σ → ρ → Option σ}

theorem keep_append (index : ℕ) (s : σ) (before rows : List ρ) :
    keep accept index s (before ++ rows) = keep accept index s before ++
      keep accept (index + before.length) (finalState accept s before) rows := by
  induction before generalizing index s with
  | nil => rfl
  | cons row before ih =>
    have hindex : index + (before.length + 1) = index + 1 + before.length := by omega
    rw [List.cons_append, keep, keep, finalState, List.length_cons, hindex]
    cases accept s row with
    | none => exact ih (index + 1) s
    | some s' => exact congrArg (index :: ·) (ih (index + 1) s')

theorem keep_singleton (index : ℕ) (s : σ) (row : ρ) :
    keep accept index s [row] = if (accept s row).isSome then [index] else [] := by
  rw [keep]
  cases accept s row <;> rfl

/-- What is kept of the first rows is what is kept among them of all rows. -/
theorem keep_take (s : σ) (rows : List ρ) {count : ℕ} (hcount : count ≤ rows.length) :
    keep accept 0 s (rows.take count) = (keep accept 0 s rows).filter (· < count) := by
  have hlength : (rows.take count).length = count := List.length_take_of_le hcount
  conv_rhs => rw [← List.take_append_drop count rows, keep_append, List.filter_append]
  have hfirst : (keep accept 0 s (rows.take count)).filter (· < count) =
      keep accept 0 s (rows.take count) := by
    refine List.filter_eq_self.mpr fun i hi => decide_eq_true ?_
    have hbounds := bounds_of_mem_keep hi
    omega
  have hrest : (keep accept (0 + (rows.take count).length)
      (finalState accept s (rows.take count)) (rows.drop count)).filter (· < count) = [] := by
    refine List.filter_eq_nil_iff.mpr fun i hi => ?_
    have hbounds := bounds_of_mem_keep hi
    simp only [decide_eq_true_eq]
    omega
  rw [hfirst, hrest, List.append_nil]

theorem keep_take_succ (s : σ) {rows : List ρ} {j : ℕ} (hj : j < rows.length) :
    keep accept 0 s (rows.take (j + 1)) = keep accept 0 s (rows.take j) ++
      if (accept (finalState accept s (rows.take j)) rows[j]).isSome then [j] else [] := by
  have hlength : (rows.take j).length = j := List.length_take_of_le hj.le
  rw [List.take_succ_eq_append_getElem hj, keep_append, hlength, Nat.zero_add,
    keep_singleton]

/-- A row that is passed over has no state to leave. -/
theorem accept_eq_none_of_notMem {s : σ} {rows : List ρ} {j : ℕ} (hj : j < rows.length)
    (h : j ∉ keep accept 0 s rows) :
    accept (finalState accept s (rows.take j)) rows[j] = none := by
  by_contra hne
  exact h (mem_keep_iff.mpr ⟨hj, Option.isSome_iff_ne_none.mpr hne⟩)

variable {s : σ} {rows : List ρ} {default : ρ} {dropped : Finset ℕ} {count : ℕ}

/-- The rows that survive lead to the same state as all rows, when those dropped were passed
over. -/
theorem finalState_survivors (h : ∀ i ∈ dropped, i ∉ keep accept 0 s rows)
    (hcount : count ≤ rows.length) :
    finalState accept s ((survivors dropped count).map (rows.getD · default)) =
      finalState accept s (rows.take count) := by
  induction count with
  | zero => rfl
  | succ j ih =>
    have hj : j < rows.length := hcount
    have hbefore := ih hj.le
    rw [finalState_take_succ s hj]
    by_cases hdropped : j ∈ dropped
    · rw [survivors_succ_of_mem hdropped, hbefore,
        accept_eq_none_of_notMem hj (h j hdropped), Option.getD_none]
    · rw [survivors_succ_of_notMem hdropped, List.map_append, finalState_append, hbefore,
        List.map_singleton, List.getD_eq_getElem _ _ hj]
      rfl

/-- Of the rows that survive those are kept that were kept among all rows, under their new
indices. The induction is on the number of rows looked at: each of them meets the state that it
met among all rows. -/
theorem keep_survivors (h : ∀ i ∈ dropped, i ∉ keep accept 0 s rows)
    (hcount : count ≤ rows.length) :
    keep accept 0 s ((survivors dropped count).map (rows.getD · default)) =
      (keep accept 0 s (rows.take count)).map (survivors dropped count).idxOf := by
  induction count with
  | zero => rfl
  | succ j ih =>
    have hj : j < rows.length := hcount
    rw [keep_take_succ s hj]
    by_cases hdropped : j ∈ dropped
    · rw [survivors_succ_of_mem hdropped, ih hj.le, accept_eq_none_of_notMem hj (h j hdropped),
        Option.isSome_none, if_neg Bool.false_ne_true, List.append_nil]
    · have hstate : finalState accept s ((survivors dropped j).map (rows.getD · default)) =
          finalState accept s (rows.take j) := finalState_survivors h hj.le
      have hbefore : ∀ i ∈ keep accept 0 s (rows.take j),
          (survivors dropped j ++ [j]).idxOf i = (survivors dropped j).idxOf i := by
        intro i hi
        rw [keep_take s rows hj.le, List.mem_filter, decide_eq_true_iff] at hi
        refine List.idxOf_append_of_mem (mem_survivors.mpr ⟨hi.2, fun hmem => ?_⟩)
        exact h i hmem hi.1
      have hnew : (survivors dropped j ++ [j]).idxOf j = (survivors dropped j).length := by
        have hnotMem : j ∉ survivors dropped j := fun hmem => by
          have := (mem_survivors.mp hmem).1
          omega
        rw [List.idxOf_append_of_notMem hnotMem, List.idxOf_cons_self, Nat.add_zero]
      rw [survivors_succ_of_notMem hdropped, List.map_append, keep_append, ih hj.le, hstate,
        List.map_append, List.map_congr_left hbefore, List.map_singleton,
        List.getD_eq_getElem _ _ hj, List.length_map, Nat.zero_add, keep_singleton]
      -- What is left is the decision about the last row, under its new index.
      split
      · rw [List.map_singleton, hnew]
      · rfl

end Keep

/-! ## Matrices -/

variable {t : Tensor Double} {m n : ℕ} {tol : Datum} {τ : Tolerance}

/-- Projection decides about each row as it comes. When rows that it has passed over are deleted,
and all rows from some index on, it keeps of the remaining ones exactly those that it has kept
before, under their new indices. -/
theorem independentRows_online (ht : t.shape = [m, n]) (htol : Tolerance.ofDatum tol = .ok τ) :
    ∃ kept, independentRows t tol .row = .ok kept ∧
      ∀ (dropped : Finset ℕ) (count : ℕ), (∀ i ∈ dropped, i ∉ kept) → count ≤ m →
        independentRows (Equalities.rowsAt t n (survivors dropped count)) tol .row =
          .ok ((kept.filter (· < count)).map (survivors dropped count).idxOf) := by
  refine ⟨_, independentRows_row ht htol, fun dropped count hdropped hcount => ?_⟩
  have hshape : (Equalities.rowsAt t n (survivors dropped count)).shape =
      [(survivors dropped count).length, n] := rfl
  have hbounds : ∀ i ∈ survivors dropped count, i < m := fun i hi =>
    (mem_survivors.mp hi).1.trans_le hcount
  have hrows : count ≤ t.rows.length := (Tensor.length_rows ht).symm ▸ hcount
  rw [independentRows_row hshape htol, rows_rowsAt ht hbounds]
  refine congrArg Except.ok ?_
  rw [independentByProjection, byProjection, keep_survivors hdropped hrows,
    keep_take [] t.rows hrows]
  rfl

/-- The second of these rows depends on the first one, and the last one comes too late. -/
theorem independentRows_online_doubledRow :
    ∃ t : Tensor Double, t.shape = [4, 2] ∧
      Tolerance.ofDatum (.scalar (.real (.twoPowNeg .double 26))) = .ok .standard ∧
      independentRows t (.scalar (.real (.twoPowNeg .double 26))) .row = .ok [0, 2] ∧
      independentRows (Equalities.rowsAt t 2 [0, 2])
        (.scalar (.real (.twoPowNeg .double 26))) .row = .ok [0, 1] := by
  let t : Tensor Double := ⟨[4, 2], [1, 1, 2, 2, 1, 0, 0, 5].map (Binary.ofInt .double), rfl⟩
  obtain ⟨kept, hkept, honline⟩ := independentRows_online (t := t) (m := 4) (n := 2) rfl
    Tolerance.ofDatum_default
  have hrows : independentRows t (.scalar (.real (.twoPowNeg .double 26))) .row = .ok [0, 2] := by
    rw [independentRows_row (t := t) (m := 4) (n := 2) rfl Tolerance.ofDatum_default]
    exact congrArg Except.ok (by decide +kernel)
  cases hkept.symm.trans hrows
  have hthinned := honline {1} 3 (by decide) (by decide)
  exact ⟨t, rfl, Tolerance.ofDatum_default, hrows, hthinned⟩

end StandardForm.Selection
