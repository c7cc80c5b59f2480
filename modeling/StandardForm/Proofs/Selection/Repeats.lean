import StandardForm.Proofs.Binary.Order
import StandardForm.Proofs.Binary.Rounding
import StandardForm.Proofs.Selection.Independent

/-!
# Rows that occur twice in an elimination

When a row has been kept, its own pivot step leaves zeros below the pivot, exactly, as a number
divided by itself is one. Later steps subtract multiples of these zeros and leave zeros again. So a
second copy of the row finds no pivot, as long as every pivot is finite: an infinite pivot divided
by itself is not a number, and what is not a number is never negligible.
-/

namespace StandardForm.Selection

instance {f : FloatFormat} : OrderedPivots (Binary f) where
  le_trans {a b c} hab hbc := by
    change a.le b = true at hab
    change b.le c = true at hbc
    change a.le c = true
    cases a with
    | nan => cases hab
    | num s r =>
      cases b with
      | nan => cases hab
      | num t q =>
        cases c with
        | nan => cases hbc
        | num u p =>
          simp only [Binary.le, decide_eq_true_eq] at hab hbc ⊢
          omega
  le_self_of_le h :=
    ⟨Binary.le_refl (Binary.isNaN_of_le h).1, Binary.le_refl (Binary.isNaN_of_le h).2⟩
  le_of_not_le {a b} ha hb h := by
    change ¬ b.le a = true at h
    change a.le b = true
    cases a with
    | nan => cases ha
    | num s r =>
      cases b with
      | nan => cases hb
      | num t q =>
        simp only [Binary.le, decide_eq_true_eq] at h ⊢
        omega

variable {f : FloatFormat}

/-- No entry exceeds the greatest magnitude of a matrix, if that is a number. -/
theorem abs_le_largestMagnitude {rows : List (List (Binary f))}
    (h : (largestMagnitude rows).isNaN = false) {row : List (Binary f)} (hrow : row ∈ rows)
    {x : Binary f} (hx : x ∈ row) : x.abs ≤ largestMagnitude rows := by
  obtain ⟨k, hk, hentry⟩ := List.mem_iff_getElem.mp (List.mem_flatten.mpr ⟨row, hrow, hx⟩)
  have hle := magnitude_le_greatest (Binary.le_refl h) (Nat.zero_le k) hk
  rwa [List.getD_eq_getElem _ _ hk, hentry] at hle

def ClearedFrom (r : ℕ) (xs : List (Binary f)) : Prop := ∀ k, r ≤ k → (xs.getD k 0).isZero = true

namespace PivotStep

def pivot (s : PivotStep (Binary f)) : Binary f := s.column.getD s.target 0

/-- A step whose pivot is finite, not zero, and the greatest of the entries below it. -/
structure Sound (s : PivotStep (Binary f)) : Prop where
  target_le : s.target ≤ s.source
  pivot_finite : s.pivot.isFinite = true
  pivot_ne_zero : s.pivot.isZero = false
  abs_le : ∀ k, s.target ≤ k → (s.column.getD k 0).abs ≤ s.pivot.abs

theorem isFinite_of_abs_le_abs {x y : Binary f} (hy : y.isFinite = true) (h : x.abs ≤ y.abs) :
    x.isFinite = true := by
  change x.abs.le y.abs = true at h
  cases x with
  | nan => cases h
  | num s r =>
    cases y with
    | nan => cases hy
    | num t q =>
      have hq : q.val ≠ f.top := bne_iff_ne.mp hy
      have hle : r.val ≤ q.val := by
        simpa [Binary.abs, Binary.le, Binary.position] using h
      exact bne_iff_ne.mpr (by omega)

variable {s : PivotStep (Binary f)} {xs : List (Binary f)}

theorem Sound.finite (hs : s.Sound) {k : ℕ} (hk : s.target ≤ k) :
    (s.column.getD k 0).isFinite = true :=
  isFinite_of_abs_le_abs hs.pivot_finite (hs.abs_le k hk)

theorem getD_of_length_le {k : ℕ} (h : xs.length ≤ k) : xs.getD k 0 = 0 := by
  rw [List.getD_eq_getElem?_getD, List.getElem?_eq_none h, Option.getD_none]

/-- A step leaves zeros below its target in the column that it was made for. -/
theorem clearedFrom_self (hs : s.Sound) (hfits : s.Fits xs.length)
    (h : exchange s.target s.source xs = s.column) : ClearedFrom (s.target + 1) (s.apply xs) := by
  intro k hk
  by_cases hlt : k < xs.length
  · have hentry := hs.finite (k := k) (by omega)
    have hquotient : s.quotient xs = Binary.ofInt f 1 := by
      rw [quotient, h]
      exact Binary.div_self hs.pivot_finite hs.pivot_ne_zero
    rw [getD_apply_of_ne hfits hlt (by omega), h, hquotient, Binary.mul_one hentry]
    exact Binary.isZero_sub_self hentry
  · rw [getD_of_length_le (by rw [length_apply hfits]; omega)]
    rfl

/-- A step leaves a column zero below its target that is zero from the target on. -/
theorem clearedFrom_apply (hs : s.Sound) (hfits : s.Fits xs.length)
    (h : ClearedFrom s.target xs) : ClearedFrom (s.target + 1) (s.apply xs) := by
  have hexchange (k : ℕ) (hk : s.target ≤ k) :
      ((exchange s.target s.source xs).getD k 0).isZero = true := by
    rw [getD_exchange hfits.target_lt hfits.source_lt]
    exact h _ (le_swap hs.target_le hk)
  intro k hk
  by_cases hlt : k < xs.length
  · have hquotient : (s.quotient xs).isZero = true :=
      Binary.isZero_div (hexchange _ (Nat.le_refl _)) hs.pivot_finite hs.pivot_ne_zero
    rw [getD_apply_of_ne hfits hlt (by omega)]
    exact Binary.isZero_sub (hexchange k (by omega))
      (Binary.isZero_mul (hs.finite (by omega)) hquotient)
  · rw [getD_of_length_le (by rw [length_apply hfits]; omega)]
    rfl

end PivotStep

/-! ## Second copies -/

section Copies

variable {negligible : Binary f → Bool} {steps steps' : List (PivotStep (Binary f))}
  {row : List (Binary f)}

theorem zero_abs_le {x : Binary f} (hx : x.isFinite = true) : (0 : Binary f).abs ≤ x.abs := by
  cases x with
  | nan => cases hx
  | num s r =>
    change decide (Binary.position false 0 ≤ Binary.position false r.val) = true
    simp [Binary.position]

/-- The step that is made when a row is kept. -/
structure MadeFor (negligible : Binary f → Bool) (steps : List (PivotStep (Binary f)))
    (row : List (Binary f)) (s : PivotStep (Binary f)) : Prop where
  target_eq : s.target = steps.length
  source_eq : s.source = (greatest steps.length (reduce steps row)).1
  column_eq : exchange s.target s.source (reduce steps row) = s.column
  target_lt : steps.length < (reduce steps row).length
  exceeds : negligible (greatest steps.length (reduce steps row)).2 = false

theorem exists_madeFor (hfits : ∀ s ∈ steps, s.Fits row.length)
    (h : pivotStep negligible steps row = some steps') :
    ∃ s, steps' = steps ++ [s] ∧ MadeFor negligible steps row s := by
  obtain ⟨hlt, hsize, rfl⟩ := pivotStep_eq_some_iff.mp h
  exact ⟨_, rfl, rfl, rfl, rfl, (length_reduce hfits).symm ▸ hlt, hsize⟩

namespace MadeFor

variable {s : PivotStep (Binary f)}

theorem target_le (h : MadeFor negligible steps row s) : steps.length ≤ s.source :=
  h.source_eq ▸ (greatest_spec h.target_lt).1

theorem getD_column (h : MadeFor negligible steps row s) (k : ℕ) :
    s.column.getD k 0 = (reduce steps row).getD (Equiv.swap s.target s.source k) 0 := by
  have hsource : s.source < (reduce steps row).length :=
    h.source_eq ▸ (greatest_spec h.target_lt).2.1
  rw [← h.column_eq, getD_exchange (h.target_eq ▸ h.target_lt) hsource]

/-- The pivot is one of the entries that it is searched among. -/
theorem pivot_eq (h : MadeFor negligible steps row s) :
    s.pivot = (reduce steps row).getD s.source 0 := by
  rw [PivotStep.pivot, h.getD_column, Equiv.swap_apply_left]

theorem magnitude_eq (h : MadeFor negligible steps row s) :
    (greatest steps.length (reduce steps row)).2 = s.pivot.abs := by
  rw [h.pivot_eq, h.source_eq]
  exact (greatest_spec h.target_lt).2.2

theorem exceeds_pivot (h : MadeFor negligible steps row s) : negligible s.pivot.abs = false :=
  h.magnitude_eq ▸ h.exceeds

/-- With a finite pivot the step is sound. -/
theorem sound (h : MadeFor negligible steps row s)
    (hzero : ∀ x : Binary f, x.isZero = true → negligible x = true)
    (hfinite : s.pivot.isFinite = true) : s.Sound := by
  refine ⟨h.target_eq ▸ h.target_le, hfinite, ?_, fun k hk => ?_⟩
  · refine Bool.eq_false_iff.mpr fun hz => Bool.eq_false_iff.mp h.exceeds_pivot (hzero _ ?_)
    exact (Binary.isZero_abs _).trans hz
  · have hself : s.pivot.abs ≤ s.pivot.abs :=
      Binary.le_refl (Binary.isNaN_of_isFinite ((Binary.isFinite_abs _).trans hfinite))
    have hle : s.target ≤ Equiv.swap s.target s.source k := le_swap (h.target_eq ▸ h.target_le) hk
    rw [h.getD_column]
    by_cases hbound : Equiv.swap s.target s.source k < (reduce steps row).length
    · rw [← h.magnitude_eq] at hself ⊢
      exact magnitude_le_greatest hself (h.target_eq ▸ hle) hbound
    · rw [PivotStep.getD_of_length_le (Nat.le_of_not_lt hbound)]
      exact zero_abs_le hfinite

end MadeFor

/-- A step that was made for a row, with a finite pivot, is sound. -/
theorem exists_sound_of_pivotStep (hzero : ∀ x : Binary f, x.isZero = true → negligible x = true)
    (hfits : ∀ s ∈ steps, s.Fits row.length) (h : pivotStep negligible steps row = some steps')
    (hpivot : ∀ s ∈ steps', s.pivot.isFinite = true) :
    ∃ s, steps' = steps ++ [s] ∧ s.target = steps.length ∧ s.Sound ∧
      exchange s.target s.source (reduce steps row) = s.column := by
  obtain ⟨s, rfl, hs⟩ := exists_madeFor hfits h
  have hfinite := hpivot s (List.mem_append_right steps (List.mem_singleton_self s))
  exact ⟨s, rfl, hs.target_eq, hs.sound hzero hfinite, hs.column_eq⟩

/-- A row that has been kept has nothing but zeros left where pivots are searched. -/
theorem clearedFrom_of_kept (hzero : ∀ x : Binary f, x.isZero = true → negligible x = true)
    (hfits : ∀ s ∈ steps, s.Fits row.length) (h : pivotStep negligible steps row = some steps')
    (hpivot : ∀ s ∈ steps', s.pivot.isFinite = true) :
    ClearedFrom steps'.length (reduce steps' row) := by
  obtain ⟨s, rfl, htarget, hsound, hcolumn⟩ := exists_sound_of_pivotStep hzero hfits h hpivot
  have hlength := length_reduce hfits
  have hs : s.Fits (reduce steps row).length :=
    hlength.symm ▸ fits_of_pivotStep hfits h s (List.mem_append_right _ (List.mem_singleton_self s))
  rw [reduce_concat, List.length_append, List.length_singleton, ← htarget]
  exact PivotStep.clearedFrom_self hsound hs hcolumn

/-- Steps made for other rows leave it so. -/
theorem clearedFrom_of_cleared (hzero : ∀ x : Binary f, x.isZero = true → negligible x = true)
    (hfits : ∀ s ∈ steps, s.Fits row.length) {other : List (Binary f)}
    (hother : other.length = row.length) (h : pivotStep negligible steps other = some steps')
    (hpivot : ∀ s ∈ steps', s.pivot.isFinite = true)
    (hcleared : ClearedFrom steps.length (reduce steps row)) :
    ClearedFrom steps'.length (reduce steps' row) := by
  have hfits' : ∀ s ∈ steps, s.Fits other.length := hother.symm ▸ hfits
  obtain ⟨s, rfl, htarget, hsound, -⟩ := exists_sound_of_pivotStep hzero hfits' h hpivot
  have hlength := length_reduce hfits
  have hs : s.Fits (reduce steps row).length :=
    hlength.symm ▸ hother ▸
      fits_of_pivotStep hfits' h s (List.mem_append_right _ (List.mem_singleton_self s))
  rw [reduce_concat, List.length_append, List.length_singleton, ← htarget]
  rw [← htarget] at hcleared
  exact PivotStep.clearedFrom_apply hsound hs hcleared

theorem pivotStep_eq_none_of_cleared
    (hzero : ∀ x : Binary f, x.isZero = true → negligible x = true)
    (hfits : ∀ s ∈ steps, s.Fits row.length)
    (h : ClearedFrom steps.length (reduce steps row)) : pivotStep negligible steps row = none := by
  refine pivotStep_eq_none_iff.mpr fun hlt => hzero _ ?_
  obtain ⟨hge, -, hsize⟩ := greatest_spec (length_reduce hfits ▸ hlt)
  rw [hsize]
  exact (Binary.isZero_abs _).trans (h _ hge)

end Copies

section Run

variable {n : ℕ} {negligible : Binary f → Bool} {rows : List (List (Binary f))}

/-- As long as the pivots are finite, what is cleared where pivots are searched stays so. -/
theorem clearedFrom_stepsBefore (hzero : ∀ x : Binary f, x.isZero = true → negligible x = true)
    (hrows : ∀ row ∈ rows, row.length = n) {row : List (Binary f)} (hrow : row.length = n) {k j : ℕ}
    (hkj : k ≤ j) (hj : j ≤ rows.length)
    (hpivot : ∀ j ≤ rows.length, ∀ s ∈ stepsBefore negligible rows j, s.pivot.isFinite = true)
    (h : ClearedFrom (stepsBefore negligible rows k).length
      (reduce (stepsBefore negligible rows k) row)) :
    ClearedFrom (stepsBefore negligible rows j).length
      (reduce (stepsBefore negligible rows j) row) := by
  induction j, hkj using Nat.le_induction with
  | base => exact h
  | succ j hkj ih =>
    have hlt : j < rows.length := hj
    have hbefore := ih hlt.le
    have hfinite := hpivot (j + 1) hlt
    rw [stepsBefore_succ hlt] at hfinite ⊢
    cases hstep : pivotStep negligible (stepsBefore negligible rows j) rows[j] with
    | none => exact hbefore
    | some steps' =>
      rw [hstep] at hfinite
      refine clearedFrom_of_cleared hzero (hrow ▸ fits_stepsBefore hrows hlt.le) ?_ hstep hfinite
        hbefore
      rw [hrow, hrows _ (List.getElem_mem hlt)]

/-- As long as the pivots are finite, no row is kept twice. -/
theorem getElem_ne_of_mem_byElimination
    (hzero : ∀ x : Binary f, x.isZero = true → negligible x = true)
    (hrows : ∀ row ∈ rows, row.length = n)
    (hpivot : ∀ j ≤ rows.length, ∀ s ∈ stepsBefore negligible rows j, s.pivot.isFinite = true)
    {i j : ℕ} (hi : i ∈ byElimination negligible rows) (hj : j ∈ byElimination negligible rows)
    (hij : i < j) : rows[i]? ≠ rows[j]? := by
  refine getElem?_ne_of_mem_keep hi hj fun hilt hjlt steps' hsteps heq => ?_
  have hlength : rows[j].length = n := hrows _ (List.getElem_mem hjlt)
  have hfits (k : ℕ) (hk : k ≤ rows.length) :
      ∀ s ∈ stepsBefore negligible rows k, s.Fits rows[j].length :=
    hlength ▸ fits_stepsBefore hrows hk
  have hcleared : ClearedFrom (stepsBefore negligible rows (i + 1)).length
      (reduce (stepsBefore negligible rows (i + 1)) rows[j]) := by
    have hnext : stepsBefore negligible rows (i + 1) = steps' := by
      rw [stepsBefore_succ hilt]
      exact (congrArg (Option.getD · _) hsteps)
    rw [hnext, ← heq]
    refine clearedFrom_of_kept hzero ?_ hsteps (hnext ▸ hpivot _ hilt)
    exact heq ▸ hfits i hilt.le
  exact pivotStep_eq_none_of_cleared hzero (hfits j hjlt.le)
    (clearedFrom_stepsBefore hzero hrows hlength hij hjlt.le hpivot hcleared)

/-- As long as the pivots are finite, no row of zeros is kept. -/
theorem exists_nonzero_of_mem_byElimination
    (hzero : ∀ x : Binary f, x.isZero = true → negligible x = true)
    (hrows : ∀ row ∈ rows, row.length = n)
    (hpivot : ∀ j ≤ rows.length, ∀ s ∈ stepsBefore negligible rows j, s.pivot.isFinite = true)
    {i : ℕ} (hi : i ∈ byElimination negligible rows) {row : List (Binary f)}
    (hrow : rows[i]? = some row) : ∃ x ∈ row, x.isZero = false := by
  obtain ⟨hlt, hkept⟩ := mem_keep_iff.mp hi
  obtain rfl : rows[i] = row := Option.some.inj ((List.getElem?_eq_getElem hlt).symm.trans hrow)
  have hlength : rows[i].length = n := hrows _ (List.getElem_mem hlt)
  by_contra! hzeros
  have hstart : ClearedFrom 0 rows[i] := by
    intro k _
    by_cases hk : k < rows[i].length
    · rw [List.getD_eq_getElem _ _ hk]
      exact (Bool.not_eq_false _).mp (hzeros _ (List.getElem_mem hk))
    · rw [PivotStep.getD_of_length_le (Nat.le_of_not_lt hk)]
      rfl
  have hnone := pivotStep_eq_none_of_cleared hzero (hlength ▸ fits_stepsBefore hrows hlt.le)
    (clearedFrom_stepsBefore (k := 0) hzero hrows hlength (Nat.zero_le i) hlt.le hpivot hstart)
  rw [stepsBefore] at hnone
  rw [hnone] at hkept
  cases hkept

end Run

end StandardForm.Selection
