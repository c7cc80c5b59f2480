import StandardForm.Proofs.Binary.Value
import StandardForm.Proofs.Selection.Independent
import StandardForm.Proofs.Selection.Rational

/-!
# Eliminations that round nothing

A run of the elimination on floating-point numbers is exact if no operation on a row that is
visited rounds, overflows or underflows, and if every magnitude that is compared with the threshold
is zero or above it. Such a run goes through the same states as the run on the values of the
numbers does with nothing but zero negligible: the pivots come from the same positions, the columns
have the same values and the same rows are kept.
-/

namespace StandardForm.Selection

variable {f : FloatFormat}

open Binary (Represents)

abbrev Represented (xs : List (Binary f)) (qs : List ℚ) : Prop := List.Forall₂ Represents xs qs

/-! ## Exact runs -/

/-- A step that rounds nothing when it is applied to a column. -/
structure PivotStep.ExactOn (s : PivotStep (Binary f)) (xs : List (Binary f)) : Prop where
  quotient : (s.quotient xs).Represents
    (((exchange s.target s.source xs).getD s.target 0).value / (s.column.getD s.target 0).value)
  product : ∀ k < xs.length, k ≠ s.target → (s.column.getD k 0 * s.quotient xs).Represents
    ((s.column.getD k 0).value * (s.quotient xs).value)
  difference : ∀ k < xs.length, k ≠ s.target →
    ((exchange s.target s.source xs).getD k 0 - s.column.getD k 0 * s.quotient xs).Represents
      (((exchange s.target s.source xs).getD k 0).value -
        (s.column.getD k 0 * s.quotient xs).value)

/-- Steps that round nothing when a column is brought through them. -/
def ExactReduction : List (PivotStep (Binary f)) → List (Binary f) → Prop
  | [], _ => True
  | s :: steps, xs => s.ExactOn xs ∧ ExactReduction steps (s.apply xs)

instance (s : PivotStep (Binary f)) (xs : List (Binary f)) : Decidable (s.ExactOn xs) :=
  decidable_of_iff (_ ∧ _ ∧ _) ⟨fun ⟨h, h', h''⟩ => ⟨h, h', h''⟩, fun ⟨h, h', h''⟩ => ⟨h, h', h''⟩⟩

instance decidableExactReduction :
    (steps : List (PivotStep (Binary f))) → (xs : List (Binary f)) →
      Decidable (ExactReduction steps xs)
  | [], _ => .isTrue trivial
  | s :: steps, xs =>
    have := decidableExactReduction steps (s.apply xs)
    inferInstanceAs (Decidable (s.ExactOn xs ∧ ExactReduction steps (s.apply xs)))

/-- A run in which no operation rounds and nothing compared is negligible but zero. Rows that are
visited after the last position has its pivot take part in no operation. -/
structure ExactRun (negligible : Binary f → Bool) (rows : List (List (Binary f))) : Prop where
  reduction : ∀ j, ∀ h : j < rows.length, (stepsBefore negligible rows j).length < rows[j].length →
    ExactReduction (stepsBefore negligible rows j) rows[j]
  comparison : ∀ j, ∀ h : j < rows.length, (stepsBefore negligible rows j).length < rows[j].length →
    negligible (greatest (stepsBefore negligible rows j).length
      (reduce (stepsBefore negligible rows j) rows[j])).2 = true →
    (greatest (stepsBefore negligible rows j).length
      (reduce (stepsBefore negligible rows j) rows[j])).2.isZero = true

instance (negligible : Binary f → Bool) (rows : List (List (Binary f))) :
    Decidable (ExactRun negligible rows) :=
  decidable_of_iff (_ ∧ _) ⟨fun ⟨h, h'⟩ => ⟨h, h'⟩, fun ⟨h, h'⟩ => ⟨h, h'⟩⟩

/-! ## Entries -/

theorem Represented.getD {xs : List (Binary f)} {qs : List ℚ} (h : Represented xs qs) (k : ℕ) :
    (xs.getD k 0).Represents (qs.getD k 0) := by
  induction h generalizing k with
  | nil => exact .zero
  | cons hx _ ih =>
    cases k with
    | zero => exact hx
    | succ k => exact ih k

theorem Represented.of_getD {xs : List (Binary f)} {qs : List ℚ} (hlength : xs.length = qs.length)
    (h : ∀ k < xs.length, (xs.getD k 0).Represents (qs.getD k 0)) : Represented xs qs := by
  refine List.forall₂_iff_get.mpr ⟨hlength, fun k hk hk' => ?_⟩
  have := h k hk
  simpa [List.getD_eq_getElem?_getD, hk, hk'] using this

theorem Represented.exchange {xs : List (Binary f)} {qs : List ℚ} (h : Represented xs qs)
    {i j : ℕ} (hi : i < xs.length) (hj : j < xs.length) :
    Represented (exchange i j xs) (exchange i j qs) := by
  have hlength := h.length_eq
  refine .of_getD (by simp [hlength]) fun k _ => ?_
  rw [getD_exchange hi hj, getD_exchange (hlength ▸ hi) (hlength ▸ hj)]
  exact h.getD _

/-- The same step on numbers and on their values. -/
structure PivotStep.Represented (s : PivotStep (Binary f)) (q : PivotStep ℚ) : Prop where
  target_eq : s.target = q.target
  source_eq : s.source = q.source
  column : Selection.Represented s.column q.column

/-- A step that rounds nothing does to the values what it does to the numbers. -/
theorem Represented.apply {s : PivotStep (Binary f)} {q : PivotStep ℚ} {xs : List (Binary f)}
    {qs : List ℚ} (h : Represented xs qs) (hs : s.Represented q) (hfits : s.Fits xs.length)
    (hexact : s.ExactOn xs) : Represented (s.apply xs) (q.apply qs) := by
  have hlength := h.length_eq
  have hfits' : q.Fits qs.length :=
    ⟨hs.target_eq ▸ hlength ▸ hfits.target_lt, hs.source_eq ▸ hlength ▸ hfits.source_lt,
      hs.column.length_eq ▸ hlength ▸ hfits.length_column⟩
  have hexchange := h.exchange hfits.target_lt hfits.source_lt
  have hquotient : (s.quotient xs).Represents (q.quotient qs) := by
    have hentry := (hexchange.getD s.target).2
    have hpivot := (hs.column.getD s.target).2
    refine ⟨hexact.quotient.1, ?_⟩
    rw [hexact.quotient.2, hentry, hpivot, PivotStep.quotient, hs.target_eq, hs.source_eq]
  refine .of_getD ?_ fun k hk => ?_
  · rw [PivotStep.length_apply hfits, PivotStep.length_apply hfits', hlength]
  · rw [PivotStep.length_apply hfits] at hk
    by_cases htarget : k = s.target
    · rw [htarget, PivotStep.getD_apply_target hfits, hs.target_eq,
        PivotStep.getD_apply_target hfits']
      exact hquotient
    · rw [PivotStep.getD_apply_of_ne hfits hk htarget,
        PivotStep.getD_apply_of_ne hfits' (hlength ▸ hk) (hs.target_eq ▸ htarget)]
      refine ⟨(hexact.difference k hk htarget).1, ?_⟩
      rw [(hexact.difference k hk htarget).2, (hexact.product k hk htarget).2, hquotient.2,
        (hexchange.getD k).2, (hs.column.getD k).2, hs.target_eq, hs.source_eq]

theorem Represented.reduce {steps : List (PivotStep (Binary f))} {exact : List (PivotStep ℚ)}
    (hsteps : List.Forall₂ PivotStep.Represented steps exact) {xs : List (Binary f)} {qs : List ℚ}
    (h : Represented xs qs) (hfits : ∀ s ∈ steps, s.Fits xs.length)
    (hexact : ExactReduction steps xs) : Represented (reduce steps xs) (reduce exact qs) := by
  induction hsteps generalizing xs qs with
  | nil => exact h
  | cons hs _ ih =>
    rw [List.forall_mem_cons] at hfits
    have hlength := PivotStep.length_apply hfits.1
    exact ih (h.apply hs hfits.1 hexact.1) (fun t ht => hlength.symm ▸ hfits.2 t ht) hexact.2

/-! ## Pivots -/

/-- The pivot comes from the same position in numbers and in their values. -/
theorem Represented.greatest {xs : List (Binary f)} {qs : List ℚ} (h : Represented xs qs)
    (start : ℕ) : (greatest start xs).1 = (greatest start qs).1 ∧
      (greatest start xs).2.Represents (greatest start qs).2 :=
  greatest_rel (fun _ _ _ _ => Represents.le_iff) .zero (fun _ _ => Represents.abs)
    (List.forall₂_drop start h)

/-! ## Runs -/

/-- The same steps, for columns of `n` entries, on numbers and on their values. -/
structure Simulates (n : ℕ) (steps : List (PivotStep (Binary f))) (exact : List (PivotStep ℚ)) :
    Prop where
  represented : List.Forall₂ PivotStep.Represented steps exact
  fits : ∀ s ∈ steps, s.Fits n

section Step

variable {n : ℕ} {negligible : Binary f → Bool} {steps : List (PivotStep (Binary f))}
  {exact : List (PivotStep ℚ)} {row : List (Binary f)} {qs : List ℚ}

/-- A row that is visited is kept in both runs, and adds the same step, or in none. -/
theorem Simulates.pivotStep (h : Simulates n steps exact)
    (hzero : ∀ x : Binary f, x.isZero = true → negligible x = true)
    (hrow : Represented row qs) (hlength : row.length = n)
    (hreduction : steps.length < row.length → ExactReduction steps row)
    (hcomparison : steps.length < row.length →
      negligible (greatest steps.length (Selection.reduce steps row)).2 = true →
        (greatest steps.length (Selection.reduce steps row)).2.isZero = true) :
    Option.Rel (Simulates n) (Selection.pivotStep negligible steps row)
      (Selection.pivotStep onlyZero exact qs) := by
  subst hlength
  have hcount := h.represented.length_eq
  by_cases hlt : steps.length < row.length
  · have hcolumn := hrow.reduce h.represented h.fits (hreduction hlt)
    have hreduced := length_reduce h.fits
    obtain ⟨hsource, hsize⟩ := hcolumn.greatest steps.length
    rw [hcount] at hsource hsize
    have hnegligible : negligible (greatest steps.length (Selection.reduce steps row)).2 = true ↔
        onlyZero (greatest exact.length (Selection.reduce exact qs)).2 = true := by
      have hbound : exact.length < (Selection.reduce exact qs).length := by
        rw [← hcolumn.length_eq, hreduced, ← hcount]
        exact hlt
      rw [onlyZero_greatest_eq_zero_iff hbound, ← hsize.isZero_iff, ← hcount]
      exact ⟨hcomparison hlt, hzero _⟩
    cases hstep : Selection.pivotStep onlyZero exact qs with
    | none =>
      have hnone : Selection.pivotStep negligible steps row = none :=
        pivotStep_eq_none_iff.mpr fun _ => hnegligible.mpr
          (pivotStep_eq_none_iff.mp hstep (hcount ▸ hrow.length_eq ▸ hlt))
      rw [hnone]
      exact .none
    | some exact' =>
      obtain ⟨-, hkept, rfl⟩ := pivotStep_eq_some_iff.mp hstep
      have hsome := pivotStep_eq_some_iff.mpr ⟨hlt, Bool.eq_false_iff.mpr
        fun hn => Bool.eq_false_iff.mp hkept (hnegligible.mp hn), rfl⟩
      rw [hsome]
      have hstart : steps.length < (Selection.reduce steps row).length := hreduced.symm ▸ hlt
      obtain ⟨-, hsourcelt, -⟩ := greatest_spec hstart
      refine .some ⟨List.rel_append h.represented (.cons ⟨hcount, ?_, ?_⟩ .nil),
        fits_of_pivotStep h.fits hsome⟩
      · rw [hcount]
        exact hsource
      · rw [hcount, ← hsource]
        exact hcolumn.exchange (hcount ▸ hstart) (hcount ▸ hsourcelt)
  · have hnone : Selection.pivotStep negligible steps row = none :=
      pivotStep_eq_none_iff.mpr fun h => absurd h hlt
    have hnone' : Selection.pivotStep onlyZero exact qs = none :=
      pivotStep_eq_none_iff.mpr fun h => absurd (hcount.symm ▸ hrow.length_eq.symm ▸ h) hlt
    rw [hnone, hnone']
    exact .none

end Step

namespace ExactRun

variable {n : ℕ} {negligible : Binary f → Bool} {rows : List (List (Binary f))}
  {exact : List (List ℚ)}

/-- An exact run decides about a row as the run on the values does, once the states agree. -/
theorem rel_pivotStep (h : ExactRun negligible rows)
    (hzero : ∀ x : Binary f, x.isZero = true → negligible x = true)
    (hrows : List.Forall₂ Represented rows exact) (hlength : ∀ row ∈ rows, row.length = n) {j : ℕ}
    (hj : j < rows.length) (hj' : j < exact.length)
    (hbefore : Simulates n (stepsBefore negligible rows j) (stepsBefore onlyZero exact j)) :
    Option.Rel (Simulates n) (pivotStep negligible (stepsBefore negligible rows j) rows[j])
      (pivotStep onlyZero (stepsBefore onlyZero exact j) exact[j]) :=
  hbefore.pivotStep hzero ((List.forall₂_iff_get.mp hrows).2 j hj hj')
    (hlength _ (List.getElem_mem hj)) (h.reduction j hj) (h.comparison j hj)

/-- Both runs keep the same rows. -/
theorem byElimination_eq (h : ExactRun negligible rows)
    (hzero : ∀ x : Binary f, x.isZero = true → negligible x = true)
    (hrows : List.Forall₂ Represented rows exact) (hlength : ∀ row ∈ rows, row.length = n) :
    byElimination negligible rows = byElimination onlyZero exact :=
  keep_eq_of_rel (R := Simulates n) 0 hrows.length_eq ⟨.nil, by simp⟩ fun _ hj hj' hbefore =>
    h.rel_pivotStep hzero hrows hlength hj hj' hbefore

end ExactRun

/-! ## Matrices of floating-point numbers -/

def matrixOf (m n : ℕ) (rows : List (List (Binary f))) : Matrix (Fin m) (Fin n) ℚ :=
  fun i j => ((rows.getD i []).getD j 0).value

theorem represented_rowsOf {m n : ℕ} {rows : List (List (Binary f))} (hm : rows.length = m)
    (hn : ∀ row ∈ rows, row.length = n) (hfinite : ∀ row ∈ rows, ∀ x ∈ row, x.isFinite = true) :
    List.Forall₂ Represented rows (rowsOf (matrixOf m n rows)) := by
  subst hm
  refine List.forall₂_iff_get.mpr ⟨by simp [rowsOf], fun i hi hi' => ?_⟩
  have hrow : rows[i].length = n := hn _ (List.getElem_mem hi)
  refine .of_getD (by simp [rowsOf, hrow]) fun k hk => ?_
  have hk : k < rows[i].length := hk
  have hentry : rows[i].getD k 0 = rows[i][k] := by
    simp [List.getD_eq_getElem?_getD, hk]
  refine ⟨?_, ?_⟩
  · exact hentry ▸ hfinite _ (List.getElem_mem hi) _ (List.getElem_mem hk)
  · simp [rowsOf, matrixOf, List.getD_eq_getElem?_getD, hi, hrow ▸ hk]

/-- An exact run on floating-point numbers selects a basis of the rows of exact values. -/
theorem ExactRun.selectsRowBasis {m n : ℕ} {negligible : Binary f → Bool}
    {rows : List (List (Binary f))} (h : ExactRun negligible rows)
    (hzero : ∀ x : Binary f, x.isZero = true → negligible x = true) (hm : rows.length = m)
    (hn : ∀ row ∈ rows, row.length = n) (hfinite : ∀ row ∈ rows, ∀ x ∈ row, x.isFinite = true) :
    SelectsRowBasis (matrixOf m n rows) (byElimination negligible rows) := by
  rw [h.byElimination_eq hzero (represented_rowsOf hm hn hfinite) hn]
  exact selectsRowBasis_byElimination _

/-- Elimination selects a basis of the rows: over the rational numbers for every matrix, and over
64-bit numbers with the default tolerance in every run that is exact. -/
theorem independentRows_selectsRowBasis {m n : ℕ} :
    (∀ A : Matrix (Fin m) (Fin n) ℚ,
      SelectsRowBasis A (byElimination onlyZero (rowsOf A))) ∧
    ∀ t : Tensor Double, t.shape = [m, n] → (∀ x ∈ t.entries, x.isFinite = true) →
      ExactRun (Tolerance.standard.timesReal (largestMagnitude t.rows)).covers t.rows →
      ∃ kept, independentRows t (.scalar (.real (.twoPowNeg .double 26))) .column = .ok kept ∧
        SelectsRowBasis (matrixOf m n t.rows) kept := by
  refine ⟨selectsRowBasis_byElimination, fun t ht hfinite hexact => ?_⟩
  have hrows : ∀ row ∈ t.rows, ∀ x ∈ row, x.isFinite = true := fun row hrow x hx =>
    hfinite x (Tensor.mem_entries_of_mem_rows ht hrow hx)
  refine ⟨_, independentRows_column ht Tolerance.ofDatum_default, ?_⟩
  exact hexact.selectsRowBasis (fun x hx => covers_of_isZero hrows hx) (Tensor.length_rows ht)
    (fun row hrow => Tensor.length_of_mem_rows ht hrow) hrows

/-- Four rows of two numbers: the second is twice the first, and the last one is visited when
there is no position left. -/
def fourRows : Tensor Double :=
  ⟨[4, 2], [1, 2, 2, 4, 0, 3, 1, 1].map (Binary.ofInt .double), rfl⟩

theorem independentRows_fourRows :
    independentRows fourRows (.scalar (.real (.twoPowNeg .double 26))) .column = .ok [0, 2] ∧
      SelectsRowBasis (matrixOf 4 2 fourRows.rows) [0, 2] := by
  obtain ⟨kept, hkept, hbasis⟩ :=
    independentRows_selectsRowBasis.2 fourRows rfl (by decide +kernel) (by decide +kernel)
  have heval : (independentRows fourRows (.scalar (.real (.twoPowNeg .double 26)))
      .column).toOption = some [0, 2] := by decide +kernel
  rw [hkept] at heval
  obtain rfl : kept = [0, 2] := Option.some.inj heval
  exact ⟨hkept, hbasis⟩

end StandardForm.Selection
