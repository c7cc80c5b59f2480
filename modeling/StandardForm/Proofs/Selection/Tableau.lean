import StandardForm.Proofs.Binary.Vanishing
import StandardForm.Proofs.Problem.Invariance
import StandardForm.Proofs.Problem.Thinning
import StandardForm.Proofs.Selection.Distinct

/-!
# The working matrix of an elimination

Elimination can also be carried out on a whole matrix at once: every step changes all columns, and a
column that has no pivot is cleared where pivots are searched. The columns are then exactly unit
vectors after their own step and stay so, although every operation rounds: a number divided by
itself is one, one keeps its value when a zero is subtracted, and multiples of zeros are zeros. All
this takes only finite numbers, so it holds on every run that meets no others.
-/

namespace StandardForm.Selection

/-- A working matrix, given by its columns, and the columns that have a pivot, in the order of its
rows. -/
structure Tableau (α : Type) where
  columns : List (List α)
  pivots : List ℕ

def clearFrom {α : Type} [Zero α] (start : ℕ) (xs : List α) : List α :=
  xs.take start ++ List.replicate (xs.length - start) 0

namespace Tableau

section Definitions

variable {α : Type} [Pivotal α] [DecidableLE α]

/-- What happens when column `j` is visited. Nothing more does once every row has a pivot. A column
without a pivot is cleared, and otherwise the step for it is made in all columns. -/
def turn (negligible : α → Bool) (T : Tableau α) (j : ℕ) : Tableau α :=
  let column := T.columns.getD j []
  let target := T.pivots.length
  if column.length ≤ target then T
  else
    let (source, size) := greatest target column
    if negligible size then { T with columns := T.columns.set j (clearFrom target column) }
    else
      let step : PivotStep α := ⟨target, source, exchange target source column⟩
      ⟨T.columns.map step.apply, T.pivots ++ [j]⟩

def after (negligible : α → Bool) (rows : List (List α)) (j : ℕ) : Tableau α :=
  (List.range j).foldl (turn negligible) ⟨rows, []⟩

end Definitions

/-! ## The same pivots -/

section Agreement

variable {α : Type} [Pivotal α] [DecidableLE α] {negligible : α → Bool} {rows : List (List α)}
  {n j : ℕ} {T : Tableau α}

theorem after_succ (negligible : α → Bool) (rows : List (List α)) (j : ℕ) :
    after negligible rows (j + 1) = turn negligible (after negligible rows j) j := by
  simp [after, List.range_succ]

/-- The tableau of the rows that are brought through all steps one at a time, before row `j`. The
columns that have been cleared are of no interest. -/
structure Follows (negligible : α → Bool) (rows : List (List α)) (j : ℕ) (T : Tableau α) : Prop where
  pivots_eq : T.pivots = keep (pivotStep negligible) 0 [] (rows.take j)
  length_columns : T.columns.length = rows.length
  column_eq : ∀ i row, rows[i]? = some row → j ≤ i ∨ i ∈ T.pivots →
    T.columns[i]? = some (reduce (stepsBefore negligible rows j) row)

namespace Follows

variable (h : Follows negligible rows j T)
include h

theorem length_pivots : T.pivots.length = (stepsBefore negligible rows j).length := by
  rw [h.pivots_eq, length_stepsBefore]

theorem lt_of_mem_pivots {i : ℕ} (hi : i ∈ T.pivots) : i < j := by
  rw [h.pivots_eq] at hi
  have hlt := (bounds_of_mem_keep hi).2
  rw [Nat.zero_add] at hlt
  exact hlt.trans_le (List.length_take_le _ _)

/-- The column that is visited next. -/
theorem getD_column (hj : j < rows.length) :
    T.columns.getD j [] = reduce (stepsBefore negligible rows j) rows[j] := by
  rw [List.getD_eq_getElem?_getD,
    h.column_eq j _ (List.getElem?_eq_getElem hj) (.inl (Nat.le_refl j)), Option.getD_some]

/-- A visit either finds no pivot and leaves the columns that have one, or makes in all columns the
step that is made for the row. -/
theorem turn_cases (hrows : ∀ row ∈ rows, row.length = n) (hj : j < rows.length) :
    (pivotStep negligible (stepsBefore negligible rows j) rows[j] = none ∧
      (turn negligible T j).pivots = T.pivots ∧
      (turn negligible T j).columns.length = T.columns.length ∧
      ∀ i ≠ j, (turn negligible T j).columns[i]? = T.columns[i]?) ∨
    ∃ s, pivotStep negligible (stepsBefore negligible rows j) rows[j] =
        some (stepsBefore negligible rows j ++ [s]) ∧
      turn negligible T j = ⟨T.columns.map s.apply, T.pivots ++ [j]⟩ := by
  have hfits : ∀ s ∈ stepsBefore negligible rows j, s.Fits rows[j].length :=
    hrows _ (List.getElem_mem hj) ▸ fits_stepsBefore hrows hj.le
  have hlength := length_reduce hfits
  simp only [turn, h.getD_column hj, h.length_pivots, hlength]
  split
  · next hle =>
    refine .inl ⟨pivotStep_eq_none_iff.mpr fun hlt => ?_, rfl, rfl, fun _ _ => rfl⟩
    omega
  · next hlt =>
    split
    · next hsmall =>
      refine .inl ⟨pivotStep_eq_none_iff.mpr fun _ => hsmall, rfl, List.length_set, fun i hi => ?_⟩
      exact List.getElem?_set_ne (Ne.symm hi)
    · next hlarge =>
      refine .inr ⟨_, pivotStep_eq_some_iff.mpr ⟨Nat.lt_of_not_le hlt, ?_, rfl⟩, rfl⟩
      exact (Bool.not_eq_true _).mp hlarge

theorem turn (hrows : ∀ row ∈ rows, row.length = n) (hj : j < rows.length) :
    Follows negligible rows (j + 1) (turn negligible T j) := by
  have hkeep : keep (pivotStep negligible) 0 [] (rows.take (j + 1)) = T.pivots ++
      if (pivotStep negligible (stepsBefore negligible rows j) rows[j]).isSome then [j] else [] := by
    rw [h.pivots_eq]
    exact keep_take_succ [] hj
  rcases h.turn_cases hrows hj with ⟨hnone, hpivots, hlength, hcolumns⟩ | ⟨s, hsome, hturn⟩
  · have hsteps : stepsBefore negligible rows (j + 1) = stepsBefore negligible rows j := by
      rw [stepsBefore_succ hj, hnone, Option.getD_none]
    rw [hnone, Option.isSome_none, if_neg Bool.false_ne_true, List.append_nil] at hkeep
    refine ⟨hpivots.trans hkeep.symm, hlength.trans h.length_columns, fun i row hrow hi => ?_⟩
    rw [hpivots] at hi
    have hne : i ≠ j := by
      rcases hi with hi | hi
      · omega
      · exact (h.lt_of_mem_pivots hi).ne
    rw [hcolumns i hne, hsteps]
    exact h.column_eq i row hrow (hi.imp_left Nat.le_of_succ_le)
  · have hsteps : stepsBefore negligible rows (j + 1) = stepsBefore negligible rows j ++ [s] := by
      rw [stepsBefore_succ hj, hsome, Option.getD_some]
    rw [hsome, Option.isSome_some, if_pos rfl] at hkeep
    rw [hturn]
    refine ⟨hkeep.symm, (List.length_map _).trans h.length_columns, fun i row hrow hi => ?_⟩
    have hbefore : j ≤ i ∨ i ∈ T.pivots := by
      rw [List.mem_append, List.mem_singleton] at hi
      rcases hi with hi | hi | rfl
      · exact .inl (Nat.le_of_succ_le hi)
      · exact .inr hi
      · exact .inl (Nat.le_refl _)
    rw [hsteps, reduce_concat, List.getElem?_map, h.column_eq i row hrow hbefore, Option.map_some]

end Follows

/-- Every tableau of a run follows the steps that rows are brought through one at a time. -/
theorem follows_after (hrows : ∀ row ∈ rows, row.length = n) (hj : j ≤ rows.length) :
    Follows negligible rows j (after negligible rows j) := by
  induction j with
  | zero => exact ⟨rfl, rfl, fun i row hrow _ => hrow⟩
  | succ j ih =>
    rw [after_succ]
    exact (ih (Nat.le_of_succ_le hj)).turn hrows hj

/-- The columns that have a pivot in the end are the rows that elimination keeps. -/
theorem pivots_after (hrows : ∀ row ∈ rows, row.length = n) :
    (after negligible rows rows.length).pivots = byElimination negligible rows := by
  rw [(follows_after hrows (Nat.le_refl _)).pivots_eq, List.take_length, byElimination]

end Agreement

end Tableau

/-! ## Unit vectors -/

variable {f : FloatFormat}

/-- One at position `k` and zeros of either sign elsewhere. -/
structure UnitVector (k : ℕ) (xs : List (Binary f)) : Prop where
  one : xs.getD k 0 = Binary.ofInt f 1
  zero : ∀ i ≠ k, (xs.getD i 0).isZero = true

namespace PivotStep

variable {s : PivotStep (Binary f)} {xs : List (Binary f)} {k : ℕ}

theorem isFinite_getD (h : ∀ x ∈ xs, x.isFinite = true) (i : ℕ) : (xs.getD i 0).isFinite = true := by
  by_cases hi : i < xs.length
  · rw [List.getD_eq_getElem _ _ hi]
    exact h _ (List.getElem_mem hi)
  · rw [getD_of_length_le (Nat.le_of_not_lt hi)]
    exact bne_iff_ne.mpr f.top_ne_zero.symm

/-- A step makes a unit vector of the column that it was made for. -/
theorem unitVector_self (hs : s.Sound) (hfits : s.Fits xs.length)
    (hfinite : ∀ i, (s.column.getD i 0).isFinite = true)
    (h : exchange s.target s.source xs = s.column) : UnitVector s.target (s.apply xs) := by
  have hquotient : s.quotient xs = Binary.ofInt f 1 := by
    rw [quotient, h]
    exact Binary.div_self hs.pivot_finite hs.pivot_ne_zero
  refine ⟨by rw [getD_apply_target hfits, hquotient], fun i hi => ?_⟩
  by_cases hlt : i < xs.length
  · rw [getD_apply_of_ne hfits hlt hi, h, hquotient, Binary.mul_one (hfinite i)]
    exact Binary.isZero_sub_self (hfinite i)
  · rw [getD_of_length_le (by rw [length_apply hfits]; omega)]
    rfl

/-- A step leaves the unit vectors of the rows above it. -/
theorem unitVector_apply (hs : s.Sound) (hfits : s.Fits xs.length)
    (hfinite : ∀ i, (s.column.getD i 0).isFinite = true) (hk : k < s.target)
    (h : UnitVector k xs) : UnitVector k (s.apply xs) := by
  have hexchange (i : ℕ) : (exchange s.target s.source xs).getD i 0 =
      xs.getD (Equiv.swap s.target s.source i) 0 :=
    getD_exchange hfits.target_lt hfits.source_lt i
  have hkeeps : Equiv.swap s.target s.source k = k := by
    have := hs.target_le
    exact Equiv.swap_apply_of_ne_of_ne (by omega) (by omega)
  have hzero (i : ℕ) (hi : i ≠ k) :
      ((exchange s.target s.source xs).getD i 0).isZero = true := by
    rw [hexchange]
    exact h.zero _ fun hswap => hi ((Equiv.swap _ _).injective (hswap.trans hkeeps.symm))
  have hquotient : (s.quotient xs).isZero = true :=
    Binary.isZero_div (hzero _ hk.ne') hs.pivot_finite hs.pivot_ne_zero
  have hproduct (i : ℕ) : (s.column.getD i 0 * s.quotient xs).isZero = true :=
    Binary.isZero_mul (hfinite i) hquotient
  have hlt : k < xs.length := hk.trans hfits.target_lt
  constructor
  · obtain ⟨hone, hnonzero⟩ : (Binary.ofInt f 1).isFinite = true ∧
        (Binary.ofInt f 1).isZero = false := by cases f <;> decide +kernel
    rw [getD_apply_of_ne hfits hlt hk.ne, hexchange, hkeeps, h.one]
    exact Binary.sub_of_isZero hone hnonzero (hproduct k)
  · intro i hi
    by_cases htarget : i = s.target
    · rw [htarget, getD_apply_target hfits]
      exact hquotient
    · by_cases hi' : i < xs.length
      · rw [getD_apply_of_ne hfits hi' htarget]
        exact Binary.isZero_sub (hzero i hi) (hproduct i)
      · rw [getD_of_length_le (by rw [length_apply hfits]; omega)]
        rfl

end PivotStep

/-! ## Runs on finite numbers -/

namespace Tableau

section Finite

variable {negligible : Binary f → Bool} {rows : List (List (Binary f))} {n j : ℕ}

def IsFinite (T : Tableau (Binary f)) : Prop :=
  ∀ column ∈ T.columns, ∀ x ∈ column, x.isFinite = true

instance (T : Tableau (Binary f)) : Decidable T.IsFinite :=
  inferInstanceAs (Decidable (∀ _ ∈ _, _))

/-- The columns with a pivot are unit vectors, each with its one in the row of its pivot. -/
def UnitColumns (n : ℕ) (T : Tableau (Binary f)) : Prop :=
  ∀ k p, T.pivots[k]? = some p →
    ∃ column, T.columns[p]? = some column ∧ column.length = n ∧ UnitVector k column

/-- The column for which a step is made consists of finite numbers. -/
theorem Follows.isFinite_column {T : Tableau (Binary f)} (h : Follows negligible rows j T)
    (hfinite : T.IsFinite) (hj : j < rows.length) :
    ∀ x ∈ reduce (stepsBefore negligible rows j) rows[j], x.isFinite = true :=
  hfinite _ (List.mem_of_getElem?
    (h.column_eq j _ (List.getElem?_eq_getElem hj) (.inl (Nat.le_refl j))))

/-- As long as the working matrix is finite, so are the pivots. -/
theorem isFinite_pivot (hrows : ∀ row ∈ rows, row.length = n)
    (hfinite : ∀ j ≤ rows.length, (after negligible rows j).IsFinite) (hj : j ≤ rows.length) :
    ∀ s ∈ stepsBefore negligible rows j, s.pivot.isFinite = true := by
  induction j with
  | zero => exact fun s hs => nomatch hs
  | succ j ih =>
    have hlt : j < rows.length := hj
    rw [stepsBefore_succ hlt]
    cases hstep : pivotStep negligible (stepsBefore negligible rows j) rows[j] with
    | none => exact ih hlt.le
    | some steps' =>
      obtain ⟨s, rfl, hs⟩ :=
        exists_madeFor (hrows _ (List.getElem_mem hlt) ▸ fits_stepsBefore hrows hlt.le) hstep
      rw [Option.getD_some, List.forall_mem_append, List.forall_mem_singleton]
      refine ⟨ih hlt.le, ?_⟩
      rw [hs.pivot_eq]
      exact PivotStep.isFinite_getD
        ((follows_after hrows hlt.le).isFinite_column (hfinite j hlt.le) hlt) _

/-- A step for a column leaves the unit vectors and makes one of the column. -/
theorem UnitColumns.step {T : Tableau (Binary f)} {s : PivotStep (Binary f)}
    {column : List (Binary f)} (hunit : T.UnitColumns n) (hs : s.Sound) (hfits : s.Fits n)
    (hfinite : ∀ i, (s.column.getD i 0).isFinite = true) (htarget : s.target = T.pivots.length)
    (hcolumn : T.columns[j]? = some column) (hlength : column.length = n)
    (hself : exchange s.target s.source column = s.column) :
    UnitColumns n ⟨T.columns.map s.apply, T.pivots ++ [j]⟩ := by
  intro k p (hp : (T.pivots ++ [j])[k]? = some p)
  rcases Nat.lt_or_ge k T.pivots.length with hk | hk
  · -- A column that has had its pivot before.
    rw [List.getElem?_append_left hk] at hp
    obtain ⟨before, hbefore, rfl, hvector⟩ := hunit k p hp
    refine ⟨s.apply before, ?_, PivotStep.length_apply hfits, ?_⟩
    · rw [List.getElem?_map, hbefore, Option.map_some]
    · exact PivotStep.unitVector_apply hs hfits hfinite (htarget ▸ hk) hvector
  · -- The column that the step was made for.
    obtain ⟨hindex, rfl⟩ : k - T.pivots.length = 0 ∧ j = p := by
      rw [List.getElem?_append_right hk, List.getElem?_singleton] at hp
      split at hp
      · next hindex => exact ⟨hindex, Option.some.inj hp⟩
      · cases hp
    obtain rfl : k = s.target := by omega
    subst hlength
    refine ⟨s.apply column, ?_, PivotStep.length_apply hfits, ?_⟩
    · rw [List.getElem?_map, hcolumn, Option.map_some]
    · exact PivotStep.unitVector_self hs hfits hfinite hself

/-- A visit leaves the unit vectors and makes one of the column that gets a pivot. -/
theorem Follows.unitColumns_turn {T : Tableau (Binary f)} (h : Follows negligible rows j T)
    (hzero : ∀ x : Binary f, x.isZero = true → negligible x = true)
    (hrows : ∀ row ∈ rows, row.length = n) (hj : j < rows.length) (hfinite : T.IsFinite)
    (hunit : T.UnitColumns n) : (Tableau.turn negligible T j).UnitColumns n := by
  rcases h.turn_cases hrows hj with ⟨-, hpivots, -, hcolumns⟩ | ⟨s, hsome, hturn⟩
  · intro k p hp
    rw [hpivots] at hp
    rw [hcolumns p (h.lt_of_mem_pivots (List.mem_of_getElem? hp)).ne]
    exact hunit k p hp
  · have hlength : rows[j].length = n := hrows _ (List.getElem_mem hj)
    have hbefore : ∀ s ∈ stepsBefore negligible rows j, s.Fits rows[j].length :=
      hlength ▸ fits_stepsBefore hrows hj.le
    have hcolumn := h.isFinite_column hfinite hj
    obtain ⟨s', heq, hs⟩ := exists_madeFor hbefore hsome
    obtain rfl : s = s' := List.singleton_inj.mp (List.append_cancel_left heq)
    have hsound : s.Sound :=
      hs.sound hzero (hs.pivot_eq ▸ PivotStep.isFinite_getD hcolumn _)
    have hstep : ∀ i, (s.column.getD i 0).isFinite = true := fun i => by
      rw [hs.getD_column]
      exact PivotStep.isFinite_getD hcolumn _
    have hfits : s.Fits n :=
      hlength ▸ fits_of_pivotStep hbefore hsome s
        (List.mem_append_right _ (List.mem_singleton_self s))
    rw [hturn]
    exact hunit.step hsound hfits hstep (hs.target_eq.trans h.length_pivots.symm)
      (h.column_eq j _ (List.getElem?_eq_getElem hj) (.inl (Nat.le_refl j)))
      ((length_reduce hbefore).trans hlength) hs.column_eq

/-- On finite numbers the columns with a pivot are unit vectors after every visit. -/
theorem unitColumns_after (hzero : ∀ x : Binary f, x.isZero = true → negligible x = true)
    (hrows : ∀ row ∈ rows, row.length = n)
    (hfinite : ∀ j ≤ rows.length, (after negligible rows j).IsFinite) (hj : j ≤ rows.length) :
    (after negligible rows j).UnitColumns n := by
  induction j with
  | zero => exact fun k p hp => nomatch hp
  | succ j ih =>
    have hlt : j < rows.length := hj
    rw [after_succ]
    exact (follows_after hrows hlt.le).unitColumns_turn hzero hrows hlt (hfinite j hlt.le)
      (ih hlt.le)

end Finite

end Tableau

/-! ## Matrices -/

section Matrices

variable {rows : List (List Double)} {τ : Tolerance} {t : Tensor Double} {tol : Datum} {m n : ℕ}

def workingMatrix (τ : Tolerance) (rows : List (List Double)) (j : ℕ) : Tableau Double :=
  .after (τ.timesReal (largestMagnitude rows)).covers rows j

/-- An elimination in which only finite numbers occur, except that the threshold may be infinite. A
matrix without entries has no threshold. -/
structure FiniteRun (τ : Tolerance) (rows : List (List Double)) : Prop where
  threshold : rows.flatten ≠ [] → (τ.threshold (largestMagnitude rows)).isNaN = false
  columns : ∀ j ≤ rows.length, (workingMatrix τ rows j).IsFinite

instance (τ : Tolerance) (rows : List (List Double)) : Decidable (FiniteRun τ rows) :=
  decidable_of_iff (_ ∧ _) ⟨fun ⟨h, h'⟩ => ⟨h, h'⟩, fun ⟨h, h'⟩ => ⟨h, h'⟩⟩

/-- Without entries no column gets a pivot. -/
theorem pivots_workingMatrix_eq_nil (hempty : rows.flatten = []) {j : ℕ} (hj : j ≤ rows.length) :
    (workingMatrix τ rows j).pivots = [] := by
  have hrows : ∀ row ∈ rows, row = [] := List.flatten_eq_nil_iff.mp hempty
  have hlength : ∀ row ∈ rows, row.length = 0 := fun row hrow => by rw [hrows row hrow]; rfl
  rw [workingMatrix, (Tableau.follows_after hlength hj).pivots_eq]
  refine keep_eq_nil (fun row hrow => ?_) 0
  rw [hrows row (List.mem_of_mem_take hrow)]
  rfl

/-- What elimination keeps on a run on finite numbers. -/
theorem FiniteRun.keeps (h : FiniteRun τ rows) (hτ : 0 ≤ τ.number) (hm : rows.length = m)
    (hn : ∀ row ∈ rows, row.length = n) :
    (∀ j ≤ m, (workingMatrix τ rows j).UnitColumns n) ∧
      NamesRows m n rows (workingMatrix τ rows m).pivots ∧
      ∀ i ∈ (workingMatrix τ rows m).pivots, ∀ row, rows[i]? = some row →
        ∃ x ∈ row, x.isZero = false := by
  subst hm
  by_cases hempty : rows.flatten = []
  · refine ⟨fun j hj k p hp => ?_, ?_⟩
    · rw [pivots_workingMatrix_eq_nil hempty hj] at hp
      cases hp
    · rw [pivots_workingMatrix_eq_nil hempty (Nat.le_refl _)]
      exact ⟨⟨.nil, by simp, Nat.zero_le _, .nil⟩, by simp⟩
  · have hzero : ∀ x : Double, x.isZero = true →
        (τ.timesReal (largestMagnitude rows)).covers x = true := fun x hx =>
      Tolerance.covers_zero hτ (not_largestMagnitude_lt_zero rows) (h.threshold hempty) hx
    have hpivot := fun j hj => Tableau.isFinite_pivot hn h.columns (j := j) hj
    have hkept : (workingMatrix τ rows rows.length).pivots =
        byElimination (τ.timesReal (largestMagnitude rows)).covers rows := Tableau.pivots_after hn
    rw [hkept]
    refine ⟨fun j hj => Tableau.unitColumns_after hzero hn h.columns hj, ⟨?_, ?_, ?_, ?_⟩, ?_⟩
    · exact pairwise_keep 0 [] rows
    · exact fun i hi => (mem_keep_iff.mp hi).1
    · exact length_byElimination_le rfl hn
    · exact pairwise_ne_of_keep fun i hi j hj hij =>
        getElem_ne_of_mem_byElimination hzero hn hpivot hi hj hij
    · exact fun i hi row hrow => exists_nonzero_of_mem_byElimination hzero hn hpivot hi hrow

/-- In an elimination with a tolerance that is not negative and on finite numbers, the columns of
the working matrix with a pivot are exactly unit vectors after every visit. The rows that are kept
come in order, are at most as many as the matrix has rows or columns, and none of them is zero or
the same as an earlier one. -/
theorem independentRows_unitColumns (ht : t.shape = [m, n]) (htol : Tolerance.ofDatum tol = .ok τ)
    (hτ : 0 ≤ τ.number) (hfinite : FiniteRun τ t.rows) :
    (∀ j ≤ m, (workingMatrix τ t.rows j).UnitColumns n) ∧
      ∃ kept, independentRows t tol .column = .ok kept ∧
        kept = (workingMatrix τ t.rows m).pivots ∧ NamesRows m n t.rows kept ∧
        ∀ i ∈ kept, ∀ row, t.rows[i]? = some row → ∃ x ∈ row, x.isZero = false := by
  have hm : t.rows.length = m := Tensor.length_rows ht
  have hn : ∀ row ∈ t.rows, row.length = n := fun row hrow => Tensor.length_of_mem_rows ht hrow
  obtain ⟨hunit, hnames, hnonzero⟩ := hfinite.keeps hτ hm hn
  refine ⟨hunit, _, ?_, rfl, hnames, hnonzero⟩
  rw [independentRows_column ht htol, independentByElimination, workingMatrix, ← hm,
    Tableau.pivots_after hn]

/-- Three rows of two numbers, of which the first is repeated. The pivots are three and a number
that is rounded. -/
theorem independentRows_unitColumns_roundedPivot :
    ∃ t : Tensor Double, t.shape = [3, 2] ∧ FiniteRun .standard t.rows ∧
      (∀ j ≤ 3, (workingMatrix .standard t.rows j).UnitColumns 2) ∧
      (workingMatrix .standard t.rows 3).pivots = [0, 2] ∧
      independentRows t (.scalar (.real (.twoPowNeg .double 26))) .column = .ok [0, 2] ∧
      NamesRows 3 2 t.rows [0, 2] := by
  let t : Tensor Double := ⟨[3, 2], [1, 3, 1, 3, 3, 1].map (Binary.ofInt .double), rfl⟩
  have hfinite : FiniteRun .standard t.rows := by decide +kernel
  have hpivots : (workingMatrix .standard t.rows 3).pivots = [0, 2] := by decide +kernel
  obtain ⟨hunit, kept, hkept, heq, hnames, -⟩ :=
    independentRows_unitColumns (t := t) rfl Tolerance.ofDatum_default (by decide +kernel) hfinite
  rw [heq, hpivots] at hkept hnames
  exact ⟨t, rfl, hfinite, hunit, hpivots, hkept, hnames⟩

end Matrices

end StandardForm.Selection
