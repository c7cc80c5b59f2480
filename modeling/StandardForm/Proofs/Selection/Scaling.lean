import StandardForm.Proofs.Selection.Independent
import StandardForm.Proofs.Selection.Multiples

/-!
# Eliminations of scaled rows

Scaled rows are multiples by one power of two with no signs. So both runs find the pivots at the
same places, provided that the products of the elimination neither overflow nor lose bits at the low
end of the format, which would depend on the scale.
-/

namespace StandardForm.Selection

open Binary (Multiple Scaled Steady)

variable {f : FloatFormat} {k n : ℕ} {x y : Binary f} {xs ys : List (Binary f)}
  {s : PivotStep (Binary f)} {steps : List (PivotStep (Binary f))}

/-! ## Steady runs -/

/-- A step whose products do not depend on the scale of the column that it is applied to, and whose
differences do not overflow. -/
structure PivotStep.SteadyOn (s : PivotStep (Binary f)) (xs : List (Binary f)) : Prop where
  product : ∀ i < xs.length, s.target < i → (s.column.getD i 0 * s.quotient xs).Steady
    ((s.column.getD i 0).value * (s.quotient xs).value)
  difference : ∀ i < xs.length, s.target < i →
    ((exchange s.target s.source xs).getD i 0 - s.column.getD i 0 * s.quotient xs).isFinite = true

/-- Steps that stay so when a column is brought through them. -/
def SteadyReduction : List (PivotStep (Binary f)) → List (Binary f) → Prop
  | [], _ => True
  | s :: steps, xs => s.SteadyOn xs ∧ SteadyReduction steps (s.apply xs)

/-- A run in which every row that is visited while a position has no pivot is reduced by such
steps. -/
def SteadyRun (negligible : Binary f → Bool) (rows : List (List (Binary f))) : Prop :=
  ∀ j, ∀ h : j < rows.length, (stepsBefore negligible rows j).length < rows[j].length →
    SteadyReduction (stepsBefore negligible rows j) rows[j]

instance (s : PivotStep (Binary f)) (xs : List (Binary f)) : Decidable (s.SteadyOn xs) :=
  decidable_of_iff (_ ∧ _) ⟨fun ⟨h, h'⟩ => ⟨h, h'⟩, fun ⟨h, h'⟩ => ⟨h, h'⟩⟩

instance decidableSteadyReduction :
    (steps : List (PivotStep (Binary f))) → (xs : List (Binary f)) →
      Decidable (SteadyReduction steps xs)
  | [], _ => .isTrue trivial
  | s :: steps, xs =>
    have := decidableSteadyReduction steps (s.apply xs)
    inferInstanceAs (Decidable (s.SteadyOn xs ∧ SteadyReduction steps (s.apply xs)))

instance (negligible : Binary f → Bool) (rows : List (List (Binary f))) :
    Decidable (SteadyRun negligible rows) :=
  inferInstanceAs (Decidable (∀ j, ∀ h : j < rows.length,
    (stepsBefore negligible rows j).length < rows[j].length →
      SteadyReduction (stepsBefore negligible rows j) rows[j]))

/-! ## Scaled rows as multiples -/

theorem multiple_of_scaled (h : Scaled k x y) : Multiple k false x y := by
  cases x with
  | nan => cases h
  | num s r =>
    cases y with
    | nan => cases h
    | num t q =>
      obtain ⟨rfl, hr, hq, hunits⟩ := h
      refine ⟨⟨iff_of_false hr hq, fun _ => ?_⟩, fun _ => (Bool.false_bne s).symm⟩
      rw [hunits, zpow_natCast]
      push_cast
      rfl

theorem rowMultiples_of_scaled {rows rows' : List (List (Binary f))}
    (h : List.Forall₂ (List.Forall₂ (Scaled k)) rows rows') :
    RowMultiples (fun _ => k) (fun _ => false) (fun _ => false) rows rows' := by
  refine ⟨h.length_eq, fun j hj hj' => ?_⟩
  have hrow := (List.forall₂_iff_get.mp h).2 j hj hj'
  exact .of_getElem hrow.length_eq fun i hi hi' =>
    multiple_of_scaled ((List.forall₂_iff_get.mp hrow).2 i hi hi')

theorem regularProduct_of_steady (h : (x * y).Steady (x.value * y.value)) :
    Binary.RegularProduct x y := by
  intro hx hy
  refine ⟨h.isFinite, h.imp And.right fun hordinary => ?_⟩
  cases x with
  | nan => cases hx
  | num s r =>
  cases y with
  | nan => cases hy
  | num t q =>
    rw [Binary.mul_num_of_finite (bne_iff_ne.mp hx) (bne_iff_ne.mp hy)] at hordinary
    refine (Binary.binade_le_abs_iff f.one_pos ?_).mpr (f.binade_le_of_lt_nearest hordinary.1)
    rw [abs_mul, Binary.abs_value_num, Binary.abs_value_num]
    push_cast
    ring

theorem regularReduction_of_steady (h : SteadyReduction steps xs) : RegularReduction steps xs := by
  induction steps generalizing xs with
  | nil => trivial
  | cons s steps ih =>
    refine ⟨⟨fun i hi hlt => ?_, fun i hi hlt _ _ => ?_⟩, ih h.2⟩
    · exact regularProduct_of_steady (h.1.product i hi hlt)
    · exact h.1.difference i hi hlt

theorem regularRun_of_steady {negligible : Binary f → Bool} {rows : List (List (Binary f))}
    (h : SteadyRun negligible rows) : RegularRun negligible rows :=
  fun j hj hlt => regularReduction_of_steady (h j hj hlt)

/-! ## Elimination with the default tolerance -/

/-- An elimination that does not depend on the scale of the rows: neither does the threshold, nor
does the run. -/
structure SteadyElimination (rows : List (List Double)) : Prop where
  threshold : (Binary.twoPowNeg .double 26 * largestMagnitude rows).Steady
    ((Binary.twoPowNeg .double 26).value * (largestMagnitude rows).value)
  run : SteadyRun (Tolerance.standard.timesReal (largestMagnitude rows)).covers rows

instance (rows : List (List Double)) : Decidable (SteadyElimination rows) :=
  decidable_of_iff (_ ∧ _) ⟨fun ⟨h, h'⟩ => ⟨h, h'⟩, fun ⟨h, h'⟩ => ⟨h, h'⟩⟩

/-- Elimination selects the same of scaled rows. -/
theorem independentByElimination_scaled {rows rows' : List (List Double)}
    (hrows : List.Forall₂ (List.Forall₂ (Scaled k)) rows rows') (hn : ∀ row ∈ rows, row.length = n)
    (hsteady : SteadyElimination rows) (hsteady' : SteadyElimination rows') :
    independentByElimination .standard rows' = independentByElimination .standard rows := by
  have hmultiples := rowMultiples_of_scaled hrows
  have hthreshold := (Multiple.refl (.twoPowNeg .double 26)).mul hmultiples.largestMagnitude
    fun _ => ⟨regularProduct_of_steady hsteady.threshold, regularProduct_of_steady hsteady'.threshold⟩
  rw [zero_add, Bool.false_bne] at hthreshold
  have hfinite : ∀ row ∈ rows, ∀ x ∈ row, x.isFinite = true := by
    intro row hrow x hx
    obtain ⟨j, hj, rfl⟩ := List.getElem_of_mem hrow
    obtain ⟨i, hi, rfl⟩ := List.getElem_of_mem hx
    obtain ⟨hlength, hentries⟩ := List.forall₂_iff_get.mp
      ((List.forall₂_iff_get.mp hrows).2 j hj (hrows.length_eq ▸ hj))
    exact (hentries i hi (hlength ▸ hi)).isFinite_left
  exact byElimination_multiples hmultiples hn
    (fun _ _ hx => decide_eq_decide.mpr (hx.le_iff hthreshold)) (fun _ => covers_of_isZero hfinite)
    fun _ => ⟨regularRun_of_steady hsteady.run, regularRun_of_steady hsteady'.run⟩

end StandardForm.Selection
