import StandardForm.Proofs.Selection.Independent
import StandardForm.Proofs.Selection.Residual

/-!
# Rows that occur twice in a projection

A row that has been kept is a combination of the directions from then on, its own among them, up to
what rounding loses. Beside nearly orthonormal directions, what a second copy leaves over is
therefore short: the directions remove nearly all of a combination of them. So the second copy does
not exceed the default tolerance.
-/

namespace StandardForm.Selection

open Binary

section Directions

variable {f : FloatFormat} {n : ℕ} {η : ℝ} {basis later : List (List (Binary f))}
  {row : List (Binary f)}

/-- What a row adds to the directions when it is kept. -/
def direction (basis : List (List (Binary f))) (row : List (Binary f)) : List (Binary f) :=
  (residual basis row).map (· / norm (residual basis row))

namespace Projectable

theorem measures_residual (h : Projectable η n basis row) :
    (norm (residual basis row)).Measures ‖realVector n (residual basis row)‖
      (‖realVector n row‖ / 2 ^ 30) :=
  h.resolves.measures_norm h.isVector_residual h.norm_residual_le

theorem getD_direction (h : Projectable η n basis row) (i : Fin n) :
    (direction basis row).getD i 0 = (residual basis row).getD i 0 / norm (residual basis row) := by
  simp [direction, List.getD_eq_getElem?_getD, h.isVector_residual.length_eq]

/-- An entry of the new direction times the length of the residual is that of the residual again, up
to rounding. -/
theorem direction_entry_error (h : Projectable η n basis row)
    (hsize : ‖realVector n row‖ / 2 ^ 27 ≤ ((norm (residual basis row)).value : ℝ)) (i : Fin n) :
    ((direction basis row).getD i 0).isFinite = true ∧
      |(((norm (residual basis row)).value : ℝ) • realVector n (direction basis row) -
        realVector n (residual basis row)) i| ≤
          1 / 2 ^ f.precision * magnitudes (realVector n (residual basis row)) i +
            6 * (‖realVector n row‖ / 2 ^ f.precision) := by
  have hr := h.resolves
  have hpos := hr.length_pos
  have hmeasures := h.measures_residual
  have hnorm := h.norm_residual_le
  have hentry := abs_apply_le_norm (realVector n (residual basis row)) i
  rw [PiLp.sub_apply, PiLp.smul_apply, smul_eq_mul, magnitudes_apply, realVector_apply,
    realVector_apply, h.getD_direction]
  rw [realVector_apply] at hentry
  set A := ‖realVector n row‖
  set size := norm (residual basis row)
  have hsizepos : 0 < (size.value : ℝ) := lt_of_lt_of_le (by positivity) hsize
  have hrange : |(((residual basis row).getD i 0).value : ℝ) / size.value| ≤ greatestPower f := by
    have hroom : (2 : ℝ) ^ 29 ≤ greatestPower f := hr.terms_le_range (by
      have hsum := hr.sum_le
      nlinarith [sq_nonneg A])
    rw [abs_div, abs_of_pos hsizepos, div_le_iff₀ hsizepos]
    calc |(((residual basis row).getD i 0).value : ℝ)| ≤ 2 ^ 29 * (A / 2 ^ 27) := by linarith
      _ ≤ greatestPower f * size.value := mul_le_mul hroom hsize (by positivity) (by linarith)
  have hzero : size.isZero = false := by
    refine Bool.eq_false_iff.mpr fun hz => hsizepos.ne' ?_
    rw [(value_eq_zero_iff (isNaN_of_isFinite hmeasures.isFinite)).mpr hz, Rat.cast_zero]
  have hresidual := h.isVector_residual.finite_getD i
  have herror := abs_mul_div_sub_le hresidual hmeasures.isFinite hzero hrange
  rw [abs_of_pos hsizepos] at herror
  refine ⟨(rounds_div hresidual hmeasures.isFinite hzero hrange).isFinite, herror.trans ?_⟩
  have hunit := half_unit_le f
  have hrounding : (0 : ℝ) ≤ 1 / 2 ^ f.precision := by positivity
  have hlast : (size.value : ℝ) * (1 / (2 * f.one)) ≤ 6 * A * (1 / 2 ^ f.precision) :=
    mul_le_mul (by linarith [hmeasures.le]) (by linarith) (by positivity) (by positivity)
  calc _ ≤ 1 / 2 ^ f.precision * |(((residual basis row).getD i 0).value : ℝ)| +
        6 * A * (1 / 2 ^ f.precision) := add_le_add le_rfl hlast
    _ = _ := by ring

theorem isVector_direction (h : Projectable η n basis row)
    (hsize : ‖realVector n row‖ / 2 ^ 27 ≤ ((norm (residual basis row)).value : ℝ)) :
    IsVector n (direction basis row) :=
  isVector_of_getD (by rw [direction, List.length_map, h.isVector_residual.length_eq])
    fun i => (h.direction_entry_error hsize i).1

theorem direction_error (h : Projectable η n basis row)
    (hsize : ‖realVector n row‖ / 2 ^ 27 ≤ ((norm (residual basis row)).value : ℝ)) :
    ‖((norm (residual basis row)).value : ℝ) • realVector n (direction basis row) -
      realVector n (residual basis row)‖ ≤ 12 * loss f n ‖realVector n row‖ := by
  have hr := h.resolves
  calc _ ≤ 1 / 2 ^ f.precision * ‖magnitudes (realVector n (residual basis row))‖ +
        n * (6 * (‖realVector n row‖ / 2 ^ f.precision)) :=
        norm_le_of_abs_le_add (by positivity) (by linarith [hr.rounding_nonneg])
          fun i => (h.direction_entry_error hsize i).2
    _ ≤ 1 / 2 ^ f.precision * (4 * ‖realVector n row‖) +
        n * (6 * (‖realVector n row‖ / 2 ^ f.precision)) := by
        rw [norm_magnitudes]
        gcongr
        exact h.norm_residual_le
    _ = 4 * (‖realVector n row‖ / 2 ^ f.precision) +
        6 * (n * (‖realVector n row‖ / 2 ^ f.precision)) := by ring
    _ ≤ 12 * loss f n ‖realVector n row‖ := by
        linarith [hr.dimension_mul_rounding_le, hr.rounding_le, hr.loss_nonneg]

theorem realVector_mem_span {b : List (Binary f)} (hb : b ∈ basis) :
    realVector n b ∈ Submodule.span ℝ (Set.range (family n basis)) := by
  obtain ⟨k, hk, rfl⟩ := List.mem_iff_getElem.mp hb
  exact Submodule.subset_span ⟨⟨k, hk⟩, rfl⟩

/-- A row that is kept is close to a combination of the directions, its own among them. -/
theorem exists_mem_span (h : Projectable η n basis row)
    (hsize : ‖realVector n row‖ / 2 ^ 27 ≤ ((norm (residual basis row)).value : ℝ))
    (hbasis : ∀ b ∈ basis, b ∈ later) (hdirection : direction basis row ∈ later) :
    ∃ v ∈ Submodule.span ℝ (Set.range (family n later)),
      ‖realVector n row - v‖ ≤ 44 * loss f n ‖realVector n row‖ := by
  set along := combination (family n basis) fun l => inner ℝ (family n basis l) (realVector n row)
  set last := ((norm (residual basis row)).value : ℝ) • realVector n (direction basis row)
  have hmem : along + last ∈ Submodule.span ℝ (Set.range (family n later)) := by
    refine Submodule.add_mem _ (Submodule.sum_mem _ fun l _ => Submodule.smul_mem _ _ ?_)
      (Submodule.smul_mem _ _ (realVector_mem_span hdirection))
    exact realVector_mem_span (hbasis _ (List.getElem_mem l.isLt))
  refine ⟨along + last, hmem, ?_⟩
  have hsplit : realVector n row - (along + last) =
      -(realVector n (residual basis row) - across (family n basis) (realVector n row)) -
        (last - realVector n (residual basis row)) := by
    rw [across]
    abel
  rw [hsplit]
  refine (norm_sub_le_of_le ((norm_neg _).trans_le h.residual_error)
    (h.direction_error hsize)).trans ?_
  linarith

/-- A row that is close to a combination of the directions has a short residual. -/
theorem norm_residual_le_of_close (h : Projectable η n later row) (hsmall : η ≤ 1 / 2 ^ 30)
    {v : EuclideanSpace ℝ (Fin n)} (hv : v ∈ Submodule.span ℝ (Set.range (family n later)))
    (hclose : ‖realVector n row - v‖ ≤ 44 * loss f n ‖realVector n row‖) :
    ‖realVector n (residual later row)‖ ≤ ‖realVector n row‖ / 2 ^ 28 := by
  have hpos := h.resolves.length_pos
  have hloss := h.resolves.loss_le
  have hvnorm : ‖v‖ ≤ ‖realVector n row‖ + 44 * loss f n ‖realVector n row‖ := by
    have hle := norm_sub_le_of_le (le_refl ‖realVector n row‖) hclose
    rwa [sub_sub_cancel] at hle
  have hremoved : ‖across (family n later) v‖ ≤
      2 * (1 / 2 ^ 30) * (‖realVector n row‖ + 44 * loss f n ‖realVector n row‖) :=
    (h.near.norm_across_le_of_mem_span h.nonneg h.le_half hv).trans
      (mul_le_mul (by linarith) hvnorm (norm_nonneg _) (by positivity))
  have hrest : ‖across (family n later) (realVector n row - v)‖ ≤
      3 * (44 * loss f n ‖realVector n row‖) :=
    (h.near.norm_across_le h.nonneg h.le_half _).trans
      (mul_le_mul_of_nonneg_left hclose (by norm_num))
  have hsplit : realVector n (residual later row) =
      (realVector n (residual later row) - across (family n later) (realVector n row)) +
        across (family n later) v + across (family n later) (realVector n row - v) := by
    rw [across_sub]
    abel
  rw [hsplit]
  refine (norm_add_le_of_le (norm_add_le_of_le h.residual_error hremoved) hrest).trans ?_
  linarith

end Projectable

end Directions

/-! ## The default tolerance -/

/-- The comparison that projection makes with the default tolerance. -/
def beyondStandard (size length : Double) : Bool :=
  (Tolerance.standard.timesDouble length).exceededBy size

section Standard

variable {n : ℕ} {A η : ℝ} {basis : List (List Double)} {row : List Double}

/-- The threshold is about the tolerance times the length. -/
theorem threshold_ge (h : Resolves .double n A) {length : Double}
    (hlength : length.Measures A (A / 2 ^ 30)) :
    (twoPowNeg .double 26 * length).isFinite = true ∧
      3 / 4 * (A / 2 ^ 26) ≤ ((twoPowNeg .double 26 * length).value : ℝ) := by
  have hpos := h.length_pos
  have hge := hlength.ge (by linarith)
  have hle := hlength.le
  have hroom : (length.value : ℝ) ≤ greatestPower .double := by
    refine h.terms_le_range ?_
    have hsum := h.sum_le
    nlinarith [sq_nonneg A]
  obtain ⟨hfinite, hthreshold⟩ := standard_mul_ge hlength.isFinite (le_trans (by positivity) hge)
    hroom
  refine ⟨hfinite, ?_⟩
  linarith [h.least.trans (h.rounding_le.trans h.loss_le)]

theorem lt_of_beyondStandard {size length : Double} (hsize : size.isFinite = true)
    (hthreshold : (twoPowNeg .double 26 * length).isFinite = true)
    (h : beyondStandard size length = true) :
    ((twoPowNeg .double 26 * length).value : ℝ) < size.value := by
  have hlt : twoPowNeg .double 26 * length < size := of_decide_eq_true h
  rw [← value_lt_iff (isNaN_of_isFinite hthreshold) (isNaN_of_isFinite hsize)] at hlt
  exact_mod_cast hlt

theorem projectionStep_eq_some_iff {basis' : List (List Double)} :
    projectionStep beyondStandard basis row = some basis' ↔
      (norm row).isZero = false ∧ beyondStandard (norm (residual basis row)) (norm row) = true ∧
        basis' = basis ++ [direction basis row] := by
  unfold projectionStep direction
  generalize norm row = length
  generalize residual basis row = rest
  dsimp only
  split
  · next hzero => simp [hzero]
  · next hzero =>
    rw [Bool.eq_false_iff.mpr hzero]
    split
    · next hlong => simp [hlong, eq_comm]
    · next hlong => simp [Bool.eq_false_iff.mpr hlong]

/-- The length of the residual of a row that is kept. -/
theorem Projectable.lt_norm_residual (h : Projectable η n basis row)
    (hlong : beyondStandard (norm (residual basis row)) (norm row) = true) :
    3 / 4 * (‖realVector n row‖ / 2 ^ 26) < ((norm (residual basis row)).value : ℝ) := by
  have hpos := h.resolves.length_pos
  obtain ⟨hfinite, hge⟩ :=
    threshold_ge h.resolves (h.resolves.measures_norm h.isVector (by linarith))
  exact hge.trans_lt (lt_of_beyondStandard h.measures_residual.isFinite hfinite hlong)

/-- A row with a short residual is passed over. -/
theorem Projectable.eq_none_of_short (h : Projectable η n basis row)
    (hshort : ‖realVector n (residual basis row)‖ ≤ ‖realVector n row‖ / 2 ^ 28) :
    projectionStep beyondStandard basis row = none := by
  refine Option.eq_none_iff_forall_ne_some.mpr fun basis' hstep => ?_
  have hlt := h.lt_norm_residual (projectionStep_eq_some_iff.mp hstep).2.1
  have hle := h.measures_residual.le
  have hpos := h.resolves.length_pos
  linarith

theorem realVector_ne_zero_of_kept {basis' : List (List Double)} (hrow : IsVector n row)
    (h : projectionStep beyondStandard basis row = some basis') : realVector n row ≠ 0 := by
  intro hzero
  refine Bool.eq_false_iff.mp (projectionStep_eq_some_iff.mp h).1 (isZero_norm fun x hx => ?_)
  have hfinite := hrow.finite x hx
  refine ⟨hfinite, (value_eq_zero_iff (isNaN_of_isFinite hfinite)).mp ?_⟩
  obtain ⟨k, hk, rfl⟩ := List.mem_iff_getElem.mp hx
  have hentry := congrArg (fun v => v ⟨k, hrow.length_eq ▸ hk⟩) hzero
  simpa [List.getD_eq_getElem?_getD, hk] using hentry

end Standard

/-! ## A run -/

section Run

variable {n : ℕ} {η : ℝ} {rows : List (List Double)}

def directionsBefore (rows : List (List Double)) (j : ℕ) : List (List Double) :=
  finalState (projectionStep beyondStandard) [] (rows.take j)

def directions (rows : List (List Double)) : List (List Double) :=
  finalState (projectionStep beyondStandard) [] rows

theorem prefix_finalState (basis : List (List Double)) (rows : List (List Double)) :
    basis <+: finalState (projectionStep beyondStandard) basis rows := by
  induction rows generalizing basis with
  | nil => exact List.prefix_rfl
  | cons row rows ih =>
    refine List.IsPrefix.trans ?_ (ih _)
    cases h : projectionStep beyondStandard basis row with
    | none => exact List.prefix_rfl
    | some basis' =>
      rw [(projectionStep_eq_some_iff.mp h).2.2]
      exact List.prefix_append _ _

theorem prefix_directions (j : ℕ) : directionsBefore rows j <+: directions rows := by
  rw [directionsBefore, directions]
  conv_rhs => rw [← List.take_append_drop j rows, finalState_append]
  exact prefix_finalState _ _

theorem prefix_directionsBefore {i j : ℕ} (hij : i ≤ j) :
    directionsBefore rows i <+: directionsBefore rows j := by
  have htake : directionsBefore (rows.take j) i = directionsBefore rows i := by
    rw [directionsBefore, directionsBefore, List.take_take, Nat.min_eq_left hij]
  have hprefix : directionsBefore (rows.take j) i <+: directionsBefore rows j := prefix_directions i
  exact htake ▸ hprefix

/-- The first of nearly orthonormal directions are nearly orthonormal. -/
theorem NearlyOrthonormal.of_initial {before after : List (List Double)} (h : before <+: after)
    (hnear : NearlyOrthonormal η (family n after)) : NearlyOrthonormal η (family n before) := by
  have hfamily : family n before = family n after ∘ Fin.castLE h.length_le := by
    funext l
    simp only [family, Function.comp_apply, Fin.getElem_fin, Fin.val_castLE]
    rw [h.getElem l.isLt]
  rw [hfamily]
  exact hnear.comp (Fin.castLE_injective h.length_le)

/-- A matrix of rows that are zero or resolved, whose directions are nearly orthonormal. -/
structure StaysNear (η : ℝ) (n : ℕ) (rows : List (List Double)) : Prop where
  isVector : ∀ row ∈ rows, IsVector n row
  resolved : ∀ row ∈ rows, realVector n row ≠ 0 → Resolves .double n ‖realVector n row‖
  nonneg : 0 ≤ η
  le_half : η ≤ 1 / 2
  near : NearlyOrthonormal η (family n (directions rows))

namespace StaysNear

theorem projectable_of_directions (h : StaysNear η n rows) {j : ℕ}
    (hdirections : ∀ b ∈ directionsBefore rows j, IsVector n b) {row : List Double}
    (hrow : row ∈ rows) (hne : realVector n row ≠ 0) :
    Projectable η n (directionsBefore rows j) row :=
  ⟨h.resolved row hrow hne, h.isVector row hrow, hdirections, h.nonneg, h.le_half,
    h.near.of_initial (prefix_directions j)⟩

/-- Nearly orthonormal directions are made of finite numbers. -/
theorem isVector_direction (h : StaysNear η n rows) {j : ℕ} (hj : j ≤ rows.length) :
    ∀ b ∈ directionsBefore rows j, IsVector n b := by
  induction j with
  | zero => simp [directionsBefore, finalState]
  | succ j ih =>
    have ih := ih (Nat.le_of_succ_le hj)
    have hrow := List.getElem_mem hj
    rw [directionsBefore, finalState_take_succ _ hj, ← directionsBefore]
    cases hstep : projectionStep beyondStandard (directionsBefore rows j) rows[j] with
    | none => exact ih
    | some basis' =>
      have hprojectable := h.projectable_of_directions ih hrow
        (realVector_ne_zero_of_kept (h.isVector _ hrow) hstep)
      obtain ⟨-, hlong, rfl⟩ := projectionStep_eq_some_iff.mp hstep
      have hsize := hprojectable.lt_norm_residual hlong
      have hpos := hprojectable.resolves.length_pos
      intro b hb
      rcases List.mem_append.mp hb with hb | hb
      · exact ih b hb
      · rw [List.mem_singleton.mp hb]
        exact hprojectable.isVector_direction (by linarith)

theorem projectable (h : StaysNear η n rows) {j : ℕ} (hj : j ≤ rows.length) {row : List Double}
    (hrow : row ∈ rows) (hne : realVector n row ≠ 0) :
    Projectable η n (directionsBefore rows j) row :=
  h.projectable_of_directions (h.isVector_direction hj) hrow hne

/-- A second copy of a row that has been kept is passed over. -/
theorem eq_none_of_kept (h : StaysNear η n rows) (hsmall : η ≤ 1 / 2 ^ 30) {i j : ℕ}
    (hi : i < rows.length) (hj : j ≤ rows.length) (hij : i < j) {basis : List (List Double)}
    (hkept : projectionStep beyondStandard (directionsBefore rows i) rows[i] = some basis) :
    projectionStep beyondStandard (directionsBefore rows j) rows[i] = none := by
  have hrow := List.getElem_mem hi
  have hne := realVector_ne_zero_of_kept (h.isVector _ hrow) hkept
  have hfirst := h.projectable hi.le hrow hne
  have hsecond := h.projectable hj hrow hne
  obtain ⟨-, hlong, hbasis⟩ := projectionStep_eq_some_iff.mp hkept
  have hsize := hfirst.lt_norm_residual hlong
  have hpos := hfirst.resolves.length_pos
  -- From the step after the first copy on, its direction is there.
  have hnext : directionsBefore rows (i + 1) = directionsBefore rows i ++
      [direction (directionsBefore rows i) rows[i]] := by
    rw [directionsBefore, finalState_take_succ _ hi, ← directionsBefore, hkept, hbasis]
    rfl
  have hlater : directionsBefore rows (i + 1) <+: directionsBefore rows j :=
    prefix_directionsBefore hij
  rw [hnext] at hlater
  obtain ⟨v, hv, hclose⟩ := hfirst.exists_mem_span (by linarith)
    (fun b hb => hlater.subset (List.mem_append_left _ hb))
    (hlater.subset (List.mem_append_right _ (List.mem_singleton_self _)))
  exact hsecond.eq_none_of_short (hsecond.norm_residual_le_of_close hsmall hv hclose)

/-- As long as the directions are nearly orthonormal, no row is kept twice. -/
theorem getElem_ne_of_mem_byProjection (h : StaysNear η n rows) (hsmall : η ≤ 1 / 2 ^ 30)
    {i j : ℕ} (hi : i ∈ byProjection beyondStandard rows)
    (hj : j ∈ byProjection beyondStandard rows) (hij : i < j) : rows[i]? ≠ rows[j]? := by
  refine getElem?_ne_of_mem_keep hi hj fun hilt hjlt basis hstep heq => ?_
  rw [← heq]
  exact h.eq_none_of_kept hsmall hilt hjlt.le hij hstep

end StaysNear

end Run

end StandardForm.Selection
