import StandardForm.Proofs.Attempt
import StandardForm.Proofs.Binary.Vanishing
import StandardForm.Proofs.Selection.Growth
import StandardForm.Proofs.Selection.Reprojection

/-!
# Selections that keep a row

A row that is visited before any other has been kept is compared with a tolerance times a magnitude
of its own: its length, or the greatest magnitude of the matrix, which some row holds. The default
tolerance times a magnitude is less than the magnitude unless that is zero or infinite. So
elimination always keeps a row of a matrix of finite entries that are not all zero. Projection does
if the computed length of some row is neither zero nor infinite; but the squares of small entries
vanish, and the sum of the squares of great ones overflows.
-/

namespace StandardForm.Selection

open Binary (norm dot twoPowNeg)

/-! ## The default tolerance -/

theorem value_le_two_pow (r : Fin (FloatFormat.double.top + 1)) :
    ((Binary.num false r : Double).value : ℝ) ≤ 2 * 2 ^ 1023 := by
  have htop : (FloatFormat.double.units FloatFormat.double.top : ℚ) / FloatFormat.double.one =
      2 * 2 ^ 1023 := by
    decide +kernel
  have hunits : FloatFormat.double.units r.val ≤ FloatFormat.double.units FloatFormat.double.top :=
    FloatFormat.double.units_strictMono.monotone (Nat.lt_succ_iff.mp r.isLt)
  have hone : (0 : ℚ) < FloatFormat.double.one := Nat.cast_pos.mpr FloatFormat.double.one_pos
  have hle : (Binary.num false r : Double).value ≤ 2 * 2 ^ 1023 := by
    rw [Binary.value_num, if_neg Bool.false_ne_true, one_mul, ← htop]
    exact div_le_div_of_nonneg_right (by exact_mod_cast hunits) hone.le
  exact_mod_cast hle

/-- The default tolerance times a magnitude that is neither zero nor infinite is less than it. -/
theorem standard_mul_lt {r : Fin (FloatFormat.double.top + 1)} (h0 : r.val ≠ 0)
    (htop : r.val ≠ FloatFormat.double.top) :
    twoPowNeg .double 26 * .num false r < (.num false r : Double) := by
  set x : Double := .num false r with hx
  have hfinite : x.isFinite = true := bne_iff_ne.mpr htop
  have hnonneg : (0 : ℝ) ≤ x.value := by exact_mod_cast Binary.value_num_false_nonneg r
  have hunit := Binary.unit_le_abs_value hfinite (beq_eq_false_iff_ne.mpr h0)
  rw [abs_of_nonneg hnonneg] at hunit
  have hpositive : (0 : ℝ) < x.value :=
    lt_of_lt_of_le (one_div_pos.mpr (Nat.cast_pos.mpr FloatFormat.double.one_pos)) hunit
  have hproduct : (0 : ℝ) ≤ 1 / 2 ^ 26 * x.value := by positivity
  have hrounds := Binary.rounds_mul (x := twoPowNeg .double 26) (y := x) (by decide +kernel) hfinite
  rw [value_twoPowNeg_26, abs_of_nonneg hproduct, Binary.greatestPower_double] at hrounds
  have hbound : (x.value : ℝ) / 2 ≤ 2 ^ 1023 := by
    rw [div_le_iff₀ two_pos, mul_comm]
    exact value_le_two_pow r
  have hroom : 1 / 2 ^ 26 * (x.value : ℝ) ≤ 2 ^ 1023 :=
    le_trans (by linarith) hbound
  obtain ⟨hmul, herror⟩ := hrounds (by push_cast; exact hroom)
  rw [abs_of_nonneg hproduct] at herror
  have hhalf : 1 / (2 * (FloatFormat.double.one : ℝ)) = 1 / FloatFormat.double.one / 2 := by
    field_simp
  have hrounding : 1 / 2 ^ 26 * (x.value : ℝ) / 2 ^ FloatFormat.double.precision ≤
      1 / 2 ^ 26 * (x.value : ℝ) / 8 := Binary.rounding_le_eighth hproduct
  have hlt : ((twoPowNeg .double 26 * x).value : ℝ) < x.value := by
    have hupper := (abs_le.mp herror).2
    rw [hhalf] at hupper
    linarith
  rw [← Binary.value_lt_iff (Binary.isNaN_of_isFinite hmul) (Binary.isNaN_of_isFinite hfinite)]
  exact_mod_cast hlt

/-- Only such a magnitude exceeds the default tolerance times itself. -/
theorem standard_mul_lt_iff {r : Fin (FloatFormat.double.top + 1)} :
    twoPowNeg .double 26 * .num false r < (.num false r : Double) ↔
      r.val ≠ 0 ∧ r.val ≠ FloatFormat.double.top := by
  refine ⟨fun h => ⟨fun h0 => ?_, fun htop => ?_⟩, fun h => standard_mul_lt h.1 h.2⟩
  · obtain rfl : r = ⟨0, Nat.succ_pos _⟩ := Fin.ext h0
    revert h
    decide +kernel
  · obtain rfl : r = ⟨FloatFormat.double.top, Nat.lt_succ_self _⟩ := Fin.ext htop
    revert h
    decide +kernel

/-! ## Elimination -/

section Elimination

variable {rows : List (List Double)}

/-- The greatest magnitude of rows that are not all zero is not zero. -/
theorem isZero_largestMagnitude (hfinite : ∀ row ∈ rows, ∀ x ∈ row, x.isFinite = true)
    {row : List Double} (hrow : row ∈ rows) {x : Double} (hx : x ∈ row)
    (hzero : x.isZero = false) : (largestMagnitude rows).isZero = false := by
  have hvalue := abs_value_le_largest hfinite hrow hx
  have hpos := Binary.abs_value_pos (hfinite row hrow x hx) hzero
  refine Bool.eq_false_iff.mpr fun hlargest => ?_
  obtain ⟨r, -, heq⟩ := exists_largestMagnitude_eq hfinite
  have hnan : (largestMagnitude rows).isNaN = false := heq ▸ rfl
  rw [largest, (Binary.value_eq_zero_iff hnan).mpr hlargest, Rat.cast_zero] at hvalue
  linarith

/-- The row that holds the greatest magnitude has a pivot of that size, if it is the first. -/
theorem isSome_pivotStep_of_largest (hfinite : ∀ row ∈ rows, ∀ x ∈ row, x.isFinite = true)
    (hlargest : (largestMagnitude rows).isZero = false) {row : List Double} (hrow : row ∈ rows)
    {x : Double} (hx : x ∈ row) (habs : largestMagnitude rows = x.abs) :
    (pivotStep (belowStandard rows) [] row).isSome := by
  obtain ⟨r, hr, heq⟩ := exists_largestMagnitude_eq hfinite
  obtain ⟨k, hk, rfl⟩ := List.getElem_of_mem hx
  have hpos : 0 < row.length := Nat.zero_lt_of_lt hk
  obtain ⟨-, hlt, hsize⟩ := greatest_spec hpos
  have hnan : (greatest 0 row).2.isNaN = false := by
    rw [hsize, List.getD_eq_getElem _ _ hlt]
    exact Binary.isNaN_of_isFinite
      ((Binary.isFinite_abs _).trans (hfinite row hrow _ (List.getElem_mem hlt)))
  have hle := magnitude_le_greatest (Binary.le_refl hnan) (Nat.zero_le k) hk
  rw [List.getD_eq_getElem _ _ hk] at hle
  have hexceeds : belowStandard rows (greatest 0 row).2 = false := by
    refine Bool.eq_false_iff.mpr fun hcovered => ?_
    have hthreshold : (greatest 0 row).2 ≤ twoPowNeg .double 26 * largestMagnitude rows :=
      of_decide_eq_true hcovered
    have hlargestle : largestMagnitude rows ≤ twoPowNeg .double 26 * largestMagnitude rows :=
      OrderedPivots.le_trans (habs.symm ▸ hle) hthreshold
    have hless := standard_mul_lt (r := r)
      (fun h0 => by rw [heq, Binary.isZero, h0] at hlargest; cases hlargest) hr
    rw [← heq] at hless
    obtain ⟨hproduct, hnumber⟩ := Binary.isNaN_of_lt hless
    rw [← Binary.value_lt_iff hproduct hnumber] at hless
    exact absurd ((Binary.value_le_iff hnumber hproduct).mpr hlargestle) (not_le.mpr hless)
  exact Option.isSome_of_eq_some (pivotStep_eq_some_iff.mpr ⟨hpos, hexceeds, rfl⟩)

/-- Elimination keeps a row of a matrix of finite entries that are not all zero. -/
theorem independentByElimination_ne_nil (hfinite : ∀ row ∈ rows, ∀ x ∈ row, x.isFinite = true)
    {row : List Double} (hrow : row ∈ rows) {x : Double} (hx : x ∈ row)
    (hzero : x.isZero = false) : independentByElimination .standard rows ≠ [] := by
  have hlargest := isZero_largestMagnitude hfinite hrow hx hzero
  refine keep_ne_nil_iff.mpr ?_
  rcases largestMagnitude_eq_or rows with hnone | ⟨row, hrow, x, hx, habs⟩
  · rw [hnone] at hlargest
    cases hlargest
  · exact ⟨row, hrow, isSome_pivotStep_of_largest hfinite hlargest hrow hx habs⟩

end Elimination

/-! ## Projection -/

section Projection

variable {rows : List (List Double)} {row : List Double}

theorem residual_nil {f : FloatFormat} (row : List (Binary f)) : residual [] row = row := by
  refine List.ext_getElem (by simp [residual, projection]) fun i hi hi' => ?_
  simp [residual, projection, Binary.sub_zero]

/-- The computed length of a row of finite entries is neither zero nor infinite: the square of an
entry exceeds half of the least magnitude, and the sum of the squares does not overflow. -/
def HasLength (row : List Double) : Prop :=
  (∃ x ∈ row, 1 / 2 ^ 1075 < x.value ^ 2) ∧ (dot row row).isFinite = true

instance (row : List Double) : Decidable (HasLength row) := inferInstanceAs (Decidable (_ ∧ _))

/-- The first row that is kept is the first one that has a length. -/
theorem isSome_projectionStep_iff (hfinite : ∀ x ∈ row, x.isFinite = true) :
    (projectionStep beyondStandard [] row).isSome ↔ HasLength row := by
  obtain ⟨r, hr, hzero, htop⟩ := Binary.norm_spec hfinite
  have hkept : (projectionStep beyondStandard [] row).isSome ↔
      (norm row).isZero = false ∧ beyondStandard (norm row) (norm row) = true := by
    rw [Option.isSome_iff_exists]
    simp only [projectionStep_eq_some_iff, residual_nil, exists_and_left, exists_eq, and_true]
  have hlong : beyondStandard (norm row) (norm row) = true ↔
      twoPowNeg .double 26 * norm row < norm row := decide_eq_true_iff
  have hleast : 1 / (2 * (FloatFormat.double.one : ℚ)) = 1 / 2 ^ 1075 := by decide +kernel
  have hvisible : r.val ≠ 0 ↔ ∃ x ∈ row, 1 / 2 ^ 1075 < x.value ^ 2 := by
    rw [Ne, hzero, hleast]
    push Not
    rfl
  rw [hkept, hlong, hr, standard_mul_lt_iff, Binary.isZero, beq_eq_false_iff_ne, hvisible, htop,
    HasLength, and_self_left]

/-- Projection keeps a row exactly if one has a length. -/
theorem independentByProjection_ne_nil_iff
    (hfinite : ∀ row ∈ rows, ∀ x ∈ row, x.isFinite = true) :
    independentByProjection .standard rows ≠ [] ↔ ∃ row ∈ rows, HasLength row := by
  have hkeep : independentByProjection .standard rows =
      keep (projectionStep beyondStandard) 0 [] rows := rfl
  rw [hkeep, keep_ne_nil_iff]
  exact exists_congr fun row => and_congr_right fun hrow =>
    isSome_projectionStep_iff (hfinite row hrow)

end Projection

/-! ## Matrices -/

section Matrices

variable {t : Tensor Double} {m n : ℕ}

/-- Of a matrix of finite entries that are not all zero, with the default tolerance, elimination
always selects a row, and projection does exactly if some row has a length. -/
theorem independentRows_ne_nil_iff (ht : t.shape = [m, n])
    (hfinite : ∀ x ∈ t.entries, x.isFinite = true) (hnonzero : ∃ x ∈ t.entries, x.isZero = false)
    (pivot : Pivot) :
    ∃ kept, independentRows t (.scalar (.real (twoPowNeg .double 26))) pivot = .ok kept ∧
      (kept ≠ [] ↔ (pivot = .row → ∃ row ∈ t.rows, HasLength row)) := by
  have hrows : ∀ row ∈ t.rows, ∀ x ∈ row, x.isFinite = true := fun row hrow x hx =>
    hfinite x (Tensor.mem_entries_of_mem_rows ht hrow hx)
  cases pivot with
  | column =>
    obtain ⟨x, hx, hzero⟩ := hnonzero
    rw [← Tensor.flatten_rows ht] at hx
    obtain ⟨row, hrow, hx⟩ := List.mem_flatten.mp hx
    refine ⟨_, independentRows_column ht Tolerance.ofDatum_default, iff_of_true ?_ nofun⟩
    exact independentByElimination_ne_nil hrows hrow hx hzero
  | row =>
    refine ⟨_, independentRows_row ht Tolerance.ofDatum_default, ?_⟩
    rw [independentByProjection_ne_nil_iff hrows]
    exact ⟨fun h _ => h, fun h => h rfl⟩

/-- The first row vanishes when it is squared, the second one has a length. -/
theorem independentRows_ne_nil_mixedRows :
    ∃ t : Tensor Double, t.shape = [2, 2] ∧ (∀ x ∈ t.entries, x.isFinite = true) ∧
      (∃ x ∈ t.entries, x.isZero = false) ∧ (∃ row ∈ t.rows, HasLength row) ∧
      ∀ pivot, ∃ kept,
        independentRows t (.scalar (.real (twoPowNeg .double 26))) pivot = .ok kept ∧
          kept ≠ [] := by
  let t : Tensor Double := ⟨[2, 2], [twoPowNeg .double 600, 0, 0, .ofInt .double 3], rfl⟩
  have hfinite : ∀ x ∈ t.entries, x.isFinite = true := by decide +kernel
  have hnonzero : ∃ x ∈ t.entries, x.isZero = false := by decide +kernel
  have hlength : ∃ row ∈ t.rows, HasLength row := by decide +kernel
  refine ⟨t, rfl, hfinite, hnonzero, hlength, fun pivot => ?_⟩
  obtain ⟨kept, hkept, hiff⟩ :=
    independentRows_ne_nil_iff (m := 2) (n := 2) rfl hfinite hnonzero pivot
  exact ⟨kept, hkept, hiff.mpr fun _ => hlength⟩

/-- Projection selects nothing from a single entry whose square vanishes, nor from one whose square
overflows. -/
theorem independentRows_eq_nil_single :
    let small : Tensor Double := ⟨[1, 1], [twoPowNeg .double 600], rfl⟩
    let great : Tensor Double := ⟨[1, 1], [.ofInt .double (2 ^ 600)], rfl⟩
    ((∀ x ∈ small.entries, x.isFinite = true) ∧ (∃ x ∈ small.entries, x.isZero = false) ∧
      independentRows small (.scalar (.real (twoPowNeg .double 26))) .row = .ok []) ∧
    (∀ x ∈ great.entries, x.isFinite = true) ∧ (∃ x ∈ great.entries, x.isZero = false) ∧
      independentRows great (.scalar (.real (twoPowNeg .double 26))) .row = .ok [] := by
  intro small great
  refine ⟨⟨by decide +kernel, by decide +kernel, ?_⟩, by decide +kernel, by decide +kernel, ?_⟩
  · exact toOption_eq_some.mp (by decide +kernel)
  · exact toOption_eq_some.mp (by decide +kernel)

end Matrices

end StandardForm.Selection
