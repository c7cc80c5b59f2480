import Mathlib.Algebra.BigOperators.Group.List.Lemmas
import Mathlib.Algebra.Order.BigOperators.Group.List
import StandardForm.Proofs.Spectrum.Scaling

/-!
# How large the largest singular value is

The squares of the exact singular values add up to the sum of the squares of all entries. So the
largest one is no less than the greatest magnitude over the root of the number of singular values,
and no more than the greatest magnitude times the root of the number of entries. A matrix whose
entries are neither tiny nor huge has a rank that does not depend on its scale.
-/

namespace StandardForm.Spectrum

/-! ## Sums of squares -/

def squares (rows : List (List ℤ)) : ℤ := (rows.map fun row => (row.map (· ^ 2)).sum).sum

theorem squares_cons (row : List ℤ) (rows : List (List ℤ)) :
    squares (row :: rows) = (row.map (· ^ 2)).sum + squares rows := by
  simp [squares]

theorem dot_self (row : List ℤ) : dot row row = (row.map (· ^ 2)).sum := by
  induction row with
  | nil => rfl
  | cons a row ih =>
    rw [dot, ih, List.map_cons, List.sum_cons]
    split
    · next h => simp [h]
    · ring

/-- The trace of the products of every two rows. -/
theorem trace_gram (rows : List (List ℤ)) : trace (gram rows) = squares rows := by
  have hdiagonal : (gram rows).zipIdx.map (fun entry => entry.1.getD entry.2 0) =
      rows.map fun row => dot row row := by
    refine List.ext_getElem (by simp) fun i hi hi' => ?_
    rw [List.length_map] at hi'
    simp [gram, product, reflected, hi']
  have hfold (entries : List (List ℤ × ℕ)) (sum : ℤ) :
      entries.foldl (fun sum entry => sum + entry.1.getD entry.2 0) sum =
        sum + (entries.map fun entry => entry.1.getD entry.2 0).sum := by
    induction entries generalizing sum with
    | nil => simp
    | cons entry entries ih => rw [List.foldl_cons, ih, List.map_cons, List.sum_cons, add_assoc]
  have htrace : trace (gram rows) =
      (gram rows).zipIdx.foldl (fun sum entry => sum + entry.1.getD entry.2 0) 0 := rfl
  rw [htrace, hfold, hdiagonal, zero_add, squares]
  exact congrArg List.sum (List.map_congr_left fun row _ => dot_self row)

/-- The columns have the entries of the rows. -/
theorem squares_columns {width : ℕ} {rows : List (List ℤ)} (h : ∀ row ∈ rows, row.length = width) :
    squares (columns width rows) = squares rows := by
  induction rows with
  | nil => simp [columns, squares]
  | cons row rows ih =>
    rw [List.forall_mem_cons] at h
    obtain ⟨rfl, hrest⟩ := h
    have hrow : ((List.range row.length).map fun j => row.getD j 0 ^ 2).sum =
        (row.map (· ^ 2)).sum := by
      conv_rhs => rw [← Tensor.map_getD_range row 0, List.map_map]
      rfl
    rw [squares_cons, ← ih hrest, ← hrow]
    simp only [columns, squares, List.map_map, Function.comp_def, List.map_cons, List.sum_cons,
      List.sum_map_add]

theorem sq_le_squares {a : ℤ} {row : List ℤ} {rows : List (List ℤ)} (hrow : row ∈ rows)
    (ha : a ∈ row) : a ^ 2 ≤ squares rows := by
  have hsq (row : List ℤ) : ∀ b ∈ row.map (· ^ 2), 0 ≤ b := by
    simp only [List.forall_mem_map]
    exact fun b _ => sq_nonneg b
  calc a ^ 2 ≤ (row.map (· ^ 2)).sum :=
        List.single_le_sum (hsq row) _ (List.mem_map_of_mem ha)
    _ ≤ squares rows := by
        refine List.single_le_sum ?_ _ (List.mem_map_of_mem hrow)
        simp only [List.forall_mem_map]
        exact fun row _ => List.sum_nonneg (hsq row)

theorem squares_le {bound : ℤ} {width : ℕ} {rows : List (List ℤ)}
    (hlength : ∀ row ∈ rows, row.length = width) (h : ∀ row ∈ rows, ∀ a ∈ row, |a| ≤ bound) :
    squares rows ≤ rows.length * (width * bound ^ 2) := by
  have hrow (row : List ℤ) (hrow : row ∈ rows) : (row.map (· ^ 2)).sum ≤ width * bound ^ 2 := by
    have hsum := List.sum_le_card_nsmul (row.map (· ^ 2)) (bound ^ 2) fun b hb => by
      obtain ⟨a, ha, rfl⟩ := List.mem_map.mp hb
      exact sq_le_sq' (abs_le.mp (h row hrow a ha)).1 (abs_le.mp (h row hrow a ha)).2
    rwa [List.length_map, hlength row hrow, nsmul_eq_mul] at hsum
  have hsum := List.sum_le_card_nsmul (rows.map fun row => (row.map (· ^ 2)).sum)
    (width * bound ^ 2) fun b hb => by
      obtain ⟨row, hmem, rfl⟩ := List.mem_map.mp hb
      exact hrow row hmem
  rwa [List.length_map, nsmul_eq_mul] at hsum

theorem squares_mul (c : ℤ) (rows : List (List ℤ)) :
    squares (rows.map (·.map (c * ·))) = c ^ 2 * squares rows := by
  simp only [squares, List.map_map, Function.comp_def, mul_pow, List.sum_map_mul_left]

/-! ## The sum of the roots -/

theorem gcd_foldl_dvd (g : ℕ) (as : List ℤ) :
    as.foldl (fun g a => g.gcd a.natAbs) g ∣ g ∧
      ∀ a ∈ as, ((as.foldl (fun g a => g.gcd a.natAbs) g : ℕ) : ℤ) ∣ a := by
  induction as generalizing g with
  | nil => exact ⟨dvd_rfl, by simp⟩
  | cons a as ih =>
    obtain ⟨hgcd, hrest⟩ := ih (g.gcd a.natAbs)
    rw [List.foldl_cons]
    exact ⟨hgcd.trans (Nat.gcd_dvd_left _ _),
      List.forall_mem_cons.mpr ⟨Int.natCast_dvd.mpr (hgcd.trans (Nat.gcd_dvd_right _ _)), hrest⟩⟩

theorem commonFactor_dvd (rows : List (List ℤ)) : ∀ row ∈ rows, ∀ a ∈ row,
    ((commonFactor rows : ℕ) : ℤ) ∣ a := by
  rw [commonFactor_eq]
  split
  · simp
  · exact fun row hrow a ha => (gcd_foldl_dvd 0 rows.flatten).2 a (List.mem_flatten_of_mem hrow ha)

section Rows

variable {width : ℕ} {rows : List (List Double)}

/-- The sum of the roots, times the square of the common factor, is the sum of the squares of the
entries in units. -/
theorem total_ofRows (h : ∀ row ∈ rows, row.length = width) :
    ((SingularValues.ofRows width rows).factor : ℤ) ^ 2 *
      (SingularValues.ofRows width rows).total = squares (rows.map (·.map unitsOf)) := by
  have htotal : (SingularValues.ofRows width rows).total = squares (Exact.ofRows rows).rows := by
    simp only [SingularValues.ofRows]
    split
    · exact trace_gram _
    · rw [trace_gram, squares_columns]
      simpa [Exact.ofRows] using h
  have hexact : (Exact.ofRows rows).rows.map
      (·.map (((SingularValues.ofRows width rows).factor : ℤ) * ·)) =
        rows.map (·.map unitsOf) := by
    have hdvd := commonFactor_dvd (rows.map (·.map unitsOf))
    simp only [SingularValues.ofRows, Exact.ofRows, List.map_map, Function.comp_def]
    refine List.map_congr_left fun row hrow => List.map_congr_left fun x hx => ?_
    exact Int.mul_ediv_cancel' (hdvd _ (List.mem_map_of_mem hrow) _ (List.mem_map_of_mem hx))
  rw [htotal, ← squares_mul, hexact]

end Rows

/-! ## The largest singular value -/

open FloatFormat (double)

namespace SingularValues

variable {s : SingularValues} {n : ℕ}

theorem lowerEnd_fst (s : SingularValues) (n : ℕ) :
    (s.lowerEnd n).1 = (double.midpoint n : ℤ) ^ 2 := by
  simp [lowerEnd, pow_two]

theorem total_mul_lowerEnd_snd (s : SingularValues) (n : ℕ) :
    s.total * (s.lowerEnd n).2 = 4 * ((s.factor : ℤ) ^ 2 * s.total) := by
  simp only [lowerEnd]
  push_cast
  ring

/-- Some singular value reaches a rung that the root of the mean reaches. -/
theorem le_largest_of_lt (hs : s.Proper) (hn : n ≤ double.top)
    (h : (double.midpoint n : ℤ) ^ 2 * s.polynomial.length <
      4 * ((s.factor : ℤ) ^ 2 * s.total)) : n ≤ s.largest := by
  have hlength : (1 : ℤ) ≤ s.polynomial.length := by
    obtain ⟨p, hp⟩ := hs.exists_eq_cons
    simp [hp]
  refine (le_largest_iff hs).mpr (.inr ⟨hn, (reaches_iff s n).mpr ?_⟩)
  rw [lowerEnd_fst, total_mul_lowerEnd_snd]
  have hle := le_mul_of_one_le_right (sq_nonneg (double.midpoint n : ℤ)) hlength
  exact ⟨(hle.trans_lt h).le, .inl h⟩

/-- No singular value exceeds the root of the sum of the squares. -/
theorem largest_lt_of_lt (hs : s.Proper) (hn : 0 < n)
    (h : 4 * ((s.factor : ℤ) ^ 2 * s.total) < (double.midpoint n : ℤ) ^ 2) : s.largest < n := by
  by_contra hle
  rcases (le_largest_iff hs).mp (Nat.not_lt.mp hle) with rfl | ⟨-, hreaches⟩
  · exact hn.false
  · have hreached := ((reaches_iff s n).mp hreaches).1
    rw [lowerEnd_fst, total_mul_lowerEnd_snd] at hreached
    exact (hreached.trans_lt h).false

/-! ## The tolerance -/

theorem units_of_one : double.units (1023 * double.binade) = double.one := by decide +kernel

theorem units_of_two_pow_52 : double.units (1075 * double.binade) = 2 ^ 52 * double.one := by
  decide +kernel

/-- A side of at most `2 ^ 52` is stored as a number between one and `2 ^ 52`. -/
theorem exists_side {side : ℕ} (h : 1 ≤ side) (h' : side ≤ 2 ^ 52) :
    ∃ r, (Binary.ofInt .double side : Double) = .num false r ∧ r.val ≠ double.top ∧
      double.one ≤ double.units r.val ∧ double.units r.val ≤ 2 ^ 52 * double.one := by
  have hside : Binary.ofInt .double side =
      .num false (double.nearest (side * double.one) 1) := by
    have hnonneg : decide ((side : ℤ) < 0) = false := by simp
    rw [Binary.ofInt, Binary.ofFraction, hnonneg, Int.natAbs_natCast]
    rfl
  have hlower : 1023 * double.binade ≤ (double.nearest (side * double.one) 1).val := by
    refine double.le_nearest Nat.one_pos (by decide) ?_
    rw [units_of_one, Nat.mul_one]
    exact Nat.le_mul_of_pos_left _ h
  have hupper : (double.nearest (side * double.one) 1).val ≤ 1075 * double.binade := by
    refine double.nearest_le Nat.one_pos (by decide) ?_
    rw [units_of_two_pow_52, Nat.mul_one]
    exact Nat.mul_le_mul_right _ h'
  refine ⟨_, hside, (hupper.trans_lt (by decide)).ne, ?_, ?_⟩
  · exact units_of_one.ge.trans (double.units_strictMono.monotone hlower)
  · exact (double.units_strictMono.monotone hupper).trans units_of_two_pow_52.le

/-- The factor of a tolerance lies between `2 ^ -52` and one, for a side of at most `2 ^ 52`. -/
theorem exists_sideFactor {side : ℕ} (h : 1 ≤ side) (h' : side ≤ 2 ^ 52) :
    ∃ q, (Binary.ofInt .double side * Binary.twoPowNeg .double 52 : Double) = .num false q ∧
      q.val ≠ double.top ∧ 2 ^ 1022 ≤ double.units q.val ∧ double.units q.val ≤ double.one := by
  have hlow : double.units (971 * double.binade) = 2 ^ 1022 := by decide +kernel
  have hpower : Binary.twoPowNeg .double 52 = .num false ⟨971 * double.binade, by decide⟩ := by
    decide +kernel
  obtain ⟨a, hside, htop, hone, hlarge⟩ := exists_side h h'
  -- The product with `2 ^ -52` lies between the two magnitudes, and so does what it is rounded to.
  have hlower : 971 * double.binade ≤
      (double.nearest (double.units a.val * 2 ^ 1022) double.one).val := by
    refine double.le_nearest double.one_pos (by decide) ?_
    rw [hlow, Nat.mul_comm]
    exact Nat.mul_le_mul_right _ hone
  have hupper : (double.nearest (double.units a.val * 2 ^ 1022) double.one).val ≤
      1023 * double.binade := by
    refine double.nearest_le double.one_pos (by decide) ?_
    rw [units_of_one]
    calc double.units a.val * 2 ^ 1022 ≤ 2 ^ 52 * double.one * 2 ^ 1022 :=
          Nat.mul_le_mul_right _ hlarge
      _ = double.one * double.one := by decide +kernel
  refine ⟨_, ?_, (hupper.trans_lt (by decide)).ne, ?_, ?_⟩
  · rw [hside, hpower, Binary.mul_num_of_finite htop (by decide), hlow]
    rfl
  · exact hlow.ge.trans (double.units_strictMono.monotone hlower)
  · exact (double.units_strictMono.monotone hupper).trans units_of_one.le

/-- The tolerance is an ordinary number if the largest singular value is well above the least
normal number and finite. -/
theorem ordinary_tolerance {side : ℕ} (h : 1 ≤ side) (h' : side ≤ 2 ^ 52)
    (hlow : 89 * double.binade ≤ s.largest) (htop : s.largest < double.top) :
    (s.tolerance side).Ordinary := by
  obtain ⟨q, hq, hqtop, hqlow, hqhigh⟩ := exists_sideFactor h h'
  have hunits : 2 ^ 140 ≤ double.units s.largest := by
    have hvalue : double.units (89 * double.binade) = 2 ^ 140 := by decide +kernel
    exact hvalue.ge.trans (double.units_strictMono.monotone hlow)
  rw [tolerance, hq, Binary.ofRung_eq _ htop.le, Binary.mul_num_of_finite htop.ne hqtop]
  constructor
  · have hlower : 2 * double.binade ≤
        (double.nearest (double.units s.largest * double.units q.val) double.one).val := by
      refine double.le_nearest double.one_pos (by decide) ?_
      calc double.units (2 * double.binade) * double.one ≤ 2 ^ 140 * 2 ^ 1022 := by decide +kernel
        _ ≤ double.units s.largest * double.units q.val := Nat.mul_le_mul hunits hqlow
    exact Nat.lt_of_lt_of_le (by decide) hlower
  · have hupper : (double.nearest (double.units s.largest * double.units q.val) double.one).val ≤
        s.largest :=
      double.nearest_le double.one_pos htop.le (Nat.mul_le_mul_left _ hqhigh)
    exact (hupper.trans_lt htop).ne

end SingularValues

/-! ## Matrices of limited magnitude -/

theorem abs_unitsOf_eq (x : Double) : ((|unitsOf x| : ℤ) : ℚ) = |x.value| * 2 ^ 1074 := by
  have hone : (double.one : ℚ) = 2 ^ 1074 := by
    rw [double.one_eq, Nat.cast_pow, Nat.cast_two]
    rfl
  have hvalue : x.value = unitsOf x / 2 ^ 1074 := by
    rw [← hone]
    cases x with
    | nan => simp [Binary.value, unitsOf]
    | num s r => rfl
  have hpos : (0 : ℚ) < 2 ^ 1074 := by positivity
  rw [hvalue, abs_div, abs_of_pos hpos, div_mul_cancel₀ _ hpos.ne', Int.cast_abs]

theorem abs_unitsOf_le {x : Double} (h : x.Within 900) : |unitsOf x| ≤ 2 ^ 1974 := by
  have hvalue : |x.value| ≤ 2 ^ 900 := by
    obtain ⟨hfinite, hzero | ⟨-, hle⟩⟩ := h
    · rw [(Binary.value_eq_zero_iff (Binary.isNaN_of_isFinite hfinite)).mpr hzero, abs_zero]
      positivity
    · exact hle
  have hunits : ((|unitsOf x| : ℤ) : ℚ) ≤ ((2 ^ 1974 : ℤ) : ℚ) := by
    rw [abs_unitsOf_eq, Int.cast_pow, Int.cast_two, show 1974 = 900 + 1074 from rfl, pow_add]
    exact mul_le_mul_of_nonneg_right hvalue (by positivity)
  exact Int.cast_le.mp hunits

theorem le_abs_unitsOf {x : Double} (h : x.Within 900) (hzero : ¬ x.isZero = true) :
    2 ^ 174 ≤ |unitsOf x| := by
  have hvalue := (h.2.resolve_left hzero).1
  have hunits : ((2 ^ 174 : ℤ) : ℚ) ≤ ((|unitsOf x| : ℤ) : ℚ) := by
    rw [abs_unitsOf_eq, Int.cast_pow, Int.cast_two]
    calc (2 : ℚ) ^ 174 = 1 / 2 ^ 900 * 2 ^ 1074 := by
          rw [show 1074 = 900 + 174 from rfl, pow_add, ← mul_assoc, one_div,
            inv_mul_cancel₀ (by positivity), one_mul]
      _ ≤ |x.value| * 2 ^ 1074 := mul_le_mul_of_nonneg_right hvalue (by positivity)
  exact Int.cast_le.mp hunits

section Within

variable {width : ℕ} {rows : List (List Double)}

/-- The largest singular value is no less than the greatest magnitude over the root of the number of
singular values. -/
theorem le_largest_of_within (hlength : ∀ row ∈ rows, row.length = width) (hwidth : width ≤ 2 ^ 50)
    (h : ∀ row ∈ rows, ∀ x ∈ row, x.Within 900) {row : List Double} (hrow : row ∈ rows) {x : Double}
    (hx : x ∈ row) (hzero : ¬ x.isZero = true) :
    89 * double.binade ≤ (SingularValues.ofRows width rows).largest := by
  obtain ⟨p, hp, hdegree⟩ := SingularValues.exists_polynomial width rows
  have hsquares : (2 ^ 174 : ℤ) ^ 2 ≤ squares (rows.map (·.map unitsOf)) := by
    calc (2 ^ 174 : ℤ) ^ 2 ≤ |unitsOf x| ^ 2 :=
          pow_le_pow_left₀ (by positivity) (le_abs_unitsOf (h row hrow x hx) hzero) 2
      _ = unitsOf x ^ 2 := sq_abs _
      _ ≤ squares (rows.map (·.map unitsOf)) :=
          sq_le_squares (List.mem_map_of_mem hrow) (List.mem_map_of_mem hx)
  have hcount : ((p.length + 1 : ℕ) : ℤ) ≤ 2 ^ 51 := by
    have hle : p.length ≤ 2 ^ 50 := hdegree ▸ (Nat.min_le_right _ _).trans hwidth
    have hpower : (2 : ℤ) ^ 51 = 2 ^ 50 + 2 ^ 50 := by norm_num
    have hle' : (p.length : ℤ) ≤ 2 ^ 50 := by exact_mod_cast hle
    rw [hpower]
    push_cast
    linarith
  have hbound : (double.midpoint (89 * double.binade) : ℤ) ^ 2 * 2 ^ 51 < 4 * (2 ^ 174) ^ 2 := by
    decide +kernel
  refine SingularValues.le_largest_of_lt (SingularValues.proper_ofRows width rows) (by decide) ?_
  rw [total_ofRows hlength, hp, List.length_cons]
  calc (double.midpoint (89 * double.binade) : ℤ) ^ 2 * ((p.length + 1 : ℕ) : ℤ)
      ≤ (double.midpoint (89 * double.binade) : ℤ) ^ 2 * 2 ^ 51 :=
        mul_le_mul_of_nonneg_left hcount (sq_nonneg _)
    _ < 4 * (2 ^ 174) ^ 2 := hbound
    _ ≤ 4 * squares (rows.map (·.map unitsOf)) := mul_le_mul_of_nonneg_left hsquares (by norm_num)

theorem squares_units_le (hlength : ∀ row ∈ rows, row.length = width)
    (hrows : rows.length ≤ 2 ^ 50) (hwidth : width ≤ 2 ^ 50) {greatest : ℤ}
    (h : ∀ row ∈ rows, ∀ x ∈ row, |unitsOf x| ≤ greatest) :
    squares (rows.map (·.map unitsOf)) ≤ 2 ^ 50 * (2 ^ 50 * greatest ^ 2) := by
  have hlength' : ∀ row ∈ rows.map (·.map unitsOf), row.length = width := by simpa using hlength
  have hentries : ∀ row ∈ rows.map (·.map unitsOf), ∀ a ∈ row, |a| ≤ greatest := by
    simpa only [List.forall_mem_map] using h
  have hm : (rows.length : ℤ) ≤ 2 ^ 50 := by exact_mod_cast hrows
  have hn : (width : ℤ) ≤ 2 ^ 50 := by exact_mod_cast hwidth
  have hsum := squares_le hlength' hentries
  rw [List.length_map] at hsum
  exact hsum.trans (mul_le_mul hm (mul_le_mul_of_nonneg_right hn (sq_nonneg _)) (by positivity)
    (by positivity))

/-- The largest singular value is no more than the greatest magnitude times the root of the number
of entries. -/
theorem largest_lt_of_within (hlength : ∀ row ∈ rows, row.length = width)
    (hrows : rows.length ≤ 2 ^ 50) (hwidth : width ≤ 2 ^ 50)
    (h : ∀ row ∈ rows, ∀ x ∈ row, x.Within 900) :
    (SingularValues.ofRows width rows).largest < double.top := by
  have hsquares := squares_units_le hlength hrows hwidth fun row hrow x hx =>
    abs_unitsOf_le (h row hrow x hx)
  have hbound : 4 * (2 ^ 50 * (2 ^ 50 * (2 ^ 1974) ^ 2)) < (double.midpoint double.top : ℤ) ^ 2 := by
    decide +kernel
  refine SingularValues.largest_lt_of_lt (SingularValues.proper_ofRows width rows) (by decide) ?_
  rw [total_ofRows hlength]
  exact (mul_le_mul_of_nonneg_left hsquares (by norm_num)).trans_lt hbound

/-- The rank of a matrix with sides that are not huge and with zeros and numbers of medium size does
not depend on its scale. -/
theorem steady_of_within (hlength : ∀ row ∈ rows, row.length = width)
    (hrows : rows.length ≤ 2 ^ 50) (hwidth : width ≤ 2 ^ 50)
    (h : ∀ row ∈ rows, ∀ x ∈ row, x.Within 900) : Steady width rows := by
  by_cases hzero : ∀ row ∈ rows, ∀ x ∈ row, x.isZero = true
  · exact .inl hzero
  push Not at hzero
  obtain ⟨row, hrow, x, hx, hne⟩ := hzero
  have hlargest := le_largest_of_within hlength hwidth h hrow hx hne
  have htop := largest_lt_of_within hlength hrows hwidth h
  refine .inr ⟨Nat.lt_of_lt_of_le (by decide) hlargest,
    SingularValues.ordinary_tolerance ?_ ?_ hlargest htop⟩
  · exact (List.length_pos_of_mem hrow).trans_le (Nat.le_max_left _ _)
  · exact Nat.max_le.mpr ⟨hrows.trans (by decide), hwidth.trans (by decide)⟩

end Within

/-- Ranks of exact singular values do not depend on the scale up to `2 ^ 900` in either direction.
-/
instance : ScaleInvariant 900 where
  rank?_scaled k width rows rows' h hlength hrows hwidth hwithin hwithin' := by
    have hsteady := steady_of_within hlength hrows hwidth hwithin
    have hsteady' :=
      steady_of_within (h.forall_length hlength) (h.length_eq ▸ hrows) hwidth hwithin'
    show roundedRank? width rows' = roundedRank? width rows
    rw [roundedRank?_of_finite width h.allFinite_left,
      roundedRank?_of_finite width h.allFinite_right,
      significant_scaled h hsteady hsteady']

end StandardForm.Spectrum
