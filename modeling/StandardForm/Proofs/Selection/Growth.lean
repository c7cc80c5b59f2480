import StandardForm.Proofs.Selection.Repeats

/-!
# Growth of the entries in an elimination

A pivot is the greatest of the entries that it is searched among, so a step subtracts from each of
them at most about as much as the greatest one, and what rounding adds is small beside that. Where
the pivots are searched, each step multiplies the greatest magnitude by no more than eight. A pivot
that exceeds the default threshold is not small in comparison with the matrix either, so that no
quotient overflows. Entries that leave room for these factors give finite pivots throughout.
-/

namespace StandardForm

namespace Binary

variable {f : FloatFormat} {x y : Binary f}

theorem greatestPower_double : greatestPower .double = 2 ^ 1023 := by
  decide +kernel

/-- A finite number that is not zero is at least one unit. -/
theorem unit_le_abs_value (hx : x.isFinite = true) (hzero : x.isZero = false) :
    1 / (f.one : ℝ) ≤ |(x.value : ℝ)| := by
  cases x with
  | nan => cases hx
  | num s r =>
    have hr : r.val ≠ 0 := beq_eq_false_iff_ne.mp hzero
    have hunits : (1 : ℚ) ≤ f.units r.val := by exact_mod_cast units_pos hr
    have hle : 1 / (f.one : ℚ) ≤ |(num s r : Binary f).value| := by
      rw [abs_value_num]
      exact div_le_div_of_nonneg_right hunits (by positivity)
    have hreal := (Rat.cast_le (K := ℝ)).mpr hle
    push_cast at hreal
    exact hreal

theorem value_num_false_nonneg (r : Fin (f.top + 1)) : 0 ≤ (num false r : Binary f).value := by
  rw [value_num, if_neg Bool.false_ne_true, one_mul]
  positivity

theorem abs_value_le_of_abs_le (hx : x.isNaN = false) (hy : y.isNaN = false)
    (h : x.abs ≤ y.abs) : |x.value| ≤ |y.value| := by
  have hnan (z : Binary f) : z.abs.isNaN = z.isNaN := by cases z <;> rfl
  rw [← value_abs, ← value_abs]
  exact (value_le_iff ((hnan x).trans hx) ((hnan y).trans hy)).mpr h

/-- A multiple of a quotient, the multiple not exceeding the divisor. -/
theorem abs_mul_div_le {a c p : Binary f} {B : ℝ} (ha : a.isFinite = true) (hp : p.isFinite = true)
    (hzero : p.isZero = false) (haB : |(a.value : ℝ)| ≤ B) (hpB : |(p.value : ℝ)| ≤ B)
    (hcp : |(c.value : ℝ)| ≤ |(p.value : ℝ)|)
    (hquotient : |(a.value : ℝ) / p.value| ≤ greatestPower f) :
    |(c.value : ℝ) * (a / p).value| ≤ 2 * B := by
  have hB := (abs_nonneg _).trans hpB
  have herror := abs_mul_div_sub_le ha hp hzero hquotient
  have hround := rounding_le_eighth (f := f) (abs_nonneg (a.value : ℝ))
  have hunit : |(p.value : ℝ)| * (1 / (2 * f.one)) ≤ |(p.value : ℝ)| * (1 / 2) := by
    refine mul_le_mul_of_nonneg_left ?_ (abs_nonneg _)
    linarith [half_unit_le f, eight_mul_rounding_le f]
  have hsplit := abs_add_le ((p.value : ℝ) * (a / p).value - a.value) a.value
  rw [sub_add_cancel] at hsplit
  calc |(c.value : ℝ) * (a / p).value|
      ≤ |(p.value : ℝ) * (a / p).value| := by
        rw [abs_mul, abs_mul]
        exact mul_le_mul_of_nonneg_right hcp (abs_nonneg _)
    _ ≤ 2 * B := by
        rw [one_div_mul_eq_div] at herror
        linarith

/-- An entry less a multiple of a quotient, all of them bounded and the multiple not exceeding the
divisor: the result is finite and at most eight times the bound. -/
theorem abs_value_sub_mul_div_le {a c p : Binary f} {B : ℝ} (hx : x.isFinite = true)
    (ha : a.isFinite = true) (hc : c.isFinite = true) (hp : p.isFinite = true)
    (hzero : p.isZero = false) (hxB : |(x.value : ℝ)| ≤ B) (haB : |(a.value : ℝ)| ≤ B)
    (hpB : |(p.value : ℝ)| ≤ B) (hcp : |(c.value : ℝ)| ≤ |(p.value : ℝ)|)
    (hquotient : |(a.value : ℝ) / p.value| ≤ greatestPower f) (hB : 8 * B ≤ greatestPower f) :
    (x - c * (a / p)).isFinite = true ∧ |((x - c * (a / p)).value : ℝ)| ≤ 8 * B := by
  have hunit := (unit_le_abs_value hp hzero).trans hpB
  have hB0 : 0 ≤ B := (abs_nonneg _).trans hpB
  have hproduct := abs_mul_div_le ha hp hzero haB hpB hcp hquotient
  have hm := rounds_mul hc (rounds_div ha hp hzero hquotient).isFinite
    (hproduct.trans (by linarith))
  have hdifference : |(x.value : ℝ) - (c * (a / p)).value| ≤ 4 * B := by
    have hle := abs_sub (x.value : ℝ) (c * (a / p)).value
    linarith [hm.abs_le hproduct hunit]
  have hd := rounds_sub hx hm.isFinite (hdifference.trans (by linarith))
  refine ⟨hd.isFinite, ?_⟩
  linarith [hd.abs_le hdifference hunit]

end Binary

namespace Selection

/-! ## One step -/

variable {f : FloatFormat}

/-- Finite from position `r` on, and there bounded. -/
def BoundedFrom (r : ℕ) (B : ℝ) (xs : List (Binary f)) : Prop :=
  ∀ k, r ≤ k → (xs.getD k 0).isFinite = true ∧ |((xs.getD k 0).value : ℝ)| ≤ B

/-- A step multiplies the bound by eight, if no quotient overflows. -/
theorem PivotStep.boundedFrom_apply {s : PivotStep (Binary f)} {xs : List (Binary f)} {B : ℝ}
    (hs : s.Sound) (hfits : s.Fits xs.length) (h : BoundedFrom s.target B xs)
    (hpivot : |(s.pivot.value : ℝ)| ≤ B)
    (hquotient : B / |(s.pivot.value : ℝ)| ≤ Binary.greatestPower f)
    (hB : 8 * B ≤ Binary.greatestPower f) : BoundedFrom (s.target + 1) (8 * B) (s.apply xs) := by
  have hexchange (k : ℕ) (hk : s.target ≤ k) :
      ((exchange s.target s.source xs).getD k 0).isFinite = true ∧
        |(((exchange s.target s.source xs).getD k 0).value : ℝ)| ≤ B := by
    rw [getD_exchange hfits.target_lt hfits.source_lt]
    exact h _ (le_swap hs.target_le hk)
  have hBnonneg : 0 ≤ B := (abs_nonneg _).trans hpivot
  intro k hk
  by_cases hlt : k < xs.length
  · obtain ⟨htarget, htargetB⟩ := hexchange s.target (Nat.le_refl _)
    obtain ⟨hentry, hentryB⟩ := hexchange k (by omega)
    have hcolumn := hs.finite (k := k) (by omega)
    have hle : |((s.column.getD k 0).value : ℝ)| ≤ |(s.pivot.value : ℝ)| := by
      have h := Binary.abs_value_le_of_abs_le (Binary.isNaN_of_isFinite hcolumn)
        (Binary.isNaN_of_isFinite hs.pivot_finite) (hs.abs_le k (by omega))
      exact_mod_cast h
    rw [getD_apply_of_ne hfits hlt (by omega)]
    refine Binary.abs_value_sub_mul_div_le hentry htarget hcolumn hs.pivot_finite hs.pivot_ne_zero
      hentryB htargetB hpivot hle ?_ hB
    rw [abs_div]
    exact (div_le_div_of_nonneg_right htargetB (abs_nonneg _)).trans hquotient
  · rw [PivotStep.getD_of_length_le (by rw [length_apply hfits]; omega)]
    refine ⟨Binary.Represents.zero.1, ?_⟩
    rw [Binary.value_zero, Rat.cast_zero, abs_zero]
    linarith

/-! ## The threshold -/

section Threshold

variable {rows : List (List Double)}

def largest (rows : List (List Double)) : ℝ := (largestMagnitude rows).value

theorem largest_nonneg (hfinite : ∀ row ∈ rows, ∀ x ∈ row, x.isFinite = true) :
    0 ≤ largest rows := by
  obtain ⟨r, -, hlargest⟩ := exists_largestMagnitude_eq hfinite
  rw [largest, hlargest, Rat.cast_nonneg]
  exact Binary.value_num_false_nonneg r

theorem abs_value_le_largest (hfinite : ∀ row ∈ rows, ∀ x ∈ row, x.isFinite = true)
    {row : List Double} (hrow : row ∈ rows) {x : Double} (hx : x ∈ row) :
    |(x.value : ℝ)| ≤ largest rows := by
  obtain ⟨r, -, hlargest⟩ := exists_largestMagnitude_eq hfinite
  have hnan : (largestMagnitude rows).isNaN = false := by
    rw [hlargest]
    rfl
  have habs : x.abs.isNaN = false :=
    Binary.isNaN_of_isFinite ((Binary.isFinite_abs x).trans (hfinite row hrow x hx))
  have hle := abs_le_largestMagnitude hnan hrow hx
  have hvalue := (Rat.cast_le (K := ℝ)).mpr ((Binary.value_le_iff habs hnan).mpr hle)
  rw [Binary.value_abs, Rat.cast_abs] at hvalue
  exact hvalue

theorem isFinite_and_abs_le_largest (hfinite : ∀ row ∈ rows, ∀ x ∈ row, x.isFinite = true)
    {row : List Double} (hrow : row ∈ rows) : BoundedFrom 0 (largest rows) row := by
  intro k _
  by_cases hk : k < row.length
  · rw [List.getD_eq_getElem _ _ hk]
    exact ⟨hfinite row hrow _ (List.getElem_mem hk),
      abs_value_le_largest hfinite hrow (List.getElem_mem hk)⟩
  · rw [PivotStep.getD_of_length_le (Nat.le_of_not_lt hk)]
    refine ⟨Binary.Represents.zero.1, ?_⟩
    rw [Binary.value_zero, Rat.cast_zero, abs_zero]
    exact largest_nonneg hfinite

/-- What exceeds the default threshold is not small beside the matrix. -/
theorem largest_le_of_not_covers (hfinite : ∀ row ∈ rows, ∀ x ∈ row, x.isFinite = true)
    (hroom : largest rows ≤ Binary.greatestPower .double) {x : Double} (hx : x.isFinite = true)
    (hzero : x.isZero = false)
    (h : (Tolerance.standard.timesReal (largestMagnitude rows)).covers x.abs = false) :
    largest rows ≤ 2 ^ 27 * |(x.value : ℝ)| := by
  obtain ⟨r, hr, hlargest⟩ := exists_largestMagnitude_eq hfinite
  have hnonneg := largest_nonneg hfinite
  obtain ⟨hthreshold, hge⟩ := standard_mul_ge (x := largestMagnitude rows)
    (by rw [hlargest]; exact bne_iff_ne.mpr hr) hnonneg hroom
  have hlt : ((Binary.twoPowNeg .double 26 * largestMagnitude rows).value : ℝ) <
      |(x.value : ℝ)| := by
    have hnot : ¬ x.abs ≤ Binary.twoPowNeg .double 26 * largestMagnitude rows :=
      of_decide_eq_false h
    rw [← Binary.value_le_iff
      (Binary.isNaN_of_isFinite ((Binary.isFinite_abs x).trans hx))
      (Binary.isNaN_of_isFinite hthreshold), Binary.value_abs, not_le] at hnot
    exact_mod_cast hnot
  have hunit := Binary.unit_le_abs_value hx hzero
  have hhalf : 1 / (2 * (FloatFormat.double.one : ℝ)) = 1 / FloatFormat.double.one / 2 := by
    field_simp
  rw [hhalf] at hge
  change 7 / 8 * (1 / 2 ^ 26 * largest rows) - _ ≤ _ at hge
  linarith

end Threshold

/-! ## Runs -/

/-- The entries that the default tolerance makes negligible. -/
abbrev belowStandard (rows : List (List Double)) : Double → Bool :=
  (Tolerance.standard.timesReal (largestMagnitude rows)).covers

/-- Finite pivots, and in every row finite and bounded entries where the next pivot is searched. -/
structure Contained (rows : List (List Double)) (steps : List (PivotStep Double)) : Prop where
  pivots : ∀ s ∈ steps, s.pivot.isFinite = true
  bounded : ∀ row ∈ rows,
    BoundedFrom steps.length (8 ^ steps.length * largest rows) (reduce steps row)

section Run

variable {rows : List (List Double)} {n : ℕ}

/-- A pivot that is not small in comparison with the matrix keeps the quotients in range. -/
theorem div_pivot_le {k : ℕ} {L p P : ℝ} (hL : L ≤ 2 ^ 27 * p) (hp : 0 < p)
    (hP : (8 : ℝ) ^ (k + 1) * 2 ^ 27 ≤ P) : 8 ^ k * L / p ≤ P := by
  refine le_trans ?_ hP
  rw [div_le_iff₀ hp]
  calc 8 ^ k * L ≤ 8 ^ k * (2 ^ 27 * p) := mul_le_mul_of_nonneg_left hL (by positivity)
    _ ≤ 8 ^ (k + 1) * (2 ^ 27 * p) :=
        mul_le_mul_of_nonneg_right (pow_le_pow_right₀ (by norm_num) (Nat.le_succ k)) (by positivity)
    _ = 8 ^ (k + 1) * 2 ^ 27 * p := by ring

/-- A further step keeps the entries contained as long as there is room for one. -/
theorem Contained.step (hfinite : ∀ row ∈ rows, ∀ x ∈ row, x.isFinite = true)
    (hrows : ∀ row ∈ rows, row.length = n) {steps steps' : List (PivotStep Double)}
    {row : List Double} (hrow : row ∈ rows) (hfits : ∀ s ∈ steps, s.Fits n)
    (h : Contained rows steps) (hstep : pivotStep (belowStandard rows) steps row = some steps')
    (hroom : 8 ^ steps'.length * largest rows ≤ Binary.greatestPower .double)
    (hquotient : (8 : ℝ) ^ steps'.length * 2 ^ 27 ≤ Binary.greatestPower .double) :
    Contained rows steps' := by
  have hfitsrow : ∀ s ∈ steps, s.Fits row.length := (hrows row hrow).symm ▸ hfits
  obtain ⟨s, rfl, hmade⟩ := exists_madeFor hfitsrow hstep
  rw [List.length_append, List.length_singleton] at hroom hquotient
  -- The pivot is one of the entries that are bounded.
  obtain ⟨hentry, hentryB⟩ := h.bounded row hrow _ hmade.target_le
  rw [← hmade.pivot_eq] at hentry hentryB
  have hsound := hmade.sound (fun x hx => covers_of_isZero hfinite hx) hentry
  have hone : (1 : ℝ) ≤ 8 ^ (steps.length + 1) := one_le_pow₀ (by norm_num)
  have hbeside : largest rows ≤ 2 ^ 27 * |(s.pivot.value : ℝ)| :=
    largest_le_of_not_covers hfinite
      ((le_mul_of_one_le_left (largest_nonneg hfinite) hone).trans hroom) hentry
      hsound.pivot_ne_zero hmade.exceeds_pivot
  have hpos := Binary.abs_value_pos hentry hsound.pivot_ne_zero
  refine ⟨fun t ht => ?_, fun other hother => ?_⟩
  · rcases List.mem_append.mp ht with ht | ht
    · exact h.pivots t ht
    · rw [List.mem_singleton.mp ht]
      exact hentry
  · have hs : s.Fits (reduce steps other).length := by
      rw [length_reduce ((hrows other hother).symm ▸ hfits), hrows other hother, ← hrows row hrow]
      exact fits_of_pivotStep hfitsrow hstep s (List.mem_append_right _ (List.mem_singleton_self s))
    have hfactor : 8 * (8 ^ steps.length * largest rows) =
        8 ^ (steps.length + 1) * largest rows := by
      rw [pow_succ]
      ring
    have hbounded := PivotStep.boundedFrom_apply hsound hs
      (hmade.target_eq ▸ h.bounded other hother) hentryB (div_pivot_le hbeside hpos hquotient)
      (hfactor.trans_le hroom)
    rw [reduce_concat, List.length_append, List.length_singleton, ← hmade.target_eq]
    rwa [hfactor, ← hmade.target_eq] at hbounded

/-- With room for all its steps, an elimination has finite pivots throughout. -/
theorem contained_stepsBefore (hfinite : ∀ row ∈ rows, ∀ x ∈ row, x.isFinite = true)
    (hrows : ∀ row ∈ rows, row.length = n) {room : ℕ}
    (hroom : 8 ^ room * largest rows ≤ Binary.greatestPower .double)
    (hquotient : (8 : ℝ) ^ room * 2 ^ 27 ≤ Binary.greatestPower .double) {j : ℕ}
    (hj : j ≤ rows.length) (hcount : (stepsBefore (belowStandard rows) rows j).length ≤ room) :
    Contained rows (stepsBefore (belowStandard rows) rows j) := by
  refine (stepsBefore_induction (motive := fun steps => (∀ s ∈ steps, s.Fits n) ∧
    (steps.length ≤ room → Contained rows steps)) ⟨by simp, fun _ => ⟨by simp, fun row hrow => ?_⟩⟩
    (fun steps row hrow steps' ih hstep => ⟨?_, fun hle => ?_⟩) hj).2 hcount
  · simpa [reduce] using isFinite_and_abs_le_largest hfinite hrow
  · exact hrows row hrow ▸ fits_of_pivotStep ((hrows row hrow).symm ▸ ih.1) hstep
  · have hlength := length_of_pivotStep hstep
    have hpower : (8 : ℝ) ^ steps'.length ≤ 8 ^ room := pow_le_pow_right₀ (by norm_num) hle
    refine (ih.2 (by omega)).step hfinite hrows hrow ih.1 hstep ?_ ?_
    · exact (mul_le_mul_of_nonneg_right hpower (largest_nonneg hfinite)).trans hroom
    · exact (mul_le_mul_of_nonneg_right hpower (by positivity)).trans hquotient

end Run

end Selection

end StandardForm
