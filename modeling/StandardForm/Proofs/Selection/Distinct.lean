import StandardForm.Proofs.Selection.Growth
import StandardForm.Proofs.Selection.Reprojection

/-!
# Selections name different rows

What is selected from a matrix is named by increasing indices, of no more rows than the matrix has
rows or columns, and of no two rows that are the same. Elimination never names too many, and no
repeated row while its pivots are finite. Projection names at most as many as there are columns, and
no repeated row, as long as its directions stay nearly orthonormal. Neither is so for every matrix:
entries near the greatest number make a pivot overflow, and rows that are nearly parallel lose the
directions.
-/

namespace StandardForm.Selection

open Binary

/-- What the indices of a selection from an `m` by `n` matrix promise. -/
structure NamesRows (m n : ℕ) (rows : List (List Double)) (kept : List ℕ) : Prop where
  increasing : kept.Pairwise (· < ·)
  lt_of_mem : ∀ i ∈ kept, i < m
  length_le : kept.length ≤ min m n
  distinct : kept.Pairwise fun i j => rows[i]? ≠ rows[j]?

section Keep

variable {σ ρ : Type} {accept : σ → ρ → Option σ} {rows : List ρ}

/-- Repeated rows among those kept can be looked for pair by pair. -/
theorem pairwise_ne_of_keep {s : σ}
    (h : ∀ i ∈ keep accept 0 s rows, ∀ j ∈ keep accept 0 s rows, i < j → rows[i]? ≠ rows[j]?) :
    (keep accept 0 s rows).Pairwise fun i j => rows[i]? ≠ rows[j]? :=
  (pairwise_keep 0 s rows).imp_of_mem fun hi hj hij => h _ hi _ hj hij

end Keep

section Elimination

variable {m n : ℕ} {rows : List (List Double)}

theorem length_byElimination_le {negligible : Double → Bool} (hm : rows.length = m)
    (hn : ∀ row ∈ rows, row.length = n) : (byElimination negligible rows).length ≤ min m n := by
  refine le_min (hm ▸ length_keep_le 0 [] rows) ?_
  rw [length_byElimination]
  exact length_stepsBefore_le hn (Nat.le_refl _)

/-- Entries that stay below the greatest number however much elimination lets them grow. -/
structure RoomToGrow (m n : ℕ) (rows : List (List Double)) : Prop where
  count : min m n ≤ 332
  room : 8 ^ min m n * largest rows ≤ 2 ^ 1023

/-- Elimination has finite pivots if the entries leave room for them. -/
theorem RoomToGrow.isFinite_pivot (h : RoomToGrow m n rows) (hm : rows.length = m)
    (hn : ∀ row ∈ rows, row.length = n) (hfinite : ∀ row ∈ rows, ∀ x ∈ row, x.isFinite = true)
    {j : ℕ} (hj : j ≤ rows.length) :
    ∀ s ∈ stepsBefore (belowStandard rows) rows j, s.pivot.isFinite = true := by
  have hpower : (greatestPower .double : ℝ) = 2 ^ 1023 := by
    rw [greatestPower_double, Rat.cast_pow, Rat.cast_ofNat]
  have hroom : 8 ^ min m n * largest rows ≤ (greatestPower .double : ℝ) := hpower ▸ h.room
  refine (contained_stepsBefore hfinite hn hroom ?_ hj ?_).pivots
  · rw [hpower]
    calc (8 : ℝ) ^ min m n * 2 ^ 27 ≤ 8 ^ 332 * 2 ^ 27 :=
          mul_le_mul_of_nonneg_right (pow_le_pow_right₀ (by norm_num) h.count) (by positivity)
      _ = 2 ^ 1023 := by
          rw [show (8 : ℝ) = 2 ^ 3 by norm_num, ← pow_mul, ← pow_add]
  · refine le_min ?_ (length_stepsBefore_le hn hj)
    rw [length_stepsBefore]
    exact (length_keep_le 0 [] _).trans ((List.length_take_le _ _).trans (hm ▸ hj))

end Elimination

section Projection

variable {m n : ℕ} {rows : List (List Double)}

theorem length_byProjection :
    (byProjection beyondStandard rows).length = (directions rows).length := by
  have h : (directions rows).length = 0 + (byProjection beyondStandard rows).length := by
    refine measure_finalState (fun basis row basis' hstep => ?_) 0 [] rows
    rw [(projectionStep_eq_some_iff.mp hstep).2.2, List.length_append, List.length_singleton]
  rw [h, Nat.zero_add]

/-- At most as many rows are kept as there are columns, while the directions are independent. -/
theorem length_byProjection_le (hm : rows.length = m) {η : ℝ} (hη : 0 ≤ η) (hlt : η < 1)
    (hnear : NearlyOrthonormal η (family n (directions rows))) :
    (byProjection beyondStandard rows).length ≤ min m n := by
  refine le_min (hm ▸ length_keep_le 0 [] rows) ?_
  rw [length_byProjection]
  simpa using hnear.card_le hη hlt

/-- Lengths within four hundred powers of two of one are resolved in 256 dimensions. -/
theorem resolves_double {A : ℝ} (hn : 0 < n) (hn256 : n ≤ 256) (hlower : 1 / 2 ^ 400 ≤ A)
    (hupper : A ≤ 2 ^ 400) : Resolves .double n A := by
  have hpos : 0 < A := lt_of_lt_of_le (by positivity) hlower
  have hn' : (n : ℝ) ≤ 2 ^ 8 := by
    rw [show (2 : ℝ) ^ 8 = (256 : ℕ) by norm_num]
    exact Nat.cast_le.mpr hn256
  have hprecision : (2 : ℝ) ^ FloatFormat.double.precision = 2 ^ 53 := rfl
  have hone : 1 / (2 * (FloatFormat.double.one : ℝ)) = 1 / 2 ^ 1075 := by
    rw [FloatFormat.one_eq, Nat.cast_pow, Nat.cast_ofNat, ← pow_succ']
    rfl
  have hround : 1 / 2 ^ 453 ≤ A / 2 ^ 53 := by
    calc (1 : ℝ) / 2 ^ 453 = 1 / 2 ^ 400 / 2 ^ 53 := by rw [div_div, ← pow_add]
      _ ≤ A / 2 ^ 53 := div_le_div_of_nonneg_right hlower (by positivity)
  have hpower {k : ℕ} (hk : k ≤ 1075) : (1 : ℝ) / 2 ^ 1075 ≤ 1 / 2 ^ k :=
    one_div_le_one_div_of_le (by positivity) (pow_le_pow_right₀ (by norm_num) hk)
  refine ⟨hpos, hn, ?_, ?_, ?_, ?_⟩
  · rw [hprecision]
    calc (n : ℝ) ^ 2 * 2 ^ 37 ≤ (2 ^ 8) ^ 2 * 2 ^ 37 := by gcongr
      _ = 2 ^ 53 := by norm_num
  · rw [hone, hprecision]
    exact (hpower (by norm_num)).trans hround
  · rw [hone, hprecision]
    calc (1 : ℝ) / 2 ^ 1075 ≤ 1 / 2 ^ 906 := hpower (by norm_num)
      _ = (1 / 2 ^ 453) ^ 2 := by rw [div_pow, one_pow, ← pow_mul]
      _ ≤ (A / 2 ^ 53) ^ 2 := pow_le_pow_left₀ (by positivity) hround 2
  · rw [greatestPower_double, Rat.cast_pow, Rat.cast_ofNat]
    have hsquare : A ^ 2 ≤ 2 ^ 800 := by
      calc A ^ 2 ≤ (2 ^ 400) ^ 2 := pow_le_pow_left₀ hpos.le hupper 2
        _ = 2 ^ 800 := by rw [← pow_mul]
    have hle {k : ℕ} (hk : k ≤ 800) : (2 : ℝ) ^ k ≤ 2 ^ 800 :=
      pow_le_pow_right₀ (by norm_num) hk
    have hsum : 1 + A + A ^ 2 ≤ 2 ^ 2 * 2 ^ 800 := by
      have h0 := hle (Nat.zero_le 800)
      have h1 := hupper.trans (hle (k := 400) (by norm_num))
      rw [pow_zero] at h0
      generalize (2 : ℝ) ^ 800 = bound at *
      linarith
    calc (2 : ℝ) ^ 30 * (n * (1 + A + A ^ 2)) ≤ 2 ^ 30 * (2 ^ 8 * (2 ^ 2 * 2 ^ 800)) := by gcongr
      _ = 2 ^ 840 := by rw [← pow_add, ← pow_add, ← pow_add]
      _ ≤ 2 ^ 1023 := pow_le_pow_right₀ (by norm_num) (by norm_num)

/-- Rows of moderate length, with directions that rounding leaves nearly orthonormal. -/
structure KeepsDirections (n : ℕ) (rows : List (List Double)) : Prop where
  dimension_le : n ≤ 256
  lengths : ∀ row ∈ rows, realVector n row ≠ 0 →
    1 / 2 ^ 400 ≤ ‖realVector n row‖ ∧ ‖realVector n row‖ ≤ 2 ^ 400
  near : NearlyOrthonormal (1 / 2 ^ 30) (family n (directions rows))

theorem KeepsDirections.staysNear (h : KeepsDirections n rows)
    (hrows : ∀ row ∈ rows, IsVector n row) : StaysNear (1 / 2 ^ 30) n rows := by
  refine ⟨hrows, fun row hrow hne => ?_, by positivity, by norm_num, h.near⟩
  have hn : 0 < n := by
    rcases Nat.eq_zero_or_pos n with rfl | hn
    · exact absurd (Subsingleton.elim _ _) hne
    · exact hn
  obtain ⟨hlower, hupper⟩ := h.lengths row hrow hne
  exact resolves_double hn h.dimension_le hlower hupper

end Projection

/-- The indices that both selections give come in order and are those of rows. Elimination gives at
most as many as the matrix has rows or columns, and none of two equal rows while its pivots are
finite, as they are where the entries leave room to grow. Projection gives at most as many while the
directions are nearly orthonormal, and none of two equal rows if they stay so. -/
theorem independentRows_namesRows {t : Tensor Double} {m n : ℕ} (ht : t.shape = [m, n])
    (hfinite : ∀ x ∈ t.entries, x.isFinite = true) :
    (∃ kept, independentRows t (.scalar (.real (.twoPowNeg .double 26))) .column = .ok kept ∧
      kept.Pairwise (· < ·) ∧ (∀ i ∈ kept, i < m) ∧ kept.length ≤ min m n ∧
      ((∀ j ≤ m, ∀ s ∈ stepsBefore (belowStandard t.rows) t.rows j, s.pivot.isFinite = true) →
        NamesRows m n t.rows kept) ∧
      (RoomToGrow m n t.rows → NamesRows m n t.rows kept)) ∧
    ∃ kept, independentRows t (.scalar (.real (.twoPowNeg .double 26))) .row = .ok kept ∧
      kept.Pairwise (· < ·) ∧ (∀ i ∈ kept, i < m) ∧
      (∀ η : ℝ, 0 ≤ η → η < 1 → NearlyOrthonormal η (family n (directions t.rows)) →
        kept.length ≤ min m n) ∧
      (KeepsDirections n t.rows → NamesRows m n t.rows kept) := by
  have hm : t.rows.length = m := Tensor.length_rows ht
  have hn : ∀ row ∈ t.rows, row.length = n := fun row hrow => Tensor.length_of_mem_rows ht hrow
  have hrows : ∀ row ∈ t.rows, ∀ x ∈ row, x.isFinite = true := fun row hrow x hx =>
    hfinite x (Tensor.mem_entries_of_mem_rows ht hrow hx)
  have hinRange {σ : Type} {accept : σ → List Double → Option σ} {s : σ} :
      ∀ i ∈ keep accept 0 s t.rows, i < m := fun i hi => by
    simpa [hm] using (bounds_of_mem_keep hi).2
  constructor
  · have hlength : (byElimination (belowStandard t.rows) t.rows).length ≤ min m n :=
      length_byElimination_le hm hn
    have hnames (hpivots : ∀ j ≤ m, ∀ s ∈ stepsBefore (belowStandard t.rows) t.rows j,
        s.pivot.isFinite = true) :
        NamesRows m n t.rows (byElimination (belowStandard t.rows) t.rows) :=
      ⟨pairwise_keep 0 [] _, hinRange, hlength, pairwise_ne_of_keep fun i hi j hj hij =>
        getElem_ne_of_mem_byElimination (fun x hx => covers_of_isZero hrows hx) hn
          (fun j hj => hpivots j (hm ▸ hj)) hi hj hij⟩
    exact ⟨_, independentRows_column ht Tolerance.ofDatum_default, pairwise_keep 0 [] _, hinRange,
      hlength, hnames, fun hroom => hnames fun j hj => hroom.isFinite_pivot hm hn hrows (hm ▸ hj)⟩
  · refine ⟨_, independentRows_row ht Tolerance.ofDatum_default, pairwise_keep 0 [] _, hinRange,
      fun η hη hlt hnear => length_byProjection_le hm hη hlt hnear, fun h => ?_⟩
    refine ⟨pairwise_keep 0 [] _, hinRange,
      length_byProjection_le hm (by positivity) (by norm_num) h.near,
      pairwise_ne_of_keep fun i hi j hj hij => ?_⟩
    exact (h.staysNear fun row hrow => ⟨hn row hrow, hrows row hrow⟩).getElem_ne_of_mem_byProjection
      le_rfl hi hj hij

def axis (i : Fin 2) : List Double := List.ofFn fun j => if j = i then Binary.ofInt .double 1 else 0

theorem realVector_axis (i : Fin 2) : realVector 2 (axis i) = EuclideanSpace.single i 1 := by
  have hvalue : ∀ i j : Fin 2, ((axis i).getD j 0).value = if j = i then 1 else 0 := by
    decide +kernel
  ext j
  rw [realVector_apply, hvalue, PiLp.single_apply]
  split <;> simp

def twoAxes : Tensor Double := ⟨[3, 2], axis 0 ++ axis 1 ++ axis 0, rfl⟩

/-- What is computed of the rows. -/
theorem rows_twoAxes : twoAxes.rows = [axis 0, axis 1, axis 0] ∧
    (largestMagnitude twoAxes.rows).value = 1 ∧ directions twoAxes.rows = [axis 0, axis 1] := by
  decide +kernel

theorem roomToGrow_twoAxes : RoomToGrow 3 2 twoAxes.rows := by
  obtain ⟨-, hlargest, -⟩ := rows_twoAxes
  refine ⟨by norm_num, ?_⟩
  rw [largest, hlargest]
  calc (8 : ℝ) ^ min 3 2 * ((1 : ℚ) : ℝ) = 2 ^ 6 := by norm_num
    _ ≤ 2 ^ 1023 := pow_le_pow_right₀ (by norm_num) (by norm_num)

theorem keepsDirections_twoAxes : KeepsDirections 2 twoAxes.rows := by
  obtain ⟨hrows, -, hdirections⟩ := rows_twoAxes
  refine ⟨by norm_num, fun row hrow _ => ?_, ?_⟩
  · have hnorm : ‖realVector 2 row‖ = 1 := by
      obtain ⟨i, rfl⟩ : ∃ i, row = axis i := by
        rw [hrows] at hrow
        simp only [List.mem_cons, List.not_mem_nil, or_false] at hrow
        rcases hrow with rfl | rfl | rfl <;> exact ⟨_, rfl⟩
      rw [realVector_axis, PiLp.norm_single, norm_one]
    rw [hnorm]
    have hle : (1 : ℝ) ≤ 2 ^ 400 := one_le_pow₀ (by norm_num)
    exact ⟨(div_le_one (by positivity)).mpr hle, hle⟩
  · rw [hdirections]
    refine .of_orthonormal ?_ (by positivity)
    have hfamily : family 2 [axis 0, axis 1] = fun l => EuclideanSpace.single l 1 := by
      funext l
      fin_cases l
      · exact realVector_axis 0
      · exact realVector_axis 1
    rw [hfamily]
    exact EuclideanSpace.orthonormal_single

theorem independentRows_twoAxes :
    (independentRows twoAxes (.scalar (.real (.twoPowNeg .double 26))) .column = .ok [0, 1] ∧
      NamesRows 3 2 twoAxes.rows [0, 1]) ∧
    independentRows twoAxes (.scalar (.real (.twoPowNeg .double 26))) .row = .ok [0, 1] ∧
      NamesRows 3 2 twoAxes.rows [0, 1] := by
  obtain ⟨⟨kept, hkept, -, -, -, -, hnames⟩, kept', hkept', -, -, -, hnames'⟩ :=
    independentRows_namesRows (t := twoAxes) rfl (by decide +kernel)
  have heval : ∀ pivot, (independentRows twoAxes (.scalar (.real (.twoPowNeg .double 26)))
      pivot).toOption = some [0, 1] := by
    intro pivot
    cases pivot <;> decide +kernel
  obtain rfl : kept = [0, 1] := Option.some.inj (by rw [← heval .column, hkept]; rfl)
  obtain rfl : kept' = [0, 1] := Option.some.inj (by rw [← heval .row, hkept']; rfl)
  exact ⟨⟨hkept, hnames roomToGrow_twoAxes⟩, hkept', hnames' keepsDirections_twoAxes⟩

/-! ## Where rows are repeated -/

/-- Two rows that are nearly parallel, and the first one again. -/
def nearlyParallel : Tensor Double :=
  ⟨[3, 2], [4, 9, 34647639, 77957192, 4, 9].map (Binary.ofInt .double), rfl⟩

def greatestFinite : Double := .ofRung false (FloatFormat.double.top - 1)

/-- Rows that differ in a sign or not at all, and whose difference overflows. -/
def overflowing : Tensor Double :=
  ⟨[3, 3], [greatestFinite, -greatestFinite, 0, greatestFinite, greatestFinite, 0, greatestFinite,
    greatestFinite, 0], rfl⟩

/-- For finite matrices too, projection can name more rows than there are columns, and both
selections a row twice. -/
theorem independentRows_repeats_rows :
    ((∀ x ∈ nearlyParallel.entries, x.isFinite = true) ∧
      independentRows nearlyParallel (.scalar (.real (.twoPowNeg .double 26))) .row =
        .ok [0, 1, 2] ∧
      nearlyParallel.rows[0]? = nearlyParallel.rows[2]? ∧
      ¬ NamesRows 3 2 nearlyParallel.rows [0, 1, 2]) ∧
    (∀ x ∈ overflowing.entries, x.isFinite = true) ∧
      independentRows overflowing (.scalar (.real (.twoPowNeg .double 26))) .column =
        .ok [0, 1, 2] ∧
      overflowing.rows[1]? = overflowing.rows[2]? ∧
      ¬ NamesRows 3 3 overflowing.rows [0, 1, 2] := by
  refine ⟨⟨by decide +kernel, ?_, by decide +kernel, fun h => absurd h.length_le (by decide)⟩,
    by decide +kernel, ?_, by decide +kernel, fun h => ?_⟩
  · refine (independentRows_row rfl Tolerance.ofDatum_default).trans (congrArg Except.ok ?_)
    decide +kernel
  · refine (independentRows_column rfl Tolerance.ofDatum_default).trans (congrArg Except.ok ?_)
    decide +kernel
  · have hlast := (List.pairwise_cons.mp h.distinct).2
    exact (List.pairwise_cons.mp hlast).1 2 (List.mem_singleton_self 2) (by decide +kernel)

end StandardForm.Selection
