import StandardForm.Proofs.Selection.Multiples
import StandardForm.Proofs.Selection.Residual

/-!
# Projections of signed multiples

Two projections are compared, of rows of which each has a power of two and a sign of its own, and
each column a sign. The directions have lost the powers of two: they differ by a sign for the
direction and the signs of the columns. In a coefficient the signs of the columns cancel, in a
combination of directions those of the directions. So the residual is the same multiple as the row,
their lengths are multiples by the power of two alone, and the same rows are long enough.
-/

namespace StandardForm.Selection

open Binary (Multiple RegularProduct RegularSum dot norm)

variable {f : FloatFormat} {k l : ℤ} {n : ℕ} {sign : Bool} {signs : ℕ → Bool} {x x' : Binary f}
  {xs xs' ys ys' : List (Binary f)}

/-! ## Sums of products -/

/-- A sum from left to right in which no addition overflows. -/
def RegularSums : (total : Binary f) → (terms : List (Binary f)) → Prop
  | _, [] => True
  | total, term :: terms => RegularSum total term ∧ RegularSums (total + term) terms

/-- A sum of products in which nothing overflows and no product underflows. -/
def RegularDot (xs ys : List (Binary f)) : Prop :=
  (∀ p ∈ List.zip xs ys, RegularProduct p.1 p.2) ∧ RegularSums 0 (List.zipWith (· * ·) xs ys)

instance decidableRegularSums :
    (total : Binary f) → (terms : List (Binary f)) → Decidable (RegularSums total terms)
  | _, [] => .isTrue trivial
  | total, term :: terms =>
    have := decidableRegularSums (total + term) terms
    inferInstanceAs (Decidable (RegularSum total term ∧ RegularSums (total + term) terms))

instance (xs ys : List (Binary f)) : Decidable (RegularDot xs ys) :=
  inferInstanceAs (Decidable (_ ∧ _))

theorem multiple_foldl_add (h : List.Forall₂ (Multiple k sign) xs xs') (hx : Multiple k sign x x')
    (hregular : k ≠ 0 → RegularSums x xs ∧ RegularSums x' xs') :
    Multiple k sign (xs.foldl (· + ·) x) (xs'.foldl (· + ·) x') := by
  induction h generalizing x x' with
  | nil => exact hx
  | cons hfirst _ ih =>
    exact ih (hx.add hfirst fun hk => ⟨(hregular hk).1.1, (hregular hk).2.1⟩)
      fun hk => ⟨(hregular hk).1.2, (hregular hk).2.2⟩

/-- A sum of products whose signs are all the same. -/
theorem multiple_dot (hxs : xs.length = xs'.length) (hys : ys.length = ys'.length)
    (h : ∀ i, ∀ hx : i < xs.length, ∀ hx' : i < xs'.length, ∀ hy : i < ys.length,
      ∀ hy' : i < ys'.length, ∃ a b, (a != b) = sign ∧ Multiple k a xs[i] xs'[i] ∧
        Multiple l b ys[i] ys'[i])
    (hregular : k + l ≠ 0 → RegularDot xs ys ∧ RegularDot xs' ys') :
    Multiple (k + l) sign (dot xs ys) (dot xs' ys') := by
  refine multiple_foldl_add (List.forall₂_iff_get.mpr ⟨by simp [hxs, hys], fun i hi hi' => ?_⟩)
    .zero fun hk => ⟨(hregular hk).1.2, (hregular hk).2.2⟩
  rw [List.length_zipWith, Nat.lt_min] at hi hi'
  obtain ⟨a, b, rfl, hx, hy⟩ := h i hi.1 hi'.1 hi.2 hi'.2
  have hmem {as bs : List (Binary f)} (ha : i < as.length) (hb : i < bs.length) :
      (as[i], bs[i]) ∈ List.zip as bs := by
    have hzip : i < (List.zip as bs).length := by simp [ha, hb]
    exact List.getElem_zip (h := hzip) ▸ List.getElem_mem hzip
  simp only [List.get_eq_getElem, List.getElem_zipWith]
  exact hx.mul hy fun hk => ⟨(hregular hk).1.1 _ (hmem hi.1 hi.2),
    (hregular hk).2.1 _ (hmem hi'.1 hi'.2)⟩

/-- The length of a list of multiples with one exponent. -/
theorem Multiples.norm (h : Multiples (fun _ => k) signs xs xs')
    (hregular : k ≠ 0 → RegularDot xs xs ∧ RegularDot xs' xs') :
    Multiple k false (norm xs) (norm xs') := by
  refine Multiple.sqrt (multiple_dot h.length_eq h.length_eq (fun i hi hi' _ _ => ?_) fun hk => ?_)
  · exact ⟨_, _, bne_self_eq_false (signs i), h.getElem hi hi', h.getElem hi hi'⟩
  · exact hregular fun h => hk (by rw [h, add_zero])

/-! ## Residuals -/

/-- Corresponding directions of `n` entries: they are multiples with a sign for the direction and
the signs of the columns, and with no power of two. -/
def DirectionMultiples (n : ℕ) (columnSigns : ℕ → Bool) (basis basis' : List (List (Binary f))) :
    Prop :=
  List.Forall₂ (fun b b' => b.length = n ∧
    ∃ sign, Multiples (fun _ => 0) (fun i => sign != columnSigns i) b b') basis basis'

/-- A projection in which nothing overflows and no product underflows: the coefficients of the row,
the combination of the directions, the residual and its squares. -/
structure RegularProjection (basis : List (List (Binary f))) (row : List (Binary f)) : Prop where
  coefficients : ∀ b ∈ basis, RegularDot b row
  combination : ∀ i < row.length, RegularDot (basis.map (·.getD i 0)) (basis.map (dot · row))
  differences : ∀ i < row.length, RegularSum (row.getD i 0) (-(projection basis row).getD i 0)
  rest : RegularDot (residual basis row) (residual basis row)

instance (basis : List (List (Binary f))) (row : List (Binary f)) :
    Decidable (RegularProjection basis row) :=
  decidable_of_iff (_ ∧ _ ∧ _ ∧ _)
    ⟨fun ⟨h₁, h₂, h₃, h₄⟩ => ⟨h₁, h₂, h₃, h₄⟩, fun ⟨h₁, h₂, h₃, h₄⟩ => ⟨h₁, h₂, h₃, h₄⟩⟩

/-- A row that is visited without overflow or underflow: its squares, and its projection unless its
length is zero. -/
structure RegularVisit (basis : List (List (Binary f))) (row : List (Binary f)) : Prop where
  squares : RegularDot row row
  projection : (norm row).isZero = false → RegularProjection basis row

instance (basis : List (List (Binary f))) (row : List (Binary f)) :
    Decidable (RegularVisit basis row) :=
  decidable_of_iff (_ ∧ _) ⟨fun ⟨h, h'⟩ => ⟨h, h'⟩, fun ⟨h, h'⟩ => ⟨h, h'⟩⟩

section Row

variable {basis basis' : List (List (Binary f))} {row row' : List (Binary f)}
  {columnSigns : ℕ → Bool} {rowSign : Bool}

theorem getD_projection_eq_dot (hbasis : ∀ b ∈ basis, b.length = n) (hrow : row.length = n)
    {i : ℕ} (hi : i < n) :
    (projection basis row).getD i 0 = dot (basis.map (·.getD i 0)) (basis.map (dot · row)) := by
  calc (projection basis row).getD i 0
      = Binary.sum (basis.map fun b => b.getD i 0 * dot b row) :=
        (getD_projection hbasis hrow ⟨i, hi⟩).trans
          (congrArg Binary.sum (List.ofFn_getElem_eq_map basis fun b => b.getD i 0 * dot b row))
    _ = dot (basis.map (·.getD i 0)) (basis.map (dot · row)) := by
        rw [dot, List.zipWith_map, List.zipWith_self]

theorem DirectionMultiples.getElem (h : DirectionMultiples n columnSigns basis basis') {l : ℕ}
    (hl : l < basis.length) (hl' : l < basis'.length) :
    basis[l].length = n ∧
      ∃ sign, Multiples (fun _ => 0) (fun i => sign != columnSigns i) basis[l] basis'[l] :=
  (List.forall₂_iff_get.mp h).2 l hl hl'

theorem DirectionMultiples.length_left (h : DirectionMultiples n columnSigns basis basis') :
    ∀ b ∈ basis, b.length = n := by
  intro b hb
  obtain ⟨l, hl, rfl⟩ := List.getElem_of_mem hb
  exact (h.getElem hl (h.length_eq ▸ hl)).1

theorem DirectionMultiples.length_right (h : DirectionMultiples n columnSigns basis basis') :
    ∀ b ∈ basis', b.length = n := by
  intro b hb
  obtain ⟨l, hl, rfl⟩ := List.getElem_of_mem hb
  obtain ⟨hlength, sign, hb⟩ := h.getElem (h.length_eq ▸ hl) hl
  exact hb.length_eq ▸ hlength

/-- In a coefficient the signs of the columns cancel. -/
theorem multiple_coefficient {b b' : List (Binary f)}
    (hb : Multiples (fun _ => 0) (fun i => sign != columnSigns i) b b')
    (hrow : Multiples (fun _ => k) (fun i => rowSign != columnSigns i) row row')
    (hregular : k ≠ 0 → RegularDot b row ∧ RegularDot b' row') :
    Multiple k (rowSign != sign) (dot b row) (dot b' row') := by
  have hdot := multiple_dot hb.length_eq hrow.length_eq
    (fun i hi hi' hj hj' => ⟨_, _, (bne_bne_bne_right sign rowSign (columnSigns i)).trans bne_comm,
      hb.getElem hi hi', hrow.getElem hj hj'⟩)
    fun hk => hregular (by rwa [zero_add] at hk)
  rwa [zero_add] at hdot

/-- In a combination of directions the signs of these cancel. -/
theorem DirectionMultiples.projection (h : DirectionMultiples n columnSigns basis basis')
    (hrow : Multiples (fun _ => k) (fun i => rowSign != columnSigns i) row row')
    (hn : row.length = n)
    (hregular : k ≠ 0 → RegularProjection basis row ∧ RegularProjection basis' row') :
    Multiples (fun _ => k) (fun i => rowSign != columnSigns i) (projection basis row)
      (Selection.projection basis' row') := by
  have hn' : row'.length = n := hrow.length_eq ▸ hn
  have hlength := length_projection h.length_left hn
  have hlength' := length_projection h.length_right hn'
  refine .of_getElem (hlength.trans hlength'.symm) fun i hi hi' => ?_
  rw [← List.getD_eq_getElem _ 0 hi, ← List.getD_eq_getElem _ 0 hi']
  rw [hlength] at hi
  rw [getD_projection_eq_dot h.length_left hn hi, getD_projection_eq_dot h.length_right hn' hi,
    ← zero_add k]
  refine multiple_dot (by simp [h.length_eq]) (by simp [h.length_eq]) (fun l hl hl' _ _ => ?_)
    fun hk => ?_
  · rw [List.length_map] at hl hl'
    obtain ⟨-, sign, hb⟩ := h.getElem hl hl'
    have hcoefficient := multiple_coefficient hb hrow fun hk =>
      ⟨(hregular hk).1.coefficients _ (List.getElem_mem hl),
        (hregular hk).2.coefficients _ (List.getElem_mem hl')⟩
    exact ⟨_, _, bne_bne_bne_left sign rowSign (columnSigns i), by simpa using hb.entry i,
      by simpa using hcoefficient⟩
  · rw [zero_add] at hk
    exact ⟨(hregular hk).1.combination i (hn.symm ▸ hi),
      (hregular hk).2.combination i (hn'.symm ▸ hi)⟩

/-- The residual is the same multiple as the row. -/
theorem DirectionMultiples.residual (h : DirectionMultiples n columnSigns basis basis')
    (hrow : Multiples (fun _ => k) (fun i => rowSign != columnSigns i) row row')
    (hn : row.length = n)
    (hregular : k ≠ 0 → RegularProjection basis row ∧ RegularProjection basis' row') :
    Multiples (fun _ => k) (fun i => rowSign != columnSigns i) (residual basis row)
      (Selection.residual basis' row') := by
  have hn' : row'.length = n := hrow.length_eq ▸ hn
  have hprojection := h.projection hrow hn hregular
  have hlength := length_projection h.length_left hn
  have hlength' := length_projection h.length_right hn'
  have hrest := length_residual hn hlength
  have hrest' := length_residual hn' hlength'
  refine .of_getElem (hrest.trans hrest'.symm) fun i hi hi' => ?_
  rw [← List.getD_eq_getElem _ 0 hi, ← List.getD_eq_getElem _ 0 hi']
  rw [hrest] at hi
  have hentry := getD_residual hn hlength ⟨i, hi⟩
  have hentry' := getD_residual hn' hlength' ⟨i, hi⟩
  dsimp only at hentry hentry'
  rw [hentry, hentry']
  exact (hrow.entry i).sub (hprojection.entry i) fun hk =>
    ⟨(hregular hk).1.differences i (hn.symm ▸ hi), (hregular hk).2.differences i (hn'.symm ▸ hi)⟩

/-! ## Steps -/

/-- A residual scaled to length one has lost the power of two. -/
theorem multiples_direction (h : Multiples (fun _ => k) (fun i => rowSign != columnSigns i) xs xs')
    (hx : Multiple k false x x') (hzero : x.isZero = false) :
    Multiples (fun _ => 0) (fun i => rowSign != columnSigns i) (xs.map (· / x))
      (xs'.map (· / x')) := by
  refine .of_getElem (by simp [h.length_eq]) fun i hi hi' => ?_
  rw [List.length_map] at hi hi'
  rw [List.getElem_map, List.getElem_map, ← Bool.bne_false (_ != _)]
  exact (h.getElem hi hi').div hx hzero

/-- A row that is visited is kept in both runs, and adds corresponding directions, or in none. -/
theorem DirectionMultiples.projectionStep {longEnough longEnough' : Binary f → Binary f → Bool}
    (h : DirectionMultiples n columnSigns basis basis')
    (hrow : Multiples (fun _ => k) (fun i => rowSign != columnSigns i) row row')
    (hn : row.length = n) (hregular : k ≠ 0 → RegularVisit basis row ∧ RegularVisit basis' row')
    (hlong : (norm row).isZero = false → ∀ x x', Multiple k false x x' →
      Multiple k false (norm row) (norm row') →
        longEnough x (norm row) = longEnough' x' (norm row'))
    (hzero : ∀ x, x.isZero = true → longEnough x (norm row) = false) :
    Option.Rel (DirectionMultiples n columnSigns) (projectionStep longEnough basis row)
      (Selection.projectionStep longEnough' basis' row') := by
  have hlength := hrow.norm fun hk => ⟨(hregular hk).1.squares, (hregular hk).2.squares⟩
  rw [Selection.projectionStep, Selection.projectionStep]
  dsimp only
  rw [hlength.isZero_eq]
  split
  · exact .none
  next hne =>
  have hnonzero : (norm row).isZero = false := Bool.eq_false_iff.mpr hne
  have hprojection (hk : k ≠ 0) : RegularProjection basis row ∧ RegularProjection basis' row' :=
    ⟨(hregular hk).1.projection hnonzero,
      (hregular hk).2.projection (hlength.isZero_eq.trans hnonzero)⟩
  have hresidual := h.residual hrow hn hprojection
  have hsize := hresidual.norm fun hk => ⟨(hprojection hk).1.rest, (hprojection hk).2.rest⟩
  rw [← hlong hnonzero _ _ hsize hlength]
  split
  · next hkept =>
    have hsizeNonzero : (norm (Selection.residual basis row)).isZero = false := by
      refine Bool.eq_false_iff.mpr fun hz => ?_
      rw [hzero _ hz] at hkept
      cases hkept
    refine .some (List.rel_append h (.cons ⟨?_, rowSign, ?_⟩ .nil))
    · rw [List.length_map, length_residual hn (length_projection h.length_left hn)]
    · exact multiples_direction hresidual hsize hsizeNonzero
  · exact .none

end Row

/-! ## Runs -/

/-- The directions that the projection has found when it comes to row `j`. -/
def basisBefore (longEnough : Binary f → Binary f → Bool) (rows : List (List (Binary f))) (j : ℕ) :
    List (List (Binary f)) :=
  finalState (projectionStep longEnough) [] (rows.take j)

/-- Both runs keep the same rows, if a residual of length zero is never long enough. -/
theorem byProjection_multiples {longEnough longEnough' : Binary f → Binary f → Bool}
    {exponents : ℕ → ℤ} {rowSigns columnSigns : ℕ → Bool} {rows rows' : List (List (Binary f))}
    (hrows : RowMultiples exponents rowSigns columnSigns rows rows')
    (hn : ∀ row ∈ rows, row.length = n)
    (hlong : ∀ j, ∀ h : j < rows.length, ∀ h' : j < rows'.length, (norm rows[j]).isZero = false →
      ∀ x x', Multiple (exponents j) false x x' →
        Multiple (exponents j) false (norm rows[j]) (norm rows'[j]) →
          longEnough x (norm rows[j]) = longEnough' x' (norm rows'[j]))
    (hzero : ∀ x row, x.isZero = true → longEnough x (norm row) = false)
    (hregular : ∀ j, ∀ h : j < rows.length, ∀ h' : j < rows'.length, exponents j ≠ 0 →
      RegularVisit (basisBefore longEnough rows j) rows[j] ∧
        RegularVisit (basisBefore longEnough' rows' j) rows'[j]) :
    byProjection longEnough' rows' = byProjection longEnough rows :=
  (keep_eq_of_rel (R := DirectionMultiples n columnSigns) 0 hrows.length_eq .nil
    fun j hj hj' h => h.projectionStep (hrows.row j hj hj') (hn _ (List.getElem_mem hj))
      (hregular j hj hj') (hlong j hj hj') fun x => hzero x _).symm

end StandardForm.Selection
