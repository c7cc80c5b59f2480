import StandardForm.Proofs.Binary.Multiples
import StandardForm.Proofs.Selection.Elimination

/-!
# Eliminations of signed multiples

Two eliminations are compared, of rows whose entries differ by one power of two, by a sign for the
row and by a sign for the column. Above the pivots found so far a reduced entry holds a quotient: it
has lost the power of two, and the sign of its position has become that of the row that the pivot
was found in. From there on entries keep the power of two and move with the sign of their column. So
the signs that belong to the positions change with every step, but in the same way for all rows. As
long as the pivots are not zero, both runs find them at the same positions.
-/

namespace StandardForm

open Binary (Multiple RegularProduct RegularSum)

namespace Selection

variable {f : FloatFormat} {k : ℤ} {d n : ℕ} {exponent : ℕ → ℤ} {signs signs' : ℕ → Bool}
  {rowSign : Bool} {xs ys : List (Binary f)} {s t : PivotStep (Binary f)}

/-! ## Columns -/

/-- Two lists whose entries are signed multiples by powers of two, with an exponent and a sign for
each position. -/
structure Multiples (exponent : ℕ → ℤ) (signs : ℕ → Bool) (xs ys : List (Binary f)) : Prop where
  length_eq : xs.length = ys.length
  entry : ∀ i, Multiple (exponent i) (signs i) (xs.getD i 0) (ys.getD i 0)

theorem Multiples.of_getElem (hlength : xs.length = ys.length)
    (h : ∀ i, ∀ hi : i < xs.length, ∀ hi' : i < ys.length,
      Multiple (exponent i) (signs i) xs[i] ys[i]) : Multiples exponent signs xs ys := by
  refine ⟨hlength, fun i => ?_⟩
  by_cases hi : i < xs.length
  · have hi' : i < ys.length := hlength ▸ hi
    rw [List.getD_eq_getElem _ _ hi, List.getD_eq_getElem _ _ hi']
    exact h i hi hi'
  · rw [List.getD_eq_default _ _ (Nat.not_lt.mp hi),
      List.getD_eq_default _ _ (hlength ▸ Nat.not_lt.mp hi)]
    exact .zero

theorem Multiples.getElem (h : Multiples exponent signs xs ys) {i : ℕ} (hi : i < xs.length)
    (hi' : i < ys.length) : Multiple (exponent i) (signs i) xs[i] ys[i] := by
  have hentry := h.entry i
  rwa [List.getD_eq_getElem _ _ hi, List.getD_eq_getElem _ _ hi'] at hentry

/-- Two lists of rows that are multiples with an exponent and a sign for each row and a sign for
each column. -/
structure RowMultiples (exponents : ℕ → ℤ) (rowSigns columnSigns : ℕ → Bool)
    (rows rows' : List (List (Binary f))) : Prop where
  length_eq : rows.length = rows'.length
  row : ∀ j, ∀ h : j < rows.length, ∀ h' : j < rows'.length,
    Multiples (fun _ => exponents j) (fun i => rowSigns j != columnSigns i) rows[j] rows'[j]

/-- The exponent of the positions that have no pivot yet is `k`. -/
def exponentFrom (k : ℤ) (d i : ℕ) : ℤ := if i < d then 0 else k

theorem exponentFrom_zero (k : ℤ) : exponentFrom k 0 = fun _ => k :=
  funext fun i => if_neg (Nat.not_lt_zero i)

theorem exponentFrom_of_le {i : ℕ} (h : d ≤ i) : exponentFrom k d i = k := if_neg (Nat.not_lt.mpr h)

theorem exponentFrom_succ_of_ne {i : ℕ} (h : i ≠ d) :
    exponentFrom k (d + 1) i = exponentFrom k d i := by
  have hlt : i < d + 1 ↔ i < d := by omega
  simp only [exponentFrom, hlt]

theorem lt_of_exponentFrom_ne_zero {i : ℕ} (h : exponentFrom k d i ≠ 0) : d ≤ i := by
  by_contra hlt
  exact h (if_pos (Nat.not_le.mp hlt))

theorem ne_zero_of_exponentFrom {i : ℕ} (h : exponentFrom k d i ≠ 0) : k ≠ 0 := by
  rwa [exponentFrom_of_le (lt_of_exponentFrom_ne_zero h)] at h

/-- An exchange among the positions without a pivot exchanges their signs. -/
theorem Multiples.exchange {signs : ℕ → Bool} (h : Multiples (exponentFrom k d) signs xs ys) {j : ℕ}
    (hd : d < xs.length) (hj : j < xs.length) (hle : d ≤ j) :
    Multiples (exponentFrom k d) (fun i => signs (Equiv.swap d j i)) (exchange d j xs)
      (exchange d j ys) := by
  have hlength := h.length_eq
  refine ⟨by simp [hlength], fun i => ?_⟩
  have hexponent : exponentFrom k d i = exponentFrom k d (Equiv.swap d j i) := by
    rcases Nat.lt_or_ge i d with hlt | hge
    · rw [Equiv.swap_apply_of_ne_of_ne (by omega) (by omega)]
    · rw [exponentFrom_of_le hge, exponentFrom_of_le (le_swap hle hge)]
  rw [getD_exchange hd hj, getD_exchange (hlength ▸ hd) (hlength ▸ hj), hexponent]
  exact h.entry _

/-! ## Steps -/

/-- A step that neither overflows nor underflows at the positions that have no pivot yet. -/
structure PivotStep.RegularOn (s : PivotStep (Binary f)) (xs : List (Binary f)) : Prop where
  product : ∀ i < xs.length, s.target < i → RegularProduct (s.column.getD i 0) (s.quotient xs)
  difference : ∀ i < xs.length, s.target < i →
    RegularSum ((Selection.exchange s.target s.source xs).getD i 0)
      (-(s.column.getD i 0 * s.quotient xs))

instance (s : PivotStep (Binary f)) (xs : List (Binary f)) : Decidable (s.RegularOn xs) :=
  decidable_of_iff (_ ∧ _) ⟨fun ⟨h, h'⟩ => ⟨h, h'⟩, fun ⟨h, h'⟩ => ⟨h, h'⟩⟩

/-- The signs of the positions after a step: the entry exchanged takes its sign along, and the
target has the sign `pivotSign` of the row that the pivot was found in. -/
def PivotStep.signsAfter (s : PivotStep (Binary f)) (pivotSign : Bool) (signs : ℕ → Bool) :
    ℕ → Bool :=
  Function.update (fun i => signs (Equiv.swap s.target s.source i)) s.target pivotSign

/-- Corresponding steps for position `d`. -/
structure PivotStep.Aligned (k : ℤ) (d : ℕ) (pivotSign : Bool) (signs : ℕ → Bool)
    (s t : PivotStep (Binary f)) : Prop where
  target_eq : s.target = d
  target_eq' : t.target = d
  source_eq : t.source = s.source
  le_source : d ≤ s.source
  column : Multiples (exponentFrom k d) (fun i => pivotSign != signs (Equiv.swap d s.source i))
    s.column t.column
  pivot_ne_zero : (s.column.getD d 0).isZero = false

theorem bne_bne_bne_right (a b c : Bool) : ((a != c) != (b != c)) = (a != b) := by
  revert a b c
  decide

theorem bne_bne_bne_left (a b c : Bool) : ((a != c) != (b != a)) = (b != c) := by
  revert a b c
  decide

section Step

variable {pivotSign : Bool}

theorem PivotStep.Aligned.fits (h : s.Aligned k d pivotSign signs t) (hfits : s.Fits n) :
    t.Fits n :=
  ⟨h.target_eq'.trans h.target_eq.symm ▸ hfits.target_lt, h.source_eq ▸ hfits.source_lt,
    h.column.length_eq ▸ hfits.length_column⟩

/-- The quotient by the pivot has lost the power of two. -/
theorem Multiples.quotient (h : Multiples (exponentFrom k d) (fun i => rowSign != signs i) xs ys)
    (hstep : s.Aligned k d pivotSign signs t) (hfits : s.Fits xs.length) :
    Multiple 0 (rowSign != pivotSign) (s.quotient xs) (t.quotient ys) := by
  obtain ⟨rfl, htarget, hsource, hle, hcolumn, hpivot⟩ := hstep
  have hexchange := h.exchange hfits.target_lt hfits.source_lt hle
  have hquotient := (hexchange.entry s.target).div (hcolumn.entry s.target) hpivot
  rw [bne_bne_bne_right] at hquotient
  rwa [PivotStep.quotient, PivotStep.quotient, htarget, hsource]

/-- What a step leaves at a position other than its target. -/
theorem Multiples.apply_of_ne (h : Multiples (exponentFrom k d) (fun i => rowSign != signs i) xs ys)
    (hstep : s.Aligned k d pivotSign signs t) (hfits : s.Fits xs.length)
    (hregular : k ≠ 0 → s.RegularOn xs ∧ t.RegularOn ys) {i : ℕ} (hi : i < xs.length)
    (hne : i ≠ d) :
    Multiple (exponentFrom k d i) (rowSign != signs (Equiv.swap d s.source i))
      ((s.apply xs).getD i 0) ((t.apply ys).getD i 0) := by
  have hlength := h.length_eq
  have hfits' : t.Fits ys.length := hlength ▸ hstep.fits hfits
  have hquotient := h.quotient hstep hfits
  obtain ⟨rfl, htarget, hsource, hle, hcolumn, -⟩ := hstep
  have hi' : i < ys.length := hlength ▸ hi
  have hlt (hexponent : exponentFrom k s.target i ≠ 0) : s.target < i :=
    Nat.lt_of_le_of_ne (lt_of_exponentFrom_ne_zero hexponent) hne.symm
  have hproduct := (hcolumn.entry i).mul hquotient fun hexponent => by
    rw [add_zero] at hexponent
    obtain ⟨hs, ht⟩ := hregular (ne_zero_of_exponentFrom hexponent)
    exact ⟨hs.product i hi (hlt hexponent), ht.product i hi' (htarget.symm ▸ hlt hexponent)⟩
  rw [add_zero, bne_bne_bne_left] at hproduct
  rw [PivotStep.getD_apply_of_ne hfits hi hne,
    PivotStep.getD_apply_of_ne hfits' hi' (htarget.symm ▸ hne), htarget, hsource]
  refine ((h.exchange hfits.target_lt hfits.source_lt hle).entry i).sub hproduct
    fun hexponent => ?_
  obtain ⟨hs, ht⟩ := hregular (ne_zero_of_exponentFrom hexponent)
  have hdifference := ht.difference i hi' (htarget.symm ▸ hlt hexponent)
  rw [htarget, hsource] at hdifference
  exact ⟨hs.difference i hi (hlt hexponent), hdifference⟩

/-- A step takes multiples to multiples, with the signs after it. -/
theorem Multiples.apply (h : Multiples (exponentFrom k d) (fun i => rowSign != signs i) xs ys)
    (hstep : s.Aligned k d pivotSign signs t) (hfits : s.Fits xs.length)
    (hregular : k ≠ 0 → s.RegularOn xs ∧ t.RegularOn ys) :
    Multiples (exponentFrom k (d + 1)) (fun i => rowSign != s.signsAfter pivotSign signs i)
      (s.apply xs) (t.apply ys) := by
  have hfits' : t.Fits ys.length := h.length_eq ▸ hstep.fits hfits
  refine .of_getElem ?_ fun i hi hi' => ?_
  · rw [PivotStep.length_apply hfits, PivotStep.length_apply hfits', h.length_eq]
  rw [← List.getD_eq_getElem _ 0 hi, ← List.getD_eq_getElem _ 0 hi', PivotStep.signsAfter,
    hstep.target_eq]
  by_cases hne : i = d
  · have htarget := PivotStep.getD_apply_target hfits
    have htarget' := PivotStep.getD_apply_target hfits'
    rw [hstep.target_eq] at htarget
    rw [hstep.target_eq'] at htarget'
    rw [hne, htarget, htarget', Function.update_self, exponentFrom, if_pos (Nat.lt_succ_self _)]
    exact h.quotient hstep hfits
  · rw [PivotStep.length_apply hfits] at hi
    rw [Function.update_of_ne hne, exponentFrom_succ_of_ne hne]
    exact h.apply_of_ne hstep hfits hregular hi hne

end Step

/-! ## Reductions -/

/-- Corresponding steps for the positions from `d` on, for columns of `n` entries, with the signs of
the positions before and after them. -/
inductive AlignedSteps (k : ℤ) (n : ℕ) : (d : ℕ) → (signs signs' : ℕ → Bool) →
    (steps steps' : List (PivotStep (Binary f))) → Prop
  | nil (d : ℕ) (signs : ℕ → Bool) : AlignedSteps k n d signs signs [] []
  | cons {d : ℕ} {signs signs' : ℕ → Bool} {pivotSign : Bool} {s t : PivotStep (Binary f)}
    {steps steps' : List (PivotStep (Binary f))} (aligned : s.Aligned k d pivotSign signs t)
    (fits : s.Fits n)
    (rest : AlignedSteps k n (d + 1) (s.signsAfter pivotSign signs) signs' steps steps') :
    AlignedSteps k n d signs signs' (s :: steps) (t :: steps')

/-- Steps that neither overflow nor underflow when a column is brought through them. -/
def RegularReduction : List (PivotStep (Binary f)) → List (Binary f) → Prop
  | [], _ => True
  | s :: steps, xs => s.RegularOn xs ∧ RegularReduction steps (s.apply xs)

instance decidableRegularReduction :
    (steps : List (PivotStep (Binary f))) → (xs : List (Binary f)) →
      Decidable (RegularReduction steps xs)
  | [], _ => .isTrue trivial
  | s :: steps, xs =>
    have := decidableRegularReduction steps (s.apply xs)
    inferInstanceAs (Decidable (s.RegularOn xs ∧ RegularReduction steps (s.apply xs)))

namespace AlignedSteps

variable {steps steps' : List (PivotStep (Binary f))}

theorem length_eq (h : AlignedSteps k n d signs signs' steps steps') :
    steps.length = steps'.length := by
  induction h with
  | nil => rfl
  | cons _ _ _ ih => rw [List.length_cons, List.length_cons, ih]

theorem fits (h : AlignedSteps k n d signs signs' steps steps') : ∀ s ∈ steps, s.Fits n := by
  induction h with
  | nil => simp
  | cons _ hfits _ ih => exact List.forall_mem_cons.mpr ⟨hfits, ih⟩

theorem concat {pivotSign : Bool} {e : ℕ} (h : AlignedSteps k n d signs signs' steps steps')
    (he : d + steps.length = e) (hstep : s.Aligned k e pivotSign signs' t) (hfits : s.Fits n) :
    AlignedSteps k n d signs (s.signsAfter pivotSign signs') (steps ++ [s]) (steps' ++ [t]) := by
  induction h with
  | nil =>
    subst he
    exact .cons hstep hfits (.nil _ _)
  | cons haligned hfit _ ih =>
    rw [List.length_cons, Nat.add_comm _ 1, ← Nat.add_assoc] at he
    exact .cons haligned hfit (ih he hstep)

/-- Corresponding steps take multiples to multiples. -/
theorem reduce (h : AlignedSteps k n d signs signs' steps steps')
    (hxs : Multiples (exponentFrom k d) (fun i => rowSign != signs i) xs ys) (hn : xs.length = n)
    (hregular : k ≠ 0 → RegularReduction steps xs ∧ RegularReduction steps' ys) :
    Multiples (exponentFrom k (d + steps.length)) (fun i => rowSign != signs' i)
      (Selection.reduce steps xs) (Selection.reduce steps' ys) := by
  induction h generalizing xs ys with
  | nil => exact hxs
  | cons haligned hfits _ ih =>
    subst hn
    have hfirst := hxs.apply haligned hfits fun hk => ⟨(hregular hk).1.1, (hregular hk).2.1⟩
    have hrest := ih hfirst (PivotStep.length_apply hfits) fun hk =>
      ⟨(hregular hk).1.2, (hregular hk).2.2⟩
    rwa [Nat.add_assoc, Nat.add_comm 1] at hrest

end AlignedSteps

/-! ## Pivots -/

theorem Multiples.forall₂_drop (h : Multiples (exponentFrom k d) signs xs ys) :
    List.Forall₂ (fun x y => ∃ sign, Multiple k sign x y) (xs.drop d) (ys.drop d) := by
  refine List.forall₂_iff_get.mpr ⟨by simp [h.length_eq], fun i hi hi' => ?_⟩
  rw [List.length_drop] at hi hi'
  have hentry := h.getElem (i := d + i) (by omega) (by omega)
  rw [exponentFrom_of_le (Nat.le_add_right d i)] at hentry
  exact ⟨_, by simpa using hentry⟩

/-- The pivot comes from the same position, and its size is multiplied by the power of two. -/
theorem Multiples.greatest (h : Multiples (exponentFrom k d) signs xs ys) :
    (greatest d xs).1 = (greatest d ys).1 ∧
      Multiple k false (greatest d xs).2 (greatest d ys).2 :=
  greatest_rel (fun _ _ _ _ => Multiple.le_iff) .zero (fun _ _ ⟨_, hx⟩ => hx.abs) h.forall₂_drop

theorem RowMultiples.largestMagnitude {rowSigns columnSigns : ℕ → Bool}
    {rows rows' : List (List (Binary f))}
    (h : RowMultiples (fun _ => k) rowSigns columnSigns rows rows') :
    Multiple k false (largestMagnitude rows) (largestMagnitude rows') := by
  have hrows : List.Forall₂ (List.Forall₂ fun x y => ∃ sign, Multiple k sign x y) rows rows' := by
    refine List.forall₂_iff_get.mpr ⟨h.length_eq, fun j hj hj' => ?_⟩
    have hrow := h.row j hj hj'
    rw [← exponentFrom_zero k] at hrow
    exact hrow.forall₂_drop
  exact (greatest_rel (fun _ _ _ _ => Multiple.le_iff) .zero (fun _ _ ⟨_, hx⟩ => hx.abs)
    (List.forall₂_drop 0 (List.rel_flatten hrows))).2

/-! ## Runs -/

/-- A run in which every row that is visited while a position has no pivot is reduced without
overflow or underflow. -/
def RegularRun (negligible : Binary f → Bool) (rows : List (List (Binary f))) : Prop :=
  ∀ j, ∀ h : j < rows.length, (stepsBefore negligible rows j).length < rows[j].length →
    RegularReduction (stepsBefore negligible rows j) rows[j]

instance (negligible : Binary f → Bool) (rows : List (List (Binary f))) :
    Decidable (RegularRun negligible rows) :=
  inferInstanceAs (Decidable (∀ j, ∀ h : j < rows.length,
    (stepsBefore negligible rows j).length < rows[j].length →
      RegularReduction (stepsBefore negligible rows j) rows[j]))

section Run

variable {negligible negligible' : Binary f → Bool} {steps steps' : List (PivotStep (Binary f))}
  {row row' : List (Binary f)} {rows rows' : List (List (Binary f))}

/-- A row that is visited is kept in both runs, and adds corresponding steps, or in none. -/
theorem AlignedSteps.pivotStep (h : AlignedSteps k n 0 signs signs' steps steps')
    (hnegligible : ∀ x x', Multiple k false x x' → negligible x = negligible' x')
    (hzero : ∀ x, x.isZero = true → negligible x = true)
    (hrow : Multiples (exponentFrom k 0) (fun i => rowSign != signs i) row row')
    (hn : row.length = n)
    (hregular : k ≠ 0 → (steps.length < row.length → RegularReduction steps row) ∧
      (steps'.length < row'.length → RegularReduction steps' row')) :
    Option.Rel (fun steps steps' => ∃ signs', AlignedSteps k n 0 signs signs' steps steps')
      (pivotStep negligible steps row) (Selection.pivotStep negligible' steps' row') := by
  subst hn
  have hcount := h.length_eq
  have hlength := hrow.length_eq
  by_cases hlt : steps.length < row.length
  · have hreduced := length_reduce h.fits
    have hcolumn := h.reduce hrow rfl fun hk =>
      ⟨(hregular hk).1 hlt, (hregular hk).2 (by omega)⟩
    rw [Nat.zero_add] at hcolumn
    obtain ⟨hsource, hsize⟩ := hcolumn.greatest
    have hdecision := hnegligible _ _ hsize
    have hstart : steps.length < (Selection.reduce steps row).length := hreduced.symm ▸ hlt
    obtain ⟨hle, hsourcelt, hmagnitude⟩ := greatest_spec hstart
    rw [Selection.pivotStep, Selection.pivotStep, if_neg (Nat.not_le.mpr hlt),
      if_neg (Nat.not_le.mpr (by omega)), ← hcount]
    dsimp only
    rw [← hdecision, ← hsource]
    split
    · exact .none
    · next hsignificant =>
      set source := (Selection.greatest steps.length (Selection.reduce steps row)).1
      have hpivot : ((Selection.exchange steps.length source
          (Selection.reduce steps row)).getD steps.length 0).isZero = false := by
        rw [getD_exchange hstart hsourcelt, Equiv.swap_apply_left]
        refine Bool.eq_false_iff.mpr fun hpivot => hsignificant (hzero _ ?_)
        rw [hmagnitude]
        exact (Binary.isZero_abs _).trans hpivot
      refine .some ⟨_, h.concat (Nat.zero_add _)
        ⟨rfl, rfl, rfl, hle, hcolumn.exchange hstart hsourcelt hle, hpivot⟩ ⟨hlt, ?_, ?_⟩⟩
      · exact hreduced ▸ hsourcelt
      · rw [length_exchange, hreduced]
  · rw [Selection.pivotStep, Selection.pivotStep, if_pos (Nat.not_lt.mp hlt),
      if_pos (by omega)]
    exact .none

/-- Both runs keep the same rows, if every zero is negligible. -/
theorem byElimination_multiples {rowSigns columnSigns : ℕ → Bool}
    (hrows : RowMultiples (fun _ => k) rowSigns columnSigns rows rows')
    (hn : ∀ row ∈ rows, row.length = n)
    (hnegligible : ∀ x x', Multiple k false x x' → negligible x = negligible' x')
    (hzero : ∀ x, x.isZero = true → negligible x = true)
    (hregular : k ≠ 0 → RegularRun negligible rows ∧ RegularRun negligible' rows') :
    byElimination negligible' rows' = byElimination negligible rows := by
  refine (keep_eq_of_rel
    (R := fun steps steps' => ∃ signs, AlignedSteps k n 0 columnSigns signs steps steps') 0
    hrows.length_eq ⟨columnSigns, .nil 0 columnSigns⟩ fun j hj hj' h => ?_).symm
  obtain ⟨signs, h⟩ := h
  have hrow := hrows.row j hj hj'
  rw [← exponentFrom_zero k] at hrow
  exact h.pivotStep hnegligible hzero hrow (hn _ (List.getElem_mem hj)) fun hk =>
    ⟨(hregular hk).1 j hj, (hregular hk).2 j hj'⟩

/-- Where nothing is negligible, not even zero, only the lengths of the rows count. -/
theorem byElimination_eq_of_never {exponents : ℕ → ℤ} {rowSigns columnSigns : ℕ → Bool}
    (hrows : RowMultiples exponents rowSigns columnSigns rows rows')
    (hnever : ∀ x, negligible x = false) (hnever' : ∀ x, negligible' x = false) :
    byElimination negligible' rows' = byElimination negligible rows := by
  refine (keep_eq_of_rel (R := fun steps steps' => steps.length = steps'.length) 0 hrows.length_eq rfl
    fun j hj hj' h => ?_).symm
  generalize finalState (pivotStep negligible) [] (rows.take j) = steps at h ⊢
  generalize finalState (pivotStep negligible') [] (rows'.take j) = steps' at h ⊢
  have hlength := (hrows.row j hj hj').length_eq
  by_cases hlt : steps.length < rows[j].length
  · have hlt' : steps'.length < rows'[j].length := h ▸ hlength ▸ hlt
    rw [pivotStep, pivotStep, if_neg (Nat.not_le.mpr hlt), if_neg (Nat.not_le.mpr hlt')]
    dsimp only
    rw [hnever, hnever']
    exact .some (by simp [h])
  · have hlt' : ¬ steps'.length < rows'[j].length := h ▸ hlength ▸ hlt
    rw [pivotStep, pivotStep, if_pos (Nat.not_lt.mp hlt), if_pos (Nat.not_lt.mp hlt')]
    exact .none

end Run

end Selection

end StandardForm
