import Mathlib.Algebra.Order.AbsoluteValue.Basic
import StandardForm.Proofs.Selection.Elimination
import StandardForm.Proofs.Selection.RowBasis

/-!
# Elimination in exact arithmetic

Over the rational numbers every step of an elimination is an invertible linear map, the same one
for every column. After some rows have been visited, the composition of the steps maps the span of
these rows onto the vectors that are zero from the first position without a pivot on. A row is
therefore passed over exactly if it is a linear combination of the rows before it, and the rows
kept are the basis that going through the rows in order selects.
-/

namespace StandardForm.Selection

instance : Pivotal ℚ where
  magnitude := fun x => |x|

instance : OrderedPivots ℚ where
  le_trans := le_trans
  le_self_of_le := fun _ => ⟨le_refl _, le_refl _⟩
  le_of_not_le := fun _ _ h => le_of_not_ge h

def onlyZero (x : ℚ) : Bool := x ≤ 0

/-! ## The pivot -/

theorem abs_le_greatest {start k : ℕ} {xs : List ℚ} (hk : start ≤ k) (hlt : k < xs.length) :
    |xs.getD k 0| ≤ (greatest start xs).2 :=
  magnitude_le_greatest (le_refl (greatest start xs).2) hk hlt

theorem onlyZero_greatest_eq_zero_iff {start : ℕ} {xs : List ℚ} (h : start < xs.length) :
    onlyZero (greatest start xs).2 = true ↔ (greatest start xs).2 = 0 := by
  obtain ⟨-, -, hsize⟩ := greatest_spec h
  have hnonneg : 0 ≤ (greatest start xs).2 := hsize ▸ abs_nonneg _
  rw [onlyZero, decide_eq_true_iff]
  exact ⟨fun hle => le_antisymm hle hnonneg, fun heq => heq.le⟩

/-- No pivot is found exactly if all entries searched are zero. -/
theorem onlyZero_greatest_iff {start : ℕ} {xs : List ℚ} (h : start < xs.length) :
    onlyZero (greatest start xs).2 = true ↔
      ∀ k, start ≤ k → k < xs.length → xs.getD k 0 = 0 := by
  obtain ⟨hge, hlt, hsize⟩ := greatest_spec h
  rw [onlyZero, decide_eq_true_iff]
  constructor
  · intro hle k hk hklt
    exact abs_nonpos_iff.mp ((abs_le_greatest hk hklt).trans hle)
  · intro hzero
    rw [hsize, hzero _ hge hlt]
    exact abs_nonpos_iff.mpr rfl

/-! ## Steps as linear maps -/

def vector (n : ℕ) (xs : List ℚ) : Fin n → ℚ := fun i => xs.getD i 0

def zeroFrom (n r : ℕ) : Submodule ℚ (Fin n → ℚ) where
  carrier := {v | ∀ i : Fin n, r ≤ i → v i = 0}
  add_mem' := fun hv hw i hi => by simp [hv i hi, hw i hi]
  zero_mem' := fun _ _ => rfl
  smul_mem' := fun c v hv i hi => by simp [hv i hi]

variable {n : ℕ}

/-- The step with target `t`, source `k` and column `c`. -/
def elimination (t k : Fin n) (c : Fin n → ℚ) : (Fin n → ℚ) →ₗ[ℚ] (Fin n → ℚ) where
  toFun v i := if i = t then v k / c t else v (Equiv.swap t k i) - c i * (v k / c t)
  map_add' v w := by
    ext i
    by_cases hi : i = t
    · simp [hi, add_div]
    · simp only [hi, if_false, Pi.add_apply]
      ring
  map_smul' a v := by
    ext i
    by_cases hi : i = t
    · simp [hi, mul_div_assoc]
    · simp only [hi, if_false, Pi.smul_apply, smul_eq_mul, RingHom.id_apply]
      ring

theorem elimination_apply (t k : Fin n) (c v : Fin n → ℚ) (i : Fin n) :
    elimination t k c v i =
      if i = t then v k / c t else v (Equiv.swap t k i) - c i * (v k / c t) := rfl

/-- A step can be undone, as its pivot is not zero. -/
theorem elimination_injective {t k : Fin n} {c : Fin n → ℚ} (hpivot : c t ≠ 0) :
    Function.Injective (elimination t k c) := by
  refine (injective_iff_map_eq_zero _).mpr fun v hv => ?_
  have hentry (i : Fin n) : elimination t k c v i = 0 := congrFun hv i
  have hsource : v k = 0 := by
    have h := hentry t
    rw [elimination_apply, if_pos rfl] at h
    exact (div_eq_zero_iff.mp h).resolve_right hpivot
  ext i
  obtain ⟨j, rfl⟩ := (Equiv.swap t k).surjective i
  by_cases hj : j = t
  · rw [hj, Equiv.swap_apply_left]
    exact hsource
  · have h := hentry j
    rw [elimination_apply, if_neg hj, hsource] at h
    simpa using h

/-- A step leaves the vectors alone that are zero from its target on. -/
theorem elimination_of_mem_zeroFrom {t k : Fin n} (c : Fin n → ℚ) (htk : t ≤ k)
    {v : Fin n → ℚ} (hv : v ∈ zeroFrom n t) : elimination t k c v = v := by
  have ht : v t = 0 := hv t (le_refl _)
  have hk : v k = 0 := hv k htk
  ext i
  rw [elimination_apply, hk]
  by_cases hi : i = t
  · rw [if_pos hi, hi, ht, zero_div]
  · rw [if_neg hi, zero_div, mul_zero, sub_zero]
    by_cases hik : i = k
    · rw [hik, Equiv.swap_apply_right, ht, hk]
    · rw [Equiv.swap_apply_of_ne_of_ne hi hik]

/-- A step turns the vector that it was made for into a unit vector. -/
theorem elimination_self {t k : Fin n} {v : Fin n → ℚ} (hpivot : v k ≠ 0) :
    elimination t k (fun i => v (Equiv.swap t k i)) v = Pi.single t 1 := by
  ext i
  rw [elimination_apply, Equiv.swap_apply_left, div_self hpivot, mul_one, sub_self]
  by_cases hi : i = t
  · rw [if_pos hi, hi, Pi.single_eq_same]
  · rw [if_neg hi, Pi.single_eq_of_ne hi]

theorem zeroFrom_sup_single (t : Fin n) :
    zeroFrom n t ⊔ Submodule.span ℚ {Pi.single t 1} = zeroFrom n (t + 1) := by
  apply le_antisymm
  · refine sup_le (fun v hv i hi => hv i (by omega)) ?_
    rw [Submodule.span_singleton_le_iff_mem]
    intro i hi
    exact Pi.single_eq_of_ne (fun h => by rw [h] at hi; omega) 1
  · intro v hv
    refine Submodule.mem_sup.mpr ⟨v - v t • Pi.single t 1, fun i hi => ?_, v t • Pi.single t 1,
      Submodule.smul_mem _ _ (Submodule.mem_span_singleton_self _), sub_add_cancel _ _⟩
    by_cases hit : i = t
    · simp [hit]
    · have hlt : (t : ℕ) + 1 ≤ i := by
        have := Fin.val_ne_of_ne hit
        omega
      simp [hv i hlt, Pi.single_eq_of_ne hit]

/-- The step made for a vector adds a position to those that need not be zero. -/
theorem map_elimination_sup {t k : Fin n} (htk : t ≤ k) {v : Fin n → ℚ} (hpivot : v k ≠ 0) :
    (zeroFrom n t ⊔ Submodule.span ℚ {v}).map
      (elimination t k fun i => v (Equiv.swap t k i)) = zeroFrom n (t + 1) := by
  set T := elimination t k fun i => v (Equiv.swap t k i)
  have hstay : (zeroFrom n t).map T = zeroFrom n t := by
    ext w
    constructor
    · rintro ⟨w, hw, rfl⟩
      rw [elimination_of_mem_zeroFrom _ htk hw]
      exact hw
    · exact fun hw => ⟨w, hw, elimination_of_mem_zeroFrom _ htk hw⟩
  rw [Submodule.map_sup, hstay, Submodule.map_span, Set.image_singleton, elimination_self hpivot,
    zeroFrom_sup_single]

theorem swap_val (t k i : Fin n) :
    (Equiv.swap t k i : ℕ) = Equiv.swap (t : ℕ) (k : ℕ) (i : ℕ) := by
  simp only [Equiv.swap_apply_def, Fin.ext_iff]
  split
  · rfl
  · split <;> rfl

/-- The linear map of a step of the elimination. -/
theorem vector_apply {s : PivotStep ℚ} {xs : List ℚ} (hs : s.Fits n) (hxs : xs.length = n) :
    vector n (s.apply xs) = elimination ⟨s.target, hs.target_lt⟩ ⟨s.source, hs.source_lt⟩
      (vector n s.column) (vector n xs) := by
  subst hxs
  have hexchange (i : ℕ) : (exchange s.target s.source xs).getD i 0 =
      xs.getD (Equiv.swap s.target s.source i) 0 :=
    getD_exchange hs.target_lt hs.source_lt i
  have hquotient : s.quotient xs = xs.getD s.source 0 / s.column.getD s.target 0 := by
    rw [PivotStep.quotient, hexchange, Equiv.swap_apply_left]
  ext i
  rw [elimination_apply]
  by_cases hi : i = ⟨s.target, hs.target_lt⟩
  · rw [if_pos hi, hi]
    exact (PivotStep.getD_apply_target hs).trans hquotient
  · have hne : (i : ℕ) ≠ s.target := fun h => hi (Fin.ext h)
    rw [if_neg hi]
    simp only [vector, swap_val]
    rw [PivotStep.getD_apply_of_ne hs i.isLt hne, hexchange, hquotient]

/-! ## The state of an elimination -/

/-- The steps found in rows that span `W`; together they are the linear map `T`. -/
structure Eliminated (steps : List (PivotStep ℚ)) (W : Submodule ℚ (Fin n → ℚ))
    (T : (Fin n → ℚ) →ₗ[ℚ] (Fin n → ℚ)) : Prop where
  fits : ∀ s ∈ steps, s.Fits n
  injective : Function.Injective T
  vector_reduce : ∀ xs : List ℚ, xs.length = n → vector n (reduce steps xs) = T (vector n xs)
  map_eq : W.map T = zeroFrom n steps.length

namespace Eliminated

variable {steps : List (PivotStep ℚ)} {W : Submodule ℚ (Fin n → ℚ)}
  {T : (Fin n → ℚ) →ₗ[ℚ] (Fin n → ℚ)} {row : List ℚ}

theorem nil : Eliminated (n := n) [] ⊥ LinearMap.id where
  fits := by simp
  injective := Function.injective_id
  vector_reduce := fun _ _ => rfl
  map_eq := by
    rw [Submodule.map_bot, eq_comm, Submodule.eq_bot_iff]
    exact fun v hv => funext fun i => hv i (Nat.zero_le _)

theorem length_reduce (h : Eliminated steps W T) (hrow : row.length = n) :
    (reduce steps row).length = n := by
  rw [Selection.length_reduce fun s hs => hrow.symm ▸ h.fits s hs, hrow]

theorem mem_iff (h : Eliminated steps W T) (hrow : row.length = n) :
    vector n row ∈ W ↔
      ∀ k, steps.length ≤ k → k < n → (reduce steps row).getD k 0 = 0 := by
  have hmap : T (vector n row) ∈ W.map T ↔ vector n row ∈ W := h.injective.mem_set_image
  rw [← hmap, h.map_eq, ← h.vector_reduce row hrow]
  exact ⟨fun hzero k hk hlt => hzero ⟨k, hlt⟩ hk, fun hzero i hi => hzero i hi i.isLt⟩

/-- A row is passed over exactly if it is a combination of the rows visited. -/
theorem pivotStep_eq_none_iff (h : Eliminated steps W T) (hrow : row.length = n) :
    pivotStep onlyZero steps row = none ↔ vector n row ∈ W := by
  have hlength := h.length_reduce hrow
  rw [Selection.pivotStep_eq_none_iff, h.mem_iff hrow, hrow]
  constructor
  · intro hnone k hk hlt
    rw [← hlength] at hnone hlt
    have hstart : steps.length < (reduce steps row).length := hk.trans_lt hlt
    exact (onlyZero_greatest_iff hstart).mp (hnone hstart) k hk hlt
  · intro hzero hlt
    rw [← hlength] at hzero hlt
    exact (onlyZero_greatest_iff hlt).mpr hzero

/-- A row that is kept adds one dimension and a step for it. -/
theorem concat (h : Eliminated steps W T) (hrow : row.length = n)
    {steps' : List (PivotStep ℚ)} (hsome : pivotStep onlyZero steps row = some steps') :
    ∃ T', Eliminated steps' (W ⊔ Submodule.span ℚ {vector n row}) T' := by
  obtain ⟨hlt, hsize, rfl⟩ := pivotStep_eq_some_iff.mp hsome
  have hlength := h.length_reduce hrow
  rw [hrow] at hlt
  obtain ⟨hge, hsource, hmagnitude⟩ := greatest_spec (hlength.symm ▸ hlt)
  generalize (greatest steps.length (reduce steps row)).1 = source at *
  rw [hlength] at hsource
  set target : Fin n := ⟨steps.length, hlt⟩ with htarget
  set v := vector n (reduce steps row) with hv
  have hTv : T (vector n row) = v := (h.vector_reduce row hrow).symm
  have hpivot : v ⟨source, hsource⟩ ≠ 0 := by
    intro hzero
    have hentry : (reduce steps row).getD source 0 = 0 := hzero
    rw [hmagnitude, hentry] at hsize
    exact absurd hsize (by decide)
  have hcolumn : vector n (exchange steps.length source (reduce steps row)) =
      fun i => v (Equiv.swap target ⟨source, hsource⟩ i) := by
    ext i
    simp only [vector]
    rw [getD_exchange (hlength.symm ▸ hlt) (hlength.symm ▸ hsource), hv, vector, swap_val]
  have hfits : PivotStep.Fits n
      ⟨steps.length, source, exchange steps.length source (reduce steps row)⟩ :=
    ⟨hlt, hsource, by rw [length_exchange, hlength]⟩
  refine ⟨(elimination target ⟨source, hsource⟩
    (vector n (exchange steps.length source (reduce steps row)))).comp T,
    hrow ▸ fits_of_pivotStep (hrow.symm ▸ h.fits) hsome, ?_, ?_, ?_⟩
  · have hstep : vector n (exchange steps.length source (reduce steps row)) target ≠ 0 := by
      simp only [hcolumn, Equiv.swap_apply_left]
      exact hpivot
    exact (elimination_injective hstep).comp h.injective
  · intro xs hxs
    rw [reduce_concat, vector_apply hfits (h.length_reduce hxs), h.vector_reduce xs hxs]
    rfl
  · rw [Submodule.map_comp, Submodule.map_sup, h.map_eq, Submodule.map_span, Set.image_singleton,
      hTv, hcolumn, List.length_append]
    exact map_elimination_sup hge hpivot

/-- Whether a row is kept or not, the next state is that of the rows visited and this row. -/
theorem step (h : Eliminated steps W T) (hrow : row.length = n) :
    ∃ T', Eliminated ((pivotStep onlyZero steps row).getD steps)
      (W ⊔ Submodule.span ℚ {vector n row}) T' := by
  cases hstep : pivotStep onlyZero steps row with
  | none =>
    have hmem := (h.pivotStep_eq_none_iff hrow).mp hstep
    rw [sup_eq_left.mpr ((Submodule.span_singleton_le_iff_mem _ _).mpr hmem)]
    exact ⟨T, h⟩
  | some steps' => exact h.concat hrow hstep

/-- The state after some of the rows have been visited. -/
theorem finalState_take {rows : List (List ℚ)} (hrows : ∀ row ∈ rows, row.length = n) {j : ℕ}
    (hj : j ≤ rows.length) :
    ∃ T, Eliminated (finalState (pivotStep onlyZero) [] (rows.take j))
      (Submodule.span ℚ {v | ∃ row ∈ rows.take j, vector n row = v}) T := by
  induction j with
  | zero =>
    refine ⟨LinearMap.id, ?_⟩
    have hnone : {v | ∃ row ∈ rows.take 0, vector n row = v} = ∅ := by simp
    rw [hnone, Submodule.span_empty]
    exact nil
  | succ j ih =>
    obtain ⟨T, hT⟩ := ih (Nat.le_of_succ_le hj)
    obtain ⟨T', hT'⟩ := hT.step (hrows _ (List.getElem_mem hj))
    refine ⟨T', ?_⟩
    have hvisited : {v | ∃ row ∈ rows.take (j + 1), vector n row = v} =
        {v | ∃ row ∈ rows.take j, vector n row = v} ∪ {vector n rows[j]} := by
      ext v
      rw [List.take_succ_eq_append_getElem hj]
      simp only [Set.mem_ofPred_eq, Set.mem_union, Set.mem_singleton_iff, List.mem_append,
        List.mem_singleton, or_and_right, exists_or, exists_eq_left, eq_comm (a := v)]
    rw [finalState_take_succ [] hj, hvisited, Submodule.span_union]
    exact hT'

end Eliminated

/-! ## The rows kept -/

def rowsOf {m : ℕ} (A : Matrix (Fin m) (Fin n) ℚ) : List (List ℚ) :=
  List.ofFn fun i => List.ofFn (A i)

theorem vector_ofFn (v : Fin n → ℚ) : vector n (List.ofFn v) = v := by
  ext i
  simp [vector]

/-- A row is kept exactly if it is not a linear combination of the rows before it. -/
theorem mem_byElimination_iff {m : ℕ} (A : Matrix (Fin m) (Fin n) ℚ) (j : Fin m) :
    (j : ℕ) ∈ byElimination onlyZero (rowsOf A) ↔
      A.row j ∉ Submodule.span ℚ (A.row '' Set.Iio j) := by
  have hlength : ∀ row ∈ rowsOf A, row.length = n := by
    simp [rowsOf]
  have hj : (j : ℕ) < (rowsOf A).length := by simp [rowsOf]
  have hrow : vector n (rowsOf A)[(j : ℕ)] = A.row j := by
    simp only [rowsOf, List.getElem_ofFn]
    exact vector_ofFn _
  have hbefore : {v | ∃ row ∈ (rowsOf A).take j, vector n row = v} = A.row '' Set.Iio j := by
    ext v
    constructor
    · rintro ⟨row, hmem, rfl⟩
      obtain ⟨i, hi, rfl⟩ := List.mem_take_iff_getElem.mp hmem
      have hij : i < j := (lt_min_iff.mp hi).1
      refine ⟨⟨i, hij.trans j.isLt⟩, hij, ?_⟩
      simp only [rowsOf, List.getElem_ofFn]
      exact (vector_ofFn _).symm
    · rintro ⟨i, hi, rfl⟩
      have hlt : (i : ℕ) < min (j : ℕ) (rowsOf A).length := lt_min hi (by simp [rowsOf])
      refine ⟨List.ofFn (A i), List.mem_take_iff_getElem.mpr ⟨i, hlt, ?_⟩, vector_ofFn _⟩
      simp [rowsOf]
  obtain ⟨T, hT⟩ := Eliminated.finalState_take hlength hj.le
  rw [byElimination, mem_keep_iff, ← hbefore, ← hrow,
    ← hT.pivotStep_eq_none_iff (hlength _ (List.getElem_mem hj)), ← Ne.eq_def,
    Option.ne_none_iff_isSome]
  exact ⟨Exists.snd, fun h => ⟨hj, h⟩⟩

/-- Elimination in exact arithmetic selects the basis that going through the rows in order does. -/
theorem selectsRowBasis_byElimination {m : ℕ} (A : Matrix (Fin m) (Fin n) ℚ) :
    SelectsRowBasis A (byElimination onlyZero (rowsOf A)) := by
  refine .of_mem_iff (pairwise_keep 0 [] _) (fun i hi => ?_) (mem_byElimination_iff A)
  have := (bounds_of_mem_keep hi).2
  simpa [rowsOf] using this

end StandardForm.Selection
