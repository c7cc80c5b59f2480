import Mathlib.Data.List.GetD
import Mathlib.Data.List.Sort
import StandardForm.Problem.Region
import StandardForm.Proofs.Attempt
import StandardForm.Proofs.Binary.Order

/-!
# Bounds in order

Putting bounds in order exchanges the two bounds of some variables. Whether the bounds of a
variable agree, and whether one of them is finite, does not depend on which comes first, so what
the checks of a region have found still holds afterwards. No bounds are in reverse order any
more, and putting them in order again changes nothing.
-/

namespace StandardForm

namespace Region

variable {p : Precision}

/-! ## Lists of bounds -/

theorem indicesWhere_eq_nil {α : Type} {related : α → α → Bool} {xs ys : List α} :
    indicesWhere related xs ys = [] ↔ ∀ v ∈ List.zipWith related xs ys, v = false := by
  simp only [indicesWhere, List.map_eq_nil_iff, List.filter_eq_nil_iff, Prod.forall,
    Bool.not_eq_true]
  constructor
  · intro h v hv
    obtain ⟨i, hi, rfl⟩ := List.mem_iff_getElem.mp hv
    exact h _ i (List.mem_zipIdx_iff_getElem?.mpr (List.getElem?_eq_getElem hi))
  · intro h v i hv
    exact h v (List.fst_mem_of_mem_zipIdx hv)

theorem mem_indicesWhere {α : Type} {related : α → α → Bool} {xs ys : List α} {i : Nat} :
    i ∈ indicesWhere related xs ys ↔
      ∃ x y, xs[i]? = some x ∧ ys[i]? = some y ∧ related x y = true := by
  simp only [indicesWhere, List.mem_map, List.mem_filter, List.mem_zipIdx_iff_getElem?]
  constructor
  · rintro ⟨⟨v, j⟩, ⟨hv, htrue⟩, rfl⟩
    obtain ⟨x, y, hx, hy, rfl⟩ := List.getElem?_zipWith_eq_some.mp hv
    exact ⟨x, y, hx, hy, htrue⟩
  · rintro ⟨x, y, hx, hy, htrue⟩
    exact ⟨(related x y, i), ⟨List.getElem?_zipWith_eq_some.mpr ⟨x, y, hx, hy, rfl⟩, htrue⟩, rfl⟩

theorem pairwise_indicesWhere {α : Type} (related : α → α → Bool) (xs ys : List α) :
    (indicesWhere related xs ys).Pairwise (· < ·) := by
  have hindices : ((List.zipWith related xs ys).zipIdx.map Prod.snd).Pairwise (· < ·) := by
    rw [List.zipIdx_map_snd]
    exact List.pairwise_lt_range'
  exact hindices.sublist (List.filter_sublist.map Prod.snd)

/-- The indices at which two lists stand in a relation are found position by position. -/
theorem indicesWhere_eq_filter {α : Type} (related : α → α → Bool) (default : α) {xs ys : List α}
    {N : ℕ} (hx : xs.length = N) (hy : ys.length = N) :
    indicesWhere related xs ys =
      (List.range N).filter fun i => related (xs.getD i default) (ys.getD i default) := by
  refine (pairwise_indicesWhere _ _ _).eq_of_mem_iff
    (List.pairwise_lt_range.sublist List.filter_sublist) fun i => ?_
  rw [mem_indicesWhere, List.mem_filter, List.mem_range]
  constructor
  · rintro ⟨x, y, hxi, hyi, h⟩
    refine ⟨hx ▸ (List.getElem?_eq_some_iff.mp hxi).1, ?_⟩
    rwa [List.getD_eq_getElem?_getD, List.getD_eq_getElem?_getD, hxi, hyi]
  · rintro ⟨hi, h⟩
    have hxi : i < xs.length := hx ▸ hi
    have hyi : i < ys.length := hy ▸ hi
    rw [List.getD_eq_getElem _ _ hxi, List.getD_eq_getElem _ _ hyi] at h
    exact ⟨_, _, List.getElem?_eq_getElem hxi, List.getElem?_eq_getElem hyi, h⟩

theorem zipWith_zipWith {α β γ : Type} (related : β → β → γ) (first second : α → α → β)
    (xs ys : List α) :
    List.zipWith related (List.zipWith first xs ys) (List.zipWith second xs ys) =
      List.zipWith (fun x y => related (first x y) (second x y)) xs ys := by
  induction xs generalizing ys with
  | nil => rfl
  | cons x xs ih =>
    cases ys with
    | nil => rfl
    | cons y ys => simp [ih]

theorem any_or_any {α : Type} (holds : α → Bool) {xs ys : List α} (h : xs.length = ys.length) :
    (xs.any holds || ys.any holds) = (List.zipWith (fun x y => holds x || holds y) xs ys).any id := by
  induction xs generalizing ys with
  | nil => cases ys with
    | nil => rfl
    | cons => cases h
  | cons x xs ih =>
    cases ys with
    | nil => cases h
    | cons y ys =>
      have := ih (Nat.succ.inj h)
      simp only [List.any_cons, List.zipWith_cons_cons, id, ← this]
      cases holds x <;> cases holds y <;> simp

/-! ## One pair of bounds -/

section Pair

variable {f : FloatFormat} (d u : Binary f)

theorem equals_lowerOf_upperOf : (lowerOf d u).equals (upperOf d u) = d.equals u := by
  unfold lowerOf upperOf
  split
  · exact Binary.equals_comm u d
  · rfl

theorem upperOf_lt_lowerOf : (upperOf d u).lt (lowerOf d u) = false := by
  unfold lowerOf upperOf
  split
  · next h => exact Binary.lt_asymm h
  · next h => exact Bool.eq_false_iff.mpr h

theorem isFinite_lowerOf_or_upperOf :
    ((lowerOf d u).isFinite || (upperOf d u).isFinite) = (d.isFinite || u.isFinite) := by
  unfold lowerOf upperOf
  split
  · exact Bool.or_comm _ _
  · rfl

end Pair

/-! ## Regions -/

theorem length_bounds (R : Region p) : R.d.entries.length = R.u.entries.length := by
  rw [R.d.length_entries, R.u.length_entries, R.bounds_shape]

theorem fixed_orderBounds (R : Region p) : R.orderBounds.fixed = R.fixed := by
  change indicesWhere _ (List.zipWith lowerOf R.d.entries R.u.entries)
    (List.zipWith upperOf R.d.entries R.u.entries) = _
  simp only [indicesWhere, zipWith_zipWith, equals_lowerOf_upperOf, fixed]

theorem reversed_orderBounds (R : Region p) : R.orderBounds.reversed = [] := by
  refine indicesWhere_eq_nil.mpr fun v hv => ?_
  change v ∈ List.zipWith _ (List.zipWith lowerOf R.d.entries R.u.entries)
    (List.zipWith upperOf R.d.entries R.u.entries) at hv
  rw [zipWith_zipWith] at hv
  simp only [upperOf_lt_lowerOf] at hv
  obtain ⟨i, hi, rfl⟩ := List.mem_iff_getElem.mp hv
  exact List.getElem_zipWith

theorem hasFiniteBound_orderBounds (R : Region p) :
    R.orderBounds.hasFiniteBound = R.hasFiniteBound := by
  have hlength := R.orderBounds.length_bounds
  unfold hasFiniteBound
  rw [any_or_any _ hlength, any_or_any _ R.length_bounds]
  change (List.zipWith _ (List.zipWith lowerOf R.d.entries R.u.entries)
    (List.zipWith upperOf R.d.entries R.u.entries)).any id = _
  simp only [zipWith_zipWith, isFinite_lowerOf_or_upperOf]

theorem checkBounds_eq_ok {R : Region p} :
    R.checkBounds = .ok () ↔ R.fixed = [] ∧ (R.J = 0 → R.hasFiniteBound = true) := by
  unfold checkBounds
  split
  · next h => simp [h]
  · next h =>
    split
    · next h' =>
      have : R.hasFiniteBound = false := by simpa using h'.2
      simp [h'.1, this]
    · next h' =>
      simp only [ne_eq, Decidable.not_not] at h
      simp only [h, true_and, true_iff]
      intro hJ
      simpa [hJ] using h'

/-- What the check has found of the bounds holds of the bounds in order. -/
theorem checkBounds_orderBounds (R : Region p) : R.orderBounds.checkBounds = R.checkBounds := by
  unfold checkBounds
  rw [fixed_orderBounds, hasFiniteBound_orderBounds]
  rfl

theorem zipWith_eq_left {α : Type} {g : α → α → α} {related : α → α → Bool}
    (hg : ∀ x y, related x y = false → g x y = x) {xs ys : List α} (h : xs.length = ys.length)
    (hrelated : ∀ v ∈ List.zipWith related xs ys, v = false) : List.zipWith g xs ys = xs := by
  induction xs generalizing ys with
  | nil => rfl
  | cons x xs ih =>
    cases ys with
    | nil => cases h
    | cons y ys =>
      simp only [List.zipWith_cons_cons, List.forall_mem_cons] at hrelated ⊢
      rw [hg x y hrelated.1, ih (Nat.succ.inj h) hrelated.2]

/-- Bounds in order stay as they are. -/
theorem orderBounds_of_reversed {R : Region p} (h : R.reversed = []) : R.orderBounds = R := by
  have hrelated := indicesWhere_eq_nil.mp h
  have hlower : List.zipWith lowerOf R.d.entries R.u.entries = R.d.entries :=
    zipWith_eq_left (fun d u hdu => if_neg (Bool.not_eq_true _ ▸ hdu)) R.length_bounds hrelated
  have hupper : List.zipWith upperOf R.d.entries R.u.entries = R.u.entries := by
    rw [List.zipWith_comm] at hrelated ⊢
    exact zipWith_eq_left (fun u d hdu => if_neg (Bool.not_eq_true _ ▸ hdu)) R.length_bounds.symm
      hrelated
  exact Region.ext rfl rfl rfl rfl rfl rfl rfl (Tensor.ext rfl hlower)
    (Tensor.ext R.bounds_shape hupper)

end Region

end StandardForm
