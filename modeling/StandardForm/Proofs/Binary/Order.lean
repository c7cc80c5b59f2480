import StandardForm.Binary.Basic

/-!
# The order of floating-point numbers

Numbers other than NaN are compared through their positions on the ladder, so the order is total on
them, except that the two zeros are equal without being the same. A NaN is related to nothing.
Between two different numbers there is always a finite one, the infinities included.
-/

namespace StandardForm

/-- No number of a list is a NaN. -/
def NaNFree {f : FloatFormat} (xs : List (Binary f)) : Prop := ∀ x ∈ xs, x.isNaN = false

instance {f : FloatFormat} (xs : List (Binary f)) : Decidable (NaNFree xs) :=
  inferInstanceAs (Decidable (∀ x ∈ xs, x.isNaN = false))

namespace Binary

variable {f : FloatFormat} {x y : Binary f}

def max (x y : Binary f) : Binary f :=
  if x.isNaN then x else if y.isNaN then y else if x < y then y else x

/-- Only a NaN does not equal itself. -/
theorem equals_self_iff (x : Binary f) : x.equals x = true ↔ x.isNaN = false := by
  cases x <;> simp [equals, isNaN]

theorem equals_comm (x y : Binary f) : x.equals y = y.equals x := by
  cases x with
  | nan => cases y <;> rfl
  | num s r =>
    cases y with
    | nan => rfl
    | num t q => exact Bool.beq_comm

theorem lt_asymm (h : x.lt y = true) : y.lt x = false := by
  cases x with
  | nan => cases h
  | num s r =>
    cases y with
    | nan => cases h
    | num t q =>
      simp only [lt, decide_eq_true_eq, decide_eq_false_iff_not] at h ⊢
      omega

/-- What is below or above a number is a number. -/
theorem isNaN_of_lt (h : x < y) : x.isNaN = false ∧ y.isNaN = false := by
  change x.lt y = true at h
  cases x with
  | nan => cases h
  | num s r =>
    cases y with
    | nan => cases h
    | num t q => exact ⟨rfl, rfl⟩

theorem isNaN_of_le (h : x ≤ y) : x.isNaN = false ∧ y.isNaN = false := by
  change x.le y = true at h
  cases x with
  | nan => cases h
  | num s r =>
    cases y with
    | nan => cases h
    | num t q => exact ⟨rfl, rfl⟩

/-- Two numbers are equal, or one of them is below the other. -/
theorem lt_or_gt (hx : x.isNaN = false) (hy : y.isNaN = false) (h : x.equals y = false) :
    x < y ∨ y < x := by
  cases x with
  | nan => cases hx
  | num s r =>
    cases y with
    | nan => cases hy
    | num t q =>
      simp only [equals, beq_eq_false_iff_ne] at h
      change decide _ = true ∨ decide _ = true
      simp only [decide_eq_true_eq]
      omega

theorem le_refl (h : x.isNaN = false) : x ≤ x := by
  cases x with
  | nan => cases h
  | num s r => exact decide_eq_true (Int.le_refl _)

theorem lt_trans {z : Binary f} (h : x < y) (h' : y < z) : x < z := by
  change x.lt y = true at h
  change y.lt z = true at h'
  cases x with
  | nan => cases h
  | num s r =>
    cases y with
    | nan => cases h
    | num t q =>
      cases z with
      | nan => cases h'
      | num u k =>
        have hlt : position s r.val < position t q.val := of_decide_eq_true h
        have hlt' : position t q.val < position u k.val := of_decide_eq_true h'
        exact decide_eq_true (Int.lt_trans hlt hlt')

theorem le_of_lt (h : x < y) : x ≤ y := by
  change x.lt y = true at h
  change x.le y = true
  cases x with
  | nan => cases h
  | num s r =>
    cases y with
    | nan => cases h
    | num t q =>
      simp only [lt, le, decide_eq_true_eq] at h ⊢
      omega

theorem lt_of_lt_of_le {z : Binary f} (h : x < y) (h' : y ≤ z) : x < z := by
  change x.lt y = true at h
  change y.le z = true at h'
  cases x with
  | nan => cases h
  | num s r =>
    cases y with
    | nan => cases h
    | num t q =>
      cases z with
      | nan => cases h'
      | num u k =>
        have hlt : position s r.val < position t q.val := of_decide_eq_true h
        have hle : position t q.val ≤ position u k.val := of_decide_eq_true h'
        exact decide_eq_true (Int.lt_of_lt_of_le hlt hle)

theorem zero_le_num (r : Fin (f.top + 1)) : (0 : Binary f) ≤ num false r :=
  decide_eq_true (Int.natCast_nonneg r.val)

/-- Zero lies between two infinite numbers that differ. -/
theorem zero_between_infinite (h : x < y) (hx : x.isFinite = false) (hy : y.isFinite = false) :
    x ≤ 0 ∧ 0 ≤ y := by
  change x.lt y = true at h
  cases x with
  | nan => cases h
  | num s r =>
    cases y with
    | nan => cases h
    | num t q =>
      simp only [isFinite, bne_eq_false_iff_eq] at hx hy
      simp only [lt, decide_eq_true_eq, hx, hy] at h
      change decide (position s r.val ≤ position false 0) = true ∧
        decide (position false 0 ≤ position t q.val) = true
      simp only [decide_eq_true_eq, hx, hy]
      cases s <;> cases t <;> simp only [position] at h ⊢ <;> omega

/-- Where one number is below another there is room for a finite one. -/
theorem exists_finite_between (h : x < y) : ∃ z : Binary f, z.isFinite = true ∧ x ≤ z ∧ z ≤ y := by
  obtain ⟨hx, hy⟩ := isNaN_of_lt h
  cases hxfin : x.isFinite with
  | true => exact ⟨x, hxfin, le_refl hx, le_of_lt h⟩
  | false =>
    cases hyfin : y.isFinite with
    | true => exact ⟨y, hyfin, le_of_lt h, le_refl hy⟩
    | false =>
      have htop : f.top ≠ 0 := by cases f <;> decide
      exact ⟨0, bne_iff_ne.mpr htop.symm, zero_between_infinite h hxfin hyfin⟩

end Binary

end StandardForm
