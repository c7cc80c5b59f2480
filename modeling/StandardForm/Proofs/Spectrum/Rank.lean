import Mathlib.Data.List.TakeWhile
import StandardForm.Proofs.Spectrum.Routines
import StandardForm.Spectrum.Rounded

/-!
# Ranks by counting roots

A rank is a count of roots. The polynomial has as many roots as the smaller one of the two
products of the matrix with its transpose has rows, and its leading coefficient is one, so the
rules of counting, changes of sign and vanishing coefficients at the low end, cannot give more:
a rank exceeds neither side of the matrix. The other laws of ranks hold by definition.
-/

namespace StandardForm.Spectrum

/-! ## Counting roots -/

theorem variations_lt_length {cs : List Int} (h : cs ≠ []) : variations cs < cs.length := by
  fun_induction variations cs with
  | case1 a b cs ih =>
    have := ih (by simp)
    simp only [List.length_cons] at this ⊢
    split <;> omega
  | case2 => exact List.length_pos_of_ne_nil h

/-- The vanishing coefficients at the low end and the changes of sign are fewer than the
coefficients, if some coefficient does not vanish. -/
theorem variations_add_zeros_lt {cs : List Int} {c : Int} (hc : c ≠ 0) (hmem : c ∈ cs) :
    variations (cs.filter (· ≠ 0)) + (cs.takeWhile (· = 0)).length < cs.length := by
  have hne : cs.filter (· ≠ 0) ≠ [] := List.ne_nil_of_mem (List.mem_filter.mpr ⟨hmem, by simpa⟩)
  have hlow : (cs.takeWhile (· = 0)).filter (· ≠ 0) = [] := by
    refine List.filter_eq_nil_iff.mpr fun a ha => ?_
    have := List.mem_takeWhile_imp ha
    simpa using this
  have hsplit : (cs.filter (· ≠ 0)).length ≤ (cs.dropWhile (· = 0)).length := by
    conv_lhs => rw [← List.takeWhile_append_dropWhile (p := (· = 0)) (l := cs)]
    rw [List.filter_append, hlow, List.nil_append]
    exact List.length_filter_le _ _
  have hall := congrArg List.length (List.takeWhile_append_dropWhile (p := (· = 0)) (l := cs))
  rw [List.length_append] at hall
  have := variations_lt_length hne
  omega

@[simp] theorem length_synthetic (t carry : Int) (p : List Int) :
    (synthetic t carry p).length = p.length := by
  induction p generalizing carry with
  | nil => rfl
  | cons c p ih => simp [synthetic, ih]

@[simp] theorem length_shiftedFrom (t : Int) (steps : Nat) (p : List Int) :
    (shiftedFrom t steps p).length = steps := by
  induction steps generalizing p with
  | zero => rfl
  | succ steps ih => simp [shiftedFrom, ih]

@[simp] theorem length_scaleRoots (k power : Int) (p : List Int) :
    (scaleRoots k power p).length = p.length := by
  induction p generalizing power with
  | nil => rfl
  | cons c p ih => simp [scaleRoots, ih]

/-- Moving the origin keeps the leading coefficient. -/
theorem mem_shiftedFrom (t c : Int) (p : List Int) : c ∈ shiftedFrom t (p.length + 1) (c :: p) := by
  induction h : p.length generalizing p with
  | zero =>
    obtain rfl := List.length_eq_zero_iff.mp h
    simp [shiftedFrom, synthetic]
  | succ n ih =>
    have hlast : (synthetic t c p).dropLast.length = n := by simp [h]
    have hcut : (synthetic t 0 (c :: p)).dropLast = c :: (synthetic t c p).dropLast := by
      have hne : synthetic t c p ≠ [] := by
        intro hnil
        have := congrArg List.length hnil
        simp [h] at this
      simp [synthetic, List.dropLast_cons_of_ne_nil hne]
    rw [shiftedFrom, hcut]
    exact List.mem_cons_of_mem _ (hlast ▸ ih _ hlast)

/-- There are no more roots from a point on than the polynomial has. -/
theorem rootsFrom_le (p : List Int) (num : Int) (den : Nat) :
    (rootsFrom (1 :: p) num den).1 + (rootsFrom (1 :: p) num den).2 ≤ p.length := by
  have hone : (1 : Int) ∈ around (1 :: p) num den := by
    have h := mem_shiftedFrom (num / (num.natAbs.gcd den)) 1
      (scaleRoots (den / (num.natAbs.gcd den)) (1 * (den / (num.natAbs.gcd den))) p)
    rw [length_scaleRoots] at h
    simpa [around, shifted, scaleRoots] using h
  have hlength : (around (1 :: p) num den).length = p.length + 1 := by
    simp [around, shifted]
  have hlt := variations_add_zeros_lt Int.one_ne_zero hone
  rw [hlength] at hlt
  exact Nat.lt_succ_iff.mp hlt

/-! ## The polynomial of the singular values -/

theorem exists_coefficientsFrom (sums : List Int) (steps : Nat) (k : Int) (known : List Int) :
    ∃ p, coefficientsFrom sums steps k known = known.reverse ++ p ∧ p.length = steps := by
  induction steps generalizing k known with
  | zero => exact ⟨[], by simp [coefficientsFrom], rfl⟩
  | succ steps ih =>
    obtain ⟨p, hp, hlength⟩ := ih (k + 1) (-(dot known sums / k) :: known)
    exact ⟨-(dot known sums / k) :: p, by simp [coefficientsFrom, hp], by simp [hlength]⟩

/-- A characteristic polynomial has the leading coefficient one and the size of the matrix as its
degree. -/
theorem exists_characteristic (A : List (List Int)) :
    ∃ p, characteristic A = 1 :: p ∧ p.length = A.length := by
  obtain ⟨p, hp, hlength⟩ := exists_coefficientsFrom (powerSums A.length A) A.length 1 [1]
  exact ⟨p, by simpa [characteristic] using hp, hlength⟩

@[simp] theorem length_gram (rows : List (List Int)) : (gram rows).length = rows.length := by
  simp [gram, product, reflected]

namespace SingularValues

/-- The polynomial has the leading coefficient one and the smaller side as its degree. -/
theorem exists_polynomial (width : Nat) (rows : List (List Double)) :
    ∃ p, (ofRows width rows).polynomial = 1 :: p ∧ p.length = min rows.length width := by
  let products := gram (if rows.length ≤ width then (Exact.ofRows rows).rows
    else columns width (Exact.ofRows rows).rows)
  have hlength : products.length = min rows.length width := by
    simp only [products, length_gram]
    split
    · simp only [Exact.ofRows, List.length_map]
      omega
    · simp only [columns, List.length_map, List.length_range]
      omega
  obtain ⟨p, hp, hdegree⟩ := exists_characteristic products
  exact ⟨p, hp, hdegree.trans hlength⟩

theorem countFrom_le (width : Nat) (rows : List (List Double)) (n : Nat) :
    (ofRows width rows).countFrom n ≤ min rows.length width := by
  obtain ⟨p, hp, hdegree⟩ := exists_polynomial width rows
  have hle := rootsFrom_le p ((ofRows width rows).lowerEnd n).1 ((ofRows width rows).lowerEnd n).2
  rw [← hp, hdegree] at hle
  refine Nat.le_trans ?_ hle
  unfold countFrom
  dsimp only
  refine Nat.add_le_add_left ?_ _
  split
  · exact Nat.le_refl _
  · exact Nat.zero_le _

theorem countAbove_le (width : Nat) (rows : List (List Double)) (tolerance : Double) :
    (ofRows width rows).countAbove tolerance ≤ min rows.length width := by
  unfold countAbove
  split
  · exact Nat.zero_le _
  · split
    · exact Nat.zero_le _
    · exact countFrom_le width rows _

end SingularValues

/-! ## Ranks -/

theorem significant_le (width : Nat) (rows : List (List Double)) :
    significant width rows ≤ min rows.length width :=
  SingularValues.countAbove_le width rows _

section Rows

variable {rows : List (List Double)} (width : Nat)

theorem roundedRank?_of_nan (h : ¬ AllNumbers rows) : roundedRank? width rows = none :=
  if_pos (Bool.of_not_eq_false (mt allNumbers_iff.mpr h))

theorem roundedRank?_of_infinite (h : AllNumbers rows) (hfinite : ¬ AllFinite rows) :
    roundedRank? width rows = some 0 := by
  have hinf : rows.any (·.any Binary.isInfinite) = true :=
    Bool.of_not_eq_false fun hinf => hfinite (allFinite_iff.mpr ⟨h, hinf⟩)
  rw [roundedRank?, if_neg (Bool.eq_false_iff.mp (allNumbers_iff.mp h)), if_pos hinf]

/-- Of a finite matrix the rank is the number of singular values above the tolerance. -/
theorem roundedRank?_of_finite (h : AllFinite rows) :
    roundedRank? width rows = some (significant width rows) := by
  obtain ⟨hnumbers, hinf⟩ := allFinite_iff.mp h
  rw [roundedRank?, if_neg (Bool.eq_false_iff.mp (allNumbers_iff.mp hnumbers)),
    if_neg (Bool.eq_false_iff.mp hinf)]

theorem roundedRank?_le {r : Nat} (h : roundedRank? width rows = some r) :
    r ≤ min rows.length width := by
  by_cases hnumbers : AllNumbers rows
  · by_cases hfinite : AllFinite rows
    · cases (roundedRank?_of_finite width hfinite).symm.trans h
      exact significant_le width rows
    · cases (roundedRank?_of_infinite width hnumbers hfinite).symm.trans h
      exact Nat.zero_le _
  · cases (roundedRank?_of_nan width hnumbers).symm.trans h

end Rows

instance : LawfulRank where
  rank?_le width _ _ := roundedRank?_le width
  rank?_of_nan width _ := roundedRank?_of_nan width
  rank?_of_infinite width _ := roundedRank?_of_infinite width

instance : ConvergentRank where
  exists_rank? width rows h := by
    by_cases hfinite : AllFinite rows
    · exact ⟨_, roundedRank?_of_finite width hfinite⟩
    · exact ⟨_, roundedRank?_of_infinite width h hfinite⟩

end StandardForm.Spectrum
