import Mathlib.Analysis.InnerProductSpace.PiL2

/-!
# Nearly orthonormal families

The Gram matrix of an orthonormal family is the identity. Where it differs from the identity by
little, in the sum of each row, the family behaves much like an orthonormal one: the length of a
combination is about that of its coefficients, so that the vectors are linearly independent, and
what lies in the span of the family is nearly removed by subtracting the projections on its members.
-/

namespace StandardForm.Selection

variable {ι E : Type} [NormedAddCommGroup E] [InnerProductSpace ℝ E]

def combination [Fintype ι] (b : ι → E) (α : ι → ℝ) : E := ∑ l, α l • b l

/-- A vector less its projections on the members of a family. -/
def across [Fintype ι] (b : ι → E) (v : E) : E := v - combination b fun l => inner ℝ (b l) v

theorem across_sub [Fintype ι] (b : ι → E) (v w : E) :
    across b (v - w) = across b v - across b w := by
  simp only [across, combination, inner_sub_right, sub_smul, Finset.sum_sub_distrib]
  abel

theorem inner_combination_left [Fintype ι] (b : ι → E) (α : ι → ℝ) (v : E) :
    inner ℝ (combination b α) v = ∑ l, α l * inner ℝ (b l) v := by
  simp only [combination, sum_inner, real_inner_smul_left]

def gramDefect [DecidableEq ι] (b : ι → E) (l m : ι) : ℝ :=
  inner ℝ (b l) (b m) - if l = m then 1 else 0

theorem gramDefect_comm [DecidableEq ι] (b : ι → E) (l m : ι) :
    gramDefect b l m = gramDefect b m l := by
  simp only [gramDefect, real_inner_comm, eq_comm]

variable [Fintype ι] [DecidableEq ι]

/-- A family whose Gram matrix is within `η` of the identity, in the sum of every row. -/
def NearlyOrthonormal (η : ℝ) (b : ι → E) : Prop := ∀ l, ∑ m, |gramDefect b l m| ≤ η

theorem inner_combination (b : ι → E) (α : ι → ℝ) (l : ι) :
    inner ℝ (b l) (combination b α) = α l + ∑ m, gramDefect b l m * α m := by
  simp only [combination, inner_sum, real_inner_smul_right, gramDefect, sub_mul,
    Finset.sum_sub_distrib, ite_mul, one_mul, zero_mul, Finset.sum_ite_eq, Finset.mem_univ, if_true]
  rw [add_sub_cancel]
  exact Finset.sum_congr rfl fun m _ => mul_comm _ _

namespace NearlyOrthonormal

variable {η : ℝ} {b : ι → E}

theorem of_orthonormal (h : Orthonormal ℝ b) (hη : 0 ≤ η) : NearlyOrthonormal η b := by
  intro l
  have hdefect (m : ι) : gramDefect b l m = 0 :=
    sub_eq_zero.mpr (orthonormal_iff_ite.mp h l m)
  simpa [hdefect] using hη

/-- Some of nearly orthonormal vectors are nearly orthonormal. -/
theorem comp {κ : Type} [Fintype κ] [DecidableEq κ] (h : NearlyOrthonormal η b) {e : κ → ι}
    (he : Function.Injective e) : NearlyOrthonormal η (b ∘ e) := by
  intro l
  have hdefect (m : κ) : gramDefect (b ∘ e) l m = gramDefect b (e l) (e m) := by
    simp only [gramDefect, Function.comp_apply, he.eq_iff]
  calc ∑ m, |gramDefect (b ∘ e) l m|
      = ∑ m ∈ Finset.univ.map ⟨e, he⟩, |gramDefect b (e l) m| := by
        simp only [hdefect, Finset.sum_map, Function.Embedding.coeFn_mk]
    _ ≤ ∑ m, |gramDefect b (e l) m| :=
        Finset.sum_le_univ_sum_of_nonneg fun m => abs_nonneg _
    _ ≤ η := h (e l)

theorem nonneg [Nonempty ι] (h : NearlyOrthonormal η b) : 0 ≤ η :=
  (Finset.sum_nonneg fun _ _ => abs_nonneg _).trans (h (Classical.arbitrary ι))

/-- A matrix with small row sums makes coefficients small. -/
theorem sum_sq_gramDefect_le (h : NearlyOrthonormal η b) (α : ι → ℝ) :
    ∑ l, (∑ m, gramDefect b l m * α m) ^ 2 ≤ η ^ 2 * ∑ l, α l ^ 2 := by
  have hrow (l : ι) :
      (∑ m, gramDefect b l m * α m) ^ 2 ≤ η * ∑ m, |gramDefect b l m| * α m ^ 2 := by
    calc (∑ m, gramDefect b l m * α m) ^ 2
        ≤ (∑ m, |gramDefect b l m|) * ∑ m, |gramDefect b l m| * α m ^ 2 := by
          refine Finset.sum_sq_le_sum_mul_sum_of_sq_le_mul _ (fun m _ => abs_nonneg _)
            (fun m _ => by positivity) fun m _ => le_of_eq ?_
          rw [mul_pow, ← sq_abs (gramDefect b l m)]
          ring
      _ ≤ η * ∑ m, |gramDefect b l m| * α m ^ 2 :=
          mul_le_mul_of_nonneg_right (h l) (Finset.sum_nonneg fun m _ => by positivity)
  calc ∑ l, (∑ m, gramDefect b l m * α m) ^ 2
      ≤ ∑ l, η * ∑ m, |gramDefect b l m| * α m ^ 2 := Finset.sum_le_sum fun l _ => hrow l
    _ = η * ∑ m, (∑ l, |gramDefect b m l|) * α m ^ 2 := by
        rw [← Finset.mul_sum, Finset.sum_comm]
        simp only [Finset.sum_mul, gramDefect_comm b]
    _ ≤ η * ∑ m, η * α m ^ 2 := by
        rcases isEmpty_or_nonempty ι with hempty | hnonempty
        · simp
        · exact mul_le_mul_of_nonneg_left
            (Finset.sum_le_sum fun m _ => mul_le_mul_of_nonneg_right (h m) (sq_nonneg _)) h.nonneg
    _ = η ^ 2 * ∑ l, α l ^ 2 := by
        rw [← Finset.mul_sum]
        ring

/-- The square of a length differs little from that of the coefficients. -/
theorem abs_norm_sq_sub_le (h : NearlyOrthonormal η b) (hη : 0 ≤ η) (α : ι → ℝ) :
    |‖combination b α‖ ^ 2 - ∑ l, α l ^ 2| ≤ η * ∑ l, α l ^ 2 := by
  have hsum : ‖combination b α‖ ^ 2 - ∑ l, α l ^ 2 = ∑ l, α l * ∑ m, gramDefect b l m * α m := by
    rw [← real_inner_self_eq_norm_sq, inner_combination_left]
    simp only [inner_combination, mul_add, Finset.sum_add_distrib, ← pow_two]
    ring
  have hnonneg : 0 ≤ ∑ l, α l ^ 2 := Finset.sum_nonneg fun l _ => sq_nonneg _
  rw [hsum]
  refine abs_le_of_sq_le_sq ?_ (by positivity)
  calc (∑ l, α l * ∑ m, gramDefect b l m * α m) ^ 2
      ≤ (∑ l, α l ^ 2) * ∑ l, (∑ m, gramDefect b l m * α m) ^ 2 :=
        Finset.sum_mul_sq_le_sq_mul_sq _ _ _
    _ ≤ (∑ l, α l ^ 2) * (η ^ 2 * ∑ l, α l ^ 2) :=
        mul_le_mul_of_nonneg_left (h.sum_sq_gramDefect_le α) hnonneg
    _ = (η * ∑ l, α l ^ 2) ^ 2 := by ring

/-- Nearly orthonormal vectors are linearly independent. -/
theorem linearIndependent (h : NearlyOrthonormal η b) (hη : 0 ≤ η) (hlt : η < 1) :
    LinearIndependent ℝ b := by
  refine Fintype.linearIndependent_iff.mpr fun α hα => ?_
  have hclose := h.abs_norm_sq_sub_le hη α
  have hzero : combination b α = 0 := hα
  have hnonneg : 0 ≤ ∑ l, α l ^ 2 := Finset.sum_nonneg fun l _ => sq_nonneg _
  rw [hzero, norm_zero, zero_pow two_ne_zero, zero_sub, abs_neg, abs_of_nonneg hnonneg] at hclose
  have hsum : ∑ l, α l ^ 2 = 0 := by
    have : (1 - η) * ∑ l, α l ^ 2 ≤ 0 := by linarith
    exact le_antisymm (nonpos_of_mul_nonpos_right this (by linarith)) hnonneg
  intro l
  have hall := Finset.sum_eq_zero_iff_of_nonneg fun l (_ : l ∈ Finset.univ) => sq_nonneg (α l)
  have hl := hall.mp hsum l (Finset.mem_univ l)
  exact pow_eq_zero_iff two_ne_zero |>.mp hl

/-- There are no more nearly orthonormal vectors than dimensions. -/
theorem card_le [FiniteDimensional ℝ E] (h : NearlyOrthonormal η b) (hη : 0 ≤ η) (hlt : η < 1) :
    Fintype.card ι ≤ Module.finrank ℝ E :=
  (h.linearIndependent hη hlt).fintype_card_le_finrank

theorem norm_sq_le (h : NearlyOrthonormal η b) (hη : 0 ≤ η) (α : ι → ℝ) :
    ‖combination b α‖ ^ 2 ≤ (1 + η) * ∑ l, α l ^ 2 := by
  linarith [(abs_le.mp (h.abs_norm_sq_sub_le hη α)).2]

theorem le_norm_sq (h : NearlyOrthonormal η b) (hη : 0 ≤ η) (α : ι → ℝ) :
    (1 - η) * ∑ l, α l ^ 2 ≤ ‖combination b α‖ ^ 2 := by
  linarith [(abs_le.mp (h.abs_norm_sq_sub_le hη α)).1]

/-- Of a combination of the family nearly nothing lies across it. -/
theorem norm_across_combination_le (h : NearlyOrthonormal η b) (hη : 0 ≤ η) (hhalf : η ≤ 1 / 2)
    (α : ι → ℝ) : ‖across b (combination b α)‖ ≤ 2 * η * ‖combination b α‖ := by
  have hacross : across b (combination b α) =
      combination b fun l => -∑ m, gramDefect b l m * α m := by
    simp only [across, inner_combination]
    simp only [combination, add_smul, neg_smul, Finset.sum_add_distrib, Finset.sum_neg_distrib]
    abel
  have hnonneg : 0 ≤ ∑ l, α l ^ 2 := Finset.sum_nonneg fun l _ => sq_nonneg _
  rw [hacross]
  refine le_of_sq_le_sq ?_ (by positivity)
  have hupper := h.norm_sq_le hη fun l => -∑ m, gramDefect b l m * α m
  have hsmall := h.sum_sq_gramDefect_le α
  have hlower := h.le_norm_sq hη α
  simp only [neg_sq] at hupper
  have hhalfsum : (∑ l, α l ^ 2) ≤ 2 * ‖combination b α‖ ^ 2 := by
    have : 1 / 2 * ∑ l, α l ^ 2 ≤ (1 - η) * ∑ l, α l ^ 2 :=
      mul_le_mul_of_nonneg_right (by linarith) hnonneg
    linarith
  calc _ ≤ (1 + η) * ∑ l, (∑ m, gramDefect b l m * α m) ^ 2 := hupper
    _ ≤ (1 + η) * (η ^ 2 * ∑ l, α l ^ 2) := mul_le_mul_of_nonneg_left hsmall (by positivity)
    _ ≤ (1 + 1 / 2) * (η ^ 2 * (2 * ‖combination b α‖ ^ 2)) := by gcongr
    _ ≤ (2 * η * ‖combination b α‖) ^ 2 := by
        have : 0 ≤ η ^ 2 * ‖combination b α‖ ^ 2 := by positivity
        nlinarith

/-- Of a vector in the span of the family nearly nothing lies across it. -/
theorem norm_across_le_of_mem_span (h : NearlyOrthonormal η b) (hη : 0 ≤ η) (hhalf : η ≤ 1 / 2)
    {v : E} (hv : v ∈ Submodule.span ℝ (Set.range b)) : ‖across b v‖ ≤ 2 * η * ‖v‖ := by
  obtain ⟨α, rfl⟩ := (Submodule.mem_span_range_iff_exists_fun ℝ).mp hv
  exact h.norm_across_combination_le hη hhalf α

/-- The projections of a vector are not much longer than the vector. -/
theorem sum_sq_inner_le (h : NearlyOrthonormal η b) (hη : 0 ≤ η) (v : E) :
    ∑ l, inner ℝ (b l) v ^ 2 ≤ (1 + η) * ‖v‖ ^ 2 := by
  set p := combination b fun l => inner ℝ (b l) v with hp
  set total := ∑ l, inner ℝ (b l) v ^ 2 with htotal
  have hnonneg : 0 ≤ total := Finset.sum_nonneg fun l _ => sq_nonneg _
  have hinner : inner ℝ p v = total := by
    rw [hp, inner_combination_left, htotal]
    exact Finset.sum_congr rfl fun l _ => (pow_two _).symm
  have hnorm : ‖p‖ ^ 2 ≤ (1 + η) * total := h.norm_sq_le hη _
  have hcauchy : total ^ 2 ≤ ‖p‖ ^ 2 * ‖v‖ ^ 2 := by
    rw [← hinner, ← mul_pow]
    exact sq_le_sq' (by linarith [neg_le_of_abs_le (abs_real_inner_le_norm p v)])
      (real_inner_le_norm p v)
  rcases hnonneg.eq_or_lt with hzero | hpos
  · rw [← hzero]
    positivity
  · have hscaled : total * total ≤ (1 + η) * ‖v‖ ^ 2 * total := by
      calc total * total = total ^ 2 := (pow_two _).symm
        _ ≤ ‖p‖ ^ 2 * ‖v‖ ^ 2 := hcauchy
        _ ≤ (1 + η) * total * ‖v‖ ^ 2 := mul_le_mul_of_nonneg_right hnorm (sq_nonneg _)
        _ = (1 + η) * ‖v‖ ^ 2 * total := by ring
    exact le_of_mul_le_mul_right hscaled hpos

/-- The part of a vector along the family is not much longer than the vector. -/
theorem norm_along_le (h : NearlyOrthonormal η b) (hη : 0 ≤ η) (hhalf : η ≤ 1 / 2) (v : E) :
    ‖combination b fun l => inner ℝ (b l) v‖ ≤ 2 * ‖v‖ := by
  refine le_of_sq_le_sq ?_ (by positivity)
  calc ‖combination b fun l => inner ℝ (b l) v‖ ^ 2
      ≤ (1 + η) * ∑ l, inner ℝ (b l) v ^ 2 := h.norm_sq_le hη _
    _ ≤ (1 + η) * ((1 + η) * ‖v‖ ^ 2) :=
        mul_le_mul_of_nonneg_left (h.sum_sq_inner_le hη v) (by positivity)
    _ ≤ (1 + 1 / 2) * ((1 + 1 / 2) * ‖v‖ ^ 2) := by gcongr
    _ ≤ (2 * ‖v‖) ^ 2 := by nlinarith [sq_nonneg ‖v‖]

theorem norm_across_le (h : NearlyOrthonormal η b) (hη : 0 ≤ η) (hhalf : η ≤ 1 / 2) (v : E) :
    ‖across b v‖ ≤ 3 * ‖v‖ := by
  calc ‖across b v‖ ≤ ‖v‖ + ‖combination b fun l => inner ℝ (b l) v‖ := norm_sub_le _ _
    _ ≤ 3 * ‖v‖ := by linarith [h.norm_along_le hη hhalf v]

theorem norm_le (h : NearlyOrthonormal η b) (hhalf : η ≤ 1 / 2) (l : ι) : ‖b l‖ ≤ 5 / 4 := by
  have hdiag : |gramDefect b l l| ≤ η :=
    (Finset.single_le_sum (fun m _ => abs_nonneg (gramDefect b l m))
      (Finset.mem_univ l)).trans (h l)
  rw [gramDefect, if_pos rfl, real_inner_self_eq_norm_sq] at hdiag
  refine le_of_sq_le_sq ?_ (by norm_num)
  linarith [(abs_le.mp hdiag).2]

end NearlyOrthonormal

end StandardForm.Selection
