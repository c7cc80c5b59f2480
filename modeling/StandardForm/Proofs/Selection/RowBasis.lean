import Mathlib.LinearAlgebra.Matrix.Rank

/-!
# Bases among the rows of a matrix

Visiting the rows of a matrix in order and taking each one that is not a linear combination of the
rows before it gives a basis of the row space. The rows taken are independent, no larger set of
rows is, their number is the rank, and every row left out is a combination of rows taken earlier.
-/

namespace StandardForm.Selection

variable {m n : ℕ}

/-- A list of row indices that names the basis found by going through the rows in order. -/
structure SelectsRowBasis (A : Matrix (Fin m) (Fin n) ℚ) (kept : List ℕ) : Prop where
  increasing : kept.Pairwise (· < ·)
  lt_of_mem : ∀ i ∈ kept, i < m
  mem_iff : ∀ j : Fin m, (j : ℕ) ∈ kept ↔ A.row j ∉ Submodule.span ℚ (A.row '' Set.Iio j)
  maximal : Maximal (LinearIndepOn ℚ A.row) {j | (j : ℕ) ∈ kept}
  mem_span : ∀ j : Fin m, (j : ℕ) ∉ kept →
    A.row j ∈ Submodule.span ℚ (A.row '' {i | (i : ℕ) ∈ kept ∧ i < j})
  length_eq_rank : kept.length = A.rank

section Family

variable {V : Type} [AddCommGroup V] [Module ℚ V] {a : Fin m → V} {K : Set (Fin m)}

/-- Every member of the family is a combination of the members taken up to it. -/
theorem mem_span_taken (hK : ∀ j, j ∈ K ↔ a j ∉ Submodule.span ℚ (a '' Set.Iio j)) (j : Fin m) :
    a j ∈ Submodule.span ℚ (a '' {i | i ∈ K ∧ i ≤ j}) := by
  induction j using WellFoundedLT.induction with
  | _ j ih =>
    by_cases hj : j ∈ K
    · exact Submodule.subset_span ⟨j, ⟨hj, le_refl j⟩, rfl⟩
    · have hbefore : a j ∈ Submodule.span ℚ (a '' Set.Iio j) := by
        by_contra h
        exact hj ((hK j).mpr h)
      refine Submodule.span_le.mpr ?_ hbefore
      rintro v ⟨i, hi, rfl⟩
      refine Submodule.span_mono (Set.image_mono ?_) (ih i hi)
      exact fun k hk => ⟨hk.1, hk.2.trans (le_of_lt hi)⟩

theorem mem_span_taken_of_notMem (hK : ∀ j, j ∈ K ↔ a j ∉ Submodule.span ℚ (a '' Set.Iio j))
    {j : Fin m} (hj : j ∉ K) : a j ∈ Submodule.span ℚ (a '' {i | i ∈ K ∧ i < j}) := by
  refine Submodule.span_mono (Set.image_mono ?_) (mem_span_taken hK j)
  rintro i ⟨hi, hle⟩
  exact ⟨hi, lt_of_le_of_ne hle fun h => hj (h ▸ hi)⟩

/-- The members taken are independent: each is new when it is taken. -/
theorem linearIndepOn_taken (hK : ∀ j, j ∈ K ↔ a j ∉ Submodule.span ℚ (a '' Set.Iio j)) :
    LinearIndepOn ℚ a K := by
  have hbelow (b : ℕ) : LinearIndepOn ℚ a {i | i ∈ K ∧ (i : ℕ) < b} := by
    induction b with
    | zero => simp
    | succ b ih =>
      by_cases hb : ∃ j ∈ K, (j : ℕ) = b
      · obtain ⟨j, hj, rfl⟩ := hb
        have hinsert : {i | i ∈ K ∧ (i : ℕ) < j + 1} = insert j {i | i ∈ K ∧ (i : ℕ) < j} := by
          ext i
          simp only [Set.mem_ofPred_eq, Set.mem_insert_iff, Fin.ext_iff]
          constructor
          · rintro ⟨hi, hlt⟩
            rcases Nat.lt_succ_iff_lt_or_eq.mp hlt with h | h
            · exact .inr ⟨hi, h⟩
            · exact .inl h
          · rintro (h | ⟨hi, h⟩)
            · rw [Fin.ext h]
              exact ⟨hj, Nat.lt_succ_self _⟩
            · exact ⟨hi, h.trans (Nat.lt_succ_self _)⟩
        rw [hinsert]
        refine ih.insert fun h => (hK j).mp hj ?_
        exact Submodule.span_mono (Set.image_mono fun i hi => hi.2) h
      · refine ih.mono fun i hi => ⟨hi.1, lt_of_le_of_ne (Nat.lt_succ_iff.mp hi.2) ?_⟩
        exact fun h => hb ⟨i, hi.1, h⟩
  refine (hbelow m).mono fun i hi => ⟨hi, i.isLt⟩

end Family

/-- Increasing indices of rows are as many as the rows that they name. -/
theorem card_rows_eq_length {kept : List ℕ} (hincreasing : kept.Pairwise (· < ·))
    (hlt : ∀ i ∈ kept, i < m) :
    (Finset.univ.filter fun j : Fin m => (j : ℕ) ∈ kept).card = kept.length := by
  have hnodup : kept.Nodup := hincreasing.imp Nat.ne_of_lt
  rw [← Finset.card_map Fin.valEmbedding, ← List.toFinset_card_of_nodup hnodup]
  congr 1
  ext i
  simp only [Finset.mem_map, Finset.mem_filter_univ, Fin.valEmbedding_apply, List.mem_toFinset]
  exact ⟨fun ⟨j, hj, h⟩ => h ▸ hj, fun hi => ⟨⟨i, hlt i hi⟩, hi, rfl⟩⟩

/-- Going through the rows in order selects a basis of the row space. -/
theorem SelectsRowBasis.of_mem_iff {A : Matrix (Fin m) (Fin n) ℚ} {kept : List ℕ}
    (hincreasing : kept.Pairwise (· < ·)) (hlt : ∀ i ∈ kept, i < m)
    (hmem : ∀ j : Fin m, (j : ℕ) ∈ kept ↔ A.row j ∉ Submodule.span ℚ (A.row '' Set.Iio j)) :
    SelectsRowBasis A kept := by
  have hindep : LinearIndepOn ℚ A.row {j | (j : ℕ) ∈ kept} := linearIndepOn_taken hmem
  have hspan (j : Fin m) : A.row j ∈ Submodule.span ℚ (A.row '' {j | (j : ℕ) ∈ kept}) :=
    Submodule.span_mono (Set.image_mono fun i hi => hi.1) (mem_span_taken hmem j)
  refine ⟨hincreasing, hlt, hmem, ⟨hindep, ?_⟩, fun j hj => mem_span_taken_of_notMem hmem hj, ?_⟩
  · -- A larger set would hold a row that is a combination of rows kept.
    intro s hs hle j hj
    have hinsert := hs.mono (Set.insert_subset hj hle)
    exact (linearIndepOn_insert_iff.mp hinsert).2 (hspan j)
  · have hrange : Submodule.span ℚ (Set.range A.row) =
        Submodule.span ℚ (A.row '' {j | (j : ℕ) ∈ kept}) := by
      apply le_antisymm
      · refine Submodule.span_le.mpr ?_
        rintro v ⟨j, rfl⟩
        exact hspan j
      · exact Submodule.span_mono (Set.image_subset_range _ _)
    have hcard := finrank_span_eq_card hindep
    rw [← Set.image_eq_range, ← hrange, ← Matrix.rank_eq_finrank_span_row] at hcard
    rw [hcard, ← card_rows_eq_length hincreasing hlt, Fintype.card_subtype]
    rfl

/-- The rows with the given indices, as a matrix. -/
def pickedRows (A : Matrix (Fin m) (Fin n) ℚ) (kept : List ℕ) (h : ∀ i ∈ kept, i < m) :
    Matrix (Fin kept.length) (Fin n) ℚ :=
  A.submatrix (fun i => ⟨kept.get i, h _ (List.get_mem kept i)⟩) id

theorem SelectsRowBasis.rank_kept {A : Matrix (Fin m) (Fin n) ℚ} {kept : List ℕ}
    (h : SelectsRowBasis A kept) : (pickedRows A kept h.lt_of_mem).rank = kept.length := by
  let row (i : Fin kept.length) : {j : Fin m | (j : ℕ) ∈ kept} :=
    ⟨⟨kept.get i, h.lt_of_mem _ (List.get_mem kept i)⟩, List.get_mem kept i⟩
  have hnodup : kept.Nodup := h.increasing.imp fun hlt => hlt.ne
  have hinjective : Function.Injective row := by
    intro i j hij
    have hentry : kept.get i = kept.get j := congrArg (fun k => (k.1 : ℕ)) hij
    exact hnodup.injective_get hentry
  have hindependent : LinearIndependent ℚ (pickedRows A kept h.lt_of_mem).row :=
    h.maximal.prop.comp row hinjective
  exact hindependent.rank_matrix.trans (Fintype.card_fin _)

end StandardForm.Selection
