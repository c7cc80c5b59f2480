import Mathlib.Data.List.Basic
import StandardForm.Selection.Basic

/-!
# The rows that a selection keeps

Rows are visited once and in order, so the indices of the rows kept come in increasing order, and
each of them is the index of a row. Whether a row is kept depends on it and on the state that the
rows before it leave.
-/

namespace StandardForm.Selection

variable {σ ρ : Type} {accept : σ → ρ → Option σ}

/-- What is kept stands between the index counted from and the end of the rows. -/
theorem bounds_of_mem_keep {index i : Nat} {s : σ} {rows : List ρ}
    (h : i ∈ keep accept index s rows) : index ≤ i ∧ i < index + rows.length := by
  induction rows generalizing index s with
  | nil => cases h
  | cons row rows ih =>
    rw [keep] at h
    split at h
    · rcases List.mem_cons.mp h with rfl | h
      · simp
      · have := ih h
        simp only [List.length_cons]
        omega
    · have := ih h
      simp only [List.length_cons]
      omega

theorem pairwise_keep (index : Nat) (s : σ) (rows : List ρ) :
    (keep accept index s rows).Pairwise (· < ·) := by
  induction rows generalizing index s with
  | nil => exact .nil
  | cons row rows ih =>
    rw [keep]
    split
    · refine List.pairwise_cons.mpr ⟨fun i hi => ?_, ih _ _⟩
      exact (bounds_of_mem_keep hi).1
    · exact ih _ _

theorem length_keep_le (index : Nat) (s : σ) (rows : List ρ) :
    (keep accept index s rows).length ≤ rows.length := by
  induction rows generalizing index s with
  | nil => exact Nat.le_refl 0
  | cons row rows ih =>
    rw [keep]
    split
    · exact Nat.succ_le_succ (ih _ _)
    · exact Nat.le_succ_of_le (ih _ _)

/-- Where every row is passed over, nothing is kept. -/
theorem keep_eq_nil {s : σ} {rows : List ρ} (h : ∀ row ∈ rows, accept s row = none)
    (index : Nat) : keep accept index s rows = [] := by
  induction rows generalizing index with
  | nil => rfl
  | cons row rows ih =>
    rw [List.forall_mem_cons] at h
    rw [keep, h.1]
    exact ih h.2 _

/-- What is kept first is the first row that is accepted in the initial state, as no row before it
leaves a trace. -/
theorem keep_ne_nil_iff {index : Nat} {s : σ} {rows : List ρ} :
    keep accept index s rows ≠ [] ↔ ∃ row ∈ rows, (accept s row).isSome := by
  constructor
  · contrapose!
    intro h
    exact keep_eq_nil (fun row hrow => Option.not_isSome_iff_eq_none.mp (h row hrow)) index
  · rintro ⟨row, hrow, hsome⟩
    induction rows generalizing index with
    | nil => cases hrow
    | cons first rows ih =>
      rw [keep]
      cases hfirst : accept s first with
      | some s' => exact List.cons_ne_nil _ _
      | none =>
        rcases List.mem_cons.mp hrow with rfl | hrow
        · rw [hfirst] at hsome
          cases hsome
        · exact ih hrow

/-- Where every row kept adds one to a measure of the state, the measure counts the rows kept. -/
theorem measure_finalState {size : σ → Nat}
    (h : ∀ s row s', accept s row = some s' → size s' = size s + 1) (index : Nat) (s : σ)
    (rows : List ρ) :
    size (finalState accept s rows) = size s + (keep accept index s rows).length := by
  induction rows generalizing index s with
  | nil => rfl
  | cons row rows ih =>
    rw [finalState, keep]
    cases hrow : accept s row with
    | none => exact ih (index + 1) s
    | some s' =>
      rw [Option.getD_some, ih (index + 1) s', h s row s' hrow, List.length_cons]
      omega

/-! ## The rows kept -/

def keptRows (accept : σ → ρ → Option σ) : σ → List ρ → List ρ
  | _, [] => []
  | s, row :: rows =>
    match accept s row with
    | some s => row :: keptRows accept s rows
    | none => keptRows accept s rows

/-- The indices kept are those of the rows kept. -/
theorem map_keep (default : ρ) (before : List ρ) (s : σ) (rows : List ρ) :
    (keep accept before.length s rows).map ((before ++ rows).getD · default) =
      keptRows accept s rows := by
  induction rows generalizing before s with
  | nil => rfl
  | cons row rows ih =>
    have hrest (s : σ) : (keep accept (before.length + 1) s rows).map
        ((before ++ row :: rows).getD · default) = keptRows accept s rows := by
      have h := ih (before ++ [row]) s
      rwa [List.length_append, List.length_singleton, List.append_assoc, List.singleton_append] at h
    rw [keep, keptRows]
    cases accept s row with
    | none => exact hrest s
    | some s' =>
      rw [List.map_cons, hrest s']
      simp

theorem keptRows_eq (default : ρ) (s : σ) (rows : List ρ) :
    (keep accept 0 s rows).map (rows.getD · default) = keptRows accept s rows :=
  map_keep default [] s rows

theorem mem_of_mem_keptRows {s : σ} {row : ρ} {rows : List ρ} (h : row ∈ keptRows accept s rows) :
    row ∈ rows := by
  induction rows generalizing s with
  | nil => cases h
  | cons first rows ih =>
    rw [keptRows] at h
    split at h
    · rcases List.mem_cons.mp h with rfl | h
      · exact List.mem_cons_self
      · exact List.mem_cons_of_mem _ (ih h)
    · exact List.mem_cons_of_mem _ (ih h)

theorem mem_of_mem_map_keep {default : ρ} {s : σ} {row : ρ} {rows : List ρ}
    (h : row ∈ (keep accept 0 s rows).map (rows.getD · default)) : row ∈ rows := by
  rw [keptRows_eq] at h
  exact mem_of_mem_keptRows h

/-- Rows that have been kept are kept again, when what is accepted is still accepted: the rows
passed over have left no trace. -/
theorem keep_keptRows {accept' : σ → ρ → Option σ}
    (h : ∀ s row s', accept s row = some s' → accept' s row = some s') (index : Nat) (s : σ)
    (rows : List ρ) :
    keep accept' index s (keptRows accept s rows) =
      List.range' index (keptRows accept s rows).length := by
  induction rows generalizing index s with
  | nil => rfl
  | cons row rows ih =>
    rw [keptRows]
    cases hrow : accept s row with
    | none => exact ih index s
    | some s' =>
      dsimp only
      rw [keep, h s row s' hrow, List.length_cons, List.range'_succ]
      exact congrArg (index :: ·) (ih (index + 1) s')

/-- Selecting again among the rows kept keeps them all. -/
theorem keep_map_keep {accept' : σ → ρ → Option σ}
    (h : ∀ s row s', accept s row = some s' → accept' s row = some s') (default : ρ) (s : σ)
    (rows : List ρ) :
    keep accept' 0 s ((keep accept 0 s rows).map (rows.getD · default)) =
      List.range (keep accept 0 s rows).length := by
  have hlength : (keep accept 0 s rows).length = (keptRows accept s rows).length := by
    rw [← keptRows_eq default s rows, List.length_map]
  rw [keptRows_eq, hlength, List.range_eq_range']
  exact keep_keptRows h 0 s rows

/-! ## The state that a row meets -/

theorem finalState_append (s : σ) (before rows : List ρ) :
    finalState accept s (before ++ rows) =
      finalState accept (finalState accept s before) rows := by
  induction before generalizing s with
  | nil => rfl
  | cons row before ih => exact ih _

/-- One more row is one more step. -/
theorem finalState_take_succ (s : σ) {rows : List ρ} {j : Nat} (h : j < rows.length) :
    finalState accept s (rows.take (j + 1)) =
      (accept (finalState accept s (rows.take j)) rows[j]).getD
        (finalState accept s (rows.take j)) := by
  rw [List.take_succ_eq_append_getElem h, finalState_append]
  rfl

/-- A row is kept if it is accepted in the state that the rows before it leave. -/
theorem add_mem_keep_iff {index j : Nat} {s : σ} {rows : List ρ} :
    index + j ∈ keep accept index s rows ↔
      ∃ h : j < rows.length, (accept (finalState accept s (rows.take j)) rows[j]).isSome := by
  induction rows generalizing index j s with
  | nil => simp [keep]
  | cons row rows ih =>
    cases j with
    | zero =>
      have hlater (t : σ) : index ∉ keep accept (index + 1) t rows := fun h => by
        have := (bounds_of_mem_keep h).1
        omega
      rw [keep]
      cases h : accept s row <;> simp [finalState, h, hlater]
    | succ j =>
      have hshift : index + (j + 1) = index + 1 + j := by omega
      have hne : index + 1 + j ≠ index := by omega
      rw [hshift, keep]
      cases h : accept s row <;> simp [finalState, h, hne, ih]

theorem mem_keep_iff {i : Nat} {s : σ} {rows : List ρ} :
    i ∈ keep accept 0 s rows ↔
      ∃ h : i < rows.length, (accept (finalState accept s (rows.take i)) rows[i]).isSome := by
  have h : 0 + i ∈ keep accept 0 s rows ↔
      ∃ h : i < rows.length, (accept (finalState accept s (rows.take i)) rows[i]).isSome :=
    add_mem_keep_iff
  rwa [Nat.zero_add] at h

/-- Two kept rows differ, if no copy of the first one is accepted at the place of the second. -/
theorem getElem?_ne_of_mem_keep {i j : Nat} {s : σ} {rows : List ρ}
    (hi : i ∈ keep accept 0 s rows) (hj : j ∈ keep accept 0 s rows)
    (hcopy : ∀ (hi : i < rows.length) (hj : j < rows.length) (t : σ),
      accept (finalState accept s (rows.take i)) rows[i] = some t → rows[i] = rows[j] →
        accept (finalState accept s (rows.take j)) rows[j] = none) :
    rows[i]? ≠ rows[j]? := by
  obtain ⟨hilt, hikept⟩ := mem_keep_iff.mp hi
  obtain ⟨hjlt, hjkept⟩ := mem_keep_iff.mp hj
  obtain ⟨t, ht⟩ := Option.isSome_iff_exists.mp hikept
  intro heq
  rw [List.getElem?_eq_getElem hilt, List.getElem?_eq_getElem hjlt] at heq
  rw [hcopy hilt hjlt t ht (Option.some.inj heq)] at hjkept
  cases hjkept

/-- Two runs that go through related states keep rows at the same places. -/
theorem keep_eq_of_rel {σ' ρ' : Type} {accept' : σ' → ρ' → Option σ'} {R : σ → σ' → Prop}
    (index : Nat) {s : σ} {s' : σ'} {rows : List ρ} {rows' : List ρ'}
    (hlength : rows.length = rows'.length) (hs : R s s')
    (hstep : ∀ j, ∀ h : j < rows.length, ∀ h' : j < rows'.length,
      R (finalState accept s (rows.take j)) (finalState accept' s' (rows'.take j)) →
        Option.Rel R (accept (finalState accept s (rows.take j)) rows[j])
          (accept' (finalState accept' s' (rows'.take j)) rows'[j])) :
    keep accept index s rows = keep accept' index s' rows' := by
  induction rows generalizing index s s' rows' with
  | nil =>
    cases rows' with
    | nil => rfl
    | cons => cases hlength
  | cons row rows ih =>
    cases rows' with
    | nil => cases hlength
    | cons row' rows' =>
      have hrest (h : R ((accept s row).getD s) ((accept' s' row').getD s')) :=
        ih (index + 1) (Nat.succ.inj hlength) h fun j hj hj' =>
          hstep (j + 1) (Nat.succ_lt_succ hj) (Nat.succ_lt_succ hj')
      have hfirst : Option.Rel R (accept s row) (accept' s' row') :=
        hstep 0 (Nat.succ_pos _) (Nat.succ_pos _) hs
      rw [keep, keep]
      generalize accept s row = kept at hrest hfirst ⊢
      generalize accept' s' row' = kept' at hrest hfirst ⊢
      cases hfirst with
      | none => exact hrest hs
      | some h => exact congrArg (index :: ·) (hrest h)

end StandardForm.Selection
