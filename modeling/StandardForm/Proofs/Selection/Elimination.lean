import Mathlib.Data.List.Forall2
import Mathlib.Data.List.GetD
import Mathlib.Logic.Equiv.Basic
import StandardForm.Proofs.Selection.Keep
import StandardForm.Selection.Elimination

/-!
# Entries of an elimination

What the operations of an elimination do to a single entry, for numbers of any kind. An exchange
permutes the positions; a step leaves the quotient by the pivot at its target and subtracts
multiples of that quotient everywhere else; and the pivot searched for is an entry from the
positions that have none yet.
-/

namespace StandardForm.Selection

variable {α : Type} [Pivotal α]

/-! ## Exchanges and steps -/

@[simp] theorem length_exchange (i j : Nat) (xs : List α) :
    (exchange i j xs).length = xs.length := by
  simp [exchange]

/-- An exchange permutes the positions. -/
theorem getD_exchange {xs : List α} {i j : Nat} (hi : i < xs.length) (hj : j < xs.length)
    (k : Nat) : (exchange i j xs).getD k 0 = xs.getD (Equiv.swap i j k) 0 := by
  simp only [exchange, List.getD_eq_getElem?_getD, List.getElem?_set, List.length_set]
  by_cases hkj : j = k
  · subst hkj
    simp [hj]
  · by_cases hki : i = k
    · subst hki
      simp [hkj, hi]
    · rw [Equiv.swap_apply_of_ne_of_ne (Ne.symm hki) (Ne.symm hkj)]
      simp [hkj, hki]

/-- An exchange of a position with a later one does not go below it. -/
theorem le_swap {i j k : Nat} (hij : i ≤ j) (hik : i ≤ k) : i ≤ Equiv.swap i j k := by
  rw [Equiv.swap_apply_def]
  split
  · exact hij
  · split
    · exact Nat.le_refl i
    · exact hik

namespace PivotStep

/-- A step for columns of `n` entries. -/
structure Fits (n : Nat) (s : PivotStep α) : Prop where
  target_lt : s.target < n
  source_lt : s.source < n
  length_column : s.column.length = n

/-- What a step leaves at its target. -/
def quotient (s : PivotStep α) (xs : List α) : α :=
  (exchange s.target s.source xs).getD s.target 0 / s.column.getD s.target 0

variable {s : PivotStep α} {xs : List α}

theorem length_apply (h : s.Fits xs.length) : (s.apply xs).length = xs.length := by
  simp [apply, h.length_column]

theorem getD_apply_target (h : s.Fits xs.length) :
    (s.apply xs).getD s.target 0 = s.quotient xs := by
  simp [apply, quotient, h.length_column, h.target_lt]

theorem getD_apply_of_ne (h : s.Fits xs.length) {k : Nat} (hk : k < xs.length)
    (hne : k ≠ s.target) :
    (s.apply xs).getD k 0 =
      (exchange s.target s.source xs).getD k 0 - s.column.getD k 0 * s.quotient xs := by
  have hcolumn : k < s.column.length := h.length_column.symm ▸ hk
  have hexchange : k < (exchange s.target s.source xs).length := by rwa [length_exchange]
  have hlength : k < (s.apply xs).length := (length_apply h).symm ▸ hk
  rw [List.getD_eq_getElem _ _ hlength, List.getD_eq_getElem _ _ hexchange,
    List.getD_eq_getElem _ _ hcolumn]
  simp only [apply, quotient]
  rw [List.getElem_set_ne hne.symm, List.getElem_zipWith]

end PivotStep

theorem length_reduce {steps : List (PivotStep α)} {xs : List α}
    (h : ∀ s ∈ steps, s.Fits xs.length) : (reduce steps xs).length = xs.length := by
  induction steps generalizing xs with
  | nil => rfl
  | cons s steps ih =>
    rw [List.forall_mem_cons] at h
    have hlength := PivotStep.length_apply h.1
    have hrest : (reduce steps (s.apply xs)).length = (s.apply xs).length :=
      ih fun t ht => hlength.symm ▸ h.2 t ht
    exact hrest.trans hlength

theorem reduce_concat (steps : List (PivotStep α)) (s : PivotStep α) (xs : List α) :
    reduce (steps ++ [s]) xs = s.apply (reduce steps xs) := by
  simp [reduce]

/-! ## The pivot -/

variable [DecidableLE α]

/-- The search returns what it started from or an entry at the position that it names. -/
theorem greatestFrom_eq_or (index : Nat) (best : Nat × α) (xs : List α) :
    greatestFrom index best xs = best ∨
      ∃ k, xs[k]? = some (greatestFrom index best xs).2 ∧
        (greatestFrom index best xs).1 = index + k := by
  induction xs generalizing index best with
  | nil => exact .inl rfl
  | cons x xs ih =>
    rw [greatestFrom]
    split
    · rcases ih (index + 1) (index, x) with h | ⟨k, hk, hindex⟩
      · exact .inr ⟨0, by rw [h]; exact ⟨rfl, rfl⟩⟩
      · exact .inr ⟨k + 1, hk, by omega⟩
    · rcases ih (index + 1) best with h | ⟨k, hk, hindex⟩
      · exact .inl h
      · exact .inr ⟨k + 1, hk, by omega⟩

/-- Numbers that are compared as in a total order as far as they are related to themselves. -/
class OrderedPivots (α : Type) [Pivotal α] : Prop where
  le_trans : ∀ {a b c : α}, a ≤ b → b ≤ c → a ≤ c
  le_self_of_le : ∀ {a b : α}, a ≤ b → a ≤ a ∧ b ≤ b
  le_of_not_le : ∀ {a b : α}, a ≤ a → b ≤ b → ¬ b ≤ a → a ≤ b

/-- If the result of the search is ordered, everything searched is, and nothing exceeds it. -/
theorem le_greatestFrom [OrderedPivots α] (index : Nat) (best : Nat × α) (xs : List α)
    (h : (greatestFrom index best xs).2 ≤ (greatestFrom index best xs).2) :
    best.2 ≤ (greatestFrom index best xs).2 ∧ ∀ x ∈ xs, x ≤ (greatestFrom index best xs).2 := by
  induction xs generalizing index best with
  | nil => exact ⟨h, by simp⟩
  | cons x xs ih =>
    rw [List.forall_mem_cons]
    rw [greatestFrom] at h ⊢
    by_cases hgreater : best.2 ≤ best.2 ∧ ¬ x ≤ best.2
    · rw [if_pos hgreater] at h ⊢
      obtain ⟨hx, hall⟩ := ih (index + 1) (index, x) h
      have hself : x ≤ x := (OrderedPivots.le_self_of_le hx).1
      have hle := OrderedPivots.le_of_not_le hgreater.1 hself hgreater.2
      exact ⟨OrderedPivots.le_trans hle hx, hx, hall⟩
    · rw [if_neg hgreater] at h ⊢
      obtain ⟨hbest, hall⟩ := ih (index + 1) best h
      have hx : x ≤ best.2 := by
        by_contra hx
        exact hgreater ⟨(OrderedPivots.le_self_of_le hbest).1, hx⟩
      exact ⟨hbest, OrderedPivots.le_trans hx hbest, hall⟩

/-- No entry searched exceeds the size of the pivot, if that is ordered. -/
theorem magnitude_le_greatest [OrderedPivots α] {start k : Nat} {xs : List α}
    (h : (greatest start xs).2 ≤ (greatest start xs).2) (hk : start ≤ k) (hlt : k < xs.length) :
    Pivotal.magnitude (xs.getD k 0) ≤ (greatest start xs).2 := by
  have hmem : Pivotal.magnitude (xs.getD k 0) ∈ (xs.drop start).map Pivotal.magnitude := by
    refine List.mem_map.mpr ⟨xs.getD k 0, ?_, rfl⟩
    rw [List.getD_eq_getElem _ _ hlt]
    exact List.mem_drop_iff_getElem.mpr ⟨k - start, by omega, by simp [Nat.add_sub_cancel' hk]⟩
  rw [greatest] at h ⊢
  split at h
  · next hnil => rw [hnil] at hmem; cases hmem
  · next x rest hcons =>
    rw [hcons] at hmem
    obtain ⟨hbest, hall⟩ := le_greatestFrom (start + 1) (start, x) rest h
    rcases List.mem_cons.mp hmem with hx | hx
    · exact hx ▸ hbest
    · exact hall _ hx

/-- The pivot is one of the entries searched, and its size is the magnitude of that entry. -/
theorem greatest_spec {start : Nat} {xs : List α} (h : start < xs.length) :
    start ≤ (greatest start xs).1 ∧ (greatest start xs).1 < xs.length ∧
      (greatest start xs).2 = Pivotal.magnitude (xs.getD (greatest start xs).1 0) := by
  have hdrop : (xs.drop start).map Pivotal.magnitude =
      Pivotal.magnitude xs[start] :: (xs.drop (start + 1)).map Pivotal.magnitude := by
    rw [List.drop_eq_getElem_cons h, List.map_cons]
  simp only [greatest, hdrop]
  rcases greatestFrom_eq_or (start + 1) (start, Pivotal.magnitude xs[start])
    ((xs.drop (start + 1)).map Pivotal.magnitude) with hbest | ⟨k, hk, hindex⟩
  · rw [hbest]
    refine ⟨Nat.le_refl _, h, ?_⟩
    simp [h]
  · rw [hindex]
    simp only [List.getElem?_map, List.getElem?_drop, Option.map_eq_some_iff] at hk
    obtain ⟨x, hx, hsize⟩ := hk
    have hlt : start + 1 + k < xs.length := by
      by_contra hge
      rw [List.getElem?_eq_none (by omega)] at hx
      cases hx
    refine ⟨by omega, hlt, ?_⟩
    rw [← hsize, List.getD_eq_getElem?_getD, hx, Option.getD_some]

section Rel

variable {β : Type} [Pivotal β] [DecidableLE β] {R : α → β → Prop}

theorem greatestFrom_rel (hle : ∀ a a' b b', R a a' → R b b' → (a ≤ b ↔ a' ≤ b')) {xs : List α}
    {ys : List β} (h : List.Forall₂ R xs ys) (index : Nat) {best : Nat × α} {best' : Nat × β}
    (hindex : best.1 = best'.1) (hbest : R best.2 best'.2) :
    (greatestFrom index best xs).1 = (greatestFrom index best' ys).1 ∧
      R (greatestFrom index best xs).2 (greatestFrom index best' ys).2 := by
  induction h generalizing index best best' with
  | nil => exact ⟨hindex, hbest⟩
  | @cons x y _ _ hx _ ih =>
    have hcond : (best.2 ≤ best.2 ∧ ¬ x ≤ best.2) ↔ (best'.2 ≤ best'.2 ∧ ¬ y ≤ best'.2) := by
      rw [hle _ _ _ _ hbest hbest, hle _ _ _ _ hx hbest]
    rw [greatestFrom, greatestFrom]
    by_cases hgreater : best.2 ≤ best.2 ∧ ¬ x ≤ best.2
    · rw [if_pos hgreater, if_pos (hcond.mp hgreater)]
      exact ih _ rfl hx
    · rw [if_neg hgreater, if_neg fun hg => hgreater (hcond.mpr hg)]
      exact ih _ hindex hbest

/-- The pivot comes from the same position in numbers whose magnitudes are related in order. -/
theorem greatest_rel {S : α → β → Prop}
    (hle : ∀ a a' b b', S a a' → S b b' → (a ≤ b ↔ a' ≤ b')) (hzero : S 0 0)
    (hmagnitude : ∀ a a', R a a' → S (Pivotal.magnitude a) (Pivotal.magnitude a')) {start : Nat}
    {xs : List α} {ys : List β} (h : List.Forall₂ R (xs.drop start) (ys.drop start)) :
    (greatest start xs).1 = (greatest start ys).1 ∧
      S (greatest start xs).2 (greatest start ys).2 := by
  rw [greatest, greatest]
  generalize xs.drop start = as at h ⊢
  generalize ys.drop start = bs at h ⊢
  cases h with
  | nil => exact ⟨rfl, hzero⟩
  | cons hx hrest =>
    refine greatestFrom_rel hle ?_ _ rfl (hmagnitude _ _ hx)
    rw [List.forall₂_map_left_iff, List.forall₂_map_right_iff]
    exact hrest.imp hmagnitude

end Rel

theorem pivotStep_eq_none_iff {negligible : α → Bool} {steps : List (PivotStep α)}
    {row : List α} : pivotStep negligible steps row = none ↔
      (steps.length < row.length →
        negligible (greatest steps.length (reduce steps row)).2 = true) := by
  rw [pivotStep]
  split
  · next h => simp [Nat.not_lt.mpr h]
  · next h => simp [Nat.lt_of_not_le h]

/-- A row that has a pivot adds one step, for its position and with its own reduced column. -/
theorem pivotStep_eq_some_iff {negligible : α → Bool} {steps steps' : List (PivotStep α)}
    {row : List α} : pivotStep negligible steps row = some steps' ↔
      steps.length < row.length ∧
      negligible (greatest steps.length (reduce steps row)).2 = false ∧
      steps' = steps ++ [⟨steps.length, (greatest steps.length (reduce steps row)).1,
        exchange steps.length (greatest steps.length (reduce steps row)).1
          (reduce steps row)⟩] := by
  rw [pivotStep]
  split
  · next h => simp [Nat.not_lt.mpr h]
  · next h =>
    cases hsize : negligible (greatest steps.length (reduce steps row)).2
    · simp [hsize, Nat.lt_of_not_le h, eq_comm]
    · simp [hsize]

theorem length_of_pivotStep {negligible : α → Bool} {steps steps' : List (PivotStep α)}
    {row : List α} (h : pivotStep negligible steps row = some steps') :
    steps'.length = steps.length + 1 := by
  obtain ⟨-, -, rfl⟩ := pivotStep_eq_some_iff.mp h
  simp

theorem fits_of_pivotStep {negligible : α → Bool} {steps steps' : List (PivotStep α)}
    {row : List α} (hfits : ∀ s ∈ steps, s.Fits row.length)
    (h : pivotStep negligible steps row = some steps') : ∀ s ∈ steps', s.Fits row.length := by
  obtain ⟨hlt, -, rfl⟩ := pivotStep_eq_some_iff.mp h
  have hlength := length_reduce hfits
  obtain ⟨-, hsource, -⟩ := greatest_spec (hlength.symm ▸ hlt)
  intro s hs
  rcases List.mem_append.mp hs with hs | hs
  · exact hfits s hs
  · rw [List.mem_singleton.mp hs]
    exact ⟨hlt, hlength ▸ hsource, by rw [length_exchange, hlength]⟩

/-! ## Runs -/

/-- The steps that the elimination has found when it comes to row `j`. -/
def stepsBefore (negligible : α → Bool) (rows : List (List α)) (j : Nat) : List (PivotStep α) :=
  finalState (pivotStep negligible) [] (rows.take j)

variable {negligible : α → Bool} {rows : List (List α)} {n : Nat}

theorem stepsBefore_succ {j : Nat} (h : j < rows.length) :
    stepsBefore negligible rows (j + 1) =
      (pivotStep negligible (stepsBefore negligible rows j) rows[j]).getD
        (stepsBefore negligible rows j) :=
  finalState_take_succ [] h

/-- What holds of no steps and is kept by every step holds throughout a run. -/
theorem stepsBefore_induction {motive : List (PivotStep α) → Prop} (nil : motive [])
    (step : ∀ steps, ∀ row ∈ rows, ∀ steps', motive steps →
      pivotStep negligible steps row = some steps' → motive steps')
    {j : Nat} (hj : j ≤ rows.length) : motive (stepsBefore negligible rows j) := by
  induction j with
  | zero => exact nil
  | succ j ih =>
    have hbefore := ih (Nat.le_of_succ_le hj)
    rw [stepsBefore_succ hj]
    cases h : pivotStep negligible (stepsBefore negligible rows j) rows[j] with
    | none => exact hbefore
    | some steps' => exact step _ _ (List.getElem_mem hj) _ hbefore h

theorem fits_stepsBefore (hrows : ∀ row ∈ rows, row.length = n) {j : Nat} (hj : j ≤ rows.length) :
    ∀ s ∈ stepsBefore negligible rows j, s.Fits n := by
  refine stepsBefore_induction (motive := fun steps => ∀ s ∈ steps, s.Fits n) (by simp)
    (fun steps row hrow steps' hfits hstep => ?_) hj
  have hlength := hrows row hrow
  exact hlength ▸ fits_of_pivotStep (hlength.symm ▸ hfits) hstep

/-- There are at most as many steps as positions. -/
theorem length_stepsBefore_le (hrows : ∀ row ∈ rows, row.length = n) {j : Nat}
    (hj : j ≤ rows.length) : (stepsBefore negligible rows j).length ≤ n := by
  refine stepsBefore_induction (motive := fun steps => steps.length ≤ n) (Nat.zero_le n)
    (fun steps row hrow steps' _ hstep => ?_) hj
  rw [length_of_pivotStep hstep, ← hrows row hrow]
  exact (pivotStep_eq_some_iff.mp hstep).1

/-- There is one step for each row kept so far. -/
theorem length_stepsBefore (j : Nat) : (stepsBefore negligible rows j).length =
    (keep (pivotStep negligible) 0 [] (rows.take j)).length := by
  have h : (stepsBefore negligible rows j).length =
      0 + (keep (pivotStep negligible) 0 [] (rows.take j)).length :=
    measure_finalState (fun _ _ _ h => length_of_pivotStep h) 0 [] (rows.take j)
  rw [h, Nat.zero_add]

theorem length_byElimination :
    (byElimination negligible rows).length = (stepsBefore negligible rows rows.length).length := by
  rw [length_stepsBefore, List.take_length, byElimination]

end StandardForm.Selection
