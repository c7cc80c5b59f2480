import StandardForm.Proofs.Binary.Absorption
import StandardForm.Proofs.Problem.Box
import StandardForm.Proofs.Spectrum.Diagonal
import StandardForm.Proofs.Tensor.Symmetric

/-!
# Regularized costs as a quadratic term

The quadratic term that stands for the costs of a linear program is a diagonal matrix of their
magnitudes, each with one half added. Nothing is checked when it is made. It is symmetric whatever
the costs are. It has a least eigenvalue above zero if the costs are finite in the double format. A
cost that is not leaves it without one, and the term would be refused if it were handed in, except
that a single infinite cost passes. What becomes of a NaN among several costs is up to the routine
that finds the eigenvalue.
-/

namespace StandardForm

namespace QuadraticProgram

variable {p : Precision} {n : ℕ}

/-! ## Diagonal matrices -/

theorem entryAt_diagonal (c : Shaped p.Entry [n]) {i j : ℕ} (hi : i < n) (hj : j < n) :
    (diagonal c).1.entryAt [i, j] = if i = j then c.1.entryAt [i] else 0 :=
  Tensor.entryAt_ofFn _ (Tensor.mem_positions_matrix.mpr ⟨i, hi, j, hj, rfl⟩)

/-- A diagonal matrix equals its transpose, bit by bit. -/
theorem entryAt_diagonal_comm (c : Shaped p.Entry [n]) {i j : ℕ} (hi : i < n) (hj : j < n) :
    (diagonal c).1.entryAt [i, j] = (diagonal c).1.entryAt [j, i] := by
  rw [entryAt_diagonal c hi hj, entryAt_diagonal c hj hi]
  by_cases h : i = j
  · rw [h]
  · rw [if_neg h, if_neg (Ne.symm h)]

theorem length_entries_vector (c : Shaped p.Entry [n]) : c.1.entries.length = n := by
  simp [c.1.length_entries, c.2]

theorem rows_diagonal (c : Shaped p.Entry [n]) :
    ((diagonal c).1.map (Binary.cast .double)).rows =
      Spectrum.diagonalRows (c.1.entries.map (Binary.cast .double)) := by
  have hlength : (c.1.entries.map (Binary.cast .double)).length = n := by
    rw [List.length_map, length_entries_vector]
  rw [diagonal, Tensor.map_ofFn, Tensor.rows_ofFn, Spectrum.diagonalRows, hlength]
  refine List.map_congr_left fun i hi => List.map_congr_left fun j hj => ?_
  have hi := List.mem_range.mp hi
  have hlt : i < c.1.entries.length := (length_entries_vector c).symm ▸ hi
  dsimp only
  split
  · rw [Tensor.entryAt_vector c.2 hi]
    simp [List.getD_eq_getElem?_getD, hlt]
  · exact Binary.cast_zero

theorem leastEigenvalue_diagonal [Spectrum.Routines] (c : Shaped p.Entry [n]) (hn : n ≠ 0) :
    Spectrum.leastEigenvalue (diagonal c).1 = Spectrum.found (Spectrum.Routines.leastEigenvalue?
      (Spectrum.diagonalRows (c.1.entries.map (Binary.cast .double)))) := by
  have hsize : ((diagonal c).1.map (Binary.cast .double)).size = n * n := by
    rw [Tensor.size, Tensor.length_entries]
    simp [diagonal]
  have hshape : ((diagonal c).1.map (Binary.cast .double)).shape = [n, n] := rfl
  simp only [Spectrum.leastEigenvalue, hsize, hshape, rows_diagonal, mul_self_eq_zero, if_neg hn,
    if_true]

/-! ## The check -/

theorem neg_tolerance_lt_zero (p : Precision) : -tolerance p < 0 := by
  cases p <;> decide +kernel

theorem not_lt_nan {f : FloatFormat} (x : Binary f) : ¬ x < .nan := by
  intro h
  change x.lt .nan = true at h
  cases x <;> cases h

section Check

variable [Spectrum.Routines]

theorem checkSemidefinite_eq_ok {V : Tensor p.Entry} {lowest : Double}
    (h : Spectrum.leastEigenvalue V = .ok lowest) :
    checkSemidefinite p V = .ok () ↔ -tolerance p < lowest := by
  rw [checkSemidefinite, h, ok_bind]
  split
  · next hlt => exact iff_of_true rfl hlt
  · next hlt => exact iff_of_false (fun h => by cases h) hlt

/-- A least eigenvalue that is not negative passes. -/
theorem checkSemidefinite_of_nonneg {V : Tensor p.Entry} {lowest : Double}
    (h : Spectrum.leastEigenvalue V = .ok lowest) (hlowest : 0 ≤ lowest) :
    checkSemidefinite p V = .ok () :=
  (checkSemidefinite_eq_ok h).mpr (Binary.lt_of_lt_of_le (neg_tolerance_lt_zero p) hlowest)

/-- A term whose least eigenvalue is no number is refused. -/
theorem checkSemidefinite_of_nan {V : Tensor p.Entry}
    (h : Spectrum.leastEigenvalue V = .ok .nan) :
    checkSemidefinite p V = .error (.rejected (.notPSD .nan (tolerance p))) := by
  rw [checkSemidefinite, h, ok_bind, if_neg (not_lt_nan _)]

end Check

/-- A regularized cost in the double format is a NaN, or is not negative. -/
theorem cast_regularized_eq_or (x : p.Entry) :
    x.isNaN = true ∧ (regularized x).cast .double = .nan ∨
      ∃ r, x.isNaN = false ∧ (regularized x).cast .double = .num false r := by
  rcases Binary.abs_add_half_eq_or x with ⟨hnan, h⟩ | ⟨r, hnan, h⟩
  · exact .inl ⟨hnan, by rw [regularized, h]; rfl⟩
  · exact .inr ⟨_, hnan, by rw [regularized, h, Binary.cast_num]⟩

theorem isFinite_cast_regularized (x : p.Entry) :
    ((regularized x).cast .double).isFinite = (x.cast .double).isFinite :=
  Binary.isFinite_cast_abs_add_half x

section Costs

variable (c : Shaped p.Entry [n])

def costTerm : Shaped p.Entry [n, n] := diagonal ⟨c.1.map regularized, c.2⟩

/-- The diagonal of the quadratic term in the double format. -/
def doubleDiagonal : List Double := c.1.entries.map fun x => (regularized x).cast .double

theorem length_doubleDiagonal : (doubleDiagonal c).length = n := by
  rw [doubleDiagonal, List.length_map, length_entries_vector]

theorem forall_isFinite_doubleDiagonal :
    (∀ d ∈ doubleDiagonal c, d.isFinite = true) ↔ Spectrum.FiniteEntries c.1 := by
  simp [doubleDiagonal, Spectrum.FiniteEntries, isFinite_cast_regularized]

theorem nanFree_doubleDiagonal : NaNFree (doubleDiagonal c) ↔ NaNFree c.1.entries := by
  have hnan (x : p.Entry) : ((regularized x).cast .double).isNaN = x.isNaN := by
    rcases cast_regularized_eq_or x with ⟨hnan, h⟩ | ⟨r, hnan, h⟩ <;> rw [h, hnan] <;> rfl
  simp [doubleDiagonal, NaNFree, hnan]

/-- A regularized cost that is no NaN is not negative. -/
theorem nonneg_of_mem_doubleDiagonal (hfree : NaNFree c.1.entries) {d : Double}
    (hd : d ∈ doubleDiagonal c) : 0 ≤ d := by
  obtain ⟨x, hx, rfl⟩ := List.mem_map.mp hd
  rcases cast_regularized_eq_or x with ⟨hnan, -⟩ | ⟨r, -, h⟩
  · cases hnan.symm.trans (hfree x hx)
  · rw [h]
    exact Binary.zero_le_num _

section Lawful

variable [Spectrum.Routines]

theorem leastEigenvalue_costTerm (hn : n ≠ 0) : Spectrum.leastEigenvalue (costTerm c).1 =
    Spectrum.found
      (Spectrum.Routines.leastEigenvalue? (Spectrum.diagonalRows (doubleDiagonal c))) := by
  have hentries : (c.1.map regularized).entries.map (Binary.cast .double) = doubleDiagonal c :=
    List.map_map
  rw [costTerm, leastEigenvalue_diagonal _ hn, hentries]

/-- Finite costs give a positive semidefinite term. -/
theorem checkSemidefinite_of_finite [Spectrum.NonnegativeDiagonal]
    (hfinite : Spectrum.FiniteEntries c.1) : checkSemidefinite p (costTerm c).1 = .ok () := by
  rcases Nat.eq_zero_or_pos n with rfl | hn
  · have hzero : Spectrum.leastEigenvalue (costTerm c).1 = .ok 0 := rfl
    exact checkSemidefinite_of_nonneg hzero (by decide)
  have hdiagonal : ∀ d ∈ doubleDiagonal c, d.isFinite = true ∧ 0 ≤ d := fun d hd =>
    ⟨(forall_isFinite_doubleDiagonal c).mpr hfinite d hd,
      nonneg_of_mem_doubleDiagonal c hfinite.nanFree hd⟩
  have hne : doubleDiagonal c ≠ [] := by
    rw [← List.length_pos_iff, length_doubleDiagonal]
    exact hn
  obtain ⟨x, hx, hnonneg⟩ := Spectrum.NonnegativeDiagonal.leastEigenvalue?_nonneg _ hdiagonal hne
  refine checkSemidefinite_of_nonneg ?_ hnonneg
  rw [leastEigenvalue_costTerm c hn.ne', hx]
  rfl

variable [Spectrum.LawfulDiagonal]

/-- A single cost gives a term that is its own eigenvalue. -/
theorem checkSemidefinite_of_single (hn : n = 1) :
    checkSemidefinite p (costTerm c).1 = .ok () ↔ NaNFree c.1.entries := by
  obtain ⟨d, hd⟩ := List.length_eq_one_iff.mp ((length_doubleDiagonal c).trans hn)
  have hlowest : Spectrum.leastEigenvalue (costTerm c).1 = .ok d := by
    have hrows : Spectrum.diagonalRows [d] = [[d]] := rfl
    rw [leastEigenvalue_costTerm c (by omega), hd, hrows,
      Spectrum.LawfulDiagonal.leastEigenvalue?_single]
    rfl
  rw [← nanFree_doubleDiagonal, hd]
  constructor
  · intro h
    have hlt := (checkSemidefinite_eq_ok hlowest).mp h
    simpa [NaNFree] using (Binary.isNaN_of_lt hlt).2
  · intro hfree
    have hmem : d ∈ doubleDiagonal c := by simp [hd]
    rw [← hd, nanFree_doubleDiagonal] at hfree
    exact checkSemidefinite_of_nonneg hlowest (nonneg_of_mem_doubleDiagonal c hfree hmem)

/-- Several costs that are not all finite in the double format give a term that is not accepted, if
none of them is a NaN. -/
theorem checkSemidefinite_of_infinite (hfree : NaNFree c.1.entries)
    (hfinite : ¬ Spectrum.FiniteEntries c.1) (hn : n ≠ 1) :
    checkSemidefinite p (costTerm c).1 ≠ .ok () := by
  have hzero : n ≠ 0 := by
    rintro rfl
    have hnil := List.length_eq_zero_iff.mp (length_entries_vector c)
    exact hfinite fun x hx => by simp [hnil] at hx
  intro h
  obtain ⟨lowest, hlowest, -⟩ := bind_eq_ok.mp h
  have hlt := (checkSemidefinite_eq_ok hlowest).mp h
  rw [leastEigenvalue_costTerm c hzero, Spectrum.found_eq_ok] at hlowest
  obtain rfl := Spectrum.LawfulDiagonal.leastEigenvalue?_infinite _ _
    ((nanFree_doubleDiagonal c).mpr hfree) (mt (forall_isFinite_doubleDiagonal c).mp hfinite)
    (by rw [length_doubleDiagonal]; omega) hlowest
  exact not_lt_nan _ hlt

/-- Without a NaN among several costs, their quadratic term is positive semidefinite exactly when
the costs are finite in the double format, or there is only one, and it is not a NaN. -/
theorem checkSemidefinite_costTerm (h : NaNFree c.1.entries ∨ n = 1) :
    checkSemidefinite p (costTerm c).1 = .ok () ↔
      Spectrum.FiniteEntries c.1 ∨ n = 1 ∧ NaNFree c.1.entries := by
  by_cases hfinite : Spectrum.FiniteEntries c.1
  · exact iff_of_true (checkSemidefinite_of_finite c hfinite) (.inl hfinite)
  rw [or_iff_right hfinite]
  by_cases hone : n = 1
  · rw [checkSemidefinite_of_single c hone, and_iff_right hone]
  · exact iff_of_false (checkSemidefinite_of_infinite c (h.resolve_right hone) hfinite hone)
      fun h => hone h.1

end Lawful

end Costs

/-! ## Linear programs as quadratic ones -/

variable (P : LinearProgram p)

theorem V_ofLinearProgram : (ofLinearProgram P).V = (costTerm ⟨P.c, P.c_shape⟩).1 := rfl

/-- Entry by entry, as numbers, the quadratic term equals its transpose if no cost is a NaN. -/
theorem equals_transpose_iff :
    (∀ i < P.N, ∀ j < P.N, ((ofLinearProgram P).V.entryAt [i, j]).equals
      ((ofLinearProgram P).V.entryAt [j, i]) = true) ↔ NaNFree P.c.entries := by
  let costs : Shaped p.Entry [P.N] := ⟨P.c.map regularized, P.c_shape⟩
  have hlength : P.c.entries.length = P.N := length_entries_vector ⟨P.c, P.c_shape⟩
  have hdiagonal (i : ℕ) (hi : i < P.c.entries.length) :
      costs.1.entryAt [i] = regularized P.c.entries[i] := by
    rw [Tensor.entryAt_vector costs.2 (hlength ▸ hi)]
    simp [costs, List.getD_eq_getElem?_getD, hi]
  have hnan (x : p.Entry) : (regularized x).isNaN = x.isNaN := by
    rcases Binary.abs_add_half_eq_or x with ⟨hnan, h⟩ | ⟨r, hnan, h⟩
    · rw [regularized, h, hnan]
      rfl
    · rw [regularized, h, hnan]
      rfl
  constructor
  · intro h x hx
    obtain ⟨i, hi, rfl⟩ := List.mem_iff_getElem.mp hx
    have hin : i < P.N := hlength ▸ hi
    have hentry : (ofLinearProgram P).V.entryAt [i, i] = costs.1.entryAt [i] :=
      (entryAt_diagonal costs hin hin).trans (if_pos rfl)
    have hself := h i hin i hin
    rwa [hentry, hdiagonal i hi, Binary.equals_self_iff, hnan] at hself
  · intro h i hi j hj
    have hij : (ofLinearProgram P).V.entryAt [i, j] = (ofLinearProgram P).V.entryAt [j, i] :=
      entryAt_diagonal_comm costs hi hj
    have hentry : (ofLinearProgram P).V.entryAt [j, i] = if j = i then costs.1.entryAt [j] else 0 :=
      entryAt_diagonal costs hj hi
    rw [hij, Binary.equals_self_iff, hentry]
    split
    · rw [hdiagonal j (hlength.symm ▸ hj), hnan]
      exact h _ (List.getElem_mem _)
    · rfl

/-- The quadratic term made of the costs of a linear program equals its transpose bit by bit, and as
numbers unless a cost is a NaN. Without a NaN among several costs it passes the check of quadratic
programs exactly when the costs are finite in the double format, or there is only one and it is not
a NaN. So this is also exactly when both hold, for any costs. -/
theorem ofLinearProgram_semidefinite_iff [Spectrum.Routines] [Spectrum.LawfulDiagonal] :
    (∀ i < P.N, ∀ j < P.N,
      (ofLinearProgram P).V.entryAt [i, j] = (ofLinearProgram P).V.entryAt [j, i]) ∧
    ((∀ i < P.N, ∀ j < P.N, ((ofLinearProgram P).V.entryAt [i, j]).equals
      ((ofLinearProgram P).V.entryAt [j, i]) = true) ↔ NaNFree P.c.entries) ∧
    (NaNFree P.c.entries ∨ P.N = 1 → (checkSemidefinite p (ofLinearProgram P).V = .ok () ↔
      Spectrum.FiniteEntries P.c ∨ P.N = 1 ∧ NaNFree P.c.entries)) ∧
    ((∀ i < P.N, ∀ j < P.N, ((ofLinearProgram P).V.entryAt [i, j]).equals
        ((ofLinearProgram P).V.entryAt [j, i]) = true) ∧
      checkSemidefinite p (ofLinearProgram P).V = .ok () ↔
        Spectrum.FiniteEntries P.c ∨ P.N = 1 ∧ NaNFree P.c.entries) := by
  have hcheck : NaNFree P.c.entries ∨ P.N = 1 → (checkSemidefinite p (ofLinearProgram P).V = .ok () ↔
      Spectrum.FiniteEntries P.c ∨ P.N = 1 ∧ NaNFree P.c.entries) := by
    rw [V_ofLinearProgram]
    exact checkSemidefinite_costTerm ⟨P.c, P.c_shape⟩
  refine ⟨?_, equals_transpose_iff P, hcheck, ?_⟩
  · intro i hi j hj
    exact entryAt_diagonal_comm ⟨P.c.map regularized, P.c_shape⟩ hi hj
  · rw [equals_transpose_iff]
    constructor
    · rintro ⟨hfree, hpasses⟩
      exact (hcheck (.inl hfree)).mp hpasses
    · intro h
      have hfree : NaNFree P.c.entries := h.elim Spectrum.FiniteEntries.nanFree And.right
      exact ⟨hfree, (hcheck (.inl hfree)).mpr h⟩

/-- Variables that are all fixed by their sum, with given costs. -/
def withCosts (costs : List Datum) : LinearProgram.Data where
  c := .list costs
  N := none
  region :=
    { A := .list [.list (costs.map fun _ => .integer 1)]
      b := .list [.integer 1]
      G := none
      g := none
      d := none
      u := none }

theorem ofLinearProgram_semidefinite_twoCosts : ∃ built : Repaired (LinearProgram .standard),
    LinearProgram.build .standard (withCosts [.integer 3, .integer (-4)]) = .ok built ∧
      checkSemidefinite .standard (ofLinearProgram built.value).V = .ok () := by
  have hcosts : (LinearProgram.build .standard (withCosts [.integer 3, .integer (-4)])).toOption.map
      (fun built => decide (Spectrum.FiniteEntries built.value.c)) = some true := by
    decide +kernel
  obtain ⟨built, hbuild, hfinite⟩ := Option.map_eq_some_iff.mp hcosts
  obtain ⟨-, -, -, hiff⟩ := ofLinearProgram_semidefinite_iff built.value
  exact ⟨built, toOption_eq_some.mp hbuild, (hiff.mpr (.inl (of_decide_eq_true hfinite))).2⟩

/-- A cost that is finite in the extended format only, and a single cost that is a NaN, are accepted
in a linear program, and the quadratic term made of them is refused. -/
theorem ofLinearProgram_not_semidefinite :
    (∃ built : Repaired (LinearProgram .extended),
      LinearProgram.build .extended (withCosts [.integer (2 ^ 1024), .integer 1]) = .ok built ∧
      (∀ x ∈ built.value.c.entries, x.isFinite = true) ∧
      checkSemidefinite .extended (ofLinearProgram built.value).V =
        .error (.rejected (.notPSD .nan (tolerance .extended)))) ∧
    ∃ built : Repaired (LinearProgram .standard),
      LinearProgram.build .standard (withCosts [.scalar (.real .nan)]) = .ok built ∧
      checkSemidefinite .standard (ofLinearProgram built.value).V =
        .error (.rejected (.notPSD .nan (tolerance .standard))) := by
  have hlarge : (LinearProgram.build .extended
      (withCosts [.integer (2 ^ 1024), .integer 1])).toOption.map (fun built =>
        (built.value.c.entries.all Binary.isFinite,
          (Spectrum.leastEigenvalue (ofLinearProgram built.value).V).toOption)) =
        some (true, some .nan) := by
    decide +kernel
  have hnan : (LinearProgram.build .standard
      (withCosts [.scalar (.real .nan)])).toOption.map (fun built =>
        (Spectrum.leastEigenvalue (ofLinearProgram built.value).V).toOption) =
        some (some .nan) := by
    decide +kernel
  obtain ⟨large, hbuildLarge, hlarge⟩ := Option.map_eq_some_iff.mp hlarge
  obtain ⟨nan, hbuildNan, hnan⟩ := Option.map_eq_some_iff.mp hnan
  obtain ⟨hfinite, hlowest⟩ := Prod.mk.inj hlarge
  exact ⟨⟨large, toOption_eq_some.mp hbuildLarge, List.all_eq_true.mp hfinite,
    checkSemidefinite_of_nan (toOption_eq_some.mp hlowest)⟩,
    ⟨nan, toOption_eq_some.mp hbuildNan, checkSemidefinite_of_nan (toOption_eq_some.mp hnan)⟩⟩

end QuadraticProgram

end StandardForm
