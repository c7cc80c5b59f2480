import StandardForm.Proofs.Datum.Fitting
import StandardForm.Proofs.Problem.Faults

/-!
# What a linear program is required to be

All that a construction checks can be required of the arrays it is made from, and of the number of
variables: their shapes, the ranks of the equalities, and the bounds. The requirements on shapes,
ranks and bounds come in the order in which a caller would expect them. Before them come
requirements of room, since what is left out is filled to the number of variables first.
-/

namespace StandardForm

variable {p : Precision} {N : ℕ}

/-! ## Equalities and bounds -/

namespace Equalities

variable {f : FloatFormat} {m n : ℕ} {A b : Tensor (Binary f)}

/-- Equalities that have ranks are required to have the same rank with and without the right-hand
side, and one that is the number of rows. -/
theorem decidedBy_check [Spectrum.Routines] [Spectrum.BoundedRank] {rankA rankAb : ℕ}
    (hA : A.shape = [m, n]) (hb : b.shape = [m])
    (hrank : Spectrum.rank A = .ok rankA) (hbeside : Spectrum.rankBeside A b = .ok rankAb) :
    DecidedBy (check A b) (fun _ => True)
      [⟨rankAb = rankA, .rejected (.infeasible rankA rankAb)⟩,
        ⟨rankA = m, .rejected (.redundantConstraints rankA m (leftOut m (selected A)))⟩] := by
  have hle : rankA ≤ m := (rank_le hA hrank).trans (min_le_left m n)
  have hleb : rankAb ≤ m := (rankBeside_le hA hb hbeside).trans (min_le_left m (n + 1))
  rcases Nat.eq_zero_or_pos m with rfl | hm
  · rw [check_empty hA]
    exact ⟨fun _ => ⟨fun _ => .ok trivial, fun h => absurd (Nat.le_zero.mp hle) h⟩,
      fun h => absurd (show rankAb = rankA by omega) h⟩
  · rw [check_matrix hA hm, hrank, ok_bind, hbeside, ok_bind, verdict]
    constructor
    · intro (heq : rankAb = rankA)
      rw [if_neg (not_not.mpr heq)]
      constructor
      · intro (hfull : rankA = m)
        rw [if_neg (by omega)]
        exact .ok trivial
      · intro (hfull : rankA ≠ m)
        rw [if_pos (by omega)]
    · intro (hne : rankAb ≠ rankA)
      rw [if_pos hne]

end Equalities

namespace Region

/-- No variable is allowed to be fixed, and there has to be an inequality or a finite bound. -/
theorem decidedBy_checkBounds (R : Region p) :
    DecidedBy R.checkBounds (fun _ => True)
      [⟨R.fixed = [], .rejected (.degenerateBound R.fixed)⟩,
        ⟨0 < R.J ∨ ∃ x ∈ R.d.entries ++ R.u.entries, x.isFinite = true,
          .rejected .underconstrained⟩] := by
  have hfinite : (∃ x ∈ R.d.entries ++ R.u.entries, x.isFinite = true) ↔
      R.hasFiniteBound = true := by
    simp [hasFiniteBound, or_and_right, exists_or]
  simp only [hfinite]
  unfold checkBounds
  constructor
  · intro (hfixed : R.fixed = [])
    rw [if_neg (not_not.mpr hfixed)]
    constructor
    · intro (hlimited : 0 < R.J ∨ R.hasFiniteBound = true)
      rw [if_neg fun h => hlimited.elim (by omega) (by simpa using h.2)]
      exact .ok trivial
    · intro (hlimited : ¬ (0 < R.J ∨ R.hasFiniteBound = true))
      rw [if_pos (by simpa using hlimited)]
  · intro (hfixed : R.fixed ≠ [])
    rw [if_pos hfixed]

end Region

/-! ## Linear programs -/

namespace LinearProgram

/-- The arrays of a linear program as they are converted, before they are brought to shape. -/
structure Arrays (p : Precision) where
  c : Tensor p.Entry
  A : Tensor p.Entry
  b : Tensor p.Entry
  G : Option (Tensor p.Entry)
  g : Option (Tensor p.Entry)
  d : Option (Tensor p.Entry)
  u : Option (Tensor p.Entry)

structure Data.ConvertsTo (data : Data) (X : Arrays p) : Prop where
  c : data.c.ConvertsTo X.c
  A : data.region.A.ConvertsTo X.A
  b : data.region.b.ConvertsTo X.b
  G : Option.Rel Datum.ConvertsTo data.region.G X.G
  g : Option.Rel Datum.ConvertsTo data.region.g X.g
  d : Option.Rel Datum.ConvertsTo data.region.d X.d
  u : Option.Rel Datum.ConvertsTo data.region.u X.u

/-- The number of variables is a natural number, or it is left out and the number of costs. -/
inductive Data.Counts (data : Data) (X : Arrays p) : Datum → ℕ → Prop
  | given {n : Datum} {N : ℕ} (hN : data.N = some n) (hn : n.IsNatural N) : Counts data X n N
  | costs (hN : data.N = none) : Counts data X (.integer X.c.size) X.c.size

theorem Data.Counts.isNatural {data : Data} {X : Arrays p} {n : Datum} (h : data.Counts X n N) :
    n.IsNatural N := by
  cases h with
  | given _ hn => exact hn
  | costs _ => exact .integer _

namespace Arrays

variable (X : Arrays p) (n : Datum) (N : ℕ)

def M : ℕ := X.b.size

def J : ℕ := X.g.elim 0 Tensor.size

def coefficients : Tensor p.Entry := X.A.orEmptyRows N

/-- The lower bounds, zero if they are left out. -/
def lower : List p.Entry := X.d.elim (List.replicate N 0) Tensor.entries

/-- The upper bounds, infinite if they are left out. -/
def upper : List p.Entry := X.u.elim (List.replicate N (.infinity false)) Tensor.entries

def fixed : List ℕ :=
  (List.range N).filter fun i => ((X.lower N).getD i 0).equals ((X.upper N).getD i 0)

/-- A program that is assembled from the arrays. -/
structure Assembles (P : LinearProgram p) : Prop where
  N_eq : P.N = N
  M_eq : P.M = X.M
  J_eq : P.J = X.J
  A_eq : P.A = X.coefficients N
  b_eq : P.b = X.b.flattenColumn
  d_eq : P.d.entries = X.lower N
  u_eq : P.u.entries = X.upper N

/-- That there is room for what is filled. -/
def roomRequirements : List Requirement :=
  [room X.u N, room X.d N, room X.G N, roomForRows X.A X.M N]

/-- What is required of the shapes. -/
def shapeRequirements : List Requirement :=
  [matrixFits "A" (some X.A) X.M n N, matrixFits "G" X.G X.J n N, vectorFits "c" (some X.c) n N,
    vectorFits "d" X.d n N, vectorFits "u" X.u n N, vectorFits "b" (some X.b) (.integer X.M) X.M,
    vectorFits "g" X.g (.integer X.J) X.J]

variable [Spectrum.Routines]

def rank : ℕ := (Spectrum.rank (X.coefficients N)).toOption.getD 0

def rankBeside : ℕ := (Spectrum.rankBeside (X.coefficients N) X.b.flattenColumn).toOption.getD 0

/-- What is required of the equalities and of the bounds, once all shapes fit. -/
def regionRequirements : List Requirement :=
  [⟨X.rankBeside N = X.rank N, .rejected (.infeasible (X.rank N) (X.rankBeside N))⟩,
    ⟨X.rank N = X.M, .rejected (.redundantConstraints (X.rank N) X.M
      (Equalities.leftOut X.M (Equalities.selected (X.coefficients N))))⟩,
    ⟨X.fixed N = [], .rejected (.degenerateBound (X.fixed N))⟩,
    ⟨0 < X.J ∨ ∃ x ∈ X.lower N ++ X.upper N, x.isFinite = true, .rejected .underconstrained⟩]

/-- All that is required of a linear program, in the order in which it is looked at. -/
def requirements : List Requirement :=
  X.roomRequirements N ++ X.shapeRequirements n N ++ X.regionRequirements N

end Arrays

section Assembly

variable {X : Arrays p} {data : Data} {n : Datum}

/-- Coefficients that fit leave room for all that is filled. -/
theorem decidedBy_coefficients {d : Datum} {t : Tensor p.Entry} (name : String)
    (hn : n.IsNatural N) (h : d.ConvertsTo t) (rows : ℕ) :
    DecidedBy (d.toMatrix p.format name (.integer rows) n)
      (fun v => v.1 = t.orEmptyRows N ∧ Storable p.format [N])
      [roomForRows t rows N, matrixFits name (some t) rows n N] := by
  have hmatrix := Datum.decidedBy_toMatrix name hn h rows
  refine ⟨fun hroom => ⟨fun hfits => ?_, (hmatrix.1 hroom).2⟩, hmatrix.2⟩
  obtain ⟨v, hv, heq⟩ := (hmatrix.1 hroom).1 hfits
  exact ⟨v, hv, heq, storable_of_matrixFits h hroom hfits⟩

/-- A program is assembled if there is room and all shapes fit. -/
theorem decidedBy_assemble (hX : data.ConvertsTo X) (hn : n.IsNatural N) :
    DecidedBy (assemble p n "c" (.given data.c) (.given data.region.A) (.given data.region.b)
        data.region.G data.region.g data.region.d data.region.u)
      (fun P => X.Assembles N P.1) (X.roomRequirements N ++ X.shapeRequirements n N) := by
  have hempty : Storable p.format [0] := by cases p <;> decide
  have hinfinite : Binary.cast p.format (.infinity false : Double) = .infinity false := by
    cases p <;> decide +kernel
  have hzero : Binary.cast p.format (0 : Double) = 0 := by cases p <;> decide +kernel
  refine (Source.decidedBy_vector hn hX.u).bind fun u hu => ?_
  refine (Source.decidedBy_vector hn hX.d).bind fun d hd => ?_
  refine (Source.decidedBy_matrix hn hX.G).bind fun G hG => ?_
  obtain ⟨g, hsource, hg⟩ := (Source.decidedBy_vector (.integer 0) hX.g).1 fun _ => hempty.double
  refine .bind_ok hsource (.bind_ok (Datum.vectorLength_of_toTensor hX.b) (.bind_ok hg.size_eq ?_))
  refine (decidedBy_coefficients "A" hn hX.A X.M).append fun A hA => ?_
  obtain ⟨hA, hN⟩ := hA
  refine (hG.decidedBy_toMatrix "G" hn hN X.J).bind fun G' _ => ?_
  refine (Datum.decidedBy_toVector "c" hn hX.c).bind fun c' _ => ?_
  refine (hd.decidedBy_toVector "d" hn fun _ => ⟨rfl, hN⟩).bind fun d' hd' => ?_
  refine (hu.decidedBy_toVector "u" hn fun _ => ⟨rfl, hN⟩).bind fun u' hu' => ?_
  refine (Datum.decidedBy_toVector "b" (.integer X.M) hX.b).bind fun b' hb' => ?_
  have hfilled : X.g = none → [0] = [X.J] ∧ Storable p.format [X.J] := by
    intro hnone
    rw [Arrays.J, hnone]
    exact ⟨rfl, hempty⟩
  refine (hg.decidedBy_toVector "g" (.integer X.J) hfilled).bind fun g' _ => ?_
  refine .ok ⟨hn.dimension_eq, rfl, rfl, hA, hb', ?_, ?_⟩
  · rw [Arrays.lower, ← hzero]
    exact hd'
  · rw [Arrays.upper, ← hinfinite]
    exact hu'

variable [Spectrum.Routines] [Spectrum.ConvergentRank]

/-- The equalities of an assembled program have ranks if there is no NaN among their numbers. -/
theorem Arrays.Assembles.ranks {P : LinearProgram p} (hP : X.Assembles N P)
    (hA : NaNFree X.A.entries) (hb : NaNFree X.b.entries) :
    Spectrum.rank (X.coefficients N) = .ok (X.rank N) ∧
      Spectrum.rankBeside (X.coefficients N) X.b.flattenColumn = .ok (X.rankBeside N) := by
  have hfreeA : NaNFree P.A.entries := by
    rw [hP.A_eq, coefficients, Tensor.orEmptyRows]
    split
    · exact fun x hx => absurd hx List.not_mem_nil
    · exact hA
  have hfreeb : NaNFree P.b.entries := by
    rw [hP.b_eq, Tensor.entries_flattenColumn]
    exact hb
  obtain ⟨rankA, hrank⟩ := Spectrum.exists_rank P.A_shape hfreeA
  obtain ⟨rankAb, hbeside⟩ := Spectrum.exists_rankBeside P.A_shape P.b_shape hfreeA hfreeb
  rw [hP.A_eq] at hrank
  rw [hP.A_eq, hP.b_eq] at hbeside
  rw [Arrays.rank, Arrays.rankBeside, hrank, hbeside]
  exact ⟨rfl, rfl⟩

/-- Where there is room and all shapes fit, the equalities have the ranks that are required of
them. -/
theorem ranks_of_shapes {N : ℕ} (hX : data.ConvertsTo X) (hn : n.IsNatural N)
    (hA : NaNFree X.A.entries) (hb : NaNFree X.b.entries)
    (h : ∀ r ∈ X.roomRequirements N ++ X.shapeRequirements n N, r.met) :
    Spectrum.rank (X.coefficients N) = .ok (X.rank N) ∧
      Spectrum.rankBeside (X.coefficients N) X.b.flattenColumn = .ok (X.rankBeside N) := by
  obtain ⟨P, -, hP⟩ := (decidedBy_assemble hX hn).exists_ok h
  exact hP.ranks hA hb

variable [Spectrum.BoundedRank]

/-- What an assembled program is required to be. -/
theorem Arrays.Assembles.decidedBy_check {P : LinearProgram p} (hP : X.Assembles N P)
    (hA : NaNFree X.A.entries) (hb : NaNFree X.b.entries) :
    DecidedBy P.check (fun _ => True) (X.regionRequirements N) := by
  obtain ⟨hrank, hbeside⟩ := hP.ranks hA hb
  rw [← hP.A_eq] at hrank
  rw [← hP.A_eq, ← hP.b_eq] at hbeside
  have hequalities := Equalities.decidedBy_check P.A_shape P.b_shape hrank hbeside
  have hlength : P.d.entries.length = N ∧ P.u.entries.length = N := by
    rw [P.d.length_entries, P.u.length_entries, P.d_shape, P.u_shape, hP.N_eq]
    simp
  have hfixed : P.fixed = X.fixed N := by
    rw [Region.fixed, Region.indicesWhere_eq_filter Binary.equals 0 hlength.1 hlength.2, hP.d_eq,
      hP.u_eq, fixed]
  have hbounds := Region.decidedBy_checkBounds P.toRegion
  rw [hfixed, hP.J_eq, hP.d_eq, hP.u_eq] at hbounds
  rw [regionRequirements, ← hP.M_eq, ← hP.A_eq]
  exact hequalities.append fun _ _ => hbounds

/-- A linear program is settled if all that is required of it is met. -/
theorem decidedBy_settle {N : ℕ} (hX : data.ConvertsTo X) (hN : data.Counts X n N)
    (hA : NaNFree X.A.entries) (hb : NaNFree X.b.entries) :
    DecidedBy (settle p data) (fun _ => True) (X.requirements n N) := by
  have hcount : data.count = .ok n := by
    cases hN with
    | given hN _ => rw [Data.count, hN]; rfl
    | costs hN => rw [Data.count, hN, Datum.vectorLength_of_toTensor hX.c]; rfl
  rw [settle_eq]
  refine .bind_ok hcount ((decidedBy_assemble hX hN.isNatural).append fun P hP => ?_)
  show DecidedBy _ _ (X.regionRequirements N ++ [])
  exact (hP.decidedBy_check hA hb).append fun _ _ => .ok trivial

end Assembly

end LinearProgram

namespace Workspace

open LinearProgram (Arrays)

variable {data : LinearProgram.Data} {X : Arrays p} {n : Datum} (w : Workspace)
  (collector : Collector) {precision : Option Datum}

theorem requireCount_of_counts (h : data.Counts X n N) : Region.requireCount data.N = .ok () := by
  cases h with
  | given hN hn =>
    rw [hN]
    cases hn <;> rfl
  | costs hN =>
    rw [hN]
    rfl

/-- A construction that is not settled fails with that fault and reports nothing. -/
theorem makeLinear_of_error [Spectrum.Routines] (hp : precisionOf precision = .ok p) {e : Fault}
    (h : LinearProgram.settle p data = .error e) :
    w.makeLinear collector precision data = ⟨.error e, w, none, []⟩ := by
  rw [makeLinear, inPrecision_eq hp, h]
  rfl

/-- A construction of a linear program from arrays that can be converted, of which those of the
equalities have no NaN, and with a natural number of variables or none given, succeeds exactly if
all requirements are met. Otherwise it fails as the first one says that is not met, and nothing is
reported. The ranks in the requirements are those of the equalities if there is room and all shapes
fit. -/
theorem makeLinear_decided_by_requirements [Spectrum.Routines] [Spectrum.BoundedRank]
    [Spectrum.ConvergentRank] (hp : precisionOf precision = .ok p)
    (hX : data.ConvertsTo X) (hN : data.Counts X n N) (hA : NaNFree X.A.entries)
    (hb : NaNFree X.b.entries) :
    ((∃ P, (w.makeLinear collector precision data).result = .ok P) ↔
      ∀ r ∈ X.requirements n N, r.met) ∧
    (∀ before r after, X.requirements n N = before ++ r :: after → (∀ s ∈ before, s.met) →
      ¬ r.met → w.makeLinear collector precision data = ⟨.error r.fault, w, none, []⟩) ∧
    ((∀ r ∈ X.roomRequirements N ++ X.shapeRequirements n N, r.met) →
      Spectrum.rank (X.coefficients N) = .ok (X.rank N) ∧
        Spectrum.rankBeside (X.coefficients N) X.b.flattenColumn = .ok (X.rankBeside N)) := by
  have hsettle := LinearProgram.decidedBy_settle hX hN hA hb
  refine ⟨?_, fun before r after hlist hbefore hr => ?_,
    LinearProgram.ranks_of_shapes hX hN.isNatural hA hb⟩
  · rw [← hsettle.ok_iff]
    cases h : LinearProgram.settle p data with
    | error e =>
      rw [makeLinear_of_error w collector hp h]
      simp
    | ok built =>
      rw [makeLinear, inPrecision_eq hp, h, requireCount_of_counts hN]
      exact iff_of_true ⟨_, rfl⟩ ⟨_, rfl⟩
  · rw [hlist] at hsettle
    exact makeLinear_of_error w collector hp (hsettle.eq_error hbefore hr)

/-- The equality that two variables sum to one, with some costs and upper bounds. -/
def summedToOne (costs : List ℤ) (upper : Option (List ℤ)) (N : Option Datum) :
    LinearProgram.Data where
  c := .list (costs.map .integer)
  N := N
  region :=
    { A := .list [.list [.integer 1, .integer 1]]
      b := .list [.integer 1]
      G := none
      g := none
      d := none
      u := upper.map fun bounds => .list (bounds.map .integer) }

def summedToOneArrays (costs : List ℤ) (upper : Option (List ℤ)) : Arrays .standard where
  c := .ofList (costs.map (Binary.ofInt .double))
  A := ⟨[1, 2], [1, 1].map (Binary.ofInt .double), rfl⟩
  b := .ofList [Binary.ofInt .double 1]
  G := none
  g := none
  d := none
  u := upper.map fun bounds => .ofList (bounds.map (Binary.ofInt .double))

/-- Costs that are too many are found before bounds that agree. -/
theorem makeLinear_decided_by_requirements_threeCosts :
    (summedToOne [1, 2, 3] (some [0, 5]) (some (.integer 2))).ConvertsTo
      (summedToOneArrays [1, 2, 3] (some [0, 5])) ∧
    (summedToOneArrays [1, 2, 3] (some [0, 5])).fixed 2 = [0] ∧
    initial.makeLinear .own none (summedToOne [1, 2, 3] (some [0, 5]) (some (.integer 2))) =
      ⟨.error (.rejected (.dimensionMismatch "c" [.integer 2] [3])), initial, none, []⟩ := by
  have hconverts : (summedToOne [1, 2, 3] (some [0, 5]) (some (.integer 2))).ConvertsTo
      (summedToOneArrays [1, 2, 3] (some [0, 5])) :=
    ⟨toOption_eq_some.mp (by decide +kernel), toOption_eq_some.mp (by decide +kernel),
      toOption_eq_some.mp (by decide +kernel), .none, .none, .none,
      .some (toOption_eq_some.mp (by decide +kernel))⟩
  have hprecision : precisionOf none = .ok .standard := rfl
  obtain ⟨-, hfirst, -⟩ := makeLinear_decided_by_requirements initial .own hprecision hconverts
    (.given rfl (.integer 2)) (by decide +kernel) (by decide +kernel)
  refine ⟨hconverts, by decide +kernel, ?_⟩
  refine hfirst (Arrays.roomRequirements _ 2 ++ [_, _]) _ _ rfl ?_ fun hfits => by cases hfits
  have hroom : Storable .double [2] := by decide
  refine List.forall_mem_cons.mpr ⟨fun _ => hroom, List.forall_mem_cons.mpr ⟨fun _ => hroom,
    List.forall_mem_cons.mpr ⟨fun _ => hroom, ?_⟩⟩⟩
  refine List.forall_mem_cons.mpr ⟨fun hempty => (nomatch hempty), ?_⟩
  exact List.forall_mem_cons.mpr ⟨.inl rfl, List.forall_mem_singleton.mpr rfl⟩

/-- So many variables that no vector of them can exist. The coefficients are far too few for them,
but what is found first is that there is no room for the upper bounds, which are left out. -/
theorem makeLinear_without_room :
    (summedToOne [1, 1] none (some (.integer (10 ^ 40)))).ConvertsTo
      (summedToOneArrays [1, 1] none) ∧
    (summedToOne [1, 1] none (some (.integer (10 ^ 40)))).Counts (summedToOneArrays [1, 1] none)
      (.integer (10 ^ 40)) (10 ^ 40) ∧
    NaNFree (summedToOneArrays [1, 1] none).A.entries ∧
    NaNFree (summedToOneArrays [1, 1] none).b.entries ∧
    (∃ r rest, (summedToOneArrays [1, 1] none).shapeRequirements (.integer (10 ^ 40)) (10 ^ 40) =
        r :: rest ∧ ¬ r.met ∧
      r.fault = .rejected (.dimensionMismatch "A" [.integer 1, .integer (10 ^ 40)] [1, 2])) ∧
    initial.makeLinear .own none (summedToOne [1, 1] none (some (.integer (10 ^ 40)))) =
      ⟨.error .malformed, initial, none, []⟩ := by
  have hconverts : (summedToOne [1, 1] none (some (.integer (10 ^ 40)))).ConvertsTo
      (summedToOneArrays [1, 1] none) :=
    ⟨toOption_eq_some.mp (by decide +kernel), toOption_eq_some.mp (by decide +kernel),
      toOption_eq_some.mp (by decide +kernel), .none, .none, .none, .none⟩
  have hcounts : (summedToOne [1, 1] none (some (.integer (10 ^ 40)))).Counts
      (summedToOneArrays [1, 1] none) (.integer (10 ^ 40)) (10 ^ 40) :=
    .given rfl (.integer (10 ^ 40))
  have hA : NaNFree (summedToOneArrays [1, 1] none).A.entries := by decide +kernel
  have hb : NaNFree (summedToOneArrays [1, 1] none).b.entries := by decide +kernel
  have hroom : ¬ Storable .double [10 ^ 40] := by decide
  refine ⟨hconverts, hcounts, hA, hb, ⟨_, _, rfl, fun hfits => ?_, rfl⟩, ?_⟩
  · rcases hfits with hshape | ⟨hempty, -⟩
    · exact absurd (List.cons.inj (List.cons.inj hshape).2).1 (by decide)
    · cases hempty
  · have hsettle := LinearProgram.decidedBy_settle hconverts hcounts hA hb
    exact makeLinear_of_error initial .own rfl (hsettle.2 fun h => hroom (h rfl))

end Workspace

end StandardForm