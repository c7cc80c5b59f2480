import StandardForm.Proofs.Problem.Rebuild
import StandardForm.Proofs.Problem.Variation
import StandardForm.Spectrum.Rounded

/-!
# Variations and full validation

A variation takes over most of a program without looking at it. Along a validated run this loses
nothing: the program at its end is settled and its equalities have passed, so that building it once
more with another linear term, or with one more row in its equalities, has the same outcome as the
variation. If the row is refused, both are refused for the same reason.
-/

namespace StandardForm

namespace QuadraticProgram

variable {p : Precision} {P : QuadraticProgram p}

section Routines

variable [Spectrum.Routines]

/-- What is settled does not concern the linear term. -/
theorem Settled.withTerm (h : P.Settled) (q : Shaped p.Entry [P.N]) : (P.withTerm q).Settled :=
  ⟨h.stored, h.square, h.bounds, h.ordered, h.symmetric, h.semidefinite⟩

/-- Nothing else that is settled concerns a further row that there is room for. -/
theorem Settled.withRow (h : P.Settled) (hA : Storable p.format [P.M + 1, P.N])
    (q : Shaped p.Entry [P.N]) (b : Shaped p.Entry [P.M + 1]) : (P.withRow q b).Settled := by
  have hstored : (P.withRow q b).toRegion.Stored :=
    ⟨hA, hA.of_rows, h.stored.G, h.stored.g, h.stored.bounds⟩
  exact ⟨hstored, h.square, h.bounds, h.ordered, h.symmetric, h.semidefinite⟩

/-- A validated run from an accepted program ends in one. -/
theorem Accepted.of_varyAll (hP : P.Accepted) {vs : List Variation} (hvs : ∀ v ∈ vs, v.Validated)
    {W : Variant p} (h : P.varyAll vs = .ok W) :
    ∃ P' : QuadraticProgram p, W = P'.toVariant ∧ P'.Accepted := by
  refine exists_program_of_varyAll Accepted ?_ ?_ hP hvs h
  · intro P q hP
    exact ⟨hP.settled.withTerm q, hP.equalities⟩
  · intro P q b hP hA hcheck
    exact ⟨hP.settled.withRow hA q b, hcheck⟩

/-! ## One variation against construction -/

/-- Another linear term is what construction makes of it. -/
theorem Accepted.build_term (hP : P.Accepted) (q : Shaped p.Entry [P.N]) :
    build p { P.toData with q := some (.ofTensor q.1) } = .ok ⟨P.withTerm q, []⟩ := by
  have hbuild := build_toData (hP.settled.withTerm q)
  have hcheck : Equalities.check (P.withTerm q).A (P.withTerm q).b = .ok () := hP.equalities
  rw [hcheck] at hbuild
  exact hbuild

/-- The data of a program with a further row in its equalities and no linear term. -/
def rowData (P : QuadraticProgram p) (q : Shaped p.Entry [P.N]) (b : Shaped p.Entry [P.M + 1]) :
    Data :=
  { P.toData with
    q := some (.ofTensor (zeroTerm p P.N).1)
    A := some (.ofTensor (P.withRow q b).A)
    b := some (.ofTensor b.1) }

/-- A further row is refused by construction exactly when the equalities are. -/
theorem Settled.build_row (hP : P.Settled) (hA : Storable p.format [P.M + 1, P.N])
    (q : Shaped p.Entry [P.N]) (b : Shaped p.Entry [P.M + 1]) :
    build p (P.rowData q b) =
      (Equalities.check (P.A.appendRow q.1 P.A_shape q.2) b.1).map fun _ =>
        ⟨P.withRow q b, []⟩ :=
  build_toData (hP.withRow hA q b)

/-- A further row that there is no room for is refused by construction as well. -/
theorem Settled.build_row_of_not_storable (hP : P.Settled)
    (hA : ¬ Storable p.format [P.M + 1, P.N]) (q : Shaped p.Entry [P.N])
    (b : Shaped p.Entry [P.M + 1]) : build p (P.rowData q b) = .error .malformed := by
  have hM : (Datum.ofTensor b.1).vectorLength = .ok (P.M + 1) := by
    rw [Datum.vectorLength_ofTensor (by simp [b.2, maxAxes]), b.2]
    simp
  have hJ : (Datum.ofTensor P.g).vectorLength = .ok P.J := by
    rw [Datum.vectorLength_ofTensor (by simp [P.g_shape, maxAxes]), P.g_shape]
    simp
  have htoTensor : (Datum.ofTensor (P.withRow q b).A).toTensor p.format = .error .malformed :=
    Datum.toTensor_ofTensor_of_not_storable (by simp [(P.withRow q b).A_shape, maxAxes]) hA
  have hassemble : settleOver p (P.rowData q b) (.integer P.N) ⟨P.V, P.V_shape⟩ =
      .error .malformed := by
    unfold settleOver
    simp only [rowData, toData, Source.vector, Source.matrix, ok_bind, LinearProgram.assemble,
      Source.size, hM, hJ, Source.toMatrix, Datum.toMatrix, htoTensor]
    rfl
  rw [build, settle_of_settled hP rfl rfl, hassemble]
  rfl

/-- Whatever a validated run leads to is a program on which a variation by a single number agrees
with building from scratch, field by field and fault by fault. -/
theorem vary_eq_build_of_varyAll {data : Data} {built : Repaired (QuadraticProgram p)}
    (hbuild : build p data = .ok built) {vs : List Variation} (hvs : ∀ v ∈ vs, v.Validated)
    {W : Variant p} (hrun : built.value.varyAll vs = .ok W) :
    ∃ P : QuadraticProgram p, W = P.toVariant ∧
      (∀ (q L : Datum) (v : Shaped p.Entry [P.N]) (a : p.Entry),
        q.toVector p.format "q" (.integer P.N) = .ok v → L.toTensor p.format = .ok (.scalar a) →
        ∃ P' : QuadraticProgram p, W.vary (.linearTerm q L) = .ok P'.toVariant ∧
          build p { P.toData with q := some (.ofTensor (v.1.map (-a * ·))) } = .ok ⟨P', []⟩) ∧
      ∀ (q mu validate : Datum) (v : Shaped p.Entry [P.N]) (c : p.Entry),
        q.toVector p.format "q" (.integer P.N) = .ok v → mu.toTensor p.format = .ok (.scalar c) →
        validate.countsAsTrue = .ok true →
        W.vary (.equality mu q validate) =
          (build p { P.toData with
              q := some (.ofTensor (zeroTerm p P.N).1)
              A := some (.ofTensor (P.A.appendRow v.1 P.A_shape v.2))
              b := some (.ofTensor (P.b.append (.scalar c))) }).map (·.value.toVariant) := by
  obtain ⟨P, rfl, hP⟩ := (accepted_of_build hbuild).of_varyAll hvs hrun
  refine ⟨P, rfl, ?_, ?_⟩
  · intro q L v a hq hL
    let term : Shaped p.Entry [P.N] := ⟨v.1.map (-a * ·), v.2⟩
    exact ⟨P.withTerm term, vary_linearTerm hq hL, hP.build_term term⟩
  · intro q mu validate v c hq hmu hvalidate
    have hb : (P.b.append (.scalar c)).shape = [P.M + 1] := by
      simp [Tensor.shape_append, P.b_shape, Tensor.scalar]
    let sides : Shaped p.Entry [P.M + 1] := ⟨P.b.append (.scalar c), hb⟩
    by_cases hA : Storable p.format [P.M + 1, P.N]
    · refine (vary_equality hq hA hmu (hb ▸ hA.of_rows) hvalidate).trans ?_
      refine Eq.trans ?_ (congrArg (Except.map _) (hP.settled.build_row hA v sides)).symm
      cases Equalities.check (P.A.appendRow v.1 P.A_shape v.2) (P.b.append (.scalar c)) <;> rfl
    · refine (vary_equality_of_not_storable hq hA).trans ?_
      exact (congrArg (Except.map _) (hP.settled.build_row_of_not_storable hA v sides)).symm

end Routines

def twoVariables : Data where
  V := .list [.list [.integer 2, .integer 1], .list [.integer 1, .integer 2]]
  N := none
  q := none
  A := none
  b := none
  G := none
  g := none
  d := none
  u := none

/-- Another linear term, and then the value of the first variable. -/
def twoVariations : List Variation :=
  [.linearTerm (.list [.integer 1, .integer 3]) (.integer 2),
    .equality (.integer 1) (.list [.integer 4, .integer 0]) (.scalar (.truth true))]

theorem vary_eq_build_twoVariables :
    ∃ (built : Repaired (QuadraticProgram .standard)) (W : Variant .standard)
      (P P' : QuadraticProgram .standard) (v : Shaped Double [P.N]),
      build .standard twoVariables = .ok built ∧ built.value.varyAll twoVariations = .ok W ∧
      W = P.toVariant ∧ P.M = 2 ∧
      W.vary (.linearTerm (.list [.integer 5, .integer 7]) (.integer 3)) = .ok P'.toVariant ∧
      build .standard { P.toData with q := some (.ofTensor (v.1.map (-Binary.ofInt _ 3 * ·))) } =
        .ok ⟨P', []⟩ := by
  have hsize : (build .standard twoVariables >>= fun built =>
      built.value.varyAll twoVariations).toOption.map (fun W => (W.N, W.M)) = some (2, 2) := by
    decide +kernel
  obtain ⟨W, hW, hsize⟩ := Option.map_eq_some_iff.mp hsize
  obtain ⟨built, hbuild, hrun⟩ := bind_eq_ok.mp (toOption_eq_some.mp hW)
  have hvs : ∀ v ∈ twoVariations, v.Validated := by
    simp [twoVariations, Variation.Validated, Datum.toScalar?, Datum.countsAsTrue,
      Scalar.countsAsTrue]
  obtain ⟨P, rfl, hterm, -⟩ := vary_eq_build_of_varyAll hbuild hvs hrun
  have hN : P.N = 2 := congrArg Prod.fst hsize
  have hq : ((Datum.list [.integer 5, .integer 7]).toVector .double "q"
      (.integer P.N)).toOption.isSome := by
    rw [hN]
    decide +kernel
  obtain ⟨v, hq⟩ := Option.isSome_iff_exists.mp hq
  have hL : ((Datum.integer 3).toTensor .double).toOption = some (.scalar (.ofInt _ 3)) := by
    decide +kernel
  obtain ⟨P', hvary, hbuild'⟩ :=
    hterm _ _ v _ (toOption_eq_some.mp hq) (toOption_eq_some.mp hL)
  exact ⟨built, _, P, P', v, hbuild, hrun, rfl, congrArg Prod.snd hsize, hvary, hbuild'⟩

end QuadraticProgram

end StandardForm
