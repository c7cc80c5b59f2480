import StandardForm.Proofs.Problem.Rebuild
import StandardForm.Proofs.Problem.Variation
import StandardForm.Proofs.Spectrum.Rank

/-!
# What a solver relies on

A program that has been built is well posed: its equalities are independent and consistent as far
as ranks tell, and so there are no more of them than variables and all their numbers are finite;
no variable is fixed; and something other than the equalities limits the variables. A validated
run keeps all of this. It can therefore add at most as many equalities as there are variables left
over, and none at all once there are as many as variables.
-/

namespace StandardForm

variable {p : Precision}

/-- What a solver relies on in a region. -/
structure Region.WellPosed [Spectrum.Routines] (R : Region p) : Prop where
  A_shape : R.A.shape = [R.M, R.N]
  b_shape : R.b.shape = [R.M]
  G_shape : R.G.shape = [R.J, R.N]
  g_shape : R.g.shape = [R.J]
  d_shape : R.d.shape = [R.N]
  u_shape : R.u.shape = [R.N]
  rank : Spectrum.rank R.A = .ok R.M
  rankBeside : 0 < R.M → Spectrum.rankBeside R.A R.b = .ok R.M
  rows_le : R.M ≤ R.N
  finite_A : Spectrum.FiniteEntries R.A
  finite_b : Spectrum.FiniteEntries R.b
  not_fixed : ∀ (i : Nat) (x y : p.Entry), R.d.entries[i]? = some x → R.u.entries[i]? = some y →
    x.equals y = false
  limited : 0 < R.J ∨ ∃ x ∈ R.d.entries ++ R.u.entries, x.isFinite = true

namespace Region

theorem not_fixed_of_checkBounds {R : Region p} (h : R.checkBounds = .ok ()) (i : Nat)
    (x y : p.Entry) (hx : R.d.entries[i]? = some x) (hy : R.u.entries[i]? = some y) :
    x.equals y = false := by
  have hrelated := indicesWhere_eq_nil.mp (checkBounds_eq_ok.mp h).1
  refine hrelated _ (List.mem_of_getElem? (i := i) ?_)
  simp [List.getElem?_zipWith, hx, hy]

theorem limited_of_checkBounds {R : Region p} (h : R.checkBounds = .ok ()) :
    0 < R.J ∨ ∃ x ∈ R.d.entries ++ R.u.entries, x.isFinite = true := by
  rcases Nat.eq_zero_or_pos R.J with hJ | hJ
  · have hbound := (checkBounds_eq_ok.mp h).2 hJ
    refine .inr ?_
    rw [← List.any_eq_true, List.any_append]
    exact hbound
  · exact .inl hJ

/-- A region that has been checked is well posed. -/
theorem wellPosed_of_checks [Spectrum.Routines] [Spectrum.LawfulRank] {R : Region p}
    (hequalities : Equalities.check R.A R.b = .ok ())
    (hbounds : R.checkBounds = .ok ()) : R.WellPosed := by
  obtain ⟨hrank, hbeside⟩ := (Equalities.check_eq_ok R.A_shape).mp hequalities
  obtain ⟨hfiniteA, hfiniteb⟩ := Equalities.finite_of_check R.A_shape R.b_shape hequalities
  exact {
    A_shape := R.A_shape
    b_shape := R.b_shape
    G_shape := R.G_shape
    g_shape := R.g_shape
    d_shape := R.d_shape
    u_shape := R.u_shape
    rank := hrank
    rankBeside := hbeside
    rows_le := Equalities.rows_le_of_check R.A_shape hequalities
    finite_A := hfiniteA
    finite_b := hfiniteb
    not_fixed := not_fixed_of_checkBounds hbounds
    limited := limited_of_checkBounds hbounds }

end Region

section Routines

variable [Spectrum.Routines]

/-- A linear program that has been built has passed both checks, with its bounds in order. -/
theorem LinearProgram.checks_of_build {data : Data} {built : Repaired (LinearProgram p)}
    (h : build p data = .ok built) :
    Equalities.check built.value.A built.value.b = .ok () ∧ built.value.checkBounds = .ok () := by
  obtain ⟨n, P, -, -, hcheck, rfl⟩ := exists_assembled_of_settle (settle_of_build h)
  obtain ⟨⟨⟩, hequalities, hbounds⟩ := bind_eq_ok.mp hcheck
  exact ⟨hequalities, (Region.checkBounds_orderBounds P.toRegion).trans hbounds⟩

/-! ## Counting equalities -/

namespace Variant

/-- A variation keeps the variables and adds one equality or none. -/
theorem dimensions_of_vary {W W' : Variant p} {v : Variation} (h : W.vary v = .ok W') :
    W'.N = W.N ∧ W'.M = W.M + if v.addsEquality then 1 else 0 := by
  cases v with
  | linearTerm q L =>
    obtain ⟨v, t, term, -, -, -, rfl⟩ := exists_of_vary_linearTerm h
    exact ⟨rfl, rfl⟩
  | equality mu q validate =>
    obtain ⟨v, t, checked, -, -, -, -, -, rfl⟩ := exists_of_vary_equality h
    exact ⟨rfl, rfl⟩

/-- A run keeps the variables and adds as many equalities as it has variations that do. -/
theorem dimensions_of_foldlM {W W' : Variant p} {vs : List Variation}
    (h : vs.foldlM vary W = .ok W') : W'.N = W.N ∧ W'.M = W.M + vs.countP (·.addsEquality) := by
  induction vs generalizing W with
  | nil =>
    cases pure_eq_ok.mp h
    exact ⟨rfl, rfl⟩
  | cons v vs ih =>
    rw [List.foldlM_cons, bind_eq_ok] at h
    obtain ⟨next, hv, hvs⟩ := h
    obtain ⟨hN, hM⟩ := dimensions_of_vary hv
    obtain ⟨hN', hM'⟩ := ih hvs
    rw [List.countP_cons]
    exact ⟨hN'.trans hN, by omega⟩

end Variant

namespace QuadraticProgram

/-- The programs that a run starts from: one that has been built, or a linear one that has. -/
inductive Constructed : QuadraticProgram p → Prop
  | built {data : Data} {built : Repaired (QuadraticProgram p)} (h : build p data = .ok built) :
    Constructed built.value
  | ofLinear {data : LinearProgram.Data} {built : Repaired (LinearProgram p)}
    (h : LinearProgram.build p data = .ok built) : Constructed (ofLinearProgram built.value)

structure Checked (P : QuadraticProgram p) : Prop where
  equalities : Equalities.check P.A P.b = .ok ()
  bounds : P.checkBounds = .ok ()

theorem Constructed.checked {P : QuadraticProgram p} (h : Constructed P) : P.Checked := by
  cases h with
  | built h =>
    have haccepted := accepted_of_build h
    exact ⟨haccepted.equalities, haccepted.settled.bounds⟩
  | ofLinear h =>
    obtain ⟨hequalities, hbounds⟩ := LinearProgram.checks_of_build h
    exact ⟨hequalities, hbounds⟩

/-- A validated run keeps the checks passing and ends in a program. -/
theorem Checked.of_varyAll {P : QuadraticProgram p} (hP : P.Checked) {vs : List Variation}
    (hvs : ∀ v ∈ vs, v.Validated) {W : Variant p} (h : P.varyAll vs = .ok W) :
    ∃ P' : QuadraticProgram p, W = P'.toVariant ∧ P'.Checked := by
  refine exists_program_of_varyAll Checked ?_ ?_ hP hvs h
  · intro P q hP
    exact ⟨hP.equalities, hP.bounds⟩
  · intro P q b hP _ hcheck
    exact ⟨hcheck, hP.bounds⟩

variable [Spectrum.LawfulRank]

theorem Checked.wellPosed {P : QuadraticProgram p} (h : P.Checked) : P.toRegion.WellPosed :=
  Region.wellPosed_of_checks h.equalities h.bounds

/-- A validated run adds no more equalities than there are variables left over. -/
theorem Checked.count_le {P : QuadraticProgram p} (hP : P.Checked) {vs : List Variation}
    (hvs : ∀ v ∈ vs, v.Validated) {W : Variant p} (h : P.varyAll vs = .ok W) :
    vs.countP (·.addsEquality) ≤ P.N - P.M := by
  obtain ⟨P', rfl, hP'⟩ := hP.of_varyAll hvs h
  obtain ⟨hN, hM⟩ := Variant.dimensions_of_foldlM h
  have hle : P'.M ≤ P'.N := hP'.wellPosed.rows_le
  change P'.N = P.N at hN
  change P'.M = P.M + _ at hM
  omega

/-- With as many equalities as variables, a further one is refused. -/
theorem Checked.vary_equality_error {P : QuadraticProgram p} (hP : P.Checked) (hM : P.M = P.N)
    {mu q validate : Datum} (hvalidate : validate.countsAsTrue = .ok true) :
    ∃ e, P.vary (.equality mu q validate) = .error e := by
  cases h : P.vary (.equality mu q validate) with
  | error e => exact ⟨e, rfl⟩
  | ok W =>
    have hrun : P.varyAll [.equality mu q validate] = .ok W := by
      change (P.vary (.equality mu q validate) >>= fun W => pure W) = .ok W
      rw [h]
      rfl
    have hcount := hP.count_le (by simpa [Variation.Validated] using hvalidate) hrun
    simp [Variation.addsEquality, hM] at hcount

/-- Every linear program that is built, and every program that a validated run leads to, is well
posed, and only as many equalities can be added as there are variables left over. -/
theorem wellPosed_of_reachable :
    (∀ (data : LinearProgram.Data) (built : Repaired (LinearProgram p)),
      LinearProgram.build p data = .ok built →
      built.value.toRegion.WellPosed ∧ built.value.c.shape = [built.value.N]) ∧
    ∀ (P₀ : QuadraticProgram p) (vs : List Variation) (W : Variant p),
      Constructed P₀ → (∀ v ∈ vs, v.Validated) → P₀.varyAll vs = .ok W →
      ∃ P : QuadraticProgram p, W = P.toVariant ∧ P.toRegion.WellPosed ∧
        P.V.shape = [P.N, P.N] ∧ P.q.shape = [P.N] ∧
        (∀ (further : List Variation) (W' : Variant p), (∀ v ∈ further, v.Validated) →
          P.varyAll further = .ok W' → further.countP (·.addsEquality) ≤ P.N - P.M) ∧
        (P.M = P.N → ∀ mu q validate : Datum, validate.countsAsTrue = .ok true →
          ∃ e, P.vary (.equality mu q validate) = .error e) := by
  constructor
  · intro data built h
    obtain ⟨hequalities, hbounds⟩ := LinearProgram.checks_of_build h
    exact ⟨Region.wellPosed_of_checks hequalities hbounds, built.value.c_shape⟩
  · intro P₀ vs W hP₀ hvs hrun
    obtain ⟨P, rfl, hP⟩ := hP₀.checked.of_varyAll hvs hrun
    refine ⟨P, rfl, hP.wellPosed, P.V_shape, P.q_shape, ?_, ?_⟩
    · intro further W' hfurther hrun'
      exact hP.count_le hfurther hrun'
    · intro hM mu q validate hvalidate
      exact hP.vary_equality_error hM hvalidate

end QuadraticProgram

end Routines

namespace QuadraticProgram

def oneEquality : LinearProgram.Data where
  c := .list [.integer 1, .integer (-2)]
  N := none
  region :=
    { A := .list [.list [.integer 1, .integer 1]]
      b := .list [.integer 1]
      G := none
      g := none
      d := none
      u := none }

/-- Another linear term, and then the value of the first variable. -/
def lastEquality : List Variation :=
  [.linearTerm (.list [.integer 1, .integer 3]) (.integer 2),
    .equality (.integer 1) (.list [.integer 4, .integer 0]) (.scalar (.truth true))]

theorem wellPosed_oneEquality :
    ∃ (built : Repaired (LinearProgram .standard)) (P : QuadraticProgram .standard),
      LinearProgram.build .standard oneEquality = .ok built ∧
      (ofLinearProgram built.value).varyAll lastEquality = .ok P.toVariant ∧
      built.value.toRegion.WellPosed ∧ P.toRegion.WellPosed ∧ P.M = 2 ∧ P.N = 2 ∧
      ∃ e, P.vary (.equality (.integer 5) (.list [.integer 0, .integer 1])
        (.scalar (.truth true))) = .error e := by
  have hsize : (LinearProgram.build .standard oneEquality >>= fun built =>
      (ofLinearProgram built.value).varyAll lastEquality).toOption.map (fun W => (W.M, W.N)) =
        some (2, 2) := by
    decide +kernel
  obtain ⟨W, hW, hsize⟩ := Option.map_eq_some_iff.mp hsize
  obtain ⟨built, hbuild, hrun⟩ := bind_eq_ok.mp (toOption_eq_some.mp hW)
  have hvs : ∀ v ∈ lastEquality, v.Validated := by
    simp [lastEquality, Variation.Validated, Datum.toScalar?, Datum.countsAsTrue,
      Scalar.countsAsTrue]
  obtain ⟨hlinear, hreachable⟩ := wellPosed_of_reachable (p := .standard)
  obtain ⟨P, rfl, hP, -, -, -, hfull⟩ := hreachable _ _ _ (.ofLinear hbuild) hvs hrun
  have hM : P.M = 2 := congrArg Prod.fst hsize
  have hN : P.N = 2 := congrArg Prod.snd hsize
  exact ⟨built, P, hbuild, hrun, (hlinear _ _ hbuild).1, hP, hM, hN,
    hfull (hM.trans hN.symm) _ _ _ rfl⟩

end QuadraticProgram

end StandardForm
