import StandardForm.Proofs.Problem.Revalidation

/-!
# What a run of variations amounts to

A variation replaces the linear term without looking at it, and all that it can do to the equalities
is to put one more behind them. So a run of any length, mixed in any way, leaves the equalities of
the program it started from with the added ones behind them, in the order in which they came, and
the linear term of its last variation alone. The variations of the linear term before the last one
can be left out without any effect. Nothing is assumed of the factors and right-hand sides: they may
be single numbers or arrays, and the equalities may be checked along the way or not.
-/

namespace StandardForm

variable {p : Precision}

/-- What a variation adds to the equalities: the coefficients of a row, and its right-hand sides. -/
structure Addition (p : Precision) where
  row : List p.Entry
  sides : List p.Entry

namespace Variation

/-- An equality adds its coefficients and its right-hand sides, both in the format in which a
program with `n` variables is stored. -/
def Adds (n : Nat) : Variation → Addition p → Prop
  | .linearTerm .., _ => False
  | .equality mu q _, added =>
    (∃ v, q.toVector p.format "q" (.integer n) = .ok v ∧ v.1.entries = added.row) ∧
      ∃ t, mu.toTensor p.format = .ok t ∧ t.entries = added.sides

/-- The linear term after a variation of a program with `n` variables: `-L * q`, or zero. -/
def Leaves (n : Nat) : Variation → Tensor p.Entry → Prop
  | .linearTerm q L, term =>
    ∃ v t, q.toVector p.format "q" (.integer n) = .ok v ∧ L.toTensor p.format = .ok t ∧
      (t.map Neg.neg).times v.1 = .ok term
  | .equality .., term => term = (QuadraticProgram.zeroTerm p n).1

end Variation

namespace Variant

variable {W W' : Variant p}

/-- What a variation cannot affect agrees. -/
structure SameFrame (W W' : Variant p) : Prop where
  N : W'.N = W.N
  J : W'.J = W.J
  V : W'.V = W.V
  G : W'.G = W.G
  g : W'.g = W.g
  d : W'.d = W.d
  u : W'.u = W.u

namespace SameFrame

theorem refl (W : Variant p) : W.SameFrame W := ⟨rfl, rfl, rfl, rfl, rfl, rfl, rfl⟩

theorem trans {W'' : Variant p} (h : W.SameFrame W') (h' : W'.SameFrame W'') : W.SameFrame W'' where
  N := h'.N.trans h.N
  J := h'.J.trans h.J
  V := h'.V.trans h.V
  G := h'.G.trans h.G
  g := h'.g.trans h.g
  d := h'.d.trans h.d
  u := h'.u.trans h.u

end SameFrame

/-- The equalities of one variant are those of another with some more behind them. -/
structure Extends (W : Variant p) (added : List (Addition p)) (W' : Variant p) : Prop where
  M : W'.M = W.M + added.length
  A : W'.A.rows = W.A.rows ++ added.map (·.row)
  b : W'.b = .ofList (W.b.entries ++ added.flatMap (·.sides))

/-- Behind some equalities put some, and behind these some more. -/
theorem Extends.trans {W'' : Variant p} {first second : List (Addition p)}
    (h : W.Extends first W') (h' : W'.Extends second W'') : W.Extends (first ++ second) W'' := by
  constructor
  case M =>
    rw [h'.M, h.M, List.length_append]
    exact Nat.add_assoc _ _ _
  case A =>
    rw [h'.A, h.A, List.map_append]
    exact List.append_assoc _ _ _
  case b =>
    have hentries : W'.b.entries = W.b.entries ++ first.flatMap (·.sides) := by
      rw [h.b]
      rfl
    rw [h'.b, hentries, List.flatMap_append, List.append_assoc]

section Routines

variable [Spectrum.Routines]

/-! ## One variation -/

/-- All that a variation can do: the frame is kept, the linear term is its own, and an equality is
put behind the others if it is one. -/
theorem vary_step (hb : W.b = .ofList W.b.entries) {v : Variation} (h : W.vary v = .ok W') :
    W.SameFrame W' ∧ v.Leaves W.N W'.q ∧
      ∃ added, List.Forall₂ (Variation.Adds W.N) ([v].filter (·.addsEquality)) added ∧
        W.Extends added W' := by
  cases v with
  | linearTerm q L =>
    obtain ⟨v, t, term, hq, hL, hterm, rfl⟩ := exists_of_vary_linearTerm h
    refine ⟨⟨rfl, rfl, rfl, rfl, rfl, rfl, rfl⟩, ⟨v, t, hq, hL, hterm⟩, [], .nil, rfl, ?_, ?_⟩
    · simp [retermed]
    · simpa [retermed] using hb
  | equality mu q validate =>
    obtain ⟨v, t, checked, hq, hmu, -, -, -, rfl⟩ := exists_of_vary_equality h
    refine ⟨⟨rfl, rfl, rfl, rfl, rfl, rfl, rfl⟩, rfl, [⟨v.1.entries, t.entries⟩], ?_, rfl, ?_, ?_⟩
    · exact .cons ⟨⟨v, hq, rfl⟩, t, hmu, rfl⟩ .nil
    · exact Tensor.rows_appendRow W.A_shape v.2
    · simp [extended, Tensor.append]

/-! ## A run -/

/-- A run keeps the frame, and behind the equalities it puts those among its variations, in order.
-/
theorem extends_of_foldlM (hb : W.b = .ofList W.b.entries) {vs : List Variation}
    (h : vs.foldlM vary W = .ok W') :
    W.SameFrame W' ∧ ∃ added,
      List.Forall₂ (Variation.Adds W.N) (vs.filter (·.addsEquality)) added ∧
        W.Extends added W' := by
  induction vs generalizing W with
  | nil =>
    cases pure_eq_ok.mp h
    exact ⟨.refl _, [], .nil, rfl, by simp, by simpa using hb⟩
  | cons v vs ih =>
    rw [List.foldlM_cons, bind_eq_ok] at h
    obtain ⟨next, hv, hvs⟩ := h
    obtain ⟨hframe, -, first, hfirst, hextends⟩ := vary_step hb hv
    have hnext : next.b = .ofList next.b.entries := by
      rw [hextends.b]
      rfl
    obtain ⟨hframe', second, hsecond, hextends'⟩ := ih hnext hvs
    rw [hframe.N] at hsecond
    refine ⟨hframe.trans hframe', first ++ second, ?_, hextends.trans hextends'⟩
    rw [← List.singleton_append, List.filter_append]
    exact List.rel_append hfirst hsecond

/-- The linear term at the end of a run is that of its last variation. -/
theorem leaves_of_foldlM {vs : List Variation} {v : Variation}
    (hb : W.b = .ofList W.b.entries) (h : (vs ++ [v]).foldlM vary W = .ok W') :
    v.Leaves W.N W'.q := by
  rw [List.foldlM_append, bind_eq_ok] at h
  obtain ⟨last, hvs, hv⟩ := h
  obtain ⟨hframe, added, -, hextends⟩ := extends_of_foldlM hb hvs
  have hlast : last.b = .ofList last.b.entries := by
    rw [hextends.b]
    rfl
  rw [List.foldlM_cons, bind_eq_ok] at hv
  obtain ⟨W'', hv, hnil⟩ := hv
  cases pure_eq_ok.mp hnil
  rw [← hframe.N]
  exact (vary_step hlast hv).2.1

/-! ## Linear terms on the way -/

/-- A variation does not look at the linear term. -/
theorem vary_retermed (term : Tensor p.Entry) (v : Variation) :
    (W.retermed term).vary v = W.vary v := by
  cases v <;> rfl

/-- Without its variations of the linear term a run leads to the same variant, up to the linear
term. -/
theorem foldlM_filter {vs : List Variation} (h : vs.foldlM vary W = .ok W')
    (term : Tensor p.Entry) :
    ∃ term', (vs.filter (·.addsEquality)).foldlM vary (W.retermed term) =
      .ok (W'.retermed term') := by
  induction vs generalizing W term with
  | nil =>
    cases pure_eq_ok.mp h
    exact ⟨term, rfl⟩
  | cons v vs ih =>
    rw [List.foldlM_cons, bind_eq_ok] at h
    obtain ⟨next, hv, hvs⟩ := h
    cases v with
    | linearTerm q L =>
      obtain ⟨u, t, q', -, -, -, rfl⟩ := exists_of_vary_linearTerm hv
      exact ih hvs term
    | equality mu q validate =>
      have hfirst : (W.retermed term).vary (.equality mu q validate) =
          .ok (next.retermed next.q) := (vary_retermed term _).trans hv
      obtain ⟨term', hrest⟩ := ih hvs next.q
      refine ⟨term', ?_⟩
      change ((W.retermed term).vary _ >>= fun W => List.foldlM vary W _) = _
      rw [hfirst]
      exact hrest

end Routines

end Variant

namespace QuadraticProgram

/-- What a run of variations of a program amounts to, `added` being what its equalities are
converted to. -/
structure Accumulated (P : QuadraticProgram p) (vs : List Variation) (added : List (Addition p))
    (W : Variant p) : Prop where
  equalities : List.Forall₂ (Variation.Adds P.N) (vs.filter (·.addsEquality)) added
  A : W.A.rows = P.A.rows ++ added.map (·.row)
  b : W.b = .ofList (P.b.entries ++ added.flatMap (·.sides))
  M : W.M = P.M + added.length
  q : ∀ v ∈ vs.getLast?, v.Leaves P.N W.q
  N : W.N = P.N
  J : W.J = P.J
  V : W.V = P.V
  G : W.G = P.G
  g : W.g = P.g
  d : W.d = P.d
  u : W.u = P.u

/-- The right-hand sides of a program are a vector. -/
theorem b_toVariant (P : QuadraticProgram p) :
    P.toVariant.b = .ofList P.toVariant.b.entries := by
  refine Tensor.ext ?_ rfl
  change P.b.shape = [P.b.entries.length]
  rw [P.b.length_entries, P.b_shape]
  simp

/-- A run of variations of a program puts its equalities behind those of the program, leaves the
linear term of its last variation, and keeps everything else. The linear terms on the way have no
influence: the program may start with another one, and all variations of the linear term but the
last variation may be left out. -/
theorem varyAll_accumulates [Spectrum.Routines] {P : QuadraticProgram p} {vs : List Variation}
    {W : Variant p}
    (h : P.varyAll vs = .ok W) :
    (∃ added, P.Accumulated vs added W) ∧ (vs = [] → W.q = P.q) ∧
      (vs ≠ [] → ∀ q, (P.withTerm q).varyAll vs = .ok W) ∧
      ∀ before v, vs = before ++ [v] →
        P.varyAll (before.filter (·.addsEquality) ++ [v]) = .ok W := by
  have hb := P.b_toVariant
  refine ⟨?accumulated, ?empty, ?start, ?between⟩
  case accumulated =>
    obtain ⟨hframe, added, hadded, hextends⟩ := Variant.extends_of_foldlM hb h
    refine ⟨added, hadded, hextends.A, hextends.b, hextends.M, ?_, hframe.N, hframe.J, hframe.V,
      hframe.G, hframe.g, hframe.d, hframe.u⟩
    intro v hv
    have hvs := List.dropLast_append_getLast? v hv
    rw [← hvs] at h
    exact Variant.leaves_of_foldlM hb h
  case empty =>
    rintro rfl
    cases pure_eq_ok.mp h
    rfl
  case start =>
    intro hvs q
    cases vs with
    | nil => exact absurd rfl hvs
    | cons v vs =>
      have hstart : (P.withTerm q).toVariant.vary v = P.toVariant.vary v :=
        Variant.vary_retermed (W := P.toVariant) q.1 v
      change ((P.withTerm q).toVariant.vary v >>= fun W => List.foldlM Variant.vary W vs) = _
      rw [hstart]
      exact h
  case between =>
    rintro before v rfl
    unfold varyAll at h ⊢
    rw [List.foldlM_append, bind_eq_ok] at h
    obtain ⟨last, hbefore, hv⟩ := h
    obtain ⟨term, hfilter⟩ := Variant.foldlM_filter hbefore P.q
    have hfilter : (before.filter (·.addsEquality)).foldlM Variant.vary P.toVariant =
        .ok (last.retermed term) := hfilter
    rw [List.foldlM_append, hfilter]
    change ((last.retermed term).vary v >>= fun W => pure W) = _
    rw [Variant.vary_retermed]
    exact hv

/-- An equality that is checked and one that is not, which repeats the first one with another
right-hand side. -/
def twoEqualities : List Variation :=
  [.equality (.integer 5) (.list [.integer 4, .integer 0]) (.scalar (.truth true)),
    .equality (.integer 7) (.list [.integer 4, .integer 0]) (.scalar (.truth false))]

/-- The same equalities with other linear terms before each of them. -/
def mixedVariations : List Variation :=
  [.linearTerm (.list [.integer 1, .integer 3]) (.integer 2),
    .equality (.integer 5) (.list [.integer 4, .integer 0]) (.scalar (.truth true)),
    .linearTerm (.list [.integer 7, .integer 7]) (.scalar (.text "0.5")),
    .equality (.integer 7) (.list [.integer 4, .integer 0]) (.scalar (.truth false))]

theorem varyAll_accumulates_mixedVariations :
    ∃ (built : Repaired (QuadraticProgram .standard)) (W : Variant .standard)
      (added : List (Addition .standard)),
      build .standard twoVariables = .ok built ∧
      built.value.varyAll mixedVariations = .ok W ∧
      built.value.Accumulated mixedVariations added W ∧ added.length = 2 ∧
      W.b.entries = [1, 5, 7].map (Binary.ofInt Precision.standard.format) ∧
      built.value.varyAll twoEqualities = .ok W := by
  have hsides : (build .standard twoVariables >>= fun built =>
      built.value.varyAll mixedVariations).toOption.map (fun W => W.b.entries) =
        some ([1, 5, 7].map (Binary.ofInt Precision.standard.format)) := by
    decide +kernel
  obtain ⟨W, hW, hsides⟩ := Option.map_eq_some_iff.mp hsides
  obtain ⟨built, hbuild, hrun⟩ := bind_eq_ok.mp (toOption_eq_some.mp hW)
  obtain ⟨⟨added, hadded⟩, -, -, hbetween⟩ := varyAll_accumulates hrun
  exact ⟨built, W, added, hbuild, hrun, hadded, hadded.equalities.length_eq.symm, hsides,
    hbetween (mixedVariations.take 3) _ rfl⟩

end QuadraticProgram

end StandardForm
