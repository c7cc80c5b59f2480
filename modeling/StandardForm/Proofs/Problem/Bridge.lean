import StandardForm.Proofs.Problem.Box
import StandardForm.Proofs.Problem.Construction
import StandardForm.Proofs.Problem.Rebuild
import StandardForm.Proofs.Problem.Regularized

/-!
# Linear programs and quadratic ones from the same data

A linear program can be turned into a quadratic one after it has been built, or the quadratic
program can be built at once from the same region and the diagonal matrix of the regularized costs.
For costs that leave room for doubling both ways lead to the same program, or to the same fault, and
report the same findings: the diagonal matrix is its own symmetric part and passes its check, the
number of variables that it suggests is the number of costs, and nothing else depends on the costs.
-/

namespace StandardForm

variable {p : Precision}

namespace Binary

/-! ## Moderate numbers -/

def Moderate {f : FloatFormat} (x : Binary f) : Prop := x.isFinite = true ∧ |x.value| ≤ 2 ^ 1022

instance {f : FloatFormat} (x : Binary f) : Decidable x.Moderate :=
  inferInstanceAs (Decidable (_ ∧ _))

def moderateBinades (f : FloatFormat) : ℕ := f.scale + 1024 - f.precision

theorem units_moderate (p : Precision) :
    p.format.units (moderateBinades p.format * p.format.binade) = 2 ^ 1022 * p.format.one := by
  cases p <;> decide +kernel

/-- The rung of a moderate number. -/
theorem rung_le_of_moderate {x : p.Entry} (h : x.Moderate) {r : Fin (p.format.top + 1)}
    (habs : x.abs = num false r) : r.val ≤ moderateBinades p.format * p.format.binade := by
  have hone : (0 : ℚ) < p.format.one := Nat.cast_pos.mpr p.format.one_pos
  have hvalue : (p.format.units r.val : ℚ) / p.format.one ≤ 2 ^ 1022 := by
    have hle := h.2
    rw [← value_abs, habs, value_num] at hle
    simpa using hle
  rw [div_le_iff₀ hone] at hvalue
  have hunits : p.format.units r.val ≤ 2 ^ 1022 * p.format.one := by exact_mod_cast hvalue
  rw [← units_moderate] at hunits
  exact p.format.units_strictMono.le_iff_le.mp hunits

/-- A moderate number is finite in the double format. -/
theorem isFinite_cast_of_moderate {x : p.Entry} (h : x.Moderate) :
    (x.cast .double).isFinite = true := by
  obtain ⟨r, -, habs, -, -⟩ := exists_abs_add_half h.1
  rw [← isFinite_cast_abs, habs]
  refine isFinite_cast_of_le false (rung_le_of_moderate h habs) ?_ ?_
  · refine Nat.mul_lt_mul_of_pos_right ?_ p.format.binade_pos
    cases p <;> decide
  · cases p <;> decide +kernel

/-- With one half added, a moderate magnitude is one half of its double. -/
theorem half_mul_double_of_moderate {x : p.Entry} (h : x.Moderate) :
    twoPowNeg p.format 1 *
        ((x.abs + twoPowNeg p.format 1) + (x.abs + twoPowNeg p.format 1)) =
      x.abs + twoPowNeg p.format 1 := by
  obtain ⟨r, q, habs, -, hsum, hq⟩ := exists_abs_add_half h.1
  have hr := rung_le_of_moderate h habs
  have hfoot : (p.format.absorbing + 1) * p.format.binade ≤
      moderateBinades p.format * p.format.binade := by
    refine Nat.mul_le_mul_right _ ?_
    cases p <;> decide
  have htop : (moderateBinades p.format + 1) * p.format.binade < p.format.top := by
    refine Nat.mul_lt_mul_of_pos_right ?_ p.format.binade_pos
    cases p <;> decide
  have hle : q.val ≤ moderateBinades p.format * p.format.binade := by
    rcases hq with rfl | ⟨-, hq⟩
    · exact hr
    · exact hq.trans hfoot
  rw [Nat.succ_mul] at htop
  rw [hsum]
  exact half_mul_add_self_num false q (doubles_of_lt (by omega))

end Binary

namespace QuadraticProgram

variable {n : ℕ}

/-! ## The quadratic term -/

theorem half_mul_zero_add_zero {f : FloatFormat} :
    Binary.twoPowNeg f 1 * ((0 : Binary f) + 0) = 0 := by
  have hroom : 0 + f.binade < f.top := by
    have htop := f.three_binades_le_top
    have hpos := f.binade_pos
    omega
  exact Binary.half_mul_add_self_num false ⟨0, by omega⟩ (Binary.doubles_of_lt hroom)

/-- The quadratic term of moderate costs is its own symmetric part. -/
theorem symmetricPart_costTerm {c : Shaped p.Entry [n]} (h : ∀ x ∈ c.1.entries, x.Moderate) :
    (costTerm c).1.symmetricPart [n, n] = (costTerm c).1 := by
  let costs : Shaped p.Entry [n] := ⟨c.1.map regularized, c.2⟩
  refine Tensor.ext rfl (List.map_congr_left fun position hposition => ?_)
  obtain ⟨i, hi, j, hj, rfl⟩ := Tensor.mem_positions_matrix.mp hposition
  show Binary.twoPowNeg p.format 1 *
    ((diagonal costs).1.entryAt [i, j] + (diagonal costs).1.entryAt [j, i]) =
      if i = j then costs.1.entryAt [i] else 0
  rw [← entryAt_diagonal_comm costs hi hj, entryAt_diagonal costs hi hj]
  split
  · have hlt : i < c.1.entries.length := (length_entries_vector c).symm ▸ hi
    have hentry : costs.1.entryAt [i] = regularized c.1.entries[i] := by
      rw [Tensor.entryAt_vector costs.2 hi]
      simp [costs, List.getD_eq_getElem?_getD, hlt]
    rw [hentry]
    exact Binary.half_mul_double_of_moderate (h _ (List.getElem_mem hlt))
  · exact half_mul_zero_add_zero

/-- The quadratic term of moderate costs is settled as it is. -/
theorem semidefinitePart_costTerm [Spectrum.Routines] [Spectrum.NonnegativeDiagonal]
    {c : Shaped p.Entry [n]} (h : ∀ x ∈ c.1.entries, x.Moderate) :
    semidefinitePart p (costTerm c).1 (.integer n) = .ok (costTerm c) :=
  semidefinitePart_of_symmetric (costTerm c).2 (symmetricPart_costTerm h)
    (checkSemidefinite_of_finite c fun x hx => Binary.isFinite_cast_of_moderate (h x hx))

end QuadraticProgram

namespace LinearProgram

/-! ## Other costs -/

def withCosts (P : LinearProgram p) (costs : Shaped p.Entry [P.N]) : LinearProgram p :=
  { P.toRegion with c := costs.1, c_shape := costs.2 }

section Assembled

variable {n : Datum} {name name' : String} {costs costs' A b : Source} {G g d u : Option Datum}
  {c c' : Shaped p.Entry [n.dimension]}

/-- The costs of an assembled program are the converted ones. -/
theorem costs_of_assemble {P : { P : LinearProgram p // P.N = n.dimension }}
    (h : assemble p n name costs A b G g d u = .ok P)
    (hc : costs.toVector p.format name n = .ok c) : P.1.c = c.1 := by
  have hcosts := (assembledFrom_of_assemble h).c_eq
  rw [hc] at hcosts
  exact (Except.ok.inj hcosts).symm

/-- Other costs lead to the program with the other costs, or to the same fault. -/
theorem assemble_withCosts (hc : costs.toVector p.format name n = .ok c)
    (hc' : costs'.toVector p.format name' n = .ok c') :
    assemble p n name' costs' A b G g d u =
      (assemble p n name costs A b G g d u).map fun P =>
        ⟨P.1.withCosts (.recount P.2 c'), P.2⟩ := by
  simp only [assemble, hc, hc', ok_bind, map_bind]
  rfl

/-- What is made of a program with other costs can be made of the program itself. -/
theorem finish_withCosts [Spectrum.Routines] {α : Type}
    {k : (P : LinearProgram p) → P.N = n.dimension → α}
    (convert : LinearProgram p → α) {P : { P : LinearProgram p // P.N = n.dimension }}
    (hk : k (P.1.withCosts (.recount P.2 c')).repair.value P.2 = convert P.1.repair.value) :
    finish k ⟨P.1.withCosts (.recount P.2 c'), P.2⟩ =
      (finish (fun P _ => P) P).map fun r => ⟨convert r.value, r.reversed⟩ := by
  have hcheck : (P.1.withCosts (.recount P.2 c')).check = P.1.check := rfl
  have hreversed : (P.1.withCosts (.recount P.2 c')).repair.reversed = P.1.repair.reversed := rfl
  rw [finish, finish, hcheck, hk, hreversed]
  cases P.1.check <;> rfl

end Assembled

end LinearProgram

namespace QuadraticProgram

/-! ## The bridge -/

/-- The quadratic term beside the region of a linear program is what the bridge makes of it. -/
theorem ofLinear_withCosts {n : ℕ} {P : LinearProgram p} (hN : P.N = n) {c : Shaped p.Entry [n]}
    (hc : P.c = c.1) (hV : (costTerm c).1.shape = [P.N, P.N]) :
    ofLinear (P.withCosts (.recount hN (zeroTerm p n))).repair.value (costTerm c).1 hV =
      ofLinearProgram P.repair.value := by
  subst hN
  obtain ⟨c, hshape⟩ := c
  obtain rfl : P.c = c := hc
  rfl

/-- The data of the quadratic program over the same region. -/
def Data.ofRegion (V : Datum) (q : Option Datum) (region : Region.Data) : Data where
  V := V
  N := none
  q := q
  A := some region.A
  b := some region.b
  G := region.G
  g := region.g
  d := region.d
  u := region.u

/-- The data of a linear program with moderate costs, and those of the quadratic program that the
bridge makes of it: the quadratic term is the diagonal matrix of the regularized costs, and there
is no linear term. -/
structure Bridged (p : Precision) (n : ℕ) (c V : Datum) (q : Option Datum)
    (costs : Shaped p.Entry [n]) : Prop where
  converted : c.toVector p.format "c" (.integer n) = .ok costs
  moderate : ∀ x ∈ costs.1.entries, Binary.Moderate x
  quadratic : V.toTensor p.format = .ok (diagonal ⟨costs.1.map regularized, costs.2⟩).1
  linear : (Source.vector q (.integer n) 0 >>= fun s => s.toVector p.format "q" (.integer n)) =
    .ok (zeroTerm p n)

variable {n : ℕ} {c V : Datum} {q : Option Datum} {costs : Shaped p.Entry [n]}

/-- The assembled linear program, turned into a quadratic one or built upon as one. -/
theorem settleOver_bridged [Spectrum.Routines] (h : Bridged p n c V q costs)
    (region : Region.Data) :
    settleOver p (.ofRegion V q region) (.integer n) (costTerm costs) =
      (LinearProgram.assemble p (.integer n) "c" (.given c) (.given region.A) (.given region.b)
          region.G region.g region.d region.u >>= LinearProgram.finish fun P _ => P).map
        fun r => ⟨ofLinearProgram r.value, r.reversed⟩ := by
  obtain ⟨s, hs, hq⟩ := bind_eq_ok.mp h.linear
  have hcosts : (Source.given c).toVector p.format "c" (.integer n) = .ok costs := h.converted
  rw [settleOver_eq]
  simp only [Data.ofRegion, Source.matrix, hs, ok_bind]
  change LinearProgram.assemble p (.integer n) "q" s (.given region.A) (.given region.b) region.G
    region.g region.d region.u >>= LinearProgram.finish _ = _
  rw [LinearProgram.assemble_withCosts hcosts hq]
  cases hP : LinearProgram.assemble p (.integer n) "c" (.given c) (.given region.A)
      (.given region.b) region.G region.g region.d region.u with
  | error e => rfl
  | ok P =>
    have hbridge := ofLinear_withCosts P.2 (LinearProgram.costs_of_assemble hP hcosts)
    have hN : ∀ P : LinearProgram p, P.N = (Datum.integer n).dimension →
        (costTerm costs).1.shape = [P.N, P.N] := fun P hP => hP ▸ (costTerm costs).2
    exact LinearProgram.finish_withCosts (k := fun P hP => ofLinear P (costTerm costs).1 (hN P hP))
      ofLinearProgram (hbridge _)

/-- The quadratic program is settled as the linear one is, and is what the bridge makes of it. -/
theorem settle_bridged [Spectrum.Routines] [Spectrum.NonnegativeDiagonal]
    (h : Bridged p n c V q costs) (region : Region.Data) :
    settle p (.ofRegion V q region) =
      (LinearProgram.settle p ⟨c, none, region⟩).map
        fun r => ⟨ofLinearProgram r.value, r.reversed⟩ := by
  have hcount : LinearProgram.Data.count ⟨c, none, region⟩ = .ok (.integer n) := by
    show (none : Option Datum).getDM (c.vectorLength.map fun k => Datum.integer k) = _
    rw [Datum.vectorLength_of_toVector h.converted]
    rfl
  have hdimension : suggestedDimension (costTerm costs).1 = n := rfl
  have hquadratic : V.toTensor p.format = .ok (costTerm costs).1 := h.quadratic
  rw [LinearProgram.settle_eq, hcount, ok_bind, ← settleOver_bridged h region]
  unfold settle
  dsimp only [Data.ofRegion, Option.getD_none]
  rw [hquadratic, ok_bind, hdimension, semidefinitePart_costTerm h.moderate, ok_bind]

end QuadraticProgram

namespace Workspace

/-- From moderate costs the linear program is constructed exactly when the quadratic program with
their diagonal matrix is, and otherwise both give the same fault. The bridge makes the second
program of the first one, bit by bit, and both constructions report the same findings. -/
theorem makes_agree_over_bridge [Spectrum.Routines] [Spectrum.NonnegativeDiagonal] (w : Workspace)
    (collector : Collector) {precision : Option Datum} (hp : precisionOf precision = .ok p) {n : ℕ}
    {c V : Datum} {q : Option Datum} {costs : Shaped p.Entry [n]}
    (h : QuadraticProgram.Bridged p n c V q costs) (region : Region.Data) :
    let linear := w.makeLinear collector precision ⟨c, none, region⟩
    let quadratic := w.makeQuadratic collector precision (.ofRegion V q region)
    quadratic.result = linear.result.map (fun P => ⟨P.1, QuadraticProgram.ofLinearProgram P.2⟩) ∧
      quadratic.findings = linear.findings ∧ quadratic.workspace = linear.workspace := by
  unfold makeLinear makeQuadratic
  rw [inPrecision_eq hp, inPrecision_eq hp, QuadraticProgram.settle_bridged h region]
  have hmap : ((LinearProgram.settle p ⟨c, none, region⟩).map fun r : Repaired (LinearProgram p) =>
        (⟨QuadraticProgram.ofLinearProgram r.value, r.reversed⟩ :
          Repaired (QuadraticProgram p))).map
      (fun r => (⟨⟨p, r.value⟩, r.reversed⟩ : Repaired AnyQuadratic)) =
      ((LinearProgram.settle p ⟨c, none, region⟩).map
        (fun r => (⟨⟨p, r.value⟩, r.reversed⟩ : Repaired AnyLinear))).map
      fun r => ⟨⟨r.value.1, QuadraticProgram.ofLinearProgram r.value.2⟩, r.reversed⟩ := by
    cases LinearProgram.settle p ⟨c, none, region⟩ <;> rfl
  rw [hmap]
  exact conclude_map w collector (.ok ())
    (fun P : AnyLinear => (⟨P.1, QuadraticProgram.ofLinearProgram P.2⟩ : AnyQuadratic)) _

/-- Two costs with their diagonal matrix, over a region with bounds in reverse order. -/
theorem makes_agree_over_bridge_reversedBounds :
    ∃ P : AnyLinear,
      (initial.makeLinear .own none ⟨.list [.integer 3, .integer (-2)], none,
        LinearProgram.reversedBounds.region⟩).result = .ok P ∧
      (initial.makeQuadratic .own none (.ofRegion
        (.list [.list [.scalar (.real (.ofFraction .double false 7 2)), .integer 0],
          .list [.integer 0, .scalar (.real (.ofFraction .double false 5 2))]])
        none LinearProgram.reversedBounds.region)).result =
          .ok ⟨P.1, QuadraticProgram.ofLinearProgram P.2⟩ := by
  let costs : Shaped Double [2] := ⟨⟨[2], [.ofInt .double 3, .ofInt .double (-2)], rfl⟩, rfl⟩
  have hbridged : QuadraticProgram.Bridged .standard 2 (.list [.integer 3, .integer (-2)])
      (.list [.list [.scalar (.real (.ofFraction .double false 7 2)), .integer 0],
        .list [.integer 0, .scalar (.real (.ofFraction .double false 5 2))]]) none costs :=
    { converted := toOption_eq_some.mp (by decide +kernel)
      moderate := by decide +kernel
      quadratic := toOption_eq_some.mp (by decide +kernel)
      linear := toOption_eq_some.mp (by decide +kernel) }
  have hprecision : precisionOf none = .ok .standard := rfl
  obtain ⟨hresult, -, -⟩ := makes_agree_over_bridge initial .own hprecision hbridged
    LinearProgram.reversedBounds.region
  have hsome : (initial.makeLinear .own none ⟨.list [.integer 3, .integer (-2)], none,
      LinearProgram.reversedBounds.region⟩).result.toOption.isSome = true := by
    decide +kernel
  obtain ⟨P, hP⟩ := Option.isSome_iff_exists.mp hsome
  have hP := toOption_eq_some.mp hP
  refine ⟨P, hP, hresult.trans ?_⟩
  rw [hP]
  rfl

end Workspace

end StandardForm
