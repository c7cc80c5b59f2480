import StandardForm.Problem.Variation
import StandardForm.Proofs.Datum.Stored
import StandardForm.Proofs.Problem.Equalities
import StandardForm.Proofs.Tensor.Entries

/-!
# What a variation of a program can be

Of a variant a variation can make two things: one with another linear term, whatever its shape, or
one with a further row in the equalities and further right-hand sides. A solver varies a program
with a single number as the factor of a linear term, and it may ask for the equalities to be checked
again. Under these two conditions the result is always a program, with another linear term over the
same region, or with one more row in equalities that have passed. `QuadraticProgram.vary_cases` says
this once, and whatever holds along a run follows from it.
-/

namespace StandardForm

/-- The factor of a linear term is a single number, and further equalities are checked. -/
def Variation.Validated : Variation → Prop
  | .linearTerm _ L => ∃ s, L.toScalar? = some s
  | .equality _ _ validate => validate.countsAsTrue = .ok true

def Variation.addsEquality : Variation → Bool
  | .linearTerm .. => false
  | .equality .. => true

/-! ## A single number times a vector -/

namespace Tensor

variable {α β γ : Type}

/-- An array without axes holds one number. -/
theorem exists_eq_scalar {t : Tensor α} (h : t.shape = []) : ∃ a, t = scalar a := by
  have hlength : t.entries.length = 1 := by rw [t.length_entries, h]; rfl
  obtain ⟨a, ha⟩ := List.length_eq_one_iff.mp hlength
  exact ⟨a, Tensor.ext h ha⟩

/-- A single number stands at every position of an axis. -/
theorem entryAt_scalar [Zero α] (a : α) (i : Nat) : ((scalar a).deepen 1).entryAt [i] = a := by
  simp [entryAt, deepen, deepened, scalar, offset]

/-- A single number is combined with every entry of a vector. -/
theorem combine?_scalar [Zero α] [Zero β] (g : α → β → γ) (a : α) {t : Tensor β} {n : Nat}
    (h : t.shape = [n]) : (scalar a).combine? g t = some (t.map (g a)) := by
  have hlength : t.entries.length = n := by simp [t.length_entries, h]
  have hdepth : Nat.max (scalar a).shape.length t.shape.length = 1 := by simp [scalar, h]
  have hdeep : t.deepen 1 = t := Tensor.ext (by simp [deepen, deepened, h]) rfl
  have hcommon : commonShape? ((scalar a).deepen 1).shape t.shape = some [n] := by
    rw [h]
    by_cases hn : 1 = n
    · subst hn
      rfl
    · simp [deepen, deepened, scalar, commonShape?, commonLength?, hn]
  unfold combine?
  dsimp only
  rw [hdepth, hdeep, hcommon, Option.map_some]
  refine congrArg some (Tensor.ext h.symm ?_)
  change (positions [n]).map _ = t.entries.map (g a)
  rw [positions_vector, List.map_map]
  refine List.ext_getElem (by simp [hlength]) fun i hi _ => ?_
  have hin : i < n := by simpa using hi
  have hit : i < t.entries.length := hlength ▸ hin
  simp [entryAt_scalar, entryAt_vector h hin, hit]

theorem scalar_times {f : FloatFormat} (a : Binary f) {t : Tensor (Binary f)} {n : Nat}
    (h : t.shape = [n]) : ((scalar a).map Neg.neg).times t = .ok (t.map (-a * ·)) := by
  have hcombine := combine?_scalar (· * ·) (-a) h
  have hmap : (scalar a).map Neg.neg = scalar (-a) := rfl
  rw [times, hmap, hcombine]

end Tensor

/-! ## Varying a variant -/

namespace Variant

variable {p : Precision} {W W' : Variant p}

/-- The variant with another linear term, whatever its shape. -/
def retermed (W : Variant p) (term : Tensor p.Entry) : Variant p := { W with q := term }

/-- The variant with a further row in its equalities, further right-hand sides, and no linear
term. -/
def extended (W : Variant p) (q : Shaped p.Entry [W.N]) (mu : Tensor p.Entry) : Variant p :=
  { W with
    M := W.M + 1
    A := W.A.appendRow q.1 W.A_shape q.2
    b := W.b.append mu
    q := (QuadraticProgram.zeroTerm p W.N).1
    A_shape := rfl }

variable [Spectrum.Routines]

/-- A variation of the linear term changes the linear term. -/
theorem exists_of_vary_linearTerm {q L : Datum} (h : W.vary (.linearTerm q L) = .ok W') :
    ∃ v t term, q.toVector p.format "q" (.integer W.N) = .ok v ∧ L.toTensor p.format = .ok t ∧
      (t.map Neg.neg).times v.1 = .ok term ∧ W' = W.retermed term := by
  have hsteps : W.withLinearTerm q L = .ok W' := h
  obtain ⟨v, hq, hsteps⟩ := bind_eq_ok.mp hsteps
  obtain ⟨t, hL, hsteps⟩ := bind_eq_ok.mp hsteps
  obtain ⟨term, hterm, hsteps⟩ := bind_eq_ok.mp hsteps
  obtain ⟨⟨⟩, -, hsteps⟩ := bind_eq_ok.mp hsteps
  exact ⟨v, t, term, hq, hL, hterm, (pure_eq_ok.mp hsteps).symm⟩

/-- A further equality is put behind the others and takes the linear term away. There is room for
the equalities, and they have passed if they were to be checked. -/
theorem exists_of_vary_equality {mu q validate : Datum}
    (h : W.vary (.equality mu q validate) = .ok W') :
    ∃ v t checked, q.toVector p.format "q" (.integer W.N) = .ok v ∧ mu.toTensor p.format = .ok t ∧
      validate.countsAsTrue = .ok checked ∧ Storable p.format [W.M + 1, W.N] ∧
      (checked = true → Equalities.check (W.extended v t).A (W.extended v t).b = .ok ()) ∧
      W' = W.extended v t := by
  have hsteps : W.withEquality mu q validate = .ok W' := h
  obtain ⟨v, hq, hsteps⟩ := bind_eq_ok.mp hsteps
  obtain ⟨⟨⟩, hA, hsteps⟩ := bind_eq_ok.mp hsteps
  obtain ⟨t, hmu, hsteps⟩ := bind_eq_ok.mp hsteps
  obtain ⟨⟨⟩, -, hsteps⟩ := bind_eq_ok.mp hsteps
  obtain ⟨checked, hchecked, hsteps⟩ := bind_eq_ok.mp hsteps
  refine ⟨v, t, checked, hq, hmu, hchecked, requireSize_eq_ok.mp hA, ?_⟩
  cases checked with
  | false => exact ⟨nofun, (pure_eq_ok.mp hsteps).symm⟩
  | true =>
    obtain ⟨⟨⟩, hcheck, hsteps⟩ := bind_eq_ok.mp hsteps
    exact ⟨fun _ => hcheck, (pure_eq_ok.mp hsteps).symm⟩

end Variant

/-! ## Varying a program -/

/-- The region with a further row in its equalities and all their right-hand sides. -/
def Region.withRow {p : Precision} (R : Region p) (q : Shaped p.Entry [R.N])
    (b : Shaped p.Entry [R.M + 1]) : Region p :=
  { R with
    M := R.M + 1
    A := R.A.appendRow q.1 R.A_shape q.2
    b := b.1
    A_shape := rfl
    b_shape := b.2 }

namespace QuadraticProgram

variable {p : Precision} {P : QuadraticProgram p}

def withTerm (P : QuadraticProgram p) (q : Shaped p.Entry [P.N]) : QuadraticProgram p :=
  { P with q := q.1, q_shape := q.2 }

/-- The program with a further row in its equalities, all their right-hand sides, and no linear
term. -/
def withRow (P : QuadraticProgram p) (q : Shaped p.Entry [P.N]) (b : Shaped p.Entry [P.M + 1]) :
    QuadraticProgram p :=
  { P.toRegion.withRow q b with
    V := P.V
    q := (zeroTerm p P.N).1
    V_shape := P.V_shape
    q_shape := (zeroTerm p P.N).2 }

variable [Spectrum.Routines]

/-- A single number as the factor gives the program another linear term. -/
theorem vary_linearTerm {q L : Datum} {v : Shaped p.Entry [P.N]} {a : p.Entry}
    (hq : q.toVector p.format "q" (.integer P.N) = .ok v)
    (hL : L.toTensor p.format = .ok (.scalar a)) :
    P.vary (.linearTerm q L) = .ok (P.withTerm ⟨v.1.map (-a * ·), v.2⟩).toVariant := by
  have hsize : Storable p.format (v.1.map (-a * ·)).shape := by
    rw [Tensor.shape_map, v.2]
    exact Storable.of_toVector hq
  change (q.toVector p.format "q" (.integer P.N) >>= _) = _
  rw [hq]
  change (L.toTensor p.format >>= _) = _
  rw [hL]
  change (((Tensor.scalar a).map Neg.neg).times v.1 >>= _) = _
  rw [Tensor.scalar_times a v.2]
  change (Datum.requireSize p.format (v.1.map (-a * ·)).shape >>= _) = _
  rw [requireSize_eq_ok.mpr hsize]
  rfl

/-- There has to be room for a further equality. -/
theorem vary_equality_of_not_storable {mu q validate : Datum} {v : Shaped p.Entry [P.N]}
    (hq : q.toVector p.format "q" (.integer P.N) = .ok v)
    (hA : ¬ Storable p.format [P.M + 1, P.N]) :
    P.vary (.equality mu q validate) = .error .malformed := by
  change (q.toVector p.format "q" (.integer P.N) >>= _) = _
  rw [hq]
  change (Datum.requireSize p.format [P.M + 1, P.N] >>= _) = _
  rw [Datum.requireSize_eq, if_neg hA]
  rfl

/-- A further equality is added whenever the equalities pass with it. -/
theorem vary_equality {mu q validate : Datum} {v : Shaped p.Entry [P.N]} {t : Tensor p.Entry}
    (hq : q.toVector p.format "q" (.integer P.N) = .ok v)
    (hA : Storable p.format [P.M + 1, P.N]) (hmu : mu.toTensor p.format = .ok t)
    (hb : Storable p.format (P.b.append t).shape) (hvalidate : validate.countsAsTrue = .ok true) :
    P.vary (.equality mu q validate) =
      (Equalities.check (P.A.appendRow v.1 P.A_shape v.2) (P.b.append t)).map fun _ =>
        P.toVariant.extended v t := by
  change (q.toVector p.format "q" (.integer P.N) >>= _) = _
  rw [hq]
  change (Datum.requireSize p.format [P.M + 1, P.N] >>= _) = _
  rw [requireSize_eq_ok.mpr hA]
  change (mu.toTensor p.format >>= _) = _
  rw [hmu]
  change (Datum.requireSize p.format (P.b.append t).shape >>= _) = _
  rw [requireSize_eq_ok.mpr hb]
  change (validate.countsAsTrue >>= _) = _
  rw [hvalidate]
  change (Equalities.check (P.A.appendRow v.1 P.A_shape v.2) (P.b.append t) >>= _) = _
  cases Equalities.check (P.A.appendRow v.1 P.A_shape v.2) (P.b.append t) <;> rfl

/-- A validated variation leads to another linear term, or to a further row in equalities that there
is room for and that have passed. -/
theorem vary_cases {v : Variation} (hv : v.Validated) {W : Variant p} (h : P.vary v = .ok W) :
    (v.addsEquality = false ∧ ∃ q, W = (P.withTerm q).toVariant) ∨
      (v.addsEquality = true ∧ ∃ q b, W = (P.withRow q b).toVariant ∧
        Storable p.format [P.M + 1, P.N] ∧
        Equalities.check (P.withRow q b).A (P.withRow q b).b = .ok ()) := by
  cases v with
  | linearTerm q L =>
    obtain ⟨s, hs⟩ := hv
    obtain ⟨v, t, term, -, hL, hterm, rfl⟩ := Variant.exists_of_vary_linearTerm h
    obtain ⟨a, rfl⟩ := Tensor.exists_eq_scalar (Datum.shape_toTensor_of_single hs hL)
    cases (Tensor.scalar_times a v.2).symm.trans hterm
    exact .inl ⟨rfl, ⟨v.1.map (-a * ·), v.2⟩, rfl⟩
  | equality mu q validate =>
    obtain ⟨v, t, checked, -, -, hchecked, hA, hcheck, rfl⟩ := Variant.exists_of_vary_equality h
    have hcheck := hcheck (Except.ok.inj (hchecked.symm.trans hv))
    -- The check compares the number of rows with that of the right-hand sides.
    have hb : (P.b.append t).shape = [P.M + 1] := by
      have hlength := Equalities.length_eq_of_check rfl (P.b.shape_append t)
        (Nat.succ_pos P.M) hcheck
      rw [P.b.shape_append, ← hlength]
    exact .inr ⟨rfl, v, ⟨P.b.append t, hb⟩, rfl, hA, hcheck⟩

/-- What another linear term and a further row that passes keep, a validated run keeps, and it
ends in a program. -/
theorem exists_program_of_varyAll (Holds : QuadraticProgram p → Prop)
    (term : ∀ P q, Holds P → Holds (P.withTerm q))
    (row : ∀ P q b, Holds P → Storable p.format [P.M + 1, P.N] →
      Equalities.check (P.withRow q b).A (P.withRow q b).b = .ok () → Holds (P.withRow q b))
    (hP : Holds P) {vs : List Variation} (hvs : ∀ v ∈ vs, v.Validated) {W : Variant p}
    (h : P.varyAll vs = .ok W) : ∃ P', W = P'.toVariant ∧ Holds P' := by
  refine foldlM_invariant (fun W => ∃ P', W = P'.toVariant ∧ Holds P') ?_ ⟨P, rfl, hP⟩ h
  rintro _ W' v hmem ⟨P', rfl, hP'⟩ hv
  rcases vary_cases (hvs v hmem) hv with ⟨-, q, rfl⟩ | ⟨-, q, b, rfl, hA, hcheck⟩
  · exact ⟨_, rfl, term P' q hP'⟩
  · exact ⟨_, rfl, row P' q b hP' hA hcheck⟩

end QuadraticProgram

end StandardForm
