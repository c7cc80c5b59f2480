import StandardForm.Proofs.Binary.Mean
import StandardForm.Proofs.Problem.Rebuild
import StandardForm.Proofs.Problem.Regularized

/-!
# What symmetrization makes of a quadratic term

The matrix that is tested and stored in place of a quadratic term has the means of opposite entries.
Each of them lies between the two entries as long as their sum does not overflow, and a symmetric
term is left as it is where its entries are below the greatest power of two. Beyond that a mean is
infinite: a finite term is stored as an infinite one, or refused although it is semidefinite.
-/

namespace StandardForm.QuadraticProgram

variable {p : Precision} {data : Data} {V : Tensor p.Entry} {n : Datum}

theorem semidefinitePart_of_fits [Spectrum.Routines] (hshape : fits [n, n] V.shape = .ok true) :
    semidefinitePart p V n =
      (checkSemidefinite p (V.symmetricPart [n.dimension, n.dimension])).map fun _ =>
        ⟨V.symmetricPart [n.dimension, n.dimension], rfl⟩ := by
  rw [semidefinitePart, Tensor.require_of_fits hshape, ok_bind]
  dsimp only
  cases checkSemidefinite p (V.symmetricPart [n.dimension, n.dimension]) <;> rfl

/-- A quadratic term of the demanded shape is tested and goes into the program in the form of its
symmetric part. -/
theorem settle_eq_symmetricPart [Spectrum.Routines] (hV : data.V.toTensor p.format = .ok V)
    (hn : data.N.getD (.integer (suggestedDimension V)) = n)
    (hshape : fits [n, n] V.shape = .ok true) :
    settle p data =
      checkSemidefinite p (V.symmetricPart [n.dimension, n.dimension]) >>= fun _ =>
        settleOver p data n ⟨V.symmetricPart [n.dimension, n.dimension], rfl⟩ := by
  subst hn
  unfold settle
  rw [hV, ok_bind]
  dsimp only
  rw [semidefinitePart_of_fits hshape]
  cases checkSemidefinite p (V.symmetricPart _) <;> rfl

/-- A program has the quadratic term that it is settled over. -/
theorem V_of_settleOver [Spectrum.Routines] {S : Shaped p.Entry [n.dimension, n.dimension]}
    {built : Repaired (QuadraticProgram p)} (h : settleOver p data n S = .ok built) :
    built.value.V = S.1 := by
  obtain ⟨q, A, b, P, -, -, -, hterm, -⟩ := exists_assembled_of_settleOver h
  exact hterm

theorem isFinite_entryAt {f : FloatFormat} {t : Tensor (Binary f)}
    (h : ∀ x ∈ t.entries, x.isFinite = true) (position : List ℕ) :
    (t.entryAt position).isFinite = true := by
  rw [Tensor.entryAt, List.getD_eq_getElem?_getD]
  cases hentry : t.entries[Tensor.offset t.shape position]? with
  | none => exact Binary.isFinite_zeroOf false
  | some x => exact h x (List.mem_of_getElem? hentry)

/-- The symmetric part of a finite quadratic term is what is tested and stored. At every position it
lies between the two opposite entries exactly when their sum does not overflow, and is not finite
otherwise. It equals two equal entries, and is the same as two identical ones, exactly when they are
below the greatest power of two. -/
theorem symmetrized_between_iff [Spectrum.Routines] (hV : data.V.toTensor p.format = .ok V)
    (hn : data.N.getD (.integer (suggestedDimension V)) = n)
    (hshape : fits [n, n] V.shape = .ok true) (hfinite : ∀ x ∈ V.entries, x.isFinite = true) :
    let S := V.symmetricPart [n.dimension, n.dimension]
    settle p data = (checkSemidefinite p S >>= fun _ => settleOver p data n ⟨S, rfl⟩) ∧
    (∀ built, build p data = .ok built → built.value.V = S) ∧
    ∀ i < n.dimension, ∀ j < n.dimension,
      let x := V.entryAt [i, j]
      let y := V.entryAt [j, i]
      let s := S.entryAt [i, j]
      (Binary.min x y ≤ s ∧ s ≤ Binary.max x y ↔
        |x.value + y.value| < Binary.overflow p.format) ∧
      (s.isFinite = true ↔ |x.value + y.value| < Binary.overflow p.format) ∧
      (x.equals y = true →
        (s.equals x = true ↔ |x.value| < Binary.greatestPower p.format)) ∧
      (x = y → (s = x ↔ |x.value| < Binary.greatestPower p.format)) := by
  intro S
  have hsettle := settle_eq_symmetricPart hV hn hshape
  refine ⟨hsettle, fun built hbuilt => ?_, fun i hi j hj => ?_⟩
  · have hover := settle_of_build hbuilt
    rw [hsettle] at hover
    obtain ⟨⟨⟩, -, hover⟩ := bind_eq_ok.mp hover
    exact V_of_settleOver hover
  · intro x y s
    have hx : x.isFinite = true := isFinite_entryAt hfinite _
    have hy : y.isFinite = true := isFinite_entryAt hfinite _
    have hs : s = Binary.mean x y := Tensor.entryAt_symmetricPart V hi hj
    rw [hs, Binary.isFinite_mean]
    refine ⟨Binary.mean_between_iff hx hy, Binary.isFinite_add_iff hx hy,
      Binary.mean_equals_iff hx, fun hxy => ?_⟩
    rw [← hxy]
    exact Binary.mean_self_iff hx

def Data.ofTerm (V : Datum) : Data := ⟨V, none, none, none, none, none, none, none, none⟩

def skewedTerm : Tensor Double :=
  ⟨[2, 2], [4, 1, 3, 4].map (Binary.ofInt .double), rfl⟩

theorem symmetrized_between_skewedTerm :
    ∃ built, build .standard (.ofTerm (.ofTensor skewedTerm)) = .ok built ∧
      built.value.V = ⟨[2, 2], [4, 2, 2, 4].map (Binary.ofInt .double), rfl⟩ := by
  have hV : (Data.ofTerm (.ofTensor skewedTerm)).V.toTensor .double = .ok skewedTerm :=
    toOption_eq_some.mp (by decide +kernel)
  have h := symmetrized_between_iff (p := .standard) hV rfl (fits_integers [2, 2])
    (by decide +kernel)
  have hbuilt : (build .standard (.ofTerm (.ofTensor skewedTerm))).toOption.isSome = true := by
    decide +kernel
  obtain ⟨built, hbuilt⟩ := Option.isSome_iff_exists.mp hbuilt
  refine ⟨built, toOption_eq_some.mp hbuilt, ?_⟩
  rw [h.2.1 built (toOption_eq_some.mp hbuilt)]
  decide +kernel

def largeTerm : Tensor Double :=
  ⟨[2, 2], [2 ^ 1023, 0, 0, 1].map (Binary.ofInt .double), rfl⟩

/-- The greatest power of two as the only entry is stored as infinity, and with a one beside it on
the diagonal a positive definite matrix is refused. -/
theorem symmetrized_not_between_largeTerm :
    (∃ built, build .standard (.ofTerm (.list [.list [.integer (2 ^ 1023)]])) = .ok built ∧
      built.value.V.entries = [.infinity false]) ∧
    (∀ x ∈ largeTerm.entries, x.isFinite = true) ∧
    build .standard (.ofTerm (.ofTensor largeTerm)) =
      .error (.rejected (.notPSD .nan (tolerance .standard))) := by
  have hstored : (build .standard (.ofTerm (.list [.list [.integer (2 ^ 1023)]]))).toOption.map
      (fun built => built.value.V.entries) = some [.infinity false] := by
    decide +kernel
  obtain ⟨built, hbuilt, hentries⟩ := Option.map_eq_some_iff.mp hstored
  have hV : (Data.ofTerm (.ofTensor largeTerm)).V.toTensor .double = .ok largeTerm :=
    toOption_eq_some.mp (by decide +kernel)
  have hlowest : Spectrum.leastEigenvalue (largeTerm.symmetricPart [2, 2]) = .ok .nan :=
    toOption_eq_some.mp (by decide +kernel)
  have hsettle := settle_eq_symmetricPart (p := .standard) hV rfl (fits_integers [2, 2])
  refine ⟨⟨built, toOption_eq_some.mp hbuilt, hentries⟩, by decide +kernel, ?_⟩
  have hrefused : settle .standard (.ofTerm (.ofTensor largeTerm)) =
      .error (.rejected (.notPSD .nan (tolerance .standard))) :=
    hsettle.trans (congrArg (· >>= _) (checkSemidefinite_of_nan (p := .standard) hlowest))
  rw [build, hrefused]
  rfl

end StandardForm.QuadraticProgram
