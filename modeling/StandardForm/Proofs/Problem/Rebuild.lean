import StandardForm.Proofs.Problem.Assembly
import StandardForm.Proofs.Problem.Bounds
import StandardForm.Proofs.Tensor.Symmetric

/-!
# Quadratic programs built again

Building a quadratic program from data brings it into a form in which building it once more from
its own arrays changes nothing: the quadratic term is its own symmetric part, no bounds are in
reverse order, and every check that has passed passes again. Only the equalities decide then
whether such a program is built. This is what a variation relies on when it takes the rest of a
program over as it is.
-/

namespace StandardForm

variable {p : Precision}

/-- A program with its bounds in order needs no repair. -/
theorem LinearProgram.repair_of_reversed {P : LinearProgram p} (h : P.reversed = []) :
    P.repair = ⟨P, []⟩ := by
  have horder := Region.orderBounds_of_reversed h
  have hvalue : P.repair.value = P :=
    LinearProgram.ext rfl rfl rfl rfl rfl rfl rfl (congrArg Region.d horder)
      (congrArg Region.u horder) rfl
  exact congr (congrArg Repaired.mk hvalue) h

namespace QuadraticProgram

def toData (P : QuadraticProgram p) : Data where
  V := .ofTensor P.V
  N := none
  q := some (.ofTensor P.q)
  A := some (.ofTensor P.A)
  b := some (.ofTensor P.b)
  G := some (.ofTensor P.G)
  g := some (.ofTensor P.g)
  d := some (.ofTensor P.d)
  u := some (.ofTensor P.u)

/-- The linear program over the same region with the linear term as costs. -/
def linear (P : QuadraticProgram p) : LinearProgram p :=
  { P.toRegion with c := P.q, c_shape := P.q_shape }

variable [Spectrum.Routines]

/-- Everything but the equalities passes construction unchanged. -/
structure Settled (P : QuadraticProgram p) : Prop where
  stored : P.toRegion.Stored
  square : Storable p.format [P.N, P.N]
  bounds : P.toRegion.checkBounds = .ok ()
  ordered : P.toRegion.reversed = []
  symmetric : P.V.symmetricPart [P.N, P.N] = P.V
  semidefinite : checkSemidefinite p P.V = .ok ()

/-- Construction would change nothing, and the equalities pass. -/
structure Accepted (P : QuadraticProgram p) : Prop where
  settled : P.Settled
  equalities : Equalities.check P.A P.b = .ok ()

/-! ## From a settled program -/

/-- A quadratic term that is its own symmetric part and semidefinite is settled as it is. -/
theorem semidefinitePart_of_symmetric {n : Nat} {V : Tensor p.Entry} (hshape : V.shape = [n, n])
    (hsymmetric : V.symmetricPart [n, n] = V) (hsemidefinite : checkSemidefinite p V = .ok ()) :
    semidefinitePart p V (.integer n) = .ok ⟨V, hshape⟩ := by
  have hfits : fits [.integer n, .integer n] V.shape = .ok true := hshape ▸ fits_integers [n, n]
  have hsymmetric : V.symmetricPart
      [(Datum.integer n).dimension, (Datum.integer n).dimension] = V := hsymmetric
  rw [semidefinitePart, Tensor.require_of_fits hfits, ok_bind]
  dsimp only
  simp only [hsymmetric, hsemidefinite]
  rfl

theorem settleOver_of_settled {P : QuadraticProgram p} (h : P.Settled) :
    settleOver p P.toData (.integer P.N) ⟨P.V, P.V_shape⟩ =
      (Equalities.check P.A P.b).map fun _ => ⟨P, []⟩ := by
  have hassemble : LinearProgram.assemble p (.integer P.N) "q" (.given (.ofTensor P.q))
      (.given (.ofTensor P.A)) (.given (.ofTensor P.b)) (some (.ofTensor P.G))
      (some (.ofTensor P.g)) (some (.ofTensor P.d)) (some (.ofTensor P.u)) =
        .ok ⟨P.linear, rfl⟩ := LinearProgram.assemble_ofTensor P.linear h.stored "q"
  have hcheck : P.linear.toRegion.check = Equalities.check P.A P.b := by
    have hbounds : P.linear.checkBounds = .ok () := h.bounds
    change (Equalities.check P.A P.b >>= fun _ => P.linear.checkBounds) = _
    rw [hbounds]
    cases Equalities.check P.A P.b <;> rfl
  have hrepair : P.linear.repair = ⟨P.linear, []⟩ := LinearProgram.repair_of_reversed h.ordered
  unfold settleOver
  simp only [toData, Source.vector, Source.matrix, ok_bind, hassemble, hcheck, hrepair]
  cases Equalities.check P.A P.b <;> rfl

/-- What is built on a settled quadratic term depends on the other data alone. -/
theorem settle_of_settled {P : QuadraticProgram p} (h : P.Settled) {data : Data}
    (hdata : data.V = .ofTensor P.V) (hN : data.N = none) :
    settle p data = settleOver p data (.integer P.N) ⟨P.V, P.V_shape⟩ := by
  have hV : (Datum.ofTensor P.V).toTensor p.format = .ok P.V :=
    Datum.toTensor_ofTensor (by simp [P.V_shape, maxAxes]) (P.V_shape ▸ h.square)
  have hn : suggestedDimension P.V = P.N := by simp [suggestedDimension, P.V_shape]
  unfold settle
  rw [hdata, hN, hV, ok_bind]
  dsimp only [Option.getD_none]
  rw [hn, semidefinitePart_of_symmetric P.V_shape h.symmetric h.semidefinite, ok_bind]

theorem settle_toData {P : QuadraticProgram p} (h : P.Settled) :
    settle p P.toData = (Equalities.check P.A P.b).map fun _ => ⟨P, []⟩ :=
  (settle_of_settled h rfl rfl).trans (settleOver_of_settled h)

/-- A settled program is built from its own arrays, bit by bit and without exchanging bounds,
unless its equalities are refused. -/
theorem build_toData {P : QuadraticProgram p} (h : P.Settled) :
    build p P.toData = (Equalities.check P.A P.b).map fun _ => ⟨P, []⟩ := by
  rw [build, settle_toData h]
  cases Equalities.check P.A P.b <;> rfl

/-! ## To a settled program -/

/-- What is settled of a quadratic term is small enough to exist, its own symmetric part, and
semidefinite. -/
theorem settled_of_semidefinitePart {V : Datum} {t : Tensor p.Entry} {n : Datum}
    {S : Shaped p.Entry [n.dimension, n.dimension]} (ht : V.toTensor p.format = .ok t)
    (h : semidefinitePart p t n = .ok S) :
    Storable p.format [n.dimension, n.dimension] ∧
      S.1.symmetricPart [n.dimension, n.dimension] = S.1 ∧ checkSemidefinite p S.1 = .ok () := by
  obtain ⟨V', hV', h⟩ := bind_eq_ok.mp h
  obtain ⟨⟨⟩, hsemidefinite, h⟩ := bind_eq_ok.mp h
  cases pure_eq_ok.mp h
  have hsquare := Storable.of_toTensor ht
  rw [← Tensor.eq_of_require hV', V'.2] at hsquare
  exact ⟨hsquare, Tensor.symmetricPart_symmetricPart _, hsemidefinite⟩

theorem accepted_of_settle {data : Data} {built : Repaired (QuadraticProgram p)}
    (h : settle p data = .ok built) : built.value.Accepted := by
  obtain ⟨V, hV, h⟩ := bind_eq_ok.mp h
  obtain ⟨S, hS, hover⟩ := bind_eq_ok.mp h
  obtain ⟨hsquare, hsymmetric, hsemidefinite⟩ := settled_of_semidefinitePart hV hS
  obtain ⟨q, A, b, P, hP, hcheck, hregion, hterm, -⟩ := exists_assembled_of_settleOver hover
  have hstored := hP.stored
  obtain ⟨⟨⟩, hequalities, hbounds⟩ := bind_eq_ok.mp hcheck
  have hdimension : built.value.N = (data.N.getD (.integer (suggestedDimension V))).dimension :=
    (congrArg Region.N hregion).trans hP.N_eq
  have hsettled : built.value.Settled := by
    constructor
    case stored =>
      rw [hregion]
      exact ⟨hstored.A, hstored.b, hstored.G, hstored.g, hstored.bounds⟩
    case square =>
      rw [hdimension]
      exact hsquare
    case bounds =>
      rw [hregion, Region.checkBounds_orderBounds]
      exact hbounds
    case ordered =>
      rw [hregion]
      exact Region.reversed_orderBounds _
    case symmetric =>
      rw [hterm, hdimension]
      exact hsymmetric
    case semidefinite =>
      rw [hterm]
      exact hsemidefinite
  refine ⟨hsettled, ?_⟩
  rw [hregion]
  exact hequalities

/-- A program that has been built is settled, and its equalities have passed. -/
theorem accepted_of_build {data : Data} {built : Repaired (QuadraticProgram p)}
    (h : build p data = .ok built) : built.value.Accepted :=
  accepted_of_settle (settle_of_build h)

end QuadraticProgram

end StandardForm
