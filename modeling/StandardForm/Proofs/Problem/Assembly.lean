import StandardForm.Problem.QuadraticProgram
import StandardForm.Proofs.Attempt
import StandardForm.Proofs.Datum.Stored

/-!
# Assembled programs

An assembled program holds what its data have been converted to, where what is left out has been
filled, so that its arrays are small enough to exist. To settle a program is to assemble it, to
check it and to put its bounds in order; a quadratic program is then built upon a linear one. In the
other direction a program with arrays that are small enough is what is assembled from them: no
conversion changes a number, and every shape is the demanded one.
-/

namespace StandardForm

variable {p : Precision}

/-- Every array of a region is small enough to exist. -/
structure Region.Stored (R : Region p) : Prop where
  A : Storable p.format [R.M, R.N]
  b : Storable p.format [R.M]
  G : Storable p.format [R.J, R.N]
  g : Storable p.format [R.J]
  bounds : Storable p.format [R.N]

namespace LinearProgram

/-! ## Assemblies -/

section Assembly

variable {n : Datum} {name : String} {costs A b : Source} {G g d u : Option Datum}

/-- The dimensions and arrays of a program are what some data have been converted to, in `n`
variables and with what is left out filled. -/
structure AssembledFrom (P : LinearProgram p) (n : Datum) (name : String) (costs A b : Source)
    (G g d u : Option Datum) : Prop where
  N_eq : P.N = n.dimension
  M_eq : b.size = .ok P.M
  J_eq : (Source.vector g (.integer 0) 0 >>= fun s => s.size) = .ok P.J
  A_eq : (A.toMatrix p.format "A" (.integer P.M) n).map (·.1) = .ok P.A
  b_eq : (b.toVector p.format "b" (.integer P.M)).map (·.1) = .ok P.b
  G_eq : (Source.matrix G 0 n 0 >>= fun s => s.toMatrix p.format "G" (.integer P.J) n).map (·.1) =
    .ok P.G
  g_eq : (Source.vector g (.integer 0) 0 >>= fun s =>
    s.toVector p.format "g" (.integer P.J)).map (·.1) = .ok P.g
  c_eq : (costs.toVector p.format name n).map (·.1) = .ok P.c
  d_eq : (Source.vector d n 0 >>= fun s => s.toVector p.format "d" n).map (·.1) = .ok P.d
  u_eq : (Source.vector u n (.infinity false) >>= fun s => s.toVector p.format "u" n).map (·.1) =
    .ok P.u

theorem assembledFrom_of_assemble {P : { P : LinearProgram p // P.N = n.dimension }}
    (h : assemble p n name costs A b G g d u = .ok P) :
    P.1.AssembledFrom n name costs A b G g d u := by
  obtain ⟨u', hu', h⟩ := bind_eq_ok.mp h
  obtain ⟨d', hd', h⟩ := bind_eq_ok.mp h
  obtain ⟨G', hG', h⟩ := bind_eq_ok.mp h
  obtain ⟨g', hg', h⟩ := bind_eq_ok.mp h
  obtain ⟨M, hM, h⟩ := bind_eq_ok.mp h
  obtain ⟨J, hJ, h⟩ := bind_eq_ok.mp h
  obtain ⟨A, hA, h⟩ := bind_eq_ok.mp h
  obtain ⟨G, hG, h⟩ := bind_eq_ok.mp h
  obtain ⟨c, hc, h⟩ := bind_eq_ok.mp h
  obtain ⟨d, hd, h⟩ := bind_eq_ok.mp h
  obtain ⟨u, hu, h⟩ := bind_eq_ok.mp h
  obtain ⟨b, hb, h⟩ := bind_eq_ok.mp h
  obtain ⟨g, hg, h⟩ := bind_eq_ok.mp h
  cases pure_eq_ok.mp h
  exact {
    N_eq := rfl
    M_eq := hM
    J_eq := bind_eq_ok.mpr ⟨g', hg', hJ⟩
    A_eq := map_eq_ok.mpr ⟨A, hA, rfl⟩
    b_eq := map_eq_ok.mpr ⟨b, hb, rfl⟩
    G_eq := map_eq_ok.mpr ⟨G, bind_eq_ok.mpr ⟨G', hG', hG⟩, rfl⟩
    g_eq := map_eq_ok.mpr ⟨g, bind_eq_ok.mpr ⟨g', hg', hg⟩, rfl⟩
    c_eq := map_eq_ok.mpr ⟨c, hc, rfl⟩
    d_eq := map_eq_ok.mpr ⟨d, bind_eq_ok.mpr ⟨d', hd', hd⟩, rfl⟩
    u_eq := map_eq_ok.mpr ⟨u, bind_eq_ok.mpr ⟨u', hu', hu⟩, rfl⟩ }

/-- What has been converted or filled is small enough to exist. -/
theorem AssembledFrom.stored {P : LinearProgram p} (h : P.AssembledFrom n name costs A b G g d u) :
    P.toRegion.Stored := by
  obtain ⟨A, hA, -⟩ := map_eq_ok.mp h.A_eq
  obtain ⟨b, hb, -⟩ := map_eq_ok.mp h.b_eq
  obtain ⟨G, hG, -⟩ := map_eq_ok.mp h.G_eq
  obtain ⟨g, hg, -⟩ := map_eq_ok.mp h.g_eq
  obtain ⟨d, hd, -⟩ := map_eq_ok.mp h.d_eq
  obtain ⟨G', -, hG⟩ := bind_eq_ok.mp hG
  obtain ⟨g', -, hg⟩ := bind_eq_ok.mp hg
  obtain ⟨d', -, hd⟩ := bind_eq_ok.mp hd
  constructor
  case A => exact h.N_eq ▸ .of_sourceToMatrix hA
  case b => exact .of_sourceToVector hb
  case G => exact h.N_eq ▸ .of_sourceToMatrix hG
  case g => exact .of_sourceToVector hg
  case bounds => exact h.N_eq ▸ .of_sourceToVector hd

end Assembly

/-- A program is what is assembled from its arrays. -/
theorem assemble_ofTensor (P : LinearProgram p) (h : P.toRegion.Stored) (name : String) :
    assemble p (.integer P.N) name (.given (.ofTensor P.c)) (.given (.ofTensor P.A))
      (.given (.ofTensor P.b)) (some (.ofTensor P.G)) (some (.ofTensor P.g))
      (some (.ofTensor P.d)) (some (.ofTensor P.u)) = .ok ⟨P, rfl⟩ := by
  have hM : (Datum.ofTensor P.b).vectorLength = .ok P.M := by
    rw [Datum.vectorLength_ofTensor (by simp [P.b_shape, maxAxes]), P.b_shape]
    simp
  have hJ : (Datum.ofTensor P.g).vectorLength = .ok P.J := by
    rw [Datum.vectorLength_ofTensor (by simp [P.g_shape, maxAxes]), P.g_shape]
    simp
  simp only [assemble, Source.vector, Source.matrix, Source.size, ok_bind, hM, hJ, Source.toMatrix,
    Source.toVector, Datum.toMatrix_ofTensor _ P.A_shape h.A,
    Datum.toMatrix_ofTensor _ P.G_shape h.G, Datum.toVector_ofTensor _ P.c_shape h.bounds,
    Datum.toVector_ofTensor _ P.d_shape h.bounds, Datum.toVector_ofTensor _ P.u_shape h.bounds,
    Datum.toVector_ofTensor _ P.b_shape h.b, Datum.toVector_ofTensor _ P.g_shape h.g]
  rfl

/-! ## Settled linear programs -/

variable [Spectrum.Routines]

/-- What becomes of an assembled program: it is checked, repaired and built upon. -/
def finish {n : Datum} {α : Type} (k : (P : LinearProgram p) → P.N = n.dimension → α)
    (P : { P : LinearProgram p // P.N = n.dimension }) : Except Fault (Repaired α) :=
  P.1.check >>= fun _ => .ok ⟨k P.1.repair.value P.2, P.1.repair.reversed⟩

theorem finish_eq_ok {n : Datum} {α : Type} {k : (P : LinearProgram p) → P.N = n.dimension → α}
    {P : { P : LinearProgram p // P.N = n.dimension }} {r : Repaired α} :
    finish k P = .ok r ↔
      P.1.check = .ok () ∧ r = ⟨k P.1.repair.value P.2, P.1.repair.reversed⟩ := by
  rw [finish]
  cases P.1.check with
  | error e => exact iff_of_false (fun h => nomatch h) fun h => nomatch h.1
  | ok => exact ⟨fun h => ⟨rfl, (Except.ok.inj h).symm⟩, fun h => congrArg Except.ok h.2.symm⟩

/-- The datum that the number of variables is read from. -/
def Data.count (data : Data) : Except Fault Datum :=
  data.N.getDM (data.c.vectorLength.map fun k => .integer k)

theorem settle_eq (data : Data) :
    settle p data = data.count >>= fun n =>
      assemble p n "c" (.given data.c) (.given data.region.A) (.given data.region.b) data.region.G
        data.region.g data.region.d data.region.u >>= finish fun P _ => P :=
  rfl

theorem exists_assembled_of_settle {data : Data} {built : Repaired (LinearProgram p)}
    (h : settle p data = .ok built) :
    ∃ (n : Datum) (P : LinearProgram p), data.count = .ok n ∧
      P.AssembledFrom n "c" (.given data.c) (.given data.region.A) (.given data.region.b)
        data.region.G data.region.g data.region.d data.region.u ∧
      P.check = .ok () ∧ built = P.repair := by
  rw [settle_eq] at h
  obtain ⟨n, hn, h⟩ := bind_eq_ok.mp h
  obtain ⟨P, hP, h⟩ := bind_eq_ok.mp h
  obtain ⟨hcheck, rfl⟩ := finish_eq_ok.mp h
  exact ⟨n, P.1, hn, assembledFrom_of_assemble hP, hcheck, rfl⟩

theorem settle_of_build {data : Data} {built : Repaired (LinearProgram p)}
    (h : build p data = .ok built) : settle p data = .ok built :=
  (bind_check_eq_ok.mp h).1

/-- When nothing is wrong with the number of variables, a program is built as it is settled. -/
theorem build_of_requireCount {data : Data} (h : Region.requireCount data.N = .ok ()) :
    build p data = settle p data :=
  bind_check_of_ok h

end LinearProgram

/-! ## Settled quadratic programs -/

namespace QuadraticProgram

variable [Spectrum.Routines]

/-- The datum that the number of variables is read from. -/
def Data.count (p : Precision) (data : Data) : Except Fault Datum :=
  (data.V.toTensor p.format).map fun V => data.N.getD (.integer (suggestedDimension V))

theorem settleOver_eq (data : Data) (n : Datum) (V : Shaped p.Entry [n.dimension, n.dimension]) :
    settleOver p data n V = Source.vector data.q n 0 >>= fun q =>
      Source.matrix data.A 1 n (.ofInt .double 1) >>= fun A =>
      Source.vector data.b (.integer 1) (.ofInt .double 1) >>= fun b =>
      LinearProgram.assemble p n "q" q A b data.G data.g data.d data.u >>=
        LinearProgram.finish fun P hP => ofLinear P V.1 (by rw [hP]; exact V.2) :=
  rfl

theorem exists_assembled_of_settleOver {data : Data} {n : Datum}
    {V : Shaped p.Entry [n.dimension, n.dimension]} {built : Repaired (QuadraticProgram p)}
    (h : settleOver p data n V = .ok built) :
    ∃ (q A b : Source) (P : LinearProgram p),
      P.AssembledFrom n "q" q A b data.G data.g data.d data.u ∧ P.check = .ok () ∧
      built.value.toRegion = P.orderBounds ∧ built.value.V = V.1 ∧
      built.reversed = P.reversed := by
  rw [settleOver_eq] at h
  obtain ⟨q, -, h⟩ := bind_eq_ok.mp h
  obtain ⟨A, -, h⟩ := bind_eq_ok.mp h
  obtain ⟨b, -, h⟩ := bind_eq_ok.mp h
  obtain ⟨P, hP, h⟩ := bind_eq_ok.mp h
  obtain ⟨hcheck, rfl⟩ := LinearProgram.finish_eq_ok.mp h
  exact ⟨q, A, b, P.1, LinearProgram.assembledFrom_of_assemble hP, hcheck, rfl, rfl, rfl⟩

theorem settle_of_build {data : Data} {built : Repaired (QuadraticProgram p)}
    (h : build p data = .ok built) : settle p data = .ok built :=
  (bind_check_eq_ok.mp h).1

/-- When nothing is wrong with the number of variables, a program is built as it is settled. -/
theorem build_of_requireCount {data : Data} (h : Region.requireCount data.N = .ok ()) :
    build p data = settle p data :=
  bind_check_of_ok h

end QuadraticProgram

end StandardForm
