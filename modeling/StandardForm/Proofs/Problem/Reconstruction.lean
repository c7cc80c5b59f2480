import StandardForm.Proofs.Problem.Box
import StandardForm.Proofs.Problem.Construction
import StandardForm.Proofs.Problem.Rebuild

/-!
# Programs constructed from their own arrays

Every normalisation of a construction reaches its result in one pass: a column is flattened, a
missing array is filled in, the quadratic term is replaced by its symmetric part and bounds in
reverse order are exchanged. What comes out is left alone by each of them and passes every check
again, so that constructing a program from its own arrays gives the same program, bit by bit, with
nothing to report. The number of variables is not handed in again, as it follows from the arrays.
-/

namespace StandardForm

variable {p : Precision}

/-- What the check has found of a region holds of it with its bounds in order. -/
theorem Region.check_orderBounds [Spectrum.Routines] (R : Region p) :
    R.orderBounds.check = R.check := by
  show (Equalities.check R.A R.b >>= fun _ => R.orderBounds.checkBounds) = _
  rw [checkBounds_orderBounds]
  rfl

namespace LinearProgram

def toData (P : LinearProgram p) : Data where
  c := .ofTensor P.c
  N := none
  region :=
    { A := .ofTensor P.A
      b := .ofTensor P.b
      G := some (.ofTensor P.G)
      g := some (.ofTensor P.g)
      d := some (.ofTensor P.d)
      u := some (.ofTensor P.u) }

/-- Construction would change nothing, and the region passes its check. -/
structure Accepted [Spectrum.Routines] (P : LinearProgram p) : Prop where
  stored : P.toRegion.Stored
  check : P.check = .ok ()
  ordered : P.reversed = []

theorem accepted_of_settle [Spectrum.Routines] {data : Data} {built : Repaired (LinearProgram p)}
    (h : settle p data = .ok built) : built.value.Accepted := by
  obtain ⟨n, P, -, hP, hcheck, rfl⟩ := exists_assembled_of_settle h
  have hstored := hP.stored
  constructor
  case stored => exact ⟨hstored.A, hstored.b, hstored.G, hstored.g, hstored.bounds⟩
  case check => exact (Region.check_orderBounds P.toRegion).trans hcheck
  case ordered => exact Region.reversed_orderBounds P.toRegion

/-- The number of variables of a program is the number of its costs. -/
theorem vectorLength_costs (P : LinearProgram p) : (Datum.ofTensor P.c).vectorLength = .ok P.N := by
  rw [Datum.vectorLength_ofTensor (by simp [P.c_shape, maxAxes]), P.c_shape]
  simp

theorem settle_toData [Spectrum.Routines] {P : LinearProgram p} (h : P.Accepted) :
    settle p P.toData = .ok ⟨P, []⟩ := by
  have hcount : (none : Option Datum).getDM
      ((Datum.ofTensor P.c).vectorLength.map fun k => Datum.integer k) = .ok (.integer P.N) := by
    rw [P.vectorLength_costs]
    rfl
  have hassemble := assemble_ofTensor P h.stored "c"
  have hcheck : P.toRegion.check = .ok () := h.check
  unfold settle
  simp only [toData, hcount, ok_bind, hassemble, hcheck, repair_of_reversed h.ordered]
  rfl

end LinearProgram

namespace QuadraticProgram

theorem settle_toData_of_accepted [Spectrum.Routines] {P : QuadraticProgram p} (h : P.Accepted) :
    settle p P.toData = .ok ⟨P, []⟩ := by
  rw [settle_toData h.settled, h.equalities]
  rfl

end QuadraticProgram

def Precision.toDatum (p : Precision) : Datum := .scalar (.member (.precision p))

namespace Workspace

theorem precisionOf_toDatum (p : Precision) : precisionOf (some p.toDatum) = .ok p := by
  cases p <;> rfl

variable {α : Type} {w : Workspace} {collector : Collector}

/-- A construction in a workspace has given a value and has found nothing: the workspace is as it
was, and the collector holds what it held before. -/
structure Reproduces (w : Workspace) (collector : Collector) (value : α) (out : Outcome α) :
    Prop where
  result : out.result = .ok value
  workspace : out.workspace = w
  findings : out.findings = match collector with
    | .shared name => some (w.findings name)
    | .own => some []
    | .none => none

/-- A construction that has exchanged no bounds has found nothing. -/
theorem reproduces_conclude (logger : String) (announce : α → String) (value : α) :
    w.Reproduces collector value
      (w.conclude collector logger announce (.ok ()) (.ok ⟨value, []⟩)) := by
  constructor
  case result => rfl
  case workspace => cases collector <;> rfl
  case findings => cases collector <;> rfl

theorem inPrecision_toDatum {P : Precision → Type}
    {build : (p : Precision) → Except Fault (Repaired (P p))} {built : Repaired (P p)}
    (h : build p = .ok built) :
    inPrecision build (some p.toDatum) = .ok ⟨⟨p, built.value⟩, built.reversed⟩ := by
  rw [inPrecision, precisionOf_toDatum, ok_bind, h]
  rfl

theorem reproduces_linear [Spectrum.Routines] {collector' : Collector} {precision : Option Datum}
    {data : LinearProgram.Data} {P : AnyLinear}
    (h : (w.makeLinear collector' precision data).result = .ok P) (w' : Workspace) :
    w'.Reproduces collector P (w'.makeLinear collector (some P.1.toDatum) P.2.toData) := by
  obtain ⟨r, hr, rfl⟩ := exists_of_result_conclude h
  obtain ⟨p, built, -, hbuilt, rfl⟩ := inPrecision_eq_ok.mp hr
  have haccepted := LinearProgram.accepted_of_settle hbuilt
  unfold makeLinear
  rw [inPrecision_toDatum (LinearProgram.settle_toData haccepted)]
  exact reproduces_conclude linearLogger _ (⟨p, built.value⟩ : AnyLinear)

theorem reproduces_quadratic [Spectrum.Routines] {collector' : Collector} {precision : Option Datum}
    {data : QuadraticProgram.Data} {P : AnyQuadratic}
    (h : (w.makeQuadratic collector' precision data).result = .ok P) (w' : Workspace) :
    w'.Reproduces collector P (w'.makeQuadratic collector (some P.1.toDatum) P.2.toData) := by
  obtain ⟨r, hr, rfl⟩ := exists_of_result_conclude h
  obtain ⟨p, built, -, hbuilt, rfl⟩ := inPrecision_eq_ok.mp hr
  have haccepted := QuadraticProgram.accepted_of_settle hbuilt
  unfold makeQuadratic
  rw [inPrecision_toDatum (QuadraticProgram.settle_toData_of_accepted haccepted)]
  exact reproduces_conclude quadraticLogger _ (⟨p, built.value⟩ : AnyQuadratic)

/-- Whatever a program was constructed from, constructing it from its own arrays, in its own
precision, gives the same program and reports nothing, in any workspace and to any collector. -/
theorem makes_reproduce [Spectrum.Routines] (w : Workspace) (collector : Collector)
    (precision : Option Datum) :
    (∀ (data : LinearProgram.Data) (P : AnyLinear),
      (w.makeLinear collector precision data).result = .ok P →
      ∀ (w' : Workspace) (collector' : Collector), w'.Reproduces collector' P
        (w'.makeLinear collector' (some P.1.toDatum) P.2.toData)) ∧
    ∀ (data : QuadraticProgram.Data) (P : AnyQuadratic),
      (w.makeQuadratic collector precision data).result = .ok P →
      ∀ (w' : Workspace) (collector' : Collector), w'.Reproduces collector' P
        (w'.makeQuadratic collector' (some P.1.toDatum) P.2.toData) := by
  constructor
  · intro data P h w' collector'
    exact reproduces_linear h w'
  · intro data P h w' collector'
    exact reproduces_quadratic h w'

/-- A quadratic term that is not symmetric, a linear term that is a column, and bounds in reverse
order. -/
def unsettledData : QuadraticProgram.Data where
  V := .list [.list [.integer 2, .integer 1], .list [.integer 0, .integer 3]]
  N := none
  q := some (.list [.list [.integer 1], .list [.integer (-1)]])
  A := none
  b := none
  G := none
  g := none
  d := some (.list [.integer 1, .scalar (.real .nan)])
  u := some (.list [.integer 0, .integer 4])

theorem makes_reproduce_unsettled :
    (∃ P : AnyLinear,
      (initial.makeLinear .own none LinearProgram.reversedBounds).result = .ok P ∧
      initial.Reproduces (.shared "log") P
        (initial.makeLinear (.shared "log") (some P.1.toDatum) P.2.toData)) ∧
    ∃ P : AnyQuadratic,
      (initial.makeQuadratic .own none unsettledData).result = .ok P ∧
      initial.Reproduces (.shared "log") P
        (initial.makeQuadratic (.shared "log") (some P.1.toDatum) P.2.toData) := by
  obtain ⟨hlinear, hquadratic⟩ := makes_reproduce initial .own none
  have hP : (initial.makeLinear .own none
      LinearProgram.reversedBounds).result.toOption.isSome = true := by
    decide +kernel
  have hQ : (initial.makeQuadratic .own none unsettledData).result.toOption.isSome = true := by
    decide +kernel
  obtain ⟨P, hP⟩ := Option.isSome_iff_exists.mp hP
  obtain ⟨Q, hQ⟩ := Option.isSome_iff_exists.mp hQ
  have hP := toOption_eq_some.mp hP
  have hQ := toOption_eq_some.mp hQ
  exact ⟨⟨P, hP, hlinear _ P hP initial (.shared "log")⟩,
    ⟨Q, hQ, hquadratic _ Q hQ initial (.shared "log")⟩⟩

end Workspace

end StandardForm
