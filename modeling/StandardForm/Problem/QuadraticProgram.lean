import StandardForm.Problem.LinearProgram
import StandardForm.Tensor.Symmetric

/-!
# Quadratic programs

A quadratic program minimises `½ z V z + q z` over a region. Only the symmetric part of `V`
matters and is stored; it has to be positive semidefinite up to the root of the rounding unit.
Everything else is a linear program with the costs `q` and is built as one.
-/

namespace StandardForm

/-- Minimise `½ z V z + q z` over a region. -/
@[ext]
structure QuadraticProgram (p : Precision) extends Region p where
  V : Tensor p.Entry
  q : Tensor p.Entry
  V_shape : V.shape = [N, N]
  q_shape : q.shape = [N]

namespace QuadraticProgram

/-- The data of a quadratic program. What is left out has a default: no linear term, and the
single equality that all variables sum to one. -/
structure Data where
  V : Datum
  N : Option Datum
  q : Option Datum
  A : Option Datum
  b : Option Datum
  G : Option Datum
  g : Option Datum
  d : Option Datum
  u : Option Datum

/-- How far below zero the least eigenvalue may lie. -/
def tolerance (p : Precision) : Double := (Binary.sqrt p.epsilon).cast .double

variable [Spectrum.Routines]

/-- Require that a matrix has no eigenvalue below zero beyond the tolerance. -/
def checkSemidefinite (p : Precision) (V : Tensor p.Entry) : Except Fault Unit := do
  let lowest ← Spectrum.leastEigenvalue V
  if -tolerance p < lowest then .ok ()
  else .error (.rejected (.notPSD lowest (tolerance p)))

/-- The number of variables that the quadratic term suggests: its first axis if it is a
matrix, else the number of its entries. -/
def suggestedDimension {p : Precision} (V : Tensor p.Entry) : Nat :=
  match V.shape with
  | [m, _] => m
  | _ => V.size

/-- A quadratic term beside a linear program on as many variables. -/
def ofLinear {p : Precision} (P : LinearProgram p) (V : Tensor p.Entry)
    (hV : V.shape = [P.N, P.N]) : QuadraticProgram p :=
  { P.toRegion with V, q := P.c, V_shape := hV, q_shape := P.c_shape }

/-- The symmetric part of a quadratic term in `n` variables, which has to be semidefinite. -/
def semidefinitePart (p : Precision) (V : Tensor p.Entry) (n : Datum) :
    Except Fault (Shaped p.Entry [n.dimension, n.dimension]) := do
  let V ← V.require "V" [n, n]
  let S := V.1.symmetricPart [n.dimension, n.dimension]
  checkSemidefinite p S
  return ⟨S, rfl⟩

/-- The program with a given quadratic term, everything else being a linear program. -/
def settleOver (p : Precision) (data : Data) (n : Datum)
    (S : Shaped p.Entry [n.dimension, n.dimension]) :
    Except Fault (Repaired (QuadraticProgram p)) := do
  let q ← Source.vector data.q n 0
  let A ← Source.matrix data.A 1 n (.ofInt .double 1)
  let b ← Source.vector data.b (.integer 1) (.ofInt .double 1)
  let P ← LinearProgram.assemble p n "q" q A b data.G data.g data.d data.u
  P.1.check
  let repaired := P.1.repair
  have hS : S.1.shape = [repaired.value.N, repaired.value.N] := by
    show S.1.shape = [P.1.N, P.1.N]
    rw [P.2]
    exact S.2
  return ⟨ofLinear repaired.value S.1 hS, repaired.reversed⟩

/-- Build a quadratic program in a given precision, except that the number of variables may
still be given with axes. The quadratic term is settled before anything else is looked at. -/
def settle (p : Precision) (data : Data) : Except Fault (Repaired (QuadraticProgram p)) := do
  let V ← data.V.toTensor p.format
  let n := data.N.getD (.integer (suggestedDimension V))
  settleOver p data n (← semidefinitePart p V n)

def build (p : Precision) (data : Data) : Except Fault (Repaired (QuadraticProgram p)) := do
  let built ← settle p data
  Region.requireCount data.N
  return built

variable {p : Precision}

def diagonal {n : Nat} (c : Shaped p.Entry [n]) : Shaped p.Entry [n, n] :=
  ⟨Tensor.ofFn [n, n] fun i =>
    match i with
    | [i, j] => if i = j then c.1.entryAt [i] else 0
    | _ => 0, rfl⟩

/-- The cost of a variable, made positive: its magnitude and one half. -/
def regularized (c : p.Entry) : p.Entry := c.abs + Binary.twoPowNeg p.format 1

def zeroTerm (p : Precision) (n : Nat) : Shaped p.Entry [n] := ⟨Tensor.replicate n 0, rfl⟩

/-- A linear program as a quadratic one over the same region, with the regularized costs on
the diagonal of the quadratic term and without a linear term. -/
def ofLinearProgram (P : LinearProgram p) : QuadraticProgram p :=
  let V := diagonal ⟨P.c.map regularized, P.c_shape⟩
  let term := zeroTerm p P.N
  { P.toRegion with V := V.1, q := term.1, V_shape := V.2, q_shape := term.2 }

end QuadraticProgram

end StandardForm
