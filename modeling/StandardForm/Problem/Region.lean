import StandardForm.Datum.Shaped
import StandardForm.Problem.Equalities

/-!
# Feasible regions

A region is the part of a problem that linear and quadratic programs have in common: the
points `x` with `A x = b`, `G x ≤ g` and `d ≤ x ≤ u`. The type promises that the arrays fit
together. What else a solver relies on is the business of `Region.check`, which refuses a
region, and of `Region.orderBounds`, which repairs one: bounds that come in reverse order are
exchanged, and `Region.reversed` tells where.
-/

namespace StandardForm

/-- The points that satisfy `M` equalities, `J` inequalities and bounds on `N` variables. -/
@[ext]
structure Region (p : Precision) where
  N : Nat
  M : Nat
  J : Nat
  A : Tensor p.Entry
  b : Tensor p.Entry
  G : Tensor p.Entry
  g : Tensor p.Entry
  d : Tensor p.Entry
  u : Tensor p.Entry
  A_shape : A.shape = [M, N]
  b_shape : b.shape = [M]
  G_shape : G.shape = [J, N]
  g_shape : g.shape = [J]
  d_shape : d.shape = [N]
  u_shape : u.shape = [N]

/-- A value together with the indices of the bounds that were exchanged to build it. -/
structure Repaired (α : Type) where
  value : α
  reversed : List Nat

namespace Region

/-- The data of a region. What is left out has a default: no inequalities, the lower bound
zero, no upper bound. -/
structure Data where
  A : Datum
  b : Datum
  G : Option Datum
  g : Option Datum
  d : Option Datum
  u : Option Datum

/-- Require that a number of variables, if it is given at all, is a single value. One with axes
around it serves for comparisons but not as a count. -/
def requireCount : Option Datum → Except Fault Unit
  | none => .ok ()
  | some n => do
    let _ ← n.toInt

/-- The indices at which two lists stand in a relation. -/
def indicesWhere {α : Type} (related : α → α → Bool) (xs ys : List α) : List Nat :=
  ((List.zipWith related xs ys).zipIdx.filter (·.1)).map (·.2)

variable {p : Precision}

/-- The indices at which the bounds leave one value. -/
def fixed (R : Region p) : List Nat := indicesWhere Binary.equals R.d.entries R.u.entries

/-- The indices at which the upper bound is below the lower one. -/
def reversed (R : Region p) : List Nat :=
  indicesWhere (fun d u => u.lt d) R.d.entries R.u.entries

def hasFiniteBound (R : Region p) : Bool :=
  R.d.entries.any Binary.isFinite || R.u.entries.any Binary.isFinite

/-- Require that no variable is fixed and that something other than equalities limits the
variables. -/
def checkBounds (R : Region p) : Except Fault Unit :=
  if R.fixed ≠ [] then .error (.rejected (.degenerateBound R.fixed))
  else if R.J = 0 ∧ !R.hasFiniteBound then .error (.rejected .underconstrained)
  else .ok ()

/-- Require first of the equalities and then of the bounds what a solver relies on. -/
def check [Spectrum.Routines] (R : Region p) : Except Fault Unit := do
  Equalities.check R.A R.b
  R.checkBounds

/-- The lower of two bounds, the first one unless the second is below it. -/
def lowerOf {f : FloatFormat} (d u : Binary f) : Binary f := if u < d then u else d

/-- The upper of two bounds, the second one unless it is below the first. -/
def upperOf {f : FloatFormat} (d u : Binary f) : Binary f := if u < d then d else u

theorem bounds_shape (R : Region p) : R.d.shape = R.u.shape := R.d_shape.trans R.u_shape.symm

/-- The region with the bounds of every variable in order. -/
def orderBounds (R : Region p) : Region p :=
  { R with
    d := R.d.zipWith lowerOf R.u R.bounds_shape
    u := R.d.zipWith upperOf R.u R.bounds_shape
    d_shape := R.d_shape
    u_shape := R.d_shape }

end Region

end StandardForm
