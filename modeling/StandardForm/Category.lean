/-!
# Kinds of findings

Findings are sorted into kinds that refine one another. Asking for a kind also finds what is
filed under any of its refinements, so an application may look for warnings as a whole or for
one cause alone.
-/

namespace StandardForm

/-- A kind of finding or of fault. -/
inductive Category
  | warning
  | userWarning
  | deprecation
  | boundOrder
  | valueFault
  | problemDefinition
  | dimensionMismatch
  | infeasible
  | redundantConstraints
  | degenerateBound
  | underconstrained
  | notPSD
  deriving DecidableEq

namespace Category

def name : Category → String
  | warning => "Warning"
  | userWarning => "UserWarning"
  | deprecation => "DeprecationWarning"
  | boundOrder => "BoundOrderWarning"
  | valueFault => "ValueError"
  | problemDefinition => "ProblemDefinitionError"
  | dimensionMismatch => "DimensionMismatch"
  | infeasible => "Infeasible"
  | redundantConstraints => "RedundantConstraints"
  | degenerateBound => "DegenerateBound"
  | underconstrained => "Underconstrained"
  | notPSD => "NotPSD"

def all : List Category :=
  [warning, userWarning, deprecation, boundOrder, valueFault, problemDefinition,
    dimensionMismatch, infeasible, redundantConstraints, degenerateBound, underconstrained,
    notPSD]

/-- The category and everything that it refines, the most general last. -/
def lineage : Category → List Category
  | warning => [warning]
  | userWarning => [userWarning, warning]
  | deprecation => [deprecation, warning]
  | boundOrder => [boundOrder, userWarning, warning]
  | valueFault => [valueFault]
  | problemDefinition => [problemDefinition, valueFault]
  | c => [c, problemDefinition, valueFault]

/-- `c` is `general` or refines it. -/
def refines (c general : Category) : Bool := c.lineage.contains general

def ofName? (s : String) : Option Category := all.find? (·.name == s)

end Category

end StandardForm
