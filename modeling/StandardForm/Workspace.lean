import StandardForm.Finding
import StandardForm.Logging.Basic
import StandardForm.Lookup
import StandardForm.Problem.QuadraticProgram
import StandardForm.Spectrum.Rounded

/-!
# Constructions with their reports

A workspace is the state that constructions share: the logging and the findings in each of
its collectors, which go by name and are empty at first. A construction that succeeds reports
the bounds that it exchanged, to the log and to the collector that it was given, and then its
dimensions, to the log only. One that fails reports nothing and leaves the workspace as it was,
unless all that is wrong is that the number of variables is no single value: this is noticed
last, after the exchange of bounds has been reported.
-/

namespace StandardForm

/-- The logging and the findings in each collector. -/
structure Workspace where
  logging : Logging
  findings : String → Findings

/-- Where the findings of a construction go: to a collector of the workspace, to one of its
own, or nowhere. -/
inductive Collector
  | shared (name : String)
  | own
  | none
  deriving DecidableEq

/-- How a construction ended: with a program or a fault, the workspace as it is afterwards, the
findings in its collector so far, if it has one and succeeded, and the lines written to the
log. -/
structure Outcome (α : Type) where
  result : Except Fault α
  workspace : Workspace
  findings : Option Findings
  lines : List String

namespace Workspace

def initial : Workspace := ⟨.initial, fun _ => []⟩

def record (w : Workspace) (name : String) (finding : Finding) : Workspace :=
  let recorded := (w.findings name).record finding
  { w with findings := fun other => if other = name then recorded else w.findings other }

@[simp] theorem findings_record_self (w : Workspace) (name : String) (finding : Finding) :
    (w.record name finding).findings name = w.findings name ++ [finding] := by
  simp [record, Findings.record]

@[simp] theorem findings_record_of_ne (w : Workspace) {name other : String}
    (finding : Finding) (h : other ≠ name) :
    (w.record name finding).findings other = w.findings other := by
  simp [record, h]

/-- The name of the logger that reports exchanged bounds and linear programs. -/
def linearLogger : String := "qpmodels.convex.lp"

/-- The name of the logger that reports quadratic programs. -/
def quadraticLogger : String := "qpmodels.convex.qp"

/-- The findings of a construction that exchanged the bounds at some indices. -/
def repairs (reversed : List Nat) : Findings :=
  if reversed = [] then [] else [.boundsSwapped reversed]

/-- The line about exchanged bounds, if there is one. -/
def repairLine (w : Workspace) (reversed : List Nat) : Option String :=
  if reversed = [] then none
  else w.logging.written linearLogger .warning
    (boundsSwappedMessage ++ ": indices " ++ Notice.indexList (reversed.map Int.ofNat))

def dimensionsText {p : Precision} (title : String) (R : Region p) : String :=
  "built " ++ title ++ " with N=" ++ toString R.N ++ ", M=" ++ toString R.M
    ++ ", J=" ++ toString R.J

/-- The findings of a construction handed to its collector: the workspace afterwards and what
the collector then holds. -/
def collect (w : Workspace) : Collector → Findings → Workspace × Option Findings
  | .shared name, fs =>
    let w := fs.foldl (·.record name ·) w
    (w, some (w.findings name))
  | .own, fs => (w, some fs)
  | .none, _ => (w, none)

/-- The outcome of a construction, reported through `logger` in the words of `announce`; `count`
is the check of the number of variables. -/
def conclude {α : Type} (w : Workspace) (collector : Collector) (logger : String)
    (announce : α → String) (count : Except Fault Unit) : Except Fault (Repaired α) → Outcome α
  | .error e => ⟨.error e, w, none, []⟩
  | .ok built =>
    let (after, findings) := w.collect collector (repairs built.reversed)
    let repair := (w.repairLine built.reversed).toList
    match count with
    | .error e => ⟨.error e, after, none, repair⟩
    | .ok () =>
      ⟨.ok built.value, after, findings, repair
        ++ (w.logging.written logger .debug (announce built.value)).toList⟩

/-- The precision that a datum means, the standard one if it is left out. -/
def precisionOf : Option Datum → Except Fault Precision
  | some d => Vocabulary.lookup Precision d
  | none => .ok .standard

abbrev AnyLinear := (p : Precision) × LinearProgram p

abbrev AnyQuadratic := (p : Precision) × QuadraticProgram p

/-- Build in the precision that a datum means, and remember the precision. -/
def inPrecision {P : Precision → Type}
    (build : (p : Precision) → Except Fault (Repaired (P p))) (precision : Option Datum) :
    Except Fault (Repaired ((p : Precision) × P p)) := do
  let p ← precisionOf precision
  let built ← build p
  return ⟨⟨p, built.value⟩, built.reversed⟩

variable [Spectrum.Routines]

def makeLinear (w : Workspace) (collector : Collector) (precision : Option Datum)
    (data : LinearProgram.Data) : Outcome AnyLinear :=
  w.conclude collector linearLogger (fun P => dimensionsText "LP" P.2.toRegion)
    (Region.requireCount data.N) (inPrecision (LinearProgram.settle · data) precision)

def makeQuadratic (w : Workspace) (collector : Collector) (precision : Option Datum)
    (data : QuadraticProgram.Data) : Outcome AnyQuadratic :=
  w.conclude collector quadraticLogger (fun P => dimensionsText "QP" P.2.toRegion)
    (Region.requireCount data.N) (inPrecision (QuadraticProgram.settle · data) precision)

end Workspace

end StandardForm
