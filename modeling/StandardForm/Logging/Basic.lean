import StandardForm.Datum.Number
import StandardForm.Logging.Template
import StandardForm.Text.Uppercase

/-!
# Logging

All loggers stand below one root, which alone has a level and at most one handler. A record
passes the root's level first, then the handler's. Looking the root up installs a handler if
there is none; between the removal of a handler and the next look-up there may be none, and
then warnings and more severe records are written without any layout.

What goes wrong while the logging is configured leaves the steps before it in effect, so a
configuration returns a state in either case.
-/

namespace StandardForm

namespace Logging

/-- The name of the root, and the beginning of the name of every other logger. -/
def rootName : String := "qpmodels"

/-- The layout of a line unless another is configured. -/
def standardTemplate : String := "[%(levelname)s] %(name)s: %(message)s"

/-- Where lines are written: to the stream of errors, or to one that was handed in. -/
inductive Stream
  | errors
  | given (number : Nat)
  deriving DecidableEq

/-- The handler writes records from its level on. -/
structure Handler where
  level : Level
  template : String
  stream : Stream
  deriving DecidableEq

def Handler.standard : Handler := ⟨.unset, standardTemplate, .errors⟩

end Logging

/-- The state of the root, its level and its handler, and where records come from. -/
structure Logging where
  level : Logging.Level
  handler : Option Logging.Handler
  origin : (name : String) → Logging.Level → (message : String) → Logging.Origin

namespace Logging

/-- The state after a configuration for which nothing was given: warnings are written, in the
standard layout. -/
def initial : Logging where
  level := .warning
  handler := some ⟨.warning, standardTemplate, .errors⟩
  origin _ _ _ := .unknown

/-- Look the root up, which installs a handler if there is none. -/
def lookUp (l : Logging) : Logging :=
  match l.handler with
  | some _ => l
  | none => { l with level := .warning, handler := some .standard }

def fullName : Option String → String
  | none => rootName
  | some name =>
    if name = rootName ∨ name.startsWith (rootName ++ ".") then name
    else rootName ++ "." ++ name

/-- The level that records are compared with; an unset one is that of warnings. -/
def effectiveLevel (l : Logging) : Level := if l.level.value = 0 then .warning else l.level

/-- The level that a datum means. Text is looked up among the names of levels, in any case,
and means warnings when it is none. Two further names belong to other things: a template,
which is no known level, and a table, which is no level at all. -/
def levelOf : Datum → Except Fault Level
  | .scalar (.text s) =>
    let name := Text.upper s
    match Level.names.lookup name with
    | some level => .ok (.number level)
    | none =>
      if name = "BASIC_FORMAT" then .error .malformed
      else if name = "_STYLES" then .error .wrongKind
      else .ok .warning
  | .scalar (.integer n) => .ok (.number n)
  | .scalar (.truth b) => .ok (.truth b)
  | _ => .error .wrongKind

/-- Set the level of the root and of its handler. -/
def setLevel (l : Logging) (level : Datum) : Except Fault Unit × Logging :=
  let l := l.lookUp
  match levelOf level with
  | .error e => (.error e, l)
  | .ok n => (.ok (), { l with level := n, handler := l.handler.map ({ · with level := n }) })

/-- The template that a datum means. Whatever does not count as true, such as nothing or the
empty text, means the standard one. -/
def templateOf (d : Datum) : Except Fault String := do
  if ← d.countsAsTrue then
    match d with
    | .scalar (.text s) => if hasField s.toList then .ok s else .error .malformed
    | _ => .error .wrongKind
  else return standardTemplate

/-- Replace the handler by one that writes to `stream` and set the level. A template that is
refused leaves the root without a handler; a level that is refused leaves the new handler without
a level of its own. -/
def configureOn (l : Logging) (level template : Datum) (stream : Stream) :
    Except Fault Unit × Logging :=
  let l := l.lookUp
  match templateOf template with
  | .error e => (.error e, { l with handler := none })
  | .ok t => setLevel { l with handler := some ⟨.unset, t, stream⟩ } level

/-- Replace the handler and set the level, where no stream is handed in. -/
def configure (l : Logging) (level template : Datum) : Except Fault Unit × Logging :=
  l.configureOn level template .errors

/-- What is written for a record. Only records above the unset level are ever written. -/
def written (l : Logging) (name : String) (level : Level) (message : String) : Option String :=
  if level.value ≤ 0 ∨ level.value < l.effectiveLevel.value then none
  else
    match l.handler with
    | some h =>
      if level.value < h.level.value then none
      else fill (fields (l.origin name level message) name level message) h.template
    | none => if level.value < Level.warning.value then none else some message

/-- The level that a record is given with: an integer or a truth value. -/
def recordLevel : Datum → Except Fault Level
  | .scalar (.integer n) => .ok (.number n)
  | .scalar (.truth b) => .ok (.truth b)
  | _ => .error .wrongKind

end Logging

end StandardForm
