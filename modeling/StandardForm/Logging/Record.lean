import StandardForm.Logging.Conversion

/-!
# Records

A template can show all that is known of a record. The logger, the level and the message make up
the record; the rest depends on when and where it was made, and is taken as it comes. Exceptions and
stacks are not attached to records.
-/

namespace StandardForm.Logging

/-- When and where a record was made: the time as text and in seconds, the message before its
arguments were filled in, the place in the source, the thread and the process. -/
structure Origin where
  time : String
  created : FiniteDouble
  milliseconds : FiniteDouble
  sinceStart : FiniteDouble
  pattern : String
  arguments : String
  path : String
  file : String
  moduleName : String
  function : String
  line : Nat
  thread : Nat
  threadName : String
  process : Nat
  processName : String

def FiniteDouble.zero : FiniteDouble := ⟨0, rfl⟩

/-- An origin of which nothing is known: texts are empty and numbers are zero. -/
def Origin.unknown : Origin where
  time := ""
  created := .zero
  milliseconds := .zero
  sinceStart := .zero
  pattern := ""
  arguments := "()"
  path := ""
  file := ""
  moduleName := ""
  function := ""
  line := 0
  thread := 0
  threadName := ""
  process := 0
  processName := ""

/-- The name of the field that a record has only if its template asks for it. -/
def timeField : String := "asctime"

/-- What a template can show of a record, by the names of fields. -/
def fields (origin : Origin) (name : String) (level : Level) (message : String) :
    List (String × FieldValue) :=
  [("name", .text name), ("msg", .text origin.pattern), ("args", .object origin.arguments),
    ("levelname", .text level.name), ("levelno", .level level), ("pathname", .text origin.path),
    ("filename", .text origin.file), ("module", .text origin.moduleName),
    ("exc_info", .object "None"), ("exc_text", .object "None"), ("stack_info", .object "None"),
    ("lineno", .integer origin.line), ("funcName", .text origin.function),
    ("created", .real origin.created), ("msecs", .real origin.milliseconds),
    ("relativeCreated", .real origin.sinceStart), ("thread", .integer origin.thread),
    ("threadName", .text origin.threadName), ("processName", .text origin.processName),
    ("process", .integer origin.process), ("message", .text message),
    (timeField, .text origin.time)]

/-- A value as it is shown inside of another one. -/
def FieldValue.display : FieldValue → String
  | text s => Text.quoted s
  | level l => l.text
  | integer n => toString n
  | real x => x.1.shortest
  | object shown => shown

def displayFields (fs : List (String × FieldValue)) : String :=
  "\x7b" ++ ", ".intercalate (fs.map fun (name, value) => Text.quoted name ++ ": " ++ value.display)
    ++ "\x7d"

end StandardForm.Logging
