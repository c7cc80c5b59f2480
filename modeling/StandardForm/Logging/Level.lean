/-!
# Levels

The level of a record says how severe it is, the level of a handler how severe a record has to
be. Levels are integers; a truth value serves as zero or one but is shown as itself. The usual
levels have names, some of them more than one.
-/

namespace StandardForm.Logging

inductive Level
  | number (n : Int)
  | truth (b : Bool)
  deriving DecidableEq

namespace Level

def value : Level → Int
  | number n => n
  | truth b => b.toNat

def text : Level → String
  | number n => toString n
  | truth b => if b then "True" else "False"

def warning : Level := number 30

def debug : Level := number 10

/-- A level without an effect of its own. -/
def unset : Level := number 0

/-- Names of levels, the preferred one of a level first. -/
def names : List (String × Int) :=
  [("CRITICAL", 50), ("FATAL", 50), ("ERROR", 40), ("WARNING", 30), ("WARN", 30), ("INFO", 20),
    ("DEBUG", 10), ("NOTSET", 0)]

def name (level : Level) : String :=
  match names.find? (·.2 == level.value) with
  | some (name, _) => name
  | none => "Level " ++ level.text

end Level

end StandardForm.Logging
