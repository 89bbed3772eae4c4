import PascalAsm.Source

/-!
# Diagnostics and reports

A diagnostic is one message about one place. A report is the list of all diagnostics in the order
in which they were raised; its counts are read off the list, so they cannot disagree with it.
-/

namespace PascalAsm

/-- How grave a diagnostic is: an error stops the compilation, a warning does not. -/
inductive Severity where
  | error
  | warning
deriving DecidableEq

/-- The word that names a severity in a diagnostic. -/
def Severity.text : Severity → String
  | .error => "error"
  | .warning => "warning"

/-- A message about a place in the source. -/
structure Diagnostic where
  severity : Severity
  message : String
  location : Location
deriving DecidableEq

/-- The text `location: severity: message`. -/
def Diagnostic.text (d : Diagnostic) : String :=
  d.location.text ++ ": " ++ d.severity.text ++ ": " ++ d.message

/-- Diagnostics in the order in which they were raised. -/
structure Report where
  diagnostics : List Diagnostic := []
deriving DecidableEq

namespace Report

/-- The report that holds nothing. -/
def empty : Report := {}

/-- The report with one more diagnostic at its end. -/
def push (r : Report) (d : Diagnostic) : Report := ⟨r.diagnostics ++ [d]⟩

@[simp] theorem diagnostics_push (r : Report) (d : Diagnostic) :
    (r.push d).diagnostics = r.diagnostics ++ [d] := rfl

/-- Raises an error. -/
def error (r : Report) (message : String) (location : Location) : Report :=
  r.push ⟨.error, message, location⟩

/-- Raises a warning. -/
def warning (r : Report) (message : String) (location : Location) : Report :=
  r.push ⟨.warning, message, location⟩

/-- The number of diagnostics of one severity. -/
def count (r : Report) (s : Severity) : Nat :=
  r.diagnostics.countP (·.severity = s)

/-- The number of errors. -/
def errors (r : Report) : Nat := r.count .error

/-- The number of warnings. -/
def warnings (r : Report) : Nat := r.count .warning

/-- Whether an error was raised. -/
def hasErrors (r : Report) : Bool := 0 < r.errors

/-- A number and its noun, the noun in the plural unless the number is one. -/
def counted (n : Nat) (noun : String) : String :=
  toString n ++ " " ++ noun ++ if n = 1 then "" else "s"

/-- One line that says how many errors and warnings there are; a count of zero is left out. -/
def summary (r : Report) : String :=
  match r.errors, r.warnings with
  | 0, 0 => "No errors or warnings"
  | 0, w => counted w "warning"
  | e, 0 => counted e "error"
  | e, w => counted e "error" ++ " and " ++ counted w "warning"

end Report

end PascalAsm
