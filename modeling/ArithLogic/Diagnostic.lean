import ArithLogic.Span

/-!
# ArithLogic.Diagnostic

Messages about the analysed text.
-/

namespace ArithLogic

/-- How grave a message is, the gravest first. -/
inductive Severity
  | error
  | warning
  | note
  deriving DecidableEq

namespace Severity

/-- Every severity, the gravest first. -/
def all : List Severity := [error, warning, note]

/-- The place of a severity in `all`. -/
def rank : Severity → Nat
  | error => 0
  | warning => 1
  | note => 2

/-- The word for a severity. -/
def text : Severity → String
  | error => "error"
  | warning => "warning"
  | note => "note"

end Severity

/-- One message, about a part of the text if there is a span. -/
structure Diagnostic where
  severity : Severity
  message : String
  span? : Option Span
  deriving DecidableEq

/-- The wording of a diagnostic in a log. -/
def Diagnostic.text (d : Diagnostic) : String :=
  match d.span? with
  | some span => s!"{d.severity.text}[{span.text}]: {d.message}"
  | none => s!"{d.severity.text}: {d.message}"

end ArithLogic
