import ArithLogic.Diagnostic
import ArithLogic.Elaboration.Error

/-!
# ArithLogic.Event

What an analysis records about its own course.  An event is a fact; the level
at which it is logged, the part of the program it is logged for, and its
wording are functions of it.
-/

namespace ArithLogic

/-- The levels of a log, the gravest first. -/
inductive LogLevel
  | error
  | warn
  | info
  | debug
  | trace
  deriving DecidableEq

namespace LogLevel

/-- Every level, the gravest first. -/
def all : List LogLevel := [error, warn, info, debug, trace]

/-- The place of a level in `all`. -/
def rank : LogLevel → Nat
  | error => 0
  | warn => 1
  | info => 2
  | debug => 3
  | trace => 4

/-- The word for a level in a record. -/
def text : LogLevel → String
  | error => "ERROR"
  | warn => "WARN"
  | info => "INFO"
  | debug => "DEBUG"
  | trace => "TRACE"

end LogLevel

/-- The level at which a diagnostic is logged. -/
def Severity.level : Severity → LogLevel
  | .error => .error
  | .warning => .warn
  | .note => .info

/-- A step in the course of an analysis. -/
inductive Event
  /-- A text was split into so many tokens. -/
  | lexed (count : Nat)
  /-- A program of so many statements was read. -/
  | parsed (count : Nat)
  /-- A context was made. -/
  | contextCreated
  /-- A context with so much in it was given up. -/
  | contextReleased (nodes decls : Nat)
  /-- A scope was entered; now there are so many. -/
  | scopeEntered (depth : Nat)
  /-- A scope was left; now there are so many. -/
  | scopeLeft (depth : Nat)
  /-- A diagnostic was reported. -/
  | reported (diagnostic : Diagnostic)
  /-- The statement there means an expression of this kind and type. -/
  | statementElaborated (span : Span) (kind : NodeKind) (ty : Ty)
  /-- The statement there has no meaning. -/
  | statementFailed (span : Span) (error : ElabError)
  /-- So many statements were elaborated, and some of them failed. -/
  | programElaborated (count failed : Nat)
  /-- A node was brought into normal form, under a pending negation or not. -/
  | normalized (sourceKind : NodeKind) (source : NodeRef) (negated : Bool)
      (targetKind : NodeKind) (target : NodeRef)
  deriving DecidableEq

namespace Event

/-- The level at which an event is logged. -/
def level : Event → LogLevel
  | reported d => d.severity.level
  | normalized .. => .trace
  | _ => .debug

/-- The part of the program that logs an event. -/
def target : Event → String
  | lexed _ | parsed _ => "sarah::syntax::parser"
  | contextCreated | contextReleased .. | scopeEntered _ | scopeLeft _ => "sarah::context"
  | reported _ => "sarah::diagnostic"
  | statementElaborated .. | statementFailed .. | programElaborated .. => "sarah::elaborate"
  | normalized .. => "sarah::translate"

/-- The wording of an event. -/
def text : Event → String
  | lexed count => s!"lexed {count} tokens"
  | parsed count => s!"parsed {count} statements"
  | contextCreated => "created context with predefined `bool` and `int`"
  | contextReleased nodes decls => s!"released context ({nodes} nodes, {decls} declarations)"
  | scopeEntered depth => s!"entered scope (depth {depth})"
  | scopeLeft depth => s!"left scope (depth {depth})"
  | reported d => d.text
  | statementElaborated span kind ty =>
    s!"statement at {span.text} elaborated to {kind.label} : {ty.spelling}"
  | statementFailed span error => s!"statement at {span.text} failed: {error.message}"
  | programElaborated count failed => s!"elaborated {count} statements ({failed} failed)"
  | normalized sourceKind source negated targetKind target =>
    s!"translated {sourceKind.label}#{source.index} (negated: {negated}) to " ++
      s!"{targetKind.label}#{target.index}"

/-- The record of an event in a log. -/
def record (event : Event) : String :=
  s!"{event.level.text} {event.target}: {event.text}"

/-- Whether an event is logged when `limit` is the least grave level logged;
without a limit nothing is. -/
def isLogged (limit : Option LogLevel) (event : Event) : Bool :=
  match limit with
  | some least => event.level.rank ≤ least.rank
  | none => false

/-- The diagnostic that an event reports. -/
def diagnostic? : Event → Option Diagnostic
  | reported d => some d
  | _ => none

end Event

/-- The records of a log that is limited to `limit` and graver levels. -/
def logRecords (limit : Option LogLevel) (events : List Event) : List String :=
  (events.filter (Event.isLogged limit)).map Event.record

/-- The diagnostics reported, in order. -/
def diagnosticsOf (events : List Event) : List Diagnostic :=
  events.filterMap Event.diagnostic?

@[simp] theorem diagnosticsOf_append (a b : List Event) :
    diagnosticsOf (a ++ b) = diagnosticsOf a ++ diagnosticsOf b := by
  simp [diagnosticsOf]

end ArithLogic
