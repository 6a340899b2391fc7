import ArithLogic.Analysis
import ArithLogic.CommandLine.Arguments
import ArithLogic.Text.Lines

/-!
# ArithLogic.CommandLine.Run

What the command prints.  Every statement that has a meaning is printed with
its type, in order, and followed by its normal form if that was asked for and
the statement is a formula.  After that come the diagnostics.  The command
succeeds if there are none.
-/

namespace ArithLogic.CommandLine

/-- A place in a file, counted from one. -/
structure Place where
  file : String
  line : Nat
  column : Nat
  deriving DecidableEq

/-- How a place is written. -/
def Place.text (p : Place) : String := s!"{p.file}:{p.line}:{p.column}"

/-- Something written for the user beside the output. -/
inductive Notice
  | line (text : String)
  | report (severity : Severity) (message : String) (place : Place)
  deriving DecidableEq

/-- The heading of a notice. -/
def Notice.heading : Notice → String
  | line text => text
  | report .error message _ => s!"Error: {message}"
  | report .warning message _ => s!"Warning: {message}"
  | report .note message _ => s!"Advice: {message}"

/-- What the command leaves behind. -/
structure Outcome where
  success : Bool
  output : String
  notices : List Notice
  deriving DecidableEq

/-- The place of a byte. -/
def placeOf (file source : String) (offset : Nat) : Place :=
  let (line, column) := Text.lineColumn source offset
  ⟨file, line, column⟩

/-! ## output -/

/-- How entries are printed. -/
structure Format where
  width : Nat
  colored : Bool
  deriving DecidableEq

/-- The format that options ask for.  Without a choice, only a terminal is
coloured. -/
def Options.format (options : Options) (isTerminal : Bool) : Format where
  width := options.width?.getD defaultWidth
  colored :=
    match options.color?.getD .auto with
    | .auto => isTerminal
    | .always => true
    | .never => false

/-- The line of an expression with its type. -/
def Format.entry (format : Format) (cx : Context) (label : String) (e : Elaboration) : String :=
  if format.colored then
    label ++ cx.renderColored e.expr format.width ++ " : " ++
      (Term.type e.ty).renderColored format.width ++ Style.reset ++ "\n"
  else
    label ++ cx.render e.expr format.width ++ " : " ++
      (Term.type e.ty).render format.width ++ "\n"

/-- The lines of one statement. -/
def statementEntries (options : Options) (format : Format) (e : Elaboration) :
    Action String := do
  let entry ← Action.inspect fun cx => format.entry cx "" e
  let isFormula ← Action.inspect fun cx => e.isFormula cx
  if (options.normalForm || options.negate) && isFormula then
    let normal ← e.normalFormOf options.negate
    return entry ++ (← Action.inspect fun cx => format.entry cx "  nnf: " normal)
  else return entry

/-- The lines of a program, and whether every statement has a meaning. -/
def programEntries (options : Options) (format : Format) (statements : List Tree) :
    Action (String × Bool) := do
  let outcomes ← elaborateProgram statements
  let entries ← (outcomes.filterMap Except.toOption).mapM (statementEntries options format)
  return (String.join entries, outcomes.all Except.toBool)

/-- The notice of a diagnostic. -/
def noticeOf (file source : String) (d : Diagnostic) : Notice :=
  match d.span? with
  | some span => .report d.severity d.message (placeOf file source span.start)
  | none => .line d.text

/-- Runs the command on a source. -/
def runSource (options : Options) (isTerminal : Bool) (file source : String) :
    Except Breach Outcome :=
  match parseProgram source with
  | .error error =>
    .ok ⟨false, "",
      [.line s!"Failed to parse {file}:",
        .report .error error.message (placeOf file source error.span.start)]⟩
  | .ok statements => do
    let entries := programEntries options (options.format isTerminal) statements
    let ((output, success), s) ← entries.run ⟨.initial, #[]⟩
    return ⟨success, output, (diagnosticsOf s.events.toList).map (noticeOf file source)⟩

/-- The outcome when the source cannot be read. -/
def unreadable (reason : String) : Outcome := ⟨false, "", [.line s!"Error: {reason}"]⟩

/-! ## fixed texts -/

/-- The answer to a request for the version. -/
def versionText : String := "sarah 0.1.0\n"

/-- The answer to a request for help. -/
def helpText : String :=
  "\n".intercalate
    ["Elaborate a program and print every statement with its type",
      "",
      "Usage: sarah [OPTIONS] [INPUT]",
      "",
      "Arguments:",
      "  [INPUT]  Path to the input file (standard input when omitted)",
      "",
      "Options:",
      "  -e, --expr <SOURCE>  Elaborate this source text instead of reading a file",
      "      --nnf            Also print the negation-normal form of every boolean statement",
      "      --negate         Print the normal form of the negation instead (implies --nnf)",
      "      --width <N>      Line width used by the printer (terminal width by default)",
      "      --color <COLOR>  When to use colors [default: auto] " ++
        "[possible values: auto, always, never]",
      "  -h, --help           Print help",
      "  -V, --version        Print version",
      ""]

/-- Where the source comes from. -/
inductive Origin
  | text (source : String)
  | file (path : String)
  | standardInput
  deriving DecidableEq

/-- Where options say that the source comes from. -/
def Options.origin (options : Options) : Origin :=
  match options.source?, options.input? with
  | some source, _ => .text source
  | none, some path => .file path
  | none, none => .standardInput

/-- The name of a source in notices. -/
def Origin.name : Origin → String
  | text _ => "<expr>"
  | file path => path
  | standardInput => "<stdin>"

end ArithLogic.CommandLine
