/-!
# ArithLogic.CommandLine.Arguments

The arguments of the command.  They are taken in order; the first one that is
refused decides, and so does the first request for the version or for help.
That two ways of giving a source exclude each other is checked at the end.
-/

namespace ArithLogic.CommandLine

/-- When the output is coloured. -/
inductive ColorMode
  | auto
  | always
  | never
  deriving DecidableEq

/-- What the arguments ask for. -/
structure Options where
  input? : Option String
  source? : Option String
  normalForm : Bool
  negate : Bool
  width? : Option Nat
  color? : Option ColorMode
  deriving DecidableEq

/-- What the command is to do. -/
inductive Request
  | version
  | help
  | run (options : Options)
  deriving DecidableEq

/-! ## single arguments -/

/-- An argument as it is written. -/
inductive Word
  /-- `--` alone: what follows is no option. -/
  | separator
  /-- `--name` or `--name=value`. -/
  | long (name : String) (value? : Option String)
  /-- `-c` or `-cvalue`, with at least one character. -/
  | short (flag : Char) (rest : List Char)
  /-- Anything else, a lone `-` included. -/
  | plain (text : String)
  deriving DecidableEq

/-- Reads one argument. -/
def Word.ofString (text : String) : Word :=
  match text.toList with
  | ['-', '-'] => .separator
  | '-' :: '-' :: cs =>
    let name := String.ofList (cs.takeWhile (· != '='))
    match cs.dropWhile (· != '=') with
    | [] => .long name none
    | _ :: value => .long name (some (String.ofList value))
  | '-' :: c :: cs => .short c cs
  | _ => .plain text

/-- The value written right after a short option, if there is one; an equals
sign in front of it is dropped. -/
def attached? : List Char → Option String
  | [] => none
  | '=' :: cs => some (String.ofList cs)
  | cs => some (String.ofList cs)

/-- The options that take a value. -/
inductive Setting
  | source
  | width
  | color
  deriving DecidableEq

/-- What the name of an option asks for. -/
inductive Meaning
  | setting (setting : Setting)
  | normalForm
  | negate
  | version
  | help
  deriving DecidableEq

/-- The meaning of a long name. -/
def Meaning.ofName? : String → Option Meaning
  | "expr" => some (setting .source)
  | "width" => some (setting .width)
  | "color" => some (setting .color)
  | "nnf" => some normalForm
  | "negate" => some negate
  | "version" => some version
  | "help" => some help
  | _ => none

/-- The meaning of a short name. -/
def Meaning.ofChar? : Char → Option Meaning
  | 'e' => some (setting .source)
  | 'V' => some version
  | 'h' => some help
  | _ => none

/-- A width is written in decimal digits, after a `+` or not, and fits 64
bits. -/
def parseWidth? (text : String) : Option Nat :=
  let digits := match text.toList with
    | '+' :: cs => cs
    | cs => cs
  if digits.isEmpty || !digits.all Char.isDigit then none
  else
    let value := digits.foldl (fun n c => 10 * n + (c.toNat - '0'.toNat)) 0
    if value < UInt64.size then some value else none

/-- The colour mode of a word. -/
def ColorMode.ofString? : String → Option ColorMode
  | "auto" => some auto
  | "always" => some always
  | "never" => some never
  | _ => none

/-! ## collecting -/

namespace Options

/-- Nothing is asked for. -/
def unset : Options := ⟨none, none, false, false, none, none⟩

/-- Takes the value of an option, which may be given once. -/
def set? (options : Options) (setting : Setting) (value : String) : Option Options :=
  match setting with
  | .source =>
    if options.source?.isSome then none else some { options with source? := some value }
  | .width =>
    match options.width?, parseWidth? value with
    | none, some width => some { options with width? := some width }
    | _, _ => none
  | .color =>
    match options.color?, ColorMode.ofString? value with
    | none, some color => some { options with color? := some color }
    | _, _ => none

/-- Takes the input path, which may be given once and is not empty. -/
def setInput? (options : Options) (path : String) : Option Options :=
  if options.input?.isSome || path.isEmpty then none
  else some { options with input? := some path }

/-- Takes the flag `--nnf`, which may be given once. -/
def setNormalForm? (options : Options) : Option Options :=
  if options.normalForm then none else some { options with normalForm := true }

/-- Takes the flag `--negate`, which may be given once. -/
def setNegate? (options : Options) : Option Options :=
  if options.negate then none else some { options with negate := true }

/-- The request of complete options: a source and a path exclude each other. -/
def request? (options : Options) : Option Request :=
  if options.source?.isSome && options.input?.isSome then none else some (.run options)

end Options

/-- Reads the arguments after a `--`, which are all paths. -/
def readPaths (options : Options) : List String → Option Request
  | [] => options.request?
  | path :: rest => do readPaths (← options.setInput? path) rest

/-- Reads arguments; there is no request if one of them is refused. -/
def readArguments (options : Options) : List String → Option Request
  | [] => options.request?
  | argument :: rest =>
    let (meaning?, value?) : Option Meaning × Option String :=
      match Word.ofString argument with
      | .long name value? => (Meaning.ofName? name, value?)
      | .short flag cs => (Meaning.ofChar? flag, attached? cs)
      | _ => (none, none)
    match Word.ofString argument, meaning?, value? with
    | .separator, _, _ => readPaths options rest
    | .plain path, _, _ => do readArguments (← options.setInput? path) rest
    | _, none, _ => none
    | _, some (.setting setting), some value => do
      readArguments (← options.set? setting value) rest
    | _, some (.setting setting), none =>
      match rest with
      | [] => none
      | next :: rest =>
        match Word.ofString next with
        | .plain value => do readArguments (← options.set? setting value) rest
        | _ => none
    | .short _ _, some .version, _ => some .version
    | .short _ _, some .help, _ => some .help
    | _, some _, some _ => none
    | _, some .version, none => some .version
    | _, some .help, none => some .help
    | _, some .normalForm, none => do readArguments (← options.setNormalForm?) rest
    | _, some .negate, none => do readArguments (← options.setNegate?) rest

/-- The request that arguments make. -/
def parseArguments (arguments : List String) : Option Request :=
  readArguments .unset arguments

end ArithLogic.CommandLine
