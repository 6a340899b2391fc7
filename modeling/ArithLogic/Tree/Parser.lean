import ArithLogic.Token.Lexer
import ArithLogic.Tree.Frame

/-!
# ArithLogic.Tree.Parser

From tokens to trees.  The parser reads one token at a time and never takes
one back.  Its state is the stack of open constructs and what is due next;
`State.step` refuses exactly the tokens that cannot come next, and
`State.expected` lists the ones that can, so the first refused token is the
one error of the text.

A program is read by the same steps, with the statements finished so far kept
beside the state of the current one.
-/

namespace ArithLogic.Parser

/-- What a whole text is read as. -/
inductive Goal
  | expression
  | statement
  deriving DecidableEq

namespace Goal

/-- What may stand at the beginning. -/
def slot : Goal → Slot
  | expression => .expression
  | statement => .statement

/-- What may follow at the end. -/
def terminators : Goal → List Expected
  | expression => [.endOfInput]
  | statement => [.token .semicolon, .endOfInput]

end Goal

/-- What is due next. -/
inductive Due
  | operand
  | continuation (operand : Tree)
  | boundName (quantifier : Token)
  | boundColon (quantifier name : Token)
  | definedName
  | assign (name : Token)
  deriving DecidableEq

/-- A place in the middle of a text: what the text is read as, the open
constructs, innermost first, and what is due next. -/
structure State where
  goal : Goal
  frames : List Frame
  due : Due
  deriving DecidableEq

namespace State

/-- The beginning of a text. -/
def initial (goal : Goal) : State := ⟨goal, [], .operand⟩

/-! ## what can come next -/

/-- What may stand where an operand is due. -/
def slot (s : State) : Slot :=
  match s.frames with
  | [] => s.goal.slot
  | frame :: _ => frame.slot

/-- The infix operators, in the order in which errors list them. -/
def infixOperators : List TokenKind :=
  [.star, .slash, .plus, .minus, .less, .greater, .lessEqual, .greaterEqual, .equal, .notEqual,
    .kwAnd, .kwOr, .arrow, .doubleArrow]

/-- The tokens that can be a name. -/
def names : List Expected := [.token .identifier, .token .kwBool, .token .kwInt]

/-- A parenthesis is open. -/
def hasOpenParen (s : State) : Bool :=
  s.frames.any fun
    | .paren _ => true
    | _ => false

/-- The statement consists of one token that is a name, so a `:` would make
it a declaration. -/
def loneName? (s : State) : Option Token :=
  match s.goal, s.frames, s.due with
  | .statement, [], .continuation (.terminal token) =>
    if token.kind.isName then some token else none
  | _, _, _ => none

/-- Everything that can come next. -/
def expected (s : State) : List Expected :=
  match s.due with
  | .operand => s.slot.expected
  | .boundName _ | .definedName => names
  | .boundColon .. => [.token .colon]
  | .assign _ => [.token .assign]
  | .continuation _ =>
    match s.frames with
    | .boundType .. :: _ => [.token .dot]
    | .declared .. :: _ => s.goal.terminators
    | _ =>
      infixOperators.map .token ++
        if s.hasOpenParen then [.token .closeParen]
        else (if s.loneName?.isSome then [.token .colon] else []) ++ s.goal.terminators

/-! ## one token -/

/-- Opens a construct whose operand is due next. -/
def enter (s : State) (frame : Frame) : State :=
  { s with frames := frame :: s.frames, due := .operand }

/-- Reads a token where an operand is due. -/
def stepOperand (s : State) (t : Token) : Option State :=
  match t.kind with
  | .openParen => some (s.enter (.paren t))
  | .plus | .minus => if s.slot.allowsSign then some (s.enter (.sign t)) else none
  | .kwNot => if s.slot.allowsNegation then some (s.enter (.negation t)) else none
  | .kwForall | .kwExists =>
    if s.slot.allowsQuantifier then some { s with due := .boundName t } else none
  | .kwLet => if s.slot = .statement then some { s with due := .definedName } else none
  | kind => if kind.isAtom then some { s with due := .continuation (.terminal t) } else none

/-- Reads a closing parenthesis after `operand`. -/
def close (s : State) (operand : Tree) (t : Token) : Option State :=
  match collapse Frame.endsBeforeClosing operand s.frames with
  | (body, .paren opening :: frames) =>
    some { s with frames, due := .continuation (.enclosed opening body t) }
  | _ => none

/-- Reads a token after the complete operand of `s`. -/
def stepContinuation (s : State) (operand : Tree) (t : Token) : Option State :=
  match s.frames with
  | .boundType quantifier name colon :: frames =>
    if t.kind = .dot then
      let binding := .binary colon (.terminal name) operand
      some ({ s with frames }.enter (.quantified quantifier binding))
    else none
  | .declared .. :: _ => none
  | _ =>
    match t.kind.infixLevel? with
    | some level =>
      let (left, frames) := collapse (Frame.endsBefore level) operand s.frames
      some ({ s with frames }.enter (.operation left t))
    | none =>
      match t.kind with
      | .closeParen => s.close operand t
      | .colon => s.loneName?.map fun name => s.enter (.declared name t)
      | _ => none

/-- Reads one token; nothing if it cannot come next. -/
def step (s : State) (t : Token) : Option State :=
  match s.due with
  | .operand => s.stepOperand t
  | .continuation operand => s.stepContinuation operand t
  | .boundName quantifier =>
    if t.kind.isName then some { s with due := .boundColon quantifier t } else none
  | .boundColon quantifier name =>
    if t.kind = .colon then some (s.enter (.boundType quantifier name t)) else none
  | .definedName => if t.kind.isName then some { s with due := .assign t } else none
  | .assign name => if t.kind = .assign then some (s.enter (.defined name t)) else none

/-- The tree of the text if it ends here. -/
def finish? (s : State) : Option Tree :=
  match s.due with
  | .continuation operand =>
    match collapse (fun _ => true) operand s.frames with
    | (tree, []) => some tree
    | _ => none
  | _ => none

end State

/-! ## whole token lists -/

/-- The state of reading a program: the statements finished so far, latest
first, and the current one. -/
structure ProgramState where
  finished : List Tree
  current : State
  deriving DecidableEq

namespace ProgramState

/-- The beginning of a program. -/
def initial : ProgramState := ⟨[], .initial .statement⟩

/-- Reads one token.  A semicolon never belongs to a statement; it ends one. -/
def step (s : ProgramState) (t : Token) : Option ProgramState :=
  match s.current.step t with
  | some current => some { s with current }
  | none =>
    if t.kind = .semicolon then
      s.current.finish?.map fun tree => ⟨tree :: s.finished, .initial .statement⟩
    else none

/-- The statements if the program ends here; the last one may be missing,
after a semicolon. -/
def finish? (s : ProgramState) : Option (List Tree) :=
  if s.current = .initial .statement then some s.finished.reverse
  else s.current.finish?.map fun tree => (tree :: s.finished).reverse

end ProgramState

/-- Reads tokens up to the first one that is refused, or to the end of the
text, at byte `stop`. -/
def readAll {σ α : Type} (step : σ → Token → Option σ) (expected : σ → List Expected)
    (finish? : σ → Option α) (stop : Nat) : σ → List Token → Except SyntaxError α
  | s, [] =>
    match finish? s with
    | some value => .ok value
    | none => .error ⟨.parsing, .endOfInput, expected s, ⟨stop, stop⟩⟩
  | s, t :: ts =>
    match step s t with
    | some next => readAll step expected finish? stop next ts
    | none => .error ⟨.parsing, .token t, expected s, t.span⟩

/-- The tree of a list of tokens that is one expression. -/
def expressionOfTokens (stop : Nat) (ts : List Token) : Except SyntaxError Tree :=
  readAll State.step State.expected State.finish? stop (.initial .expression) ts

/-- The trees of a list of tokens that is a program, one for each statement. -/
def programOfTokens (stop : Nat) (ts : List Token) : Except SyntaxError (List Tree) :=
  readAll ProgramState.step (fun s => s.current.expected) ProgramState.finish? stop .initial ts

end ArithLogic.Parser

namespace ArithLogic

/-- Reads a text as one expression. -/
def parseExpression (source : String) : Except SyntaxError Tree := do
  Parser.expressionOfTokens source.utf8ByteSize (← tokenize source)

/-- Reads a text as a program: statements separated by semicolons. -/
def parseProgram (source : String) : Except SyntaxError (List Tree) := do
  Parser.programOfTokens source.utf8ByteSize (← tokenize source)

end ArithLogic
