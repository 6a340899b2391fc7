import ArithLogic.Token

/-!
# ArithLogic.SyntaxError

Why a text was refused: what was found, and everything that could have stood
there instead.  The wording of both is fixed here, in `SyntaxError.message`.
-/

namespace ArithLogic

/-- The step that refused the text. -/
inductive Stage
  | lexing
  | parsing
  deriving DecidableEq

/-- The verb in front of a message. -/
def Stage.text : Stage → String
  | .lexing => "lexing"
  | .parsing => "parse"

/-- What stands at the place of an error. -/
inductive Found
  | character (c : Char)
  | token (t : Token)
  | endOfInput
  deriving DecidableEq

/-- The text of what was found. -/
def Found.text : Found → String
  | .character c => s!"'{c}'"
  | .token t => s!"'{t.text}'"
  | .endOfInput => "end of input"

/-- One thing that could have stood at the place of an error: a character, a
token of some kind, the beginning of a construct of the grammar, or the end
of the text. -/
inductive Expected
  | character (c : Char)
  | digit
  | otherCharacter
  | token (kind : TokenKind)
  | statement
  | expression
  | implication
  | sign
  | primary
  | endOfInput
  deriving DecidableEq

/-- The text of one expectation. -/
def Expected.text : Expected → String
  | .character c => s!"'{c}'"
  | .digit => "digit"
  | .otherCharacter => "something else"
  | .token kind => kind.describe
  | .statement => "statement"
  | .expression => "expression"
  | .implication => "implication"
  | .sign => "sign"
  | .primary => "primary expression"
  | .endOfInput => "end of input"

/-- A list of alternatives in words: the last of several follows an "or". -/
def alternatives : List String → String
  | [] => ""
  | [item] => item
  | items => ", ".intercalate items.dropLast ++ ", or " ++ items.getLastD ""

/-- The one error of a text that was refused. -/
structure SyntaxError where
  stage : Stage
  found : Found
  expected : List Expected
  span : Span
  deriving DecidableEq

/-- The wording of an error. -/
def SyntaxError.message (e : SyntaxError) : String :=
  s!"{e.stage.text} error: found {e.found.text} expected " ++
    alternatives (e.expected.map Expected.text)

end ArithLogic
