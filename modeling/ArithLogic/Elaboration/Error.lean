import ArithLogic.Node

/-!
# ArithLogic.Elaboration.Error

The ways in which a tree can have no meaning.
-/

namespace ArithLogic

/-- Why a tree has no meaning in the context where it stands. -/
inductive ElabError
  /-- No environment binds the name. -/
  | unboundName (name : String)
  /-- An operand has another type than its place demands. -/
  | typeMismatch (expected found : Ty)
  /-- What stands for a type is none. -/
  | notAType (name : String)
  /-- What stands for a type is declared to be one but not defined. -/
  | incompleteType (name : String)
  /-- A product without a literal factor, or a quotient by no literal. -/
  | nonLiteralFactor (op : String)
  /-- The innermost environment binds the name already. -/
  | redeclaration (name : String)
  /-- A literal is no numeral. -/
  | malformedLiteral (text : String)
  /-- A tree is not of the shape that its token demands. -/
  | malformedTree (reason : String)
  deriving DecidableEq

/-- The wording of an error. -/
def ElabError.message : ElabError → String
  | unboundName name => s!"cannot find `{name}` in this scope"
  | typeMismatch expected found =>
    s!"mismatched types: expected `{expected.spelling}`, found `{found.spelling}`"
  | notAType name => s!"`{name}` is not a type"
  | incompleteType name => s!"`{name}` is declared as a type but has no definition"
  | nonLiteralFactor op => s!"`{op}` requires an integer literal factor"
  | redeclaration name => s!"`{name}` is already declared in this scope"
  | malformedLiteral text => s!"malformed integer literal `{text}`"
  | malformedTree reason => s!"malformed syntax tree: {reason}"

end ArithLogic
