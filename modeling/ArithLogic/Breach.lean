import ArithLogic.Node

/-!
# ArithLogic.Breach

Broken contracts.  A breach is no fault of the text that is analysed: it says
that an operation was called where its caller had promised not to call it.
Whatever happens after one is undefined, so an operation that may meet one
returns nothing else.
-/

namespace ArithLogic

/-- How a contract can be broken. -/
inductive Breach
  /-- A name was bound twice in one environment. -/
  | duplicateBinding (name : String)
  /-- The outermost environment was to be removed. -/
  | topEnvironment
  /-- A node of this kind was to be built over two plain operands. -/
  | notBinary (kind : NodeKind)
  /-- An expression of this kind that is no formula was to be negated. -/
  | notFormula (kind : NodeKind)
  /-- A token of this kind was to be made from its kind alone. -/
  | noSpelling (kind : TokenKind)
  /-- A handle does not name what it was used for. -/
  | foreignHandle
  deriving DecidableEq

/-- The wording of a breach. -/
def Breach.message : Breach → String
  | duplicateBinding name => s!"`{name}` is already declared in this environment"
  | topEnvironment => "the top environment cannot be popped"
  | notBinary kind => s!"{kind.label} does not take two expression operands"
  | notFormula kind => s!"only boolean formulas can be negated, not {kind.label}"
  | noSpelling kind => s!"{kind.label} has no fixed spelling"
  | foreignHandle => "the handle belongs to another context"

/-- The token of a kind with a fixed spelling, for trees built by hand. -/
def Token.synthetic (kind : TokenKind) : Except Breach Token :=
  match Token.synthetic? kind with
  | some token => .ok token
  | none => .error (.noSpelling kind)

end ArithLogic
