import ArithLogic.Node

/-!
# ArithLogic.Term

Expressions as trees.  A term is what a handle of a context denotes once
sharing is forgotten: names by symbol, variables by declaration, the literal
factor of a product in place, and a quantifier with the name and the type
that it binds.
-/

namespace ArithLogic

/-- An expression without sharing. -/
inductive Term
  | id (name : Symbol)
  | bool (value : Bool)
  | int (value : Int)
  | var (name : Symbol) (decl : DeclRef)
  | additive (op : Additive) (left right : Term)
  | scaling (op : Scaling) (factor : Int) (operand : Term)
  | sign (op : Sign) (operand : Term)
  | relation (op : Relation) (left right : Term)
  | connective (op : Connective) (left right : Term)
  | not (operand : Term)
  | bind (name : Symbol) (ty : Ty)
  | quantifier (op : Quantifier) (name : Symbol) (ty : Ty) (body : Term)
  | type (ty : Ty)
  deriving DecidableEq

namespace Term

/-- The kind of the outermost node. -/
def kind : Term → NodeKind
  | id _ => .id
  | bool _ => .bool
  | int _ => .int
  | var _ _ => .var
  | additive op _ _ => .additive op
  | scaling op _ _ => .scaling op
  | sign op _ => .sign op
  | relation op _ _ => .relation op
  | connective op _ _ => .connective op
  | not _ => .not
  | bind _ _ => .bind
  | quantifier op _ _ _ => .quantifier op
  | type _ => .type

/-- The binding strength of the written form. -/
def level (t : Term) : Level := t.kind.level

end Term

end ArithLogic
