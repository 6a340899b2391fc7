import ArithLogic.Style
import ArithLogic.Term

/-!
# ArithLogic.Term.Printer

Terms as text.  A term prints as the surface syntax that means it, with
parentheses exactly around the operands that are looser than their place
demands.  A line may end before a connective and after the dot of a
quantifier, whose body is then indented.
-/

namespace ArithLogic.Term

/-- A token with a fixed spelling: a word is a keyword, the rest are operators. -/
def symbolDoc (kind : TokenKind) : Doc Style :=
  .text (if kind ∈ TokenKind.keywords then .keyword else .operator) kind.spelling

/-- A punctuation mark. -/
def markDoc (kind : TokenKind) : Doc Style := .text .punctuation kind.spelling

/-- A name. -/
def nameDoc (name : Symbol) : Doc Style := .text .name name.text

/-- An integer literal. -/
def literalDoc (value : Int) : Doc Style := .text .literal (toString value)

/-- A type. -/
def typeDoc (ty : Ty) : Doc Style := .text .type ty.spelling

/-- A name with its type. -/
def bindingDoc (name : Symbol) (ty : Ty) : Doc Style :=
  nameDoc name ++ .space ++ markDoc .colon ++ .space ++ typeDoc ty

/-- An operand within `depth` parentheses, with a pair of its own if `needed`. -/
def operandDoc (needed : Bool) (body : Nat → Doc Style) (depth : Nat) : Doc Style :=
  if needed then
    .group (.text (.paren depth) TokenKind.openParen.spelling ++ body (depth + 1) ++
      .text (.paren depth) TokenKind.closeParen.spelling)
  else body depth

/-- An infix operator between its operands.  A line may end before a
connective. -/
def infixDoc (kind : NodeKind) (op : TokenKind) (left right : Doc Style) : Doc Style :=
  .group (left ++ ((if kind.isLogical then .line else .space) ++
    (symbolDoc op ++ (.space ++ right))))

/-- The document of a term within `depth` parentheses. -/
def doc : Term → (depth : Nat) → Doc Style
  | id name, _ | var name _, _ => nameDoc name
  | bool value, _ => .text .literal (if value then "true" else "false")
  | int value, _ => literalDoc value
  | type ty, _ => typeDoc ty
  | additive op left right, depth =>
    let level := (NodeKind.additive op).level
    infixDoc (.additive op) op.token
      (operandDoc (left.level < level.leftOperand) left.doc depth)
      (operandDoc (right.level < level.rightOperand) right.doc depth)
  | scaling op factor operand, depth =>
    let level := (NodeKind.scaling op).level
    match op with
    | .mul =>
      infixDoc (.scaling op) op.token (literalDoc factor)
        (operandDoc (operand.level < level.rightOperand) operand.doc depth)
    | .div =>
      infixDoc (.scaling op) op.token
        (operandDoc (operand.level < level.leftOperand) operand.doc depth) (literalDoc factor)
  | sign op operand, depth =>
    symbolDoc op.token ++ operandDoc (operand.level < Level.sign) operand.doc depth
  | relation op left right, depth =>
    let level := (NodeKind.relation op).level
    infixDoc (.relation op) op.token
      (operandDoc (left.level < level.leftOperand) left.doc depth)
      (operandDoc (right.level < level.rightOperand) right.doc depth)
  | connective op left right, depth =>
    let level := (NodeKind.connective op).level
    infixDoc (.connective op) op.token
      (operandDoc (left.level < level.leftOperand) left.doc depth)
      (operandDoc (right.level < level.rightOperand) right.doc depth)
  | not operand, depth =>
    .group (symbolDoc .kwNot ++ .space ++
      operandDoc (operand.level < Level.negation) operand.doc depth)
  | bind name ty, _ => bindingDoc name ty
  | quantifier op name ty body, depth =>
    .group (symbolDoc op.token ++ .space ++ bindingDoc name ty ++ .space ++ markDoc .dot ++
      .nest 2 (.line ++ body.doc depth))

/-- The pieces of a term in lines of the given width. -/
def pieces (t : Term) (width : Nat) : List (Piece Style) := (t.doc 0).pieces width

/-- The text of a term in lines of the given width. -/
def render (t : Term) (width : Nat) : String := plainText (t.pieces width)

/-- The text of a term in lines of the given width, with colours. -/
def renderColored (t : Term) (width : Nat) : String := coloredText (t.pieces width)

end ArithLogic.Term
