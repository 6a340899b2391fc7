import ArithLogic.Term
import ArithLogic.Tree

/-!
# ArithLogic.Term.Surface

Terms as trees of the surface syntax.  Products and quotients take their
literal on the side where it is written, and a quantifier is the binary node
of its binding and its body.  The trees have no parentheses and no places.
-/

namespace ArithLogic.Term

/-- A token that was read from no source. -/
def freeToken (kind : TokenKind) (text : String) : Token := ⟨kind, text, Span.origin⟩

/-- The token of a kind with a fixed spelling. -/
def fixedToken (kind : TokenKind) : Token := freeToken kind kind.spelling

/-- The token of a word: a keyword, or a name. -/
def wordToken (text : String) : Token :=
  freeToken ((TokenKind.keyword? text).getD .identifier) text

/-- The tree of an integer literal. -/
def literalTree (value : Int) : Tree := .terminal (freeToken .literal (toString value))

/-- The tree of a name with its type. -/
def bindingTree (name : Symbol) (ty : Ty) : Tree :=
  .binary (fixedToken .colon) (.terminal (wordToken name.text)) (.terminal (wordToken ty.spelling))

/-- The tree of a term. -/
def surface : Term → Tree
  | id name | var name _ => .terminal (wordToken name.text)
  | bool value => .terminal (fixedToken (if value then .kwTrue else .kwFalse))
  | int value => literalTree value
  | type ty => .terminal (wordToken ty.spelling)
  | additive op left right => .binary (fixedToken op.token) left.surface right.surface
  | scaling .mul factor operand =>
    .binary (fixedToken .star) (literalTree factor) operand.surface
  | scaling .div factor operand =>
    .binary (fixedToken .slash) operand.surface (literalTree factor)
  | sign op operand => .unary (fixedToken op.token) operand.surface
  | relation op left right => .binary (fixedToken op.token) left.surface right.surface
  | connective op left right => .binary (fixedToken op.token) left.surface right.surface
  | not operand => .unary (fixedToken .kwNot) operand.surface
  | bind name ty => bindingTree name ty
  | quantifier op name ty body =>
    .binary (fixedToken op.token) (bindingTree name ty) body.surface

@[simp] theorem unplaced_freeToken (kind : TokenKind) (text : String) :
    (freeToken kind text).unplaced = freeToken kind text := rfl

@[simp] theorem unplaced_fixedToken (kind : TokenKind) :
    (fixedToken kind).unplaced = fixedToken kind := rfl

@[simp] theorem unplaced_wordToken (text : String) :
    (wordToken text).unplaced = wordToken text := rfl

@[simp] theorem bare_literalTree (value : Int) : (literalTree value).bare = literalTree value := rfl

@[simp] theorem bare_bindingTree (name : Symbol) (ty : Ty) :
    (bindingTree name ty).bare = bindingTree name ty := rfl

/-- A surface tree is nothing but grouping. -/
@[simp] theorem bare_surface (t : Term) : t.surface.bare = t.surface := by
  induction t with
  | scaling op _ _ ih => cases op <;> simp [surface, Tree.bare, ih]
  | additive _ _ _ ihl ihr | relation _ _ _ ihl ihr | connective _ _ _ ihl ihr =>
    simp [surface, Tree.bare, ihl, ihr]
  | sign _ _ ih | not _ ih | quantifier _ _ _ _ ih => simp [surface, Tree.bare, ih]
  | bool value => cases value <;> rfl
  | _ => rfl

end ArithLogic.Term
