import ArithLogic.Token

/-!
# ArithLogic.Tree

Untyped syntax trees.  A tree says how tokens are grouped and nothing about
what they mean: besides infix operators, a `binary` node is a binding
`name : type`, a definition `name = value`, or a quantifier over its binding
and its body.  Trees can be put together by hand, so a node may carry any
token.
-/

namespace ArithLogic

/-- A syntax tree. -/
inductive Tree
  | enclosed (opening : Token) (body : Tree) (closing : Token)
  | terminal (token : Token)
  | unary (op : Token) (operand : Tree)
  | binary (op : Token) (left right : Tree)
  deriving DecidableEq

namespace Tree

/-- The part of the source that the tree covers. -/
def span : Tree → Span
  | enclosed opening _ closing => opening.span.join closing.span
  | terminal token => token.span
  | unary op operand => op.span.join operand.span
  | binary op left right => (op.span.join left.span).join right.span

/-- The token that decides what the root of the tree means. -/
def token : Tree → Token
  | enclosed opening _ _ => opening
  | terminal token => token
  | unary op _ => op
  | binary op _ _ => op

/-- The tree inside any number of enclosing parentheses. -/
def unparenthesized : Tree → Tree
  | enclosed _ body _ => body.unparenthesized
  | tree => tree

/-- Whether the root is a binary node of the given kind. -/
def isBinary (kind : TokenKind) : Tree → Bool
  | binary op _ _ => op.kind == kind
  | _ => false

/-- The grouping alone: the tree without its parentheses and without the
places of its tokens. -/
def bare : Tree → Tree
  | enclosed _ body _ => body.bare
  | terminal token => terminal token.unplaced
  | unary op operand => unary op.unplaced operand.bare
  | binary op left right => binary op.unplaced left.bare right.bare

/-- The number of nodes. -/
def size : Tree → Nat
  | enclosed _ body _ => body.size + 1
  | terminal _ => 1
  | unary _ operand => operand.size + 1
  | binary _ left right => left.size + right.size + 1

theorem size_pos (tree : Tree) : 0 < tree.size := by
  cases tree <;> simp [size]

/-- Removing parentheses leaves none at the root. -/
theorem unparenthesized_ne_enclosed (tree : Tree) (opening closing : Token) (body : Tree) :
    tree.unparenthesized ≠ enclosed opening body closing := by
  induction tree with
  | enclosed _ _ _ ih => simpa [unparenthesized] using ih
  | _ => simp [unparenthesized]

@[simp] theorem unparenthesized_idem (tree : Tree) :
    tree.unparenthesized.unparenthesized = tree.unparenthesized := by
  induction tree with
  | enclosed _ _ _ ih => simpa [unparenthesized] using ih
  | _ => rfl

@[simp] theorem bare_unparenthesized (tree : Tree) : tree.unparenthesized.bare = tree.bare := by
  induction tree with
  | enclosed _ _ _ ih => simpa [unparenthesized, bare] using ih
  | _ => rfl

@[simp] theorem bare_bare (tree : Tree) : tree.bare.bare = tree.bare := by
  induction tree with
  | enclosed _ _ _ ih => simpa [bare] using ih
  | terminal => rfl
  | unary _ _ ih => simp [bare, ih]
  | binary _ _ _ ihl ihr => simp [bare, ihl, ihr]

end Tree

end ArithLogic
