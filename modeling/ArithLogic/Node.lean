import ArithLogic.Level
import ArithLogic.Symbol

/-!
# ArithLogic.Node

Expression nodes.  A `Node ρ` is one layer of an expression whose children
are given as `ρ`: handles in a store of nodes, or anything computed from the
children.  `NodeKind` is what remains of a node without its fields; the kinds
are grouped by what they mean, so that a law about the six relations or the
four connectives is stated once.
-/

namespace ArithLogic

/-- The closed universe of types; `kind` is the type of types. -/
inductive Ty
  | bool
  | int
  | kind
  deriving DecidableEq

namespace Ty

/-- Every type, in the order of the declaration. -/
def all : List Ty := [bool, int, kind]

/-- The spelling of a type. -/
def spelling : Ty → String
  | bool => "bool"
  | int => "int"
  | kind => "kind"

end Ty

/-- The two operators on two numbers. -/
inductive Additive
  | add
  | sub
  deriving DecidableEq

/-- The two operators on a number and a literal. -/
inductive Scaling
  | mul
  | div
  deriving DecidableEq

/-- The two prefix operators on a number. -/
inductive Sign
  | neg
  | pos
  deriving DecidableEq

/-- The relations between two numbers. -/
inductive Relation
  | eq
  | ne
  | lt
  | gt
  | le
  | ge
  deriving DecidableEq

/-- The connectives of two formulas. -/
inductive Connective
  | and
  | or
  | imp
  | iff
  deriving DecidableEq

/-- The quantifiers. -/
inductive Quantifier
  | all
  | ex
  deriving DecidableEq

/-- The relation that holds exactly when the given one does not. -/
def Relation.complement : Relation → Relation
  | eq => ne
  | ne => eq
  | lt => ge
  | gt => le
  | le => gt
  | ge => lt

@[simp] theorem Relation.complement_complement (r : Relation) : r.complement.complement = r := by
  cases r <;> rfl

/-- The quantifier that stands in front of a negated body when the given one
is negated. -/
def Quantifier.dual : Quantifier → Quantifier
  | all => ex
  | ex => all

@[simp] theorem Quantifier.dual_dual (q : Quantifier) : q.dual.dual = q := by
  cases q <;> rfl

/-- The connective of the negated operands when an `and` or an `or` is
negated. -/
def Connective.dual : Connective → Connective
  | and => or
  | or => and
  | op => op

@[simp] theorem Connective.dual_dual (op : Connective) : op.dual.dual = op := by
  cases op <;> rfl

/-- The kind of a node. -/
inductive NodeKind
  | id
  | bool
  | int
  | var
  | additive (op : Additive)
  | scaling (op : Scaling)
  | sign (op : Sign)
  | relation (op : Relation)
  | connective (op : Connective)
  | not
  | bind
  | quantifier (op : Quantifier)
  | type
  deriving DecidableEq

namespace NodeKind

/-- Every kind, in the order that `rank` counts. -/
def all : List NodeKind :=
  [id, bool, int, var, additive .add, additive .sub, scaling .mul, scaling .div, sign .neg,
    sign .pos, relation .eq, relation .ne, relation .lt, relation .gt, relation .le,
    relation .ge, connective .and, connective .or, connective .imp, connective .iff, not, bind,
    quantifier .ex, quantifier .all, type]

/-- The place of a kind among all of them. -/
def rank (kind : NodeKind) : Nat := all.idxOf kind

/-- The name of a kind in reports. -/
def label : NodeKind → String
  | id => "Id"
  | bool => "Bool"
  | int => "Int"
  | var => "Var"
  | additive .add => "Add"
  | additive .sub => "Sub"
  | scaling .mul => "Mul"
  | scaling .div => "Div"
  | sign .neg => "Neg"
  | sign .pos => "Pos"
  | relation .eq => "Eq"
  | relation .ne => "Ne"
  | relation .lt => "Lt"
  | relation .gt => "Gt"
  | relation .le => "Le"
  | relation .ge => "Ge"
  | connective .and => "And"
  | connective .or => "Or"
  | connective .imp => "Imp"
  | connective .iff => "Iff"
  | not => "Not"
  | bind => "Bind"
  | quantifier .ex => "Exists"
  | quantifier .all => "Forall"
  | type => "Type"

/-- A relation between numbers. -/
def isRelational : NodeKind → Bool
  | relation _ => true
  | _ => false

/-- A connective, `not` included. -/
def isLogical : NodeKind → Bool
  | connective _ | not => true
  | _ => false

/-- An operator on numbers. -/
def isArithmetic : NodeKind → Bool
  | additive _ | scaling _ | sign _ => true
  | _ => false

/-- A quantifier. -/
def isQuantifier : NodeKind → Bool
  | quantifier _ => true
  | _ => false

/-- A node without children. -/
def isAtom : NodeKind → Bool
  | id | bool | int | var | type => true
  | _ => false

/-- The kind of the complementary relation, for relations. -/
def complement? : NodeKind → Option NodeKind
  | relation op => some (relation op.complement)
  | _ => none

/-- The binding strength of the written form. -/
def level : NodeKind → Level
  | quantifier _ | bind => .quantified
  | connective .iff => .equivalence
  | connective .imp => .implication
  | connective .or => .disjunction
  | connective .and => .conjunction
  | not => .negation
  | relation .eq | relation .ne => .equality
  | relation _ => .ordering
  | additive _ => .sum
  | scaling _ => .product
  | sign _ => .sign
  | id | bool | int | var | type => .primary

theorem mem_all (kind : NodeKind) : kind ∈ all := by
  cases kind <;> first | decide | (rename_i op; cases op <;> decide)

end NodeKind

/-- The token that writes an operator. -/
def Additive.token : Additive → TokenKind
  | add => .plus
  | sub => .minus

/-- The token that writes an operator. -/
def Scaling.token : Scaling → TokenKind
  | mul => .star
  | div => .slash

/-- The token that writes a sign. -/
def Sign.token : Sign → TokenKind
  | neg => .minus
  | pos => .plus

/-- The token that writes a relation. -/
def Relation.token : Relation → TokenKind
  | eq => .equal
  | ne => .notEqual
  | lt => .less
  | gt => .greater
  | le => .lessEqual
  | ge => .greaterEqual

/-- The token that writes a connective. -/
def Connective.token : Connective → TokenKind
  | and => .kwAnd
  | or => .kwOr
  | imp => .arrow
  | iff => .doubleArrow

/-- The token that writes a quantifier. -/
def Quantifier.token : Quantifier → TokenKind
  | all => .kwForall
  | ex => .kwExists

/-- A handle to a node: its place in the order of construction. -/
structure NodeRef where
  index : Nat
  deriving DecidableEq

/-- A handle to a declaration: its place in the order of declaration. -/
structure DeclRef where
  index : Nat
  deriving DecidableEq

/-- A node with children in `ρ`.  The literal factor of a product comes before
the other operand, and so does the literal divisor of a quotient. -/
inductive Node (ρ : Type)
  | id (name : Symbol)
  | bool (value : Bool)
  | int (value : Int)
  | var (name : Symbol) (decl : DeclRef)
  | additive (op : Additive) (left right : ρ)
  | scaling (op : Scaling) (factor operand : ρ)
  | sign (op : Sign) (operand : ρ)
  | relation (op : Relation) (left right : ρ)
  | connective (op : Connective) (left right : ρ)
  | not (operand : ρ)
  | bind (name : ρ) (ty : Ty)
  | quantifier (op : Quantifier) (binding body : ρ)
  | type (ty : Ty)
  deriving DecidableEq

namespace Node

variable {ρ : Type}

/-- The kind of a node. -/
def kind : Node ρ → NodeKind
  | id _ => .id
  | bool _ => .bool
  | int _ => .int
  | var _ _ => .var
  | additive op _ _ => .additive op
  | scaling op _ _ => .scaling op
  | sign op _ => .sign op
  | relation op _ _ => .relation op
  | connective op _ _ => .connective op
  | not _ => .not
  | bind _ _ => .bind
  | quantifier op _ _ => .quantifier op
  | type _ => .type

/-- The children of a node, in the order of its fields. -/
def children : Node ρ → List ρ
  | id _ | bool _ | int _ | var _ _ | type _ => []
  | additive _ left right | relation _ left right | connective _ left right => [left, right]
  | scaling _ factor operand => [factor, operand]
  | sign _ operand | not operand => [operand]
  | bind name _ => [name]
  | quantifier _ binding body => [binding, body]

/-- The node with its children restricted to those that satisfy `p`; nothing
if one of them does not. -/
def restrict? {p : ρ → Prop} [DecidablePred p] : Node ρ → Option (Node { child // p child })
  | id name => some (id name)
  | bool value => some (bool value)
  | int value => some (int value)
  | var name decl => some (var name decl)
  | additive op left right =>
    if h : p left ∧ p right then some (additive op ⟨left, h.1⟩ ⟨right, h.2⟩) else none
  | scaling op factor operand =>
    if h : p factor ∧ p operand then some (scaling op ⟨factor, h.1⟩ ⟨operand, h.2⟩) else none
  | sign op operand => if h : p operand then some (sign op ⟨operand, h⟩) else none
  | relation op left right =>
    if h : p left ∧ p right then some (relation op ⟨left, h.1⟩ ⟨right, h.2⟩) else none
  | connective op left right =>
    if h : p left ∧ p right then some (connective op ⟨left, h.1⟩ ⟨right, h.2⟩) else none
  | not operand => if h : p operand then some (not ⟨operand, h⟩) else none
  | bind name ty => if h : p name then some (bind ⟨name, h⟩ ty) else none
  | quantifier op binding body =>
    if h : p binding ∧ p body then some (quantifier op ⟨binding, h.1⟩ ⟨body, h.2⟩) else none
  | type ty => some (type ty)

/-- The node of kind `additive`, `relation` or `connective` over two children;
no other kind has two plain operands. -/
def binary? (kind : NodeKind) (left right : ρ) : Option (Node ρ) :=
  match kind with
  | .additive op => some (additive op left right)
  | .relation op => some (relation op left right)
  | .connective op => some (connective op left right)
  | _ => none

theorem kind_of_binary? {kind : NodeKind} {left right : ρ} {node : Node ρ}
    (h : binary? kind left right = some node) : node.kind = kind := by
  cases kind <;> simp only [binary?, Option.some.injEq, reduceCtorEq] at h <;> subst h <;> rfl

theorem children_of_binary? {kind : NodeKind} {left right : ρ} {node : Node ρ}
    (h : binary? kind left right = some node) : node.children = [left, right] := by
  cases kind <;> simp only [binary?, Option.some.injEq, reduceCtorEq] at h <;> subst h <;> rfl

end Node

end ArithLogic
