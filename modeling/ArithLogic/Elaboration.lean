import ArithLogic.Elaboration.Error
import ArithLogic.Session
import ArithLogic.Text.Numeral
import ArithLogic.Tree

/-!
# ArithLogic.Elaboration

The meaning of expression trees.  Elaboration resolves names, checks every
operand against the type its operator demands and builds the nodes of an
expression, operands before operators, left before right.  A failure is
reported once, where it is detected; nothing is built above a failed operand.

The operators are typed as follows.

* `+ - * /` and the signs take numbers to a number; one factor of a product
  and the divisor of a quotient have to be literals.
* The relations take two numbers to a truth value, the connectives and `not`
  truth values to a truth value.
* `x : T` needs a name of a type for `T`, and has that type.
* A quantifier opens a scope for the name it binds, and its body is a formula.
-/

namespace ArithLogic

/-- An expression with its type. -/
structure Elaboration where
  expr : NodeRef
  ty : Ty
  deriving DecidableEq

/-- Whether the expression is a formula, and so has a negation.  A binding
`p : bool` has the type of a formula, but it declares `p` and asserts
nothing. -/
def Elaboration.isFormula (cx : Context) (e : Elaboration) : Bool :=
  e.ty == .bool && !cx.isBinding e.expr

/-- An action that can find a fault in the text. -/
abbrev Elab := ExceptT ElabError Action

namespace Elab

variable {α : Type}

/-- Does work that cannot fail. -/
def lift (action : Action α) : Elab α := ExceptT.lift action

/-- Looks something up. -/
def inspect (f : Context → α) : Elab α := lift (Action.inspect f)

/-- What a look-up that must succeed finds. -/
def require (f : Context → Option α) : Elab α := do
  lift (Action.demand (← inspect f))

/-- Extends the context. -/
def extend (f : Context → α × Context) : Elab α := lift (Action.extend f)

/-- Changes the context in a way that can breach a contract. -/
def attempt (f : Context → Except Breach (α × Context)) : Elab α := lift (Action.attempt f)

/-- Appends a node. -/
def add (node : Node NodeRef) : Elab NodeRef := lift (Action.add node)

/-- Reports an error at a place of the text. -/
def report (error : ElabError) (span : Span) : Action Unit :=
  Action.record (.reported ⟨.error, error.message, some span⟩)

/-- Reports an error, and fails with it. -/
def fail (error : ElabError) (span : Span) : Elab α := do
  lift (report error span)
  throw error

/-- Fails because of the shape of a tree. -/
def malformed (reason : String) (span : Span) : Elab α :=
  fail (.malformedTree reason) span

/-- Reports an expression of the wrong type; returns the error, if any. -/
def mismatch? (e : Elaboration) (expected : Ty) (span : Span) : Action (Option ElabError) := do
  if e.ty = expected then return none
  let error := .typeMismatch expected e.ty
  report error span
  return some error

/-- Fails if there is an error. -/
def failIf : Option ElabError → Elab Unit
  | some error => throw error
  | none => pure ()

/-- Demands an expression of a type. -/
def expectType (e : Elaboration) (expected : Ty) (span : Span) : Elab Unit := do
  failIf (← lift (mismatch? e expected span))

/-- Appends a node of a type. -/
def build (node : Node NodeRef) (ty : Ty) : Elab Elaboration := do
  return ⟨← add node, ty⟩

end Elab

open Elab

/-! ## operators -/

/-- What an infix operator builds from two operands. -/
inductive InfixForm
  | additive (op : Additive)
  | product
  | quotient
  | relation (op : Relation)
  | connective (op : Connective)
  deriving DecidableEq

namespace InfixForm

/-- The form that a token stands for. -/
def ofToken? : TokenKind → Option InfixForm
  | .plus => some (additive .add)
  | .minus => some (additive .sub)
  | .star => some product
  | .slash => some quotient
  | .equal => some (relation .eq)
  | .notEqual => some (relation .ne)
  | .less => some (relation .lt)
  | .greater => some (relation .gt)
  | .lessEqual => some (relation .le)
  | .greaterEqual => some (relation .ge)
  | .kwAnd => some (connective .and)
  | .kwOr => some (connective .or)
  | .arrow => some (connective .imp)
  | .doubleArrow => some (connective .iff)
  | _ => none

/-- The type of both operands. -/
def operandType : InfixForm → Ty
  | additive _ | product | quotient | relation _ => .int
  | connective _ => .bool

/-- The type of the whole. -/
def resultType : InfixForm → Ty
  | additive _ | product | quotient => .int
  | relation _ | connective _ => .bool

/-- Exactly the infix operators of the grammar have a form. -/
theorem ofToken?_isSome (kind : TokenKind) :
    (ofToken? kind).isSome = kind.infixLevel?.isSome := by
  cases kind <;> rfl

end InfixForm

/-- What a prefix operator builds from an operand. -/
inductive PrefixForm
  | sign (op : Sign)
  | not
  deriving DecidableEq

namespace PrefixForm

/-- The form that a token stands for. -/
def ofToken? : TokenKind → Option PrefixForm
  | .minus => some (sign .neg)
  | .plus => some (sign .pos)
  | .kwNot => some not
  | _ => none

/-- The type of the operand and of the whole. -/
def type : PrefixForm → Ty
  | sign _ => .int
  | not => .bool

/-- The node over an operand. -/
def node (operand : NodeRef) : PrefixForm → Node NodeRef
  | sign op => .sign op operand
  | not => .not operand

end PrefixForm

/-- The quantifier that a token stands for. -/
def Quantifier.ofToken? : TokenKind → Option Quantifier
  | .kwForall => some .all
  | .kwExists => some .ex
  | _ => none

/-! ## parts of expressions -/

/-- Elaborates a tree of one token: a name, a truth value, or a literal. -/
def elaborateTerminal (token : Token) : Elab Elaboration := do
  match token.kind with
  | .identifier | .kwBool | .kwInt =>
    match ← inspect fun cx => cx.lookup? token.text with
    | some decl =>
      let ty := (← require fun cx => cx.decl? decl).ty
      return ⟨← attempt fun cx => cx.addVar decl, ty⟩
    | none => fail (.unboundName token.text) token.span
  | .kwTrue => build (.bool true) .bool
  | .kwFalse => build (.bool false) .bool
  | .literal =>
    match Text.integer? token.text.toList with
    | some value => build (.int value) .int
    | none => fail (.malformedLiteral token.text) token.span
  | _ => malformed s!"`{token.text}` cannot stand alone" token.span

/-- Builds a product or a quotient, whose literal operand comes first; of two
literal factors it is the left one. -/
def buildScaling (op : Scaling) (token : Token) (left right : Elaboration)
    (leftSpan rightSpan : Span) : Elab Elaboration := do
  let leftIsLiteral ← inspect fun cx => cx.isLiteral left.expr
  let rightIsLiteral ← inspect fun cx => cx.isLiteral right.expr
  match op with
  | .mul =>
    if leftIsLiteral then build (.scaling .mul left.expr right.expr) .int
    else if rightIsLiteral then build (.scaling .mul right.expr left.expr) .int
    else fail (.nonLiteralFactor token.text) (leftSpan.join rightSpan)
  | .div =>
    if rightIsLiteral then build (.scaling .div right.expr left.expr) .int
    else fail (.nonLiteralFactor token.text) rightSpan

/-- Builds an infix expression over operands of the right types. -/
def buildInfix (form : InfixForm) (token : Token) (left right : Elaboration)
    (leftSpan rightSpan : Span) : Elab Elaboration :=
  match form with
  | .additive op => build (.additive op left.expr right.expr) form.resultType
  | .product => buildScaling .mul token left right leftSpan rightSpan
  | .quotient => buildScaling .div token left right leftSpan rightSpan
  | .relation op => build (.relation op left.expr right.expr) form.resultType
  | .connective op => build (.connective op left.expr right.expr) form.resultType

/-- Elaborates an infix expression.  Both operands are checked before the
first mismatch counts, so each is reported. -/
def elaborateInfix (op : Token) (leftSpan rightSpan : Span) (left right : Elab Elaboration) :
    Elab Elaboration := do
  match InfixForm.ofToken? op.kind with
  | none =>
    malformed s!"`{op.text}` is not a binary operator" ((leftSpan.join op.span).join rightSpan)
  | some form =>
    let l ← left
    let r ← right
    let leftError ← lift (mismatch? l form.operandType leftSpan)
    let rightError ← lift (mismatch? r form.operandType rightSpan)
    failIf leftError
    failIf rightError
    buildInfix form op l r leftSpan rightSpan

/-- Elaborates a prefix expression. -/
def elaboratePrefix (op : Token) (operandSpan : Span) (operand : Elab Elaboration) :
    Elab Elaboration := do
  match PrefixForm.ofToken? op.kind with
  | none => malformed s!"`{op.text}` is not a prefix operator" (op.span.join operandSpan)
  | some form =>
    let e ← operand
    expectType e form.type operandSpan
    build (form.node e.expr) form.type

/-! ## bindings -/

/-- The token of a tree that is a name. -/
def binderName (tree : Tree) : Elab Token :=
  match tree with
  | .terminal token =>
    if token.kind.isName then pure token else malformed "expected a name to bind" tree.span
  | _ => malformed "expected a name to bind" tree.span

/-- The type that an expression designates.  Only a reference to a definition
whose value is a type designates one. -/
def resolveType (e : Elaboration) (span : Span) : Elab Ty := do
  expectType e .kind span
  match ← inspect fun cx => cx.node? e.expr with
  | some (.var name decl) =>
    match (← require fun cx => cx.decl? decl).init with
    | none => fail (.incompleteType name.text) span
    | some init =>
      match ← inspect fun cx => cx.type? init with
      | some ty => return ty
      | none => fail (.notAType name.text) span
  | _ => fail (.notAType "expression") span

/-- A binding that was built: its node, the node of the name, and the type. -/
structure Binding where
  expr : NodeRef
  name : NodeRef
  ty : Ty
  deriving DecidableEq

/-- Elaborates `name : type`. -/
def elaborateBinding (name : Tree) (typeSpan : Span) (type : Elab Elaboration) :
    Elab Binding := do
  let token ← binderName name
  let ty ← resolveType (← type) typeSpan
  let id ← extend fun cx => cx.addId token.text
  return ⟨← add (.bind id ty), id, ty⟩

/-- Elaborates a formula in a scope that holds only the bound name. -/
def elaborateBody (binding : Binding) (span : Span) (body : Elab Elaboration) :
    Elab Elaboration :=
  ExceptT.mk <| Action.inScope <| ExceptT.run do
    let _ ← attempt fun cx => cx.declareId binding.name binding.ty none
    let e ← body
    expectType e .bool span
    return e

/-- Elaborates a quantified formula. -/
def elaborateQuantified (op : Quantifier) (binding : Elab Binding) (bodySpan : Span)
    (body : Elab Elaboration) : Elab Elaboration := do
  let b ← binding
  let e ← elaborateBody b bodySpan body
  build (.quantifier op b.expr e.expr) .bool

/-! ## expressions -/

/-- Elaborates one expression. -/
def elaborate : Tree → Elab Elaboration
  | .enclosed _ body _ => elaborate body
  | .terminal token => elaborateTerminal token
  | .unary op operand => elaboratePrefix op operand.span (elaborate operand)
  | .binary op left right =>
    match Quantifier.ofToken? op.kind with
    | some quantifier =>
      match left with
      | .binary colon name type =>
        if colon.kind = .colon then
          elaborateQuantified quantifier (elaborateBinding name type.span (elaborate type))
            right.span (elaborate right)
        else malformed s!"`{op.text}` expects a binding `name : type`" left.span
      | _ => malformed s!"`{op.text}` expects a binding `name : type`" left.span
    | none =>
      if op.kind = .colon then do
        let b ← elaborateBinding left right.span (elaborate right)
        return ⟨b.expr, b.ty⟩
      else if op.kind = .assign then
        malformed "definitions are only allowed as statements" (Tree.binary op left right).span
      else elaborateInfix op left.span right.span (elaborate left) (elaborate right)

end ArithLogic
