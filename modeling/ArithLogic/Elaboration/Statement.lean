import ArithLogic.Elaboration

/-!
# ArithLogic.Elaboration.Statement

The meaning of statements.  A statement is a declaration `x : T`, a definition
`let x = e`, or an expression.  The first two bind a name in the innermost
environment, where it must be new.  The statements of a program are elaborated
one by one, and one that fails does not keep the next from being tried.
-/

namespace ArithLogic

open Elab

/-- Fails if the innermost environment binds the name already. -/
def rejectRedeclaration (name : Token) : Elab Unit := do
  if ← inspect fun cx => cx.isLocal name.text then
    fail (.redeclaration name.text) name.span

/-- Elaborates a declaration `name : type`. -/
def elaborateDeclaration (name type : Tree) : Elab Elaboration := do
  rejectRedeclaration (← binderName name)
  let b ← elaborateBinding name type.span (elaborate type)
  let _ ← attempt fun cx => cx.declareId b.name b.ty none
  return ⟨b.expr, b.ty⟩

/-- The initial value that a definition of an expression gets: the type that
is designated, or the expression itself. -/
def initialValue (e : Elaboration) (span : Span) : Elab NodeRef := do
  if e.ty = .kind then return (← resolveType e span).ref else return e.expr

/-- Elaborates a definition `name = value`. -/
def elaborateDefinition (name value : Tree) : Elab Elaboration := do
  let token ← binderName name
  rejectRedeclaration token
  let e ← elaborate value
  let init ← initialValue e value.span
  let id ← extend fun cx => cx.addId token.text
  let _ ← attempt fun cx => cx.declareId id e.ty (some init)
  return e

/-- Elaborates a statement, without recording its outcome. -/
def elaborateForm (tree : Tree) : Elab Elaboration :=
  match tree with
  | .binary op left right =>
    if op.kind = .colon then elaborateDeclaration left right
    else if op.kind = .assign then elaborateDefinition left right
    else elaborate tree
  | _ => elaborate tree

/-- Records what became of a statement. -/
def recordOutcome (span : Span) (outcome : Except ElabError Elaboration) : Action Unit := do
  match outcome with
  | .ok e =>
    let node ← Action.demand (← Action.inspect fun cx => cx.node? e.expr)
    Action.record (.statementElaborated span node.kind e.ty)
  | .error error => Action.record (.statementFailed span error)

/-- Elaborates a statement. -/
def elaborateStatement (tree : Tree) : Action (Except ElabError Elaboration) := do
  let outcome ← (elaborateForm tree).run
  recordOutcome tree.span outcome
  return outcome

/-- Elaborates every statement of a program. -/
def elaborateProgram (statements : List Tree) :
    Action (List (Except ElabError Elaboration)) := do
  let outcomes ← statements.mapM elaborateStatement
  let failed := outcomes.countP fun outcome => !outcome.toBool
  Action.record (.programElaborated outcomes.length failed)
  return outcomes

end ArithLogic
