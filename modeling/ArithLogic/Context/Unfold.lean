import ArithLogic.Context
import ArithLogic.Term

/-!
# ArithLogic.Context.Unfold

What a handle denotes: the term that is built from the node behind it.  A
handle that is not of the context denotes nothing, and neither does a node
whose parts are of the wrong kind, such as a product without a literal
factor.
-/

namespace ArithLogic.Context

/-- The value of an integer literal. -/
def literal? (cx : Context) (e : NodeRef) : Option Int :=
  match cx.node? e with
  | some (.int value) => some value
  | _ => none

/-- The name and the type of a binding. -/
def binding? (cx : Context) (e : NodeRef) : Option (Symbol × Ty) :=
  match cx.node? e with
  | some (.bind name ty) => (cx.symbol? name).map fun symbol => (symbol, ty)
  | _ => none

/-- The term that a handle denotes. -/
def term? (cx : Context) (e : NodeRef) : Option Term :=
  match cx.view? e with
  | none => none
  | some (.id name) => some (.id name)
  | some (.bool value) => some (.bool value)
  | some (.int value) => some (.int value)
  | some (.var name decl) => some (.var name decl)
  | some (.additive op left right) => do
    return .additive op (← cx.term? left.1) (← cx.term? right.1)
  | some (.scaling op factor operand) => do
    return .scaling op (← cx.literal? factor.1) (← cx.term? operand.1)
  | some (.sign op operand) => do return .sign op (← cx.term? operand.1)
  | some (.relation op left right) => do
    return .relation op (← cx.term? left.1) (← cx.term? right.1)
  | some (.connective op left right) => do
    return .connective op (← cx.term? left.1) (← cx.term? right.1)
  | some (.not operand) => do return .not (← cx.term? operand.1)
  | some (.bind name ty) => do return .bind (← cx.symbol? name.1) ty
  | some (.quantifier op binding body) => do
    let (name, ty) ← cx.binding? binding.1
    return .quantifier op name ty (← cx.term? body.1)
  | some (.type ty) => some (.type ty)
termination_by e.index
decreasing_by
  all_goals first | exact left.2 | exact right.2 | exact operand.2 | exact body.2

end ArithLogic.Context
