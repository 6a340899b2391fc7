import ArithLogic.Elaboration

/-!
# ArithLogic.NormalForm

Negation normal form.  A negation is carried down the expression until it can
be discharged, by the dual of each operator it passes:

| node        | as it is                      | negated                      |
|-------------|-------------------------------|------------------------------|
| `a R b`     | `a R b`                       | `a R' b`, `R'` the complement |
| `a and b`   | `a and b`                     | `¬a or ¬b`                   |
| `a or b`    | `a or b`                      | `¬a and ¬b`                  |
| `a -> b`    | `¬a or b`                     | `a and ¬b`                   |
| `a <-> b`   | `(a or ¬b) and (b or ¬a)`     | `(¬a and b) or (¬b and a)`   |
| `not a`     | `¬a`                          | `a`                          |
| `∃ x. e`    | `∃ x. e`                      | `∀ x. ¬e`                    |
| `∀ x. e`    | `∀ x. e`                      | `∃ x. ¬e`                    |
| truth value | itself                        | the other one                |
| name `p`    | itself                        | `not p`, if `p` is a formula |

Numbers carry no negation.  A node whose parts come out unchanged is used
again instead of being built a second time.
-/

namespace ArithLogic

namespace Action

/-- The node that was there if nothing changed, and a new one otherwise. -/
def reuse (old : NodeRef) (unchanged : Bool) (node : Node NodeRef) : Action NodeRef :=
  if unchanged then pure old else add node

/-- Records the outcome of bringing one node into normal form. -/
def recordNormalized (source : NodeRef) (kind : NodeKind) (negated : Bool)
    (target : NodeRef) : Action Unit := do
  let node ← demand (← inspect fun cx => cx.node? target)
  record (.normalized kind source negated node.kind target)

/-- The normal form of an expression, or of its negation. -/
def normalize (e : NodeRef) (negated : Bool) : Action NodeRef := do
  let node ← demand (← inspect fun cx => cx.view? e)
  let result ←
    match node with
    | .relation op a b => do
      let target := if negated then op.complement else op
      let a' ← normalize a.1 false
      let b' ← normalize b.1 false
      reuse e (target == op && a' == a.1 && b' == b.1) (.relation target a' b')
    | .connective .imp a b => do
      let a' ← normalize a.1 (!negated)
      let b' ← normalize b.1 negated
      add (.connective (if negated then .and else .or) a' b')
    | .connective .iff a b => do
      let posA ← normalize a.1 false
      let negA ← normalize a.1 true
      let posB ← normalize b.1 false
      let negB ← normalize b.1 true
      if negated then
        let left ← add (.connective .and negA posB)
        let right ← add (.connective .and negB posA)
        add (.connective .or left right)
      else
        let left ← add (.connective .or posA negB)
        let right ← add (.connective .or posB negA)
        add (.connective .and left right)
    | .connective op a b => do
      let target := if negated then op.dual else op
      let a' ← normalize a.1 negated
      let b' ← normalize b.1 negated
      reuse e (target == op && a' == a.1 && b' == b.1) (.connective target a' b')
    | .not a => normalize a.1 (!negated)
    | .quantifier op binding body => do
      let target := if negated then op.dual else op
      let body' ← normalize body.1 negated
      reuse e (target == op && body' == body.1) (.quantifier target binding.1 body')
    | .additive op a b => do
      let a' ← normalize a.1 false
      let b' ← normalize b.1 false
      reuse e (a' == a.1 && b' == b.1) (.additive op a' b')
    | .scaling op factor a => do
      let a' ← normalize a.1 false
      reuse e (a' == a.1) (.scaling op factor.1 a')
    | .sign op a => do
      let a' ← normalize a.1 false
      reuse e (a' == a.1) (.sign op a')
    | .bool value => if negated then add (.bool !value) else pure e
    | .id _ => if negated then add (.not e) else pure e
    | .var _ decl =>
      if negated then do
        let decl ← demand (← inspect fun cx => cx.decl? decl)
        if decl.ty = .bool then add (.not e) else pure e
      else pure e
    | .int _ | .bind _ _ | .type _ => pure e
  recordNormalized e node.kind negated result
  return result
termination_by e.index
decreasing_by
  all_goals first | exact a.2 | exact b.2 | exact body.2

end Action

/-- The normal form of an elaborated expression, which has the same type. -/
def Elaboration.normalForm (e : Elaboration) : Action Elaboration := do
  return ⟨← Action.normalize e.expr false, e.ty⟩

/-- The normal form of the negation of a formula. -/
def Elaboration.negatedForm (e : Elaboration) : Action Elaboration := do
  if ← Action.inspect fun cx => e.isFormula cx then
    return ⟨← Action.normalize e.expr true, e.ty⟩
  else
    let node ← Action.demand (← Action.inspect fun cx => cx.node? e.expr)
    Action.stop (.notFormula node.kind)

end ArithLogic
