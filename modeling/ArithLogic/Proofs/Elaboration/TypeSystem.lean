import ArithLogic.Proofs.Elaboration.Agreement

/-!
# ArithLogic.Proofs.Elaboration.TypeSystem

The type system of the surface language, as rules over trees.  What a name
stands for at a place of the text is a `Meaning`; a context gives each name
one (`Context.meaning`), and the body of a quantifier one name another.
`Types` derives the type of a tree together with the term that it means, and
knows nothing of nodes, sessions and scopes.
-/

namespace ArithLogic

/-! ## what names stand for -/

/-- What a name stands for: a declaration with its type, and the type that it
designates if it is the definition of a type. -/
structure Meaning where
  decl : DeclRef
  ty : Ty
  designates : Option Ty

/-- What the names stand for at a place of the text. -/
abbrev Naming := String → Option Meaning

namespace Naming

/-- One name stands for a declared variable, and the others for what they
stood for. -/
def bind (names : Naming) (text : String) (d : DeclRef) (ty : Ty) : Naming := fun other =>
  if other = text then some ⟨d, ty, none⟩ else names other

/-- The tree is a name, in any number of parentheses, that designates the
type. -/
def Designates (names : Naming) (tree : Tree) (ty : Ty) : Prop :=
  ∃ token meaning, tree.unparenthesized = .terminal token ∧ token.kind.isName = true ∧
    names token.text = some meaning ∧ meaning.ty = .kind ∧ meaning.designates = some ty

end Naming

/-- What a name stands for in a context: its innermost binding. -/
def Context.meaning (cx : Context) : Naming := fun text => do
  let d ← cx.lookup? text
  let decl ← cx.decl? d
  return ⟨d, decl.ty, decl.init.bind cx.type?⟩

/-! ## the rules -/

/-- The value of a tree that is an integer literal, in any number of
parentheses. -/
def Tree.literal? : Tree → Option Int
  | .enclosed _ body _ => body.literal?
  | .terminal token =>
    if token.kind = .literal then Text.integer? token.text.toList else none
  | _ => none

/-- The tree is derivable at the type, and means the term.  Names are from the
interner `origin`; before the tree `n` declarations have been made, and after
it `n'`. -/
inductive Types (origin : Nat) : Naming → (n : Nat) → Tree → Ty → Term → (n' : Nat) → Prop
  | name {names : Naming} {n : Nat} {token : Token} {meaning : Meaning} :
      token.kind.isName = true → names token.text = some meaning →
      Types origin names n (.terminal token) meaning.ty
        (.var ⟨origin, token.text⟩ meaning.decl) n
  | truth {names : Naming} {n : Nat} {token : Token} {value : Bool} :
      token.kind = (if value then .kwTrue else .kwFalse) →
      Types origin names n (.terminal token) .bool (.bool value) n
  | literal {names : Naming} {n : Nat} {token : Token} {value : Int} :
      token.kind = .literal → Text.integer? token.text.toList = some value →
      Types origin names n (.terminal token) .int (.int value) n
  | enclosed {names : Naming} {n n' : Nat} {opening closing : Token} {body : Tree} {ty : Ty}
      {t : Term} :
      Types origin names n body ty t n' →
      Types origin names n (.enclosed opening body closing) ty t n'
  | sign {names : Naming} {n n' : Nat} {op : Token} {operand : Tree} {sign : Sign} {t : Term} :
      op.kind = sign.token → Types origin names n operand .int t n' →
      Types origin names n (.unary op operand) .int (.sign sign t) n'
  | not {names : Naming} {n n' : Nat} {op : Token} {operand : Tree} {t : Term} :
      op.kind = .kwNot → Types origin names n operand .bool t n' →
      Types origin names n (.unary op operand) .bool (.not t) n'
  | additive {names : Naming} {n n₁ n₂ : Nat} {op : Token} {left right : Tree} {a : Additive}
      {l r : Term} :
      op.kind = a.token → Types origin names n left .int l n₁ →
      Types origin names n₁ right .int r n₂ →
      Types origin names n (.binary op left right) .int (.additive a l r) n₂
  | relation {names : Naming} {n n₁ n₂ : Nat} {op : Token} {left right : Tree} {a : Relation}
      {l r : Term} :
      op.kind = a.token → Types origin names n left .int l n₁ →
      Types origin names n₁ right .int r n₂ →
      Types origin names n (.binary op left right) .bool (.relation a l r) n₂
  | connective {names : Naming} {n n₁ n₂ : Nat} {op : Token} {left right : Tree} {a : Connective}
      {l r : Term} :
      op.kind = a.token → Types origin names n left .bool l n₁ →
      Types origin names n₁ right .bool r n₂ →
      Types origin names n (.binary op left right) .bool (.connective a l r) n₂
  /-- The literal on the left is the factor. -/
  | leftFactor {names : Naming} {n n₁ n₂ : Nat} {op : Token} {left right : Tree} {l r : Term}
      {value : Int} :
      op.kind = .star → Types origin names n left .int l n₁ →
      Types origin names n₁ right .int r n₂ → left.literal? = some value →
      Types origin names n (.binary op left right) .int (.scaling .mul value r) n₂
  /-- The literal on the right is the factor if there is none on the left. -/
  | rightFactor {names : Naming} {n n₁ n₂ : Nat} {op : Token} {left right : Tree} {l r : Term}
      {value : Int} :
      op.kind = .star → Types origin names n left .int l n₁ →
      Types origin names n₁ right .int r n₂ → left.literal? = none →
      right.literal? = some value →
      Types origin names n (.binary op left right) .int (.scaling .mul value l) n₂
  | divisor {names : Naming} {n n₁ n₂ : Nat} {op : Token} {left right : Tree} {l r : Term}
      {value : Int} :
      op.kind = .slash → Types origin names n left .int l n₁ →
      Types origin names n₁ right .int r n₂ → right.literal? = some value →
      Types origin names n (.binary op left right) .int (.scaling .div value l) n₂
  | binding {names : Naming} {n : Nat} {colon name : Token} {type : Tree} {ty : Ty} :
      colon.kind = .colon → name.kind.isName = true → names.Designates type ty →
      Types origin names n (.binary colon (.terminal name) type) ty
        (.bind ⟨origin, name.text⟩ ty) n
  /-- The body is a formula in which the bound name stands for the next
  declaration. -/
  | quantifier {names : Naming} {n n' : Nat} {op colon name : Token} {type body : Tree}
      {q : Quantifier} {ty : Ty} {t : Term} :
      op.kind = q.token → colon.kind = .colon → name.kind.isName = true →
      names.Designates type ty → Types origin (names.bind name.text ⟨n⟩ ty) (n + 1) body .bool t n' →
      Types origin names n (.binary op (.binary colon (.terminal name) type) body) .bool
        (.quantifier q ⟨origin, name.text⟩ ty t) n'

/-! ## operators by their tokens -/

/-- The token that writes an infix operator. -/
def InfixForm.token : InfixForm → TokenKind
  | additive op => op.token
  | product => .star
  | quotient => .slash
  | relation op => op.token
  | connective op => op.token

theorem InfixForm.ofToken?_eq_some_iff {kind : TokenKind} {form : InfixForm} :
    ofToken? kind = some form ↔ kind = form.token := by
  constructor
  · cases kind <;> simp only [ofToken?, Option.some.injEq, reduceCtorEq, false_implies] <;>
      rintro rfl <;> rfl
  · rintro rfl
    cases form with
    | product | quotient => rfl
    | additive op | relation op | connective op => cases op <;> rfl

/-- The token that writes a prefix operator. -/
def PrefixForm.token : PrefixForm → TokenKind
  | sign op => op.token
  | not => .kwNot

theorem PrefixForm.ofToken?_eq_some_iff {kind : TokenKind} {form : PrefixForm} :
    ofToken? kind = some form ↔ kind = form.token := by
  constructor
  · cases kind <;> simp only [ofToken?, Option.some.injEq, reduceCtorEq, false_implies] <;>
      rintro rfl <;> rfl
  · rintro rfl
    cases form with
    | not => rfl
    | sign op => cases op <;> rfl

theorem Quantifier.ofToken?_eq_some_iff {kind : TokenKind} {q : Quantifier} :
    ofToken? kind = some q ↔ kind = q.token := by
  constructor
  · cases kind <;> simp only [ofToken?, Option.some.injEq, reduceCtorEq, false_implies] <;>
      rintro rfl <;> rfl
  · rintro rfl
    cases q <;> rfl

end ArithLogic
