import ArithLogic.Proofs.Reading.Spelling
import ArithLogic.Term.Surface
import ArithLogic.Tree.Grammar

/-!
# ArithLogic.Proofs.Printing.Tokens

The tokens that a term is printed with, and what the grammar makes of them.
They are an expression of the level of the term (`Term.exists_written`), with
a tree that is the surface tree of the term up to parentheses around operands
(`Term.Written`).
-/

namespace ArithLogic

/-- Types are written as words. -/
theorem Ty.isWord_spelling (ty : Ty) : Lexer.IsWord ty.spelling.toList := by
  cases ty <;> exact Lexer.isWord_cons (by decide) (by decide)

/-- The types that have a name are written as names. -/
theorem Ty.isName_spelling {ty : Ty} (h : ty ≠ .kind) : Lexer.IsName ty.spelling := by
  refine ⟨ty.isWord_spelling, ?_⟩
  cases ty with
  | bool | int => decide
  | kind => exact (h rfl).elim

namespace Term

/-- The text of the term can be read: names are spelled as names, literals are
not negative, and a binding stands in front of the body of a quantifier. -/
def Printable : Term → Prop
  | id name | var name _ => Lexer.IsName name.text
  | bool _ | type _ => True
  | int value => 0 ≤ value
  | additive _ left right | relation _ left right | connective _ left right =>
    left.Printable ∧ right.Printable
  | scaling _ factor operand => 0 ≤ factor ∧ operand.Printable
  | sign _ operand | not operand => operand.Printable
  | bind _ _ => False
  | quantifier _ name _ body => Lexer.IsName name.text ∧ body.Printable

/-! ## printed tokens -/

/-- The tokens of an operand, in parentheses if `needed`. -/
def operandTokens (needed : Bool) (ts : List Token) : List Token :=
  if needed then fixedToken .openParen :: ts ++ [fixedToken .closeParen] else ts

/-- The token of an integer literal. -/
def literalToken (value : Int) : Token := freeToken .literal (toString value)

/-- The tokens of an operation between two operands. -/
def infixTokens (kind : NodeKind) (op : TokenKind) (left right : Term) (ls rs : List Token) :
    List Token :=
  operandTokens (left.level < kind.level.leftOperand) ls ++
    fixedToken op :: operandTokens (right.level < kind.level.rightOperand) rs

/-- The tokens with which the term is printed. -/
def tokens : Term → List Token
  | id name | var name _ => [wordToken name.text]
  | bool value => [fixedToken (if value then .kwTrue else .kwFalse)]
  | int value => [literalToken value]
  | type ty => [wordToken ty.spelling]
  | additive op left right => infixTokens (.additive op) op.token left right left.tokens right.tokens
  | scaling .mul factor operand =>
    literalToken factor :: fixedToken .star ::
      operandTokens (operand.level < Level.product.rightOperand) operand.tokens
  | scaling .div factor operand =>
    operandTokens (operand.level < Level.product.leftOperand) operand.tokens ++
      [fixedToken .slash, literalToken factor]
  | sign op operand =>
    fixedToken op.token :: operandTokens (operand.level < Level.sign) operand.tokens
  | relation op left right => infixTokens (.relation op) op.token left right left.tokens right.tokens
  | connective op left right =>
    infixTokens (.connective op) op.token left right left.tokens right.tokens
  | not operand =>
    fixedToken .kwNot :: operandTokens (operand.level < Level.negation) operand.tokens
  | bind name ty => [wordToken name.text, fixedToken .colon, wordToken ty.spelling]
  | quantifier op name ty body =>
    fixedToken op.token :: wordToken name.text :: fixedToken .colon :: wordToken ty.spelling ::
      fixedToken .dot :: body.tokens

/-! ## trees -/

/-- The tree says what the term is, with any parentheses around operands and
tokens from anywhere. -/
inductive Written : Term → Tree → Prop
  | id {name : Symbol} {token : Token} :
      token.unplaced = wordToken name.text → Written (.id name) (.terminal token)
  | var {name : Symbol} {d : DeclRef} {token : Token} :
      token.unplaced = wordToken name.text → Written (.var name d) (.terminal token)
  | bool {value : Bool} {token : Token} :
      token.unplaced = fixedToken (if value then .kwTrue else .kwFalse) →
      Written (.bool value) (.terminal token)
  | int {value : Int} {token : Token} :
      token.unplaced = literalToken value → Written (.int value) (.terminal token)
  | type {ty : Ty} {token : Token} :
      token.unplaced = wordToken ty.spelling → Written (.type ty) (.terminal token)
  | additive {op : Additive} {l r : Term} {token : Token} {left right : Tree} :
      token.unplaced = fixedToken op.token → Written l left → Written r right →
      Written (.additive op l r) (.binary token left right)
  | product {factor : Int} {t : Term} {token literal : Token} {operand : Tree} :
      token.unplaced = fixedToken .star → literal.unplaced = literalToken factor →
      Written t operand → Written (.scaling .mul factor t) (.binary token (.terminal literal) operand)
  | quotient {factor : Int} {t : Term} {token literal : Token} {operand : Tree} :
      token.unplaced = fixedToken .slash → literal.unplaced = literalToken factor →
      Written t operand → Written (.scaling .div factor t) (.binary token operand (.terminal literal))
  | sign {op : Sign} {t : Term} {token : Token} {operand : Tree} :
      token.unplaced = fixedToken op.token → Written t operand →
      Written (.sign op t) (.unary token operand)
  | relation {op : Relation} {l r : Term} {token : Token} {left right : Tree} :
      token.unplaced = fixedToken op.token → Written l left → Written r right →
      Written (.relation op l r) (.binary token left right)
  | connective {op : Connective} {l r : Term} {token : Token} {left right : Tree} :
      token.unplaced = fixedToken op.token → Written l left → Written r right →
      Written (.connective op l r) (.binary token left right)
  | not {t : Term} {token : Token} {operand : Tree} :
      token.unplaced = fixedToken .kwNot → Written t operand →
      Written (.not t) (.unary token operand)
  | quantifier {op : Quantifier} {name : Symbol} {ty : Ty} {t : Term}
      {token colon bound type : Token} {body : Tree} :
      token.unplaced = fixedToken op.token → colon.unplaced = fixedToken .colon →
      bound.unplaced = wordToken name.text → type.unplaced = wordToken ty.spelling →
      Written t body →
      Written (.quantifier op name ty t)
        (.binary token (.binary colon (.terminal bound) (.terminal type)) body)
  | enclosed {t : Term} {opening closing : Token} {body : Tree} :
      Written t body → Written t (.enclosed opening body closing)

variable {t : Term} {tree : Tree}

/-- But for parentheses and places the tree is the surface tree. -/
theorem Written.bare (h : Written t tree) : tree.bare = t.surface := by
  induction h with
  | id htoken | var htoken | bool htoken | int htoken | type htoken =>
    rw [Tree.bare, htoken]
    rfl
  | additive htoken _ _ ihl ihr | relation htoken _ _ ihl ihr | connective htoken _ _ ihl ihr =>
    rw [Tree.bare, htoken, ihl, ihr]
    rfl
  | product htoken hliteral _ ih | quotient htoken hliteral _ ih =>
    rw [Tree.bare, Tree.bare, htoken, hliteral, ih]
    rfl
  | sign htoken _ ih | not htoken _ ih =>
    rw [Tree.bare, htoken, ih]
    rfl
  | quantifier htoken hcolon hbound htype _ ih =>
    rw [Tree.bare, Tree.bare, Tree.bare, Tree.bare, htoken, hcolon, hbound, htype, ih]
    rfl
  | enclosed _ ih => exact ih

/-! ## derivations -/

section Kinds

variable {token : Token} {kind : TokenKind}

theorem kind_of_unplaced (h : token.unplaced = fixedToken kind) : token.kind = kind :=
  congrArg Token.kind h

/-- A name that can be read is read as a name. -/
theorem isName_of_unplaced {text : String} (h : token.unplaced = wordToken text)
    (hname : Lexer.IsName text) : token.kind.isName = true := by
  have hkind : token.kind = (TokenKind.keyword? text).getD .identifier := congrArg Token.kind h
  have hword := hname.2
  rw [Lexer.wordKind, String.ofList_toList] at hword
  rw [hkind, hword]

/-- The spelling of a type is read as a name. -/
theorem isAtom_of_type {ty : Ty} (h : token.unplaced = wordToken ty.spelling) :
    token.kind.isAtom = true := by
  show token.unplaced.kind.isAtom = true
  rw [h]
  cases ty <;> decide

end Kinds

/-- The tokens of an operand are an expression of the level that its place
demands. -/
theorem exists_operand {t : Term} {level : Level} {ts : List Token}
    (h : ts.map Token.unplaced = operandTokens (t.level < level) t.tokens)
    (ih : ∀ {ts : List Token}, ts.map Token.unplaced = t.tokens →
      ∃ tree, Derives t.level ts tree ∧ Written t tree) :
    ∃ tree, Derives level ts tree ∧ Written t tree := by
  unfold operandTokens at h
  split at h
  · obtain ⟨opening, rest, rfl, hopening, hrest⟩ := List.map_eq_cons_iff.1 h
    obtain ⟨inner, last, rfl, hinner, hlast⟩ := List.map_eq_append_iff.1 hrest
    obtain ⟨closing, rfl, hclosing⟩ := List.map_eq_singleton_iff.1 hlast
    obtain ⟨body, hbody, hwritten⟩ := ih hinner
    refine ⟨.enclosed opening body closing, ?_, .enclosed hwritten⟩
    exact (Derives.enclosed (kind_of_unplaced hopening) (kind_of_unplaced hclosing)
      (hbody.mono (Nat.zero_le _))).mono (by cases level <;> decide)
  · next hlevel =>
    have hle : ¬ t.level < level := by simpa using hlevel
    obtain ⟨tree, htree, hwritten⟩ := ih h
    exact ⟨tree, htree.mono (Nat.not_lt.1 hle), hwritten⟩

/-- The tokens of an operation are an expression of the level of its operator. -/
theorem exists_operation {kind : NodeKind} {op : TokenKind} {left right : Term} {ts : List Token}
    (hop : op.infixLevel? = some kind.level)
    (h : ts.map Token.unplaced = infixTokens kind op left right left.tokens right.tokens)
    (ihl : ∀ {ts : List Token}, ts.map Token.unplaced = left.tokens →
      ∃ tree, Derives left.level ts tree ∧ Written left tree)
    (ihr : ∀ {ts : List Token}, ts.map Token.unplaced = right.tokens →
      ∃ tree, Derives right.level ts tree ∧ Written right tree) :
    ∃ token l r, token.unplaced = fixedToken op ∧ Written left l ∧ Written right r ∧
      Derives kind.level ts (.binary token l r) := by
  obtain ⟨ls, rest, rfl, hls, hrest⟩ := List.map_eq_append_iff.1 h
  obtain ⟨token, rs, rfl, htoken, hrs⟩ := List.map_eq_cons_iff.1 hrest
  obtain ⟨l, hl, hwl⟩ := exists_operand hls ihl
  obtain ⟨r, hr, hwr⟩ := exists_operand hrs ihr
  refine ⟨token, l, r, htoken, hwl, hwr, .operation ?_ hl hr⟩
  rw [kind_of_unplaced htoken]
  exact hop

/-- One token that is an expression. -/
theorem derives_terminal {token : Token} {level : Level} (h : token.kind.isAtom = true) :
    Derives level [token] (.terminal token) :=
  (Derives.atom h).mono (by cases level <;> decide)

/-- The tokens with which a term is printed are an expression of its level,
whose tree says what the term is. -/
theorem exists_written {t : Term} (hp : t.Printable) {ts : List Token}
    (h : ts.map Token.unplaced = t.tokens) : ∃ tree, Derives t.level ts tree ∧ Written t tree := by
  induction t generalizing ts with
  | id name =>
    obtain ⟨token, rfl, htoken⟩ := List.map_eq_singleton_iff.1 h
    exact ⟨_, derives_terminal (TokenKind.isAtom_of_isName (isName_of_unplaced htoken hp)), .id htoken⟩
  | var name d =>
    obtain ⟨token, rfl, htoken⟩ := List.map_eq_singleton_iff.1 h
    exact ⟨_, derives_terminal (TokenKind.isAtom_of_isName (isName_of_unplaced htoken hp)), .var htoken⟩
  | bool value =>
    obtain ⟨token, rfl, htoken⟩ := List.map_eq_singleton_iff.1 h
    refine ⟨_, derives_terminal ?_, .bool htoken⟩
    rw [kind_of_unplaced htoken]
    cases value <;> rfl
  | int value =>
    obtain ⟨token, rfl, htoken⟩ := List.map_eq_singleton_iff.1 h
    have hkind : token.kind = .literal := congrArg Token.kind htoken
    exact ⟨_, derives_terminal (by rw [hkind]; rfl), .int htoken⟩
  | type ty =>
    obtain ⟨token, rfl, htoken⟩ := List.map_eq_singleton_iff.1 h
    exact ⟨_, derives_terminal (isAtom_of_type htoken), .type htoken⟩
  | additive op l r ihl ihr =>
    obtain ⟨token, left, right, htoken, hl, hr, hderives⟩ :=
      exists_operation (by cases op <;> rfl) h (ihl hp.1) (ihr hp.2)
    exact ⟨_, hderives, .additive htoken hl hr⟩
  | relation op l r ihl ihr =>
    obtain ⟨token, left, right, htoken, hl, hr, hderives⟩ :=
      exists_operation (by cases op <;> rfl) h (ihl hp.1) (ihr hp.2)
    exact ⟨_, hderives, .relation htoken hl hr⟩
  | connective op l r ihl ihr =>
    obtain ⟨token, left, right, htoken, hl, hr, hderives⟩ :=
      exists_operation (by cases op <;> rfl) h (ihl hp.1) (ihr hp.2)
    exact ⟨_, hderives, .connective htoken hl hr⟩
  | scaling op factor t ih =>
    cases op with
    | mul =>
      obtain ⟨literal, rest, rfl, hliteral, hrest⟩ := List.map_eq_cons_iff.1 h
      obtain ⟨token, rs, rfl, htoken, hrs⟩ := List.map_eq_cons_iff.1 hrest
      obtain ⟨operand, hderives, hwritten⟩ := exists_operand hrs (ih hp.2)
      have hkind : literal.kind = .literal := congrArg Token.kind hliteral
      have hleft : Derives Level.product.leftOperand [literal] (.terminal literal) :=
        derives_terminal (by rw [hkind]; rfl)
      have hproduct := Derives.operation (by rw [kind_of_unplaced htoken]; rfl) hleft hderives
      exact ⟨_, hproduct, .product htoken hliteral hwritten⟩
    | div =>
      obtain ⟨ls, rest, rfl, hls, hrest⟩ := List.map_eq_append_iff.1 h
      obtain ⟨token, rs, rfl, htoken, hrs⟩ := List.map_eq_cons_iff.1 hrest
      obtain ⟨literal, rfl, hliteral⟩ := List.map_eq_singleton_iff.1 hrs
      obtain ⟨operand, hderives, hwritten⟩ := exists_operand hls (ih hp.2)
      have hkind : literal.kind = .literal := congrArg Token.kind hliteral
      refine ⟨_, ?_, .quotient htoken hliteral hwritten⟩
      exact Derives.operation (by rw [kind_of_unplaced htoken]; rfl) hderives
        (derives_terminal (by rw [hkind]; rfl))
  | sign op t ih =>
    obtain ⟨token, rest, rfl, htoken, hrest⟩ := List.map_eq_cons_iff.1 h
    obtain ⟨operand, hderives, hwritten⟩ := exists_operand hrest (ih hp)
    refine ⟨_, .sign ?_ hderives, .sign htoken hwritten⟩
    rw [kind_of_unplaced htoken]
    cases op <;> decide
  | not t ih =>
    obtain ⟨token, rest, rfl, htoken, hrest⟩ := List.map_eq_cons_iff.1 h
    obtain ⟨operand, hderives, hwritten⟩ := exists_operand hrest (ih hp)
    exact ⟨_, .negation (kind_of_unplaced htoken) hderives, .not htoken hwritten⟩
  | bind name ty => exact hp.elim
  | quantifier op name ty body ih =>
    obtain ⟨token, rest, rfl, htoken, h⟩ := List.map_eq_cons_iff.1 h
    obtain ⟨bound, rest, rfl, hbound, h⟩ := List.map_eq_cons_iff.1 h
    obtain ⟨colon, rest, rfl, hcolon, h⟩ := List.map_eq_cons_iff.1 h
    obtain ⟨type, rest, rfl, htype, h⟩ := List.map_eq_cons_iff.1 h
    obtain ⟨dot, rest, rfl, hdot, h⟩ := List.map_eq_cons_iff.1 h
    obtain ⟨tree, hderives, hwritten⟩ := ih hp.2 h
    have hop : token.kind = .kwForall ∨ token.kind = .kwExists := by
      rw [kind_of_unplaced htoken]
      cases op <;> decide
    have htypeTree : Derives .primary [type] (.terminal type) :=
      derives_terminal (isAtom_of_type htype)
    have hwhole := Derives.quantified hop (isName_of_unplaced hbound hp.1)
      (kind_of_unplaced hcolon) htypeTree (kind_of_unplaced hdot) (hderives.mono (Nat.zero_le _))
    exact ⟨_, hwhole, .quantifier htoken hcolon hbound htype hwritten⟩

end Term

end ArithLogic
