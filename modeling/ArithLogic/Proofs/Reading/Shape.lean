import ArithLogic.Proofs.Reading.Exactness
import ArithLogic.Proofs.Reading.Spelling

/-!
# ArithLogic.Proofs.Reading.Shape

The shape of the trees that the parser builds.  In a tree that was read every
binding stands in front of the body of a quantifier and every definition is a
statement, which trees put together by hand need not respect.  The grammar
derives no other trees, so this holds of every statement of a program
(`isStatement_of_parseProgram`).
-/

namespace ArithLogic

/-! ## shapes -/

/-- The tree is an expression as the parser builds it. -/
inductive Tree.IsExpression : Tree → Prop
  | atom {t : Token} : t.kind.isAtom = true → t.WellSpelled → IsExpression (.terminal t)
  | enclosed {opening closing : Token} {body : Tree} :
      IsExpression body → IsExpression (.enclosed opening body closing)
  | unary {op : Token} {operand : Tree} :
      (op.kind = .plus ∨ op.kind = .minus) ∨ op.kind = .kwNot → IsExpression operand →
      IsExpression (.unary op operand)
  | operation {op : Token} {left right : Tree} :
      op.kind.infixLevel?.isSome = true → IsExpression left → IsExpression right →
      IsExpression (.binary op left right)
  | quantified {op colon name : Token} {type body : Tree} :
      op.kind = .kwForall ∨ op.kind = .kwExists → colon.kind = .colon →
      name.kind.isName = true → name.WellSpelled → IsExpression type → IsExpression body →
      IsExpression (.binary op (.binary colon (.terminal name) type) body)

/-- The tree is a statement as the parser builds it. -/
inductive Tree.IsStatement : Tree → Prop
  | expression {tree : Tree} : tree.IsExpression → IsStatement tree
  | declaration {colon name : Token} {type : Tree} :
      colon.kind = .colon → name.kind.isName = true → name.WellSpelled → type.IsExpression →
      IsStatement (.binary colon (.terminal name) type)
  | definition {assign name : Token} {value : Tree} :
      assign.kind = .assign → name.kind.isName = true → name.WellSpelled → value.IsExpression →
      IsStatement (.binary assign (.terminal name) value)

/-- An expression binds no name for others. -/
theorem Tree.IsExpression.kind_ne {op : Token} {left right : Tree}
    (h : (Tree.binary op left right).IsExpression) : op.kind ≠ .colon ∧ op.kind ≠ .assign := by
  constructor <;> intro hop <;> cases h with
  | operation hinfix => simp [hop, TokenKind.infixLevel?] at hinfix
  | quantified hq => simp [hop] at hq

/-- A declaration is of a name, at a type. -/
theorem Tree.IsStatement.declared {op : Token} {left right : Tree}
    (h : (Tree.binary op left right).IsStatement) (hop : op.kind = .colon) :
    ∃ name, left = .terminal name ∧ name.kind.isName = true ∧ right.IsExpression := by
  cases h with
  | expression hexpr => exact absurd hop hexpr.kind_ne.1
  | declaration _ hname _ htype => exact ⟨_, rfl, hname, htype⟩
  | definition hassign => cases hop.symm.trans hassign

/-- A definition is of a name, by a value. -/
theorem Tree.IsStatement.defined {op : Token} {left right : Tree}
    (h : (Tree.binary op left right).IsStatement) (hop : op.kind = .assign) :
    ∃ name, left = .terminal name ∧ name.kind.isName = true ∧ right.IsExpression := by
  cases h with
  | expression hexpr => exact absurd hop hexpr.kind_ne.2
  | declaration hcolon => cases hop.symm.trans hcolon
  | definition _ hname _ hvalue => exact ⟨_, rfl, hname, hvalue⟩

/-- The value of a definition is an expression. -/
theorem Tree.IsStatement.value {op : Token} {left right : Tree}
    (h : (Tree.binary op left right).IsStatement) (hop : op.kind = .assign) :
    right.IsExpression := by
  obtain ⟨_, -, -, hvalue⟩ := h.defined hop
  exact hvalue

/-- A tree that the grammar derives from tokens that were read is an expression
as the parser builds it. -/
theorem Derives.isExpression {level : Level} {ts : List Token} {tree : Tree}
    (h : Derives level ts tree) (hts : ∀ t ∈ ts, t.WellSpelled) : tree.IsExpression := by
  induction h with
  | atom hatom => exact .atom hatom (hts _ List.mem_cons_self)
  | enclosed _ _ _ ih => exact .enclosed (ih fun t ht => hts t (by simp [ht]))
  | sign hop _ ih => exact .unary (.inl hop) (ih fun t ht => hts t (by simp [ht]))
  | negation hop _ ih => exact .unary (.inr hop) (ih fun t ht => hts t (by simp [ht]))
  | operation hop _ _ ihl ihr =>
    exact .operation (by rw [hop]; rfl) (ihl fun t ht => hts t (by simp [ht]))
      (ihr fun t ht => hts t (by simp [ht]))
  | quantified hop hname hcolon _ _ _ iht ihb =>
    exact .quantified hop hcolon hname (hts _ (by simp)) (iht fun t ht => hts t (by simp [ht]))
      (ihb fun t ht => hts t (by simp [ht]))
  | loosen _ ih => exact ih hts

/-- A tree that the grammar derives as a statement is one as the parser builds
it. -/
theorem DerivesStatement.isStatement {ts : List Token} {tree : Tree} (h : DerivesStatement ts tree)
    (hts : ∀ t ∈ ts, t.WellSpelled) : tree.IsStatement := by
  cases h with
  | expression h => exact .expression (h.isExpression hts)
  | declaration hname hcolon htype =>
    exact .declaration hcolon hname (hts _ (by simp)) (htype.isExpression fun t ht => hts t (by simp [ht]))
  | definition _ hname hassign hvalue =>
    exact .definition hassign hname (hts _ (by simp)) (hvalue.isExpression fun t ht => hts t (by simp [ht]))

/-- The trees of a program are statements. -/
theorem DerivesProgram.isStatement {ts : List Token} {trees : List Tree}
    (h : DerivesProgram ts trees) (hts : ∀ t ∈ ts, t.WellSpelled) :
    ∀ tree ∈ trees, tree.IsStatement := by
  induction h with
  | empty => exact List.forall_mem_nil _
  | last h => simpa using h.isStatement hts
  | cons h _ _ ih =>
    rw [List.forall_mem_cons]
    exact ⟨h.isStatement fun t ht => hts t (by simp [ht]), ih fun t ht => hts t (by simp [ht])⟩

/-- The statements of a program that was read have the shape of statements. -/
theorem isStatement_of_parseProgram {source : String} {trees : List Tree}
    (h : parseProgram source = .ok trees) : ∀ tree ∈ trees, tree.IsStatement := by
  obtain ⟨ts, htokens, hderives⟩ := parseProgram_eq_ok_iff.1 h
  exact hderives.isStatement (wellSpelled_of_tokenize htokens)

/-- So has a text that was read as an expression the shape of one. -/
theorem isExpression_of_parseExpression {source : String} {tree : Tree}
    (h : parseExpression source = .ok tree) : tree.IsExpression := by
  obtain ⟨ts, htokens, hderives⟩ := parseExpression_eq_ok_iff.1 h
  exact hderives.isExpression (wellSpelled_of_tokenize htokens)

end ArithLogic
