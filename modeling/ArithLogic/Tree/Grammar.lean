import ArithLogic.Level
import ArithLogic.Tree

/-!
# ArithLogic.Tree.Grammar

The grammar, as derivations.  `Derives level ts t` says that the tokens `ts`
are an expression of the given level with the tree `t`; it knows nothing of
how a text is read.  A tree keeps every token of its derivation but the dot of
a quantifier; a statement gives up `let` as well, and a program its
semicolons.
-/

namespace ArithLogic

/-- The tokens are an expression of the level, with the tree. -/
inductive Derives : Level → List Token → Tree → Prop
  /-- A literal, a truth value, a name. -/
  | atom {t : Token} : t.kind.isAtom → Derives .primary [t] (.terminal t)
  /-- Any expression in parentheses. -/
  | enclosed {opening closing : Token} {ts : List Token} {body : Tree} :
      opening.kind = .openParen → closing.kind = .closeParen → Derives .quantified ts body →
      Derives .primary (opening :: ts ++ [closing]) (.enclosed opening body closing)
  /-- A number with a sign. -/
  | sign {op : Token} {ts : List Token} {t : Tree} :
      op.kind = .plus ∨ op.kind = .minus → Derives .sign ts t →
      Derives .sign (op :: ts) (.unary op t)
  /-- A negation. -/
  | negation {op : Token} {ts : List Token} {t : Tree} :
      op.kind = .kwNot → Derives .negation ts t → Derives .negation (op :: ts) (.unary op t)
  /-- Two operands of the levels that the operator demands. -/
  | operation {op : Token} {level : Level} {ls rs : List Token} {l r : Tree} :
      op.kind.infixLevel? = some level → Derives level.leftOperand ls l →
      Derives level.rightOperand rs r → Derives level (ls ++ op :: rs) (.binary op l r)
  /-- A quantifier over a name with its type; the body is as long as can be. -/
  | quantified {op name colon dot : Token} {ts bs : List Token} {type body : Tree} :
      op.kind = .kwForall ∨ op.kind = .kwExists → name.kind.isName → colon.kind = .colon →
      Derives .primary ts type → dot.kind = .dot → Derives .quantified bs body →
      Derives .quantified (op :: name :: colon :: ts ++ dot :: bs)
        (.binary op (.binary colon (.terminal name) type) body)
  /-- A tighter expression will do for a looser one. -/
  | loosen {level : Level} {ts : List Token} {t : Tree} :
      Derives level.next ts t → Derives level ts t

/-- The tokens are a statement, with the tree. -/
inductive DerivesStatement : List Token → Tree → Prop
  | expression {ts : List Token} {t : Tree} :
      Derives .quantified ts t → DerivesStatement ts t
  | declaration {name colon : Token} {ts : List Token} {type : Tree} :
      name.kind.isName → colon.kind = .colon → Derives .primary ts type →
      DerivesStatement (name :: colon :: ts) (.binary colon (.terminal name) type)
  | definition {keyword name assign : Token} {ts : List Token} {value : Tree} :
      keyword.kind = .kwLet → name.kind.isName → assign.kind = .assign →
      Derives .quantified ts value →
      DerivesStatement (keyword :: name :: assign :: ts) (.binary assign (.terminal name) value)

/-- The tokens are a program, with the trees of its statements. -/
inductive DerivesProgram : List Token → List Tree → Prop
  | empty : DerivesProgram [] []
  | last {ts : List Token} {t : Tree} : DerivesStatement ts t → DerivesProgram ts [t]
  | cons {semicolon : Token} {ts us : List Token} {t : Tree} {trees : List Tree} :
      DerivesStatement ts t → semicolon.kind = .semicolon → DerivesProgram us trees →
      DerivesProgram (ts ++ semicolon :: us) (t :: trees)

namespace Derives

/-- An expression of a level is one of every looser level. -/
theorem mono {loose tight : Level} {ts : List Token} {t : Tree} (h : Derives tight ts t)
    (hle : loose ≤ tight) : Derives loose ts t := by
  by_cases heq : loose = tight
  · exact heq ▸ h
  · have hne : loose.rank ≠ tight.rank := fun hr => heq (Level.rank_injective hr)
    have hlt : loose.rank < tight.rank := Nat.lt_of_le_of_ne hle hne
    have hrank := Level.rank_next hlt
    exact .loosen (mono h (Level.le_iff_rank.2 (by omega)))
termination_by tight.rank - loose.rank
decreasing_by omega

/-- No expression is empty. -/
theorem ne_nil {level : Level} {ts : List Token} {t : Tree} (h : Derives level ts t) :
    ts ≠ [] := by
  induction h with
  | loosen _ ih => exact ih
  | _ => simp

end Derives

end ArithLogic
