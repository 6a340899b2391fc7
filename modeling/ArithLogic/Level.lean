import ArithLogic.Token

/-!
# ArithLogic.Level

Binding strength.  The levels of the grammar form one chain, from the
quantifiers, which bind loosest, to the primaries.  Parser and printer both
read it: an operand that is looser than its place demands needs parentheses.
-/

namespace ArithLogic

/-- The levels of the grammar, loosest first. -/
inductive Level
  | quantified
  | equivalence
  | implication
  | disjunction
  | conjunction
  | negation
  | equality
  | ordering
  | sum
  | product
  | sign
  | primary
  deriving DecidableEq

namespace Level

/-- The place of a level in the chain. -/
def rank : Level → Nat
  | quantified => 0
  | equivalence => 1
  | implication => 2
  | disjunction => 3
  | conjunction => 4
  | negation => 5
  | equality => 6
  | ordering => 7
  | sum => 8
  | product => 9
  | sign => 10
  | primary => 11

/-- The next tighter level; primaries are the tightest. -/
def next : Level → Level
  | quantified => equivalence
  | equivalence => implication
  | implication => disjunction
  | disjunction => conjunction
  | conjunction => negation
  | negation => equality
  | equality => ordering
  | ordering => sum
  | sum => product
  | product => sign
  | sign => primary
  | primary => primary

/-- Whether a chain of infix operators of this level groups to the right. -/
def groupsRight : Level → Bool
  | implication => true
  | _ => false

/-- The level demanded of the left operand of an infix operator. -/
def leftOperand (level : Level) : Level :=
  if level.groupsRight then level.next else level

/-- The level demanded of the right operand of an infix operator. -/
def rightOperand (level : Level) : Level :=
  if level.groupsRight then level else level.next

instance : LE Level := ⟨fun a b => a.rank ≤ b.rank⟩

instance : LT Level := ⟨fun a b => a.rank < b.rank⟩

instance (a b : Level) : Decidable (a ≤ b) := inferInstanceAs (Decidable (a.rank ≤ b.rank))

instance (a b : Level) : Decidable (a < b) := inferInstanceAs (Decidable (a.rank < b.rank))

theorem le_iff_rank {a b : Level} : a ≤ b ↔ a.rank ≤ b.rank := Iff.rfl

theorem lt_iff_rank {a b : Level} : a < b ↔ a.rank < b.rank := Iff.rfl

theorem rank_injective {a b : Level} (h : a.rank = b.rank) : a = b := by
  cases a <;> cases b <;> first | rfl | cases h

theorem le_next (level : Level) : level ≤ level.next := by
  cases level <;> decide

/-- No level lies between one and the next. -/
theorem rank_next {loose tight : Level} (h : loose < tight) :
    loose.next.rank = loose.rank + 1 := by
  cases loose <;> first | rfl | (cases tight <;> exact absurd h (by decide))

end Level

/-- The level of an infix operator. -/
def TokenKind.infixLevel? : TokenKind → Option Level
  | .doubleArrow => some .equivalence
  | .arrow => some .implication
  | .kwOr => some .disjunction
  | .kwAnd => some .conjunction
  | .equal | .notEqual => some .equality
  | .less | .greater | .lessEqual | .greaterEqual => some .ordering
  | .plus | .minus => some .sum
  | .star | .slash => some .product
  | _ => none

end ArithLogic
