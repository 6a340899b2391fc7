import ArithLogic.Level
import ArithLogic.SyntaxError
import ArithLogic.Tree

/-!
# ArithLogic.Tree.Frame

Open constructs.  While a text is read from left to right, everything begun
and not yet finished is a stack of frames, innermost first.  A frame waits
for one operand: `Frame.slot` says what may stand there, and
`Frame.complete?` builds the tree once it has been read.
-/

namespace ArithLogic

/-- A construct that waits for its last operand. -/
inductive Frame
  | sign (op : Token)
  | negation (op : Token)
  | operation (left : Tree) (op : Token)
  | paren (opening : Token)
  | boundType (quantifier name colon : Token)
  | quantified (quantifier : Token) (binding : Tree)
  | declared (name colon : Token)
  | defined (name assign : Token)
  deriving DecidableEq

/-- What may stand where an operand is due. -/
inductive Slot
  | statement
  | expression
  | implication
  | negation
  | sign
  | signed
  | primary
  deriving DecidableEq

namespace Slot

/-- What an error in the place of the operand lists. -/
def expected : Slot → List Expected
  | statement => [.statement, .endOfInput]
  | expression => [.expression]
  | implication => [.implication]
  | negation => [.token .kwNot, .sign]
  | sign => [.sign]
  | signed => [.token .plus, .token .minus, .primary]
  | primary => [.primary]

/-- A sign may stand in front of the operand. -/
def allowsSign : Slot → Bool
  | primary => false
  | _ => true

/-- A `not` may stand in front of the operand. -/
def allowsNegation : Slot → Bool
  | statement | expression | implication | negation => true
  | sign | signed | primary => false

/-- The operand may be quantified. -/
def allowsQuantifier : Slot → Bool
  | statement | expression => true
  | _ => false

end Slot

/-- What may be the right operand of an infix operator of this level. -/
def Level.rightSlot : Level → Slot
  | .quantified => .expression
  | .equivalence | .implication => .implication
  | .disjunction | .conjunction | .negation => .negation
  | _ => .sign

namespace Frame

/-- What may be the operand of the construct. -/
def slot : Frame → Slot
  | sign _ => .signed
  | negation _ => .negation
  | operation _ op => (op.kind.infixLevel?.map Level.rightSlot).getD .sign
  | paren _ | quantified .. | defined .. => .expression
  | boundType .. | declared .. => .primary

/-- The tree of the construct with its operand; nothing for the two
constructs that need a further token after it. -/
def complete? (operand : Tree) : Frame → Option Tree
  | sign op | negation op => some (.unary op operand)
  | operation left op => some (.binary op left operand)
  | quantified quantifier binding => some (.binary quantifier binding operand)
  | declared name colon => some (.binary colon (.terminal name) operand)
  | defined name assign => some (.binary assign (.terminal name) operand)
  | paren _ | boundType .. => none

/-- The construct ends in front of an infix operator of the given level,
because it binds tighter, or as tight and groups to the left. -/
def endsBefore (level : Level) : Frame → Bool
  | sign _ => true
  | negation _ => level < Level.negation
  | operation _ op =>
    match op.kind.infixLevel? with
    | none => true
    | some own => level < own || (level == own && !level.groupsRight)
  | paren _ | boundType .. | quantified .. | declared .. | defined .. => false

/-- The construct ends in front of a closing parenthesis. -/
def endsBeforeClosing : Frame → Bool
  | sign _ | negation _ | operation .. | quantified .. => true
  | paren _ | boundType .. | declared .. | defined .. => false

end Frame

/-- Completes frames from the inside outwards as long as `ends` holds of
them, and returns the tree built and the frames left. -/
def collapse (ends : Frame → Bool) : Tree → List Frame → Tree × List Frame
  | operand, [] => (operand, [])
  | operand, frame :: frames =>
    if ends frame then
      match frame.complete? operand with
      | some tree => collapse ends tree frames
      | none => (operand, frame :: frames)
    else (operand, frame :: frames)

/-- No frame that ends is left in front. -/
theorem collapse_of_not_ends {ends : Frame → Bool} {operand : Tree} {frame : Frame}
    {frames : List Frame} (h : ends frame = false) :
    collapse ends operand (frame :: frames) = (operand, frame :: frames) := by
  simp [collapse, h]

/-- What is left is an outer part of the stack. -/
theorem collapse_suffix (ends : Frame → Bool) (operand : Tree) (frames : List Frame) :
    (collapse ends operand frames).2 <:+ frames := by
  induction frames generalizing operand with
  | nil => exact List.suffix_refl _
  | cons frame frames ih =>
    rw [collapse]
    split
    · split
      · exact (ih _).trans (List.suffix_cons ..)
      · exact List.suffix_refl _
    · exact List.suffix_refl _

end ArithLogic
