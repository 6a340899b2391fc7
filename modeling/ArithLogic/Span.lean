/-!
# ArithLogic.Span

Byte ranges of the source text.  A span counts UTF-8 bytes, so `start` and
`stop` of anything the lexer reads lie on character boundaries.
-/

namespace ArithLogic

/-- The bytes of the source from `start` up to, but not including, `stop`. -/
structure Span where
  start : Nat
  stop : Nat
  deriving DecidableEq

namespace Span

/-- The empty span at the beginning of the text, carried by whatever was not
read from a source. -/
def origin : Span := ⟨0, 0⟩

/-- The smallest span that covers both. -/
def join (a b : Span) : Span := ⟨min a.start b.start, max a.stop b.stop⟩

/-- How a span is written in messages. -/
def text (s : Span) : String := s!"{s.start}..{s.stop}"

/-- `inner` lies within `outer`. -/
def Within (inner outer : Span) : Prop :=
  outer.start ≤ inner.start ∧ inner.stop ≤ outer.stop

instance (inner outer : Span) : Decidable (Within inner outer) :=
  inferInstanceAs (Decidable (_ ∧ _))

theorem within_join_left (a b : Span) : Within a (a.join b) :=
  ⟨Nat.min_le_left .., Nat.le_max_left ..⟩

theorem within_join_right (a b : Span) : Within b (a.join b) :=
  ⟨Nat.min_le_right .., Nat.le_max_right ..⟩

theorem join_comm (a b : Span) : a.join b = b.join a := by
  simp [join, Nat.min_comm, Nat.max_comm]

theorem join_assoc (a b c : Span) : (a.join b).join c = a.join (b.join c) := by
  simp [join, Nat.min_assoc, Nat.max_assoc]

@[simp] theorem join_self (a : Span) : a.join a = a := by
  simp [join]

end Span

end ArithLogic
