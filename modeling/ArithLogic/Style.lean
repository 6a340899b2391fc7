import ArithLogic.Layout

/-!
# ArithLogic.Style

The styles of printed expressions, and how a terminal shows them.  A styled
text is put between escape sequences; blanks and breaks are not styled.
-/

namespace ArithLogic

/-- What a piece of a printed expression is. -/
inductive Style
  | punctuation
  | paren (depth : Nat)
  | keyword
  | operator
  | name
  | literal
  | type
  deriving DecidableEq

/-- The colours of a terminal that are in use. -/
inductive Color
  | red
  | green
  | yellow
  | blue
  | magenta
  | cyan
  | white
  deriving DecidableEq

/-- The digit that selects a foreground colour. -/
def Color.digit : Color → Nat
  | red => 1
  | green => 2
  | yellow => 3
  | blue => 4
  | magenta => 5
  | cyan => 6
  | white => 7

namespace Style

/-- Shown bold. -/
def isBold : Style → Bool
  | keyword | operator | name => true
  | _ => false

/-- Shown dimmed. -/
def isDimmed : Style → Bool
  | punctuation | paren _ => true
  | _ => false

/-- The colour of a style.  Parentheses take turns by their depth, so that a
pair shares a colour that differs from those of its neighbours. -/
def color? : Style → Option Color
  | punctuation => none
  | paren depth =>
    match depth % 6 with
    | 0 => some .blue
    | 1 => some .green
    | 2 => some .white
    | 3 => some .yellow
    | 4 => some .red
    | _ => some .magenta
  | keyword => some .cyan
  | operator => some .yellow
  | name => some .green
  | literal => some .blue
  | type => some .magenta

/-- The sequence that ends every style. -/
def reset : String := "\x1b[0m"

/-- The sequence that begins a style. -/
def escape (style : Style) : String :=
  reset ++ (if style.isBold then "\x1b[1m" else "") ++ (if style.isDimmed then "\x1b[2m" else "") ++
    match style.color? with
    | some color => s!"\x1b[3{color.digit}m"
    | none => ""

end Style

/-- The text of a piece between the escape sequences of its style. -/
def Piece.colored : Piece Style → String
  | text style content => style.escape ++ content ++ Style.reset
  | piece => piece.plain

/-- The text of pieces with their styles. -/
def coloredText (pieces : List (Piece Style)) : String :=
  String.join (pieces.map Piece.colored)

end ArithLogic
