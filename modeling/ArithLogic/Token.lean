import ArithLogic.Span

/-!
# ArithLogic.Token

Tokens of the surface language: their kinds, the fixed spelling of every
kind that has one, and the keyword table, which is that spelling read
backwards (`keyword?_eq_some_iff`).
-/

namespace ArithLogic

/-- The kinds of tokens: punctuation, operators, keywords, and the two open
classes of literals and names. -/
inductive TokenKind
  | openParen | closeParen | dot | colon | semicolon | assign
  | plus | minus | star | slash
  | equal | notEqual | less | greater | lessEqual | greaterEqual
  | arrow | doubleArrow
  | kwAnd | kwOr | kwNot | kwTrue | kwFalse | kwForall | kwExists | kwLet | kwBool | kwInt
  | literal | identifier
  deriving DecidableEq

namespace TokenKind

/-- The fixed spelling of punctuation, operators and keywords; literals and
names have none. -/
def spelling? : TokenKind → Option String
  | openParen => some "("
  | closeParen => some ")"
  | dot => some "."
  | colon => some ":"
  | semicolon => some ";"
  | assign => some "="
  | plus => some "+"
  | minus => some "-"
  | star => some "*"
  | slash => some "/"
  | equal => some "=="
  | notEqual => some "!="
  | less => some "<"
  | greater => some ">"
  | lessEqual => some "<="
  | greaterEqual => some ">="
  | arrow => some "->"
  | doubleArrow => some "<->"
  | kwAnd => some "and"
  | kwOr => some "or"
  | kwNot => some "not"
  | kwTrue => some "true"
  | kwFalse => some "false"
  | kwForall => some "forall"
  | kwExists => some "exists"
  | kwLet => some "let"
  | kwBool => some "bool"
  | kwInt => some "int"
  | literal | identifier => none

/-- The fixed spelling, empty where there is none. -/
def spelling (kind : TokenKind) : String := kind.spelling?.getD ""

/-- The kinds spelled as words. -/
def keywords : List TokenKind :=
  [kwAnd, kwOr, kwNot, kwTrue, kwFalse, kwForall, kwExists, kwLet, kwBool, kwInt]

/-- The kinds spelled with operator characters.  No spelling in this list is
a beginning of a later one, so the first match is the longest. -/
def operators : List TokenKind :=
  [doubleArrow, arrow, lessEqual, greaterEqual, equal, notEqual, less, greater, assign,
    plus, minus, star, slash, openParen, closeParen, dot, colon, semicolon]

/-- Every kind, in the order of the declaration. -/
def all : List TokenKind :=
  [openParen, closeParen, dot, colon, semicolon, assign, plus, minus, star, slash,
    equal, notEqual, less, greater, lessEqual, greaterEqual, arrow, doubleArrow,
    kwAnd, kwOr, kwNot, kwTrue, kwFalse, kwForall, kwExists, kwLet, kwBool, kwInt,
    literal, identifier]

/-- The keyword spelled `word`, if any. -/
def keyword? (word : String) : Option TokenKind :=
  keywords.find? fun kind => kind.spelling? == some word

/-- What a list of expectations calls a token of this kind. -/
def describe : TokenKind → String
  | literal => "integer literal"
  | identifier => "identifier"
  | kind => kind.spelling?.getD "token"

/-- The name of a kind in reports about the kind itself. -/
def label : TokenKind → String
  | openParen => "LParen"
  | closeParen => "RParen"
  | dot => "Dot"
  | colon => "Colon"
  | semicolon => "Semicolon"
  | assign => "Assign"
  | plus => "Plus"
  | minus => "Minus"
  | star => "Star"
  | slash => "Slash"
  | equal => "EqEq"
  | notEqual => "NotEq"
  | less => "Less"
  | greater => "Greater"
  | lessEqual => "LessEq"
  | greaterEqual => "GreaterEq"
  | arrow => "Arrow"
  | doubleArrow => "LeftRight"
  | kwAnd => "And"
  | kwOr => "Or"
  | kwNot => "Not"
  | kwTrue => "True"
  | kwFalse => "False"
  | kwForall => "Forall"
  | kwExists => "Exists"
  | kwLet => "Let"
  | kwBool => "BoolType"
  | kwInt => "IntType"
  | literal => "IntLiteral"
  | identifier => "Identifier"

/-- The kinds of tokens that can name something: an identifier, or a type
keyword, which a binder may shadow. -/
def isName : TokenKind → Bool
  | identifier | kwBool | kwInt => true
  | _ => false

/-- The kinds of tokens that are an expression by themselves. -/
def isAtom : TokenKind → Bool
  | kwTrue | kwFalse | literal | identifier | kwBool | kwInt => true
  | _ => false

/-- A name is an expression by itself. -/
theorem isAtom_of_isName {kind : TokenKind} (h : kind.isName = true) : kind.isAtom = true := by
  cases kind <;> first | rfl | cases h

theorem mem_all (kind : TokenKind) : kind ∈ all := by
  cases kind <;> decide

theorem mem_keywords_or_mem_operators {kind : TokenKind} (h : kind.spelling?.isSome) :
    kind ∈ keywords ∨ kind ∈ operators := by
  cases kind <;> first | decide | cases h

/-- A keyword is found exactly under its own spelling. -/
theorem keyword?_eq_some_iff {word : String} {kind : TokenKind} :
    keyword? word = some kind ↔ kind ∈ keywords ∧ kind.spelling? = some word := by
  constructor
  · intro h
    exact ⟨List.mem_of_find?_eq_some h, by simpa using List.find?_some h⟩
  · rintro ⟨hmem, hspell⟩
    obtain ⟨found, hfound⟩ : ∃ found, keyword? word = some found := by
      rw [← Option.isSome_iff_exists, keyword?, List.find?_isSome]
      exact ⟨kind, hmem, by simp [hspell]⟩
    have hsame : found.spelling? = kind.spelling? := by
      rw [hspell]; simpa using List.find?_some hfound
    have hfoundMem : found ∈ keywords := List.mem_of_find?_eq_some hfound
    have hinj : ∀ a ∈ keywords, ∀ b ∈ keywords, a.spelling? = b.spelling? → a = b := by decide
    rw [hfound, hinj found hfoundMem kind hmem hsame]

end TokenKind

/-- A token: its kind, its spelling, and where the source has it. -/
structure Token where
  kind : TokenKind
  text : String
  span : Span
  deriving DecidableEq

namespace Token

/-- The token of a kind with a fixed spelling that was read from no source. -/
def synthetic? (kind : TokenKind) : Option Token :=
  kind.spelling?.map fun text => ⟨kind, text, Span.origin⟩

/-- The token without its place in a source. -/
def unplaced (t : Token) : Token := { t with span := Span.origin }

@[simp] theorem unplaced_unplaced (t : Token) : t.unplaced.unplaced = t.unplaced := rfl

theorem synthetic?_eq_none_iff {kind : TokenKind} :
    synthetic? kind = none ↔ kind = .literal ∨ kind = .identifier := by
  cases kind <;> simp [synthetic?, TokenKind.spelling?]

end Token

end ArithLogic
