import ArithLogic.SyntaxError
import ArithLogic.Text.Blank

/-!
# ArithLogic.Token.Lexer

From text to tokens.  Between tokens stands *trivia*: blanks, and comments
from `//` to before the next line feed.  `triviaLength` measures the trivia a
text starts with, `lexeme?` the token it starts with, and `tokensFrom`
alternates the two, so that what it reads tiles the text.  It stops at the
first character that starts neither.
-/

namespace ArithLogic.Lexer

open Text

/-! ## characters -/

/-- The characters that can begin a word. -/
def isWordStart (c : Char) : Bool := c.isAlpha || c == '_'

/-- The characters that can continue a word. -/
def isWordChar (c : Char) : Bool := c.isAlphanum || c == '_'

/-- The number of UTF-8 bytes of a text. -/
def byteLength : List Char → Nat
  | [] => 0
  | c :: cs => c.utf8Size + byteLength cs

@[simp] theorem byteLength_nil : byteLength [] = 0 := rfl

@[simp] theorem byteLength_cons (c : Char) (cs : List Char) :
    byteLength (c :: cs) = c.utf8Size + byteLength cs := rfl

@[simp] theorem byteLength_append (as bs : List Char) :
    byteLength (as ++ bs) = byteLength as + byteLength bs := by
  induction as with
  | nil => simp
  | cons c as ih => simp [ih, Nat.add_assoc]

/-! ## trivia -/

/-- The number of characters of trivia at the beginning of a text;
`inComment` tells whether the text begins inside a comment. -/
def triviaLength (inComment : Bool) : List Char → Nat
  | [] => 0
  | c :: cs =>
    if inComment then triviaLength (c != '\n') cs + 1
    else if isBlank c then triviaLength false cs + 1
    else if c == '/' && cs.head? == some '/' then triviaLength true cs + 1
    else 0

theorem triviaLength_le_length (inComment : Bool) (cs : List Char) :
    triviaLength inComment cs ≤ cs.length := by
  induction cs generalizing inComment with
  | nil => simp [triviaLength]
  | cons c cs ih =>
    have hnext := ih (c != '\n')
    have hblank := ih false
    have hcomment := ih true
    simp only [triviaLength, List.length_cons]
    repeat' split
    all_goals omega

/-! ## lexemes -/

/-- The characters of a kind's spelling, none for literals and names. -/
def spelled (kind : TokenKind) : List Char := kind.spelling.toList

/-- The operator a text starts with; the longest comes first. -/
def operator? (cs : List Char) : Option TokenKind :=
  TokenKind.operators.find? fun kind => (spelled kind).isPrefixOf cs

/-- The kind of a whole word: a keyword, or a name. -/
def wordKind (word : List Char) : TokenKind :=
  (TokenKind.keyword? (String.ofList word)).getD .identifier

/-- The token at the beginning of a text, as its kind and its characters. -/
def lexeme? (cs : List Char) : Option (TokenKind × List Char) :=
  match operator? cs with
  | some kind => some (kind, spelled kind)
  | none =>
    match cs with
    | [] => none
    | c :: _ =>
      if isWordStart c then
        let word := cs.takeWhile isWordChar
        some (wordKind word, word)
      else if c.isDigit then some (.literal, cs.takeWhile Char.isDigit)
      else none

theorem spelled_ne_nil_of_mem_operators : ∀ kind ∈ TokenKind.operators, spelled kind ≠ [] := by
  decide

theorem isWordChar_of_isWordStart {c : Char} (h : isWordStart c) : isWordChar c := by
  simp only [isWordStart, isWordChar, Char.isAlphanum, Bool.or_eq_true] at *
  exact h.elim (fun ha => .inl (.inl ha)) .inr

/-- What a token is made of stands at the beginning of the text. -/
theorem prefix_of_lexeme? {cs lexeme : List Char} {kind : TokenKind}
    (h : lexeme? cs = some (kind, lexeme)) : lexeme <+: cs := by
  unfold lexeme? at h
  split at h
  · next found hop =>
    cases h
    exact List.isPrefixOf_iff_prefix.1
      (List.find?_some (p := fun k => (spelled k).isPrefixOf cs) hop)
  · split at h
    · simp at h
    · split at h
      · cases h; exact List.takeWhile_prefix _
      · split at h
        · cases h; exact List.takeWhile_prefix _
        · simp at h

/-- A token has at least one character. -/
theorem lexeme_ne_nil {cs lexeme : List Char} {kind : TokenKind}
    (h : lexeme? cs = some (kind, lexeme)) : lexeme ≠ [] := by
  unfold lexeme? at h
  split at h
  · next found hop =>
    cases h
    exact spelled_ne_nil_of_mem_operators _ (List.mem_of_find?_eq_some hop)
  · split at h
    · simp at h
    · split at h
      · next hstart =>
        cases h
        simp [isWordChar_of_isWordStart hstart]
      · split at h
        · next hdigit => cases h; simp [hdigit]
        · simp at h

/-! ## errors -/

/-- What could have continued a token that ends right before the error. -/
def continuations : TokenKind → List Expected
  | .literal => [.digit]
  | .less => [.character '-', .character '=']
  | .greater | .assign => [.character '=']
  | .minus => [.character '>']
  | kind => if kind = .identifier ∨ kind ∈ TokenKind.keywords then [.otherCharacter] else []

/-- What can begin a token or a comment, or end the text. -/
def beginnings : List Expected :=
  [.character '/', .character '<', .character '-', .character '>', .character '=',
    .character '!', .character '+', .character '*', .character '(', .character ')',
    .character '.', .character ':', .character ';', .token .identifier, .digit, .endOfInput]

/-- Everything expected in place of a character that begins no token, after
the token that ends right before it, if there is one. -/
def expectedAfter (last : Option TokenKind) : List Expected :=
  let first := (last.map continuations).getD []
  first ++ beginnings.filter fun item => item ∉ first

/-- The error at a character `c` that begins no token, followed by `cs`.  A
`!` begins `!=`, so the error of a lone one is at what follows it. -/
def refuse (start : Nat) (last : Option TokenKind) (c : Char) (cs : List Char) : SyntaxError :=
  if c = '!' then
    let after := start + c.utf8Size
    match cs with
    | [] => ⟨.lexing, .endOfInput, [.character '='], ⟨after, after⟩⟩
    | d :: _ => ⟨.lexing, .character d, [.character '='], ⟨after, after + d.utf8Size⟩⟩
  else ⟨.lexing, .character c, expectedAfter last, ⟨start, start + c.utf8Size⟩⟩

/-! ## the whole text -/

/-- The tokens of a text that starts at byte `start`; `last` is the kind of
the token that ends right there, if one does. -/
def tokensFrom (start : Nat) (last : Option TokenKind) (cs : List Char) :
    Except SyntaxError (List Token) :=
  let skipped := triviaLength false cs
  let here := start + byteLength (cs.take skipped)
  match _hrest : cs.drop skipped with
  | [] => .ok []
  | c :: rest =>
    match _hlex : lexeme? (c :: rest) with
    | none => .error (refuse here (if skipped = 0 then last else none) c rest)
    | some (kind, lexeme) =>
      let stop := here + byteLength lexeme
      (tokensFrom stop (some kind) ((c :: rest).drop lexeme.length)).map
        (⟨kind, String.ofList lexeme, ⟨here, stop⟩⟩ :: ·)
termination_by cs.length
decreasing_by
  have hpos : 0 < lexeme.length := List.length_pos_iff.2 (lexeme_ne_nil _hlex)
  have hlen : (cs.drop skipped).length = rest.length + 1 := by rw [_hrest]; rfl
  rw [List.length_drop] at hlen
  simp only [List.length_drop, List.length_cons]
  omega

end ArithLogic.Lexer

namespace ArithLogic

/-- The tokens of a source text, or the one error at the first place where no
token begins. -/
def tokenize (source : String) : Except SyntaxError (List Token) :=
  Lexer.tokensFrom 0 none source.toList

end ArithLogic
