import ArithLogic.Proofs.Printing.Tokens
import ArithLogic.Proofs.Reading.Completeness
import ArithLogic.Proofs.Reading.Lexing
import ArithLogic.Proofs.Reading.Shape
import ArithLogic.Term.Printer

/-!
# ArithLogic.Proofs.Printing.Text

The text that a term is printed as.  Whatever the width of the lines, it can
be read as the tokens of the term (`Term.reads_render`): a layout differs from
the line that it would be in breaks alone, which are blanks like those that
they stand for, and where no blank stands between two texts one of them is a
parenthesis or a sign.
-/

namespace ArithLogic

open Lexer

/-! ## tokens as they are read -/

section Tokens

theorem lexed_spelled (kind : TokenKind) : lexed kind (spelled kind) = Term.fixedToken kind := by
  rw [lexed, spelled, String.ofList_toList]
  rfl

theorem lexed_word (text : String) :
    lexed (wordKind text.toList) text.toList = Term.wordToken text := by
  rw [lexed, wordKind, String.ofList_toList]
  rfl

theorem lexed_literal (value : Int) :
    lexed .literal (toString value).toList = Term.literalToken value := by
  rw [lexed, String.ofList_toList]
  rfl

variable {rest : List Char} {ts : List Token}

/-- A keyword or an operator in front of what no token goes on with. -/
theorem reads_fixed {kind : TokenKind} (h : kind.spelling?.isSome = true) (hrest : Delimited rest)
    (hread : Reads rest ts) : Reads (kind.spelling.toList ++ rest) (Term.fixedToken kind :: ts) := by
  rw [← lexed_spelled]
  rcases TokenKind.mem_keywords_or_mem_operators h with hkeyword | hoperator
  · have hword : IsWord (spelled kind) ∧ wordKind (spelled kind) = kind := by
      cases kind <;> first
        | exact absurd hkeyword (by decide)
        | exact ⟨isWord_cons (by decide) (by decide), by decide⟩
    have hreads := Reads.word hword.1 hrest hread
    rw [hword.2] at hreads
    exact hreads
  · exact Reads.operator hoperator (fun c hc => hrest.not_mem_extensions hc kind) hread

/-- A word. -/
theorem reads_word {text : String} (h : IsWord text.toList) (hrest : Delimited rest)
    (hread : Reads rest ts) : Reads (text.toList ++ rest) (Term.wordToken text :: ts) := by
  rw [← lexed_word]
  exact Reads.word h hrest hread

theorem toList_toString (n : Nat) : (toString (n : Int)).toList = Nat.toDigits 10 n := by
  rw [← Nat.toList_repr]
  rfl

/-- A negative number is written with a minus in front. -/
theorem toList_toString_negSucc (n : Nat) :
    (toString (Int.negSucc n)).toList = '-' :: (toString ((n + 1 : Nat) : Int)).toList := by
  show ("-" ++ Nat.repr (n + 1)).toList = _
  rw [String.toList_append]
  rfl

/-- A number that is not negative is written with digits. -/
theorem isDigits_toString {value : Int} (h : 0 ≤ value) : IsDigits (toString value).toList := by
  obtain ⟨n, rfl⟩ := Int.eq_ofNat_of_zero_le h
  rw [toList_toString]
  exact ⟨Nat.toDigits_ne_nil, fun c hc => Nat.isDigit_of_mem_toDigits (by decide) (by decide) hc⟩

/-- A literal is read as the number that was printed. -/
theorem integer?_toString {value : Int} (h : 0 ≤ value) :
    Text.integer? (toString value).toList = some value := by
  rw [Text.integer?_of_isDigits (isDigits_toString h)]
  obtain ⟨n, rfl⟩ := Int.eq_ofNat_of_zero_le h
  rw [toList_toString, Text.digitsAfter?_toDigits]
  rfl

/-- A literal. -/
theorem reads_literal {value : Int} (h : 0 ≤ value) (hrest : Delimited rest)
    (hread : Reads rest ts) :
    Reads ((toString value).toList ++ rest) (Term.literalToken value :: ts) := by
  rw [← lexed_literal]
  exact Reads.digits (isDigits_toString h) hrest hread

end Tokens

/-! ## pieces of text -/

section Pieces

variable {σ : Type}

@[simp] theorem toList_plainText_nil : (plainText ([] : List (Piece σ))).toList = [] := by
  simp [plainText]

theorem toList_plainText_cons (piece : Piece σ) (pieces : List (Piece σ)) :
    (plainText (piece :: pieces)).toList = piece.plain.toList ++ (plainText pieces).toList := by
  simp [plainText, String.toList_append]

theorem toList_plainText_append (before behind : List (Piece σ)) :
    (plainText (before ++ behind)).toList =
      (plainText before).toList ++ (plainText behind).toList := by
  simp [plainText, String.toList_append]

/-- A blank or a break is blanks, at least one of them. -/
theorem Piece.exists_blanks {piece : Piece σ} (h : piece.unbroken = .space) :
    ∃ c cs, piece.plain.toList = c :: cs ∧ ∀ d ∈ c :: cs, Text.isBlank d = true := by
  cases piece with
  | text => cases h
  | space => exact ⟨' ', [], by simp [plain], List.all_eq_true.1 (by decide)⟩
  | newline indent =>
    refine ⟨'\n', List.replicate indent ' ', by simp [plain], fun d hd => ?_⟩
    rcases List.mem_cons.1 hd with rfl | hd
    · decide
    · rw [List.eq_of_mem_replicate hd]
      decide

/-- Only a text is laid out as itself. -/
theorem Piece.eq_text {piece : Piece σ} {style : σ} {content : String}
    (h : piece.unbroken = .text style content) : piece = .text style content := by
  cases piece with
  | text => exact h
  | space | newline => cases h

/-- However the pieces are broken into lines, what follows them being readable
after a token, they are read as the tokens. -/
structure PiecesRead (flat : List (Piece σ)) (ts : List Token) : Prop where
  reads : ∀ {pieces : List (Piece σ)} {rest : List Char} {us : List Token},
    pieces.map Piece.unbroken = flat → Delimited rest → Reads rest us →
      Reads ((plainText pieces).toList ++ rest) (ts ++ us)

/-- The first piece is a text that can stand behind a minus. -/
def PiecesBegin : List (Piece σ) → Prop
  | .text _ content :: _ => ∃ c cs, content.toList = c :: cs ∧ c ≠ '>'
  | _ => False

theorem PiecesBegin.append {flat : List (Piece σ)} (h : PiecesBegin flat)
    (behind : List (Piece σ)) : PiecesBegin (flat ++ behind) := by
  cases flat with
  | nil => exact h.elim
  | cons piece flat => cases piece <;> exact h

theorem PiecesBegin.head?_ne {flat pieces : List (Piece σ)} (h : PiecesBegin flat)
    (hpieces : pieces.map Piece.unbroken = flat) {rest : List Char} :
    ((plainText pieces).toList ++ rest).head? ≠ some '>' := by
  subst hpieces
  cases pieces with
  | nil => exact h.elim
  | cons piece pieces =>
    cases piece with
    | text style content =>
      obtain ⟨c, cs, hcontent, hc⟩ := h
      rw [toList_plainText_cons, Piece.plain, hcontent]
      simpa using hc
    | space | newline => exact h.elim

namespace PiecesRead

variable {flat before behind : List (Piece σ)} {ts us : List Token} {style : σ} {content : String}

/-- A text that is a token wherever no token goes on. -/
theorem text {token : Token} (h : ∀ {rest : List Char} {us : List Token}, Delimited rest →
    Reads rest us → Reads (content.toList ++ rest) (token :: us)) :
    PiecesRead [.text style content] [token] := by
  refine ⟨fun {pieces rest us} hpieces hrest hread => ?_⟩
  obtain ⟨piece, rfl, hpiece⟩ := List.map_eq_singleton_iff.1 hpieces
  rw [Piece.eq_text hpiece, toList_plainText_cons, toList_plainText_nil, List.append_nil]
  exact h hrest hread

/-- Pieces with a blank or a break between them. -/
theorem spaced (hbefore : PiecesRead before ts) (hbehind : PiecesRead behind us) :
    PiecesRead (before ++ .space :: behind) (ts ++ us) := by
  refine ⟨fun {pieces rest vs} hpieces hrest hread => ?_⟩
  obtain ⟨first, tail, rfl, hfirst, htail⟩ := List.map_eq_append_iff.1 hpieces
  obtain ⟨blank, last, rfl, hblank, hlast⟩ := List.map_eq_cons_iff.1 htail
  obtain ⟨c, cs, hchars, hblanks⟩ := blank.exists_blanks hblank
  rw [toList_plainText_append, toList_plainText_cons, hchars, List.append_assoc, List.append_assoc,
    List.append_assoc]
  refine hbefore.reads hfirst ?_ (.blanks hblanks (hbehind.reads hlast hrest hread))
  rintro d ⟨⟩
  exact .inl (hblanks c List.mem_cons_self)

/-- A parenthesis closes right after the pieces. -/
theorem closed (h : PiecesRead flat ts) :
    PiecesRead (flat ++ [.text style TokenKind.closeParen.spelling])
      (ts ++ [Term.fixedToken .closeParen]) := by
  refine ⟨fun {pieces rest us} hpieces hrest hread => ?_⟩
  obtain ⟨first, tail, rfl, hfirst, htail⟩ := List.map_eq_append_iff.1 hpieces
  obtain ⟨piece, rfl, hpiece⟩ := List.map_eq_singleton_iff.1 htail
  rw [toList_plainText_append, Piece.eq_text hpiece, toList_plainText_cons, toList_plainText_nil,
    List.append_nil, List.append_assoc, List.append_assoc]
  have hspelled : spelled .closeParen = [')'] := by decide
  refine h.reads hfirst ?_ ?_
  · show Delimited (spelled .closeParen ++ rest)
    rw [hspelled]
    rintro d ⟨⟩
    exact .inr rfl
  · exact Reads.operator (by decide) (by simp [extensions]) hread

/-- A sign or a parenthesis stands right before the pieces. -/
theorem opened {kind : TokenKind} (hkind : kind = .openParen ∨ kind = .plus ∨ kind = .minus)
    (h : PiecesRead flat ts) (hbegin : PiecesBegin flat) :
    PiecesRead (.text style kind.spelling :: flat) (Term.fixedToken kind :: ts) := by
  refine ⟨fun {pieces rest us} hpieces hrest hread => ?_⟩
  obtain ⟨piece, tail, rfl, hpiece, htail⟩ := List.map_eq_cons_iff.1 hpieces
  rw [Piece.eq_text hpiece, toList_plainText_cons, List.append_assoc]
  have hoperator : kind ∈ TokenKind.operators := by
    rcases hkind with rfl | rfl | rfl <;> decide
  have hextensions : ∀ c ∈ extensions kind, c = '>' := by
    rcases hkind with rfl | rfl | rfl <;> simp [extensions]
  rw [← lexed_spelled]
  refine Reads.operator hoperator (fun c hc hmem => ?_) (h.reads htail hrest hread)
  rw [hextensions c hmem] at hc
  exact hbegin.head?_ne htail hc

end PiecesRead

end Pieces

/-! ## terms -/

namespace Term

/-- How an operation is printed on one line. -/
theorem flat_infixDoc (kind : NodeKind) (op : TokenKind) (left right : Doc Style) :
    ∃ style, (infixDoc kind op left right).flat =
      left.flat ++ .space :: ([.text style op.spelling] ++ .space :: right.flat) := by
  unfold infixDoc symbolDoc
  cases kind.isLogical <;> exact ⟨_, rfl⟩

/-- How an operand is printed on one line. -/
theorem flat_operandDoc (needed : Bool) (body : Nat → Doc Style) (depth : Nat) :
    (operandDoc needed body depth).flat =
      if needed then
        .text (.paren depth) TokenKind.openParen.spelling ::
          ((body (depth + 1)).flat ++ [.text (.paren depth) TokenKind.closeParen.spelling])
      else (body depth).flat := by
  cases needed <;> rfl

/-- A keyword or an operator with which a term begins. -/
theorem piecesBegin_fixed {kind : TokenKind} {style : Style} {behind : List (Piece Style)}
    (h : kind.spelling.toList.head?.any (· != '>') = true) :
    PiecesBegin (.text style kind.spelling :: behind) := by
  show ∃ c cs, kind.spelling.toList = c :: cs ∧ c ≠ '>'
  cases hchars : kind.spelling.toList with
  | nil => rw [hchars] at h; cases h
  | cons c cs => exact ⟨c, cs, rfl, by simpa [hchars] using h⟩

theorem piecesBegin_operand {needed : Bool} {body : Nat → Doc Style} {depth : Nat}
    (h : ∀ depth, PiecesBegin (body depth).flat) :
    PiecesBegin (operandDoc needed body depth).flat := by
  rw [flat_operandDoc]
  split
  · exact piecesBegin_fixed (by decide)
  · exact h depth

theorem piecesBegin_operation {kind : NodeKind} {op : TokenKind} {left right : Doc Style}
    (h : PiecesBegin left.flat) : PiecesBegin (infixDoc kind op left right).flat := by
  obtain ⟨style, hflat⟩ := flat_infixDoc kind op left right
  rw [hflat]
  exact h.append _

theorem piecesBegin_literal {value : Int} (h : 0 ≤ value) :
    PiecesBegin (literalDoc value).flat := by
  obtain ⟨hne, hall⟩ := isDigits_toString h
  obtain ⟨c, cs, hchars⟩ := List.exists_cons_of_ne_nil hne
  refine ⟨c, cs, hchars, ?_⟩
  rintro rfl
  exact absurd (hall '>' (by rw [hchars]; exact List.mem_cons_self)) (by decide)

/-- A printed term can stand behind a minus. -/
theorem piecesBegin {t : Term} (hp : t.Printable) (depth : Nat) : PiecesBegin (t.doc depth).flat := by
  induction t generalizing depth with
  | id name | var name =>
    obtain ⟨c, cs, hchars, hstart, -⟩ := hp.1
    exact ⟨c, cs, hchars, by rintro rfl; exact absurd hstart (by decide)⟩
  | bool value => cases value <;> exact ⟨_, _, rfl, by decide⟩
  | int value => exact piecesBegin_literal hp
  | type ty => cases ty <;> exact ⟨_, _, rfl, by decide⟩
  | additive _ _ _ ihl | relation _ _ _ ihl | connective _ _ _ ihl =>
    exact piecesBegin_operation (piecesBegin_operand (ihl hp.1))
  | scaling op factor t ih =>
    cases op with
    | mul => exact piecesBegin_operation (piecesBegin_literal hp.1)
    | div => exact piecesBegin_operation (piecesBegin_operand (ih hp.2))
  | sign op => cases op <;> exact piecesBegin_fixed (by decide)
  | not => exact piecesBegin_fixed (by decide)
  | bind => exact hp.elim
  | quantifier op => cases op <;> exact piecesBegin_fixed (by decide)

/-- A keyword, an operator or a punctuation mark. -/
theorem piecesRead_fixed {kind : TokenKind} {style : Style}
    (h : kind.spelling?.isSome = true) :
    PiecesRead [.text style kind.spelling] [fixedToken kind] :=
  .text fun hrest hread => reads_fixed h hrest hread

/-- A name. -/
theorem piecesRead_name {text : String} {style : Style} (h : IsWord text.toList) :
    PiecesRead [.text style text] [wordToken text] :=
  .text fun hrest hread => reads_word h hrest hread

theorem piecesRead_type (ty : Ty) : PiecesRead (typeDoc ty).flat [wordToken ty.spelling] :=
  piecesRead_name ty.isWord_spelling

theorem piecesRead_literal {value : Int} (h : 0 ≤ value) :
    PiecesRead (literalDoc value).flat [literalToken value] :=
  .text fun hrest hread => reads_literal h hrest hread

/-- An operand, with or without parentheses. -/
theorem piecesRead_operand {needed : Bool} {body : Nat → Doc Style} {ts : List Token} {depth : Nat}
    (h : ∀ depth, PiecesRead (body depth).flat ts)
    (hbegin : ∀ depth, PiecesBegin (body depth).flat) :
    PiecesRead (operandDoc needed body depth).flat (operandTokens needed ts) := by
  rw [flat_operandDoc, operandTokens]
  split
  · exact .opened (.inl rfl) (h _).closed ((hbegin _).append _)
  · exact h depth

/-- An operation, whose operator stands between blanks. -/
theorem piecesRead_operation {kind : NodeKind} {op : TokenKind} {left right : Doc Style}
    {ls rs : List Token} (hop : op.spelling?.isSome = true) (hl : PiecesRead left.flat ls)
    (hr : PiecesRead right.flat rs) :
    PiecesRead (infixDoc kind op left right).flat (ls ++ fixedToken op :: rs) := by
  obtain ⟨style, hflat⟩ := flat_infixDoc kind op left right
  rw [hflat]
  exact hl.spaced ((piecesRead_fixed hop).spaced hr)

/-- What is printed of a term is read as its tokens. -/
theorem piecesRead {t : Term} (hp : t.Printable) (depth : Nat) :
    PiecesRead (t.doc depth).flat t.tokens := by
  induction t generalizing depth with
  | id name | var name => exact piecesRead_name hp.1
  | bool value =>
    have hkind : (if value then TokenKind.kwTrue else .kwFalse).spelling?.isSome = true := by
      cases value <;> rfl
    have hword : PiecesRead [.text Style.literal _] [fixedToken _] := piecesRead_fixed hkind
    cases value <;> exact hword
  | int value => exact piecesRead_literal hp
  | type ty => exact piecesRead_type ty
  | additive op l r ihl ihr | relation op l r ihl ihr | connective op l r ihl ihr =>
    exact piecesRead_operation (by cases op <;> rfl) (piecesRead_operand (ihl hp.1) (piecesBegin hp.1))
      (piecesRead_operand (ihr hp.2) (piecesBegin hp.2))
  | scaling op factor t ih =>
    cases op with
    | mul =>
      exact piecesRead_operation rfl (piecesRead_literal hp.1)
        (piecesRead_operand (ih hp.2) (piecesBegin hp.2))
    | div =>
      exact piecesRead_operation rfl (piecesRead_operand (ih hp.2) (piecesBegin hp.2))
        (piecesRead_literal hp.1)
  | sign op t ih =>
    have hop : op.token = .openParen ∨ op.token = .plus ∨ op.token = .minus := by
      cases op <;> decide
    exact .opened hop (piecesRead_operand (ih hp) (piecesBegin hp))
      (piecesBegin_operand (piecesBegin hp))
  | not t ih =>
    have hnot : PiecesRead [.text Style.keyword TokenKind.kwNot.spelling] [fixedToken .kwNot] :=
      piecesRead_fixed rfl
    exact hnot.spaced (piecesRead_operand (ih hp) (piecesBegin hp))
  | bind => exact hp.elim
  | quantifier op name ty body ih =>
    have hop : op.token.spelling?.isSome = true := by cases op <;> rfl
    have hword : PiecesRead [.text Style.keyword op.token.spelling] [fixedToken op.token] :=
      piecesRead_fixed hop
    have hname : PiecesRead [.text Style.name name.text] [wordToken name.text] := piecesRead_name hp.1.1
    have hcolon : PiecesRead [.text Style.punctuation TokenKind.colon.spelling] [fixedToken .colon] :=
      piecesRead_fixed rfl
    have hdot : PiecesRead [.text Style.punctuation TokenKind.dot.spelling] [fixedToken .dot] :=
      piecesRead_fixed rfl
    have hwhole := hword.spaced (hname.spaced (hcolon.spaced ((piecesRead_type ty).spaced
      (hdot.spaced (ih hp.2 depth)))))
    cases op <;> exact hwhole

end Term

/-- The text of a term can be read as the tokens of the term, whatever the
width of the lines. -/
theorem Term.reads_render {t : Term} (hp : t.Printable) (width : Nat) :
    Reads (t.render width).toList t.tokens := by
  have hend : Delimited [] := by simp [Delimited]
  have hread := (piecesRead hp 0).reads (Doc.map_unbroken_layout (t.doc 0) width 0 0 0) hend .nil
  rw [List.append_nil, List.append_nil] at hread
  exact hread

/-- Reading the text of a term gives the surface tree of the term, but for
places and for parentheses around operands. -/
theorem Term.exists_parseExpression {t : Term} (hp : t.Printable) (width : Nat) :
    ∃ tree, parseExpression (t.render width) = .ok tree ∧ Written t tree ∧ tree.IsExpression := by
  obtain ⟨ts, htokens, hts⟩ := (reads_render hp width).tokenize
  obtain ⟨tree, hderives, hwritten⟩ := exists_written hp hts
  refine ⟨tree, ?_, hwritten, hderives.isExpression (wellSpelled_of_tokenize htokens)⟩
  rw [parseExpression, htokens]
  exact (hderives.mono (Nat.zero_le _)).expressionOfTokens _

end ArithLogic
