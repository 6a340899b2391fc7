import ArithLogic.Proofs.Bracketing
import ArithLogic.Proofs.Printing.Lines

/-!
# ArithLogic.Proofs.Printing.Colors

Printed terms in colours.  Styles have no influence on where the lines end
(`Doc.layout_restyle`), and without the escape sequences that show them a coloured
text is the plain one (`withoutEscapes_coloredText`).  The parentheses of a term are
brackets, and the style of each says within how many others it stands
(`Term.balanced_pieces`).
-/

namespace ArithLogic

open Lexer

/-! ## styles and layout -/

section Restyled

variable {σ τ : Type} (f : σ → τ)

/-- The document in other styles. -/
def Doc.restyle : Doc σ → Doc τ
  | text style content => .text (f style) content
  | space => .space
  | line => .line
  | append first second => .append first.restyle second.restyle
  | nest columns body => .nest columns body.restyle
  | group body => .group body.restyle

/-- The piece in another style. -/
def Piece.restyle : Piece σ → Piece τ
  | text style content => .text (f style) content
  | space => .space
  | newline indent => .newline indent

theorem plainText_restyle (pieces : List (Piece σ)) :
    plainText (pieces.map (Piece.restyle f)) = plainText pieces := by
  have hplain : Piece.plain ∘ Piece.restyle f = Piece.plain := by
    funext piece
    cases piece <;> rfl
  rw [plainText, List.map_map, hplain]
  rfl

namespace Doc

theorem flatWidth_restyle (doc : Doc σ) : (doc.restyle f).flatWidth = doc.flatWidth := by
  induction doc with
  | append a b iha ihb => rw [restyle, flatWidth, iha, ihb, flatWidth]
  | nest _ _ ih | group _ ih => exact ih
  | text | space | line => rfl

theorem flat_restyle (doc : Doc σ) : (doc.restyle f).flat = doc.flat.map (Piece.restyle f) := by
  induction doc with
  | append a b iha ihb => rw [restyle, flat, iha, ihb, flat, List.map_append]
  | nest _ _ ih | group _ ih => exact ih
  | text | space | line => rfl

theorem lead_restyle (doc : Doc σ) : (doc.restyle f).lead = doc.lead := by
  induction doc with
  | append a b iha ihb => rw [restyle, lead, iha, ihb, lead]
  | nest _ _ ih | group _ ih => exact ih
  | text | space | line => rfl

theorem reach_restyle (doc : Doc σ) (after : Nat) :
    (doc.restyle f).reach after = doc.reach after := by
  rw [reach, lead_restyle, reach]

theorem fits_restyle (doc : Doc σ) (limit after column : Nat) :
    (doc.restyle f).fits limit after column = doc.fits limit after column := by
  rw [fits, remaining?_eq, flatWidth_restyle, fits, remaining?_eq]

/-- In other styles a document is laid out alike. -/
theorem layout_restyle (doc : Doc σ) (limit indent after column : Nat) :
    (doc.restyle f).layout limit indent after column =
      (doc.layout limit indent after column).map (List.map (Piece.restyle f)) id := by
  induction doc generalizing indent after column with
  | text | space | line => rfl
  | append a b iha ihb =>
    simp only [restyle, layout, reach_restyle, iha, ihb, Prod.map, id_eq, List.map_append]
  | nest _ _ ih => exact ih ..
  | group body ih =>
    simp only [restyle, layout, fits_restyle, flatWidth_restyle, flat_restyle, ih]
    split <;> rfl

theorem pieces_restyle (doc : Doc σ) (limit : Nat) :
    (doc.restyle f).pieces limit = (doc.pieces limit).map (Piece.restyle f) := by
  rw [pieces, layout_restyle]
  rfl

end Doc

end Restyled

/-! ## escape sequences -/

/-- Where a reader is who leaves out the escape sequences of a text. -/
inductive EscapeState
  /-- In the text itself. -/
  | text
  /-- Behind an escape character. -/
  | escape
  /-- Among the parameters of a control sequence. -/
  | control

/-- A character that ends a control sequence. -/
def isFinal (c : Char) : Bool := 0x40 ≤ c.toNat && c.toNat ≤ 0x7e

/-- The text without its escape sequences: an escape character and what follows it,
and if this is a bracket, the control sequence that it opens. -/
def withoutEscapes : EscapeState → List Char → List Char
  | _, [] => []
  | .text, c :: cs =>
    if c = '\x1b' then withoutEscapes .escape cs else c :: withoutEscapes .text cs
  | .escape, c :: cs => withoutEscapes (if c = '[' then .control else .text) cs
  | .control, c :: cs => withoutEscapes (if isFinal c then .text else .control) cs

/-- The text consists of escape sequences. -/
def Vanishes (cs : List Char) : Prop :=
  ∀ ds, withoutEscapes .text (cs ++ ds) = withoutEscapes .text ds

theorem isFinal_eq_false_of_isDigit {c : Char} (h : c.isDigit = true) : isFinal c = false := by
  simp only [Char.isDigit_iff_toNat, Char.reduceToNat] at h
  simp only [isFinal, Bool.and_eq_false_iff, decide_eq_false_iff_not]
  omega

namespace Vanishes

variable {cs ds : List Char}

theorem nil : Vanishes [] := fun _ => rfl

theorem append (h : Vanishes cs) (h' : Vanishes ds) : Vanishes (cs ++ ds) := by
  intro rest
  rw [List.append_assoc, h, h']

/-- The numbers in a sequence that selects how text is shown are parameters. -/
theorem parameters (h : cs.all Char.isDigit = true) (rest : List Char) :
    withoutEscapes .control (cs ++ 'm' :: rest) = withoutEscapes .text rest := by
  induction cs with
  | nil => rfl
  | cons c cs ih =>
    rw [List.all_cons, Bool.and_eq_true] at h
    rw [List.cons_append, withoutEscapes, isFinal_eq_false_of_isDigit h.1]
    exact ih h.2

/-- A sequence that selects how text is shown. -/
theorem selection (digits : List Char) (h : digits.all Char.isDigit = true) :
    Vanishes ('\x1b' :: '[' :: (digits ++ ['m'])) := by
  intro rest
  rw [List.cons_append, List.cons_append, List.append_assoc, withoutEscapes, if_pos rfl,
    withoutEscapes, if_pos rfl]
  exact parameters h rest

end Vanishes

namespace Style

theorem vanishes_reset : Vanishes reset.toList := .selection ['0'] (by decide)

/-- What begins a style is not seen. -/
theorem vanishes_escape (style : Style) : Vanishes style.escape.toList := by
  have hbold : Vanishes (if style.isBold then "\x1b[1m" else "").toList := by
    split
    · exact .selection ['1'] (by decide)
    · exact .nil
  have hdimmed : Vanishes (if style.isDimmed then "\x1b[2m" else "").toList := by
    split
    · exact .selection ['2'] (by decide)
    · exact .nil
  have hcolor : ∀ color : Color, Vanishes (s!"\x1b[3{color.digit}m").toList := by
    intro color
    have hchars : (s!"\x1b[3{color.digit}m").toList =
        '\x1b' :: '[' :: (['3', color.digit.digitChar] ++ ['m']) := by
      cases color <;> decide
    rw [hchars]
    exact .selection _ (by cases color <;> decide)
  rw [escape, String.toList_append, String.toList_append, String.toList_append]
  refine ((vanishes_reset.append hbold).append hdimmed).append ?_
  split
  · exact hcolor _
  · exact .nil

end Style

section Escapes

variable {cs : List Char} {piece : Piece Style} {pieces : List (Piece Style)}

/-- A text without escape characters is all there. -/
theorem withoutEscapes_append (h : ∀ c ∈ cs, c ≠ '\x1b') (ds : List Char) :
    withoutEscapes .text (cs ++ ds) = cs ++ withoutEscapes .text ds := by
  induction cs with
  | nil => rfl
  | cons c cs ih =>
    rw [List.forall_mem_cons] at h
    rw [List.cons_append, withoutEscapes, if_neg h.1, ih h.2, List.cons_append]

/-- Of a coloured piece its text is left. -/
theorem withoutEscapes_colored (h : ∀ c ∈ piece.plain.toList, c ≠ '\x1b') (ds : List Char) :
    withoutEscapes .text (piece.colored.toList ++ ds) =
      piece.plain.toList ++ withoutEscapes .text ds := by
  cases piece with
  | text style content =>
    have hcontent : ∀ c ∈ content.toList, c ≠ '\x1b' := h
    rw [Piece.colored, String.toList_append, String.toList_append, List.append_assoc,
      List.append_assoc, style.vanishes_escape, withoutEscapes_append hcontent,
      Style.vanishes_reset, Piece.plain]
  | space | newline => exact withoutEscapes_append h ds

/-- Without its escape sequences a coloured text is the plain one. -/
theorem withoutEscapes_coloredText (h : ∀ piece ∈ pieces, ∀ c ∈ piece.plain.toList, c ≠ '\x1b') :
    withoutEscapes .text (coloredText pieces).toList = (plainText pieces).toList := by
  induction pieces with
  | nil => simp [coloredText, withoutEscapes]
  | cons piece pieces ih =>
    rw [List.forall_mem_cons] at h
    have hcolored : (coloredText (piece :: pieces)).toList =
        piece.colored.toList ++ (coloredText pieces).toList := by
      simp [coloredText, String.toList_append]
    rw [hcolored, withoutEscapes_colored h.1, ih h.2, toList_plainText_cons]

example : withoutEscapes .text ("\x1b[0m\x1b[1m\x1b[36mnot\x1b[0m p").toList = ("not p").toList := by
  decide

end Escapes

/-! ## parentheses -/

/-- Neither a parenthesis nor the beginning of an escape sequence. -/
def isNeutral (c : Char) : Bool := c != '(' && c != ')' && c != '\x1b'

theorem isNeutral_iff {c : Char} : isNeutral c = true ↔ c ≠ '(' ∧ c ≠ ')' ∧ c ≠ '\x1b' := by
  simp [isNeutral, and_assoc]

/-- So are the characters of a class to which none of these belongs. -/
theorem isNeutral_of {p : Char → Bool} {c : Char} (h : p c = true)
    (hothers : (p '(' || p ')' || p '\x1b') = false) : isNeutral c = true := by
  simp only [Bool.or_eq_false_iff] at hothers
  rw [isNeutral_iff]
  refine ⟨?_, ?_, ?_⟩
  · rintro rfl
    cases h.symm.trans hothers.1.1
  · rintro rfl
    cases h.symm.trans hothers.1.2
  · rintro rfl
    cases h.symm.trans hothers.2

/-- A piece without parentheses and escape sequences, which is not in the style of the
former either. -/
def Piece.IsNeutral : Piece Style → Prop
  | .text (.paren _) _ => False
  | .text _ content => content.toList.all isNeutral = true
  | .space | .newline _ => True

/-- Parentheses in the style of the depth at which they stand. -/
def styledParens : Brackets (Piece Style) where
  opening depth := .text (.paren depth) "("
  closing depth := .text (.paren depth) ")"
  Other := Piece.IsNeutral

/-- Parentheses as they are written. -/
def parens : Brackets Char where
  opening _ := '('
  closing _ := ')'
  Other c := c ≠ '(' ∧ c ≠ ')'

section Parens

variable {piece : Piece Style} {pieces before behind : List (Piece Style)} {style : Style}
  {depth last here : Nat} {cs : List Char}

/-- Blanks and breaks are neutral. -/
theorem Piece.isNeutral_of_blank (h : piece.unbroken = .space) {c : Char}
    (hc : c ∈ piece.plain.toList) : isNeutral c = true := by
  obtain ⟨first, rest, hchars, hblanks⟩ := piece.exists_blanks h
  rw [hchars] at hc
  exact isNeutral_of (hblanks c hc) (by decide)

theorem Piece.IsNeutral.of_mem (h : piece.IsNeutral) {c : Char} (hc : c ∈ piece.plain.toList) :
    isNeutral c = true := by
  cases piece with
  | text style content =>
    have hall : content.toList.all isNeutral = true := by
      cases style with
      | paren => exact h.elim
      | _ => exact h
    exact List.all_eq_true.1 hall c hc
  | space | newline => exact Piece.isNeutral_of_blank rfl hc

/-- A text that consists of one parenthesis is that parenthesis, in its style. -/
theorem style_of_fits_opening (h : styledParens.Fits here (.text style "(")) :
    style = .paren here := by
  rcases h with h | h | ⟨outer, -, h⟩
  · exact absurd (h.of_mem (show '(' ∈ ("(").toList by decide)) (by decide)
  · exact (Piece.text.inj h).1
  · exact absurd (Piece.text.inj h).2 (by decide)

theorem style_of_fits_closing (h : styledParens.Fits here (.text style ")")) :
    ∃ outer, here = outer + 1 ∧ style = .paren outer := by
  rcases h with h | h | ⟨outer, hhere, h⟩
  · exact absurd (h.of_mem (show ')' ∈ (")").toList by decide)) (by decide)
  · exact absurd (Piece.text.inj h).2 (by decide)
  · exact ⟨outer, hhere, (Piece.text.inj h).1⟩

/-- Pieces are written as their texts. -/
theorem writes_plain : styledParens.Writes parens fun piece => piece.plain.toList where
  opening _ := show ("(").toList = ['('] by decide
  closing _ := show (")").toList = [')'] by decide
  other _ hpiece _ hc :=
    have hneutral := isNeutral_iff.1 (Piece.IsNeutral.of_mem hpiece hc)
    ⟨hneutral.1, hneutral.2.1⟩

theorem toList_plainText (pieces : List (Piece Style)) :
    (plainText pieces).toList = pieces.flatMap fun piece => piece.plain.toList := by
  induction pieces with
  | nil => exact toList_plainText_nil
  | cons piece pieces ih => rw [toList_plainText_cons, ih, List.flatMap_cons]

theorem toList_plainText_opening (style : Style) (pieces : List (Piece Style)) :
    (plainText (.text style "(" :: pieces)).toList = '(' :: (plainText pieces).toList := by
  rw [toList_plainText_cons, Piece.plain, show ("(").toList = ['('] by decide,
    List.singleton_append]

/-- The depth is the number of parentheses that are open. -/
theorem count_of_leads (h : parens.Leads depth cs last) :
    depth + cs.count '(' = last + cs.count ')' := by
  induction h with
  | nil => rfl
  | other hother _ ih => rw [List.count_cons_of_ne hother.1, List.count_cons_of_ne hother.2, ih]
  | opening _ ih =>
    simp only [parens, List.count_cons_self, List.count_cons_of_ne (show '(' ≠ ')' by decide)]
    omega
  | closing _ ih =>
    simp only [parens, List.count_cons_self, List.count_cons_of_ne (show ')' ≠ '(' by decide)]
    omega

/-- Nothing in the text of the pieces is an escape sequence. -/
theorem ne_escape_of_balanced (h : styledParens.Balanced depth pieces) :
    ∀ piece ∈ pieces, ∀ c ∈ piece.plain.toList, c ≠ '\x1b' := by
  intro piece hpiece c hc
  obtain ⟨here, hneutral | rfl | ⟨outer, -, rfl⟩⟩ := h.leads.fits_of_mem hpiece
  · exact (isNeutral_iff.1 (Piece.IsNeutral.of_mem hneutral hc)).2.2
  · have hchar : c ∈ ("(").toList := hc
    rw [show ("(").toList = ['('] by decide, List.mem_singleton] at hchar
    rw [hchar]
    decide
  · have hchar : c ∈ (")").toList := hc
    rw [show (")").toList = [')'] by decide, List.mem_singleton] at hchar
    rw [hchar]
    decide

/-- In front of each piece so many parentheses are open as its style says. -/
theorem exists_open (h : styledParens.Balanced 0 (before ++ piece :: behind)) :
    ∃ here, (plainText before).toList.count '(' = (plainText before).toList.count ')' + here ∧
      styledParens.Fits here piece := by
  obtain ⟨here, hbefore, hfits⟩ := h.leads.exists_at
  have hcount := count_of_leads (hbefore.flatMap writes_plain)
  rw [← toList_plainText] at hcount
  exact ⟨here, by omega, hfits⟩

/-- Line ends stand for blanks, which are no parentheses. -/
theorem balanced_of_unbroken {flat : List (Piece Style)} (h : styledParens.Balanced depth flat)
    (hflat : pieces.map Piece.unbroken = flat) : styledParens.Balanced depth pieces := by
  induction h generalizing pieces with
  | nil =>
    rw [List.map_eq_nil_iff.1 hflat]
    exact .nil
  | other hneutral _ ih =>
    obtain ⟨piece, tail, rfl, rfl, htail⟩ := List.map_eq_cons_iff.1 hflat
    have hpiece : piece.IsNeutral := by
      cases piece with
      | text => exact hneutral
      | space | newline => trivial
    exact .other hpiece (ih htail)
  | pair _ _ ihinside ihbehind =>
    obtain ⟨first, tail, rfl, hfirst, htail⟩ := List.map_eq_cons_iff.1 hflat
    obtain ⟨inside, rest, rfl, hinside, hrest⟩ := List.map_eq_append_iff.1 htail
    obtain ⟨last, behind, rfl, hlast, hbehind⟩ := List.map_eq_cons_iff.1 hrest
    rw [Piece.eq_text hfirst, Piece.eq_text hlast]
    exact .pair (ihinside hinside) (ihbehind hbehind)

end Parens

/-! ## terms -/

theorem isNeutral_of_isWordChar {c : Char} (h : isWordChar c = true) : isNeutral c = true :=
  isNeutral_of h (by decide)

theorem isNeutral_word {cs : List Char} (h : IsWord cs) : cs.all isNeutral = true :=
  List.all_eq_true.2 fun _ hc => isNeutral_of_isWordChar (h.isWordChar_of_mem hc)

theorem isNeutral_digits {cs : List Char} (h : IsDigits cs) : cs.all isNeutral = true :=
  List.all_eq_true.2 fun c hc => isNeutral_of_isWordChar (isWordChar_of_isDigit (h.2 c hc))

theorem isNeutral_literal (value : Int) : (toString value).toList.all isNeutral = true := by
  cases value with
  | ofNat n => exact isNeutral_digits (isDigits_toString (Int.natCast_nonneg n))
  | negSucc n =>
    rw [toList_toString_negSucc, List.all_cons,
      isNeutral_digits (isDigits_toString (Int.natCast_nonneg (n + 1)))]
    decide

namespace Term

variable {depth : Nat} {left right : Doc Style}

theorem balanced_symbol {kind : TokenKind} (h : kind.spelling.toList.all isNeutral = true) :
    styledParens.Balanced depth (symbolDoc kind).flat := by
  unfold symbolDoc
  split <;> exact .one h

theorem balanced_mark {kind : TokenKind} (h : kind.spelling.toList.all isNeutral = true) :
    styledParens.Balanced depth (markDoc kind).flat :=
  .one h

theorem balanced_blank : styledParens.Balanced depth [.space] := .other trivial .nil

/-- Two texts with a blank between them. -/
theorem balanced_spaced (hl : styledParens.Balanced depth left.flat)
    (hr : styledParens.Balanced depth right.flat) :
    styledParens.Balanced depth (left ++ .space ++ right).flat :=
  (hl.append balanced_blank).append hr

theorem balanced_binding {name : Symbol} (h : IsWord name.text.toList) (ty : Ty) :
    styledParens.Balanced depth (bindingDoc name ty).flat :=
  balanced_spaced (balanced_spaced (.one (isNeutral_word h)) (balanced_mark (by decide)))
    (.one (isNeutral_word ty.isWord_spelling))

/-- A pair around an operand is one more around what is inside of it. -/
theorem balanced_operand {needed : Bool} {body : Nat → Doc Style}
    (h : ∀ depth, styledParens.Balanced depth (body depth).flat) :
    styledParens.Balanced depth (operandDoc needed body depth).flat := by
  rw [flat_operandDoc]
  split
  · exact (h (depth + 1)).enclosed
  · exact h depth

theorem balanced_operation {kind : NodeKind} {op : TokenKind}
    (hop : op.spelling.toList.all isNeutral = true) (hl : styledParens.Balanced depth left.flat)
    (hr : styledParens.Balanced depth right.flat) :
    styledParens.Balanced depth (infixDoc kind op left right).flat := by
  have hblank : styledParens.Balanced depth
      (if kind.isLogical then .line else .space : Doc Style).flat := by
    split <;> exact balanced_blank
  exact hl.append (hblank.append ((balanced_symbol hop).append (balanced_blank.append hr)))

/-- A term is printed with balanced parentheses, each in the style of its depth. -/
theorem balanced_doc {t : Term} (h : t.Worded) (depth : Nat) :
    styledParens.Balanced depth (t.doc depth).flat := by
  induction t generalizing depth with
  | id | var => exact .one (isNeutral_word h)
  | bool value =>
    have hword : (if value then "true" else "false").toList.all isNeutral = true := by
      cases value <;> decide
    exact .one hword
  | int value => exact .one (isNeutral_literal value)
  | type ty => exact .one (isNeutral_word ty.isWord_spelling)
  | additive op _ _ ihl ihr | relation op _ _ ihl ihr | connective op _ _ ihl ihr =>
    exact balanced_operation (by cases op <;> decide) (balanced_operand (ihl h.1))
      (balanced_operand (ihr h.2))
  | scaling op factor _ ih =>
    have hfactor : styledParens.Balanced depth (literalDoc factor).flat :=
      .one (isNeutral_literal factor)
    cases op with
    | mul => exact balanced_operation (by decide) hfactor (balanced_operand (ih h))
    | div => exact balanced_operation (by decide) (balanced_operand (ih h)) hfactor
  | sign op _ ih =>
    have hsign : styledParens.Balanced depth (symbolDoc op.token).flat :=
      balanced_symbol (by cases op <;> decide)
    exact hsign.append (balanced_operand (ih h))
  | not _ ih => exact balanced_spaced (balanced_symbol (by decide)) (balanced_operand (ih h))
  | bind name ty => exact balanced_binding h ty
  | quantifier op name ty body ih =>
    have hword : styledParens.Balanced depth (symbolDoc op.token).flat :=
      balanced_symbol (by cases op <;> decide)
    have hdot : styledParens.Balanced depth (markDoc .dot).flat := balanced_mark (by decide)
    have hfront := balanced_spaced (balanced_spaced hword (balanced_binding h.1 ty)) hdot
    exact hfront.append (balanced_blank.append (ih h.2 depth))

variable {t : Term}

/-- So it is whatever the width of the lines. -/
theorem balanced_pieces (h : t.Worded) (width : Nat) : styledParens.Balanced 0 (t.pieces width) :=
  balanced_of_unbroken (balanced_doc h 0) (Doc.map_unbroken_layout (t.doc 0) width 0 0 0)

end Term

/-! ## the whole -/

/-- At no place of the text more than so many parentheses are open. -/
def NestsWithin (limit : Nat) (cs : List Char) : Prop :=
  ∀ before, before <+: cs → before.count '(' ≤ before.count ')' + limit

/-- The text of a term in lines of the width, and the same in colours. -/
structure Term.PrintedInColors (t : Term) (width : Nat) (text colored : String) : Prop where
  /-- The text of the pieces. -/
  text_eq : text = plainText (t.pieces width)
  /-- The same pieces, with their styles. -/
  colored_eq : colored = coloredText (t.pieces width)
  /-- Lines end where they do in any other styles. -/
  restyled : ∀ (τ : Type) (f : Style → τ), plainText (((t.doc 0).restyle f).pieces width) = text
  /-- The escape sequences are all that the colours add. -/
  unescaped : withoutEscapes .text colored.toList = text.toList
  balanced : parens.Balanced 0 text.toList
  /-- Both parentheses of a pair have the style of the number of pairs around it. -/
  styled : styledParens.Balanced 0 (t.pieces width)
  /-- That is the number of those that are open in front of the pair. -/
  pair : ∀ (before inside behind : List (Piece Style)) (left right : Style),
    t.pieces width = before ++ .text left "(" :: (inside ++ .text right ")" :: behind) →
    parens.Balanced 0 (plainText inside).toList →
    ∃ d, left = .paren d ∧ right = .paren d ∧
      (plainText before).toList.count '(' = (plainText before).toList.count ')' + d
  /-- It is less than the depth of the nesting. -/
  nested : ∀ limit, NestsWithin limit text.toList →
    ∀ d content, .text (.paren d) content ∈ t.pieces width → d < limit

section Whole

variable {pieces before inside behind : List (Piece Style)} {left right : Style}

/-- The parentheses of a pair are in the same style. -/
theorem style_of_pair (h : styledParens.Balanced 0 pieces)
    (hpieces : pieces = before ++ .text left "(" :: (inside ++ .text right ")" :: behind))
    (hinside : parens.Balanced 0 (plainText inside).toList) :
    ∃ d, left = .paren d ∧ right = .paren d ∧
      (plainText before).toList.count '(' = (plainText before).toList.count ')' + d := by
  subst hpieces
  obtain ⟨d, hcount, hfits⟩ := exists_open h
  obtain rfl := style_of_fits_opening hfits
  have hsplit : before ++ .text (.paren d) "(" :: (inside ++ .text right ")" :: behind) =
      (before ++ .text (.paren d) "(" :: inside) ++ .text right ")" :: behind := by simp
  rw [hsplit] at h
  obtain ⟨here, hcount', hfits'⟩ := exists_open h
  obtain ⟨outer, rfl, rfl⟩ := style_of_fits_closing hfits'
  -- what is between them opens as many as it closes
  have hsame := count_of_leads hinside.leads
  rw [toList_plainText_append, toList_plainText_opening, List.count_append, List.count_append,
    List.count_cons_self, List.count_cons_of_ne (by decide)] at hcount'
  obtain rfl : outer = d := by omega
  exact ⟨outer, rfl, rfl, hcount⟩

/-- The depth that a style says is reached in the text. -/
theorem depth_lt_of_nestsWithin (h : styledParens.Balanced 0 pieces) {limit : Nat}
    (hnests : NestsWithin limit (plainText pieces).toList) {d : Nat} {content : String}
    (hmem : .text (.paren d) content ∈ pieces) : d < limit := by
  obtain ⟨before, behind, rfl⟩ := List.append_of_mem hmem
  obtain ⟨here, hcount, hfits⟩ := exists_open h
  rw [toList_plainText_append] at hnests
  rcases hfits with hneutral | hopening | ⟨outer, rfl, hclosing⟩
  · exact hneutral.elim
  · obtain ⟨hstyle, rfl⟩ := Piece.text.inj hopening
    obtain rfl := Style.paren.inj hstyle
    rw [toList_plainText_opening, List.append_cons] at hnests
    have hlimit := hnests _ (List.prefix_append _ _)
    rw [List.count_append, List.count_append, List.count_singleton_self, hcount] at hlimit
    have hnone : ['('].count ')' = 0 := by decide
    omega
  · obtain rfl := Style.paren.inj (Piece.text.inj hclosing).1
    have hlimit := hnests _ (List.prefix_append _ _)
    omega

end Whole

/-- The colours of a printed term. -/
theorem Term.printedInColors {t : Term} (h : t.Worded) (width : Nat) :
    t.PrintedInColors width (t.render width) (t.renderColored width) where
  text_eq := rfl
  colored_eq := rfl
  restyled τ f := by
    rw [Doc.pieces_restyle, plainText_restyle]
    rfl
  unescaped := withoutEscapes_coloredText (ne_escape_of_balanced (balanced_pieces h width))
  balanced := by
    rw [render, toList_plainText]
    exact (balanced_pieces h width).flatMap writes_plain
  styled := balanced_pieces h width
  pair _ _ _ _ _ hpieces hinside := style_of_pair (balanced_pieces h width) hpieces hinside
  nested _ hnests _ _ hmem := depth_lt_of_nestsWithin (balanced_pieces h width) hnests hmem

namespace Context

variable {cx : Context} {e : NodeRef}

/-- Colours annotate the text of an expression, and parentheses are coloured by their
depth.  In every well formed context, for an expression whose names are words and in
lines of any width:

* the coloured text, without its escape sequences, is the plain one, which ends its
  lines where it would in any other styles;
* the parentheses of the text are balanced, and the two of a pair are in the same
  style, that of the number of pairs around them;
* these numbers are less than any bound on the nesting, so in a text that nests
  within 255 pairs they and their successors fit in eight bits. -/
theorem WellFormed.render_colors (h : cx.WellFormed) (he : e.index < cx.size)
    (hnames : ∀ t, cx.term? e = some t → t.Worded) :
    ∃ t, cx.term? e = some t ∧
      ∀ width, t.PrintedInColors width (cx.render e width) (cx.renderColored e width) := by
  obtain ⟨t, hterm⟩ := h.exists_term he
  refine ⟨t, hterm, fun width => ?_⟩
  rw [render, renderColored, hterm]
  exact Term.printedInColors (hnames t hterm) width

/-- In `not (true and (true or true))` there is one pair around the inner one. -/
theorem WellFormed.render_colors_nested :
    let cx := (((initial.add (.bool true)).2.add (.connective .or ⟨5⟩ ⟨5⟩)).2.add
      (.connective .and ⟨5⟩ ⟨6⟩)).2.add (.not ⟨7⟩)
    let text : String := "not (true and (true or true))"
    let inside : List (Piece Style) :=
      [.text .literal "true", .space, .text .keyword "or", .space, .text .literal "true"]
    cx.2.WellFormed ∧ ∃ t before behind left right, cx.2.term? cx.1 = some t ∧
      t.pieces 80 = before ++ .text left "(" :: (inside ++ .text right ")" :: behind) ∧
      left = .paren 1 ∧ right = .paren 1 ∧
      (plainText before).toList.count '(' = (plainText before).toList.count ')' + 1 ∧
      cx.2.render cx.1 80 = text ∧ parens.Balanced 0 text.toList ∧
      withoutEscapes .text (cx.2.renderColored cx.1 80).toList = text.toList := by
  intro cx text inside
  have htrue : (initial.add (.bool true)).2.WellFormed :=
    wellFormed_initial.add ⟨by simp [Node.handles, Node.children], trivial, by simp⟩
  have hor : ((initial.add (.bool true)).2.add (.connective .or ⟨5⟩ ⟨5⟩)).2.WellFormed :=
    htrue.add ⟨by simp [Node.handles, Node.children], trivial, by simp⟩
  have hand : (((initial.add (.bool true)).2.add (.connective .or ⟨5⟩ ⟨5⟩)).2.add
      (.connective .and ⟨5⟩ ⟨6⟩)).2.WellFormed :=
    hor.add ⟨by simp [Node.handles, Node.children], trivial, by simp⟩
  have hw : cx.2.WellFormed :=
    hand.add ⟨by simp [Node.handles, Node.children], trivial, by simp⟩
  let found : Term :=
    .not (.connective .and (.bool true) (.connective .or (.bool true) (.bool true)))
  have hterm : cx.2.term? cx.1 = some found := by
    have hnot : cx.2.node? ⟨8⟩ = some (.not ⟨7⟩) := rfl
    have hand : cx.2.node? ⟨7⟩ = some (.connective .and ⟨5⟩ ⟨6⟩) := rfl
    have hor : cx.2.node? ⟨6⟩ = some (.connective .or ⟨5⟩ ⟨5⟩) := rfl
    have htrue : cx.2.node? ⟨5⟩ = some (.bool true) := rfl
    show cx.2.term? ⟨8⟩ = _
    simp only [hw.term?_eq hnot, hw.term?_eq hand, hw.term?_eq hor, hw.term?_eq htrue, termOf?]
    rfl
  obtain ⟨t, ht, hprinted⟩ := hw.render_colors (e := cx.1) (by decide) (by
    intro t ht
    cases hterm.symm.trans ht
    exact ⟨trivial, trivial, trivial⟩)
  cases hterm.symm.trans ht
  obtain ⟨hrender, -, -, hunescaped, hbalanced, -, hpair, -⟩ := hprinted 80
  have hpieces : found.pieces 80 = [.text .keyword "not", .space, .text (.paren 0) "(",
      .text .literal "true", .space, .text .keyword "and", .space] ++ .text (.paren 1) "(" ::
        (inside ++ .text (.paren 1) ")" :: [.text (.paren 0) ")"]) := by decide +kernel
  have hinside : parens.Balanced 0 (plainText inside).toList :=
    Brackets.balanced_of_forall fun c hc => by
      have hneutral : (plainText inside).toList.all isNeutral = true := by decide +kernel
      have hc := isNeutral_iff.1 (List.all_eq_true.1 hneutral c hc)
      exact ⟨hc.1, hc.2.1⟩
  have htext : cx.2.render cx.1 80 = text := by
    rw [hrender, hpieces]
    decide +kernel
  obtain ⟨d, hleft, hright, hopen⟩ := hpair _ _ _ _ _ hpieces hinside
  obtain rfl : 1 = d := Style.paren.inj hleft
  rw [htext] at hunescaped hbalanced
  exact ⟨hw, found, _, _, _, _, hterm, hpieces, hleft, hright, hopen, htext, hbalanced, hunescaped⟩

end Context

end ArithLogic
