import ArithLogic.Proofs.Printing.RoundTrip
import ArithLogic.Proofs.Reading.Tiling

/-!
# ArithLogic.Proofs.Printing.Parentheses

No printed parenthesis can be spared.  The grouping of a tree alone says how
many pairs of parentheses any text of it has at least: one for each operand that
is looser than its place demands (`Tree.leastParens`).  Every text that is read as
the tree has at least as many (`leastParens_le_count`), a term is printed with no
more (`Term.count_render`), and so a printed text that loses a pair is no longer
read as the same tree.
-/

namespace ArithLogic

open Lexer

/-! ## the parentheses of a tree -/

namespace Tree

/-- The binding strength of the written form. -/
def level : Tree → Level
  | enclosed _ _ _ | terminal _ => .primary
  | unary op _ => if op.kind = .kwNot then .negation else .sign
  | binary op _ _ => op.kind.infixLevel?.getD .quantified

/-- The pairs of parentheses in the tree. -/
def parens : Tree → Nat
  | enclosed _ body _ => body.parens + 1
  | terminal _ => 0
  | unary _ operand => operand.parens
  | binary _ left right => left.parens + right.parens

/-- The pairs of parentheses without which the grouping cannot be written where an
expression of a level is demanded. -/
def leastParens : Tree → (demanded : Level) → Nat
  | enclosed _ body _, demanded => body.leastParens demanded
  | terminal _, _ => 0
  | unary op operand, demanded =>
    (if (unary op operand).level < demanded then 1 else 0) +
      operand.leastParens (unary op operand).level
  | binary op left right, demanded =>
    (if (binary op left right).level < demanded then 1 else 0) +
      match op.kind.infixLevel? with
      | some own => left.leastParens own.leftOperand + right.leastParens own.rightOperand
      | none => left.leastParens .quantified + right.leastParens .quantified

variable {op : Token} {operand left right : Tree} {own demanded : Level}

@[simp] theorem leastParens_terminal (token : Token) (demanded : Level) :
    (terminal token).leastParens demanded = 0 := rfl

theorem leastParens_unary (h : (unary op operand).level = own) (hle : demanded ≤ own) :
    (unary op operand).leastParens demanded = operand.leastParens own := by
  rw [leastParens, h, if_neg (Level.not_lt_of_le hle), Nat.zero_add]

theorem leastParens_infix (h : op.kind.infixLevel? = some own) (hle : demanded ≤ own) :
    (binary op left right).leastParens demanded =
      left.leastParens own.leftOperand + right.leastParens own.rightOperand := by
  rw [leastParens, level, h, Option.getD_some, if_neg (Level.not_lt_of_le hle), Nat.zero_add]

/-- A binding or a quantifier, where any expression may stand. -/
theorem leastParens_other (h : op.kind.infixLevel? = none) :
    (binary op left right).leastParens .quantified =
      left.leastParens .quantified + right.leastParens .quantified := by
  rw [leastParens, level, h, Option.getD_none, if_neg (Level.not_lt_of_le (Level.quantified_le _)),
    Nat.zero_add]

/-- A tighter place needs no fewer parentheses. -/
theorem leastParens_mono (tree : Tree) {loose tight : Level} (h : loose ≤ tight) :
    tree.leastParens loose ≤ tree.leastParens tight := by
  induction tree with
  | enclosed _ _ _ ih => exact ih
  | terminal => exact Nat.le_refl _
  | unary | binary =>
    rw [leastParens, leastParens]
    refine Nat.add_le_add_right ?_ _
    split
    · next hown => exact Nat.le_of_eq (if_pos (Level.lt_of_lt_of_le hown h)).symm
    · exact Nat.zero_le _

/-- One pair of parentheses is enough for any place. -/
theorem leastParens_le_succ (tree : Tree) (loose tight : Level) :
    tree.leastParens tight ≤ tree.leastParens loose + 1 := by
  induction tree with
  | enclosed _ _ _ ih => exact ih
  | terminal => exact Nat.zero_le _
  | unary | binary =>
    rw [leastParens, leastParens]
    split <;> split <;> omega

/-- Only the root tells one place from another. -/
theorem leastParens_bare (tree : Tree) (demanded : Level) :
    tree.bare.leastParens demanded =
      (if tree.bare.level < demanded then 1 else 0) + tree.bare.leastParens .quantified := by
  induction tree with
  | enclosed _ _ _ ih => exact ih
  | terminal =>
    rw [bare, leastParens, leastParens, level, if_neg (Level.not_lt_of_le demanded.le_primary)]
  | unary | binary =>
    rw [bare, leastParens, leastParens, if_neg (Level.not_lt_of_le (Level.quantified_le _)),
      Nat.zero_add]

end Tree

/-! ## what is read -/

/-- The opening parentheses among the tokens. -/
def openParens (ts : List Token) : Nat := ts.countP fun t => t.kind = .openParen

@[simp] theorem openParens_nil : openParens [] = 0 := rfl

@[simp] theorem openParens_append (ts us : List Token) :
    openParens (ts ++ us) = openParens ts + openParens us :=
  List.countP_append

@[simp] theorem openParens_cons (t : Token) (ts : List Token) :
    openParens (t :: ts) = openParens ts + if t.kind = .openParen then 1 else 0 := by
  simp [openParens, List.countP_cons]

/-- The tokens of a derivation have the parentheses that its tree has, and no tree
has fewer than its grouping needs. -/
theorem Derives.parens {level : Level} {ts : List Token} {tree : Tree} (h : Derives level ts tree) :
    tree.bare.leastParens level ≤ tree.parens ∧ tree.parens ≤ openParens ts := by
  induction h with
  | atom => exact ⟨Nat.le_refl _, Nat.zero_le _⟩
  | @enclosed opening closing ts body hopening _ _ ih =>
    obtain ⟨hleast, hcount⟩ := ih
    -- the pair at hand pays for whatever the tighter place demands
    have hone := body.bare.leastParens_le_succ .quantified .primary
    refine ⟨Nat.le_trans hone (Nat.succ_le_succ hleast), ?_⟩
    simp only [Tree.parens, List.cons_append, openParens_cons, openParens_append, hopening, if_true]
    omega
  | @sign op ts operand hop _ ih =>
    have hnot : op.unplaced.kind ≠ .kwNot := by
      rintro heq
      rcases hop with hop | hop <;> cases heq.symm.trans hop
    have hlevel : (Tree.unary op.unplaced operand.bare).level = .sign := if_neg hnot
    rw [Tree.bare, Tree.leastParens_unary hlevel (Nat.le_refl _), openParens_cons]
    exact ⟨ih.1, Nat.le_add_right_of_le ih.2⟩
  | @negation op ts operand hop _ ih =>
    have hlevel : (Tree.unary op.unplaced operand.bare).level = .negation := if_pos hop
    rw [Tree.bare, Tree.leastParens_unary hlevel (Nat.le_refl _), openParens_cons]
    exact ⟨ih.1, Nat.le_add_right_of_le ih.2⟩
  | @operation op level ls rs l r hop _ _ ihl ihr =>
    have hinfix : op.unplaced.kind.infixLevel? = some level := hop
    rw [Tree.bare, Tree.leastParens_infix hinfix (Nat.le_refl _), openParens_append, openParens_cons,
      Tree.parens]
    omega
  | @quantified op name colon dot ts bs type body hop hname hcolon _ _ _ iht ihb =>
    have hother : op.unplaced.kind.infixLevel? = none := by
      show op.kind.infixLevel? = none
      rcases hop with hop | hop <;> rw [hop] <;> rfl
    have hmark : colon.unplaced.kind.infixLevel? = none := by
      show colon.kind.infixLevel? = none
      rw [hcolon]
      rfl
    have htype := type.bare.leastParens_mono (Level.le_primary .quantified)
    simp only [Tree.bare, Tree.leastParens_other hother, Tree.leastParens_other hmark,
      Tree.leastParens_terminal, Tree.parens, List.cons_append, openParens_cons, openParens_append]
    omega
  | @loosen level ts tree _ ih =>
    -- no token is added, and the looser place demands no more
    exact ⟨Nat.le_trans (tree.bare.leastParens_mono level.le_next) ih.1, ih.2⟩

/-! ## texts -/

/-- No word is an opening parenthesis. -/
theorem TokenKind.keyword?_getD_ne (word : String) :
    (keyword? word).getD .identifier ≠ .openParen := by
  cases hkeyword : keyword? word with
  | none => decide
  | some kind =>
    rintro rfl
    exact absurd (keyword?_eq_some_iff.1 hkeyword).1 (by decide)

namespace Lexer

variable {kind : TokenKind} {cs lexeme : List Char} {ts : List Token} {start : Nat}

/-- An opening parenthesis stands in no token but its own. -/
theorem Spells.count_openParen (h : Spells kind lexeme) :
    lexeme.count '(' = if kind = .openParen then 1 else 0 := by
  cases h with
  | operator hkind =>
    have hall : ∀ kind ∈ TokenKind.operators,
        (spelled kind).count '(' = if kind = .openParen then 1 else 0 := by decide
    exact hall kind hkind
  | word hword =>
    obtain ⟨c, rest, rfl, hstart, hrest⟩ := hword
    rw [wordKind, if_neg (TokenKind.keyword?_getD_ne _), List.count_eq_zero]
    intro hmem
    rcases List.mem_cons.1 hmem with rfl | hmem
    · exact absurd hstart (by decide)
    · exact absurd (hrest _ hmem) (by decide)
  | literal hdigits =>
    rw [if_neg (by decide), List.count_eq_zero]
    exact fun hmem => absurd (hdigits.2 _ hmem) (by decide)

/-- Between blanks and tokens there is no place for a parenthesis. -/
theorem Reads.count_openParen (h : Reads cs ts) : cs.count '(' = openParens ts := by
  induction h with
  | nil => rfl
  | @blank c cs ts hblank _ ih =>
    have hne : c ≠ '(' := by
      rintro rfl
      exact absurd hblank (by decide)
    rw [List.count_cons_of_ne hne, ih]
  | token _ hlexeme _ ih =>
    rw [List.count_append, (spells_of_lexeme? hlexeme).count_openParen, ih, openParens_cons,
      Nat.add_comm]
    rfl

/-- In a tiled text the other parentheses stand in comments. -/
theorem Tiles.openParens_le {atEnd : Bool} (h : Tiles atEnd start cs ts) :
    openParens ts ≤ cs.count '(' := by
  induction h with
  | last => exact Nat.zero_le _
  | token _ hlongest _ ih =>
    rw [List.count_append, List.count_append, hlongest.spells.count_openParen, openParens_cons,
      Nat.add_comm]
    exact Nat.le_add_left_of_le (Nat.add_le_add_left ih _)

end Lexer

/-- A text that is read as a tree has all the parentheses that the grouping of the
tree cannot be written without. -/
theorem leastParens_le_count {source : String} {tree : Tree}
    (h : parseExpression source = .ok tree) :
    tree.bare.leastParens .quantified ≤ source.toList.count '(' := by
  rw [parseExpression, tokenize] at h
  rcases tokensFrom_tiles 0 none source.toList with ⟨ts, hts, htiles⟩ | ⟨_, _, _, _, _, _, _, _, herror⟩
  · rw [hts] at h
    obtain ⟨hleast, hcount⟩ := (Parser.expressionOfTokens_eq_ok_iff.1 h).parens
    exact Nat.le_trans hleast (Nat.le_trans hcount htiles.openParens_le)
  · rw [herror] at h
    cases h

/-! ## terms -/

namespace Term

/-- A term and its tree bind alike. -/
theorem level_surface (t : Term) : t.surface.level = t.level := by
  cases t with
  | additive op | scaling op | sign op | relation op | connective op | quantifier op =>
    cases op <;> rfl
  | bool value => cases value <;> rfl
  | _ => rfl

/-- An operand is put in parentheses where it is looser than its place demands. -/
theorem openParens_operand {t : Term} (h : openParens t.tokens = t.surface.leastParens .quantified)
    (demanded : Level) :
    openParens (operandTokens (t.level < demanded) t.tokens) = t.surface.leastParens demanded := by
  have hsplit := t.surface.leastParens_bare demanded
  rw [bare_surface, level_surface, ← h] at hsplit
  rw [operandTokens, hsplit]
  by_cases hloose : t.level < demanded
  · simp [hloose, fixedToken, freeToken, Nat.add_comm]
  · simp [hloose]

theorem openParens_operation {kind : NodeKind} {op : TokenKind} {left right : Term}
    (hop : op.infixLevel? = some kind.level)
    (hl : openParens left.tokens = left.surface.leastParens .quantified)
    (hr : openParens right.tokens = right.surface.leastParens .quantified) :
    openParens (infixTokens kind op left right left.tokens right.tokens) =
      (Tree.binary (fixedToken op) left.surface right.surface).leastParens .quantified := by
  have hinfix : (fixedToken op).kind.infixLevel? = some kind.level := hop
  have hmark : (fixedToken op).kind ≠ .openParen := by
    show op ≠ .openParen
    rintro rfl
    cases hop
  rw [Tree.leastParens_infix hinfix (Level.quantified_le _), infixTokens, openParens_append,
    openParens_cons, if_neg hmark, openParens_operand hl, openParens_operand hr]
  rfl

/-- A term is written with the parentheses that its grouping needs, and no others. -/
theorem openParens_tokens (t : Term) : openParens t.tokens = t.surface.leastParens .quantified := by
  have hword : ∀ text, (wordToken text).kind ≠ .openParen := TokenKind.keyword?_getD_ne
  induction t with
  | id | var | type => rw [tokens, openParens_cons, if_neg (hword _)]; rfl
  | bool value => cases value <;> rfl
  | int => rfl
  | additive op _ _ ihl ihr | relation op _ _ ihl ihr | connective op _ _ ihl ihr =>
    exact openParens_operation (by cases op <;> rfl) ihl ihr
  | scaling op factor t ih =>
    cases op with
    | mul =>
      have hinfix : (fixedToken .star).kind.infixLevel? = some .product := rfl
      rw [tokens, surface, Tree.leastParens_infix hinfix (Level.quantified_le _), openParens_cons,
        openParens_cons, openParens_operand ih]
      simp [literalToken, literalTree, fixedToken, freeToken]
    | div =>
      have hinfix : (fixedToken .slash).kind.infixLevel? = some .product := rfl
      rw [tokens, surface, Tree.leastParens_infix hinfix (Level.quantified_le _), openParens_append,
        openParens_operand ih]
      simp [literalToken, literalTree, fixedToken, freeToken]
  | sign op t ih =>
    have hlevel : (Tree.unary (fixedToken op.token) t.surface).level = .sign := by
      cases op <;> rfl
    have hmark : (fixedToken op.token).kind ≠ .openParen := by cases op <;> decide
    rw [surface, Tree.leastParens_unary hlevel (Level.quantified_le _), tokens, openParens_cons,
      if_neg hmark, openParens_operand ih]
    rfl
  | not t ih =>
    have hlevel : (Tree.unary (fixedToken .kwNot) t.surface).level = .negation := rfl
    rw [surface, Tree.leastParens_unary hlevel (Level.quantified_le _), tokens, openParens_cons,
      openParens_operand ih]
    rfl
  | bind name ty =>
    simp only [tokens, openParens_cons, if_neg (hword _)]
    rfl
  | quantifier op name ty body ih =>
    have hother : (fixedToken op.token).kind.infixLevel? = none := by cases op <;> rfl
    have hmark : (fixedToken op.token).kind ≠ .openParen := by cases op <;> decide
    have hbinding : (bindingTree name ty).leastParens .quantified = 0 := rfl
    rw [surface, Tree.leastParens_other hother, ← ih, hbinding]
    simp only [tokens, openParens_cons, if_neg (hword _), if_neg hmark, Nat.zero_add]
    rfl

/-- The parentheses of a printed text are those that its grouping needs. -/
theorem count_render {t : Term} (hp : t.Printable) (width : Nat) :
    (t.render width).toList.count '(' = t.surface.leastParens .quantified := by
  rw [(reads_render hp width).count_openParen, openParens_tokens]

/-- No text that is read as the term has fewer parentheses than the printed one. -/
theorem count_render_le {t : Term} (hp : t.Printable) (width : Nat) {source : String} {tree : Tree}
    (hparse : parseExpression source = .ok tree) (htree : tree.bare = t.surface) :
    (t.render width).toList.count '(' ≤ source.toList.count '(' := by
  rw [count_render hp, ← htree]
  exact leastParens_le_count hparse

end Term

namespace Context

variable {cx : Context} {e : NodeRef}

/-- The text of a printable expression, once a pair of parentheses is taken out
of it, is not read as the same grouping any more. -/
theorem WellFormed.parens_needed (h : cx.WellFormed) (he : e.index < cx.size)
    (hp : ∀ t, cx.term? e = some t → t.Printable) (width : Nat) :
    ∃ tree, parseExpression (cx.render e width) = .ok tree ∧
      ∀ before inside behind : List Char,
        (cx.render e width).toList = before ++ '(' :: (inside ++ ')' :: behind) →
        ∀ tree', parseExpression (String.ofList (before ++ (inside ++ behind))) = .ok tree' →
          tree'.bare ≠ tree.bare := by
  obtain ⟨t, hterm⟩ := h.exists_term he
  have hprintable := hp t hterm
  obtain ⟨tree, hparse, hwritten, -⟩ := Term.exists_parseExpression hprintable width
  have htext : cx.render e width = t.render width := by rw [render, hterm]
  rw [htext]
  refine ⟨tree, hparse, fun before inside behind hsplit tree' hparse' heq => ?_⟩
  have hfewest := Term.count_render_le hprintable width hparse' (heq.trans hwritten.bare)
  rw [hsplit, String.toList_ofList] at hfewest
  simp only [List.count_append, List.count_cons_self, List.count_cons] at hfewest
  omega

/-- Without its parentheses `not (true and false)` is a conjunction. -/
theorem WellFormed.parens_needed_not :
    let cx := (((initial.add (.bool true)).2.add (.bool false)).2.add
      (.connective .and ⟨5⟩ ⟨6⟩)).2.add (.not ⟨7⟩)
    ∃ tree tree', parseExpression (cx.2.render cx.1 80) = .ok tree ∧
      parseExpression "not true and false" = .ok tree' ∧ tree'.bare ≠ tree.bare := by
  intro cx
  have htrue : (initial.add (.bool true)).2.WellFormed :=
    wellFormed_initial.add ⟨by simp [Node.handles, Node.children], trivial, by simp⟩
  have hfalse : ((initial.add (.bool true)).2.add (.bool false)).2.WellFormed :=
    htrue.add ⟨by simp [Node.handles, Node.children], trivial, by simp⟩
  have hand : (((initial.add (.bool true)).2.add (.bool false)).2.add
      (.connective .and ⟨5⟩ ⟨6⟩)).2.WellFormed :=
    hfalse.add ⟨by simp [Node.handles, Node.children], trivial, by simp⟩
  have hw : cx.2.WellFormed :=
    hand.add ⟨by simp [Node.handles, Node.children], trivial, by simp⟩
  have hterm : cx.2.term? cx.1 = some (.not (.connective .and (.bool true) (.bool false))) := by
    have hnot : cx.2.node? ⟨8⟩ = some (.not ⟨7⟩) := rfl
    have hand : cx.2.node? ⟨7⟩ = some (.connective .and ⟨5⟩ ⟨6⟩) := rfl
    have htrue : cx.2.node? ⟨5⟩ = some (.bool true) := rfl
    have hfalse : cx.2.node? ⟨6⟩ = some (.bool false) := rfl
    show cx.2.term? ⟨8⟩ = _
    simp only [hw.term?_eq hnot, hw.term?_eq hand, hw.term?_eq htrue, hw.term?_eq hfalse, termOf?]
    rfl
  have hp : ∀ t, cx.2.term? cx.1 = some t → t.Printable := by
    intro t ht
    cases hterm.symm.trans ht
    exact ⟨trivial, trivial⟩
  have htext : cx.2.render cx.1 80 = "not (true and false)" := by
    rw [render, hterm]
    decide +kernel
  obtain ⟨tree, hparse, hneeded⟩ := hw.parens_needed (by decide) hp 80
  have htokens : tokenize "not true and false" =
      .ok [⟨.kwNot, "not", ⟨0, 3⟩⟩, ⟨.kwTrue, "true", ⟨4, 8⟩⟩, ⟨.kwAnd, "and", ⟨9, 12⟩⟩,
        ⟨.kwFalse, "false", ⟨13, 18⟩⟩] := eq_ok_of_toOption (by decide +kernel)
  refine ⟨tree, .binary ⟨.kwAnd, "and", ⟨9, 12⟩⟩
    (.unary ⟨.kwNot, "not", ⟨0, 3⟩⟩ (.terminal ⟨.kwTrue, "true", ⟨4, 8⟩⟩))
    (.terminal ⟨.kwFalse, "false", ⟨13, 18⟩⟩), hparse, ?_, ?_⟩
  · rw [parseExpression, htokens]
    rfl
  · refine hneeded ("not ").toList ("true and false").toList [] ?_ _ ?_
    · rw [htext]
      decide
    · rw [parseExpression, show String.ofList _ = "not true and false" by decide, htokens]
      rfl

end Context

end ArithLogic
