import ArithLogic.Proofs.Reading.Spacing

/-!
# ArithLogic.Proofs.Reading.Concatenation

Texts as programs and programs in a row.  An expression is a program of one
statement, and a program of one statement that neither declares nor defines is
an expression (`DerivesProgram.expression`).  A program is read up to a
semicolon whatever follows (`DerivesProgram.readProgramFrom_append`), and
a line feed ends the comment that it may end in (`Lexer.Tiles.tokensFrom_append`),
so programs can be put in a row (`parse_concatenates`).
-/

namespace ArithLogic

/-! ## shifted places -/

/-- The span, so many bytes further on. -/
def Span.shift (offset : Nat) (span : Span) : Span := ⟨offset + span.start, offset + span.stop⟩

/-- The token, so many bytes further on. -/
def Token.shift (offset : Nat) (t : Token) : Token := { t with span := t.span.shift offset }

/-- The tree, so many bytes further on. -/
def Tree.shift (offset : Nat) : Tree → Tree := Tree.map (Token.shift offset)

theorem Span.join_shift (offset : Nat) (a b : Span) :
    (a.shift offset).join (b.shift offset) = (a.join b).shift offset := by
  simp only [join, shift, Span.mk.injEq]
  omega

/-- The span of a tree is shifted with its tokens. -/
theorem Tree.span_shift (offset : Nat) (tree : Tree) :
    (tree.shift offset).span = tree.span.shift offset := by
  unfold shift
  induction tree with
  | terminal => rfl
  | enclosed => exact Span.join_shift ..
  | unary op operand ih => rw [map, span, span, ih]; exact Span.join_shift ..
  | binary op left right ihl ihr =>
    rw [map, span, span, ihl, ihr]
    simp only [Token.shift, Span.join_shift]

/-- Nothing is changed by changing no token. -/
theorem Tree.map_id (tree : Tree) : tree.map id = tree := by
  induction tree with
  | terminal => rfl
  | enclosed _ _ _ ih => rw [map, ih]; rfl
  | unary _ _ ih => rw [map, ih]; rfl
  | binary _ _ _ ihl ihr => rw [map, ihl, ihr]; rfl

namespace Lexer

variable {atEnd : Bool} {start : Nat} {gap cs rest : List Char} {ts : List Token}

/-- The same tokens, further on. -/
theorem Tiles.shift (h : Tiles atEnd start cs ts) (offset : Nat) :
    Tiles atEnd (offset + start) cs (ts.map (Token.shift offset)) := by
  induction h with
  | last hgap => exact .last hgap
  | @token start gap lexeme rest kind ts hgap hlongest _ ih =>
    have hplaced : (placed kind lexeme (start + byteLength gap)).shift offset =
        placed kind lexeme (offset + start + byteLength gap) := by
      simp only [placed, Token.shift, Span.shift, Nat.add_assoc]
    rw [List.map_cons, hplaced]
    refine .token hgap hlongest ?_
    rwa [Nat.add_assoc offset, Nat.add_assoc offset]

/-- Wherever a text starts, there are tokens in it or not. -/
theorem Tiles.exists_at (h : Tiles atEnd start cs ts) (start' : Nat) :
    ∃ us, Tiles atEnd start' cs us := by
  induction h generalizing start' with
  | last hgap => exact ⟨[], .last hgap⟩
  | token hgap hlongest _ ih =>
    obtain ⟨us, htiles⟩ := ih _
    exact ⟨_, .token hgap hlongest htiles⟩

/-- The tokens of a text that starts further on. -/
theorem tokensFrom_shift (offset : Nat) (cs : List Char) (us : List Token) :
    tokensFrom offset none cs = .ok us ↔
      ∃ ts, tokensFrom 0 none cs = .ok ts ∧ us = ts.map (Token.shift offset) := by
  simp only [tokensFrom_eq_ok_iff]
  constructor
  · intro h
    obtain ⟨ts, hts⟩ := h.exists_at 0
    have hshift := (hts.shift offset).tokensFrom none
    rw [Nat.add_zero, h.tokensFrom none] at hshift
    exact ⟨ts, hts, Except.ok.inj hshift⟩
  · rintro ⟨ts, hts, rfl⟩
    exact hts.shift offset

/-! ## a text behind another -/

/-- A line feed ends the comment that a gap may end in. -/
theorem Gap.append_lineFeed (h : Gap true gap) : Gap false (gap ++ ['\n']) := by
  induction h with
  | nil => exact .blank rfl .nil
  | blank hblank _ ih => exact .blank hblank ih
  | @comment body cs hbody _ ih =>
    rw [List.cons_append, List.cons_append, List.append_assoc]
    exact .comment hbody ih
  | openComment _ hbody => exact .comment hbody .nil

/-- A text behind a line feed is read as if it were alone. -/
theorem Tiles.tokensFrom_append (h : Tiles true start cs ts) (last : Option TokenKind)
    (rest : List Char) :
    Lexer.tokensFrom start last (cs ++ '\n' :: rest) =
      (Lexer.tokensFrom (start + byteLength (cs ++ ['\n'])) none rest).map (ts ++ ·) := by
  induction h generalizing last with
  | @last start gap hgap =>
    have hfeed := hgap.append_lineFeed
    rw [List.append_cons, tokensFrom_skip _ _ (by simp) (hfeed.triviaLength_append (by simp))]
    cases Lexer.tokensFrom (start + byteLength (gap ++ ['\n'])) none rest <;> rfl
  | @token start gap lexeme behind kind ts hgap hlongest _ ih =>
    rw [List.append_assoc, List.append_assoc,
      tokensFrom_of_longest hgap (hlongest.append_blank rfl rest), ih]
    simp only [byteLength_append, Nat.add_assoc]
    cases Lexer.tokensFrom _ none rest <;> rfl

/-- A semicolon at the end of a line. -/
theorem tokensFrom_semicolon (start : Nat) (last : Option TokenKind) (rest : List Char) :
    tokensFrom start last (';' :: '\n' :: rest) =
      (tokensFrom (start + 2) none rest).map (placed .semicolon [';'] start :: ·) := by
  have hspells : Spells .semicolon [';'] := .operator (by decide)
  have hfeed : Gap false ['\n'] := .blank rfl .nil
  have hsemicolon : tokensFrom start last (';' :: '\n' :: rest) =
      (tokensFrom (start + 1) (some .semicolon) (['\n'] ++ rest)).map
        (placed .semicolon [';'] start :: ·) :=
    tokensFrom_of_longest .nil (hspells.longest.append_blank rfl rest) start last
  rw [hsemicolon, tokensFrom_skip _ _ (List.cons_ne_nil '\n' [])
    (hfeed.triviaLength_append (by simp))]
  rfl

end Lexer

/-! ## programs -/

/-- No semicolon ends the tokens. -/
def EndsOpen (ts : List Token) : Prop := ∀ t, ts.getLast? = some t → t.kind ≠ .semicolon

namespace DerivesProgram

variable {ts us : List Token} {tree : Tree} {trees : List Tree} {semicolon : Token} {stop : Nat}

/-- No statements have no tokens. -/
theorem eq_nil (h : DerivesProgram ts []) : ts = [] := by
  cases h
  rfl

/-- A semicolon is not the end if statements follow. -/
theorem endsOpen_of_append (h : EndsOpen (ts ++ semicolon :: us))
    (hsemicolon : semicolon.kind = .semicolon) : us ≠ [] ∧ EndsOpen us := by
  have hne : us ≠ [] := by
    rintro rfl
    exact h semicolon (by simp) hsemicolon
  refine ⟨hne, fun t ht => h t ?_⟩
  rw [List.getLast?_append, List.getLast?_cons_of_ne_nil hne, ht, Option.some_or]

/-- A program of one statement is a statement, or one with a semicolon. -/
theorem statement (h : DerivesProgram ts [tree]) (hopen : EndsOpen ts) :
    DerivesStatement ts tree := by
  cases h with
  | last h => exact h
  | cons _ hsemicolon hrest => exact absurd hrest.eq_nil (endsOpen_of_append hopen hsemicolon).1

/-- And an expression, if it neither declares nor defines. -/
theorem expression (h : DerivesProgram ts [tree]) (hopen : EndsOpen ts)
    (hdeclares : tree.isBinary .colon = false) (hdefines : tree.isBinary .assign = false) :
    Derives .quantified ts tree := by
  cases h.statement hopen with
  | expression h => exact h
  | declaration _ hcolon => simp [Tree.isBinary, hcolon] at hdeclares
  | definition _ _ hassign => simp [Tree.isBinary, hassign] at hdefines

/-- A program is read up to a semicolon whatever follows it. -/
theorem readProgramFrom_append (h : DerivesProgram ts trees) (hne : trees ≠ [])
    (hopen : EndsOpen ts) (hsemicolon : semicolon.kind = .semicolon) (finished : List Tree)
    (us : List Token) :
    Parser.readProgramFrom stop ⟨finished, .initial .statement⟩ (ts ++ semicolon :: us) =
      Parser.readProgramFrom stop ⟨trees.reverse ++ finished, .initial .statement⟩ us := by
  induction h generalizing finished with
  | empty => exact absurd rfl hne
  | last h =>
    obtain ⟨s, hsteps, hfinish⟩ := h.exists_steps
    rw [Parser.readProgramFrom_append hsteps, Parser.readProgramFrom_semicolon hsemicolon hfinish]
    rfl
  | @cons _ _ _ _ trees h hinner hrest ih =>
    obtain ⟨hrestNe, hrestOpen⟩ := endsOpen_of_append hopen hinner
    have htrees : trees ≠ [] := by
      rintro rfl
      exact hrestNe hrest.eq_nil
    obtain ⟨s, hsteps, hfinish⟩ := h.exists_steps
    rw [List.append_assoc, List.cons_append, Parser.readProgramFrom_append hsteps,
      Parser.readProgramFrom_semicolon hinner hfinish, ih htrees hrestOpen, List.reverse_cons,
      List.append_assoc]
    rfl

/-- So what follows is read as the program that it is. -/
theorem append_iff (h : DerivesProgram ts trees) (hne : trees ≠ []) (hopen : EndsOpen ts)
    (hsemicolon : semicolon.kind = .semicolon) (all : List Tree) :
    DerivesProgram (ts ++ semicolon :: us) all ↔
      ∃ rest, DerivesProgram us rest ∧ all = trees ++ rest := by
  have hread : Parser.programOfTokens 0 (ts ++ semicolon :: us) =
      Parser.readProgramFrom 0 ⟨trees.reverse ++ [], .initial .statement⟩ us :=
    h.readProgramFrom_append hne hopen hsemicolon [] us
  rw [List.append_nil] at hread
  rw [← @Parser.programOfTokens_eq_ok_iff 0, hread]
  constructor
  · intro hall
    obtain ⟨rest, hrest, hderives⟩ := Parser.derivesProgram_of_readAll (.initial .statement) hall
    rw [List.reverse_reverse] at hrest
    exact ⟨rest, hderives, hrest⟩
  · rintro ⟨rest, hderives, rfl⟩
    rw [Parser.readProgramFrom_of_derives hderives, List.reverse_reverse]

/-- The shifted tokens of a program are the shifted program. -/
theorem shift_iff (offset : Nat) :
    DerivesProgram (ts.map (Token.shift offset)) trees ↔
      ∃ trees', DerivesProgram ts trees' ∧ trees = trees'.map (Tree.shift offset) := by
  have halike : ReadAlike _ 0 0 ts (ts.map (Token.shift offset)) (Parser.programOfTokens 0 ts)
      (Parser.programOfTokens 0 (ts.map (Token.shift offset))) :=
    Parser.programOfTokens_alike (f := Token.shift offset) (g := id) (fun _ => rfl) (fun _ => rfl)
      (List.map_id _).symm
  simp only [← @Parser.programOfTokens_eq_ok_iff 0]
  generalize Parser.programOfTokens 0 ts = result at halike
  generalize Parser.programOfTokens 0 (ts.map (Token.shift offset)) = shifted at halike
  cases halike with
  | refused => simp
  | @read as bs hsame =>
    have hid : (Tree.map id : Tree → Tree) = id := funext Tree.map_id
    rw [hid, List.map_id] at hsame
    simp only [Except.ok.injEq, exists_eq_left', ← hsame, eq_comm]
    rfl

end DerivesProgram

/-! ## sources -/

/-- The source has no semicolon for its last token. -/
def Unterminated (source : String) : Prop := ∀ ts, tokenize source = .ok ts → EndsOpen ts

/-- The tokens of a text, a semicolon on a line of its own, and another text. -/
theorem tokenize_append {source : String} {ts : List Token} (h : tokenize source = .ok ts)
    (more : String) : ∃ semicolon : Token, semicolon.kind = .semicolon ∧ ∀ us,
      tokenize (source ++ "\n;\n" ++ more) = .ok us ↔ ∃ ts', tokenize more = .ok ts' ∧
        us = ts ++ semicolon :: ts'.map (Token.shift (source ++ "\n;\n").utf8ByteSize) := by
  have htiles := Lexer.tokensFrom_eq_ok_iff.1 h
  have htext : (source ++ "\n;\n" ++ more).toList =
      source.toList ++ '\n' :: ';' :: '\n' :: more.toList := by simp
  have hoffset : 0 + Lexer.byteLength (source.toList ++ ['\n']) + 2 =
      (source ++ "\n;\n").utf8ByteSize := by
    rw [String.utf8ByteSize_append, Lexer.byteLength_append, Lexer.byteLength_toList, Nat.zero_add]
    rfl
  refine ⟨Lexer.placed .semicolon [';'] (0 + Lexer.byteLength (source.toList ++ ['\n'])), rfl,
    fun us => ?_⟩
  rw [tokenize, htext, htiles.tokensFrom_append, Lexer.tokensFrom_semicolon, hoffset]
  constructor
  · intro hus
    cases hmore : Lexer.tokensFrom (source ++ "\n;\n").utf8ByteSize none more.toList with
    | error error =>
      rw [hmore] at hus
      cases hus
    | ok vs =>
      obtain ⟨ts', hts', rfl⟩ := (Lexer.tokensFrom_shift ..).1 hmore
      rw [hmore] at hus
      exact ⟨ts', hts', (Except.ok.inj hus).symm⟩
  · rintro ⟨ts', hts', rfl⟩
    rw [(Lexer.tokensFrom_shift ..).2 ⟨ts', hts', rfl⟩]
    rfl

/-- The two ways of reading a text agree, and programs can be put in a row.

* What is an expression is a program of one statement, which has the same tree.
* A program of one statement that neither declares nor defines, and that no
  semicolon ends, is an expression with the same tree.
* Behind a program of at least one statement that no semicolon ends, a semicolon
  on a line of its own, and another text, there are the statements of that text,
  shifted to where it starts, if it is a program; otherwise there is no program.
  The spans of what is shifted are shifted. -/
theorem parse_concatenates :
    (∀ source tree, parseExpression source = .ok tree → parseProgram source = .ok [tree]) ∧
    (∀ source tree, parseProgram source = .ok [tree] → Unterminated source →
      tree.isBinary .colon = false → tree.isBinary .assign = false →
      parseExpression source = .ok tree) ∧
    (∀ source more trees, parseProgram source = .ok trees → trees ≠ [] → Unterminated source →
      ∀ all, parseProgram (source ++ "\n;\n" ++ more) = .ok all ↔
        ∃ rest, parseProgram more = .ok rest ∧
          all = trees ++ rest.map (Tree.shift (source ++ "\n;\n").utf8ByteSize)) ∧
    ∀ offset (tree : Tree), (tree.shift offset).span = tree.span.shift offset := by
  refine ⟨fun source tree h => ?_, fun source tree h hopen hdeclares hdefines => ?_,
    fun source more trees h hne hopen all => ?_, Tree.span_shift⟩
  · obtain ⟨ts, htokens, hderives⟩ := parseExpression_eq_ok_iff.1 h
    exact parseProgram_eq_ok_iff.2 ⟨ts, htokens, .last (.expression hderives)⟩
  · obtain ⟨ts, htokens, hderives⟩ := parseProgram_eq_ok_iff.1 h
    exact parseExpression_eq_ok_iff.2
      ⟨ts, htokens, hderives.expression (hopen ts htokens) hdeclares hdefines⟩
  · obtain ⟨ts, htokens, hderives⟩ := parseProgram_eq_ok_iff.1 h
    obtain ⟨semicolon, hsemicolon, hall⟩ := tokenize_append htokens more
    simp only [parseProgram_eq_ok_iff, hall]
    constructor
    · rintro ⟨_, ⟨ts', hmore, rfl⟩, hwhole⟩
      obtain ⟨shifted, hshifted, rfl⟩ :=
        (hderives.append_iff hne (hopen ts htokens) hsemicolon all).1 hwhole
      obtain ⟨rest, hrest, rfl⟩ := (DerivesProgram.shift_iff _).1 hshifted
      exact ⟨rest, ⟨ts', hmore, hrest⟩, rfl⟩
    · rintro ⟨rest, ⟨ts', hmore, hrest⟩, rfl⟩
      exact ⟨_, ⟨ts', hmore, rfl⟩, (hderives.append_iff hne (hopen ts htokens) hsemicolon _).2
        ⟨_, (DerivesProgram.shift_iff _).2 ⟨rest, hrest, rfl⟩, rfl⟩⟩

/-- A comment keeps neither `a // ;` from being an expression nor what is put
behind it from being read. -/
theorem parse_concatenates_comment :
    let a : Token := ⟨.identifier, "a", ⟨0, 1⟩⟩
    let b : Token := ⟨.identifier, "b", ⟨0, 1⟩⟩
    Unterminated "a // ;" ∧ parseProgram "a // ;" = .ok [.terminal a] ∧
      parseExpression "a // ;" = .ok (.terminal a) ∧ parseProgram "b" = .ok [.terminal b] ∧
      parseProgram ("a // ;" ++ "\n;\n" ++ "b") = .ok [.terminal a, .terminal (b.shift 9)] := by
  intro a b
  have htokens : tokenize "a // ;" = .ok [a] := eq_ok_of_toOption (by decide +kernel)
  have hopen : Unterminated "a // ;" := by
    intro ts hts t ht
    cases htokens.symm.trans hts
    cases ht
    decide
  have hread : parseProgram "a // ;" = .ok [.terminal a] := eq_ok_of_toOption (by decide +kernel)
  have hmore : parseProgram "b" = .ok [.terminal b] := eq_ok_of_toOption (by decide +kernel)
  obtain ⟨-, hexpression, hrow, -⟩ := parse_concatenates
  exact ⟨hopen, hread, hexpression _ _ hread hopen rfl rfl, hmore,
    (hrow _ "b" _ hread (by simp) hopen _).2 ⟨_, hmore, rfl⟩⟩

end ArithLogic
