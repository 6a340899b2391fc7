import ArithLogic.Proofs.Reading.Kinds
import ArithLogic.Proofs.Reading.Tiling

/-!
# ArithLogic.Proofs.Reading.Spacing

What is between tokens does not matter.  No token has a blank in it, so none
goes on behind one (`Longest.append_blank`), and the tokens of a text may be set
apart by any gaps that begin with a blank: the lexer finds the same tokens in
other places (`tokenize_spread`).  Since the parser looks at kinds alone, the
text is then read alike.
-/

namespace ArithLogic

namespace Lexer

open Text

variable {kind : TokenKind} {lexeme rest : List Char} {c : Char}

/-! ## what follows a token -/

/-- No token has a blank in it. -/
theorem Spells.isBlank_eq_false (h : Spells kind lexeme) : ∀ c ∈ lexeme, isBlank c = false := by
  cases h with
  | operator hkind =>
    have hall : ∀ kind ∈ TokenKind.operators, (spelled kind).all (fun c => !isBlank c) = true := by
      decide
    simpa using hall kind hkind
  | word hword => exact fun d hd => isBlank_eq_false_of_isWordChar (hword.isWordChar_of_mem hd)
  | literal hdigits =>
    exact fun d hd => isBlank_eq_false_of_isWordChar (isWordChar_of_isDigit (hdigits.2 d hd))

/-- No token begins with a comment. -/
theorem Spells.noComment (h : Spells kind lexeme) : ¬ ['/', '/'] <+: lexeme := by
  cases h with
  | operator hkind =>
    have hall : ∀ kind ∈ TokenKind.operators, ¬ ['/', '/'] <+: spelled kind := by decide
    exact hall kind hkind
  | word hword =>
    rintro ⟨_, rfl⟩
    obtain ⟨c, tail, hcs, hstart, -⟩ := hword
    cases hcs
    exact absurd hstart (by decide)
  | literal hdigits =>
    rintro ⟨_, rfl⟩
    exact absurd (hdigits.2 '/' List.mem_cons_self) (by decide)

/-- A token by itself is the longest. -/
theorem Spells.longest (h : Spells kind lexeme) : Longest kind lexeme [] where
  spells := h
  length_le k l _ hstarts := by simpa using hstarts.length_le
  noComment := by simpa using h.noComment

/-- What begins a text and lacks a character of it ends in front of that. -/
theorem prefix_of_not_mem {as bs cs : List Char} (h : cs <+: as ++ c :: bs) (hc : c ∉ cs) :
    cs <+: as := by
  rcases List.prefix_or_prefix_of_prefix h (List.prefix_append ..) with hprefix | ⟨tail, rfl⟩
  · exact hprefix
  · cases tail with
    | nil => simp
    | cons d tail =>
      rw [List.prefix_append_right_inj, List.cons_prefix_cons] at h
      exact absurd (by simp [h.1]) hc

/-- A blank behind it ends a token. -/
theorem Longest.append_blank (h : Longest kind lexeme rest) (hblank : isBlank c = true)
    (more : List Char) : Longest kind lexeme (rest ++ c :: more) where
  spells := h.spells
  length_le k l hspells hstarts := by
    rw [← List.append_assoc] at hstarts
    refine h.length_le k l hspells (prefix_of_not_mem hstarts fun hmem => ?_)
    rw [hspells.isBlank_eq_false c hmem] at hblank
    cases hblank
  noComment hcomment := by
    rw [← List.append_assoc] at hcomment
    refine h.noComment (prefix_of_not_mem hcomment fun hmem => ?_)
    have hslash : c = '/' := by simpa using hmem
    rw [hslash] at hblank
    exact absurd hblank (by decide)

/-- Where nothing or a blank follows, a token ends. -/
theorem Spells.longest_of_blank (h : Spells kind lexeme)
    (hrest : ∀ c, rest.head? = some c → isBlank c = true) : Longest kind lexeme rest := by
  cases rest with
  | nil => exact h.longest
  | cons c more => exact h.longest.append_blank (hrest c rfl) more

/-! ## gaps that keep tokens apart -/

/-- The spellings of tokens with gaps: one in front, and one behind each. -/
def spread (gap : String) : List Token → List String → String
  | t :: ts, next :: gaps => gap ++ t.text ++ spread next ts gaps
  | _, _ => gap

/-- The gaps, the first in front of the tokens and one more behind each, keep
the tokens apart.  Behind a token they begin with a blank; the last one alone
may be empty, or end inside a comment. -/
structure Apart (first : String) (gaps : List String) : Prop where
  first : Gap gaps.isEmpty first.toList
  between : ∀ gap ∈ gaps.dropLast, gap ≠ "" ∧ Gap false gap.toList
  last : ∀ gap, gaps.getLast? = some gap → Gap true gap.toList
  blank : ∀ gap ∈ gaps, ∀ c, gap.toList.head? = some c → isBlank c = true

/-- Behind the first token it is the same. -/
theorem Apart.tail {first next : String} {gaps : List String} (h : Apart first (next :: gaps)) :
    Apart next gaps where
  first := by
    cases gaps with
    | nil => exact h.last next rfl
    | cons gap gaps => exact (h.between next (by simp)).2
  between gap hgap := by
    cases gaps with
    | nil => cases hgap
    | cons _ gaps => exact h.between gap (by rw [List.dropLast_cons_cons]; exact .tail _ hgap)
  last gap hgap := h.last gap (by simp [List.getLast?_cons, hgap])
  blank gap hgap := h.blank gap (.tail _ hgap)

/-- A gap behind a token, and what follows, begins with a blank. -/
theorem Apart.head?_spread {first next : String} {gaps : List String} {ts : List Token}
    (h : Apart first (next :: gaps)) (hlength : gaps.length = ts.length) :
    ∀ c, (spread next ts gaps).toList.head? = some c → isBlank c = true := by
  cases gaps with
  | nil =>
    cases ts with
    | nil => exact h.blank next List.mem_cons_self
    | cons => cases hlength
  | cons gap gaps =>
    cases ts with
    | nil => cases hlength
    | cons t ts =>
      obtain ⟨c, tail, hnext⟩ := List.exists_cons_of_ne_nil fun hnil =>
        (h.between next (by simp)).1 (String.toList_eq_nil_iff.1 hnil)
      intro d hd
      simp only [spread, String.toList_append, hnext, List.cons_append, List.head?_cons,
        Option.some.injEq] at hd
      exact h.blank next List.mem_cons_self d (by rw [hnext, ← hd]; rfl)

theorem Tiles.spells {atEnd : Bool} {start : Nat} {cs : List Char} {ts : List Token}
    (h : Tiles atEnd start cs ts) : ∀ t ∈ ts, Spells t.kind t.text.toList := by
  induction h with
  | last => exact List.forall_mem_nil _
  | token _ hlongest _ ih =>
    rw [List.forall_mem_cons]
    exact ⟨by simpa [placed] using hlongest.spells, ih⟩

/-- Tokens that are kept apart are read as what they are. -/
theorem exists_tiles_spread {ts : List Token} (hspells : ∀ t ∈ ts, Spells t.kind t.text.toList)
    {gap : String} {gaps : List String} (h : Apart gap gaps) (hlength : gaps.length = ts.length)
    (start : Nat) : ∃ us, Tiles true start (spread gap ts gaps).toList us ∧
      us.map Token.unplaced = ts.map Token.unplaced := by
  induction ts generalizing gap gaps start with
  | nil =>
    obtain rfl := List.length_eq_zero_iff.1 hlength
    exact ⟨[], .last h.first, rfl⟩
  | cons t ts ih =>
    rw [List.forall_mem_cons] at hspells
    cases gaps with
    | nil => cases hlength
    | cons next gaps =>
      have hlength := Nat.succ.inj hlength
      obtain ⟨us, htiles, hus⟩ := ih hspells.2 h.tail hlength
        (start + byteLength gap.toList + byteLength t.text.toList)
      have htoken :=
        Tiles.token h.first (hspells.1.longest_of_blank (h.head?_spread hlength)) htiles
      refine ⟨placed t.kind t.text.toList (start + byteLength gap.toList) :: us, ?_, ?_⟩
      · simpa only [spread, String.toList_append, List.append_assoc] using htoken
      · rw [List.map_cons, hus]
        simp [placed, Token.unplaced]

end Lexer

/-- Texts whose tokens differ in places alone are read alike. -/
theorem parse_alike {source source' : String} {ts us : List Token} (hts : tokenize source = .ok ts)
    (hus : tokenize source' = .ok us) (h : ts.map Token.unplaced = us.map Token.unplaced) :
    ReadAlike (fun a b : Tree => a.map Token.unplaced = b.map Token.unplaced) source.utf8ByteSize
        source'.utf8ByteSize ts us (parseExpression source) (parseExpression source') ∧
      ReadAlike (fun as bs : List Tree =>
          as.map (Tree.map Token.unplaced) = bs.map (Tree.map Token.unplaced)) source.utf8ByteSize
        source'.utf8ByteSize ts us (parseProgram source) (parseProgram source') := by
  simp only [parseExpression, parseProgram, hts, hus, bind, Except.bind]
  exact ⟨Parser.expressionOfTokens_alike (fun _ => rfl) (fun _ => rfl) h,
    Parser.programOfTokens_alike (fun _ => rfl) (fun _ => rfl) h⟩

/-- Lexing is insensitive to what is between tokens.  If the tokens of a source
are set apart by any gaps, each a run of white space and comments and beginning
with white space behind a token, the text is read as tokens of the same kinds
and spellings.  So as an expression and as a program it is read as the same, but
for places, or refused by the parser at the token of the same position, or at
the end as the source is, and for want of the same. -/
theorem tokenize_spread {source first : String} {gaps : List String} {ts : List Token}
    (h : tokenize source = .ok ts) (hgaps : Lexer.Apart first gaps)
    (hlength : gaps.length = ts.length) :
    let text := Lexer.spread first ts gaps
    ∃ us, tokenize text = .ok us ∧ us.map Token.unplaced = ts.map Token.unplaced ∧
      ReadAlike (fun a b : Tree => a.map Token.unplaced = b.map Token.unplaced)
        source.utf8ByteSize text.utf8ByteSize ts us (parseExpression source)
        (parseExpression text) ∧
      ReadAlike (fun as bs : List Tree =>
          as.map (Tree.map Token.unplaced) = bs.map (Tree.map Token.unplaced))
        source.utf8ByteSize text.utf8ByteSize ts us (parseProgram source) (parseProgram text) := by
  intro text
  have hspells := (Lexer.tokensFrom_eq_ok_iff.1 h).spells
  obtain ⟨us, htiles, hus⟩ := Lexer.exists_tiles_spread hspells hgaps hlength 0
  have htext : tokenize text = .ok us := htiles.tokensFrom none
  exact ⟨us, htext, hus, parse_alike h htext hus.symm⟩

/-- `a->)` is refused at its third token, and so is it where comments that look
like tokens set the tokens apart. -/
theorem tokenize_spread_comments :
    let ts : List Token :=
      [⟨.identifier, "a", ⟨0, 1⟩⟩, ⟨.arrow, "->", ⟨1, 3⟩⟩, ⟨.closeParen, ")", ⟨3, 4⟩⟩]
    let text := "// (\na\n-> //->\n) // b"
    tokenize "a->)" = .ok ts ∧ Lexer.Apart "// (\n" ["\n", " //->\n", " // b"] ∧
      ∃ us e t, tokenize text = .ok us ∧ us.map Token.unplaced = ts.map Token.unplaced ∧
        parseExpression text = .error e ∧ us[2]? = some t ∧ e.found = .token t ∧
        e.span = t.span := by
  intro ts text
  have htokens : tokenize "a->)" = .ok ts := eq_ok_of_toOption (by decide +kernel)
  have hrefused : parseExpression "a->)" =
      .error ⟨.parsing, .token ⟨.closeParen, ")", ⟨3, 4⟩⟩, [.implication], ⟨3, 4⟩⟩ := by
    rw [parseExpression, htokens]
    rfl
  have hgaps : Lexer.Apart "// (\n" ["\n", " //->\n", " // b"] := {
    first := @Lexer.Gap.comment false [' ', '('] [] (by decide) .nil
    between := by
      simp only [List.dropLast, List.forall_mem_cons]
      exact ⟨⟨by decide, .blank rfl .nil⟩, ⟨by decide, .blank rfl
        (@Lexer.Gap.comment false ['-', '>'] [] (by decide) .nil)⟩, List.forall_mem_nil _⟩
    last := by
      rintro gap ⟨rfl⟩
      exact .blank rfl (@Lexer.Gap.openComment true [' ', 'b'] rfl (by decide))
    blank := by
      simp only [List.forall_mem_cons]
      exact ⟨by rintro c ⟨rfl⟩; rfl, by rintro c ⟨rfl⟩; rfl, by rintro c ⟨rfl⟩; rfl,
        List.forall_mem_nil _⟩ }
  obtain ⟨us, hus, hsame, hexpression, -⟩ := tokenize_spread htokens hgaps rfl
  rw [hrefused] at hexpression
  have htext : Lexer.spread "// (\n" ts ["\n", " //->\n", " // b"] = text := by decide
  rw [htext] at hus hexpression
  refine ⟨htokens, hgaps, us, ?_⟩
  generalize parseExpression text = result at hexpression
  cases hexpression with
  | @refused position _ e _ _ hat hat' =>
    rcases position with _ | _ | _ | position
    · cases hat.1
    · cases hat.1
    · have hlength : us.length = 3 := by simpa [ts] using congrArg List.length hsame
      rw [SyntaxError.AtToken, List.getElem?_eq_getElem (by omega)] at hat'
      exact ⟨e, us[2], hus, hsame, rfl, List.getElem?_eq_getElem (by omega), hat'⟩
    · cases hat.2.1

end ArithLogic
