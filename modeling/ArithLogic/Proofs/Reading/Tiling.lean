import ArithLogic.Proofs.Reading.Lexing

/-!
# ArithLogic.Proofs.Reading.Tiling

The lexer tiles the text.  `Lexer.Tiles` says without reference to the lexer
how tokens lie in a text: gaps of white space and comments alternate with
tokens, and each token is the longest spelling that begins at its place
(`Lexer.Longest`).  The tokens of a text are those that tile it, and a text
that cannot be tiled is refused at the first place where neither a gap nor a
token goes on (`tokenize_tiles`).
-/

namespace ArithLogic.Lexer

open Text

variable {cs rest gap lexeme : List Char} {kind : TokenKind} {ts : List Token} {c : Char}
  {start : Nat}

/-! ## longest spellings -/

/-- Of the operators that a text begins with, the one that is found is the
longest. -/
theorem spelled_prefix_of_operator? {found : TokenKind} (hfound : operator? cs = some found)
    (hkind : kind ∈ TokenKind.operators) (hstarts : spelled kind <+: cs) :
    spelled kind <+: spelled found := by
  obtain ⟨hmatch, before, after, hsplit, hbefore⟩ := List.find?_eq_some_iff_append.1 hfound
  rw [List.isPrefixOf_iff_prefix] at hmatch
  -- no operator in the list is a beginning of a later one
  have hpairwise : TokenKind.operators.Pairwise fun a b => ¬ spelled a <+: spelled b := by decide
  rw [hsplit] at hkind hpairwise
  rcases List.mem_append.1 hkind with hearlier | hlater
  · have hnot := hbefore kind hearlier
    rw [List.isPrefixOf_iff_prefix.2 hstarts] at hnot
    cases hnot
  · rcases List.mem_cons.1 hlater with rfl | hlater
    · exact List.prefix_refl _
    · have hnot := List.rel_of_pairwise_cons (List.pairwise_append.1 hpairwise).2.1 hlater
      exact (List.prefix_or_prefix_of_prefix hstarts hmatch).resolve_right hnot

/-- A beginning whose characters are all of one sort is part of the run of
them. -/
theorem prefix_takeWhile {p : Char → Bool} (hstarts : lexeme <+: cs)
    (hall : ∀ c ∈ lexeme, p c = true) : lexeme <+: cs.takeWhile p := by
  obtain ⟨rest, rfl⟩ := hstarts
  rw [List.takeWhile_append_of_pos hall]
  exact List.prefix_append ..

/-- Where a token is spelled a token is read, no shorter one, and this one if
it is not longer. -/
theorem Spells.exists_lexeme? (h : Spells kind lexeme) (hstarts : lexeme <+: cs) :
    ∃ k l, lexeme? cs = some (k, l) ∧ lexeme <+: l ∧ (lexeme = l → kind = k) := by
  cases h with
  | operator hkind =>
    obtain ⟨found, hfound⟩ : ∃ found, operator? cs = some found := by
      rw [← Option.isSome_iff_exists, operator?, List.find?_isSome]
      exact ⟨kind, hkind, List.isPrefixOf_iff_prefix.2 hstarts⟩
    have hinjective : ∀ a ∈ TokenKind.operators, ∀ b ∈ TokenKind.operators,
        spelled a = spelled b → a = b := by decide
    exact ⟨found, spelled found, by simp only [lexeme?, hfound],
      spelled_prefix_of_operator? hfound hkind hstarts,
      hinjective kind hkind found (List.mem_of_find?_eq_some hfound)⟩
  | word hword =>
    obtain ⟨c, tail, rfl, hstart, htail⟩ := hword
    have hword := isWordChar_of_isWordStart hstart
    have hrun := prefix_takeWhile (p := isWordChar) hstarts (by simpa [hword] using htail)
    obtain ⟨rest, rfl⟩ := hstarts
    refine ⟨_, _, ?_, hrun, congrArg wordKind⟩
    simp only [lexeme?, List.cons_append, operator?_eq_none hword, if_pos hstart]
  | literal hdigits =>
    obtain ⟨hne, hall⟩ := hdigits
    have hrun := prefix_takeWhile (p := Char.isDigit) hstarts hall
    obtain ⟨rest, rfl⟩ := hstarts
    obtain ⟨c, tail, rfl⟩ := List.exists_cons_of_ne_nil hne
    have hdigit := hall c List.mem_cons_self
    refine ⟨_, _, ?_, hrun, fun _ => rfl⟩
    simp only [lexeme?, List.cons_append, operator?_eq_none (isWordChar_of_isDigit hdigit),
      isWordStart_eq_false_of_isDigit hdigit, Bool.false_eq_true, if_false, if_pos hdigit]

/-- The token that is read is the longest one that is spelled. -/
theorem lexeme?_eq_some_iff : lexeme? cs = some (kind, lexeme) ↔
    Spells kind lexeme ∧ lexeme <+: cs ∧
      ∀ k l, Spells k l → l <+: cs → l.length ≤ lexeme.length := by
  constructor
  · intro h
    refine ⟨spells_of_lexeme? h, prefix_of_lexeme? h, fun k l hspells hstarts => ?_⟩
    obtain ⟨_, _, hfound, hle, -⟩ := hspells.exists_lexeme? hstarts
    cases h.symm.trans hfound
    exact hle.length_le
  · rintro ⟨hspells, hstarts, hlongest⟩
    obtain ⟨k, l, hfound, hle, hkind⟩ := hspells.exists_lexeme? hstarts
    have hlength := hlongest k l (spells_of_lexeme? hfound) (prefix_of_lexeme? hfound)
    have heq := hle.eq_of_length (Nat.le_antisymm hle.length_le hlength)
    rw [hfound, heq, hkind heq]

/-- No token is read exactly where none is spelled. -/
theorem lexeme?_eq_none_iff :
    lexeme? cs = none ↔ ∀ k l, Spells k l → ¬ l <+: cs := by
  constructor
  · intro h k l hspells hstarts
    obtain ⟨_, _, hfound, -⟩ := hspells.exists_lexeme? hstarts
    cases h.symm.trans hfound
  · intro h
    cases hlex : lexeme? cs with
    | none => rfl
    | some found => exact absurd (prefix_of_lexeme? hlex) (h _ _ (spells_of_lexeme? hlex))

/-- A token begins with something, which is no white space. -/
theorem Spells.exists_cons (h : Spells kind lexeme) :
    ∃ c tail, lexeme = c :: tail ∧ isBlank c = false := by
  cases h with
  | operator hkind =>
    cases kind <;> first | exact absurd hkind (by decide) | exact ⟨_, _, rfl, by decide⟩
  | word hword =>
    obtain ⟨c, tail, rfl, hstart, -⟩ := hword
    exact ⟨c, tail, rfl, isBlank_eq_false_of_isWordChar (isWordChar_of_isWordStart hstart)⟩
  | literal hdigits =>
    obtain ⟨c, tail, rfl⟩ := List.exists_cons_of_ne_nil hdigits.1
    have hdigit := hdigits.2 c List.mem_cons_self
    exact ⟨c, tail, rfl, isBlank_eq_false_of_isWordChar (isWordChar_of_isDigit hdigit)⟩

/-- The first characters of a text are the longest that spell a token there,
and no comment begins with them. -/
structure Longest (kind : TokenKind) (lexeme rest : List Char) : Prop where
  spells : Spells kind lexeme
  length_le : ∀ k l, Spells k l → l <+: lexeme ++ rest → l.length ≤ lexeme.length
  noComment : ¬ ['/', '/'] <+: lexeme ++ rest

/-- Neither white space nor a comment nor a token begins with the character,
where `rest` follows it. -/
structure Stuck (c : Char) (rest : List Char) : Prop where
  noBlank : isBlank c = false
  noComment : ¬ ['/', '/'] <+: c :: rest
  noToken : ∀ k l, Spells k l → ¬ l <+: c :: rest

/-- An `!` where no token begins is not followed by `=`. -/
theorem Stuck.head?_ne (h : Stuck '!' rest) : rest.head? ≠ some '=' := by
  intro hhead
  obtain ⟨tail, rfl⟩ := List.head?_eq_some_iff.1 hhead
  exact h.noToken .notEqual ['!', '='] (.operator (by decide)) ⟨tail, rfl⟩

namespace Longest

theorem lexeme?_eq (h : Longest kind lexeme rest) :
    lexeme? (lexeme ++ rest) = some (kind, lexeme) :=
  lexeme?_eq_some_iff.2 ⟨h.spells, List.prefix_append .., h.length_le⟩

/-- It is the longest also where less follows. -/
theorem of_append {more : List Char} (h : Longest kind lexeme (rest ++ more)) :
    Longest kind lexeme rest where
  spells := h.spells
  length_le k l hspells hstarts := by
    refine h.length_le k l hspells (hstarts.trans ?_)
    rw [← List.append_assoc]
    exact List.prefix_append ..
  noComment hcomment := by
    refine h.noComment (hcomment.trans ?_)
    rw [← List.append_assoc]
    exact List.prefix_append ..

end Longest

/-! ## gaps -/

/-- White space and comments.  A comment goes from `//` to before the next line
feed; in a gap that is `atEnd` the last one may go on to the end. -/
inductive Gap (atEnd : Bool) : List Char → Prop
  | nil : Gap atEnd []
  | blank {c : Char} {cs : List Char} : isBlank c = true → Gap atEnd cs → Gap atEnd (c :: cs)
  | comment {body cs : List Char} :
      '\n' ∉ body → Gap atEnd cs → Gap atEnd ('/' :: '/' :: (body ++ '\n' :: cs))
  | openComment {body : List Char} :
      atEnd = true → '\n' ∉ body → Gap atEnd ('/' :: '/' :: body)

/-- What a comment says is skipped. -/
theorem triviaLength_comment {body : List Char} (hbody : '\n' ∉ body) (rest : List Char) :
    triviaLength true (body ++ rest) = body.length + triviaLength true rest := by
  induction body with
  | nil => simp
  | cons c body ih =>
    rw [List.mem_cons, not_or] at hbody
    have hnext : (c != '\n') = true := bne_iff_ne.2 (Ne.symm hbody.1)
    simp only [triviaLength, List.cons_append, if_true, hnext, ih hbody.2, List.length_cons]
    omega

/-- A line feed ends a comment. -/
theorem triviaLength_lineFeed (cs : List Char) :
    triviaLength true ('\n' :: cs) = triviaLength false cs + 1 := by
  simp [triviaLength]

theorem triviaLength_slashes (cs : List Char) :
    triviaLength false ('/' :: '/' :: cs) = triviaLength true cs + 2 := by
  have hblank : isBlank '/' = false := by decide
  simp [triviaLength, hblank]

/-- A gap is skipped. -/
theorem Gap.triviaLength_append {atEnd : Bool} (h : Gap atEnd gap)
    (hend : atEnd = true → rest = []) :
    triviaLength false (gap ++ rest) = gap.length + triviaLength false rest := by
  induction h with
  | nil => simp
  | blank hblank _ ih =>
    simp only [List.cons_append, triviaLength, Bool.false_eq_true, if_false, if_pos hblank, ih,
      List.length_cons]
    omega
  | comment hbody _ ih =>
    simp only [List.cons_append, List.append_assoc, triviaLength_slashes,
      triviaLength_comment hbody, triviaLength_lineFeed, ih, List.length_cons, List.length_append]
    omega
  | openComment hatEnd hbody =>
    rw [hend hatEnd, List.cons_append, List.cons_append, triviaLength_slashes,
      triviaLength_comment hbody]
    rfl

/-- Every text begins with a gap, behind which there is nothing, or neither
white space nor a comment. -/
theorem exists_gap (cs : List Char) : Gap true cs ∨
    ∃ gap c rest, cs = gap ++ c :: rest ∧ Gap false gap ∧ isBlank c = false ∧
      ¬ ['/', '/'] <+: c :: rest := by
  match cs with
  | [] => exact .inl .nil
  | c :: cs =>
    cases hblank : isBlank c with
    | true =>
      rcases exists_gap cs with hgap | ⟨gap, d, rest, rfl, hgap, hd⟩
      · exact .inl (.blank hblank hgap)
      · exact .inr ⟨c :: gap, d, rest, rfl, .blank hblank hgap, hd⟩
    | false =>
      by_cases hcomment : ['/', '/'] <+: c :: cs
      · obtain ⟨behind, hbehind⟩ := hcomment
        cases hbehind
        by_cases hfeed : '\n' ∈ behind
        · obtain ⟨body, after, rfl, hbody⟩ := List.eq_append_cons_of_mem hfeed
          rcases exists_gap after with hgap | ⟨gap, d, rest, rfl, hgap, hd⟩
          · exact .inl (.comment hbody hgap)
          · refine .inr ⟨'/' :: '/' :: (body ++ '\n' :: gap), d, rest, ?_, .comment hbody hgap, hd⟩
            simp
        · exact .inl (.openComment rfl hfeed)
      · exact .inr ⟨[], c, cs, rfl, .nil, hblank, hcomment⟩
termination_by cs.length

/-- What begins with neither white space nor a comment begins with no gap. -/
theorem triviaLength_eq_zero_of_noComment (hblank : isBlank c = false)
    (hcomment : ¬ ['/', '/'] <+: c :: rest) : triviaLength false (c :: rest) = 0 := by
  refine triviaLength_eq_zero hblank ?_
  rintro rfl hhead
  obtain ⟨tail, rfl⟩ := List.head?_eq_some_iff.1 hhead
  exact hcomment ⟨tail, rfl⟩

/-- A token begins with no gap. -/
theorem Longest.triviaLength_eq (h : Longest kind lexeme rest) :
    triviaLength false (lexeme ++ rest) = 0 := by
  obtain ⟨c, tail, rfl, hblank⟩ := h.spells.exists_cons
  exact triviaLength_eq_zero_of_noComment hblank h.noComment

/-- Behind a gap the text goes on. -/
theorem drop_gap (hgap : Gap false gap) (hrest : triviaLength false rest = 0) (start : Nat) :
    (gap ++ rest).drop (triviaLength false (gap ++ rest)) = rest ∧
      afterTrivia start (gap ++ rest) = start + byteLength gap := by
  have hlength : triviaLength false (gap ++ rest) = gap.length := by
    rw [hgap.triviaLength_append (by simp), hrest, Nat.add_zero]
  rw [afterTrivia, hlength, List.drop_left, List.take_left]
  exact ⟨rfl, rfl⟩

/-! ## tilings -/

/-- The token that the characters are at a place. -/
def placed (kind : TokenKind) (lexeme : List Char) (start : Nat) : Token :=
  ⟨kind, String.ofList lexeme, ⟨start, start + byteLength lexeme⟩⟩

/-- The tokens, with gaps before, between and after them, are the text that
starts at byte `start`.  Whether the last gap is `atEnd` says whether the text
may end inside a comment. -/
inductive Tiles (atEnd : Bool) : Nat → List Char → List Token → Prop
  | last {start : Nat} {gap : List Char} : Gap atEnd gap → Tiles atEnd start gap []
  | token {start : Nat} {gap lexeme rest : List Char} {kind : TokenKind} {ts : List Token} :
      Gap false gap → Longest kind lexeme rest →
      Tiles atEnd (start + byteLength gap + byteLength lexeme) rest ts →
      Tiles atEnd start (gap ++ (lexeme ++ rest)) (placed kind lexeme (start + byteLength gap) :: ts)

/-- One token is read behind a gap, and then the others. -/
theorem tokensFrom_of_longest (hgap : Gap false gap) (hlongest : Longest kind lexeme rest)
    (start : Nat) (last : Option TokenKind) :
    tokensFrom start last (gap ++ (lexeme ++ rest)) =
      (tokensFrom (start + byteLength gap + byteLength lexeme) (some kind) rest).map
        (placed kind lexeme (start + byteLength gap) :: ·) := by
  obtain ⟨hdrop, hafter⟩ := drop_gap hgap hlongest.triviaLength_eq start
  rw [tokensFrom_of_lexeme? start last hdrop hlongest.lexeme?_eq, hafter]
  rfl

/-- Tokens that tile a text are read. -/
theorem Tiles.tokensFrom (h : Tiles true start cs ts) (last : Option TokenKind) :
    Lexer.tokensFrom start last cs = .ok ts := by
  induction h generalizing last with
  | @last start gap hgap =>
    refine tokensFrom_of_drop_eq_nil _ _ (List.drop_eq_nil_iff.2 ?_)
    have hlength : triviaLength false (gap ++ []) = gap.length :=
      hgap.triviaLength_append fun _ => rfl
    rw [List.append_nil] at hlength
    exact Nat.le_of_eq hlength.symm
  | token hgap hlongest _ ih =>
    rw [tokensFrom_of_longest hgap hlongest, ih]
    rfl

/-- A text is tiled by the tokens that are read, or the error is at a place
where nothing begins, and the text up to there is tiled. -/
theorem tokensFrom_tiles (start : Nat) (last : Option TokenKind) (cs : List Char) :
    (∃ ts, tokensFrom start last cs = .ok ts ∧ Tiles true start cs ts) ∨
      ∃ before c after ts last', cs = before ++ c :: after ∧ Tiles false start before ts ∧
        Stuck c after ∧
        tokensFrom start last cs = .error (refuse (start + byteLength before) last' c after) := by
  rcases exists_gap cs with hgap | ⟨gap, c, rest, hcs, hgap, hblank, hcomment⟩
  · have htiles : Tiles true start cs [] := .last hgap
    exact .inl ⟨[], htiles.tokensFrom last, htiles⟩
  · cases hlex : lexeme? (c :: rest) with
    | none =>
      obtain ⟨hdrop, hafter⟩ :=
        drop_gap hgap (triviaLength_eq_zero_of_noComment hblank hcomment) start
      rw [hcs, tokensFrom_of_lexeme?_eq_none start last hdrop hlex, hafter]
      exact .inr ⟨gap, c, rest, [], _, rfl, .last hgap,
        ⟨hblank, hcomment, lexeme?_eq_none_iff.1 hlex⟩, rfl⟩
    | some found =>
      obtain ⟨kind, lexeme⟩ := found
      obtain ⟨behind, hbehind⟩ := prefix_of_lexeme? hlex
      rw [← hbehind] at hlex hcomment hcs
      have hlongest : Longest kind lexeme behind :=
        ⟨(lexeme?_eq_some_iff.1 hlex).1, (lexeme?_eq_some_iff.1 hlex).2.2, hcomment⟩
      have hshorter : behind.length < cs.length := by
        have hpos := List.length_pos_iff.2 (lexeme_ne_nil hlex)
        rw [hcs, List.length_append, List.length_append]
        omega
      rcases tokensFrom_tiles (start + byteLength gap + byteLength lexeme) (some kind) behind with
        ⟨ts, hok, htiles⟩ | ⟨before, d, after, ts, last', hsplit, htiles, hstuck, herror⟩
      · rw [hcs, tokensFrom_of_longest hgap hlongest, hok]
        exact .inl ⟨_, rfl, .token hgap hlongest htiles⟩
      · rw [hcs, tokensFrom_of_longest hgap hlongest, herror]
        rw [hsplit] at hlongest ⊢
        refine .inr ⟨gap ++ (lexeme ++ before), d, after, _, last', by simp,
          .token hgap hlongest.of_append htiles, hstuck, ?_⟩
        simp only [Except.map, byteLength_append, Nat.add_assoc]
termination_by cs.length

/-- Tokens are read exactly if they tile the text. -/
theorem tokensFrom_eq_ok_iff {last : Option TokenKind} :
    tokensFrom start last cs = .ok ts ↔ Tiles true start cs ts := by
  refine ⟨fun h => ?_, fun h => h.tokensFrom last⟩
  rcases tokensFrom_tiles start last cs with ⟨us, hok, htiles⟩ | ⟨_, _, _, _, _, -, -, -, herror⟩
  · cases hok.symm.trans h
    exact htiles
  · cases herror.symm.trans h

/-! ## places -/

/-- The length of a text in bytes is that of the string. -/
theorem byteLength_eq (cs : List Char) : byteLength cs = (String.ofList cs).utf8ByteSize := by
  induction cs with
  | nil => rfl
  | cons c cs ih =>
    rw [byteLength_cons, ih, String.ofList_cons, String.utf8ByteSize_append,
      String.utf8ByteSize_singleton]

theorem byteLength_toList (text : String) : byteLength text.toList = text.utf8ByteSize := by
  rw [byteLength_eq, String.ofList_toList]

theorem byteLength_pos (h : cs ≠ []) : 0 < byteLength cs := by
  obtain ⟨c, cs, rfl⟩ := List.exists_cons_of_ne_nil h
  exact Nat.lt_of_lt_of_le c.utf8Size_pos (Nat.le_add_right ..)

namespace Gap

/-- A gap in the middle could as well be at the end. -/
theorem at_end (h : Gap false gap) : Gap true gap := by
  induction h with
  | nil => exact .nil
  | blank hblank _ ih => exact .blank hblank ih
  | comment hbody _ ih => exact .comment hbody ih
  | openComment hend => cases hend

end Gap

namespace Tiles

variable {atEnd : Bool}

/-- What ends outside comments may be the whole text. -/
theorem at_end (h : Tiles false start cs ts) : Tiles true start cs ts := by
  induction h with
  | last hgap => exact .last hgap.at_end
  | token hgap hlongest _ ih => exact .token hgap hlongest ih

/-- Each token is the text at its place, and not empty. -/
theorem exists_slice (h : Tiles atEnd start cs ts) : ∀ t ∈ ts, ∃ before after,
    cs = before ++ (t.text.toList ++ after) ∧ t.text.toList ≠ [] ∧
      t.span = ⟨start + byteLength before,
        start + byteLength before + byteLength t.text.toList⟩ := by
  induction h with
  | last => simp
  | @token start gap lexeme rest kind ts _ hlongest _ ih =>
    rw [List.forall_mem_cons]
    refine ⟨⟨gap, rest, ?_⟩, fun t ht => ?_⟩
    · simpa [placed] using lexeme_ne_nil hlongest.lexeme?_eq
    · obtain ⟨before, after, rfl, hne, hspan⟩ := ih t ht
      exact ⟨gap ++ (lexeme ++ before), after, by simp, hne, by simp [hspan, Nat.add_assoc]⟩

/-- No token begins before an earlier one ends. -/
theorem pairwise (h : Tiles atEnd start cs ts) :
    ts.Pairwise fun a b => a.span.stop ≤ b.span.start := by
  induction h with
  | last => exact .nil
  | token _ _ hrest ih =>
    refine .cons (fun t ht => ?_) ih
    obtain ⟨before, after, -, -, hspan⟩ := hrest.exists_slice t ht
    rw [hspan]
    exact Nat.le_add_right ..

end Tiles

end ArithLogic.Lexer

namespace ArithLogic

/-- The error was found at byte `start`, where `rest` is the remaining text: it
is at the first character of that, or at the end of the text. -/
def SyntaxError.At (error : SyntaxError) (start : Nat) (rest : List Char) : Prop :=
  error.stage = .lexing ∧
    match rest with
    | [] => error.found = .endOfInput ∧ error.span = ⟨start, start⟩
    | c :: _ => error.found = .character c ∧ error.span = ⟨start, start + c.utf8Size⟩

/-- The error is where nothing begins, or behind an `!` there. -/
theorem Lexer.Stuck.refuse_at {c : Char} {rest : List Char} (h : Lexer.Stuck c rest) (start : Nat)
    (last : Option TokenKind) :
    (c ≠ '!' ∧ (Lexer.refuse start last c rest).At start (c :: rest)) ∨
      (c = '!' ∧ rest.head? ≠ some '=' ∧
        (Lexer.refuse start last c rest).At (start + c.utf8Size) rest) := by
  by_cases hc : c = '!'
  · subst hc
    refine .inr ⟨rfl, h.head?_ne, ?_⟩
    cases rest <;> exact ⟨rfl, rfl, rfl⟩
  · refine .inl ⟨hc, ?_⟩
    rw [Lexer.refuse, if_neg hc]
    exact ⟨rfl, rfl, rfl⟩

/-- The tokens of a source are those that tile it, and then they lie one behind
the other, none is empty, and each is the text at its place.  A source that is
not tiled is refused with one error: it is tiled up to some place outside
comments, nothing begins there, and the error is there, or behind the
character there if that is an `!` without a `=`. -/
theorem tokenize_tiles (source : String) :
    (∀ ts, tokenize source = .ok ts ↔ Lexer.Tiles true 0 source.toList ts) ∧
    ((∃ ts, tokenize source = .ok ts ∧ (ts.Pairwise fun a b => a.span.stop ≤ b.span.start) ∧
        ∀ t ∈ ts, t.span.start < t.span.stop ∧ ∃ before after, source = before ++ t.text ++ after ∧
          t.span = ⟨before.utf8ByteSize, (before ++ t.text).utf8ByteSize⟩) ∨
      ∃ error before c after ts, tokenize source = .error error ∧
        source.toList = before.toList ++ c :: after ∧ tokenize before = .ok ts ∧
        Lexer.Tiles false 0 before.toList ts ∧ Lexer.Stuck c after ∧
        ((c ≠ '!' ∧ error.At before.utf8ByteSize (c :: after)) ∨
          (c = '!' ∧ after.head? ≠ some '=' ∧
            error.At (before.utf8ByteSize + c.utf8Size) after))) := by
  rcases Lexer.tokensFrom_tiles 0 none source.toList with
    ⟨ts, hok, htiles⟩ | ⟨before, c, after, ts, last, hsource, htiles, hstuck, herror⟩
  · refine ⟨fun found => ⟨fun hfound => ?_, fun hfound => hfound.tokensFrom none⟩,
      .inl ⟨ts, hok, htiles.pairwise, fun t ht => ?_⟩⟩
    · cases hok.symm.trans hfound
      exact htiles
    · obtain ⟨before, after, hsource, hne, hspan⟩ := htiles.exists_slice t ht
      have hpos := Lexer.byteLength_pos hne
      rw [Lexer.byteLength_eq before, Lexer.byteLength_toList, Nat.zero_add,
        ← String.utf8ByteSize_append] at hspan
      refine ⟨?_, String.ofList before, String.ofList after, ?_, hspan⟩
      · rw [hspan, String.utf8ByteSize_append, ← Lexer.byteLength_toList t.text]
        exact Nat.lt_add_of_pos_right hpos
      · rw [← String.toList_inj, hsource]
        simp
  · refine ⟨fun found => ⟨fun hfound => ?_, fun hfound => hfound.tokensFrom none⟩, .inr ?_⟩
    · cases herror.symm.trans hfound
    · refine ⟨_, String.ofList before, c, after, ts, herror, ?_⟩
      rw [String.toList_ofList, ← Lexer.byteLength_eq, Nat.zero_add]
      refine ⟨hsource, ?_, htiles, hstuck, hstuck.refuse_at _ _⟩
      have hbefore := htiles.at_end.tokensFrom none
      rwa [← String.toList_ofList (l := before)] at hbefore

end ArithLogic
