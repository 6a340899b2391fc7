import ArithLogic.Proofs.Reading.Spelling

/-!
# ArithLogic.Proofs.Reading.Lexing

Texts that can be read as tokens.  `Lexer.Reads cs ts` says that the
characters `cs` are the tokens `ts`, with blanks between them; the lexer finds
just these tokens, at some places (`Lexer.Reads.tokensFrom`).  A token is read
as what it is if nothing follows it that would go on with it
(`Lexer.Reads.word`, `.digits`, `.operator`).
-/

namespace ArithLogic.Lexer

open Text

/-- The token that was read, without its place. -/
def lexed (kind : TokenKind) (lexeme : List Char) : Token :=
  ⟨kind, String.ofList lexeme, Span.origin⟩

/-- The characters are tokens with blanks between them. -/
inductive Reads : List Char → List Token → Prop
  | nil : Reads [] []
  | blank {c : Char} {cs : List Char} {ts : List Token} :
      isBlank c = true → Reads cs ts → Reads (c :: cs) ts
  | token {kind : TokenKind} {lexeme rest : List Char} {ts : List Token} :
      triviaLength false (lexeme ++ rest) = 0 → lexeme? (lexeme ++ rest) = some (kind, lexeme) →
      Reads rest ts → Reads (lexeme ++ rest) (lexed kind lexeme :: ts)

namespace Reads

variable {cs rest : List Char} {ts : List Token}

/-- Any number of blanks. -/
theorem blanks {bs : List Char} (hblank : ∀ c ∈ bs, isBlank c = true) (h : Reads cs ts) :
    Reads (bs ++ cs) ts := by
  induction bs with
  | nil => exact h
  | cons c bs ih =>
    exact .blank (hblank c List.mem_cons_self)
      (ih fun c hc => hblank c (List.mem_cons_of_mem _ hc))

end Reads

/-! ## the lexer -/

section Lexer

variable (start : Nat) (last : Option TokenKind) {cs rest lexeme : List Char} {kind : TokenKind}
  {ts : List Token}

/-- The place where the trivia in front of a text ends. -/
def afterTrivia (cs : List Char) : Nat :=
  start + byteLength (cs.take (triviaLength false cs))

/-- Nothing but trivia is no token. -/
theorem tokensFrom_of_drop_eq_nil (h : cs.drop (triviaLength false cs) = []) :
    tokensFrom start last cs = .ok [] := by
  rw [tokensFrom]
  split
  · rfl
  · next hcons => cases h.symm.trans hcons

/-- The first token behind the trivia, and then the others. -/
theorem tokensFrom_of_lexeme? (h : cs.drop (triviaLength false cs) = lexeme ++ rest)
    (hlex : lexeme? (lexeme ++ rest) = some (kind, lexeme)) :
    tokensFrom start last cs =
      (tokensFrom (afterTrivia start cs + byteLength lexeme) (some kind) rest).map
        (⟨kind, String.ofList lexeme,
          ⟨afterTrivia start cs, afterTrivia start cs + byteLength lexeme⟩⟩ :: ·) := by
  have hne := lexeme_ne_nil hlex
  rw [tokensFrom]
  split
  · next hnil =>
    rw [h] at hnil
    exact absurd (List.append_eq_nil_iff.1 hnil).1 hne
  · next c tail hcons =>
    rw [h] at hcons
    split
    · next hnone =>
      rw [← hcons, hlex] at hnone
      cases hnone
    · next hsome =>
      rw [← hcons, hlex] at hsome
      cases hsome
      rw [← hcons, List.drop_left]
      rfl

/-- What is no token is refused. -/
theorem tokensFrom_of_lexeme?_eq_none {c : Char} (h : cs.drop (triviaLength false cs) = c :: rest)
    (hlex : lexeme? (c :: rest) = none) :
    tokensFrom start last cs = .error (refuse (afterTrivia start cs)
      (if triviaLength false cs = 0 then last else none) c rest) := by
  rw [tokensFrom]
  split
  · next hnil => cases h.symm.trans hnil
  · next hcons =>
    cases h.symm.trans hcons
    split
    · rfl
    · next hsome => cases hlex.symm.trans hsome

/-- What is skipped in front of the tokens changes none of them, but for their
places. -/
theorem tokensFrom_skip {front : List Char} (hne : front ≠ [])
    (hlength : triviaLength false (front ++ cs) = front.length + triviaLength false cs) :
    tokensFrom start last (front ++ cs) = tokensFrom (start + byteLength front) none cs := by
  have hdrop : (front ++ cs).drop (triviaLength false (front ++ cs)) =
      cs.drop (triviaLength false cs) := by
    rw [hlength, List.drop_length_add_append]
  have hafter : afterTrivia start (front ++ cs) = afterTrivia (start + byteLength front) cs := by
    rw [afterTrivia, hlength, List.take_length_add_append, byteLength_append, ← Nat.add_assoc]
    rfl
  have hskipped : triviaLength false (front ++ cs) ≠ 0 := by
    have hpos := List.length_pos_iff.2 hne
    omega
  cases hrest : cs.drop (triviaLength false cs) with
  | nil =>
    rw [tokensFrom_of_drop_eq_nil _ _ hrest, tokensFrom_of_drop_eq_nil _ _ (hdrop.trans hrest)]
  | cons first tail =>
    cases hlex : lexeme? (first :: tail) with
    | none =>
      rw [tokensFrom_of_lexeme?_eq_none _ _ hrest hlex,
        tokensFrom_of_lexeme?_eq_none _ _ (hdrop.trans hrest) hlex, hafter, if_neg hskipped,
        ite_self]
    | some found =>
      obtain ⟨kind, lexeme⟩ := found
      obtain ⟨behind, hbehind⟩ := prefix_of_lexeme? hlex
      rw [← hbehind] at hrest hlex
      rw [tokensFrom_of_lexeme? _ _ hrest hlex,
        tokensFrom_of_lexeme? _ _ (hdrop.trans hrest) hlex, hafter]

/-- The lexer finds the tokens that the characters are. -/
theorem Reads.tokensFrom (h : Reads cs ts) :
    ∃ found, Lexer.tokensFrom start last cs = .ok found ∧ found.map Token.unplaced = ts := by
  induction h generalizing start last with
  | nil => exact ⟨[], tokensFrom_of_drop_eq_nil _ _ rfl, rfl⟩
  | @blank c cs ts hblank _ ih =>
    obtain ⟨found, hfound, hts⟩ := ih (start + byteLength [c]) none
    have hskip : Lexer.tokensFrom start last ([c] ++ cs) = _ :=
      tokensFrom_skip start last (List.cons_ne_nil c []) (by simp [triviaLength, hblank, Nat.add_comm])
    exact ⟨found, hskip.trans hfound, hts⟩
  | @token kind lexeme rest ts htrivia hlex _ ih =>
    obtain ⟨found, hfound, hts⟩ := ih (afterTrivia start (lexeme ++ rest) + byteLength lexeme)
      (some kind)
    have hdrop : (lexeme ++ rest).drop (triviaLength false (lexeme ++ rest)) = lexeme ++ rest := by
      rw [htrivia]
      rfl
    have hstep := tokensFrom_of_lexeme? start last hdrop hlex
    rw [hfound] at hstep
    exact ⟨_, hstep, congrArg (lexed kind lexeme :: ·) hts⟩

end Lexer

/-- A text that can be read as tokens is read as them. -/
theorem Reads.tokenize {source : String} {ts : List Token} (h : Reads source.toList ts) :
    ∃ found, ArithLogic.tokenize source = .ok found ∧ found.map Token.unplaced = ts :=
  h.tokensFrom 0 none

/-! ## single tokens -/

/-- The text begins with a blank or a closing parenthesis, if with anything; no
token goes on with that. -/
def Delimited (cs : List Char) : Prop :=
  ∀ c, cs.head? = some c → isBlank c = true ∨ c = ')'

/-- The characters that would make a longer token of an operator, or a comment
of a slash. -/
def extensions : TokenKind → List Char
  | .less => ['-', '=']
  | .minus => ['>']
  | .greater | .assign => ['=']
  | .slash => ['/']
  | _ => []

section Characters

variable {c : Char}

/-- The letters of a word are those of the Latin alphabet. -/
theorem isAlpha_iff : c.isAlpha = true ↔
    (65 ≤ c.toNat ∧ c.toNat ≤ 90) ∨ (97 ≤ c.toNat ∧ c.toNat ≤ 122) := by
  have heq : c.isAlpha = (decide ('A'.val ≤ c.val ∧ c.val ≤ 'Z'.val) ||
      (decide ('a'.val ≤ c.val) && decide (c.val ≤ 'z'.val))) := rfl
  rw [heq]
  simp only [Bool.or_eq_true, Bool.and_eq_true, decide_eq_true_eq, UInt32.le_iff_toNat_le]
  rfl

/-- No character of a word is a blank. -/
theorem isBlank_eq_false_of_isWordChar (h : isWordChar c = true) : isBlank c = false := by
  simp only [isWordChar, Char.isAlphanum, Bool.or_eq_true, isAlpha_iff, Char.isDigit_iff_toNat,
    beq_iff_eq] at h
  rcases h with h | rfl
  · simp only [isBlank, Bool.or_eq_false_iff, Bool.and_eq_false_iff, decide_eq_false_iff_not,
      beq_eq_false_iff_ne, ne_eq]
    simp only [Char.reduceToNat] at h
    omega
  · decide

/-- No word begins with a digit. -/
theorem isWordStart_eq_false_of_isDigit (h : c.isDigit = true) : isWordStart c = false := by
  cases hstart : isWordStart c with
  | false => rfl
  | true =>
    simp only [isWordStart, Bool.or_eq_true, isAlpha_iff, beq_iff_eq] at hstart
    rcases hstart with hstart | rfl
    · simp only [Char.isDigit_iff_toNat, Char.reduceToNat] at h
      omega
    · exact absurd h (by decide)

theorem isWordChar_of_isDigit (h : c.isDigit = true) : isWordChar c = true := by
  simp [isWordChar, Char.isAlphanum, h]

/-- Neither a blank nor a closing parenthesis is a character of a word. -/
theorem Delimited.isWordChar_eq_false {cs : List Char} (h : Delimited cs) (hc : cs.head? = some c) :
    isWordChar c = false := by
  rcases h c hc with hblank | rfl
  · cases hword : isWordChar c with
    | false => rfl
    | true => rw [isBlank_eq_false_of_isWordChar hword] at hblank; cases hblank
  · decide

/-- Neither makes a longer operator. -/
theorem Delimited.not_mem_extensions {cs : List Char} (h : Delimited cs) (hc : cs.head? = some c)
    (kind : TokenKind) : c ∉ extensions kind := by
  rcases h c hc with hblank | rfl
  · intro hmem
    have hall : (extensions kind).all (fun d => !isBlank d) = true := by cases kind <;> decide
    have hnot := List.all_eq_true.1 hall c hmem
    rw [hblank] at hnot
    cases hnot
  · cases kind <;> decide

/-- A text that begins with no blank and no comment begins with a token. -/
theorem triviaLength_eq_zero {cs : List Char} (hblank : isBlank c = false)
    (hslash : c = '/' → cs.head? ≠ some '/') : triviaLength false (c :: cs) = 0 := by
  simp only [triviaLength, Bool.false_eq_true, if_false, hblank, Bool.and_eq_true, beq_iff_eq]
  exact if_neg fun h => hslash h.1 h.2

end Characters

section Tokens

variable {cs rest : List Char} {kind : TokenKind} {ts : List Token}

/-- A run of characters ends where the first other one stands. -/
theorem takeWhile_append_of_all {p : Char → Bool} (hall : ∀ c ∈ cs, p c = true)
    (hrest : ∀ c, rest.head? = some c → p c = false) : (cs ++ rest).takeWhile p = cs := by
  rw [List.takeWhile_append_of_pos hall]
  cases rest with
  | nil => simp
  | cons c rest => rw [List.takeWhile_cons_of_neg (by simp [hrest c rfl]), List.append_nil]

/-- No operator begins like a word or a literal. -/
theorem operator?_eq_none {c : Char} (h : isWordChar c = true) (cs : List Char) :
    operator? (c :: cs) = none := by
  rw [operator?, List.find?_eq_none]
  intro kind hkind hmatch
  have hfirst : ∀ kind ∈ TokenKind.operators, ∃ d rest, spelled kind = d :: rest ∧
      isWordChar d = false := by
    intro kind hkind
    cases kind <;> first | exact absurd hkind (by decide) | exact ⟨_, _, rfl, by decide⟩
  obtain ⟨d, rest, hspelled, hd⟩ := hfirst kind hkind
  obtain ⟨behind, hbehind⟩ := List.isPrefixOf_iff_prefix.1 hmatch
  rw [hspelled] at hbehind
  cases hbehind
  rw [h] at hd
  cases hd

/-- An operator is the longest one where nothing extends it. -/
theorem operator?_append (hkind : kind ∈ TokenKind.operators)
    (h : ∀ c, rest.head? = some c → c ∉ extensions kind) :
    operator? (spelled kind ++ rest) = some kind := by
  cases rest with
  | nil =>
    have halone : ∀ kind ∈ TokenKind.operators, operator? (spelled kind) = some kind := by decide
    rw [List.append_nil]
    exact halone kind hkind
  | cons c rest =>
    have hc := h c rfl
    cases kind <;> first
      | exact absurd hkind (by decide)
      | (simp [operator?, TokenKind.operators, spelled, TokenKind.spelling, TokenKind.spelling?,
          extensions, List.isPrefixOf] at hc ⊢ <;> grind)

namespace Reads

/-- A word. -/
theorem word (hword : IsWord cs) (hrest : Delimited rest) (h : Reads rest ts) :
    Reads (cs ++ rest) (lexed (wordKind cs) cs :: ts) := by
  obtain ⟨c, tail, rfl, hstart, htail⟩ := hword
  have hc := isWordChar_of_isWordStart hstart
  refine .token (triviaLength_eq_zero (isBlank_eq_false_of_isWordChar hc) ?_) ?_ h
  · rintro rfl
    exact absurd hc (by decide)
  · have htake : ((c :: tail) ++ rest).takeWhile isWordChar = c :: tail :=
      takeWhile_append_of_all (by simpa [hc] using htail) fun _ => hrest.isWordChar_eq_false
    simp only [List.cons_append] at htake
    simp only [lexeme?, List.cons_append, operator?_eq_none hc, if_pos hstart, htake]

/-- A literal. -/
theorem digits (hdigits : IsDigits cs) (hrest : Delimited rest) (h : Reads rest ts) :
    Reads (cs ++ rest) (lexed .literal cs :: ts) := by
  obtain ⟨hne, hall⟩ := hdigits
  cases cs with
  | nil => exact absurd rfl hne
  | cons c tail =>
    have hdigit := hall c List.mem_cons_self
    have hc := isWordChar_of_isDigit hdigit
    have hstart := isWordStart_eq_false_of_isDigit hdigit
    refine .token (triviaLength_eq_zero (isBlank_eq_false_of_isWordChar hc) ?_) ?_ h
    · rintro rfl
      exact absurd hc (by decide)
    · have htake : ((c :: tail) ++ rest).takeWhile Char.isDigit = c :: tail := by
        refine takeWhile_append_of_all hall fun d hd => ?_
        cases hdigit : d.isDigit with
        | false => rfl
        | true =>
          have := hrest.isWordChar_eq_false hd
          rw [isWordChar_of_isDigit hdigit] at this
          cases this
      simp only [List.cons_append] at htake
      simp only [lexeme?, List.cons_append, operator?_eq_none hc, hstart, Bool.false_eq_true,
        if_false, if_pos hdigit, htake]

/-- An operator that nothing extends. -/
theorem operator (hkind : kind ∈ TokenKind.operators)
    (hrest : ∀ c, rest.head? = some c → c ∉ extensions kind) (h : Reads rest ts) :
    Reads (spelled kind ++ rest) (lexed kind (spelled kind) :: ts) := by
  refine .token ?_ ?_ h
  · cases kind <;> first
      | exact absurd hkind (by decide)
      | exact triviaLength_eq_zero (by decide) (fun h => absurd h (by decide))
      | exact triviaLength_eq_zero (by decide) fun _ hc => hrest _ hc (by decide)
  · simp only [lexeme?, operator?_append hkind hrest]

end Reads

end Tokens

end ArithLogic.Lexer
