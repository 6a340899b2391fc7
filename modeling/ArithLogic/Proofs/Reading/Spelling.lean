import ArithLogic.Text.Numeral
import ArithLogic.Token.Lexer

/-!
# ArithLogic.Proofs.Reading.Spelling

How tokens are spelled.  A token that the lexer reads has the spelling of its
kind, and names and literals are words and digits (`wellSpelled_of_tokenize`).
`Lexer.IsName` says which spellings can be read as names, and the decimal
digits of a number are read as the number (`Text.digitsAfter?_toDigits`).
-/

namespace ArithLogic

namespace Lexer

/-- A word: a character that can begin one, and then any that can continue
it. -/
def IsWord (cs : List Char) : Prop :=
  ∃ c rest, cs = c :: rest ∧ isWordStart c = true ∧ ∀ d ∈ rest, isWordChar d = true

/-- A spelling that is read as a name: an identifier, or the name of a type. -/
def IsName (text : String) : Prop :=
  IsWord text.toList ∧ (wordKind text.toList).isName = true

/-- At least one digit, and nothing else. -/
def IsDigits (cs : List Char) : Prop := cs ≠ [] ∧ ∀ c ∈ cs, c.isDigit = true

end Lexer

/-- The token is spelled as the lexer reads tokens of its kind. -/
def Token.WellSpelled (t : Token) : Prop :=
  match t.kind with
  | .identifier => Lexer.IsWord t.text.toList ∧ TokenKind.keyword? t.text = none
  | .literal => Lexer.IsDigits t.text.toList
  | kind => kind.spelling? = some t.text

namespace Lexer

variable {cs lexeme : List Char} {kind : TokenKind}

theorem isWordChar_of_mem_takeWhile {c : Char} (h : c ∈ cs.takeWhile isWordChar) :
    isWordChar c = true :=
  List.all_eq_true.1 List.all_takeWhile c h

/-- A character that begins a word and others that continue it are a word. -/
theorem isWord_cons {c : Char} (hstart : isWordStart c = true) (hrest : cs.all isWordChar = true) :
    IsWord (c :: cs) :=
  ⟨c, cs, rfl, hstart, List.all_eq_true.1 hrest⟩

/-- The first character of a word can continue one as well. -/
theorem IsWord.isWordChar_of_mem (h : IsWord cs) {c : Char} (hc : c ∈ cs) :
    isWordChar c = true := by
  obtain ⟨first, rest, rfl, hstart, hrest⟩ := h
  rcases List.mem_cons.1 hc with rfl | hc
  · exact isWordChar_of_isWordStart hstart
  · exact hrest c hc

/-- The characters up to the first one that continues no word are a word. -/
theorem isWord_takeWhile {c : Char} (h : isWordStart c = true) (cs : List Char) :
    IsWord ((c :: cs).takeWhile isWordChar) := by
  rw [List.takeWhile_cons_of_pos (isWordChar_of_isWordStart h)]
  exact ⟨c, _, rfl, h, fun _ => isWordChar_of_mem_takeWhile⟩

/-- A token with the fixed spelling of its kind is well spelled. -/
theorem wellSpelled_of_spelling? {t : Token} (h : t.kind.spelling? = some t.text) :
    t.WellSpelled := by
  unfold Token.WellSpelled
  split
  · next hkind => simp [hkind, TokenKind.spelling?] at h
  · next hkind => simp [hkind, TokenKind.spelling?] at h
  · exact h

/-- The operators have a fixed spelling. -/
theorem spelling?_of_mem_operators :
    ∀ kind ∈ TokenKind.operators, kind.spelling? = some (String.ofList (spelled kind)) := by
  decide

/-- A word is a well spelled keyword or a well spelled name. -/
theorem wellSpelled_of_isWord (h : IsWord cs) (span : Span) :
    Token.WellSpelled ⟨wordKind cs, String.ofList cs, span⟩ := by
  cases hkeyword : TokenKind.keyword? (String.ofList cs) with
  | none =>
    rw [wordKind, hkeyword]
    exact ⟨by simpa using h, hkeyword⟩
  | some kind =>
    rw [wordKind, hkeyword]
    exact wellSpelled_of_spelling? (TokenKind.keyword?_eq_some_iff.1 hkeyword).2

/-- How tokens are spelled: an operator as it is, a word, which is a keyword or
else a name, and the digits of a literal. -/
inductive Spells : TokenKind → List Char → Prop
  | operator {kind : TokenKind} : kind ∈ TokenKind.operators → Spells kind (spelled kind)
  | word {cs : List Char} : IsWord cs → Spells (wordKind cs) cs
  | literal {cs : List Char} : IsDigits cs → Spells .literal cs

/-- What is spelled so is well spelled. -/
theorem Spells.wellSpelled (h : Spells kind lexeme) (span : Span) :
    Token.WellSpelled ⟨kind, String.ofList lexeme, span⟩ := by
  cases h with
  | operator hkind => exact wellSpelled_of_spelling? (spelling?_of_mem_operators _ hkind)
  | word hword => exact wellSpelled_of_isWord hword span
  | literal hdigits =>
    rw [← String.toList_ofList (l := lexeme)] at hdigits
    exact hdigits

/-- What the lexer reads is spelled as a token. -/
theorem spells_of_lexeme? (h : lexeme? cs = some (kind, lexeme)) : Spells kind lexeme := by
  unfold lexeme? at h
  split at h
  · next hop =>
    cases h
    exact .operator (List.mem_of_find?_eq_some hop)
  · cases cs with
    | nil => cases h
    | cons c rest =>
      simp only at h
      split at h
      · next hstart =>
        cases h
        exact .word (isWord_takeWhile hstart rest)
      · split at h
        · next hdigit =>
          cases h
          exact .literal ⟨by simp [List.takeWhile_cons_of_pos hdigit],
            fun d hd => List.all_eq_true.1 List.all_takeWhile d hd⟩
        · cases h

/-- The tokens of a text are well spelled. -/
theorem wellSpelled_of_tokensFrom {start : Nat} {last : Option TokenKind} {ts : List Token}
    (h : tokensFrom start last cs = .ok ts) : ∀ t ∈ ts, t.WellSpelled := by
  fun_induction tokensFrom start last cs generalizing ts with
  | case1 => cases h; simp
  | case2 => cases h
  | case3 start last cs skipped here c rest hrest kind lexeme hlex stop =>
    rename_i ih
    cases hnext : tokensFrom stop (some kind) ((c :: rest).drop lexeme.length) with
    | error error => simp [hnext, Except.map] at h
    | ok ts' =>
      simp only [hnext, Except.map, Except.ok.injEq] at h
      subst h
      intro t ht
      rcases List.mem_cons.1 ht with rfl | ht
      · exact (spells_of_lexeme? hlex).wellSpelled _
      · exact ih hnext t ht

end Lexer

/-- The tokens of a source are well spelled. -/
theorem wellSpelled_of_tokenize {source : String} {ts : List Token}
    (h : tokenize source = .ok ts) : ∀ t ∈ ts, t.WellSpelled :=
  Lexer.wellSpelled_of_tokensFrom h

namespace Token

variable {t : Token}

/-- A well spelled token that is a name is spelled as one. -/
theorem WellSpelled.isName (h : t.WellSpelled) (hkind : t.kind.isName = true) :
    Lexer.IsName t.text := by
  unfold WellSpelled at h
  cases hk : t.kind <;> simp only [hk, TokenKind.isName, Bool.false_eq_true] at h hkind
  case identifier =>
    refine ⟨h.1, ?_⟩
    rw [Lexer.wordKind, String.ofList_toList, h.2]
    rfl
  case kwBool | kwInt =>
    rw [← Option.some.inj h]
    exact ⟨Lexer.isWord_cons (by decide) (by decide), by decide⟩

end Token

/-! ## numerals -/

namespace Text

/-- Digits are read one after the other. -/
theorem digitsAfter?_append (value : Nat) (cs ds : List Char) :
    digitsAfter? value (cs ++ ds) = (digitsAfter? value cs).bind (digitsAfter? · ds) := by
  induction cs generalizing value with
  | nil => rfl
  | cons c cs ih =>
    simp only [List.cons_append, digitsAfter?]
    split
    · exact ih value
    · split
      · exact ih _
      · rfl

/-- A decimal digit is read as its value. -/
theorem digitsAfter?_digitChar {value n : Nat} (h : n < 10) :
    digitsAfter? value [n.digitChar] = some (10 * value + n) := by
  have hdigit : n.digitChar.isDigit = true := by simpa [Nat.isDigit_digitChar] using h
  have hunderscore : n.digitChar ≠ '_' := by
    intro heq
    rw [heq] at hdigit
    exact absurd hdigit (by decide)
  have hvalue : n.digitChar.toNat - '0'.toNat = n := Nat.toNat_digitChar_sub_48_of_lt_ten h
  rw [digitsAfter?, if_neg hunderscore, if_pos hdigit, hvalue, digitsAfter?]

/-- The decimal digits of a number are read as the number. -/
theorem digitsAfter?_toDigits (n : Nat) : digitsAfter? 0 (Nat.toDigits 10 n) = some n := by
  induction n using Nat.strongRecOn with
  | ind n ih =>
    by_cases hlt : n < 10
    · rw [Nat.toDigits_of_lt_base hlt, digitsAfter?_digitChar hlt, Nat.mul_zero, Nat.zero_add]
    · rw [Nat.toDigits_of_base_le (by decide) (Nat.not_lt.1 hlt), digitsAfter?_append,
        ih (n / 10) (by omega), Option.bind_some, digitsAfter?_digitChar (Nat.mod_lt n (by decide)),
        Nat.div_add_mod]

/-- Digits are a numeral without signs. -/
theorem integer?_of_isDigits {cs : List Char} (h : Lexer.IsDigits cs) :
    integer? cs = (digitsAfter? 0 cs).map Int.ofNat := by
  obtain ⟨c, cs, rfl⟩ := List.exists_cons_of_ne_nil h.1
  have hdigit : c.isDigit = true := h.2 c List.mem_cons_self
  have hne : ∀ {other : Char}, other.isDigit = false → c ≠ other := by
    rintro other hother rfl
    exact absurd hdigit (by simp [hother])
  have hminus : c ≠ '-' := hne (by decide)
  have hplus : c ≠ '+' := hne (by decide)
  have hunderscore : c ≠ '_' := hne (by decide)
  have hdrop : dropSign '+' (c :: cs) = c :: cs := by
    unfold dropSign
    split <;> simp_all
  have hnatural : natural? (c :: cs) = digitsAfter? 0 (c :: cs) := by
    unfold natural?
    rw [hdrop]
    split <;> simp_all
  unfold integer?
  split
  · next heq => exact absurd (List.cons.inj heq).1 hminus
  · rw [hnatural]
    cases digitsAfter? 0 (c :: cs) <;> rfl

/-- Digits have a value. -/
theorem exists_digitsAfter? {cs : List Char} (h : ∀ c ∈ cs, c.isDigit = true) (value : Nat) :
    ∃ n, digitsAfter? value cs = some n := by
  induction cs generalizing value with
  | nil => exact ⟨value, rfl⟩
  | cons c cs ih =>
    rw [List.forall_mem_cons] at h
    simp only [digitsAfter?, if_pos h.1]
    split
    · exact ih h.2 value
    · exact ih h.2 _

theorem exists_integer?_of_isDigits {cs : List Char} (h : Lexer.IsDigits cs) :
    ∃ value, integer? cs = some value := by
  obtain ⟨n, hn⟩ := exists_digitsAfter? h.2 0
  exact ⟨n, by rw [integer?_of_isDigits h, hn]; rfl⟩

/-- The value of a numeral without a minus sign is not negative. -/
theorem integer?_nonneg {cs : List Char} {value : Int} (hcs : Lexer.IsDigits cs)
    (h : integer? cs = some value) : 0 ≤ value := by
  rw [integer?_of_isDigits hcs] at h
  obtain ⟨n, -, rfl⟩ := Option.map_eq_some_iff.1 h
  exact Int.natCast_nonneg n

end Text

end ArithLogic
