import ArithLogic.Proofs.Printing.Text

/-!
# ArithLogic.Proofs.Printing.Layout

Texts with places where a line may end.  A marked text says which blanks are such
gaps, and in how many bodies of quantifiers each lies; it is laid out (`Laid`) by
ending lines at some of its gaps and indenting what follows.  Joining the lines
again gives back the one line (`Laid.joinLines_eq`), and where a line ends there is
a gap (`Laid.exists_gap`).  Whatever the width, a document is laid out so
(`Doc.Marked.laid`), and stays on one line if it fits (`Doc.Grouped.layout_eq`).
-/

namespace ArithLogic

open Lexer

/-! ## marked text -/

/-- A character of a text, or a place where a line may end: a blank that lies in
the bodies of so many quantifiers. -/
inductive Mark
  | char (c : Char)
  | gap (bodies : Nat)
  deriving DecidableEq

/-- The character on one line. -/
def Mark.toChar : Mark → Char
  | char c => c
  | gap _ => ' '

/-- The characters of a text without gaps. -/
def inked (cs : List Char) : List Mark := cs.map .char

/-- The text is the marked one, with some of its gaps at the end of a line.  The
line behind is indented by two columns for each body. -/
inductive Laid : List Mark → List Char → Prop
  | nil : Laid [] []
  | char {c : Char} {ms : List Mark} {cs : List Char} : Laid ms cs → Laid (.char c :: ms) (c :: cs)
  | blank {bodies : Nat} {ms : List Mark} {cs : List Char} :
      Laid ms cs → Laid (.gap bodies :: ms) (' ' :: cs)
  | newline {bodies : Nat} {ms : List Mark} {cs : List Char} :
      Laid ms cs → Laid (.gap bodies :: ms) ('\n' :: (List.replicate (2 * bodies) ' ' ++ cs))

/-- The text on one line: every line break, with the blanks behind it, is
replaced by one blank.  `behindBreak` tells whether only blanks have come since the
last one. -/
def joinLines (behindBreak : Bool) : List Char → List Char
  | [] => []
  | c :: cs =>
    if c = '\n' then ' ' :: joinLines true cs
    else if behindBreak && c = ' ' then joinLines true cs
    else c :: joinLines false cs

/-- The characters of a line are all of one column, and behind a gap comes one that
is no blank. -/
inductive Clean : List Mark → Prop
  | nil : Clean []
  | char {c : Char} {ms : List Mark} :
      c ≠ '\n' → c.toNat < 0x80 → Clean ms → Clean (.char c :: ms)
  | gap {bodies : Nat} {c : Char} {ms : List Mark} :
      c ≠ ' ' → Clean (.char c :: ms) → Clean (.gap bodies :: .char c :: ms)

namespace Laid

variable {ms us : List Mark} {cs ds : List Char}

theorem append (h : Laid ms cs) (h' : Laid us ds) : Laid (ms ++ us) (cs ++ ds) := by
  induction h with
  | nil => exact h'
  | char _ ih => exact .char ih
  | blank _ ih => exact .blank ih
  | newline _ ih =>
    rw [List.cons_append, List.cons_append, List.append_assoc]
    exact .newline ih

/-- A text without gaps is laid out as it is. -/
theorem ink (cs : List Char) : Laid (inked cs) cs := by
  induction cs with
  | nil => exact .nil
  | cons c cs ih => exact .char ih

/-- All on one line. -/
theorem flat (ms : List Mark) : Laid ms (ms.map Mark.toChar) := by
  induction ms with
  | nil => exact .nil
  | cons mark ms ih =>
    cases mark with
    | char => exact .char ih
    | gap => exact .blank ih

end Laid

/-! ## joining lines -/

theorem joinLines_newline (behindBreak : Bool) (cs : List Char) :
    joinLines behindBreak ('\n' :: cs) = ' ' :: joinLines true cs := by
  rw [joinLines, if_pos rfl]

theorem joinLines_char {c : Char} (h : c ≠ '\n') (cs : List Char) :
    joinLines false (c :: cs) = c :: joinLines false cs := by
  rw [joinLines, if_neg h, Bool.false_and, if_neg Bool.false_ne_true]

/-- The blanks behind a break are gone with it. -/
theorem joinLines_replicate (n : Nat) (cs : List Char) :
    joinLines true (List.replicate n ' ' ++ cs) = joinLines true cs := by
  induction n with
  | zero => rfl
  | succ n ih =>
    rw [List.replicate_succ, List.cons_append, joinLines, if_neg (by decide), if_pos (by decide), ih]

/-- Where no blank follows a break none is lost. -/
theorem joinLines_true {cs : List Char} (h : cs.head? ≠ some ' ') :
    joinLines true cs = joinLines false cs := by
  cases cs with
  | nil => rfl
  | cons c cs =>
    have hc : c ≠ ' ' := fun heq => h (congrArg some heq)
    simp [joinLines, hc]

/-- A line does not end among the blanks in front of it. -/
theorem exists_of_replicate_append {n : Nat} {cs before behind : List Char}
    (h : List.replicate n ' ' ++ cs = before ++ '\n' :: behind) :
    ∃ inside, before = List.replicate n ' ' ++ inside ∧ cs = inside ++ '\n' :: behind := by
  induction n generalizing before with
  | zero => exact ⟨before, rfl, h⟩
  | succ n ih =>
    cases before with
    | nil => exact absurd (List.cons.inj h).1 (by decide)
    | cons c before =>
      obtain ⟨rfl, htail⟩ := List.cons.inj h
      obtain ⟨inside, rfl, hcs⟩ := ih htail
      exact ⟨inside, rfl, hcs⟩

namespace Clean

variable {ms us : List Mark} {cs : List Char} {bodies : Nat}

theorem append (h : Clean ms) (h' : Clean us) : Clean (ms ++ us) := by
  induction h with
  | nil => exact h'
  | char hbreak hascii _ ih => exact .char hbreak hascii ih
  | gap hblank _ ih => exact .gap hblank ih

/-- Behind a gap the text goes on with no blank. -/
theorem head?_ne (h : Clean (.gap bodies :: ms)) (hlaid : Laid ms cs) : cs.head? ≠ some ' ' := by
  cases h with
  | gap hblank =>
    cases hlaid with
    | char => simpa using hblank

theorem of_gap (h : Clean (.gap bodies :: ms)) : Clean ms := by
  cases h with
  | gap _ hms => exact hms

/-- The line as a whole is one of characters of one column. -/
theorem lt_of_mem (h : Clean ms) {c : Char} (hc : .char c ∈ ms) : c.toNat < 0x80 := by
  induction h with
  | nil => cases hc
  | char _ hascii _ ih =>
    rcases List.mem_cons.1 hc with heq | hc
    · cases heq
      exact hascii
    · exact ih hc
  | gap _ _ ih =>
    rcases List.mem_cons.1 hc with heq | hc
    · cases heq
    · exact ih hc

end Clean

namespace Laid

variable {ms : List Mark} {cs : List Char}

/-- Joining the lines gives back the one line. -/
theorem joinLines_eq (h : Laid ms cs) (hclean : Clean ms) :
    joinLines false cs = ms.map Mark.toChar := by
  induction h with
  | nil => rfl
  | char _ ih =>
    cases hclean with
    | char hbreak _ hms => rw [joinLines_char hbreak, ih hms]; rfl
  | blank _ ih => rw [joinLines_char (by decide), ih hclean.of_gap]; rfl
  | newline hlaid ih =>
    rw [joinLines_newline, joinLines_replicate, joinLines_true (hclean.head?_ne hlaid),
      ih hclean.of_gap]
    rfl

example : joinLines false ("forall n : int .\n  n > 0\n  and n < 3").toList =
    ("forall n : int . n > 0 and n < 3").toList := by
  decide

/-- Where a line ends there is a gap, and the next one is indented by two columns
for each body that the gap lies in. -/
theorem exists_gap (h : Laid ms cs) (hclean : Clean ms) {before behind : List Char}
    (hsplit : cs = before ++ '\n' :: behind) :
    ∃ front bodies tail rest, ms = front ++ .gap bodies :: tail ∧
      joinLines false before = front.map Mark.toChar ∧
      behind = List.replicate (2 * bodies) ' ' ++ rest ∧ rest.head? ≠ some ' ' := by
  induction h generalizing before with
  | nil => exact absurd hsplit.symm (by simp)
  | @char c ms cs hlaid ih =>
    cases hclean with
    | char hbreak _ hms =>
      cases before with
      | nil => exact absurd (List.cons.inj hsplit).1 hbreak
      | cons d before =>
        obtain ⟨rfl, htail⟩ := List.cons.inj hsplit
        obtain ⟨front, bodies, tail, rest, rfl, hjoin, hbehind, hrest⟩ := ih hms htail
        refine ⟨.char c :: front, bodies, tail, rest, rfl, ?_, hbehind, hrest⟩
        rw [joinLines_char hbreak, hjoin]
        rfl
  | @blank bodies ms cs hlaid ih =>
    cases before with
    | nil => exact absurd (List.cons.inj hsplit).1 (by decide)
    | cons d before =>
      obtain ⟨rfl, htail⟩ := List.cons.inj hsplit
      obtain ⟨front, inner, tail, rest, rfl, hjoin, hbehind, hrest⟩ := ih hclean.of_gap htail
      refine ⟨.gap bodies :: front, inner, tail, rest, rfl, ?_, hbehind, hrest⟩
      rw [joinLines_char (by decide), hjoin]
      rfl
  | @newline bodies ms cs hlaid ih =>
    have hhead := hclean.head?_ne hlaid
    cases before with
    | nil => exact ⟨[], bodies, ms, cs, rfl, rfl, (List.cons.inj hsplit).2.symm, hhead⟩
    | cons d before =>
      -- another line end, which lies behind the blanks of this one
      obtain ⟨rfl, htail⟩ := List.cons.inj hsplit
      obtain ⟨inside, rfl, hcs⟩ := exists_of_replicate_append htail
      obtain ⟨front, inner, tail, rest, rfl, hjoin, hbehind, hrest⟩ := ih hclean.of_gap hcs
      refine ⟨.gap bodies :: front, inner, tail, rest, rfl, ?_, hbehind, hrest⟩
      have hinside : inside.head? ≠ some ' ' := by
        intro hblank
        rw [hcs, List.head?_append, hblank] at hhead
        exact hhead rfl
      rw [joinLines_newline, joinLines_replicate, joinLines_true hinside, hjoin]
      rfl

end Laid

/-! ## documents -/

namespace Doc

variable {σ : Type} {doc a b body : Doc σ} {bodies : Nat} {ms us : List Mark}

/-- The document lays out the marked text, within the bodies of so many
quantifiers. -/
inductive Marked : Doc σ → (bodies : Nat) → List Mark → Prop
  | text {style : σ} {content : String} {bodies : Nat} :
      Marked (.text style content) bodies (inked content.toList)
  | space {bodies : Nat} : Marked .space bodies [.char ' ']
  | line {bodies : Nat} : Marked .line bodies [.gap bodies]
  | append {a b : Doc σ} {bodies : Nat} {ms us : List Mark} :
      Marked a bodies ms → Marked b bodies us → Marked (.append a b) bodies (ms ++ us)
  | nest {body : Doc σ} {bodies : Nat} {ms : List Mark} :
      Marked body (bodies + 1) ms → Marked (.nest 2 body) bodies ms
  | group {body : Doc σ} {bodies : Nat} {ms : List Mark} :
      Marked body bodies ms → Marked (.group body) bodies ms

/-- A line ends only inside a group. -/
def Grouped : Doc σ → Prop
  | text _ _ | space | group _ => True
  | line => False
  | append first second => first.Grouped ∧ second.Grouped
  | nest _ body => body.Grouped

/-- On one line all gaps are blanks. -/
theorem Marked.flat (h : doc.Marked bodies ms) :
    (plainText doc.flat).toList = ms.map Mark.toChar := by
  induction h with
  | text => simp [Doc.flat, toList_plainText_cons, Piece.plain, inked, Function.comp_def, Mark.toChar]
  | space | line => simp [Doc.flat, toList_plainText_cons, Piece.plain, Mark.toChar]
  | append _ _ iha ihb => rw [Doc.flat, toList_plainText_append, iha, ihb, List.map_append]
  | nest _ ih | group _ ih => exact ih

/-- The width on one line is the number of characters. -/
theorem Marked.flatWidth (h : doc.Marked bodies ms)
    (hascii : ∀ c, .char c ∈ ms → c.toNat < 0x80) : doc.flatWidth = ms.length := by
  induction h with
  | @text _ content _ =>
    have hcontent : ∀ c ∈ content.toList, c.toNat < 0x80 :=
      fun c hc => hascii c (List.mem_map_of_mem hc)
    rw [Doc.flatWidth, Text.width_eq_length hcontent, inked, List.length_map, String.length_toList]
  | space | line => rfl
  | append _ _ iha ihb =>
    rw [Doc.flatWidth, iha fun c hc => hascii c (List.mem_append_left _ hc),
      ihb fun c hc => hascii c (List.mem_append_right _ hc), List.length_append]
  | nest _ ih | group _ ih => exact ih hascii

/-- Whatever the width, a layout is the marked text, with some of the gaps at the
end of a line. -/
theorem Marked.laid (h : doc.Marked bodies ms) (limit after column : Nat) :
    Laid ms (plainText (doc.layout limit (2 * bodies) after column).1).toList := by
  induction h generalizing after column with
  | @text _ content _ =>
    have htext := Laid.ink content.toList
    simpa [layout, toList_plainText_cons, Piece.plain] using htext
  | space =>
    have hblank : Laid [.char ' '] [' '] := .char .nil
    simpa [layout, toList_plainText_cons, Piece.plain] using hblank
  | @line bodies =>
    have hbreak : Laid [.gap bodies] ('\n' :: (List.replicate (2 * bodies) ' ' ++ [])) := .newline .nil
    simpa [layout, toList_plainText_cons, Piece.plain] using hbreak
  | append _ _ iha ihb =>
    simp only [layout, toList_plainText_append]
    exact (iha _ _).append (ihb _ _)
  | nest _ ih => exact ih _ _
  | group hbody ih =>
    simp only [layout]
    split
    · rw [hbody.flat]
      exact .flat _
    · exact ih _ _

/-- What fits stays on one line. -/
theorem Grouped.layout_eq (h : doc.Grouped) {limit indent after column : Nat}
    (hfits : column + doc.flatWidth + after ≤ limit) :
    doc.layout limit indent after column = (doc.flat, column + doc.flatWidth) := by
  induction doc generalizing indent after column with
  | text | space => rfl
  | line => exact h.elim
  | append a b iha ihb =>
    -- what must follow the first part on its line is no wider than the second
    have hwidth : (append a b).flatWidth = a.flatWidth + b.flatWidth := rfl
    have hreach := b.reach_le after
    have ha : a.layout limit indent (b.reach after) column = (a.flat, column + a.flatWidth) :=
      iha h.1 (by omega)
    have hb : b.layout limit indent after (column + a.flatWidth) =
        (b.flat, column + a.flatWidth + b.flatWidth) := ihb h.2 (by omega)
    simp only [layout, ha, hb, Doc.flat, hwidth, Nat.add_assoc]
  | nest _ _ ih => exact ih h hfits
  | group body =>
    have hbody : body.fits limit after column = true := fits_iff.2 hfits
    simp only [layout, hbody, if_true]
    rfl

end Doc

/-! ## well set text -/

/-- A character of one column that is no blank. -/
def isInk (c : Char) : Bool := c != ' ' && c != '\n' && c.toNat < 0x80

theorem isInk_iff {c : Char} : isInk c = true ↔ c ≠ ' ' ∧ c ≠ '\n' ∧ c.toNat < 0x80 := by
  simp [isInk, and_assoc]

theorem isInk_of_isWordChar {c : Char} (h : isWordChar c = true) : isInk c = true := by
  have hblank := isBlank_eq_false_of_isWordChar h
  rw [isInk_iff]
  refine ⟨?_, ?_, ?_⟩
  · rintro rfl
    exact absurd hblank (by decide)
  · rintro rfl
    exact absurd hblank (by decide)
  · simp only [isWordChar, Char.isAlphanum, Bool.or_eq_true, isAlpha_iff, Char.isDigit_iff_toNat,
      beq_iff_eq] at h
    rcases h with h | rfl
    · simp only [Char.reduceToNat] at h
      omega
    · decide

theorem Clean.ink {cs : List Char} (h : cs.all isInk = true) : Clean (inked cs) := by
  induction cs with
  | nil => exact .nil
  | cons c cs ih =>
    rw [List.all_cons, Bool.and_eq_true, isInk_iff] at h
    exact .char h.1.2.1 h.1.2.2 (ih h.2)

/-- A line that can stand behind a gap. -/
structure Phrase (ms : List Mark) : Prop where
  clean : Clean ms
  begins : ∃ c tail, ms = .char c :: tail ∧ c ≠ ' '

namespace Phrase

variable {ms us : List Mark} {cs : List Char}

theorem ink (hne : cs ≠ []) (h : cs.all isInk = true) : Phrase (inked cs) := by
  obtain ⟨c, tail, rfl⟩ := List.exists_cons_of_ne_nil hne
  exact ⟨.ink h, c, _, rfl, (isInk_iff.1 (List.all_eq_true.1 h c List.mem_cons_self)).1⟩

theorem append (h : Phrase ms) (h' : Clean us) : Phrase (ms ++ us) := by
  obtain ⟨c, tail, rfl, hblank⟩ := h.begins
  exact ⟨h.clean.append h', c, _, rfl, hblank⟩

/-- With a blank between them. -/
theorem spaced (h : Phrase ms) (h' : Phrase us) : Phrase (ms ++ .char ' ' :: us) :=
  h.append (.char (by decide) (by decide) h'.clean)

/-- With a gap between them. -/
theorem gapped (h : Phrase ms) (bodies : Nat) (h' : Phrase us) : Phrase (ms ++ .gap bodies :: us) := by
  obtain ⟨c, tail, rfl, hblank⟩ := h'.begins
  exact h.append (.gap hblank h'.clean)

/-- A keyword, an operator or a punctuation mark. -/
theorem fixed {kind : TokenKind} (h : kind.spelling?.isSome = true) :
    Phrase (inked (spelled kind)) := by
  have hall : ∀ kind ∈ TokenKind.all, kind.spelling?.isSome = true →
      spelled kind ≠ [] ∧ (spelled kind).all isInk = true := by decide
  obtain ⟨hne, hink⟩ := hall kind kind.mem_all h
  exact .ink hne hink

theorem word (h : IsWord cs) : Phrase (inked cs) := by
  have hall : cs.all isInk = true :=
    List.all_eq_true.2 fun d hd => isInk_of_isWordChar (h.isWordChar_of_mem hd)
  obtain ⟨c, rest, rfl, -⟩ := h
  exact .ink (List.cons_ne_nil _ _) hall

theorem digits (h : IsDigits cs) : Phrase (inked cs) :=
  .ink h.1 (List.all_eq_true.2 fun c hc => isInk_of_isWordChar (isWordChar_of_isDigit (h.2 c hc)))

/-- A number may be negative. -/
theorem literal (value : Int) : Phrase (inked (toString value).toList) := by
  cases value with
  | ofNat n => exact .digits (isDigits_toString (Int.natCast_nonneg n))
  | negSucc n =>
    have hsign : Phrase (inked ['-']) := .ink (by decide) (by decide)
    rw [toList_toString_negSucc]
    exact hsign.append (digits (isDigits_toString (Int.natCast_nonneg (n + 1)))).clean

end Phrase

end ArithLogic
