import ArithLogic.Text.Width.Table

/-!
# ArithLogic.Text.Width

How many columns a text takes on a terminal.  Alone, a character takes two
columns if it is wide, none if it only modifies a neighbour, and mostly one
otherwise (`charWidth`).  Some sequences are drawn as one: ligatures of a
script, pictures built from several characters, and characters followed by a
variation selector.  What is drawn as one is settled at its end, so a text is
read from right to left, and `Following` is what the next character to the
left has to know about the characters behind it.

A text of ASCII characters is never drawn so: it is as wide as it is long
(`width_eq_length`).
-/

namespace ArithLogic.Text

/-! ## single characters -/

/-- The number of columns of a character that stands alone. -/
def charWidth (n : Nat) : Nat :=
  if n = 0x17D8 then 3
  else if inRanges zeroRanges n then 0
  else if inRanges wideRanges n then 2
  else 1

/-- The zero width joiner. -/
def joiner : Nat := 0x200D

/-- One half of a flag; two of them are the letters of a country. -/
def isFlagHalf (n : Nat) : Bool := 0x1F1E6 ≤ n && n ≤ 0x1F1FF

/-- The colour of a skin tone. -/
def isSkinTone (n : Nat) : Bool := 0x1F3FB ≤ n && n ≤ 0x1F3FF

/-- A letter of the kinds of alef. -/
def isAlef (n : Nat) : Bool :=
  inRanges [(0x622, 0x623), (0x625, 0x625), (0x627, 0x627), (0x671, 0x673), (0x675, 0x675),
    (0x773, 0x774), (0x870, 0x882)] n

/-- A letter of the kinds of lam. -/
def isLam (n : Nat) : Bool :=
  inRanges [(0x644, 0x644), (0x6B5, 0x6B8), (0x76A, 0x76A), (0x8A6, 0x8A6), (0x8C7, 0x8C7)] n

/-- A Khmer letter that can stand below another one. -/
def isSubscriptLetter (n : Nat) : Bool :=
  inRanges [(0x1780, 0x1782), (0x1784, 0x1787), (0x1789, 0x178C), (0x178E, 0x1793),
    (0x1795, 0x1798), (0x179B, 0x179D), (0x17A0, 0x17A0), (0x17A2, 0x17A2), (0x17A7, 0x17A7),
    (0x17AB, 0x17AC), (0x17AF, 0x17AF)] n

/-- A Tifinagh consonant. -/
def isTifinagh (n : Nat) : Bool := (0x2D31 ≤ n && n ≤ 0x2D65) || n == 0x2D6F

/-- A quotation mark that has a wide form. -/
def isQuotationMark (n : Nat) : Bool := n == 0x2018 || n == 0x2019 || n == 0x201C || n == 0x201D

/-- A mark that is not shown and leaves the ligature around it as it is. -/
def isHiddenMark (n : Nat) : Bool :=
  inRanges [(0x34F, 0x34F), (0x17B4, 0x17B5), (0x180B, 0x180D), (0x180F, 0x180F), (0x200D, 0x200D),
    (0xFE00, 0xFE0F), (0xE0100, 0xE01EF)] n

/-! ## what stands behind -/

/-- The beginning of what stands behind a character, as far as the two can be
drawn as one. -/
inductive Shape
  /-- Nothing that could be drawn together with a character in front. -/
  | plain
  | lineFeed
  /-- A picture, which may consist of several characters. -/
  | picture
  | skinTone
  /-- Half a flag, or several halves. -/
  | flagHalf (several : Bool)
  /-- A joiner and a picture. -/
  | joinedPicture
  /-- The frame of a key, a joiner and a picture. -/
  | joinedKeycap
  /-- Half a flag, a joiner and a picture. -/
  | joinedFlagHalf
  /-- At least two halves of flags, a joiner and a picture. -/
  | joinedFlags (odd : Bool)
  /-- So many letters and digits of a tag, a joiner and a picture. -/
  | joinedTag (letters digits : Nat)
  /-- Kirat Rai vowel signs. -/
  | vowelE
  | vowelAi
  | alef
  | lamed
  /-- The Buginese letter, and the letter behind a joiner and its vowel sign. -/
  | ya
  | vowelYa
  /-- A Tifinagh consonant, and a consonant behind the sign that joins two. -/
  | consonant
  | joinedConsonant
  /-- A Lisu tone letter that ends a pair. -/
  | toneLetter
  /-- The Old Turkic letter that ends a ligature. -/
  | orkhonI
  /-- A Khmer letter that can stand below another one. -/
  | subscript
  deriving DecidableEq

namespace Shape

/-- Hidden marks in front of the shape leave it as it is. -/
def isLigature : Shape → Bool
  | lamed | ya | vowelYa | consonant | joinedConsonant | toneLetter | orkhonI | subscript => true
  | _ => false

/-- The picture that follows is counted as part of one further on. -/
def isJoinedPicture : Shape → Bool
  | joinedPicture | joinedKeycap => true
  | _ => false

/-- The shape of a character that stands alone. -/
def ofChar (n : Nat) : Shape :=
  if n = 0x0A then lineFeed
  else if n = 0x5DC then lamed
  else if isAlef n then alef
  else if isSubscriptLetter n then subscript
  else if n = 0x1A10 then ya
  else if isTifinagh n then consonant
  else if n = 0xA4FC || n = 0xA4FD then toneLetter
  else if n = 0x10C03 then orkhonI
  else if n = 0x16D67 then vowelE
  else if n = 0x16D68 then vowelAi
  else if isFlagHalf n then flagHalf false
  else if isSkinTone n then skinTone
  else if inRanges pictureRanges n then picture
  else plain

end Shape

/-- The form that a variation selector asks for. -/
inductive Variant
  | picture
  | text
  | wide
  deriving DecidableEq

/-- The variation selectors. -/
def Variant.ofSelector? (n : Nat) : Option Variant :=
  if n = 0xFE0F then some picture
  else if n = 0xFE0E then some text
  else if n = 0xFE01 then some wide
  else none

/-- Everything that a character has to know about what stands behind it:
whether a joiner comes first, which form is asked for, and what follows. -/
structure Following where
  shape : Shape
  joined : Bool
  variant? : Option Variant
  deriving DecidableEq

namespace Following

/-- A shape right behind. -/
def of (shape : Shape) : Following := ⟨shape, false, none⟩

/-- With a variation selector in front.  A ligature goes on around it, and so
does a joined picture around the selector of a picture. -/
def select (f : Following) (v : Variant) : Following :=
  if f.shape.isLigature || f.shape == .alef || (v == .picture && f.shape.isJoinedPicture) then
    { f with variant? := some v }
  else ⟨.plain, false, some v⟩

/-- Behind a character that has not the form asked for. -/
def unselect (f : Following) : Following :=
  if f.variant? == some .picture && f.shape.isJoinedPicture then of .plain
  else { f with variant? := none }

end Following

/-! ## what is drawn as one -/

/-- The columns that a character adds in front of a shape with which it is
drawn as one, and the shape of both; nothing if it is not. -/
def ligature? (n : Nat) (f : Following) : Option (Int × Shape) :=
  match f.shape with
  | .lineFeed => if n = 0x0D then some (0, .plain) else none
  | .alef =>
    if isLam n then some (0, .plain)
    else if charWidth n = 0 && !inRanges barrierRanges n then some (0, .alef)
    else none
  | .lamed => if f.joined && n = 0x5D0 then some (0, .plain) else none
  | .subscript => if n = 0x17D2 then some (-1, .plain) else none
  | .ya => if f.joined && n = 0x1A17 then some (0, .vowelYa) else none
  | .vowelYa => if n = 0x1A15 then some (0, .plain) else none
  | .consonant =>
    if n = 0x2D7F then some (1, .joinedConsonant)
    else if f.joined && isTifinagh n then some (0, .plain)
    else none
  | .joinedConsonant => if isTifinagh n then some (-1, .plain) else none
  | .toneLetter => if 0xA4F8 ≤ n && n ≤ 0xA4FB then some (0, .plain) else none
  | .orkhonI => if f.joined && n = 0x10C32 then some (0, .plain) else none
  | .vowelE =>
    if n = 0x16D63 || n = 0x16D69 then some (0, .plain)
    else if n = 0x16D67 then some (0, .vowelAi)
    else if n = 0x16D68 then some (1, .vowelE)
    else none
  | .vowelAi => if n = 0x16D63 then some (0, .plain) else none
  | .skinTone =>
    if inRanges personRanges n then some (0, .picture)
    else if n = joiner then some (0, .joinedPicture)
    else none
  | .flagHalf several =>
    if isFlagHalf n then some (1, .flagHalf true)
    else if several && n = joiner then some (0, .joinedPicture)
    else none
  | .picture => if n = joiner then some (0, .joinedPicture) else none
  | .joinedPicture =>
    if n = 0x20E3 then some (0, .joinedKeycap)
    else if isFlagHalf n then some (1, .joinedFlagHalf)
    else if isSkinTone n then some (0, .skinTone)
    else if n = 0xE007F then some (0, .joinedTag 0 0)
    else if inRanges pictureRanges n then some (0, .picture)
    else none
  | .joinedFlagHalf => if isFlagHalf n then some (-1, .joinedFlags false) else none
  | .joinedFlags odd =>
    if isFlagHalf n then some (if odd then -1 else 3, .joinedFlags !odd)
    else if n = joiner then some (0, .joinedPicture)
    else none
  | .joinedTag letters digits =>
    if 0xE0061 ≤ n && n ≤ 0xE007A && digits = 0 && letters < 6 then
      some (0, .joinedTag (letters + 1) 0)
    else if 0xE0030 ≤ n && n ≤ 0xE0039 && digits < 3 && (0 < digits || letters < 5) then
      some (0, .joinedTag letters (digits + 1))
    else if n = 0x1F3F4 && (digits = 3 || (digits = 0 && 3 ≤ letters)) then some (0, .picture)
    else none
  | .plain | .joinedKeycap => none

/-- The columns that a character adds in front of what follows it, and what
it makes of that. -/
def step (n : Nat) (f : Following) : Int × Following :=
  if f.variant? == some .picture && inRanges pictureVariantRanges n then
    (if f.shape.isJoinedPicture then 0 else 2, .of .picture)
  else
    match Variant.ofSelector? n with
    | some v => (0, f.unselect.select v)
    | none =>
      if f.variant? == some .text && inRanges textVariantRanges n then (1, .of .plain)
      else if f.variant? == some .wide && isQuotationMark n then (2, .of .plain)
      else
        let f := f.unselect
        if f.shape.isLigature && n == joiner then (0, { f with joined := true })
        else if f.shape.isLigature && isHiddenMark n then (0, f)
        else
          match ligature? n f with
          | some (columns, shape) => (columns, .of shape)
          | none => (charWidth n, .of (.ofChar n))

/-- The columns of characters, and what they are for a character in front. -/
def measure (cs : List Char) : Int × Following :=
  cs.foldr
    (fun c (columns, f) =>
      let (more, f) := step c.toNat f
      (columns + more, f))
    (0, .of .plain)

/-- The number of columns of a text. -/
def width (text : String) : Nat :=
  if text.toList.all fun c => c.toNat < 0x80 then text.length
  else (measure text.toList).1.toNat

/-- An ASCII text is as wide as it is long. -/
theorem width_eq_length {text : String} (h : ∀ c ∈ text.toList, c.toNat < 0x80) :
    width text = text.length := by
  rw [width, if_pos (List.all_eq_true.2 fun c hc => decide_eq_true (h c hc))]

end ArithLogic.Text
