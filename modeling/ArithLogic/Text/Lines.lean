/-!
# ArithLogic.Text.Lines

Where a byte of a text stands, as a line and a column, both counted from one.
A line ends behind a character that ends lines if more text follows, so the
end of a text belongs to the last line that has a character.  A carriage
return and a line feed together end one line (`endsLine`).

A text without such a character is one line
(`lineColumn_fst_of_single_line`).
-/

namespace ArithLogic.Text

/-- The character ends lines: line feed, vertical tab, form feed, carriage
return, next line, line separator or paragraph separator. -/
def isLineEnd (c : Char) : Bool :=
  let n := c.toNat
  (0x0A ≤ n && n ≤ 0x0D) || n == 0x85 || n == 0x2028 || n == 0x2029

/-- A line ends between a character and the text behind it. -/
def endsLine (c : Char) : List Char → Bool
  | [] => false
  | c' :: _ => isLineEnd c && !(c == '\r' && c' == '\n')

/-- The line and the column so many bytes into a text that begins at the line
and the column given. -/
def advance : Nat → Nat → Nat → List Char → Nat × Nat
  | _, line, column, [] => (line, column)
  | bytes, line, column, c :: cs =>
    if bytes = 0 then (line, column)
    else if endsLine c cs then advance (bytes - c.utf8Size) (line + 1) 1 cs
    else advance (bytes - c.utf8Size) line (column + 1) cs

/-- The line and the column of a byte. -/
def lineColumn (text : String) (offset : Nat) : Nat × Nat := advance offset 1 1 text.toList

theorem advance_fst_of_single_line {cs : List Char} (h : ∀ c ∈ cs, isLineEnd c = false)
    (bytes line column : Nat) : (advance bytes line column cs).1 = line := by
  induction cs generalizing bytes column with
  | nil => rfl
  | cons c cs ih =>
    have hc : endsLine c cs = false := by
      cases cs with
      | nil => rfl
      | cons c' cs => simp [endsLine, h c List.mem_cons_self]
    have hcs := ih (fun c' h' => h c' (List.mem_cons_of_mem c h'))
    by_cases hb : bytes = 0 <;> simp [advance, hb, hc, hcs]

/-- Every byte of a text without line ends is in the first line. -/
theorem lineColumn_fst_of_single_line {text : String}
    (h : ∀ c ∈ text.toList, isLineEnd c = false) (offset : Nat) :
    (lineColumn text offset).1 = 1 :=
  advance_fst_of_single_line h offset 1 1

/-- Two characters end the first line, and another one the second. -/
example : lineColumn "a\r\nb\x0Cc" 3 = (2, 1) ∧ lineColumn "a\r\nb\x0Cc" 5 = (3, 1) := by
  decide +kernel

/-- The end belongs to the last line that has a character. -/
example : lineColumn "1 +\r\n" 5 = (1, 6) := by decide +kernel

end ArithLogic.Text
