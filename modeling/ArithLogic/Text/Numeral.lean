/-!
# ArithLogic.Text.Numeral

Decimal numerals.  A numeral is an optional `-`, an optional `+`, and digits
with `_` allowed anywhere but at their beginning.  Each sign is only taken
off when no `+` follows it, so `-+5` and `++5` are no numerals, and at least
one character has to follow the signs.
-/

namespace ArithLogic.Text

/-- The value of digits read after `value`; underscores are skipped. -/
def digitsAfter? (value : Nat) : List Char → Option Nat
  | [] => some value
  | c :: cs =>
    if c = '_' then digitsAfter? value cs
    else if c.isDigit then digitsAfter? (10 * value + (c.toNat - '0'.toNat)) cs
    else none

/-- Takes `sign` off the front unless a `+` follows it. -/
def dropSign (sign : Char) : List Char → List Char
  | c :: '+' :: cs => c :: '+' :: cs
  | c :: cs => if c = sign then cs else c :: cs
  | [] => []

/-- The value of an unsigned numeral, with one `+` allowed in front. -/
def natural? (cs : List Char) : Option Nat :=
  match dropSign '+' cs with
  | [] => none
  | '_' :: _ => none
  | digits => digitsAfter? 0 digits

/-- The value of a numeral. -/
def integer? (cs : List Char) : Option Int :=
  match cs with
  | '-' :: _ => (natural? (dropSign '-' cs)).map fun n => -(n : Int)
  | _ => (natural? cs).map fun n => (n : Int)

end ArithLogic.Text
