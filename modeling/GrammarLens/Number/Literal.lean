import GrammarLens.Text.Blank
import GrammarLens.Text.Digit

/-!
Contract: whole numbers as people type them.

Owns: reading a decimal integer with blanks around it, an optional sign, digits of any
script, and single underscores between digits. More digits than the limit are refused.
-/

namespace GrammarLens

/-- Blanks that may surround a number in plain ASCII text. -/
def isAsciiBlank (c : Char) : Bool := c == ' ' || (9 ≤ c.toNat && c.toNat ≤ 13)

/-- A character with a blank of any script as a space and a digit of any script as the ASCII
digit. -/
def plainNumberChar (c : Char) : Char :=
  if c.toNat < 127 then c
  else if Text.isBlank c then ' '
  else ((Text.digitValue? c).map Nat.digitChar).getD c

/-- Reads digits with single underscores between them. `afterDigit` tells whether a digit
stands right before the text; the text must end after a digit. -/
def readDigits? (value : Nat) (afterDigit : Bool) : Text → Option Nat
  | [] => if afterDigit then some value else none
  | c :: rest =>
    if c.isDigit then readDigits? (value * 10 + (c.toNat - '0'.toNat)) true rest
    else if c = '_' && afterDigit then readDigits? value false rest
    else none

/-- Reads a whole number, or refuses the text. -/
def readInteger? (text : Text) : Option Int :=
  let plain := Text.trimBoth isAsciiBlank (text.map plainNumberChar)
  let unsigned := fun (digits : Text) =>
    if Text.numeralLimit < digits.countP Char.isDigit then none else readDigits? 0 false digits
  match plain with
  | '-' :: digits => (unsigned digits).map fun size => -(size : Int)
  | '+' :: digits => (unsigned digits).map fun size => (size : Int)
  | digits => (unsigned digits).map fun size => (size : Int)

end GrammarLens
