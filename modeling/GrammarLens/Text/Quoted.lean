import GrammarLens.Text.Printable

/-!
Contract: texts written between quotes, as messages show them.

Owns: the choice of the quote and the escapes. A text is written between apostrophes; one
that holds an apostrophe and no double quote is written between double quotes. The quote in
use, the backslash and every character that cannot be shown are escaped.
-/

namespace GrammarLens.Text

/-- A digit of base sixteen, in lower case. -/
def hexDigit (n : Nat) : Char := Nat.digitChar (n % 16)

/-- The last `width` digits of a number in base sixteen. -/
def hexDigits : (width : Nat) → Nat → Text
  | 0, _ => []
  | width + 1, n => hexDigits width (n / 16) ++ [hexDigit n]

/-- The escape of a character that cannot be shown, as short as its code point allows. -/
def escapeCode (code : Nat) : Text :=
  if code < 0x100 then '\\' :: 'x' :: hexDigits 2 code
  else if code < 0x10000 then '\\' :: 'u' :: hexDigits 4 code
  else '\\' :: 'U' :: hexDigits 8 code

/-- One character between the given quotes. -/
def quoteChar (quote c : Char) : Text :=
  if c = quote || c = '\\' then ['\\', c]
  else if c = '\t' then ['\\', 't']
  else if c = '\n' then ['\\', 'n']
  else if c = '\r' then ['\\', 'r']
  else if isPrintable c then [c]
  else escapeCode c.toNat

/-- The quote for a text: apostrophes unless only double quotes avoid an escape. -/
def quoteFor (text : Text) : Char :=
  if text.contains '\'' && !text.contains '"' then '"' else '\''

/-- A text between quotes. -/
def quoted (text : Text) : Text :=
  let quote := quoteFor text
  quote :: text.flatMap (quoteChar quote) ++ [quote]

end GrammarLens.Text
