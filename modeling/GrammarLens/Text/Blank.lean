import GrammarLens.Text

/-!
Contract: the blank characters of the language, and trimming by them.

Owns:
- the table of the twenty-nine blank code points;
- trimming blanks at the ends of a text.
-/

namespace GrammarLens.Text

/-- Inclusive ranges of blank code points. -/
def blankRanges : List (Nat × Nat) :=
  [(0x09, 0x0D), (0x1C, 0x20), (0x85, 0x85), (0xA0, 0xA0), (0x1680, 0x1680), (0x2000, 0x200A),
    (0x2028, 0x2029), (0x202F, 0x202F), (0x205F, 0x205F), (0x3000, 0x3000)]

/-- Whether a code point lies in one of the given inclusive ranges. -/
def inRanges (ranges : List (Nat × Nat)) (code : Nat) : Bool :=
  ranges.any fun range => range.1 ≤ code && code ≤ range.2

/-- Blank characters: the spaces, line and paragraph separators and layout controls of
Unicode. The zero-width characters are not blank. -/
def isBlank (c : Char) : Bool := inRanges blankRanges c.toNat

/-- The text without the blanks at its two ends. -/
def trim (text : Text) : Text := trimBoth isBlank text

end GrammarLens.Text
