/-!
Contract: source text as a sequence of code points, and the few operations on it
that every other module is phrased in.

Owns:
- the text type, whose positions count code points;
- cutting at either end by a character class, and slices by offset;
- lines, separated by the newline character;
- left-to-right, non-overlapping occurrences of a pattern given by its match at
  the start of a suffix.

Does not own: any character class of the grammar language.
-/

namespace GrammarLens

/-- A text is its sequence of code points. Every offset, column and length counts them. -/
abbrev Text := List Char

namespace Text

/-- The code points from `start` up to, not including, `finish`. -/
def slice (text : Text) (start finish : Nat) : Text :=
  (text.take finish).drop start

/-- The code point right before an offset. -/
def before? (text : Text) : (offset : Nat) → Option Char
  | 0 => none
  | offset + 1 => text[offset]?

/-- The longest run at the end of the text whose characters all satisfy `belongs`. -/
def trailing (belongs : Char → Bool) (text : Text) : Text :=
  (text.reverse.takeWhile belongs).reverse

/-- The text without its longest final run of characters satisfying `belongs`. -/
def dropTrailing (belongs : Char → Bool) (text : Text) : Text :=
  (text.reverse.dropWhile belongs).reverse

/-- The text without the runs of characters satisfying `belongs` at its two ends. -/
def trimBoth (belongs : Char → Bool) (text : Text) : Text :=
  dropTrailing belongs (text.dropWhile belongs)

/-- The text without one newline at its very end, if it has one. -/
def dropFinalNewline (text : Text) : Text :=
  if text.getLast? = some '\n' then text.dropLast else text

/-- The text without one carriage return at its very end, if it has one. -/
def dropFinalReturn (text : Text) : Text :=
  if text.getLast? = some '\r' then text.dropLast else text

/-- Puts a character in front of the first line of a list of lines. -/
def consToFirst (c : Char) : List Text → List Text
  | [] => [[c]]
  | line :: others => (c :: line) :: others

/-- The lines of a text: what stands between its newlines, so that a text with `n`
newlines has `n + 1` lines. -/
def lines : Text → List Text
  | [] => [[]]
  | c :: rest => if c = '\n' then [] :: lines rest else consToFirst c (lines rest)

/-- Puts one newline between neighbouring lines. -/
def joinLines : List Text → Text
  | [] => []
  | [line] => line
  | line :: next :: others => line ++ '\n' :: joinLines (next :: others)

/-- Occurrences of a pattern from `offset` on, after passing over `skip` characters.
`match?` looks at a suffix and answers what it found there and how many characters that
takes; matching resumes right after a match. -/
def occurrencesFrom {α : Type} (match? : Text → Option (α × Nat)) :
    (offset skip : Nat) → Text → List (Nat × α)
  | _, _, [] => []
  | offset, skip + 1, _ :: rest => occurrencesFrom match? (offset + 1) skip rest
  | offset, 0, c :: rest =>
    match match? (c :: rest) with
    | some (found, length) =>
      (offset, found) :: occurrencesFrom match? (offset + 1) (length - 1) rest
    | none => occurrencesFrom match? (offset + 1) 0 rest

/-- The occurrences of a pattern in a text, each with its offset, from left to right and
without overlap. -/
def occurrences {α : Type} (match? : Text → Option (α × Nat)) (text : Text) : List (Nat × α) :=
  occurrencesFrom match? 0 0 text

/-- Joins texts with a separator between neighbours. -/
def joinWith (separator : Text) : List Text → Text
  | [] => []
  | [piece] => piece
  | piece :: next :: others => piece ++ separator ++ joinWith separator (next :: others)

/-- Splits a text at every occurrence of one separating character. -/
def splitAtChar (separator : Char) : Text → List Text
  | [] => [[]]
  | c :: rest =>
    if c = separator then [] :: splitAtChar separator rest
    else consToFirst c (splitAtChar separator rest)

/-- The decimal digits of a natural number. -/
def ofNat (n : Nat) : Text := Nat.toDigits 10 n

/-- The decimal digits of an integer, after a minus sign when it is negative. -/
def ofInt : Int → Text
  | .ofNat n => ofNat n
  | .negSucc n => '-' :: ofNat (n + 1)

/-- The most digits of a decimal numeral, read or written. -/
def numeralLimit : Nat := 4300

/-- Whether an integer has a decimal numeral within the limit. -/
def hasNumeral (number : Int) : Bool := (ofNat number.natAbs).length ≤ numeralLimit

/-- The order of texts by code points: a text comes before its extensions, and otherwise the
first difference decides. -/
def le : Text → Text → Bool
  | [], _ => true
  | _ :: _, [] => false
  | c :: left, d :: right => if c = d then le left right else decide (c.toNat < d.toNat)

/-- Sorts texts by code points. -/
def sort (texts : List Text) : List Text := texts.mergeSort le

end Text

end GrammarLens
