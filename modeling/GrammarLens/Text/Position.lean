import GrammarLens.Text

/-!
Contract: addresses in a text, as an absolute offset or as a line and a column, and
the conversions between them.

Owns:
- zero-based positions and source ranges;
- the position of an offset, and the offset of a position; both accept every
  integer and clamp it to the text;
- the written form of a range's start, and when it has one;
- the numbers that can address a character or a list item at all.
-/

namespace GrammarLens

/-- A zero-based line and a zero-based column in it. -/
structure Position where
  line : Nat
  character : Nat
deriving DecidableEq, Repr

/-- The position right after a character that stands at a position. -/
def Position.after (position : Position) (c : Char) : Position :=
  if c = '\n' then ⟨position.line + 1, 0⟩ else ⟨position.line, position.character + 1⟩

/-- A zero-based span of source text; the end column is exclusive. -/
structure SourceRange where
  line : Int
  character : Int
  endLine : Int
  endCharacter : Int
deriving DecidableEq, Repr

/-- The start of a range as people count it, from one. -/
def SourceRange.render (range : SourceRange) : Text :=
  Text.ofInt (range.line + 1) ++ ':' :: Text.ofInt (range.character + 1)

/-- Why a number cannot be written out. -/
inductive NumeralError where
  | tooLong
deriving DecidableEq, Repr

def NumeralError.message : NumeralError → Text
  | tooLong =>
    "Exceeds the limit (".toList ++ Text.ofNat Text.numeralLimit ++
      " digits) for integer string conversion; ".toList ++
      "use sys.set_int_max_str_digits() to increase the limit".toList

/-- Whether the start of a range can be written out. -/
def SourceRange.isWritable (range : SourceRange) : Bool :=
  Text.hasNumeral (range.line + 1) && Text.hasNumeral (range.character + 1)

/-- The written start of a range, if its numerals keep to the limit. -/
def SourceRange.write (range : SourceRange) : Except NumeralError Text :=
  if range.isWritable then .ok range.render else .error .tooLong

/-- The largest number that addresses a character of a text or an item of a list. -/
def addressLimit : Nat := 9223372036854775807

/-- Why a number addresses nothing. -/
inductive AddressError where
  /-- An offset that no text has. -/
  | offsetTooLarge
  /-- An index that no list has. -/
  | indexTooLarge
  /-- An index past the end of the list at hand. -/
  | indexPastEnd
deriving DecidableEq, Repr

def AddressError.message : AddressError → Text
  | offsetTooLarge => "Python int too large to convert to C ssize_t".toList
  | indexTooLarge => "cannot fit 'int' into an index-sized integer".toList
  | indexPastEnd => "list index out of range".toList

namespace Text

/-- The offset nearest to `offset` that lies in the text. -/
def clampOffset (text : Text) (offset : Int) : Nat := min offset.toNat text.length

/-- The position `count` characters on in a text that starts at `position`; the end of the text
when it has fewer. -/
def positionFrom (position : Position) : (count : Nat) → Text → Position
  | 0, _ => position
  | _ + 1, [] => position
  | count + 1, c :: rest => positionFrom (position.after c) count rest

/-- The line and column of an offset, clamped to the text. -/
def positionAt (text : Text) (offset : Int) : Position := positionFrom ⟨0, 0⟩ offset.toNat text

/-- The visible part of the first line of a text: up to its newline, and without a carriage
return right before that newline or the end of the text. -/
def firstLine (text : Text) : Text := dropFinalReturn (text.takeWhile (· != '\n'))

/-- The offset of a column, clamped to its line, `line` lines below the start of the text;
the end of the text when it has fewer lines. -/
def offsetBelow (character : Nat) : (line : Nat) → Text → Nat
  | 0, text => min character (firstLine text).length
  | _ + 1, [] => 0
  | line + 1, c :: rest =>
    if c = '\n' then offsetBelow character line rest + 1
    else offsetBelow character (line + 1) rest + 1

/-- The offset of a line and column. A negative line is the start of the text, a line past
the last one its end; a column is clamped to its line, before the line's end characters. -/
def offsetAt (text : Text) (line character : Int) : Nat :=
  if line < 0 then 0 else offsetBelow character.toNat line.toNat text

end Text

end GrammarLens
