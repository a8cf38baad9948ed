import GrammarLens.Text.Blank
import GrammarLens.Text.Position
import GrammarLens.Token

/-!
Contract: documentation blocks. A block is text between two triple quotes; it documents
the definition it follows when the definition has not ended before the block opens and
the block is closed by a period.

Owns:
- the triple-quote delimiter;
- where a definition ends: at a period that no name character follows;
- what may stand between a block's closing delimiter and its period;
- finding the block after an offset.
-/

namespace GrammarLens

/-- Whether a text starts with the triple quote. -/
def opensDoc (text : Text) : Bool := ['"', '"', '"'].isPrefixOf text

namespace DocBlock

/-- Layout between the parts of a definition's end: spaces, tabs and newlines. -/
def isLayout (c : Char) : Bool := c == ' ' || c == '\t' || c == '\n'

/-- Whether a period follows, after layout. -/
def periodFollows (text : Text) : Bool := (text.dropWhile isLayout).head? = some '.'

/-- Whether the text, read from inside a square bracket, reaches a closing bracket that a
period follows, without a colon, semicolon or bar before it. -/
def annotationCloses : Text → Bool
  | [] => false
  | c :: rest =>
    (c = ']' && periodFollows rest) ||
      (c != ':' && c != ';' && c != '|' && annotationCloses rest)

/-- Whether the text after a block's closing delimiter ends the definition: layout, an
optional bracketed annotation or bare name, layout, a period. -/
def closesDefinition (text : Text) : Bool :=
  match text.dropWhile isLayout with
  | '[' :: rest => annotationCloses rest
  | rest => periodFollows (rest.dropWhile isNameChar)

/-- The offset of the first delimiter that closes a block and its definition. -/
def closing? : Text → Option Nat
  | [] => none
  | c :: rest =>
    if opensDoc (c :: rest) && closesDefinition (rest.drop 2) then some 0
    else (closing? rest).map (· + 1)

/-- The documentation of a block, read from right after its opening delimiter. -/
def body? (text : Text) : Option Text :=
  (closing? text).map fun finish => Text.trim (text.take finish)

/-- How many characters stand before the first period that ends a definition; all of them
when there is none. A period at the very end of a text does not count. -/
def periodLimit : Text → Nat
  | [] => 0
  | c :: rest =>
    if c = '.' && rest.head?.any (fun next => !isNameChar next) then 0 else periodLimit rest + 1

/-- The offsets of the delimiters of a text, without overlap. -/
def delimiters (text : Text) : List Nat :=
  (text.occurrences fun suffix => if opensDoc suffix then some ((), 3) else none).map Prod.fst

/-- The documentation block that follows `start`: of the delimiters before the end of the
definition, the first that opens a closed block. -/
def find? (text : Text) (start : Nat) : Option Text :=
  let suffix := text.drop start
  (delimiters (suffix.take (periodLimit suffix))).findSome? fun opening =>
    body? (suffix.drop (opening + 3))

/-- The documentation block that follows an offset, which has to be one that a text can have;
it may lie past the end of this text. -/
def findFrom (text : Text) (start : Nat) : Except AddressError (Option Text) :=
  if start ≤ addressLimit then .ok (find? text start) else .error .offsetTooLarge

end DocBlock

end GrammarLens
