import GrammarLens.Token

/-!
Contract: comments. A comment runs from the first semicolon of a line that no
backslash precedes to the end of that line.

Owns:
- the start of a line's comment;
- blanking comments, which keeps every offset;
- tokens outside comments.
-/

namespace GrammarLens

/-- The first semicolon that no backslash precedes, when `previous` stands before the text. -/
def commentStartAfter (previous : Option Char) : Text → Option Nat
  | [] => none
  | c :: rest =>
    if c = ';' && previous != some '\\' then some 0
    else (commentStartAfter (some c) rest).map (· + 1)

/-- The column at which the comment of a line starts. -/
def commentStart? (line : Text) : Option Nat := commentStartAfter none line

/-- A line with its comment replaced by as many spaces. -/
def blankLineComment (line : Text) : Text :=
  match commentStart? line with
  | none => line
  | some start => line.take start ++ List.replicate (line.length - start) ' '

/-- A text with the comment of every line replaced by spaces, so that offsets in the result
are offsets in the text. -/
def blankComments (text : Text) : Text :=
  Text.joinLines ((Text.lines text).map blankLineComment)

/-- The tokens of a text that stand outside its comments. -/
def tokenizeCode (text : Text) : List Token := tokenize (blankComments text)

end GrammarLens
