import GrammarLens.Text

/-!
Contract: the tokens of a grammar text. A token is a name, with dots between its
segments and possibly a leading hash, or one structural character. Everything
else separates tokens.

Owns:
- the alphabets of names and tags;
- the token type, its written form and its base name;
- tokenization, which takes the longest name at each place and never fails.

Does not own: comments, which are blanked before tokenization where they should
not count.
-/

namespace GrammarLens

/-- Characters of a name: ASCII letters, digits, underscore, plus, minus and star. -/
def isNameChar (c : Char) : Bool :=
  c.isAlphanum || c == '_' || c == '+' || c == '-' || c == '*'

/-- Characters of a tag: those of a name without the star. -/
def isTagChar (c : Char) : Bool :=
  c.isAlphanum || c == '_' || c == '+' || c == '-'

inductive TokenKind where
  | identifier
  | tag
  | leftBracket
  | rightBracket
  | leftAngle
  | rightAngle
  | comma
  | ampersand
deriving DecidableEq, Repr

/-- The kind of a structural character. -/
def TokenKind.ofChar? : Char → Option TokenKind
  | '[' => some .leftBracket
  | ']' => some .rightBracket
  | '<' => some .leftAngle
  | '>' => some .rightAngle
  | ',' => some .comma
  | '&' => some .ampersand
  | _ => none

/-- The written label of a kind. -/
def TokenKind.label : TokenKind → String
  | .identifier => "IDENTIFIER"
  | .tag => "TAG"
  | .leftBracket => "LBRACKET"
  | .rightBracket => "RBRACKET"
  | .leftAngle => "LANGLE"
  | .rightAngle => "RANGLE"
  | .comma => "COMMA"
  | .ampersand => "AMPERSAND"

/-- A token, its exact text and the offset of its first character. -/
structure Token where
  kind : TokenKind
  text : Text
  offset : Nat
deriving DecidableEq, Repr

namespace Token

/-- The offset right after the token. -/
def finish (token : Token) : Nat := token.offset + token.text.length

/-- Identifiers and tags are names. -/
def isName (token : Token) : Bool := token.kind = .identifier || token.kind = .tag

/-- Kind, quoted text and offset. A token's text needs no escapes. -/
def render (token : Token) : Text :=
  token.kind.label.toList ++ "('".toList ++ token.text ++ "') at ".toList ++
    Text.ofNat token.offset

end Token

/-- The first segment of a token's text, without a leading hash. -/
def baseName (text : Text) : Text :=
  match text with
  | '#' :: rest => rest.takeWhile (· != '.')
  | _ => text.takeWhile (· != '.')

/-- The run of name characters at the end of a text, past one final newline. -/
def typedRun (before : Text) : Text := Text.trailing isNameChar (Text.dropFinalNewline before)

/-- What continues a dotted name: name characters, and dots that a name character follows. -/
def dottedRest : Text → Text
  | [] => []
  | c :: rest =>
    if isNameChar c then c :: dottedRest rest
    else if c = '.' && (rest.head?.any isNameChar) then c :: dottedRest rest
    else []

/-- The dotted name at the start of a text; empty when the text starts otherwise. -/
def dottedName (text : Text) : Text :=
  if text.head?.any isNameChar then dottedRest text else []

/-- The kind and text of the token at the start of a text. -/
def leadingToken? (text : Text) : Option (TokenKind × Text) :=
  match text with
  | [] => none
  | c :: rest =>
    if isNameChar c then some (.identifier, dottedName text)
    else if c = '#' && (rest.head?.any isNameChar) then some (.tag, c :: dottedName rest)
    else (TokenKind.ofChar? c).map fun kind => (kind, [c])

/-- The tokens of a text, in order. -/
def tokenize (text : Text) : List Token :=
  (text.occurrences fun suffix =>
    (leadingToken? suffix).map fun found => (found, found.2.length)).map
    fun (offset, kind, lexeme) => ⟨kind, lexeme, offset⟩

end GrammarLens
