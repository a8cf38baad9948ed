import GrammarLens.Comment
import GrammarLens.DocBlock

/-!
Contract: highlighting of known type names.

Owns:
- spans and the legend of their types;
- classification: every run of name characters that is a known name gets a span, unless it
  stands in a documentation block, in a comment, or right after a hash, colon or quote;
- the relative encoding of spans.
-/

namespace GrammarLens

/-- A highlighted stretch of one line, with an index into the legend. -/
structure Span where
  line : Int
  column : Int
  length : Int
  tokenType : Int := 0
deriving DecidableEq, Repr

namespace Highlight

/-- The legend of span types. Known type names have the first one. -/
def tokenTypes : List Text :=
  ["type-tdl".toList, "variable-tdl".toList, "property-tdl".toList]

/-- The legend of span modifiers. -/
def tokenModifiers : List Text := []

/-- Lines as an editor counts them: a carriage return right before a newline belongs to the
line end. -/
def visibleLines : List Text → List Text
  | [] => []
  | [last] => [last]
  | line :: next :: others => Text.dropFinalReturn line :: visibleLines (next :: others)

/-- The run of name characters at the start of a text. -/
def leadingRun? (text : Text) : Option (Text × Nat) :=
  let run := text.takeWhile isNameChar
  if run.isEmpty then none else some (run, run.length)

/-- The column ranges of documentation in the rest of a line, and whether the next line starts
inside documentation. `opened` is the column where the current block was entered, `column`
that of the rest, `previous` the character before it. A comment outside documentation hides
the delimiters after it. -/
def docRanges (previous : Option Char) (opened : Option Nat) (column : Nat) :
    Text → List (Nat × Nat) × Bool
  | [] =>
    match opened with
    | some start => ([(start, column)], true)
    | none => ([], false)
  | '"' :: '"' :: '"' :: rest =>
    match opened with
    | none => docRanges (some '"') (some column) (column + 3) rest
    | some start =>
      let (ranges, inside) := docRanges (some '"') none (column + 3) rest
      ((start, column + 3) :: ranges, inside)
  | c :: rest =>
    if opened.isNone && c = ';' && previous != some '\\' then ([], false)
    else docRanges (some c) opened (column + 1) rest

/-- Characters that keep the name after them from being highlighted. -/
def isShield (c : Char) : Bool := c == '#' || c == ':' || c == '"'

/-- Whether the run at a column of a line is shown: not after the start of its comment, not
inside documentation, not right after a shielding character. -/
def isShown (line : Text) (comment : Option Nat) (ranges : List (Nat × Nat))
    (column length : Nat) : Bool :=
  !(comment.any fun start => start < column) &&
    !(ranges.any fun range => range.1 ≤ column && column + length ≤ range.2) &&
    !((line.before? column).any isShield)

/-- The spans of one line, given the documentation ranges in it. -/
def lineSpans (isKnown : Text → Bool) (number : Nat) (line : Text)
    (ranges : List (Nat × Nat)) : List Span :=
  let comment := commentStart? line
  (line.occurrences leadingRun?).filterMap fun (column, run) =>
    if isShown line comment ranges column run.length && isKnown run then
      some { line := number, column, length := run.length }
    else none

/-- The spans of lines from a line number on; `inside` tells whether they start inside
documentation. -/
def classifyLines (isKnown : Text → Bool) : (number : Nat) → (inside : Bool) → List Text → List Span
  | _, _, [] => []
  | number, inside, line :: others =>
    let (ranges, next) := docRanges none (if inside then some 0 else none) 0 line
    lineSpans isKnown number line ranges ++ classifyLines isKnown (number + 1) next others

/-- The spans of a text for a set of known names, in order. -/
def classify (names : List Text) (text : Text) : List Span :=
  classifyLines names.contains 0 false (visibleLines (Text.lines text))

/-- The order of spans by line, then column. -/
def spanLe (left right : Span) : Bool :=
  left.line < right.line || (left.line = right.line && left.column ≤ right.column)

/-- Encodes spans one after the other, each relative to the one before it, which stands at
`line` and `column`: line difference, column difference on the same line or else the column,
length, type, no modifiers. -/
def encodeFrom (line column : Int) : List Span → List Int
  | [] => []
  | span :: others =>
    let lineDelta := span.line - line
    let columnDelta := if lineDelta = 0 then span.column - column else span.column
    lineDelta :: columnDelta :: span.length :: span.tokenType :: 0 ::
      encodeFrom span.line span.column others

/-- The relative encoding of spans, sorted by line and column. -/
def encode (spans : List Span) : List Int := encodeFrom 0 0 (spans.mergeSort spanLe)

/-- The encoded highlighting of a text. -/
def tokens (names : List Text) (text : Text) : List Int := encode (classify names text)

end Highlight

end GrammarLens
