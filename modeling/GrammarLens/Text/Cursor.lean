import GrammarLens.Text.Position

/-!
Contract: positions as they are exchanged with an editor.

Owns:
- cursors, whose line and column are both between zero and a fixed limit;
- making a cursor of two numbers, and which number is refused.

Does not own: whether a text has the line and the column.
-/

namespace GrammarLens

/-- The largest line and the largest column that an editor can name. -/
def coordinateLimit : Nat := 2147483647

/-- The two numbers of a position. -/
inductive Coordinate where
  | line
  | character
deriving DecidableEq, Repr

def Coordinate.name : Coordinate → Text
  | line => "line".toList
  | character => "character".toList

/-- A number that cannot be a coordinate. -/
structure CursorError where
  coordinate : Coordinate
  value : Int
deriving DecidableEq, Repr

def CursorError.message (error : CursorError) : Text :=
  "Position.".toList ++ error.coordinate.name ++ " should be in range [0:".toList ++
    Text.ofNat coordinateLimit ++ "], but was ".toList ++ Text.ofInt error.value ++ ['.']

/-- A position that an editor can name. -/
structure Cursor where
  line : Nat
  character : Nat
  line_le : line ≤ coordinateLimit
  character_le : character ≤ coordinateLimit
deriving DecidableEq, Repr

namespace Cursor

/-- A number as a coordinate. -/
def readCoordinate (coordinate : Coordinate) (value : Int) :
    Except CursorError { number : Nat // number ≤ coordinateLimit } :=
  if inRange : 0 ≤ value ∧ value ≤ coordinateLimit then .ok ⟨value.toNat, by omega⟩
  else .error ⟨coordinate, value⟩

/-- The cursor at a line and a column. Of two wrong numbers, the line is the one refused. -/
def ofNumbers (line character : Int) : Except CursorError Cursor := do
  let lineNumber ← readCoordinate .line line
  let column ← readCoordinate .character character
  return ⟨lineNumber.val, column.val, lineNumber.property, column.property⟩

end Cursor

end GrammarLens
