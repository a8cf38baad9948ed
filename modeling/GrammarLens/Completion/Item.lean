import GrammarLens.Text

/-!
Contract: completion items and the order in which names are offered.

Owns:
- the ranking of names: names in capitals first, then without regard to case, then by code
  points;
- sort keys;
- items for attributes and objects, for tags, and for a new line.
-/

namespace GrammarLens.Completion

/-- Characters of a name in capitals. -/
def isCapitalChar (c : Char) : Bool :=
  c.isUpper || c.isDigit || c == '_' || c == '+' || c == '-'

/-- Names made of capitals, digits, underscore, plus and minus only. One newline at the end
does not count against a name. -/
def isCapitalName (name : Text) : Bool :=
  let visible := Text.dropFinalNewline name
  !visible.isEmpty && visible.all isCapitalChar

/-- A name in small letters. Names are ASCII. -/
def smallLetters (name : Text) : Text := name.map Char.toLower

/-- The order in which names are offered. -/
def rankLe (left right : Text) : Bool :=
  if isCapitalName left != isCapitalName right then isCapitalName left
  else if smallLetters left = smallLetters right then Text.le left right
  else Text.le (smallLetters left) (smallLetters right)

/-- Names in the order in which they are offered. -/
def rankNames (names : List Text) : List Text := names.mergeSort rankLe

/-- A text filled up with zeros on the left to a width. -/
def padZeros (width : Nat) (digits : Text) : Text :=
  List.replicate (width - digits.length) '0' ++ digits

/-- The sort key of a rank: four places at least, zeros after the sign. -/
def sortKey : Int → Text
  | .ofNat rank => padZeros 4 (Text.ofNat rank)
  | .negSucc rank => '-' :: padZeros 3 (Text.ofNat (rank + 1))

inductive ItemKind where
  | field
  | coreference
  | snippet
deriving DecidableEq, Repr

/-- The number of a kind in the editor protocol. -/
def ItemKind.code : ItemKind → Nat
  | .field => 5
  | .coreference => 6
  | .snippet => 15

/-- A completion item. Without a text to insert, the label is inserted. -/
structure Item where
  label : Text
  kind : ItemKind
  sortKey : Text
  insertText : Option Text
deriving DecidableEq, Repr

namespace Item

/-- The number of the insertion format, which only snippets set. -/
def insertFormat (item : Item) : Option Nat := if item.kind = .snippet then some 2 else none

/-- The item of a name at a rank. -/
def ofName (leadingSpace : Bool) (rank : Nat) (name : Text) : Item where
  label := name
  kind := .field
  sortKey := Completion.sortKey rank
  insertText := some (if leadingSpace then ' ' :: name else name)

/-- The item of a tag at a rank. -/
def ofTag (rank : Nat) (tag : Text) : Item where
  label := '#' :: tag
  kind := .coreference
  sortKey := Completion.sortKey rank
  insertText := none

/-- The item that starts a new line; it comes before every name. -/
def newLine : Item where
  label := ['⏎']
  kind := .snippet
  sortKey := Completion.sortKey 0
  insertText := some ['\n', '$', '0']

end Item

/-- Applies a function to the elements of a list and their numbers, counted from `first`. -/
def numbered {α β : Type} (build : Nat → α → β) : (first : Nat) → List α → List β
  | _, [] => []
  | first, head :: tail => build first head :: numbered build (first + 1) tail

/-- The items of names in the order in which they are offered, ranked from one. -/
def attributeItems (names : List Text) (leadingSpace : Bool) : List Item :=
  numbered (Item.ofName leadingSpace) 1 (rankNames names)

/-- The items of tags in the given order, ranked from zero. -/
def tagItems (tags : List Text) : List Item := numbered Item.ofTag 0 tags

end GrammarLens.Completion
