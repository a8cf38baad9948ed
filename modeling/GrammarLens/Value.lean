import GrammarLens.Number.Binary64
import GrammarLens.Text.Quoted

/-!
Contract: the untyped values that editors send as options.

Owns: the value type, its kinds as messages name them, truth of a value, and the written
form of a value.
-/

namespace GrammarLens

/-- An option value. Objects keep the order of their fields. -/
inductive Value where
  | null
  | bool (flag : Bool)
  | int (number : Int)
  | real (number : Binary64)
  | text (content : Text)
  | list (items : List Value)
  | object (fields : List (Text × Value))
deriving Inhabited, Repr

namespace Value

/-- The name of a value's kind in messages. -/
def kindName : Value → Text
  | null => "NoneType".toList
  | bool _ => "bool".toList
  | int _ => "int".toList
  | real _ => "float".toList
  | text _ => "str".toList
  | list _ => "list".toList
  | object _ => "dict".toList

/-- Whether a value counts as given: not null, false, zero or empty. -/
def isGiven : Value → Bool
  | null => false
  | bool flag => flag
  | int number => number != 0
  | real number => !number.isZero
  | text content => !content.isEmpty
  | list items => !items.isEmpty
  | object fields => !fields.isEmpty

mutual

/-- The written form of a value. Texts are quoted, and parts stand between commas. -/
def render : Value → Text
  | null => "None".toList
  | bool flag => if flag then "True".toList else "False".toList
  | int number => Text.ofInt number
  | real number => number.render
  | text content => Text.quoted content
  | list items => '[' :: Text.joinWith ", ".toList (renderItems items) ++ [']']
  | object fields => '\x7b' :: Text.joinWith ", ".toList (renderFields fields) ++ ['\x7d']

/-- The written forms of the items of a list. -/
def renderItems : List Value → List Text
  | [] => []
  | item :: rest => render item :: renderItems rest

/-- The written forms of the fields of an object: key, colon and value. -/
def renderFields : List (Text × Value) → List Text
  | [] => []
  | (key, value) :: rest => (Text.quoted key ++ ": ".toList ++ render value) :: renderFields rest

end

/-- A value as a message shows it: a text as it is, and any other value written. -/
def display : Value → Text
  | text content => content
  | other => render other

end Value

end GrammarLens
