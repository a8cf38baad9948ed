import GrammarLens.Comment
import GrammarLens.Table
import GrammarLens.Text.Position

/-!
Contract: which attributes a text gives to which objects. A text names them in two
ways: a dotted reference `X.Y` gives `Y` to `X`, and a bracketed literal
`X [ a …, b … ]` gives `a` and `b` to `X`.

Owns:
- attribute maps;
- dotted references, taken from the whole text, comments included;
- bracketed literals, taken from the tokens outside comments;
- the owner of a bracket, which is the token right before it.
-/

namespace GrammarLens

/-- Object names with the set of attribute names known for each. -/
abbrev AttributeMap := Table Text (List Text)

namespace AttributeMap

/-- The attributes of an object; none when the object is unknown. -/
def attributes (known : AttributeMap) (object : Text) : List Text :=
  (known.find? object).getD []

/-- Records attributes for an object. The object is recorded even when there are none. -/
def addAll (known : AttributeMap) (object : Text) (names : List Text) : AttributeMap :=
  known.put object (names.foldl (fun present name => present.insert name) (attributes known object))

/-- Records one attribute for an object. -/
def add (known : AttributeMap) (object name : Text) : AttributeMap := addAll known object [name]

/-- Records pairs of an object and an attribute, in order. -/
def addPairs (known : AttributeMap) (pairs : List (Text × Text)) : AttributeMap :=
  pairs.foldl (fun current pair => add current pair.1 pair.2) known

/-- The union of two maps; objects of the first keep their places. -/
def union (left right : AttributeMap) : AttributeMap :=
  right.entries.foldl (fun current entry => addAll current entry.1 entry.2) left

end AttributeMap

/-- The dotted reference at the start of a text, with the length of the whole dotted name:
its first two segments are object and attribute. -/
def leadingReference? (text : Text) : Option ((Text × Text) × Nat) :=
  let object := text.takeWhile isNameChar
  match text.dropWhile isNameChar with
  | '.' :: rest =>
    let feature := rest.takeWhile isNameChar
    if object.isEmpty || feature.isEmpty then none
    else some ((object, feature), (dottedName text).length)
  | _ => none

/-- Object and attribute of every dotted reference of a text. -/
def dottedReferences (text : Text) : List (Text × Text) :=
  (text.occurrences leadingReference?).map Prod.snd

/-- The owner of the bracket at an index: the text of the token before it. The first token of
a list has no owner. -/
def bracketOwner (tokens : List Token) : Nat → Option Text
  | 0 => none
  | index + 1 => tokens[index]?.map Token.text

/-- The owner of the bracket at any integer. Nothing before the second token is owned, and
the token before the index has to exist. -/
def bracketOwnerAt (tokens : List Token) (index : Int) : Except AddressError (Option Text) :=
  if index < 1 then .ok none
  else if addressLimit < index - 1 then .error .indexTooLarge
  else
    match bracketOwner tokens index.toNat with
    | some owner => .ok (some owner)
    | none => .error .indexPastEnd

/-- The base names that head the segments of a bracket, read from the tokens after it.
`nested` counts the brackets open inside it; `expecting` holds until its segment has a head. -/
def segmentHeads : (nested : Nat) → (expecting : Bool) → List Token → List Text
  | _, _, [] => []
  | nested, expecting, token :: rest =>
    match token.kind with
    | .leftBracket => segmentHeads (nested + 1) expecting rest
    | .rightBracket => if nested = 0 then [] else segmentHeads (nested - 1) expecting rest
    | .comma => segmentHeads nested (expecting || nested = 0) rest
    | .identifier | .tag =>
      if nested = 0 && expecting then baseName token.text :: segmentHeads nested false rest
      else segmentHeads nested expecting rest
    | .leftAngle | .rightAngle | .ampersand => segmentHeads nested expecting rest

/-- Owner and attribute for every segment of every owned bracket, when `previous` stands
before the tokens. Each bracket is read on its own, so a nested one counts for its own owner
only. -/
def bracketedAfter (previous : Option Token) : List Token → List (Text × Text)
  | [] => []
  | token :: rest =>
    let here :=
      match token.kind, previous with
      | .leftBracket, some owner => (segmentHeads 0 true rest).map fun head => (owner.text, head)
      | _, _ => []
    here ++ bracketedAfter (some token) rest

/-- Owner and attribute for every bracketed literal of a token list. -/
def bracketedAttributes (tokens : List Token) : List (Text × Text) := bracketedAfter none tokens

/-- The attribute map of the dotted references of a text. -/
def dottedMap (text : Text) : AttributeMap := AttributeMap.addPairs Table.empty (dottedReferences text)

/-- The attribute map of the bracketed literals of a token list. -/
def bracketedMap (tokens : List Token) : AttributeMap :=
  AttributeMap.addPairs Table.empty (bracketedAttributes tokens)

/-- The attribute map of a text: its dotted references, comments included, and then its
bracketed literals outside comments. -/
def extractAttributes (text : Text) : AttributeMap :=
  AttributeMap.addPairs (dottedMap text) (bracketedAttributes (tokenizeCode text))

end GrammarLens
