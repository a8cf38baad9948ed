import GrammarLens.DocBlock
import GrammarLens.Text.Position

/-!
Contract: definitions. A definition is a name followed, after blanks, by `:=`.

Owns:
- definition records: the name, the file, the address of the name and the documentation;
- extraction of the records of a text in source order.
-/

namespace GrammarLens

/-- A definition found in a file. -/
structure DefinitionRecord where
  name : Text
  uri : Text
  range : SourceRange
  doc : Option Text
deriving DecidableEq, Repr

/-- The defined name at the start of a text, with the length up to the end of its `:=`. -/
def leadingDefinition? (text : Text) : Option (Text × Nat) :=
  let name := text.takeWhile isNameChar
  let afterName := text.dropWhile isNameChar
  if name.isEmpty then none
  else
    match afterName.dropWhile Text.isBlank with
    | ':' :: '=' :: _ => some (name, name.length + (afterName.takeWhile Text.isBlank).length + 2)
    | _ => none

/-- The address of a name at an offset. The name stands on one line. -/
def nameRange (text : Text) (start : Nat) (name : Text) : SourceRange :=
  let position := text.positionAt start
  ⟨position.line, position.character, position.line, position.character + name.length⟩

/-- The defined names of a text with their offsets and documentation, in source order. The
documentation is looked for right after the `:=`. -/
def definedNames (text : Text) : List (Nat × Text × Option Text) :=
  text.occurrences fun suffix =>
    (leadingDefinition? suffix).map fun (name, length) =>
      ((name, DocBlock.find? suffix length), length)

/-- The definitions of a text, in source order. -/
def extractDefinitions (text uri : Text) : List DefinitionRecord :=
  (definedNames text).map fun (start, name, doc) => ⟨name, uri, nameRange text start name, doc⟩

end GrammarLens
