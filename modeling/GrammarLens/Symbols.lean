import GrammarLens.Attributes
import GrammarLens.Definition
import GrammarLens.Tag

/-!
Contract: everything that one file contributes to a workspace.

Owns: the symbols of a file and their extraction. Extraction never fails: text that is
not yet complete contributes what is there.
-/

namespace GrammarLens

/-- What one file says: attributes, definitions in source order, tags. -/
structure FileSymbols where
  uri : Text
  attributes : AttributeMap
  definitions : List DefinitionRecord
  tags : List Text
deriving DecidableEq, Repr

/-- The symbols of a text under a file's identity. -/
def FileSymbols.extract (text uri : Text) : FileSymbols where
  uri := uri
  attributes := extractAttributes text
  definitions := extractDefinitions text uri
  tags := extractTags text

end GrammarLens
