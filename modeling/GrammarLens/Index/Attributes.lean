import GrammarLens.Attributes

/-!
Contract: the attribute maps of all indexed files and their union.

Owns: the index and its updates. The union is formed anew whenever a file is set or
removed; a batch of files may put that off and form it once at its end.
-/

namespace GrammarLens

/-- Attribute maps by file, and their union. -/
structure AttributeIndex where
  files : Table Text AttributeMap
  merged : AttributeMap
deriving DecidableEq, Repr

namespace AttributeIndex

def empty : AttributeIndex := ⟨Table.empty, Table.empty⟩

/-- The union of attribute maps, in order. -/
def unionOf (maps : List AttributeMap) : AttributeMap := maps.foldl AttributeMap.union Table.empty

/-- Forms the union of the file maps. -/
def rebuild (index : AttributeIndex) : AttributeIndex :=
  { index with merged := unionOf index.files.values }

/-- Registers a file's map without forming the union. -/
def register (index : AttributeIndex) (uri : Text) (known : AttributeMap) : AttributeIndex :=
  { index with files := index.files.put uri known }

/-- Replaces a file's map. -/
def set (index : AttributeIndex) (uri : Text) (known : AttributeMap) : AttributeIndex :=
  (index.register uri known).rebuild

/-- Whether a file is indexed. -/
def contains (index : AttributeIndex) (uri : Text) : Bool := index.files.contains uri

/-- Drops a file's map. -/
def remove (index : AttributeIndex) (uri : Text) : AttributeIndex :=
  rebuild { index with files := index.files.erase uri }

/-- Every attribute known for an object. -/
def attributesFor (index : AttributeIndex) (object : Text) : List Text :=
  AttributeMap.attributes index.merged object

/-- The objects whose names start with the given text, in table order. -/
def objectsStarting (index : AttributeIndex) (start : Text) : List Text :=
  index.merged.keys.filter fun object => start.isPrefixOf object

end AttributeIndex

end GrammarLens
